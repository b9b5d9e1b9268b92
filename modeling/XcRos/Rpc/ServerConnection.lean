import XcRos.Rpc.Dispatch
import XcRos.Rpc.Header
import XcRos.Rpc.Socket

/-! # The server's side of an RPC connection

`RobotRpcServerConnection` reads a request, has it executed and writes the response, event by event.
The response is delivered whole unless a connection that is not kept alive needs a second event.
-/

namespace XcRos.Rpc

open XcRos.Foundation

inductive ServerConnectionState where
  | readHeader
  | readRequest
  | writeResponse
deriving DecidableEq, Repr

structure ServerConnection where
  connectionState : ServerConnectionState
  header : Bytes
  contentLength : Int32
  request : Bytes
  response : Bytes
  bytesWritten : Nat
  keepAlive : Bool
  keepOpen : Bool
  /-- whether the socket is open -/
  isOpen : Bool
  /-- the mask under which the dispatcher watches the connection, if it still does -/
  mask : Option Mask
  /-- all that has been written on the socket -/
  carried : Bytes
  /-- how often `executeRequest` has run -/
  executions : Nat
deriving DecidableEq, Repr

/-- What one `handleEvent` meets: the reads and writes, and what `executeRequest` would leave in
`_response` if it were called. -/
structure ServerIo where
  headerReads : List ReadResult
  requestReads : List ReadResult
  executed : Bytes
  writes : List WriteResult
deriving DecidableEq, Repr

namespace ServerConnection

def new : ServerConnection where
  connectionState := .readHeader
  header := []
  contentLength := 0
  request := []
  response := []
  bytesWritten := 0
  keepAlive := true
  keepOpen := false
  isOpen := true
  mask := some .readableEvent
  carried := []
  executions := 0

/-- `strncasecmp(s, word, n) == 0` for a word of length `n`. -/
def startsNoCase (word s : Bytes) : Bool := (word.map tolower).isPrefixOf (s.map tolower)

/-- Whether the connection outlives the request, by HTTP version and connection field. -/
def keepAliveOf (header : Bytes) (kp : Option Bytes) : Bool :=
  if (indexOf (bytes "HTTP/1.0") header).isSome then kp.any (startsNoCase (bytes "keep-alive"))
  else !kp.any (startsNoCase (bytes "close"))

def readHeader (c : ServerConnection) (reads : List ReadResult) : Bool × ServerConnection :=
  let r := nbRead c.header reads
  let c : ServerConnection := { c with header := r.text }
  if r.ok = false then (false, c)
  else
    let found := scanHeader true ⟨none, none, none⟩ c.header
    match found.bp with
    | none => (!r.eof, c)
    | some bp =>
      match found.lp with
      | none => (false, c)
      | some lp =>
        let clength := (strtol lp).1
        if clength < 0 ∨ clength > intMax then (false, c)
        else
          (true, { c with
            contentLength := Int32.ofInt clength
            request := cStr bp
            keepAlive := keepAliveOf c.header found.kp
            header := [], connectionState := .readRequest })

def readRequest (c : ServerConnection) (reads : List ReadResult) : Bool × ServerConnection :=
  if Int32.ofNat c.request.length < c.contentLength then
    let r := nbRead c.request reads
    let c : ServerConnection := { c with request := r.text }
    if r.ok = false then (false, c)
    else if c.request.length > intMax then (false, { c with request := c.request.take intMax })
    else if Int32.ofNat c.request.length < c.contentLength then (!r.eof, c)
    else (true, { c with connectionState := .writeResponse })
  else (true, { c with connectionState := .writeResponse })

/-- `writeResponse` with a response at hand. -/
def sendResponse (c : ServerConnection) (writes : List WriteResult) : Bool × ServerConnection :=
  let r := nbWrite c.response c.bytesWritten writes
  let c : ServerConnection := { c with
    bytesWritten := r.2, carried := c.carried ++ written c.response c.bytesWritten r.2 }
  if r.1 = false then (false, c)
  else if c.bytesWritten = c.response.length then
    (c.keepAlive, { c with header := [], request := [], response := [], connectionState := .readHeader })
  else (c.keepAlive, c)

def writeResponse (c : ServerConnection) (executed : Bytes) (writes : List WriteResult) :
    Bool × ServerConnection :=
  if c.response.length = 0 then
    let c : ServerConnection := { c with response := executed, executions := c.executions + 1, bytesWritten := 0 }
    if c.response.length = 0 then (false, c) else c.sendResponse writes
  else c.sendResponse writes

def wanted (c : ServerConnection) : Mask :=
  if c.connectionState = .writeResponse then .writableEvent else .readableEvent

def handleEvent (c : ServerConnection) (io : ServerIo) : Mask × ServerConnection :=
  c |> stage (·.connectionState = .readHeader) (·.readHeader io.headerReads)
    (stage (·.connectionState = .readRequest) (·.readRequest io.requestReads)
      (stage (·.connectionState = .writeResponse) (·.writeResponse io.executed io.writes) fun c => (c.wanted, c)))

def dispatch (c : ServerConnection) (io : ServerIo) : ServerConnection :=
  let r := c.handleEvent io
  if r.1 = .none then { r.2 with mask := none, isOpen := r.2.isOpen && r.2.keepOpen }
  else { r.2 with mask := some r.1 }

/-- The events of one response: the dispatcher calls as long as the connection is writing it. -/
def respond (response : Bytes) : ServerConnection → List (List WriteResult) → ServerConnection
  | c, [] => c
  | c, writes :: events =>
    if c.connectionState = .writeResponse ∧ c.mask.isSome then
      respond response (c.dispatch ⟨[], [], response, writes⟩) events
    else c

/-- Between `start` and `last` the request was executed once, and the connection stopped writing
only with the whole response on the wire. -/
def Responded (start : ServerConnection) (response : Bytes) (last : ServerConnection) : Prop :=
  last.executions = start.executions + 1 ∧
    (last.connectionState ≠ .writeResponse ∨ last.mask = none → last.carried = start.carried ++ response)

theorem handleEvent_writing {c : ServerConnection} (hState : c.connectionState = .writeResponse) (io : ServerIo) :
    c.handleEvent io =
      if (c.writeResponse io.executed io.writes).1 then
        ((c.writeResponse io.executed io.writes).2.wanted, (c.writeResponse io.executed io.writes).2)
      else (.none, (c.writeResponse io.executed io.writes).2) := by
  simp [handleEvent, stage, hState]

/-! ## Writing a response -/

theorem sendResponse_cases (start c : ServerConnection) {writes : List WriteResult}
    (hCarried : c.carried = start.carried ++ c.response.take c.bytesWritten)
    (hBytes : c.bytesWritten ≤ c.response.length) (hLength : c.response.length ≤ intMax)
    (hNonFatal : .fatalError ∉ writes) :
    (c.sendResponse writes).1 = c.keepAlive ∧ (c.sendResponse writes).2.executions = c.executions ∧
      (((nbWrite c.response c.bytesWritten writes).2 = c.response.length ∧
          (c.sendResponse writes).2.connectionState = .readHeader ∧
          (c.sendResponse writes).2.carried = start.carried ++ c.response) ∨
        ((nbWrite c.response c.bytesWritten writes).2 < c.response.length ∧
          (c.sendResponse writes).2 = { c with
            bytesWritten := (nbWrite c.response c.bytesWritten writes).2
            carried := start.carried ++ c.response.take (nbWrite c.response c.bytesWritten writes).2 })) := by
  have hBounds := nbWrite_bounds c.response writes c.bytesWritten hBytes
  have hOk : (nbWrite c.response c.bytesWritten writes).1 = true := by
    rw [nbWrite, if_neg (by omega)]
    exact nbWriteLoop_ok c.response writes c.bytesWritten hNonFatal
  have hPut : c.carried ++ written c.response c.bytesWritten (nbWrite c.response c.bytesWritten writes).2 =
      start.carried ++ c.response.take (nbWrite c.response c.bytesWritten writes).2 := by
    rw [hCarried, List.append_assoc, take_append_written _ hBounds.1]
  rw [sendResponse]
  simp only [hOk, Bool.true_eq_false, if_false, hPut]
  split
  · rename_i hAll
    refine ⟨rfl, rfl, .inl ⟨hAll, rfl, ?_⟩⟩
    rw [hAll, List.take_length]
  · rename_i hPart
    exact ⟨rfl, rfl, .inr ⟨by omega, rfl⟩⟩

/-- `c` has executed the request once and is in the middle of writing the response. -/
structure Writing (start : ServerConnection) (text : Bytes) (c : ServerConnection) : Prop where
  state : c.connectionState = .writeResponse
  watched : c.mask.isSome = true
  keepAlive : c.keepAlive = true
  response : c.response = text
  partly : c.bytesWritten < text.length
  carried : c.carried = start.carried ++ text.take c.bytesWritten
  executions : c.executions = start.executions + 1

theorem Writing.responded {start c : ServerConnection} {text : Bytes} (h : Writing start text c) :
    Responded start text c := by
  refine ⟨h.executions, fun hLeft => ?_⟩
  rcases hLeft with hState | hMask
  · exact absurd h.state hState
  · exact absurd h.watched (by simp [hMask])

theorem Writing.dispatch {start c : ServerConnection} {text writes} (h : Writing start text c)
    (hLength : text.length ≤ intMax) (hNonFatal : .fatalError ∉ writes) (io : ServerIo) (hIo : io.writes = writes) :
    Writing start text (c.dispatch io) ∨
      (c.dispatch io).connectionState = .readHeader ∧ Responded start text (c.dispatch io) := by
  subst hIo
  have hNonempty : c.response.length ≠ 0 := by
    have := h.partly
    rw [h.response]
    omega
  have hWrite : c.writeResponse io.executed io.writes = c.sendResponse io.writes := by
    rw [writeResponse, if_neg hNonempty]
  obtain ⟨hKeep, hCount, hCases⟩ := sendResponse_cases start c (h.response ▸ h.carried)
    (h.response ▸ Nat.le_of_lt h.partly) (h.response ▸ hLength) hNonFatal
  have hEvent : c.handleEvent io = ((c.sendResponse io.writes).2.wanted, (c.sendResponse io.writes).2) := by
    rw [handleEvent_writing h.state, hWrite, hKeep, if_pos h.keepAlive]
  have hWanted : (c.sendResponse io.writes).2.wanted ≠ .none := by
    rw [wanted]
    split <;> decide
  rw [ServerConnection.dispatch, hEvent]
  simp only [hWanted, if_false]
  rcases hCases with ⟨-, hState, hCarried⟩ | ⟨hPart, hNext⟩
  · right
    refine ⟨hState, hCount.trans h.executions, fun _ => ?_⟩
    rw [hCarried, h.response]
  · left
    rw [hNext]
    have hResponse := h.response
    exact ⟨h.state, rfl, h.keepAlive, hResponse, hResponse ▸ hPart, by rw [hResponse], h.executions⟩

theorem respond_left {text : Bytes} {c : ServerConnection} (events : List (List WriteResult))
    (h : c.connectionState ≠ .writeResponse ∨ c.mask = none) : respond text c events = c := by
  cases events with
  | nil => rfl
  | cons writes events =>
    rw [respond, if_neg]
    rintro ⟨hState, hMask⟩
    rcases h with hLeft | hNone
    · exact hLeft hState
    · simp [hNone] at hMask

theorem Writing.respond {start c : ServerConnection} {text : Bytes} (h : Writing start text c)
    (hLength : text.length ≤ intMax) {events : List (List WriteResult)}
    (hNonFatal : ∀ writes ∈ events, .fatalError ∉ writes) :
    Responded start text (ServerConnection.respond text c events) := by
  induction events generalizing c with
  | nil => exact h.responded
  | cons writes events ih =>
    rw [ServerConnection.respond, if_pos ⟨h.state, h.watched⟩]
    rcases h.dispatch hLength (hNonFatal writes List.mem_cons_self) ⟨[], [], text, writes⟩ rfl with hNext | hDone
    · exact ih hNext fun later hLater => hNonFatal later (List.mem_cons_of_mem writes hLater)
    · rw [respond_left events (.inl (by simp [hDone.1]))]
      exact hDone.2

theorem dispatch_first {c : ServerConnection} {text : Bytes} {writes : List WriteResult}
    (hState : c.connectionState = .writeResponse) (hFresh : c.response = []) (hText : text ≠ [])
    (hLength : text.length ≤ intMax) (hNonFatal : .fatalError ∉ writes) :
    let next := c.dispatch ⟨[], [], text, writes⟩
    next.executions = c.executions + 1 ∧
      (((nbWrite text 0 writes).2 = text.length ∧ next.connectionState = .readHeader ∧
          next.carried = c.carried ++ text) ∨
        ((nbWrite text 0 writes).2 < text.length ∧ next.carried = c.carried ++ text.take (nbWrite text 0 writes).2 ∧
          (c.keepAlive = true ∧ Writing c text next ∨ c.keepAlive = false ∧ next.mask = none))) := by
  let begun : ServerConnection := { c with response := text, executions := c.executions + 1, bytesWritten := 0 }
  have hNonempty : text.length ≠ 0 := by simpa [List.length_eq_zero_iff] using hText
  have hWrite : c.writeResponse text writes = begun.sendResponse writes := by
    rw [writeResponse, hFresh, if_pos List.length_nil]
    exact if_neg hNonempty
  obtain ⟨hKeep, hCount, hCases⟩ := sendResponse_cases c begun (by simp [begun])
    (Nat.zero_le _) hLength hNonFatal
  have hWanted : (begun.sendResponse writes).2.wanted ≠ .none := by
    rw [wanted]
    split <;> decide
  simp only [ServerConnection.dispatch, handleEvent_writing hState, hWrite, hKeep]
  cases hAlive : c.keepAlive with
  | true =>
    simp only [if_true, hWanted, if_false]
    refine ⟨hCount, ?_⟩
    rcases hCases with hWhole | ⟨hPart, hNext⟩
    · exact .inl hWhole
    · rw [hNext]
      exact .inr ⟨hPart, rfl, .inl ⟨trivial, hState, rfl, hAlive, rfl, hPart, rfl, rfl⟩⟩
  | false =>
    simp only [Bool.false_eq_true, if_false, if_true]
    refine ⟨hCount, ?_⟩
    rcases hCases with hWhole | ⟨hPart, hNext⟩
    · exact .inl hWhole
    · exact .inr ⟨hPart, by rw [hNext], .inr ⟨trivial, trivial⟩⟩

/-- The response reaches the client whole exactly if the connection is kept alive or the first
writable event takes all of it. -/
theorem responded_iff {c : ServerConnection} (hState : c.connectionState = .writeResponse)
    (hFresh : c.response = []) (hWatched : c.mask.isSome = true) {text : Bytes} (hLength : text.length ≤ intMax)
    {first : List WriteResult} {events : List (List WriteResult)}
    (hNonFatal : ∀ writes ∈ first :: events, .fatalError ∉ writes) :
    Responded c text (respond text c (first :: events)) ↔
      c.keepAlive = true ∨ (nbWrite text 0 first).2 = text.length := by
  rw [respond, if_pos ⟨hState, hWatched⟩]
  by_cases hText : text = []
  · subst hText
    have hNext : c.dispatch ⟨[], [], [], first⟩ =
        { c with executions := c.executions + 1, bytesWritten := 0, mask := none, isOpen := c.isOpen && c.keepOpen } := by
      simp [ServerConnection.dispatch, handleEvent_writing hState, writeResponse, hFresh]
    have hNone : (nbWrite [] 0 first).2 = 0 := by
      have := nbWrite_bounds [] first 0 (Nat.le_refl _)
      exact Nat.le_zero.mp this.2
    rw [hNext, respond_left events (.inr rfl)]
    simp [Responded, hNone]
  · obtain ⟨hCount, hWhole | ⟨hPart, hCarried, hRest⟩⟩ :=
      dispatch_first hState hFresh hText hLength (hNonFatal first List.mem_cons_self)
    · obtain ⟨hAll, hNext, hCarried⟩ := hWhole
      rw [respond_left events (.inl (by simp [hNext]))]
      exact ⟨fun _ => .inr hAll, fun _ => ⟨hCount, fun _ => hCarried⟩⟩
    · rcases hRest with ⟨hAlive, hWriting⟩ | ⟨hAlive, hMask⟩
      · exact ⟨fun _ => .inl hAlive, fun _ => hWriting.respond hLength fun writes hMem =>
          hNonFatal writes (List.mem_cons_of_mem first hMem)⟩
      · rw [respond_left events (.inr hMask)]
        constructor
        · rintro ⟨-, hDelivered⟩
          have hEq := hCarried.symm.trans (hDelivered (.inr hMask))
          have hTake := congrArg List.length (List.append_cancel_left hEq)
          rw [List.length_take] at hTake
          omega
        · rintro (hTrue | hAll)
          · exact absurd (hAlive.symm.trans hTrue) (by decide)
          · omega

def closing : ServerConnection :=
  { new with connectionState := .writeResponse, keepAlive := false, mask := some .writableEvent }

theorem responded_iff_closing :
    Responded closing (bytes "ok") (respond (bytes "ok") closing [[.wrote 1], [.wrote 0]]) :=
  (responded_iff rfl rfl rfl (by decide) (by decide)).mpr (.inr (by decide))

def closingRequest : Bytes := bytes "POST / HTTP/1.0\r\nContent-length: 1\r\n\r\nx"

/-- Of the two bytes of the response the socket takes one, and the connection is given up. -/
theorem closingRequest_truncated :
    let last := new.dispatch ⟨[.data 80 (closingRequest.drop 1)], [], bytes "ok", [.wrote 0]⟩
    last.mask = none ∧ last.isOpen = false ∧ last.carried = bytes "o" ∧ ¬ Responded new (bytes "ok") last := by
  unfold Responded
  decide +kernel

end ServerConnection

end XcRos.Rpc
