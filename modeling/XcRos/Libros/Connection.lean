import XcRos.Foundation.LittleEndian
import XcRos.Foundation.PrefixCode
import XcRos.Rpc.Socket

/-! # The reading side of a connection

`Connection::readTransport` with the callbacks of a `TransportPublisherLink`: four bytes are read,
then as many as they announce, then four again. The callbacks run inside of the loop, where
`reading_` turns the nested call of `readTransport` into nothing. A transport enters as the results
of the successive calls of `transport_->read`.
-/

namespace XcRos.Libros

open XcRos.Foundation XcRos.Rpc

def frame (body : Bytes) : Bytes := le 4 body.length ++ body

inductive ReadFinished where
  | onMessageLength
  | onMessage
deriving DecidableEq, Repr

/-- What a link knows of its transport, and the longest message that it takes to be possible. -/
structure Link where
  requiresHeader : Bool
  lengthLimit : Option Nat

def Link.exceeds (link : Link) (len : Nat) : Bool :=
  match link.lengthLimit with
  | some limit => limit < len
  | none => false

theorem Link.exceeds_zero (link : Link) : link.exceeds 0 = false := by
  rw [exceeds]
  split
  · exact decide_eq_false (Nat.not_lt_zero _)
  · rfl

/-- `readBuffer` holds the `read_filled_` bytes read so far; `handled` is what `handleMessage` got. -/
structure Reader where
  readCallback : Option ReadFinished
  readSize : Nat
  readBuffer : Bytes
  reading : Bool
  readEnabled : Bool
  dropped : Bool
  assertFailed : Bool
  handled : List Bytes
deriving DecidableEq

namespace Reader

/-- `Connection::read` from inside of the loop. -/
def read (r : Reader) (size : Nat) (callback : ReadFinished) : Reader :=
  if r.dropped then r
  else if r.readCallback.isSome then { r with assertFailed := true }
  else { r with readCallback := some callback, readSize := size, readBuffer := [], readEnabled := true }

def onMessageLength (link : Link) (r : Reader) (buffer : Bytes) (success : Bool) : Reader :=
  if !success then r.read 4 .onMessageLength
  else if link.exceeds (ofLe buffer) then { r with dropped := true }
  else r.read (ofLe buffer) .onMessage

def onMessage (link : Link) (r : Reader) (buffer : Bytes) (success : Bool) : Reader :=
  let r : Reader := if success then { r with handled := r.handled ++ [buffer] } else r
  if success || !link.requiresHeader then r.read 4 .onMessageLength else r

/-- The read is taken off the connection before its callback runs. -/
def finish (link : Link) (r : Reader) (success : Bool) : Reader :=
  let cleared : Reader := { r with readCallback := none, readSize := 0, readBuffer := [] }
  match r.readCallback with
  | some .onMessageLength => onMessageLength link cleared r.readBuffer success
  | some .onMessage => onMessage link cleared r.readBuffer success
  | none => { r with assertFailed := true }

/-- The end of `readTransport`: reading is disabled when nobody waits for anything. -/
def leave (r : Reader) : Reader :=
  { r with reading := false, readEnabled := r.readEnabled && r.readCallback.isSome }

def toRead (r : Reader) : Option Nat :=
  if r.dropped then none else r.readCallback.map fun _ => r.readSize - r.readBuffer.length

/-- The rest of an iteration, when the transport has returned bytes or a negative number. -/
def transportRead (link : Link) (r : Reader) (result : Option Bytes) : Reader :=
  match result with
  | none => (r.finish link false).leave
  | some bytesRead =>
    let r : Reader := { r with readBuffer := r.readBuffer ++ bytesRead }
    if r.readBuffer.length = r.readSize then r.finish link true else r.leave

/-- A fresh connection whose link has asked for the first length, inside of the loop. -/
def start : Reader where
  readCallback := some .onMessageLength
  readSize := 4
  readBuffer := []
  reading := true
  readEnabled := true
  dropped := false
  assertFailed := false
  handled := []

def taken (r : Reader) : Bytes :=
  match r.readCallback with
  | some .onMessageLength => r.readBuffer
  | some .onMessage => le 4 r.readSize ++ r.readBuffer
  | none => []

structure Waiting (r : Reader) : Prop where
  asserts : r.assertFailed = false
  connected : r.dropped = false
  enabled : r.readEnabled = true
  bodies : ∀ body ∈ r.handled, body.length < 256 ^ 4
  size : r.readSize < 256 ^ 4
  callback : r.readCallback = some .onMessageLength ∧ r.readSize = 4 ∧ r.readBuffer.length < 4 ∨
    r.readCallback = some .onMessage ∧
      (r.readBuffer.length < r.readSize ∨ r.readSize = 0 ∧ r.readBuffer = [])
  idle : r.reading = false → r.readBuffer.length < r.readSize

theorem start_waiting : Waiting start :=
  ⟨rfl, rfl, rfl, fun _ h => (List.not_mem_nil h).elim, by decide, Or.inl ⟨rfl, rfl, by decide⟩,
    fun _ => by decide⟩

theorem Waiting.enter {r : Reader} (h : Waiting r) : Waiting { r with reading := true } :=
  ⟨h.asserts, h.connected, h.enabled, h.bodies, h.size, h.callback, nofun⟩

/-! ## One iteration of the loop -/

variable {link : Link} {r : Reader}

@[simp] theorem read_reading (r : Reader) (size : Nat) (callback : ReadFinished) :
    (r.read size callback).reading = r.reading := by
  rw [read]
  split
  · rfl
  · split <;> rfl

theorem finish_reading (link : Link) (r : Reader) (success : Bool) :
    (r.finish link success).reading = r.reading := by
  rw [finish]
  split
  · simp only [onMessageLength]
    split
    · exact read_reading ..
    · split
      · rfl
      · exact read_reading ..
  · simp only [onMessage]
    split
    · rw [read_reading]
      split <;> rfl
    · split <;> rfl
  · rfl

theorem transportRead_reading {bs : Bytes} (hFull : (r.readBuffer ++ bs).length = r.readSize) :
    (r.transportRead link (some bs)).reading = r.reading := by
  simp only [transportRead, hFull, if_true, finish_reading]

theorem Waiting.callback_isSome (h : Waiting r) : r.readCallback.isSome = true := by
  obtain ⟨hCallback, _⟩ | ⟨hCallback, _⟩ := h.callback <;> rw [hCallback] <;> rfl

theorem Waiting.toRead (h : Waiting r) : r.toRead = some (r.readSize - r.readBuffer.length) := by
  obtain ⟨hCallback, _⟩ | ⟨hCallback, _⟩ := h.callback <;>
    simp only [Reader.toRead, h.connected, hCallback, Bool.false_eq_true, if_false, Option.map_some]

theorem Waiting.filled_le (h : Waiting r) : r.readBuffer.length ≤ r.readSize := by
  obtain ⟨_, hSize, hShort⟩ | ⟨_, hShort | ⟨_, hEmpty⟩⟩ := h.callback
  · omega
  · exact hShort.le
  · rw [hEmpty]
    exact Nat.zero_le _

theorem transportRead_length (h : Waiting r) (hCallback : r.readCallback = some .onMessageLength)
    {bs : Bytes} (hFull : (r.readBuffer ++ bs).length = r.readSize)
    (hLimit : link.exceeds (ofLe (r.readBuffer ++ bs)) = false) :
    r.transportRead link (some bs) =
      { r with
        readCallback := some .onMessage
        readSize := ofLe (r.readBuffer ++ bs)
        readBuffer := [] } := by
  simp only [transportRead, hFull, if_true, finish, hCallback, onMessageLength, Bool.not_true,
    Bool.false_eq_true, if_false, hLimit, read, h.connected, Option.isSome_none, h.enabled]

theorem transportRead_message (h : Waiting r) (hCallback : r.readCallback = some .onMessage)
    {bs : Bytes} (hFull : (r.readBuffer ++ bs).length = r.readSize) :
    r.transportRead link (some bs) =
      { r with
        readCallback := some .onMessageLength
        readSize := 4
        readBuffer := []
        handled := r.handled ++ [r.readBuffer ++ bs] } := by
  simp only [transportRead, hFull, if_true, finish, hCallback, onMessage, Bool.true_or, read,
    h.connected, Bool.false_eq_true, if_false, Option.isSome_none, h.enabled]

theorem transportRead_incomplete (h : Waiting r) {bs : Bytes}
    (hShort : (r.readBuffer ++ bs).length ≠ r.readSize) :
    r.transportRead link (some bs) = { r with readBuffer := r.readBuffer ++ bs, reading := false } := by
  simp only [transportRead, hShort, if_false, leave, h.callback_isSome, Bool.and_true]

theorem transportRead_none (h : Waiting r) (hHeader : link.requiresHeader = false) :
    Waiting (r.transportRead link none) ∧
      r.transportRead link none =
        { r with
          readCallback := some .onMessageLength
          readSize := 4
          readBuffer := []
          reading := false } := by
  have hReset : r.transportRead link none =
      { r with
        readCallback := some .onMessageLength
        readSize := 4
        readBuffer := []
        reading := false } := by
    obtain ⟨hCallback, _⟩ | ⟨hCallback, _⟩ := h.callback <;>
      simp only [transportRead, finish, hCallback, onMessageLength, onMessage, hHeader, Bool.not_false,
        Bool.false_or, Bool.false_eq_true, if_true, if_false, read, h.connected, Option.isSome_none, leave,
        Option.isSome_some, Bool.and_true, h.enabled]
  constructor
  · rw [hReset]
    exact ⟨h.asserts, h.connected, h.enabled, h.bodies, (by decide : 4 < 256 ^ 4),
      Or.inl ⟨rfl, rfl, Nat.succ_pos 3⟩, fun _ => Nat.succ_pos 3⟩
  · exact hReset

theorem length_frame (body : Bytes) : (frame body).length = 4 + body.length := by
  rw [frame, List.length_append, length_le]

theorem frame_prefixCode : PrefixCode (fun body : Bytes => body.length < 256 ^ 4) frame where
  nonempty body _ h := by
    have hLength := congrArg List.length h
    rw [length_frame, List.length_nil] at hLength
    omega
  unique a b ha hb x y h := by
    rw [frame, frame, List.append_assoc, List.append_assoc] at h
    obtain ⟨hLengths, hBodies⟩ := List.append_inj h (by rw [length_le, length_le])
    have hEq : a.length = b.length := by
      rw [← ofLe_le ha, ← ofLe_le hb, hLengths]
    exact (List.append_inj hBodies hEq).1

theorem Waiting.taken_length (h : Waiting r) {body : Bytes} (hBody : body.length < 256 ^ 4) {bs : Bytes}
    (hPrefix : r.taken ++ bs <+: frame body) :
    r.readCallback = some .onMessageLength ∧ r.taken = r.readBuffer ∧ r.readSize = 4 ∨
      r.readCallback = some .onMessage ∧ r.taken = le 4 r.readSize ++ r.readBuffer ∧
        r.readSize = body.length := by
  obtain ⟨hCallback, hSize, _⟩ | ⟨hCallback, _⟩ := h.callback
  · exact Or.inl ⟨hCallback, by simp only [taken, hCallback], hSize⟩
  · have hTaken : r.taken = le 4 r.readSize ++ r.readBuffer := by simp only [taken, hCallback]
    obtain ⟨rest, hRest⟩ := hPrefix
    rw [hTaken, frame, List.append_assoc, List.append_assoc] at hRest
    have hAnnounced := (List.append_inj hRest (by rw [length_le, length_le])).1
    exact Or.inr ⟨hCallback, hTaken, by rw [← ofLe_le h.size, ← ofLe_le hBody, hAnnounced]⟩

theorem Waiting.length_lt (h : Waiting r) {body : Bytes} (hBody : body.length < 256 ^ 4) {bs : Bytes}
    (hPrefix : r.taken ++ bs <+: frame body) (hLess : bs.length < r.readSize - r.readBuffer.length) :
    (r.taken ++ bs).length < (frame body).length := by
  rw [length_frame, List.length_append]
  obtain ⟨_, hTaken, hSize⟩ | ⟨_, hTaken, hSize⟩ := h.taken_length hBody hPrefix
  · rw [hTaken]
    omega
  · rw [hTaken, List.length_append, length_le]
    omega

theorem transportRead_begins (link : Link) (h : Waiting r) (hLoop : r.reading = true) {body : Bytes}
    (hBody : body.length < 256 ^ 4) {bs : Bytes} (hPrefix : r.taken ++ bs <+: frame body)
    (hLength : r.readBuffer.length + bs.length ≤ r.readSize) :
    let r' := r.transportRead link (some bs)
    link.exceeds body.length = true ∧ r'.dropped = true ∧ r'.handled = r.handled ∨
      Waiting r' ∧ (r'.handled = r.handled ∧ r'.taken = r.taken ++ bs ∨
        r'.handled = r.handled ++ [body] ∧ r'.taken = [] ∧ r.taken ++ bs = frame body) := by
  have hFilled : (r.readBuffer ++ bs).length ≤ r.readSize := by rwa [List.length_append]
  dsimp only
  by_cases hFull : (r.readBuffer ++ bs).length = r.readSize
  · obtain ⟨hCallback, hTaken, hSize⟩ | ⟨hCallback, hTaken, hSize⟩ := h.taken_length hBody hPrefix
    · have hFour : (r.readBuffer ++ bs).length = 4 := hFull.trans hSize
      rw [hTaken] at hPrefix
      obtain ⟨rest, hRest⟩ := hPrefix
      have hBytes : r.readBuffer ++ bs = le 4 body.length :=
        (List.append_inj hRest (by rw [hFour, length_le])).1
      have hAnnounced : ofLe (r.readBuffer ++ bs) = body.length := by rw [hBytes, ofLe_le hBody]
      cases hLimit : link.exceeds (ofLe (r.readBuffer ++ bs)) with
      | true =>
        left
        refine ⟨hAnnounced ▸ hLimit, ?_⟩
        simp only [transportRead, hFull, if_true, finish, hCallback, onMessageLength, Bool.not_true,
          Bool.false_eq_true, if_false, hLimit, and_self]
      | false =>
        right
        rw [transportRead_length h hCallback hFull hLimit]
        constructor
        · refine ⟨h.asserts, h.connected, h.enabled, h.bodies, ?_, Or.inr ⟨rfl, ?_⟩,
            fun hIdle => absurd (hLoop.symm.trans hIdle) (by decide)⟩
          · exact hAnnounced ▸ hBody
          · exact (Nat.eq_zero_or_pos _).symm.imp id fun hZero => ⟨hZero, rfl⟩
        · left
          refine ⟨rfl, ?_⟩
          simp only [taken, hAnnounced, List.append_nil]
          rw [← hBytes, ← hTaken, taken, hCallback]
    · right
      rw [transportRead_message h hCallback hFull]
      obtain ⟨rest, hRest⟩ := hPrefix
      rw [hTaken, hSize, frame, List.append_assoc, List.append_assoc] at hRest
      have hBodyEq := (List.append_inj hRest rfl).2
      rw [← List.append_assoc] at hBodyEq
      have hAll : r.readBuffer ++ bs = body :=
        (List.append_inj (hBodyEq.trans (List.append_nil body).symm) (hFull.trans hSize)).1
      constructor
      · refine ⟨h.asserts, h.connected, h.enabled, ?_, (by decide : 4 < 256 ^ 4),
          Or.inl ⟨rfl, rfl, Nat.succ_pos 3⟩, fun _ => Nat.succ_pos 3⟩
        intro b hb
        obtain hOld | hNew := List.mem_append.mp hb
        · exact h.bodies b hOld
        · rw [List.mem_singleton.mp hNew, hFull]
          exact h.size
      · right
        refine ⟨by rw [hAll], rfl, ?_⟩
        rw [hTaken, List.append_assoc, hAll, hSize, frame]
  · right
    rw [transportRead_incomplete h hFull]
    constructor
    · refine ⟨h.asserts, h.connected, h.enabled, h.bodies, h.size, ?_,
        fun _ => lt_of_le_of_ne hFilled hFull⟩
      obtain ⟨hCallback, hSize, _⟩ | ⟨hCallback, hShort⟩ := h.callback
      · left
        refine ⟨hCallback, hSize, ?_⟩
        dsimp only
        omega
      · right
        refine ⟨hCallback, Or.inl ?_⟩
        dsimp only
        omega
    · left
      refine ⟨rfl, ?_⟩
      obtain ⟨hCallback, _⟩ | ⟨hCallback, _⟩ := h.callback <;>
        simp only [taken, hCallback, List.append_assoc]

/-- The stream `es` has been handled up to what is taken, and `rest` of it is still to come. -/
def Follows (r : Reader) (rest : Bytes) (es : List Bytes) : Prop :=
  r.handled.flatMap frame ++ (r.taken ++ rest) = es.flatMap frame

theorem Follows.append {rest : Bytes} {es : List Bytes} (h : Follows r rest es) (body : Bytes) :
    Follows r (rest ++ frame body) (es ++ [body]) := by
  rw [Follows] at h ⊢
  rw [List.flatMap_append, ← h, List.flatMap_cons, List.flatMap_nil, List.append_nil]
  simp only [List.append_assoc]

theorem Waiting.split (h : Waiting r) {rest : Bytes} {es : List Bytes}
    (hEs : ∀ e ∈ es, e.length < 256 ^ 4) (hFollows : Follows r rest es) :
    ∃ cs, es = r.handled ++ cs ∧ r.taken ++ rest = cs.flatMap frame :=
  frame_prefixCode.eq_append h.bodies hEs hFollows

theorem Waiting.handled_eq (h : Waiting r) {rest : Bytes}
    (hShort : r.readBuffer.length + rest.length < r.readSize) {es : List Bytes}
    (hEs : ∀ e ∈ es, e.length < 256 ^ 4) (hFollows : Follows r rest es) : r.handled = es := by
  obtain ⟨cs, hSplit, hRest⟩ := h.split hEs hFollows
  cases cs with
  | nil => rw [hSplit, List.append_nil]
  | cons c cs =>
    have hc := hEs c (hSplit ▸ List.mem_append_right _ List.mem_cons_self)
    rw [List.flatMap_cons] at hRest
    obtain ⟨hCallback, hSize, _⟩ | ⟨hCallback, _⟩ := h.callback
    · have hLength := congrArg List.length hRest
      simp only [taken, hCallback, List.length_append, length_frame] at hLength
      omega
    · simp only [taken, hCallback, frame, List.append_assoc] at hRest
      obtain ⟨hAnnounced, hBody⟩ := List.append_inj hRest (by rw [length_le, length_le])
      have hSize : r.readSize = c.length := by rw [← ofLe_le h.size, ← ofLe_le hc, hAnnounced]
      have hLength := congrArg List.length hBody
      rw [List.length_append, List.length_append] at hLength
      omega

theorem Waiting.next (h : Waiting r) {bs rest : Bytes} {es : List Bytes} (hEs : ∀ e ∈ es, e.length < 256 ^ 4)
    (hLength : r.readBuffer.length + bs.length ≤ r.readSize) (hFollows : Follows r (bs ++ rest) es) :
    r.taken = [] ∧ bs = [] ∨ ∃ e ∈ es, r.taken ++ bs <+: frame e := by
  obtain ⟨cs, hSplit, hRest⟩ := h.split hEs hFollows
  rw [← List.append_assoc] at hRest
  cases cs with
  | nil =>
    rw [List.flatMap_nil] at hRest
    exact Or.inl (List.append_eq_nil_iff.mp (List.append_eq_nil_iff.mp hRest).1)
  | cons c cs =>
    have hMem : c ∈ es := hSplit ▸ List.mem_append_right _ List.mem_cons_self
    have hc := hEs c hMem
    refine Or.inr ⟨c, hMem, ?_⟩
    rw [List.flatMap_cons] at hRest
    apply List.prefix_of_prefix_length_le ⟨rest, hRest⟩ (List.prefix_append _ _)
    rw [length_frame, List.length_append]
    obtain ⟨hCallback, hSize, _⟩ | ⟨hCallback, _⟩ := h.callback
    · have hTaken : r.taken = r.readBuffer := by simp only [taken, hCallback]
      rw [hTaken]
      omega
    · have hTaken : r.taken = le 4 r.readSize ++ r.readBuffer := by simp only [taken, hCallback]
      rw [hTaken, frame, List.append_assoc, List.append_assoc, List.append_assoc] at hRest
      have hAnnounced := (List.append_inj hRest (by rw [length_le, length_le])).1
      have hSize : r.readSize = c.length := by rw [← ofLe_le h.size, ← ofLe_le hc, hAnnounced]
      rw [hTaken, List.length_append, length_le]
      omega

theorem transportRead_follows (h : Waiting r) (hLoop : r.reading = true) {bs rest : Bytes} {es : List Bytes}
    (hEs : ∀ e ∈ es, e.length < 256 ^ 4 ∧ link.exceeds e.length = false)
    (hLength : r.readBuffer.length + bs.length ≤ r.readSize) (hFollows : Follows r (bs ++ rest) es) :
    Waiting (r.transportRead link (some bs)) ∧ Follows (r.transportRead link (some bs)) rest es := by
  obtain ⟨body, hBody, hLimit, hPrefix⟩ : ∃ body : Bytes, body.length < 256 ^ 4 ∧
      link.exceeds body.length = false ∧ r.taken ++ bs <+: frame body := by
    obtain ⟨hTaken, rfl⟩ | ⟨e, he, hPrefix⟩ := h.next (fun e he => (hEs e he).1) hLength hFollows
    · refine ⟨[], (by decide : 0 < 256 ^ 4), link.exceeds_zero, ?_⟩
      rw [hTaken]
      exact List.nil_prefix
    · exact ⟨e, (hEs e he).1, (hEs e he).2, hPrefix⟩
  rw [Follows, ← List.append_assoc r.taken] at hFollows
  obtain ⟨hExceeds, _⟩ | ⟨hWaiting, ⟨hSame, hTaken⟩ | ⟨hNew, hTaken, hAll⟩⟩ :=
    transportRead_begins link h hLoop hBody hPrefix hLength
  · exact absurd (hLimit.symm.trans hExceeds) Bool.false_ne_true
  · exact ⟨hWaiting, by rwa [Follows, hSame, hTaken]⟩
  · refine ⟨hWaiting, ?_⟩
    rw [hAll] at hFollows
    rwa [Follows, hNew, hTaken, List.flatMap_append, List.flatMap_cons, List.flatMap_nil, List.append_nil,
      List.append_assoc, List.nil_append]

end Reader

end XcRos.Libros
