import XcRos.Foundation.Machine
import XcRos.Libros.TransportUdp

/-! # Messages over a UDP connection that loses nothing

The datagrams arrive in the order in which they are sent. A call of `TransportUDP::read` may find
the socket empty before any of them.
-/

namespace XcRos.Libros.Udp

open XcRos.Foundation XcRos.Rpc

def link : Link where
  requiresHeader := false
  lengthLimit := none

/-- A message whose size passes the assertion of `write` and whose blocks can be counted. -/
abbrev Body (maxPayload : Nat) :=
  { body : Bytes // (frame body).length < 2 ^ 31 ∧ blocks maxPayload (frame body) ≤ 65535 }

structure Network (maxPayload : Nat) where
  messageId : Nat
  queue : List Datagram
  receiver : UdpReceiver
  sent : List (Body maxPayload)

inductive Label (maxPayload : Nat) where
  | send (body : Body maxPayload)
  | readable
  | advance
  | receive
  | wouldBlock

variable {maxPayload bufferPayload : Nat}

def Network.step (bufferPayload : Nat) (s : Network maxPayload) :
    Label maxPayload → Option (Network maxPayload)
  | .send body =>
    let messageId := nextMessageId s.messageId
    some { s with
      messageId := messageId
      queue := s.queue ++ udpWrite maxPayload messageId (frame body.1)
      sent := s.sent ++ [body] }
  | .readable => s.receiver.onReadable.map fun r => { s with receiver := r }
  | .advance => (s.receiver.advance link).map fun r => { s with receiver := r }
  | .receive =>
    match s.queue with
    | d :: rest =>
      (s.receiver.receive bufferPayload link (some d)).map fun r => { s with receiver := r, queue := rest }
    | [] => none
  | .wouldBlock => (s.receiver.receive bufferPayload link none).map fun r => { s with receiver := r }

def system (maxPayload bufferPayload : Nat) : Machine (Network maxPayload) (Label maxPayload) where
  Init s := s.queue = [] ∧ s.receiver = .start ∧ s.sent = []
  step := Network.step bufferPayload

def bodies (s : Network maxPayload) : List Bytes := s.sent.map Subtype.val

/-! ## The bytes between the datagrams and the connection -/

/-- The receiver follows the stream: what it has copied and what is left of the datagram at hand
come before `rest`. -/
structure Flowing (r : UdpReceiver) (rest : Bytes) (es : List Bytes) : Prop where
  reader : r.reader.Waiting
  follows : r.reader.Follows (r.call.getD [] ++ (r.udp.dataRest ++ rest)) es
  call : ∀ copied, r.call = some copied → r.reader.reading = true ∧ copied.length ≤ r.size
  idle : r.reader.reading = false → r.udp.dataRest = []

theorem Flowing.call_eq_none {r : UdpReceiver} {rest : Bytes} {es : List Bytes} (h : Flowing r rest es)
    (hIdle : r.reader.reading = false) : r.call = none := by
  cases hSome : r.call with
  | none => rfl
  | some copied => exact absurd (hIdle.symm.trans (h.call copied hSome).1) (by decide)

def Yields (want : Nat) (left copied : Bytes) : Outcome → Prop
  | .again c => c = copied
  | .returned result => result = some copied ∧ (copied.length < want → left = [])

section Receiver

variable {r : UdpReceiver} {rest : Bytes} {es : List Bytes}

theorem size_eq (h : r.reader.Waiting) : r.reader.readBuffer.length + r.size = r.reader.readSize := by
  have hLe := h.filled_le
  rw [UdpReceiver.size]
  omega

theorem flowing_finish (h : r.reader.Waiting) (hLoop : r.reader.reading = true) (hEs : ∀ e ∈ es, e.length < 256 ^ 4)
    {udp : TransportUdp} {copied : Bytes} (hSize : copied.length ≤ r.size)
    (hFollows : r.reader.Follows (copied ++ (udp.dataRest ++ rest)) es)
    (hShort : copied.length < r.size → udp.dataRest = []) :
    Flowing ⟨udp, r.reader.transportRead link (some copied), none⟩ rest es := by
  have hTotal := size_eq h
  have hBounds : ∀ e ∈ es, e.length < 256 ^ 4 ∧ link.exceeds e.length = false :=
    fun e he => ⟨hEs e he, rfl⟩
  obtain ⟨hReader, hNext⟩ := Reader.transportRead_follows h hLoop hBounds (by omega) hFollows
  refine ⟨hReader, hNext, nofun, ?_⟩
  intro hIdle
  apply hShort
  by_contra hFull
  have hAll : (r.reader.readBuffer ++ copied).length = r.reader.readSize := by
    rw [List.length_append]
    omega
  dsimp only at hIdle
  rw [Reader.transportRead_reading hAll, hLoop] at hIdle
  cases hIdle

theorem flowing_resume (h : r.reader.Waiting) (hLoop : r.reader.reading = true)
    (hEs : ∀ e ∈ es, e.length < 256 ^ 4) (next : TransportUdp × Outcome) (copied : Bytes)
    (hYields : Yields r.size next.1.dataRest copied next.2) (hSize : copied.length ≤ r.size)
    (hFollows : r.reader.Follows (copied ++ (next.1.dataRest ++ rest)) es) :
    Flowing (r.resume link next) rest es := by
  obtain ⟨udp, outcome⟩ := next
  cases outcome with
  | again c =>
    cases hYields
    refine ⟨h, hFollows, ?_, fun hIdle => absurd (hLoop.symm.trans hIdle) (by decide)⟩
    rintro c ⟨⟩
    exact ⟨hLoop, hSize⟩
  | returned result =>
    obtain ⟨rfl, hShort⟩ := hYields
    exact flowing_finish h hLoop hEs hSize hFollows hShort

end Receiver

/-! ## The headers between the datagrams and the transport -/

structure Sendable (maxPayload : Nat) (m : Nat × Bytes) : Prop where
  id : m.1 ≠ 0
  blocks : blocks maxPayload m.2 < 65536
  nonempty : m.2 ≠ []

def datagrams (maxPayload : Nat) (m : Nat × Bytes) (k : Nat) : List Datagram :=
  (List.range' k (XcRos.Libros.blocks maxPayload m.2 - k)).map (blockDatagram maxPayload m.1 m.2)

structure InStep (maxPayload : Nat) (u : TransportUdp) (queue : List Datagram) : Prop where
  reorder : u.reorderRest = []
  headers : ∃ ms : List (Nat × Bytes), (∀ m ∈ ms, Sendable maxPayload m) ∧
    (u.currentMessageId = 0 ∧ queue = ms.flatMap (fun m => datagrams maxPayload m 0) ∨
      ∃ m : Nat × Bytes, Sendable maxPayload m ∧ u.currentMessageId = m.1 ∧
        u.totalBlocks = blocks maxPayload m.2 ∧ u.lastBlock + 1 < u.totalBlocks ∧
          queue = datagrams maxPayload m (u.lastBlock + 1) ++ ms.flatMap fun m => datagrams maxPayload m 0)

section Transport

variable {u : TransportUdp} {queue : List Datagram}

theorem datagrams_cons {m : Nat × Bytes} {k : Nat} (hMore : k < blocks maxPayload m.2) :
    datagrams maxPayload m k = blockDatagram maxPayload m.1 m.2 k :: datagrams maxPayload m (k + 1) := by
  have hCount : blocks maxPayload m.2 - k = blocks maxPayload m.2 - (k + 1) + 1 := by omega
  rw [datagrams, hCount, List.range'_succ, List.map_cons, datagrams]

theorem datagrams_nil {m : Nat × Bytes} {k : Nat} (hEnd : blocks maxPayload m.2 ≤ k) :
    datagrams maxPayload m k = [] := by
  rw [datagrams, Nat.sub_eq_zero_of_le hEnd]
  rfl

theorem Sendable.blocks_pos (hPayload : 1 ≤ maxPayload) {m : Nat × Bytes} (h : Sendable maxPayload m) :
    0 < XcRos.Libros.blocks maxPayload m.2 := by
  rw [lt_blocks_iff hPayload, Nat.zero_mul]
  exact List.length_pos_iff.mpr h.nonempty

theorem endBlock_inStep {m : Nat × Bytes} (hm : Sendable maxPayload m) {ms : List (Nat × Bytes)}
    (hms : ∀ m ∈ ms, Sendable maxPayload m) (hReorder : u.reorderRest = [])
    (hId : u.currentMessageId = m.1) (hTotal : u.totalBlocks = blocks maxPayload m.2)
    (hLast : u.lastBlock < u.totalBlocks) (copied : Bytes) :
    InStep maxPayload (u.endBlock copied).1
        (datagrams maxPayload m (u.lastBlock + 1) ++ ms.flatMap fun m => datagrams maxPayload m 0) ∧
      (u.endBlock copied).1.dataRest = u.dataRest ∧
        ((u.endBlock copied).2 = .again copied ∨ (u.endBlock copied).2 = .returned (some copied)) := by
  rw [TransportUdp.endBlock]
  split
  · rename_i hEnd
    refine ⟨⟨hReorder, ms, hms, Or.inl ⟨rfl, ?_⟩⟩, rfl, Or.inr rfl⟩
    rw [datagrams_nil (by omega), List.nil_append]
  · rename_i hMore
    have hNext : u.lastBlock + 1 < u.totalBlocks := by omega
    exact ⟨⟨hReorder, ms, hms, Or.inr ⟨m, hm, hId, hTotal, hNext, rfl⟩⟩, rfl, Or.inl rfl⟩

theorem blockDatagram_data_ne_nil (hPayload : 1 ≤ maxPayload) (id : Nat) {buffer : Bytes} {k : Nat}
    (hMore : k < blocks maxPayload buffer) : (blockDatagram maxPayload id buffer k).data ≠ [] := by
  have hInside := (lt_blocks_iff hPayload).mp hMore
  apply List.ne_nil_of_length_pos
  rw [blockDatagram, List.length_take, List.length_drop]
  omega

theorem readDatagram_inStep (hPayload : 1 ≤ maxPayload) (hBuffer : maxPayload ≤ bufferPayload) {d : Datagram}
    {rest : List Datagram} (h : InStep maxPayload u (d :: rest)) (size : Nat) (copied : Bytes) :
    let next := u.readDatagram bufferPayload size copied d
    InStep maxPayload next.1 rest ∧ d.data ≠ [] ∧
      next.1.dataRest = d.data.drop (size - copied.length) ∧
        (next.2 = .again (copied ++ d.data.take (size - copied.length)) ∨
          next.2 = .returned (some (copied ++ d.data.take (size - copied.length)))) := by
  obtain ⟨ms, hms, ⟨hId, hQueue⟩ | ⟨m, hm, hId, hTotal, hMore, hQueue⟩⟩ := h.headers
  · cases ms with
    | nil => cases hQueue
    | cons m ms =>
      have hm := hms m List.mem_cons_self
      have hFirst := hm.blocks_pos hPayload
      rw [List.flatMap_cons, datagrams_cons hFirst, List.cons_append] at hQueue
      obtain ⟨rfl, rfl⟩ := List.cons.inj hQueue
      have hFits : (blockDatagram maxPayload m.1 m.2 0).data.length ≤ bufferPayload :=
        (List.length_take_le _ _).trans hBuffer
      dsimp only
      rw [TransportUdp.readDatagram_first hFits rfl hId]
      obtain ⟨hStep, hRest, hOutcome⟩ := endBlock_inStep (u := { u with
          totalBlocks := blocks maxPayload m.2
          lastBlock := 0
          currentMessageId := m.1
          dataFront := (blockDatagram maxPayload m.1 m.2 0).data.take (size - copied.length)
          dataRest := (blockDatagram maxPayload m.1 m.2 0).data.drop (size - copied.length) })
        hm (fun x hx => hms x (List.mem_cons_of_mem m hx)) h.reorder rfl rfl hFirst _
      exact ⟨hStep, blockDatagram_data_ne_nil hPayload m.1 hFirst, hRest, hOutcome⟩
  · have hNext : u.lastBlock + 1 < blocks maxPayload m.2 := hTotal ▸ hMore
    rw [datagrams_cons hNext, List.cons_append] at hQueue
    obtain ⟨rfl, rfl⟩ := List.cons.inj hQueue
    have hFits : (blockDatagram maxPayload m.1 m.2 (u.lastBlock + 1)).data.length ≤ bufferPayload :=
      (List.length_take_le _ _).trans hBuffer
    have hHeader : (blockDatagram maxPayload m.1 m.2 (u.lastBlock + 1)).header =
        ⟨udpDataN, m.1, u.lastBlock + 1⟩ := by
      rw [blockDatagram, if_neg (Nat.succ_ne_zero _)]
    dsimp only
    rw [TransportUdp.readDatagram_next hFits (by rw [hHeader]) (by rw [hHeader, hId]) (by rw [hHeader]), hHeader]
    obtain ⟨hStep, hRest, hOutcome⟩ := endBlock_inStep (u := { u with
        lastBlock := u.lastBlock + 1
        dataFront := (blockDatagram maxPayload m.1 m.2 (u.lastBlock + 1)).data.take (size - copied.length)
        dataRest := (blockDatagram maxPayload m.1 m.2 (u.lastBlock + 1)).data.drop (size - copied.length) })
      hm hms h.reorder hId hTotal hMore _
    exact ⟨hStep, blockDatagram_data_ne_nil hPayload m.1 hNext, hRest, hOutcome⟩

end Transport

/-! ## Runs -/

/-- The transport is in step with the queue, and the bytes of both are those of the messages. -/
structure Synced (s : Network maxPayload) : Prop where
  inStep : InStep maxPayload s.receiver.udp s.queue
  flowing : Flowing s.receiver (s.queue.flatMap Datagram.data) (bodies s)

section Steps

variable {s s' : Network maxPayload}

theorem bodies_bounds (s : Network maxPayload) : ∀ e ∈ bodies s, e.length < 256 ^ 4 := by
  intro e he
  obtain ⟨b, _, rfl⟩ := List.mem_map.mp he
  have hb := b.2.1
  rw [Reader.length_frame] at hb
  omega

theorem Synced.send (hPayload : 1 ≤ maxPayload) (h : Synced s) (body : Body maxPayload) :
    Synced { s with
      messageId := nextMessageId s.messageId
      queue := s.queue ++ udpWrite maxPayload (nextMessageId s.messageId) (frame body.1)
      sent := s.sent ++ [body] } := by
  have hBlocks : blocks maxPayload (frame body.1) < 65536 := Nat.lt_succ_of_le body.2.2
  have hNonempty : frame body.1 ≠ [] := by
    apply List.ne_nil_of_length_pos
    rw [Reader.length_frame]
    omega
  have hWrite : udpWrite maxPayload (nextMessageId s.messageId) (frame body.1) =
      datagrams maxPayload (nextMessageId s.messageId, frame body.1) 0 := udpWrite_eq hPayload hBlocks
  have hData : (datagrams maxPayload (nextMessageId s.messageId, frame body.1) 0).flatMap Datagram.data =
      frame body.1 := by
    rw [datagrams, flatMap_data_blocks hPayload, Nat.zero_mul, List.drop_zero]
  have hNew : Sendable maxPayload (nextMessageId s.messageId, frame body.1) :=
    ⟨nextMessageId_ne_zero _, hBlocks, hNonempty⟩
  rw [hWrite]
  constructor
  · obtain ⟨ms, hms, hQueue⟩ := h.inStep.headers
    refine ⟨h.inStep.reorder, ms ++ [(nextMessageId s.messageId, frame body.1)], ?_, ?_⟩
    · intro m hm
      obtain hOld | hLast := List.mem_append.mp hm
      · exact hms m hOld
      · rw [List.mem_singleton.mp hLast]
        exact hNew
    · simp only [List.flatMap_append, List.flatMap_cons, List.flatMap_nil, List.append_nil]
      obtain ⟨hId, hEq⟩ | ⟨m, hm, hId, hTotal, hMore, hEq⟩ := hQueue
      · exact Or.inl ⟨hId, by rw [hEq]⟩
      · exact Or.inr ⟨m, hm, hId, hTotal, hMore, by rw [hEq, List.append_assoc]⟩
  · refine ⟨h.flowing.reader, ?_, h.flowing.call, h.flowing.idle⟩
    have hFollows := h.flowing.follows.append body.1
    simpa only [bodies, List.map_append, List.map_cons, List.map_nil, List.flatMap_append, hData,
      List.append_assoc] using hFollows

theorem Synced.advance (h : Synced s) {r : UdpReceiver} (hStep : s.receiver.advance link = some r) :
    Synced { s with receiver := r } := by
  simp only [UdpReceiver.advance] at hStep
  split at hStep
  · rename_i hLoop
    split at hStep
    · rename_i hCall
      have hFollows := h.flowing.follows
      rw [hCall] at hFollows
      rw [h.flowing.reader.toRead] at hStep
      split at hStep
      · rename_i hNone
        cases hNone
      · rename_i hZero
        cases hStep
        have hSize : s.receiver.size = 0 := Option.some.inj hZero
        refine ⟨h.inStep, flowing_finish h.flowing.reader hLoop (bodies_bounds s) (Nat.zero_le _) hFollows ?_⟩
        rw [hSize]
        exact fun hShort => absurd hShort (Nat.not_lt_zero _)
      · cases hStep
        refine ⟨h.inStep, h.flowing.reader, hFollows, ?_, h.flowing.idle⟩
        rintro copied ⟨⟩
        exact ⟨hLoop, Nat.zero_le _⟩
    · rename_i copied hCall
      have hFollows := h.flowing.follows
      rw [hCall] at hFollows
      have hSize := (h.flowing.call copied hCall).2
      split at hStep
      · split at hStep
        · cases hStep
        · cases hStep
          have hReorder := h.inStep.reorder
          rw [TransportUdp.readBuffered_data hReorder]
          constructor
          · exact ⟨hReorder, h.inStep.headers⟩
          · apply flowing_resume h.flowing.reader hLoop (bodies_bounds s)
              ({ s.receiver.udp with
                  dataFront := s.receiver.udp.dataFront ++
                    s.receiver.udp.dataRest.take (s.receiver.size - copied.length)
                  dataRest := s.receiver.udp.dataRest.drop (s.receiver.size - copied.length) },
                .again (copied ++ s.receiver.udp.dataRest.take (s.receiver.size - copied.length)))
              (copied ++ s.receiver.udp.dataRest.take (s.receiver.size - copied.length))
            · rfl
            · rw [List.length_append, List.length_take]
              omega
            · rw [List.append_assoc, ← List.append_assoc (List.take _ _), List.take_append_drop]
              exact hFollows
      · rename_i hFull
        cases hStep
        exact ⟨h.inStep, flowing_finish h.flowing.reader hLoop (bodies_bounds s) hSize hFollows
          fun hShort => absurd hShort hFull⟩
  · cases hStep

theorem Synced.receive (hPayload : 1 ≤ maxPayload) (hBuffer : maxPayload ≤ bufferPayload) (h : Synced s)
    {d : Datagram} {rest : List Datagram} (hQueue : s.queue = d :: rest) {r : UdpReceiver}
    (hStep : s.receiver.receive bufferPayload link (some d) = some r) :
    Synced { s with receiver := r, queue := rest } := by
  simp only [UdpReceiver.receive] at hStep
  split at hStep
  · rename_i copied hCall
    split at hStep
    · rename_i hGuard
      obtain ⟨hLoop, hLess, hSocket⟩ := hGuard
      cases hStep
      have hEmpty : s.receiver.udp.dataRest = [] := by
        simp only [TransportUdp.needsSocket, Bool.and_eq_true, List.isEmpty_iff] at hSocket
        exact hSocket.2
      have hInStep := h.inStep
      rw [hQueue] at hInStep
      obtain ⟨hNext, _, hRest, hOutcome⟩ :=
        readDatagram_inStep hPayload hBuffer hInStep s.receiver.size copied
      have hFollows := h.flowing.follows
      rw [hCall, hEmpty, hQueue, List.flatMap_cons, List.nil_append] at hFollows
      constructor
      · rw [UdpReceiver.resume_udp]
        exact hNext
      · apply flowing_resume h.flowing.reader hLoop (bodies_bounds s)
          (s.receiver.udp.readDatagram bufferPayload s.receiver.size copied d) (copied ++ d.data.take (s.receiver.size - copied.length))
        · obtain hAgain | hReturned := hOutcome
          · rw [hAgain]
            rfl
          · rw [hReturned]
            refine ⟨rfl, fun hShort => ?_⟩
            rw [List.length_append, List.length_take] at hShort
            rw [hRest, List.drop_eq_nil_iff]
            omega
        · rw [List.length_append, List.length_take]
          omega
        · rw [hRest, List.append_assoc, ← List.append_assoc (List.take _ _), List.take_append_drop]
          exact hFollows
    · cases hStep
  · cases hStep

theorem Synced.wouldBlock (h : Synced s) {r : UdpReceiver}
    (hStep : s.receiver.receive bufferPayload link none = some r) : Synced { s with receiver := r } := by
  simp only [UdpReceiver.receive] at hStep
  split at hStep
  · rename_i copied hCall
    split at hStep
    · rename_i hGuard
      obtain ⟨hLoop, hLess, hSocket⟩ := hGuard
      cases hStep
      have hEmpty : s.receiver.udp.dataRest = [] := by
        simp only [TransportUdp.needsSocket, Bool.and_eq_true, List.isEmpty_iff] at hSocket
        exact hSocket.2
      have hFollows := h.flowing.follows
      rw [hCall] at hFollows
      constructor
      · exact h.inStep
      · apply flowing_resume h.flowing.reader hLoop (bodies_bounds s)
          (s.receiver.udp, .returned (some copied)) copied
        · exact ⟨rfl, fun _ => hEmpty⟩
        · exact hLess.le
        · exact hFollows
    · cases hStep
  · cases hStep

theorem Synced.readable (h : Synced s) {r : UdpReceiver} (hStep : s.receiver.onReadable = some r) :
    Synced { s with receiver := r } := by
  simp only [UdpReceiver.onReadable] at hStep
  split at hStep
  · cases hStep
    refine ⟨h.inStep, h.flowing.reader.enter, h.flowing.follows, ?_, nofun⟩
    intro copied hCall
    exact ⟨rfl, (h.flowing.call copied hCall).2⟩
  · cases hStep

theorem synced_step (hPayload : 1 ≤ maxPayload) (hBuffer : maxPayload ≤ bufferPayload)
    {a : Label maxPayload} (h : Synced s) (hStep : s.step bufferPayload a = some s') : Synced s' := by
  cases a with
  | send body =>
    cases hStep
    exact h.send hPayload body
  | readable =>
    obtain ⟨r, hReceiver, rfl⟩ := Option.map_eq_some_iff.mp hStep
    exact h.readable hReceiver
  | advance =>
    obtain ⟨r, hReceiver, rfl⟩ := Option.map_eq_some_iff.mp hStep
    exact h.advance hReceiver
  | receive =>
    simp only [Network.step] at hStep
    split at hStep
    · rename_i d rest hQueue
      obtain ⟨r, hReceiver, rfl⟩ := Option.map_eq_some_iff.mp hStep
      exact h.receive hPayload hBuffer hQueue hReceiver
    · cases hStep
  | wouldBlock =>
    obtain ⟨r, hReceiver, rfl⟩ := Option.map_eq_some_iff.mp hStep
    exact h.wouldBlock hReceiver

end Steps

/-! ## Every message arrives -/

def phase (r : UdpReceiver) : Nat :=
  match r.call with
  | none => if r.reader.reading then 2 + (if r.reader.readSize = 0 then 1 else 0) else 3
  | some copied => if copied.length < r.size then 1 else 4

def weight (s : Network maxPayload) : Nat :=
  8 * (s.receiver.udp.dataRest.length + (s.queue.flatMap Datagram.data).length) + phase s.receiver

theorem phase_le (r : UdpReceiver) : phase r ≤ 4 := by
  rw [phase]
  split
  · split
    · split <;> omega
    · omega
  · split <;> omega

theorem phase_le_of_call {r : UdpReceiver} (h : r.call = none) : phase r ≤ 3 := by
  rw [phase, h]
  dsimp only
  split
  · split <;> omega
  · omega

section Progress

variable {s : Network maxPayload}

theorem weight_lt_of_bytes {s' : Network maxPayload} {n : Nat} (hn : 0 < n)
    (h : s'.receiver.udp.dataRest.length + (s'.queue.flatMap Datagram.data).length + n ≤
      s.receiver.udp.dataRest.length + (s.queue.flatMap Datagram.data).length) : weight s' < weight s := by
  have hPhase := phase_le s'.receiver
  rw [weight, weight]
  omega

theorem Synced.progress_enter (h : Synced s) (hIdle : s.receiver.reader.reading = false) :
    ∃ a s', s.step bufferPayload a = some s' ∧ s'.sent = s.sent ∧ weight s' < weight s := by
  have hReader := h.flowing.reader
  have hCall := h.flowing.call_eq_none hIdle
  have hShort := hReader.idle hIdle
  have hSize : s.receiver.reader.readSize ≠ 0 := by omega
  refine ⟨.readable, { s with receiver := { s.receiver with
    reader := { s.receiver.reader with reading := true } } }, ?_, rfl, ?_⟩
  · simp only [Network.step, UdpReceiver.onReadable, hReader.enabled, hReader.connected, hIdle, and_self,
      if_true, Option.map_some]
  · simp only [weight, phase, hCall, hIdle, hSize, if_true, if_false, Bool.false_eq_true]
    omega

theorem Synced.progress_call (h : Synced s) (hLoop : s.receiver.reader.reading = true)
    (hCall : s.receiver.call = none) :
    ∃ a s', s.step bufferPayload a = some s' ∧ s'.sent = s.sent ∧ weight s' < weight s := by
  have hReader := h.flowing.reader
  have hToRead := hReader.toRead
  cases hSize : s.receiver.reader.readSize - s.receiver.reader.readBuffer.length with
  | zero =>
    rw [hSize] at hToRead
    have hFull : (s.receiver.reader.readBuffer ++ []).length = s.receiver.reader.readSize := by
      have hLe := hReader.filled_le
      rw [List.append_nil]
      omega
    obtain ⟨_, hFour, hLess⟩ | ⟨hCallback, hLess | ⟨hZero, _⟩⟩ := hReader.callback
    · omega
    · omega
    · let r : UdpReceiver :=
        { s.receiver with reader := s.receiver.reader.transportRead link (some []), call := none }
      refine ⟨.advance, { s with receiver := r }, ?_, rfl, ?_⟩
      · simp only [Network.step, UdpReceiver.advance, hLoop, hCall, hToRead, if_true, Option.map_some, r]
      · simp only [weight, phase, hCall, hLoop, hZero, r,
          Reader.transportRead_message hReader hCallback hFull, if_true]
        simp
  | succ n =>
    rw [hSize] at hToRead
    have hPos : 0 < s.receiver.size := by
      rw [UdpReceiver.size]
      omega
    let r : UdpReceiver := { s.receiver with call := some [] }
    refine ⟨.advance, { s with receiver := r }, ?_, rfl, ?_⟩
    · simp only [Network.step, UdpReceiver.advance, hLoop, hCall, hToRead, if_true, Option.map_some, r]
    · have hNew : phase r = 1 := by
        have hStarted : ([] : Bytes).length < r.size := hPos
        simp only [phase, r, hStarted, if_true]
      have hOld : 2 ≤ phase s.receiver := by
        simp only [phase, hCall, hLoop, if_true]
        omega
      rw [weight, weight, hNew]
      dsimp only [r]
      omega

theorem Synced.progress_iteration (hPayload : 1 ≤ maxPayload) (hBuffer : maxPayload ≤ bufferPayload)
    (h : Synced s) (hLoop : s.receiver.reader.reading = true) {copied : Bytes}
    (hCall : s.receiver.call = some copied) (hLess : copied.length < s.receiver.size)
    (hMore : s.receiver.reader.handled ≠ bodies s) :
    ∃ a s', s.step bufferPayload a = some s' ∧ s'.sent = s.sent ∧ weight s' < weight s := by
  cases hSocket : s.receiver.udp.needsSocket with
  | false =>
    have hRest : s.receiver.udp.dataRest ≠ [] := by
      intro hNil
      rw [TransportUdp.needsSocket, h.inStep.reorder, hNil] at hSocket
      cases hSocket
    have hPos : 0 < s.receiver.udp.dataRest.length := List.length_pos_iff.mpr hRest
    let next := s.receiver.udp.readBuffered s.receiver.size copied
    refine ⟨.advance, { s with receiver := s.receiver.resume link next }, ?_, rfl,
      weight_lt_of_bytes (n := min (s.receiver.size - copied.length) s.receiver.udp.dataRest.length)
        (by omega) ?_⟩
    · simp only [Network.step, UdpReceiver.advance, hLoop, hCall, hLess, hSocket, if_true,
        Bool.false_eq_true, if_false, Option.map_some, next]
    · simp only [UdpReceiver.resume_udp, next, TransportUdp.readBuffered_data h.inStep.reorder,
        List.length_drop]
      omega
  | true =>
    have hEmpty : s.receiver.udp.dataRest = [] := by
      simp only [TransportUdp.needsSocket, Bool.and_eq_true, List.isEmpty_iff] at hSocket
      exact hSocket.2
    cases hQueue : s.queue with
    | nil =>
      have hFollows := h.flowing.follows
      have hTotal := size_eq h.flowing.reader
      have hShort : s.receiver.reader.readBuffer.length + copied.length < s.receiver.reader.readSize := by
        omega
      rw [hCall, hEmpty, hQueue, List.flatMap_nil, List.append_nil, List.append_nil] at hFollows
      exact absurd (h.flowing.reader.handled_eq hShort (bodies_bounds s) hFollows) hMore
    | cons d rest =>
      have hInStep := h.inStep
      rw [hQueue] at hInStep
      obtain ⟨_, hData, hRest, _⟩ := readDatagram_inStep hPayload hBuffer hInStep s.receiver.size copied
      have hPos : 0 < d.data.length := List.length_pos_iff.mpr hData
      let next := s.receiver.udp.readDatagram bufferPayload s.receiver.size copied d
      refine ⟨.receive, { s with receiver := s.receiver.resume link next, queue := rest }, ?_, rfl,
        weight_lt_of_bytes (n := min (s.receiver.size - copied.length) d.data.length) (by omega) ?_⟩
      · simp only [Network.step, hQueue, UdpReceiver.receive, hLoop, hCall, hLess, hSocket, and_self,
          if_true, Option.map_some, next]
      · simp only [UdpReceiver.resume_udp, next, hRest, List.length_drop, hQueue, List.flatMap_cons,
          List.length_append, hEmpty, List.length_nil]
        omega

theorem Synced.progress (hPayload : 1 ≤ maxPayload) (hBuffer : maxPayload ≤ bufferPayload) (h : Synced s)
    (hMore : s.receiver.reader.handled ≠ bodies s) :
    ∃ a s', s.step bufferPayload a = some s' ∧ s'.sent = s.sent ∧ weight s' < weight s := by
  cases hLoop : s.receiver.reader.reading with
  | false => exact h.progress_enter hLoop
  | true =>
    cases hCall : s.receiver.call with
    | none => exact h.progress_call hLoop hCall
    | some copied =>
      by_cases hLess : copied.length < s.receiver.size
      · exact h.progress_iteration hPayload hBuffer hLoop hCall hLess hMore
      -- The call has all that it was made for, and returns it.
      · let r : UdpReceiver :=
          { s.receiver with reader := s.receiver.reader.transportRead link (some copied), call := none }
        refine ⟨.advance, { s with receiver := r }, ?_, rfl, ?_⟩
        · simp only [Network.step, UdpReceiver.advance, hLoop, hCall, hLess, if_true, if_false,
            Option.map_some, r]
        · have hNew : phase r ≤ 3 := phase_le_of_call rfl
          have hOld : phase s.receiver = 4 := by
            simp only [phase, hCall, hLess, if_false]
          rw [weight, weight, hOld]
          change 8 * (s.receiver.udp.dataRest.length + (s.queue.flatMap Datagram.data).length) + phase r < _
          omega

theorem synced_of_reachable (hPayload : 1 ≤ maxPayload) (hBuffer : maxPayload ≤ bufferPayload)
    (hReach : (system maxPayload bufferPayload).Reachable s) : Synced s := by
  apply hReach.invariant Synced
  · rintro t ⟨hQueue, hReceiver, hSent⟩
    constructor
    · rw [hQueue, hReceiver]
      exact ⟨rfl, [], fun m hm => absurd hm List.not_mem_nil, Or.inl ⟨rfl, rfl⟩⟩
    · rw [hQueue, hReceiver, bodies, hSent]
      exact ⟨Reader.start_waiting, rfl, nofun, nofun⟩
  · exact fun _ _ _ h _ hStep => synced_step hPayload hBuffer h hStep

/-- The receiver gets the messages as they were sent. At any time it has got the first of them; when
it is at rest and no datagram is on its way it has got all of them, and it can always come to that. -/
theorem received_exactly (hPayload : 1 ≤ maxPayload) (hBuffer : maxPayload ≤ bufferPayload)
    (hReach : (system maxPayload bufferPayload).Reachable s) :
    s.receiver.reader.handled <+: bodies s ∧
      (s.receiver.reader.reading = false → s.queue = [] → s.receiver.reader.handled = bodies s) ∧
        ∃ as s', (system maxPayload bufferPayload).run s as = some s' ∧ s'.sent = s.sent ∧
          s'.receiver.reader.handled = bodies s := by
  have hSynced := synced_of_reachable hPayload hBuffer hReach
  obtain ⟨cs, hSplit, _⟩ := hSynced.flowing.reader.split (bodies_bounds s) hSynced.flowing.follows
  refine ⟨⟨cs, hSplit.symm⟩, ?_, ?_⟩
  · intro hIdle hQueue
    have hFollows := hSynced.flowing.follows
    rw [hSynced.flowing.call_eq_none hIdle, hSynced.flowing.idle hIdle, hQueue] at hFollows
    have hShort : s.receiver.reader.readBuffer.length + ([] : Bytes).length < s.receiver.reader.readSize :=
      hSynced.flowing.reader.idle hIdle
    exact hSynced.flowing.reader.handled_eq hShort (bodies_bounds s) hFollows
  · have hProgress : ∀ t, Synced t ∧ t.sent = s.sent →
        ¬ (t.sent = s.sent ∧ t.receiver.reader.handled = bodies s) →
          ∃ a t', (system maxPayload bufferPayload).step t a = some t' ∧
            (Synced t' ∧ t'.sent = s.sent) ∧ weight t' < weight t := by
      rintro t ⟨hInv, hSame⟩ hNot
      have hBodies : bodies t = bodies s := by rw [bodies, hSame, bodies]
      have hMore : t.receiver.reader.handled ≠ bodies t := fun hEq => hNot ⟨hSame, hEq.trans hBodies⟩
      obtain ⟨a, t', hStep, hSent, hLess⟩ := hInv.progress hPayload hBuffer hMore
      exact ⟨a, t', hStep, ⟨synced_step hPayload hBuffer hInv hStep, hSent.trans hSame⟩, hLess⟩
    exact Machine.exists_run_of_measure _ _ weight hProgress s ⟨hSynced, rfl⟩

end Progress

def sampleStart : Network 3 where
  messageId := 254
  queue := []
  receiver := .start
  sent := []

def sampleRun : List (Label 3) :=
  [.send ⟨[7], by decide⟩, .send ⟨[], by decide⟩, .advance, .wouldBlock, .readable, .advance, .receive, .receive,
    .advance, .advance, .advance, .advance, .receive, .receive, .advance, .advance, .wouldBlock]

theorem received_exactly_sample : ∃ s, (system 3 5).run sampleStart sampleRun = some s ∧
    s.receiver.reader.handled = [[7], []] := by
  have hStart : (system 3 5).Reachable sampleStart := .init ⟨rfl, rfl, rfl⟩
  have hRun : (system 3 5).run sampleStart sampleRun =
      some (((system 3 5).run sampleStart sampleRun).getD sampleStart) := rfl
  obtain ⟨_, hRest, _⟩ := received_exactly (by decide) (by decide) (hStart.run hRun)
  exact ⟨_, hRun, hRest rfl rfl⟩

end XcRos.Libros.Udp
