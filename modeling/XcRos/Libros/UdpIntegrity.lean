import XcRos.Foundation.Machine
import XcRos.Libros.UdpRoundTrip

/-! # Messages over a UDP connection that loses, repeats and reorders datagrams

A datagram that has been sent may arrive at any time, any number of times, or never.
-/

namespace XcRos.Libros.Udp.Lossy

open XcRos.Foundation XcRos.Rpc

/-- `TransportPublisherLink` on a transport that has no header. -/
def link : Link where
  requiresHeader := false
  lengthLimit := some 1000000000

structure Sent where
  messageId : Nat
  body : Bytes

/-- `wire` holds every datagram ever sent with the message it was cut from; `origin` is the message
whose first block was the last first block to arrive. -/
structure Network (maxPayload : Nat) where
  messageId : Nat
  wire : List (Sent × Datagram)
  receiver : UdpReceiver
  sent : List (Body maxPayload)
  origin : Sent

inductive Label (maxPayload : Nat) where
  | send (body : Body maxPayload)
  | readable
  | advance
  | receive (i : Nat)
  | wouldBlock

variable {maxPayload bufferPayload : Nat}

def Network.step (bufferPayload : Nat) (s : Network maxPayload) :
    Label maxPayload → Option (Network maxPayload)
  | .send body =>
    let messageId := nextMessageId s.messageId
    some { s with
      messageId := messageId
      wire := s.wire ++ (udpWrite maxPayload messageId (frame body.1)).map fun d => (⟨messageId, body.1⟩, d)
      sent := s.sent ++ [body] }
  | .readable => s.receiver.onReadable.map fun r => { s with receiver := r }
  | .advance => (s.receiver.advance link).map fun r => { s with receiver := r }
  | .receive i =>
    match s.wire[i]? with
    | some (m, d) =>
      (s.receiver.receive bufferPayload link (some d)).map fun r =>
        { s with receiver := r, origin := if d.header.op = udpData0 then m else s.origin }
    | none => none
  | .wouldBlock => (s.receiver.receive bufferPayload link none).map fun r => { s with receiver := r }

def system (maxPayload bufferPayload : Nat) : Machine (Network maxPayload) (Label maxPayload) where
  Init s := s.wire = [] ∧ s.receiver = .start ∧ s.sent = [] ∧ s.origin.body = []
  step := Network.step bufferPayload

def bodies (s : Network maxPayload) : List Bytes := s.sent.map Subtype.val

def Expected (u : TransportUdp) (d : Datagram) : Prop :=
  d.header.messageId = u.currentMessageId ∧ d.header.block = u.lastBlock + 1

instance (u : TransportUdp) (d : Datagram) : Decidable (Expected u d) :=
  inferInstanceAs (Decidable (_ ∧ _))

/-- A later block is discarded only when the call has copied nothing yet, and accepted only when it
is the block of the message that is being put together. -/
def InPlace (s : Network maxPayload) (d : Datagram) (copied : Bytes) : Prop :=
  (Expected s.receiver.udp d →
    d = blockDatagram maxPayload s.origin.messageId (frame s.origin.body) (s.receiver.udp.lastBlock + 1)) ∧
  (¬ Expected s.receiver.udp d → copied = [])

instance (s : Network maxPayload) (d : Datagram) (copied : Bytes) : Decidable (InPlace s d copied) :=
  inferInstanceAs (Decidable ((Expected _ _ → _ = _) ∧ (¬ Expected _ _ → _ = _)))

def Orderly (s : Network maxPayload) : Label maxPayload → Prop
  | .receive i => ∀ e ∈ s.wire[i]?, ∀ copied ∈ s.receiver.call, e.2.header.op = udpDataN → InPlace s e.2 copied
  | _ => True

instance : ∀ (s : Network maxPayload) (a : Label maxPayload), Decidable (Orderly s a)
  | s, .receive i =>
    inferInstanceAs (Decidable (∀ e ∈ s.wire[i]?, ∀ copied ∈ s.receiver.call, e.2.header.op = udpDataN → InPlace s e.2 copied))
  | _, .send _ => instDecidableTrue
  | _, .readable => instDecidableTrue
  | _, .advance => instDecidableTrue
  | _, .wouldBlock => instDecidableTrue

/-! ## What the receiver has of a message -/

def got (r : UdpReceiver) : Bytes := r.reader.taken ++ r.call.getD []

def left (u : TransportUdp) : Bytes := u.reorderRest ++ u.dataRest

structure Saved (maxPayload : Nat) (m : Sent) (r : UdpReceiver) : Prop where
  nothing : got r = []
  id : r.udp.currentMessageId = 0
  data : r.udp.dataRest = []
  front : r.udp.reorderFront = []
  header : r.udp.reorderHeader = (blockDatagram maxPayload m.messageId (frame m.body) 0).header
  rest : r.udp.reorderRest = (blockDatagram maxPayload m.messageId (frame m.body) 0).data

/-- The first `k` blocks of the message have arrived. -/
structure Within (maxPayload : Nat) (m : Sent) (k : Nat) (r : UdpReceiver) : Prop where
  bytes : got r ++ left r.udp = (frame m.body).take (k * maxPayload)
  count : k ≤ blocks maxPayload (frame m.body)
  ends : k = 0 ∨ k = blocks maxPayload (frame m.body) → r.udp.currentMessageId = 0
  inside : 0 < k → k < blocks maxPayload (frame m.body) →
    r.udp.currentMessageId ≠ 0 ∧ r.udp.totalBlocks = blocks maxPayload (frame m.body) ∧
      r.udp.lastBlock + 1 = k
  buffers : r.udp.reorderRest = [] ∨ r.udp.dataRest = [] ∧ r.udp.reorderFront ≠ []

/-- The message is one of `es`, and its id is not the one that stands for no message. -/
structure Genuine (es : List Bytes) (m : Sent) : Prop where
  id : m.messageId ≠ 0
  body : m.body ∈ es

/-- The receiver is at some place of the message `m`. -/
structure Tracked (maxPayload : Nat) (es : List Bytes) (m : Sent) (r : UdpReceiver) : Prop where
  reader : r.reader.Waiting
  handled : ∀ b ∈ r.reader.handled, b ∈ es
  call : ∀ copied, r.call = some copied → r.reader.reading = true ∧ copied.length ≤ r.size
  short : m.body.length < 256 ^ 4
  place : (Saved maxPayload m r ∧ Genuine es m) ∨ ∃ k, Within maxPayload m k r ∧ (0 < k → Genuine es m)

structure Dropped (es : List Bytes) (r : UdpReceiver) : Prop where
  dropped : r.reader.dropped = true
  handled : ∀ b ∈ r.reader.handled, b ∈ es
  call : r.call = none

def Safe (maxPayload : Nat) (es : List Bytes) (m : Sent) (r : UdpReceiver) : Prop :=
  Dropped es r ∨ Tracked maxPayload es m r

section Receiver

variable {es : List Bytes} {m : Sent} {k : Nat} {r : UdpReceiver}

theorem frame_ne_nil (body : Bytes) : frame body ≠ [] := by
  apply List.ne_nil_of_length_pos
  rw [Reader.length_frame]
  omega

theorem blocks_pos (hPayload : 1 ≤ maxPayload) (body : Bytes) : 0 < blocks maxPayload (frame body) := by
  rw [lt_blocks_iff hPayload, Nat.zero_mul]
  exact List.length_pos_iff.mpr (frame_ne_nil body)

theorem size_pos_of_got (h : r.reader.Waiting) (hGot : got r = []) :
    0 < r.size ∧ r.reader.readCallback = some .onMessageLength := by
  have hTaken := (List.append_eq_nil_iff.mp hGot).1
  obtain ⟨hCallback, hSize, hShort⟩ | ⟨hCallback, _⟩ := h.callback
  · constructor
    · rw [UdpReceiver.size]
      omega
    · exact hCallback
  · rw [Reader.taken, hCallback] at hTaken
    cases hTaken

theorem Within.begins (h : Within maxPayload m k r) : got r <+: frame m.body := by
  apply List.IsPrefix.trans _ (List.take_prefix (k * maxPayload) (frame m.body))
  exact ⟨left r.udp, h.bytes⟩

theorem Within.complete (hPayload : 1 ≤ maxPayload) (h : Within maxPayload m k r)
    (hAll : got r = frame m.body) : left r.udp = [] ∧ k = blocks maxPayload (frame m.body) := by
  have hLength := congrArg List.length h.bytes
  rw [List.length_append, List.length_take, hAll] at hLength
  constructor
  · apply List.length_eq_zero_iff.mp
    omega
  · apply le_antisymm h.count
    rw [← Nat.not_lt, lt_blocks_iff hPayload]
    omega

theorem safe_finish (hPayload : 1 ≤ maxPayload) (hReader : r.reader.Waiting)
    (hHandled : ∀ b ∈ r.reader.handled, b ∈ es) (hLoop : r.reader.reading = true)
    (hShort : m.body.length < 256 ^ 4) {udp : TransportUdp} {copied : Bytes} (hSize : copied.length ≤ r.size)
    (hWithin : Within maxPayload m k { r with udp := udp, call := some copied })
    (hGenuine : 0 < k → Genuine es m) :
    Safe maxPayload es m ⟨udp, r.reader.transportRead link (some copied), none⟩ := by
  have hTotal := size_eq hReader
  have hPrefix : r.reader.taken ++ copied <+: frame m.body := hWithin.begins
  obtain ⟨_, hDropped, hSame⟩ | ⟨hWaiting, ⟨hSame, hTaken⟩ | ⟨hNew, hTaken, hAll⟩⟩ :=
    Reader.transportRead_begins link hReader hLoop hShort hPrefix (by omega)
  · left
    exact ⟨hDropped, by rwa [hSame], rfl⟩
  · right
    refine ⟨hWaiting, by rwa [hSame], nofun, hShort, Or.inr ⟨k, ⟨?_, hWithin.count, hWithin.ends,
      hWithin.inside, hWithin.buffers⟩, hGenuine⟩⟩
    rw [← hWithin.bytes]
    simp only [got, hTaken, Option.getD_none, Option.getD_some, List.append_nil]
  · right
    obtain ⟨hLeft, hEnd⟩ := hWithin.complete hPayload hAll
    have hBuffers := List.append_eq_nil_iff.mp hLeft
    have hPos : 0 < k := hEnd ▸ blocks_pos hPayload m.body
    refine ⟨hWaiting, ?_, nofun, hShort, Or.inr ⟨0, ⟨?_, Nat.zero_le _, fun _ => hWithin.ends (Or.inr hEnd),
      fun hLess => absurd hLess (Nat.lt_irrefl 0), Or.inl hBuffers.1⟩, fun hLess => absurd hLess (Nat.lt_irrefl 0)⟩⟩
    · rw [hNew]
      intro b hb
      obtain hOld | hLast := List.mem_append.mp hb
      · exact hHandled b hOld
      · rw [List.mem_singleton.mp hLast]
        exact (hGenuine hPos).body
    · simp only [got, hTaken, Option.getD_none, List.append_nil, List.nil_append, Nat.zero_mul, List.take_zero]
      exact hLeft

theorem safe_resume (hPayload : 1 ≤ maxPayload) (hReader : r.reader.Waiting)
    (hHandled : ∀ b ∈ r.reader.handled, b ∈ es) (hLoop : r.reader.reading = true)
    (hShort : m.body.length < 256 ^ 4) (next : TransportUdp × Outcome) (copied : Bytes)
    (hOutcome : next.2 = .again copied ∨ next.2 = .returned (some copied)) (hSize : copied.length ≤ r.size)
    (hWithin : Within maxPayload m k { r with udp := next.1, call := some copied })
    (hGenuine : 0 < k → Genuine es m) : Safe maxPayload es m (r.resume link next) := by
  obtain ⟨udp, outcome⟩ := next
  obtain rfl | rfl := hOutcome
  · right
    refine ⟨hReader, hHandled, ?_, hShort, Or.inr ⟨k, hWithin, hGenuine⟩⟩
    rintro c ⟨⟩
    exact ⟨hLoop, hSize⟩
  · exact safe_finish hPayload hReader hHandled hLoop hShort hSize hWithin hGenuine

theorem endBlock_within (hk : 0 < k) {u : TransportUdp} {copied : Bytes}
    (hBytes : r.reader.taken ++ copied ++ left u = (frame m.body).take (k * maxPayload))
    (hCount : k ≤ blocks maxPayload (frame m.body)) (hId : u.currentMessageId ≠ 0)
    (hTotal : u.totalBlocks = blocks maxPayload (frame m.body)) (hLast : u.lastBlock + 1 = k)
    (hBuffers : u.reorderRest = [] ∨ u.dataRest = [] ∧ u.reorderFront ≠ []) :
    let next := u.endBlock copied
    (next.2 = .again copied ∨ next.2 = .returned (some copied)) ∧
      Within maxPayload m k { r with udp := next.1, call := some copied } := by
  dsimp only
  rw [TransportUdp.endBlock]
  split
  · rename_i hEnd
    refine ⟨Or.inr rfl, hBytes, hCount, fun _ => rfl, ?_, hBuffers⟩
    intro _ hLess
    omega
  · rename_i hMore
    refine ⟨Or.inl rfl, hBytes, hCount, ?_, fun _ _ => ⟨hId, hTotal, hLast⟩, hBuffers⟩
    rintro (hZero | hEnd)
    · omega
    · omega

theorem Saved.readBuffered (hPayload : 1 ≤ maxPayload) (h : Saved maxPayload m r) (hGenuine : Genuine es m)
    {copied : Bytes} (hCall : r.call = some copied) (hLess : copied.length < r.size) :
    let next := r.udp.readBuffered r.size copied
    ∃ c, (next.2 = .again c ∨ next.2 = .returned (some c)) ∧ c.length ≤ r.size ∧
      Within maxPayload m 1 { r with udp := next.1, call := some c } := by
  have hFirst := blocks_pos hPayload m.body
  have hRest : r.udp.reorderRest ≠ [] := by
    rw [h.rest]
    exact blockDatagram_data_ne_nil hPayload m.messageId hFirst
  have hHeader : r.udp.reorderHeader = ⟨udpData0, m.messageId, blocks maxPayload (frame m.body)⟩ := h.header
  have hGot := h.nothing
  rw [got, hCall, Option.getD_some, List.append_eq_nil_iff] at hGot
  dsimp only
  rw [TransportUdp.readBuffered_kept hRest h.front (by rw [hHeader]) h.id]
  let u : TransportUdp := { r.udp with
    totalBlocks := r.udp.reorderHeader.block
    lastBlock := 0
    currentMessageId := r.udp.reorderHeader.messageId
    reorderFront := r.udp.reorderRest.take (r.size - copied.length)
    reorderRest := r.udp.reorderRest.drop (r.size - copied.length) }
  refine ⟨copied ++ r.udp.reorderRest.take (r.size - copied.length), ?_⟩
  have hBytes : r.reader.taken ++ (copied ++ r.udp.reorderRest.take (r.size - copied.length)) ++ left u =
      (frame m.body).take (1 * maxPayload) := by
    simp only [hGot.1, hGot.2, List.nil_append, left, u, h.data, List.append_nil, List.take_append_drop]
    rw [h.rest, blockDatagram, Nat.zero_mul, List.drop_zero, Nat.one_mul]
  have hFront : r.udp.reorderRest.take (r.size - copied.length) ≠ [] := by
    rw [ne_eq, List.take_eq_nil_iff, not_or]
    exact ⟨by omega, hRest⟩
  obtain ⟨hOutcome, hWithin⟩ := endBlock_within (u := u) Nat.one_pos hBytes hFirst
    (by simp only [u, hHeader, ne_eq, hGenuine.id, not_false_eq_true]) (by simp only [u, hHeader]) rfl
    (Or.inr ⟨h.data, hFront⟩)
  refine ⟨hOutcome, ?_, hWithin⟩
  rw [List.length_append, List.length_take]
  omega

theorem Within.readBuffered (h : Within maxPayload m k r) {copied : Bytes} (hCall : r.call = some copied)
    (hLess : copied.length < r.size) :
    let next := r.udp.readBuffered r.size copied
    ∃ c, next.2 = .again c ∧ c.length ≤ r.size ∧
      Within maxPayload m k { r with udp := next.1, call := some c } := by
  have hBytes := h.bytes
  rw [got, hCall, Option.getD_some, left] at hBytes
  dsimp only
  by_cases hRest : r.udp.reorderRest = []
  · rw [TransportUdp.readBuffered_data hRest]
    refine ⟨_, rfl, ?_, ?_, h.count, h.ends, h.inside, Or.inl hRest⟩
    · rw [List.length_append, List.length_take]
      omega
    · rw [← hBytes, got, left, hRest]
      simp only [Option.getD_some, List.nil_append, List.append_assoc, List.take_append_drop]
  · obtain hNil | ⟨hData, hFront⟩ := h.buffers
    · exact absurd hNil hRest
    rw [TransportUdp.readBuffered_reorder hRest hFront]
    refine ⟨_, rfl, ?_, ?_, h.count, h.ends, h.inside, Or.inr ⟨hData, ?_⟩⟩
    · rw [List.length_append, List.length_take]
      omega
    · rw [← hBytes, got, left, hData]
      simp only [Option.getD_some, List.append_nil, List.append_assoc, List.take_append_drop]
    · exact List.append_ne_nil_of_left_ne_nil hFront _

theorem safe_advance (hPayload : 1 ≤ maxPayload) (h : Safe maxPayload es m r) {r' : UdpReceiver}
    (hStep : r.advance link = some r') : Safe maxPayload es m r' := by
  simp only [UdpReceiver.advance] at hStep
  split at hStep
  swap
  · cases hStep
  rename_i hLoop
  obtain hDropped | hTracked := h
  · left
    simp only [hDropped.call, Reader.toRead, hDropped.dropped, if_true, Option.some.injEq] at hStep
    subst hStep
    exact ⟨hDropped.dropped, hDropped.handled, rfl⟩
  obtain ⟨hReader, hHandled, hBounds, hShort, hPlace⟩ := hTracked
  split at hStep
  · rename_i hCall
    rw [hReader.toRead] at hStep
    split at hStep
    · rename_i hNone
      cases hNone
    · rename_i hZero
      cases hStep
      have hSize : r.size = 0 := Option.some.inj hZero
      obtain ⟨hSaved, _⟩ | ⟨k, hWithin, hGenuine⟩ := hPlace
      · have := (size_pos_of_got hReader hSaved.nothing).1
        omega
      · refine safe_finish hPayload hReader hHandled hLoop hShort (Nat.zero_le _) ⟨?_, hWithin.count, hWithin.ends,
          hWithin.inside, hWithin.buffers⟩ hGenuine
        rw [← hWithin.bytes, got, got, hCall]
        rfl
    · cases hStep
      right
      refine ⟨hReader, hHandled, ?_, hShort, ?_⟩
      · rintro copied ⟨⟩
        exact ⟨hLoop, Nat.zero_le _⟩
      · have hGot : got { r with call := some [] } = got r := by
          rw [got, got, hCall]
          rfl
        obtain ⟨hSaved, hGenuine⟩ | ⟨k, hWithin, hGenuine⟩ := hPlace
        · exact Or.inl ⟨⟨hGot.trans hSaved.nothing, hSaved.id, hSaved.data, hSaved.front, hSaved.header, hSaved.rest⟩,
            hGenuine⟩
        · refine Or.inr ⟨k, ⟨?_, hWithin.count, hWithin.ends, hWithin.inside, hWithin.buffers⟩, hGenuine⟩
          rw [hGot]
          exact hWithin.bytes
  · rename_i copied hCall
    have hSize := (hBounds copied hCall).2
    split at hStep
    · rename_i hLess
      split at hStep
      · cases hStep
      cases hStep
      obtain ⟨hSaved, hGenuine⟩ | ⟨k, hWithin, hGenuine⟩ := hPlace
      · obtain ⟨c, hOutcome, hBound, hNext⟩ := hSaved.readBuffered hPayload hGenuine hCall hLess
        exact safe_resume hPayload hReader hHandled hLoop hShort _ c hOutcome hBound hNext fun _ => hGenuine
      · obtain ⟨c, hOutcome, hBound, hNext⟩ := hWithin.readBuffered hCall hLess
        exact safe_resume hPayload hReader hHandled hLoop hShort _ c (Or.inl hOutcome) hBound hNext hGenuine
    · rename_i hFull
      cases hStep
      obtain ⟨hSaved, _⟩ | ⟨k, hWithin, hGenuine⟩ := hPlace
      · have hPos := (size_pos_of_got hReader hSaved.nothing).1
        have hGot := hSaved.nothing
        rw [got, hCall, Option.getD_some, List.append_eq_nil_iff] at hGot
        rw [hGot.2] at hFull
        exact absurd hPos hFull
      · refine safe_finish hPayload hReader hHandled hLoop hShort hSize ⟨?_, hWithin.count, hWithin.ends,
          hWithin.inside, hWithin.buffers⟩ hGenuine
        rw [← hWithin.bytes, got, got, hCall]

theorem safe_receive_first (hPayload : 1 ≤ maxPayload) (hBuffer : maxPayload ≤ bufferPayload)
    (hReader : r.reader.Waiting) (hHandled : ∀ b ∈ r.reader.handled, b ∈ es) (hLoop : r.reader.reading = true)
    {copied : Bytes} (hCall : r.call = some copied) (hLess : copied.length < r.size)
    (hWithin : Within maxPayload m k r) (hEmpty : left r.udp = []) (hMore : k < blocks maxPayload (frame m.body))
    {n : Sent} (hNew : Genuine es n) (hShort : n.body.length < 256 ^ 4) :
    Safe maxPayload es n (r.resume link (r.udp.readDatagram bufferPayload r.size copied
      (blockDatagram maxPayload n.messageId (frame n.body) 0))) := by
  have hFits : (blockDatagram maxPayload n.messageId (frame n.body) 0).data.length ≤ bufferPayload :=
    (List.length_take_le _ _).trans hBuffer
  have hBuffers := List.append_eq_nil_iff.mp hEmpty
  obtain rfl | hk := Nat.eq_zero_or_pos k
  · rw [TransportUdp.readDatagram_first hFits rfl (hWithin.ends (Or.inl rfl))]
    have hGot := (List.append_eq_nil_iff.mp (hWithin.bytes.trans (by rw [Nat.zero_mul, List.take_zero]))).1
    rw [got, hCall, Option.getD_some, List.append_eq_nil_iff] at hGot
    let d := blockDatagram maxPayload n.messageId (frame n.body) 0
    let u : TransportUdp := { r.udp with
      totalBlocks := blocks maxPayload (frame n.body)
      lastBlock := 0
      currentMessageId := n.messageId
      dataFront := d.data.take (r.size - copied.length)
      dataRest := d.data.drop (r.size - copied.length) }
    have hBytes : r.reader.taken ++ (copied ++ d.data.take (r.size - copied.length)) ++ left u =
        (frame n.body).take (1 * maxPayload) := by
      simp only [hGot.1, hGot.2, List.nil_append, left, u, hBuffers.1, List.take_append_drop]
      simp only [d, blockDatagram, Nat.zero_mul, List.drop_zero, Nat.one_mul]
    obtain ⟨hOutcome, hNext⟩ := endBlock_within (u := u) Nat.one_pos hBytes (blocks_pos hPayload n.body) hNew.id
      rfl rfl (Or.inl hBuffers.1)
    refine safe_resume hPayload hReader hHandled hLoop hShort _ _ hOutcome ?_ hNext fun _ => hNew
    rw [List.length_append, List.length_take]
    omega
  · obtain ⟨hBusy, _⟩ := hWithin.inside hk hMore
    obtain ⟨hWaiting, hReset⟩ := Reader.transportRead_none hReader (rfl : link.requiresHeader = false)
    rw [TransportUdp.readDatagram_restart hFits rfl hBusy]
    right
    refine ⟨hWaiting, ?_, (by rintro _ ⟨⟩), hShort, Or.inl ⟨⟨?_, rfl, rfl, rfl, rfl, rfl⟩, hNew⟩⟩
    · simp only [UdpReceiver.resume, hReset]
      exact hHandled
    · simp only [got, UdpReceiver.resume, hReset, Reader.taken]
      rfl

theorem safe_receive_next (hPayload : 1 ≤ maxPayload) (hBuffer : maxPayload ≤ bufferPayload)
    (hReader : r.reader.Waiting) (hHandled : ∀ b ∈ r.reader.handled, b ∈ es) (hLoop : r.reader.reading = true)
    {copied : Bytes} (hCall : r.call = some copied) (hLess : copied.length < r.size)
    (hWithin : Within maxPayload m k r) (hGenuine : 0 < k → Genuine es m) (hShort : m.body.length < 256 ^ 4)
    (hEmpty : left r.udp = []) (hMore : k < blocks maxPayload (frame m.body)) {d : Datagram}
    (hOp : d.header.op = udpDataN) (hId : d.header.messageId ≠ 0)
    (hDiscarded : ¬ Expected r.udp d → copied = [])
    (hAccepted : Expected r.udp d →
      d = blockDatagram maxPayload m.messageId (frame m.body) (r.udp.lastBlock + 1)) :
    Safe maxPayload es m (r.resume link (r.udp.readDatagram bufferPayload r.size copied d)) := by
  have hBuffers := List.append_eq_nil_iff.mp hEmpty
  have hBytes := hWithin.bytes
  rw [hEmpty, List.append_nil, got, hCall, Option.getD_some] at hBytes
  by_cases hExpected : Expected r.udp d
  · have hBusy : r.udp.currentMessageId ≠ 0 := hExpected.1 ▸ hId
    have hk : 0 < k := by
      rw [Nat.pos_iff_ne_zero]
      exact fun hZero => hBusy (hWithin.ends (Or.inl hZero))
    obtain ⟨_, hTotal, hLast⟩ := hWithin.inside hk hMore
    have hBlock := hAccepted hExpected
    rw [hLast] at hBlock
    have hData : d.data = ((frame m.body).drop (k * maxPayload)).take maxPayload := by rw [hBlock, blockDatagram]
    have hFits : d.data.length ≤ bufferPayload := by
      rw [hData]
      exact (List.length_take_le _ _).trans hBuffer
    rw [TransportUdp.readDatagram_next hFits hOp hExpected.1 hExpected.2]
    let u : TransportUdp := { r.udp with
      lastBlock := d.header.block
      dataFront := d.data.take (r.size - copied.length)
      dataRest := d.data.drop (r.size - copied.length) }
    have hNextBytes : r.reader.taken ++ (copied ++ d.data.take (r.size - copied.length)) ++ left u =
        (frame m.body).take ((k + 1) * maxPayload) := by
      simp only [left, u, hBuffers.1, List.nil_append, List.append_assoc, List.take_append_drop]
      rw [← List.append_assoc, hBytes, hData, ← List.take_add, Nat.succ_mul]
    have hNextLast : u.lastBlock + 1 = k + 1 := by
      simp only [u, hExpected.2, hLast]
    obtain ⟨hOutcome, hNext⟩ := endBlock_within (u := u) (Nat.succ_pos k) hNextBytes hMore hBusy hTotal hNextLast
      (Or.inl hBuffers.1)
    refine safe_resume hPayload hReader hHandled hLoop hShort _ _ hOutcome ?_ hNext fun _ => hGenuine hk
    rw [List.length_append, List.length_take]
    omega
  · rw [TransportUdp.readDatagram_discard hOp hExpected]
    have hNone := hDiscarded hExpected
    refine safe_resume hPayload hReader hHandled hLoop hShort _ [] (Or.inr rfl) (Nat.zero_le _)
      ⟨?_, hWithin.count, hWithin.ends, hWithin.inside, Or.inl hBuffers.1⟩ hGenuine
    rw [← hBytes, hNone, got, left, hBuffers.1]
    exact List.append_nil _

theorem Safe.mono {fs : List Bytes} (hSub : ∀ b ∈ es, b ∈ fs) (h : Safe maxPayload es m r) :
    Safe maxPayload fs m r := by
  obtain hDropped | hTracked := h
  · exact Or.inl ⟨hDropped.dropped, fun b hb => hSub b (hDropped.handled b hb), hDropped.call⟩
  · refine Or.inr ⟨hTracked.reader, fun b hb => hSub b (hTracked.handled b hb), hTracked.call, hTracked.short, ?_⟩
    obtain ⟨hSaved, hGenuine⟩ | ⟨k, hWithin, hGenuine⟩ := hTracked.place
    · exact Or.inl ⟨hSaved, hGenuine.id, hSub _ hGenuine.body⟩
    · exact Or.inr ⟨k, hWithin, fun hk => ⟨(hGenuine hk).id, hSub _ (hGenuine hk).body⟩⟩

theorem Tracked.at_socket (hPayload : 1 ≤ maxPayload) (h : Tracked maxPayload es m r) {copied : Bytes}
    (hCall : r.call = some copied) (hLess : copied.length < r.size) (hSocket : r.udp.needsSocket = true) :
    left r.udp = [] ∧
      ∃ k, k < blocks maxPayload (frame m.body) ∧ Within maxPayload m k r ∧ (0 < k → Genuine es m) := by
  simp only [TransportUdp.needsSocket, Bool.and_eq_true, List.isEmpty_iff] at hSocket
  have hEmpty : left r.udp = [] := List.append_eq_nil_iff.mpr hSocket
  obtain ⟨hSaved, _⟩ | ⟨k, hWithin, hGenuine⟩ := h.place
  · have hKept := hSaved.rest
    rw [hSocket.1] at hKept
    exact absurd hKept.symm (blockDatagram_data_ne_nil hPayload _ (blocks_pos hPayload m.body))
  · refine ⟨hEmpty, k, ?_, hWithin, hGenuine⟩
    have hBytes := hWithin.bytes
    have hBegins := hWithin.begins
    rw [got, hCall, Option.getD_some] at hBytes hBegins
    have hMore := h.reader.length_lt h.short hBegins hLess
    rw [hEmpty, List.append_nil] at hBytes
    rw [lt_blocks_iff hPayload]
    rw [hBytes, List.length_take] at hMore
    omega

end Receiver

/-! ## Runs -/

def Cut (maxPayload : Nat) (e : Sent × Datagram) : Prop :=
  ∃ k, k < blocks maxPayload (frame e.1.body) ∧
    e.2 = blockDatagram maxPayload e.1.messageId (frame e.1.body) k

structure Honest (s : Network maxPayload) : Prop where
  wire : ∀ e ∈ s.wire, Genuine (bodies s) e.1 ∧ Cut maxPayload e
  receiver : Safe maxPayload (bodies s) s.origin s.receiver

section Steps

variable {s s' : Network maxPayload}

theorem bodies_short (s : Network maxPayload) : ∀ b ∈ bodies s, b.length < 256 ^ 4 := by
  intro b hb
  obtain ⟨body, _, rfl⟩ := List.mem_map.mp hb
  have hLength := body.2.1
  rw [Reader.length_frame] at hLength
  omega

theorem Honest.send (hPayload : 1 ≤ maxPayload) (h : Honest s) (body : Body maxPayload) :
    Honest { s with
      messageId := nextMessageId s.messageId
      wire := s.wire ++ (udpWrite maxPayload (nextMessageId s.messageId) (frame body.1)).map
        fun d => (⟨nextMessageId s.messageId, body.1⟩, d)
      sent := s.sent ++ [body] } := by
  have hBodies (t : Network maxPayload) (hSent : t.sent = s.sent ++ [body]) :
      bodies t = bodies s ++ [body.1] := by
    rw [bodies, hSent, List.map_append]
    rfl
  have hSub (b : Bytes) (hb : b ∈ bodies s) : b ∈ bodies s ++ [body.1] := List.mem_append_left _ hb
  constructor
  · intro e he
    rw [hBodies _ rfl]
    obtain hOld | hNew := List.mem_append.mp he
    · obtain ⟨hGenuine, hCut⟩ := h.wire e hOld
      exact ⟨⟨hGenuine.id, hSub _ hGenuine.body⟩, hCut⟩
    · obtain ⟨d, hd, rfl⟩ := List.mem_map.mp hNew
      rw [udpWrite_eq hPayload (Nat.lt_succ_of_le body.2.2)] at hd
      obtain ⟨k, hk, rfl⟩ := List.mem_map.mp hd
      have hLess := (List.mem_range'_1.mp hk).2
      rw [Nat.zero_add] at hLess
      exact ⟨⟨nextMessageId_ne_zero _, List.mem_append_right _ (List.mem_singleton_self _)⟩, k, hLess, rfl⟩
  · rw [hBodies _ rfl]
    exact h.receiver.mono hSub

theorem Honest.readable (h : Honest s) {r : UdpReceiver} (hStep : s.receiver.onReadable = some r) :
    Safe maxPayload (bodies s) s.origin r := by
  rw [UdpReceiver.onReadable] at hStep
  split at hStep
  swap
  · cases hStep
  rename_i hIdle
  cases hStep
  obtain hDropped | hTracked := h.receiver
  · rw [hDropped.dropped] at hIdle
    exact absurd hIdle.2.1 (by decide)
  · right
    refine ⟨hTracked.reader.enter, hTracked.handled, ?_, hTracked.short, ?_⟩
    · intro copied hCall
      exact ⟨rfl, (hTracked.call copied hCall).2⟩
    · obtain ⟨hSaved, hGenuine⟩ | ⟨k, hWithin, hGenuine⟩ := hTracked.place
      · left
        exact ⟨⟨hSaved.nothing, hSaved.id, hSaved.data, hSaved.front, hSaved.header, hSaved.rest⟩, hGenuine⟩
      · right
        exact ⟨k, ⟨hWithin.bytes, hWithin.count, hWithin.ends, hWithin.inside, hWithin.buffers⟩, hGenuine⟩

theorem Honest.receive (hPayload : 1 ≤ maxPayload) (hBuffer : maxPayload ≤ bufferPayload) (h : Honest s)
    {i : Nat} (hOrderly : Orderly s (.receive i)) {e : Sent × Datagram} (hWire : s.wire[i]? = some e)
    {r : UdpReceiver} (hStep : s.receiver.receive bufferPayload link (some e.2) = some r) :
    Safe maxPayload (bodies s) (if e.2.header.op = udpData0 then e.1 else s.origin) r := by
  obtain ⟨hGenuine, k, hk, hBlock⟩ := h.wire e (List.mem_of_getElem? hWire)
  simp only [UdpReceiver.receive] at hStep
  split at hStep
  swap
  · cases hStep
  rename_i copied hCall
  split at hStep
  swap
  · cases hStep
  rename_i hAsks
  obtain ⟨hLoop, hLess, hSocket⟩ := hAsks
  cases hStep
  obtain hDropped | hTracked := h.receiver
  · rw [hDropped.call] at hCall
    cases hCall
  obtain ⟨hEmpty, j, hMore, hWithin, hOrigin⟩ := hTracked.at_socket hPayload hCall hLess hSocket
  obtain rfl | hLater := Nat.eq_zero_or_pos k
  · have hFirst : e.2.header.op = udpData0 := by
      rw [hBlock]
      rfl
    rw [if_pos hFirst, hBlock]
    exact safe_receive_first hPayload hBuffer hTracked.reader hTracked.handled hLoop hCall hLess hWithin hEmpty hMore
      hGenuine (bodies_short s _ hGenuine.body)
  · have hHeader : e.2.header = ⟨udpDataN, e.1.messageId, k⟩ := by
      rw [hBlock, blockDatagram, if_neg hLater.ne']
    have hOp : e.2.header.op = udpDataN := by rw [hHeader]
    have hNe : udpDataN ≠ udpData0 := by decide
    rw [hOp, if_neg hNe]
    obtain ⟨hAccepted, hDiscarded⟩ := hOrderly e hWire copied hCall hOp
    exact safe_receive_next hPayload hBuffer hTracked.reader hTracked.handled hLoop hCall hLess hWithin hOrigin
      hTracked.short hEmpty hMore hOp (by rw [hHeader]; exact hGenuine.id)  hDiscarded
      hAccepted

theorem Honest.wouldBlock (hPayload : 1 ≤ maxPayload) (h : Honest s) {r : UdpReceiver}
    (hStep : s.receiver.receive bufferPayload link none = some r) : Safe maxPayload (bodies s) s.origin r := by
  simp only [UdpReceiver.receive] at hStep
  split at hStep
  swap
  · cases hStep
  rename_i copied hCall
  split at hStep
  swap
  · cases hStep
  rename_i hAsks
  obtain ⟨hLoop, hLess, hSocket⟩ := hAsks
  cases hStep
  obtain hDropped | hTracked := h.receiver
  · rw [hDropped.call] at hCall
    cases hCall
  obtain ⟨_, j, _, hWithin, hOrigin⟩ := hTracked.at_socket hPayload hCall hLess hSocket
  refine safe_resume hPayload hTracked.reader hTracked.handled hLoop hTracked.short _ copied (Or.inr rfl) hLess.le
    ⟨?_, hWithin.count, hWithin.ends, hWithin.inside, hWithin.buffers⟩ hOrigin
  rw [← hWithin.bytes, got, got, hCall]

theorem honest_step (hPayload : 1 ≤ maxPayload) (hBuffer : maxPayload ≤ bufferPayload) (h : Honest s)
    {a : Label maxPayload} (hOrderly : Orderly s a) (hStep : s.step bufferPayload a = some s') : Honest s' := by
  cases a with
  | send body =>
    cases hStep
    exact h.send hPayload body
  | readable =>
    obtain ⟨r, hReceiver, rfl⟩ := Option.map_eq_some_iff.mp hStep
    exact ⟨h.wire, h.readable hReceiver⟩
  | advance =>
    obtain ⟨r, hReceiver, rfl⟩ := Option.map_eq_some_iff.mp hStep
    exact ⟨h.wire, safe_advance hPayload h.receiver hReceiver⟩
  | receive i =>
    simp only [Network.step] at hStep
    split at hStep
    · rename_i m d hWire
      obtain ⟨r, hReceiver, rfl⟩ := Option.map_eq_some_iff.mp hStep
      exact ⟨h.wire, h.receive hPayload hBuffer hOrderly hWire hReceiver⟩
    · cases hStep
  | wouldBlock =>
    obtain ⟨r, hReceiver, rfl⟩ := Option.map_eq_some_iff.mp hStep
    exact ⟨h.wire, h.wouldBlock hPayload hReceiver⟩

theorem honest_init (hInit : (system maxPayload bufferPayload).Init s) : Honest s := by
  obtain ⟨hWire, hReceiver, hSent, hOrigin⟩ := hInit
  constructor
  · rw [hWire]
    exact fun _ he => absurd he List.not_mem_nil
  · right
    rw [hReceiver]
    refine ⟨Reader.start_waiting, fun _ hb => absurd hb List.not_mem_nil, nofun, ?_, Or.inr ⟨0, ?_, nofun⟩⟩
    · rw [hOrigin]
      exact Nat.pow_pos (Nat.succ_pos 255)
    · refine ⟨?_, Nat.zero_le _, fun _ => rfl, fun hLess => absurd hLess (Nat.lt_irrefl 0), Or.inl rfl⟩
      rw [Nat.zero_mul]
      rfl

end Steps

/-- In a run whose datagrams come in no worse order than the receiver can tell, every message that is
handled is one of those that were sent. -/
theorem handled_genuine (hPayload : 1 ≤ maxPayload) (hBuffer : maxPayload ≤ bufferPayload)
    {s : Network maxPayload} (hReach : (system maxPayload bufferPayload).ReachableWhen Orderly s) :
    ∀ b ∈ s.receiver.reader.handled, b ∈ bodies s := by
  have hHonest : Honest s := by
    apply hReach.invariant Honest
    · exact fun _ hInit => honest_init hInit
    · exact fun _ _ _ h hOrderly hStep => honest_step hPayload hBuffer h hOrderly hStep
  obtain hDropped | hTracked := hHonest.receiver
  · exact hDropped.handled
  · exact hTracked.handled

def sampleStart : Network 4 where
  messageId := 0
  wire := []
  receiver := .start
  sent := []
  origin := ⟨0, []⟩

def sampleRun : List (Label 4) :=
  [.send ⟨[7, 8, 9, 10, 11, 12], by decide⟩, .advance, .receive 0, .advance, .advance, .receive 1, .wouldBlock,
    .readable, .advance, .receive 1, .readable, .advance, .receive 2, .advance]

theorem handled_genuine_sample : ∃ s, (system 4 4).ReachableWhen Orderly s ∧
    s.receiver.reader.handled = [[7, 8, 9, 10, 11, 12]] ∧ ∀ b ∈ s.receiver.reader.handled, b ∈ bodies s := by
  have hStart : (system 4 4).ReachableWhen Orderly sampleStart := .init ⟨rfl, rfl, rfl, rfl⟩
  have hRun : (system 4 4).runWhen Orderly sampleStart sampleRun =
      some (((system 4 4).runWhen Orderly sampleStart sampleRun).getD sampleStart) := rfl
  have hReach := hStart.runWhen hRun
  exact ⟨_, hReach, rfl, handled_genuine (by decide) (by decide) hReach⟩

def mixedRun : List (Label 4) :=
  [.send ⟨[1, 2, 3, 4, 5, 6, 7, 8], by decide⟩, .send ⟨[9], by decide⟩, .advance, .receive 0, .advance, .advance,
    .receive 1, .receive 1, .readable, .advance, .receive 2, .readable, .advance, .receive 3, .advance]

theorem handled_mixed : ∃ s, (system 4 4).Reachable s ∧
    s.receiver.reader.handled = [[5, 6, 7, 8, 1, 0, 0, 0]] ∧ ¬ ∀ b ∈ s.receiver.reader.handled, b ∈ bodies s := by
  have hStart : (system 4 4).Reachable sampleStart := .init ⟨rfl, rfl, rfl, rfl⟩
  have hRun : (system 4 4).run sampleStart mixedRun =
      some (((system 4 4).run sampleStart mixedRun).getD sampleStart) := rfl
  exact ⟨_, hStart.run hRun, rfl, by decide⟩

end XcRos.Libros.Udp.Lossy
