import Mathlib.Data.List.Range
import XcRos.Libros.Connection

/-! # The UDP transport

`TransportUDP::write` cuts a message into datagrams, `TransportUDP::read` puts their payloads
together again. A buffer of the source with its start pointer is here the bytes in front of the
pointer and those behind it that are still to be read. `maxPayload` is the size of a datagram
without its header.
-/

namespace XcRos.Libros

open XcRos.Foundation XcRos.Rpc

/-- The fields of `TransportUDPHeader` that the receiver looks at: two of 8 bits and one of 16. -/
structure UdpHeader where
  op : Nat
  messageId : Nat
  block : Nat
deriving DecidableEq, Repr

/-- `ROS_UDP_DATA0` -/
def udpData0 : Nat := 0

/-- `ROS_UDP_DATAN` -/
def udpDataN : Nat := 1

structure Datagram where
  header : UdpHeader
  data : Bytes
deriving DecidableEq, Repr

/-- `max_datagram_size_`, as the constructor leaves it. -/
def keptDatagramSize (maxDatagramSize : Int32) : UInt32 :=
  if maxDatagramSize.toUInt32 = 0 then 1500 else maxDatagramSize.toUInt32

/-! ## Sending -/

/-- `++current_message_id_`, where zero is left out. -/
def nextMessageId (id : Nat) : Nat := if (id + 1) % 256 = 0 then 1 else (id + 1) % 256

/-- The loop of `write`, while `rest` is not sent; `total` is the number of blocks announced. -/
def writeLoop (maxPayload messageId total : Nat) : Nat → Nat → Bytes → List Datagram
  | 0, _, _ => []
  | fuel + 1, thisBlock, rest =>
    if rest = [] then []
    else
      let header : UdpHeader :=
        if thisBlock = 0 then ⟨udpData0, messageId, total % 65536⟩
        else ⟨udpDataN, messageId, thisBlock % 65536⟩
      ⟨header, rest.take maxPayload⟩ ::
        writeLoop maxPayload messageId total fuel (thisBlock + 1) (rest.drop maxPayload)

/-- `write`: the datagrams of one message. -/
def udpWrite (maxPayload messageId : Nat) (buffer : Bytes) : List Datagram :=
  writeLoop maxPayload messageId ((buffer.length + maxPayload - 1) / maxPayload) buffer.length 0 buffer

/-! ## Receiving -/

structure TransportUdp where
  currentMessageId : Nat
  totalBlocks : Nat
  lastBlock : Nat
  dataFront : Bytes
  dataRest : Bytes
  reorderHeader : UdpHeader
  reorderFront : Bytes
  reorderRest : Bytes
deriving DecidableEq

/-- How an iteration of the loop of `read` ends: with the bytes copied so far, or for good. -/
inductive Outcome where
  | again (copied : Bytes)
  | returned (result : Option Bytes)

namespace TransportUdp

def start : TransportUdp where
  currentMessageId := 0
  totalBlocks := 0
  lastBlock := 0
  dataFront := []
  dataRest := []
  reorderHeader := ⟨0, 0, 0⟩
  reorderFront := []
  reorderRest := []

def endBlock (u : TransportUdp) (copied : Bytes) : TransportUdp × Outcome :=
  if u.lastBlock + 1 = u.totalBlocks then ({ u with currentMessageId := 0 }, .returned (some copied))
  else (u, .again copied)

/-- What the header of a new datagram says, once its payload has been copied. -/
def processHeader (u : TransportUdp) (header : UdpHeader) (copied : Bytes) : TransportUdp × Outcome :=
  if header.op = udpData0 then
    if u.currentMessageId ≠ 0 then
      ({ u with
          reorderHeader := header
          reorderFront := []
          reorderRest := u.dataFront ++ u.dataRest
          currentMessageId := 0
          totalBlocks := 0
          lastBlock := 0
          dataFront := []
          dataRest := [] }, .returned none)
    else
      endBlock { u with
        totalBlocks := header.block
        lastBlock := 0
        currentMessageId := header.messageId } copied
  else if header.op = udpDataN then
    -- The datagram is discarded, and what this call has copied before it is not reported.
    if header.messageId ≠ u.currentMessageId ∨ header.block ≠ u.lastBlock + 1 then
      ({ u with dataRest := [] }, .returned (some []))
    else endBlock { u with lastBlock := header.block } copied
  else (u, .returned none)

def needsSocket (u : TransportUdp) : Bool := u.reorderRest.isEmpty && u.dataRest.isEmpty

def readDatagram (maxPayload : Nat) (u : TransportUdp) (size : Nat) (copied : Bytes) (d : Datagram) :
    TransportUdp × Outcome :=
  let data := d.data.take maxPayload
  let want := size - copied.length
  processHeader { u with dataFront := data.take want, dataRest := data.drop want } d.header
    (copied ++ data.take want)

def readBuffered (u : TransportUdp) (size : Nat) (copied : Bytes) : TransportUdp × Outcome :=
  let want := size - copied.length
  if u.reorderRest ≠ [] then
    let u' : TransportUdp := { u with
      reorderFront := u.reorderFront ++ u.reorderRest.take want
      reorderRest := u.reorderRest.drop want }
    if u.reorderFront ≠ [] then (u', .again (copied ++ u.reorderRest.take want))
    else processHeader u' u.reorderHeader (copied ++ u.reorderRest.take want)
  else
    ({ u with dataFront := u.dataFront ++ u.dataRest.take want, dataRest := u.dataRest.drop want },
      .again (copied ++ u.dataRest.take want))

/-! Each way in which a datagram can be met, when the buffer has room for it. -/

section Datagrams

variable {maxPayload : Nat} {u : TransportUdp} {d : Datagram}

theorem readDatagram_first (hFits : d.data.length ≤ maxPayload) (hOp : d.header.op = udpData0)
    (hIdle : u.currentMessageId = 0) (size : Nat) (copied : Bytes) :
    u.readDatagram maxPayload size copied d =
      endBlock { u with
        totalBlocks := d.header.block
        lastBlock := 0
        currentMessageId := d.header.messageId
        dataFront := d.data.take (size - copied.length)
        dataRest := d.data.drop (size - copied.length) }
        (copied ++ d.data.take (size - copied.length)) := by
  simp only [readDatagram, List.take_of_length_le hFits, processHeader, hOp, if_true, hIdle, ne_eq,
    not_true_eq_false, if_false]

theorem readDatagram_next (hFits : d.data.length ≤ maxPayload) (hOp : d.header.op = udpDataN)
    (hId : d.header.messageId = u.currentMessageId) (hBlock : d.header.block = u.lastBlock + 1) (size : Nat)
    (copied : Bytes) :
    u.readDatagram maxPayload size copied d =
      endBlock { u with
        lastBlock := d.header.block
        dataFront := d.data.take (size - copied.length)
        dataRest := d.data.drop (size - copied.length) }
        (copied ++ d.data.take (size - copied.length)) := by
  have hNe : udpDataN ≠ udpData0 := by decide
  simp only [readDatagram, List.take_of_length_le hFits, processHeader, hOp, hNe, if_false, if_true, hId,
    hBlock, ne_eq, not_true_eq_false, or_self]

theorem readDatagram_restart (hFits : d.data.length ≤ maxPayload) (hOp : d.header.op = udpData0)
    (hBusy : u.currentMessageId ≠ 0) (size : Nat) (copied : Bytes) :
    u.readDatagram maxPayload size copied d =
      ({ u with
          reorderHeader := d.header
          reorderFront := []
          reorderRest := d.data
          currentMessageId := 0
          totalBlocks := 0
          lastBlock := 0
          dataFront := []
          dataRest := [] }, .returned none) := by
  simp only [readDatagram, List.take_of_length_le hFits, processHeader, hOp, if_true, hBusy, ne_eq,
    not_false_eq_true, List.take_append_drop]

theorem readDatagram_discard (hOp : d.header.op = udpDataN)
    (hOther : ¬ (d.header.messageId = u.currentMessageId ∧ d.header.block = u.lastBlock + 1)) (size : Nat)
    (copied : Bytes) :
    u.readDatagram maxPayload size copied d =
      ({ u with
          dataFront := (d.data.take maxPayload).take (size - copied.length)
          dataRest := [] }, .returned (some [])) := by
  have hNe : udpDataN ≠ udpData0 := by decide
  rw [not_and_or] at hOther
  simp only [readDatagram, processHeader, hOp, hNe, if_false, if_true, ne_eq, hOther]

theorem readBuffered_kept (hRest : u.reorderRest ≠ []) (hFront : u.reorderFront = [])
    (hOp : u.reorderHeader.op = udpData0) (hIdle : u.currentMessageId = 0) (size : Nat) (copied : Bytes) :
    u.readBuffered size copied =
      endBlock { u with
        totalBlocks := u.reorderHeader.block
        lastBlock := 0
        currentMessageId := u.reorderHeader.messageId
        reorderFront := u.reorderRest.take (size - copied.length)
        reorderRest := u.reorderRest.drop (size - copied.length) }
        (copied ++ u.reorderRest.take (size - copied.length)) := by
  simp only [readBuffered, hRest, ne_eq, not_false_eq_true, if_true, hFront, not_true_eq_false, if_false,
    processHeader, hOp, hIdle, List.nil_append]

theorem readBuffered_reorder (hRest : u.reorderRest ≠ []) (hFront : u.reorderFront ≠ []) (size : Nat)
    (copied : Bytes) :
    u.readBuffered size copied =
      ({ u with
          reorderFront := u.reorderFront ++ u.reorderRest.take (size - copied.length)
          reorderRest := u.reorderRest.drop (size - copied.length) },
        .again (copied ++ u.reorderRest.take (size - copied.length))) := by
  rw [readBuffered, if_pos hRest, if_pos hFront]

theorem readBuffered_data (hReorder : u.reorderRest = []) (size : Nat) (copied : Bytes) :
    u.readBuffered size copied =
      ({ u with
          dataFront := u.dataFront ++ u.dataRest.take (size - copied.length)
          dataRest := u.dataRest.drop (size - copied.length) },
        .again (copied ++ u.dataRest.take (size - copied.length))) := by
  rw [readBuffered, if_neg (not_not_intro hReorder)]

end Datagrams

end TransportUdp

/-- The receiving end: the transport, the connection on top of it, and the bytes that a call of
`TransportUDP::read` in progress has copied. -/
structure UdpReceiver where
  udp : TransportUdp
  reader : Reader
  call : Option Bytes

namespace UdpReceiver

def start : UdpReceiver := ⟨.start, .start, none⟩

def onReadable (r : UdpReceiver) : Option UdpReceiver :=
  if r.reader.readEnabled ∧ r.reader.dropped = false ∧ r.reader.reading = false then
    some { r with reader := { r.reader with reading := true } }
  else none

def size (r : UdpReceiver) : Nat := r.reader.readSize - r.reader.readBuffer.length

def resume (link : Link) (r : UdpReceiver) (next : TransportUdp × Outcome) : UdpReceiver :=
  match next.2 with
  | .again copied => { r with udp := next.1, call := some copied }
  | .returned result =>
    { udp := next.1, reader := r.reader.transportRead link result, call := none }

@[simp] theorem resume_udp (link : Link) (r : UdpReceiver) (next : TransportUdp × Outcome) :
    (r.resume link next).udp = next.1 := by
  rw [resume]
  split <;> rfl

def advance (link : Link) (r : UdpReceiver) : Option UdpReceiver :=
  if r.reader.reading then
    match r.call with
    | none =>
      match r.reader.toRead with
      | none => some { r with reader := r.reader.leave }
      | some 0 => some { r with reader := r.reader.transportRead link (some []), call := none }
      | some (_ + 1) => some { r with call := some [] }
    | some copied =>
      if copied.length < r.size then
        if r.udp.needsSocket then none else some (r.resume link (r.udp.readBuffered r.size copied))
      else some { r with reader := r.reader.transportRead link (some copied), call := none }
  else none

/-- A step that asks the socket for a datagram; without one the call returns what it has. -/
def receive (maxPayload : Nat) (link : Link) (r : UdpReceiver) (socket : Option Datagram) :
    Option UdpReceiver :=
  match r.call with
  | some copied =>
    if r.reader.reading ∧ copied.length < r.size ∧ r.udp.needsSocket then
      match socket with
      | none => some (r.resume link (r.udp, .returned (some copied)))
      | some d => some (r.resume link (r.udp.readDatagram maxPayload r.size copied d))
    else none
  | none => none

end UdpReceiver

/-! ## The blocks of a message -/

def blocks (maxPayload : Nat) (buffer : Bytes) : Nat := (buffer.length + maxPayload - 1) / maxPayload

/-- The datagram that carries block `k` of a message. -/
def blockDatagram (maxPayload messageId : Nat) (buffer : Bytes) (k : Nat) : Datagram where
  header := if k = 0 then ⟨udpData0, messageId, blocks maxPayload buffer⟩ else ⟨udpDataN, messageId, k⟩
  data := (buffer.drop (k * maxPayload)).take maxPayload

section Blocks

variable {maxPayload messageId : Nat} {buffer : Bytes}

theorem lt_blocks_iff (hPayload : 1 ≤ maxPayload) {k : Nat} :
    k < blocks maxPayload buffer ↔ k * maxPayload < buffer.length := by
  rw [blocks, ← Nat.succ_le_iff, Nat.le_div_iff_mul_le hPayload, Nat.succ_mul]
  omega

theorem writeLoop_eq (hPayload : 1 ≤ maxPayload) (hBlocks : blocks maxPayload buffer < 65536)
    (messageId fuel k : Nat) (hFuel : buffer.length ≤ k + fuel) :
    writeLoop maxPayload messageId (blocks maxPayload buffer) fuel k (buffer.drop (k * maxPayload)) =
      (List.range' k (blocks maxPayload buffer - k)).map (blockDatagram maxPayload messageId buffer) := by
  induction fuel generalizing k with
  | zero =>
    have hEnd : ¬ k < blocks maxPayload buffer := by
      rw [lt_blocks_iff hPayload]
      have := Nat.le_mul_of_pos_right k hPayload
      omega
    rw [writeLoop, Nat.sub_eq_zero_of_le (Nat.not_lt.mp hEnd)]
    rfl
  | succ fuel ih =>
    rw [writeLoop]
    by_cases hMore : k < blocks maxPayload buffer
    · have hInside := (lt_blocks_iff hPayload).mp hMore
      have hRest : buffer.drop (k * maxPayload) ≠ [] := by
        intro hNil
        rw [List.drop_eq_nil_iff] at hNil
        omega
      have hTail : (buffer.drop (k * maxPayload)).drop maxPayload = buffer.drop ((k + 1) * maxPayload) := by
        rw [List.drop_drop, Nat.succ_mul]
      have hCount : blocks maxPayload buffer - k = blocks maxPayload buffer - (k + 1) + 1 := by omega
      rw [if_neg hRest, hTail, ih (k + 1) (by omega), hCount, List.range'_succ, List.map_cons]
      simp only [blockDatagram, Nat.mod_eq_of_lt hBlocks, Nat.mod_eq_of_lt (hMore.trans hBlocks)]
    · have hNil : buffer.drop (k * maxPayload) = [] := by
        rw [List.drop_eq_nil_iff]
        rw [lt_blocks_iff hPayload] at hMore
        omega
      rw [if_pos hNil, Nat.sub_eq_zero_of_le (Nat.not_lt.mp hMore)]
      rfl

theorem udpWrite_eq (hPayload : 1 ≤ maxPayload) (hBlocks : blocks maxPayload buffer < 65536) :
    udpWrite maxPayload messageId buffer =
      (List.range' 0 (blocks maxPayload buffer)).map (blockDatagram maxPayload messageId buffer) := by
  have h := writeLoop_eq hPayload hBlocks messageId buffer.length 0 (by omega)
  rwa [Nat.zero_mul, List.drop_zero] at h

theorem nextMessageId_ne_zero (id : Nat) : nextMessageId id ≠ 0 := by
  rw [nextMessageId]
  split
  · exact Nat.one_ne_zero
  · assumption

theorem flatMap_data_blocks (hPayload : 1 ≤ maxPayload) (k : Nat) :
    ((List.range' k (blocks maxPayload buffer - k)).map (blockDatagram maxPayload messageId buffer)).flatMap
      Datagram.data = buffer.drop (k * maxPayload) := by
  induction h : blocks maxPayload buffer - k generalizing k with
  | zero =>
    have hEnd : ¬ k < blocks maxPayload buffer := by omega
    rw [lt_blocks_iff hPayload] at hEnd
    symm
    rw [List.range'_zero, List.map_nil, List.flatMap_nil, List.drop_eq_nil_iff]
    omega
  | succ count ih =>
    have hTail : (buffer.drop (k * maxPayload)).drop maxPayload = buffer.drop ((k + 1) * maxPayload) := by
      rw [List.drop_drop, Nat.succ_mul]
    rw [List.range'_succ, List.map_cons, List.flatMap_cons, ih (k + 1) (by omega), ← hTail, blockDatagram,
      List.take_append_drop]

end Blocks

end XcRos.Libros
