import XcRos.Libros.TransportUdp

/-! # The sizes of datagrams

`TransportUDP::write` computes with 32 bits and keeps 16 of a block number. The size comes from the subscriber through
`requestTopic`, which looks at its type only; the buffer that the subscriber receives into is that of a transport which
was made without a size.
-/

namespace XcRos.Libros.UdpSizes

open XcRos.Foundation XcRos.Rpc

/-- `sizeof(TransportUDPHeader)` -/
def headerSize : UInt32 := 8

/-- `max_payload_size` -/
def maxPayloadSize (maxDatagramSize : Int32) : UInt32 := keptDatagramSize maxDatagramSize - headerSize

def receiveSize (maxDatagramSize : Int32) : Nat := (keptDatagramSize maxDatagramSize).toNat

/-- The buffer that `negotiateConnection` makes. -/
def subscriberSize : Nat := receiveSize 0

/-- `(size + max_payload_size - 1) / max_payload_size`; nothing is a division by zero. -/
def blockCount (maxPayload size : UInt32) : Option UInt32 :=
  if maxPayload = 0 then none else some ((size + maxPayload - 1) / maxPayload)

/-- What `writev` makes of a datagram. -/
inductive Writev where
  | sent
  | wouldBlock
  | failed
deriving DecidableEq

def blockHeader (maxPayload size : UInt32) (messageId : Nat) (thisBlock : UInt32) : Option UdpHeader :=
  if thisBlock = 0 then
    (blockCount maxPayload size).map fun count => ⟨udpData0, messageId, count.toUInt16.toNat⟩
  else some ⟨udpDataN, messageId, thisBlock.toUInt16.toNat⟩

/-- The loop of `write` as far as `writev` has answered: the datagrams that are sent. -/
def sendLoop (maxPayload size : UInt32) (messageId : Nat) (buffer : Bytes) :
    List Writev → UInt32 → UInt32 → Option (List Datagram)
  | [], _, _ => some []
  | answer :: answers, thisBlock, bytesSent =>
    if bytesSent < size then
      let length := min maxPayload (size - bytesSent)
      (blockHeader maxPayload size messageId thisBlock).bind fun header =>
        match answer with
        | .sent =>
          (sendLoop maxPayload size messageId buffer answers (thisBlock + 1) (bytesSent + length)).map fun rest =>
            ⟨header, (buffer.drop bytesSent.toNat).take length.toNat⟩ :: rest
        | .wouldBlock => sendLoop maxPayload size messageId buffer answers thisBlock bytesSent
        | .failed => some []
    else some []

/-- `TransportUDP::write` -/
def send (maxDatagramSize : Int32) (messageId : Nat) (buffer : Bytes) (size : UInt32) (answers : List Writev) :
    Option (List Datagram) :=
  sendLoop (maxPayloadSize maxDatagramSize) size messageId buffer answers 0 0

def number (d : Datagram) : Nat := if d.header.op = udpData0 then 0 else d.header.block

/-- The arithmetic of `write` is exact, the count of the blocks fits into its field, and no datagram is too large. -/
structure Safe (maxDatagramSize : Int32) (size : UInt32) : Prop where
  payload : 0 < (maxPayloadSize maxDatagramSize).toNat ∧
    (maxPayloadSize maxDatagramSize).toNat + 8 = (keptDatagramSize maxDatagramSize).toNat
  rounding : (size + maxPayloadSize maxDatagramSize - 1).toNat =
    size.toNat + (maxPayloadSize maxDatagramSize).toNat - 1
  count : ∃ count, blockCount (maxPayloadSize maxDatagramSize) size = some count ∧ count.toNat < 2 ^ 16
  sent : ∀ messageId buffer answers, buffer.length = size.toNat →
    ∃ datagrams, send maxDatagramSize messageId buffer size answers = some datagrams ∧
      (datagrams.map number).Nodup ∧ ∀ d ∈ datagrams, 8 + d.data.length ≤ subscriberSize

/-- The size leaves room for a payload, and either fits the buffer of the subscriber and needs no more than 65535
blocks, or is not used up because one datagram takes the whole message. -/
def Fitting (maxDatagramSize size : Nat) : Prop :=
  8 < maxDatagramSize ∧
    (maxDatagramSize ≤ 1500 ∧ size ≤ 65535 * (maxDatagramSize - 8) ∨ size ≤ 1492 ∧ size + maxDatagramSize ≤ 2 ^ 32 + 8)

/-! ## Arithmetic -/

theorem toNat_keptDatagramSize_zero : subscriberSize = 1500 := rfl

theorem maxPayloadSize_toNat {maxDatagramSize : Int32} (h : 8 < (keptDatagramSize maxDatagramSize).toNat) :
    (maxPayloadSize maxDatagramSize).toNat = (keptDatagramSize maxDatagramSize).toNat - 8 := by
  have hLe : headerSize ≤ keptDatagramSize maxDatagramSize := UInt32.le_iff_toNat_le.mpr (by
    change 8 ≤ _
    omega)
  rw [maxPayloadSize, UInt32.toNat_sub_of_le _ _ hLe]
  rfl

theorem toNat_round {size maxPayload : UInt32} (hPayload : 0 < maxPayload.toNat)
    (hSum : size.toNat + maxPayload.toNat ≤ 2 ^ 32) :
    (size + maxPayload - 1).toNat = size.toNat + maxPayload.toNat - 1 := by
  rw [UInt32.toNat_sub, UInt32.toNat_add, UInt32.toNat_one]
  omega

theorem blockCount_of_pos {maxPayload : UInt32} (hPayload : 0 < maxPayload.toNat) (size : UInt32) :
    blockCount maxPayload size = some ((size + maxPayload - 1) / maxPayload) := by
  rw [blockCount, if_neg]
  rintro rfl
  exact absurd hPayload (by decide)

/-! ## The loop -/

theorem number_first (messageId block : Nat) (data : Bytes) : number ⟨⟨udpData0, messageId, block⟩, data⟩ = 0 := rfl

theorem number_next (messageId block : Nat) (data : Bytes) : number ⟨⟨udpDataN, messageId, block⟩, data⟩ = block := rfl

theorem blockHeader_number {maxPayload size thisBlock : UInt32} (hPayload : 0 < maxPayload.toNat)
    (hBlock : thisBlock.toNat < 2 ^ 16) (messageId : Nat) :
    ∃ header, blockHeader maxPayload size messageId thisBlock = some header ∧
      ∀ data, number ⟨header, data⟩ = thisBlock.toNat := by
  rw [blockHeader]
  split
  · rename_i hFirst
    rw [blockCount_of_pos hPayload, hFirst]
    exact ⟨_, rfl, fun data => number_first messageId _ data⟩
  · refine ⟨_, rfl, fun data => ?_⟩
    rw [number_next, UInt32.toNat_toUInt16]
    exact Nat.mod_eq_of_lt hBlock

theorem sendLoop_spec {maxPayload size : UInt32} (hPayload : 0 < maxPayload.toNat)
    (hBlocks : size.toNat ≤ 65535 * maxPayload.toNat) (messageId : Nat) (buffer : Bytes) (answers : List Writev)
    {thisBlock bytesSent : UInt32} (hSent : bytesSent.toNat = min (thisBlock.toNat * maxPayload.toNat) size.toNat) :
    ∃ datagrams, sendLoop maxPayload size messageId buffer answers thisBlock bytesSent = some datagrams ∧
      datagrams.Pairwise (fun d d' => number d < number d') ∧
      ∀ d ∈ datagrams, thisBlock.toNat ≤ number d ∧ d.data.length ≤ min maxPayload.toNat size.toNat := by
  induction answers generalizing thisBlock bytesSent with
  | nil => exact ⟨[], rfl, .nil, fun d hd => absurd hd List.not_mem_nil⟩
  | cons answer answers ih =>
    rw [sendLoop]
    split
    · rename_i hMore
      rw [UInt32.lt_iff_toNat_lt] at hMore
      have hInside : thisBlock.toNat * maxPayload.toNat < size.toNat := by omega
      have hBlock : thisBlock.toNat < 65535 := Nat.lt_of_mul_lt_mul_right (hInside.trans_le hBlocks)
      obtain ⟨header, hHeader, hNumber⟩ := @blockHeader_number _ size thisBlock hPayload (by omega) messageId
      dsimp only
      rw [hHeader, Option.bind_some]
      cases answer with
      | sent =>
        have hRest : (size - bytesSent).toNat = size.toNat - bytesSent.toNat :=
          UInt32.toNat_sub_of_le _ _ (UInt32.le_iff_toNat_le.mpr hMore.le)
        have hLength : (min maxPayload (size - bytesSent)).toNat =
            min maxPayload.toNat (size.toNat - bytesSent.toNat) := by
          rw [UInt32.toNat_min, hRest]
        have hNext : (thisBlock + 1).toNat = thisBlock.toNat + 1 := by
          rw [UInt32.toNat_add, UInt32.toNat_one]
          omega
        have hSize := size.toNat_lt
        have hAfter : (bytesSent + min maxPayload (size - bytesSent)).toNat =
            min ((thisBlock + 1).toNat * maxPayload.toNat) size.toNat := by
          rw [UInt32.toNat_add, hLength, hNext, Nat.add_mul, Nat.one_mul]
          omega
        obtain ⟨rest, hRun, hPairwise, hAll⟩ := ih hAfter
        rw [hNext] at hAll
        refine ⟨_, by rw [hRun, Option.map_some], List.pairwise_cons.mpr ⟨fun d hd => ?_, hPairwise⟩, ?_⟩
        · rw [hNumber]
          exact (hAll d hd).1
        · refine List.forall_mem_cons.mpr ⟨⟨(hNumber _).ge, ?_⟩, fun d hd => ⟨by have := (hAll d hd).1; omega, (hAll d hd).2⟩⟩
          rw [List.length_take, hLength]
          omega
      | wouldBlock => exact ih hSent
      | failed => exact ⟨[], rfl, .nil, fun d hd => absurd hd List.not_mem_nil⟩
    · exact ⟨[], rfl, .nil, fun d hd => absurd hd List.not_mem_nil⟩

theorem send_first {maxDatagramSize : Int32} {size : UInt32} (hPayload : 0 < (maxPayloadSize maxDatagramSize).toNat)
    (hSize : 0 < size.toNat) (messageId : Nat) (buffer : Bytes) :
    ∃ header, send maxDatagramSize messageId buffer size [.sent] =
      some [⟨header, buffer.take (min (maxPayloadSize maxDatagramSize).toNat size.toNat)⟩] := by
  have hMore : (0 : UInt32) < size := UInt32.lt_iff_toNat_lt.mpr hSize
  obtain ⟨header, hHeader, -⟩ :=
    @blockHeader_number _ size 0 hPayload (by decide) messageId
  refine ⟨header, ?_⟩
  rw [send, sendLoop, if_pos hMore]
  dsimp only
  rw [hHeader, Option.bind_some, sendLoop, Option.map_some, UInt32.toNat_min, UInt32.sub_zero, UInt32.toNat_zero,
    List.drop_zero]

/-! ## Sizes that are safe -/

variable {maxDatagramSize : Int32} {size : UInt32}

theorem Safe.fitting (h : Safe maxDatagramSize size) : Fitting (keptDatagramSize maxDatagramSize).toNat size.toNat := by
  obtain ⟨hPositive, hExact⟩ := h.payload
  have hRounding := h.rounding
  obtain ⟨count, hCount, hField⟩ := h.count
  rw [blockCount_of_pos hPositive] at hCount
  cases hCount
  rw [UInt32.toNat_div, hRounding, Nat.div_lt_iff_lt_mul hPositive] at hField
  have hWord := (size + maxPayloadSize maxDatagramSize - 1).toNat_lt
  have hFirst : min (maxPayloadSize maxDatagramSize).toNat size.toNat ≤ 1492 := by
    by_cases hSize : 0 < size.toNat
    · obtain ⟨header, hSend⟩ := send_first hPositive hSize 0 (List.replicate size.toNat 0)
      obtain ⟨datagrams, hRun, -, hAll⟩ := h.sent 0 (List.replicate size.toNat 0) [.sent] List.length_replicate
      rw [hSend] at hRun
      cases hRun
      have hLength := hAll _ List.mem_cons_self
      rw [List.length_take, List.length_replicate, toNat_keptDatagramSize_zero] at hLength
      omega
    · omega
  refine ⟨by omega, ?_⟩
  by_cases hBuffer : (keptDatagramSize maxDatagramSize).toNat ≤ 1500
  · left
    rw [← hExact] at hBuffer ⊢
    omega
  · right
    omega

theorem Fitting.safe (h : Fitting (keptDatagramSize maxDatagramSize).toNat size.toNat) : Safe maxDatagramSize size := by
  obtain ⟨hHeader, hSizes⟩ := h
  have hPayload := maxPayloadSize_toNat hHeader
  have hPositive : 0 < (maxPayloadSize maxDatagramSize).toNat := by omega
  have hRounding := @toNat_round size (maxPayloadSize maxDatagramSize) hPositive (by omega)
  have hBlocks : size.toNat ≤ 65535 * (maxPayloadSize maxDatagramSize).toNat := by omega
  refine ⟨⟨hPositive, by omega⟩, hRounding, ⟨_, blockCount_of_pos hPositive size, ?_⟩, ?_⟩
  · rw [UInt32.toNat_div, hRounding, Nat.div_lt_iff_lt_mul hPositive]
    omega
  · intro messageId buffer answers _
    obtain ⟨datagrams, hSend, hNumbers, hAll⟩ :=
      @sendLoop_spec _ size hPositive hBlocks messageId buffer answers 0 0 (by simp)
    refine ⟨datagrams, hSend, ?_, fun d hd => ?_⟩
    · rw [List.nodup_iff_pairwise_ne, List.pairwise_map]
      exact hNumbers.imp fun hLt => hLt.ne
    · have hLength := (hAll d hd).2
      rw [toNat_keptDatagramSize_zero]
      omega

/-- What a peer sends as the size of a datagram is safe for a message just if it fits. -/
theorem safe_iff (maxDatagramSize : Int32) (size : UInt32) :
    Safe maxDatagramSize size ↔ Fitting (keptDatagramSize maxDatagramSize).toNat size.toNat :=
  ⟨Safe.fitting, Fitting.safe⟩

/-- The size of a header is a divisor of zero, one of 9000 sends more than the subscriber takes, and one of 9 has too
many blocks for a message of 65536 bytes. -/
theorem not_safe : ¬ Safe 8 4 ∧ ¬ Safe 9000 2000 ∧ ¬ Safe 9 65536 := by
  refine ⟨fun h => ?_, fun h => ?_, fun h => ?_⟩
  · exact absurd h.fitting (by unfold Fitting; decide)
  · exact absurd h.fitting (by unfold Fitting; decide)
  · exact absurd h.fitting (by unfold Fitting; decide)

end XcRos.Libros.UdpSizes
