import XcRos.Libros.ServiceServerLink
import XcRos.Serialization.Message

/-! # Service responses

What a server writes for a response, for a service that fails and for one that throws, and what the
callbacks of the client's link read from it.
-/

namespace XcRos.Serialization

open XcRos.Foundation

/-- `serializeServiceResponse`, which leaves `message_start` as it is. -/
def serializeServiceResponse (ok : Bool) (t : Ty) (message : t.Val) : Option SerializedMessage :=
  if ok then do
    let len ← t.serializationLength message
    let numBytes := len + 5
    let s ← OStream.put ⟨[], numBytes.toNat⟩ [if ok then 1 else 0]
    let s ← s.putUInt32 (numBytes - 5)
    let s ← t.write message s
    some ⟨s.data, s.room, 0⟩
  else do
    let len ← t.serializationLength message
    let numBytes := len + 1
    let s ← OStream.put ⟨[], numBytes.toNat⟩ [if ok then 1 else 0]
    let s ← t.write message s
    some ⟨s.data, s.room, 0⟩

/-- `std_msgs/String` -/
def stringMessage : Ty := .message (.cons .string .nil)

theorem toNat_length_add {n k : Nat} (h : n + k < 4294967296) : (UInt32.ofNat n + .ofNat k).toNat = n + k := by
  rw [← UInt32.ofNat_add, UInt32.toNat_ofNat', Nat.mod_eq_of_lt h]

theorem serializeServiceResponse_ok {t : Ty} {v : t.Val} (hFronted : t.Fronted v)
    (hShort : (t.encoding v).length + 5 < 4294967296) :
    serializeServiceResponse true t v = some ⟨1 :: le 4 (t.encoding v).length ++ t.encoding v, 0, 0⟩ := by
  have hLength := t.serializationLength_eq v hFronted (by omega)
  have hWrite := t.write_eq v (t.stored_of_fronted v hFronted) (by omega)
  have hNumBytes : (UInt32.ofNat (t.encoding v).length + 5).toNat = (t.encoding v).length + 5 :=
    toNat_length_add hShort
  have hWord : UInt32.ofNat (t.encoding v).length + 5 - 5 = .ofNat (t.encoding v).length :=
    UInt32.add_sub_cancel _ _
  rw [serializeServiceResponse, if_pos rfl, hLength]
  simp only [Option.bind_eq_bind, Option.bind_some, hWord, hNumBytes, if_true]
  rw [put_of_le (by simp), Option.bind_some, putUInt32_eq, put_of_le (by simp [length_le]), Option.bind_some, hWrite,
    put_of_le (by simp [length_le]), Option.bind_some]
  simp [length_le]

theorem serializeServiceResponse_failed {t : Ty} {v : t.Val} (hFronted : t.Fronted v)
    (hShort : (t.encoding v).length + 1 < 4294967296) :
    serializeServiceResponse false t v = some ⟨0 :: t.encoding v, 0, 0⟩ := by
  have hLength := t.serializationLength_eq v hFronted (by omega)
  have hWrite := t.write_eq v (t.stored_of_fronted v hFronted) (by omega)
  have hNumBytes : (UInt32.ofNat (t.encoding v).length + 1).toNat = (t.encoding v).length + 1 :=
    toNat_length_add hShort
  rw [serializeServiceResponse, if_neg Bool.false_ne_true, hLength]
  simp only [Option.bind_eq_bind, Option.bind_some, hNumBytes, if_false, Bool.false_eq_true]
  rw [put_of_le (by simp), Option.bind_some, hWrite, put_of_le (by simp), Option.bind_some]
  simp

theorem fronted_of_serializeServiceResponse {t : Ty} {v : t.Val} {m : SerializedMessage}
    (h : serializeServiceResponse true t v = some m) : t.Fronted v := by
  rw [serializeServiceResponse, if_pos rfl] at h
  obtain ⟨len, hLength, h⟩ := Option.bind_eq_some_iff.mp h
  obtain ⟨_, _, h⟩ := Option.bind_eq_some_iff.mp h
  obtain ⟨s, _, h⟩ := Option.bind_eq_some_iff.mp h
  obtain ⟨s', hWrite, _⟩ := Option.bind_eq_some_iff.mp h
  exact t.fronted_of_write v ⟨s, s', hWrite⟩ ⟨len, hLength⟩

end XcRos.Serialization

namespace XcRos.Libros.Service

open XcRos.Foundation XcRos.Serialization

variable {ρ : Type}

namespace ServiceServerLink

/-- The thread with the callbacks of the connection locks `call_queue_mutex_` and goes on. -/
def readerSection (s : ServiceServerLink ρ) : Option (ServiceServerLink ρ) := (s.lock .reader).bind (·.act .reader)

/-- `onResponseOkAndLength` and `onResponse`, up to the call of `callFinished`. -/
def readResponse (s : ServiceServerLink ρ) : Option (ServiceServerLink ρ) :=
  s.receive.bind fun s =>
    s.readerSection.bind fun s => (if s.reader matches .idle then s.receive else some s).bind readerSection

structure Awaits (s : ServiceServerLink ρ) (i : Nat) (incoming : List UInt8) : Prop where
  live : s.dropped = false
  reader : s.reader = .idle
  readCallback : s.readCallback = some (.onResponseOkAndLength, 5)
  currentCall : s.currentCall = some i
  callQueueMutex : s.callQueueMutex = none
  incoming : s.incoming = incoming

def respond (info : CallInfo ρ) (ok : UInt8) (payload : List UInt8) : CallInfo ρ :=
  if ok = 0 then { info with success := false, exceptionString := payload }
  else { info with success := true, resp := some payload }

theorem readerSection_eq {s : ServiceServerLink ρ} (hLocks : s.reader.locksQueue = true)
    (hFinished : s.locksFinished .reader = none) (hProcessing : s.processing .reader = none)
    (hMutex : s.callQueueMutex = none) :
    s.readerSection = (readerStep { s with callQueueMutex := some .reader }).map (unlock · .reader) := by
  have hLocked : s.lock .reader = some { s with callQueueMutex := some .reader } := if_pos ⟨hLocks, hMutex⟩
  have hReady : ServiceServerLink.ready { s with callQueueMutex := some .reader } .reader := by
    refine ⟨fun _ => rfl, ?_⟩
    intro i hi
    have hNone : ServiceServerLink.locksFinished { s with callQueueMutex := some .reader } .reader = none := hFinished
    rw [hNone] at hi
    cases hi
  have hSame : ServiceServerLink.processing { s with callQueueMutex := some .reader } .reader = none := hProcessing
  rw [readerSection, hLocked, Option.bind_some]
  simp only [act, if_pos hReady, hSame]

theorem readerSection_okAndLength {s : ServiceServerLink ρ} {i len : Nat} {ok : UInt8} (hLive : s.dropped = false)
    (hReader : s.reader = .okAndLength ok len) (hCurrent : s.currentCall = some i) (hMutex : s.callQueueMutex = none) :
    ∃ next, s.readerSection = some next ∧ next.dropped = false ∧ next.currentCall = some i ∧
      next.callQueueMutex = none ∧ next.incoming = s.incoming ∧
      next.info i = { s.info i with success := ok != 0 } ∧
      (0 < len ∧ next.reader = .idle ∧ next.readCallback = some (.onResponse, len) ∨
        len = 0 ∧ next.reader = .response []) := by
  have hSection := readerSection_eq (s := s) (by rw [hReader]; rfl) (by simp [locksFinished, hReader])
    (by rw [processing, hReader]) hMutex
  simp only [readerStep, hReader, hCurrent, Option.map_some] at hSection
  refine ⟨_, hSection, ?_⟩
  by_cases hSome : 0 < len
  · simp [hSome, hLive, setInfo, read, unlock, unlockFinished]
  · have hNone : len = 0 := by omega
    simp [hNone, hLive, setInfo, unlock, unlockFinished]

theorem readerSection_response {s : ServiceServerLink ρ} {i : Nat} {buffer : List UInt8} (hLive : s.dropped = false)
    (hReader : s.reader = .response buffer) (hCurrent : s.currentCall = some i) (hMutex : s.callQueueMutex = none) :
    ∃ next, s.readerSection = some next ∧ next.dropped = false ∧ next.currentCall = some i ∧
      next.incoming = s.incoming ∧ next.reader = .finish ∧
      next.info i = if (s.info i).success then { s.info i with resp := some buffer }
        else { s.info i with exceptionString := buffer } := by
  have hSection := readerSection_eq (s := s) (by rw [hReader]; rfl) (by simp [locksFinished, hReader])
    (by rw [processing, hReader]) hMutex
  simp only [readerStep, hReader, hCurrent, Option.map_some] at hSection
  refine ⟨_, hSection, ?_⟩
  simp [hLive, setInfo, unlock, unlockFinished]

theorem Awaits.readResponse {s : ServiceServerLink ρ} {i : Nat} {rest : List UInt8} (response : Response)
    (hShort : response.payload.length ≤ 1000000000) (h : s.Awaits i (response.bytes ++ rest)) :
    ∃ next, s.readResponse = some next ∧ next.dropped = false ∧ next.currentCall = some i ∧ next.reader = .finish ∧
      next.incoming = rest ∧ next.info i = respond (s.info i) response.ok response.payload := by
  have hFive : response.bytes ++ rest = (response.ok :: le 4 response.payload.length) ++ (response.payload ++ rest) := by
    simp [Response.bytes]
  have hLength : (response.ok :: le 4 response.payload.length).length = 5 := by simp [length_le]
  have hReceive : s.receive = some { s with
      readCallback := none
      incoming := response.payload ++ rest
      reader := .okAndLength response.ok response.payload.length } := by
    rw [receive, h.live, h.reader, h.readCallback, h.incoming, hFive]
    simp only
    rw [if_pos (by rw [List.length_append, hLength]; exact Nat.le_add_right 5 _), List.take_left' hLength,
      List.drop_left' hLength, onResponseOkAndLength, List.tail_cons, ofLe_le response.short,
      if_neg (Nat.not_lt.mpr hShort), List.headD_cons]
  rw [ServiceServerLink.readResponse, hReceive, Option.bind_some]
  obtain ⟨t, hSection, hLive, hCurrent, hMutex, hIncoming, hInfo, hNext⟩ :=
    @readerSection_okAndLength _ { s with
      readCallback := none
      incoming := response.payload ++ rest
      reader := .okAndLength response.ok response.payload.length } i _ _ h.live rfl h.currentCall h.callQueueMutex
  rw [hSection, Option.bind_some]
  obtain ⟨u, hResponse, hLiveU, hCurrentU, hMutexU, hIncomingU, hReaderU, hInfoU⟩ :
      ∃ u, (if t.reader matches .idle then t.receive else some t) = some u ∧ u.dropped = false ∧
        u.currentCall = some i ∧ u.callQueueMutex = none ∧ u.incoming = rest ∧
        u.reader = .response response.payload ∧ u.info = t.info := by
    rcases hNext with ⟨hSome, hIdle, hAsked⟩ | ⟨hNone, hEmpty⟩
    · rw [hIdle]
      have hGot : t.receive = some { t with
          readCallback := none
          incoming := rest
          reader := .response response.payload } := by
        rw [receive, hLive, hIdle, hAsked, hIncoming]
        simp only
        rw [if_pos (by rw [List.length_append]; exact Nat.le_add_right _ _), List.take_left, List.drop_left]
      exact ⟨_, hGot, hLive, hCurrent, hMutex, rfl, rfl, rfl⟩
    · rw [hEmpty]
      have hPayload := List.eq_nil_of_length_eq_zero hNone
      refine ⟨t, rfl, hLive, hCurrent, hMutex, ?_, ?_, rfl⟩
      · rw [hIncoming, hPayload]
        rfl
      · rw [hEmpty, hPayload]
  rw [hResponse, Option.bind_some]
  obtain ⟨next, hFinish, hLiveN, hCurrentN, hIncomingN, hReaderN, hInfoN⟩ :=
    readerSection_response hLiveU hReaderU hCurrentU hMutexU
  refine ⟨next, hFinish, hLiveN, hCurrentN, hReaderN, hIncomingN.trans hIncomingU, ?_⟩
  rw [hInfoN, hInfoU, hInfo, respond]
  by_cases hOk : response.ok = 0
  · simp [hOk]
  · simp [hOk]

end ServiceServerLink

/-- The whole buffer is on the wire; to a client it is the answer to its current call, and what comes behind it
is left for the next one. -/
def ReadAs (ρ : Type) (m : SerializedMessage) (success : Bool) (payload : List UInt8) : Prop :=
  m.unwritten = 0 ∧ ∀ (s : ServiceServerLink ρ) (i : Nat) (rest : List UInt8), s.Awaits i (m.buf ++ rest) →
    ∃ next, s.readResponse = some next ∧ next.dropped = false ∧ next.incoming = rest ∧
      (next.info i).success = success ∧
      if success then (next.info i).resp = some payload else (next.info i).exceptionString = payload

def ResponsesArrive (ρ : Type) (t : Ty) (message : t.Val) (e : List UInt8) : Prop :=
  (∃ m payload, serializeServiceResponse true t message = some m ∧ ReadAs ρ m true payload ∧
      t.read payload = some (message, [])) ∧
    (∃ m, serializeServiceResponse false (.simple (.prim .uint32)) 0 = some m ∧ ReadAs ρ m false []) ∧
    ∃ m, serializeServiceResponse false stringMessage (e, ()) = some m ∧ ReadAs ρ m false e

theorem readAs_response {ρ : Type} (response : Response) (hShort : response.payload.length ≤ 1000000000) :
    ReadAs ρ ⟨response.bytes, 0, 0⟩ (response.ok != 0) response.payload := by
  refine ⟨rfl, ?_⟩
  intro s i rest hAwaits
  obtain ⟨next, hNext, hLive, _, _, hIncoming, hInfo⟩ := hAwaits.readResponse response hShort
  refine ⟨next, hNext, hLive, hIncoming, ?_⟩
  rw [hInfo, ServiceServerLink.respond]
  by_cases hOk : response.ok = 0
  · simp [hOk]
  · simp [hOk]

/-- A response arrives exactly if the arrays of fixed-size elements in it have elements and the counts of its
vectors fit; failures always do. -/
theorem responses_arrive_iff (ρ : Type) (t : Ty) (message : t.Val) (e : List UInt8)
    (hMessage : (t.encoding message).length < 1000000000) (hText : e.length < 1000000000) :
    ResponsesArrive ρ t message e ↔ t.Fronted message ∧ t.Counted message := by
  constructor
  · rintro ⟨⟨m, payload, hSerialized, _, hRead⟩, _, _⟩
    exact ⟨fronted_of_serializeServiceResponse hSerialized, t.counted_of_read _ message [] hRead⟩
  · rintro ⟨hFronted, hCounted⟩
    refine ⟨?_, ?_, ?_⟩
    · have hRead := t.read_encoding message hFronted hCounted (by omega) []
      rw [List.append_nil] at hRead
      exact ⟨_, t.encoding message, serializeServiceResponse_ok hFronted (by omega),
        readAs_response ⟨1, t.encoding message, by omega⟩ hMessage.le, hRead⟩
    · have hFailed : serializeServiceResponse false (.simple (.prim .uint32)) 0 =
          some ⟨Response.bytes ⟨0, [], by decide⟩, 0, 0⟩ := rfl
      exact ⟨_, hFailed, readAs_response ⟨0, [], by decide⟩ (Nat.zero_le _)⟩
    · have hEncoding : stringMessage.encoding (e, ()) = le 4 e.length ++ e := List.append_nil _
      have hThrown := @serializeServiceResponse_failed stringMessage (e, ()) ⟨trivial, trivial⟩ (by
        rw [hEncoding, List.length_append, length_le]
        omega)
      rw [hEncoding] at hThrown
      exact ⟨_, hThrown, readAs_response ⟨0, e, by omega⟩ hText.le⟩

def listing : Ty := .message (.cons (.vector .string) .nil)

theorem responses_arrive_listing : ResponsesArrive (List UInt8) listing ([[97], [98, 99]], ()) [98, 97, 100] := by
  refine (responses_arrive_iff (List UInt8) listing ([[97], [98, 99]], ()) [98, 97, 100] ?_ ?_).mpr ⟨?_, ?_⟩
  · decide
  · decide
  · exact ⟨fun _ _ => trivial, trivial⟩
  · exact ⟨⟨by decide, fun _ _ => trivial⟩, trivial⟩

/-- There is no first element of an empty array. -/
theorem empty_array_fails :
    ¬ ResponsesArrive (List UInt8) (.message (.cons (.array (.simple (.prim .int32)) 0) .nil)) (.nil, ()) [] := by
  rintro ⟨⟨m, payload, hSerialized, _, _⟩, _, _⟩
  cases hSerialized

end XcRos.Libros.Service
