import XcRos.Foundation.Outcome
import XcRos.Libros.BoundMethods

/-! # Topic negotiation

`Subscription::negotiateConnection`, and `pendingConnectionDone` with the answer. Each hint `UDP` makes a transport of
its own, and one variable keeps the last of them. Assertions are taken as compiled out.
-/

namespace XcRos.Libros.Negotiation

open XcRos.Foundation XcRos.Rpc
open XcRos.CppCommon (MString)
open BoundMethods (Escape getValue headerValue)
open PublisherSet (linkURI splitURI)

/-- What `createIncoming` comes to: there is no socket, `bind` fails, the socket cannot be made non-blocking, or it is
put into the poll set. -/
inductive Incoming where
  | noSocket
  | notBound
  | stillBlocking (port : UInt16)
  | listening (port : UInt16)
deriving DecidableEq

structure TransportUDP where
  number : Nat
  serverPort : Int32
  closed : Bool
deriving DecidableEq

def TransportUDP.close (t : TransportUDP) : TransportUDP := { t with closed := true }

/-- What the node is called, and what happens to its sockets: to the transports in the order in which they are made, to
the request, and to a TCP connection. -/
structure Surroundings where
  name : Bytes
  host : Bytes
  incoming : Nat → Incoming
  /-- The poll set reports an error or that the peer hung up. -/
  hangsUp : Nat → Bool
  executeNonBlock : Bool
  connect : Bytes → Int32 → Bool

/-- The transport with a number, as `createIncoming` and the polling thread leave it. -/
def Surroundings.transport (env : Surroundings) (n : Nat) : TransportUDP :=
  match env.incoming n with
  | .noSocket | .notBound => ⟨n, -1, false⟩
  | .stillBlocking port => ⟨n, port.toUInt32.toInt32, true⟩
  | .listening port => ⟨n, port.toUInt32.toInt32, env.hangsUp n⟩

structure Subscription where
  name : Bytes
  md5sum : Bytes
  datatype : Bytes
  transports : List Bytes
  maxDatagramSize : Int32

inductive Link where
  | tcp (uri pubHost : Bytes) (pubPort : Int32)
  | udp (uri : Bytes) (transport : TransportUDP)
deriving DecidableEq

/-- The transports that are made: those that `udp_transport` held before, and the one that it holds. -/
structure Made where
  overwritten : List TransportUDP
  udpTransport : Option TransportUDP
deriving DecidableEq

namespace Made

def none : Made := ⟨[], .none⟩

def assign (made : Made) (t : TransportUDP) : Made := ⟨made.overwritten ++ made.udpTransport.toList, some t⟩

/-- `closeTransport(udp_transport)` -/
def close (made : Made) : Made := { made with udpTransport := made.udpTransport.map TransportUDP.close }

end Made

inductive Stop where
  | escape (escape : Escape)
  | exception (fault : Fault)
  | nullTransport

/-! ## `negotiateConnection` -/

section

variable (env : Surroundings) (s : Subscription)

/-- The hints, of which `reliable` makes one if there are none. -/
def Subscription.hints : List Bytes := if s.transports = [] then [bytes "TCP"] else s.transports

def Subscription.header : MString :=
  (((MString.empty.assign (bytes "topic") s.name).assign (bytes "md5sum") s.md5sum).assign (bytes "callerid")
    env.name).assign (bytes "type") s.datatype

def tcprosArray : Value := .array [.string (bytes "TCPROS")]

def udprosArray (t : TransportUDP) : Except Escape Value :=
  (headerValue (s.header env)).map fun v =>
    .array [.string (bytes "UDPROS"), v, .string env.host, .int t.serverPort,
      .int (if s.maxDatagramSize = 0 then (keptDatagramSize 0).toInt32 else s.maxDatagramSize)]

/-- The loop over the hints, at the transport with number `n`. -/
def offer : List Bytes → Nat → Made → Except Escape (List Value × Made)
  | [], _, made => .ok ([], made)
  | hint :: hints, n, made =>
    if hint = bytes "UDP" then
      (udprosArray env s (env.transport n)).bind fun proto =>
        (offer hints (n + 1) (made.assign (env.transport n))).map fun (protos, made) => (proto :: protos, made)
    else if hint = bytes "TCP" then
      (offer hints n made).map fun (protos, made) => (tcprosArray :: protos, made)
    else offer hints n made

/-- The parameters of `requestTopic`. -/
def requestParams (protos : List Value) : Value :=
  .array [.string env.name, .string s.name, if protos = [] then .invalid else .array protos]

/-- The value returned, the request that is pending, and the transports. -/
def negotiateConnection (xmlrpcUri : Bytes) : Except Escape (Bool × Option Value × Made) :=
  (offer env s s.hints 0 .none).map fun (protos, made) =>
    if !(splitURI xmlrpcUri).1 then (false, none, made)
    else if !env.executeNonBlock then (false, none, made.close)
    else (true, some (requestParams env s protos), made)

end

/-! ## `pendingConnectionDone` -/

/-- `PublisherLink::setHeader` -/
def setHeader (header : MString) : Bool :=
  (getValue header (bytes "md5sum")).isSome && (getValue header (bytes "type")).isSome

def udprosDone (remoteUri headerBytes : Bytes) (made : Made) : Except Stop (Option Link × Made) :=
  match CppCommon.Header.parse headerBytes (.ofNat headerBytes.length) with
  | .outOfBounds => .error (.escape .outOfBounds)
  | .failure _ _ => .ok (none, made.close)
  | .success h _ =>
    if (getValue h (bytes "error")).isSome then .ok (none, made.close)
    else if !setHeader h then .ok (none, made.close)
    else
      match made.udpTransport with
      | none => .error .nullTransport
      | some t => .ok (some (.udp (linkURI remoteUri) t), made)

def protoDone (env : Surroundings) (remoteUri : Bytes) (made : Made) : Value → Except Stop (Option Link × Made)
  | .array (.string protoName :: params) =>
    if protoName = bytes "TCPROS" then
      match params with
      | [.string pubHost, .int pubPort] =>
        if env.connect pubHost pubPort then .ok (some (.tcp (linkURI remoteUri) pubHost pubPort), made)
        else .ok (none, made)
      | _ => .ok (none, made)
    else if protoName = bytes "UDPROS" then
      match params with
      | [.string _, .int _, .int _, .int _, .base64 headerBytes] => udprosDone remoteUri headerBytes made
      | _ => .ok (none, made.close)
    else .ok (none, made)
  | _ => .ok (none, made.close)

/-- The publisher link that is added, and the transports; `stopped` is `shutting_down_ || dropped_`. -/
def pendingConnectionDone (env : Surroundings) (stopped : Bool) (remoteUri : Bytes) (result : Value) (made : Made) :
    Except Stop (Option Link × Made) :=
  if stopped then .ok (none, made)
  else
    match PublisherSet.validateXmlrpcResponse result with
    | none => .ok (none, made.close)
    | some proto =>
      match proto.size with
      | none => .error (.exception typeError)
      | some 0 => .ok (none, made.close)
      | some (_ + 1) => protoDone env remoteUri made proto

def negotiation (env : Surroundings) (s : Subscription) (uri : Bytes) (stopped : Bool) (result : Value) :
    Except Stop (Option Link × Made) :=
  match negotiateConnection env s uri with
  | .error escape => .error (.escape escape)
  | .ok (false, _, made) => .ok (none, made)
  | .ok (true, _, made) => pendingConnectionDone env stopped uri result made

/-! ## The sockets -/

def Released (link : Option Link) (made : Made) : Prop :=
  ∀ t ∈ made.overwritten ++ made.udpTransport.toList, t.closed = true ∨ ∃ uri, link = some (.udp uri t)

def ChoosesOther (result : Value) : Prop :=
  match PublisherSet.validateXmlrpcResponse result with
  | some (.array (.string protoName :: _)) => protoName ≠ bytes "UDPROS"
  | _ => False

def Subscription.udpHints (s : Subscription) : Nat := s.hints.count (bytes "UDP")

/-- All transports but the last are closed of themselves, and so is the last, unless the URI is good and either the
publisher cannot be contacted, or the subscription is still there and the answer does not choose another protocol. -/
structure Releases (env : Surroundings) (s : Subscription) (uri : Bytes) (stopped : Bool) (result : Value) : Prop where
  earlier : ∀ n, n + 1 < s.udpHints → (env.transport n).closed = true
  last : ∀ n, n + 1 = s.udpHints → (env.transport n).closed = true ∨
    (splitURI uri).1 = true ∧ (env.executeNonBlock = true → stopped = false ∧ ¬ ChoosesOther result)

/-- The first `n` transports. -/
def Surroundings.made (env : Surroundings) : Nat → Made
  | 0 => .none
  | n + 1 => ⟨(List.range n).map env.transport, some (env.transport n)⟩

variable {env : Surroundings} {s : Subscription}

theorem transport_number (n : Nat) : (env.transport n).number = n := by
  rw [Surroundings.transport]
  split <;> rfl

theorem assign_made (n : Nat) : (env.made n).assign (env.transport n) = env.made (n + 1) := by
  cases n with
  | zero => rfl
  | succ n => rw [Made.assign, Surroundings.made, Surroundings.made, List.range_succ, List.map_append]; rfl

theorem offer_made {hints : List Bytes} {n : Nat} {protos : List Value} {made : Made}
    (h : offer env s hints n (env.made n) = .ok (protos, made)) : made = env.made (n + hints.count (bytes "UDP")) := by
  induction hints generalizing n protos with
  | nil =>
    cases h
    rfl
  | cons hint hints ih =>
    rw [offer] at h
    split at h
    · rename_i hUdp
      rw [hUdp, List.count_cons_self]
      cases hArray : udprosArray env s (env.transport n) with
      | error escape =>
        rw [hArray] at h
        cases h
      | ok proto =>
        rw [hArray, assign_made] at h
        obtain ⟨⟨protos, made⟩, hRest, hSame⟩ := exists_of_map h
        cases hSame
        rw [ih hRest, Nat.add_right_comm, Nat.add_assoc]
    · rename_i hUdp
      rw [List.count_cons_of_ne hUdp]
      split at h
      · obtain ⟨⟨protos, made⟩, hRest, hSame⟩ := exists_of_map h
        cases hSame
        exact ih hRest
      · exact ih h

theorem mem_overwritten_made {k : Nat} {t : TransportUDP} :
    t ∈ (env.made k).overwritten ↔ ∃ n, n + 1 < k ∧ env.transport n = t := by
  cases k with
  | zero => exact ⟨(fun h => by cases h), (fun ⟨n, h, _⟩ => by omega)⟩
  | succ k =>
    rw [Surroundings.made, List.mem_map]
    simp only [List.mem_range, Nat.add_lt_add_iff_right]

theorem udpTransport_made {k : Nat} {t : TransportUDP} :
    (env.made k).udpTransport = some t ↔ ∃ n, n + 1 = k ∧ env.transport n = t := by
  cases k with
  | zero => exact ⟨(fun h => by cases h), (fun ⟨n, h, _⟩ => by omega)⟩
  | succ k =>
    rw [Surroundings.made, Option.some.injEq]
    constructor
    · exact fun h => ⟨k, rfl, h⟩
    · rintro ⟨n, hn, h⟩
      rwa [← Nat.succ.inj hn]

theorem released_made_iff {k : Nat} {link : Option Link}
    (hLink : ∀ uri t, link = some (.udp uri t) → (env.made k).udpTransport = some t) :
    Released link (env.made k) ↔ (∀ n, n + 1 < k → (env.transport n).closed = true) ∧
      ∀ n, n + 1 = k → (env.transport n).closed = true ∨ ∃ uri, link = some (.udp uri (env.transport n)) := by
  constructor
  · intro h
    constructor
    · intro n hn
      refine (h _ (List.mem_append_left _ (mem_overwritten_made.mpr ⟨n, hn, rfl⟩))).resolve_right ?_
      rintro ⟨uri, hUdp⟩
      obtain ⟨last, hLast, hSame⟩ := udpTransport_made.mp (hLink uri _ hUdp)
      have hNumber := congrArg TransportUDP.number hSame
      rw [transport_number, transport_number] at hNumber
      omega
    · intro n hn
      refine h _ (List.mem_append_right _ (Option.mem_toList.mpr ?_))
      exact udpTransport_made.mpr ⟨n, hn, rfl⟩
  · rintro ⟨hEarlier, hLast⟩ t ht
    rcases List.mem_append.mp ht with hMem | hMem
    · obtain ⟨n, hn, rfl⟩ := mem_overwritten_made.mp hMem
      exact .inl (hEarlier n hn)
    · obtain ⟨n, hn, rfl⟩ := udpTransport_made.mp (Option.mem_toList.mp hMem)
      exact hLast n hn

theorem released_close_iff {k : Nat} :
    Released none (env.made k).close ↔ ∀ n, n + 1 < k → (env.transport n).closed = true := by
  constructor
  · intro h n hn
    refine (h _ (List.mem_append_left _ (mem_overwritten_made.mpr ⟨n, hn, rfl⟩))).resolve_right ?_
    rintro ⟨_, hNone⟩
    cases hNone
  · intro h t ht
    left
    rcases List.mem_append.mp ht with hMem | hMem
    · obtain ⟨n, hn, rfl⟩ := mem_overwritten_made.mp hMem
      exact h n hn
    · obtain ⟨t', _, rfl⟩ := Option.map_eq_some_iff.mp (Option.mem_toList.mp hMem)
      rfl

/-! ## What the answer leads to -/

/-- The transport is closed, goes to a link, or stays as it is. -/
inductive Settled (made : Made) : Option Link → Made → Prop
  | closed : Settled made none made.close
  | linked {uri : Bytes} {t : TransportUDP} (hKept : made.udpTransport = some t) :
      Settled made (some (.udp uri t)) made

theorem settled_udprosDone {uri headerBytes : Bytes} {made made' : Made} {link : Option Link}
    (h : udprosDone uri headerBytes made = .ok (link, made')) : Settled made link made' := by
  rw [udprosDone] at h
  split at h
  · cases h
  · cases h
    exact .closed
  · split at h
    · cases h
      exact .closed
    · split at h
      · cases h
        exact .closed
      · split at h
        · cases h
        · rename_i hKept
          cases h
          exact .linked hKept

theorem of_protoDone {uri : Bytes} {proto : Value} {made made' : Made} {link : Option Link}
    (h : protoDone env uri made proto = .ok (link, made')) :
    (Settled made link made' ∧ ∀ protoName params, proto = .array (.string protoName :: params) →
      protoName = bytes "UDPROS") ∨
    made' = made ∧ (∀ uri t, link ≠ some (.udp uri t)) ∧ ∃ protoName params,
      proto = .array (.string protoName :: params) ∧ protoName ≠ bytes "UDPROS" := by
  rw [protoDone.eq_def] at h
  split at h
  · rename_i protoName params
    split at h
    · rename_i hTcp
      have hOther : protoName ≠ bytes "UDPROS" := by
        rw [hTcp]
        decide
      split at h
      · split at h
        · cases h
          exact .inr ⟨rfl, (fun _ _ h => by cases h), _, _, rfl, hOther⟩
        · cases h
          exact .inr ⟨rfl, (fun _ _ h => by cases h), _, _, rfl, hOther⟩
      · cases h
        exact .inr ⟨rfl, (fun _ _ h => by cases h), _, _, rfl, hOther⟩
    · split at h
      · rename_i hUdp
        refine .inl ⟨?_, fun _ _ hSame => by cases hSame; exact hUdp⟩
        split at h
        · exact settled_udprosDone h
        · cases h
          exact .closed
      · rename_i hOther
        cases h
        exact .inr ⟨rfl, (fun _ _ h => by cases h), _, _, rfl, hOther⟩
  · rename_i hShape
    cases h
    exact .inl ⟨.closed, fun protoName params hSame => absurd hSame (hShape protoName params)⟩

theorem choosesOther_iff {result proto : Value} (h : PublisherSet.validateXmlrpcResponse result = some proto) :
    ChoosesOther result ↔ ∃ protoName params, proto = .array (.string protoName :: params) ∧
      protoName ≠ bytes "UDPROS" := by
  rw [ChoosesOther, h]
  constructor
  · intro hOther
    split at hOther
    · rename_i hSame
      exact ⟨_, _, Option.some.inj hSame, hOther⟩
    · exact hOther.elim
  · rintro ⟨protoName, params, rfl, hOther⟩
    exact hOther

theorem of_pendingConnectionDone {stopped : Bool} {uri : Bytes} {result : Value} {made made' : Made}
    {link : Option Link} (h : pendingConnectionDone env stopped uri result made = .ok (link, made')) :
    (Settled made link made' ∧ stopped = false ∧ ¬ ChoosesOther result) ∨
    made' = made ∧ (∀ uri t, link ≠ some (.udp uri t)) ∧ (stopped = true ∨ ChoosesOther result) := by
  rw [pendingConnectionDone] at h
  split at h
  · rename_i hStopped
    cases h
    exact .inr ⟨rfl, (fun _ _ h => by cases h), .inl hStopped⟩
  · rename_i hStopped
    have hStopped := Bool.eq_false_iff.mpr hStopped
    split at h
    · rename_i hInvalid
      cases h
      refine .inl ⟨.closed, hStopped, ?_⟩
      rw [ChoosesOther, hInvalid]
      exact id
    · rename_i proto hValid
      split at h
      · cases h
      · rename_i hEmpty
        cases h
        refine .inl ⟨.closed, hStopped, ?_⟩
        rw [choosesOther_iff hValid]
        rintro ⟨protoName, params, rfl, _⟩
        cases hEmpty
      · rcases of_protoDone h with ⟨hSettled, hUdp⟩ | ⟨rfl, hLink, hOther⟩
        · refine .inl ⟨hSettled, hStopped, ?_⟩
          rw [choosesOther_iff hValid]
          rintro ⟨protoName, params, hProto, hOther⟩
          exact hOther (hUdp protoName params hProto)
        · exact .inr ⟨rfl, hLink, .inr ((choosesOther_iff hValid).mpr hOther)⟩

/-! ## The whole negotiation -/

theorem made_of_negotiateConnection {uri : Bytes} {pending : Bool} {params : Option Value} {made : Made}
    (h : negotiateConnection env s uri = .ok (pending, params, made)) :
    (pending = false ∧ (splitURI uri).1 = false ∧ made = env.made s.udpHints) ∨
    (pending = false ∧ (splitURI uri).1 = true ∧ env.executeNonBlock = false ∧ made = (env.made s.udpHints).close) ∨
    pending = true ∧ (splitURI uri).1 = true ∧ env.executeNonBlock = true ∧ made = env.made s.udpHints := by
  obtain ⟨⟨protos, all⟩, hOffer, hRest⟩ := exists_of_map h
  have hMade := offer_made hOffer
  rw [Nat.zero_add, ← Subscription.udpHints] at hMade
  subst hMade
  dsimp only at hRest
  split at hRest
  · rename_i hUri
    cases hRest
    exact .inl ⟨rfl, by simpa using hUri, rfl⟩
  · rename_i hUri
    have hUri : (splitURI uri).1 = true := by simpa using hUri
    split at hRest
    · rename_i hFailed
      cases hRest
      exact .inr (.inl ⟨rfl, hUri, by simpa using hFailed, rfl⟩)
    · rename_i hSent
      cases hRest
      exact .inr (.inr ⟨rfl, hUri, by simpa using hSent, rfl⟩)

/-- A negotiation that is over has released its transports just if it leaves none to close of itself but the last, and
comes to a close or to UDP. -/
theorem released_iff {uri : Bytes} {stopped : Bool} {result : Value} {link : Option Link} {made : Made}
    (h : negotiation env s uri stopped result = .ok (link, made)) :
    Released link made ↔ Releases env s uri stopped result := by
  have hNone : ∀ {link : Option Link}, (∀ uri t, link ≠ some (.udp uri t)) →
      (Released link (env.made s.udpHints) ↔ ∀ n, n < s.udpHints → (env.transport n).closed = true) := by
    intro link hLink
    rw [released_made_iff fun uri t hUdp => absurd hUdp (hLink uri t)]
    constructor
    · rintro ⟨hEarlier, hLast⟩ n hn
      rcases Nat.lt_or_eq_of_le hn with hLess | hEq
      · exact hEarlier n hLess
      · exact (hLast n hEq).resolve_right fun ⟨uri, hUdp⟩ => hLink uri _ hUdp
    · exact fun hAll => ⟨fun n hn => hAll n (by omega), fun n hn => .inl (hAll n (by omega))⟩
  have hLeft : ∀ {link : Option Link}, (∀ uri t, link ≠ some (.udp uri t)) →
      ¬ ((splitURI uri).1 = true ∧ (env.executeNonBlock = true → stopped = false ∧ ¬ ChoosesOther result)) →
      (Released link (env.made s.udpHints) ↔ Releases env s uri stopped result) := by
    intro link hLink hNot
    rw [hNone hLink]
    constructor
    · exact fun hAll => ⟨fun n hn => hAll n (by omega), fun n hn => .inl (hAll n (by omega))⟩
    · rintro ⟨hEarlier, hLast⟩ n hn
      rcases Nat.lt_or_eq_of_le hn with hLess | hEq
      · exact hEarlier n hLess
      · exact (hLast n hEq).resolve_right hNot
  have hClosed : ((splitURI uri).1 = true ∧ (env.executeNonBlock = true → stopped = false ∧ ¬ ChoosesOther result)) →
      (Released none (env.made s.udpHints).close ↔ Releases env s uri stopped result) := by
    intro hGood
    rw [released_close_iff]
    exact ⟨fun hEarlier => ⟨hEarlier, fun _ _ => .inr hGood⟩, fun h => h.earlier⟩
  rw [negotiation.eq_def] at h
  split at h
  · cases h
  · rename_i hRun
    cases h
    rcases made_of_negotiateConnection hRun with ⟨_, hUri, rfl⟩ | ⟨_, hUri, hFailed, rfl⟩ | ⟨hPending, _⟩
    · refine hLeft (fun _ _ h => by cases h) fun hGood => ?_
      rw [hUri] at hGood
      cases hGood.1
    · refine hClosed ⟨hUri, fun hSent => ?_⟩
      rw [hFailed] at hSent
      cases hSent
    · cases hPending
  · rename_i hRun
    rcases made_of_negotiateConnection hRun with ⟨hPending, _⟩ | ⟨hPending, _⟩ | ⟨_, hUri, hSent, rfl⟩
    · cases hPending
    · cases hPending
    · rcases of_pendingConnectionDone h with ⟨hSettled, hStopped, hOther⟩ | ⟨rfl, hLink, hOther⟩
      · cases hSettled with
        | closed => exact hClosed ⟨hUri, fun _ => ⟨hStopped, hOther⟩⟩
        | linked hKept =>
          rw [released_made_iff fun _ _ hUdp => by cases hUdp; exact hKept]
          constructor
          · exact fun ⟨hEarlier, _⟩ => ⟨hEarlier, fun _ _ => .inr ⟨hUri, fun _ => ⟨hStopped, hOther⟩⟩⟩
          · refine fun h => ⟨h.earlier, fun n hn => .inr ?_⟩
            have hSame := hKept.symm.trans (udpTransport_made.mpr ⟨n, hn, rfl⟩)
            exact ⟨_, by rw [Option.some.inj hSame]⟩
      · refine hLeft hLink fun hGood => ?_
        obtain ⟨hStopped, hNot⟩ := hGood.2 hSent
        rcases hOther with hOther | hOther
        · rw [hStopped] at hOther
          cases hOther
        · exact hNot hOther

def sampleNode : Surroundings where
  name := bytes "/n"
  host := bytes "h"
  incoming n := .listening (.ofNat (5000 + n))
  hangsUp _ := false
  executeNonBlock := true
  connect _ _ := true

/-- `TransportHints().unreliable().reliable()` -/
def sampleSubscription : Subscription where
  name := bytes "/t"
  md5sum := bytes "m"
  datatype := bytes "p/T"
  transports := [bytes "UDP", bytes "TCP"]
  maxDatagramSize := 0

/-- The publisher cannot agree on a protocol. -/
theorem released_iff_no_protocol :
    Released none ⟨[], some ⟨0, 5000, true⟩⟩ ↔ Releases sampleNode sampleSubscription (bytes "http://p:1/") false
      (.array [.int 1, .string [], .array []]) :=
  @released_iff sampleNode sampleSubscription (bytes "http://p:1/") false (.array [.int 1, .string [], .array []]) none
    ⟨[], some ⟨0, 5000, true⟩⟩ rfl

/-- The publisher chooses TCP. -/
theorem not_released_tcp : ¬ ∀ (env : Surroundings) (s : Subscription) (uri : Bytes) (stopped : Bool) (result : Value)
    (link : Option Link) (made : Made), negotiation env s uri stopped result = .ok (link, made) →
    Released link made := by
  intro h
  have hRun : negotiation sampleNode sampleSubscription (bytes "http://p:1/") false
      (.array [.int 1, .string [], .array [.string (bytes "TCPROS"), .string (bytes "p"), .int 2]]) =
      .ok (some (.tcp (bytes "http://p:1/") (bytes "p") 2), ⟨[], some ⟨0, 5000, false⟩⟩) := rfl
  rcases h _ _ _ _ _ _ _ hRun _ List.mem_cons_self with hClosed | ⟨uri, hLink⟩
  · cases hClosed
  · cases hLink

end XcRos.Libros.Negotiation
