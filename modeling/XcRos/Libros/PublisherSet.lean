import XcRos.Foundation.Machine
import XcRos.Rpc.CString
import XcRos.Rpc.Value

/-! # The publishers of a subscription

`Subscription::pubUpdate` and `Subscription::pendingConnectionDone`. Both hold `shutdown_mutex_`, so that a
step is one of them. A publisher link is what `getPublisherXMLRPCURI` says of it and a pending
connection is its `remote_uri_`; what the network makes of a step is an input.
-/

namespace XcRos.Libros.PublisherSet

open XcRos.Foundation XcRos.Rpc

/-! ## URIs -/

def address (uri : Bytes) : Bytes :=
  if uri.take 7 = bytes "http://" then uri.drop 7
  else if uri.take 9 = bytes "rosrpc://" then uri.drop 9
  else []

/-- `network::splitURI`, with the host and port that it leaves in its arguments, which are empty and 0. -/
def splitURI (uri : Bytes) : Bool × Bytes × UInt32 :=
  if 58 ∈ address uri then
    let host := (address uri).takeWhile (· ≠ 58)
    let portStr := ((address uri).drop (host.length + 1)).takeWhile (· ≠ 47)
    (true, host, (atoi portStr).toUInt32)
  else (false, address uri, 0)

def urisEqual (uri1 uri2 : Bytes) : Bool := (splitURI uri1).2 = (splitURI uri2).2

def clientURI (host : Bytes) (port : UInt32) : Bytes :=
  bytes "http://" ++ (host ++ 58 :: (printNat port.toNat ++ [47]))

/-- The URI that the link gets. The client was given the host as a C string. -/
def linkURI (conn : Bytes) : Bytes := clientURI (cStr (splitURI conn).2.1) (splitURI conn).2.2

theorem splitURI_host {uri : Bytes} (h : (splitURI uri).1 = true) : 58 ∉ (splitURI uri).2.1 := by
  simp only [splitURI] at h ⊢
  split at h
  · rw [if_pos ‹_›]
    intro hMem
    have := List.mem_takeWhile_imp hMem
    simp at this
  · cases h

theorem strtol_printNat (n : Nat) : strtol (printNat n) = (clampLong n, (printNat n).length) := by
  have hDigits := printNat_isdigit n
  have hTake : (printNat n).takeWhile isdigit = printNat n := List.takeWhile_eq_self_iff.mpr hDigits
  have hValue := digitsValue_printNat n
  obtain ⟨d, tail, hCons⟩ := List.exists_cons_of_ne_nil (printNat_ne_nil n)
  rw [hCons] at hDigits hTake hValue ⊢
  have hd : isdigit d = true := hDigits d List.mem_cons_self
  have hBlanks : (d :: tail).takeWhile isspace = [] := by
    rw [List.takeWhile_cons_of_neg (by simp [isdigit_not_isspace hd])]
  simp only [strtol, hBlanks, List.length_nil, List.drop_zero, signOf_digit hd, hTake, reduceCtorEq, if_false,
    Bool.false_eq_true, Nat.zero_add, hValue]

theorem atoi_printNat (port : UInt32) : (atoi (printNat port.toNat)).toUInt32 = port := by
  have hBound := port.toNat_lt
  have hClamp : clampLong port.toNat = port.toNat := by
    simp only [clampLong, longMax]
    omega
  rw [atoi, strtol_printNat, hClamp, Int32.ofInt_eq_ofNat, Int32.toUInt32_ofNat', UInt32.ofNat_toNat]

theorem address_clientURI (host : Bytes) (port : UInt32) :
    address (clientURI host port) = host ++ 58 :: (printNat port.toNat ++ [47]) := by
  have hProtocol : (clientURI host port).take 7 = bytes "http://" := rfl
  rw [address, if_pos hProtocol]
  rfl

theorem splitURI_clientURI {host : Bytes} (h : 58 ∉ host) (port : UInt32) :
    (splitURI (clientURI host port)).2 = (host, port) := by
  have hAddress := address_clientURI host port
  have hHost : (host ++ 58 :: (printNat port.toNat ++ [47])).takeWhile (· ≠ 58) = host :=
    takeWhile_append_stop (fun d hd => decide_eq_true fun hEq => h (hEq ▸ hd)) (by decide)
  have hPort : (printNat port.toNat ++ [47]).takeWhile (· ≠ 47) = printNat port.toNat :=
    takeWhile_append_stop (fun d hd => decide_eq_true fun hEq => by
      have hDigit := printNat_isdigit _ d hd
      rw [hEq] at hDigit
      exact absurd hDigit (by decide)) (by decide)
  have hRest : (host ++ 58 :: (printNat port.toNat ++ [47])).drop (host.length + 1) = printNat port.toNat ++ [47] := by
    rw [← List.drop_drop, List.drop_left]
    rfl
  simp only [splitURI, hAddress, hHost, hRest, hPort, atoi_printNat]
  rw [if_pos (by simp)]

theorem splitURI_linkURI {conn : Bytes} (hColon : 58 ∉ (splitURI conn).2.1) (hZero : 0 ∉ (splitURI conn).2.1) :
    (splitURI (linkURI conn)).2 = (splitURI conn).2 := by
  have hHost : cStr (splitURI conn).2.1 = (splitURI conn).2.1 :=
    List.takeWhile_eq_self_iff.mpr fun c hc => decide_eq_true fun hEq => hZero (hEq ▸ hc)
  rw [linkURI, hHost, splitURI_clientURI hColon]

/-! ### The URI of a node -/

/-- The URI that `RobotRPCManager::start` makes of the node's host and the server's port. -/
def startURI (host : Bytes) (port : UInt16) : Bytes :=
  bytes "http://" ++ host ++ bytes ":" ++ printNat port.toNat ++ bytes "/"

theorem startURI_eq (host : Bytes) (port : UInt16) : startURI host port = clientURI host port.toUInt32 := by
  have hColon : bytes ":" = [58] := rfl
  have hSlash : bytes "/" = [47] := rfl
  rw [startURI, clientURI, hColon, hSlash, UInt16.toNat_toUInt32]
  simp only [List.append_assoc, List.cons_append, List.nil_append]

/-- Each URI is taken apart into its host and port, and equal ones are those of one host and port. -/
structure PeersAgree (host₁ host₂ : Bytes) (port₁ port₂ : UInt16) : Prop where
  first : splitURI (startURI host₁ port₁) = (true, host₁, port₁.toUInt32)
  second : splitURI (startURI host₂ port₂) = (true, host₂, port₂.toUInt32)
  equal : urisEqual (startURI host₁ port₁) (startURI host₂ port₂) = true ↔ host₁ = host₂ ∧ port₁ = port₂

theorem splitURI_startURI_iff (host : Bytes) (port : UInt16) :
    splitURI (startURI host port) = (true, host, port.toUInt32) ↔ 58 ∉ host := by
  constructor
  · intro hSplit
    have hTrue : (splitURI (startURI host port)).1 = true := by rw [hSplit]
    have hHost := splitURI_host hTrue
    rwa [hSplit] at hHost
  · intro hColon
    have hAddress : 58 ∈ address (startURI host port) := by
      rw [startURI_eq, address_clientURI]
      exact List.mem_append_right _ List.mem_cons_self
    have hFound : (splitURI (startURI host port)).1 = true := by rw [splitURI, if_pos hAddress]
    rw [startURI_eq] at hFound ⊢
    exact Prod.ext hFound (splitURI_clientURI hColon port.toUInt32)

/-- The host is cut at the first colon. -/
theorem peersAgree_iff (host₁ host₂ : Bytes) (port₁ port₂ : UInt16) :
    PeersAgree host₁ host₂ port₁ port₂ ↔ 58 ∉ host₁ ∧ 58 ∉ host₂ := by
  constructor
  · intro h
    exact ⟨(splitURI_startURI_iff host₁ port₁).mp h.first, (splitURI_startURI_iff host₂ port₂).mp h.second⟩
  · rintro ⟨hFirst, hSecond⟩
    have hSplit₁ := (splitURI_startURI_iff host₁ port₁).mpr hFirst
    have hSplit₂ := (splitURI_startURI_iff host₂ port₂).mpr hSecond
    refine ⟨hSplit₁, hSplit₂, ?_⟩
    rw [urisEqual, hSplit₁, hSplit₂, decide_eq_true_iff, Prod.mk.injEq]
    exact and_congr_right fun _ => ⟨fun h => UInt16.toUInt32_inj.mp h, fun h => by rw [h]⟩

/-- Two IPv6 addresses: host and port are lost, and what is left is the same. -/
theorem splitURI_ipv6 :
    splitURI (startURI (bytes "fe80::1") 11311) = (true, bytes "fe80", 0) ∧
      urisEqual (startURI (bytes "fe80::1") 11311) (startURI (bytes "fe80::2") 11312) = true ∧
      ¬ PeersAgree (bytes "fe80::1") (bytes "fe80::2") 11311 11312 := by
  refine ⟨by decide, by decide, fun h => ?_⟩
  exact absurd (h.equal.mp (by decide)).2 (by decide)

/-! ## The subscription -/

structure Subscription where
  links : List Bytes
  pending : List Bytes
deriving DecidableEq, Repr

namespace Subscription

def known (s : Subscription) (uri : Bytes) : Bool := s.links.any (urisEqual uri) || s.pending.any (urisEqual uri)

/-- `negotiateConnection`. The publisher may fail to be contacted. -/
def negotiateConnection (s : Subscription) (uri : Bytes) (contacted : Bool) : Subscription × Bool :=
  if (splitURI uri).1 && contacted then ({ s with pending := s.pending ++ [uri] }, true) else (s, false)

def negotiate (serverURI : Bytes) (contacted : Nat → Bool) : Subscription → List Bytes → Subscription × Bool
  | s, [] => (s, true)
  | s, uri :: additions =>
    if serverURI ≠ uri then
      let (next, retval) := s.negotiateConnection uri (contacted additions.length)
      let (last, rest) := negotiate serverURI contacted next additions
      (last, retval && rest)
    else negotiate serverURI contacted s additions

/-- `pubUpdate`. A link that is dropped removes itself. -/
def pubUpdate (serverURI : Bytes) (s : Subscription) (newPubs : List Bytes) (contacted : Nat → Bool) :
    Subscription × Bool :=
  let subtractions := s.links.filter fun link => !newPubs.any (urisEqual link)
  let additions := newPubs.filter fun uri => !s.known uri
  let s := { s with links := s.links.filter fun link => !(subtractions.contains link && link != serverURI) }
  s.negotiate serverURI contacted additions

end Subscription

/-- `validateXmlrpcResponse`: the payload of a response that says that the call succeeded. -/
def validateXmlrpcResponse : Value → Option Value
  | .array [.int statusCode, .string _] => if statusCode = 1 then some (.array []) else none
  | .array [.int statusCode, .string _, payload] => if statusCode = 1 then some payload else none
  | _ => none

/-- What becomes of the connection: whether the TCP transport connects, and whether the header of a UDP
publisher parses, has no error and is accepted by the link. -/
structure Network where
  connect : Bytes → Int32 → Bool
  accepts : Bytes → Bool

def agrees (net : Network) (result : Value) : Bool :=
  match validateXmlrpcResponse result with
  | some (.array (.string protoName :: params)) =>
    if protoName = bytes "TCPROS" then
      match params with
      | [.string pubHost, .int pubPort] => net.connect pubHost pubPort
      | _ => false
    else if protoName = bytes "UDPROS" then
      match params with
      | [.string _, .int _, .int _, .int _, .base64 headerBytes] => net.accepts headerBytes
      | _ => false
    else false
  | _ => false

/-- `pendingConnectionDone` -/
def Subscription.pendingConnectionDone (s : Subscription) (net : Network) (conn : Bytes) (result : Value) : Subscription :=
  let s := { s with pending := s.pending.erase conn }
  if agrees net result then { s with links := s.links ++ [linkURI conn] } else s

inductive Label where
  | pubUpdate (newPubs : List Bytes) (contacted : Nat → Bool)
  | done (net : Network) (conn : Bytes) (result : Value)
  | addLocalConnection
  /-- A link drops by itself. -/
  | dropped (link : Bytes)

structure State where
  sub : Subscription
  /-- The last list received. -/
  published : List Bytes
deriving DecidableEq, Repr

def step (serverURI : Bytes) (s : State) : Label → Option State
  | .pubUpdate newPubs contacted => some ⟨(s.sub.pubUpdate serverURI newPubs contacted).1, newPubs⟩
  | .done net conn result =>
    if conn ∈ s.sub.pending then some { s with sub := s.sub.pendingConnectionDone net conn result } else none
  | .addLocalConnection => some { s with sub := { s.sub with links := s.sub.links ++ [serverURI] } }
  | .dropped link => some { s with sub := { s.sub with links := s.sub.links.erase link } }

def start : State := ⟨⟨[], []⟩, []⟩

def system (serverURI : Bytes) : Machine State Label where
  Init s := s = start
  step := step serverURI

/-! ## Convergence -/

def Subscription.remote (serverURI : Bytes) (s : Subscription) : List Bytes := s.links.filter (· ≠ serverURI)

/-- Every remote link is to a publisher of the last list, and no two are to the same. -/
structure Converged (serverURI : Bytes) (s : State) : Prop where
  once : (s.sub.remote serverURI).Pairwise fun a b => urisEqual a b = false
  current : ∀ link ∈ s.sub.remote serverURI, s.published.any (urisEqual link)

/-- A URI that `pubUpdate` asks for a connection. -/
def Subscription.asks (serverURI : Bytes) (s : Subscription) (uri : Bytes) : Bool :=
  serverURI ≠ uri && (splitURI uri).1 && !s.known uri

/-- A list does not ask twice for the same publisher, nor for a host with a zero byte in it; and a publisher
that a connection to it was agreed with is still in the last list. -/
def settles (serverURI : Bytes) (s : State) : Label → Prop
  | .pubUpdate newPubs _ =>
    (∀ uri ∈ newPubs.filter (s.sub.asks serverURI), 0 ∉ (splitURI uri).2.1) ∧
      (newPubs.filter (s.sub.asks serverURI)).Pairwise fun a b => urisEqual a b = false
  | .done net conn result => agrees net result → s.published.any (urisEqual conn)
  | .addLocalConnection | .dropped _ => True

instance (serverURI : Bytes) (s : State) : ∀ a, Decidable (settles serverURI s a)
  | .pubUpdate newPubs _ => inferInstanceAs (Decidable ((∀ uri ∈ newPubs.filter (s.sub.asks serverURI),
      0 ∉ (splitURI uri).2.1) ∧ (newPubs.filter (s.sub.asks serverURI)).Pairwise fun a b => urisEqual a b = false))
  | .done net _ result => inferInstanceAs (Decidable (agrees net result → _))
  | .addLocalConnection | .dropped _ => .isTrue trivial

/-! ## Steps -/

theorem pairwise_iff_nodup {uris : List Bytes} :
    (uris.Pairwise fun a b => urisEqual a b = false) ↔ (uris.map fun uri => (splitURI uri).2).Nodup := by
  simp only [List.Nodup, List.pairwise_map, urisEqual, decide_eq_false_iff_not, ne_eq]

structure Settled (serverURI : Bytes) (s : State) : Prop where
  hosts : ∀ conn ∈ s.sub.pending, 58 ∉ (splitURI conn).2.1 ∧ 0 ∉ (splitURI conn).2.1
  apart : ((s.sub.remote serverURI ++ s.sub.pending).map fun uri => (splitURI uri).2).Nodup
  current : ∀ link ∈ s.sub.remote serverURI, s.published.any (urisEqual link)

theorem Settled.converged {serverURI : Bytes} {s : State} (h : Settled serverURI s) : Converged serverURI s where
  once := pairwise_iff_nodup.mpr (h.apart.sublist ((List.sublist_append_left _ _).map _))
  current := h.current

theorem negotiate_eq (serverURI : Bytes) (contacted : Nat → Bool) (s : Subscription) (additions : List Bytes) :
    ∃ started, (s.negotiate serverURI contacted additions).1 = { s with pending := s.pending ++ started } ∧
      List.Sublist started (additions.filter fun uri => serverURI ≠ uri && (splitURI uri).1) := by
  induction additions generalizing s with
  | nil => exact ⟨[], by simp [Subscription.negotiate], List.Sublist.refl _⟩
  | cons uri additions ih =>
    by_cases hSelf : serverURI = uri
    · obtain ⟨started, hEq, hSub⟩ := ih s
      exact ⟨started, by simpa [Subscription.negotiate, hSelf] using hEq, by simpa [hSelf] using hSub⟩
    · by_cases hContact : (splitURI uri).1 && contacted additions.length
      · obtain ⟨started, hEq, hSub⟩ := ih { s with pending := s.pending ++ [uri] }
        refine ⟨uri :: started, ?_, ?_⟩
        · simp only [Subscription.negotiate, Subscription.negotiateConnection, hContact, if_true, hSelf, ne_eq,
            not_false_eq_true, hEq, List.append_assoc, List.singleton_append]
        · have hValid : (splitURI uri).1 = true := (Bool.and_eq_true_iff.mp hContact).1
          rw [List.filter_cons_of_pos (by simp [hSelf, hValid])]
          exact hSub.cons_cons uri
      · obtain ⟨started, hEq, hSub⟩ := ih s
        refine ⟨started, ?_, hSub.trans ((List.sublist_cons_self _ _).filter _)⟩
        simpa only [Subscription.negotiate, Subscription.negotiateConnection, hContact, if_false, hSelf, ne_eq,
          not_false_eq_true, if_true, Bool.false_eq_true] using hEq

theorem pubUpdate_eq (serverURI : Bytes) (s : Subscription) (newPubs : List Bytes) (contacted : Nat → Bool) :
    ∃ started, (s.pubUpdate serverURI newPubs contacted).1 =
        ⟨s.links.filter fun link => newPubs.any (urisEqual link) || link == serverURI, s.pending ++ started⟩ ∧
      List.Sublist started (newPubs.filter (s.asks serverURI)) := by
  obtain ⟨started, hEq, hSub⟩ := negotiate_eq serverURI contacted
    { s with links := s.links.filter fun link =>
        !((s.links.filter fun link => !newPubs.any (urisEqual link)).contains link && link != serverURI) }
    (newPubs.filter fun uri => !s.known uri)
  refine ⟨started, hEq.trans (Subscription.mk.injEq .. ▸ ⟨List.filter_congr fun link hLink => ?_, rfl⟩), ?_⟩
  · by_cases hListed : newPubs.any (urisEqual link)
    · simp [hListed]
    · simp [hListed, hLink, bne]
  · rw [List.filter_filter] at hSub
    exact hSub

theorem known_key {s : Subscription} {uri : Bytes} (h : s.known uri = false) :
    (splitURI uri).2 ∉ (s.links ++ s.pending).map fun uri => (splitURI uri).2 := by
  simp only [Subscription.known, Bool.or_eq_false_iff, List.any_eq_false, urisEqual, decide_eq_true_eq] at h
  intro hMem
  obtain ⟨other, hOther, hKey⟩ := List.mem_map.mp hMem
  obtain hLink | hPending := List.mem_append.mp hOther
  · exact h.1 other hLink hKey.symm
  · exact h.2 other hPending hKey.symm

theorem asks_iff {serverURI : Bytes} {s : Subscription} {uri : Bytes} :
    s.asks serverURI uri = true ↔ serverURI ≠ uri ∧ (splitURI uri).1 = true ∧ s.known uri = false := by
  simp only [Subscription.asks, Bool.and_eq_true, decide_eq_true_eq, Bool.not_eq_true', and_assoc]

theorem Settled.pubUpdate {serverURI : Bytes} {s : State} (h : Settled serverURI s) {newPubs : List Bytes}
    (contacted : Nat → Bool) (hOk : settles serverURI s (.pubUpdate newPubs contacted)) :
    Settled serverURI ⟨(s.sub.pubUpdate serverURI newPubs contacted).1, newPubs⟩ := by
  obtain ⟨started, hEq, hStarted⟩ := pubUpdate_eq serverURI s.sub newPubs contacted
  rw [hEq]
  have hAsks : ∀ uri ∈ started, s.sub.asks serverURI uri = true := fun uri hUri =>
    (List.mem_filter.mp (hStarted.subset hUri)).2
  have hRemote : List.Sublist (Subscription.remote serverURI ⟨s.sub.links.filter fun link =>
      newPubs.any (urisEqual link) || link == serverURI, s.sub.pending ++ started⟩) (s.sub.remote serverURI) :=
    List.filter_sublist.filter _
  refine ⟨fun conn hConn => ?_, ?_, fun link hLink => ?_⟩
  · obtain hOld | hNew := List.mem_append.mp hConn
    · exact h.hosts conn hOld
    · exact ⟨splitURI_host (asks_iff.mp (hAsks conn hNew)).2.1, hOk.1 conn (hStarted.subset hNew)⟩
  · show (List.map _ (_ ++ (s.sub.pending ++ started))).Nodup
    rw [← List.append_assoc, List.map_append]
    refine List.nodup_append.mpr ⟨h.apart.sublist ((hRemote.append_right _).map _),
      (pairwise_iff_nodup.mp hOk.2).sublist (hStarted.map _), ?_⟩
    rintro key hOld other hNew rfl
    obtain ⟨uri, hUri, rfl⟩ := List.mem_map.mp hNew
    have hLinks : List.Sublist (s.sub.remote serverURI) s.sub.links := List.filter_sublist
    exact known_key (asks_iff.mp (hAsks uri hUri)).2.2
      (((hRemote.trans hLinks).append_right _).map _ |>.subset hOld)
  · obtain ⟨hLink, hNotSelf⟩ := List.mem_filter.mp hLink
    have hKept := (List.mem_filter.mp hLink).2
    simp only [decide_eq_true_eq] at hNotSelf
    simpa [hNotSelf] using hKept

theorem Settled.done {serverURI : Bytes} {s : State} (h : Settled serverURI s) {net : Network} {conn : Bytes}
    {result : Value} (hConn : conn ∈ s.sub.pending) (hOk : settles serverURI s (.done net conn result)) :
    Settled serverURI { s with sub := s.sub.pendingConnectionDone net conn result } := by
  have hRest : ∀ other ∈ s.sub.pending.erase conn, other ∈ s.sub.pending := fun _ => List.mem_of_mem_erase
  rw [Subscription.pendingConnectionDone]
  split
  · have hKey : (splitURI (linkURI conn)).2 = (splitURI conn).2 :=
      splitURI_linkURI (h.hosts conn hConn).1 (h.hosts conn hConn).2
    have hRemote : List.Sublist (Subscription.remote serverURI ⟨s.sub.links ++ [linkURI conn], s.sub.pending.erase conn⟩)
        (s.sub.remote serverURI ++ [linkURI conn]) := by
      rw [Subscription.remote, List.filter_append]
      exact List.filter_sublist.append_left _
    refine ⟨fun other hOther => h.hosts other (hRest other hOther), ?_, fun link hLink => ?_⟩
    · have hPerm : (s.sub.remote serverURI ++ s.sub.pending).Perm
          (s.sub.remote serverURI ++ [conn] ++ s.sub.pending.erase conn) := by
        rw [List.append_assoc]
        exact (List.perm_cons_erase hConn).append_left _
      have hApart := (hPerm.map fun uri => (splitURI uri).2).nodup_iff.mp h.apart
      have hSame : (s.sub.remote serverURI ++ [linkURI conn] ++ s.sub.pending.erase conn).map
            (fun uri => (splitURI uri).2) =
          (s.sub.remote serverURI ++ [conn] ++ s.sub.pending.erase conn).map fun uri => (splitURI uri).2 := by
        simp only [List.map_append, List.map_cons, List.map_nil, hKey]
      exact (hSame ▸ hApart).sublist ((hRemote.append_right _).map _)
    · obtain hOld | hNew := List.mem_append.mp (hRemote.subset hLink)
      · exact h.current link hOld
      · have hEqual : urisEqual (linkURI conn) = urisEqual conn := by
          funext other
          simp only [urisEqual, hKey]
        rw [List.mem_singleton.mp hNew, hEqual]
        exact hOk ‹_›
  · exact ⟨fun other hOther => h.hosts other (hRest other hOther),
      h.apart.sublist ((List.erase_sublist.append_left _).map _), h.current⟩

theorem settled_step {serverURI : Bytes} {s s' : State} {a : Label} (h : Settled serverURI s)
    (hOk : settles serverURI s a) (hStep : step serverURI s a = some s') : Settled serverURI s' := by
  cases a with
  | pubUpdate newPubs contacted =>
    cases hStep
    exact h.pubUpdate contacted hOk
  | done net conn result =>
    simp only [step] at hStep
    split at hStep
    · cases hStep
      exact h.done ‹_› hOk
    · cases hStep
  | addLocalConnection =>
    cases hStep
    have hRemote : Subscription.remote serverURI ⟨s.sub.links ++ [serverURI], s.sub.pending⟩ =
        s.sub.remote serverURI := by
      simp [Subscription.remote]
    exact ⟨h.hosts, hRemote ▸ h.apart, hRemote ▸ h.current⟩
  | dropped link =>
    cases hStep
    have hRemote : List.Sublist (Subscription.remote serverURI ⟨s.sub.links.erase link, s.sub.pending⟩)
        (s.sub.remote serverURI) := List.erase_sublist.filter _
    exact ⟨h.hosts, h.apart.sublist ((hRemote.append_right _).map _),
      fun other hOther => h.current other (hRemote.subset hOther)⟩

/-- In the runs whose steps settle the links converge to the last list. -/
theorem links_converged {serverURI : Bytes} {s : State} (hReach : (system serverURI).ReachableWhen (settles serverURI) s) :
    Converged serverURI s := by
  have h := hReach.invariant (Settled serverURI)
    (fun t ht => by
      cases ht
      exact ⟨by simp [start], by simp [start, Subscription.remote], by simp [start, Subscription.remote]⟩)
    (fun t a t' ht hOk hStep => settled_step ht hOk hStep)
  exact h.converged

/-! ## A publisher that leaves -/

def self : Bytes := bytes "http://me:1/"

def talker : Bytes := bytes "http://talker:2/"

def rover : Bytes := bytes "http://rover:3"

def net : Network := ⟨fun _ _ => true, fun _ => true⟩

def offer : Value := .array [.int 1, .string [], .array [.string (bytes "TCPROS"), .string (bytes "host"), .int 4]]

def turns : List Label :=
  [.addLocalConnection, .pubUpdate [talker, self, rover] fun _ => true, .done net talker offer,
    .pubUpdate [rover, self] fun _ => true, .done net rover offer]

def settled : State := ((system self).runWhen (settles self) start turns).getD start

/-- `talker` has left, and `rover` has come. -/
theorem links_converged_sample :
    settled.sub = ⟨[self, bytes "http://rover:3/"], []⟩ ∧ Converged self settled := by
  have hRun : (system self).runWhen (settles self) start turns = some settled := by decide +kernel
  exact ⟨by decide +kernel, links_converged (.runWhen (.init rfl) hRun)⟩

def left : State :=
  ((system self).run start
    [.pubUpdate [talker] fun _ => true, .pubUpdate [] fun _ => true, .done net talker offer]).getD start

/-- `talker` leaves while it is asked for a connection, and is linked to nevertheless. -/
theorem talker_stays :
    (system self).Reachable left ∧ left.sub = ⟨[talker], []⟩ ∧ left.published = [] ∧ ¬ Converged self left := by
  have hRun : (system self).run start
      [.pubUpdate [talker] fun _ => true, .pubUpdate [] fun _ => true, .done net talker offer] = some left := rfl
  have hSub : left.sub = ⟨[talker], []⟩ := by decide +kernel
  refine ⟨Machine.Reachable.run (.init rfl) hRun, hSub, rfl, fun h => ?_⟩
  have hCurrent := h.current talker (by rw [hSub]; decide +kernel)
  exact absurd hCurrent (by decide +kernel)

/-- A list that names `talker` twice makes two connections to it. -/
example : ((system self).run start [.pubUpdate [talker, talker] fun _ => true, .done net talker offer,
    .done net talker offer]).map (·.sub.links) = some [talker, talker] := by
  decide +kernel

end XcRos.Libros.PublisherSet
