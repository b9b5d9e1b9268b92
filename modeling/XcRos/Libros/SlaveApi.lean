import XcRos.Foundation.Lines
import XcRos.Rpc.ValueArray

/-! # What a node tells about itself

The answers of `TopicManager` to `getBusStats`, `getBusInfo`, `getSubscriptions` and `getPublications`, up to
`RobotRPCManager::validateXmlrpcResponse` at the caller. `none` stands for an exception.
-/

namespace XcRos.Libros.SlaveApi

open XcRos.Foundation XcRos.Rpc

universe u

structure SubscriberLink where
  connectionId : Int32
  destinationCallerId : Bytes
  transportType : Bytes
  transportInfo : Bytes
  bytesSent : UInt64
  messageDataSent : UInt64
  messagesSent : UInt64

structure Publication where
  name : Bytes
  dataType : Bytes
  subscriberLinks : List SubscriberLink

structure PublisherLink where
  connectionId : Int32
  publisherXmlrpcUri : Bytes
  transportType : Bytes
  transportInfo : Bytes
  bytesReceived : UInt64
  messagesReceived : UInt64
  drops : UInt64

structure Subscription where
  name : Bytes
  datatype : Bytes
  publisherLinks : List PublisherLink

structure TopicManager where
  advertisedTopics : List Publication
  subscriptions : List Subscription

/-- `(int)` -/
def toInt (n : UInt64) : Int32 := n.toUInt32.toInt32

def SubscriberLink.statsRow (c : SubscriberLink) : List Value :=
  [.int c.connectionId, .int (toInt c.bytesSent), .int (toInt c.messageDataSent), .int (toInt c.messagesSent), .int 0]

def PublisherLink.statsRow (c : PublisherLink) : List Value :=
  [.int c.connectionId, .int (toInt c.bytesReceived), .int (toInt c.messagesReceived), .int (toInt c.drops), .int 0]

def SubscriberLink.infoRow (topic : Bytes) (c : SubscriberLink) : List Value :=
  [.int c.connectionId, .string c.destinationCallerId, .string (bytes "o"), .string c.transportType, .string topic,
    .boolean true, .string c.transportInfo]

def PublisherLink.infoRow (topic : Bytes) (c : PublisherLink) : List Value :=
  [.int c.connectionId, .string c.publisherXmlrpcUri, .string (bytes "i"), .string c.transportType, .string topic,
    .boolean true, .string c.transportInfo]

/-- The loop of `getStats`, which assigns `conn_data[cidx][0]` and so on for one link after another. -/
def connData (next : Nat → Nat) : Nat → List (List Value) → Value → Option Value
  | _, [], connData => some connData
  | cidx, row :: rows, data => (data.modifyAt cidx (Value.fill row)).bind (connData next (next cidx) rows)

def getStats (next : Nat → Nat) (name : Bytes) (rows : List (List Value)) : Option Value :=
  (Value.invalid.assign 0 (.string name)).bind fun stats => (Value.invalid.setSize 0).bind fun data =>
    (connData next 0 rows data).bind fun data => stats.assign 1 data

/-- The loop of `getInfo`. -/
def appendRows : List (List Value) → Value → Option Value
  | [], info => some info
  | row :: rows, info =>
    (Value.invalid.fill row).bind fun currInfo => info.size.bind fun size =>
      (info.assign size currInfo).bind (appendRows rows)

namespace Publication

def getStats (p : Publication) : Option Value :=
  SlaveApi.getStats (· + 1) p.name (p.subscriberLinks.map SubscriberLink.statsRow)

def getInfo (p : Publication) : Value → Option Value := appendRows (p.subscriberLinks.map (SubscriberLink.infoRow p.name))

end Publication

namespace Subscription

/-- `cidx` is not counted up. -/
def getStats (s : Subscription) : Option Value :=
  SlaveApi.getStats id s.name (s.publisherLinks.map PublisherLink.statsRow)

def getInfo (s : Subscription) : Value → Option Value := appendRows (s.publisherLinks.map (PublisherLink.infoRow s.name))

end Subscription

/-- `getInfo(info)` of one topic after another. -/
def getInfoEach {α : Type u} (getInfo : α → Value → Option Value) : List α → Value → Option Value
  | [], info => some info
  | t :: ts, info => (getInfo t info).bind (getInfoEach getInfo ts)

namespace TopicManager

def getBusStats (node : TopicManager) (stats : Value) : Option Value :=
  (Value.invalid.setSize 0).bind fun publishStats => (Value.invalid.setSize 0).bind fun subscribeStats =>
    (Value.invalid.setSize 0).bind fun serviceStats =>
      (publishStats.assignEach Publication.getStats 0 node.advertisedTopics).bind fun publishStats =>
        (subscribeStats.assignEach Subscription.getStats 0 node.subscriptions).bind fun subscribeStats =>
          (stats.assign 0 publishStats).bind fun stats => (stats.assign 1 subscribeStats).bind fun stats =>
            stats.assign 2 serviceStats

def getBusInfo (node : TopicManager) (info : Value) : Option Value :=
  (info.setSize 0).bind fun info => (getInfoEach Publication.getInfo node.advertisedTopics info).bind
    (getInfoEach Subscription.getInfo node.subscriptions)

def getSubscriptions (node : TopicManager) (subs : Value) : Option Value :=
  (subs.setSize 0).bind fun subs =>
    subs.assignEach (fun t => Value.invalid.fill [.string t.name, .string t.datatype]) 0 node.subscriptions

def getPublications (node : TopicManager) (pubs : Value) : Option Value :=
  (pubs.setSize 0).bind fun pubs =>
    pubs.assignEach (fun t => Value.invalid.fill [.string t.name, .string t.dataType]) 0 node.advertisedTopics

/-- `result[0] = 1; result[1] = status; result[2] = response`, with the response that `get` fills in. -/
def respond (status : Bytes) (get : Value → Option Value) : Option Value :=
  (Value.invalid.assign 0 (.int 1)).bind fun result => (result.assign 1 (.string status)).bind fun result =>
    (get .invalid).bind fun response => result.assign 2 response

/-- The statistics are written into the result itself, and the response stays invalid. -/
def getBusStatsCallback (node : TopicManager) : Option Value :=
  (Value.invalid.assign 0 (.int 1)).bind fun result => (result.assign 1 (.string [])).bind fun result =>
    (node.getBusStats result).bind fun result => result.assign 2 .invalid

def getBusInfoCallback (node : TopicManager) : Option Value := respond [] node.getBusInfo

def getSubscriptionsCallback (node : TopicManager) : Option Value :=
  respond (bytes "subscriptions") node.getSubscriptions

def getPublicationsCallback (node : TopicManager) : Option Value :=
  respond (bytes "publications") node.getPublications

end TopicManager

def emptyArray : Bytes := bytes "<value><array><data></data></array></value>"

def validateXmlrpcResponse [DoubleText] : Value → Option Value
  | .array [.int statusCode, .string _] =>
    if statusCode = 1 then some (((fromXml emptyArray 0).map Prod.fst).getD .invalid) else none
  | .array [.int statusCode, .string _, payload] => if statusCode = 1 then some payload else none
  | _ => none

/-! ## The property -/

inductive Query where
  | getBusStats
  | getBusInfo
  | getSubscriptions
  | getPublications
deriving DecidableEq, Repr

namespace Query

def callback (node : TopicManager) : Query → Option Value
  | getBusStats => node.getBusStatsCallback
  | getBusInfo => node.getBusInfoCallback
  | getSubscriptions => node.getSubscriptionsCallback
  | getPublications => node.getPublicationsCallback

def status : Query → Bytes
  | getBusStats | getBusInfo => []
  | getSubscriptions => bytes "subscriptions"
  | getPublications => bytes "publications"

/-- What is to be told: the statistics of each topic with a row for each connection, a row for each connection, or
each topic with its type. -/
def payload (node : TopicManager) : Query → Value
  | getBusStats =>
    .array [
      .array (node.advertisedTopics.map fun p =>
        .array [.string p.name, .array (p.subscriberLinks.map fun c => .array c.statsRow)]),
      .array (node.subscriptions.map fun s =>
        .array [.string s.name, .array (s.publisherLinks.map fun c => .array c.statsRow)]),
      .array []]
  | getBusInfo =>
    .array (node.advertisedTopics.flatMap (fun p => p.subscriberLinks.map fun c => .array (c.infoRow p.name)) ++
      node.subscriptions.flatMap fun s => s.publisherLinks.map fun c => .array (c.infoRow s.name))
  | getSubscriptions => .array (node.subscriptions.map fun s => .array [.string s.name, .string s.datatype])
  | getPublications => .array (node.advertisedTopics.map fun p => .array [.string p.name, .string p.dataType])

def answer (node : TopicManager) (q : Query) : Value := .array [.int 1, .string q.status, q.payload node]

/-- The value of the callback is read back from its text, and accepted with the whole payload. -/
def WellFormed [DoubleText] (node : TopicManager) (q : Query) : Prop :=
  ∃ result value offset, q.callback node = some result ∧ fromXml result.toXml 0 = some (value, offset) ∧
    validateXmlrpcResponse value = some (q.payload node)

end Query

/-! ## What the loops build -/

theorem connData_succ {rows : List (List Value)} {front : List Value} {v : Value}
    (hRows : ∀ row ∈ rows, row ≠ [] ∧ row.length ≤ intMax)
    (h : connData (· + 1) front.length rows (.array front) = some v) : v = .array (front ++ rows.map .array) := by
  induction rows generalizing front with
  | nil =>
    cases h
    rw [List.map_nil, List.append_nil]
  | cons row rows ih =>
    obtain ⟨hSome, hLength⟩ := hRows row List.mem_cons_self
    obtain ⟨next, hNext, hTail⟩ := Option.bind_eq_some_iff.mp h
    rcases Nat.lt_or_ge front.length intMax with hLt | hGe
    · have hRow := Value.modifyAt_append hLt (Value.fill row) []
      rw [List.append_nil, hNext, List.headD_nil, Value.fill_invalid hSome hLength] at hRow
      cases hRow
      have hCount : (front ++ [Value.array row]).length = front.length + 1 := by rw [List.length_append]; rfl
      change connData (· + 1) (front.length + 1) rows (.array (front ++ [.array row])) = some v at hTail
      rw [← hCount] at hTail
      rw [ih (fun r hr => hRows r (List.mem_cons_of_mem row hr)) hTail, List.append_assoc]
      rfl
    · rw [Value.modifyAt_of_le hGe] at hNext
      cases hNext

theorem connData_id {width : Nat} (hWidth : width ≤ intMax) (hPos : 0 < width) {rows : List (List Value)}
    (hRows : ∀ row ∈ rows, row.length = width) {old : Option (List Value)} (hOld : ∀ row ∈ old, row.length = width) :
    connData id 0 rows (.array (old.toList.map .array)) =
      some (.array ((rows.getLast?.or old).toList.map .array)) := by
  induction rows generalizing old with
  | nil => rfl
  | cons row rows ih =>
    have hRow := hRows row List.mem_cons_self
    have hSome : row ≠ [] := by
      rintro rfl
      rw [List.length_nil] at hRow
      omega
    have hFill : (Value.array (old.toList.map .array)).modifyAt 0 (Value.fill row) = some (.array [.array row]) := by
      have hFirst := @Value.modifyAt_append [] (by decide) (Value.fill row) (old.toList.map .array)
      rw [List.length_nil, List.nil_append] at hFirst
      rw [hFirst]
      cases old with
      | none =>
        show (Value.invalid.fill row).map _ = _
        rw [Value.fill_invalid hSome (hRow ▸ hWidth)]
        rfl
      | some before =>
        show ((Value.array before).fill row).map _ = _
        rw [Value.fill_array (by rw [hOld before rfl, hRow]) (hRow ▸ hWidth)]
        rfl
    have hTail := @ih (fun r hr => hRows r (List.mem_cons_of_mem row hr)) (some row) (by rintro _ ⟨⟩; exact hRow)
    rw [connData, hFill, Option.bind_some]
    refine hTail.trans ?_
    cases rows with
    | nil => rfl
    | cons second rows =>
      rw [List.getLast?_cons_cons, List.getLast?_eq_some_getLast (List.cons_ne_nil second rows)]
      rfl

theorem getStats_eq {next : Nat → Nat} {name : Bytes} {rows : List (List Value)} {v : Value}
    (h : getStats next name rows = some v) :
    ∃ data, connData next 0 rows (.array []) = some data ∧ v = .array [.string name, data] := by
  obtain ⟨stats, hStats, hRest⟩ := Option.bind_eq_some_iff.mp h
  obtain ⟨start, hStart, hRest⟩ := Option.bind_eq_some_iff.mp hRest
  obtain ⟨data, hData, hAssign⟩ := Option.bind_eq_some_iff.mp hRest
  cases hStats
  cases hStart
  refine ⟨data, hData, ?_⟩
  have hEq := @Value.assign_append [.string name] (by decide : 1 < intMax) data []
  exact Option.some.inj (hAssign.symm.trans hEq)

theorem Publication.getStats_eq {p : Publication} {v : Value} (h : p.getStats = some v) :
    v = .array [.string p.name, .array (p.subscriberLinks.map fun c => .array c.statsRow)] := by
  obtain ⟨data, hData, rfl⟩ := SlaveApi.getStats_eq h
  have hRows : ∀ row ∈ p.subscriberLinks.map SubscriberLink.statsRow, row ≠ [] ∧ row.length ≤ intMax := by
    intro row hRow
    obtain ⟨c, -, rfl⟩ := List.mem_map.mp hRow
    exact ⟨List.cons_ne_nil _ _, (by decide : 5 ≤ intMax)⟩
  rw [@connData_succ _ [] _ hRows hData, List.nil_append, List.map_map]
  rfl

theorem Subscription.getStats_eq {s : Subscription} {v : Value} (h : s.getStats = some v) :
    v = .array [.string s.name, .array (s.publisherLinks.getLast?.toList.map fun c => .array c.statsRow)] := by
  obtain ⟨data, hData, rfl⟩ := SlaveApi.getStats_eq h
  have hRows : ∀ row ∈ s.publisherLinks.map PublisherLink.statsRow, row.length = 5 := by
    intro row hRow
    obtain ⟨c, -, rfl⟩ := List.mem_map.mp hRow
    rfl
  have hLast := @connData_id 5 (by decide) (by decide) _ hRows none (by rintro _ ⟨⟩)
  rw [Option.toList_none, List.map_nil, hData] at hLast
  rw [Option.some.inj hLast, List.getLast?_map, Option.or_none, Option.toList_map, List.map_map]
  rfl

theorem appendRows_eq {rows : List (List Value)} (hRows : ∀ row ∈ rows, row ≠ [] ∧ row.length ≤ intMax)
    (front : List Value) :
    appendRows rows (.array front) = (Value.array front).assignEach some front.length (rows.map .array) := by
  induction rows generalizing front with
  | nil => rfl
  | cons row rows ih =>
    obtain ⟨hSome, hLength⟩ := hRows row List.mem_cons_self
    rw [appendRows, Value.fill_invalid hSome hLength, Option.bind_some, Value.size, Option.bind_some, List.map_cons,
      Value.assignEach, Option.bind_some]
    rcases Nat.lt_or_ge front.length intMax with hLt | hGe
    · have hAssign := Value.assign_append hLt (.array row) []
      have hCount : (front ++ [Value.array row]).length = front.length + 1 := by rw [List.length_append]; rfl
      rw [List.append_nil] at hAssign
      rw [hAssign, Option.bind_some, Option.bind_some, ← hCount]
      exact ih (fun r hr => hRows r (List.mem_cons_of_mem row hr)) _
    · rw [Value.assign, Value.modifyAt_of_le hGe]
      rfl

theorem assignEach_append (xs ys : List Value) (i : Nat) (v : Value) :
    v.assignEach some i (xs ++ ys) = (v.assignEach some i xs).bind fun w => w.assignEach some (i + xs.length) ys := by
  induction xs generalizing i v with
  | nil => rfl
  | cons x xs ih =>
    rw [List.cons_append, Value.assignEach, Value.assignEach, Option.bind_some, Option.bind_some, Option.bind_assoc]
    congr 1
    funext w
    rw [ih, List.length_cons, Nat.add_assoc, Nat.add_comm 1]

theorem getInfoEach_eq {α : Type u} {rowsOf : α → List (List Value)} {ts : List α}
    (hRows : ∀ t ∈ ts, ∀ row ∈ rowsOf t, row ≠ [] ∧ row.length ≤ intMax) (front : List Value) :
    getInfoEach (fun t => appendRows (rowsOf t)) ts (.array front) =
      (Value.array front).assignEach some front.length (ts.flatMap fun t => (rowsOf t).map .array) := by
  induction ts generalizing front with
  | nil => rfl
  | cons t ts ih =>
    rw [getInfoEach, appendRows_eq (hRows t List.mem_cons_self), List.flatMap_cons, assignEach_append]
    cases hFirst : (Value.array front).assignEach some front.length ((rowsOf t).map .array) with
    | none => rfl
    | some next =>
      obtain ⟨xs, hxs, rfl⟩ := Value.assignEach_some hFirst
      have hLength : ((rowsOf t).map Value.array).length = xs.length := by
        rw [← mapM_eq_some_iff.mp hxs |>.length_eq]
      rw [Option.bind_some, Option.bind_some, hLength, ← List.length_append]
      exact ih (fun s hs => hRows s (List.mem_cons_of_mem t hs)) _

theorem infoRows (node : TopicManager) :
    (∀ p ∈ node.advertisedTopics, ∀ row ∈ p.subscriberLinks.map (SubscriberLink.infoRow p.name),
      row ≠ [] ∧ row.length ≤ intMax) ∧
    ∀ s ∈ node.subscriptions, ∀ row ∈ s.publisherLinks.map (PublisherLink.infoRow s.name),
      row ≠ [] ∧ row.length ≤ intMax := by
  constructor
  · intro p _ row hRow
    obtain ⟨c, -, rfl⟩ := List.mem_map.mp hRow
    exact ⟨List.cons_ne_nil _ _, (by decide : 7 ≤ intMax)⟩
  · intro s _ row hRow
    obtain ⟨c, -, rfl⟩ := List.mem_map.mp hRow
    exact ⟨List.cons_ne_nil _ _, (by decide : 7 ≤ intMax)⟩

theorem getInfoEach_behind {α : Type u} {rowsOf : α → List (List Value)} {ts : List α}
    (hRows : ∀ t ∈ ts, ∀ row ∈ rowsOf t, row ≠ [] ∧ row.length ≤ intMax) (xs : List Value) :
    ((Value.array []).assignEach some 0 xs).bind (getInfoEach (fun t => appendRows (rowsOf t)) ts) =
      (Value.array []).assignEach some 0 (xs ++ ts.flatMap fun t => (rowsOf t).map .array) := by
  rw [assignEach_append]
  cases hFirst : (Value.array []).assignEach some 0 xs with
  | none => rfl
  | some next =>
    obtain ⟨ys, hys, rfl⟩ := @Value.assignEach_some _ _ _ [] _ hFirst
    have hLength : xs.length = ys.length := (mapM_eq_some_iff.mp hys).length_eq
    rw [Option.bind_some, Option.bind_some, List.nil_append, Nat.zero_add, hLength]
    exact getInfoEach_eq hRows ys

theorem getBusInfo_eq (node : TopicManager) :
    node.getBusInfo .invalid = (Value.array []).assignEach some 0
      (node.advertisedTopics.flatMap (fun p => p.subscriberLinks.map fun c => .array (c.infoRow p.name)) ++
        node.subscriptions.flatMap fun s => s.publisherLinks.map fun c => .array (c.infoRow s.name)) := by
  have hTopics := getInfoEach_behind (infoRows node).1 []
  have hSubscriptions := getInfoEach_behind (infoRows node).2
    (node.advertisedTopics.flatMap fun p => p.subscriberLinks.map fun c => .array (c.infoRow p.name))
  simp only [List.map_map] at hTopics hSubscriptions
  refine Eq.trans ?_ hSubscriptions
  exact congrArg (Option.bind · _) hTopics

theorem assigned_eq {xs : List Value} {v : Value} (h : (Value.array []).assignEach some 0 xs = some v) : v = .array xs := by
  obtain ⟨ys, hys, rfl⟩ := @Value.assignEach_some _ _ _ [] _ h
  have hSame : List.Forall₂ Eq xs ys := (mapM_eq_some_iff.mp hys).imp fun _ _ hEq => Option.some.inj hEq
  rw [List.forall₂_eq_eq_eq] at hSame
  rw [hSame, List.nil_append]

theorem respond_eq (status : Bytes) (get : Value → Option Value) :
    TopicManager.respond status get = (get .invalid).map fun response => .array [.int 1, .string status, response] := by
  have hStatus : (Value.array [.int 1]).assign 1 (.string status) = some (.array [.int 1, .string status]) := rfl
  have hResponse (response : Value) : (Value.array [.int 1, .string status]).assign 2 response =
      some (.array [.int 1, .string status, response]) := rfl
  rw [TopicManager.respond, Value.assign_invalid, Option.bind_some, hStatus, Option.bind_some]
  simp only [hResponse, Option.map_eq_bind]
  rfl

theorem callback_eq (node : TopicManager) {q : Query} (hQuery : q ≠ .getBusStats) :
    ∃ xs : List Value, q.payload node = .array xs ∧ q.callback node =
      ((Value.array []).assignEach some 0 xs).map fun response => .array [.int 1, .string q.status, response] := by
  have hPair (a b : Bytes) : Value.invalid.fill [.string a, .string b] = some (.array [.string a, .string b]) :=
    Value.fill_invalid (List.cons_ne_nil _ _) (by decide : 2 ≤ intMax)
  cases q with
  | getBusStats => exact absurd rfl hQuery
  | getBusInfo =>
    refine ⟨_, rfl, ?_⟩
    rw [← getBusInfo_eq]
    exact respond_eq [] _
  | getSubscriptions =>
    refine ⟨_, rfl, ?_⟩
    refine (respond_eq _ _).trans (congrArg (Option.map _) ?_)
    apply Value.assignEach_mapM
    exact mapM_eq_some_iff.mpr (List.forall₂_map_right_iff.mpr (List.forall₂_same.mpr fun s _ => hPair s.name s.datatype))
  | getPublications =>
    refine ⟨_, rfl, ?_⟩
    refine (respond_eq _ _).trans (congrArg (Option.map _) ?_)
    apply Value.assignEach_mapM
    exact mapM_eq_some_iff.mpr (List.forall₂_map_right_iff.mpr (List.forall₂_same.mpr fun p _ => hPair p.name p.dataType))

/-! ## Which answers are accepted -/

section

variable [DoubleText]

theorem SubscriberLink.statsRow_codable (c : SubscriberLink) : (Value.array c.statsRow).Codable := by
  apply Value.Codable.array
  simp only [statsRow, List.mem_cons, List.not_mem_nil, or_false, forall_eq_or_imp, forall_eq]
  exact ⟨.int _, .int _, .int _, .int _, .int _⟩

theorem PublisherLink.statsRow_codable (c : PublisherLink) : (Value.array c.statsRow).Codable := by
  apply Value.Codable.array
  simp only [statsRow, List.mem_cons, List.not_mem_nil, or_false, forall_eq_or_imp, forall_eq]
  exact ⟨.int _, .int _, .int _, .int _, .int _⟩

theorem SubscriberLink.infoRow_codable (topic : Bytes) (c : SubscriberLink) : (Value.array (c.infoRow topic)).Codable := by
  apply Value.Codable.array
  simp only [infoRow, List.mem_cons, List.not_mem_nil, or_false, forall_eq_or_imp, forall_eq]
  exact ⟨.int _, .string _, .string _, .string _, .string _, .boolean _, .string _⟩

theorem PublisherLink.infoRow_codable (topic : Bytes) (c : PublisherLink) : (Value.array (c.infoRow topic)).Codable := by
  apply Value.Codable.array
  simp only [infoRow, List.mem_cons, List.not_mem_nil, or_false, forall_eq_or_imp, forall_eq]
  exact ⟨.int _, .string _, .string _, .string _, .string _, .boolean _, .string _⟩

theorem pair_codable {v w : Value} (hv : v.Codable) (hw : w.Codable) : (Value.array [v, w]).Codable := by
  apply Value.Codable.array
  simp only [List.mem_cons, List.not_mem_nil, or_false, forall_eq_or_imp, forall_eq]
  exact ⟨hv, hw⟩

theorem codable_map {α : Type u} {f : α → Value} {as : List α} (h : ∀ a, (f a).Codable) :
    (Value.array (as.map f)).Codable := by
  refine .array fun v hv => ?_
  obtain ⟨a, -, rfl⟩ := List.mem_map.mp hv
  exact h a

theorem answer_codable (node : TopicManager) {q : Query} (hQuery : q ≠ .getBusStats) : (q.answer node).Codable := by
  have hAnswer {v : Value} (hv : v.Codable) : (Value.array [.int 1, .string q.status, v]).Codable := by
    apply Value.Codable.array
    simp only [List.mem_cons, List.not_mem_nil, or_false, forall_eq_or_imp, forall_eq]
    exact ⟨.int _, .string _, hv⟩
  apply hAnswer
  cases q with
  | getBusStats => exact absurd rfl hQuery
  | getBusInfo =>
    refine .array fun v hv => ?_
    obtain hTopic | hSubscription := List.mem_append.mp hv
    · obtain ⟨p, -, hRow⟩ := List.mem_flatMap.mp hTopic
      obtain ⟨c, -, rfl⟩ := List.mem_map.mp hRow
      exact c.infoRow_codable p.name
    · obtain ⟨s, -, hRow⟩ := List.mem_flatMap.mp hSubscription
      obtain ⟨c, -, rfl⟩ := List.mem_map.mp hRow
      exact c.infoRow_codable s.name
  | getSubscriptions => exact codable_map fun s => pair_codable (.string _) (.string _)
  | getPublications => exact codable_map fun p => pair_codable (.string _) (.string _)

theorem getBusStatsCallback_eq {node : TopicManager} {result : Value} (h : node.getBusStatsCallback = some result) :
    ∃ publishStats subscribeStats : List Value, (Value.array [.array publishStats, .array subscribeStats]).Codable ∧
      result = .array [.array publishStats, .array subscribeStats, .invalid] := by
  obtain ⟨first, hFirst, h⟩ := Option.bind_eq_some_iff.mp h
  obtain ⟨second, hSecond, h⟩ := Option.bind_eq_some_iff.mp h
  obtain ⟨stats, hStats, hLast⟩ := Option.bind_eq_some_iff.mp h
  cases hFirst
  cases hSecond
  obtain ⟨start, hStart, hStats⟩ := Option.bind_eq_some_iff.mp hStats
  obtain ⟨_, hStart', hStats⟩ := Option.bind_eq_some_iff.mp hStats
  obtain ⟨_, hStart'', hStats⟩ := Option.bind_eq_some_iff.mp hStats
  cases hStart
  cases hStart'
  cases hStart''
  obtain ⟨publishStats, hPublish, hStats⟩ := Option.bind_eq_some_iff.mp hStats
  obtain ⟨subscribeStats, hSubscribe, hStats⟩ := Option.bind_eq_some_iff.mp hStats
  obtain ⟨ps, hps, rfl⟩ := @Value.assignEach_some _ _ _ [] _ hPublish
  obtain ⟨ss, hss, rfl⟩ := @Value.assignEach_some _ _ _ [] _ hSubscribe
  obtain ⟨_, hZero, hStats⟩ := Option.bind_eq_some_iff.mp hStats
  obtain ⟨_, hOne, hTwo⟩ := Option.bind_eq_some_iff.mp hStats
  cases hZero
  cases hOne
  cases hTwo
  cases hLast
  refine ⟨ps, ss, pair_codable (.array fun v hv => ?_) (.array fun v hv => ?_), rfl⟩
  · obtain ⟨p, -, hp⟩ := exists_left_of_forall₂ (mapM_eq_some_iff.mp hps) hv
    rw [Publication.getStats_eq hp]
    exact pair_codable (.string _) (codable_map SubscriberLink.statsRow_codable)
  · obtain ⟨s, -, hs⟩ := exists_left_of_forall₂ (mapM_eq_some_iff.mp hss) hv
    rw [Subscription.getStats_eq hs]
    exact pair_codable (.string _) (codable_map PublisherLink.statsRow_codable)

theorem not_wellFormed_getBusStats (node : TopicManager) : ¬ Query.getBusStats.WellFormed node := by
  rintro ⟨result, value, offset, hCallback, hRead, hValid⟩
  obtain ⟨ps, ss, hCodable, rfl⟩ := getBusStatsCallback_eq hCallback
  -- The invalid element leaves nothing in the text.
  have hText : (Value.array [.array ps, .array ss, .invalid]).toXml = (Value.array [.array ps, .array ss]).toXml := by
    simp only [Value.toXml, elementsToXml, List.append_nil]
  rw [hText] at hRead
  rcases Nat.lt_or_ge intMax (Value.array [.array ps, .array ss]).toXml.length with hLong | hShort
  · rw [fromXml_overlong hLong] at hRead
    cases hRead
  · rw [fromXml_of_codable hCodable hShort] at hRead
    cases hRead
    cases hValid

theorem length_le_answer {xs : List Value} {status : Bytes} (h : (Value.array [.int 1, .string status, .array xs]).Codable) :
    xs.length ≤ (Value.array [.int 1, .string status, .array xs]).toXml.length := by
  have hElements : ∀ v ∈ xs, v.Codable := by
    cases h with
    | array hAll =>
      cases hAll (.array xs) (by simp) with
      | array hInner => exact hInner
  have hCount := length_le_elementsToXml hElements
  have hInner := elementsToXml_length_le xs
  have hOuter := elementsToXml_length_le [.int 1, .string status, .array xs]
  simp only [elementsToXml, List.length_append] at hOuter
  omega

theorem introspection_wellFormed_iff (node : TopicManager) (q : Query) :
    q.WellFormed node ↔ q ≠ .getBusStats ∧ (q.answer node).toXml.length ≤ intMax := by
  constructor
  · intro h
    have hQuery : q ≠ .getBusStats := by
      rintro rfl
      exact not_wellFormed_getBusStats node h
    refine ⟨hQuery, ?_⟩
    obtain ⟨result, value, offset, hCallback, hRead, -⟩ := h
    obtain ⟨xs, hPayload, hEq⟩ := callback_eq node hQuery
    rw [hEq] at hCallback
    obtain ⟨response, hResponse, rfl⟩ := Option.map_eq_some_iff.mp hCallback
    rw [assigned_eq hResponse, ← hPayload] at hRead
    change fromXml (q.answer node).toXml 0 = _ at hRead
    by_contra hLong
    rw [fromXml_overlong (Nat.lt_of_not_le hLong)] at hRead
    cases hRead
  · rintro ⟨hQuery, hLength⟩
    obtain ⟨xs, hPayload, hEq⟩ := callback_eq node hQuery
    have hCodable := answer_codable node hQuery
    have hRead := fromXml_of_codable hCodable hLength
    rw [Query.answer, hPayload] at hCodable hLength
    have hCount := (length_le_answer hCodable).trans hLength
    have hAssigned := @Value.assignEach_eq xs [] [] (Nat.zero_le _) (by rwa [List.length_nil, Nat.zero_add])
    have hResult : q.callback node = some (q.answer node) := by
      rw [hEq, Query.answer, hPayload]
      exact congrArg (Option.map _) hAssigned
    exact ⟨_, _, _, hResult, hRead, rfl⟩

end

def sample : TopicManager where
  advertisedTopics := []
  subscriptions := [⟨bytes "/chatter", bytes "std_msgs/String", [
    ⟨1, bytes "http://a:1/", bytes "TCPROS", [], 10, 1, 0⟩, ⟨2, bytes "http://b:1/", bytes "TCPROS", [], 20, 2, 0⟩]⟩]

theorem getBusStats_refused : ¬ @Query.WellFormed noDoubles sample .getBusStats ∧
    (Query.getBusStats.callback sample).bind (@validateXmlrpcResponse noDoubles) = none ∧
    sample.subscriptions.map Subscription.getStats =
      [some (.array [.string (bytes "/chatter"), .array [.array [.int 2, .int 20, .int 2, .int 0, .int 0]]])] :=
  ⟨@not_wellFormed_getBusStats noDoubles sample, rfl, rfl⟩

end XcRos.Libros.SlaveApi
