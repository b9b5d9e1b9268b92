import XcRos.Foundation.Machine
import XcRos.Foundation.Outcome
import XcRos.Rostime.Seconds
import XcRos.Rpc.Util
import XcRos.Serialization.Serializer

/-! # Statistics of a subscription

`StatisticsLogger::callback`, which `Subscription::handleMessage` calls between the callbacks and the latched message.
Floating-point numbers are taken as exact. Nothing but the end of the header and the deviation of the ages is caught.
-/

namespace XcRos.Libros.Statistics

open XcRos.Foundation XcRos.Rostime
open XcRos.Rpc (bytes)
open XcRos.Serialization (Bytes Ty Fields)

/-! ## The logger -/

structure StatData where
  lastPublish : TimeBase
  arrivalTimeList : List TimeBase
  ageList : List DurationBase
  droppedMsgs : UInt64
  lastSeq : UInt64
  statBytesLast : UInt64

structure TopicStatistics where
  topic : Bytes
  nodePub : Bytes
  nodeSub : Bytes
  windowStart : TimeBase
  windowStop : TimeBase
  deliveredMsgs : Int32
  droppedMsgs : Int32
  traffic : Int32
  periodMean : DurationBase
  periodStddev : DurationBase
  periodMax : DurationBase
  stampAgeMean : DurationBase
  stampAgeStddev : DurationBase
  stampAgeMax : DurationBase

/-- The parameters that `init` reads. -/
structure Params where
  enableStatistics : Bool
  minElements : Int32
  maxElements : Int32
  minWindow : Int32
  maxWindow : Int32

/-- Kept beside: what `pub_` has published. -/
structure StatisticsLogger where
  params : Params
  hasHeader : Bool
  pubFrequency : ℚ
  published : List TopicStatistics
  map : Bytes → Option StatData

/-- What `callback` is told of a message; `bytes` is the message from its start, and `now` the clock. -/
structure Arrival where
  callerid : Bytes
  bytes : Bytes
  bytesSent : UInt64
  now : TimeBase
  receivedTime : TimeBase
  dropped : Bool

def ignored (topic : Bytes) : Bool := topic = bytes "/statistics" ∨ topic = bytes "/clock"

namespace StatisticsLogger

def init (l : StatisticsLogger) (params : Params) (hasHeader : Bool) : StatisticsLogger :=
  { l with params := params, hasHeader := hasHeader }

/-- `std_msgs::Header` -/
def headerType : Ty :=
  .message (.cons (.simple (.prim .uint32)) (.cons (.simple .time) (.cons .string .nil)))

def stamp (l : StatisticsLogger) (bytes : Bytes) : Option TimeBase :=
  if l.hasHeader then (headerType.read bytes).map fun (header, _) => ⟨header.2.1.sec, header.2.1.nsec⟩ else none

def stored (l : StatisticsLogger) (a : Arrival) : StatData :=
  (l.map a.callerid).getD ⟨a.now, [], [], 0, 0, 0⟩

def age (l : StatisticsLogger) (a : Arrival) : Except String (List DurationBase) :=
  match l.stamp a.bytes with
  | none => .ok []
  | some stamp => if stamp.isZero then .ok [] else (a.receivedTime.sub stamp).map fun age => [age]

end StatisticsLogger

/-! ## Mean, deviation and maximum -/

def sumAges : List DurationBase → DurationBase → DurationBase → Except String (DurationBase × DurationBase)
  | [], sum, max => .ok (sum, max)
  | age :: ages, sum, max => (sum.addAssign age).bind fun sum => sumAges ages sum (if max.lt age then age else max)

def ageVariance (mean : DurationBase) : List DurationBase → ℚ → Except String ℚ
  | [], variance => .ok variance
  | age :: ages, variance => (mean.sub age).bind fun t => ageVariance mean ages (variance + t.toSec * t.toSec)

def measureAges (ages : List DurationBase) : Except String (DurationBase × DurationBase × DurationBase) :=
  if ages.length = 0 then .ok (.zero, .zero, .zero)
  else
    (sumAges ages .zero .zero).bind fun (sum, max) => (sum.mulAssign (1 / ages.length)).bind fun mean =>
      (ageVariance mean ages 0).map fun variance =>
        match DurationBase.fromSqrt (variance / ages.length) with
        | .ok stddev => (mean, stddev, max)
        | .error _ => (mean, .zero, max)

/-- The first loop over the arrivals behind `prev`. -/
def sumPeriods : List TimeBase → TimeBase → DurationBase → DurationBase → Except String (DurationBase × DurationBase)
  | [], _, sum, max => .ok (sum, max)
  | it :: times, prev, sum, max =>
    (it.sub prev).bind fun period => (sum.addAssign period).bind fun sum =>
      sumPeriods times it sum (if max.lt period then period else max)

def periodVariance (mean : DurationBase) : List TimeBase → TimeBase → ℚ → Except String ℚ
  | [], _, variance => .ok variance
  | it :: times, prev, variance =>
    (it.sub prev).bind fun period => (mean.sub period).bind fun t =>
      periodVariance mean times it (variance + t.toSec * t.toSec)

def measurePeriods : List TimeBase → Except String (DurationBase × DurationBase × DurationBase)
  | [] | [_] => .ok (.zero, .zero, .zero)
  | first :: second :: times =>
    (sumPeriods (second :: times) first .zero .zero).bind fun (sum, max) =>
      (sum.mulAssign (1 / (second :: times).length)).bind fun mean =>
        (periodVariance mean (second :: times) first 0).bind fun variance =>
          (DurationBase.fromSqrt (variance / (second :: times).length)).map fun stddev => (mean, stddev, max)

/-! ## `callback` -/

namespace StatisticsLogger

def windowMessage (nodeName topic : Bytes) (stats : StatData) (a : Arrival) : Except String TopicStatistics :=
  (measureAges stats.ageList).bind fun (ageMean, ageStddev, ageMax) =>
    (measurePeriods stats.arrivalTimeList).map fun (periodMean, periodStddev, periodMax) =>
      { topic := topic
        nodePub := a.callerid
        nodeSub := nodeName
        windowStart := stats.lastPublish
        windowStop := a.receivedTime
        deliveredMsgs := .ofNat stats.arrivalTimeList.length
        droppedMsgs := stats.droppedMsgs.toUInt32.toInt32
        traffic := (a.bytesSent - stats.statBytesLast).toUInt32.toInt32
        periodMean := periodMean
        periodStddev := periodStddev
        periodMax := periodMax
        stampAgeMean := ageMean
        stampAgeStddev := ageStddev
        stampAgeMax := ageMax }

/-- The two steps of the dynamic window. An `int` becomes a `size_t` for the comparison. -/
def widen (l : StatisticsLogger) (size : Nat) : ℚ :=
  if l.params.maxElements.toInt64.toUInt64 < .ofNat size ∧ l.pubFrequency * 2 ≤ l.params.maxWindow.toInt then
    l.pubFrequency * 2
  else l.pubFrequency

def resize (l : StatisticsLogger) (size : Nat) : ℚ :=
  if .ofNat size < l.params.minElements.toInt64.toUInt64 ∧ (l.params.minWindow.toInt : ℚ) ≤ l.widen size / 2 then
    l.widen size / 2
  else l.widen size

def callback (l : StatisticsLogger) (nodeName topic : Bytes) (a : Arrival) : Except String StatisticsLogger :=
  if !l.params.enableStatistics || ignored topic then .ok l
  else
    (l.age a).bind fun ages =>
      let stats := l.stored a
      let stats := { stats with
        arrivalTimeList := stats.arrivalTimeList ++ [a.receivedTime]
        droppedMsgs := if a.dropped then stats.droppedMsgs + 1 else stats.droppedMsgs
        ageList := stats.ageList ++ ages }
      let hasHeader := l.hasHeader && (l.stamp a.bytes).isSome
      (DurationBase.fromSec l.pubFrequency).bind fun frequency => (stats.lastPublish.add frequency).bind fun due =>
        if due.lt a.receivedTime then
          (windowMessage nodeName topic stats a).map fun msg =>
            { l with
              hasHeader := hasHeader
              pubFrequency := l.resize stats.arrivalTimeList.length
              published := l.published ++ [msg]
              map := Function.update l.map a.callerid (some { stats with
                lastPublish := a.receivedTime
                ageList := []
                arrivalTimeList := []
                droppedMsgs := 0
                statBytesLast := a.bytesSent }) }
        else .ok { l with hasHeader := hasHeader, map := Function.update l.map a.callerid (some stats) }

end StatisticsLogger

/-! ## `handleMessage` -/

structure LatchInfo where
  link : Nat
  message : Bytes
  receiptTime : TimeBase
deriving DecidableEq

structure Subscription where
  name : Bytes
  statistics : StatisticsLogger
  latchedMessages : Nat → Option LatchInfo

/-- A message on a link, the clock, and for each callback that takes the message whether its queue was full. -/
structure Delivery where
  link : Nat
  latched : Bool
  callerid : Bytes
  bytesReceived : UInt64
  message : Bytes
  receiptTime : TimeBase
  now : TimeBase
  wasFull : List Bool

def Delivery.drops (d : Delivery) : UInt32 := .ofNat (d.wasFull.count true)

def Delivery.arrival (d : Delivery) : Arrival where
  callerid := d.callerid
  bytes := d.message
  bytesSent := d.bytesReceived
  now := d.now
  receivedTime := d.receiptTime
  dropped := 0 < d.drops

def Subscription.handleMessage (s : Subscription) (nodeName : Bytes) (d : Delivery) :
    Except String (UInt32 × Subscription) :=
  (s.statistics.callback nodeName s.name d.arrival).map fun statistics =>
    (d.drops, { s with
      statistics := statistics
      latchedMessages :=
        if d.latched then Function.update s.latchedMessages d.link (some ⟨d.link, d.message, d.receiptTime⟩)
        else s.latchedMessages })

/-! ## When the arithmetic is in range -/

def SumsFit : Int → List Int → Prop
  | _, [] => True
  | sum, x :: xs => Fits (sum + x) ∧ SumsFit (sum + x) xs

def meanSec (xs : List Int) : ℚ := (xs.sum : ℚ) / 1000000000 * (1 / xs.length)

def deviation (xs : List Int) (x : Int) : Int := DurationBase.nsOfSec (meanSec xs) - x

def spread (xs : List Int) : ℚ := (xs.map fun x => ((deviation xs x : ℚ) / 1000000000) ^ 2).sum / xs.length

structure MeanFits (xs : List Int) : Prop where
  sums : SumsFit 0 xs
  mean : -2147483648 ≤ meanSec xs ∧ meanSec xs < 2147483648
  deviations : ∀ x ∈ xs, Fits (deviation xs x)

def periodsFrom : TimeBase → List TimeBase → List Int
  | _, [] => []
  | prev, it :: times => (it.ns - prev.ns) :: periodsFrom it times

def periods : List TimeBase → List Int
  | [] => []
  | first :: times => periodsFrom first times

structure PeriodsFit (times : List TimeBase) : Prop where
  each : ∀ period ∈ periods times, Fits period
  mean : MeanFits (periods times)
  spread : spread (periods times) < 2147483648 ^ 2

section

variable (l : StatisticsLogger) (a : Arrival)

def dueNs : Int := (l.stored a).lastPublish.ns + DurationBase.nsOfSec l.pubFrequency

/-- Due in an earlier second, or in the same second and at an earlier nanosecond. -/
def Due : Prop :=
  dueNs l a / 1000000000 < a.receivedTime.sec.toNat ∨
    dueNs l a / 1000000000 = a.receivedTime.sec.toNat ∧ dueNs l a % 1000000000 < a.receivedTime.nsec.toNat

def newAge : List Int :=
  match l.stamp a.bytes with
  | none => []
  | some stamp => if stamp.isZero then [] else [a.receivedTime.ns - stamp.ns]

/-- The age of the message fits, the end of the window is a time, and what is measured at the end fits. -/
structure InRange : Prop where
  age : ∀ age ∈ newAge l a, Fits age
  due : dueNs l a < 4294967296 * 1000000000
  ages : Due l a → MeanFits ((l.stored a).ageList.map DurationBase.ns ++ newAge l a)
  periods : Due l a → PeriodsFit ((l.stored a).arrivalTimeList ++ [a.receivedTime])

end

/-! ## The measurements -/

theorem exists_sumAges_iff {ages : List DurationBase} {sum max : DurationBase} :
    (∃ r, sumAges ages sum max = .ok r) ↔ SumsFit sum.ns (ages.map DurationBase.ns) := by
  induction ages generalizing sum max with
  | nil => exact ⟨fun _ => trivial, fun _ => ⟨_, rfl⟩⟩
  | cons age ages ih =>
    rw [sumAges, exists_bind_iff, List.map_cons, SumsFit, ← DurationBase.exists_addAssign_iff]
    constructor
    · rintro ⟨next, hNext, hRest⟩
      refine ⟨⟨next, hNext⟩, ?_⟩
      rw [← DurationBase.ns_of_addAssign hNext]
      exact ih.mp hRest
    · rintro ⟨⟨next, hNext⟩, hRest⟩
      rw [← DurationBase.ns_of_addAssign hNext] at hRest
      exact ⟨next, hNext, ih.mpr hRest⟩

theorem ns_of_sumAges {ages : List DurationBase} {sum max sum' max' : DurationBase}
    (h : sumAges ages sum max = .ok (sum', max')) : sum'.ns = sum.ns + (ages.map DurationBase.ns).sum := by
  induction ages generalizing sum max with
  | nil =>
    cases h
    rw [List.map_nil, List.sum_nil, Int.add_zero]
  | cons age ages ih =>
    obtain ⟨next, hNext, hRest⟩ := exists_of_bind h
    rw [ih hRest, DurationBase.ns_of_addAssign hNext, List.map_cons, List.sum_cons, Int.add_assoc]

theorem exists_ageVariance_iff {mean : DurationBase} {ages : List DurationBase} {variance : ℚ} :
    (∃ r, ageVariance mean ages variance = .ok r) ↔ ∀ age ∈ ages.map DurationBase.ns, Fits (mean.ns - age) := by
  induction ages generalizing variance with
  | nil => exact ⟨(fun _ _ h => by cases h), fun _ => ⟨_, rfl⟩⟩
  | cons age ages ih =>
    rw [ageVariance, exists_bind_iff, List.map_cons, List.forall_mem_cons, ← DurationBase.exists_sub_iff]
    constructor
    · rintro ⟨t, ht, hRest⟩
      exact ⟨⟨t, ht⟩, ih.mp hRest⟩
    · rintro ⟨⟨t, ht⟩, hRest⟩
      exact ⟨t, ht, ih.mpr hRest⟩

theorem ns_zero : DurationBase.zero.ns = 0 := rfl

theorem meanFits_nil : MeanFits [] where
  sums := trivial
  mean := by norm_num [meanSec]
  deviations _ h := by cases h

theorem exists_measureAges_iff {ages : List DurationBase} :
    (∃ r, measureAges ages = .ok r) ↔ MeanFits (ages.map DurationBase.ns) := by
  rw [measureAges]
  split
  · rename_i hEmpty
    rw [List.eq_nil_of_length_eq_zero hEmpty]
    exact ⟨fun _ => meanFits_nil, fun _ => ⟨_, rfl⟩⟩
  · rw [exists_bind_iff]
    have hMean : ∀ {sum max : DurationBase}, sumAges ages .zero .zero = .ok (sum, max) →
        sum.toSec * (1 / ages.length) = meanSec (ages.map DurationBase.ns) := by
      intro sum max hSum
      rw [DurationBase.toSec_eq, ns_of_sumAges hSum, ns_zero, Int.zero_add, meanSec, List.length_map]
    constructor
    · rintro ⟨⟨sum, max⟩, hSum, hRest⟩
      obtain ⟨mean, hNext, hRest⟩ := exists_bind_iff.mp hRest
      rw [DurationBase.mulAssign, hMean hSum] at hNext
      refine ⟨?_, DurationBase.exists_fromSec_iff.mp ⟨_, hNext⟩, ?_⟩
      · rw [← ns_zero]
        exact exists_sumAges_iff.mp ⟨_, hSum⟩
      · have hDeviations := exists_ageVariance_iff.mp (exists_map_iff.mp hRest)
        rwa [DurationBase.ns_of_fromSec hNext] at hDeviations
    · rintro ⟨hSums, hRange, hDeviations⟩
      rw [← ns_zero] at hSums
      obtain ⟨⟨sum, max⟩, hSum⟩ := (@exists_sumAges_iff _ _ .zero).mpr hSums
      obtain ⟨mean, hNext⟩ := DurationBase.exists_fromSec_iff.mpr hRange
      refine ⟨_, hSum, exists_bind_iff.mpr ⟨mean, ?_, exists_map_iff.mpr (exists_ageVariance_iff.mpr ?_)⟩⟩
      · rw [DurationBase.mulAssign, hMean hSum]
        exact hNext
      · rw [DurationBase.ns_of_fromSec hNext]
        exact hDeviations

theorem exists_sumPeriods_iff {times : List TimeBase} {prev : TimeBase} {sum max : DurationBase} :
    (∃ r, sumPeriods times prev sum max = .ok r) ↔
      (∀ period ∈ periodsFrom prev times, Fits period) ∧ SumsFit sum.ns (periodsFrom prev times) := by
  induction times generalizing prev sum max with
  | nil => exact ⟨fun _ => ⟨(fun _ h => by cases h), trivial⟩, fun _ => ⟨_, rfl⟩⟩
  | cons it times ih =>
    rw [sumPeriods, exists_bind_iff, periodsFrom, List.forall_mem_cons, SumsFit, ← TimeBase.exists_sub_iff]
    constructor
    · rintro ⟨period, hPeriod, hRest⟩
      obtain ⟨next, hNext, hRest⟩ := exists_bind_iff.mp hRest
      obtain ⟨hEach, hSums⟩ := ih.mp hRest
      rw [DurationBase.ns_of_addAssign hNext] at hSums
      have hFits := DurationBase.exists_addAssign_iff.mp ⟨_, hNext⟩
      rw [TimeBase.ns_of_sub hPeriod] at hSums hFits
      exact ⟨⟨⟨period, hPeriod⟩, hEach⟩, hFits, hSums⟩
    · rintro ⟨⟨⟨period, hPeriod⟩, hEach⟩, hFits, hSums⟩
      rw [← TimeBase.ns_of_sub hPeriod] at hSums hFits
      obtain ⟨next, hNext⟩ := DurationBase.exists_addAssign_iff.mpr hFits
      rw [← DurationBase.ns_of_addAssign hNext] at hSums
      exact ⟨period, hPeriod, exists_bind_iff.mpr ⟨next, hNext, ih.mpr ⟨hEach, hSums⟩⟩⟩

theorem ns_of_sumPeriods {times : List TimeBase} {prev : TimeBase} {sum max sum' max' : DurationBase}
    (h : sumPeriods times prev sum max = .ok (sum', max')) : sum'.ns = sum.ns + (periodsFrom prev times).sum := by
  induction times generalizing prev sum max with
  | nil =>
    cases h
    rw [periodsFrom, List.sum_nil, Int.add_zero]
  | cons it times ih =>
    obtain ⟨period, hPeriod, hRest⟩ := exists_of_bind h
    obtain ⟨next, hNext, hRest⟩ := exists_of_bind hRest
    rw [ih hRest, DurationBase.ns_of_addAssign hNext, TimeBase.ns_of_sub hPeriod, periodsFrom, List.sum_cons,
      Int.add_assoc]

theorem exists_periodVariance_iff {mean : DurationBase} {times : List TimeBase} {prev : TimeBase} {variance : ℚ}
    (hEach : ∀ period ∈ periodsFrom prev times, Fits period) :
    (∃ r, periodVariance mean times prev variance = .ok r) ↔
      ∀ period ∈ periodsFrom prev times, Fits (mean.ns - period) := by
  induction times generalizing prev variance with
  | nil => exact ⟨(fun _ _ h => by cases h), fun _ => ⟨_, rfl⟩⟩
  | cons it times ih =>
    rw [periodsFrom, List.forall_mem_cons] at hEach
    obtain ⟨period, hPeriod⟩ := TimeBase.exists_sub_iff.mpr hEach.1
    rw [periodVariance, exists_bind_iff, periodsFrom, List.forall_mem_cons, ← TimeBase.ns_of_sub hPeriod,
      ← DurationBase.exists_sub_iff]
    constructor
    · rintro ⟨period', hPeriod', hRest⟩
      obtain rfl := Except.ok.inj (hPeriod'.symm.trans hPeriod)
      obtain ⟨t, ht, hRest⟩ := exists_bind_iff.mp hRest
      exact ⟨⟨t, ht⟩, (ih hEach.2).mp hRest⟩
    · rintro ⟨⟨t, ht⟩, hRest⟩
      exact ⟨period, hPeriod, exists_bind_iff.mpr ⟨t, ht, (ih hEach.2).mpr hRest⟩⟩

theorem of_periodVariance {mean : DurationBase} {times : List TimeBase} {prev : TimeBase} {variance variance' : ℚ}
    (h : periodVariance mean times prev variance = .ok variance') : variance' = variance +
      ((periodsFrom prev times).map fun period => (((mean.ns - period : Int) : ℚ) / 1000000000) ^ 2).sum := by
  induction times generalizing prev variance with
  | nil =>
    cases h
    rw [periodsFrom, List.map_nil, List.sum_nil, add_zero]
  | cons it times ih =>
    obtain ⟨period, hPeriod, hRest⟩ := exists_of_bind h
    obtain ⟨t, ht, hRest⟩ := exists_of_bind hRest
    rw [ih hRest, periodsFrom, List.map_cons, List.sum_cons, DurationBase.toSec_eq, DurationBase.ns_of_sub ht,
      TimeBase.ns_of_sub hPeriod, add_assoc, pow_two]

theorem length_periodsFrom (prev : TimeBase) (times : List TimeBase) :
    (periodsFrom prev times).length = times.length := by
  induction times generalizing prev with
  | nil => rfl
  | cons it times ih => rw [periodsFrom, List.length_cons, ih, List.length_cons]

theorem spread_nonneg (xs : List Int) : 0 ≤ spread xs := by
  refine div_nonneg (List.sum_nonneg ?_) (Nat.cast_nonneg _)
  intro x hx
  obtain ⟨_, _, rfl⟩ := List.mem_map.mp hx
  exact sq_nonneg _

theorem periodsFit_of_length_le_one {times : List TimeBase} (h : periods times = []) : PeriodsFit times where
  each _ hMem := by
    rw [h] at hMem
    cases hMem
  mean := h ▸ meanFits_nil
  spread := by
    rw [h]
    norm_num [spread]

theorem exists_measurePeriods_iff {times : List TimeBase} :
    (∃ r, measurePeriods times = .ok r) ↔ PeriodsFit times := by
  rw [measurePeriods.eq_def]
  split
  · exact ⟨fun _ => periodsFit_of_length_le_one rfl, fun _ => ⟨_, rfl⟩⟩
  · exact ⟨fun _ => periodsFit_of_length_le_one rfl, fun _ => ⟨_, rfl⟩⟩
  · rename_i first second times
    have hPeriods : periods (first :: second :: times) = periodsFrom first (second :: times) := rfl
    generalize second :: times = times at hPeriods ⊢
    have hMean : ∀ {sum max : DurationBase}, sumPeriods times first .zero .zero = .ok (sum, max) →
        sum.toSec * (1 / times.length) = meanSec (periods (first :: times)) := by
      intro sum max hSum
      rw [DurationBase.toSec_eq, ns_of_sumPeriods hSum, ns_zero, Int.zero_add, meanSec, hPeriods, length_periodsFrom]
    have hSpread : ∀ {mean : DurationBase} {variance : ℚ}, mean.ns = DurationBase.nsOfSec (meanSec (periods (first :: times))) →
        periodVariance mean times first 0 = .ok variance → variance / times.length = spread (periods (first :: times)) := by
      intro mean variance hNs hVariance
      rw [of_periodVariance hVariance, zero_add, hNs, spread, hPeriods, length_periodsFrom]
      rfl
    rw [exists_bind_iff]
    constructor
    · rintro ⟨⟨sum, max⟩, hSum, hRest⟩
      obtain ⟨hEach, hSums⟩ := exists_sumPeriods_iff.mp ⟨_, hSum⟩
      obtain ⟨mean, hNext, hRest⟩ := exists_bind_iff.mp hRest
      rw [DurationBase.mulAssign, hMean hSum] at hNext
      have hNs := DurationBase.ns_of_fromSec hNext
      obtain ⟨variance, hVariance, hRest⟩ := exists_bind_iff.mp hRest
      have hDeviations := (exists_periodVariance_iff hEach).mp ⟨_, hVariance⟩
      have hStddev := exists_map_iff.mp hRest
      rw [hSpread hNs hVariance, DurationBase.exists_fromSqrt_iff (spread_nonneg _)] at hStddev
      rw [hNs] at hDeviations
      exact ⟨hEach, ⟨hSums, DurationBase.exists_fromSec_iff.mp ⟨_, hNext⟩, hDeviations⟩, hStddev⟩
    · rintro ⟨hEach, ⟨hSums, hRange, hDeviations⟩, hStddev⟩
      rw [← ns_zero] at hSums
      obtain ⟨⟨sum, max⟩, hSum⟩ := (@exists_sumPeriods_iff _ _ _ .zero).mpr ⟨hEach, hSums⟩
      obtain ⟨mean, hNext⟩ := DurationBase.exists_fromSec_iff.mpr hRange
      have hNs := DurationBase.ns_of_fromSec hNext
      obtain ⟨variance, hVariance⟩ := (@exists_periodVariance_iff mean _ _ 0 hEach).mpr (by rw [hNs]; exact hDeviations)
      refine ⟨_, hSum, exists_bind_iff.mpr ⟨mean, ?_, exists_bind_iff.mpr ⟨variance, hVariance, ?_⟩⟩⟩
      · rw [DurationBase.mulAssign, hMean hSum]
        exact hNext
      · rw [exists_map_iff, hSpread hNs hVariance, DurationBase.exists_fromSqrt_iff (spread_nonneg _)]
        exact hStddev

/-! ## What `callback` does -/

section

variable {l l' : StatisticsLogger} {a : Arrival} {nodeName topic : Bytes}

def FrequencyFits (l : StatisticsLogger) : Prop := 0 ≤ l.pubFrequency ∧ l.pubFrequency < 2147483648

theorem exists_age_iff : (∃ ages, l.age a = .ok ages) ↔ ∀ age ∈ newAge l a, Fits age := by
  rw [StatisticsLogger.age, newAge]
  split
  · exact ⟨(fun _ _ h => by cases h), fun _ => ⟨_, rfl⟩⟩
  · split
    · exact ⟨(fun _ _ h => by cases h), fun _ => ⟨_, rfl⟩⟩
    · rw [exists_map_iff, TimeBase.exists_sub_iff, List.forall_mem_singleton]

theorem map_ns_of_age {ages : List DurationBase} (h : l.age a = .ok ages) :
    ages.map DurationBase.ns = newAge l a := by
  rw [StatisticsLogger.age] at h
  rw [newAge]
  split at h
  · cases h
    rfl
  · split at h
    · rename_i hZero
      cases h
      rw [if_pos hZero]
      rfl
    · rename_i hZero
      obtain ⟨age, hAge, rfl⟩ := exists_of_map h
      rw [if_neg hZero, List.map_singleton, TimeBase.ns_of_sub hAge]

theorem nsOfSec_nonneg {d : ℚ} (h : 0 ≤ d) : 0 ≤ DurationBase.nsOfSec d := by
  have hFloor : 0 ≤ d.floor := Rat.le_floor_iff.mpr (by exact_mod_cast h)
  have hFraction := (DurationBase.fraction_bounds d).1
  rw [DurationBase.nsOfSec]
  omega

theorem exists_due_iff (hFrequency : FrequencyFits l) :
    (∃ frequency, DurationBase.fromSec l.pubFrequency = .ok frequency ∧
      ∃ due, (l.stored a).lastPublish.add frequency = .ok due) ↔ dueNs l a < 4294967296 * 1000000000 := by
  have hLow := ((l.stored a).lastPublish.ns_bounds).1
  have hNonneg := nsOfSec_nonneg hFrequency.1
  have hRange : -2147483648 ≤ l.pubFrequency ∧ l.pubFrequency < 2147483648 :=
    ⟨le_trans (by norm_num) hFrequency.1, hFrequency.2⟩
  obtain ⟨frequency, hSec⟩ := DurationBase.exists_fromSec_iff.mpr hRange
  have hAdd := ((l.stored a).lastPublish.of_add frequency).1
  rw [DurationBase.ns_of_fromSec hSec] at hAdd
  rw [dueNs]
  constructor
  · rintro ⟨frequency', hSec', hDue⟩
    obtain rfl := Except.ok.inj (hSec'.symm.trans hSec)
    exact (hAdd.mp hDue).2
  · exact fun h => ⟨frequency, hSec, hAdd.mpr ⟨by omega, h⟩⟩

theorem due_iff {frequency : DurationBase} {due : TimeBase} (hSec : DurationBase.fromSec l.pubFrequency = .ok frequency)
    (hAdd : (l.stored a).lastPublish.add frequency = .ok due) : due.lt a.receivedTime = true ↔ Due l a := by
  obtain ⟨hNs, hNsec⟩ := ((l.stored a).lastPublish.of_add frequency).2 due hAdd
  rw [DurationBase.ns_of_fromSec hSec] at hNs
  have hSum : dueNs l a = due.sec.toNat * 1000000000 + due.nsec.toNat := hNs.symm
  rw [Due, hSum, TimeBase.lt_iff]
  omega

theorem exists_windowMessage_iff {stats : StatData} : (∃ msg, StatisticsLogger.windowMessage nodeName topic stats a = .ok msg) ↔
    MeanFits (stats.ageList.map DurationBase.ns) ∧ PeriodsFit stats.arrivalTimeList := by
  rw [StatisticsLogger.windowMessage, exists_bind_iff, ← exists_measureAges_iff, ← exists_measurePeriods_iff]
  constructor
  · rintro ⟨r, hAges, hRest⟩
    exact ⟨⟨r, hAges⟩, exists_map_iff.mp hRest⟩
  · rintro ⟨⟨r, hAges⟩, hPeriods⟩
    exact ⟨r, hAges, exists_map_iff.mpr hPeriods⟩

theorem exists_callback_iff (hOn : l.params.enableStatistics = true) (hTopic : ignored topic = false)
    (hFrequency : FrequencyFits l) : (∃ l', l.callback nodeName topic a = .ok l') ↔ InRange l a := by
  rw [StatisticsLogger.callback, hOn, hTopic]
  simp only [Bool.not_true, Bool.or_self, Bool.false_eq_true, if_false]
  rw [exists_bind_iff]
  constructor
  · rintro ⟨ages, hAges, hRest⟩
    have hNew := map_ns_of_age hAges
    obtain ⟨frequency, hSec, hRest⟩ := exists_bind_iff.mp hRest
    obtain ⟨due, hAdd, hRest⟩ := exists_bind_iff.mp hRest
    have hWindow : Due l a → MeanFits ((l.stored a).ageList.map DurationBase.ns ++ newAge l a) ∧
        PeriodsFit ((l.stored a).arrivalTimeList ++ [a.receivedTime]) := by
      intro hDue
      rw [if_pos ((due_iff hSec hAdd).mpr hDue), exists_map_iff, exists_windowMessage_iff, List.map_append, hNew] at hRest
      exact hRest
    exact ⟨exists_age_iff.mp ⟨_, hAges⟩, (exists_due_iff hFrequency).mp ⟨_, hSec, _, hAdd⟩, fun h => (hWindow h).1,
      fun h => (hWindow h).2⟩
  · intro h
    obtain ⟨ages, hAges⟩ := exists_age_iff.mpr h.age
    have hNew := map_ns_of_age hAges
    obtain ⟨frequency, hSec, due, hAdd⟩ := (exists_due_iff hFrequency).mpr h.due
    refine ⟨ages, hAges, exists_bind_iff.mpr ⟨frequency, hSec, exists_bind_iff.mpr ⟨due, hAdd, ?_⟩⟩⟩
    split
    · rename_i hDue
      have hDue := (due_iff hSec hAdd).mp hDue
      rw [exists_map_iff, exists_windowMessage_iff, List.map_append, hNew]
      exact ⟨h.ages hDue, h.periods hDue⟩
    · exact ⟨_, rfl⟩

/-- The arrival is listed, or it is the last of a window that is published. -/
inductive Recorded (l : StatisticsLogger) (a : Arrival) (l' : StatisticsLogger) : Prop
  | listed (stats : StatData) (hPublished : l'.published = l.published) (hFrequency : l'.pubFrequency = l.pubFrequency)
      (hMap : l'.map = Function.update l.map a.callerid (some stats))
      (hTimes : stats.arrivalTimeList.length = (l.stored a).arrivalTimeList.length + 1)
  | published (stats : StatData) (msg : TopicStatistics) (hPublished : l'.published = l.published ++ [msg])
      (hPub : msg.nodePub = a.callerid)
      (hDelivered : msg.deliveredMsgs = .ofNat ((l.stored a).arrivalTimeList.length + 1))
      (hFrequency : ∃ size, l'.pubFrequency = l.resize size)
      (hMap : l'.map = Function.update l.map a.callerid (some stats)) (hTimes : stats.arrivalTimeList = [])

theorem of_callback (hOn : l.params.enableStatistics = true) (hTopic : ignored topic = false)
    (h : l.callback nodeName topic a = .ok l') : l'.params = l.params ∧ Recorded l a l' := by
  rw [StatisticsLogger.callback, hOn, hTopic] at h
  simp only [Bool.not_true, Bool.or_self, Bool.false_eq_true, if_false] at h
  obtain ⟨ages, -, hRest⟩ := exists_of_bind h
  obtain ⟨frequency, -, hRest⟩ := exists_of_bind hRest
  obtain ⟨due, -, hRest⟩ := exists_of_bind hRest
  split at hRest
  · obtain ⟨msg, hMsg, rfl⟩ := exists_of_map hRest
    obtain ⟨measured, -, hMsg⟩ := exists_of_bind hMsg
    obtain ⟨measured', -, rfl⟩ := exists_of_map hMsg
    refine ⟨rfl, .published _ _ rfl rfl ?_ ⟨_, rfl⟩ rfl rfl⟩
    dsimp only
    rw [List.length_append, List.length_singleton]
  · cases hRest
    exact ⟨rfl, .listed _ rfl rfl rfl List.length_append⟩

theorem frequencyFits_resize (hFrequency : FrequencyFits l) (size : Nat) :
    0 ≤ l.resize size ∧ l.resize size < 2147483648 := by
  obtain ⟨hLow, hHigh⟩ := hFrequency
  have hMax : (l.params.maxWindow.toInt : ℚ) < 2147483648 := by exact_mod_cast l.params.maxWindow.toInt_lt
  have hWiden : 0 ≤ l.widen size ∧ l.widen size < 2147483648 := by
    rw [StatisticsLogger.widen]
    split
    · rename_i hWide
      exact ⟨by linarith, lt_of_le_of_lt hWide.2 hMax⟩
    · exact ⟨hLow, hHigh⟩
  rw [StatisticsLogger.resize]
  split
  · exact ⟨by linarith [hWiden.1], by linarith [hWiden.1, hWiden.2]⟩
  · exact hWiden

end

/-! ## Runs -/

/-- A subscription, how often it was called for each callerid, and what was thrown at last. -/
structure State where
  sub : Subscription
  calls : Bytes → Nat
  thrown : Option String

inductive Label where
  | addCallback (params : Params) (hasHeader : Bool)
  | handleMessage (d : Delivery)

def step (nodeName : Bytes) (s : State) : Label → Option State
  | .addCallback params hasHeader =>
    if s.thrown.isNone && params.enableStatistics then
      some { s with sub := { s.sub with statistics := s.sub.statistics.init params hasHeader } }
    else none
  | .handleMessage d =>
    if s.thrown.isSome then none
    else
      let calls := Function.update s.calls d.callerid (s.calls d.callerid + 1)
      match s.sub.handleMessage nodeName d with
      | .ok (_, sub) => some { sub := sub, calls := calls, thrown := none }
      | .error text => some { s with calls := calls, thrown := some text }

structure Init (s : State) : Prop where
  enabled : s.sub.statistics.params.enableStatistics = true
  topic : ignored s.sub.name = false
  frequency : s.sub.statistics.pubFrequency = 1
  published : s.sub.statistics.published = []
  map : ∀ callerid, s.sub.statistics.map callerid = none
  calls : ∀ callerid, s.calls callerid = 0
  thrown : s.thrown = none

def node (nodeName : Bytes) : Machine State Label := ⟨Init, step nodeName⟩

def delivered (s : State) (callerid : Bytes) : Int :=
  ((s.sub.statistics.published.filter fun msg => msg.nodePub = callerid).map fun msg => msg.deliveredMsgs.toInt).sum

def pending (s : State) (callerid : Bytes) : Nat :=
  ((s.sub.statistics.map callerid).map fun stats => stats.arrivalTimeList.length).getD 0

/-- The arithmetic is in range, and the number of messages in a window fits into its field. -/
def Permitted (s : State) : Label → Prop
  | .addCallback _ _ => True
  | .handleMessage d => InRange s.sub.statistics d.arrival ∧ pending s d.callerid + 1 < 2 ^ 31

/-- `handleMessage` returns its drop count and has recorded the message of a latched link. -/
def Delivers (nodeName : Bytes) (s : Subscription) (d : Delivery) : Prop :=
  ∃ sub, s.handleMessage nodeName d = .ok (d.drops, sub) ∧
    (d.latched = true → sub.latchedMessages d.link = some ⟨d.link, d.message, d.receiptTime⟩)

structure Inv (s : State) : Prop where
  enabled : s.sub.statistics.params.enableStatistics = true
  topic : ignored s.sub.name = false
  frequency : FrequencyFits s.sub.statistics
  counted : ∀ callerid, delivered s callerid + pending s callerid = s.calls callerid
  thrown : s.thrown = none

variable {nodeName : Bytes} {s s' : State}

theorem delivers_iff (hOn : s.sub.statistics.params.enableStatistics = true) (hTopic : ignored s.sub.name = false)
    (hFrequency : FrequencyFits s.sub.statistics) (d : Delivery) :
    Delivers nodeName s.sub d ↔ InRange s.sub.statistics d.arrival := by
  rw [← @exists_callback_iff _ _ nodeName _ hOn hTopic hFrequency]
  constructor
  · rintro ⟨sub, h, -⟩
    obtain ⟨l', h, -⟩ := exists_of_map h
    exact ⟨l', h⟩
  · rintro ⟨l', h⟩
    rw [Delivers, Subscription.handleMessage, h]
    refine ⟨_, rfl, fun hLatched => ?_⟩
    simp only [hLatched, if_true, Function.update_self]

theorem length_stored (l : StatisticsLogger) (a : Arrival) :
    (l.stored a).arrivalTimeList.length =
      ((l.map a.callerid).map fun stats => stats.arrivalTimeList.length).getD 0 := by
  rw [StatisticsLogger.stored]
  cases l.map a.callerid with
  | none => rfl
  | some stats => rfl

theorem counted_of_recorded {d : Delivery} {sub : Subscription} (hCount : pending s d.callerid + 1 < 2 ^ 31)
    (hInv : Inv s) (hRecorded : Recorded s.sub.statistics d.arrival sub.statistics) (callerid : Bytes) :
    delivered ⟨sub, Function.update s.calls d.callerid (s.calls d.callerid + 1), none⟩ callerid +
      pending ⟨sub, Function.update s.calls d.callerid (s.calls d.callerid + 1), none⟩ callerid =
    (Function.update s.calls d.callerid (s.calls d.callerid + 1) callerid : Nat) := by
  have hOld := hInv.counted callerid
  have hStored : (s.sub.statistics.stored d.arrival).arrivalTimeList.length = pending s d.callerid :=
    length_stored _ _
  cases hRecorded with
  | listed stats hPublished _ hMap hTimes =>
    rw [hStored] at hTimes
    simp only [delivered, pending, hPublished, hMap] at hOld ⊢
    rcases eq_or_ne callerid d.callerid with rfl | hNe
    · have hNew : Function.update s.sub.statistics.map d.arrival.callerid (some stats) d.callerid = some stats :=
        Function.update_self ..
      rw [hNew, Function.update_self, Option.map_some, Option.getD_some, hTimes, pending]
      omega
    · have hSame : Function.update s.sub.statistics.map d.arrival.callerid (some stats) callerid =
          s.sub.statistics.map callerid := Function.update_of_ne hNe ..
      rw [hSame, Function.update_of_ne hNe]
      exact hOld
  | published stats msg hPublished hPub hDelivered _ hMap hTimes =>
    rw [hStored] at hDelivered
    simp only [delivered, pending, hPublished, hMap, List.filter_append, List.map_append, List.sum_append] at hOld ⊢
    rcases eq_or_ne callerid d.callerid with rfl | hNe
    · have hNew : Function.update s.sub.statistics.map d.arrival.callerid (some stats) d.callerid = some stats :=
        Function.update_self ..
      have hMsg : [msg].filter (fun msg => msg.nodePub = d.callerid) = [msg] :=
        List.filter_cons_of_pos (decide_eq_true hPub)
      have hWord : msg.deliveredMsgs.toInt = (pending s d.callerid + 1 : Nat) := by
        rw [hDelivered]
        exact Int32.toInt_ofNat_of_lt hCount
      rw [hMsg, hNew, Function.update_self, List.map_singleton, List.sum_singleton, hWord, Option.map_some,
        Option.getD_some, hTimes, List.length_nil, pending]
      omega
    · have hSame : Function.update s.sub.statistics.map d.arrival.callerid (some stats) callerid =
          s.sub.statistics.map callerid := Function.update_of_ne hNe ..
      have hOther : msg.nodePub ≠ callerid := fun h => hNe (h.symm.trans hPub)
      have hMsg : [msg].filter (fun msg => msg.nodePub = callerid) = [] :=
        List.filter_cons_of_neg (by simpa using hOther)
      rw [hMsg, hSame, Function.update_of_ne hNe, List.map_nil, List.sum_nil, Int.add_zero]
      exact hOld

theorem inv_start (h : Init s) : Inv s where
  enabled := h.enabled
  topic := h.topic
  frequency := by
    rw [FrequencyFits, h.frequency]
    norm_num
  counted callerid := by
    rw [delivered, pending, h.published, h.map, h.calls]
    rfl
  thrown := h.thrown

theorem inv_step {label : Label} (hInv : Inv s) (hOk : Permitted s label) (hStep : step nodeName s label = some s') :
    Inv s' := by
  cases label with
  | addCallback params hasHeader =>
    obtain ⟨hOn, rfl⟩ := of_guard hStep
    exact ⟨(Bool.and_eq_true_iff.mp hOn).2, hInv.topic, hInv.frequency, hInv.counted, hInv.thrown⟩
  | handleMessage d =>
    obtain ⟨sub, hHandle, -⟩ := (delivers_iff hInv.enabled hInv.topic hInv.frequency d).mpr hOk.1
    rw [step, hInv.thrown, hHandle] at hStep
    cases hStep
    obtain ⟨l', hCallback, hSame⟩ := exists_of_map hHandle
    cases hSame
    obtain ⟨hParams, hRecorded⟩ := of_callback hInv.enabled hInv.topic hCallback
    refine ⟨hParams ▸ hInv.enabled, hInv.topic, ?_, counted_of_recorded hOk.2 hInv hRecorded, rfl⟩
    rw [FrequencyFits]
    dsimp only
    cases hRecorded with
    | listed _ _ hFrequency =>
      rw [hFrequency]
      exact hInv.frequency
    | published _ _ _ _ _ hFrequency =>
      obtain ⟨size, hFrequency⟩ := hFrequency
      rw [hFrequency]
      exact frequencyFits_resize hInv.frequency size

/-- While the arithmetic is in range nothing is thrown, and every call is counted by a window or pending. -/
theorem statistics_keep_delivery (hReach : (node nodeName).ReachableWhen Permitted s) :
    s.thrown = none ∧ (∀ callerid, delivered s callerid + pending s callerid = s.calls callerid) ∧
      ∀ d, Delivers nodeName s.sub d ↔ InRange s.sub.statistics d.arrival := by
  have hInv : Inv s := Machine.ReachableWhen.invariant Inv (fun _ => inv_start)
    (fun _ _ _ hInv hOk hStep => inv_step hInv hOk hStep) hReach
  exact ⟨hInv.thrown, hInv.counted, delivers_iff hInv.enabled hInv.topic hInv.frequency⟩

def sampleStart : State where
  sub :=
    { name := bytes "/t"
      statistics := ⟨⟨true, 10, 100, 4, 64⟩, true, 1, [], fun _ => none⟩
      latchedMessages := fun _ => none }
  calls _ := 0
  thrown := none

theorem init_sampleStart : Init sampleStart := ⟨rfl, by decide, rfl, rfl, fun _ => rfl, fun _ => rfl, rfl⟩

def headerMessage (stampSec : UInt8) : Delivery where
  link := 0
  latched := true
  callerid := bytes "/p"
  bytesReceived := 16
  message := [0, 0, 0, 0] ++ List.replicate 4 stampSec ++ List.replicate 8 0
  receiptTime := ⟨1, 0⟩
  now := ⟨1, 0⟩
  wasFull := [false]

theorem statistics_keep_delivery_unstamped :
    ∃ s, (node (bytes "/n")).run sampleStart [.handleMessage (headerMessage 0)] = some s ∧
      s.thrown = none ∧ (∀ callerid, delivered s callerid + pending s callerid = s.calls callerid) ∧
      ∀ d, Delivers (bytes "/n") s.sub d ↔ InRange s.sub.statistics d.arrival := by
  have hDue : dueNs sampleStart.sub.statistics (headerMessage 0).arrival = 2000000000 := by decide +kernel
  have hNot : ¬ Due sampleStart.sub.statistics (headerMessage 0).arrival := by
    rw [Due, hDue]
    decide
  have hAge : newAge sampleStart.sub.statistics (headerMessage 0).arrival = [] := by decide +kernel
  have hRange : InRange sampleStart.sub.statistics (headerMessage 0).arrival := by
    refine ⟨?_, ?_, fun h => absurd h hNot, fun h => absurd h hNot⟩
    · rw [hAge]
      exact fun _ h => by cases h
    · rw [hDue]
      decide
  have hInv := inv_start init_sampleStart
  obtain ⟨sub, hHandle, -⟩ := (@delivers_iff (bytes "/n") _ hInv.enabled hInv.topic hInv.frequency _).mpr hRange
  have hStep : (node (bytes "/n")).step sampleStart (.handleMessage (headerMessage 0)) =
      some ⟨sub, Function.update (fun _ => 0) (bytes "/p") 1, none⟩ := by
    simp only [node, step, hHandle]
    rfl
  have hReach : (node (bytes "/n")).ReachableWhen Permitted sampleStart := .init init_sampleStart
  have hOk : Permitted sampleStart (.handleMessage (headerMessage 0)) := ⟨hRange, by decide⟩
  exact ⟨_, Machine.run_cons hStep, statistics_keep_delivery (hReach.step hOk hStep)⟩

/-- A stamp that is more than 68 years ahead of the clock. -/
theorem not_statistics_keep_delivery : ¬ ∀ (nodeName : Bytes) (s : State), (node nodeName).Reachable s →
    s.thrown = none := by
  intro h
  have hReach : (node []).Reachable sampleStart := .init init_sampleStart
  have hStep := hReach.step (a := Label.handleMessage (headerMessage 255)) trivial rfl
  have hThrown := h [] _ hStep
  revert hThrown
  decide +kernel

end XcRos.Libros.Statistics
