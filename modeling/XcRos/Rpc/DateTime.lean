import Mathlib.Tactic.Ring
import XcRos.Rpc.CodableValue

/-! # Round trip of times

The writer pads the year with blanks up to four places, and the reader passes over blanks before it takes up to four
digits. A year of fewer than four digits is then read together with digits of the month.
-/

namespace XcRos.Rpc

/-! ## Digits -/

theorem digitsValue_zeros (count : Nat) (ds : Bytes) : digitsValue (List.replicate count 48 ++ ds) = digitsValue ds := by
  induction count with
  | zero => rfl
  | succ count ih =>
    rw [List.replicate_succ, List.cons_append, ← ih]
    rfl

theorem foldl_digits (ds : Bytes) (value : Nat) :
    ds.foldl (fun value d => 10 * value + (d.toNat - 48)) value = value * 10 ^ ds.length + digitsValue ds := by
  induction ds generalizing value with
  | nil => simp [digitsValue]
  | cons d ds ih =>
    have hHead : digitsValue (d :: ds) = (10 * 0 + (d.toNat - 48)) * 10 ^ ds.length + digitsValue ds := ih _
    rw [List.foldl_cons, ih, hHead, List.length_cons]
    ring

theorem digitsValue_append (ds es : Bytes) :
    digitsValue (ds ++ es) = digitsValue ds * 10 ^ es.length + digitsValue es := by
  have hBehind := foldl_digits es (digitsValue ds)
  rw [digitsValue, List.foldl_append]
  exact hBehind

theorem isdigit_sub_le {d : UInt8} (h : isdigit d = true) : d.toNat - 48 ≤ 9 := by
  simp only [isdigit, Bool.and_eq_true, decide_eq_true_eq, UInt8.le_iff_toNat_le] at h
  simp only [UInt8.reduceToNat] at h
  omega

theorem printNat_length_le_iff {n k : Nat} (h : 0 < k) : (printNat n).length ≤ k ↔ n < 10 ^ k := by
  rw [printNat, List.length_map]
  exact Nat.length_toDigits_le_iff (by decide) h

structure TwoDigits (n : Int) (text : Bytes) : Prop where
  digits : ∀ d ∈ text, isdigit d = true
  length : text.length = 2
  value : (digitsValue text : Int) = n

theorem printZeroPadded_twoDigits {n : Int} (hLow : 0 ≤ n) (hHigh : n ≤ 99) : TwoDigits n (printZeroPadded n) := by
  have hShort : (printNat n.natAbs).length ≤ 2 := (printNat_length_le_iff (by decide)).mpr (by omega)
  rw [printZeroPadded, if_neg (by omega)]
  refine ⟨?_, ?_, ?_⟩
  · intro d hd
    rcases List.mem_append.mp hd with hd | hd
    · rw [List.eq_of_mem_replicate hd]
      rfl
    · exact printNat_isdigit _ d hd
  · rw [List.length_append, List.length_replicate]
    omega
  · rw [digitsValue_zeros, digitsValue_printNat]
    omega

/-! ## Reading -/

theorem scanInt_digits {width : Nat} {blanks ds rest : Bytes} (hBlanks : ∀ c ∈ blanks, isspace c = true)
    (hDigits : ∀ d ∈ ds, isdigit d = true) (hSome : ds ≠ [])
    (hStop : ((ds ++ rest).take width).takeWhile isdigit = ds) :
    scanInt width (blanks ++ (ds ++ rest)) = some (Int32.ofInt (digitsValue ds), rest) := by
  obtain ⟨d, tail, rfl⟩ := List.exists_cons_of_ne_nil hSome
  have hd : isdigit d = true := hDigits d List.mem_cons_self
  have hWidth : width ≠ 0 := by
    rintro rfl
    simp at hStop
  obtain ⟨width, rfl⟩ := Nat.exists_eq_succ_of_ne_zero hWidth
  have hRest : (blanks ++ (d :: tail ++ rest)).dropWhile isspace = d :: tail ++ rest := by
    rw [List.dropWhile_append_of_pos hBlanks, List.cons_append,
      List.dropWhile_cons_of_neg (by simp [isdigit_not_isspace hd])]
  have hSign : signOf ((d :: tail ++ rest).take (width + 1)) = (false, 0) := signOf_digit hd _
  simp only [scanInt, hRest, hSign, List.drop_zero, Nat.sub_zero, hStop, reduceCtorEq, if_false, Bool.false_eq_true,
    Nat.zero_add, List.drop_left]

theorem takeWhile_full {width : Nat} {ds : Bytes} (rest : Bytes) (hDigits : ∀ d ∈ ds, isdigit d = true) (hLength : ds.length = width) :
    ((ds ++ rest).take width).takeWhile isdigit = ds := by
  rw [← hLength, List.take_left, List.takeWhile_eq_self_iff]
  exact hDigits

theorem takeWhile_stopped {width : Nat} {ds : Bytes} {c : UInt8} (rest : Bytes) (hDigits : ∀ d ∈ ds, isdigit d = true)
    (hLength : ds.length ≤ width) (hStop : isdigit c = false) :
    ((ds ++ c :: rest).take width).takeWhile isdigit = ds := by
  rcases Nat.eq_or_lt_of_le hLength with hFull | hLess
  · exact takeWhile_full (c :: rest) hDigits hFull
  · obtain ⟨more, rfl⟩ := Nat.exists_eq_add_of_lt hLess
    rw [Nat.add_assoc, List.take_length_add_append, List.take_succ_cons]
    exact takeWhile_append_stop hDigits hStop

theorem scanInt_twoDigits {n : Int} {text : Bytes} (h : TwoDigits n text) (rest : Bytes) :
    scanInt 2 (text ++ rest) = some (Int32.ofInt n, rest) := by
  have hBlanks : ∀ c ∈ ([] : Bytes), isspace c = true := by simp
  have hSome : text ≠ [] := by
    rintro rfl
    exact absurd h.length (by decide)
  have hRead := scanInt_digits hBlanks h.digits hSome (takeWhile_full rest h.digits h.length)
  rwa [h.value] at hRead

theorem scanInt_letter (width : Nat) (rest : Bytes) : scanInt width (84 :: rest) = none := by
  have hRest : (84 :: rest).dropWhile isspace = 84 :: rest := List.dropWhile_cons_of_neg (by decide)
  cases width with
  | zero => simp [scanInt, hRest, signOf]
  | succ width =>
    have hDigits : ((84 :: rest).take (width + 1)).takeWhile isdigit = [] := by
      rw [List.take_succ_cons, List.takeWhile_cons_of_neg (by decide)]
    have hSign : signOf ((84 :: rest).take (width + 1)) = (false, 0) := rfl
    simp only [scanInt, hRest, hSign, List.drop_zero, Nat.sub_zero, hDigits, if_true]

/-! ## Times -/

structure Tm.InRange (t : Tm) : Prop where
  year : 0 ≤ t.year.toInt ∧ t.year.toInt ≤ 9999
  mon : 0 ≤ t.mon.toInt ∧ t.mon.toInt ≤ 99
  mday : 0 ≤ t.mday.toInt ∧ t.mday.toInt ≤ 99
  hour : 0 ≤ t.hour.toInt ∧ t.hour.toInt ≤ 99
  min : 0 ≤ t.min.toInt ∧ t.min.toInt ≤ 99
  sec : 0 ≤ t.sec.toInt ∧ t.sec.toInt ≤ 99

def clockText (t : Tm) : Bytes :=
  printZeroPadded t.hour.toInt ++ 58 :: (printZeroPadded t.min.toInt ++ 58 :: printZeroPadded t.sec.toInt)

theorem timeText_eq {t : Tm} (h : t.InRange) :
    timeText t = List.replicate (4 - (printNat t.year.toInt.natAbs).length) 32 ++
      (printNat t.year.toInt.natAbs ++ (printZeroPadded t.mon.toInt ++ (printZeroPadded t.mday.toInt ++ 84 :: clockText t))) := by
  have hYear : (printNat t.year.toInt.natAbs).length ≤ 4 := (printNat_length_le_iff (by decide)).mpr (by have := h.year; omega)
  have hMon := (printZeroPadded_twoDigits h.mon.1 h.mon.2).length
  have hMday := (printZeroPadded_twoDigits h.mday.1 h.mday.2).length
  have hHour := (printZeroPadded_twoDigits h.hour.1 h.hour.2).length
  have hMin := (printZeroPadded_twoDigits h.min.1 h.min.2).length
  have hSec := (printZeroPadded_twoDigits h.sec.1 h.sec.2).length
  have hPrint : printInt t.year.toInt = printNat t.year.toInt.natAbs := by
    rw [printInt, if_neg (by have := h.year; omega)]
  rw [timeText, List.take_of_length_le]
  · simp only [printBlankPadded, hPrint, clockText, List.append_assoc, List.cons_append, List.nil_append]
  · simp only [printBlankPadded, hPrint, List.length_append, List.length_replicate, List.length_cons, List.length_nil]
    omega

theorem scanTime_date {s : Bytes} {t : Tm} (h : scanTime s = some t) :
    ∃ r r' r'', scanInt 4 s = some (t.year, r) ∧ scanInt 2 r = some (t.mon, r') ∧ scanInt 2 r' = some (t.mday, r'') := by
  simp only [scanTime, Option.bind_eq_bind, Option.bind_eq_some_iff, Prod.exists] at h
  obtain ⟨year, r, hYear, mon, r', hMon, mday, r'', hMday, _, _, hour, _, _, _, _, min, _, _, _, _, sec, _, _, hTm⟩ := h
  cases hTm
  exact ⟨r, r', r'', hYear, hMon, hMday⟩

theorem scanTime_wide {t : Tm} (h : t.InRange) (hYear : 1000 ≤ t.year.toInt) : scanTime (timeText t) = some t := by
  have hDigits := printNat_isdigit t.year.toInt.natAbs
  have hLength : (printNat t.year.toInt.natAbs).length = 4 := by
    have hLe := (@printNat_length_le_iff t.year.toInt.natAbs 4 (by decide)).mpr (by have := h.year; omega)
    have hMore := (@printNat_length_le_iff t.year.toInt.natAbs 3 (by decide)).not.mpr (by omega)
    omega
  have hValue : (digitsValue (printNat t.year.toInt.natAbs) : Int) = t.year.toInt := by
    rw [digitsValue_printNat]
    omega
  have hRead (rest : Bytes) : scanInt 4 (printNat t.year.toInt.natAbs ++ rest) = some (t.year, rest) := by
    have hBlanks : ∀ c ∈ ([] : Bytes), isspace c = true := by simp
    have hDigitsRead := scanInt_digits hBlanks hDigits (printNat_ne_nil _) (takeWhile_full rest hDigits hLength)
    rwa [hValue, Int32.ofInt_toInt] at hDigitsRead
  have hSec := scanInt_twoDigits (printZeroPadded_twoDigits h.sec.1 h.sec.2) []
  rw [List.append_nil] at hSec
  rw [timeText_eq h, hLength, Nat.sub_self, List.replicate_zero, List.nil_append]
  simp [scanTime, hRead, clockText, scanInt_twoDigits (printZeroPadded_twoDigits h.mon.1 h.mon.2),
    scanInt_twoDigits (printZeroPadded_twoDigits h.mday.1 h.mday.2),
    scanInt_twoDigits (printZeroPadded_twoDigits h.hour.1 h.hour.2),
    scanInt_twoDigits (printZeroPadded_twoDigits h.min.1 h.min.2), hSec, scanLetter]

theorem scanInt_day_none {blanks ds clock r r' : Bytes} {year mon : Int32} (hBlanks : ∀ c ∈ blanks, isspace c = true)
    (hDigits : ∀ d ∈ ds, isdigit d = true) (hLow : 4 < ds.length) (hHigh : ds.length ≤ 6)
    (hYear : scanInt 4 (blanks ++ (ds ++ 84 :: clock)) = some (year, r)) (hMon : scanInt 2 r = some (mon, r')) :
    scanInt 2 r' = none := by
  have hNoBlanks : ∀ c ∈ ([] : Bytes), isspace c = true := by simp
  have hTakeLength : (ds.take 4).length = 4 := by
    rw [List.length_take]
    omega
  have hDropLength : 0 < (ds.drop 4).length ∧ (ds.drop 4).length ≤ 2 := by
    rw [List.length_drop]
    omega
  have hTakeDigits : ∀ d ∈ ds.take 4, isdigit d = true := fun d hd => hDigits d (List.mem_of_mem_take hd)
  have hDropDigits : ∀ d ∈ ds.drop 4, isdigit d = true := fun d hd => hDigits d (List.mem_of_mem_drop hd)
  have hTakeSome : ds.take 4 ≠ [] := List.ne_nil_of_length_pos (by omega)
  have hDropSome : ds.drop 4 ≠ [] := List.ne_nil_of_length_pos hDropLength.1
  have hYearRead := scanInt_digits hBlanks hTakeDigits hTakeSome
    (takeWhile_full (ds.drop 4 ++ 84 :: clock) hTakeDigits hTakeLength)
  rw [← List.append_assoc (ds.take 4), List.take_append_drop, hYear] at hYearRead
  obtain ⟨_, rfl⟩ := Prod.mk.inj (Option.some.inj hYearRead)
  have hMonRead := scanInt_digits hNoBlanks hDropDigits hDropSome
    (takeWhile_stopped clock hDropDigits hDropLength.2 (by decide : isdigit 84 = false))
  rw [List.nil_append, hMon] at hMonRead
  obtain ⟨_, rfl⟩ := Prod.mk.inj (Option.some.inj hMonRead)
  exact scanInt_letter 2 clock

theorem scanInt_year_other {blanks rest r : Bytes} {n : Nat} {m : UInt8} {year : Int32}
    (hBlanks : ∀ c ∈ blanks, isspace c = true) (hm : isdigit m = true) (hLength : (printNat n).length = 3)
    (hRead : scanInt 4 (blanks ++ (printNat n ++ m :: rest)) = some (year, r)) : year.toInt ≠ n := by
  have hLow := (@printNat_length_le_iff n 2 (by decide)).not.mp (by omega)
  have hHigh := (@printNat_length_le_iff n 3 (by decide)).mp (by omega)
  have hDigits : ∀ d ∈ printNat n ++ [m], isdigit d = true := by
    intro d hd
    rcases List.mem_append.mp hd with hd | hd
    · exact printNat_isdigit n d hd
    · rwa [List.mem_singleton.mp hd]
  have hFull : (printNat n ++ [m]).length = 4 := by rw [List.length_append, hLength, List.length_singleton]
  have hSome : printNat n ++ [m] ≠ [] := List.ne_nil_of_length_pos (by omega)
  have hDigitsRead := scanInt_digits hBlanks hDigits hSome (takeWhile_full rest hDigits hFull)
  rw [List.append_assoc, List.singleton_append, hRead, digitsValue_append, digitsValue_printNat] at hDigitsRead
  obtain ⟨rfl, _⟩ := Prod.mk.inj (Option.some.inj hDigitsRead)
  have hOne : digitsValue [m] = m.toNat - 48 := by simp [digitsValue]
  have hDigit := isdigit_sub_le hm
  rw [List.length_singleton, hOne, Int32.toInt_ofInt_of_le (by omega) (by omega)]
  omega

theorem scanTime_narrow {t : Tm} (h : t.InRange) (hYear : t.year.toInt < 1000) : scanTime (timeText t) ≠ some t := by
  intro hScan
  obtain ⟨r, r', r'', hReadYear, hReadMon, hReadMday⟩ := scanTime_date hScan
  have hMon := printZeroPadded_twoDigits h.mon.1 h.mon.2
  have hMday := printZeroPadded_twoDigits h.mday.1 h.mday.2
  have hLow := h.year.1
  have hPos := List.length_pos_of_ne_nil (printNat_ne_nil t.year.toInt.natAbs)
  have hShort := (@printNat_length_le_iff t.year.toInt.natAbs 3 (by decide)).mpr (by omega)
  have hBlanks : ∀ c ∈ List.replicate (4 - (printNat t.year.toInt.natAbs).length) (32 : UInt8), isspace c = true := by
    intro c hc
    rw [List.eq_of_mem_replicate hc]
    rfl
  rw [timeText_eq h] at hReadYear
  rcases Nat.lt_or_ge 2 (printNat t.year.toInt.natAbs).length with hThree | hTwo
  · obtain ⟨m, m', hText⟩ := List.length_eq_two.mp hMon.length
    have hm : isdigit m = true := hMon.digits m (by rw [hText]; exact List.mem_cons_self)
    rw [hText] at hReadYear
    exact scanInt_year_other hBlanks hm (by omega) hReadYear (by omega)
  · have hDigits : ∀ d ∈ printNat t.year.toInt.natAbs ++ (printZeroPadded t.mon.toInt ++ printZeroPadded t.mday.toInt),
        isdigit d = true := by
      intro d hd
      rcases List.mem_append.mp hd with hd | hd
      · exact printNat_isdigit _ d hd
      · rcases List.mem_append.mp hd with hd | hd
        · exact hMon.digits d hd
        · exact hMday.digits d hd
    have hLength := congrArg₂ (· + ·) hMon.length hMday.length
    have hNone := @scanInt_day_none _ _ (clockText t) r r' t.year t.mon hBlanks hDigits
      (by simp only [List.length_append]; omega) (by simp only [List.length_append]; omega)
      (by rwa [List.append_assoc, List.append_assoc]) hReadMon
    rw [hReadMday] at hNone
    cases hNone

section

variable [DoubleText]

theorem fromXml_dateTime (t : Tm) {xml rest : Bytes} {offset : Nat} (hLength : xml.length ≤ intMax)
    (hDrop : xml.drop offset = (Value.dateTime t).toXml ++ rest) :
    fromXml xml offset =
      (scanTime (timeText t)).map fun t' => (.dateTime t', offset + (Value.dateTime t).toXml.length) :=
  fromXmlFuel_dateTime xml.length t hLength hDrop

/-- A time comes back from its text exactly when its year has four digits. -/
theorem dateTime_fromXml_iff {t : Tm} (hRange : t.InRange) {xml rest : Bytes} {offset : Nat}
    (hLength : xml.length ≤ intMax) (hDrop : xml.drop offset = (Value.dateTime t).toXml ++ rest) :
    (∃ after, fromXml xml offset = some (.dateTime t, after)) ↔ 1000 ≤ t.year.toInt := by
  rw [fromXml_dateTime t hLength hDrop]
  constructor
  · rintro ⟨after, hRead⟩
    obtain ⟨t', hScan, hSame⟩ := Option.map_eq_some_iff.mp hRead
    cases hSame
    by_contra hNarrow
    exact scanTime_narrow hRange (Int.not_le.mp hNarrow) hScan
  · intro hWide
    exact ⟨_, by rw [scanTime_wide hRange hWide, Option.map_some]⟩

end

theorem dateTime_fromXml_iff_2020 :
    ∃ after, @fromXml noDoubles (@Value.toXml noDoubles (.dateTime ⟨5, 4, 3, 2, 1, 2020⟩)) 0 =
      some (.dateTime ⟨5, 4, 3, 2, 1, 2020⟩, after) := by
  refine (@dateTime_fromXml_iff noDoubles ⟨5, 4, 3, 2, 1, 2020⟩ ?_ _ [] 0 (by decide) (by rw [List.append_nil]; rfl)).mpr
    (by decide)
  exact ⟨by decide, by decide, by decide, by decide, by decide, by decide⟩

/-- The year 120 of a `struct tm`, which is 2020, comes back as 1200. -/
theorem year_120_reads_1200 :
    (⟨5, 4, 3, 2, 0, 120⟩ : Tm).InRange ∧
      @fromXml noDoubles (@Value.toXml noDoubles (.dateTime ⟨5, 4, 3, 2, 0, 120⟩)) 0 =
        some (.dateTime ⟨5, 4, 3, 2, 0, 1200⟩, 69) ∧
      ¬ ∃ after, @fromXml noDoubles (@Value.toXml noDoubles (.dateTime ⟨5, 4, 3, 2, 0, 120⟩)) 0 =
        some (.dateTime ⟨5, 4, 3, 2, 0, 120⟩, after) := by
  have hRead : @fromXml noDoubles (@Value.toXml noDoubles (.dateTime ⟨5, 4, 3, 2, 0, 120⟩)) 0 =
      some (.dateTime ⟨5, 4, 3, 2, 0, 1200⟩, 69) := by
    rw [@fromXml_dateTime noDoubles ⟨5, 4, 3, 2, 0, 120⟩ _ [] 0 (by decide) (by rw [List.append_nil]; rfl)]
    have hScan : scanTime (timeText ⟨5, 4, 3, 2, 0, 120⟩) = some ⟨5, 4, 3, 2, 0, 1200⟩ := by decide
    rw [hScan]
    rfl
  refine ⟨⟨by decide, by decide, by decide, by decide, by decide, by decide⟩, hRead, ?_⟩
  rintro ⟨after, hSame⟩
  rw [hRead] at hSame
  simp only [Option.some.injEq, Prod.mk.injEq, Value.dateTime.injEq, Tm.mk.injEq] at hSame
  exact absurd hSame.1.2.2.2.2.2 (by decide)

end XcRos.Rpc
