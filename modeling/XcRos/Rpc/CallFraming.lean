import XcRos.Rpc.Multicall
import XcRos.Rpc.ResponseFraming

/-! # The headers of requests and responses

What client and server put in front of a body frames it: no line is empty, the last one says how long the body is,
and none asks the server to close the connection.
-/

namespace XcRos.Rpc

open XcRos.Foundation

/-! ## Lines -/

def Unbroken (head : Bytes) : Prop :=
  ∀ i < head.length, ¬ blankLine <+: (head ++ blankLine).drop i ∧ ¬ [10, 10] <+: (head ++ blankLine).drop i

theorem not_prefix_line {line : Bytes} (hLine : 10 ∉ line) {i : Nat} (hi : i < line.length) (rest : Bytes) :
    ¬ blankLine <+: (line ++ 13 :: rest).drop i ∧ ¬ [10, 10] <+: (line ++ 13 :: rest).drop i := by
  have hDrop : (line ++ 13 :: rest).drop i = line.drop i ++ 13 :: rest := List.drop_append_of_le_length (Nat.le_of_lt hi)
  obtain ⟨c, tail, hTail⟩ := List.exists_cons_of_length_pos (l := line.drop i) (by rw [List.length_drop]; omega)
  have hSubset : ∀ d ∈ c :: tail, d ≠ 10 := by
    rintro d hd rfl
    exact hLine (List.mem_of_mem_drop (hTail ▸ hd))
  rw [hDrop, hTail, List.cons_append]
  refine ⟨fun hBlank => ?_, fun hBreak => ?_⟩
  · have hNext := (List.cons_prefix_cons.mp hBlank).2
    cases tail with
    | nil => exact absurd (List.cons_prefix_cons.mp hNext).1 (by decide)
    | cons d tail =>
      exact hSubset d (List.mem_cons_of_mem c List.mem_cons_self) (List.cons_prefix_cons.mp hNext).1.symm
  · exact hSubset c List.mem_cons_self (List.cons_prefix_cons.mp hBreak).1.symm

theorem unbroken_line {line : Bytes} (hLine : 10 ∉ line) : Unbroken line :=
  fun _ hi => not_prefix_line hLine hi [10, 13, 10]

theorem Unbroken.cons {next line : Bytes} {c : UInt8} (h : Unbroken next) (hNext : next.head? = some c)
    (hReturn : c ≠ 13) (hBreak : c ≠ 10) (hLine : 10 ∉ line) : Unbroken (line ++ 13 :: 10 :: next) := by
  obtain ⟨rest, rfl⟩ : ∃ rest, next = c :: rest := List.head?_eq_some_iff.mp hNext
  intro i hi
  have hText : line ++ 13 :: 10 :: c :: rest ++ blankLine = line ++ 13 :: (10 :: (c :: rest ++ blankLine)) :=
    List.append_assoc _ _ _
  rw [hText]
  obtain hInside | rfl | rfl | ⟨j, rfl⟩ :
      i < line.length ∨ i = line.length ∨ i = line.length + 1 ∨ ∃ j, i = line.length + (2 + j) := by
    by_cases hInside : i < line.length
    · exact .inl hInside
    · by_cases hEnd : i = line.length
      · exact .inr (.inl hEnd)
      · by_cases hNext : i = line.length + 1
        · exact .inr (.inr (.inl hNext))
        · exact .inr (.inr (.inr ⟨i - line.length - 2, by omega⟩))
  · exact not_prefix_line hLine hInside _
  · rw [List.drop_left]
    refine ⟨fun hBlank => ?_, fun hTwo => ?_⟩
    · exact hReturn (List.cons_prefix_cons.mp (List.cons_prefix_cons.mp (List.cons_prefix_cons.mp hBlank).2).2).1.symm
    · exact absurd (List.cons_prefix_cons.mp hTwo).1 (by decide)
  · rw [← List.drop_drop, List.drop_left]
    refine ⟨fun hBlank => ?_, fun hTwo => ?_⟩
    · exact absurd (List.cons_prefix_cons.mp hBlank).1 (by decide)
    · exact hBreak (List.cons_prefix_cons.mp (List.cons_prefix_cons.mp hTwo).2).1.symm
  · rw [← List.drop_drop, List.drop_left, Nat.add_comm 2 j]
    refine h j ?_
    simp only [List.length_append, List.length_cons] at hi ⊢
    omega

/-! ## The length -/

theorem fieldValue_append {name rest value : Bytes} (h : fieldValue name rest = some value) (front : Bytes) :
    fieldValue name (front ++ rest) = some value := by
  induction front with
  | nil => exact h
  | cons c front ih => rw [List.cons_append, fieldValue, ih, Option.some_or]

theorem fieldValue_none {name text : Bytes} (h : ¬ name.map tolower <:+: text.map tolower) :
    fieldValue name text = none := by
  induction text with
  | nil => rfl
  | cons c text ih =>
    rw [List.map_cons, List.infix_cons_iff, not_or] at h
    have hOther : ServerConnection.startsNoCase name (c :: text) = false := by
      refine Bool.eq_false_iff.mpr fun hStarts => h.1 ?_
      exact List.isPrefixOf_iff_prefix.mp hStarts
    rw [fieldValue, ih h.2, hOther]
    rfl

theorem tolower_digit {d : UInt8} (h : isdigit d = true) : tolower d = d := by
  have hLess := (Bool.and_eq_true_iff.mp h).2
  rw [decide_eq_true_eq] at hLess
  rw [tolower, if_neg]
  rintro ⟨hLetter, -⟩
  exact absurd (UInt8.le_trans hLetter hLess) (by decide)

theorem fieldValue_contentLength (n : Nat) :
    fieldValue (bytes "Content-length: ") (bytes "Content-length: " ++ printNat n) = some (printNat n) := by
  have hName : bytes "Content-length: " = 67 :: bytes "ontent-length: " := by decide
  have hDigits : (printNat n).map tolower = printNat n :=
    (List.map_congr_left fun d hd => tolower_digit (printNat_isdigit n d hd)).trans (List.map_id _)
  have hLetter : (99 : UInt8) ∉ (bytes "ontent-length: " ++ printNat n).map tolower := by
    rw [List.map_append, hDigits, List.mem_append, not_or]
    exact ⟨by decide, not_mem_printNat (by decide) n⟩
  have hRest : ¬ (67 :: bytes "ontent-length: ").map tolower <:+: (bytes "ontent-length: " ++ printNat n).map tolower :=
    fun hInfix => hLetter (hInfix.subset List.mem_cons_self)
  have hStarts : ServerConnection.startsNoCase (67 :: bytes "ontent-length: ")
      (67 :: (bytes "ontent-length: " ++ printNat n)) = true := by
    refine List.isPrefixOf_iff_prefix.mpr ?_
    rw [List.map_cons, List.map_cons, List.map_append, ← List.cons_append]
    exact List.prefix_append _ _
  rw [hName, List.cons_append, fieldValue, fieldValue_none hRest, hStarts, Option.none_or, if_pos rfl,
    ← List.cons_append, List.drop_left]

theorem strtol_printNat {n : Nat} (h : n ≤ intMax) : (strtol (printNat n)).1 = n := by
  have hDigits := printNat_isdigit n
  obtain ⟨d, tail, hText⟩ := List.exists_cons_of_ne_nil (printNat_ne_nil n)
  have hd : isdigit d = true := hDigits d (hText ▸ List.mem_cons_self)
  have hBlanks : (printNat n).takeWhile isspace = [] := by
    rw [hText, List.takeWhile_cons_of_neg (by simp [isdigit_not_isspace hd])]
  have hSign : signOf (printNat n) = (false, 0) := hText ▸ signOf_digit hd tail
  have hTake : (printNat n).takeWhile isdigit = printNat n := List.takeWhile_eq_self_iff.mpr hDigits
  have hClamp : clampLong n = n := by
    rw [intMax] at h
    simp only [clampLong, longMax]
    omega
  simp only [strtol, hBlanks, List.length_nil, List.drop_zero, hSign, hTake, printNat_ne_nil, if_false,
    Bool.false_eq_true, digitsValue_printNat, hClamp]

theorem fieldValue_line {name next value : Bytes} (h : fieldValue name next = some value) (line : Bytes) :
    fieldValue name (line ++ 13 :: 10 :: next) = some value := fieldValue_append (fieldValue_append h [13, 10]) line

theorem framed_of_unbroken {head body : Bytes} (hBody : body ≠ []) (hLength : body.length ≤ intMax)
    (hUnbroken : Unbroken head) (hField : fieldValue (bytes "Content-length: ") head = some (printNat body.length)) :
    Framed head body body.length where
  ends := hUnbroken
  contentLength := by rw [hField, Option.map_some, strtol_printNat hLength]
  positive := List.length_pos_of_ne_nil hBody
  exact := rfl

/-! ## Requests -/

/-- Host and path neither break the line nor look like a field. -/
structure PlainTarget (c : Client) : Prop where
  host : 10 ∉ c.host ∧ 32 ∉ c.host
  uri : 10 ∉ c.uri ∧ 58 ∉ c.uri

def hostLine (c : Client) : Bytes := bytes "Host: " ++ (c.host ++ (58 :: printInt c.port.toInt))

def requestHead (c : Client) (length : Nat) : Bytes :=
  bytes "POST " ++ (c.uri ++ bytes " HTTP/1.1") ++ 13 :: 10 :: (bytes "User-Agent: " ++ robotRpcVersion ++ 13 :: 10 ::
    (hostLine c ++ 13 :: 10 :: (bytes "Content-Type: text/xml" ++ 13 :: 10 ::
      (bytes "Content-length: " ++ printNat length))))

theorem generateHeader_eq (c : Client) (length : Nat) : c.generateHeader length = requestHead c length ++ blankLine := by
  have hVersion : bytes " HTTP/1.1\r\nUser-Agent: " = bytes " HTTP/1.1" ++ 13 :: 10 :: bytes "User-Agent: " := by decide
  have hHost : bytes "\r\nHost: " = 13 :: 10 :: bytes "Host: " := by decide
  have hType : bytes "Content-Type: text/xml\r\nContent-length: " =
      bytes "Content-Type: text/xml" ++ 13 :: 10 :: bytes "Content-length: " := by decide
  have hColon : bytes ":" = [58] := by decide
  have hBreak : bytes "\r\n" = [13, 10] := by decide
  have hBlank : bytes "\r\n\r\n" = blankLine := by decide
  simp only [Client.generateHeader, requestHead, hostLine, hVersion, hHost, hType, hColon, hBreak, hBlank,
    List.append_assoc, List.cons_append, List.nil_append]

theorem requestHead_unbroken {c : Client} (h : PlainTarget c) (length : Nat) : Unbroken (requestHead c length) := by
  have hPost : 10 ∉ bytes "POST " ++ (c.uri ++ bytes " HTTP/1.1") := by
    simp only [List.mem_append, not_or]
    exact ⟨by decide, h.uri.1, by decide⟩
  have hHost : 10 ∉ hostLine c := by
    simp only [hostLine, List.mem_append, List.mem_cons, not_or]
    exact ⟨by decide, h.host.1, by decide, not_mem_printInt (by decide) (by decide) _⟩
  have hLength : 10 ∉ bytes "Content-length: " ++ printNat length := by
    rw [List.mem_append, not_or]
    exact ⟨by decide, not_mem_printNat (by decide) length⟩
  exact (unbroken_line hLength).cons (c := 67) rfl (by decide) (by decide) (by decide)
    |>.cons (c := 67) rfl (by decide) (by decide) hHost
    |>.cons (c := 72) rfl (by decide) (by decide) (by decide)
    |>.cons (c := 85) rfl (by decide) (by decide) hPost

theorem requestHead_framed {c : Client} (h : PlainTarget c) {body : Bytes} (hBody : body ≠ [])
    (hLength : body.length ≤ intMax) : Framed (requestHead c body.length) body body.length := by
  refine framed_of_unbroken hBody hLength (requestHead_unbroken h body.length) ?_
  exact fieldValue_line (fieldValue_line (fieldValue_line (fieldValue_line (fieldValue_contentLength body.length) _) _) _) _

/-! ## The connection field -/

def connectionEnd : Bytes := bytes "n: "

theorem connectionEnd_line (line next : Bytes) : connectionEnd <:+: (line ++ 13 :: 10 :: next).map tolower ↔
    connectionEnd <:+: line.map tolower ∨ connectionEnd <:+: next.map tolower := by
  have hNonempty : connectionEnd ≠ [] := by decide
  have hNext := infix_append_cons_iff (c := 10) (by decide) hNonempty [] (next.map tolower)
  rw [List.nil_append, List.infix_nil] at hNext
  rw [List.map_append, List.map_cons, List.map_cons]
  refine (infix_append_cons_iff (c := 13) (by decide) (by decide) _ _).trans (or_congr_right ?_)
  exact hNext.trans (or_iff_right hNonempty)

theorem connectionEnd_field {front value : Bytes} {c : UInt8} (hFront : ¬ connectionEnd <:+: front) (hc : c ∉ connectionEnd)
    (hValue : 32 ∉ value) : ¬ connectionEnd <:+: front ++ c :: 58 :: 32 :: value := by
  rw [infix_append_cons_iff hc (by decide), List.infix_cons_iff, List.infix_cons_iff]
  rintro (hBefore | hColon | hBlank | hInside)
  · exact hFront hBefore
  · exact absurd (List.cons_prefix_cons.mp hColon).1 (by decide)
  · exact absurd (List.cons_prefix_cons.mp hBlank).1 (by decide)
  · exact hValue (hInside.subset (by decide))

theorem tolower_eq_iff {b c : UInt8} (hc : c < 97) : tolower b = c → b = c := by
  rw [tolower]
  split
  · rename_i hLetter
    intro hEq
    have hSum : (b + 32).toNat = b.toNat + 32 := by
      have := UInt8.le_iff_toNat_le.mp hLetter.2
      rw [UInt8.toNat_add]
      simp only [UInt8.reduceToNat] at this ⊢
      omega
    have hLow := UInt8.le_iff_toNat_le.mp hLetter.1
    have hLess := UInt8.lt_iff_toNat_lt.mp hc
    rw [← hEq, hSum] at hLess
    simp only [UInt8.reduceToNat] at hLow hLess
    omega
  · exact id

theorem not_mem_map_tolower {text : Bytes} {c : UInt8} (hc : c < 97) (h : c ∉ text) : c ∉ text.map tolower := by
  intro hMem
  obtain ⟨b, hb, hEq⟩ := List.mem_map.mp hMem
  exact h (tolower_eq_iff hc hEq ▸ hb)

theorem requestHead_connection {c : Client} (h : PlainTarget c) (length : Nat) :
    fieldValue (bytes "Connection: ") (requestHead c length) = none := by
  refine fieldValue_none fun hInfix => ?_
  have hEnd : connectionEnd <:+: (requestHead c length).map tolower := List.IsInfix.trans (by decide +kernel) hInfix
  have hDigits : 32 ∉ (printNat length).map tolower := not_mem_map_tolower (by decide) (not_mem_printNat (by decide) length)
  have hValue : 32 ∉ (c.host ++ (58 :: printInt c.port.toInt)).map tolower := by
    refine not_mem_map_tolower (by decide) ?_
    rw [List.mem_append, List.mem_cons, not_or, not_or]
    exact ⟨h.host.2, by decide, not_mem_printInt (by decide) (by decide) _⟩
  have hLengthLine : (bytes "Content-length: " ++ printNat length).map tolower =
      bytes "content-lengt" ++ 104 :: 58 :: 32 :: (printNat length).map tolower := List.map_append
  have hHostLine : (hostLine c).map tolower =
      bytes "hos" ++ 116 :: 58 :: 32 :: (c.host ++ (58 :: printInt c.port.toInt)).map tolower := List.map_append
  rw [requestHead, connectionEnd_line, connectionEnd_line, connectionEnd_line, connectionEnd_line] at hEnd
  obtain hPost | hAgent | hHost | hType | hLength := hEnd
  · have hColon : 58 ∉ (bytes "POST " ++ (c.uri ++ bytes " HTTP/1.1")).map tolower := by
      refine not_mem_map_tolower (by decide) ?_
      rw [List.mem_append, List.mem_append, not_or, not_or]
      exact ⟨by decide, h.uri.2, by decide⟩
    exact hColon (hPost.subset (by decide))
  · exact absurd hAgent (by decide +kernel)
  · rw [hHostLine] at hHost
    exact connectionEnd_field (by decide +kernel) (by decide) hValue hHost
  · exact absurd hType (by decide +kernel)
  · rw [hLengthLine] at hLength
    exact connectionEnd_field (by decide +kernel) (by decide) hDigits hLength

theorem requestHead_keptAlive {c : Client} (h : PlainTarget c) {body part : Bytes} (hPart : part <+: body)
    (hVersion : ¬ bytes "HTTP/1.0" <:+: requestHead c body.length ++ (blankLine ++ body)) :
    keepAliveWith (requestHead c body.length) part = true := by
  have hHead : ¬ bytes "HTTP/1.0" <:+: requestHead c body.length := fun hInfix =>
    hVersion (hInfix.trans (List.prefix_append _ _).isInfix)
  have hBody : ¬ bytes "HTTP/1.0" <:+: part := fun hInfix =>
    hVersion ((hInfix.trans hPart.isInfix).trans
      ((List.suffix_append blankLine body).trans (List.suffix_append _ _)).isInfix)
  simp only [keepAliveWith, requestHead_connection h, keptAlive, hHead, hBody, or_self, decide_false, Bool.false_eq_true,
    if_false, Option.any_none, Bool.not_false]

/-! ## Responses -/

def responseHead (length : Nat) : Bytes :=
  bytes "HTTP/1.1 200 OK" ++ 13 :: 10 :: (bytes "Server: " ++ robotRpcVersion ++ 13 :: 10 ::
    (bytes "Content-Type: text/xml" ++ 13 :: 10 :: (bytes "Content-length: " ++ printNat length)))

theorem responseHeader_eq {body : Bytes} (hLength : body.length ≤ intMax) :
    responseHeader body = responseHead body.length ++ blankLine := by
  have hServer : bytes "HTTP/1.1 200 OK\r\nServer: " = bytes "HTTP/1.1 200 OK" ++ 13 :: 10 :: bytes "Server: " := by decide
  have hType : bytes "\r\nContent-Type: text/xml\r\nContent-length: " =
      13 :: 10 :: (bytes "Content-Type: text/xml" ++ 13 :: 10 :: bytes "Content-length: ") := by decide
  have hBlank : bytes "\r\n\r\n" = blankLine := by decide
  have hNumber : printInt (Int32.ofNat body.length).toInt = printNat body.length := by
    rw [intMax] at hLength
    rw [Int32.toInt_ofNat_of_lt (by omega), printInt, if_neg (by omega), Int.natAbs_natCast]
  simp only [responseHeader, responseHead, hServer, hType, hBlank, hNumber, List.append_assoc, List.cons_append]

theorem responseHead_framed {body : Bytes} (hBody : body ≠ []) (hLength : body.length ≤ intMax) :
    Framed (responseHead body.length) body body.length := by
  have hDigits : 10 ∉ bytes "Content-length: " ++ printNat body.length := by
    rw [List.mem_append, not_or]
    exact ⟨by decide, not_mem_printNat (by decide) body.length⟩
  refine framed_of_unbroken hBody hLength ?_ ?_
  · exact (unbroken_line hDigits).cons (c := 67) rfl (by decide) (by decide) (by decide)
      |>.cons (c := 67) rfl (by decide) (by decide) (by decide)
      |>.cons (c := 83) rfl (by decide) (by decide) (by decide)
  · exact fieldValue_line (fieldValue_line (fieldValue_line (fieldValue_contentLength body.length) _) _) _

end XcRos.Rpc
