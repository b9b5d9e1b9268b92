import Mathlib.Data.List.Infix
import XcRos.Rpc.ServerConnection
import XcRos.Rpc.Value

/-! # How a request arrives

The server's connection over the whole of its input, whichever way that is cut: which request it has when it turns to
the response. An answer of the socket that would block ends an event.
-/

namespace XcRos.Rpc

open XcRos.Foundation

/-! ## The input of a connection -/

/-- What is left of the input when `nbRead` has returned. -/
def afterRead : List ReadResult → List ReadResult
  | [] => []
  | .data _ _ :: reads => afterRead reads
  | _ :: reads => reads

structure Feed where
  conn : ServerConnection
  reads : List ReadResult
deriving DecidableEq, Repr

namespace Feed

def readHeader (f : Feed) : Bool × Feed :=
  let r := f.conn.readHeader f.reads
  (r.1, ⟨r.2, afterRead f.reads⟩)

def readRequest (f : Feed) : Bool × Feed :=
  let r := f.conn.readRequest f.reads
  (r.1, ⟨r.2, if Int32.ofNat f.conn.request.length < f.conn.contentLength then afterRead f.reads else f.reads⟩)

/-- `handleEvent` up to the response. -/
def readEvent (f : Feed) : Mask × Feed :=
  f |> stage (·.conn.connectionState = .readHeader) readHeader
    (stage (·.conn.connectionState = .readRequest) readRequest fun f => (f.conn.wanted, f))

/-- The connection as it turns to the response, unless it is closed or its input ends before. -/
def receive : Nat → Feed → Option ServerConnection
  | 0, _ => none
  | fuel + 1, f =>
    let r := f.readEvent
    if r.1 = .none then none
    else if r.2.conn.connectionState = .writeResponse then some r.2.conn
    else if r.2.reads = [] then none
    else receive fuel r.2

end Feed


/-- The loop of `parseRequest`. A parameter that is no value is invalid and takes no text. -/
def paramsFromXml [DoubleText] (xml : Bytes) : Nat → Nat → List Value
  | 0, _ => []
  | fuel + 1, offset =>
    match nextTagIs (bytes "<param>") xml offset with
    | none => []
    | some offset =>
      let r := fromXml xml offset
      (r.map Prod.fst).getD .invalid ::
        paramsFromXml xml fuel (skipTag (bytes "</param>") xml ((r.map Prod.snd).getD offset))

/-- `parseRequest`: the method name and the parameters. -/
def parseRequest [DoubleText] (request : Bytes) : Bytes × List Value :=
  let methodName := parseTag (bytes "<methodName>") request 0
  if 0 < methodName.1.length then
    match findTag (bytes "<params>") request methodName.2 with
    | some offset => (methodName.1, paramsFromXml request request.length offset)
    | none => (methodName.1, [])
  else (methodName.1, [])

structure Dispatched where
  request : Bytes
  methodName : Bytes
  params : List Value
  keepAlive : Bool

def dispatched [DoubleText] (reads : List ReadResult) : Option Dispatched :=
  (Feed.receive (reads.length + 1) ⟨.new, reads⟩).map fun c =>
    ⟨c.request, (parseRequest c.request).1, (parseRequest c.request).2, c.keepAlive⟩

/-! ## Streams -/

def fieldValue (name : Bytes) : Bytes → Option Bytes
  | [] => none
  | c :: rest =>
    (fieldValue name rest).or
      (if ServerConnection.startsNoCase name (c :: rest) then some ((c :: rest).drop name.length) else none)

def blankLine : Bytes := [13, 10, 13, 10]

/-- A request: the header lines with the first blank line behind them, and a body as long as they say. -/
structure Framed (head body : Bytes) (n : Nat) : Prop where
  ends : ∀ i < head.length,
    ¬ blankLine <+: (head ++ blankLine).drop i ∧ ¬ [10, 10] <+: (head ++ blankLine).drop i
  contentLength : (fieldValue (bytes "Content-length: ") head).map (fun value => (strtol value).1) = some (n : Int)
  positive : 0 < n
  exact : body.length = n

def ReadResult.text : ReadResult → Bytes
  | .data first rest => first :: rest
  | _ => []

/-- The answers of a socket that cut the stream, and may make the reader wait in between. -/
structure Cuts (stream : Bytes) (reads : List ReadResult) : Prop where
  answers : ∀ r ∈ reads, r ≠ .eof ∧ r ≠ .fatalError
  text : reads.flatMap ReadResult.text = stream

def ChunkingIndependent [DoubleText] (stream : Bytes) : Prop :=
  ∃ request, ∀ reads, Cuts stream reads → dispatched reads = some request

theorem handleEvent_eq (c : ServerConnection) (reads : List ReadResult) (executed : Bytes) (writes : List WriteResult) :
    c.handleEvent ⟨reads, if c.connectionState = .readHeader then afterRead reads else reads, executed, writes⟩ =
      if (Feed.readEvent ⟨c, reads⟩).1 = .none then (.none, (Feed.readEvent ⟨c, reads⟩).2.conn)
      else stage (·.connectionState = .writeResponse) (·.writeResponse executed writes) (fun c => (c.wanted, c))
        (Feed.readEvent ⟨c, reads⟩).2.conn := by
  have hWanted (c : ServerConnection) : c.wanted ≠ .none := by
    rw [ServerConnection.wanted]
    split <;> decide
  cases hState : c.connectionState with
  | readHeader =>
    cases hHeader : (c.readHeader reads).1 with
    | false => simp [ServerConnection.handleEvent, Feed.readEvent, stage, hState, Feed.readHeader, hHeader]
    | true =>
      by_cases hNext : (c.readHeader reads).2.connectionState = .readRequest
      · cases hRequest : ((c.readHeader reads).2.readRequest (afterRead reads)).1 with
        | false =>
          simp [ServerConnection.handleEvent, Feed.readEvent, stage, hState, Feed.readHeader, hHeader, hNext,
            Feed.readRequest, hRequest]
        | true =>
          simp [ServerConnection.handleEvent, Feed.readEvent, stage, hState, Feed.readHeader, hHeader, hNext,
            Feed.readRequest, hRequest, hWanted]
      · simp [ServerConnection.handleEvent, Feed.readEvent, stage, hState, Feed.readHeader, hHeader, hNext, hWanted]
  | readRequest =>
    cases hRequest : (c.readRequest reads).1 with
    | false => simp [ServerConnection.handleEvent, Feed.readEvent, stage, hState, Feed.readRequest, hRequest]
    | true => simp [ServerConnection.handleEvent, Feed.readEvent, stage, hState, Feed.readRequest, hRequest, hWanted]
  | writeResponse => simp [ServerConnection.handleEvent, Feed.readEvent, stage, hState, hWanted]

/-! ## Scanning -/

theorem startsNoCase_line {name : Bytes} (hName : 13 ∉ name.map tolower) (front rest : Bytes) :
    ServerConnection.startsNoCase name (front ++ 13 :: rest) = ServerConnection.startsNoCase name front := by
  rw [ServerConnection.startsNoCase, ServerConnection.startsNoCase, Bool.eq_iff_iff, List.isPrefixOf_iff_prefix,
    List.isPrefixOf_iff_prefix, List.map_append, List.map_cons]
  exact prefix_append_cons_iff hName _ _

theorem startsNoCase_length {name text : Bytes} (h : ServerConnection.startsNoCase name text = true) :
    name.length ≤ text.length := by
  have := (List.isPrefixOf_iff_prefix.mp h).length_le
  rwa [List.length_map, List.length_map] at this

theorem matchesNoCase_line {name : Bytes} (hName : 13 ∉ name.map tolower) (front rest : Bytes) :
    matchesNoCase name (front ++ 13 :: rest) = ServerConnection.startsNoCase name front := by
  rw [← startsNoCase_line hName front rest]
  cases hStarts : ServerConnection.startsNoCase name (front ++ 13 :: rest) with
  | false =>
    rw [matchesNoCase]
    rw [ServerConnection.startsNoCase] at hStarts
    rw [hStarts, Bool.and_false]
  | true =>
    have hLength := startsNoCase_length ((startsNoCase_line hName front rest).symm.trans hStarts)
    rw [ServerConnection.startsNoCase] at hStarts
    rw [matchesNoCase, hStarts, Bool.and_true, decide_eq_true_eq, List.length_append, List.length_cons]
    omega

theorem startsNoCase_apart {text : Bytes} (h : ServerConnection.startsNoCase (bytes "Content-length: ") text = true) :
    ServerConnection.startsNoCase (bytes "Connection: ") text = false := by
  rw [Bool.eq_false_iff]
  intro hOther
  have hPrefix := List.prefix_of_prefix_length_le (List.isPrefixOf_iff_prefix.mp hOther)
    (List.isPrefixOf_iff_prefix.mp h) (by decide)
  exact absurd hPrefix (by decide)

theorem scanHeader_lines {head rest : Bytes} (hRest : rest ≠ [])
    (hEnds : ∀ i < head.length, ¬ blankLine <+: (head ++ (blankLine ++ rest)).drop i ∧
      ¬ [10, 10] <+: (head ++ (blankLine ++ rest)).drop i) (found : HeaderScan) :
    scanHeader true found (head ++ (blankLine ++ rest)) =
      ⟨((fieldValue (bytes "Content-length: ") head).map (· ++ (blankLine ++ rest))).or found.lp,
        ((fieldValue (bytes "Connection: ") head).map (· ++ (blankLine ++ rest))).or found.kp, some rest⟩ := by
  have hLpLine (front : Bytes) := matchesNoCase_line (show 13 ∉ (bytes "Content-length: ").map tolower by decide)
    front (10 :: 13 :: 10 :: rest)
  have hKpLine (front : Bytes) := matchesNoCase_line (show 13 ∉ (bytes "Connection: ").map tolower by decide)
    front (10 :: 13 :: 10 :: rest)
  induction head generalizing found with
  | nil =>
    have hLp : matchesNoCase (bytes "Content-length: ") (13 :: 10 :: 13 :: 10 :: rest) = false := hLpLine []
    have hKp : matchesNoCase (bytes "Connection: ") (13 :: 10 :: 13 :: 10 :: rest) = false := hKpLine []
    have hBp : matchesExact [13, 10, 13, 10] (13 :: 10 :: 13 :: 10 :: rest) = true := by
      have hLength : 0 < rest.length := List.length_pos_iff.mpr hRest
      simp [matchesExact, hLength]
    show scanHeader true found (13 :: 10 :: 13 :: 10 :: rest) = _
    rw [scanHeader]
    simp only [hLp, hKp, hBp, Bool.false_eq_true, if_false, Bool.and_false, if_true]
    rfl
  | cons c head ih =>
    have hEnds' : ∀ i < head.length, ¬ blankLine <+: (head ++ (blankLine ++ rest)).drop i ∧
        ¬ [10, 10] <+: (head ++ (blankLine ++ rest)).drop i := fun i hi => hEnds (i + 1) (Nat.succ_lt_succ hi)
    obtain ⟨hBlank, hBreak⟩ := hEnds 0 (Nat.succ_pos _)
    have hLp : matchesNoCase (bytes "Content-length: ") (c :: (head ++ (blankLine ++ rest))) =
        ServerConnection.startsNoCase (bytes "Content-length: ") (c :: head) := hLpLine (c :: head)
    have hKp : matchesNoCase (bytes "Connection: ") (c :: (head ++ (blankLine ++ rest))) =
        ServerConnection.startsNoCase (bytes "Connection: ") (c :: head) := hKpLine (c :: head)
    have hNoBlank : matchesExact [13, 10, 13, 10] (c :: (head ++ (blankLine ++ rest))) = false := by
      rw [matchesExact, Bool.and_eq_false_iff]
      exact .inr (Bool.eq_false_iff.mpr fun h => hBlank (List.isPrefixOf_iff_prefix.mp h))
    have hNoBreak : matchesExact [10, 10] (c :: (head ++ (blankLine ++ rest))) = false := by
      rw [matchesExact, Bool.and_eq_false_iff]
      exact .inr (Bool.eq_false_iff.mpr fun h => hBreak (List.isPrefixOf_iff_prefix.mp h))
    rw [List.cons_append, scanHeader]
    simp only [hLp, hKp, hNoBlank, hNoBreak, Bool.true_and, Bool.false_eq_true, if_false]
    have hDrop (n : Nat) (h : n ≤ (c :: head).length) :
        (c :: (head ++ (blankLine ++ rest))).drop n = (c :: head).drop n ++ (blankLine ++ rest) :=
      @List.drop_append_of_le_length _ (c :: head) (blankLine ++ rest) n h
    cases hStarts : ServerConnection.startsNoCase (bytes "Content-length: ") (c :: head) with
    | true =>
      rw [if_pos rfl, ih hEnds', hDrop 16 (startsNoCase_length hStarts), fieldValue, fieldValue, hStarts,
        startsNoCase_apart hStarts]
      simp only [if_true, Bool.false_eq_true, if_false, Option.or_none]
      cases fieldValue (bytes "Content-length: ") head <;> rfl
    | false =>
      rw [fieldValue, fieldValue, hStarts]
      simp only [Bool.false_eq_true, if_false, Option.or_none]
      cases hConnection : ServerConnection.startsNoCase (bytes "Connection: ") (c :: head) with
      | true =>
        rw [if_pos rfl, if_pos rfl, ih hEnds', hDrop 12 (startsNoCase_length hConnection)]
        cases fieldValue (bytes "Connection: ") head <;> rfl
      | false =>
        simp only [Bool.false_eq_true, if_false, Option.or_none]
        exact ih hEnds' found

theorem scanHeader_bp {text : Bytes}
    (hEnds : ∀ i, matchesExact blankLine (text.drop i) = false ∧ matchesExact [10, 10] (text.drop i) = false)
    {found : HeaderScan} (hNone : found.bp = none) : (scanHeader true found text).bp = none := by
  induction text generalizing found with
  | nil => exact hNone
  | cons c rest ih =>
    obtain ⟨hBlank, hBreak⟩ := hEnds 0
    rw [blankLine] at hBlank
    rw [List.drop_zero] at hBlank hBreak
    have ih' {found : HeaderScan} := @ih (fun i => hEnds (i + 1)) found
    rw [scanHeader]
    simp only [hBlank, hBreak, Bool.false_eq_true, if_false]
    split
    · exact ih' hNone
    · split
      · exact ih' hNone
      · exact ih' hNone

variable {head body : Bytes} {n : Nat}

theorem Framed.ends_append (h : Framed head body n) (rest : Bytes) (i : Nat) (hi : i < head.length) :
    ¬ blankLine <+: (head ++ (blankLine ++ rest)).drop i ∧ ¬ [10, 10] <+: (head ++ (blankLine ++ rest)).drop i := by
  have hDrop : (head ++ (blankLine ++ rest)).drop i = (head ++ blankLine).drop i ++ rest := by
    rw [← List.append_assoc]
    exact List.drop_append_of_le_length (by rw [List.length_append]; omega)
  have hLength : 4 ≤ ((head ++ blankLine).drop i).length := by
    rw [List.length_drop, List.length_append]
    show 4 ≤ head.length + 4 - i
    omega
  rw [hDrop]
  refine ⟨fun hBlank => (h.ends i hi).1 ?_, fun hBreak => (h.ends i hi).2 ?_⟩
  · exact List.prefix_of_prefix_length_le hBlank (List.prefix_append _ _) hLength
  · exact List.prefix_of_prefix_length_le hBreak (List.prefix_append _ _) (Nat.le_trans (by decide) hLength)

theorem Framed.incomplete (h : Framed head body n) {text : Bytes} (hText : text <+: head ++ blankLine) :
    (scanHeader true ⟨none, none, none⟩ text).bp = none := by
  obtain ⟨rest, hRest⟩ := hText
  have hLength := congrArg List.length hRest
  rw [List.length_append, List.length_append] at hLength
  have hBlankLine : blankLine.length = 4 := rfl
  have hDrop (i : Nat) : (head ++ blankLine).drop i = text.drop i ++ rest.drop (i - text.length) := by
    rw [← hRest, List.drop_append]
  refine scanHeader_bp (fun i => ⟨?_, ?_⟩) rfl
  · rw [Bool.eq_false_iff]
    intro hMatch
    obtain ⟨hLong, hPrefix⟩ := Bool.and_eq_true_iff.mp hMatch
    have hMore := of_decide_eq_true hLong
    rw [List.length_drop] at hMore
    have hEnd := (List.isPrefixOf_iff_prefix.mp hPrefix).trans (List.prefix_append _ (rest.drop (i - text.length)))
    rw [← hDrop] at hEnd
    exact (h.ends i (by omega)).1 hEnd
  · rw [Bool.eq_false_iff]
    intro hMatch
    obtain ⟨hLong, hPrefix⟩ := Bool.and_eq_true_iff.mp hMatch
    have hMore := of_decide_eq_true hLong
    rw [List.length_drop] at hMore
    have hTwo : ([10, 10] : Bytes).length = 2 := rfl
    have hEnd := (List.isPrefixOf_iff_prefix.mp hPrefix).trans (List.prefix_append _ (rest.drop (i - text.length)))
    rw [← hDrop] at hEnd
    obtain hInside | rfl | rfl : i < head.length ∨ i = head.length ∨ i = head.length + 1 := by omega
    · exact (h.ends i hInside).2 hEnd
    · rw [List.drop_left] at hEnd
      exact absurd hEnd (by decide)
    · rw [← List.drop_drop, List.drop_left] at hEnd
      exact absurd hEnd (by decide)

/-! ## What a complete header says -/

theorem takeWhile_line {p : UInt8 → Bool} (hStop : p 13 = false) (front rest : Bytes) :
    (front ++ 13 :: rest).takeWhile p = front.takeWhile p := by
  rw [List.takeWhile_append]
  split
  · rw [List.takeWhile_cons_of_neg (by simp [hStop]), List.append_nil]
    exact ((List.takeWhile_prefix p).eq_of_length ‹_›).symm
  · rfl

theorem signOf_append {text : Bytes} (h : text ≠ []) (rest : Bytes) :
    signOf (text ++ rest) = signOf text ∧ (signOf text).2 ≤ text.length := by
  obtain ⟨c, tail, rfl⟩ := List.exists_cons_of_ne_nil h
  have hSign (tail : Bytes) : signOf (c :: tail) = if c = 45 then (true, 1) else if c = 43 then (false, 1) else (false, 0) := by
    unfold signOf
    split <;> simp_all
  rw [List.cons_append, hSign, hSign]
  refine ⟨rfl, ?_⟩
  split
  · exact Nat.succ_pos _
  · split
    · exact Nat.succ_pos _
    · exact Nat.zero_le _

theorem strtol_line {value : Bytes} (hValue : (strtol value).1 ≠ 0) (rest : Bytes) :
    strtol (value ++ 13 :: rest) = strtol value := by
  have hBlanks := (List.takeWhile_prefix isspace (l := value)).length_le
  have hDigits : (((value.drop (value.takeWhile isspace).length).drop
      (signOf (value.drop (value.takeWhile isspace).length)).2).takeWhile isdigit) ≠ [] := by
    intro hNone
    apply hValue
    simp only [strtol, hNone, if_true]
  have hText : value.drop (value.takeWhile isspace).length ≠ [] := by
    intro hNone
    rw [hNone] at hDigits
    exact hDigits rfl
  have hShort : (value.takeWhile isspace).length ≠ value.length := by
    intro hAll
    rw [hAll] at hText
    exact hText (List.drop_length)
  have hFront : (value ++ 13 :: rest).takeWhile isspace = value.takeWhile isspace := by
    rw [List.takeWhile_append, if_neg hShort]
  obtain ⟨hSign, hSignLength⟩ := signOf_append hText (13 :: rest)
  simp only [strtol, hFront, List.drop_append_of_le_length hBlanks, hSign, List.drop_append_of_le_length hSignLength,
    takeWhile_line (show isdigit 13 = false by decide)]

def keptAlive (oldVersion : Bool) (value : Option Bytes) : Bool :=
  if oldVersion then value.any (ServerConnection.startsNoCase (bytes "keep-alive"))
  else !value.any (ServerConnection.startsNoCase (bytes "close"))

theorem any_line {word : Bytes} (hWord : 13 ∉ word.map tolower) (value : Option Bytes) (rest : Bytes) :
    (value.map (· ++ 13 :: rest)).any (ServerConnection.startsNoCase word) =
      value.any (ServerConnection.startsNoCase word) := by
  cases value with
  | none => rfl
  | some value => exact startsNoCase_line hWord value rest

theorem keepAliveOf_eq (head rest : Bytes) :
    ServerConnection.keepAliveOf (head ++ (blankLine ++ rest))
        ((fieldValue (bytes "Connection: ") head).map (· ++ (blankLine ++ rest))) =
      keptAlive (decide (bytes "HTTP/1.0" <:+: head ∨ bytes "HTTP/1.0" <:+: rest))
        (fieldValue (bytes "Connection: ") head) := by
  have hReturn : 13 ∉ bytes "HTTP/1.0" := by decide
  have hBreak : 10 ∉ bytes "HTTP/1.0" := by decide
  have hNonempty : bytes "HTTP/1.0" ≠ [] := by decide
  have hBehind : bytes "HTTP/1.0" <:+: 10 :: 13 :: 10 :: rest ↔ bytes "HTTP/1.0" <:+: rest := by
    have h1 := infix_append_cons_iff hBreak hNonempty [] (13 :: 10 :: rest)
    have h2 := infix_append_cons_iff hReturn hNonempty [] (10 :: rest)
    have h3 := infix_append_cons_iff hBreak hNonempty [] rest
    simp only [List.nil_append, List.infix_nil, hNonempty, false_or] at h1 h2 h3
    rw [h1, h2, h3]
  have hWhere : bytes "HTTP/1.0" <:+: head ++ 13 :: 10 :: 13 :: 10 :: rest ↔
      bytes "HTTP/1.0" <:+: head ∨ bytes "HTTP/1.0" <:+: rest := by
    rw [infix_append_cons_iff hReturn hNonempty, hBehind]
  have hKeep := any_line (show 13 ∉ (bytes "keep-alive").map tolower by decide)
    (fieldValue (bytes "Connection: ") head) (10 :: 13 :: 10 :: rest)
  have hClose := any_line (show 13 ∉ (bytes "close").map tolower by decide)
    (fieldValue (bytes "Connection: ") head) (10 :: 13 :: 10 :: rest)
  show ServerConnection.keepAliveOf (head ++ 13 :: 10 :: 13 :: 10 :: rest)
    ((fieldValue (bytes "Connection: ") head).map (· ++ 13 :: 10 :: 13 :: 10 :: rest)) = _
  rw [ServerConnection.keepAliveOf, keptAlive, hKeep, hClose]
  simp only [indexOf_isSome_iff, hWhere, decide_eq_true_eq]

end XcRos.Rpc
