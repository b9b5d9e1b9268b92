import XcRos.Rpc.RequestInput
import XcRos.Rpc.ValueRoundTrip

/-! # Requests do not depend on chunking

When they do not: a request arrives in the same way however its stream is cut if it fits, has no zero byte in its body, and
does not have its HTTP version in the body.
-/

namespace XcRos.Rpc

open XcRos.Foundation

variable {head body : Bytes} {n : Nat}

/-! ## Reading -/

/-- What `nbRead` appends. -/
def firstText : List ReadResult → Bytes
  | [] => []
  | .data first rest :: reads => first :: rest ++ firstText reads
  | _ :: _ => []

theorem afterRead_subset {reads : List ReadResult} : ∀ r ∈ afterRead reads, r ∈ reads := by
  induction reads with
  | nil => simp [afterRead]
  | cons r reads ih =>
    intro r' hr'
    cases r with
    | data first rest => exact List.mem_cons_of_mem _ (ih r' hr')
    | eof | nonFatalError | fatalError => exact List.mem_cons_of_mem _ hr'

theorem afterRead_length {reads : List ReadResult} (h : reads ≠ []) : (afterRead reads).length < reads.length := by
  induction reads with
  | nil => exact absurd rfl h
  | cons r reads ih =>
    cases r with
    | data first rest =>
      show (afterRead reads).length < reads.length + 1
      cases reads with
      | nil => exact Nat.succ_pos _
      | cons r reads => exact Nat.lt_succ_of_lt (ih (List.cons_ne_nil r reads))
    | eof | nonFatalError | fatalError => exact Nat.lt_succ_self _

theorem firstText_append {reads : List ReadResult} (h : ∀ r ∈ reads, r ≠ .eof ∧ r ≠ .fatalError) :
    firstText reads ++ (afterRead reads).flatMap ReadResult.text = reads.flatMap ReadResult.text := by
  induction reads with
  | nil => rfl
  | cons r reads ih =>
    cases r with
    | data first rest =>
      rw [firstText, afterRead, List.append_assoc, ih fun r hr => h r (List.mem_cons_of_mem _ hr)]
      rfl
    | nonFatalError => rfl
    | eof => exact absurd rfl (h _ List.mem_cons_self).1
    | fatalError => exact absurd rfl (h _ List.mem_cons_self).2

theorem nbReadLoop_eq {reads : List ReadResult} (h : ∀ r ∈ reads, r ≠ .eof ∧ r ≠ .fatalError) (s : Bytes) :
    nbReadLoop s reads = ⟨true, s ++ firstText reads, false⟩ := by
  induction reads generalizing s with
  | nil => simp only [nbReadLoop, firstText, List.append_nil]
  | cons r reads ih =>
    cases r with
    | data first rest =>
      rw [nbReadLoop, ih fun r hr => h r (List.mem_cons_of_mem _ hr), firstText, List.append_assoc]
    | nonFatalError => simp only [nbReadLoop, firstText, List.append_nil]
    | eof => exact absurd rfl (h _ List.mem_cons_self).1
    | fatalError => exact absurd rfl (h _ List.mem_cons_self).2

theorem nbRead_eq {reads : List ReadResult} (h : ∀ r ∈ reads, r ≠ .eof ∧ r ≠ .fatalError) {s : Bytes}
    (hLength : (s ++ firstText reads).length ≤ intMax) : nbRead s reads = ⟨true, s ++ firstText reads, false⟩ := by
  rw [nbRead, nbReadLoop_eq h]
  simp only [true_and]
  rw [if_neg (Nat.not_lt.mpr hLength)]

theorem int32_lt {a b : Nat} (ha : a ≤ intMax) (hb : b ≤ intMax) : Int32.ofNat a < Int32.ofInt b ↔ a < b := by
  rw [intMax] at ha hb
  rw [Int32.ofInt_eq_ofNat, Int32.lt_iff_toInt_lt, Int32.toInt_ofNat_of_lt (by omega), Int32.toInt_ofNat_of_lt (by omega)]
  omega

theorem readHeader_incomplete (h : Framed head body n) {c : ServerConnection} {reads : List ReadResult}
    (hAnswers : ∀ r ∈ reads, r ≠ .eof ∧ r ≠ .fatalError) (hText : c.header ++ firstText reads <+: head ++ blankLine)
    (hLength : (c.header ++ firstText reads).length ≤ intMax) :
    c.readHeader reads = (true, { c with header := c.header ++ firstText reads }) := by
  rw [ServerConnection.readHeader, nbRead_eq hAnswers hLength]
  simp only [Bool.true_eq_false, if_false, h.incomplete hText, Bool.not_false]

theorem readHeader_complete (h : Framed head body n) {c : ServerConnection} {reads : List ReadResult}
    (hAnswers : ∀ r ∈ reads, r ≠ .eof ∧ r ≠ .fatalError) {rest : Bytes} (hRest : rest ≠ [])
    (hText : c.header ++ firstText reads = head ++ (blankLine ++ rest))
    (hLength : (head ++ (blankLine ++ rest)).length ≤ intMax) (hn : n ≤ intMax) :
    c.readHeader reads = (true, { c with
      contentLength := Int32.ofInt n
      request := cStr rest
      keepAlive := keptAlive (decide (bytes "HTTP/1.0" <:+: head ∨ bytes "HTTP/1.0" <:+: rest))
        (fieldValue (bytes "Connection: ") head)
      header := []
      connectionState := .readRequest }) := by
  obtain ⟨value, hValue, hNumber⟩ := Option.map_eq_some_iff.mp h.contentLength
  have hPositive := h.positive
  have hLine : (strtol (value ++ (blankLine ++ rest))).1 = n := by
    have := @strtol_line value (by omega) (10 :: 13 :: 10 :: rest)
    exact (congrArg Prod.fst this).trans hNumber
  have hScan := scanHeader_lines hRest (h.ends_append rest) ⟨none, none, none⟩
  simp only [hValue, Option.map_some, Option.or_none] at hScan
  rw [ServerConnection.readHeader, nbRead_eq hAnswers (hText ▸ hLength), hText]
  simp only [hScan, hLine, keepAliveOf_eq, Bool.true_eq_false, if_false]
  rw [if_neg (by omega)]

structure InBody (body : Bytes) (n : Nat) (keepAlive : Bool) (f : Feed) : Prop where
  state : f.conn.connectionState = .readRequest
  answers : ∀ r ∈ f.reads, r ≠ .eof ∧ r ≠ .fatalError
  text : f.conn.request ++ f.reads.flatMap ReadResult.text = body
  contentLength : f.conn.contentLength = Int32.ofInt n
  keepAlive : f.conn.keepAlive = keepAlive

structure Arrived (body : Bytes) (keepAlive : Bool) (c : ServerConnection) : Prop where
  state : c.connectionState = .writeResponse
  request : c.request = body
  keepAlive : c.keepAlive = keepAlive

theorem InBody.readRequest {keepAlive : Bool} {f : Feed} (h : InBody body n keepAlive f) (hExact : body.length = n)
    (hn : n ≤ intMax) :
    f.readRequest.1 = true ∧ (Arrived body keepAlive f.readRequest.2.conn ∨
      InBody body n keepAlive f.readRequest.2 ∧ f.readRequest.2.reads ≠ [] ∧
        f.readRequest.2.reads.length < f.reads.length) := by
  have hLength := congrArg List.length h.text
  rw [List.length_append, hExact] at hLength
  have hMore := int32_lt (a := f.conn.request.length) (b := n) (by omega) hn
  by_cases hPart : f.conn.request.length < n
  · have hAppend := firstText_append h.answers
    have hText : f.conn.request ++ firstText f.reads ++ (afterRead f.reads).flatMap ReadResult.text = body := by
      rw [List.append_assoc, hAppend, h.text]
    have hTextLength := congrArg List.length hText
    rw [List.length_append, hExact] at hTextLength
    have hRead := nbRead_eq (s := f.conn.request) h.answers (by omega)
    have hLess := int32_lt (a := (f.conn.request ++ firstText f.reads).length) (b := n) (by omega) hn
    rw [Feed.readRequest, ServerConnection.readRequest, h.contentLength]
    simp only [hMore, hPart, if_true, hRead, Bool.true_eq_false, if_false, hLess]
    rw [if_neg (Nat.not_lt.mpr (Nat.le_trans (by omega) hn))]
    split
    · rename_i hStill
      have hLeft : afterRead f.reads ≠ [] := by
        intro hNone
        rw [hNone, List.flatMap_nil, List.length_nil] at hTextLength
        omega
      have hReads : f.reads ≠ [] := by
        intro hNone
        rw [hNone] at hLeft
        exact hLeft rfl
      refine ⟨rfl, .inr ⟨⟨h.state, fun r hr => h.answers r (afterRead_subset r hr), hText, rfl, h.keepAlive⟩,
        hLeft, afterRead_length hReads⟩⟩
    · rename_i hAll
      have hNone := List.eq_nil_of_length_eq_zero (l := (afterRead f.reads).flatMap ReadResult.text) (by omega)
      rw [hNone, List.append_nil] at hText
      exact ⟨rfl, .inl ⟨rfl, hText, h.keepAlive⟩⟩
  · have hNone := List.eq_nil_of_length_eq_zero (l := f.reads.flatMap ReadResult.text) (by omega)
    have hText := h.text
    rw [hNone, List.append_nil] at hText
    rw [Feed.readRequest, ServerConnection.readRequest, h.contentLength]
    simp only [hMore, hPart, if_false]
    exact ⟨trivial, .inl ⟨rfl, hText, h.keepAlive⟩⟩

theorem wanted_ne_none (c : ServerConnection) : c.wanted ≠ .none := by
  rw [ServerConnection.wanted]
  split <;> decide

theorem readEvent_readRequest {f : Feed} (hState : f.conn.connectionState = .readRequest)
    (hOk : f.readRequest.1 = true) : f.readEvent = (f.readRequest.2.conn.wanted, f.readRequest.2) := by
  simp [Feed.readEvent, stage, hState, hOk]

theorem readEvent_readHeader {f : Feed} (hState : f.conn.connectionState = .readHeader)
    (hOk : f.readHeader.1 = true) :
    f.readEvent =
      if f.readHeader.2.conn.connectionState = .readRequest then f.readHeader.2.readEvent
      else (f.readHeader.2.conn.wanted, f.readHeader.2) := by
  by_cases hNext : f.readHeader.2.conn.connectionState = .readRequest
  · simp [Feed.readEvent, stage, hState, hOk, hNext]
  · simp [Feed.readEvent, stage, hState, hOk, hNext]

theorem readEvent_failed {f : Feed} (hState : f.conn.connectionState = .readHeader) (hFail : f.readHeader.1 = false) :
    f.readEvent.1 = .none := by
  simp [Feed.readEvent, stage, hState, hFail]

theorem InBody.receive_succ {keepAlive : Bool} {f g : Feed} (h : InBody body n keepAlive f) (hExact : body.length = n)
    (hn : n ≤ intMax) (hEvent : g.readEvent = f.readEvent) (fuel : Nat) :
    (∃ c, g.receive (fuel + 1) = some c ∧ Arrived body keepAlive c) ∨
      ∃ f', InBody body n keepAlive f' ∧ f'.reads.length < f.reads.length ∧ g.receive (fuel + 1) = f'.receive fuel := by
  obtain ⟨hOk, hNext⟩ := h.readRequest hExact hn
  have hEvent := hEvent.trans (readEvent_readRequest h.state hOk)
  obtain hArrived | ⟨hBody, hLeft, hFewer⟩ := hNext
  · refine .inl ⟨f.readRequest.2.conn, ?_, hArrived⟩
    simp only [Feed.receive, hEvent, wanted_ne_none, if_false, hArrived.state, if_true]
  · refine .inr ⟨f.readRequest.2, hBody, hFewer, ?_⟩
    simp only [Feed.receive, hEvent, wanted_ne_none, if_false, hBody.state, reduceCtorEq, hLeft]

theorem InBody.receive {keepAlive : Bool} {f : Feed} (h : InBody body n keepAlive f) (hExact : body.length = n)
    (hn : n ≤ intMax) {fuel : Nat} (hFuel : f.reads.length < fuel) :
    ∃ c, f.receive fuel = some c ∧ Arrived body keepAlive c := by
  induction fuel generalizing f with
  | zero => omega
  | succ fuel ih =>
    obtain hArrived | ⟨f', hBody, hFewer, hReceive⟩ := h.receive_succ hExact hn rfl fuel
    · exact hArrived
    · rw [hReceive]
      exact ih hBody (by omega)

structure InHeader (head body : Bytes) (f : Feed) : Prop where
  state : f.conn.connectionState = .readHeader
  answers : ∀ r ∈ f.reads, r ≠ .eof ∧ r ≠ .fatalError
  text : f.conn.header ++ f.reads.flatMap ReadResult.text = head ++ (blankLine ++ body)
  short : f.conn.header.length ≤ (head ++ blankLine).length

/-- What `keepAlive` becomes when the header is complete with a part of the body behind it. -/
def keepAliveWith (head part : Bytes) : Bool :=
  keptAlive (decide (bytes "HTTP/1.0" <:+: head ∨ bytes "HTTP/1.0" <:+: part)) (fieldValue (bytes "Connection: ") head)

theorem InHeader.receive_incomplete {f : Feed} (hFramed : Framed head body n) (h : InHeader head body f)
    (hLength : (head ++ (blankLine ++ body)).length ≤ intMax)
    (hShort : (f.conn.header ++ firstText f.reads).length ≤ (head ++ blankLine).length) (fuel : Nat) :
    ∃ f', InHeader head body f' ∧ f'.reads.length < f.reads.length ∧ f.receive (fuel + 1) = f'.receive fuel := by
  have hText : f.conn.header ++ firstText f.reads ++ (afterRead f.reads).flatMap ReadResult.text =
      head ++ (blankLine ++ body) := by
    rw [List.append_assoc, firstText_append h.answers, h.text]
  have hTextLength := congrArg List.length hText
  have hExact := hFramed.exact
  have hPositive := hFramed.positive
  have hPrefix : f.conn.header ++ firstText f.reads <+: head ++ blankLine :=
    List.prefix_of_prefix_length_le ⟨_, hText⟩ ⟨body, List.append_assoc _ _ _⟩ hShort
  have hFits : (f.conn.header ++ firstText f.reads).length ≤ intMax := by
    refine Nat.le_trans hPrefix.length_le (Nat.le_trans ?_ hLength)
    rw [← List.append_assoc]
    exact (List.prefix_append _ _).length_le
  have hHeader := readHeader_incomplete hFramed h.answers hPrefix hFits
  have hLeft : afterRead f.reads ≠ [] := by
    intro hNone
    rw [hNone, List.flatMap_nil, List.append_nil] at hTextLength
    simp only [List.length_append] at hTextLength hShort
    omega
  have hReads : f.reads ≠ [] := by
    intro hNone
    rw [hNone] at hLeft
    exact hLeft rfl
  have hEvent : f.readHeader =
      (true, ⟨{ f.conn with header := f.conn.header ++ firstText f.reads }, afterRead f.reads⟩) := by
    rw [Feed.readHeader, hHeader]
  refine ⟨⟨{ f.conn with header := f.conn.header ++ firstText f.reads }, afterRead f.reads⟩,
    ⟨h.state, fun r hr => h.answers r (afterRead_subset r hr), hText, hShort⟩, afterRead_length hReads, ?_⟩
  have hState := h.state
  rw [Feed.receive, readEvent_readHeader h.state (by rw [hEvent]), hEvent]
  simp only [hState, reduceCtorEq, if_false, wanted_ne_none, hLeft]

theorem InHeader.readHeader_complete {f : Feed} (hFramed : Framed head body n) (h : InHeader head body f)
    (hLength : (head ++ (blankLine ++ body)).length ≤ intMax) (hZero : 0 ∉ body) {part : Bytes} (hPart : part ≠ [])
    (hText : f.conn.header ++ firstText f.reads = head ++ (blankLine ++ part)) :
    f.readHeader.1 = true ∧ InBody body n (keepAliveWith head part) f.readHeader.2 ∧
      f.readHeader.2.reads = afterRead f.reads := by
  have hAll : head ++ (blankLine ++ part) ++ (afterRead f.reads).flatMap ReadResult.text =
      head ++ (blankLine ++ body) := by
    rw [← hText, List.append_assoc, firstText_append h.answers, h.text]
  have hBody : part ++ (afterRead f.reads).flatMap ReadResult.text = body := by
    rw [List.append_assoc, List.append_assoc] at hAll
    exact List.append_cancel_left (List.append_cancel_left hAll)
  have hExact := hFramed.exact
  have hBodyLength := congrArg List.length hBody
  rw [List.length_append] at hBodyLength
  rw [List.length_append, List.length_append] at hLength
  have hHeader := XcRos.Rpc.readHeader_complete hFramed h.answers hPart hText
    (by rw [List.length_append, List.length_append]; omega) (by omega)
  have hString : cStr part = part := by
    refine List.takeWhile_eq_self_iff.mpr fun c hc => decide_eq_true fun hEq => hZero ?_
    rw [← hBody, ← hEq]
    exact List.mem_append_left _ hc
  rw [hString] at hHeader
  rw [Feed.readHeader, hHeader]
  exact ⟨rfl, ⟨rfl, fun r hr => h.answers r (afterRead_subset r hr), hBody, rfl, rfl⟩, rfl⟩

theorem InHeader.receive_complete {f : Feed} (hFramed : Framed head body n) (h : InHeader head body f)
    (hLength : (head ++ (blankLine ++ body)).length ≤ intMax) (hZero : 0 ∉ body) {part : Bytes} (hPart : part ≠ [])
    (hText : f.conn.header ++ firstText f.reads = head ++ (blankLine ++ part)) {fuel : Nat}
    (hFuel : f.reads.length < fuel) :
    ∃ c, f.receive fuel = some c ∧ Arrived body (keepAliveWith head part) c := by
  obtain ⟨hOk, hBody, hReads⟩ := h.readHeader_complete hFramed hLength hZero hPart hText
  have hExact := hFramed.exact
  rw [List.length_append, List.length_append] at hLength
  have hEvent : f.readEvent = f.readHeader.2.readEvent := by
    rw [readEvent_readHeader h.state hOk, if_pos hBody.state]
  cases fuel with
  | zero => omega
  | succ fuel =>
    obtain hArrived | ⟨f', hNext, hFewer, hReceive⟩ := hBody.receive_succ hExact (by omega) hEvent fuel
    · exact hArrived
    · rw [hReceive]
      have hRest : (afterRead f.reads).length ≤ f.reads.length := by
        by_cases hNone : f.reads = []
        · rw [hNone]
          exact Nat.le_refl _
        · exact Nat.le_of_lt (afterRead_length hNone)
      rw [hReads] at hFewer
      exact hNext.receive hExact (by omega) (by omega)

theorem InHeader.receive {f : Feed} (hFramed : Framed head body n) (h : InHeader head body f)
    (hLength : (head ++ (blankLine ++ body)).length ≤ intMax) (hZero : 0 ∉ body) {fuel : Nat}
    (hFuel : f.reads.length < fuel) :
    ∃ c part, f.receive fuel = some c ∧ part <+: body ∧ Arrived body (keepAliveWith head part) c := by
  induction fuel generalizing f with
  | zero => omega
  | succ fuel ih =>
    by_cases hShort : (f.conn.header ++ firstText f.reads).length ≤ (head ++ blankLine).length
    · obtain ⟨f', hNext, hFewer, hReceive⟩ := h.receive_incomplete hFramed hLength hShort fuel
      rw [hReceive]
      exact ih hNext (by omega)
    · have hText : f.conn.header ++ firstText f.reads ++ (afterRead f.reads).flatMap ReadResult.text =
          head ++ blankLine ++ body := by
        rw [List.append_assoc, firstText_append h.answers, h.text, List.append_assoc]
      obtain ⟨part, hPart⟩ := List.prefix_of_prefix_length_le (List.prefix_append (head ++ blankLine) body)
        ⟨_, hText⟩ (Nat.le_of_not_le hShort)
      have hNonempty : part ≠ [] := by
        rintro rfl
        rw [List.append_nil] at hPart
        exact hShort (by rw [hPart])
      have hBody : part <+: body := by
        rw [← hPart, List.append_assoc] at hText
        exact ⟨_, List.append_cancel_left hText⟩
      obtain ⟨c, hReceive, hArrived⟩ := h.receive_complete hFramed hLength hZero hNonempty
        (by rw [← hPart, List.append_assoc]) hFuel
      exact ⟨c, part, hReceive, hBody, hArrived⟩

/-! ## Chunking -/

def singles (s : Bytes) : List ReadResult := s.map fun c => .data c []

theorem singles_answers (s : Bytes) : ∀ r ∈ singles s, r ≠ .eof ∧ r ≠ .fatalError := by
  intro r hr
  obtain ⟨c, -, rfl⟩ := List.mem_map.mp hr
  exact ⟨by simp, by simp⟩

theorem singles_text (s : Bytes) : (singles s).flatMap ReadResult.text = s := by
  induction s with
  | nil => rfl
  | cons c s ih => exact congrArg (c :: ·) ih

theorem firstText_singles (s : Bytes) (reads : List ReadResult) :
    firstText (singles s ++ reads) = s ++ firstText reads ∧ afterRead (singles s ++ reads) = afterRead reads := by
  induction s with
  | nil => exact ⟨rfl, rfl⟩
  | cons c s ih => exact ⟨congrArg (c :: ·) ih.1, ih.2⟩

theorem cuts_singles (s : Bytes) : Cuts s (singles s) := ⟨singles_answers s, singles_text s⟩

theorem cuts_wait (s t : Bytes) : Cuts (s ++ t) (singles s ++ .nonFatalError :: singles t) := by
  constructor
  · intro r hr
    obtain hFront | hRest := List.mem_append.mp hr
    · exact singles_answers s r hFront
    · obtain rfl | hRest := List.mem_cons.mp hRest
      · exact ⟨by simp, by simp⟩
      · exact singles_answers t r hRest
  · rw [List.flatMap_append, List.flatMap_cons, singles_text, singles_text]
    rfl

theorem Cuts.inHeader {reads : List ReadResult} (h : Cuts (head ++ (blankLine ++ body)) reads) :
    InHeader head body ⟨.new, reads⟩ := ⟨rfl, h.answers, h.text, Nat.zero_le _⟩

theorem dispatched_eq [DoubleText] {reads : List ReadResult} {c : ServerConnection} {keepAlive : Bool}
    (hReceive : Feed.receive (reads.length + 1) ⟨.new, reads⟩ = some c) (h : Arrived body keepAlive c) :
    dispatched reads = some ⟨body, (parseRequest body).1, (parseRequest body).2, keepAlive⟩ := by
  rw [dispatched, hReceive, Option.map_some, h.request, h.keepAlive]

theorem dispatched_long [DoubleText] {s : Bytes} (hLong : intMax < s.length) : dispatched (singles s) = none := by
  have hRead : (nbRead [] (singles s)).ok = false := by
    have hText := (firstText_singles s []).1
    rw [List.append_nil] at hText
    rw [nbRead, nbReadLoop_eq (singles_answers s), hText]
    simp [firstText, hLong]
  have hHeader : (Feed.readHeader ⟨.new, singles s⟩).1 = false := by
    simp only [Feed.readHeader, ServerConnection.readHeader, ServerConnection.new, hRead, if_true]
  have hEvent : (Feed.readEvent ⟨.new, singles s⟩).1 = .none := by
    exact readEvent_failed rfl hHeader
  rw [dispatched, Feed.receive]
  simp only [hEvent, if_true, Option.map_none]

theorem dispatched_zero [DoubleText] (hFramed : Framed head body n)
    (hLength : (head ++ (blankLine ++ body)).length ≤ intMax) (hZero : 0 ∈ body) :
    dispatched (singles (head ++ (blankLine ++ body))) = none := by
  have hExact := hFramed.exact
  have hn : n ≤ intMax := by
    simp only [List.length_append] at hLength
    omega
  have hAnswers := singles_answers (head ++ (blankLine ++ body))
  obtain ⟨hText, hAfter⟩ := firstText_singles (head ++ (blankLine ++ body)) []
  simp only [List.append_nil, firstText, afterRead] at hText hAfter
  have hCut : (cStr body).length < n := by
    have hPrefix : cStr body <+: body := List.takeWhile_prefix _
    refine Nat.lt_of_le_of_ne (hExact ▸ hPrefix.length_le) fun hEq => ?_
    have hAll := List.takeWhile_eq_self_iff.mp (hPrefix.eq_of_length (hEq.trans hExact.symm)) 0 hZero
    exact absurd hAll (by decide)
  have hHeader := readHeader_complete hFramed (c := .new) hAnswers (List.ne_nil_of_mem hZero)
    (show [] ++ firstText _ = _ from hText) hLength hn
  have hFeed : (Feed.readHeader ⟨.new, singles (head ++ (blankLine ++ body))⟩).1 = true ∧
      (Feed.readHeader ⟨.new, singles (head ++ (blankLine ++ body))⟩).2.conn.connectionState = .readRequest ∧
      (Feed.readHeader ⟨.new, singles (head ++ (blankLine ++ body))⟩).2.conn.request = cStr body ∧
      (Feed.readHeader ⟨.new, singles (head ++ (blankLine ++ body))⟩).2.conn.contentLength = Int32.ofInt n ∧
      (Feed.readHeader ⟨.new, singles (head ++ (blankLine ++ body))⟩).2.reads = [] := by
    rw [Feed.readHeader, hHeader]
    exact ⟨rfl, rfl, rfl, rfl, hAfter⟩
  obtain ⟨hOk, hState, hRequest, hContent, hReads⟩ := hFeed
  generalize hNext : (Feed.readHeader ⟨.new, singles (head ++ (blankLine ++ body))⟩).2 = f at *
  have hRead : nbRead (cStr body) [] = ⟨true, cStr body, false⟩ := by
    have := @nbRead_eq [] (by simp) (cStr body) (by simp only [firstText, List.append_nil]; omega)
    rwa [firstText, List.append_nil] at this
  have hLess := (int32_lt (a := (cStr body).length) (b := n) (by omega) hn).mpr hCut
  have hStay : f.readRequest = (true, ⟨{ f.conn with request := cStr body }, []⟩) := by
    rw [Feed.readRequest, ServerConnection.readRequest, hRequest, hContent, hReads]
    simp only [hLess, if_true, hRead, Bool.true_eq_false, if_false]
    rw [if_neg (Nat.not_lt.mpr (by omega)), hContent]
    rfl
  have hEvent : (Feed.readEvent ⟨.new, singles (head ++ (blankLine ++ body))⟩) =
      (f.readRequest.2.conn.wanted, f.readRequest.2) := by
    rw [readEvent_readHeader rfl hOk, hNext, if_pos hState, readEvent_readRequest hState (by rw [hStay])]
  rw [dispatched, Feed.receive]
  simp only [hEvent, wanted_ne_none, if_false, hStay, hState, reduceCtorEq, if_true, Option.map_none]

theorem keepAlive_apart {value : Option Bytes}
    (h : value.any (ServerConnection.startsNoCase (bytes "keep-alive")) = true) :
    value.any (ServerConnection.startsNoCase (bytes "close")) = false := by
  cases value with
  | none => rfl
  | some value =>
    refine Bool.eq_false_iff.mpr fun hClose => ?_
    have hPrefix := List.prefix_of_prefix_length_le (List.isPrefixOf_iff_prefix.mp hClose)
      (List.isPrefixOf_iff_prefix.mp h) (by decide)
    exact absurd hPrefix (by decide)

theorem keepAliveWith_iff (head part : Bytes) :
    keepAliveWith head part = keepAliveWith head [] ↔
      (bytes "HTTP/1.0" <:+: head ∨ ¬ bytes "HTTP/1.0" <:+: part ∨
        (fieldValue (bytes "Connection: ") head).any (ServerConnection.startsNoCase (bytes "keep-alive")) ∨
        (fieldValue (bytes "Connection: ") head).any (ServerConnection.startsNoCase (bytes "close"))) := by
  have hApart := @keepAlive_apart (fieldValue (bytes "Connection: ") head)
  have hEmpty : ¬ bytes "HTTP/1.0" <:+: [] := by
    rw [List.infix_nil]
    decide
  by_cases hHead : bytes "HTTP/1.0" <:+: head
  · simp only [keepAliveWith, hHead, true_or]
  · by_cases hPart : bytes "HTTP/1.0" <:+: part
    · simp only [keepAliveWith, hHead, hPart, hEmpty, keptAlive, false_or, or_self, decide_true, decide_false, if_true,
        not_true, Bool.false_eq_true, if_false]
      cases hKeep : (fieldValue (bytes "Connection: ") head).any (ServerConnection.startsNoCase (bytes "keep-alive")) with
      | true => rw [hApart hKeep]; decide
      | false => cases (fieldValue (bytes "Connection: ") head).any (ServerConnection.startsNoCase (bytes "close")) <;> decide
    · simp only [keepAliveWith, hHead, hPart, hEmpty, false_or, not_false_eq_true, true_or]

/-- A request is dispatched in the same way however it is cut exactly if it fits, its body has no zero byte, and its
version does not depend on the body. -/
theorem chunkingIndependent_iff [DoubleText] (h : Framed head body n) :
    ChunkingIndependent (head ++ (blankLine ++ body)) ↔
      (head ++ (blankLine ++ body)).length ≤ intMax ∧ 0 ∉ body ∧
        (bytes "HTTP/1.0" <:+: head ∨ ¬ bytes "HTTP/1.0" <:+: body ∨
          (fieldValue (bytes "Connection: ") head).any (ServerConnection.startsNoCase (bytes "keep-alive")) ∨
          (fieldValue (bytes "Connection: ") head).any (ServerConnection.startsNoCase (bytes "close"))) := by
  have hExact := h.exact
  have hPositive := h.positive
  constructor
  · rintro ⟨request, hSame⟩
    have hOnce := hSame _ (cuts_singles (head ++ (blankLine ++ body)))
    have hLength : (head ++ (blankLine ++ body)).length ≤ intMax := by
      refine Nat.le_of_not_lt fun hLong => ?_
      rw [dispatched_long hLong] at hOnce
      cases hOnce
    have hZero : 0 ∉ body := by
      intro hMem
      rw [dispatched_zero h hLength hMem] at hOnce
      cases hOnce
    refine ⟨hLength, hZero, (keepAliveWith_iff head body).mp ?_⟩
    obtain ⟨c, part, rfl⟩ : ∃ c part, body = c :: part := List.exists_cons_of_length_pos (by omega)
    -- all at once, and the header with the first byte of the body in front of the rest
    obtain ⟨hText, -⟩ := firstText_singles (head ++ (blankLine ++ c :: part)) []
    obtain ⟨hSplit, -⟩ := firstText_singles (head ++ (blankLine ++ [c])) (.nonFatalError :: singles part)
    have hCuts := cuts_wait (head ++ (blankLine ++ [c])) part
    simp only [List.append_nil, List.append_assoc, List.cons_append, List.nil_append, firstText] at hText hSplit hCuts
    obtain ⟨whole, hWhole, hArrived⟩ := (cuts_singles _).inHeader.receive_complete h hLength hZero
      (List.cons_ne_nil c part) (show [] ++ firstText _ = _ from hText) (Nat.lt_succ_self _)
    obtain ⟨late, hLate, hArrivedLate⟩ := hCuts.inHeader.receive_complete h hLength hZero
      (List.cons_ne_nil c []) (show [] ++ firstText _ = _ from hSplit) (Nat.lt_succ_self _)
    have hAgree := (dispatched_eq hWhole hArrived).symm.trans
      (hOnce.trans ((hSame _ hCuts).symm.trans (dispatched_eq hLate hArrivedLate)))
    have hKeep := congrArg Dispatched.keepAlive (Option.some.inj hAgree)
    refine hKeep.trans ((keepAliveWith_iff head [c]).mpr (.inr (.inl fun hInfix => ?_)))
    have hTooLong := hInfix.length_le
    rw [List.length_singleton] at hTooLong
    exact absurd hTooLong (by decide)
  · rintro ⟨hLength, hZero, hVersion⟩
    refine ⟨⟨body, (parseRequest body).1, (parseRequest body).2, keepAliveWith head []⟩, fun reads hCuts => ?_⟩
    obtain ⟨c, part, hReceive, hPart, hArrived⟩ := hCuts.inHeader.receive h hLength hZero (Nat.lt_succ_self _)
    have hKeep := (keepAliveWith_iff head part).mpr (hVersion.imp_right (Or.imp_left fun hNone hInfix =>
      hNone (hInfix.trans hPart.isInfix)))
    rw [hKeep] at hArrived
    exact dispatched_eq hReceive hArrived

def greetingHead : Bytes := bytes "POST / HTTP/1.1\r\nContent-length: 2"

theorem greetingHead_framed (body : Bytes) (h : body.length = 2) : Framed greetingHead body 2 where
  ends := by decide +kernel
  contentLength := by decide +kernel
  positive := by decide
  exact := h

theorem chunkingIndependent_iff_greeting :
    @ChunkingIndependent noDoubles (greetingHead ++ (blankLine ++ bytes "hi")) :=
  (@chunkingIndependent_iff _ _ _ noDoubles (greetingHead_framed (bytes "hi") (by decide))).mpr
    ⟨by decide +kernel, by decide, .inr (.inl (by decide +kernel))⟩

/-- The second byte of the body is zero. When all comes at once the connection waits for one more byte; when the rest of
the body comes behind its first byte, the request is dispatched. -/
theorem greeting_zero :
    (@dispatched noDoubles (singles (greetingHead ++ (blankLine ++ [104, 0])))).isNone ∧
      (@dispatched noDoubles (singles (greetingHead ++ (blankLine ++ [104])) ++ .nonFatalError :: singles [0])).map
        Dispatched.request = some [104, 0] ∧
      ¬ @ChunkingIndependent noDoubles (greetingHead ++ (blankLine ++ [104, 0])) := by
  have hWhole : (@dispatched noDoubles (singles (greetingHead ++ (blankLine ++ [104, 0])))).isNone := by decide +kernel
  refine ⟨hWhole, by decide +kernel, fun ⟨request, hSame⟩ => ?_⟩
  rw [hSame _ (cuts_singles _)] at hWhole
  cases hWhole

end XcRos.Rpc
