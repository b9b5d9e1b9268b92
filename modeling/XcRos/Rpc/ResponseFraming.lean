import XcRos.Rpc.Exchange

/-! # Responses do not depend on chunking

A call over a connection, or over two if the first ends before its first byte, has the body of the
response as its `_response` however the stream is cut, as long as the stream fits into an `int`.
-/

namespace XcRos.Rpc

open XcRos.Foundation

/-! ## Conversations -/

/-- The answers of a socket that cut the stream, with waits in between; its end may follow. -/
inductive Carries : Bytes → List ReadResult → Prop
  | done : Carries [] []
  | ended (reads : List ReadResult) : Carries [] (.eof :: reads)
  | wait {stream : Bytes} {reads : List ReadResult} (h : Carries stream reads) :
      Carries stream (.nonFatalError :: reads)
  | data {stream : Bytes} {reads : List ReadResult} (first : UInt8) (rest : Bytes) (h : Carries stream reads) :
      Carries (first :: (rest ++ stream)) (.data first rest :: reads)

inductive EndsEarly : List ReadResult → Prop
  | ended (reads : List ReadResult) : EndsEarly (.eof :: reads)
  | failed (reads : List ReadResult) : EndsEarly (.fatalError :: reads)
  | wait {reads : List ReadResult} (h : EndsEarly reads) : EndsEarly (.nonFatalError :: reads)

/-- The stream comes over the first connection, or over a second one if the first ends early; the
number tells how often the request is sent again. -/
inductive Conversation (keepOpen : Bool) (stream : Bytes) : List ReadResult → List (List ReadResult) → Nat → Prop
  | first {reads : List ReadResult} {later : List (List ReadResult)} (hCarries : Carries stream reads) :
      Conversation keepOpen stream reads later 0
  | second {early reads : List ReadResult} {later : List (List ReadResult)} (hKeep : keepOpen = true)
      (hEarly : EndsEarly early) (hCarries : Carries stream reads) :
      Conversation keepOpen stream early (reads :: later) 1

/-- However the request goes out and the stream is cut, the call ends with the body as the response,
with one value and one fault flag, and the request was sent again only over a second connection. -/
def ResponseIntact [DoubleText] (c : Client) (stream body : Bytes) : Prop :=
  ∃ value isFault, ∀ writes reads later sends, (∀ results ∈ writes, .fatalError ∉ results) →
    Conversation c.keepOpen stream reads later sends →
      Exchange.call ⟨c, writes, reads, later⟩ = some ⟨.idle, body, value, isFault, sends⟩

/-! ## Reading -/

theorem Carries.nbReadLoop {stream : Bytes} {reads : List ReadResult} (h : Carries stream reads) (text : Bytes) :
    ∃ part rest eof, stream = part ++ rest ∧ nbReadLoop text reads = ⟨true, text ++ part, eof⟩ ∧
      (eof = true → rest = []) ∧ (eof = false → Carries rest (afterRead reads)) := by
  induction h generalizing text with
  | done => exact ⟨[], [], false, rfl, by rw [List.append_nil]; rfl, fun _ => rfl, fun _ => .done⟩
  | ended reads => exact ⟨[], [], true, rfl, by rw [List.append_nil]; rfl, fun _ => rfl, fun hEof => by cases hEof⟩
  | @wait stream reads hRest _ =>
    exact ⟨[], stream, false, rfl, by rw [List.append_nil]; rfl, (fun hEof => by cases hEof), fun _ => hRest⟩
  | @data stream reads first rest hRest ih =>
    obtain ⟨part, left, eof, hStream, hRead, hEof, hMore⟩ := ih (text ++ first :: rest)
    refine ⟨first :: rest ++ part, left, eof, ?_, ?_, hEof, hMore⟩
    · rw [hStream, List.cons_append, List.cons_append, List.append_assoc]
    · rw [XcRos.Rpc.nbReadLoop, hRead, List.append_assoc]

theorem Carries.nbRead {stream : Bytes} {reads : List ReadResult} (h : Carries stream reads) (text : Bytes)
    (hLength : (text ++ stream).length ≤ intMax) :
    ∃ part rest eof, stream = part ++ rest ∧ nbRead text reads = ⟨true, text ++ part, eof⟩ ∧
      (eof = true → rest = []) ∧ (eof = false → Carries rest (afterRead reads)) := by
  obtain ⟨part, rest, eof, hStream, hRead, hEof, hMore⟩ := h.nbReadLoop text
  refine ⟨part, rest, eof, hStream, ?_, hEof, hMore⟩
  have hFits : (text ++ part).length ≤ intMax := by
    rw [hStream, ← List.append_assoc, List.length_append] at hLength
    omega
  rw [XcRos.Rpc.nbRead, hRead]
  simp only [true_and]
  rw [if_neg (Nat.not_lt.mpr hFits)]

theorem Carries.reads_ne_nil {stream : Bytes} {reads : List ReadResult} (h : Carries stream reads)
    (hStream : stream ≠ []) : reads ≠ [] := by
  rintro rfl
  cases h
  exact hStream rfl

theorem scanHeader_landmarks (text : Bytes) {found found' : HeaderScan} (hLp : found.lp = found'.lp)
    (hBp : found.bp = found'.bp) :
    (scanHeader false found text).lp = (scanHeader true found' text).lp ∧
      (scanHeader false found text).bp = (scanHeader true found' text).bp := by
  induction text generalizing found found' with
  | nil => exact ⟨hLp, hBp⟩
  | cons c rest ih =>
    have hNot {d : UInt8} {more : Bytes} (hConnection : matchesNoCase (bytes "Connection: ") (c :: rest) = true)
        (hd : tolower d ≠ 99) : matchesExact (d :: more) (c :: rest) = false := by
      refine Bool.eq_false_iff.mpr fun hMatch => hd ?_
      have hName := List.isPrefixOf_iff_prefix.mp (Bool.and_eq_true_iff.mp hConnection).2
      rw [show (bytes "Connection: ").map tolower = 99 :: bytes "onnection: " by decide, List.map_cons] at hName
      have hEnd := List.isPrefixOf_iff_prefix.mp (Bool.and_eq_true_iff.mp hMatch).2
      rw [(List.cons_prefix_cons.mp hEnd).1]
      exact (List.cons_prefix_cons.mp hName).1.symm
    rw [scanHeader, scanHeader]
    simp only [Bool.false_and, Bool.true_and, Bool.false_eq_true, if_false]
    split
    · exact ih rfl hBp
    · cases hConnection : matchesNoCase (bytes "Connection: ") (c :: rest) with
      | true =>
        -- a connection field is no end of the header
        simp only [hNot hConnection (show tolower 13 ≠ 99 by decide),
          hNot hConnection (show tolower 10 ≠ 99 by decide), Bool.false_eq_true, if_false, if_true]
        exact ih hLp hBp
      | false =>
        simp only [Bool.false_eq_true, if_false]
        split
        · exact ⟨hLp, rfl⟩
        · split
          · exact ⟨hLp, rfl⟩
          · exact ih hLp hBp

variable {head body : Bytes} {n : Nat}

namespace Client

theorem scanResponseHeader_incomplete (h : Framed head body n) {c : Client} (hText : c.header <+: head ++ blankLine)
    (hEof : c.eof = false) : c.scanResponseHeader = (true, c) := by
  have hScan := (@scanHeader_landmarks c.header ⟨none, none, none⟩ ⟨none, none, none⟩ rfl rfl).2.trans
    (h.incomplete hText)
  rw [scanResponseHeader]
  simp only [hScan, hEof, Bool.false_eq_true, if_false]

theorem scanResponseHeader_complete (h : Framed head body n) {c : Client} {part : Bytes} (hPart : part ≠ [])
    (hText : c.header = head ++ (blankLine ++ part)) (hn : n ≤ intMax) :
    c.scanResponseHeader = (true, { c with
      contentLength := Int32.ofInt n, response := cStr part, header := [], connectionState := .readResponse }) := by
  obtain ⟨value, hValue, hNumber⟩ := Option.map_eq_some_iff.mp h.contentLength
  have hPositive := h.positive
  have hLine : atoi (value ++ (blankLine ++ part)) = Int32.ofInt n := by
    have hWhole := @strtol_line value (by omega) (10 :: 13 :: 10 :: part)
    exact congrArg Int32.ofInt ((congrArg Prod.fst hWhole).trans hNumber)
  have hScan := scanHeader_lines hPart (h.ends_append part) ⟨none, none, none⟩
  simp only [hValue, Option.map_some, Option.or_none] at hScan
  obtain ⟨hLp, hBp⟩ := @scanHeader_landmarks c.header ⟨none, none, none⟩ ⟨none, none, none⟩ rfl rfl
  rw [hText, hScan] at hLp hBp
  rw [hText.symm] at hLp hBp
  have hLength : ¬ Int32.ofInt n ≤ 0 := Int32.not_le.mpr ((int32_lt (Nat.zero_le _) hn).mpr hPositive)
  rw [scanResponseHeader]
  simp only [hLp, hBp, hLine, hLength, if_false]

end Client

/-! ## Events -/

namespace Exchange

inductive Awaits (stream : Bytes) (sends : Nat) (x : Exchange) : Prop
  | here (hAttempts : x.client.sendAttempts = sends) (hCarries : Carries stream x.reads)
  | later {reads : List ReadResult} {more : List (List ReadResult)} (hAttempts : x.client.sendAttempts = 0)
      (hSends : sends = 1) (hKeep : x.client.keepOpen = true) (hEarly : EndsEarly x.reads)
      (hLater : x.later = reads :: more) (hCarries : Carries stream reads)

/-- Where the call is: writing, or reading a connection that will end early, the header or the body. -/
inductive Phase (head body : Bytes) (n sends : Nat) (x : Exchange) : Prop
  | writing (hState : x.client.connectionState = .writeRequest) (hStart : x.client.bytesWritten = 0)
      (hAwaits : x.Awaits (head ++ (blankLine ++ body)) sends)
  | reading (hState : x.client.connectionState = .readHeader) (hHeader : x.client.header = [])
      (hAwaits : x.Awaits (head ++ (blankLine ++ body)) sends)
  | header {rest : Bytes} (hState : x.client.connectionState = .readHeader) (hAttempts : x.client.sendAttempts = sends)
      (hCarries : Carries rest x.reads) (hText : x.client.header ++ rest = head ++ (blankLine ++ body))
      (hShort : x.client.header.length ≤ (head ++ blankLine).length)
  | body {rest : Bytes} (hState : x.client.connectionState = .readResponse)
      (hAttempts : x.client.sendAttempts = sends) (hContent : x.client.contentLength = Int32.ofInt n)
      (hCarries : rest ≠ [] → Carries rest x.reads) (hText : x.client.response ++ rest = body)

structure Sound (head body : Bytes) (n sends : Nat) (x : Exchange) : Prop where
  phase : x.Phase head body n sends
  writes : ∀ results ∈ x.writes, .fatalError ∉ results
  request : x.client.request.length ≤ intMax
  isFault : x.client.isFault = false

structure Answered (body : Bytes) (sends : Nat) (c : Client) : Prop where
  state : c.connectionState = .idle
  response : c.response = body
  sendAttempts : c.sendAttempts = sends
  isFault : c.isFault = false

/-- An event ends the call with the response, or goes on with less to come. -/
def Advances (head body : Bytes) (n sends size : Nat) (r : Mask × Exchange) : Prop :=
  r.1 = .none ∧ Answered body sends r.2.client ∨ r.1 ≠ .none ∧ r.2.Sound head body n sends ∧ r.2.size < size

theorem size_afterRead {x : Exchange} (hReads : x.reads ≠ []) (c : Client) :
    size { x with client := c, reads := afterRead x.reads } < x.size := by
  have hFewer := afterRead_length hReads
  simp only [size]
  omega

variable {sends : Nat} {x : Exchange}

theorem readResponse_advances (h : x.Sound head body n sends) (hState : x.client.connectionState = .readResponse)
    (hExact : body.length = n) (hn : n ≤ intMax) :
    (x.readResponse.1 = false ∧ Answered body sends x.readResponse.2.client) ∨
      (x.readResponse.1 = true ∧ x.readResponse.2.Sound head body n sends ∧ x.readResponse.2.size < x.size) := by
  cases h.phase with
  | writing hOther _ _ | reading hOther _ _ => exact absurd (hState.symm.trans hOther) (by decide)
  | header hOther _ _ _ _ => exact absurd (hState.symm.trans hOther) (by decide)
  | @body rest _ hAttempts hContent hCarries hText =>
    have hLength := congrArg List.length hText
    rw [List.length_append, hExact] at hLength
    have hMore := int32_lt (a := x.client.response.length) (b := n) (by omega) hn
    rw [readResponse, Client.readResponse, hContent]
    by_cases hRest : rest = []
    · subst hRest
      rw [List.append_nil] at hText
      have hAll : ¬ x.client.response.length < n := by
        rw [hText]
        omega
      simp only [hMore, hAll, if_false]
      exact .inl ⟨trivial, rfl, hText, hAttempts, h.isFault⟩
    · have hPart : x.client.response.length < n := by
        have := List.length_pos_iff.mpr hRest
        omega
      obtain ⟨part, left, eof, hStream, hRead, hEof, hCarry⟩ := (hCarries hRest).nbRead []
        (by rw [List.nil_append]; omega)
      rw [List.nil_append] at hRead
      have hAppended : x.client.response ++ part ++ left = body := by
        rw [List.append_assoc, ← hStream, hText]
      have hTotal := congrArg List.length hAppended
      rw [List.length_append, hExact] at hTotal
      have hLess := int32_lt (a := (x.client.response ++ part).length) (b := n) (by omega) hn
      simp only [hMore, hPart, if_true, hRead, Bool.true_eq_false, if_false, hLess]
      by_cases hLeft : left = []
      · subst hLeft
        rw [List.append_nil] at hAppended
        have hAll : ¬ (x.client.response ++ part).length < n := by
          rw [hAppended]
          omega
        simp only [hAll, if_false]
        exact .inl ⟨trivial, rfl, hAppended, hAttempts, h.isFault⟩
      · have hOpen : eof = false := Bool.eq_false_iff.mpr fun hEnd => hLeft (hEof hEnd)
        have hShort : (x.client.response ++ part).length < n := by
          have := List.length_pos_iff.mpr hLeft
          omega
        simp only [hShort, if_true, hOpen, Bool.false_eq_true, if_false]
        exact .inr ⟨trivial, ⟨.body hState hAttempts rfl (fun _ => hCarry hOpen) hAppended, h.writes, h.request,
          h.isFault⟩, size_afterRead ((hCarries hRest).reads_ne_nil hRest) _⟩

theorem header_advances (hFramed : Framed head body n) (h : x.Sound head body n sends)
    (hLength : (head ++ (blankLine ++ body)).length ≤ intMax) (hZero : 0 ∉ body)
    (hState : x.client.connectionState = .readHeader) (hAttempts : x.client.sendAttempts = sends) {rest : Bytes}
    (hCarries : Carries rest x.reads) (hText : x.client.header ++ rest = head ++ (blankLine ++ body))
    (hShort : x.client.header.length ≤ (head ++ blankLine).length) :
    x.readHeader.1 = true ∧ x.readHeader.2.Sound head body n sends ∧ x.readHeader.2.size < x.size := by
  have hExact := hFramed.exact
  have hPositive := hFramed.positive
  have hRest : rest ≠ [] := by
    rintro rfl
    have := congrArg List.length hText
    simp only [List.length_append, List.length_nil] at this hShort
    omega
  have hReads := hCarries.reads_ne_nil hRest
  obtain ⟨part, left, eof, hStream, hRead, hEof, hCarry⟩ := hCarries.nbRead x.client.header
    (by rw [hText]; exact hLength)
  have hAll : x.client.header ++ part ++ left = head ++ (blankLine ++ body) := by
    rw [List.append_assoc, ← hStream, hText]
  have hTotal := congrArg List.length hAll
  simp only [List.length_append] at hTotal
  have hGoesOn : ¬ (true = false ∨ eof = true ∧ (x.client.header ++ part).length = 0) := by
    rintro (hFalse | ⟨hEnd, hNone⟩)
    · cases hFalse
    · rw [hEof hEnd, List.length_nil] at hTotal
      rw [List.length_append] at hNone
      omega
  have hScan : x.client.readHeader x.reads x.connect =
      Client.scanResponseHeader { x.client with header := x.client.header ++ part, eof := eof } := by
    rw [Client.readHeader, hRead]
    simp only
    rw [if_neg hGoesOn]
  by_cases hStill : (x.client.header ++ part).length ≤ (head ++ blankLine).length
  · have hLeft : left ≠ [] := by
      rintro rfl
      simp only [List.length_append, List.length_nil] at hTotal hStill
      omega
    have hOpen : eof = false := Bool.eq_false_iff.mpr fun hEnd => hLeft (hEof hEnd)
    have hPrefix : x.client.header ++ part <+: head ++ blankLine :=
      List.prefix_of_prefix_length_le ⟨_, hAll⟩ ⟨body, List.append_assoc _ _ _⟩ hStill
    rw [Client.scanResponseHeader_incomplete hFramed hPrefix hOpen] at hScan
    rw [readHeader, hScan]
    simp only [hState, reduceCtorEq, if_false]
    exact ⟨trivial, ⟨.header rfl hAttempts (hCarry hOpen) hAll hStill, h.writes, h.request, h.isFault⟩,
      size_afterRead hReads _⟩
  · obtain ⟨front, hFront⟩ := List.prefix_of_prefix_length_le (List.prefix_append (head ++ blankLine) body)
      ⟨left, hAll.trans (List.append_assoc _ _ _).symm⟩ (Nat.le_of_not_le hStill)
    have hNonempty : front ≠ [] := by
      rintro rfl
      rw [List.append_nil] at hFront
      exact hStill (by rw [hFront])
    have hBody : front ++ left = body := by
      rw [← hFront, List.append_assoc, List.append_assoc] at hAll
      exact List.append_cancel_left (List.append_cancel_left hAll)
    have hString : cStr front = front := by
      refine List.takeWhile_eq_self_iff.mpr fun c hc => decide_eq_true fun hEq => hZero ?_
      rw [← hBody, ← hEq]
      exact List.mem_append_left _ hc
    rw [List.length_append, List.length_append] at hLength
    rw [Client.scanResponseHeader_complete hFramed hNonempty (by rw [← hFront, List.append_assoc]) (by omega),
      hString] at hScan
    rw [readHeader, hScan]
    simp only [reduceCtorEq, if_false]
    refine ⟨trivial, ⟨.body rfl hAttempts rfl (fun hLeft => hCarry ?_) hBody, h.writes, h.request, h.isFault⟩,
      size_afterRead hReads _⟩
    exact Bool.eq_false_iff.mpr fun hEnd => hLeft (hEof hEnd)

theorem superClose_sendAttempts (c : Client) :
    c.superClose.sendAttempts = c.sendAttempts ∧ c.superClose.isFault = c.isFault := by
  rw [Client.superClose]
  split <;> exact ⟨rfl, rfl⟩

theorem early_advances (h : x.Sound head body n sends) (hState : x.client.connectionState = .readHeader)
    (hHeader : x.client.header = []) (hAttempts : x.client.sendAttempts = 0) (hSends : sends = 1)
    (hKeep : x.client.keepOpen = true) (hEarly : EndsEarly x.reads) {reads : List ReadResult}
    {more : List (List ReadResult)} (hLater : x.later = reads :: more)
    (hCarries : Carries (head ++ (blankLine ++ body)) reads) :
    x.readHeader.1 = true ∧ x.readHeader.2.Sound head body n sends ∧ x.readHeader.2.size < x.size := by
  have hConnect : x.connect = .connected := by rw [connect, hLater, if_neg (List.cons_ne_nil _ _)]
  -- the end of the first connection, noticed in whichever way
  have hAgain (hEnd : (nbRead [] x.reads).ok = false ∨ (nbRead [] x.reads).eof = true)
      (hNothing : (nbRead [] x.reads).text = []) (hReads : x.reads ≠ []) :
      x.readHeader.1 = true ∧ x.readHeader.2.Sound head body n sends ∧ x.readHeader.2.size < x.size := by
    let c : Client := { x.client with
      header := [], eof := (nbRead [] x.reads).eof, sendAttempts := x.client.sendAttempts + 1 }
    have hReconnect : x.client.readHeader x.reads x.connect = c.reconnect .connected := by
      rw [Client.readHeader, hHeader, hNothing, hConnect]
      simp only [List.length_nil, and_true]
      rw [if_pos hEnd, if_pos hKeep, if_pos hAttempts]
    have hOpened : c.reconnect .connected = (true, { c.superClose with
        fd := some .fresh, eof := false, connectionState := .writeRequest, bytesWritten := 0,
        mask := some .writableOrException }) := by
      simp [Client.reconnect, Client.setupConnection, Client.openConnection, Client.doConnect, Client.prepareToWrite]
    obtain ⟨hSent, hFault⟩ := superClose_sendAttempts c
    have hOnce : c.superClose.sendAttempts = sends := by
      rw [hSent, hSends]
      exact congrArg (· + 1) hAttempts
    rw [readHeader, hReconnect, hOpened]
    simp only [if_true, hLater, List.headD_cons, List.tail_cons]
    refine ⟨trivial, ⟨.writing rfl rfl (.here hOnce hCarries), h.writes, ?_, ?_⟩, ?_⟩
    · rw [Client.superClose_request]
      exact h.request
    · exact hFault.trans h.isFault
    · have := List.length_pos_iff.mpr hReads
      simp only [size, hLater, List.flatten_cons, List.length_append]
      omega
  generalize hAnswers : x.reads = answers at hEarly
  cases hEarly with
  | ended rest =>
    refine hAgain (.inr ?_) ?_ (by rw [hAnswers]; exact List.cons_ne_nil _ _)
    · rw [hAnswers]; rfl
    · rw [hAnswers]; rfl
  | failed rest =>
    refine hAgain (.inl ?_) ?_ (by rw [hAnswers]; exact List.cons_ne_nil _ _)
    · rw [hAnswers]; rfl
    · rw [hAnswers]; rfl
  | @wait rest hRest =>
    have hWait : x.client.readHeader x.reads x.connect = (true, { x.client with header := [], eof := false }) := by
      rw [Client.readHeader, hHeader, hAnswers]
      rfl
    rw [readHeader, hWait]
    simp only [hState, reduceCtorEq, if_false]
    refine ⟨trivial, ⟨.reading rfl rfl (.later hAttempts hSends hKeep ?_ hLater hCarries), h.writes, h.request,
      h.isFault⟩, size_afterRead (by rw [hAnswers]; exact List.cons_ne_nil _ _) _⟩
    rw [hAnswers]
    exact hRest

theorem readHeader_advances (hFramed : Framed head body n) (h : x.Sound head body n sends)
    (hLength : (head ++ (blankLine ++ body)).length ≤ intMax) (hZero : 0 ∉ body)
    (hState : x.client.connectionState = .readHeader) :
    x.readHeader.1 = true ∧ x.readHeader.2.Sound head body n sends ∧ x.readHeader.2.size < x.size := by
  cases h.phase with
  | writing hOther _ _ => exact absurd (hState.symm.trans hOther) (by decide)
  | body hOther _ _ _ _ => exact absurd (hState.symm.trans hOther) (by decide)
  | header _ hAttempts hCarries hText hShort =>
    exact header_advances hFramed h hLength hZero hState hAttempts hCarries hText hShort
  | reading _ hHeader hAwaits =>
    cases hAwaits with
    | here hAttempts hCarries =>
      refine header_advances hFramed h hLength hZero hState hAttempts hCarries ?_ ?_
      · rw [hHeader, List.nil_append]
      · rw [hHeader]
        exact Nat.zero_le _
    | later hAttempts hSends hKeep hEarly hLater hCarries =>
      exact early_advances h hState hHeader hAttempts hSends hKeep hEarly hLater hCarries

theorem nbWriteLoop_all (request : Bytes) : (nbWriteLoop request 0 [.wrote request.length]).2 = request.length := by
  rw [nbWriteLoop]
  split
  · simp only [nbWriteLoop]
    omega
  · omega

theorem Awaits.congr {stream : Bytes} {y : Exchange} (h : x.Awaits stream sends) (hReads : y.reads = x.reads)
    (hLater : y.later = x.later) (hAttempts : y.client.sendAttempts = x.client.sendAttempts)
    (hKeep : y.client.keepOpen = x.client.keepOpen) : y.Awaits stream sends := by
  cases h with
  | here hSent hCarries => exact .here (hAttempts.trans hSent) (hReads ▸ hCarries)
  | later hSent hSends hOpen hEarly hNext hCarries =>
    exact .later (hAttempts.trans hSent) hSends (hKeep.trans hOpen) (hReads ▸ hEarly) (hLater.trans hNext) hCarries

theorem writeRequest_advances (h : x.Sound head body n sends) (hState : x.client.connectionState = .writeRequest) :
    x.writeRequest.1 = true ∧ x.writeRequest.2.Sound head body n sends ∧
      (x.writeRequest.2.size < x.size ∨
        x.writeRequest.2.client.connectionState ≠ .writeRequest ∧ x.writeRequest.2.size ≤ x.size) := by
  cases h.phase with
  | reading hOther _ _ => exact absurd (hState.symm.trans hOther) (by decide)
  | header hOther _ _ _ _ | body hOther _ _ _ _ => exact absurd (hState.symm.trans hOther) (by decide)
  | writing _ hStart hAwaits =>
    have hRequest := h.request
    have hTail : ∀ results ∈ x.writes.tail, .fatalError ∉ results := fun results hr =>
      h.writes results (List.mem_of_mem_tail hr)
    have hTailLength : x.writes.tail.length ≤ x.writes.length := by
      rw [List.length_tail]
      omega
    have hSound : .fatalError ∉ x.nextWrites := by
      rw [nextWrites]
      cases hWrites : x.writes with
      | nil => simp
      | cons results more => exact h.writes results (by rw [hWrites]; exact List.mem_cons_self)
    have hOk := nbWriteLoop_ok x.client.request x.nextWrites 0 hSound
    have hWrite : nbWrite x.client.request 0 x.nextWrites = nbWriteLoop x.client.request 0 x.nextWrites := by
      rw [nbWrite, if_neg (Nat.not_lt.mpr hRequest)]
    rw [writeRequest, Client.writeRequest, hStart, hWrite]
    simp only [hOk, Bool.true_eq_false, if_false]
    split
    · refine ⟨rfl, ⟨.reading rfl rfl (hAwaits.congr rfl rfl rfl rfl), hTail, hRequest, h.isFault⟩, .inr ⟨?_, ?_⟩⟩
      · exact fun hEq => by cases hEq
      · simp only [size]
        omega
    · rename_i hPart
      refine ⟨rfl, ⟨.writing hState rfl (hAwaits.congr rfl rfl rfl rfl), hTail, ?_, h.isFault⟩, .inl ?_⟩
      · simp only [List.length_drop]
        omega
      · have hMore : x.writes ≠ [] := by
          intro hNone
          rw [nextWrites, hNone, List.headD_nil] at hPart
          exact hPart (nbWriteLoop_all _)
        have := List.length_pos_iff.mpr hMore
        simp only [size, List.length_tail]
        omega

/-! ## The call -/

theorem bodyPart_advances (hFramed : Framed head body n) (h : x.Sound head body n sends) (hn : n ≤ intMax) {size : Nat}
    (hSize : x.size < size ∨ x.client.connectionState = .readResponse ∧ x.size ≤ size) :
    Advances head body n sends size
      (stage (·.client.connectionState = .readResponse) readResponse (fun x => (x.client.wanted, x)) x) := by
  rw [stage]
  split
  · rename_i hState
    rcases readResponse_advances h hState hFramed.exact hn with ⟨hEnd, hAnswered⟩ | ⟨hOn, hNext, hLess⟩
    · simp only [hEnd, Bool.false_eq_true, if_false]
      exact .inl ⟨rfl, hAnswered⟩
    · have hBound := Nat.lt_of_lt_of_le hLess (hSize.elim Nat.le_of_lt And.right)
      simp only [hOn, if_true]
      exact .inr ⟨Client.wanted_ne_none _, hNext, hBound⟩
  · rename_i hState
    exact .inr ⟨Client.wanted_ne_none _, h, hSize.resolve_right fun hOther => hState hOther.1⟩

theorem headerPart_advances (hFramed : Framed head body n) (h : x.Sound head body n sends)
    (hLength : (head ++ (blankLine ++ body)).length ≤ intMax) (hZero : 0 ∉ body) {size : Nat}
    (hSize : x.size < size ∨ x.client.connectionState ≠ .writeRequest ∧ x.size ≤ size) :
    Advances head body n sends size
      (stage (·.client.connectionState = .readHeader) readHeader
        (stage (·.client.connectionState = .readResponse) readResponse fun x => (x.client.wanted, x)) x) := by
  have hn : n ≤ intMax := by
    have := hFramed.exact
    simp only [List.length_append] at hLength
    omega
  rw [stage]
  split
  · rename_i hState
    obtain ⟨hOn, hNext, hLess⟩ := readHeader_advances hFramed h hLength hZero hState
    have hBound := Nat.lt_of_lt_of_le hLess (hSize.elim Nat.le_of_lt And.right)
    simp only [hOn, if_true]
    exact bodyPart_advances hFramed hNext hn (.inl hBound)
  · rename_i hState
    refine bodyPart_advances hFramed h hn (hSize.imp_right fun hWritten => ⟨?_, hWritten.2⟩)
    cases h.phase with
    | writing hOther _ _ => exact absurd hOther hWritten.1
    | reading hOther _ _ => exact absurd hOther hState
    | header hOther _ _ _ _ => exact absurd hOther hState
    | body hOther _ _ _ _ => exact hOther

theorem event_advances (hFramed : Framed head body n) (h : x.Sound head body n sends)
    (hLength : (head ++ (blankLine ++ body)).length ≤ intMax) (hZero : 0 ∉ body) :
    Advances head body n sends x.size x.event := by
  rw [event, stage]
  split
  · rename_i hState
    obtain ⟨hOn, hNext, hLess⟩ := writeRequest_advances h hState
    simp only [hOn, if_true]
    exact headerPart_advances hFramed hNext hLength hZero hLess
  · rename_i hState
    exact headerPart_advances hFramed h hLength hZero (.inr ⟨hState, Nat.le_refl _⟩)

theorem run_answered (hFramed : Framed head body n) (h : x.Sound head body n sends)
    (hLength : (head ++ (blankLine ++ body)).length ≤ intMax) (hZero : 0 ∉ body) {fuel : Nat} (hFuel : x.size < fuel) :
    ∃ c, x.run fuel = some c ∧ Answered body sends c := by
  induction fuel generalizing x with
  | zero => omega
  | succ fuel ih =>
    rw [run]
    rcases event_advances hFramed h hLength hZero with ⟨hEnd, hAnswered⟩ | ⟨hOn, hNext, hLess⟩
    · simp only [hEnd, if_true]
      exact ⟨_, rfl, hAnswered⟩
    · simp only [hOn, if_false]
      exact ih hNext (by omega)

end Exchange

theorem parseResponse_congr [DoubleText] {c d : Client} (hResponse : c.response = d.response)
    (hFault : c.isFault = d.isFault) :
    c.parseResponse.1 = d.parseResponse.1 ∧ c.parseResponse.2.isFault = d.parseResponse.2.isFault := by
  rw [Client.parseResponse, Client.parseResponse, hResponse]
  split
  · exact ⟨rfl, hFault⟩
  · split
    · exact ⟨rfl, hFault⟩
    · exact ⟨rfl, congrArg (· || _) hFault⟩

structure Client.Ready (c : Client) : Prop where
  state : c.connectionState = .writeRequest
  start : c.bytesWritten = 0
  sendAttempts : c.sendAttempts = 0
  isFault : c.isFault = false
  request : c.request.length ≤ intMax

theorem Conversation.awaits {c : Client} {stream : Bytes} {writes : List (List WriteResult)} {reads : List ReadResult}
    {later : List (List ReadResult)} {sends : Nat} (h : Conversation c.keepOpen stream reads later sends)
    (hAttempts : c.sendAttempts = 0) : Exchange.Awaits stream sends ⟨c, writes, reads, later⟩ := by
  cases h with
  | first hCarries => exact .here hAttempts hCarries
  | second hKeep hEarly hCarries => exact .later hAttempts rfl hKeep hEarly rfl hCarries

theorem Client.Ready.responseIntact [DoubleText] {c : Client} (h : c.Ready) (hFramed : Framed head body n)
    (hLength : (head ++ (blankLine ++ body)).length ≤ intMax) (hZero : 0 ∉ body) :
    ResponseIntact c (head ++ (blankLine ++ body)) body := by
  let answered : Client := { Client.new [] 0 none with response := body }
  refine ⟨answered.parseResponse.1, answered.parseResponse.2.isFault, fun writes reads later sends hWrites hTalk => ?_⟩
  have hSound : Exchange.Sound head body n sends ⟨c, writes, reads, later⟩ :=
    ⟨.writing h.state h.start (hTalk.awaits h.sendAttempts), hWrites, h.request, h.isFault⟩
  obtain ⟨last, hRun, hLast⟩ := Exchange.run_answered hFramed hSound hLength hZero (Nat.lt_succ_self _)
  obtain ⟨hValue, hFault⟩ := parseResponse_congr (c := last) (d := answered) hLast.response hLast.isFault
  rw [Exchange.call, hRun, Option.map_some, Exchange.finish, if_pos hLast.state, hLast.state, hLast.response,
    hLast.sendAttempts, hValue, hFault]

/-! ## The start of a call -/

namespace Client

theorem doConnect_keeps (c : Client) (connect : ConnectResult) :
    (c.doConnect connect).2.sendAttempts = c.sendAttempts ∧ (c.doConnect connect).2.isFault = c.isFault := by
  cases connect with
  | noSocket | connected => exact ⟨rfl, rfl⟩
  | blocking | refused => exact Exchange.superClose_sendAttempts _

theorem openConnection_keeps (c : Client) (connect : ConnectResult) :
    (c.openConnection connect).2.sendAttempts = c.sendAttempts ∧
      (c.openConnection connect).2.isFault = c.isFault ∧
      ((c.openConnection connect).1 = true → (c.openConnection connect).2.bytesWritten = 0) := by
  obtain ⟨hAttempts, hFault⟩ := c.doConnect_keeps connect
  rw [openConnection]
  split
  · simp only
    split
    · exact ⟨hAttempts, hFault, fun _ => rfl⟩
    · exact ⟨hAttempts, hFault, fun hOk => by cases hOk⟩
  · exact ⟨rfl, rfl, fun _ => rfl⟩

theorem setupConnection_keeps (c : Client) (connect : ConnectResult) :
    (c.setupConnection connect).2.sendAttempts = c.sendAttempts ∧
      (c.setupConnection connect).2.isFault = c.isFault ∧
      ((c.setupConnection connect).1 = true → (c.setupConnection connect).2.bytesWritten = 0) := by
  rw [setupConnection]
  split
  · obtain ⟨hAttempts, hFault⟩ :=
      Exchange.superClose_sendAttempts { c with connectionState := .noConnection, mask := none }
    obtain ⟨hSame, hSameFault, hStart⟩ := openConnection_keeps { c.close with eof := false } connect
    exact ⟨hSame.trans hAttempts, hSameFault.trans hFault, hStart⟩
  · exact openConnection_keeps { c with eof := false } connect

end Client

theorem execute_ready [DoubleText] {s : ClientSession} {methodName : Bytes} {params : Value} {connect : ConnectResult}
    (hSetUp : ((ClientSession.startCall s.client).setupConnection connect).1 = true)
    (hRequest : (s.execute methodName params connect).client.request.length ≤ intMax) :
    (s.execute methodName params connect).client.Ready := by
  obtain ⟨hAttempts, hFault, hStart⟩ := (ClientSession.startCall s.client).setupConnection_keeps connect
  have hState := ((ClientSession.startCall s.client).setupConnection_state connect).trans (if_pos hSetUp)
  rw [ClientSession.execute] at hRequest ⊢
  simp only [hSetUp, if_true] at hRequest ⊢
  exact ⟨hState, hStart hSetUp, hAttempts, hFault, hRequest⟩

/-- A call that could be started and whose request fits ends with the body of the response, however
that is cut, if header and body together fit as well. -/
theorem execute_response_intact [DoubleText] (s : ClientSession) (methodName : Bytes) (params : Value)
    (connect : ConnectResult) (hSetUp : ((ClientSession.startCall s.client).setupConnection connect).1 = true)
    (hRequest : (s.execute methodName params connect).client.request.length ≤ intMax) (hFramed : Framed head body n)
    (hLength : (head ++ (blankLine ++ body)).length ≤ intMax) (hZero : 0 ∉ body) :
    ResponseIntact (s.execute methodName params connect).client (head ++ (blankLine ++ body)) body :=
  (execute_ready hSetUp hRequest).responseIntact hFramed hLength hZero

theorem execute_response_intact_short :
    @ResponseIntact noDoubles (@ClientSession.execute noDoubles newSession (bytes "m") .invalid .connected).client
      (bytes "HTTP/1.1 200 OK\r\nContent-length: 2" ++ (blankLine ++ bytes "hi")) (bytes "hi") := by
  have hFramed : Framed (bytes "HTTP/1.1 200 OK\r\nContent-length: 2") (bytes "hi") 2 :=
    ⟨by decide +kernel, by decide +kernel, by decide, by decide⟩
  exact @execute_response_intact _ _ _ noDoubles newSession (bytes "m") .invalid .connected (by decide)
    (by decide +kernel) hFramed (by decide +kernel) (by decide)

/-! ## Responses that do not fit -/

theorem carries_singles (stream : Bytes) : Carries stream (singles stream) := by
  induction stream with
  | nil => exact .done
  | cons c stream ih => exact .data c [] ih

theorem Client.Ready.response_lost [DoubleText] {c : Client} (h : c.Ready) {stream : Bytes}
    (hLong : intMax < stream.length) (body : Bytes) : ¬ ResponseIntact c stream body := by
  rintro ⟨value, isFault, hIntact⟩
  have hCall := hIntact [] (singles stream) [] 0 (by simp) (.first (carries_singles stream))
  let x : Exchange := ⟨c, [], singles stream, []⟩
  have hWrite : nbWrite c.request 0 [.wrote c.request.length] = (true, c.request.length) := by
    rw [nbWrite, if_neg (Nat.not_lt.mpr h.request)]
    exact Prod.ext (nbWriteLoop_ok _ _ _ (by simp)) (Exchange.nbWriteLoop_all _)
  have hWritten : x.writeRequest.1 = true ∧ x.writeRequest.2.client.connectionState = .readHeader ∧
      x.writeRequest.2.client.header = [] ∧ x.writeRequest.2.reads = singles stream ∧
      x.writeRequest.2.connect = .refused := by
    rw [Exchange.writeRequest, Exchange.nextWrites, List.headD_nil, Client.writeRequest, h.start, hWrite]
    have hAll : c.request.length = x.client.request.length := rfl
    simp only [Bool.true_eq_false, if_false, if_pos hAll]
    exact ⟨trivial, trivial, trivial, rfl, rfl⟩
  obtain ⟨hOn, hState, hHeader, hReads, hConnect⟩ := hWritten
  have hRead : nbRead [] (singles stream) = ⟨false, [], false⟩ := by
    have hText := (firstText_singles stream []).1
    rw [List.append_nil] at hText
    rw [nbRead, nbReadLoop_eq (singles_answers stream), hText]
    simp [firstText, hLong]
  have hLost : x.writeRequest.2.readHeader.1 = false ∧
      x.writeRequest.2.readHeader.2.client.connectionState = .noConnection := by
    have hGone : (x.writeRequest.2.client.readHeader (singles stream) .refused).1 = false ∧
        (x.writeRequest.2.client.readHeader (singles stream) .refused).2.connectionState = .noConnection := by
      rw [Client.readHeader, hHeader, hRead]
      simp only [true_or, if_true]
      split
      · split
        · simp [Client.reconnect, Client.setupConnection, Client.openConnection, Client.doConnect]
        · exact ⟨rfl, Client.close_connectionState _⟩
      · exact ⟨rfl, Client.close_connectionState _⟩
    rw [Exchange.readHeader, hReads, hConnect]
    simp only [hGone.2, reduceCtorEq, if_false]
    exact ⟨hGone.1, trivial⟩
  have hEvent : x.event = (.none, x.writeRequest.2.readHeader.2) := by
    rw [Exchange.event, stage, if_pos h.state]
    simp only [hOn, if_true]
    rw [stage, if_pos hState]
    simp only [hLost.1, Bool.false_eq_true, if_false]
  have hEnd : Exchange.call x = some (Exchange.finish x.writeRequest.2.readHeader.2.client) := by
    rw [Exchange.call, Exchange.run, hEvent]
    simp only [if_true, Option.map_some]
  have hIdle := congrArg Exchange.CallEnd.connectionState (Option.some.inj (hEnd.symm.trans hCall))
  cases hLost.2.symm.trans hIdle

/-- The longest length that a header can give, with so many letters behind it. -/
theorem longest_response_lost :
    ∃ head body n, Framed head body n ∧ 0 ∉ head ++ (blankLine ++ body) ∧
      ¬ @ResponseIntact noDoubles (@ClientSession.execute noDoubles newSession (bytes "m") .invalid .connected).client
        (head ++ (blankLine ++ body)) body := by
  have hFramed : Framed (bytes "HTTP/1.1 200 OK\r\nContent-length: 2147483647") (List.replicate intMax 97) intMax :=
    ⟨by decide +kernel, by decide +kernel, by decide, List.length_replicate⟩
  have hReady := @execute_ready noDoubles newSession (bytes "m") .invalid .connected (by decide) (by decide +kernel)
  refine ⟨_, _, _, hFramed, ?_, @Client.Ready.response_lost noDoubles _ hReady _ ?_ _⟩
  · intro hMem
    rcases List.mem_append.mp hMem with hHead | hRest
    · exact absurd hHead (by decide)
    · rcases List.mem_append.mp hRest with hLine | hBody
      · exact absurd hLine (by decide)
      · exact absurd (List.eq_of_mem_replicate hBody) (by decide)
  · have hBlank : 0 < blankLine.length := by decide
    rw [List.length_append, List.length_append, List.length_replicate]
    omega

end XcRos.Rpc
