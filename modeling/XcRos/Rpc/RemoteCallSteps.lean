import XcRos.Rpc.RemoteCall

/-! # The two sides of a remote call

What an event does on either side, given what is still to come: the client writes its request and then reads the
response, and the server reads the request, executes it and writes the response.
-/

namespace XcRos.Rpc

open XcRos.Foundation

variable {head body : Bytes} {reads : List ReadResult} {rest : Bytes}

theorem nbWrite_total {s : Bytes} (hLength : s.length ≤ intMax) {start : Nat} (hStart : start ≤ s.length) :
    (nbWrite s start [.wrote s.length]).2 = s.length := by
  rw [nbWrite, if_neg (Nat.not_lt.mpr hLength), nbWriteLoop]
  split
  · rw [nbWriteLoop]
    omega
  · omega

theorem nbWrite_ok {s : Bytes} (hLength : s.length ≤ intMax) {writes : List WriteResult} (hWrites : .fatalError ∉ writes)
    (start : Nat) : (nbWrite s start writes).1 = true := by
  rw [nbWrite, if_neg (Nat.not_lt.mpr hLength)]
  exact nbWriteLoop_ok s writes start hWrites

theorem firstText_left (hReads : ∀ r ∈ reads, r ≠ .eof ∧ r ≠ .fatalError) {front whole : Bytes}
    (hText : front ++ (reads.flatMap ReadResult.text ++ rest) = whole) :
    front ++ firstText reads ++ ((afterRead reads).flatMap ReadResult.text ++ rest) = whole := by
  rw [← hText, ← firstText_append hReads]
  simp only [List.append_assoc]

theorem header_split (hZero : 0 ∉ body) {text left : Bytes} (h : text ++ left = head ++ (blankLine ++ body)) :
    text <+: head ++ blankLine ∨
      ∃ part, part ≠ [] ∧ text = head ++ (blankLine ++ part) ∧ part ++ left = body ∧ cStr part = part := by
  rw [← List.append_assoc] at h
  obtain ⟨more, hHead, -⟩ | ⟨part, rfl, rfl⟩ := List.append_eq_append_iff.mp h
  · exact .inl ⟨more, hHead.symm⟩
  · rcases eq_or_ne part [] with rfl | hPart
    · exact .inl ⟨[], by rw [List.append_nil, List.append_nil]⟩
    · refine .inr ⟨part, hPart, List.append_assoc _ _ _, rfl, List.takeWhile_eq_self_iff.mpr fun c hc => ?_⟩
      exact decide_eq_true fun hEq => hZero (List.mem_append_left _ (hEq ▸ hc))

theorem stream_ne_nil (hBody : body ≠ []) {text stream : Bytes} (hText : text ++ stream = head ++ (blankLine ++ body))
    (hPrefix : text <+: head ++ blankLine) : stream ≠ [] := by
  rintro rfl
  have hAll := congrArg List.length hText
  have hShort := hPrefix.length_le
  have hPositive := List.length_pos_of_ne_nil hBody
  simp only [List.length_append, List.length_nil] at hAll hShort
  omega

/-! ## The client -/

structure Steady (c₀ c : Client) : Prop where
  host : c.host = c₀.host
  uri : c.uri = c₀.uri
  port : c.port = c₀.port
  keepOpen : c.keepOpen = true
  executing : c.executing = true
  eof : c.eof = false
  isFault : c.isFault = false

/-- The client's part of a call while it is watched, with `stream` to be read yet. -/
inductive ClientPhase (head body : Bytes) (c : Client) (stream : Bytes) : Prop
  | writing (hState : c.connectionState = .writeRequest) (hStart : c.bytesWritten = 0)
      (hRequest : c.request.length ≤ intMax) (hStream : stream = head ++ (blankLine ++ body))
  | header (hState : c.connectionState = .readHeader) (hText : c.header ++ stream = head ++ (blankLine ++ body))
      (hPrefix : c.header <+: head ++ blankLine)
  | body (hState : c.connectionState = .readResponse) (hContent : c.contentLength = Int32.ofInt body.length)
      (hText : c.response ++ stream = body) (hMore : stream ≠ [])

theorem ClientPhase.stream_ne_nil (hBody : body ≠ []) {c : Client} {stream : Bytes} (h : ClientPhase head body c stream) :
    stream ≠ [] := by
  cases h with
  | writing _ _ _ hStream => exact XcRos.Rpc.stream_ne_nil hBody ((List.nil_append _).trans hStream) List.nil_prefix
  | header _ hText hPrefix => exact XcRos.Rpc.stream_ne_nil hBody hText hPrefix
  | body _ _ _ hMore => exact hMore

structure Complete (body : Bytes) (c : Client) (stream : Bytes) : Prop where
  state : c.connectionState = .idle
  response : c.response = body
  stream : stream = []

def Client.unsent (c : Client) : Bytes := if c.connectionState = .writeRequest then c.request else []

namespace Exchange

variable {c₀ : Client} {x : Exchange}

/-- An event that leaves the client in a phase of the call, or completes it. Where the kernel has handed over all
that it was offered, nothing is left. -/
structure Goes (c₀ : Client) (head body rest : Bytes) (x : Exchange) (r : Mask × Exchange) : Prop where
  steady : Steady c₀ r.2.client
  mask : r.2.client.mask = x.client.mask
  answers : ∀ a ∈ r.2.reads, a ≠ .eof ∧ a ≠ .fatalError
  phase : r.1 = .none ∧ Complete body r.2.client (r.2.reads.flatMap ReadResult.text ++ rest) ∨
    r.1 = r.2.client.wanted ∧ ClientPhase head body r.2.client (r.2.reads.flatMap ReadResult.text ++ rest) ∧
      (r.2.client.unsent = [] → afterRead x.reads = [] → r.2.reads = [])

theorem afterRead_answers (hReads : ∀ r ∈ reads, r ≠ .eof ∧ r ≠ .fatalError) :
    ∀ r ∈ afterRead reads, r ≠ .eof ∧ r ≠ .fatalError := fun r hr => hReads r (afterRead_subset r hr)

theorem bodyPart_goes (hLength : body.length ≤ intMax) (h : Steady c₀ x.client)
    (hReads : ∀ r ∈ x.reads, r ≠ .eof ∧ r ≠ .fatalError) (hState : x.client.connectionState = .readResponse)
    (hContent : x.client.contentLength = Int32.ofInt body.length)
    (hText : x.client.response ++ (x.reads.flatMap ReadResult.text ++ rest) = body) :
    Goes c₀ head body rest x
        (stage (·.client.connectionState = .readResponse) readResponse (fun x => (x.client.wanted, x)) x) ∧
      (stage (·.client.connectionState = .readResponse) readResponse (fun x => (x.client.wanted, x)) x).2.client.unsent =
        [] := by
  have hAll := congrArg List.length hText
  rw [List.length_append] at hAll
  have hMore := int32_lt (a := x.client.response.length) (b := body.length) (by omega) hLength
  rw [stage, if_pos hState, readResponse, Client.readResponse, hContent]
  by_cases hPart : x.client.response.length < body.length
  · have hLeft := firstText_left hReads hText
    have hTotal := congrArg List.length hLeft
    rw [List.length_append] at hTotal
    have hRead := nbRead_eq (s := []) hReads (by rw [List.nil_append]; simp only [List.length_append] at hTotal; omega)
    have hLess := int32_lt (a := (x.client.response ++ firstText x.reads).length) (b := body.length) (by omega) hLength
    rw [List.nil_append] at hRead
    simp only [hMore, hPart, if_true, hRead, Bool.true_eq_false, if_false, hLess]
    split
    · rename_i hStill
      have hMore : (afterRead x.reads).flatMap ReadResult.text ++ rest ≠ [] := by
        intro hNone
        rw [hNone, List.length_nil] at hTotal
        omega
      exact ⟨⟨⟨h.host, h.uri, h.port, h.keepOpen, h.executing, rfl, h.isFault⟩, rfl, afterRead_answers hReads,
        .inr ⟨rfl, .body hState rfl hLeft hMore, fun _ hDrained => hDrained⟩⟩, if_neg (by simp [hState])⟩
    · rename_i hWhole
      have hNone := List.eq_nil_of_length_eq_zero
        (l := (afterRead x.reads).flatMap ReadResult.text ++ rest) (by omega)
      rw [hNone, List.append_nil] at hLeft
      simp only [Bool.false_eq_true, if_false]
      exact ⟨⟨⟨h.host, h.uri, h.port, h.keepOpen, h.executing, rfl, h.isFault⟩, rfl, afterRead_answers hReads,
        .inl ⟨rfl, rfl, hLeft, hNone⟩⟩, rfl⟩
  · have hNone := List.eq_nil_of_length_eq_zero (l := x.reads.flatMap ReadResult.text ++ rest) (by omega)
    rw [hNone, List.append_nil] at hText
    simp only [hMore, hPart, if_false, Bool.false_eq_true]
    exact ⟨⟨⟨h.host, h.uri, h.port, h.keepOpen, h.executing, h.eof, h.isFault⟩, rfl, hReads,
      .inl ⟨rfl, rfl, hText, hNone⟩⟩, rfl⟩

variable (hFramed : Framed head body body.length) (hLength : (head ++ (blankLine ++ body)).length ≤ intMax)
  (hZero : 0 ∉ body) (h : Steady c₀ x.client) (hReads : ∀ r ∈ x.reads, r ≠ .eof ∧ r ≠ .fatalError)

include hFramed hLength hZero h hReads

theorem headerPart_goes (hState : x.client.connectionState = .readHeader)
    (hText : x.client.header ++ (x.reads.flatMap ReadResult.text ++ rest) = head ++ (blankLine ++ body)) :
    Goes c₀ head body rest x
        (stage (·.client.connectionState = .readHeader) readHeader
          (stage (·.client.connectionState = .readResponse) readResponse fun x => (x.client.wanted, x)) x) ∧
      (stage (·.client.connectionState = .readHeader) readHeader
        (stage (·.client.connectionState = .readResponse) readResponse fun x => (x.client.wanted, x)) x).2.client.unsent =
          [] := by
  have hLeft := firstText_left hReads hText
  have hFits : (x.client.header ++ firstText x.reads).length ≤ intMax := by
    have hTotal := congrArg List.length hLeft
    rw [List.length_append] at hTotal
    omega
  have hBody : body.length ≤ intMax := by
    simp only [List.length_append] at hLength
    omega
  have hScan : x.client.readHeader x.reads x.connect =
      Client.scanResponseHeader { x.client with header := x.client.header ++ firstText x.reads, eof := false } := by
    rw [Client.readHeader, nbRead_eq hReads hFits]
    simp only [Bool.true_eq_false, Bool.false_eq_true, false_and, or_self, if_false]
  rw [stage, if_pos hState, readHeader, hScan]
  rcases header_split hZero hLeft with hShort | ⟨part, hPart, hFront, hRest, hString⟩
  · rw [Client.scanResponseHeader_incomplete hFramed hShort rfl]
    simp only [hState, reduceCtorEq, if_false, if_true, stage]
    exact ⟨⟨⟨h.host, h.uri, h.port, h.keepOpen, h.executing, rfl, h.isFault⟩, rfl, afterRead_answers hReads,
      .inr ⟨rfl, .header rfl hLeft hShort, fun _ hDrained => hDrained⟩⟩, rfl⟩
  · rw [Client.scanResponseHeader_complete hFramed hPart hFront hBody, hString]
    simp only [reduceCtorEq, if_false, if_true]
    obtain ⟨⟨hNext, hMask, hAnswers, hPhase⟩, hUnsent⟩ := @bodyPart_goes head body rest c₀
      { x with
        client := { x.client with
          contentLength := Int32.ofInt body.length, response := part, header := [], eof := false
          connectionState := .readResponse }
        reads := afterRead x.reads } hBody
      ⟨h.host, h.uri, h.port, h.keepOpen, h.executing, rfl, h.isFault⟩ (afterRead_answers hReads) rfl rfl hRest
    refine ⟨⟨hNext, hMask, hAnswers, hPhase.imp_right fun hGoesOn => ⟨hGoesOn.1, hGoesOn.2.1, fun hSent hNone => ?_⟩⟩, hUnsent⟩
    exact hGoesOn.2.2 hSent (by rw [hNone]; rfl)

omit hFramed hLength hZero hReads in
theorem writeRequest_spec (hState : x.client.connectionState = .writeRequest) (hStart : x.client.bytesWritten = 0)
    (hRequest : x.client.request.length ≤ intMax) (hWrites : .fatalError ∉ x.nextWrites) :
    x.writeRequest.1 = true ∧ Steady c₀ x.writeRequest.2.client ∧ x.writeRequest.2.client.mask = x.client.mask ∧
      x.writeRequest.2.reads = x.reads ∧ x.client.put x.nextWrites ++ x.writeRequest.2.client.unsent = x.client.unsent ∧
      ((nbWrite x.client.request 0 x.nextWrites).2 = x.client.request.length ∧
          x.writeRequest.2.client.connectionState = .readHeader ∧ x.writeRequest.2.client.header = [] ∨
        (nbWrite x.client.request 0 x.nextWrites).2 ≠ x.client.request.length ∧
          x.writeRequest.2.client.connectionState = .writeRequest ∧ x.writeRequest.2.client.bytesWritten = 0 ∧
          x.writeRequest.2.client.request.length ≤ intMax) := by
  have hOk := nbWrite_ok hRequest hWrites 0
  have hPut : x.client.put x.nextWrites = x.client.request.take (nbWrite x.client.request 0 x.nextWrites).2 := by
    rw [Client.put, if_pos hState, hStart, written, List.drop_zero]
  have hUnsent : x.client.unsent = x.client.request := if_pos hState
  rw [hPut, hUnsent, writeRequest, Client.writeRequest, hStart]
  simp only [hOk, Bool.true_eq_false, if_false]
  split
  · rename_i hAll
    refine ⟨rfl, ⟨h.host, h.uri, h.port, h.keepOpen, h.executing, h.eof, h.isFault⟩, rfl, trivial, ?_,
      .inl ⟨hAll, rfl, rfl⟩⟩
    rw [Client.unsent, if_neg ClientConnectionState.noConfusion, hAll, List.take_length, List.append_nil]
  · rename_i hPart
    refine ⟨rfl, ⟨h.host, h.uri, h.port, h.keepOpen, h.executing, h.eof, h.isFault⟩, rfl, trivial, ?_,
      .inr ⟨hPart, hState, rfl, ?_⟩⟩
    · rw [Client.unsent, if_pos hState]
      exact List.take_append_drop _ _
    · simp only [List.length_drop]
      omega

/-- Over an event the request loses what it puts on the wire, and the response what is read of it. -/
theorem event_goes (hWrites : .fatalError ∉ x.nextWrites)
    (hPhase : ClientPhase head body x.client (x.reads.flatMap ReadResult.text ++ rest)) :
    Goes c₀ head body rest x x.event ∧ x.client.put x.nextWrites ++ x.event.2.client.unsent = x.client.unsent ∧
      (x.nextWrites = [.wrote x.client.request.length] → x.event.2.client.unsent = []) := by
  have hReading (hState : x.client.connectionState ≠ .writeRequest) {r : Mask × Exchange}
      (hGoes : Goes c₀ head body rest x r ∧ r.2.client.unsent = []) :
      Goes c₀ head body rest x r ∧ x.client.put x.nextWrites ++ r.2.client.unsent = x.client.unsent ∧
        (x.nextWrites = [.wrote x.client.request.length] → r.2.client.unsent = []) := by
    refine ⟨hGoes.1, ?_, fun _ => hGoes.2⟩
    rw [Client.put, if_neg hState, hGoes.2, Client.unsent, if_neg hState, List.append_nil]
  have hBody : body.length ≤ intMax := by
    simp only [List.length_append] at hLength
    omega
  rw [event]
  cases hPhase with
  | header hState hText _ =>
    have hNot : x.client.connectionState ≠ .writeRequest := by simp [hState]
    rw [stage, if_neg hNot]
    exact hReading hNot (headerPart_goes hFramed hLength hZero h hReads hState hText)
  | body hState hContent hText _ =>
    have hNot : x.client.connectionState ≠ .writeRequest := by simp [hState]
    have hBehind : x.client.connectionState ≠ .readHeader := by simp [hState]
    rw [stage, if_neg hNot, stage, if_neg hBehind]
    exact hReading hNot (bodyPart_goes hBody h hReads hState hContent hText)
  | writing hState hStart hRequest hStream =>
    obtain ⟨hOk, hSteady, hMask, hSame, hPut, hCases⟩ := writeRequest_spec h hState hStart hRequest hWrites
    have hAnswers : ∀ r ∈ x.writeRequest.2.reads, r ≠ .eof ∧ r ≠ .fatalError := hSame ▸ hReads
    rw [stage, if_pos hState]
    simp only [hOk, if_true]
    rcases hCases with ⟨-, hNext, hHeader⟩ | ⟨hPart, hNext, hNextStart, hNextRequest⟩
    · have hText : x.writeRequest.2.client.header ++ (x.writeRequest.2.reads.flatMap ReadResult.text ++ rest) =
          head ++ (blankLine ++ body) := by rw [hHeader, hSame, hStream, List.nil_append]
      obtain ⟨⟨hAfter, hAfterMask, hLeft, hGoesOn⟩, hUnsent⟩ := headerPart_goes hFramed hLength hZero hSteady hAnswers hNext
        hText
      refine ⟨⟨hAfter, hAfterMask.trans hMask, hLeft, hSame ▸ hGoesOn⟩, ?_, fun _ => hUnsent⟩
      rw [hUnsent, ← hPut, Client.unsent, if_neg (by simp [hNext])]
    · have hRest : x.writeRequest.2.client.unsent ≠ [] := by
        intro hNone
        rw [hNone, List.append_nil, Client.put, if_pos hState, hStart, written, List.drop_zero, Client.unsent,
          if_pos hState] at hPut
        have hAll := congrArg List.length hPut
        rw [List.length_take] at hAll
        have := (nbWrite_bounds x.client.request x.nextWrites 0 (Nat.zero_le _)).2
        omega
      rw [stage, if_neg (by simp [hNext]), stage, if_neg (by simp [hNext])]
      refine ⟨⟨hSteady, hMask, hAnswers, .inr ⟨rfl, .writing hNext hNextStart hNextRequest (hSame ▸ hStream), fun hNone =>
        absurd hNone hRest⟩⟩, hPut, fun hTotal => ?_⟩
      rw [hTotal] at hPart
      exact absurd (nbWrite_total hRequest (Nat.zero_le _)) hPart

end Exchange

/-! ## The server -/

/-- The server's part of a call while it reads the request, with `stream` to be read yet. -/
inductive ServerPhase (head body : Bytes) (c : ServerConnection) (stream : Bytes) : Prop
  | header (hState : c.connectionState = .readHeader) (hText : c.header ++ stream = head ++ (blankLine ++ body))
      (hPrefix : c.header <+: head ++ blankLine)
  | body (hState : c.connectionState = .readRequest) (hContent : c.contentLength = Int32.ofInt body.length)
      (hKeep : c.keepAlive = true) (hText : c.request ++ stream = body) (hMore : stream ≠ [])

theorem ServerPhase.stream_ne_nil (hBody : body ≠ []) {c : ServerConnection} {stream : Bytes}
    (h : ServerPhase head body c stream) : stream ≠ [] := by
  cases h with
  | header _ hText hPrefix => exact XcRos.Rpc.stream_ne_nil hBody hText hPrefix
  | body _ _ _ _ hMore => exact hMore

namespace Feed

variable {f : Feed}

/-- An event that leaves the server reading, or brings the rest of the request. -/
structure Reads (head body rest : Bytes) (f : Feed) (r : Mask × Feed) : Prop where
  mask : r.1 = r.2.conn.wanted
  response : r.2.conn.response = f.conn.response
  carried : r.2.conn.carried = f.conn.carried
  answers : ∀ a ∈ r.2.reads, a ≠ .eof ∧ a ≠ .fatalError
  phase : ServerPhase head body r.2.conn (r.2.reads.flatMap ReadResult.text ++ rest) ∧
      (afterRead f.reads = [] → r.2.reads = []) ∨
    Arrived body true r.2.conn ∧ r.2.reads.flatMap ReadResult.text ++ rest = []

theorem readRequest_reads (hLength : body.length ≤ intMax) (hReads : ∀ r ∈ f.reads, r ≠ .eof ∧ r ≠ .fatalError)
    (hState : f.conn.connectionState = .readRequest) (hContent : f.conn.contentLength = Int32.ofInt body.length)
    (hKeep : f.conn.keepAlive = true) (hText : f.conn.request ++ (f.reads.flatMap ReadResult.text ++ rest) = body) :
    Reads head body rest f
      (stage (·.conn.connectionState = .readRequest) readRequest (fun f => (f.conn.wanted, f)) f) := by
  have hAll := congrArg List.length hText
  rw [List.length_append] at hAll
  have hMore := int32_lt (a := f.conn.request.length) (b := body.length) (by omega) hLength
  rw [stage, if_pos hState, readRequest, ServerConnection.readRequest, hContent]
  by_cases hPart : f.conn.request.length < body.length
  · have hLeft := firstText_left hReads hText
    have hTotal := congrArg List.length hLeft
    rw [List.length_append] at hTotal
    have hRead := nbRead_eq (s := f.conn.request) hReads (by omega)
    have hLess := int32_lt (a := (f.conn.request ++ firstText f.reads).length) (b := body.length) (by omega) hLength
    have hFits : ¬ (f.conn.request ++ firstText f.reads).length > intMax := by omega
    simp only [hMore, hPart, if_true, hRead, Bool.true_eq_false, if_false, hLess, hFits]
    split
    · rename_i hStill
      have hNext : (afterRead f.reads).flatMap ReadResult.text ++ rest ≠ [] := by
        intro hNone
        rw [hNone, List.length_nil] at hTotal
        omega
      exact ⟨rfl, rfl, rfl, Exchange.afterRead_answers hReads,
        .inl ⟨.body hState rfl hKeep hLeft hNext, fun hDrained => hDrained⟩⟩
    · have hNone := List.eq_nil_of_length_eq_zero
        (l := (afterRead f.reads).flatMap ReadResult.text ++ rest) (by omega)
      rw [hNone, List.append_nil] at hLeft
      exact ⟨rfl, rfl, rfl, Exchange.afterRead_answers hReads, .inr ⟨⟨rfl, hLeft, hKeep⟩, hNone⟩⟩
  · have hNone := List.eq_nil_of_length_eq_zero (l := f.reads.flatMap ReadResult.text ++ rest) (by omega)
    rw [hNone, List.append_nil] at hText
    simp only [hMore, hPart, if_false, if_true]
    exact ⟨rfl, rfl, rfl, hReads, .inr ⟨⟨rfl, hText, hKeep⟩, hNone⟩⟩

theorem readEvent_reads (hFramed : Framed head body body.length) (hLength : (head ++ (blankLine ++ body)).length ≤ intMax)
    (hZero : 0 ∉ body) (hAlive : ∀ part, part <+: body → keepAliveWith head part = true)
    (hReads : ∀ r ∈ f.reads, r ≠ .eof ∧ r ≠ .fatalError)
    (hPhase : ServerPhase head body f.conn (f.reads.flatMap ReadResult.text ++ rest)) :
    Reads head body rest f f.readEvent := by
  have hBody : body.length ≤ intMax := by
    simp only [List.length_append] at hLength
    omega
  rw [readEvent]
  cases hPhase with
  | body hState hContent hKeep hText _ =>
    rw [stage, if_neg (by simp [hState])]
    exact readRequest_reads hBody hReads hState hContent hKeep hText
  | header hState hText _ =>
    have hLeft := firstText_left hReads hText
    have hFits : (f.conn.header ++ firstText f.reads).length ≤ intMax := by
      have hTotal := congrArg List.length hLeft
      rw [List.length_append] at hTotal
      omega
    rw [stage, if_pos hState, readHeader]
    rcases header_split hZero hLeft with hShort | ⟨part, hPart, hFront, hRest, -⟩
    · rw [readHeader_incomplete hFramed hReads hShort hFits]
      simp only [if_true, stage, hState, reduceCtorEq, if_false]
      exact ⟨rfl, rfl, rfl, Exchange.afterRead_answers hReads, .inl ⟨.header rfl hLeft hShort, fun hDrained => hDrained⟩⟩
    · have hPartFits : (head ++ (blankLine ++ part)).length ≤ intMax := hFront ▸ hFits
      have hString : cStr part = part := by
        refine List.takeWhile_eq_self_iff.mpr fun c hc => decide_eq_true fun hEq => hZero ?_
        exact hRest ▸ List.mem_append_left _ (hEq ▸ hc)
      rw [readHeader_complete hFramed hReads hPart hFront hPartFits hBody, hString]
      simp only [if_true]
      obtain ⟨hMask, hResponse, hCarried, hAnswers, hNext⟩ := @readRequest_reads head body rest
        ⟨{ f.conn with
            contentLength := Int32.ofInt body.length, request := part
            keepAlive := keepAliveWith head part, header := [], connectionState := .readRequest },
          afterRead f.reads⟩ hBody (Exchange.afterRead_answers hReads) rfl rfl (hAlive part ⟨_, hRest⟩) hRest
      refine ⟨hMask, hResponse, hCarried, hAnswers, hNext.imp_left fun hOn => ⟨hOn.1, fun hNone => hOn.2 ?_⟩⟩
      rw [hNone]
      rfl

end Feed

structure Ready (c : ServerConnection) : Prop where
  state : c.connectionState = .readHeader
  header : c.header = []
  response : c.response = []
  mask : c.mask ≠ none

theorem sendResponse_spec {c : ServerConnection} {writes : List WriteResult} (hKeep : c.keepAlive = true)
    (hBytes : c.bytesWritten ≤ c.response.length) (hLength : c.response.length ≤ intMax) (hWrites : .fatalError ∉ writes) :
    (c.sendResponse writes).1 = true ∧ ∃ put, (c.sendResponse writes).2.carried = c.carried ++ put ∧
      ((c.sendResponse writes).2.connectionState = .readHeader ∧ (c.sendResponse writes).2.header = [] ∧
          (c.sendResponse writes).2.response = [] ∧ put = c.response.drop c.bytesWritten ∨
        writes ≠ [.wrote c.response.length] ∧ ∃ sent < c.response.length,
          (c.sendResponse writes).2 = { c with bytesWritten := sent, carried := c.carried ++ put } ∧
          put ++ c.response.drop sent = c.response.drop c.bytesWritten) := by
  have hOk := nbWrite_ok hLength hWrites c.bytesWritten
  obtain ⟨hLow, hHigh⟩ := nbWrite_bounds c.response writes c.bytesWritten hBytes
  have hPut : written c.response c.bytesWritten (nbWrite c.response c.bytesWritten writes).2 ++
      c.response.drop (nbWrite c.response c.bytesWritten writes).2 = c.response.drop c.bytesWritten := by
    rw [← List.append_cancel_left_eq (c.response.take c.bytesWritten), ← List.append_assoc,
      take_append_written _ hLow, List.take_append_drop, List.take_append_drop]
  rw [ServerConnection.sendResponse]
  simp only [hOk, Bool.true_eq_false, if_false]
  split
  · rename_i hAll
    refine ⟨hKeep, _, rfl, .inl ⟨rfl, rfl, rfl, ?_⟩⟩
    rw [← hPut, hAll, List.drop_length, List.append_nil]
  · rename_i hPart
    refine ⟨hKeep, _, rfl, .inr ⟨?_, _, by omega, rfl, hPut⟩⟩
    rintro rfl
    exact hPart (nbWrite_total hLength hBytes)

end XcRos.Rpc
