import XcRos.Rpc.RemoteCallSteps

/-! # Remote calls are local calls

Whatever the order of the events and however the bytes are cut, each call returns what its method did, and the method
has run once for it.
-/

namespace XcRos.Rpc

open XcRos.Foundation

universe u

section

variable {σ : Type u} [DoubleText] {findMethod : Bytes → Option (Method σ)} {c₀ : Client} {call : RemoteCall}
  {outcome : Except Fault Value} {s s' : σ} {p : Peers σ} {due : Bytes}

/-! ## What is on the wire -/

def answerText (outcome : Except Fault Value) : Bytes :=
  responseHead (answerBody outcome).length ++ (blankLine ++ answerBody outcome)

theorem answerBody_ne_nil (outcome : Except Fault Value) : answerBody outcome ≠ [] := by
  have hResult : responseBegin ≠ [] := by decide
  have hFault : faultBegin ≠ [] := by decide
  cases outcome with
  | ok v => exact List.append_ne_nil_of_left_ne_nil (List.append_ne_nil_of_left_ne_nil hResult _) _
  | error fault => exact List.append_ne_nil_of_left_ne_nil (List.append_ne_nil_of_left_ne_nil hFault _) _

theorem body_ne_nil (call : RemoteCall) : call.body ≠ [] := by
  have hBegin : requestBegin ≠ [] := by decide
  simp only [RemoteCall.body, Client.requestBody, List.append_assoc]
  exact List.append_ne_nil_of_left_ne_nil hBegin _

namespace RemoteCall.Carried

variable (h : call.Carried c₀ outcome)

include h

theorem body_length : call.body.length ≤ intMax := by
  have hRequest := h.request
  rw [List.length_append] at hRequest
  omega

theorem answer_length : (answerBody outcome).length ≤ intMax := by
  have hResponse := h.response
  rw [List.length_append] at hResponse
  omega

theorem generate_eq : generate outcome = answerText outcome ∧ (answerText outcome).length ≤ intMax := by
  have hText : responseHeader (answerBody outcome) ++ answerBody outcome = answerText outcome := by
    rw [responseHeader_eq h.answer_length, List.append_assoc]
    rfl
  have hResponse := h.response
  refine ⟨?_, hText ▸ hResponse⟩
  rw [← hText]
  cases outcome with
  | ok v =>
    rw [List.length_append] at hResponse
    exact if_neg (Nat.not_lt.mpr hResponse)
  | error fault => rfl

theorem executeRequest_eq {fuel : Nat}
    (hCall : executeCall findMethod fuel call.methodName (paramsValue call.params) s = some (outcome, s')) :
    executeRequest findMethod fuel call.body s = some (answerText outcome, s') ∧
      ∀ more e, executeRequest findMethod more call.body s = some e → e = (answerText outcome, s') := by
  have hParse := parseRequest_elements h.methodName.1 h.methodName.2 h.params h.body_length
  have hRun (fuel : Nat) : executeRequest findMethod fuel call.body s =
      (executeCall findMethod fuel call.methodName (paramsValue call.params) s).map fun r => (generate r.1, r.2) := by
    rw [executeRequest, RemoteCall.body, hParse]
  refine ⟨by rw [hRun, hCall, Option.map_some, h.generate_eq.1], fun more e hMore => ?_⟩
  rw [hRun] at hMore
  obtain ⟨r, hOther, rfl⟩ := Option.map_eq_some_iff.mp hMore
  have hSame := (executeCall_le (Nat.le_max_left fuel more) hCall).symm.trans
    (executeCall_le (Nat.le_max_right fuel more) hOther)
  rw [← Option.some.inj hSame, h.generate_eq.1]

theorem parseResponse_eq {c : Client} (hFresh : c.isFault = false) (hResponse : c.response = answerBody outcome) :
    c.parseResponse = ((returnedOf outcome).value, { c with response := [], isFault := (returnedOf outcome).isFault }) := by
  have hBlanks : ∀ b ∈ bytes "\r\n\t", isspace b = true := List.all_iff_forall_prop.mp (by decide)
  have hLength := hResponse ▸ h.answer_length
  cases outcome with
  | ok v =>
    have hText : c.response = responseBegin ++ (v.toXml ++ responseEnd) := hResponse.trans (List.append_assoc _ _ _)
    obtain ⟨offset, start, hFind, hValue, hDrop⟩ := responseValue_result hLength hText
    have hRead := fromXml_behind (h.result v rfl) hLength hBlanks hDrop
    simp only [Client.parseResponse, hFind, hValue, hRead, Option.map_some, hFresh, Bool.or_false, returnedOf]
  | error fault =>
    have hText : c.response = faultBegin ++ ((faultStruct fault.message fault.code).toXml ++ faultEnd) :=
      hResponse.trans (List.append_assoc _ _ _)
    obtain ⟨offset, start, hFind, hValue, hDrop⟩ := responseValue_fault hLength hText
    have hRead := fromXml_behind (faultStruct_codable fault.message fault.code) hLength hBlanks hDrop
    simp only [Client.parseResponse, hFind, hValue, hRead, Option.map_some, Bool.or_true, returnedOf, Fault.toStruct]

end RemoteCall.Carried

/-! ## A call -/

/-- The server's side of a call: `stream` is to be read yet, and `due` to be written. -/
inductive ServerSide (c₀ : Client) (call : RemoteCall) (outcome : Except Fault Value) (s s' : σ) (c : ServerConnection)
    (methods : σ) (stream due : Bytes) : Prop
  | reading (hPhase : ServerPhase (requestHead c₀ call.body.length) call.body c stream) (hFresh : c.response = [])
      (hMethods : methods = s) (hDue : due = answerText outcome)
  | writing (hState : c.connectionState = .writeResponse) (hKeep : c.keepAlive = true)
      (hResponse : c.response = answerText outcome) (hPart : c.bytesWritten < c.response.length) (hMethods : methods = s')
      (hStream : stream = []) (hDue : due = c.response.drop c.bytesWritten)
  | done (hReady : Ready c) (hMethods : methods = s') (hStream : stream = []) (hDue : due = [])

/-- The client's side, with `stream` to be read yet. -/
inductive ClientSide (outcome : Except Fault Value) (c : Client) (stream : Bytes) : Prop
  | going (hMask : c.mask ≠ none)
      (hPhase : ClientPhase (responseHead (answerBody outcome).length) (answerBody outcome) c stream)
  | over (hMask : c.mask = none) (hComplete : Complete (answerBody outcome) c stream)

structure Calling (c₀ : Client) (call : RemoteCall) (outcome : Except Fault Value) (s s' : σ) (p : Peers σ) (due : Bytes) :
    Prop where
  steady : Steady c₀ p.client
  client : ClientSide outcome p.client (p.toClient ++ due)
  server : ServerSide c₀ call outcome s s' p.server p.methods (p.toServer ++ p.client.unsent) due
  mask : p.server.mask ≠ none

structure Quiet (c₀ : Client) (p : Peers σ) : Prop where
  target : p.client.host = c₀.host ∧ p.client.uri = c₀.uri ∧ p.client.port = c₀.port
  keepOpen : p.client.keepOpen = true
  executing : p.client.executing = false
  eof : p.client.eof = false
  state : p.client.connectionState = .noConnection ∨ p.client.connectionState = .idle
  server : Ready p.server
  toServer : p.toServer = []
  toClient : p.toClient = []

omit [DoubleText] in
theorem ClientPhase.withMask {head body stream : Bytes} {c : Client} (h : ClientPhase head body c stream)
    (mask : Option Mask) : ClientPhase head body { c with mask } stream := by
  cases h with
  | writing hState hStart hRequest hStream => exact .writing hState hStart hRequest hStream
  | header hState hText hPrefix => exact .header hState hText hPrefix
  | body hState hContent hText hMore => exact .body hState hContent hText hMore

omit [DoubleText] in
theorem wanted_ne (c : Client) : c.wanted ≠ .all ∧ c.wanted ≠ .none := by
  rw [Client.wanted]
  split <;> decide

omit [DoubleText] in
theorem updateMask_eq {c : Client} (hKeep : c.keepOpen = true) (hMask : c.mask ≠ none) {newMask : Mask}
    (hNew : newMask ≠ .all) :
    ClientSession.updateMask c newMask = { c with mask := if newMask = .none then none else some newMask } := by
  obtain ⟨mask, hSome⟩ := Option.ne_none_iff_exists'.mp hMask
  simp only [ClientSession.updateMask, hSome, hKeep, hNew, if_true, if_false]
  split <;> rfl

omit [DoubleText] in
theorem singles_whole {text more : Bytes} (h : (singles text).flatMap ReadResult.text ++ more = text) :
    more = [] ∧ afterRead (singles text) = [] := by
  have hDrained := (firstText_singles text []).2
  rw [List.append_nil] at hDrained
  rw [singles_text] at h
  exact ⟨List.append_right_eq_self.mp h, hDrained⟩

theorem Calling.clientEvent (hCarried : call.Carried c₀ outcome) (h : Calling c₀ call outcome s s' p due)
    {writes : List WriteResult} {reads : List ReadResult} (hMask : p.client.mask ≠ none) (hWrites : .fatalError ∉ writes)
    (hReads : Peers.Delivers p.toClient reads) :
    Calling c₀ call outcome s s' (p.clientEvent writes reads) due ∧
      (writes = [.wrote p.client.request.length] → reads = singles p.toClient →
        (p.clientEvent writes reads).client.unsent = [] ∧
          (due = [] → (p.clientEvent writes reads).client.mask = none)) := by
  obtain ⟨hAnswers, more, hMore⟩ := hReads
  have hDrop : p.toClient.drop (reads.flatMap ReadResult.text).length = more := by rw [← hMore, List.drop_left]
  obtain ⟨-, hPhase⟩ | ⟨hNone, -⟩ := h.client
  · rw [← hMore, List.append_assoc] at hPhase
    obtain ⟨⟨hSteady, hSame, -, hCases⟩, hPut, hSent⟩ := Exchange.event_goes
      (x := ⟨p.client, [writes], reads, []⟩) (responseHead_framed (answerBody_ne_nil outcome) hCarried.answer_length)
      hCarried.generate_eq.2 hCarried.responseZero h.steady hAnswers hWrites hPhase
    generalize hEvent : Exchange.event ⟨p.client, [writes], reads, []⟩ = r at hSteady hSame hCases hPut hSent
    have hNotAll : r.1 ≠ .all := by
      rcases hCases with ⟨hEnd, -⟩ | ⟨hWanted, -⟩
      · rw [hEnd]
        decide
      · rw [hWanted]
        exact (wanted_ne _).1
    have hClient := updateMask_eq hSteady.keepOpen (hSame ▸ hMask) hNotAll
    have hServer : p.toServer ++ p.client.put writes ++ r.2.client.unsent = p.toServer ++ p.client.unsent := by
      rw [List.append_assoc]
      exact congrArg (p.toServer ++ ·) hPut
    simp only [Peers.clientEvent, hEvent, Peers.undelivered, hDrop, hClient]
    refine ⟨⟨⟨hSteady.host, hSteady.uri, hSteady.port, hSteady.keepOpen, hSteady.executing, hSteady.eof, hSteady.isFault⟩,
      ?_, hServer ▸ h.server, h.mask⟩, fun hAll hWhole => ⟨hSent (by rw [hAll]; rfl), ?_⟩⟩
    · rw [List.append_assoc]
      rcases hCases with ⟨hEnd, hComplete⟩ | ⟨hWanted, hNext, -⟩
      · exact .over (if_pos hEnd) ⟨hComplete.state, hComplete.response, hComplete.stream⟩
      · refine .going ?_ (hNext.withMask _)
        rw [hWanted]
        exact (if_neg (wanted_ne _).2).trans_ne (Option.some_ne_none _)
    · rintro rfl
      subst hWhole
      obtain ⟨rfl, hDrained⟩ := singles_whole hMore
      rcases hCases with ⟨hEnd, -⟩ | ⟨-, hNext, hLeft⟩
      · exact if_pos hEnd
      · rw [hLeft (hSent (by rw [hAll]; rfl)) hDrained] at hNext
        exact absurd rfl (hNext.stream_ne_nil (answerBody_ne_nil outcome))
  · exact absurd hNone hMask

omit [DoubleText] in
theorem ServerPhase.withMask {head body stream : Bytes} {c : ServerConnection} (h : ServerPhase head body c stream)
    (mask : Option Mask) : ServerPhase head body { c with mask } stream := by
  cases h with
  | header hState hText hPrefix => exact .header hState hText hPrefix
  | body hState hContent hKeep hText hMore => exact .body hState hContent hKeep hText hMore

section

variable {c begun : ServerConnection} {reads : List ReadResult} {executed : Bytes} {writes : List WriteResult}

omit [DoubleText] in
theorem dispatch_reading (hWanted : (Feed.readEvent ⟨c, reads⟩).1 = (Feed.readEvent ⟨c, reads⟩).2.conn.wanted)
    (hState : (Feed.readEvent ⟨c, reads⟩).2.conn.connectionState ≠ .writeResponse) :
    c.dispatch ⟨reads, if c.connectionState = .readHeader then afterRead reads else reads, executed, writes⟩ =
      { (Feed.readEvent ⟨c, reads⟩).2.conn with mask := some (Feed.readEvent ⟨c, reads⟩).2.conn.wanted } := by
  have hNot : (Feed.readEvent ⟨c, reads⟩).1 ≠ .none := hWanted ▸ wanted_ne_none _
  rw [ServerConnection.dispatch, handleEvent_eq, if_neg hNot, stage, if_neg hState]
  exact if_neg (wanted_ne_none _)

omit [DoubleText] in
theorem dispatch_sending (hWanted : (Feed.readEvent ⟨c, reads⟩).1 = (Feed.readEvent ⟨c, reads⟩).2.conn.wanted)
    (hState : (Feed.readEvent ⟨c, reads⟩).2.conn.connectionState = .writeResponse)
    (hWrite : (Feed.readEvent ⟨c, reads⟩).2.conn.writeResponse executed writes = begun.sendResponse writes)
    (hOk : (begun.sendResponse writes).1 = true) :
    c.dispatch ⟨reads, if c.connectionState = .readHeader then afterRead reads else reads, executed, writes⟩ =
      { (begun.sendResponse writes).2 with mask := some (begun.sendResponse writes).2.wanted } := by
  have hNot : (Feed.readEvent ⟨c, reads⟩).1 ≠ .none := hWanted ▸ wanted_ne_none _
  rw [ServerConnection.dispatch, handleEvent_eq, if_neg hNot, stage, if_pos hState, hWrite]
  simp only [hOk, if_true, wanted_ne_none, if_false]

omit [DoubleText] in
theorem readEvent_ready (h : Ready c) (hReads : ∀ r ∈ reads, r ≠ .eof ∧ r ≠ .fatalError)
    (hNone : reads.flatMap ReadResult.text = []) :
    Feed.readEvent ⟨c, reads⟩ = (c.wanted, ⟨c, afterRead reads⟩) ∧ (afterRead reads).flatMap ReadResult.text = [] := by
  have hParts := firstText_append hReads
  rw [hNone, List.append_eq_nil_iff] at hParts
  have hRead := nbRead_eq (s := c.header) hReads (by rw [h.header, hParts.1]; exact Nat.zero_le _)
  have hSame : { c with header := [] } = c := by rw [← h.header]
  rw [h.header, hParts.1] at hRead
  refine ⟨?_, hParts.2⟩
  have hHeader : Feed.readHeader ⟨c, reads⟩ = (true, ⟨c, afterRead reads⟩) := by
    rw [Feed.readHeader, ServerConnection.readHeader, h.header, hRead]
    exact congrArg (fun d : ServerConnection => (true, (⟨d, afterRead reads⟩ : Feed))) hSame
  rw [Feed.readEvent, stage, if_pos h.state, hHeader]
  simp only [if_true, stage, h.state, reduceCtorEq, if_false]

theorem ready_event (findMethod : Bytes → Option (Method σ)) (executed : Bytes) (writes : List WriteResult) (h : Ready c)
    (hReads : ∀ r ∈ reads, r ≠ .eof ∧ r ≠ .fatalError)
    (hNone : reads.flatMap ReadResult.text = []) (fuel : Nat) (methods : σ) :
    Peers.executed findMethod fuel (Feed.readEvent ⟨c, reads⟩) methods = some ([], methods) ∧
      ∃ c', c.dispatch ⟨reads, if c.connectionState = .readHeader then afterRead reads else reads, executed, writes⟩ = c' ∧
        c'.carried = c.carried ∧ Ready c' ∧ (Feed.readEvent ⟨c, reads⟩).2.reads.flatMap ReadResult.text = [] := by
  obtain ⟨hEvent, hLeft⟩ := readEvent_ready h hReads hNone
  have hState : (Feed.readEvent ⟨c, reads⟩).2.conn.connectionState ≠ .writeResponse := by
    rw [hEvent, h.state]
    decide
  refine ⟨if_neg fun hAll => hState hAll.2.1, _, dispatch_reading (by rw [hEvent]) hState, ?_⟩
  rw [hEvent]
  exact ⟨rfl, ⟨h.state, h.header, h.response, Option.some_ne_none _⟩, hLeft⟩

theorem ServerSide.event (hTarget : PlainTarget c₀) (hCarried : call.Carried c₀ outcome) {fuel : Nat}
    (hCall : executeCall findMethod fuel call.methodName (paramsValue call.params) s = some (outcome, s')) {methods : σ}
    {rest : Bytes} (h : ServerSide c₀ call outcome s s' c methods (reads.flatMap ReadResult.text ++ rest) due)
    (hReads : ∀ r ∈ reads, r ≠ .eof ∧ r ≠ .fatalError) (hWrites : .fatalError ∉ writes) :
    (∃ e, Peers.executed findMethod fuel (Feed.readEvent ⟨c, reads⟩) methods = some e) ∧
      ∀ more e, Peers.executed findMethod more (Feed.readEvent ⟨c, reads⟩) methods = some e →
        ∃ c' put due', c.dispatch
            ⟨reads, if c.connectionState = .readHeader then afterRead reads else reads, e.1, writes⟩ = c' ∧
          c'.carried = c.carried ++ put ∧ put ++ due' = due ∧ c'.mask ≠ none ∧
          ServerSide c₀ call outcome s s' c' e.2
            ((Feed.readEvent ⟨c, reads⟩).2.reads.flatMap ReadResult.text ++ rest) due' ∧
          (rest = [] → afterRead reads = [] → writes = [.wrote (answerText outcome).length] → due' = []) := by
  have hLength := hCarried.generate_eq.2
  -- the response goes out, from its start or from where it has got to
  have hSends {methods : σ} (begun : ServerConnection) {stream : Bytes} (hKeep : begun.keepAlive = true)
      (hState : begun.connectionState = .writeResponse) (hResponse : begun.response = answerText outcome)
      (hBytes : begun.bytesWritten ≤ begun.response.length) (hMethods : methods = s') (hStream : stream = []) :
      (begun.sendResponse writes).1 = true ∧ ∃ put due', (begun.sendResponse writes).2.carried = begun.carried ++ put ∧
        put ++ due' = begun.response.drop begun.bytesWritten ∧
        ServerSide c₀ call outcome s s'
          { (begun.sendResponse writes).2 with mask := some (begun.sendResponse writes).2.wanted } methods stream due' ∧
        (writes = [.wrote (answerText outcome).length] → due' = []) := by
    obtain ⟨hOk, put, hPut, ⟨hNext, hHeader, hFresh, hAll⟩ | ⟨hPart, sent, hSent, hNext, hDrop⟩⟩ :=
      sendResponse_spec hKeep hBytes (hResponse ▸ hLength) hWrites
    · refine ⟨hOk, put, [], hPut, by rw [List.append_nil, hAll], ?_, fun _ => rfl⟩
      exact .done ⟨hNext, hHeader, hFresh, Option.some_ne_none _⟩ hMethods hStream rfl
    · refine ⟨hOk, put, _, hPut, hDrop, ?_, fun hTotal => absurd (hResponse ▸ hTotal) hPart⟩
      rw [hNext]
      exact .writing hState hKeep hResponse hSent hMethods hStream rfl
  cases h with
  | reading hPhase hFresh hMethods hDue =>
    have hHeader := generateHeader_eq c₀ call.body.length
    have hVersion := hCarried.version
    have hRequest := hCarried.request
    rw [hHeader, List.append_assoc] at hVersion hRequest
    obtain ⟨hWanted, hResponse, hSame, -, ⟨hNext, hLeft⟩ | ⟨hArrived, hNone⟩⟩ := Feed.readEvent_reads (f := ⟨c, reads⟩)
      (requestHead_framed hTarget (body_ne_nil call) hCarried.body_length) hRequest hCarried.requestZero
      (fun part hPart => requestHead_keptAlive hTarget hPart hVersion) hReads hPhase
    · have hState : (Feed.readEvent ⟨c, reads⟩).2.conn.connectionState ≠ .writeResponse := by
        cases hNext with
        | header hState _ _ => simp [hState]
        | body hState _ _ _ _ => simp [hState]
      have hExecuted (fuel : Nat) : Peers.executed findMethod fuel (Feed.readEvent ⟨c, reads⟩) methods = some ([], methods) :=
        if_neg fun hAll => hState hAll.2.1
      refine ⟨⟨_, hExecuted fuel⟩, fun more e he => ?_⟩
      obtain rfl := Option.some.inj ((hExecuted more).symm.trans he)
      refine ⟨_, [], due, dispatch_reading hWanted hState, ?_, rfl, Option.some_ne_none _,
        .reading (hNext.withMask _) (hResponse.trans hFresh) hMethods hDue, fun hRest hDrained _ => ?_⟩
      · rw [List.append_nil]
        exact hSame
      · rw [hLeft hDrained, hRest] at hNext
        exact absurd rfl (hNext.stream_ne_nil (body_ne_nil call))
    · have hText : (answerText outcome).length ≠ 0 := by
        simp [answerText, answerBody_ne_nil]
      have hFresh : (Feed.readEvent ⟨c, reads⟩).2.conn.response = [] := hResponse.trans hFresh
      have hNot : (Feed.readEvent ⟨c, reads⟩).1 ≠ .none := hWanted ▸ wanted_ne_none _
      have hExecuted (fuel : Nat) : Peers.executed findMethod fuel (Feed.readEvent ⟨c, reads⟩) methods =
          executeRequest findMethod fuel call.body s := by
        rw [Peers.executed, if_pos ⟨hNot, hArrived.state, by rw [hFresh]; rfl⟩, hArrived.request, hMethods]
      obtain ⟨hRun, hSameRun⟩ := hCarried.executeRequest_eq hCall
      refine ⟨⟨_, (hExecuted fuel).trans hRun⟩, fun more e he => ?_⟩
      obtain rfl := hSameRun more e ((hExecuted more).symm.trans he)
      let begun : ServerConnection := { (Feed.readEvent ⟨c, reads⟩).2.conn with
        response := answerText outcome
        executions := (Feed.readEvent ⟨c, reads⟩).2.conn.executions + 1
        bytesWritten := 0 }
      have hWrite : (Feed.readEvent ⟨c, reads⟩).2.conn.writeResponse (answerText outcome) writes =
          begun.sendResponse writes := by
        rw [ServerConnection.writeResponse, hFresh, if_pos List.length_nil]
        exact if_neg hText
      obtain ⟨hOk, put, due', hPut, hDrop, hSide, hTotal⟩ := hSends begun hArrived.keepAlive hArrived.state rfl
        (Nat.zero_le _) (rfl : s' = s') hNone
      refine ⟨_, put, due', dispatch_sending hWanted hArrived.state hWrite hOk, hPut.trans ?_, ?_, Option.some_ne_none _,
        hSide, fun _ _ => hTotal⟩
      · exact congrArg (· ++ put) hSame
      · rw [hDue, hDrop]
        exact List.drop_zero
  | writing hState hKeep hResponse hPart hMethods hStream hDue =>
    have hEvent : Feed.readEvent ⟨c, reads⟩ = (c.wanted, ⟨c, reads⟩) := by simp [Feed.readEvent, stage, hState]
    have hSome : c.response.length ≠ 0 := by omega
    have hExecuted (fuel : Nat) : Peers.executed findMethod fuel (Feed.readEvent ⟨c, reads⟩) methods = some ([], methods) :=
      if_neg fun hAll => hSome (by rw [← hAll.2.2, hEvent])
    refine ⟨⟨_, hExecuted fuel⟩, fun more e he => ?_⟩
    obtain rfl := Option.some.inj ((hExecuted more).symm.trans he)
    obtain ⟨hOk, put, due', hPut, hDrop, hSide, hTotal⟩ :=
      hSends c hKeep hState hResponse (Nat.le_of_lt hPart) hMethods hStream
    refine ⟨_, put, due', dispatch_sending (by rw [hEvent]) (by rw [hEvent]; exact hState) ?_ hOk, hPut,
      hDrop.trans hDue.symm, Option.some_ne_none _, by rw [hEvent]; exact hSide, fun _ _ => hTotal⟩
    rw [hEvent]
    exact if_neg hSome
  | done hReady hMethods hStream hDue =>
    obtain ⟨hNone, hRest⟩ := List.append_eq_nil_iff.mp hStream
    have hExecuted (fuel : Nat) : Peers.executed findMethod fuel (Feed.readEvent ⟨c, reads⟩) methods = some ([], methods) :=
      (ready_event findMethod [] [] hReady hReads hNone fuel methods).1
    refine ⟨⟨_, hExecuted fuel⟩, fun more e he => ?_⟩
    obtain rfl := Option.some.inj ((hExecuted more).symm.trans he)
    obtain ⟨-, c', hDispatch, hCarried, hStill, hLeft⟩ := ready_event findMethod [] writes hReady hReads hNone fuel
      methods
    refine ⟨c', [], [], hDispatch, by rw [hCarried, List.append_nil], hDue.symm, hStill.mask, ?_, fun _ _ _ => rfl⟩
    exact .done hStill hMethods (by rw [hLeft, hRest]; rfl) rfl

end

theorem Calling.serverEvent (hTarget : PlainTarget c₀) (hCarried : call.Carried c₀ outcome) {fuel : Nat}
    (hCall : executeCall findMethod fuel call.methodName (paramsValue call.params) s = some (outcome, s'))
    (h : Calling c₀ call outcome s s' p due) {reads : List ReadResult} {writes : List WriteResult}
    (hWrites : .fatalError ∉ writes) (hReads : Peers.Delivers p.toServer reads) :
    (∃ p', p.serverEvent findMethod fuel reads writes = some p') ∧
      ∀ more p', p.serverEvent findMethod more reads writes = some p' →
        (p'.client = p.client ∧ p'.calls = p.calls ∧ p'.returned = p.returned) ∧
          ∃ due', Calling c₀ call outcome s s' p' due' ∧
            (p.client.unsent = [] → reads = singles p.toServer → writes = [.wrote (answerText outcome).length] → due' = []) := by
  obtain ⟨hAnswers, left, hLeft⟩ := hReads
  have hDrop : p.toServer.drop (reads.flatMap ReadResult.text).length = left := by rw [← hLeft, List.drop_left]
  have hServer := h.server
  rw [← hLeft, List.append_assoc] at hServer
  obtain ⟨⟨e, he⟩, hEvent⟩ := hServer.event hTarget hCarried hCall hAnswers hWrites
  refine ⟨⟨_, congrArg (Option.map _) he⟩, fun more p' hStep => ?_⟩
  obtain ⟨e, he, rfl⟩ := Option.map_eq_some_iff.mp hStep
  obtain ⟨c', put, due', hDispatch, hPut, hDue, hMask, hSide, hTotal⟩ := hEvent more e he
  simp only [hDispatch, Peers.undelivered, hDrop, hPut, List.drop_left]
  refine ⟨⟨trivial, trivial, trivial⟩, due', ⟨h.steady, ?_, ?_, hMask⟩, fun hSent hWhole hAll => ?_⟩
  · rw [List.append_assoc, hDue]
    exact h.client
  · rw [List.append_assoc]
    exact hSide
  · subst hWhole
    obtain ⟨rfl, hDrained⟩ := singles_whole hLeft
    exact hTotal hSent hDrained hAll

/-! ## Between calls -/

theorem Quiet.serverEvent (h : Quiet c₀ p) {fuel : Nat} {reads : List ReadResult} {writes : List WriteResult}
    (hReads : Peers.Delivers p.toServer reads) {p' : Peers σ} (hStep : p.serverEvent findMethod fuel reads writes = some p') :
    Quiet c₀ p' ∧ p'.methods = p.methods ∧ p'.calls = p.calls ∧ p'.returned = p.returned := by
  have hNone : reads.flatMap ReadResult.text = [] := List.prefix_nil.mp (h.toServer ▸ hReads.2)
  obtain ⟨hExecuted, c', hDispatch, hCarried, hReady, hLeft⟩ := ready_event findMethod [] writes h.server hReads.1 hNone
    fuel p.methods
  rw [Peers.serverEvent] at hStep
  simp only [hExecuted, Option.map_some, hDispatch, hCarried, List.drop_length, List.append_nil, Peers.undelivered, hLeft,
    hNone, h.toServer] at hStep
  cases hStep
  exact ⟨⟨h.target, h.keepOpen, h.executing, h.eof, h.state, hReady, rfl, h.toClient⟩, rfl, rfl, rfl⟩

theorem Quiet.execute (hCarried : call.Carried c₀ outcome) (h : Quiet c₀ p) (hMethods : p.methods = s)
    (rest : List RemoteCall) : Calling c₀ call outcome s s' (p.execute call rest) (answerText outcome) := by
  obtain ⟨hHost, hUri, hPort⟩ := h.target
  have hHeader (c : Client) (hSame : c.host = p.client.host ∧ c.uri = p.client.uri ∧ c.port = p.client.port) :
      c.generateHeader call.body.length ++ call.body = requestHead c₀ call.body.length ++ (blankLine ++ call.body) := by
    rw [← List.append_assoc, ← generateHeader_eq, Client.generateHeader, Client.generateHeader, hSame.1, hSame.2.1, hSame.2.2,
      hHost, hUri, hPort]
  have hLength := hCarried.request
  rw [generateHeader_eq, List.append_assoc] at hLength
  -- the client, on the new connection or on the one from the call before
  obtain ⟨c, hClient, hSteady, hMask, hState, hStart, hRequest⟩ : ∃ c,
      (ClientSession.execute ⟨p.client, none, []⟩ call.methodName (.array call.params) .connected).client = c ∧
        Steady c₀ c ∧ c.mask ≠ none ∧ c.connectionState = .writeRequest ∧ c.bytesWritten = 0 ∧
        c.request = requestHead c₀ call.body.length ++ (blankLine ++ call.body) := by
    have hEof := h.eof
    refine ⟨_, rfl, ?_⟩
    rcases h.state with hState | hState <;>
      simp only [ClientSession.execute, ClientSession.startCall, Client.setupConnection, Client.openConnection,
        Client.doConnect, Client.prepareToWrite, Client.generateRequest, hState, hEof, ne_eq, not_true_eq_false,
        false_and, and_false, reduceCtorEq, Bool.false_eq_true, or_self, if_false, if_true] <;>
      exact ⟨⟨hHost, hUri, hPort, h.keepOpen, rfl, rfl, rfl⟩, not_false, trivial, trivial, hHeader _ ⟨rfl, rfl, rfl⟩⟩
  have hUnsent : c.unsent = requestHead c₀ call.body.length ++ (blankLine ++ call.body) := (if_pos hState).trans hRequest
  have hStarted (server : ServerConnection) (hReady : Ready server) {p' : Peers σ} (hNext : p'.client = c)
      (hServer : p'.server = server) (hSame : p'.methods = s) (hUp : p'.toServer = []) (hDown : p'.toClient = []) :
      Calling c₀ call outcome s s' p' (answerText outcome) := by
    refine ⟨hNext ▸ hSteady, ?_, ?_, hServer ▸ hReady.mask⟩
    · rw [hNext, hDown, List.nil_append]
      exact .going hMask (.writing hState hStart (hRequest ▸ hLength) rfl)
    · rw [hNext, hUp, List.nil_append, hUnsent, hServer]
      exact .reading (.header hReady.state (by rw [hReady.header]; rfl) (hReady.header ▸ List.nil_prefix)) hReady.response
        hSame rfl
  rw [Peers.execute]
  split
  · exact hStarted .new ⟨rfl, rfl, rfl, Option.some_ne_none _⟩ hClient rfl hMethods rfl rfl
  · exact hStarted p.server h.server hClient rfl hMethods h.toServer h.toClient

theorem Calling.finish (hCarried : call.Carried c₀ outcome) (h : Calling c₀ call outcome s s' p due)
    (hMask : p.client.mask = none) :
    Quiet c₀ p.finish ∧ p.finish.methods = s' ∧ p.finish.returned = p.returned ++ [returnedOf outcome] := by
  obtain ⟨hWatched, -⟩ | ⟨-, hComplete⟩ := h.client
  · exact absurd hMask hWatched
  · obtain ⟨hDown, rfl⟩ := List.append_eq_nil_iff.mp hComplete.stream
    have hParse := hCarried.parseResponse_eq h.steady.isFault hComplete.response
    have hReturned : p.finish.returned = p.returned ++ [returnedOf outcome] := by
      simp only [Peers.finish, Exchange.finish, hComplete.state, if_true, hParse]
    have hClient : p.finish.client = { p.client with
        response := [], isFault := (returnedOf outcome).isFault, executing := false } := by
      simp only [Peers.finish, ClientSession.finish, hComplete.state, if_true, hParse]
    cases h.server with
    | reading _ _ _ hDue => exact absurd hDue.symm (by simp [answerText, answerBody_ne_nil])
    | writing _ _ _ hPart _ _ hDue =>
      have := congrArg List.length hDue
      rw [List.length_drop, List.length_nil] at this
      omega
    | done hReady hMethods hStream _ =>
      have hSteady := h.steady
      refine ⟨⟨?_, ?_, ?_, ?_, .inr ?_, hReady, (List.append_eq_nil_iff.mp hStream).1, hDown⟩, hMethods, hReturned⟩
      · rw [hClient]
        exact ⟨hSteady.host, hSteady.uri, hSteady.port⟩
      · rw [hClient]
        exact hSteady.keepOpen
      · rw [hClient]
      · rw [hClient]
        exact hSteady.eof
      · rw [hClient]
        exact hComplete.state

/-! ## All calls -/

omit [DoubleText] in
theorem Executed.snoc {front : List RemoteCall} {done : List (Except Fault Value)} {s₀ : σ} {fuel : Nat}
    (h : Executed findMethod front s₀ done s)
    (hCall : executeCall findMethod fuel call.methodName (paramsValue call.params) s = some (outcome, s')) :
    Executed findMethod (front ++ [call]) s₀ (done ++ [outcome]) s' := by
  induction h with
  | nil s => exact .cons hCall (.nil s')
  | cons hFirst _ ih => exact .cons hFirst (ih hCall)

/-- Which of the calls are behind, and which are still to be executed. -/
structure Account (findMethod : Bytes → Option (Method σ)) (c₀ : Client) (calls : List RemoteCall)
    (outcomes : List (Except Fault Value)) (s₀ sEnd : σ) (front : List RemoteCall) (done : List (Except Fault Value))
    (rest : List RemoteCall) (s : σ) : Prop where
  calls : front ++ rest = calls
  executed : Executed findMethod front s₀ done s
  rest : ∃ todo, done ++ todo = outcomes ∧ Executed findMethod rest s todo sEnd ∧
    List.Forall₂ (RemoteCall.Carried c₀) rest todo

inductive Serving (findMethod : Bytes → Option (Method σ)) (c₀ : Client) (calls : List RemoteCall)
    (outcomes : List (Except Fault Value)) (s₀ sEnd : σ) (p : Peers σ) : Prop
  | quiet {front : List RemoteCall} {done : List (Except Fault Value)} (hQuiet : Quiet c₀ p)
      (hAccount : Account findMethod c₀ calls outcomes s₀ sEnd front done p.calls p.methods)
      (hReturned : p.returned = done.map returnedOf)
  | calling {front : List RemoteCall} {done : List (Except Fault Value)} {call : RemoteCall} {outcome : Except Fault Value}
      {s s' : σ} {fuel : Nat} {due : Bytes} (hCalling : Calling c₀ call outcome s s' p due)
      (hCarried : call.Carried c₀ outcome)
      (hCall : executeCall findMethod fuel call.methodName (paramsValue call.params) s = some (outcome, s'))
      (hBefore : Executed findMethod front s₀ done s)
      (hAccount : Account findMethod c₀ calls outcomes s₀ sEnd (front ++ [call]) (done ++ [outcome]) p.calls s')
      (hReturned : p.returned = done.map returnedOf)

variable {calls : List RemoteCall} {outcomes : List (Except Fault Value)} {s₀ sEnd : σ}

theorem Serving.execute {front rest : List RemoteCall} {done : List (Except Fault Value)} (hQuiet : Quiet c₀ p)
    (hAccount : Account findMethod c₀ calls outcomes s₀ sEnd front done (call :: rest) p.methods)
    (hReturned : p.returned = done.map returnedOf) :
    Serving findMethod c₀ calls outcomes s₀ sEnd (p.execute call rest) ∧ (p.execute call rest).calls = rest := by
  obtain ⟨hCalls, hFront, todo, hOutcomes, hRest, hCarried⟩ := hAccount
  have hKeeps : (p.execute call rest).calls = rest ∧ (p.execute call rest).returned = p.returned := by
    rw [Peers.execute]
    split <;> exact ⟨rfl, rfl⟩
  cases hRest with
  | cons hCall hAfter =>
    rw [List.forall₂_cons] at hCarried
    refine ⟨.calling (hQuiet.execute hCarried.1 rfl rest) hCarried.1 hCall hFront ?_ (hKeeps.2.trans hReturned), hKeeps.1⟩
    rw [hKeeps.1]
    exact ⟨by rw [List.append_assoc]; exact hCalls, hFront.snoc hCall, _, by rw [List.append_assoc]; exact hOutcomes, hAfter,
      hCarried.2⟩

theorem Serving.step (hTarget : PlainTarget c₀) (h : Serving findMethod c₀ calls outcomes s₀ sEnd p) {a : PeerStep}
    {p' : Peers σ} (hStep : p.step findMethod a = some p') : Serving findMethod c₀ calls outcomes s₀ sEnd p' := by
  cases h with
  | quiet hQuiet hAccount hReturned =>
    have hIdle : ¬ p.client.executing = true := by simp [hQuiet.executing]
    cases a with
    | execute =>
      simp only [Peers.step, hQuiet.executing] at hStep
      cases hCalls : p.calls with
      | nil => simp [hCalls] at hStep
      | cons call rest =>
        simp only [hCalls, Option.some.injEq] at hStep
        exact hStep ▸ (Serving.execute hQuiet (hCalls ▸ hAccount) hReturned).1
    | client writes reads => exact absurd (of_guard hStep).1.1 hIdle
    | finish => exact absurd (of_guard hStep).1.1 hIdle
    | server fuel reads writes =>
      obtain ⟨⟨-, -, hReads⟩, hNext⟩ := Option.ite_none_right_eq_some.mp hStep
      obtain ⟨hStill, hMethods, hCalls, hSame⟩ := hQuiet.serverEvent hReads hNext
      exact .quiet hStill (by rw [hMethods, hCalls]; exact hAccount) (hSame.trans hReturned)
  | @calling front done call outcome s s' fuel due hCalling hCarried hCall hBefore hAccount hReturned =>
    cases a with
    | execute => simp [Peers.step, hCalling.steady.executing] at hStep
    | client writes reads =>
      obtain ⟨⟨-, hMask, hWrites, hReads⟩, rfl⟩ := of_guard hStep
      exact .calling (hCalling.clientEvent hCarried hMask hWrites hReads).1 hCarried hCall hBefore hAccount hReturned
    | server more reads writes =>
      obtain ⟨⟨-, hWrites, hReads⟩, hNext⟩ := Option.ite_none_right_eq_some.mp hStep
      obtain ⟨⟨-, hCalls, hSame⟩, due', hStill, -⟩ :=
        (hCalling.serverEvent hTarget hCarried hCall hWrites hReads).2 more p' hNext
      exact .calling hStill hCarried hCall hBefore (hCalls ▸ hAccount) (hSame.trans hReturned)
    | finish =>
      obtain ⟨⟨-, hMask⟩, rfl⟩ := of_guard hStep
      obtain ⟨hQuiet, hMethods, hSame⟩ := hCalling.finish hCarried hMask
      refine .quiet hQuiet (hMethods ▸ hAccount) ?_
      rw [hSame, hReturned, List.map_append]
      rfl

omit [DoubleText] in
theorem delivers_singles (flight : Bytes) : Peers.Delivers flight (singles flight) :=
  ⟨singles_answers flight, by rw [singles_text]⟩

theorem Calling.client_all (findMethod : Bytes → Option (Method σ)) (calls : List RemoteCall) (s₀ : σ)
    (hCarried : call.Carried c₀ outcome) (h : Calling c₀ call outcome s s' p due) :
    ∃ steps p', (peers findMethod c₀ calls s₀).run p steps = some p' ∧ Calling c₀ call outcome s s' p' due ∧
      p'.client.unsent = [] ∧ (due = [] → p'.client.mask = none) ∧ p'.calls = p.calls ∧ p'.returned = p.returned := by
  cases hMask : p.client.mask with
  | none =>
    refine ⟨[], p, rfl, h, ?_, fun _ => hMask, rfl, rfl⟩
    obtain ⟨hWatched, -⟩ | ⟨-, hComplete⟩ := h.client
    · exact absurd hMask hWatched
    · exact if_neg (by simp [hComplete.state])
  | some mask =>
    have hSome : p.client.mask ≠ none := by simp [hMask]
    have hWrites : WriteResult.fatalError ∉ [WriteResult.wrote p.client.request.length] := by simp
    obtain ⟨hNext, hAll⟩ := h.clientEvent hCarried hSome hWrites (delivers_singles p.toClient)
    obtain ⟨hUnsent, hOver⟩ := hAll rfl rfl
    refine ⟨[.client [.wrote p.client.request.length] (singles p.toClient)], _, ?_, hNext, hUnsent, hOver, rfl, rfl⟩
    exact Machine.run_cons (if_pos ⟨h.steady.executing, hSome, hWrites, delivers_singles p.toClient⟩)

theorem Calling.ends (hTarget : PlainTarget c₀) (hCarried : call.Carried c₀ outcome) {fuel : Nat}
    (hCall : executeCall findMethod fuel call.methodName (paramsValue call.params) s = some (outcome, s'))
    (h : Calling c₀ call outcome s s' p due) :
    ∃ steps p', (peers findMethod c₀ calls s₀).run p steps = some p' ∧ Quiet c₀ p' ∧ p'.calls = p.calls := by
  obtain ⟨first, p₁, hRun₁, hCalling₁, hSent, -, hCalls₁, -⟩ := h.client_all findMethod calls s₀ hCarried
  have hReads := delivers_singles p₁.toServer
  have hWrites : WriteResult.fatalError ∉ [WriteResult.wrote (answerText outcome).length] := by simp
  obtain ⟨⟨p₂, hNext⟩, hAll⟩ := hCalling₁.serverEvent hTarget hCarried hCall hWrites hReads
  obtain ⟨⟨-, hCalls₂, -⟩, due₂, hCalling₂, hWritten⟩ := hAll fuel p₂ hNext
  obtain rfl := hWritten hSent rfl rfl
  have hRun₂ : (peers findMethod c₀ calls s₀).run p₁
      [.server fuel (singles p₁.toServer) [.wrote (answerText outcome).length]] = some p₂ :=
    Machine.run_cons ((if_pos ⟨hCalling₁.mask, hWrites, hReads⟩).trans hNext)
  obtain ⟨third, p₃, hRun₃, hCalling₃, -, hOver, hCalls₃, -⟩ := hCalling₂.client_all findMethod calls s₀ hCarried
  have hRun₄ : (peers findMethod c₀ calls s₀).run p₃ [.finish] = some p₃.finish :=
    Machine.run_cons (if_pos ⟨hCalling₃.steady.executing, hOver rfl⟩)
  refine ⟨first ++ ([.server fuel (singles p₁.toServer) [.wrote (answerText outcome).length]] ++ (third ++ [.finish])),
    p₃.finish, ?_, (hCalling₃.finish hCarried (hOver rfl)).1, ?_⟩
  · rw [Machine.run_append hRun₁, Machine.run_append hRun₂, Machine.run_append hRun₃, hRun₄]
  · exact hCalls₃.trans (hCalls₂.trans hCalls₁)

theorem Serving.account (h : Serving findMethod c₀ calls outcomes s₀ sEnd p) (hQuiet : Quiet c₀ p) :
    ∃ front done, Account findMethod c₀ calls outcomes s₀ sEnd front done p.calls p.methods ∧
      p.returned = done.map returnedOf := by
  cases h with
  | quiet _ hAccount hReturned => exact ⟨_, _, hAccount, hReturned⟩
  | calling hCalling _ _ _ _ _ => exact absurd (hQuiet.executing.symm.trans hCalling.steady.executing) Bool.false_ne_true

section

variable (hTarget : PlainTarget c₀) (hStart : ∃ host port uri, c₀ = .new host port uri)
  (hCalls : Executed findMethod calls s₀ outcomes sEnd) (hCarried : List.Forall₂ (RemoteCall.Carried c₀) calls outcomes)
  (hReach : (peers findMethod c₀ calls s₀).Reachable p)

include hTarget hStart hCalls hCarried hReach

theorem serving : Serving findMethod c₀ calls outcomes s₀ sEnd p := by
  refine hReach.invariant _ ?_ fun p a p' h _ hStep => h.step hTarget hStep
  rintro p rfl
  obtain ⟨host, port, uri, rfl⟩ := hStart
  exact .quiet ⟨⟨rfl, rfl, rfl⟩, rfl, rfl, rfl, .inl rfl, ⟨rfl, rfl, rfl, Option.some_ne_none _⟩, rfl, rfl⟩
    ⟨List.nil_append _, .nil s₀, outcomes, List.nil_append _, hCalls, hCarried⟩ rfl

theorem exists_quiet : ∃ steps p', (peers findMethod c₀ calls s₀).run p steps = some p' ∧ Quiet c₀ p' ∧ p'.calls = p.calls := by
  cases serving hTarget hStart hCalls hCarried hReach with
  | quiet hQuiet _ _ => exact ⟨[], p, rfl, hQuiet, rfl⟩
  | calling hCalling hCarried hCall _ _ _ => exact hCalling.ends hTarget hCarried hCall

theorem all_returned {left : List RemoteCall} (hLeft : p.calls = left) :
    ∃ steps p', (peers findMethod c₀ calls s₀).run p steps = some p' ∧ p'.returned = outcomes.map returnedOf ∧
      p'.methods = sEnd := by
  induction left generalizing p with
  | nil =>
    obtain ⟨steps, q, hRun, hQuiet, hSame⟩ := exists_quiet hTarget hStart hCalls hCarried hReach
    obtain ⟨front, done, hAccount, hReturned⟩ := (serving hTarget hStart hCalls hCarried (hReach.run hRun)).account hQuiet
    obtain ⟨-, -, todo, rfl, hRest, -⟩ := hAccount
    rw [hSame, hLeft] at hRest
    cases hRest
    exact ⟨steps, q, hRun, by rw [List.append_nil]; exact hReturned, rfl⟩
  | cons call rest ih =>
    obtain ⟨steps, q, hRun, hQuiet, hSame⟩ := exists_quiet hTarget hStart hCalls hCarried hReach
    have hNext : (peers findMethod c₀ calls s₀).step q .execute = some (q.execute call rest) := by
      show Peers.step findMethod q .execute = _
      simp only [Peers.step, hQuiet.executing, hSame, hLeft]
    have hRest : (q.execute call rest).calls = rest := by
      rw [Peers.execute]
      split <;> rfl
    obtain ⟨more, last, hMore, hEnd⟩ := ih (((hReach.run hRun).step trivial hNext)) hRest
    exact ⟨steps ++ .execute :: more, last, by rw [Machine.run_append hRun, Machine.run_cons hNext, hMore], hEnd⟩

end

end

end XcRos.Rpc
