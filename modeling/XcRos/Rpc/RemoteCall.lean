import XcRos.Rpc.CallFraming

/-! # Remote calls

A client and the server that it calls, each with its own dispatcher, and the bytes that are under way between them.
The two take their events in any order, and each event reads and writes as much as the kernel lets it.
-/

namespace XcRos.Rpc

open XcRos.Foundation

universe u

/-- The arguments of `execute`. -/
structure RemoteCall where
  methodName : Bytes
  params : List Value

/-- What `execute` leaves: the result, if it returns true, and `isFault`. -/
structure Returned where
  value : Option Value
  isFault : Bool

structure Peers (σ : Type u) where
  client : Client
  server : ServerConnection
  /-- what the methods of the server work on -/
  methods : σ
  /-- what the client has written and the server has not read -/
  toServer : Bytes
  /-- what the server has written and the client has not read -/
  toClient : Bytes
  /-- the calls that are still to be made -/
  calls : List RemoteCall
  returned : List Returned

/-- The steps of the two sides, with what the kernel takes and hands over. -/
inductive PeerStep where
  | execute
  | client (writes : List WriteResult) (reads : List ReadResult)
  | server (fuel : Nat) (reads : List ReadResult) (writes : List WriteResult)
  | finish

/-- The connection stays up, and hands over a part of what is under way. -/
def Peers.Delivers (flight : Bytes) (reads : List ReadResult) : Prop :=
  (∀ r ∈ reads, r ≠ .eof ∧ r ≠ .fatalError) ∧ reads.flatMap ReadResult.text <+: flight

instance (flight : Bytes) (reads : List ReadResult) : Decidable (Peers.Delivers flight reads) :=
  inferInstanceAs (Decidable (_ ∧ _))

/-- What is under way after an event that was offered `reads` and has left some of them. -/
def Peers.undelivered (flight : Bytes) (reads left : List ReadResult) : Bytes :=
  left.flatMap ReadResult.text ++ flight.drop (reads.flatMap ReadResult.text).length

/-- The bytes that `writeRequest` puts on the wire in an event. -/
def Client.put (c : Client) (writes : List WriteResult) : Bytes :=
  if c.connectionState = .writeRequest then written c.request c.bytesWritten (nbWrite c.request c.bytesWritten writes).2
  else []

namespace Peers

variable {σ : Type u} [DoubleText]

/-- The start of a call, which connects unless the connection is there from the call before. -/
def execute (p : Peers σ) (call : RemoteCall) (rest : List RemoteCall) : Peers σ :=
  let client := (ClientSession.execute ⟨p.client, none, []⟩ call.methodName (.array call.params) .connected).client
  if p.client.connectionState ≠ .idle ∨ p.client.eof then
    { p with client, server := .new, toServer := [], toClient := [], calls := rest }
  else { p with client, calls := rest }

def clientEvent (p : Peers σ) (writes : List WriteResult) (reads : List ReadResult) : Peers σ :=
  let r := Exchange.event ⟨p.client, [writes], reads, []⟩
  { p with
    client := ClientSession.updateMask r.2.client r.1
    toServer := p.toServer ++ p.client.put writes
    toClient := undelivered p.toClient reads r.2.reads }

/-- What `executeRequest` leaves in `_response` during an event, if it is called. -/
def executed (findMethod : Bytes → Option (Method σ)) (fuel : Nat) (r : Mask × Feed) (methods : σ) : Option (Bytes × σ) :=
  if r.1 ≠ .none ∧ r.2.conn.connectionState = .writeResponse ∧ r.2.conn.response.length = 0 then
    executeRequest findMethod fuel r.2.conn.request methods
  else some ([], methods)

def serverEvent (findMethod : Bytes → Option (Method σ)) (p : Peers σ) (fuel : Nat) (reads : List ReadResult)
    (writes : List WriteResult) : Option (Peers σ) :=
  let r := Feed.readEvent ⟨p.server, reads⟩
  let requestReads := if p.server.connectionState = .readHeader then afterRead reads else reads
  (executed findMethod fuel r p.methods).map fun e =>
    let server := p.server.dispatch ⟨reads, requestReads, e.1, writes⟩
    { p with
      server, methods := e.2
      toServer := undelivered p.toServer reads r.2.reads
      toClient := p.toClient ++ server.carried.drop p.server.carried.length }

/-- `execute` behind the dispatcher's loop. -/
def finish (p : Peers σ) : Peers σ :=
  let e := Exchange.finish p.client
  { p with
    client := (ClientSession.finish ⟨p.client, none, []⟩).client
    returned := p.returned ++ [⟨e.value, e.isFault⟩] }

def step (findMethod : Bytes → Option (Method σ)) (p : Peers σ) : PeerStep → Option (Peers σ)
  | .execute =>
    match p.client.executing, p.calls with
    | false, call :: rest => some (p.execute call rest)
    | _, _ => none
  | .client writes reads =>
    if p.client.executing = true ∧ p.client.mask ≠ none ∧ .fatalError ∉ writes ∧ Delivers p.toClient reads then
      some (p.clientEvent writes reads)
    else none
  | .server fuel reads writes =>
    if p.server.mask ≠ none ∧ .fatalError ∉ writes ∧ Delivers p.toServer reads then
      p.serverEvent findMethod fuel reads writes
    else none
  | .finish => if p.client.executing = true ∧ p.client.mask = none then some p.finish else none

end Peers

def peers {σ : Type u} [DoubleText] (findMethod : Bytes → Option (Method σ)) (c : Client) (calls : List RemoteCall) (s : σ) :
    Machine (Peers σ) PeerStep where
  Init p := p = ⟨c, .new, s, [], [], calls, []⟩
  step := Peers.step findMethod

/-! ## What the calls mean -/

section

variable {σ : Type u}

/-- The calls executed one after the other, each once. -/
inductive Executed (findMethod : Bytes → Option (Method σ)) : List RemoteCall → σ → List (Except Fault Value) → σ → Prop
  | nil (s : σ) : Executed findMethod [] s [] s
  | cons {calls : List RemoteCall} {outcomes : List (Except Fault Value)} {s s' s'' : σ} {call : RemoteCall}
      {outcome : Except Fault Value} {fuel : Nat}
      (hCall : executeCall findMethod fuel call.methodName (paramsValue call.params) s = some (outcome, s'))
      (h : Executed findMethod calls s' outcomes s'') :
      Executed findMethod (call :: calls) s (outcome :: outcomes) s''

def returnedOf : Except Fault Value → Returned
  | .ok v => ⟨some v, false⟩
  | .error fault => ⟨some fault.toStruct, true⟩

variable [DoubleText]

def answerBody : Except Fault Value → Bytes
  | .ok v => responseBody v.toXml
  | .error fault => faultBody fault.message fault.code

def RemoteCall.body (call : RemoteCall) : Bytes := Client.requestBody call.methodName (.array call.params)

/-- A call that the two sides can carry: tags and lengths as the readers take them, no zero byte, and nothing that
looks like the older version of the protocol. -/
structure RemoteCall.Carried (c : Client) (call : RemoteCall) (outcome : Except Fault Value) : Prop where
  methodName : 60 ∉ call.methodName ∧ call.methodName ≠ []
  params : ∀ v ∈ call.params, v.Codable
  request : (c.generateHeader call.body.length ++ call.body).length ≤ intMax
  requestZero : 0 ∉ call.body
  version : ¬ bytes "HTTP/1.0" <:+: c.generateHeader call.body.length ++ call.body
  result : ∀ v, outcome = .ok v → v.Codable
  response : (responseHeader (answerBody outcome) ++ answerBody outcome).length ≤ intMax
  responseZero : 0 ∉ answerBody outcome

end

end XcRos.Rpc
