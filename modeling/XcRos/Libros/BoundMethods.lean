import XcRos.CppCommon.Header
import XcRos.Libros.Param
import XcRos.Libros.PublisherSet
import XcRos.Libros.TransportUdp
import XcRos.Rpc.Multicall
import XcRos.Rpc.ValueArray

/-! # The methods that a node binds

`publisherUpdate`, `requestTopic` and `paramUpdate`, from the parameters of a call to its result. The server catches
`RobotRpcException` alone; all else that leaves a method, or goes wrong in it, is an `Escape`. Memory runs out only where
a peer chooses the size of a buffer, and what a subscription offers to its publishers is not modelled.
-/

namespace XcRos.Libros.BoundMethods

open XcRos.Foundation XcRos.Rpc
open XcRos.CppCommon (MString)

universe u

inductive Escape where
  | invalidNameException (error : Bytes)
  -- `new uint8_t[size]` without the memory for it
  | badAlloc (size : UInt32)
  -- a vector from a range of negative length
  | lengthError
  | outOfBounds
  -- a `ROS_ASSERT` that fails
  | assertion
deriving DecidableEq

abbrev Handler (σ : Type u) := Value → σ → Except Escape (Except Fault Value × Value × σ)

/-! ## The node -/

structure Publication where
  name : Bytes
  dataType : Bytes
  md5sum : Bytes
  messageDefinition : Bytes
  dropped : Bool

structure SubscriberLink where
  topic : Bytes
  destinationCallerId : Bytes
  connectionId : UInt32

structure Subscription where
  name : Bytes
  shuttingDown : Bool
  dropped : Bool
  publishers : PublisherSet.Subscription

structure Node where
  shuttingDown : Bool
  advertisedTopics : List Publication
  subscriberLinks : List SubscriberLink
  subscriptions : List Subscription
  cache : Param.Cache
  connectionIdCounter : UInt32
  lastErrorMessage : Bytes

/-- What `TransportUDP::connect` makes of a host and a port. Where the host has addresses, but none of `AF_INET`, it
returns false and the socket stays open. -/
inductive Connect where
  | connected
  | refused
  | leftOpen
deriving DecidableEq

/-- What the node is called, where it listens, and what its network does. -/
structure Surroundings where
  name : Bytes
  host : Bytes
  tcpPort : Int32
  udpPort : Int32
  serverURI : Bytes
  connect : Bytes → Int32 → Connect
  /-- Whether there is memory for two buffers of a size. -/
  allocates : UInt32 → Bool
  /-- Whether the publishers in an update for a topic can be contacted. -/
  contacted : Bytes → List Bytes → Nat → Bool

/-- `ROS_ERROR("%s", msg.c_str())` -/
def Node.reportError (node : Node) (msg : Bytes) : Node := { node with lastErrorMessage := cStr msg }

/-- `robotrpc::responseInt` -/
def responseInt (code : Int32) (msg : Bytes) (response : Int32) : Value := .array [.int code, .string msg, .int response]

/-- The conversion to `std::string&`. -/
def toText : Value → Except Fault Bytes
  | .string s => .ok s
  | .invalid => .ok []
  | _ => .error typeError

/-- What the conversion leaves: an invalid value is a string from then on. -/
def textLeft : Value → Value
  | .invalid => .string []
  | v => v

/-- The values that a loop `for (i = 0; i < v.size(); i++)` finds at `v[i]`. -/
def elements (v : Value) : Except Fault (List Value) :=
  match v, v.size with
  | .array vs, _ => .ok vs
  | _, some 0 => .ok []
  | _, some _ => .error notAnArray
  | _, none => .error typeError

/-! ## `paramUpdate` -/

/-- The exception in the loop of `invalidateParentParams`, if there is one. -/
def nameError : Nat → Bytes → Option Bytes
  | 0, _ => none
  | fuel + 1, nsKey =>
    if nsKey = [] ∨ nsKey = [47] then none
    else
      match Names.parentNamespace nsKey with
      | .ok parent => nameError fuel parent
      | .error error => some error

/-- `param::update` -/
def update (cache : Param.Cache) (key : Bytes) (v : Value) : Except Escape Param.Cache :=
  match Names.parentNamespace (Names.clean key) with
  | .error error => .error (.invalidNameException error)
  | .ok parent =>
    match nameError (parent.length + 1) parent with
    | some error => .error (.invalidNameException error)
    | none => .ok (cache.update key v)

/-- The arguments of a call are evaluated from the right, so that `params[2]` comes first. -/
def paramUpdateCallback : Handler Node := fun params node =>
  match params.assertArray 3 with
  | none => .ok (.error notAnArray, params, node)
  | some es =>
    match toText (es.getD 1 .invalid) with
    | .error fault => .ok (.error fault, .array es, node)
    | .ok key =>
      (update node.cache key (es.getD 2 .invalid)).map fun cache =>
        (.ok (responseInt 1 [] 0), .array (es.modify 1 textLeft), { node with cache := cache })

/-! ## `publisherUpdate` -/

def toTexts : List Value → Except Fault (List Bytes) × List Value
  | [] => (.ok [], [])
  | v :: vs =>
    match toText v with
    | .error fault => (.error fault, v :: vs)
    | .ok s => ((toTexts vs).1.map (s :: ·), textLeft v :: (toTexts vs).2)

def badURI (uri : Bytes) : Bytes := bytes "Bad xml-rpc URI: [" ++ cStr uri ++ bytes "]"

/-- The publishers that are contacted for an update and have no port in their URI. -/
def Subscription.badAdditions (s : Subscription) (serverURI : Bytes) (newPubs : List Bytes) : List Bytes :=
  newPubs.filter fun uri => !s.publishers.known uri && serverURI != uri && !(PublisherSet.splitURI uri).1

namespace Node

def findSubscription (node : Node) (topic : Bytes) : Option Nat :=
  node.subscriptions.findIdx? fun s => s.name == topic && !s.dropped

def pubUpdate (env : Surroundings) (node : Node) (topic : Bytes) (pubs : List Bytes) : Bool × Node :=
  if node.shuttingDown then (false, node)
  else
    match node.findSubscription topic with
    | none => (false, node)
    | some i =>
      match node.subscriptions[i]? with
      | none => (false, node)
      | some s =>
        if s.shuttingDown || s.dropped then (false, node)
        else
          let (publishers, retval) := s.publishers.pubUpdate env.serverURI pubs (env.contacted topic pubs)
          let node := match (s.badAdditions env.serverURI pubs).getLast? with
            | some uri => node.reportError (badURI uri)
            | none => node
          (retval, { node with subscriptions := node.subscriptions.set i { s with publishers := publishers } })

end Node

def pubUpdateCallback (env : Surroundings) : Handler Node := fun params node =>
  match params.assertArray 3 with
  | none => .ok (.error notAnArray, params, node)
  | some es =>
    match elements (es.getD 2 .invalid) with
    | .error fault => .ok (.error fault, .array es, node)
    | .ok vs =>
      let left := if vs = [] then es else es.set 2 (.array (toTexts vs).2)
      match (toTexts vs).1 with
      | .error fault => .ok (.error fault, .array left, node)
      | .ok pubs =>
        match toText (es.getD 1 .invalid) with
        | .error fault => .ok (.error fault, .array left, node)
        | .ok topic =>
          let (updated, node) := node.pubUpdate env topic pubs
          let result := if updated then responseInt 1 [] 0 else responseInt 0 node.lastErrorMessage 0
          .ok (.ok result, .array (left.modify 1 textLeft), node)

/-! ## `requestTopic` -/

def getValue (header : MString) (key : Bytes) : Option Bytes := header.entries.lookup key

def missingElements : Bytes := bytes "Header from subscriber did not have the required elements: md5sum, topic, callerid"

def nonexistentTopic (topic clientCallerid : Bytes) : Bytes :=
  bytes "received a tcpros connection for a nonexistent topic [" ++ topic ++ bytes "] from [" ++ clientCallerid ++ bytes "]."

/-- `validateHeader`: the error, if there is one. -/
def Publication.validateHeader (p : Publication) (header : MString) : Option Bytes :=
  match getValue header (bytes "md5sum"), getValue header (bytes "topic"), getValue header (bytes "callerid") with
  | some md5sum, some topic, some clientCallerid =>
    if p.dropped then some (nonexistentTopic topic clientCallerid)
    else if p.md5sum ≠ md5sum ∧ md5sum ≠ bytes "*" ∧ p.md5sum ≠ bytes "*" then
      some (bytes "Client [" ++ clientCallerid ++ bytes "] wants topic " ++ topic ++ bytes " to have datatype/md5sum [" ++
        (getValue header (bytes "type")).getD [] ++ bytes "/" ++ md5sum ++ bytes "], but our version has [" ++ p.dataType ++
        bytes "/" ++ p.md5sum ++ bytes "]. Dropping connection.")
    else none
  | _, _, _ => some missingElements

def Publication.answer (p : Publication) (env : Surroundings) (topic : Bytes) : MString :=
  ((((MString.empty.assign (bytes "topic") topic).assign (bytes "md5sum") p.md5sum).assign (bytes "type") p.dataType).assign
    (bytes "callerid") env.name).assign (bytes "message_definition") p.messageDefinition

/-- `Header::write` and the value of the buffer, whose length is an `int` there. -/
def headerValue (keyVals : MString) : Except Escape Value :=
  match CppCommon.Header.write keyVals with
  | none => .error .outOfBounds
  | some (buffer, len) => if intMax < len.toNat then .error .lengthError else .ok (.base64 buffer)

/-- The buffers of `TransportUDP` and then `connect`. A transport that did not connect is destroyed at once, and its
destructor asserts that the socket was closed. -/
def createOutgoing (env : Surroundings) (host : Bytes) (port maxDatagramSize : Int32) : Except Escape Bool :=
  if !env.allocates (keptDatagramSize maxDatagramSize) then .error (.badAlloc (keptDatagramSize maxDatagramSize))
  else
    match env.connect host port with
    | .connected => .ok true
    | .refused => .ok false
    | .leftOpen => .error .assertion

namespace Node

def lookupPublication (node : Node) (topic : Bytes) : Option Publication :=
  node.advertisedTopics.find? fun p => p.name == topic && !p.dropped

/-- `udprosIncomingConnection`, down to `addSubscriberLink`. The header may name another topic than the call. -/
def udprosIncomingConnection (node : Node) (header : MString) : Node :=
  match getValue header (bytes "topic") with
  | none => node
  | some topic =>
    match node.lookupPublication topic with
    | none => node
    | some p =>
      match p.validateHeader header with
      | some errorMsg => node.reportError errorMsg
      | none =>
        { node with
          subscriberLinks := node.subscriberLinks ++
            [⟨p.name, (getValue header (bytes "callerid")).getD [], node.connectionIdCounter⟩]
          connectionIdCounter := node.connectionIdCounter + 1 }

end Node

/-- A protocol list that starts with `UDPROS`: the result, if the protocol is accepted. -/
def requestUdpros (env : Surroundings) (node : Node) (topic : Bytes) : List Value → Except Escape (Option Value × Node)
  | [.base64 headerBytes, .string host, .int port, .int maxDatagramSize] =>
    match CppCommon.Header.parse headerBytes (.ofNat headerBytes.length) with
    | .outOfBounds => .error .outOfBounds
    | .failure _ _ => .ok (none, node)
    | .success h _ =>
      match node.lookupPublication topic with
      | none => .ok (none, node)
      | some p =>
        match p.validateHeader h with
        | some errorMsg => .ok (none, node.reportError errorMsg)
        | none =>
          let connId := node.connectionIdCounter
          let node := { node with connectionIdCounter := node.connectionIdCounter + 1 }
          (createOutgoing env host port maxDatagramSize).bind fun transport =>
            if transport then
              (headerValue (p.answer env topic)).map fun header =>
                (some (.array [.string (bytes "UDPROS"), .string env.host, .int env.udpPort, .int connId.toInt32,
                  .int maxDatagramSize, header]), node.udprosIncomingConnection h)
            else .ok (none, node.reportError (bytes "Failed to create outgoing connection"))
  | _ => .ok (none, node)

/-- The loop of `requestTopic`. -/
def requestProtos (env : Surroundings) (node : Node) (topic : Bytes) : List Value → Except Escape (Option Value × Node)
  | [] => .ok (none, node)
  | .array (.string protoName :: params) :: protos =>
    if protoName = bytes "TCPROS" then
      .ok (some (.array [.string (bytes "TCPROS"), .string env.host, .int env.tcpPort]), node)
    else if protoName = bytes "UDPROS" then requestUdpros env node topic params
    else requestProtos env node topic protos
  | _ :: _ => .ok (none, node)

def requestTopicCallback (env : Surroundings) : Handler Node := fun params node =>
  match params.assertArray 3 with
  | none => .ok (.error notAnArray, params, node)
  | some es =>
    match toText (es.getD 1 .invalid) with
    | .error fault => .ok (.error fault, .array es, node)
    | .ok topic =>
      let left := Value.array (es.modify 1 textLeft)
      match elements (es.getD 2 .invalid) with
      | .error fault => .ok (.error fault, left, node)
      | .ok protos =>
        (requestProtos env node topic protos).map fun (params, node) =>
          match params with
          | some params => (.ok (.array [.int 1, .string [], params]), left, node)
          | none => (.ok (responseInt 0 node.lastErrorMessage 0), left, node)

end XcRos.Libros.BoundMethods
