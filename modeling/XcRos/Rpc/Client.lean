import XcRos.Rpc.Dispatch
import XcRos.Rpc.Header
import XcRos.Rpc.Value

/-! # The RPC client

`RobotRpcClient` with its request, its response and its event handler. What the kernel answers is
an argument. A `Wire` records what one TCP connection has carried; the source keeps no such record.
-/

namespace XcRos.Rpc

open XcRos.Foundation

inductive ClientConnectionState where
  | noConnection
  | connecting
  | writeRequest
  | readHeader
  | readResponse
  | idle
deriving DecidableEq, Repr

/-- What the current call has written on one TCP connection, and whether the client went on there
to read the header of the response. -/
structure Wire where
  carried : Bytes
  reachedHeader : Bool
deriving DecidableEq, Repr

def Wire.fresh : Wire := ⟨[], false⟩

structure Client where
  connectionState : ClientConnectionState
  host : Bytes
  uri : Bytes
  port : Int32
  keepOpen : Bool
  /-- the open connection; `none` stands for `_fd == -1` -/
  fd : Option Wire
  request : Bytes
  header : Bytes
  response : Bytes
  sendAttempts : Nat
  bytesWritten : Nat
  executing : Bool
  eof : Bool
  isFault : Bool
  contentLength : Int32
  /-- the mask under which the client's own dispatcher watches it, if it does -/
  mask : Option Mask
  /-- the connections that the current call has closed -/
  closed : List Wire
deriving DecidableEq, Repr

/-- How `doConnect` ends: without a socket, without non-blocking mode, refused, or connected. -/
inductive ConnectResult where
  | noSocket
  | blocking
  | refused
  | connected
deriving DecidableEq, Repr

/-- What the system answers during one `handleEvent`. -/
structure ClientIo where
  writes : List WriteResult
  headerReads : List ReadResult
  connect : ConnectResult
  responseReads : List ReadResult
deriving DecidableEq, Repr

def robotRpcVersion : Bytes := bytes "RobotRpc++ 0.7"
def requestBegin : Bytes := bytes "<?xml version=\"1.0\"?>\r\n<methodCall><methodName>"
def requestEndMethodName : Bytes := bytes "</methodName>\r\n"
def paramsTag : Bytes := bytes "<params>"
def paramsEtag : Bytes := bytes "</params>"
def paramTag : Bytes := bytes "<param>"
def paramEtag : Bytes := bytes "</param>"
def requestEnd : Bytes := bytes "</methodCall>\r\n"
def methodResponseTag : Bytes := bytes "<methodResponse>"
def faultTag : Bytes := bytes "<fault>"

namespace Client

def new (host : Bytes) (port : Int32) (uri : Option Bytes) : Client where
  connectionState := .noConnection
  host := host
  uri := uri.getD (bytes "/RPC2")
  port := port
  keepOpen := true
  fd := none
  request := []
  header := []
  response := []
  sendAttempts := 0
  bytesWritten := 0
  executing := false
  eof := false
  isFault := false
  contentLength := 0
  mask := none
  closed := []

/-! ## Connections -/

/-- `RobotRpcSocketSource::close` -/
def superClose (c : Client) : Client :=
  match c.fd with
  | none => c
  | some wire => { c with fd := none, closed := wire :: c.closed }

def close (c : Client) : Client := { c with connectionState := .noConnection, mask := none }.superClose

def doConnect (c : Client) (connect : ConnectResult) : Bool × Client :=
  match connect with
  | .noSocket => (false, c)
  | .blocking => (false, { c with fd := some .fresh }.close)
  | .refused => (false, { c with fd := some .fresh }.close)
  | .connected => (true, { c with fd := some .fresh })

/-- The end of `setupConnection`, with a connection at hand. -/
def prepareToWrite (c : Client) : Client :=
  { c with connectionState := .writeRequest, bytesWritten := 0, mask := some .writableOrException }

/-- `setupConnection` behind the statement that closes what is left over. -/
def openConnection (c : Client) (connect : ConnectResult) : Bool × Client :=
  if c.connectionState = .noConnection then
    let r := c.doConnect connect
    if r.1 then (true, r.2.prepareToWrite) else (false, r.2)
  else (true, c.prepareToWrite)

def setupConnection (c : Client) (connect : ConnectResult) : Bool × Client :=
  let c := if (c.connectionState ≠ .noConnection ∧ c.connectionState ≠ .idle) ∨ c.eof then c.close else c
  { c with eof := false }.openConnection connect

/-! ## Request and response texts -/

def generateHeader (c : Client) (length : Nat) : Bytes :=
  bytes "POST " ++ c.uri ++ bytes " HTTP/1.1\r\nUser-Agent: " ++ robotRpcVersion ++ bytes "\r\nHost: " ++
    c.host ++ (bytes ":" ++ printInt c.port.toInt ++ bytes "\r\n") ++
    bytes "Content-Type: text/xml\r\nContent-length: " ++ (printNat length ++ bytes "\r\n\r\n")

def paramToXml [DoubleText] (v : Value) : Bytes := paramTag ++ v.toXml ++ paramEtag

def requestParams [DoubleText] : Value → Bytes
  | .invalid => []
  | .array elements => paramsTag ++ elements.flatMap paramToXml ++ paramsEtag
  | params => paramsTag ++ paramToXml params ++ paramsEtag

def requestBody [DoubleText] (methodName : Bytes) (params : Value) : Bytes :=
  requestBegin ++ methodName ++ requestEndMethodName ++ requestParams params ++ requestEnd

/-- `generateRequest`, which always returns true. -/
def generateRequest [DoubleText] (c : Client) (methodName : Bytes) (params : Value) : Client :=
  let body := requestBody methodName params
  { c with request := c.generateHeader body.length ++ body }

/-- Where the value starts behind `<params><param>` or `<fault>`, and whether it is a fault. -/
def responseValue (response : Bytes) (offset : Nat) : Option (Nat × Bool) :=
  match nextTagIs paramsTag response offset with
  | some inner =>
    match nextTagIs paramTag response inner with
    | some start => some (start, false)
    -- the offset is already behind `<params>` when `<fault>` is looked for
    | none => (nextTagIs faultTag response inner).map fun start => (start, true)
  | none => (nextTagIs faultTag response offset).map fun start => (start, true)

def parseResponse [DoubleText] (c : Client) : Option Value × Client :=
  match findTag methodResponseTag c.response 0 with
  | none => (none, c)
  | some offset =>
    match responseValue c.response offset with
    | none => (none, { c with response := [] })
    | some (start, fault) =>
      ((fromXml c.response start).map Prod.fst, { c with response := [], isFault := c.isFault || fault })

/-! ## Events -/

def writeRequest (c : Client) (writes : List WriteResult) : Bool × Client :=
  let r := nbWrite c.request c.bytesWritten writes
  let put := written c.request c.bytesWritten r.2
  let fd := c.fd.map fun wire => { wire with carried := wire.carried ++ put }
  let c : Client := { c with fd, bytesWritten := r.2 }
  if r.1 = false then (false, c.close)
  else if c.bytesWritten = c.request.length then
    (true, { c with
      fd := c.fd.map fun wire => { wire with reachedHeader := true }
      header := [], response := [], connectionState := .readHeader })
  else (true, { c with request := c.request.drop c.bytesWritten, bytesWritten := 0 })

/-- The scan of `readHeader` once something has been read. -/
def scanResponseHeader (c : Client) : Bool × Client :=
  let found := scanHeader false ⟨none, none, none⟩ c.header
  match found.bp with
  | none => if c.eof then (false, c.close) else (true, c)
  | some bp =>
    match found.lp with
    | none => (false, c.close)
    | some lp =>
      let c : Client := { c with contentLength := atoi lp }
      if c.contentLength ≤ 0 then (false, c.close)
      else (true, { c with response := cStr bp, header := [], connectionState := .readResponse })

/-- The retry of `readHeader`: the connection is given up and set up once more. -/
def reconnect (c : Client) (connect : ConnectResult) : Bool × Client :=
  { c.superClose with connectionState := .noConnection, eof := false }.setupConnection connect

def readHeader (c : Client) (reads : List ReadResult) (connect : ConnectResult) : Bool × Client :=
  let r := nbRead c.header reads
  let c := { c with header := r.text, eof := r.eof }
  if r.ok = false ∨ (c.eof ∧ c.header.length = 0) then
    if c.keepOpen ∧ c.header.length = 0 then
      -- `_sendAttempts++` is evaluated only here
      let attempts := c.sendAttempts
      let c := { c with sendAttempts := attempts + 1 }
      if attempts = 0 then c.reconnect connect else (false, c.close)
    else (false, c.close)
  else c.scanResponseHeader

def readResponse (c : Client) (reads : List ReadResult) : Bool × Client :=
  if Int32.ofNat c.response.length < c.contentLength then
    let r := nbRead [] reads
    let c := { c with eof := r.eof }
    if r.ok = false then (false, c.close)
    else
      let c := { c with response := c.response ++ r.text }
      if Int32.ofNat c.response.length < c.contentLength then
        if c.eof then (false, c.close) else (true, c)
      else (false, { c with connectionState := .idle })
  else (false, { c with connectionState := .idle })

def wanted (c : Client) : Mask :=
  if c.connectionState = .writeRequest then .writableEvent else .readableEvent

def handleEvent (c : Client) (eventType : EventType) (io : ClientIo) : Mask × Client :=
  if eventType = .exception then (.none, c)
  else
    c |> stage (·.connectionState = .writeRequest) (·.writeRequest io.writes)
      (stage (·.connectionState = .readHeader) (·.readHeader io.headerReads io.connect)
        (stage (·.connectionState = .readResponse) (·.readResponse io.responseReads) fun c => (c.wanted, c)))

end Client

end XcRos.Rpc
