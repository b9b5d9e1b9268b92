import XcRos.Rpc.AsyncCall
import XcRos.Rpc.RequestFraming

/-! # One call over its connections

`execute` against what the sockets answer: how the kernel takes the request, event by event, and what
the connections of the call deliver one after the other. An answer that would block ends an event.
-/

namespace XcRos.Rpc

open XcRos.Foundation

structure Exchange where
  client : Client
  /-- how the kernel takes the request, a list for each event; behind the last it takes all that is left -/
  writes : List (List WriteResult)
  /-- what the open connection delivers -/
  reads : List ReadResult
  /-- what the connections deliver that can be opened after it -/
  later : List (List ReadResult)

namespace Exchange

open Client (close_connectionState)

def nextWrites (x : Exchange) : List WriteResult := x.writes.headD [.wrote x.client.request.length]

def connect (x : Exchange) : ConnectResult := if x.later = [] then .refused else .connected

def writeRequest (x : Exchange) : Bool × Exchange :=
  let r := x.client.writeRequest x.nextWrites
  (r.1, { x with client := r.2, writes := x.writes.tail })

def readHeader (x : Exchange) : Bool × Exchange :=
  let r := x.client.readHeader x.reads x.connect
  if r.2.connectionState = .writeRequest then (r.1, ⟨r.2, x.writes, x.later.headD [], x.later.tail⟩)
  else (r.1, { x with client := r.2, reads := afterRead x.reads })

def readResponse (x : Exchange) : Bool × Exchange :=
  let r := x.client.readResponse x.reads
  (r.1, { x with
    client := r.2
    reads := if Int32.ofNat x.client.response.length < x.client.contentLength then afterRead x.reads else x.reads })

/-- `handleEvent` -/
def event (x : Exchange) : Mask × Exchange :=
  x |> stage (·.client.connectionState = .writeRequest) writeRequest
    (stage (·.client.connectionState = .readHeader) readHeader
      (stage (·.client.connectionState = .readResponse) readResponse fun x => (x.client.wanted, x)))

/-- The loop of the dispatcher: the client when it is watched no longer. -/
def run : Nat → Exchange → Option Client
  | 0, _ => none
  | fuel + 1, x =>
    let r := x.event
    if r.1 = .none then some r.2.client else run fuel r.2

def size (x : Exchange) : Nat := x.writes.length + x.reads.length + x.later.flatten.length

structure CallEnd where
  connectionState : ClientConnectionState
  response : Bytes
  value : Option Value
  isFault : Bool
  sendAttempts : Nat

def finish [DoubleText] (c : Client) : CallEnd :=
  let r := if c.connectionState = .idle then c.parseResponse else (none, c)
  ⟨c.connectionState, c.response, r.1, r.2.isFault, c.sendAttempts⟩

def call [DoubleText] (x : Exchange) : Option CallEnd := (x.run (x.size + 1)).map finish

def io (x : Exchange) : ClientIo where
  writes := x.nextWrites
  headerReads := x.reads
  connect := x.connect
  responseReads := if x.client.connectionState = .readResponse then x.reads else afterRead x.reads

theorem writeRequest_ne_readResponse {x : Exchange} (hState : x.client.connectionState = .writeRequest) :
    x.writeRequest.2.client.connectionState ≠ .readResponse := by
  rw [writeRequest, Client.writeRequest]
  simp only
  split
  · rw [close_connectionState]
    decide
  · split
    · exact fun hEq => by cases hEq
    · rw [hState]
      decide

theorem event_eq (x : Exchange) {eventType : EventType} (hEvent : eventType ≠ .exception) :
    x.client.handleEvent eventType x.io = (x.event.1, x.event.2.client) := by
  rw [Client.handleEvent, if_neg hEvent]
  refine stage_map Exchange.client (fun _ => rfl) (fun y hWritten => ?_)
  have hSame : y.reads = x.reads ∧ y.connect = x.connect ∧
      (y.client.connectionState = .readResponse → x.client.connectionState = .readResponse) ∧
      (y.client.connectionState = .readHeader → x.client.connectionState ≠ .readResponse) := by
    rcases hWritten with ⟨rfl, -⟩ | ⟨hState, rfl⟩
    · exact ⟨rfl, rfl, id, fun hHeader hResponse => by rw [hHeader] at hResponse; cases hResponse⟩
    · refine ⟨rfl, rfl, fun hResponse => ?_, fun _ => by rw [hState]; decide⟩
      exact absurd hResponse (writeRequest_ne_readResponse hState)
  obtain ⟨hReads, hConnect, hStill, hHeader⟩ := hSame
  refine stage_map Exchange.client (fun _ => ?_) (fun z hRead => ?_)
  · rw [readHeader, hReads, hConnect]
    simp only [io]
    split <;> rfl
  · refine stage_map Exchange.client (fun hState => ?_) (fun _ _ => rfl)
    have hAnswers : z.reads = x.io.responseReads := by
      rcases hRead with ⟨rfl, -⟩ | ⟨hBefore, rfl⟩
      · rw [io, if_pos (hStill hState), hReads]
      · rw [io, if_neg (hHeader hBefore)]
        rw [readHeader] at hState ⊢
        simp only at hState ⊢
        split
        · rename_i hAgain
          rw [if_pos hAgain] at hState
          rw [hAgain] at hState
          cases hState
        · rw [hReads]
    rw [readResponse, hAnswers]

end Exchange

end XcRos.Rpc
