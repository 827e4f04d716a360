import HVBench.Globals
import HVBench.Library.Transition
import Mathlib.Algebra.Order.Group.Multiset
import Mathlib.Data.Multiset.AddSub
import Mathlib.Tactic.Abel

/-! The connection service of `libkafka_asio`, by which `KafkaOutput` sends its records: the
queues of one connection, and the handlers that one thread runs for the operations of
`boost::asio` as they end. Of `boost::asio` it is assumed that handlers run one at a time in the
order in which they became ready, that `close` cancels what is pending, that `async_connect`
first closes the socket, and that a write or a read started on a socket that is not connected
fails. -/
namespace HVBench
namespace Kafka

structure BrokerAddress where
  hostname : StdString
  service : StdString
  deriving DecidableEq, Repr

/-- `ConnectionConfiguration`, what the service reads of it. -/
structure ConnectionConfiguration where
  messageMaxBytes : ℤ
  autoConnect : Bool
  brokerAddress : Option BrokerAddress
  deriving DecidableEq, Repr

/-- The errors of the client, of the socket and of the broker. -/
inductive ErrorCode
  | alreadyConnected
  | notConnected
  | noBroker
  | compressionNotAvailable
  | system (value : ℕ)
  | kafka (value : ℤ)
  deriving DecidableEq, Repr

/-- `kErrorMessageSizeTooLarge`. -/
def messageSizeTooLarge : ErrorCode := .kafka 10

inductive ConnectionState
  | closed
  | connecting
  | connected
  deriving DecidableEq, Repr

inductive TxState
  | idle
  | busy
  deriving DecidableEq, Repr

/-- A serialized request with its handler, both named by a number. -/
structure Request where
  id : ℕ
  responseExpected : Bool
  deriving DecidableEq, Repr

/-- A response, named by its place among those that were read, and the error it holds. -/
structure Response where
  place : ℕ
  error : Option ErrorCode
  deriving DecidableEq, Repr

/-- What has been started. -/
inductive Operation
  | resolve
  | connect
  | write (r : Request)
  | readSize (r : Request)
  | read (r : Request)
  deriving DecidableEq, Repr

/-- How an operation ends. -/
inductive Outcome
  | error (e : ErrorCode)
  | success
  | size (n : ℤ)
  | response (error : Option ErrorCode)
  deriving DecidableEq, Repr

/-- A handler with its arguments. The last one is that of the user. -/
inductive Handler
  | enqueueRequest (r : Request)
  | asyncResolve (error : Option ErrorCode)
  | asyncConnect (error : Option ErrorCode)
  | asyncAutoConnect (error : Option ErrorCode)
  | asyncRequestWrite (r : Request) (error : Option ErrorCode)
  | asyncResponseSizeRead (r : Request) (size : Except ErrorCode ℤ)
  | asyncResponseRead (r : Request) (response : Except ErrorCode Response)
  | request (r : Request) (error : Option ErrorCode) (response : Option Response)

structure Call where
  request : Request
  error : Option ErrorCode
  response : Option Response
  deriving DecidableEq, Repr

structure State where
  connectionState : ConnectionState
  writeState : TxState
  readState : TxState
  writeQueue : List Request
  readQueue : List Request
  /-- The socket is connected. -/
  up : Bool
  /-- The operations that have not ended, and the handlers that are ready to run. -/
  pending : List Operation
  ready : List Handler
  /-- History: the requests of the user, those handed to `async_write`, those whose response
  was read, and the calls of the user's handlers. -/
  requested : List Request
  sent : List Request
  took : List Request
  called : List Call

inductive Label
  | asyncRequest (r : Request)
  | complete (op : Operation) (o : Outcome)
  | deadline
  | run
  deriving DecidableEq, Repr

def init : State where
  connectionState := .closed
  writeState := .idle
  readState := .idle
  writeQueue := []
  readQueue := []
  up := false
  pending := []
  ready := []
  requested := []
  sent := []
  took := []
  called := []

namespace State

def post (s : State) (h : Handler) : State := { s with ready := s.ready ++ [h] }

end State

/-- The handler of an operation that ends in this way. -/
def Operation.handler (place : ℕ) : Operation → Outcome → Option Handler
  | .resolve, .error e => some (.asyncResolve (some e))
  | .resolve, .success => some (.asyncResolve none)
  | .connect, .error e => some (.asyncConnect (some e))
  | .connect, .success => some (.asyncConnect none)
  | .write r, .error e => some (.asyncRequestWrite r (some e))
  | .write r, .success => some (.asyncRequestWrite r none)
  | .readSize r, .error e => some (.asyncResponseSizeRead r (.error e))
  | .readSize r, .size n => some (.asyncResponseSizeRead r (.ok n))
  | .read r, .error e => some (.asyncResponseRead r (.error e))
  | .read r, .response error => some (.asyncResponseRead r (.ok ⟨place, error⟩))
  | _, _ => none

/-- The handler of an operation that fails. -/
def Operation.failed (e : ErrorCode) : Operation → Handler
  | .resolve => .asyncResolve (some e)
  | .connect => .asyncConnect (some e)
  | .write r => .asyncRequestWrite r (some e)
  | .readSize r => .asyncResponseSizeRead r (.error e)
  | .read r => .asyncResponseRead r (.error e)

/-- `boost::asio::error::operation_aborted` and `bad_descriptor`. -/
def operationAborted : ErrorCode := .system 125

def badDescriptor : ErrorCode := .system 9

namespace State

/-- `Close`. What was pending is cancelled. -/
def close (s : State) : State :=
  { s with
    connectionState := .closed
    up := false
    pending := []
    ready := s.ready ++ s.pending.map (Operation.failed operationAborted) }

/-- Start to write or to read, which fails where the socket is not connected. -/
def start (s : State) (op : Operation) : State :=
  if s.up then { s with pending := s.pending ++ [op] } else s.post (op.failed badDescriptor)

/-- `async_connect` on a list of addresses, which first closes the socket. -/
def startConnect (s : State) : State :=
  { s with
    up := false
    pending := s.pending.filter (· = .resolve) ++ [.connect]
    ready := s.ready ++
      (s.pending.filter (· ≠ .resolve)).map (Operation.failed operationAborted) }

def sendRequest (s : State) (r : Request) : State :=
  { s.start (.write r) with writeState := .busy, sent := s.sent ++ [r] }

def receiveResponse (s : State) (r : Request) : State :=
  { s.start (.readSize r) with readState := .busy }

def nextResponse (s : State) : State :=
  match s.readQueue with
  | [] => s
  | r :: rest => if s.readState = .busy then s else { s.receiveResponse r with readQueue := rest }

section
variable (config : ConnectionConfiguration)

/-- `AsyncConnect` to the configured broker, with `HandleAsyncAutoConnect` as its handler. -/
def asyncConnect (s : State) : State :=
  if config.brokerAddress = none then s.post (.asyncAutoConnect (some .noBroker))
  else if s.connectionState ≠ .closed then s.post (.asyncAutoConnect (some .alreadyConnected))
  else { s with pending := s.pending ++ [.resolve], connectionState := .connecting }

def nextRequest (s : State) : State :=
  match s.writeQueue with
  | [] => s
  | r :: rest =>
    if s.writeState = .busy then s
    else if s.connectionState = .closed ∧ config.autoConnect then s.asyncConnect config
    else if s.connectionState = .connected then { s.sendRequest r with writeQueue := rest }
    else s

def enqueueRequest (s : State) (r : Request) : State :=
  if s.connectionState = .closed ∧ ¬ config.autoConnect then
    s.post (.request r (some .notConnected) none)
  else if s.connectionState = .closed ∧ config.brokerAddress = none then
    s.post (.request r (some .noBroker) none)
  else if s.writeState = .idle then
    if s.writeQueue = [] ∧ s.connectionState = .connected then s.sendRequest r
    else nextRequest config { s with writeQueue := s.writeQueue ++ [r] }
  else { s with writeQueue := s.writeQueue ++ [r] }

def enqueueResponse (s : State) (r : Request) : State :=
  if s.connectionState ≠ .connected then
    nextRequest config
      { s with
        readQueue := []
        ready := s.ready ++ .request r (some .notConnected) none ::
          s.readQueue.map fun q => .asyncResponseSizeRead q (.error .notConnected) }
  else if s.readState = .idle then
    if s.readQueue = [] then s.receiveResponse r
    else nextResponse { s with readQueue := s.readQueue ++ [r] }
  else { s with readQueue := s.readQueue ++ [r] }

def handleAsyncResolve (s : State) : Option ErrorCode → State
  | some e => (s.post (.asyncAutoConnect (some e))).close
  | none => s.startConnect

def handleAsyncConnect (s : State) : Option ErrorCode → State
  | some e => s.close.post (.asyncAutoConnect (some e))
  | none => post { s with connectionState := .connected } (.asyncAutoConnect none)

def handleAsyncAutoConnect (s : State) : Option ErrorCode → State
  | some e =>
    { s with
      writeQueue := []
      ready := s.ready ++ s.writeQueue.map fun r => .asyncRequestWrite r (some e) }
  | none =>
    match s.writeQueue with
    | [] => s
    | r :: rest => { s.sendRequest r with writeQueue := rest }

def handleAsyncRequestWrite (s : State) (r : Request) : Option ErrorCode → State
  | some e => (post { s with writeState := .idle } (.request r (some e) none)).close
  | none =>
    if r.responseExpected then enqueueResponse config { s with writeState := .idle } r
    else nextRequest config (post { s with writeState := .idle } (.request r none none))

/-- A negative size throws, which ends the program. -/
def handleAsyncResponseSizeRead (s : State) (r : Request) : Except ErrorCode ℤ → Option State
  | .error e => some (s.post (.request r (some e) none)).close
  | .ok size =>
    if config.messageMaxBytes ≤ size then
      some (s.post (.request r (some messageSizeTooLarge) none)).close
    else if size < 0 then none
    else some (s.start (.read r))

def handleAsyncResponseRead (s : State) (r : Request) : Except ErrorCode Response → State
  | .error e => (s.post (.request r (some e) none)).close
  | .ok response =>
    let response' := if response.error = none then some response else none
    nextRequest config
      (post { s with readState := .idle } (.request r response.error response'))

/-- Run a handler. -/
def handle (s : State) : Handler → Option State
  | .enqueueRequest r => some (s.enqueueRequest config r)
  | .asyncResolve error => some (s.handleAsyncResolve error)
  | .asyncConnect error => some (s.handleAsyncConnect error)
  | .asyncAutoConnect error => some (s.handleAsyncAutoConnect error)
  | .asyncRequestWrite r error => some (s.handleAsyncRequestWrite config r error)
  | .asyncResponseSizeRead r size => s.handleAsyncResponseSizeRead config r size
  | .asyncResponseRead r response => some (s.handleAsyncResponseRead config r response)
  | .request r error response => some { s with called := s.called ++ [⟨r, error, response⟩] }

end
end State

namespace State

/-- Neither to start an operation nor to write or to read changes a queue. -/
@[simp] theorem start_writeQueue (s : State) (op : Operation) :
    (s.start op).writeQueue = s.writeQueue := by
  unfold start
  split_ifs <;> rfl

@[simp] theorem start_readQueue (s : State) (op : Operation) :
    (s.start op).readQueue = s.readQueue := by
  unfold start
  split_ifs <;> rfl

@[simp] theorem sendRequest_writeQueue (s : State) (r : Request) :
    (s.sendRequest r).writeQueue = s.writeQueue := start_writeQueue s _

@[simp] theorem receiveResponse_readQueue (s : State) (r : Request) :
    (s.receiveResponse r).readQueue = s.readQueue := start_readQueue s _

end State

/-- The request whose response an operation took from the socket. -/
def Operation.taken : Operation → Outcome → List Request
  | .read r, .response _ => [r]
  | _, _ => []

def step (config : ConnectionConfiguration) (s : State) : Label → Option State
  | .asyncRequest r =>
    some { s with requested := s.requested ++ [r], ready := s.ready ++ [.enqueueRequest r] }
  | .complete op o =>
    if op ∈ s.pending then
      (op.handler s.took.length o).map fun h =>
        { s with
          up := s.up || (op = .connect && o = .success)
          pending := s.pending.erase op
          ready := s.ready ++ [h]
          took := s.took ++ op.taken o }
    else none
  -- `HandleDeadline` of a timer that has expired
  | .deadline => some s.close
  | .run =>
    match s.ready with
    | [] => none
    | h :: rest => State.handle config { s with ready := rest } h

variable {config : ConnectionConfiguration}

/-- What a step does. -/
theorem step_cases {s t : State} {l : Label} (h : step config s l = some t) :
    (∃ r, l = .asyncRequest r ∧
      t = { s with requested := s.requested ++ [r], ready := s.ready ++ [.enqueueRequest r] }) ∨
    (∃ op o hd before after, l = .complete op o ∧ op.handler s.took.length o = some hd ∧
      s.pending = before ++ op :: after ∧
      t = { s with
            up := s.up || (op = .connect && o = .success)
            pending := before ++ after
            ready := s.ready ++ [hd]
            took := s.took ++ op.taken o }) ∨
    (l = .deadline ∧ t = s.close) ∨
    ∃ hd rest, l = .run ∧ s.ready = hd :: rest ∧
      State.handle config { s with ready := rest } hd = some t := by
  cases l with
  | asyncRequest r => exact .inl ⟨r, rfl, (Option.some.inj h).symm⟩
  | complete op o =>
    simp only [step] at h
    split_ifs at h with hmem
    obtain ⟨hd, hhd, rfl⟩ := Option.map_eq_some_iff.mp h
    obtain ⟨before, after, -, hpending, herase⟩ := List.exists_erase_eq hmem
    exact .inr (.inl ⟨op, o, hd, before, after, rfl, hhd, hpending, by rw [herase]⟩)
  | deadline => exact .inr (.inr (.inl ⟨rfl, (Option.some.inj h).symm⟩))
  | run =>
    simp only [step] at h
    split at h
    · cases h
    next hd rest hready => exact .inr (.inr (.inr ⟨hd, rest, rfl, hready, h⟩))

end Kafka
end HVBench
