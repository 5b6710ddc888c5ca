import GrammarFuzzing.Exchange.Message
import GrammarFuzzing.Number.Sum

/-!
# An endpoint in the same process

A **harness** handles one message at a time and returns the replies. It may fail, and it may never
return. `GrammarFuzzing.EndpointState` puts it behind two queues, so that waiting for a harness that
never returns is waiting for a reply that never comes:

* the client adds requests to one queue and takes replies from the other;
* a worker takes requests from the first queue, has the harness handle messages, and adds what comes
  out of it to the second.

A **reset** is a request with a new number. The worker acknowledges it, and the client drops
whatever is in front of the acknowledgement: answers to requests from before. A client that gives up
waiting leaves the acknowledgement to a later one, which knows by the number that it is not its own.

Client and worker share the queues and the number of requests in flight, and nothing else. Whatever
one of them does to these is one **action** of a `GrammarFuzzing.EndpointSession`, so a list of
actions is an interleaving of both. In it the client may give up at any moment while it waits, and
the harness may take any time and return anything.

`GrammarFuzzing.Endpoint.transport` is the channel whose worker has done all it can whenever the
client looks for replies. Nothing looks into messages and answers, so these may be of any types.
-/

namespace GrammarFuzzing

/-- What a harness makes of a message. -/
inductive HarnessOutcome
  | replies (messages : List Message)
  | failed (reason : String)

/-- What comes back for a message. -/
inductive EndpointAnswer
  | message (message : Message)
  | failed (reason : String)

/-- The answers to a message that was handled. -/
def HarnessOutcome.answers : HarnessOutcome → List EndpointAnswer
  | .replies messages => messages.map .message
  | .failed reason => [.failed reason]

/-- What an answer means to the client. -/
def EndpointAnswer.result : EndpointAnswer → Except ExchangeError Message
  | .message m => .ok m
  | .failed reason => .error (.endpoint reason)

/-- What a client asks for. -/
inductive EndpointRequest (μ : Type)
  | deliver (message : μ)
  | reset (number : Nat)

/-- What a worker replies. -/
inductive EndpointReply (α : Type)
  | answer (answer : α)
  | resetDone (number : Nat)

/-- What a worker is about. -/
inductive EndpointWorker (μ α : Type)
  /-- It adds replies to their queue; without any left it is free. -/
  | posting (left : List (EndpointReply α))
  /-- It has taken a request. -/
  | handling (request : EndpointRequest μ)

/-- **What client and worker share**: the two queues, and the number of requests that are not
handled yet. Besides, what the worker is about, and the number of resets so far. -/
structure EndpointState (μ α : Type) where
  requests : List (EndpointRequest μ) := []
  replies : List (EndpointReply α) := []
  worker : EndpointWorker μ α := .posting []
  inFlight : Int := 0
  resets : Nat := 0

/-- **An endpoint.** -/
abbrev Endpoint := EndpointState Message EndpointAnswer

variable {μ α : Type}

/-! ### The worker -/

namespace EndpointState

/-- A request has been handled, and these are the replies. -/
def finish (replies : List (EndpointReply α)) (e : EndpointState μ α) : EndpointState μ α :=
  { e with worker := .posting replies, inFlight := e.inFlight - 1 }

/-- **One step of the worker**, with a harness that tells what it makes of each message, or that it
has not returned. -/
def work (harness : μ → Option (List α)) (e : EndpointState μ α) : EndpointState μ α :=
  match e.worker with
  | .posting (r :: left) => { e with replies := e.replies ++ [r], worker := .posting left }
  | .posting [] =>
    match e.requests with
    | [] => e
    | r :: rest => { e with requests := rest, worker := .handling r }
  | .handling (.reset n) => e.finish [.resetDone n]
  | .handling (.deliver m) =>
    match harness m with
    | some answers => e.finish (answers.map .answer)
    | none => e

/-- What the harness returns in the next step, and for which message. -/
def returned? (harness : μ → Option (List α)) (e : EndpointState μ α) : Option (μ × List α) :=
  match e.worker with
  | .handling (.deliver m) => (harness m).map fun answers => (m, answers)
  | _ => none

/-- How many steps a request takes from when it is taken. -/
def handlingSteps (harness : μ → Option (List α)) : EndpointRequest μ → Nat
  | .deliver m => ((harness m).map fun answers => 1 + answers.length).getD 0
  | .reset _ => 2

/-- How many steps the worker can take at most. -/
def stepsLeft (harness : μ → Option (List α)) (e : EndpointState μ α) : Nat :=
  (match e.worker with
    | .posting left => left.length
    | .handling r => handlingSteps harness r) +
      sumOf (e.requests.map fun r => 1 + handlingSteps harness r)

end EndpointState

/-! ### The client -/

/-- What a client is about. -/
inductive EndpointClient (μ : Type)
  /-- It is in no call. -/
  | idle
  /-- It is about to add a request, which it has counted already. -/
  | submitting (request : EndpointRequest μ)
  /-- It waits for an answer. -/
  | receiving
  /-- It waits for the acknowledgement of a reset. -/
  | awaiting (number : Nat)

/-- **A session**: an endpoint and its client. -/
structure EndpointSession (μ α : Type) where
  endpoint : EndpointState μ α := {}
  client : EndpointClient μ := .idle

/-- What happened in a session. -/
inductive EndpointEvent (μ α : Type)
  /-- A message is being sent. -/
  | sending (message : μ)
  /-- A reset has been called. -/
  | resetting
  /-- The harness has returned. -/
  | handled (message : μ) (answers : List α)
  /-- The client has got an answer. -/
  | received (answer : α)
  /-- The client has got no answer in time. -/
  | silence
  /-- A reset has dropped an answer. -/
  | dropped (answer : α)
  /-- A reset has succeeded. -/
  | resetDone
  /-- A reset has not been acknowledged in time. -/
  | resetAbandoned

/-- **What client and worker can do.** -/
inductive EndpointAction (μ α : Type)
  /-- The client calls an operation. -/
  | send (message : μ)
  | receive
  | reset
  /-- The client goes on with its call. -/
  | proceed
  /-- The client gives up waiting. -/
  | giveUp
  /-- The worker takes a step. -/
  | work (harness : μ → Option (List α))

namespace EndpointSession

/-- The client takes a reply out of the queue. -/
def take (rest : List (EndpointReply α)) (client : EndpointClient μ) (s : EndpointSession μ α) :
    EndpointSession μ α :=
  ⟨{ s.endpoint with replies := rest }, client⟩

/-- **The client goes on with its call**: it adds its request, or looks at the first reply that is
there. For an answer it skips acknowledgements, for its own acknowledgement whatever else there
is. -/
def proceed (s : EndpointSession μ α) : Option (EndpointEvent μ α) × EndpointSession μ α :=
  match s.client, s.endpoint.replies with
  | .submitting r, _ =>
    (none, ⟨{ s.endpoint with requests := s.endpoint.requests ++ [r] },
      match r with
      | .deliver _ => .idle
      | .reset n => .awaiting n⟩)
  | .receiving, .answer a :: rest => (some (.received a), s.take rest .idle)
  | .receiving, .resetDone _ :: rest => (none, s.take rest .receiving)
  | .awaiting n, .answer a :: rest => (some (.dropped a), s.take rest (.awaiting n))
  | .awaiting n, .resetDone k :: rest =>
    if k = n then (some .resetDone, s.take rest .idle) else (none, s.take rest (.awaiting n))
  | _, _ => (none, s)

/-- **One step of a session.** An action that does not fit what the client is about does nothing. -/
def step (s : EndpointSession μ α) :
    EndpointAction μ α → Option (EndpointEvent μ α) × EndpointSession μ α
  | .send m =>
    match s.client with
    | .idle => (some (.sending m), ⟨{ s.endpoint with inFlight := s.endpoint.inFlight + 1 },
        .submitting (.deliver m)⟩)
    | _ => (none, s)
  | .reset =>
    match s.client with
    | .idle => (some .resetting, ⟨{ s.endpoint with
        inFlight := s.endpoint.inFlight + 1, resets := s.endpoint.resets + 1 },
        .submitting (.reset (s.endpoint.resets + 1))⟩)
    | _ => (none, s)
  | .receive =>
    match s.client with
    | .idle => (none, ⟨s.endpoint, .receiving⟩)
    | _ => (none, s)
  | .proceed => s.proceed
  | .giveUp =>
    match s.client with
    | .receiving => (some .silence, ⟨s.endpoint, .idle⟩)
    | .awaiting _ => (some .resetAbandoned, ⟨s.endpoint, .idle⟩)
    | _ => (none, s)
  | .work harness =>
    ((s.endpoint.returned? harness).map fun r => .handled r.1 r.2,
      ⟨s.endpoint.work harness, s.client⟩)

/-- **A session under some actions**, with what happened at each of them. -/
def run (s : EndpointSession μ α) :
    List (EndpointAction μ α) → List (Option (EndpointEvent μ α)) × EndpointSession μ α
  | [] => ([], s)
  | a :: rest =>
    let (event, s) := s.step a
    let (events, s) := s.run rest
    (event :: events, s)

/-- Waiting in a call, while the worker does all it can, until there is nothing more to look at. -/
def wait (harness : μ → Option (List α)) (s : EndpointSession μ α) :
    List (Option (EndpointEvent μ α)) × EndpointSession μ α :=
  let (_, s) := s.run (List.replicate (s.endpoint.stepsLeft harness) (.work harness))
  s.run (List.replicate s.endpoint.replies.length .proceed ++ [.giveUp])

end EndpointSession

/-- The answer that was received, if any. -/
def EndpointEvent.received? : EndpointEvent μ α → Option α
  | .received a => some a
  | _ => none

/-- Whether a reset has succeeded. -/
def EndpointEvent.isResetDone : EndpointEvent μ α → Bool
  | .resetDone => true
  | _ => false

/-! ### The channel -/

/-- **The channel to an endpoint** whose worker has done all it can whenever the client looks for
replies. A reset is waited for so many milliseconds. -/
def Endpoint.transport (harness : Message → Option HarnessOutcome) (resetMs : Nat) :
    Transport Endpoint where
  reset e :=
    let (_, s) := (EndpointSession.mk e .idle).run [.reset, .proceed]
    let (events, s) := s.wait fun m => (harness m).map HarnessOutcome.answers
    (if events.any fun e => e.any EndpointEvent.isResetDone then .ok ()
      else .error (.timeout resetMs), s.endpoint)
  send m e :=
    let (_, s) := (EndpointSession.mk e .idle).run [.send m, .proceed]
    (.ok (), s.endpoint)
  receive ms e :=
    let (_, s) := (EndpointSession.mk e .idle).run [.receive]
    let (events, s) := s.wait fun m => (harness m).map HarnessOutcome.answers
    let answer := events.findSome? fun e => e.bind EndpointEvent.received?
    ((answer.map EndpointAnswer.result).getD (.error (.timeout ms)), s.endpoint)

end GrammarFuzzing
