import GrammarFuzzing.Config.Basic
import GrammarFuzzing.Evolution.Evaluation
import GrammarFuzzing.Exchange.Message
import GrammarFuzzing.Grammar.Slice
import GrammarFuzzing.Packet.Forecast
import GrammarFuzzing.Packet.Navigate

/-!
# Rounds of an exchange

A `GrammarFuzzing.ExchangeFuzzer` plays some parties of a grammar against the others. In a **round**
it carries out one exchange from beginning to end:

* as long as this side may send something, it picks a packet and sends the best of several random
  messages for it. Packets are picked by energy: poorly covered and rarely seen types are aimed at,
  and if the type aimed at cannot be sent right now, the packet that leads there soonest is;
* otherwise it waits for a message and reads it as one of the packets that may come next.

An exchange that could end goes on with some probability. Once it has ended, the trees of its
messages are put together to the tree of the exchange, and only then does the fuzzer learn from it:
a round that fails leaves no trace (`GrammarFuzzing.ExchangeFuzzer.round`).
-/

namespace GrammarFuzzing

/-- **How the next packet is picked** where no energy tells. -/
inductive Scheduler
  /-- Every candidate alike. -/
  | uniform
  /-- By energies learnt on the way. -/
  | power (schedule : PowerSchedule String Float)

namespace Scheduler

/-- The index of the next candidate. -/
def next (s : Scheduler) (candidates : List String) : Draw (Except ScheduleError Nat) :=
  match s with
  | .uniform => uniformIndex candidates.length
  | .power schedule => schedule.next candidates

/-- The scheduler after a candidate was produced. -/
def feedback (s : Scheduler) (chosen : String) (coverage : Dictionary String Float) : Scheduler :=
  match s with
  | .uniform => .uniform
  | .power schedule => .power (schedule.feedback chosen coverage)

end Scheduler

/-- **Where coverage comes from.** -/
inductive CoverageSource
  /-- From the trees of the exchanges. -/
  | grammar (coverage : Coverage)
  /-- From elsewhere, always the same: the share of everything, and of each type of message. -/
  | fixed (share : Float) (byType : Dictionary String Float)

namespace CoverageSource

/-- Takes in a tree. -/
def observe (c : CoverageSource) (t : Tree) : CoverageSource :=
  match c with
  | .grammar coverage => .grammar (coverage.observe t)
  | .fixed share byType => .fixed share byType

/-- The share that is covered. -/
def fraction : CoverageSource → Float
  | .grammar coverage => coverage.fraction
  | .fixed share _ => share

/-- The share that is covered of each type of message. -/
def byType : CoverageSource → Dictionary String Float
  | .grammar coverage => coverage.byType
  | .fixed _ byType => byType

end CoverageSource

/-- **What plays the local parties.** -/
structure ExchangeFuzzer where
  grammar : Grammar
  settings : ExchangeSettings
  fuzzSettings : FuzzSettings
  /-- The parties that this side plays. -/
  localParties : List String
  navigator : Navigator
  scheduler : Scheduler := .uniform
  coverage : CoverageSource
  log : CoverageLog
  /-- The types of all messages of the finished rounds. -/
  observed : List String := []
  /-- The number of finished rounds. -/
  rounds : Nat := 0

/-- A computation that uses a channel with states `σ` and an evaluator, and may fail. What it did to
them stays done when it fails. -/
abbrev Exchanging (σ α : Type) :=
  ExceptT ExchangeError (StateT (σ × Evaluator Float) Draw) α

namespace Exchanging

variable {σ α : Type}

/-- An operation of the channel. -/
def call (f : σ → Except ExchangeError α × σ) : Exchanging σ α :=
  fun (s, e) =>
    let (r, s) := f s
    return (r, s, e)

/-- A random choice. -/
def draw (d : Draw α) : Exchanging σ α :=
  fun s => do return (.ok (← d), s)

/-- A random choice that may fail. -/
def attempt {ε : Type} (onError : ε → ExchangeError) (d : Draw (Except ε α)) : Exchanging σ α := do
  match ← draw d with
  | .ok a => return a
  | .error e => throw (onError e)

/-- The scores of some trees. -/
def evaluate (ts : List Tree) : Exchanging σ (List (Evaluation Float)) :=
  fun (s, e) =>
    let (scores, e) := e.evaluateAll ts
    return (.ok scores, s, e)

end Exchanging

namespace ExchangeFuzzer

/-- **A fuzzer for the local parties** of some settings, which must occur in the grammar. No parties
stand for all that send anything. -/
def of (g : Grammar) (settings : ExchangeSettings) (coverage : CoverageSettings)
    (fuzzSettings : FuzzSettings) : Except ExchangeError ExchangeFuzzer :=
  let known := g.parties true
  match settings.localParties.find? fun p => !known.contains p with
  | some p => .error (.grammar (.unknownParty p known))
  | none =>
    let localParties :=
      if settings.localParties.isEmpty then g.parties false
      else SortedSet.ofList settings.localParties
    match g.reduce with
    | .error e => .error (.grammar e)
    | .ok reduction => .ok {
        grammar := g
        settings := settings
        fuzzSettings := fuzzSettings
        localParties := localParties
        navigator := .of reduction
        coverage := .grammar (.of g coverage.goal localParties)
        log := { interval := coverage.logIntervalMs } }

/-- The order of packets. -/
def reduction (f : ExchangeFuzzer) : Reduction :=
  f.navigator.reduction

/-- Whether this side sends a packet. -/
def isLocal (f : ExchangeFuzzer) (p : Packet) : Bool :=
  p.sender.any f.localParties.contains

/-! ### Picking a packet -/

/-- The first of the cheapest among some costs, by index. -/
def cheapest? (costs : List (Nat × Packet)) : Option Packet :=
  (costs.foldl (fun (best : Option (Nat × Packet)) c =>
    match best with
    | none => some c
    | some b => if c.1 < b.1 then some c else some b) none).map (·.2)

/-- The cost of the cheapest way from a packet to any packet of a type. -/
def costTo? (f : ExchangeFuzzer) (target : String) (p : Packet) : Option Nat :=
  let goals := f.reduction.packets.filter fun q => q.name = target
  ((goals.filterMap fun q => f.navigator.shortestPath p q).map (·.2)).min?

/-- The candidate from which a type of message is cheapest to reach. -/
def closestTo? (f : ExchangeFuzzer) (candidates : List Packet) (target : String) : Option Packet :=
  cheapest? (candidates.filterMap fun p => (f.costTo? target p).map fun cost => (cost, p))

/-- The candidate to send when a type of message is aimed at. -/
def towards? (f : ExchangeFuzzer) (candidates : List Packet) (target : String) : Option Packet :=
  (candidates.find? fun p => p.name = target).or (f.closestTo? candidates target)

/-- The type of message to aim at, by the energies of all types; none if there is no energy. -/
def target? (f : ExchangeFuzzer) : Draw (Option String) := do
  let (energies, schedule) :=
    PowerSchedule.assignEnergy f.observed f.coverage.byType ({} : PowerSchedule String Float)
  match energies with
  | .error _ => return none
  | .ok _ => return (← schedule.choose).toOption

/-- **Picks the packet to send** among candidates. -/
def pick {σ : Type} (f : ExchangeFuzzer) (candidates : List Packet) : Exchanging σ Packet := do
  match (← Exchanging.draw f.target?).bind (f.towards? candidates) with
  | some p => return p
  | none =>
    let i ← Exchanging.attempt .schedule (f.scheduler.next (candidates.map (·.name)))
    match candidates[i]? with
    | some p => return p
    | none => throw (.schedule .noCandidates)

/-! ### Sending and receiving -/

/-- Several random trees for a message. -/
def candidates (f : ExchangeFuzzer) (name : String) : Nat → Attempt GrammarError (List Tree)
  | 0 => return []
  | n + 1 => do
    let t ← (Fuzzer.mk f.grammar f.fuzzSettings).fuzzSymbol name f.fuzzSettings.maxNodes
    return t :: (← candidates f name n)

/-- The first of the fittest trees. -/
def fittest? (ts : List Tree) (scores : List (Evaluation Float)) : Option Tree :=
  ((ts.zip scores).foldl (fun (best : Option (Tree × Float)) (t, s) =>
    match best with
    | none => some (t, s.fitness)
    | some b => if s.fitness > b.2 then some (t, s.fitness) else some b) none).map (·.1)

/-- **Makes up a message** for a packet: the fittest of several random trees. -/
def synthesize {σ : Type} (f : ExchangeFuzzer) (p : Packet) : Exchanging σ Tree := do
  let count := Nat.max f.settings.candidatesPerPacket 1
  let ts ← Exchanging.attempt .grammar (f.candidates p.name count).run
  match fittest? ts (← Exchanging.evaluate ts) with
  | some t => return t
  | none => throw (.grammar (.undefinedSymbol p.name))

/-- The message that a tree for a packet is. -/
def messageOf (p : Packet) (t : Tree) : Message :=
  ⟨p.sender.getD "", p.recipient, t.toBytes⟩

/-- Whether a message is between the parties of a packet. A recipient that either leaves out does
not matter. -/
def agrees (m : Message) (p : Packet) : Bool :=
  p.sender = some m.sender &&
    match p.recipient, m.recipient with
    | some expected, some actual => expected = actual
    | _, _ => true

/-- The first packet that a message can be read as, and its tree. -/
def readAs? (g : Grammar) (m : Message) : List Packet → Option (Packet × Tree)
  | [] => none
  | p :: rest =>
    if !agrees m p then readAs? g m rest
    else
      match g.parse m.payload p.name .complete with
      | .ok t => some (p, t)
      | .error _ => readAs? g m rest

/-- **Reads a message** as one of the packets that may come next. -/
def interpret (f : ExchangeFuzzer) (expected : List Packet) (m : Message) :
    Except ExchangeError (Packet × Tree) :=
  match readAs? f.grammar m expected with
  | some r => .ok r
  | none => .error (.unexpectedMessage m.sender (Utf8.decodeLossy m.payload))

/-- **One message**: sent if this side may send something, received otherwise. -/
def exchangeMessage {σ : Type} (f : ExchangeFuzzer) (t : Transport σ) (next : List Packet) :
    Exchanging σ (Packet × Tree) := do
  let sendable := next.filter f.isLocal
  if sendable.isEmpty then
    let m ← Exchanging.call (t.receive f.settings.timeoutMs)
    match f.interpret next m with
    | .ok r => return r
    | .error e => throw e
  else
    let p ← f.pick sendable
    let tree ← f.synthesize p
    Exchanging.call (t.send (messageOf p tree))
    return (p, tree)

/-! ### Whole exchanges -/

/-- Whether an exchange ends here: it can, and it either has to or chance says so. -/
def ends {σ : Type} (f : ExchangeFuzzer) (packets next : List Packet) : Exchanging σ Bool := do
  if !f.reduction.isComplete packets then return false
  if next.isEmpty then return true
  return !(← Exchanging.draw (Draw.chance f.settings.continueProbability))

/-- **The rest of an exchange** after a history, with at most `room` more messages. -/
def converse {σ : Type} (f : ExchangeFuzzer) (t : Transport σ) :
    Nat → List (Packet × Tree) → Exchanging σ (List (Packet × Tree))
  | room, history => do
    let packets := history.map (·.1)
    let next := f.reduction.predict packets
    if ← f.ends packets next then return history
    match room with
    | 0 => throw (.truncated history.length)
    | room + 1 =>
      if next.isEmpty then throw (.stuck history.length)
      let r ← f.exchangeMessage t next
      converse f t room (history ++ [r])

/-- The exchange of one round and its tree. -/
def conduct {σ : Type} (f : ExchangeFuzzer) (t : Transport σ) :
    Exchanging σ (List Packet × Tree) := do
  Exchanging.call t.reset
  let history ← f.converse t f.settings.maxMessages []
  match f.reduction.assemble history with
  | .ok tree => return (history.map (·.1), tree)
  | .error e => throw (.parse e)

/-- The fuzzer after a finished round, so many milliseconds after its start. -/
def learn (f : ExchangeFuzzer) (elapsed : Nat) (packets : List Packet) (t : Tree) :
    ExchangeFuzzer :=
  let coverage := f.coverage.observe t
  let sent := (packets.filter f.isLocal).map (·.name)
  { f with
    coverage := coverage
    observed := f.observed ++ packets.map (·.name)
    scheduler := sent.foldl (fun s name => s.feedback name coverage.byType) f.scheduler
    rounds := f.rounds + 1
    log := f.log.sample elapsed coverage.fraction }

/-- **One round**, so many milliseconds after the start: the tree of the exchange, or why it
failed. -/
def round {σ : Type} (f : ExchangeFuzzer) (t : Transport σ) (elapsed : Nat) :
    Exchanging σ (Tree × ExchangeFuzzer) := do
  let (packets, tree) ← f.conduct t
  return (tree, f.learn elapsed packets tree)

/-- Runs a round; after a failed one the fuzzer is what it was. -/
def runRound {σ : Type} (f : ExchangeFuzzer) (t : Transport σ) (elapsed : Nat) :
    StateT (σ × Evaluator Float) Draw (Except ExchangeError Tree × ExchangeFuzzer) := do
  match ← (f.round t elapsed).run with
  | .ok (tree, f) => return (.ok tree, f)
  | .error e => return (.error e, f)

end ExchangeFuzzer

end GrammarFuzzing
