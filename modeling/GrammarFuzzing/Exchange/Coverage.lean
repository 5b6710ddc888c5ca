import GrammarFuzzing.Grammar.Reach
import GrammarFuzzing.Number.Scalar
import GrammarFuzzing.Number.Sum
import GrammarFuzzing.Tree.Message

/-!
# Coverage

How much of a grammar with messages was seen in the trees of a run. Each type of message counts as
one item once it was seen; depending on the **goal**, the symbols that can occur inside it are items
too. `GrammarFuzzing.Coverage.observe` takes in a tree, and `.fraction` and `.byType` tell the share
of items that were seen, of all types together and of each.

`GrammarFuzzing.CoverageLog` keeps samples of the share over time, at most one for each interval.
-/

namespace GrammarFuzzing

/-- **What counts.** -/
inductive CoverageGoal
  /-- The types of messages. -/
  | states
  /-- Also the structure of the messages that this side sends. -/
  | statesInputs
  /-- Also the structure of the messages that it receives. -/
  | statesInputsOutputs
  deriving DecidableEq

namespace CoverageGoal

/-- All goals with their names. -/
def names : List (CoverageGoal × String) :=
  [(.states, "states"), (.statesInputs, "states-inputs"),
    (.statesInputsOutputs, "states-inputs-outputs")]

/-- The goal with a name. -/
def ofName? (s : String) : Option CoverageGoal :=
  (names.find? fun p => p.2 = s).map (·.1)

/-- The name of a goal. -/
def name (goal : CoverageGoal) : String :=
  ((names.find? fun p => p.1 = goal).map (·.2)).getD ""

end CoverageGoal

/-- **What was seen** in some trees, out of what a grammar has. -/
structure Coverage where
  goal : CoverageGoal
  /-- The parties that this side plays; none means all of them. -/
  localParties : List String
  /-- The symbols that can occur inside each type of message. -/
  possible : Dictionary String (List String)
  /-- The sender of each type of message. -/
  senders : Dictionary String String
  /-- The symbols that were seen inside each type of message. -/
  covered : Dictionary String (List String) := []
  /-- The types of messages that were seen. -/
  seen : List String := []

namespace Coverage

/-- The references to messages in a grammar, by name and sender. -/
def messageReferences (g : Grammar) : List (String × String) :=
  g.nodes.toList.filterMap fun
    | .reference _ name (some sender) _ => some (name, sender)
    | _ => none

/-- Nothing seen yet of a grammar. -/
def of (g : Grammar) (goal : CoverageGoal) (localParties : List String) : Coverage where
  goal := goal
  localParties := localParties
  possible := .ofPairs ((messageReferences g).map fun (name, _) =>
    (name, ((g.reachable name).toOption).getD []))
  senders := .ofPairs (messageReferences g)

/-- Whether this side sends a type of message. -/
def isInput (c : Coverage) (message : String) : Bool :=
  match c.senders.find? message with
  | some s => c.localParties.isEmpty || c.localParties.contains s
  | none => false

/-- Whether the structure of a type of message counts. -/
def countsStructure (c : Coverage) (message : String) : Bool :=
  match c.goal with
  | .states => false
  | .statesInputs => c.isInput message
  | .statesInputsOutputs => true

/-- The number of items of a type of message. -/
def itemCount (c : Coverage) (message : String) : Nat :=
  1 + if c.countsStructure message then ((c.possible.find? message).getD []).length else 0

/-- The number of items of a type of message that were seen. -/
def seenCount (c : Coverage) (message : String) : Nat :=
  (if c.seen.contains message then 1 else 0) +
    if c.countsStructure message then ((c.covered.find? message).getD []).length else 0

/-- The names that occur below the root of a tree. -/
def innerNames (t : Tree) : List String :=
  (t.nodes.filter fun n => !n.1.isEmpty).filterMap fun n => n.2.symbol.name?

/-- Takes in one message of a tree. -/
def observeMessage (t : Tree) (c : Coverage) (m : TreeMessage) : Coverage :=
  match m.symbol.name?, t.get? m.path with
  | some name, some node =>
    let possible := (c.possible.find? name).getD []
    let inner := (innerNames node).filter possible.contains
    { c with
      seen := SortedSet.insert name c.seen
      covered := c.covered.put name (SortedSet.union ((c.covered.find? name).getD []) inner) }
  | _, _ => c

/-- **Takes in a tree.** -/
def observe (c : Coverage) (t : Tree) : Coverage :=
  t.messages.foldl (observeMessage t) c

variable {α : Type} [Scalar α]

/-- **The share of all items that were seen**, zero if there are none. -/
def fraction (c : Coverage) : α :=
  let total := sumOf (c.possible.keys.map c.itemCount)
  if total = 0 then Scalar.ofNat 0
  else Scalar.ratio (sumOf (c.possible.keys.map c.seenCount)) total

/-- The share of the items of each type of message that were seen. -/
def byType (c : Coverage) : Dictionary String α :=
  c.possible.map fun (name, _) => (name, Scalar.ratio (c.seenCount name) (c.itemCount name))

end Coverage

/-- **Samples of coverage over time.** Times are in milliseconds since the start. -/
structure CoverageLog where
  interval : Nat
  entries : List (Nat × Float) := []

namespace CoverageLog

/-- Whether a sample at a time is due: there is none yet, or an interval has passed since the
last. -/
def isDue (log : CoverageLog) (elapsed : Nat) : Bool :=
  match log.entries.getLast? with
  | none => true
  | some (last, _) => elapsed - last ≥ log.interval

/-- Takes a sample if one is due. Times before the start count as the start. -/
def sample (log : CoverageLog) (time : Int) (coverage : Float) : CoverageLog :=
  if log.isDue time.toNat then { log with entries := log.entries ++ [(time.toNat, coverage)] }
  else log

end CoverageLog

end GrammarFuzzing
