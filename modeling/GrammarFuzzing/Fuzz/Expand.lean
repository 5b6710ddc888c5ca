import GrammarFuzzing.Parse.Basic
import GrammarFuzzing.Random.Draw

/-!
# Random expansion

A symbol of a grammar is expanded into a random tree within a **budget** of nodes. Choices keep to
the budget: an option is taken only if its distance fits into what is left, and the parts of a
sequence leave room for the parts that follow. Once the budget is used up, every node takes a
shortest expansion, so that only the least number of further nodes is made.

* `GrammarFuzzing.Fuzzer.expandNode` – the trees that a node of a rule expands to;
* `GrammarFuzzing.Fuzzer.expandSymbol` – the tree of a symbol: the value of its generator, if it has
  one that works, and otherwise the expansion of its rule;
* `GrammarFuzzing.Fuzzer.fuzzSymbol`, `.fuzz` – a random tree for a symbol, or for the start symbol.

**Structural hints** leave the bounds that a node declares, with the probability the settings of the
grammar give. They are applied from the outside in: once a hint has fixed a count, hints within that
repetition are not asked.

Expansion recurses on the nodes of a rule, and on a number that bounds how deeply symbols are
nested. Where no hint multiplies options the bound is never reached: each symbol takes one node off
the budget, and after that each is nearer to completion than the one around it. Where hints do, it
can only be reached by rules that lead back to themselves.
-/

namespace GrammarFuzzing

/-- The limits of random expansion. -/
structure FuzzSettings where
  /-- The budget of a tree. -/
  maxNodes : Nat := 50
  /-- The number of copies that stands for no upper bound. -/
  maxRepetitions : Nat := 5

/-- **A fuzzer**: a grammar and the limits for its expansions. -/
structure Fuzzer where
  grammar : Grammar
  settings : FuzzSettings

/-- A random computation that may fail. What was drawn before a failure stays drawn. -/
abbrev Attempt (ε : Type) : Type → Type :=
  ExceptT ε Draw

/-- A random computation that cannot fail, as one that may. -/
def Attempt.lift {ε α : Type} (d : Draw α) : Attempt ε α :=
  ExceptT.lift d

/-- What was made, if anything was: a failure is caught. That an expansion does not end is not,
since whoever asks for it gets no answer either. -/
def Attempt.settle {α : Type} : Except GrammarError α → Attempt GrammarError (Option α)
  | .ok x => return some x
  | .error (.unending name) => throw (.unending name)
  | .error _ => return none

/-- **An attempt whose failure is caught.** -/
def Attempt.caught {α : Type} (a : Attempt GrammarError α) : Attempt GrammarError (Option α) := do
  Attempt.settle (← Attempt.lift a.run)

namespace Fuzzer

/-- How a symbol is expanded: its name, its parties, the budget, and whether it lies inside a
message. -/
abbrev SymbolExpansion :=
  String → Option String → Option String → Nat → Bool → Attempt GrammarError Tree

/-- Whether a hint with a probability applies now. Nothing is drawn for an impossible one. -/
def fires (p : Float) : Draw Bool :=
  if p > 0.0 then Draw.bool (Scalar.min p 1.0) else return false

/-- Several expansions of one symbol that share a budget. -/
def expandCopies (expand : Nat → Attempt GrammarError Tree) :
    Nat → Nat → Attempt GrammarError (List Tree)
  | 0, _ => return []
  | n + 1, budget => do
    let t ← expand budget
    return t :: (← expandCopies expand n (budget - t.size))

/-- The copies of a repetition. Once the budget is too small for another one, copies are only made
while there have to be more, and each gets no budget at all. `made` copies exist already, `reserved`
nodes are kept for those that must follow, and `forced` means that the count must be met. -/
def expandRepeated (expand : Nat → Attempt GrammarError (List Tree)) (distance min : Nat)
    (forced : Bool) : Nat → Nat → Nat → Nat → Attempt GrammarError (List Tree)
  | 0, _, _, _ => return []
  | n + 1, made, reserved, remaining => do
    if distance ≥ remaining then
      if !forced && made ≥ min then return []
      let ts ← expand 0
      return ts ++ (← expandRepeated expand distance min forced n (made + 1) reserved
        (remaining - Tree.listSize ts))
    else
      let reserved := reserved - distance
      let ts ← expand (remaining - reserved)
      return ts ++ (← expandRepeated expand distance min forced n (made + 1) reserved
        (remaining - Tree.listSize ts))

/-- How many copies a repetition makes, and whether a hint fixed the number. -/
def repetitionCount (f : Fuzzer) (settings : NodeSettings) (min : Nat) (max : Option Nat)
    (form : RepetitionForm) (hintFixed : Bool) : Draw (Nat × Bool) := do
  let most := max.getD (Nat.max f.settings.maxRepetitions min)
  match form with
  | .plus =>
    if !hintFixed then
      if ← fires settings.emptyPlus then return (0, true)
    return (← Draw.between min most, false)
  | .optional =>
    if !hintFixed then
      if ← fires settings.multipleOption then
        return (← Draw.between 2 (Nat.max f.settings.maxRepetitions 2), true)
    return (← Draw.between min most, false)
  | _ => return (← Draw.between min most, false)

/-- How often a reference is expanded: once, unless a hint makes it none or several times. -/
def referenceCount (f : Fuzzer) (settings : NodeSettings) (hintFixed : Bool) : Draw Nat := do
  if hintFixed then return 1
  if ← fires settings.repeatReference then
    if ← Draw.bool 0.5 then return 0
    return ← Draw.between 2 (Nat.max f.settings.maxRepetitions 2)
  return 1

/-- Which option of a choice is expanded, and its budget. Within the budget any option that fits may
be; if none fits, one of the nearest is, without budget. -/
def chooseOption (f : Fuzzer) (options : List Node) (budget : Nat) : Draw (Nat × Nat) := do
  let distances := options.map f.grammar.distance
  let fitting := (List.range options.length).filter fun i => distances.getD i 0 < budget
  if fitting.isEmpty then
    let nearest := distances.foldl Nat.min unreachable
    let candidates := (List.range options.length).filter fun i => distances.getD i 0 ≤ nearest
    return (candidates.getD (← Draw.below candidates.length) 0, 0)
  return (fitting.getD (← Draw.below fitting.length) 0, budget)

/-- The budget of a part of a sequence: what is left without what the later parts need. -/
def partBudget (f : Fuzzer) (part : Node) (later : List Node) (remaining : Nat) : Nat :=
  if f.grammar.distance part ≥ remaining then 0
  else remaining - Node.totalDistance (distanceIn f.grammar.distances) later

mutual

/-- **The trees that a node expands to.** -/
def expandNode (f : Fuzzer) (expand : SymbolExpansion) (inMessage : Bool) :
    Node → Nat → Bool → Attempt GrammarError (List Tree)
  | .terminal _ value, _, _ => return [Tree.leaf value]
  | .charset _ chars, _, _ => do
    match ← Attempt.lift (Draw.pick? chars) with
    | none => return []
    | some c => return [Tree.leaf (.text c.toString)]
  | .reference id name sender recipient, budget, hintFixed => do
    let settings := f.grammar.settingsOf (.reference id name sender recipient)
    let copies ← Attempt.lift (f.referenceCount settings hintFixed)
    expandCopies (fun budget => expand name sender recipient budget inMessage) copies budget
  | .sequence _ parts, budget, hintFixed => expandParts f expand inMessage hintFixed parts budget
  | .choice _ options, budget, hintFixed => do
    let (i, budget) ← Attempt.lift (f.chooseOption options budget)
    expandNth f expand inMessage hintFixed budget options i
  | .repetition id body min max form, budget, hintFixed => do
    let node := Node.repetition id body min max form
    let (copies, forced) ←
      Attempt.lift (f.repetitionCount (f.grammar.settingsOf node) min max form hintFixed)
    expandRepeated (fun budget => expandNode f expand inMessage body budget (hintFixed || forced))
      (f.grammar.distance body) min forced copies 0 (f.grammar.distance node) budget

/-- The trees that the parts of a sequence expand to. -/
def expandParts (f : Fuzzer) (expand : SymbolExpansion) (inMessage hintFixed : Bool) :
    List Node → Nat → Attempt GrammarError (List Tree)
  | [], _ => return []
  | n :: rest, remaining => do
    let ts ← expandNode f expand inMessage n (f.partBudget n rest remaining) hintFixed
    return ts ++ (← expandParts f expand inMessage hintFixed rest (remaining - Tree.listSize ts))

/-- The trees that one of several nodes expands to. -/
def expandNth (f : Fuzzer) (expand : SymbolExpansion) (inMessage hintFixed : Bool) (budget : Nat) :
    List Node → Nat → Attempt GrammarError (List Tree)
  | [], _ => return []
  | n :: _, 0 => expandNode f expand inMessage n budget hintFixed
  | _ :: rest, i + 1 => expandNth f expand inMessage hintFixed budget rest i

end

/-- The expansions of the symbols that a generator depends on. -/
def expandDependencies (expand : SymbolExpansion) (budget : Nat) :
    List String → Attempt GrammarError (List Tree)
  | [] => return []
  | name :: rest => do
    let t ← expand name none none budget true
    return t :: (← expandDependencies expand budget rest)

/-- The tree of a generated value: it is read by the grammar, becomes read-only, and keeps the trees
it was computed from. There is none if the generator failed or its value does not derive. -/
def generatedTree? (f : Fuzzer) (name : String) (params : List Tree) (value : Option Bytes) :
    Option Tree :=
  match value with
  | none => none
  | some value =>
    match f.grammar.parse value name .complete with
    | .ok t => some (t.asReadOnly.withSources params)
    | .error _ => none

/-- The tree of the generator of a symbol, if it has one that works and what it depends on can be
expanded. A generator is not asked while its own dependencies are being expanded; `generating` lists
those at work. -/
def expandGenerator (f : Fuzzer) (expand : SymbolExpansion) (generating : List String)
    (name : String) (budget : Nat) : Attempt GrammarError (Option Tree) :=
  match f.grammar.generator? name with
  | some generator =>
    if generating.contains name then return none
    else do
      match ← (expandDependencies expand budget generator.dependencies).caught with
      | none => return none
      | some params =>
        let value ← Attempt.lift (generator.generate params)
        return f.generatedTree? name params value
  | none => return none

/-- The tree of a symbol over the expansion of its rule. -/
def expandRule (f : Fuzzer) (expand : SymbolExpansion) : SymbolExpansion :=
  fun name sender recipient budget inMessage => do
    let body ← f.grammar.rule name
    let children ←
      expandNode f expand (inMessage || sender.isSome) body (budget - 1) false
    return ⟨.nonTerminal name, children, [], sender, recipient, false⟩

/-- **The tree that a symbol expands to**: what its generator computes, or else what its rule
expands to. Only the outermost message keeps its parties. -/
def expandSymbol (f : Fuzzer) : Nat → List String → SymbolExpansion
  | 0, _ => fun name _ _ _ _ => throw (.unending name)
  | depth + 1, generating => fun name sender recipient budget inMessage => do
    let sender := if inMessage then none else sender
    let recipient := if inMessage then none else recipient
    let expand := expandSymbol f depth (name :: generating)
    match ← f.expandGenerator expand generating name budget with
    | some t => return t.withParty sender recipient
    | none => f.expandRule (expandSymbol f depth generating) name sender recipient budget inMessage

/-- How deeply symbols may be nested. Each of them uses up a node of the budget or comes nearer to
completion, and each generator starts over once. Hints that multiply options keep to no budget: they
lead from rule to rule, and where rules lead back to themselves they get a fixed allowance. -/
def depthBound (f : Fuzzer) (budget : Nat) : Nat :=
  let farthest := f.grammar.distances.values.foldl Nat.max 0
  let allowance :=
    if f.grammar.settings.any fun s => s.overrides.multipleOption.isSome then 20000 else 0
  (budget + farthest + 2) * (f.grammar.generators.length + 1) +
    (f.grammar.rules.length + allowance)

/-- **A random tree with a symbol at its root**, within a budget. -/
def fuzzSymbol (f : Fuzzer) (name : String) (budget : Nat) : Attempt GrammarError Tree := do
  let name := bareName name
  let _ ← f.grammar.rule name
  f.expandSymbol (f.depthBound budget) [] name none none budget false

/-- A random tree of the grammar. -/
def fuzz (f : Fuzzer) : Attempt GrammarError Tree :=
  f.fuzzSymbol f.grammar.start f.settings.maxNodes

end Fuzzer

end GrammarFuzzing
