import GrammarFuzzing.Parse.Chart
import GrammarFuzzing.Tree.Basic

/-!
# Trees out of a chart

A finished chart tells which goals derive which parts of the input; this file searches it for one
derivation and builds its tree.

* `GrammarFuzzing.Search.goalChildren` – the children that a goal derives between two positions:
  the first alternative that works, in the order of the grammar. A goal is never looked for inside
  itself at the same place, which cuts cycles short;
* `GrammarFuzzing.Search.atomsChildren` – the same for the atoms of an alternative. What follows an
  atom is searched before the atom itself, from the nearest end of the atom on;
* `GrammarFuzzing.Search.partialGoal` – children for an input that ends before the derivation does.

What has failed once is remembered and not searched again. The searches are put together from
`GrammarFuzzing.Search.otherwise`, `.first`, `.guarded`, `.noting`, `.during` and `.before`, which
are all that touches the state.
-/

namespace GrammarFuzzing

/-- What a search has found out. -/
structure SearchState where
  failedGoals : Std.HashSet (Goal × Nat × Nat) := {}
  activeGoals : Std.HashSet (Goal × Nat × Nat) := {}
  failedAtoms : Std.HashSet (Nat × Nat × Nat × Nat) := {}
  failedPartials : Std.HashSet (Goal × Nat) := {}
  activePartials : Std.HashSet (Goal × Nat) := {}

namespace SearchState

/-- A goal has failed between two positions. -/
def failGoal (key : Goal × Nat × Nat) (s : SearchState) : SearchState :=
  { s with failedGoals := s.failedGoals.insert key }

/-- A goal is being looked for between two positions. -/
def enterGoal (key : Goal × Nat × Nat) (s : SearchState) : SearchState :=
  { s with activeGoals := s.activeGoals.insert key }

/-- A goal is not being looked for any more. -/
def leaveGoal (key : Goal × Nat × Nat) (s : SearchState) : SearchState :=
  { s with activeGoals := s.activeGoals.erase key }

/-- The atoms of a production after a dot have failed between two positions. -/
def failAtoms (key : Nat × Nat × Nat × Nat) (s : SearchState) : SearchState :=
  { s with failedAtoms := s.failedAtoms.insert key }

/-- A goal has failed from a position on. -/
def failPartial (key : Goal × Nat) (s : SearchState) : SearchState :=
  { s with failedPartials := s.failedPartials.insert key }

/-- A goal is being looked for from a position on. -/
def enterPartial (key : Goal × Nat) (s : SearchState) : SearchState :=
  { s with activePartials := s.activePartials.insert key }

/-- A goal is not being looked for from a position on any more. -/
def leavePartial (key : Goal × Nat) (s : SearchState) : SearchState :=
  { s with activePartials := s.activePartials.erase key }

end SearchState

/-- A search: children if it succeeds. -/
abbrev Search :=
  StateM SearchState (Option (List Tree))

namespace Search

/-- Another search if a search fails. -/
def otherwise (search next : Search) : Search := do
  match ← search with
  | some ts => return some ts
  | none => next

/-- The first search of a list that succeeds. -/
def first {α : Type} (f : α → Search) : List α → Search
  | [] => return none
  | a :: rest => otherwise (f a) (first f rest)

/-- A search that is not even begun when it is known to be hopeless. -/
def guarded (hopeless : SearchState → Bool) (search : Search) : Search := do
  if hopeless (← get) then return none else search

/-- A search whose failure is noted. -/
def noting (note : SearchState → SearchState) (search : Search) : Search := do
  match ← search with
  | some ts => return some ts
  | none =>
    modify note
    return none

/-- A search in a state that is entered before and left after it. -/
def during (enter leave : SearchState → SearchState) (search : Search) : Search := do
  modify enter
  let found ← search
  modify leave
  return found

/-- The children of two searches in a row. The one for what comes after goes first. -/
def before (head tail : Search) : Search := do
  match ← tail with
  | none => return none
  | some after => return (← head).map (· ++ after)

/-- The children that a goal contributes: a named goal is a node, any other goal dissolves. -/
def wrap (g : Goal) (sender recipient : Option String) (children : List Tree) : List Tree :=
  match g with
  | .named name => [⟨.named name, children, [], sender, recipient, false⟩]
  | _ => children

/-- A search for what a goal contributes. -/
def wrapped (g : Goal) (sender recipient : Option String) (search : Search) : Search :=
  return (← search).map (wrap g sender recipient)

/-- The search of the alternatives of a goal, given how the atoms of a production are searched. -/
def alternatives (f : FlatGrammar) (atoms : Nat → Production → Search) (g : Goal) : Search :=
  first (fun p =>
    match f.productions[p]? with
    | none => return none
    | some production => atoms p production) (f.productionsOf g)

/-- **The children that atoms derive between two positions.** The number of the production and how
many of its atoms came before identify a search that failed. -/
def atomsChildren (chart : Chart) (input : Array UInt8) (child : Goal → Nat → Nat → Search)
    (production : Nat) : List Atom → Nat → Nat → Nat → Search
  | [], _, start, stop => return if start = stop then some [] else none
  | atom :: rest, dot, start, stop =>
    let key := (production, dot, start, stop)
    guarded (fun s => s.failedAtoms.contains key) <| noting (SearchState.failAtoms key) <|
      match atom with
      | .literal value =>
        let bytes := value.toBytes
        let middle := start + bytes.length
        if middle ≤ stop && Chart.bytesAt input start bytes then
          before (return some [Tree.leaf value])
            (atomsChildren chart input child production rest (dot + 1) middle stop)
        else return none
      | .goal g sender recipient =>
        first (fun middle =>
          before (wrapped g sender recipient (child g start middle))
            (atomsChildren chart input child production rest (dot + 1) middle stop))
          ((chart.ends g start).takeWhile (· ≤ stop))

/-- **The children that a goal derives between two positions.** The first number bounds how deeply
goals are nested. -/
def goalChildren (f : FlatGrammar) (chart : Chart) (input : Array UInt8) :
    Nat → Goal → Nat → Nat → Search
  | 0, _, _, _ => return none
  | depth + 1, g, start, stop =>
    let key := (g, start, stop)
    guarded (fun s => s.failedGoals.contains key || s.activeGoals.contains key ||
        !chart.spans g start stop) <|
      noting (SearchState.failGoal key) <|
        during (SearchState.enterGoal key) (SearchState.leaveGoal key) <|
          alternatives f (fun p production =>
            atomsChildren chart input (goalChildren f chart input depth) p production.atoms.toList
              0 start stop) g

/-- A literal of which only the first bytes are there: text if they are text, and bytes
otherwise. -/
def cutLiteral (value : Literal) (bytes : Bytes) : Literal :=
  match value, Utf8.decode? bytes with
  | .text _, some s => .text s
  | _, _ => .bytes bytes

/-- **The children that atoms derive from a position on, as far as the input goes.** -/
def partialAtoms (chart : Chart) (input : Array UInt8) (child : Goal → Nat → Nat → Search)
    (partialChild : Goal → Nat → Search) (atoms : List Atom) (start : Nat) : Search :=
  if start = input.size then return some []
  else
    match atoms with
    | [] => return none
    | .literal value :: rest =>
      let bytes := value.toBytes
      let left := input.toList.drop start
      if bytes.isPrefixOf left then
        before (return some [Tree.leaf value])
          (partialAtoms chart input child partialChild rest (start + bytes.length))
      else if left.isPrefixOf bytes then return some [Tree.leaf (cutLiteral value left)]
      else return none
    | .goal g sender recipient :: rest =>
      otherwise
        (first (fun middle =>
          before (wrapped g sender recipient (child g start middle))
            (partialAtoms chart input child partialChild rest middle))
          (chart.ends g start))
        (wrapped g sender recipient (partialChild g start))

/-- **The children that a goal derives from a position on, as far as the input goes.** The first
number bounds how deeply unfinished goals are nested. -/
def partialGoal (f : FlatGrammar) (chart : Chart) (input : Array UInt8)
    (child : Goal → Nat → Nat → Search) : Nat → Goal → Nat → Search
  | 0, _, _ => return none
  | depth + 1, g, start =>
    let key := (g, start)
    guarded (fun s => s.failedPartials.contains key || s.activePartials.contains key) <|
      noting (SearchState.failPartial key) <|
        during (SearchState.enterPartial key) (SearchState.leavePartial key) <|
          alternatives f (fun _ production =>
            partialAtoms chart input child (partialGoal f chart input child depth)
              production.atoms.toList start) g

end Search

end GrammarFuzzing
