import GrammarFuzzing.Graph.Basic

/-!
# Cheapest walks

`GrammarFuzzing.Graph.search` looks for the cheapest walk from a place to a goal. Of walks of the
same cost it finds one with the fewest edges, and of those the one that was found first when the
places after each place are tried in order.

The search keeps the best **way** to each place that it has found so far, and a **frontier** of
entries for places that are to be looked at, the least effort first. When a place is looked at, the
ways to the places after it are taken over wherever they are new or better, and each of these gets
another entry. An entry whose place has got a better way since is **stale** and is passed over.

The start has no way to it at first, so a walk may come back to it and find it like any other place.
What stands for the start before that is no place at all, `none`.
-/

namespace GrammarFuzzing

/-- **What a walk takes**: first its cost, then its edges. -/
structure Effort where
  cost : Nat
  steps : Nat
  deriving DecidableEq

/-- Whether an effort is no greater than another one. -/
def Effort.le (a b : Effort) : Bool :=
  a.cost < b.cost || (a.cost = b.cost && a.steps ≤ b.steps)

/-- **The best way to a place** so far, by the place before it; there is none after the start. -/
structure Way where
  effort : Effort
  parent : Option Vertex

/-- A place to be looked at, or the start, and what a walk over it is expected to take. -/
structure FrontierEntry where
  effort : Effort
  place : Option Vertex
  deriving DecidableEq

/-- Adds an entry after all those that take no more. -/
def FrontierEntry.enqueue (e : FrontierEntry) : List FrontierEntry → List FrontierEntry
  | [] => [e]
  | x :: rest => if x.effort.le e.effort then x :: e.enqueue rest else e :: x :: rest

/-- **How far a search has come.** -/
structure Exploration where
  ways : Dictionary Vertex Way
  frontier : List FrontierEntry

namespace Exploration

/-- The best way to a place, or to the start. -/
def way? (s : Exploration) : Option Vertex → Option Way
  | some v => s.ways.find? v
  | none => some ⟨⟨0, 0⟩, none⟩

/-- The places on the best way, which are no more than a number. -/
def places (s : Exploration) (start : Vertex) : Nat → Option Vertex → Option (List Vertex)
  | 0, _ => none
  | _ + 1, none => some [start]
  | most + 1, some v =>
    (s.ways.find? v).bind fun w => (s.places start most w.parent).map (· ++ [v])

end Exploration

namespace Graph

/-- What the cost of the walk from a place to a goal is estimated at: the least of all estimates. -/
def estimate (_ : Graph) (_ : Vertex) : Nat :=
  0

/-- What a walk is expected to take that has come to a place. -/
def expected (g : Graph) (v : Vertex) (a : Effort) : Effort :=
  ⟨a.cost + g.estimate v, a.steps⟩

/-- What a walk takes with one more place. -/
def extend (g : Graph) (v : Vertex) (a : Effort) : Effort :=
  ⟨a.cost + g.cost v, a.steps + 1⟩

/-- Takes over the way from one place to the next one, unless there is one that takes no more. -/
def relax (g : Graph) (place : Option Vertex) (a : Effort) (s : Exploration) (next : Vertex) :
    Exploration :=
  let effort := g.extend next a
  if (s.ways.find? next).any fun w => w.effort.le effort then s
  else
    ⟨s.ways.put next ⟨effort, place⟩,
      FrontierEntry.enqueue ⟨g.expected next effort, some next⟩ s.frontier⟩

/-- **The rounds of a search**, each of which looks at the first entry of the frontier, until that
is for a goal or there are no more. There may be too few rounds for that. -/
def explore (g : Graph) (start : Vertex) (isGoal : Vertex → Bool) :
    Nat → Exploration → Option (Exploration × Option Vertex)
  | 0, _ => none
  | rounds + 1, s =>
    match s.frontier with
    | [] => some (s, none)
    | e :: rest =>
      let s := { s with frontier := rest }
      let v := e.place.getD start
      match (s.way? e.place).filter fun w => e.effort = g.expected v w.effort with
      | none => g.explore start isGoal rounds s
      | some w =>
        if e.place.any isGoal then some (s, e.place)
        else g.explore start isGoal rounds ((g.successors v).foldl (g.relax e.place w.effort) s)

/-- How many rounds are enough: each place is looked at once, and the start may be once more. -/
def enoughRounds (g : Graph) : Nat :=
  2 * g.size + 2

/-- A search that has found nothing but its start. -/
def setOut (g : Graph) (start : Vertex) : Exploration :=
  ⟨[], [⟨g.expected start ⟨0, 0⟩, none⟩]⟩

/-- **The cheapest walk to a goal** and its cost. A walk has at least one edge; coming back to the
start counts. -/
def search (g : Graph) (start : Vertex) (isGoal : Vertex → Bool) : Option (List Vertex × Nat) := do
  let (s, goal) ← g.explore start isGoal g.enoughRounds (g.setOut start)
  let v ← goal
  let w ← s.ways.find? v
  let places ← s.places start (w.effort.steps + 1) v
  return (places, w.effort.cost)

/-- The cheapest walk from a node to a terminal with the same value as another one. -/
def shortestPath (g : Graph) (start goal : Nat) : Option (List Vertex × Nat) :=
  (g.terminals.find? goal).bind fun value => g.search (.node start) (g.holds value)

/-- The places that were found and whatever can be found from pending ones, without passing through
those that stop the search. Each place is pending once, so the number of edges bounds the rounds. -/
def spread (g : Graph) (stops : Vertex → Bool) :
    Nat → List Vertex → List Vertex → List Vertex
  | 0, seen, _ => seen
  | _, seen, [] => seen
  | rounds + 1, seen, v :: pending =>
    let fresh := (g.successors v).filter fun w => !seen.contains w
    spread g stops rounds (seen ++ fresh) (pending ++ fresh.filter fun w => !stops w)

/-- **The places that can come after a place** without passing through those that stop the search,
which are found themselves. -/
def after (g : Graph) (stops : Vertex → Bool) (start : Vertex) : List Vertex :=
  g.spread stops (g.size + 2) [] [start]

end Graph

end GrammarFuzzing
