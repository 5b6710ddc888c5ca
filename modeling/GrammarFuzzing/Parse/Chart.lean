import GrammarFuzzing.Parse.Flat

/-!
# The chart of a parse

Earley's algorithm. An **item** is a production with a dot in it and an origin: what stands before
the dot derives the input from the origin to the position of the item's set. The chart holds one set
of items for each position of the input, ends included, and the sets are closed from left to right:

* a literal after the dot moves the item past it, into the set where the literal ends;
* a goal after the dot adds the productions of the goal here, and moves the item on if the goal can
  derive nothing;
* a dot at the end moves on every item of the set of its origin that waits for the goal.

`GrammarFuzzing.Chart.of` is the chart of an input. It also remembers for every goal and origin at
which positions a derivation is complete, which is all that tree building asks for.
-/

namespace GrammarFuzzing

/-- A production, how many of its atoms are done, and where it started. -/
structure Item where
  production : Nat
  dot : Nat
  origin : Nat
  deriving DecidableEq, Hashable

/-- The item after one more atom. -/
def Item.advanced (i : Item) : Item :=
  { i with dot := i.dot + 1 }

/-- Items in the order in which they were found, each once. -/
structure ItemSet where
  items : Array Item
  seen : Std.HashSet Item

namespace ItemSet

/-- No items. -/
def empty : ItemSet :=
  ⟨#[], {}⟩

/-- The set with one more item. -/
def insert (s : ItemSet) (i : Item) : ItemSet :=
  if s.seen.contains i then s else ⟨s.items.push i, s.seen.insert i⟩

end ItemSet

/-- **A chart**: a set of items for each position, and the ends of complete derivations by goal and
origin, the greatest end first. -/
structure Chart where
  sets : Array ItemSet
  completed : Std.HashMap (Goal × Nat) (List Nat)

namespace Chart

/-- The chart with an item in the set of a position. -/
def add (c : Chart) (position : Nat) (i : Item) : Chart :=
  { c with sets := c.sets.modify position fun s => s.insert i }

/-- The chart with several items in the set of a position. -/
def addAll (c : Chart) (position : Nat) (is : List Item) : Chart :=
  is.foldl (fun c i => c.add position i) c

/-- The items at a position. -/
def itemsAt (c : Chart) (position : Nat) : Array Item :=
  (c.sets.getD position .empty).items

/-- The chart with one more complete derivation. Ends are found in increasing order. -/
def complete (c : Chart) (g : Goal) (origin stop : Nat) : Chart :=
  { c with completed := c.completed.alter (g, origin) fun
      | none => some [stop]
      | some ends => if ends.head? = some stop then some ends else some (stop :: ends) }

/-- Where derivations of a goal from an origin end, in increasing order. -/
def ends (c : Chart) (g : Goal) (origin : Nat) : List Nat :=
  (c.completed.getD (g, origin) []).reverse

/-- Whether a goal derives the input between two positions. -/
def spans (c : Chart) (g : Goal) (origin stop : Nat) : Bool :=
  (c.completed.getD (g, origin) []).contains stop

/-- The items at a position that wait for a goal. -/
def waiting (f : FlatGrammar) (c : Chart) (position : Nat) (g : Goal) : List Item :=
  (c.itemsAt position).toList.filter fun i =>
    match f.atomAt? i.production i.dot with
    | some (.goal h _ _) => h = g
    | _ => false

/-- Whether the input continues with these bytes at a position. -/
def bytesAt (input : Array UInt8) (position : Nat) : Bytes → Bool
  | [] => true
  | b :: rest => input[position]? = some b && bytesAt input (position + 1) rest

/-- What one item of the set at a position adds to the chart. -/
def process (f : FlatGrammar) (input : Array UInt8) (position : Nat) (i : Item) (c : Chart) :
    Chart :=
  match f.atomAt? i.production i.dot with
  | none =>
    match f.goalOf? i.production with
    | none => c
    | some g =>
      (c.complete g i.origin position).addAll position
        ((c.waiting f i.origin g).map Item.advanced)
  | some (.literal value) =>
    let bytes := value.toBytes
    if bytesAt input position bytes then c.add (position + bytes.length) i.advanced else c
  | some (.goal g _ _) =>
    let c := c.addAll position ((f.productionsOf g).map fun p => ⟨p, 0, position⟩)
    if f.nullable.contains g then c.add position i.advanced else c

/-- Processes the items of the set at a position from index `j` on, those included that are added on
the way. -/
def close (f : FlatGrammar) (input : Array UInt8) (position : Nat) : Nat → Nat → Chart → Chart
  | 0, _, c => c
  | fuel + 1, j, c =>
    match (c.itemsAt position)[j]? with
    | none => c
    | some i => close f input position fuel (j + 1) (c.process f input position i)

/-- The number of places for a dot in all productions. -/
def dottedCount (f : FlatGrammar) : Nat :=
  f.productions.foldl (fun n p => n + p.atoms.size + 1) 0

/-- **The chart of an input** for a goal. No set holds more items than there are places for a dot
times origins up to its position. -/
def of (f : FlatGrammar) (input : Array UInt8) (goal : Goal) : Chart :=
  let n := input.size
  let c : Chart := ⟨Array.replicate (n + 1) .empty, {}⟩
  let c := c.addAll 0 ((f.productionsOf goal).map fun p => ⟨p, 0, 0⟩)
  let dotted := dottedCount f
  (List.range (n + 1)).foldl
    (fun c position => close f input position (dotted * (position + 1) + 1) 0 c) c

/-- The last position that some item reached. -/
def furthest (c : Chart) : Nat :=
  ((List.range c.sets.size).reverse.find? fun i => !(c.itemsAt i).isEmpty).getD 0

/-- **Whether some derivation continues the input**: an item reached its end, or waits for a literal
that starts with all that is left of it. -/
def viable (f : FlatGrammar) (c : Chart) (input : Array UInt8) : Bool :=
  let n := input.size
  if n = 0 || !(c.itemsAt n).isEmpty then true
  else
    (List.range (n + 1)).any fun position =>
      let left := (input.toList.drop position)
      (c.itemsAt position).any fun i =>
        match f.atomAt? i.production i.dot with
        | some (.literal value) => left.isPrefixOf value.toBytes
        | _ => false

end Chart

end GrammarFuzzing
