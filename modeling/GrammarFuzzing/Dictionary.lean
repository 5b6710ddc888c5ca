/-!
# Dictionaries and sets in key order

A **dictionary** is a list of pairs in increasing order of their keys, and a **set** a list of
elements in increasing order. Both are plain lists, so what they hold is what one sees; the
insertion functions keep the order and hold each key once.
-/

namespace GrammarFuzzing

/-- Values by key, in increasing order of the keys. -/
abbrev Dictionary (κ β : Type) := List (κ × β)

namespace Dictionary

variable {κ β : Type} [Ord κ]

/-- The value of a key. -/
def find? : Dictionary κ β → κ → Option β
  | [], _ => none
  | (k, v) :: rest, key =>
    match compare k key with
    | .eq => some v
    | _ => find? rest key

/-- The dictionary with a value for a key, in place of an earlier one. -/
def put (key : κ) (value : β) : Dictionary κ β → Dictionary κ β
  | [] => [(key, value)]
  | (k, v) :: rest =>
    match compare key k with
    | .lt => (key, value) :: (k, v) :: rest
    | .eq => (key, value) :: rest
    | .gt => (k, v) :: put key value rest

/-- The dictionary of pairs; of several values for one key the last one counts. -/
def ofPairs (pairs : List (κ × β)) : Dictionary κ β :=
  pairs.foldl (fun d p => put p.1 p.2 d) []

/-- The keys in increasing order. -/
def keys (d : Dictionary κ β) : List κ :=
  d.map (·.1)

/-- The values in the order of their keys. -/
def values (d : Dictionary κ β) : List β :=
  d.map (·.2)

/-- Whether there is a value for a key. -/
def has (d : Dictionary κ β) (key : κ) : Bool :=
  (d.find? key).isSome

end Dictionary

namespace SortedSet

variable {α : Type} [Ord α]

/-- The set with one more element. -/
def insert (x : α) : List α → List α
  | [] => [x]
  | y :: rest =>
    match compare x y with
    | .lt => x :: y :: rest
    | .eq => y :: rest
    | .gt => y :: insert x rest

/-- The set of the elements of a list. -/
def ofList (xs : List α) : List α :=
  xs.foldl (fun s x => insert x s) []

/-- The union of two sets. -/
def union (s t : List α) : List α :=
  t.foldl (fun s x => insert x s) s

end SortedSet

end GrammarFuzzing
