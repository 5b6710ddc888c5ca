import GrammarFuzzing.Tree.Basic

/-!
# Trees as JSON

`GrammarFuzzing.Tree.toJson` writes a tree with all its marks; children, sources and parties are
left out where there are none. `GrammarFuzzing.Tree.ofJson?` reads it back: members may come in any
order, unknown ones are overlooked, and only the symbol is needed. A node may also be written as the
array of its parts in order.
-/

namespace GrammarFuzzing.Tree

/-- A member for a list that is not empty. -/
def listMember (name : String) (items : List Json) : List (String × Json) :=
  if items.isEmpty then [] else [(name, .array items)]

/-- A member for a text that is there. -/
def textMember (name : String) : Option String → List (String × Json)
  | none => []
  | some s => [(name, .string s)]

mutual

/-- **The tree as JSON.** -/
def toJson : Tree → Json
  | ⟨symbol, children, sources, sender, recipient, readOnly⟩ =>
    .object ([("symbol", symbol.toJson)] ++ listMember "children" (listToJson children) ++
      listMember "sources" (listToJson sources) ++ textMember "sender" sender ++
      textMember "recipient" recipient ++ [("read_only", .bool readOnly)])

/-- Several trees as JSON. -/
def listToJson : List Tree → List Json
  | [] => []
  | t :: rest => t.toJson :: listToJson rest

end

/-- The parts of a node that have been read so far. -/
structure Parts where
  symbol : Option Symbol := none
  children : Option (List Tree) := none
  sources : Option (List Tree) := none
  sender : Option (Option String) := none
  recipient : Option (Option String) := none
  readOnly : Option Bool := none

namespace Parts

/-- The node that the parts make up. -/
def toTree? (p : Parts) : Option Tree :=
  p.symbol.map fun symbol =>
    ⟨symbol, p.children.getD [], p.sources.getD [], p.sender.getD none, p.recipient.getD none,
      p.readOnly.getD false⟩

/-- A part that is read for the first time. -/
def once {α : Type} (old : Option α) (new : Option α) : Option (Option α) :=
  match old, new with
  | none, some a => some (some a)
  | _, _ => none

/-- One more part that holds no trees. Parts with other names change nothing. -/
def put? (p : Parts) (name : String) (x : Json) : Option Parts :=
  match name with
  | "symbol" => (once p.symbol (Symbol.ofJson? x)).map fun a => { p with symbol := a }
  | "sender" => (once p.sender (x.nullable? Json.string?)).map fun a => { p with sender := a }
  | "recipient" =>
    (once p.recipient (x.nullable? Json.string?)).map fun a => { p with recipient := a }
  | "read_only" => (once p.readOnly x.bool?).map fun a => { p with readOnly := a }
  | _ => some p

end Parts

/-- The names of the parts of a node, in the order of the array form. -/
def partNames : List String :=
  ["symbol", "children", "sources", "sender", "recipient", "read_only"]

mutual

/-- **The tree that JSON writes.** -/
def ofJson? : Json → Option Tree
  | .object ms => (ofMembers? {} ms).bind Parts.toTree?
  | .array xs => (ofPositions? {} partNames xs).bind Parts.toTree?
  | _ => none

/-- Several trees out of JSON. -/
def listOfJson? : List Json → Option (List Tree)
  | [] => some []
  | x :: rest =>
    match ofJson? x, listOfJson? rest with
    | some t, some ts => some (t :: ts)
    | _, _ => none

/-- A list of trees out of an array. -/
def ofArray? : Json → Option (List Tree)
  | .array xs => listOfJson? xs
  | _ => none

/-- The parts that the members of an object write. -/
def ofMembers? (p : Parts) : List (String × Json) → Option Parts
  | [] => some p
  | (name, x) :: rest =>
    match name with
    | "children" =>
      match Parts.once p.children (ofArray? x) with
      | some a => ofMembers? { p with children := a } rest
      | none => none
    | "sources" =>
      match Parts.once p.sources (ofArray? x) with
      | some a => ofMembers? { p with sources := a } rest
      | none => none
    | name =>
      match p.put? name x with
      | some p => ofMembers? p rest
      | none => none

/-- The parts that the items of an array write, in the order of the given names. -/
def ofPositions? (p : Parts) (names : List String) : List Json → Option Parts
  | [] => some p
  | x :: rest =>
    match names with
    | [] => none
    | "children" :: names =>
      match Parts.once p.children (ofArray? x) with
      | some a => ofPositions? { p with children := a } names rest
      | none => none
    | "sources" :: names =>
      match Parts.once p.sources (ofArray? x) with
      | some a => ofPositions? { p with sources := a } names rest
      | none => none
    | name :: names =>
      match p.put? name x with
      | some p => ofPositions? p names rest
      | none => none

end

end GrammarFuzzing.Tree
