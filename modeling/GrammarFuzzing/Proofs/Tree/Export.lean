import GrammarFuzzing.Tree.Export

/-!
# An exported tree is read back

`GrammarFuzzing.Tree.toJson` leaves out lists without trees and parties that are not there, and
`GrammarFuzzing.Tree.ofJson?` fills in what is missing. The two have to agree part by part: for a
part that is left out, what is filled in must be the part.

Reading an object goes on from one member to the next with the parts that were read so far. So for
each part there is one law: a reader that has not met the part yet takes in what the part is written
as, whatever follows it (`GrammarFuzzing.Tree.ofMembers?_children`, and so on). After a part that is
left out it still has not met it, which is why a law speaks of what the reader has
(`GrammarFuzzing.Tree.ifAny`) and not of the part. Trees inside a tree are read back by induction,
those among its sources as well as its children.
-/

namespace GrammarFuzzing

/-! ### Symbols -/

namespace Literal

/-- A byte is read back from its number. -/
theorem natBelow?_toNat (b : UInt8) :
    ((Json.int b.toNat).natBelow? 256).map UInt8.ofNat = some b := by
  have hlt : (b.toNat : Int) < 256 := by
    have := b.toNat_lt
    omega
  rw [Json.natBelow?, if_pos ⟨Int.natCast_nonneg _, hlt⟩, Option.map_some, Int.toNat_natCast,
    UInt8.ofNat_toNat]

/-- **Bytes are read back from their numbers.** -/
theorem bytesOfJson?_ofNats (bs : Bytes) :
    bytesOfJson? (.ofNats (bs.map UInt8.toNat)) = some bs := by
  rw [bytesOfJson?, Json.list?, Json.ofNats, Json.items?, Option.bind_some]
  induction bs with
  | nil => rfl
  | cons b bs ih =>
    rw [List.map_cons, List.map_cons, List.mapM_cons, natBelow?_toNat, ih]
    rfl

theorem ofJson?_toJson (l : Literal) : ofJson? l.toJson = some l := by
  cases l with
  | text s => rfl
  | bytes bs => exact congrArg (Option.map bytes) (bytesOfJson?_ofNats bs)

end Literal

/-- **A symbol is read back.** -/
theorem Symbol.ofJson?_toJson (s : Symbol) : ofJson? s.toJson = some s := by
  cases s with
  | terminal l => exact congrArg (Option.map terminal) (Literal.ofJson?_toJson l)
  | nonTerminal name => rfl
  | slice => rfl

namespace Tree

/-! ### Parts of a node -/

/-- What a reader has of a list that is left out when nothing is in it. -/
def ifAny (ts : List Tree) : Option (List Tree) :=
  if ts.isEmpty then none else some ts

/-- Nothing is lost by leaving out the empty list. -/
@[simp] theorem getD_ifAny (ts : List Tree) : (ifAny ts).getD [] = ts := by
  cases ts <;> rfl

section Members

variable {p : Parts} {rest : List (String × Json)} {ts : List Tree}

/-- A member that holds no trees is taken in as one part. -/
theorem ofMembers?_put {q : Parts} {name : String} {x : Json} (hchildren : name ≠ "children")
    (hsources : name ≠ "sources") (h : p.put? name x = some q) :
    ofMembers? p ((name, x) :: rest) = ofMembers? q rest := by
  rw [ofMembers?, h]
  · exact hchildren
  · exact hsources

theorem ofMembers?_symbol (hp : p.symbol = none) (s : Symbol) :
    ofMembers? p (("symbol", s.toJson) :: rest) = ofMembers? { p with symbol := some s } rest := by
  refine ofMembers?_put (by decide) (by decide) ?_
  rw [Parts.put?, hp, Symbol.ofJson?_toJson]
  rfl

/-- **The children are taken in**, if trees are read back from how they are written. -/
theorem ofMembers?_children (hp : p.children = none)
    (hts : listOfJson? (listToJson ts) = some ts) :
    ofMembers? p (listMember "children" (listToJson ts) ++ rest) =
      ofMembers? { p with children := ifAny ts } rest := by
  cases ts with
  | nil =>
    cases p
    cases hp
    rfl
  | cons t ts =>
    rw [listMember, listToJson, List.isEmpty_cons, if_neg Bool.false_ne_true, List.singleton_append,
      ofMembers?, hp, ofArray?, ← listToJson, hts]
    rfl

/-- **The sources are taken in**, just as the children are. -/
theorem ofMembers?_sources (hp : p.sources = none) (hts : listOfJson? (listToJson ts) = some ts) :
    ofMembers? p (listMember "sources" (listToJson ts) ++ rest) =
      ofMembers? { p with sources := ifAny ts } rest := by
  cases ts with
  | nil =>
    cases p
    cases hp
    rfl
  | cons t ts =>
    rw [listMember, listToJson, List.isEmpty_cons, if_neg Bool.false_ne_true, List.singleton_append,
      ofMembers?, hp, ofArray?, ← listToJson, hts]
    rfl

theorem ofMembers?_sender (hp : p.sender = none) (party : Option String) :
    ofMembers? p (textMember "sender" party ++ rest) =
      ofMembers? { p with sender := party.map some } rest := by
  cases party with
  | none =>
    cases p
    cases hp
    rfl
  | some s =>
    refine ofMembers?_put (by decide) (by decide) ?_
    rw [Parts.put?, hp]
    rfl

theorem ofMembers?_recipient (hp : p.recipient = none) (party : Option String) :
    ofMembers? p (textMember "recipient" party ++ rest) =
      ofMembers? { p with recipient := party.map some } rest := by
  cases party with
  | none =>
    cases p
    cases hp
    rfl
  | some s =>
    refine ofMembers?_put (by decide) (by decide) ?_
    rw [Parts.put?, hp]
    rfl

theorem ofMembers?_readOnly (hp : p.readOnly = none) (b : Bool) :
    ofMembers? p [("read_only", .bool b)] = some { p with readOnly := some b } := by
  rw [ofMembers?_put (by decide) (by decide) (by rw [Parts.put?, hp]; rfl), ofMembers?]

end Members

/-! ### Whole trees -/

mutual

/-- **A tree is read back from its export**, with all its parts. -/
theorem ofJson?_toJson : ∀ t : Tree, ofJson? t.toJson = some t
  | ⟨symbol, children, sources, sender, recipient, readOnly⟩ => by
    have hchildren := listOfJson?_listToJson children
    have hsources := listOfJson?_listToJson sources
    rw [toJson, ofJson?]
    simp only [List.append_assoc, List.cons_append, List.nil_append]
    rw [ofMembers?_symbol rfl, ofMembers?_children rfl hchildren, ofMembers?_sources rfl hsources,
      ofMembers?_sender rfl, ofMembers?_recipient rfl, ofMembers?_readOnly rfl, Option.bind_some,
      Parts.toTree?]
    cases sender <;> cases recipient <;> simp

theorem listOfJson?_listToJson : ∀ ts : List Tree, listOfJson? (listToJson ts) = some ts
  | [] => by rw [listToJson, listOfJson?]
  | t :: ts => by
    rw [listToJson, listOfJson?, ofJson?_toJson t, listOfJson?_listToJson ts]

end

/-- **Whether a part of a tree is written.** A list is if there is a tree in it, and a party if it
is there. -/
def writes (t : Tree) : String → Bool
  | "children" => !t.children.isEmpty
  | "sources" => !t.sources.isEmpty
  | "sender" => t.sender.isSome
  | "recipient" => t.recipient.isSome
  | _ => true

theorem isEmpty_listToJson (ts : List Tree) : (listToJson ts).isEmpty = ts.isEmpty := by
  cases ts with
  | nil =>
    rw [listToJson]
    rfl
  | cons t ts => rw [listToJson, List.isEmpty_cons, List.isEmpty_cons]

/-- **The export of a tree is an object with exactly the parts that are written**, in their
order. -/
theorem exists_members_toJson (t : Tree) :
    ∃ members, t.toJson = .object members ∧ members.map (·.1) = partNames.filter t.writes := by
  obtain ⟨symbol, children, sources, sender, recipient, readOnly⟩ := t
  refine ⟨_, by rw [toJson], ?_⟩
  simp only [listMember, isEmpty_listToJson]
  cases children <;> cases sources <;> cases sender <;> cases recipient <;> rfl

/-- **Export loses nothing.** Whatever a tree holds, at any depth, it is read back from its export,
which leaves out exactly the lists without trees and the parties that are not there. -/
theorem reads_back_export (t : Tree) : ofJson? t.toJson = some t ∧
    ∃ members, t.toJson = .object members ∧ members.map (·.1) = partNames.filter t.writes :=
  ⟨ofJson?_toJson t, exists_members_toJson t⟩

end Tree

end GrammarFuzzing
