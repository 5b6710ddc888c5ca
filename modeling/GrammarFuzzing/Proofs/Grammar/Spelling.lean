import GrammarFuzzing.Proofs.Grammar.Matching
import Mathlib.Data.List.Forall2

/-!
# The leaves that a node spells

A node of a rule stands for lists of children, and each child comes out of one leaf of the node: a
terminal, a set of characters or a reference. `GrammarFuzzing.Node.Spells` keeps the leaves and
forgets the children: a sequence spells what its parts spell one after the other, a choice what one
of its options spells, and a repetition copies of what its body spells. A match is a list of
children that corresponds to a spelled list of leaves (`GrammarFuzzing.Node.matches_iff_lifts`).

So whatever is said of the children of a node, leaf by leaf, is said with the one relation
`GrammarFuzzing.Lifts`: that a list corresponds, element by element, to one with a property. It goes
through appending, alternatives and copies, which is all that sequences, choices and repetitions
need.
-/

namespace GrammarFuzzing

/-! ### Corresponding lists -/

/-- **The lists that correspond, element by element, to a list with a property.** -/
def Lifts {α β : Type} (R : α → β → Prop) (P : List α → Prop) (cs : List β) : Prop :=
  ∃ ls, P ls ∧ List.Forall₂ R ls cs

section Lifts

variable {α β γ : Type} {R : α → β → Prop} {P Q : List α → Prop} {cs : List β}

theorem lifts_nil : Lifts R (fun ls => ls = []) cs ↔ cs = [] := by
  constructor
  · rintro ⟨ls, rfl, hcs⟩
    exact List.forall₂_nil_left_iff.mp hcs
  · rintro rfl
    exact ⟨[], rfl, .nil⟩

theorem lifts_singleton {a : α} : Lifts R (fun ls => ls = [a]) cs ↔ ∃ c, cs = [c] ∧ R a c := by
  constructor
  · rintro ⟨ls, rfl, hcs⟩
    obtain ⟨c, ds, hc, hds, rfl⟩ := List.forall₂_cons_left_iff.mp hcs
    obtain rfl := List.forall₂_nil_left_iff.mp hds
    exact ⟨c, rfl, hc⟩
  · rintro ⟨c, rfl, hc⟩
    exact ⟨[a], rfl, .cons hc .nil⟩

theorem forall₂_append_left {as bs : List α} :
    List.Forall₂ R (as ++ bs) cs ↔
      ∃ ds es, cs = ds ++ es ∧ List.Forall₂ R as ds ∧ List.Forall₂ R bs es := by
  constructor
  · intro h
    induction as generalizing cs with
    | nil => exact ⟨[], cs, rfl, .nil, h⟩
    | cons a as ih =>
      obtain ⟨c, cs, hc, hcs, rfl⟩ := List.forall₂_cons_left_iff.mp h
      obtain ⟨ds, es, rfl, hds, hes⟩ := ih hcs
      exact ⟨c :: ds, es, rfl, .cons hc hds, hes⟩
  · rintro ⟨ds, es, rfl, hds, hes⟩
    exact List.rel_append hds hes

theorem lifts_append :
    Lifts R (fun ls => ∃ as bs, ls = as ++ bs ∧ P as ∧ Q bs) cs ↔
      ∃ ds es, cs = ds ++ es ∧ Lifts R P ds ∧ Lifts R Q es := by
  constructor
  · rintro ⟨ls, ⟨as, bs, rfl, has, hbs⟩, hcs⟩
    obtain ⟨ds, es, rfl, hds, hes⟩ := forall₂_append_left.mp hcs
    exact ⟨ds, es, rfl, ⟨as, has, hds⟩, bs, hbs, hes⟩
  · rintro ⟨ds, es, rfl, ⟨as, has, hds⟩, bs, hbs, hes⟩
    exact ⟨as ++ bs, ⟨as, bs, rfl, has, hbs⟩, forall₂_append_left.mpr ⟨ds, es, rfl, hds, hes⟩⟩

theorem lifts_or : Lifts R (fun ls => P ls ∨ Q ls) cs ↔ Lifts R P cs ∨ Lifts R Q cs := by
  constructor
  · rintro ⟨ls, h | h, hcs⟩
    · exact Or.inl ⟨ls, h, hcs⟩
    · exact Or.inr ⟨ls, h, hcs⟩
  · rintro (⟨ls, h, hcs⟩ | ⟨ls, h, hcs⟩)
    · exact ⟨ls, Or.inl h, hcs⟩
    · exact ⟨ls, Or.inr h, hcs⟩

theorem lifts_exists {ι : Type} {P : ι → List α → Prop} :
    Lifts R (fun ls => ∃ i, P i ls) cs ↔ ∃ i, Lifts R (P i) cs := by
  constructor
  · rintro ⟨ls, ⟨i, h⟩, hcs⟩
    exact ⟨i, ls, h, hcs⟩
  · rintro ⟨i, ls, h, hcs⟩
    exact ⟨ls, ⟨i, h⟩, hcs⟩

theorem lifts_and {p : Prop} : Lifts R (fun ls => p ∧ P ls) cs ↔ p ∧ Lifts R P cs := by
  constructor
  · rintro ⟨ls, ⟨hp, h⟩, hcs⟩
    exact ⟨hp, ls, h, hcs⟩
  · rintro ⟨hp, ls, h, hcs⟩
    exact ⟨ls, ⟨hp, h⟩, hcs⟩

theorem lifts_copies : ∀ {k : Nat} {cs : List β},
    Lifts R (Node.Copies P k) cs ↔ Node.Copies (Lifts R P) k cs
  | 0, _ => lifts_nil
  | k + 1, cs => by
    rw [show Node.Copies P (k + 1) = fun ls => ∃ as bs, ls = as ++ bs ∧ P as ∧ Node.Copies P k bs
      from rfl, lifts_append]
    simp only [Node.Copies, lifts_copies (k := k)]

theorem forall₂_congr_of_mem {S : α → β → Prop} {ls : List α}
    (h : ∀ l ∈ ls, ∀ c, R l c ↔ S l c) : List.Forall₂ R ls cs ↔ List.Forall₂ S ls cs := by
  induction ls generalizing cs with
  | nil => simp only [List.forall₂_nil_left_iff]
  | cons l ls ih =>
    rw [List.forall_mem_cons] at h
    simp only [List.forall₂_cons_left_iff, h.1, ih h.2]

theorem lifts_congr {S : α → β → Prop} (h : ∀ ls, P ls → ∀ l ∈ ls, ∀ c, R l c ↔ S l c) :
    Lifts R P cs ↔ Lifts S P cs :=
  exists_congr fun ls => and_congr_right fun hls => forall₂_congr_of_mem (h ls hls)

/-- Lists correspond to lists by way of others. -/
theorem lifts_lifts {S : β → γ → Prop} {es : List γ} :
    Lifts S (Lifts R P) es ↔ Lifts (fun a c => ∃ b, R a b ∧ S b c) P es := by
  constructor
  · rintro ⟨cs, ⟨ls, hls, hcs⟩, hes⟩
    refine ⟨ls, hls, ?_⟩
    clear hls
    induction hcs generalizing es with
    | nil =>
      obtain rfl := List.forall₂_nil_left_iff.mp hes
      exact .nil
    | cons hc _ ih =>
      obtain ⟨e, fs, he, hfs, rfl⟩ := List.forall₂_cons_left_iff.mp hes
      exact .cons ⟨_, hc, he⟩ (ih hfs)
  · rintro ⟨ls, hls, hes⟩
    suffices h : ∃ cs, List.Forall₂ R ls cs ∧ List.Forall₂ S cs es by
      obtain ⟨cs, hcs, hes⟩ := h
      exact ⟨cs, ⟨ls, hls, hcs⟩, hes⟩
    clear hls
    induction hes with
    | nil => exact ⟨[], .nil, .nil⟩
    | cons h _ ih =>
      obtain ⟨b, hb, hc⟩ := h
      obtain ⟨cs, hcs, hes⟩ := ih
      exact ⟨b :: cs, .cons hb hcs, .cons hc hes⟩

end Lifts

namespace Node

/-! ### Spelling -/

mutual

/-- **The lists of leaves that a node spells.** -/
def Spells : Node → List Node → Prop
  | .terminal id value, ls => ls = [.terminal id value]
  | .charset id chars, ls => ls = [.charset id chars]
  | .reference id name sender recipient, ls => ls = [.reference id name sender recipient]
  | .sequence _ parts, ls => SpellsAll parts ls
  | .choice _ options, ls => SpellsSome options ls
  | .repetition _ body min max _, ls =>
    ∃ k, min ≤ k ∧ (∀ m, max = some m → k ≤ m) ∧ Copies (fun ks => Spells body ks) k ls

/-- The lists of leaves that nodes spell one after the other. -/
def SpellsAll : List Node → List Node → Prop
  | [], ls => ls = []
  | n :: rest, ls => ∃ ks ms, ls = ks ++ ms ∧ Spells n ks ∧ SpellsAll rest ms

/-- The lists of leaves that one of several nodes spells. -/
def SpellsSome : List Node → List Node → Prop
  | [], _ => False
  | n :: rest, ls => Spells n ls ∨ SpellsSome rest ls

end

/-- A child is what a leaf stands for. -/
def Admits : Node → Tree → Prop
  | .terminal _ value, c => isLiteral value c = true
  | .charset _ chars, c => isOneOf chars c = true
  | .reference _ name _ _, c => isNamed name c = true
  | _, _ => False

mutual

/-- **A node matches the lists of children that correspond to the leaves it spells.** -/
theorem matches_iff_lifts : ∀ {n : Node} {cs : List Tree}, n.Matches cs ↔ Lifts Admits n.Spells cs
  | .terminal _ _, _ | .charset _ _, _ | .reference _ _ _ _, _ => by
    simp only [Matches, Spells, lifts_singleton, Admits]
  | .sequence _ parts, _ => by
    simp only [Matches, Spells, matchesAll_iff_lifts]
  | .choice _ options, _ => by
    simp only [Matches, Spells, matchesSome_iff_lifts]
  | .repetition _ body min max _, _ => by
    simp only [Matches, Spells, lifts_exists, lifts_and, lifts_copies, matches_iff_lifts]

theorem matchesAll_iff_lifts : ∀ {ns : List Node} {cs : List Tree},
    MatchesAll ns cs ↔ Lifts Admits (SpellsAll ns) cs
  | [], _ => lifts_nil.symm
  | n :: ns, cs => by
    rw [MatchesAll, show SpellsAll (n :: ns) = fun ls => ∃ ks ms, ls = ks ++ ms ∧ Spells n ks ∧
      SpellsAll ns ms from rfl, lifts_append]
    simp only [matches_iff_lifts, matchesAll_iff_lifts]

theorem matchesSome_iff_lifts : ∀ {ns : List Node} {cs : List Tree},
    MatchesSome ns cs ↔ Lifts Admits (SpellsSome ns) cs
  | [], _ => by simp [MatchesSome, SpellsSome, Lifts]
  | n :: ns, cs => by
    rw [MatchesSome, show SpellsSome (n :: ns) = fun ls => Spells n ls ∨ SpellsSome ns ls from rfl,
      lifts_or, matches_iff_lifts, matchesSome_iff_lifts]

end

/-! ### What is spelled -/

/-- A terminal, a set of characters or a reference. -/
def IsLeaf : Node → Prop
  | .terminal .. | .charset .. | .reference .. => True
  | _ => False

theorem spells_of_isLeaf {l : Node} (h : l.IsLeaf) {ls : List Node} : l.Spells ls ↔ ls = [l] := by
  cases l with
  | terminal | charset | reference => simp only [Spells]
  | sequence | choice | repetition => exact h.elim

theorem subnodes_of_isLeaf {l : Node} (h : l.IsLeaf) : l.subnodes = [l] := by
  cases l with
  | terminal | charset | reference => rw [subnodes]
  | sequence | choice | repetition => exact h.elim

mutual

theorem isLeaf_of_mem_leaves : ∀ {n l : Node}, l ∈ n.leaves → l.IsLeaf
  | .terminal .., _, h | .charset .., _, h | .reference .., _, h => by
    rw [leaves, List.mem_singleton] at h
    rw [h]
    trivial
  | .sequence .., _, h | .choice .., _, h => by
    rw [leaves] at h
    exact isLeaf_of_mem_listLeaves h
  | .repetition .., _, h => by
    rw [leaves] at h
    exact isLeaf_of_mem_leaves h

theorem isLeaf_of_mem_listLeaves : ∀ {ns : List Node} {l : Node}, l ∈ listLeaves ns → l.IsLeaf
  | [], _, h => absurd h List.not_mem_nil
  | n :: ns, _, h => by
    rw [listLeaves, List.mem_append] at h
    exact h.elim isLeaf_of_mem_leaves isLeaf_of_mem_listLeaves

end

mutual

theorem mem_subnodes_of_mem_leaves : ∀ {n l : Node}, l ∈ n.leaves → l ∈ n.subnodes
  | .terminal .., _, h | .charset .., _, h | .reference .., _, h => h
  | .sequence .., _, h | .choice .., _, h => by
    rw [leaves] at h
    exact List.mem_cons_of_mem _ (mem_listSubnodes_of_mem_listLeaves h)
  | .repetition .., _, h => by
    rw [leaves] at h
    exact List.mem_cons_of_mem _ (mem_subnodes_of_mem_leaves h)

theorem mem_listSubnodes_of_mem_listLeaves : ∀ {ns : List Node} {l : Node},
    l ∈ listLeaves ns → l ∈ listSubnodes ns
  | [], _, h => h
  | n :: ns, _, h => by
    rw [listLeaves, List.mem_append] at h
    rw [listSubnodes, List.mem_append]
    exact h.imp mem_subnodes_of_mem_leaves mem_listSubnodes_of_mem_listLeaves

end

mutual

/-- What lies in a node and is a leaf is one of its leaves. -/
theorem mem_leaves_of_isLeaf : ∀ {n l : Node}, l ∈ n.subnodes → l.IsLeaf → l ∈ n.leaves
  | .terminal .., _, h, _ | .charset .., _, h, _ | .reference .., _, h, _ => h
  | .sequence .., _, h, hleaf | .choice .., _, h, hleaf => by
    rw [subnodes] at h
    rw [leaves]
    rcases List.mem_cons.mp h with rfl | h
    · exact hleaf.elim
    · exact mem_listLeaves_of_isLeaf h hleaf
  | .repetition .., _, h, hleaf => by
    rw [subnodes] at h
    rw [leaves]
    rcases List.mem_cons.mp h with rfl | h
    · exact hleaf.elim
    · exact mem_leaves_of_isLeaf h hleaf

theorem mem_listLeaves_of_isLeaf : ∀ {ns : List Node} {l : Node}, l ∈ listSubnodes ns →
    l.IsLeaf → l ∈ listLeaves ns
  | [], _, h, _ => h
  | n :: ns, _, h, hleaf => by
    rw [listSubnodes, List.mem_append] at h
    rw [listLeaves, List.mem_append]
    exact h.imp (mem_leaves_of_isLeaf · hleaf) (mem_listLeaves_of_isLeaf · hleaf)

end

mutual

/-- **What a node spells are leaves of the node.** -/
theorem mem_leaves_of_spells : ∀ {n : Node} {ls : List Node}, n.Spells ls → ∀ l ∈ ls, l ∈ n.leaves
  | .terminal .., _, h | .charset .., _, h | .reference .., _, h => by
    rw [Spells] at h
    rw [h]
    exact fun l hl => hl
  | .sequence .., _, h => by
    rw [Spells] at h
    rw [leaves]
    exact mem_listLeaves_of_spellsAll h
  | .choice .., _, h => by
    rw [Spells] at h
    rw [leaves]
    exact mem_listLeaves_of_spellsSome h
  | .repetition _ body _ _ _, _, h => by
    rw [Spells] at h
    obtain ⟨k, -, -, hcopies⟩ := h
    exact hcopies.forall_mem fun ks hks => mem_leaves_of_spells hks

theorem mem_listLeaves_of_spellsAll : ∀ {ns ls : List Node}, SpellsAll ns ls →
    ∀ l ∈ ls, l ∈ listLeaves ns
  | [], _, h => by
    rw [SpellsAll] at h
    simp [h]
  | n :: ns, _, h => by
    obtain ⟨ks, ms, rfl, hks, hms⟩ := h
    intro l hl
    rw [listLeaves, List.mem_append]
    exact (List.mem_append.mp hl).imp (mem_leaves_of_spells hks l)
      (mem_listLeaves_of_spellsAll hms l)

theorem mem_listLeaves_of_spellsSome : ∀ {ns ls : List Node}, SpellsSome ns ls →
    ∀ l ∈ ls, l ∈ listLeaves ns
  | [], _, h => h.elim
  | n :: ns, _, h => by
    intro l hl
    rw [listLeaves, List.mem_append]
    rcases h with h | h
    · exact Or.inl (mem_leaves_of_spells h l hl)
    · exact Or.inr (mem_listLeaves_of_spellsSome h l hl)

end

/-! ### Spelling within a distance -/

theorem copies_replicate {α : Type} {P : List α → Prop} {ds : List α} (h : P ds) :
    ∀ k : Nat, Copies P k (List.replicate k ds).flatten
  | 0 => rfl
  | k + 1 => ⟨ds, (List.replicate k ds).flatten, rfl, h, copies_replicate h k⟩

/-- The copies of one list. -/
theorem copies_eq_iff {α : Type} {ds : List α} : ∀ {k : Nat} {cs : List α},
    Copies (fun es => es = ds) k cs ↔ cs = (List.replicate k ds).flatten
  | 0, _ => Iff.rfl
  | k + 1, cs => by
    simp only [Copies, copies_eq_iff (k := k), List.replicate_succ, List.flatten_cons]
    simp

section Distance

variable {g : Grammar} {x : String → Nat}

mutual

/-- **A node at some distance spells leaves at no greater distance.** -/
theorem exists_spells (hg : g.Bounded) : ∀ {n : Node}, g.Occurs n →
    n.distanceWith x < unreachable →
      ∃ ls, n.Spells ls ∧ ∀ l ∈ ls, l.distanceWith x ≤ n.distanceWith x
  | .terminal .., _, _ | .charset .., _, _ | .reference .., _, _ => by
    exact ⟨_, rfl, fun l hl => Nat.le_of_eq (congrArg _ (List.mem_singleton.mp hl))⟩
  | .sequence _ parts, hn, h => by
    rw [distanceWith] at h ⊢
    exact exists_spellsAll hg (fun n hp => hn.of_mem_subnodes
      (mem_subnodes_sequence hp n.mem_subnodes_self)) h
  | .choice _ options, hn, h => by
    rw [distanceWith] at h ⊢
    exact exists_spellsSome hg (fun n hp => hn.of_mem_subnodes
      (mem_subnodes_choice hp n.mem_subnodes_self)) h
  | .repetition _ body min max _, hn, h => by
    have hmax : ∀ m, max = some m → min ≤ m := fun m hm => (hg.bounds (hm ▸ hn)).2
    rw [distanceWith] at h ⊢
    by_cases hmin : min = 0
    · exact ⟨[], ⟨0, by omega, fun m _ => Nat.zero_le m, rfl⟩, by simp⟩
    · rw [if_neg hmin, satMul] at h
      rw [if_neg hmin, satMul]
      have hmul := Nat.le_mul_of_pos_right (body.distanceWith x) (Nat.pos_of_ne_zero hmin)
      obtain ⟨ls, hls, hle⟩ := exists_spells hg
        (hn.of_mem_subnodes (mem_subnodes_repetition body.mem_subnodes_self)) (by omega)
      refine ⟨_, ⟨min, Nat.le_refl _, hmax, copies_replicate hls min⟩, fun l hl => ?_⟩
      obtain ⟨ks, hks, hl⟩ := List.mem_flatten.mp hl
      rw [List.eq_of_mem_replicate hks] at hl
      have := hle l hl
      omega

theorem exists_spellsAll (hg : g.Bounded) : ∀ {ns : List Node}, (∀ n ∈ ns, g.Occurs n) →
    totalDistance x ns < unreachable →
      ∃ ls, SpellsAll ns ls ∧ ∀ l ∈ ls, l.distanceWith x ≤ totalDistance x ns
  | [], _, _ => ⟨[], rfl, by simp⟩
  | n :: ns, hn, h => by
    rw [totalDistance, satAdd] at h
    rw [totalDistance, satAdd]
    obtain ⟨ks, hks, hle⟩ := exists_spells hg (hn n List.mem_cons_self) (by omega)
    obtain ⟨ms, hms, hle'⟩ := exists_spellsAll hg
      (fun m hm => hn m (List.mem_cons_of_mem _ hm)) (by omega)
    refine ⟨ks ++ ms, ⟨ks, ms, rfl, hks, hms⟩, fun l hl => ?_⟩
    rcases List.mem_append.mp hl with hl | hl
    · have := hle l hl
      omega
    · have := hle' l hl
      omega

theorem exists_spellsSome (hg : g.Bounded) : ∀ {ns : List Node}, (∀ n ∈ ns, g.Occurs n) →
    leastDistance x ns < unreachable →
      ∃ ls, SpellsSome ns ls ∧ ∀ l ∈ ls, l.distanceWith x ≤ leastDistance x ns
  | [], _, h => by
    rw [leastDistance] at h
    exact absurd h (Nat.lt_irrefl _)
  | n :: ns, hn, h => by
    rw [leastDistance] at h ⊢
    rcases Nat.le_total (n.distanceWith x) (leastDistance x ns) with hle | hle
    · rw [Nat.min_eq_left hle] at h ⊢
      obtain ⟨ls, hls, hle⟩ := exists_spells hg (hn n List.mem_cons_self) h
      exact ⟨ls, Or.inl hls, hle⟩
    · rw [Nat.min_eq_right hle] at h ⊢
      obtain ⟨ls, hls, hle⟩ := exists_spellsSome hg
        (fun m hm => hn m (List.mem_cons_of_mem _ hm)) h
      exact ⟨ls, Or.inr hls, hle⟩

end

end Distance

end Node

end GrammarFuzzing
