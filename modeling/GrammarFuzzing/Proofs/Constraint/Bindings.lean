import GrammarFuzzing.Constraint.Basic
import GrammarFuzzing.Proofs.Dictionary
import GrammarFuzzing.Proofs.Grammar.Distance
import GrammarFuzzing.Proofs.Tree.Paths
import Mathlib.Data.List.Nodup

/-!
# Combinations of occurrences

A comparison is checked for every way to choose an occurrence for each symbol it mentions
(`GrammarFuzzing.Chooses`). `GrammarFuzzing.combinations` lists these choices, each once
(`GrammarFuzzing.mem_combinations`, `GrammarFuzzing.nodup_combinations`).

`GrammarFuzzing.Bindings.of` builds them symbol by symbol and cuts the list to
`GrammarFuzzing.maxBindings` after every symbol, while it multiplies the numbers of occurrences on
the side. Cutting early loses nothing that cutting at the end would keep: every choice for the
symbols so far goes on in equally many ways (`GrammarFuzzing.take_flatMap_take`), so what is checked
are the first `maxBindings` combinations and the rest is counted
(`GrammarFuzzing.Bindings.of_eq`).
-/

namespace GrammarFuzzing

/-! ### Choices -/

/-- **A choice of an occurrence for each of some symbols.** -/
structure Chooses (t : Tree) (names : List String) (b : Binding) : Prop where
  keys : b.keys = names
  occurs : ∀ name p, (name, p) ∈ b → ∃ n, t.get? p = some n ∧ n.symbol = .named name

/-- **All combinations of occurrences of some symbols**, the last symbol varying fastest. -/
def combinations (t : Tree) : List String → List Binding
  | [] => [[]]
  | name :: rest =>
    (t.findAll (.named name)).flatMap fun p => (combinations t rest).map ((name, p) :: ·)

theorem mem_combinations_cons {t : Tree} {name : String} {rest : List String} {b : Binding} :
    b ∈ combinations t (name :: rest) ↔
      ∃ p ∈ t.findAll (.named name), ∃ b' ∈ combinations t rest, (name, p) :: b' = b := by
  rw [combinations, List.mem_flatMap]
  simp only [List.mem_map]

/-- **The combinations are the choices.** -/
theorem mem_combinations {t : Tree} : ∀ {names : List String} {b : Binding},
    b ∈ combinations t names ↔ Chooses t names b
  | [], b => by
    rw [combinations, List.mem_singleton]
    constructor
    · rintro rfl
      exact ⟨rfl, fun name p h => absurd h List.not_mem_nil⟩
    · rintro ⟨hkeys, -⟩
      exact List.map_eq_nil_iff.mp hkeys
  | name :: rest, b => by
    rw [mem_combinations_cons]
    constructor
    · rintro ⟨p, hp, b', hb', rfl⟩
      obtain ⟨hkeys, hoccurs⟩ := mem_combinations.mp hb'
      refine ⟨congrArg (name :: ·) hkeys, fun name' p' h => ?_⟩
      rcases List.mem_cons.mp h with h | h
      · obtain ⟨rfl, rfl⟩ := Prod.mk.inj h
        exact Tree.mem_findAll.mp hp
      · exact hoccurs name' p' h
    · rintro ⟨hkeys, hoccurs⟩
      cases b with
      | nil => exact absurd hkeys (by simp [Dictionary.keys])
      | cons e b =>
        obtain ⟨name', p⟩ := e
        obtain ⟨rfl, hrest⟩ := List.cons.inj hkeys
        exact ⟨p, Tree.mem_findAll.mpr (hoccurs _ p List.mem_cons_self), b,
          mem_combinations.mpr ⟨hrest, fun n q h => hoccurs n q (List.mem_cons_of_mem _ h)⟩, rfl⟩

/-- **Every combination is listed once.** -/
theorem nodup_combinations (t : Tree) : ∀ names : List String, (combinations t names).Nodup
  | [] => List.nodup_singleton _
  | name :: rest => by
    rw [combinations, List.nodup_flatMap]
    refine ⟨fun p _ => (nodup_combinations t rest).map fun b b' h => (List.cons.inj h).2, ?_⟩
    refine (Tree.nodup_findAll t _).imp fun {p q} hpq b hp hq => hpq ?_
    obtain ⟨b₁, -, rfl⟩ := List.mem_map.mp hp
    obtain ⟨b₂, -, h⟩ := List.mem_map.mp hq
    exact (Prod.mk.inj (List.cons.inj h).1).2.symm

/-- A list whose elements go on in equally many ways. -/
theorem length_flatMap_const {α β : Type} {f : α → List β} {m : Nat}
    (hf : ∀ a, (f a).length = m) (xs : List α) : (xs.flatMap f).length = xs.length * m := by
  induction xs with
  | nil => simp
  | cons x xs ih =>
    rw [List.flatMap_cons, List.length_append, hf, ih, List.length_cons, Nat.succ_mul, Nat.add_comm]

/-- **Their number is the product of the numbers of occurrences.** -/
theorem length_combinations_cons (t : Tree) (name : String) (rest : List String) :
    (combinations t (name :: rest)).length =
      (t.findAll (.named name)).length * (combinations t rest).length := by
  rw [combinations, length_flatMap_const fun p => List.length_map _]

/-- There are at most as many as a power of the size of the tree. -/
theorem length_combinations_le (t : Tree) {names : List String} {k : Nat} (h : names.length ≤ k) :
    (combinations t names).length ≤ t.size.pow k := by
  induction k generalizing names with
  | zero =>
    obtain rfl := List.length_eq_zero_iff.mp (Nat.le_zero.mp h)
    exact Nat.le_refl 1
  | succ k ih =>
    cases names with
    | nil => exact Nat.pow_pos t.size_pos
    | cons name rest =>
      rw [length_combinations_cons, Nat.mul_comm]
      exact Nat.mul_le_mul (ih (Nat.le_of_succ_le_succ h)) (Tree.length_findAll_le t _)

/-! ### What is checked -/

/-- **Cutting a list before its elements go on in equally many ways** loses nothing that a cut
afterwards would keep. -/
theorem take_flatMap_take {α β : Type} {f : α → List β} {m : Nat} (hf : ∀ a, (f a).length = m)
    (k : Nat) (xs : List α) : ((xs.take k).flatMap f).take k = (xs.flatMap f).take k := by
  conv_rhs => rw [← List.take_append_drop k xs, List.flatMap_append, List.take_append]
  rcases Nat.eq_zero_or_pos m with rfl | hm
  · rw [List.length_eq_zero_iff.mp
        ((length_flatMap_const hf (xs.drop k)).trans (Nat.mul_zero _)), List.take_nil,
      List.append_nil]
  · rcases Nat.le_total xs.length k with hk | hk
    · rw [List.drop_eq_nil_of_le hk, List.flatMap_nil, List.take_nil, List.append_nil]
    · -- what was kept already fills the room
      have hfull : k ≤ ((xs.take k).flatMap f).length := by
        rw [length_flatMap_const hf, List.length_take, Nat.min_eq_left hk]
        exact Nat.le_mul_of_pos_right k hm
      rw [Nat.sub_eq_zero_of_le hfull, List.take_zero, List.append_nil]

theorem satMul_min (a b : Nat) : satMul (min a unreachable) b = min (a * b) unreachable := by
  rw [satMul]
  rcases Nat.eq_zero_or_pos b with rfl | hb
  · rw [Nat.mul_zero, Nat.mul_zero]
  · rcases Nat.le_total a unreachable with ha | ha
    · rw [Nat.min_eq_left ha]
    · rw [Nat.min_eq_right ha, Nat.min_eq_right (Nat.le_mul_of_pos_right _ hb),
        Nat.min_eq_right (Nat.le_trans ha (Nat.le_mul_of_pos_right _ hb))]

namespace Bindings

/-- Each combination with each occurrence of one more symbol, cut to the room. -/
theorem extend_eq (name : String) (occurrences : List Path) (room : Nat) (bs : List Binding) :
    extend name occurrences room bs =
      (bs.flatMap fun b => occurrences.map fun p => b.put name p).take room := by
  induction bs generalizing room with
  | nil => rw [extend, List.flatMap_nil, List.take_nil]
  | cons b bs ih =>
    rw [extend, List.flatMap_cons, List.take_append, ← List.map_take, List.length_map,
      List.length_map]
    congr 1
    split
    · rename_i hroom
      have hall : occurrences.take room = occurrences := by
        rw [List.length_take] at hroom
        exact List.take_of_length_le (by omega)
      rw [hall, ih]
    · rename_i hroom
      rw [List.length_take] at hroom
      rw [Nat.sub_eq_zero_of_le (by omega), List.take_zero]

/-- One symbol after the other: what is kept are the first of all combinations, and their number
is counted. -/
theorem foldl_addSymbol (t : Tree) (names : List String) (acc : List Binding) (n : Nat)
    (hacc : ∀ b ∈ acc, ∀ k ∈ b.keys, ∀ name ∈ names, compare name k = .gt)
    (hnames : names.Pairwise fun a b => compare a b = .lt) :
    names.foldl (addSymbol t) (acc.take maxBindings, min n unreachable) =
      ((acc.flatMap fun b => (combinations t names).map (b ++ ·)).take maxBindings,
        min (n * (combinations t names).length) unreachable) := by
  induction names generalizing acc n with
  | nil => simp [combinations]
  | cons name rest ih =>
    have hput : ∀ b ∈ acc, ∀ p, b.put name p = b ++ [(name, p)] := fun b hb p =>
      Dictionary.put_eq_append fun k hk => hacc b hb k hk name List.mem_cons_self
    have hstep : addSymbol t (acc.take maxBindings, min n unreachable) name =
        ((acc.flatMap fun b => (t.findAll (.named name)).map fun p => b ++ [(name, p)]).take
          maxBindings, min (n * (t.findAll (.named name)).length) unreachable) := by
      rw [addSymbol, extend_eq, satMul_min, take_flatMap_take fun b => List.length_map _]
      congr 2
      exact List.flatMap_congr fun b hb => List.map_congr_left fun p _ => hput b hb p
    rw [List.foldl_cons, hstep, ih _ _ ?_ hnames.of_cons]
    · congr 1
      · congr 1
        rw [combinations, List.flatMap_assoc]
        refine List.flatMap_congr fun b _ => ?_
        rw [List.flatMap_map, List.map_flatMap]
        simp [Function.comp_def]
      · rw [Nat.mul_assoc, length_combinations_cons]
    · intro b hb k hk name' hname'
      obtain ⟨b₀, hb₀, hext⟩ := List.mem_flatMap.mp hb
      obtain ⟨p, -, rfl⟩ := List.mem_map.mp hext
      rw [Dictionary.keys, List.map_append, List.mem_append] at hk
      rcases hk with hk | hk
      · exact hacc b₀ hb₀ k hk name' (List.mem_cons_of_mem _ hname')
      · obtain rfl : k = name := by simpa using hk
        exact Std.OrientedCmp.gt_iff_lt.mpr (List.rel_of_pairwise_cons hnames hname')

/-- **What is checked are the first combinations**, and the others are counted as far as a word
can count. -/
theorem of_eq (t : Tree) {names : List String}
    (hnames : names.Pairwise fun a b => compare a b = .lt) :
    of t names = ⟨(combinations t names).take maxBindings,
      min (combinations t names).length unreachable -
        ((combinations t names).take maxBindings).length⟩ := by
  have hfold := foldl_addSymbol t names [[]] 1 (by simp [Dictionary.keys]) hnames
  have hone : min 1 unreachable = 1 := by decide
  rw [hone, Nat.one_mul, List.flatMap_singleton] at hfold
  have hstart : ([[]] : List Binding).take maxBindings = [[]] := rfl
  rw [hstart] at hfold
  rw [of, hfold]
  simp

/-- The checked combinations and those that were skipped are all of them. -/
theorem satAdd_checked_skipped (t : Tree) {names : List String}
    (hnames : names.Pairwise fun a b => compare a b = .lt) :
    satAdd (of t names).checked.length (of t names).skipped =
      min (combinations t names).length unreachable := by
  rw [of_eq t hnames]
  have hmax : maxBindings ≤ unreachable := by decide
  have hchecked : ((combinations t names).take maxBindings).length ≤
      min (combinations t names).length unreachable := by
    rw [List.length_take]
    omega
  rw [satAdd, Nat.add_sub_cancel' hchecked, Nat.min_assoc, Nat.min_self]

end Bindings

end GrammarFuzzing
