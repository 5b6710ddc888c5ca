import GrammarFuzzing.Random.Draw
import Mathlib.Data.List.Basic

/-!
# What can be drawn

A random computation is a function of its source, and a property of what it draws has to hold
whatever the source is: `GrammarFuzzing.Draw.Gives`. It is proved along the computation, with one
rule for its end (`GrammarFuzzing.Draw.gives_pure`) and one for a step before the rest
(`GrammarFuzzing.Draw.Gives.bind`), which forgets the source in between.

The primitive choices keep to their bounds. Only `GrammarFuzzing.Draw.scaled` needs an argument: a
carry of the second number adds one to the high half of a product, and there is room for it because
the carry comes only with a low half that the greatest high half does not have. A sample of several
indices is made in a loop, which keeps what each of its steps keeps
(`GrammarFuzzing.Draw.gives_foldlM`).
-/

namespace GrammarFuzzing.Draw

variable {α β : Type} {P : α → Prop} {Q : β → Prop}

/-- **Whatever the source, what is drawn has a property.** -/
def Gives (d : Draw α) (P : α → Prop) : Prop :=
  ∀ source, P (d.run source).1

theorem gives_pure {x : α} (h : P x) : Gives (pure x) P :=
  fun _ => h

/-- **One step before the rest.** -/
theorem Gives.bind {d : Draw α} {next : α → Draw β} (hd : Gives d P)
    (hnext : ∀ x, P x → Gives (next x) Q) : Gives (d >>= next) Q := by
  intro source
  have hx := hd source
  exact hnext _ hx (d.run source).2

theorem Gives.mono {d : Draw α} {P' : α → Prop} (hd : Gives d P) (h : ∀ x, P x → P' x) :
    Gives d P' :=
  fun source => h _ (hd source)

/-- What was drawn has the property. -/
theorem Gives.of_run_eq {d : Draw α} (hd : Gives d P) {source source' : Source} {x : α}
    (h : d.run source = (x, source')) : P x := by
  have hx := hd source
  rwa [h] at hx

theorem gives_true (d : Draw α) : Gives d fun _ => True :=
  fun _ => trivial

/-! ### Numbers below a bound -/

/-- One more word has room for so many times more numbers. -/
theorem pow_words_succ (k : Nat) :
    Nat.pow 2 (32 * (k + 1)) = Nat.pow 2 32 * Nat.pow 2 (32 * k) := by
  rw [Nat.mul_succ, Nat.add_comm]
  exact Nat.pow_add 2 32 (32 * k)

theorem gives_words (k : Nat) : Gives (words k) (· < Nat.pow 2 (32 * k)) := by
  induction k with
  | zero => exact gives_pure Nat.one_pos
  | succ k ih =>
    refine (gives_true word).bind fun low _ => ih.bind fun rest hrest => gives_pure ?_
    have hlow : low.toNat < Nat.pow 2 32 := low.toNat_lt
    have hle : Nat.pow 2 32 * (rest + 1) ≤ Nat.pow 2 32 * Nat.pow 2 (32 * k) :=
      Nat.mul_le_mul_left _ hrest
    rw [Nat.mul_succ] at hle
    rw [pow_words_succ]
    omega

section Halves

variable {w span bound : Nat}

theorem high_lt (hw : w < span) (hbound : 0 < bound) : w * bound / span < bound := by
  rw [Nat.div_lt_iff_lt_mul (Nat.zero_lt_of_lt hw), Nat.mul_comm]
  exact Nat.mul_lt_mul_of_pos_left hw hbound

/-- A product with a low half that can carry has not the greatest high half. -/
theorem high_succ_lt (hw : w < span) (hbound : 0 < bound)
    (hlow : w * bound % span > span - bound) : w * bound / span + 1 < bound := by
  have hhigh := high_lt hw hbound
  have hsplit := Nat.div_add_mod (w * bound) span
  have hle : (w + 1) * bound ≤ span * bound := Nat.mul_le_mul_right bound hw
  rw [Nat.add_mul, Nat.one_mul] at hle
  -- With the greatest high half the low half leaves room for one more `bound`.
  by_contra hno
  have hgreatest : w * bound / span = bound - 1 := by omega
  rw [hgreatest] at hsplit
  have hproduct : span * (bound - 1) + span = span * bound := by
    rw [← Nat.mul_succ, Nat.succ_eq_add_one, Nat.sub_add_cancel hbound]
  omega

end Halves

/-- **What is scaled to a bound is below it**, however many words it is made of. -/
theorem gives_scaled (k : Nat) {bound : Nat} (hbound : 0 < bound) :
    Gives (scaled k bound) (· < bound) := by
  refine (gives_words k).bind fun w hw => ?_
  dsimp only
  split
  · rename_i hlow
    refine (gives_true (words k)).bind fun v _ => gives_pure ?_
    have hsucc := high_succ_lt hw hbound hlow
    split
    · exact hsucc
    · exact Nat.lt_of_succ_lt hsucc
  · exact gives_pure (high_lt hw hbound)

/-- **What is drawn below a bound is below it.** -/
theorem gives_below {bound : Nat} (hbound : 0 < bound) : Gives (below bound) (· < bound) :=
  gives_scaled _ hbound

/-- What is drawn between two numbers is between them. -/
theorem gives_between {low high : Nat} (h : low ≤ high) :
    Gives (between low high) fun n => low ≤ n ∧ n ≤ high := by
  refine (gives_scaled _ (Nat.succ_pos _)).bind fun n hn => gives_pure ?_
  omega

/-- What is picked out of a list with elements is one of them. -/
theorem gives_pick? {xs : List α} (hxs : xs ≠ []) :
    Gives (pick? xs) fun o => ∃ x ∈ xs, o = some x := by
  rw [pick?, if_neg (by simpa using hxs)]
  refine (gives_below (List.length_pos_iff.mpr hxs)).bind fun i hi => gives_pure ?_
  exact ⟨xs[i], List.getElem_mem hi, List.getElem?_eq_getElem hi⟩

/-! ### Samples -/

/-- **What every step of a loop keeps, the loop keeps.** -/
theorem gives_foldlM {step : β → α → Draw β} : ∀ {xs : List α} {b : β},
    (∀ b, Q b → ∀ x ∈ xs, Gives (step b x) Q) → Q b → Gives (xs.foldlM step b) Q
  | [], _, _, hb => gives_pure hb
  | x :: xs, b, hstep, hb => by
    rw [List.foldlM_cons]
    refine (hstep b hb x List.mem_cons_self).bind fun c hc => ?_
    exact gives_foldlM (fun b hb y hy => hstep b hb y (List.mem_cons_of_mem x hy)) hc

section Samples

variable {length amount : Nat} (hamount : 0 < amount) (hle : amount ≤ length)

include hamount hle

omit hamount in
/-- Each step of Floyd's sample adds an index, and puts another one in the place of one it has. -/
theorem gives_floydStep {chosen : List Nat} (hchosen : ∀ i ∈ chosen, i < length) {k : Nat}
    (hk : k < amount) :
    Gives (floydStep length amount chosen k) fun is => is ≠ [] ∧ ∀ i ∈ is, i < length := by
  rw [floydStep]
  refine (gives_between (Nat.zero_le _)).bind fun t ht => gives_pure ⟨by simp, ?_⟩
  refine List.forall_mem_append.mpr ⟨?_, List.forall_mem_singleton.mpr (by omega)⟩
  split
  · intro i hi
    rcases List.mem_or_eq_of_mem_set hi with hi | rfl
    · exact hchosen i hi
    · omega
  · exact hchosen

/-- The last step leaves a sample that is not empty. -/
theorem gives_sampleFloyd :
    Gives (sampleFloyd length amount) fun is => is ≠ [] ∧ ∀ i ∈ is, i < length := by
  obtain ⟨n, rfl⟩ : ∃ n, amount = n + 1 := ⟨amount - 1, by omega⟩
  rw [sampleFloyd, List.range_succ, List.foldlM_append]
  refine Gives.bind (P := fun chosen => ∀ i ∈ chosen, i < length)
    (gives_foldlM (fun chosen hchosen k hk => ?_) (by simp)) fun chosen hchosen => ?_
  · have hk := List.mem_range.mp hk
    exact (gives_floydStep hle hchosen (by omega)).mono fun _ h => h.2
  · rw [List.foldlM_cons]
    exact (gives_floydStep hle hchosen (Nat.lt_succ_self n)).bind fun is his => gives_pure his

/-- The steps of a shuffle swap indices. -/
theorem gives_sampleShuffled :
    Gives (sampleShuffled length amount) fun is => is ≠ [] ∧ ∀ i ∈ is, i < length := by
  rw [sampleShuffled]
  refine Gives.bind (P := fun all : Array Nat => all.toList.Perm (List.range length))
    (gives_foldlM (fun all hall i hi => ?_) (by simp)) fun all hall => gives_pure ⟨?_, ?_⟩
  · refine (gives_true _).bind fun j _ => gives_pure ?_
    rw [Array.swapIfInBounds_def]
    split
    · split
      · exact (Array.swap_perm _ _).toList.trans hall
      · exact hall
    · exact hall
  · have hlength : all.toList.length = length := by rw [hall.length_eq, List.length_range]
    refine List.ne_nil_of_length_pos ?_
    rw [List.length_take]
    omega
  · exact fun i hi => List.mem_range.mp (hall.mem_iff.mp (List.mem_of_mem_take hi))

/-- **A sample has indices, and all of them are below the length.** -/
theorem gives_sample : Gives (sample length amount) fun is => is ≠ [] ∧ ∀ i ∈ is, i < length := by
  rw [sample]
  split
  · exact gives_sampleShuffled hamount hle
  · exact gives_sampleFloyd hamount hle

end Samples

end GrammarFuzzing.Draw
