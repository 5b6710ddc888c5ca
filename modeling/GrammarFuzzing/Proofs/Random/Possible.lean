import GrammarFuzzing.Proofs.Random.Draw

/-!
# What may be drawn

A random computation **can give** a value if it does so from a source that starts with the right
words (`GrammarFuzzing.Draw.CanGive`). The words it uses up are part of the statement: whatever
comes after them is left in the source, so the words for one step can be put before those for the
rest (`GrammarFuzzing.Draw.CanGive.bind`).

The choices reach everything they are bounded to. A number below `bound` is the high half of a
product `w * bound`, and every number below `bound` is one if there are as many words `w` as that:
take the least `w` whose product is at least as great (`GrammarFuzzing.Draw.exists_high_eq`). The
second number that the draw may ask for is zero, so that it does not carry.
-/

namespace GrammarFuzzing.Draw

variable {α β : Type} {x : α} {y : β}

/-- **A computation can give a value**: there are words from which it does, whatever follows
them. -/
def CanGive (d : Draw α) (x : α) : Prop :=
  ∃ ws : List UInt32, ∀ words left, d.run (.cycle words (ws ++ left)) = (x, .cycle words left)

theorem canGive_pure (x : α) : CanGive (pure x) x :=
  ⟨[], fun _ _ => rfl⟩

/-- **One step before the rest.** -/
theorem CanGive.bind {d : Draw α} {next : α → Draw β} (hd : CanGive d x)
    (hnext : CanGive (next x) y) : CanGive (d >>= next) y := by
  obtain ⟨ws, hws⟩ := hd
  obtain ⟨vs, hvs⟩ := hnext
  refine ⟨ws ++ vs, fun words left => ?_⟩
  rw [StateT.run_bind, List.append_assoc, hws]
  exact hvs words left

theorem canGive_word (w : UInt32) : CanGive word w :=
  ⟨[w], fun _ _ => rfl⟩

/-- A source that repeats the words makes the computation give the value. -/
theorem CanGive.run {d : Draw α} (h : CanGive d x) : ∃ words, (d.run (.ofWords words)).1 = x := by
  obtain ⟨ws, hws⟩ := h
  refine ⟨ws, ?_⟩
  have hrun := hws ws []
  rw [List.append_nil] at hrun
  rw [Source.ofWords, hrun]

/-! ### Numbers below a bound -/

/-- **Words make up every number** they have room for. -/
theorem canGive_words : ∀ {k n : Nat}, n < Nat.pow 2 (32 * k) → CanGive (words k) n
  | 0, n, hn => by
    obtain rfl : n = 0 := Nat.lt_one_iff.mp hn
    exact canGive_pure 0
  | k + 1, n, hn => by
    have hlow : n % Nat.pow 2 32 < Nat.pow 2 32 := Nat.mod_lt _ (by decide)
    have hrest : n / Nat.pow 2 32 < Nat.pow 2 (32 * k) := by
      refine Nat.div_lt_of_lt_mul ?_
      rwa [pow_words_succ] at hn
    rw [words]
    refine (canGive_word (.ofNatLT (n % Nat.pow 2 32) hlow)).bind ((canGive_words hrest).bind ?_)
    have hsplit : (UInt32.ofNatLT (n % Nat.pow 2 32) hlow).toNat +
        Nat.pow 2 32 * (n / Nat.pow 2 32) = n := Nat.mod_add_div n _
    rw [hsplit]
    exact canGive_pure n

/-- **Every number below a bound is the high half of a product** with the bound. -/
theorem exists_high_eq {span bound i : Nat} (hi : i < bound) (hbound : bound ≤ span) :
    ∃ w < span, w * bound / span = i := by
  have hpos : 0 < bound := Nat.zero_lt_of_lt hi
  -- The least `w` with `i * span ≤ w * bound`.
  let w := (i * span + (bound - 1)) / bound
  have hsplit : bound * w + (i * span + (bound - 1)) % bound = i * span + (bound - 1) :=
    Nat.div_add_mod _ _
  have hrest := Nat.mod_lt (i * span + (bound - 1)) hpos
  rw [Nat.mul_comm bound] at hsplit
  have hnext : (i + 1) * span ≤ bound * span := Nat.mul_le_mul_right span hi
  have hsucc : (i + 1) * span = i * span + span := Nat.succ_mul i span
  refine ⟨w, ?_, Nat.div_eq_of_lt_le ?_ ?_⟩
  · refine Nat.lt_of_mul_lt_mul_right (a := bound) ?_
    rw [Nat.mul_comm span]
    omega
  · omega
  · omega

/-- What is scaled to a bound can be any number below it, if there are as many words as numbers. -/
theorem canGive_scaled {k bound i : Nat} (hi : i < bound) (hbound : bound ≤ Nat.pow 2 (32 * k)) :
    CanGive (scaled k bound) i := by
  obtain ⟨w, hw, hhigh⟩ := exists_high_eq hi hbound
  rw [scaled]
  refine (canGive_words hw).bind ?_
  dsimp only
  split
  · -- The second number is zero, so there is no carry.
    have hpos : 0 < Nat.pow 2 (32 * k) := Nat.two_pow_pos _
    refine (canGive_words hpos).bind ?_
    rw [Nat.zero_mul, Nat.zero_div, Nat.add_zero, if_neg (Nat.not_le.mpr (Nat.mod_lt _ hpos)),
      hhigh]
    exact canGive_pure i
  · rw [hhigh]
    exact canGive_pure i

theorem lt_pow_wordCount (n : Nat) : n < Nat.pow 2 (32 * wordCount n) := by
  refine Nat.lt_of_lt_of_le Nat.lt_log2_self (Nat.pow_le_pow_right (by decide) ?_)
  rw [wordCount]
  omega

/-- **Every number below a bound can be drawn.** -/
theorem canGive_below {bound i : Nat} (hi : i < bound) : CanGive (below bound) i :=
  canGive_scaled hi (Nat.le_of_lt (lt_pow_wordCount bound))

/-- **Every number between two bounds can be drawn.** -/
theorem canGive_between {low high n : Nat} (hlow : low ≤ n) (hhigh : n ≤ high) :
    CanGive (between low high) n := by
  have hbound : high - low + 1 ≤ Nat.pow 2 (32 * wordCount high) :=
    Nat.le_trans (Nat.succ_le_succ (Nat.sub_le _ _)) (lt_pow_wordCount high)
  refine (canGive_scaled (i := n - low) (by omega) hbound).bind ?_
  rw [Nat.add_sub_cancel' hlow]
  exact canGive_pure n

/-- **Every element of a list can be picked.** -/
theorem canGive_pick? {xs : List α} (hx : x ∈ xs) : CanGive (pick? xs) (some x) := by
  obtain ⟨i, hi, rfl⟩ := List.getElem_of_mem hx
  rw [pick?, if_neg (by simpa using List.ne_nil_of_mem hx)]
  refine (canGive_below hi).bind ?_
  rw [List.getElem?_eq_getElem hi]
  exact canGive_pure _

end GrammarFuzzing.Draw
