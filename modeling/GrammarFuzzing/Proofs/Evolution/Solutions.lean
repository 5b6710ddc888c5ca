import GrammarFuzzing.Proofs.Constraint.Counts
import GrammarFuzzing.Proofs.Evolution.Population

/-!
# Solutions stay solutions

A corpus and an evaluator belong together (`GrammarFuzzing.Corpus.Holds`): every solution meets the
hard constraints and is kept with its own quantities, no two have the same shape, and the digests
that are known are those of the solutions and no others.

The ranges of an evaluator move with every batch, but what belongs together does not depend on them:
the verdict on a tree and its quantities come from the tree and the constraints alone
(`GrammarFuzzing.Evaluator.rawScore_congr`). So a corpus that was filled batch by batch, each batch
under ranges of its own, is ranked by what its trees are worth under the ranges of the last one
(`GrammarFuzzing.Corpus.Holds.pairwise_ranked`).
-/

namespace GrammarFuzzing

/-! ### Scores -/

namespace Evaluator

variable {e e' : Evaluator Float}

/-- **What the quantities of a tree are worth** under the ranges of an evaluator. -/
def quality (e : Evaluator Float) (t : Tree) : Float :=
  e.softScore (e.rawScore t).softValues

/-- The score of a tree before it is compared with others is that of its constraints. -/
theorem rawScore_congr (hhard : e'.hard = e.hard) (hsoft : e'.soft = e.soft) (t : Tree) :
    e'.rawScore t = e.rawScore t := by
  rw [rawScore, rawScore, hhard, hsoft]

theorem hard_evaluateAll (e : Evaluator Float) (ts : List Tree) :
    (e.evaluateAll ts).2.hard = e.hard :=
  rfl

theorem soft_evaluateAll (e : Evaluator Float) (ts : List Tree) :
    (e.evaluateAll ts).2.soft = e.soft :=
  rfl

/-- **The evaluations of a batch**, beside their trees. -/
theorem of_mem_zip_evaluateAll {ts : List Tree} {p : Tree × Evaluation Float}
    (h : p ∈ ts.zip (e.evaluateAll ts).1) :
    p.2.success = (e.rawScore p.1).success ∧ p.2.softValues = (e.rawScore p.1).softValues := by
  have hscores : (e.evaluateAll ts).1 =
      ts.map fun t => (e.evaluateAll ts).2.blend (e.rawScore t) := List.map_map
  have hzip : (ts.map id).zip (e.evaluateAll ts).1 =
      ts.map fun t => (t, (e.evaluateAll ts).2.blend (e.rawScore t)) := by
    rw [hscores]
    exact List.zip_map'
  rw [List.map_id] at hzip
  rw [hzip] at h
  obtain ⟨t, -, rfl⟩ := List.mem_map.mp h
  exact ⟨rfl, rfl⟩

end Evaluator

/-! ### Ranks -/

/-- **What is sorted by rank is in order**, the highest rank first. -/
theorem pairwise_mergeSort_rank {α : Type} (rank : α → Int) (xs : List α) :
    (xs.mergeSort fun a b => rank b ≤ rank a).Pairwise fun a b => rank b ≤ rank a := by
  refine (List.pairwise_mergeSort ?_ ?_ xs).imp of_decide_eq_true
  · intro a b d hab hbd
    rw [decide_eq_true_iff] at hab hbd ⊢
    exact Int.le_trans hbd hab
  · intro a b
    rw [Bool.or_eq_true, decide_eq_true_iff, decide_eq_true_iff]
    exact Int.le_total (rank b) (rank a)

/-! ### Corpora -/

namespace Corpus

/-- **A corpus and an evaluator belong together.** -/
structure Holds (c : Corpus) (e : Evaluator Float) : Prop where
  nodup : (c.entries.map fun s => s.tree.shapeHash).Nodup
  known : ∀ hash, c.known.contains hash = true ↔ hash ∈ c.entries.map fun s => s.tree.shapeHash
  success : ∀ s ∈ c.entries, (e.rawScore s.tree).success = true
  softValues : ∀ s ∈ c.entries, s.softValues = (e.rawScore s.tree).softValues

variable {c : Corpus} {e e' : Evaluator Float}

theorem holds_empty (e : Evaluator Float) : Holds {} e :=
  ⟨List.nodup_nil, fun hash => by simp, fun _ h => absurd h List.not_mem_nil,
    fun _ h => absurd h List.not_mem_nil⟩

/-- Moving ranges do not matter. -/
theorem Holds.congr (h : c.Holds e) (hhard : e'.hard = e.hard) (hsoft : e'.soft = e.soft) :
    c.Holds e' := by
  refine ⟨h.nodup, h.known, fun s hs => ?_, fun s hs => ?_⟩
  · rw [Evaluator.rawScore_congr hhard hsoft]
    exact h.success s hs
  · rw [Evaluator.rawScore_congr hhard hsoft]
    exact h.softValues s hs

/-- **A tree is offered** with its own verdict and quantities. -/
theorem Holds.add (h : c.Holds e) {t : Tree} {score : Evaluation Float}
    (hsuccess : score.success = (e.rawScore t).success)
    (hsoftValues : score.softValues = (e.rawScore t).softValues) (generation : Nat) :
    (c.add t score generation).Holds e := by
  unfold Corpus.add
  dsimp only
  split
  · exact h
  · rename_i hnew
    rw [Bool.or_eq_true, not_or, Bool.not_eq_true', Bool.not_eq_false, h.known] at hnew
    have hentries : ∀ s, s ∈ c.entries ++ [⟨t, score.softValues, generation⟩] ↔
        s ∈ c.entries ∨ s = ⟨t, score.softValues, generation⟩ := by simp
    refine ⟨?_, fun hash => ?_, fun s hs => ?_, fun s hs => ?_⟩
    · rw [List.map_append]
      exact nodup_append_of_not_mem h.nodup hnew.2
    · rw [List.map_append]
      exact contains_insert_iff h.known _ hash
    · rcases (hentries s).mp hs with hs | rfl
      · exact h.success s hs
      · exact hsuccess ▸ hnew.1
    · rcases (hentries s).mp hs with hs | rfl
      · exact h.softValues s hs
      · exact hsoftValues

/-- **So is a batch of trees.** -/
theorem Holds.foldl_add {generation : Nat} :
    ∀ {scored : List (Tree × Evaluation Float)} {c : Corpus}, c.Holds e →
      (∀ p ∈ scored, p.2.success = (e.rawScore p.1).success ∧
      p.2.softValues = (e.rawScore p.1).softValues) →
        (scored.foldl (fun (c : Corpus) p => c.add p.1 p.2 generation) c).Holds e
  | [], _, h, _ => h
  | p :: scored, c, h, hscored => by
    obtain ⟨hsuccess, hsoftValues⟩ := hscored p List.mem_cons_self
    exact (h.add hsuccess hsoftValues generation).foldl_add
      fun q hq => hscored q (List.mem_cons_of_mem _ hq)

/-- Each tree is one solution at most. -/
theorem length_foldl_add_le (generation : Nat) :
    ∀ (scored : List (Tree × Evaluation Float)) (c : Corpus),
      (scored.foldl (fun (c : Corpus) p => c.add p.1 p.2 generation) c).entries.length ≤
        c.entries.length + scored.length
  | [], _ => Nat.le_refl _
  | p :: scored, c => by
    have hadd : (c.add p.1 p.2 generation).entries.length ≤ c.entries.length + 1 := by
      rw [add]
      split
      · exact Nat.le_succ _
      · simp
    have hrest := length_foldl_add_le generation scored (c.add p.1 p.2 generation)
    rw [List.foldl_cons, List.length_cons]
    omega

/-! ### Ranking -/

/-- Ranking only changes the order. -/
theorem ranked_perm (c : Corpus) (e : Evaluator Float) :
    (c.ranked e none).Perm (c.entries.map (·.tree)) := by
  refine ((List.mergeSort_perm _ _).map _).trans ?_
  rw [List.map_map]
  exact .refl _

/-- **Ranked solutions are in order**, the best under the ranges of the evaluator first. -/
theorem Holds.pairwise_ranked (h : c.Holds e) :
    (c.ranked e none).Pairwise fun t u => floatRank (e.quality u) ≤ floatRank (e.quality t) := by
  -- The rank that stands beside a tree is the one of its quality.
  have hrank :
      ∀ p ∈ (c.entries.map fun s => (floatRank (e.softScore s.softValues), s.tree)).mergeSort
        fun a b => b.1 ≤ a.1, p.1 = floatRank (e.quality p.2) := by
    intro p hp
    obtain ⟨s, hs, rfl⟩ := List.mem_map.mp ((List.mergeSort_perm _ _).mem_iff.mp hp)
    dsimp only
    rw [h.softValues s hs, Evaluator.quality]
  refine List.pairwise_map.mpr ((pairwise_mergeSort_rank Prod.fst _).imp_of_mem
    fun {a b} ha hb hab => ?_)
  rw [hrank a ha, hrank b hb] at hab
  exact hab

/-- **The best solutions**, at most so many. -/
structure Best (c : Corpus) (e : Evaluator Float) (limit : Nat) (ts : List Tree) : Prop where
  length_eq : ts.length = min limit c.entries.length
  nodup : (ts.map Tree.shapeHash).Nodup
  success : ∀ t ∈ ts, (e.rawScore t).success = true
  pairwise : ts.Pairwise fun t u => floatRank (e.quality u) ≤ floatRank (e.quality t)

theorem Holds.best_ranked (h : c.Holds e) (limit : Nat) :
    c.Best e limit (c.ranked e (some limit)) := by
  have hperm := c.ranked_perm e
  have htake : c.ranked e (some limit) = (c.ranked e none).take limit := rfl
  rw [htake]
  refine ⟨?_, ?_, fun t ht => ?_, h.pairwise_ranked.sublist (List.take_sublist _ _)⟩
  · rw [List.length_take, hperm.length_eq, List.length_map]
  · have hnodup : ((c.ranked e none).map Tree.shapeHash).Nodup := by
      rw [(hperm.map Tree.shapeHash).nodup_iff, List.map_map]
      exact h.nodup
    exact hnodup.sublist ((List.take_sublist _ _).map _)
  · obtain ⟨s, hs, rfl⟩ := List.mem_map.mp (hperm.mem_iff.mp (List.mem_of_mem_take ht))
    exact h.success s hs

end Corpus

end GrammarFuzzing
