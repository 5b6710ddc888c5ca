import GrammarFuzzing.Proofs.Evolution.Solutions
import GrammarFuzzing.Proofs.Tree.Encoding

/-!
# What counts as a new tree

Populations and corpora turn away trees that they have been offered before. They know trees by the
digests of their shapes, so a tree that is turned away is known only as far as digests do not
collide (`GrammarFuzzing.Tree.NoCollision`). Granted that, a tree is turned away exactly if a tree
of its shape was offered before, whatever its parties, its sources and its marks: shapes are told
apart by their bytes (`GrammarFuzzing.Tree.encodeShape_eq_iff`), and what is known is the digests of
the trees that were offered and no others.

What was offered is recorded along the history of a census (`GrammarFuzzing.Census.Offered`) and of
a corpus (`GrammarFuzzing.Corpus.Offered`). A census keeps knowing a tree that has left the
population, and a corpus never learns a tree that does not meet the hard constraints.
-/

namespace GrammarFuzzing

namespace Tree

/-- **No two of some trees collide**: where their digests are equal, the bytes of their shapes
are. -/
def NoCollision (ts : List Tree) : Prop :=
  ∀ t ∈ ts, ∀ u ∈ ts, t.shapeHash = u.shapeHash → t.encodeShape = u.encodeShape

/-- Without collisions, a digest is among those of some trees exactly if the shape is. -/
theorem mem_map_shapeHash_iff {t : Tree} {us : List Tree} (ht : t.CountsFit)
    (hus : ∀ u ∈ us, u.CountsFit) (hcollide : NoCollision (t :: us)) :
    t.shapeHash ∈ us.map shapeHash ↔ ∃ u ∈ us, u.SameShape t := by
  rw [List.mem_map]
  constructor
  · rintro ⟨u, hu, hhash⟩
    refine ⟨u, hu, (encodeShape_eq_iff (hus u hu) ht).mp ?_⟩
    exact hcollide u (List.mem_cons_of_mem _ hu) t List.mem_cons_self hhash
  · rintro ⟨u, hu, hshape⟩
    exact ⟨u, hu, congrArg Md5.digest hshape.encodeShape_eq⟩

end Tree

/-! ### Censuses -/

namespace Census

/-- **A census that has been offered some trees** since it knew none, the last one last. With which
population does not matter, and neither do its limits. -/
inductive Offered : Census → List Tree → Prop
  | reset (c : Census) : Offered c.reset []
  | withMaxRepetitions {c : Census} {ts : List Tree} (n : Nat) :
    Offered c ts → Offered (c.withMaxRepetitions n) ts
  | addUnique {c : Census} {ts : List Tree} (population : List Tree) (t : Tree) :
    Offered c ts → Offered (c.addUnique population t).2 (ts ++ [t])

variable {c : Census} {ts : List Tree}

/-- **A census knows the digests of what it was offered**, and no others. -/
theorem Offered.contains_iff (h : c.Offered ts) :
    ∀ hash, c.known.contains hash = true ↔ hash ∈ ts.map Tree.shapeHash := by
  induction h with
  | reset c => exact c.registers_reset.known
  | withMaxRepetitions n _ ih => exact ih
  | @addUnique c ts population t _ ih =>
    intro hash
    rw [List.map_append]
    rcases c.addUnique_cases population t with ⟨hknown, heq⟩ | ⟨-, heq⟩ <;> rw [heq]
    · rw [ih, List.mem_append, List.map_singleton, List.mem_singleton]
      refine (or_iff_left_of_imp ?_).symm
      rintro rfl
      exact (ih _).mp hknown
    · exact contains_insert_iff ih _ hash

/-- **Topping a population up is offering trees**: some random ones, one after the other. -/
theorem Offered.gives_topUp (h : c.Offered ts) (g : Grammar) (population : List Tree)
    (target : Nat) :
    Attempt.Gives (c.topUp g population target) (fun _ => True) fun r =>
      ∃ more, r.2.Offered (ts ++ more) := by
  refine (gives_refillWithin_of (I := fun _ c' => ∃ more, c'.Offered (ts ++ more))
    (fun _ => Attempt.gives_true _) ?_ _ ⟨[], by rwa [List.append_nil]⟩).forget
  rintro population' c' t ⟨more, hmore⟩ - -
  exact ⟨more ++ [t], by simpa using hmore.addUnique population' t⟩

/-- **A tree is turned away if one of its shape was offered before**, and taken in otherwise. -/
theorem Offered.addUnique_eq (h : c.Offered ts) {t : Tree} (ht : t.CountsFit)
    (hts : ∀ u ∈ ts, u.CountsFit) (hcollide : Tree.NoCollision (t :: ts)) (population : List Tree) :
    ((∃ u ∈ ts, u.SameShape t) → c.addUnique population t = (population, c)) ∧
      ((∀ u ∈ ts, ¬ u.SameShape t) → (c.addUnique population t).1 = population ++ [t]) := by
  have hknown := (h.contains_iff _).trans (Tree.mem_map_shapeHash_iff ht hts hcollide)
  rcases c.addUnique_cases population t with ⟨hold, heq⟩ | ⟨hnew, heq⟩ <;> rw [heq]
  · refine ⟨fun _ => rfl, fun hno => ?_⟩
    obtain ⟨u, hu, hshape⟩ := hknown.mp hold
    exact absurd hshape (hno u hu)
  · refine ⟨fun hshape => ?_, fun _ => rfl⟩
    rw [hknown.mpr hshape] at hnew
    exact Bool.noConfusion hnew

end Census

/-! ### Corpora -/

namespace Corpus

/-- **A corpus that has been offered some trees**, those that met the hard constraints. -/
inductive Offered : Corpus → List Tree → Prop
  | empty : Offered {} []
  | add {c : Corpus} {ts : List Tree} (t : Tree) (e : Evaluation Float) (generation : Nat) :
    Offered c ts → Offered (c.add t e generation) (if e.success then ts ++ [t] else ts)

variable {c : Corpus} {ts : List Tree}

/-- **What a corpus that was offered a tree becomes**: the tree is turned away, since it does not
meet the constraints or is known, or it is the last solution. -/
theorem add_cases (c : Corpus) (t : Tree) (e : Evaluation Float) (generation : Nat) :
    ((e.success = false ∨ c.known.contains t.shapeHash = true) ∧ c.add t e generation = c) ∨
      ((e.success = true ∧ c.known.contains t.shapeHash = false) ∧ c.add t e generation =
        ⟨c.entries ++ [⟨t, e.softValues, generation⟩], c.known.insert t.shapeHash⟩) := by
  rw [Corpus.add]
  cases hsuccess : e.success with
  | false => exact Or.inl ⟨Or.inl rfl, if_pos rfl⟩
  | true =>
    cases hknown : c.known.contains t.shapeHash with
    | true => exact Or.inl ⟨Or.inr rfl, if_pos rfl⟩
    | false => exact Or.inr ⟨⟨rfl, rfl⟩, if_neg Bool.false_ne_true⟩

/-- **A corpus knows the digests of the solutions it was offered**, and no others. -/
theorem Offered.contains_iff (h : c.Offered ts) :
    ∀ hash, c.known.contains hash = true ↔ hash ∈ ts.map Tree.shapeHash := by
  induction h with
  | empty => intro hash; simp
  | @add c ts t e generation _ ih =>
    intro hash
    rcases c.add_cases t e generation with ⟨hold, heq⟩ | ⟨⟨hsuccess, -⟩, heq⟩ <;> rw [heq]
    · split
      · rename_i hsuccess
        have hmem := (ih _).mp (hold.resolve_left (by rw [hsuccess]; exact Bool.noConfusion))
        rw [ih, List.map_append, List.mem_append, List.map_singleton, List.mem_singleton]
        refine (or_iff_left_of_imp ?_).symm
        rintro rfl
        exact hmem
      · exact ih hash
    · rw [if_pos hsuccess, List.map_append]
      exact contains_insert_iff ih _ hash

/-- **A solution is turned away if one of its shape was offered before**, and taken in otherwise. -/
theorem Offered.add_eq (h : c.Offered ts) {t : Tree} (ht : t.CountsFit)
    (hts : ∀ u ∈ ts, u.CountsFit) (hcollide : Tree.NoCollision (t :: ts)) (e : Evaluation Float)
    (generation : Nat) :
    ((e.success = false ∨ ∃ u ∈ ts, u.SameShape t) → c.add t e generation = c) ∧
      (e.success = true → (∀ u ∈ ts, ¬ u.SameShape t) →
        (c.add t e generation).entries = c.entries ++ [⟨t, e.softValues, generation⟩]) := by
  have hknown := (h.contains_iff _).trans (Tree.mem_map_shapeHash_iff ht hts hcollide)
  rcases c.add_cases t e generation with ⟨hold, heq⟩ | ⟨⟨hsuccess, hnew⟩, heq⟩ <;> rw [heq]
  · refine ⟨fun _ => rfl, fun hsuccess hno => ?_⟩
    rcases hold with hfailed | hold
    · rw [hsuccess] at hfailed
      exact Bool.noConfusion hfailed
    · obtain ⟨u, hu, hshape⟩ := hknown.mp hold
      exact absurd hshape (hno u hu)
  · refine ⟨fun hold => ?_, fun _ _ => rfl⟩
    rcases hold with hfailed | hshape
    · rw [hsuccess] at hfailed
      exact Bool.noConfusion hfailed
    · rw [hknown.mpr hshape] at hnew
      exact Bool.noConfusion hnew

end Corpus

/-! ### Shapes and digests together -/

/-- **Trees are told apart by their shapes.** Two trees are written as the same bytes exactly if
they have the same shape, and neither encoding goes on where the other one ends. So, without
collisions of digests, a census turns a tree away exactly if it was offered one of the shape since
it was reset, and a corpus exactly if the tree does not meet the hard constraints or it was offered
a solution of the shape. -/
theorem Tree.told_apart {t u : Tree} (ht : t.CountsFit) (hu : u.CountsFit) :
    (t.encodeShape = u.encodeShape ↔ t.SameShape u) ∧
      (t.encodeShape <+: u.encodeShape → t.encodeShape = u.encodeShape) ∧
      ∀ ts : List Tree, (∀ v ∈ ts, v.CountsFit) → NoCollision (t :: ts) →
        (∀ (c : Census) (population : List Tree), c.Offered ts →
          ((∃ v ∈ ts, v.SameShape t) → c.addUnique population t = (population, c)) ∧
            ((∀ v ∈ ts, ¬ v.SameShape t) → (c.addUnique population t).1 = population ++ [t])) ∧
        ∀ (c : Corpus) (e : Evaluation Float) (generation : Nat), c.Offered ts →
          ((e.success = false ∨ ∃ v ∈ ts, v.SameShape t) → c.add t e generation = c) ∧
            (e.success = true → (∀ v ∈ ts, ¬ v.SameShape t) →
              (c.add t e generation).entries = c.entries ++ [⟨t, e.softValues, generation⟩]) := by
  refine ⟨encodeShape_eq_iff ht hu, fun h => (sameShape_of_isPrefix ht hu h).encodeShape_eq, ?_⟩
  intro ts hts hcollide
  exact ⟨fun c population h => h.addUnique_eq ht hts hcollide population,
    fun c e generation h => h.add_eq ht hts hcollide e generation⟩

/-- A text and the bytes that it renders as are two shapes, and a census takes in both. -/
theorem Tree.told_apart_text_bytes :
    (leaf (.text "a")).encodeShape ≠ (leaf (.bytes [0x61])).encodeShape ∧
      (((Census.reset ⟨{}, {}⟩).addUnique [] (leaf (.bytes [0x61]))).2.addUnique
        [leaf (.bytes [0x61])] (leaf (.text "a"))).1 =
          [leaf (.bytes [0x61]), leaf (.text "a")] := by
  have hfit : ∀ value : Literal, value.size = 1 → (leaf value).CountsFit := by
    intro value hsize
    refine ⟨?_, by decide, trivial⟩
    rw [Symbol.contentSize, hsize]
    decide
  have hshape : ¬ (leaf (.text "a")).SameShape (leaf (.bytes [0x61])) := by
    simp [leaf, SameShape, skeleton, listSkeleton]
  have hcollide : NoCollision [leaf (.text "a"), leaf (.bytes [0x61])] := by
    have hhash : (leaf (.text "a")).shapeHash ≠ (leaf (.bytes [0x61])).shapeHash := by
      decide +kernel
    simp [NoCollision, hhash, hhash.symm]
  obtain ⟨hsame, -, hknown⟩ :=
    told_apart (hfit (.text "a") (by decide)) (hfit (.bytes [0x61]) (by decide))
  refine ⟨fun h => hshape (hsame.mp h), ?_⟩
  obtain ⟨hcensus, -⟩ := hknown [leaf (.bytes [0x61])] (by simpa using hfit _ (by decide)) hcollide
  refine (hcensus _ _ (.addUnique [] _ (.reset ⟨{}, {}⟩))).2 ?_
  simpa using fun h : SameShape _ _ => hshape h.symm

end GrammarFuzzing
