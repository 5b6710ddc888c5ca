import GrammarFuzzing.Proofs.Evolution.Filling
import GrammarFuzzing.Proofs.Evolution.Transition
import GrammarFuzzing.Proofs.Evolution.Variation

/-!
# Populations stay sound

A census and a population belong together (`GrammarFuzzing.Census.Registers`): no two of the trees
have the same shape, and the census knows their shapes **and no others**. That it knows no others is
what keeps a population from dying out: a tree that is turned away is turned away because another
one of its shape is there (`GrammarFuzzing.Census.addUnique_ne_nil`). If the trees derive from the
start symbol, too, and there are only so many of them, a census **holds** them
(`GrammarFuzzing.Census.Holds`).

The loops that fill a population keep this: taking in offspring
(`GrammarFuzzing.Engine.gives_addOffspring`), topping up with random trees
(`GrammarFuzzing.Census.gives_topUp`), and keeping the elites (`GrammarFuzzing.Engine.holds_kept`).
Whatever the trees are, these loops only ever add some at the end (`GrammarFuzzing.Census.Grown`).
-/

namespace GrammarFuzzing

variable {g : Grammar}

/-! ### Known digests -/

/-- **One more digest is known**, where those of a list were known before. -/
theorem contains_insert_iff {known : Std.HashSet Bytes} {hashes : List Bytes}
    (h : ∀ hash, known.contains hash = true ↔ hash ∈ hashes) (new hash : Bytes) :
    (known.insert new).contains hash = true ↔ hash ∈ hashes ++ [new] := by
  rw [Std.HashSet.contains_insert, Bool.or_eq_true, h, List.mem_append, beq_iff_eq,
    List.mem_singleton, or_comm, eq_comm]

theorem nodup_append_of_not_mem {hashes : List Bytes} {new : Bytes} (h : hashes.Nodup)
    (hnew : new ∉ hashes) : (hashes ++ [new]).Nodup := by
  refine List.nodup_append.mpr ⟨h, List.nodup_cons.mpr ⟨List.not_mem_nil, List.nodup_nil⟩,
    fun x hx y hy => ?_⟩
  rintro rfl
  exact hnew (List.mem_singleton.mp hy ▸ hx)

namespace Census

/-- **A census registers a population**: no two of its trees have the same shape, and their shapes
and no others are known. -/
structure Registers (c : Census) (population : List Tree) : Prop where
  nodup : (population.map Tree.shapeHash).Nodup
  known : ∀ hash, c.known.contains hash = true ↔ hash ∈ population.map Tree.shapeHash

/-- **A census and a population of at most so many trees belong together.** -/
structure Holds (c : Census) (g : Grammar) (population : List Tree) (most : Nat) : Prop where
  derives : ∀ t ∈ population, g.DerivesStart t
  nodup : (population.map Tree.shapeHash).Nodup
  known : ∀ hash, c.known.contains hash = true ↔ hash ∈ population.map Tree.shapeHash
  length_le : population.length ≤ most

variable {c : Census} {population : List Tree} {most : Nat}

theorem Holds.registers (h : c.Holds g population most) : c.Registers population :=
  ⟨h.nodup, h.known⟩

theorem registers_reset (c : Census) : c.reset.Registers [] :=
  ⟨List.nodup_nil, fun hash => by simp [reset]⟩

theorem holds_reset (c : Census) (g : Grammar) (most : Nat) : c.reset.Holds g [] most :=
  ⟨fun _ h => absurd h List.not_mem_nil, c.registers_reset.nodup, c.registers_reset.known,
    Nat.zero_le _⟩

/-- **What a population was offered a tree becomes**: it is turned away, or it is the last one. -/
theorem addUnique_cases (c : Census) (population : List Tree) (t : Tree) :
    (c.known.contains t.shapeHash = true ∧ c.addUnique population t = (population, c)) ∨
      (c.known.contains t.shapeHash = false ∧ c.addUnique population t =
        (population ++ [t], { c with known := c.known.insert t.shapeHash })) := by
  rw [Census.addUnique]
  cases h : c.known.contains t.shapeHash with
  | true => exact Or.inl ⟨rfl, if_pos rfl⟩
  | false => exact Or.inr ⟨rfl, if_neg Bool.false_ne_true⟩

/-- A tree with a shape of its own is registered. -/
theorem Registers.add (h : c.Registers population) {t : Tree}
    (hnew : t.shapeHash ∉ population.map Tree.shapeHash) :
    Registers { c with known := c.known.insert t.shapeHash } (population ++ [t]) := by
  refine ⟨?_, fun hash => ?_⟩ <;> rw [List.map_append]
  · exact nodup_append_of_not_mem h.nodup hnew
  · exact contains_insert_iff h.known _ hash

/-- **A population that is offered a tree stays registered.** -/
theorem Registers.addUnique (h : c.Registers population) (t : Tree) :
    (c.addUnique population t).2.Registers (c.addUnique population t).1 := by
  rcases c.addUnique_cases population t with ⟨-, heq⟩ | ⟨hnew, heq⟩ <;> rw [heq]
  · exact h
  · refine h.add fun hmem => ?_
    rw [(h.known _).mpr hmem] at hnew
    exact Bool.noConfusion hnew

/-- **One more tree is taken in** if there is room for it. -/
theorem Holds.addUnique (h : c.Holds g population most) {t : Tree} (ht : g.DerivesStart t)
    {most' : Nat} (hroom : population.length < most') :
    (c.addUnique population t).2.Holds g (c.addUnique population t).1 most' := by
  obtain ⟨hnodup, hknown⟩ := h.registers.addUnique t
  refine ⟨?_, hnodup, hknown, ?_⟩ <;>
    rcases c.addUnique_cases population t with ⟨-, heq⟩ | ⟨-, heq⟩ <;> rw [heq]
  · exact h.derives
  · exact List.forall_mem_append.mpr ⟨h.derives, List.forall_mem_singleton.mpr ht⟩
  · exact Nat.le_of_lt hroom
  · rw [List.length_append, List.length_singleton]
    exact hroom

/-- **A population that was offered a tree is not empty.** -/
theorem addUnique_ne_nil (h : c.Holds g population most) (t : Tree) :
    (c.addUnique population t).1 ≠ [] := by
  rcases c.addUnique_cases population t with ⟨hknown, heq⟩ | ⟨-, heq⟩ <;> rw [heq]
  · rintro rfl
    exact absurd ((h.known _).mp hknown) List.not_mem_nil
  · exact List.append_ne_nil_of_right_ne_nil _ (List.cons_ne_nil _ _)

/-- **What a population has grown to**: it is still there, with at most so many trees in all, and
registered. -/
structure Grown (population : List Tree) (most : Nat) (r : List Tree × Census) : Prop where
  kept : population <+: r.1
  registers : r.2.Registers r.1
  length_le : r.1.length ≤ most

theorem Registers.grown (h : c.Registers population) (hle : population.length ≤ most) :
    Grown population most (population, c) :=
  ⟨List.prefix_rfl, h, hle⟩

theorem Grown.trans {r r' : List Tree × Census} {most' : Nat} (h : Grown population most r)
    (h' : Grown r.1 most' r') : Grown population most' r' :=
  ⟨h.kept.trans h'.kept, h'.registers, h'.length_le⟩

theorem Registers.grown_addUnique (h : c.Registers population) (t : Tree)
    (hroom : population.length < most) : Grown population most (c.addUnique population t) := by
  refine ⟨?_, h.addUnique t, ?_⟩ <;>
    rcases c.addUnique_cases population t with ⟨-, heq⟩ | ⟨-, heq⟩ <;> rw [heq]
  · exact List.prefix_append _ _
  · exact Nat.le_of_lt hroom
  · rw [List.length_append, List.length_singleton]
    exact hroom

/-- **Topping up only adds trees**, whatever the grammar. -/
theorem gives_grown_topUp (g : Grammar) {target : Nat} (h : c.Registers population)
    (hle : population.length ≤ target) :
    Attempt.Gives (c.topUp g population target) (fun _ => True) (Grown population target) := by
  refine (gives_refillWithin_of (I := fun ts c' => Grown population target (ts, c'))
    (fun _ => Attempt.gives_true _) ?_ _ (h.grown hle)).forget
  intro ts c' t hgrown hroom _
  exact hgrown.trans (hgrown.registers.grown_addUnique t hroom)

/-- **Topping up keeps a population sound.** -/
theorem gives_topUp (hg : g.Evolvable) {target : Nat} (h : c.Holds g population target) :
    Attempt.Gives (c.topUp g population target) (fun _ => True) fun r =>
      r.2.Holds g r.1 target ∧ (population ≠ [] → r.1 ≠ []) := by
  refine (gives_refillWithin_of
    (I := fun ts c' => c'.Holds g ts target ∧ (population ≠ [] → ts ≠ []))
    (fun _ => hg.gives_fuzzSymbol _ hg.start_mem _) ?_ _ ⟨h, id⟩).forget
  rintro ts c' t ⟨hholds, -⟩ hroom ht
  exact ⟨hholds.addUnique ht hroom, fun _ => addUnique_ne_nil hholds t⟩

end Census

/-! ### Offspring -/

/-- Offspring whose trees derive from the start symbol. -/
def OffspringDerives (g : Grammar) (offspring : List Offspring) : Prop :=
  ∀ o ∈ offspring, g.DerivesStart o.tree

/-- **A strategy mutates within the language.** -/
def Strategy.Sound {τ : Type} (strategy : Strategy τ) (g : Grammar) : Prop :=
  ∀ memory failing {t : Tree}, g.DerivesStart t → Draw.Gives (strategy.mutate memory g t failing)
    fun r => ∀ u, r.1 = .ok u → g.DerivesStart u

namespace Engine

variable {τ : Type}

/-- **A population that takes in offspring**: there is room for all that are left of them, and the
next generation will not be empty if there are any trees to make it of. -/
structure Takes (g : Grammar) (most : Nat) (some : Prop) (rest : List Offspring)
    (population : List Tree) (c : Census) : Prop where
  offspring : OffspringDerives g rest
  holds : ∃ room, room + rest.length = most ∧ c.Holds g population room
  ne_nil : some → population ≠ [] ∨ rest ≠ []

theorem Takes.addUnique {most : Nat} {some : Prop} {o : Offspring} {rest : List Offspring}
    {population : List Tree} {c : Census} (h : Takes g most some (o :: rest) population c)
    {t : Tree}
    (ht : g.DerivesStart t) :
    Takes g most some rest (c.addUnique population t).1 (c.addUnique population t).2 := by
  obtain ⟨room, hroom, hholds⟩ := h.holds
  rw [List.length_cons] at hroom
  refine ⟨fun p hp => h.offspring p (List.mem_cons_of_mem _ hp), ⟨room + 1, by omega, ?_⟩, ?_⟩
  · exact hholds.addUnique ht (Nat.lt_succ_of_le hholds.length_le)
  · exact fun _ => Or.inl (Census.addUnique_ne_nil hholds t)

/-- **Taking in offspring keeps a population sound.** -/
theorem gives_addOffspring {strategy : Strategy τ} (hstrategy : strategy.Sound g) (rate : Float)
    {offspring : List Offspring} {memory : τ} {population : List Tree} {census : Census}
    {most : Nat} (hoffspring : OffspringDerives g offspring)
    (h : census.Holds g population most) :
    Attempt.Gives (addOffspring strategy g rate offspring memory population census)
      (fun _ => True) fun r => r.2.2.Holds g r.2.1 (most + offspring.length) ∧
        (population ≠ [] ∨ offspring ≠ [] → r.2.1 ≠ []) := by
  refine (gives_addOffspring_of (I := fun rest _ ts c => Takes g (most + offspring.length)
    (population ≠ [] ∨ offspring ≠ []) rest ts c) (fun htakes => ?_)
    (fun {o _ memory _ _} htakes => ?_) offspring ⟨hoffspring, ⟨most, rfl, h⟩, id⟩).mono ?_
  · exact htakes.addUnique (htakes.offspring _ List.mem_cons_self)
  · have ho := htakes.offspring o List.mem_cons_self
    refine (hstrategy memory o.failing ho).mono fun r hr => ⟨fun _ _ => trivial, fun t ht => ?_⟩
    rcases ht with ht | rfl
    · exact htakes.addUnique (hr t ht)
    · exact htakes.addUnique ho
  · rintro r ⟨-, ⟨room, hroom, hholds⟩, hne⟩
    rw [List.length_nil, Nat.add_zero] at hroom
    exact ⟨hroom ▸ hholds, fun hsome => (hne hsome).resolve_right fun hno => hno rfl⟩

/-- **Taking in offspring only adds trees**, at most one for each of them, whatever the strategy. -/
theorem gives_grown_addOffspring (strategy : Strategy τ) (g : Grammar) (rate : Float)
    {offspring : List Offspring} {memory : τ} {population : List Tree} {census : Census}
    (h : census.Registers population) :
    Attempt.Gives (addOffspring strategy g rate offspring memory population census)
      (fun _ => True) fun r =>
        Census.Grown population (population.length + offspring.length) r.2 := by
  -- What is left of the offspring will fit, whatever tree is taken in for the next one.
  have hnext : ∀ {rest : List Offspring} {ts : List Tree} {c : Census} (t : Tree),
      (∃ room, room + (rest.length + 1) = population.length + offspring.length ∧
        Census.Grown population room (ts, c)) →
      ∃ room, room + rest.length = population.length + offspring.length ∧
        Census.Grown population room (c.addUnique ts t) := by
    rintro rest ts c t ⟨room, hroom, hgrown⟩
    refine ⟨room + 1, by omega, hgrown.trans ?_⟩
    exact hgrown.registers.grown_addUnique t (Nat.lt_succ_of_le hgrown.length_le)
  refine (gives_addOffspring_of (I := fun rest _ ts c =>
    ∃ room, room + rest.length = population.length + offspring.length ∧
      Census.Grown population room (ts, c)) (hnext _) (fun hgrown => ?_) offspring
    ⟨_, rfl, h.grown (Nat.le_refl _)⟩).mono ?_
  · exact (Draw.gives_true _).mono fun _ _ => ⟨fun _ _ => trivial, fun t _ => hnext t hgrown⟩
  · rintro r ⟨room, hroom, hgrown⟩
    rw [List.length_nil, Nat.add_zero] at hroom
    exact hroom ▸ hgrown

/-- Crossover of neighbours makes as many offspring as there were. -/
theorem gives_length_crossPairs (rate : Float) : ∀ offspring : List Offspring,
    Draw.Gives (crossPairs rate offspring) (·.length = offspring.length)
  | [] => Draw.gives_pure rfl
  | [_] => Draw.gives_pure rfl
  | a :: b :: rest => by
    have hnext : ∀ a' b' : Offspring, Draw.Gives (do return a' :: b' :: (← crossPairs rate rest))
        (·.length = (a :: b :: rest).length) := fun a' b' =>
      (gives_length_crossPairs rate rest).bind fun r hr => Draw.gives_pure (by
        rw [List.length_cons, List.length_cons, hr, List.length_cons, List.length_cons])
    rw [crossPairs]
    refine (Draw.gives_true _).bind fun crossed _ => ?_
    dsimp only
    split
    · refine (Draw.gives_true _).bind fun children _ => ?_
      split <;> exact hnext _ _
    · exact hnext a b

/-- **Crossover of neighbours** stays within the language. -/
theorem gives_crossPairs (rate : Float) : ∀ {offspring : List Offspring},
    OffspringDerives g offspring → Draw.Gives (crossPairs rate offspring) (OffspringDerives g)
  | [], h => Draw.gives_pure h
  | [_], h => Draw.gives_pure h
  | a :: b :: rest, h => by
    have ha := h a List.mem_cons_self
    have hb := h b (List.mem_cons_of_mem _ List.mem_cons_self)
    have hrest : OffspringDerives g rest := fun o ho =>
      h o (List.mem_cons_of_mem _ (List.mem_cons_of_mem _ ho))
    have hnext : ∀ a' b' : Offspring, g.DerivesStart a'.tree → g.DerivesStart b'.tree →
        Draw.Gives (do return a' :: b' :: (← crossPairs rate rest)) (OffspringDerives g) := by
      intro a' b' ha' hb'
      refine (gives_crossPairs rate hrest).bind fun r hr => Draw.gives_pure fun o ho => ?_
      rcases List.mem_cons.mp ho with rfl | ho
      · exact ha'
      · rcases List.mem_cons.mp ho with rfl | ho
        · exact hb'
        · exact hr o ho
    rw [crossPairs]
    refine (Draw.gives_true _).bind fun crossed _ => ?_
    dsimp only
    split
    · refine (gives_crossover ha hb a.failing).bind fun children hchildren => ?_
      split
      · rename_i s t
        obtain ⟨hs, ht⟩ := hchildren s t rfl
        exact hnext { a with tree := s } { b with tree := t } hs ht
      · exact hnext a b ha hb
    · exact hnext a b ha hb

/-! ### Elites and parents -/

variable {e : Engine τ}

/-- A population that is taken in tree by tree. -/
theorem holds_foldl_addUnique : ∀ {ts : List Tree} {population : List Tree} {census : Census}
    {most : Nat}, (∀ t ∈ ts, g.DerivesStart t) → census.Holds g population most →
      (ts.foldl (fun (p, c) t => c.addUnique p t) (population, census)).2.Holds g
        (ts.foldl (fun (p, c) t => c.addUnique p t) (population, census)).1 (most + ts.length)
  | [], _, _, _, _, h => h
  | t :: ts, population, census, most, hts, h => by
    have hadded := h.addUnique (hts t List.mem_cons_self) (Nat.lt_succ_of_le h.length_le)
    have hrest := holds_foldl_addUnique (fun u hu => hts u (List.mem_cons_of_mem _ hu)) hadded
    rw [List.length_cons, Nat.add_comm ts.length, ← Nat.add_assoc]
    exact hrest

theorem length_elites_le (e : Engine τ) : e.elites.length ≤ e.settings.populationSize := by
  refine Nat.le_trans (List.length_filterMap_le _ _) ?_
  rw [eliteIndices]
  refine Nat.le_trans (List.length_take_le _ _) ?_
  exact Nat.min_le_right _ _

/-- **The elites** are a sound population. -/
theorem holds_kept (h : ∀ t ∈ e.population, g.DerivesStart t) :
    e.kept.2.Holds g e.kept.1 e.settings.populationSize := by
  have helites : ∀ t ∈ e.elites, g.DerivesStart t := by
    intro t ht
    obtain ⟨i, -, hi⟩ := List.mem_filterMap.mp ht
    exact h t (List.mem_of_getElem? hi)
  have hkept := holds_foldl_addUnique helites (e.census.holds_reset g 0)
  exact { hkept with
    length_le := Nat.le_trans hkept.length_le (by rw [Nat.zero_add]; exact e.length_elites_le) }

/-- **Parents** are as many as asked for. -/
theorem gives_length_pickParents (e : Engine τ) (fitness : List Float) : ∀ n,
    Attempt.Gives (e.pickParents fitness n) (fun _ => True) (·.length = n)
  | 0 => Attempt.gives_pure rfl
  | n + 1 => by
    rw [pickParents]
    refine (Attempt.gives_true _).bind fun i _ => ?_
    split
    · exact (e.gives_length_pickParents fitness n).bind fun rest hrest =>
        Attempt.gives_pure (congrArg Nat.succ hrest)
    · exact Attempt.gives_throw trivial

/-- **Parents**, repaired or not, are in the language. -/
theorem gives_pickParents (hg : e.grammar.Evolvable)
    (h : ∀ t ∈ e.population, e.grammar.DerivesStart t) (fitness : List Float) : ∀ n,
      Attempt.Gives (e.pickParents fitness n) (fun _ => True) (OffspringDerives e.grammar)
  | 0 => Attempt.gives_pure fun _ ho => absurd ho List.not_mem_nil
  | n + 1 => by
    rw [pickParents]
    refine (Attempt.gives_true _).bind fun i _ => ?_
    split
    · rename_i t s ht hs
      refine (gives_pickParents hg h fitness n).bind fun rest hrest => ?_
      refine Attempt.gives_pure fun o ho => ?_
      rcases List.mem_cons.mp ho with rfl | ho
      · exact derivesStart_repair hg (h t (List.mem_of_getElem? ht)) s.failing
      · exact hrest o ho
    · exact Attempt.gives_throw trivial

end Engine

end GrammarFuzzing
