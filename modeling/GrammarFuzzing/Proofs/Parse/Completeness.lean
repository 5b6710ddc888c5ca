import GrammarFuzzing.Proofs.Parse.Avoidance
import GrammarFuzzing.Proofs.Parse.Search
import Mathlib.Data.Finset.Prod
import Mathlib.Data.List.TakeWhile

/-!
# What a search misses

A search that fails has nothing to find, as long as no goal in its scope leads back to itself by
productions that yield nothing (`GrammarFuzzing.Search.kept_goalChildren`). In scope is what occurs
in a reading of what is searched for: a goal is looked for only when everything around it has been
read.

What a search promises is `GrammarFuzzing.Search.Promise`, for a stretch of the input that it
searches. Failures are remembered relative to the goals that were active at the time, and that is
the difficulty: a goal that failed because another one was active stays on record when the other one
has been found. The promise therefore has three parts.

* **If the search fails**, everything on record up to a position has failed for good, as far as
  active goals can be avoided (`GrammarFuzzing.Search.Upto`), and so has what was searched for. A
  goal that fails takes all failures inside it along, since cutting cycles loses nothing.
* **If it succeeds**, nothing is said of the records it made, but they all lie on its stretch. What
  comes after an atom is searched first, so what is searched next lies to the left of them, and only
  empty stretches are left to worry about.
* **On empty stretches** a failure is a failure whatever is active
  (`GrammarFuzzing.Search.Clean`): active goals there lie above everything that is looked for, and a
  reading that passes one of them would close a loop.
-/

namespace GrammarFuzzing

namespace Search

variable {f : FlatGrammar} {input : Array UInt8} {root : Goal} {scope : Goal → Nat → Nat → Prop}

/-! ### Sets of keys

The memories of a search are sets of keys. To look for something marks its key, and afterwards the
marks are as before. Each mark uses up one of finitely many places. -/

section Keys

variable {κ : Type} {active : κ → Prop} {key : κ}

section Contains

variable [BEq κ] [LawfulBEq κ] [Hashable κ] {s : Std.HashSet κ}

theorem contains_insert_eq (hs : (fun k => s.contains k = true) = active) (key : κ) :
    (fun k => (s.insert key).contains k = true) = fun k => k = key ∨ active k := by
  subst hs
  funext k
  simp only [Std.HashSet.contains_insert, Bool.or_eq_true, beq_iff_eq, @eq_comm _ key k]

theorem contains_erase_eq (hs : (fun k => s.contains k = true) = fun k => k = key ∨ active k)
    (hkey : ¬ active key) : (fun k => (s.erase key).contains k = true) = active := by
  funext k
  have h : (s.contains k = true) = (k = key ∨ active k) := congrFun hs k
  simp only [Std.HashSet.contains_erase, Bool.and_eq_true, h]
  by_cases hsame : key = k
  · subst hsame
    simp [hkey]
  · simp [hsame, Ne.symm hsame]

theorem contains_or_eq {k : κ} (h : (s.insert key).contains k = true) :
    s.contains k = true ∨ k = key := by
  rw [Std.HashSet.contains_insert, Bool.or_eq_true, beq_iff_eq] at h
  exact h.symm.imp_right Eq.symm

end Contains

open Classical in
/-- One more mark leaves fewer places. -/
theorem card_unmarked_lt {active' : κ → Prop} {places : Finset κ} (hplace : key ∈ places)
    (hkey : ¬ active key) (hmarked : active' key) (hmore : ∀ k, active k → active' k) :
    (places.filter fun k => ¬ active' k).card < (places.filter fun k => ¬ active k).card := by
  refine Finset.card_lt_card ((Finset.ssubset_iff_of_subset fun k hmem => ?_).mpr ?_)
  · obtain ⟨hmem, hno⟩ := Finset.mem_filter.mp hmem
    exact Finset.mem_filter.mpr ⟨hmem, fun h => hno (hmore k h)⟩
  · exact ⟨key, Finset.mem_filter.mpr ⟨hplace, hkey⟩, fun h => (Finset.mem_filter.mp h).2 hmarked⟩

end Keys

/-! ### Records of failures -/

/-- The goals that are being looked for. -/
def Active (s : SearchState) (key : Goal × Nat × Nat) : Prop :=
  s.activeGoals.contains key = true

/-- **What failed up to a position** cannot be read without passing an active goal. -/
structure Upto (f : FlatGrammar) (input : Array UInt8) (active : Goal × Nat × Nat → Prop)
    (limit : Nat) (s : SearchState) : Prop where
  goals : ∀ goal i j, s.failedGoals.contains (goal, i, j) = true → j ≤ limit →
    ¬ active (goal, i, j) → ¬ f.SpansAvoiding input active goal i j
  atoms : ∀ k dot i j, s.failedAtoms.contains (k, dot, i, j) = true → j ≤ limit →
    ∀ p, f.productions[k]? = some p → ¬ f.Avoids input active (p.atoms.toList.drop dot) i j

/-- **What failed on an empty stretch** cannot be read at all. -/
structure Clean (f : FlatGrammar) (input : Array UInt8) (s : SearchState) : Prop where
  goals : ∀ goal i, s.failedGoals.contains (goal, i, i) = true → ¬ f.Spans input goal i i
  atoms : ∀ k dot i, s.failedAtoms.contains (k, dot, i, i) = true →
    ∀ p, f.productions[k]? = some p → ¬ f.Reads input (p.atoms.toList.drop dot) i i

/-- The state in which a search may start. -/
structure Ready (f : FlatGrammar) (input : Array UInt8) (active : Goal × Nat × Nat → Prop)
    (limit : Nat) (s : SearchState) : Prop where
  active_eq : Active s = active
  upto : Upto f input active limit s
  clean : Clean f input s

/-- **What the result of a search between two positions keeps**, and what follows if it fails. -/
structure Kept (f : FlatGrammar) (input : Array UInt8) (active : Goal × Nat × Nat → Prop)
    (limit start stop : Nat) (fails : Prop) (s : SearchState)
    (result : Option (List Tree) × SearchState) : Prop where
  active_eq : Active result.2 = active
  clean : Clean f input result.2
  goals : ∀ goal i j, result.2.failedGoals.contains (goal, i, j) = true →
    s.failedGoals.contains (goal, i, j) = true ∨ start ≤ i ∧ j ≤ stop
  atoms : ∀ k dot i j, result.2.failedAtoms.contains (k, dot, i, j) = true →
    s.failedAtoms.contains (k, dot, i, j) = true ∨ start ≤ i ∧ j ≤ stop
  partials : result.2.failedPartials = s.failedPartials ∧
    result.2.activePartials = s.activePartials
  failed : result.1 = none → Upto f input active limit result.2 ∧ fails

/-- **The promise of a search**, from every state in which it may start. -/
def Promise (f : FlatGrammar) (input : Array UInt8) (active : Goal × Nat × Nat → Prop)
    (limit start stop : Nat) (fails : Prop) (search : Search) : Prop :=
  ∀ s, Ready f input active limit s → Kept f input active limit start stop fails s (search.run s)

section Kept

variable {active : Goal × Nat × Nat → Prop} {limit start stop : Nat} {fails fails' : Prop}
  {s : SearchState} {result : Option (List Tree) × SearchState}

theorem Kept.refl (hs : Ready f input active limit s) (r : Option (List Tree))
    (h : r = none → fails) : Kept f input active limit start stop fails s (r, s) :=
  ⟨hs.active_eq, hs.clean, fun _ _ _ => Or.inl, fun _ _ _ _ => Or.inl, ⟨rfl, rfl⟩,
    fun hr => ⟨hs.upto, h hr⟩⟩

theorem Kept.mono (h : Kept f input active limit start stop fails s result)
    (hfails : fails → fails') : Kept f input active limit start stop fails' s result :=
  ⟨h.active_eq, h.clean, h.goals, h.atoms, h.partials, fun hr => (h.failed hr).imp_right hfails⟩

/-- Whatever is found, the records stay as they are. -/
theorem Kept.found {r : Option (List Tree)} {s' : SearchState} {limit' : Nat}
    (h : Kept f input active limit' start stop fails s (r, s')) (ts : List Tree) :
    Kept f input active limit start stop fails' s (some ts, s') :=
  ⟨h.active_eq, h.clean, h.goals, h.atoms, h.partials, fun hr => absurd hr (Option.some_ne_none ts)⟩

/-- After a search that failed the next one may start. -/
theorem Kept.ready (h : Kept f input active limit start stop fails s result)
    (hr : result.1 = none) : Ready f input active limit result.2 :=
  ⟨h.active_eq, (h.failed hr).1, h.clean⟩

/-- **After any search one to the left of it may start**: of the failures it has recorded, only
those on an empty stretch matter there. -/
theorem Kept.ready_left (hs : Ready f input active limit s)
    (h : Kept f input active limit start stop fails s result) {limit' : Nat}
    (hlimit : limit' ≤ limit) (hleft : ∀ j ≤ limit', j ≤ stop → j ≤ start) :
    Ready f input active limit' result.2 := by
  -- A new record that ends up to `limit'` starts and ends at `start`.
  refine ⟨h.active_eq, ⟨fun goal i j hfailed hj hactive hspans => ?_,
    fun k dot i j hfailed hj p hp havoids => ?_⟩, h.clean⟩
  · rcases h.goals goal i j hfailed with hold | ⟨hi, hstop⟩
    · exact hs.upto.goals goal i j hold (by omega) hactive hspans
    · have hle := hspans.spans.le
      have hstart := hleft j hj hstop
      obtain rfl : i = j := by omega
      exact h.clean.goals goal i hfailed hspans.spans
  · rcases h.atoms k dot i j hfailed with hold | ⟨hi, hstop⟩
    · exact hs.upto.atoms k dot i j hold (by omega) p hp havoids
    · have hle := havoids.reads.le
      have hstart := hleft j hj hstop
      obtain rfl : i = j := by omega
      exact h.clean.atoms k dot i hfailed p hp havoids.reads

/-- Two searches one after the other, each within the stretch. -/
theorem Kept.trans {limit' start' stop' : Nat} {middle : Prop}
    {result' : Option (List Tree) × SearchState}
    (h₁ : Kept f input active limit' start' stop' middle s result')
    (h₂ : Kept f input active limit start stop fails result'.2 result) (hstart : start ≤ start')
    (hstop : stop' ≤ stop) : Kept f input active limit start stop fails s result := by
  refine ⟨h₂.active_eq, h₂.clean, fun goal i j h => ?_, fun k dot i j h => ?_,
    ⟨h₂.partials.1.trans h₁.partials.1, h₂.partials.2.trans h₁.partials.2⟩, h₂.failed⟩
  · rcases h₂.goals goal i j h with h | h
    · exact (h₁.goals goal i j h).imp_right fun h => ⟨by omega, by omega⟩
    · exact Or.inr h
  · rcases h₂.atoms k dot i j h with h | h
    · exact (h₁.atoms k dot i j h).imp_right fun h => ⟨by omega, by omega⟩
    · exact Or.inr h

/-- The same result with other children. -/
theorem Kept.map (h : Kept f input active limit start stop fails s result)
    (g : List Tree → List Tree) :
    Kept f input active limit start stop fails s (result.1.map g, result.2) :=
  ⟨h.active_eq, h.clean, h.goals, h.atoms, h.partials,
    fun hr => h.failed (Option.map_eq_none_iff.mp hr)⟩

theorem Kept.widen {start' stop' : Nat}
    (h : Kept f input active limit start stop fails s result) (hstart : start' ≤ start)
    (hstop : stop ≤ stop') : Kept f input active limit start' stop' fails s result :=
  ⟨h.active_eq, h.clean,
    fun goal i j hf => (h.goals goal i j hf).imp_right fun h => ⟨by omega, by omega⟩,
    fun k dot i j hf => (h.atoms k dot i j hf).imp_right fun h => ⟨by omega, by omega⟩, h.partials,
    h.failed⟩

end Kept

/-! ### Combinators -/

section Promise

variable {α : Type} {active : Goal × Nat × Nat → Prop} {limit start stop : Nat} {fails : Prop}
  {search tail : Search}

theorem promise_none (h : fails) :
    Promise f input active limit start stop fails (return none) :=
  fun _ hs => Kept.refl hs none fun _ => h

theorem promise_some (ts : List Tree) :
    Promise f input active limit start stop fails (return some ts) :=
  fun _ hs => Kept.refl hs (some ts) fun h => absurd h (by simp)

theorem Promise.mono {fails' : Prop} (h : Promise f input active limit start stop fails search)
    (hfails : fails → fails') : Promise f input active limit start stop fails' search :=
  fun s hs => (h s hs).mono hfails

/-- A list of searches fails when all of them do. -/
theorem promise_first {search : α → Search} {fails : α → Prop} {as : List α}
    (h : ∀ a ∈ as, Promise f input active limit start stop (fails a) (search a)) :
    Promise f input active limit start stop (∀ a ∈ as, fails a) (first search as) := by
  induction as with
  | nil => exact promise_none (by simp)
  | cons a as ih =>
    intro s hs
    have ha := h a List.mem_cons_self s hs
    rw [run_first_cons]
    rcases hrun : (search a).run s with ⟨_ | ts, s'⟩
    · rw [hrun] at ha
      have hrest := ih (fun b hb => h b (List.mem_cons_of_mem _ hb)) s' (ha.ready rfl)
      refine (ha.trans hrest (Nat.le_refl _) (Nat.le_refl _)).mono fun hall b hb => ?_
      rcases List.mem_cons.mp hb with rfl | hb
      · exact (ha.failed rfl).2
      · exact hall b hb
    · rw [hrun] at ha
      exact ha.found ts

theorem promise_guarded {hopeless : SearchState → Bool}
    (hhopeless : ∀ s, Ready f input active limit s → hopeless s = true → fails)
    (h : ∀ s, Ready f input active limit s → hopeless s = false →
      Promise f input active limit start stop fails search) :
    Promise f input active limit start stop fails (guarded hopeless search) := by
  intro s hs
  rw [run_guarded]
  split
  · exact Kept.refl hs none fun _ => hhopeless s hs ‹_›
  · exact h s hs (by simpa using ‹¬ hopeless s = true›) s hs

/-- A leaf before what comes after it. -/
theorem Promise.before_leaf (h : Promise f input active limit start stop fails tail)
    (ts : List Tree) :
    Promise f input active limit start stop fails (before (return some ts) tail) := by
  intro s hs
  have htail := h s hs
  rw [run_before]
  rcases hrun : tail.run s with ⟨_ | after, s'⟩
  · rw [hrun] at htail
    exact htail
  · rw [hrun] at htail
    exact htail.found (ts ++ after)

theorem Promise.widen {start' stop' : Nat}
    (h : Promise f input active limit start stop fails search) (hstart : start' ≤ start)
    (hstop : stop ≤ stop') : Promise f input active limit start' stop' fails search :=
  fun s hs => (h s hs).widen hstart hstop

/-- **Failed atoms are recorded.** -/
theorem Promise.noting_atoms {k dot : Nat} {p : Production} (hp : f.productions[k]? = some p)
    (h : Promise f input active limit start stop fails search)
    (havoids : fails → ¬ f.Avoids input active (p.atoms.toList.drop dot) start stop)
    (hreads : fails → start = stop →
      ¬ f.Reads input (p.atoms.toList.drop dot) start stop) :
    Promise f input active limit start stop fails
      (noting (SearchState.failAtoms (k, dot, start, stop)) search) := by
  intro s hs
  have hsearch := h s hs
  rw [run_noting]
  rcases hrun : search.run s with ⟨_ | ts, s'⟩
  · rw [hrun] at hsearch
    obtain ⟨hupto, hfails⟩ := hsearch.failed rfl
    -- Each record is an old one or the new one, on the stretch of the search itself.
    refine ⟨hsearch.active_eq, ⟨hsearch.clean.goals, ?_⟩, hsearch.goals, ?_, hsearch.partials,
      fun _ => ⟨⟨hupto.goals, ?_⟩, hfails⟩⟩
    · intro k' dot' i hkey p' hp'
      rcases contains_or_eq hkey with hkey | hkey
      · exact hsearch.clean.atoms k' dot' i hkey p' hp'
      · obtain ⟨rfl, rfl, rfl, hstop⟩ := by simpa only [Prod.mk.injEq] using hkey
        obtain rfl := Option.some.inj (hp.symm.trans hp')
        subst hstop
        exact hreads hfails rfl
    · intro k' dot' i j hkey
      rcases contains_or_eq hkey with hkey | hkey
      · exact hsearch.atoms k' dot' i j hkey
      · obtain ⟨-, -, rfl, rfl⟩ := by simpa only [Prod.mk.injEq] using hkey
        exact Or.inr ⟨Nat.le_refl _, Nat.le_refl _⟩
    · intro k' dot' i j hkey hj p' hp'
      rcases contains_or_eq hkey with hkey | hkey
      · exact hupto.atoms k' dot' i j hkey hj p' hp'
      · obtain ⟨rfl, rfl, rfl, rfl⟩ := by simpa only [Prod.mk.injEq] using hkey
        obtain rfl := Option.some.inj (hp.symm.trans hp')
        exact havoids hfails
  · rw [hrun] at hsearch
    exact hsearch.found ts

end Promise

/-! ### Goals -/

section Goal

variable {active : Goal × Nat × Nat → Prop} {limit i j : Nat} {goal : Goal} {search : Search}

theorem Ready.enterGoal {s : SearchState} (hs : Ready f input active limit s)
    (key : Goal × Nat × Nat) :
    Ready f input (FlatGrammar.alsoActive key active) limit (s.enterGoal key) := by
  refine ⟨contains_insert_eq hs.active_eq key, ⟨fun goal i j hfailed hj hactive => ?_,
    fun k dot i j hfailed hj p hp havoids => ?_⟩, ⟨hs.clean.goals, hs.clean.atoms⟩⟩
  · rintro ⟨atoms, halt, hatoms⟩
    exact hs.upto.goals goal i j hfailed hj (fun h => hactive (Or.inr h))
      ⟨atoms, halt, hatoms.mono fun _ => Or.inr⟩
  · exact hs.upto.atoms k dot i j hfailed hj p hp (havoids.mono fun _ => Or.inr)

/-- **A goal that fails takes the failures inside it along**: they were recorded while it was
active, and hold without it. -/
theorem Upto.leave {s : SearchState}
    (hs : Upto f input (FlatGrammar.alsoActive (goal, i, j) active) limit s)
    (hfails : ¬ f.SpansAvoiding input (FlatGrammar.alsoActive (goal, i, j) active) goal i j) :
    Upto f input active limit ((s.leaveGoal (goal, i, j)).failGoal (goal, i, j)) := by
  refine ⟨fun goal' i' j' hkey hj hactive => ?_, fun k dot i' j' hkey hj p hp havoids => ?_⟩
  · rintro ⟨atoms, halt, hatoms⟩
    -- The reading does not pass the goal, which has none, so it was possible inside it as well.
    have hspans : f.SpansAvoiding input (FlatGrammar.alsoActive (goal, i, j) active) goal' i' j' :=
      ⟨atoms, halt, hatoms.of_not_spansAvoiding hfails⟩
    by_cases hsame : (goal', i', j') = (goal, i, j)
    · obtain ⟨rfl, rfl, rfl⟩ := by simpa only [Prod.mk.injEq] using hsame
      exact hfails hspans
    · have hfailed := (contains_or_eq hkey).resolve_right hsame
      exact hs.goals goal' i' j' hfailed hj (fun h => h.elim hsame hactive) hspans
  · exact hs.atoms k dot i' j' hkey hj p hp (havoids.of_not_spansAvoiding hfails)

/-- **A goal is searched while it is active.** On an empty stretch the search has to find whatever
there is. -/
theorem promise_goal (hkey : ¬ active (goal, i, j))
    (hempty : i = j → f.Spans input goal i j →
      f.SpansAvoiding input (FlatGrammar.alsoActive (goal, i, j) active) goal i j)
    (h : Promise f input (FlatGrammar.alsoActive (goal, i, j) active) limit i j
      (¬ f.SpansAvoiding input (FlatGrammar.alsoActive (goal, i, j) active) goal i j) search) :
    Promise f input active limit i j (¬ f.SpansAvoiding input active goal i j)
      (noting (SearchState.failGoal (goal, i, j))
        (during (SearchState.enterGoal (goal, i, j)) (SearchState.leaveGoal (goal, i, j))
          search)) := by
  intro s hs
  have hsearch := h _ (hs.enterGoal (goal, i, j))
  rw [run_noting, run_during]
  rcases hrun : search.run (s.enterGoal (goal, i, j)) with ⟨_ | ts, s'⟩
  · rw [hrun] at hsearch
    obtain ⟨hupto, hfails⟩ := hsearch.failed rfl
    refine ⟨contains_erase_eq hsearch.active_eq hkey, ⟨fun goal' i' hfailed => ?_,
      hsearch.clean.atoms⟩, fun goal' i' j' hfailed => ?_, hsearch.atoms, hsearch.partials, fun _ =>
      ⟨hupto.leave hfails, fun hspans => hfails hspans.cut⟩⟩
    · rcases contains_or_eq hfailed with hfailed | hsame
      · exact hsearch.clean.goals goal' i' hfailed
      · -- The record says that there is no reading at all, also none that passes active goals.
        obtain ⟨rfl, rfl, rfl⟩ := by simpa only [Prod.mk.injEq] using hsame
        exact fun hspans => hfails (hempty rfl hspans)
    · rcases contains_or_eq hfailed with hfailed | hsame
      · exact hsearch.goals goal' i' j' hfailed
      · obtain ⟨-, rfl, rfl⟩ := by simpa only [Prod.mk.injEq] using hsame
        exact Or.inr ⟨Nat.le_refl _, Nat.le_refl _⟩
  · rw [hrun] at hsearch
    exact ⟨contains_erase_eq hsearch.active_eq hkey, ⟨hsearch.clean.goals, hsearch.clean.atoms⟩,
      hsearch.goals, hsearch.atoms, hsearch.partials, fun h => absurd h (by simp)⟩

end Goal

/-! ### Where goals and atoms are searched -/

/-- **The situation in which a goal is searched**: it is predicted and in scope, and every active
goal is in scope and looked for on a stretch around it, and lies above it if the stretch is the same
and empty. -/
structure GoalAt (f : FlatGrammar) (input : Array UInt8) (root : Goal)
    (scope : Goal → Nat → Nat → Prop) (active : Goal × Nat × Nat → Prop) (goal : Goal) (i j : Nat) :
    Prop where
  predicted : f.Predicted input root goal i
  inScope : scope goal i j
  active_inScope : ∀ above a b, active (above, a, b) → scope above a b
  around : ∀ above a b, active (above, a, b) → a ≤ i ∧ j ≤ b
  above : ∀ above, active (above, i, j) → i = j → Relation.TransGen f.Below above goal

/-- **The situation in which the rest of a production is searched**: what comes before the dot has
been read from the origin on. -/
structure AtomsAt (f : FlatGrammar) (input : Array UInt8) (root : Goal)
    (scope : Goal → Nat → Nat → Prop) (active : Goal × Nat × Nat → Prop) (k : Nat) (p : Production)
    (origin dot i j : Nat) : Prop where
  production : f.productions[k]? = some p
  predicted : f.Predicted input root p.goal origin
  inScope : scope p.goal origin j
  active_inScope : ∀ above a b, active (above, a, b) → scope above a b
  reads : f.Reads input (p.atoms.toList.take dot) origin i
  around : ∀ above a b, active (above, a, b) → a ≤ origin ∧ j ≤ b
  above : ∀ above, active (above, origin, j) → origin = j →
    p.goal.isTail = false ∧ Relation.ReflTransGen f.Below above p.goal

section Situations

variable {active : Goal × Nat × Nat → Prop} {k origin dot i j : Nat} {p : Production}

/-- On an empty stretch, active goals lie above all goals of a rest that reads it. -/
theorem AtomsAt.below (h : AtomsAt f input root scope active k p origin dot i j) (hij : i = j)
    (hreads : f.Reads input (p.atoms.toList.drop dot) i j) {above : Goal}
    (habove : active (above, i, i)) {goal : Goal} {sender recipient : Option String}
    (hgoal : Atom.goal goal sender recipient ∈ p.atoms.toList.drop dot) :
    Relation.TransGen f.Below above goal := by
  subst hij
  obtain rfl : origin = i := by
    have := (h.around above i i habove).1
    have := h.reads.le
    omega
  -- The whole production reads the empty stretch, so what stands in it lies below its goal.
  obtain ⟨htail, hchain⟩ := h.above above habove rfl
  refine Relation.TransGen.tail' hchain ⟨htail, p.atoms.toList, ⟨k, p, h.production, rfl, rfl⟩, ?_,
    sender, recipient, List.mem_of_mem_drop hgoal⟩
  have hall := h.reads.append hreads
  rw [List.take_append_drop] at hall
  exact FlatGrammar.reads_self.mp hall

/-- The rest of a production after one more atom. -/
theorem AtomsAt.next (h : AtomsAt f input root scope active k p origin dot i j) {a : Atom}
    {rest : List Atom} (hdrop : p.atoms.toList.drop dot = a :: rest) {m : Nat}
    (ha : f.Reads input [a] i m) :
    AtomsAt f input root scope active k p origin (dot + 1) m j ∧
      p.atoms.toList.drop (dot + 1) = rest := by
  obtain ⟨hget, hrest⟩ := FlatGrammar.atom_of_drop hdrop
  refine ⟨⟨h.production, h.predicted, h.inScope, h.active_inScope, ?_, h.around, h.above⟩, hrest⟩
  rw [List.take_add_one, Array.getElem?_toList, hget]
  exact h.reads.append ha

/-- A goal after the dot is predicted. -/
theorem AtomsAt.predicted_goal (h : AtomsAt f input root scope active k p origin dot i j)
    {goal : Goal} {sender recipient : Option String} {rest : List Atom}
    (hdrop : p.atoms.toList.drop dot = .goal goal sender recipient :: rest) :
    f.Predicted input root goal i :=
  .step h.production h.predicted h.reads (FlatGrammar.atom_of_drop hdrop).1

/-- **A goal after the dot is in scope** when it and what comes after it can be read. -/
theorem AtomsAt.inScope_goal (h : AtomsAt f input root scope active k p origin dot i j)
    (hscope : f.Scope input scope) {goal : Goal} {sender recipient : Option String}
    {rest : List Atom} (hdrop : p.atoms.toList.drop dot = .goal goal sender recipient :: rest)
    {m : Nat} (hspans : f.Spans input goal i m) (hrest : f.Reads input rest m j) :
    scope goal i m := by
  have halt : f.Alternative p.goal
      (p.atoms.toList.take dot ++ .goal goal sender recipient :: rest) := by
    rw [← hdrop, List.take_append_drop]
    exact ⟨k, p, h.production, rfl, rfl⟩
  exact hscope.part h.inScope halt h.reads hspans hrest

/-- **The situation of a goal after the dot**, when it and what comes after it can be read. -/
theorem AtomsAt.goalAt (h : AtomsAt f input root scope active k p origin dot i j)
    (hscope : f.Scope input scope) {goal : Goal} {sender recipient : Option String}
    {rest : List Atom} (hdrop : p.atoms.toList.drop dot = .goal goal sender recipient :: rest)
    {m : Nat} (hspans : f.Spans input goal i m) (hrest : f.Reads input rest m j) :
    GoalAt f input root scope active goal i m := by
  have horigin := h.reads.le
  have hm := hrest.le
  refine ⟨h.predicted_goal hdrop, h.inScope_goal hscope hdrop hspans hrest, h.active_inScope,
    fun above a b habove => ?_, fun above habove hsame => ?_⟩
  · have := h.around above a b habove
    omega
  · subst hsame
    obtain rfl : i = j := by
      have := h.around above i i habove
      omega
    have hall : f.Reads input (.goal goal sender recipient :: rest) i i :=
      FlatGrammar.reads_cons_goal.mpr ⟨i, hspans, hrest⟩
    exact h.below rfl (hdrop ▸ hall) habove (hdrop ▸ List.mem_cons_self)

/-- A goal that ends before the rest does is neither active nor in need of an active goal. -/
theorem AtomsAt.avoidable (h : AtomsAt f input root scope active k p origin dot i j) {goal : Goal}
    {m : Nat} (hlt : m < j) (hspans : f.Spans input goal i m) :
    ¬ (active (goal, i, m) ∨ ¬ f.SpansAvoiding input active goal i m) := by
  rintro (hactive | hno)
  · have := h.around goal i m hactive
    omega
  · refine hno (hspans.spansAvoiding fun above a b habove _ hb => ?_)
    have := h.around above a b habove
    omega

end Situations

/-! ### Promises of the searches -/

/-- A goal with one end and what comes after it cannot both be read. -/
def Blocked (f : FlatGrammar) (input : Array UInt8) (active : Goal × Nat × Nat → Prop) (goal : Goal)
    (i m : Nat) (rest : List Atom) (j : Nat) : Prop :=
  ¬ (¬ active (goal, i, m) ∧ f.SpansAvoiding input active goal i m ∧ f.Avoids input active rest m j)

/-- **What is promised of the search for goals** while these goals are active. -/
def ChildPromise (f : FlatGrammar) (input : Array UInt8) (root : Goal)
    (scope : Goal → Nat → Nat → Prop) (active : Goal × Nat × Nat → Prop)
    (child : Goal → Nat → Nat → Search) : Prop :=
  ∀ (goal : Goal) (i j limit : Nat), GoalAt f input root scope active goal i j → j ≤ limit →
    Promise f input active limit i j
      (active (goal, i, j) ∨ ¬ f.SpansAvoiding input active goal i j) (child goal i j)

section Atoms

variable {active : Goal × Nat × Nat → Prop} {k origin dot i j : Nat} {p : Production}
  {child : Goal → Nat → Nat → Search}

/-- **One end of a goal.** Once the rest has been found the goal is found too, unless the rest is
empty: then all active goals are looked for on longer stretches than it. -/
theorem promise_end (hscope : f.Scope input scope)
    (hchild : ChildPromise f input root scope active child)
    (hat : AtomsAt f input root scope active k p origin dot i j) {goal : Goal}
    {sender recipient : Option String} {rest : List Atom}
    (hdrop : p.atoms.toList.drop dot = .goal goal sender recipient :: rest) {m limit : Nat}
    (hspans : f.Spans input goal i m) (hm : m ≤ j) (hlimit : j ≤ limit) {tail : Search}
    (htail : Promise f input active limit m j (¬ f.Avoids input active rest m j) tail)
    (hfound : tail.Ensures fun _ => f.Reads input rest m j) :
    Promise f input active limit i j (Blocked f input active goal i m rest j)
      (before (wrapped goal sender recipient (child goal i m)) tail) := by
  intro s hs
  have hkept := htail s hs
  have hreads := hfound s
  have him := hspans.le
  rw [run_before]
  rcases hrun : tail.run s with ⟨_ | after, s'⟩
  · rw [hrun] at hkept
    exact (hkept.widen him (Nat.le_refl _)).mono fun hno h => hno h.2.2
  · rw [hrun] at hkept hreads
    have hgoalAt := hat.goalAt hscope hdrop hspans (hreads after rfl)
    rcases Nat.lt_or_eq_of_le hm with hlt | rfl
    · -- The rest is not empty: every active goal is looked for on a stretch that ends after this
      -- one, so the goal cannot fail, and what its search leaves on record does not matter.
      have hready : Ready f input active m s' := hkept.ready_left hs (by omega) fun b hb _ => hb
      have hresult := hchild goal i m m hgoalAt (Nat.le_refl _) s' hready
      have hsucceeds : Kept f input active limit i j (Blocked f input active goal i m rest j) s'
          ((child goal i m).run s') := by
        rcases hgoal : (child goal i m).run s' with ⟨_ | cs, s''⟩
        · rw [hgoal] at hresult
          exact absurd (hresult.failed rfl).2 (hat.avoidable hlt hspans)
        · rw [hgoal] at hresult
          exact (hresult.widen (Nat.le_refl _) hm).found cs
      exact ((hkept.widen him (Nat.le_refl _)).trans hsucceeds (Nat.le_refl _)
        (Nat.le_refl _)).map _ |>.map _
    · -- The rest is empty, and the records of its search are on an empty stretch.
      have hready := hkept.ready_left hs (Nat.le_refl limit) fun b _ hb => hb
      have hresult : Kept f input active limit i m (Blocked f input active goal i m rest m) s'
          ((child goal i m).run s') :=
        (hchild goal i m limit hgoalAt hlimit s' hready).mono fun hno h =>
          hno.elim h.1 fun hno => hno h.2.1
      exact ((hkept.widen him (Nat.le_refl _)).trans hresult (Nat.le_refl _)
        (Nat.le_refl _)).map _ |>.map _

/-- In an increasing list, all numbers up to a bound come first. -/
theorem mem_takeWhile_le {ends : List Nat} (h : ends.Pairwise (· < ·)) {m stop : Nat}
    (hm : m ∈ ends) (hle : m ≤ stop) : m ∈ ends.takeWhile (· ≤ stop) := by
  induction ends with
  | nil => exact absurd hm List.not_mem_nil
  | cons e ends ih =>
    obtain ⟨hfirst, hrest⟩ := List.pairwise_cons.mp h
    rcases List.mem_cons.mp hm with rfl | hm
    · simp [hle]
    · have he := hfirst m hm
      rw [List.takeWhile_cons, if_pos (by simp only [decide_eq_true_eq]; omega)]
      exact List.mem_cons_of_mem _ (ih hrest hm)

/-- A rest is not searched again after it has failed, and its failure is recorded. -/
theorem promise_rest (hscope : f.Scope input scope) (htails : f.TailsStop) (hf : f.Listed)
    {limit : Nat} {atoms : List Atom} (hdrop : p.atoms.toList.drop dot = atoms)
    (hat : AtomsAt f input root scope active k p origin dot i j) (hlimit : j ≤ limit)
    {search : Search}
    (h : Promise f input active limit i j (¬ f.Avoids input active atoms i j) search) :
    Promise f input active limit i j (¬ f.Avoids input active atoms i j)
      (guarded (fun s => s.failedAtoms.contains (k, dot, i, j))
        (noting (SearchState.failAtoms (k, dot, i, j)) search)) := by
  subst hdrop
  refine promise_guarded (fun s hs hfailed => ?_) fun _ _ _ => ?_
  · exact hs.upto.atoms k dot i j hfailed hlimit p hat.production
  · refine h.noting_atoms hat.production id fun hno hij hreads => hno ?_
    exact hreads.avoids_of_below htails hf hij
      (fun above a habove => hscope.loopless (hat.active_inScope above a a habove))
      fun above habove goal sender recipient hgoal => hat.below hij hreads habove hgoal

/-- **The search for the rest of a production** fails only if the rest cannot be read. -/
theorem promise_atomsChildren (hf : f.Lawful) (hscope : f.Scope input scope) (htails : f.TailsStop)
    (hchild : ChildPromise f input root scope active child)
    (hfound : ∀ goal i j, (child goal i j).Ensures (GoalBuilds f input goal i j)) {limit : Nat}
    (hlimit : j ≤ limit) :
    ∀ (atoms : List Atom) (dot i : Nat), p.atoms.toList.drop dot = atoms →
      AtomsAt f input root scope active k p origin dot i j →
      Promise f input active limit i j (¬ f.Avoids input active atoms i j)
        (atomsChildren (Chart.of f input root) input child k atoms dot i j)
  | [], dot, i, _, _ => by
    rw [atomsChildren]
    split
    · exact promise_some _
    · rename_i hij
      refine promise_none fun h => hij ?_
      cases h
      rfl
  | .literal value :: rest, dot, i, hdrop, hat => by
    rw [atomsChildren]
    refine promise_rest hscope htails hf.listed hdrop hat hlimit ?_
    simp only
    split
    · rename_i hvalue
      rw [Bool.and_eq_true] at hvalue
      have hnext := hat.next hdrop (.literal hvalue.2 .nil)
      have htail := promise_atomsChildren hf hscope htails hchild hfound hlimit rest (dot + 1) _
        hnext.2 hnext.1
      refine ((htail.before_leaf _).widen (Nat.le_add_right _ _) (Nat.le_refl _)).mono ?_
      rintro hno (_ | ⟨_, hrest⟩)
      exact hno hrest
    · rename_i hvalue
      refine promise_none ?_
      rintro (_ | ⟨hbytes, hrest⟩)
      have hle := hrest.reads.le
      exact hvalue (by simp [hle, hbytes])
  | .goal goal sender recipient :: rest, dot, i, hdrop, hat => by
    rw [atomsChildren]
    refine promise_rest hscope htails hf.listed hdrop hat hlimit ?_
    -- The ends that are tried are those that the goal has up to the end of the stretch.
    have hmem : ∀ m ∈ ((Chart.of f input root).ends goal i).takeWhile (· ≤ j),
        f.Spans input goal i m ∧ m ≤ j := by
      intro m hm
      have hends := (List.takeWhile_prefix _).subset hm
      exact ⟨((Chart.mem_ends_of hf).mp hends).2, by simpa using List.mem_takeWhile_imp hm⟩
    have hall : Promise f input active limit i j
        (∀ m ∈ ((Chart.of f input root).ends goal i).takeWhile (· ≤ j),
          Blocked f input active goal i m rest j)
        (first (fun m => before (wrapped goal sender recipient (child goal i m))
            (atomsChildren (Chart.of f input root) input child k rest (dot + 1) m j))
          (((Chart.of f input root).ends goal i).takeWhile (· ≤ j))) := by
      refine promise_first fun m hm => ?_
      obtain ⟨hspans, hle⟩ := hmem m hm
      have hnext := hat.next hdrop (FlatGrammar.reads_cons_goal.mpr ⟨m, hspans, .nil⟩)
      exact promise_end hscope hchild hat hdrop hspans hle hlimit
        (promise_atomsChildren hf hscope htails hchild hfound hlimit rest (dot + 1) m hnext.2
          hnext.1)
        ((ensures_atomsChildren hfound k rest (dot + 1) m j).mono fun _ h => h.reads)
    refine hall.mono fun hblocked havoids => ?_
    obtain ⟨m, hactive, hspans, hrest⟩ := FlatGrammar.avoids_cons_goal.mp havoids
    have hends : m ∈ (Chart.of f input root).ends goal i :=
      (Chart.mem_ends_of hf).mpr ⟨hat.predicted_goal hdrop, hspans.spans⟩
    exact hblocked m (mem_takeWhile_le (Chart.ends_of_increasing hf goal i) hends hrest.reads.le)
      ⟨hactive, hspans, hrest⟩

end Atoms

/-! ### Nesting -/

/-- The goals with productions, each between any two positions. -/
def places (f : FlatGrammar) (input : Array UInt8) : Finset (Goal × Nat × Nat) :=
  f.ofGoal.keys.toFinset ×ˢ Finset.range (input.size + 1) ×ˢ Finset.range (input.size + 1)

open Classical in
/-- How many goals can still become active. -/
noncomputable def inactive (f : FlatGrammar) (input : Array UInt8)
    (active : Goal × Nat × Nat → Prop) : Nat :=
  ((places f input).filter fun key => ¬ active key).card

theorem inactive_lt_nestingBound (active : Goal × Nat × Nat → Prop) :
    inactive f input active < f.nestingBound input.size := by
  classical
  have hkeys : f.ofGoal.keys.toFinset.card ≤ f.ofGoal.size := by
    rw [← Std.HashMap.length_keys]
    exact List.toFinset_card_le _
  have hplaces : (places f input).card ≤ f.ofGoal.size * (input.size + 1) * (input.size + 1) := by
    rw [places, Finset.card_product, Finset.card_product, Finset.card_range, ← Nat.mul_assoc]
    exact Nat.mul_le_mul_right _ (Nat.mul_le_mul_right _ hkeys)
  have hfilter : inactive f input active ≤ (places f input).card := Finset.card_filter_le _ _
  rw [FlatGrammar.nestingBound]
  omega

/-- **A goal that becomes active is one less.** -/
theorem inactive_alsoActive_lt (hf : f.Listed) {active : Goal × Nat × Nat → Prop} {goal : Goal}
    {i j : Nat} (hkey : ¬ active (goal, i, j)) (hspans : f.Spans input goal i j)
    (hi : i ≤ input.size) :
    inactive f input (FlatGrammar.alsoActive (goal, i, j) active) < inactive f input active := by
  have hplace : (goal, i, j) ∈ places f input := by
    have hj := hspans.le_size hi
    obtain ⟨-, ⟨k, p, hp, rfl, -⟩, -⟩ := hspans
    simp only [places, Finset.mem_product, List.mem_toFinset, Finset.mem_range,
      Std.HashMap.mem_keys]
    exact ⟨hf.contains hp, by omega, by omega⟩
  exact card_unmarked_lt hplace hkey (Or.inl rfl) fun _ => Or.inr

/-! ### The search for a goal -/

section GoalChildren

variable {active : Goal × Nat × Nat → Prop} {goal : Goal} {i j limit : Nat}

/-- A tail on an empty stretch stops at once. -/
theorem run_alternatives_tail (hf : f.Listed) (htails : f.TailsStop) (htail : goal.isTail = true)
    (hspans : f.Spans input goal i i) (chart : Chart) (child : Goal → Nat → Nat → Search)
    (s : SearchState) :
    (alternatives f (fun k p => atomsChildren chart input child k p.atoms.toList 0 i i)
      goal).run s = (some [], s) := by
  obtain ⟨atoms, halt, -⟩ := hspans
  obtain ⟨k, hk, -⟩ := hf.alternative_iff.mp halt
  rw [alternatives]
  cases hks : f.productionsOf goal with
  | nil =>
    rw [hks] at hk
    exact absurd hk List.not_mem_nil
  | cons k' ks =>
    obtain ⟨p, hp, hatoms⟩ := Option.map_eq_some_iff.mp (htails goal k' ks htail hks)
    rw [run_first_cons, hp]
    simp only [hatoms, atomsChildren, if_true]
    rfl

/-- A goal below an active one lies below it, and so does all that is in its alternatives. -/
theorem GoalAt.spansAvoiding (hat : GoalAt f input root scope active goal i j)
    (hscope : f.Scope input scope) (htails : f.TailsStop) (hf : f.Listed) (hij : i = j)
    (hspans : f.Spans input goal i j) :
    f.SpansAvoiding input (FlatGrammar.alsoActive (goal, i, j) active) goal i j := by
  subst hij
  obtain ⟨atoms, halt, hreads⟩ := hspans
  cases htail : goal.isTail with
  | true => exact ⟨[], htails.alternative hf htail halt, .nil⟩
  | false =>
    have hloop : ∀ above a, FlatGrammar.alsoActive (goal, i, i) active (above, a, a) →
        ¬ Relation.TransGen f.Below above above := by
      rintro above a (hsame | habove)
      · obtain ⟨rfl, -⟩ := by simpa only [Prod.mk.injEq] using hsame
        exact hscope.loopless hat.inScope
      · exact hscope.loopless (hat.active_inScope above a a habove)
    refine ⟨atoms, halt, hreads.avoids_of_below htails hf rfl hloop
      fun above habove goal' sender recipient hgoal' => ?_⟩
    have hbelow : f.Below goal goal' :=
      ⟨htail, atoms, halt, FlatGrammar.reads_self.mp hreads, sender, recipient, hgoal'⟩
    rcases habove with hsame | habove
    · obtain ⟨rfl, -⟩ := by simpa only [Prod.mk.injEq] using hsame
      exact .single hbelow
    · exact (hat.above above habove rfl).tail hbelow

/-- The situation at the beginning of a production of a goal that is being looked for. -/
theorem GoalAt.atomsAt (hat : GoalAt f input root scope active goal i j) {k : Nat} {p : Production}
    (hp : f.productions[k]? = some p) (hgoal : p.goal = goal)
    (htail : i = j → goal.isTail = false) :
    AtomsAt f input root scope (FlatGrammar.alsoActive (goal, i, j) active) k p i 0 i j := by
  subst hgoal
  refine ⟨hp, hat.predicted, hat.inScope, fun above a b habove => ?_, .nil,
    fun above a b habove => ?_, fun above habove hij => ⟨htail hij, ?_⟩⟩
  · rcases habove with hsame | habove
    · obtain ⟨rfl, rfl, rfl⟩ := by simpa only [Prod.mk.injEq] using hsame
      exact hat.inScope
    · exact hat.active_inScope above a b habove
  · rcases habove with hsame | habove
    · obtain ⟨-, rfl, rfl⟩ := by simpa only [Prod.mk.injEq] using hsame
      exact ⟨Nat.le_refl _, Nat.le_refl _⟩
    · exact hat.around above a b habove
  · rcases habove with hsame | habove
    · obtain ⟨rfl, -⟩ := by simpa only [Prod.mk.injEq] using hsame
      exact .refl
    · exact (hat.above above habove hij).to_reflTransGen

/-- **The search for a goal** fails only if the goal is active or cannot be read. The depth has to
suffice for all goals that can still become active. -/
theorem promise_goalChildren (hf : f.Lawful) (hscope : f.Scope input scope) (htails : f.TailsStop) :
    ∀ (depth : Nat) (active : Goal × Nat × Nat → Prop), inactive f input active < depth →
      ChildPromise f input root scope active (goalChildren f (Chart.of f input root) input depth)
  | 0, _, h => absurd h (Nat.not_lt_zero _)
  | depth + 1, active, hdepth => by
    intro goal i j limit hat hlimit
    rw [goalChildren]
    refine promise_guarded (fun s hs hhopeless => ?_) fun s hs hhopeless => ?_
    · -- The goal is on record, or active, or spans nothing here.
      rw [Bool.or_eq_true, Bool.or_eq_true, Bool.not_eq_true'] at hhopeless
      rcases hhopeless with (hfailed | hactive) | hno
      · by_cases hactive : active (goal, i, j)
        · exact Or.inl hactive
        · exact Or.inr (hs.upto.goals goal i j hfailed hlimit hactive)
      · exact Or.inl (hs.active_eq ▸ hactive)
      · refine Or.inr fun hspans => ?_
        rw [(Chart.spans_of_iff hf).mpr ⟨hat.predicted, hspans.spans⟩] at hno
        exact absurd hno (by simp)
    · simp only [Bool.or_eq_false_iff, Bool.not_eq_false'] at hhopeless
      obtain ⟨⟨-, hinactive⟩, hchart⟩ := hhopeless
      have hkey : ¬ active (goal, i, j) := by
        rw [← hs.active_eq]
        exact fun h => Bool.false_ne_true (hinactive.symm.trans h)
      have hspans := ((Chart.spans_of_iff hf).mp hchart).2
      refine (promise_goal hkey (hat.spansAvoiding hscope htails hf.listed) ?_).mono Or.inr
      by_cases hempty : i = j ∧ goal.isTail = true
      · obtain ⟨rfl, htail⟩ := hempty
        intro s' hs'
        rw [run_alternatives_tail hf.listed htails htail hspans]
        exact Kept.refl hs' _ fun h => absurd h (by simp)
      · -- One goal more is active inside, so one level less is enough there.
        have hlt := inactive_alsoActive_lt hf.listed hkey hspans hat.predicted.le_size
        have hchild := promise_goalChildren hf hscope htails depth
          (FlatGrammar.alsoActive (goal, i, j) active) (by omega)
        have hall : Promise f input (FlatGrammar.alsoActive (goal, i, j) active) limit i j
            (∀ k ∈ f.productionsOf goal, ∀ p, f.productions[k]? = some p →
              ¬ f.Avoids input (FlatGrammar.alsoActive (goal, i, j) active) p.atoms.toList i j)
            (alternatives f (fun k p => atomsChildren (Chart.of f input root) input
              (goalChildren f (Chart.of f input root) input depth) k p.atoms.toList 0 i j)
              goal) := by
          refine promise_first fun k hk => ?_
          obtain ⟨p, hp, hgoal⟩ := (hf.listed k goal).mp hk
          have hatoms := hat.atomsAt hp hgoal fun hij => by
            cases htail : goal.isTail with
            | true => exact absurd ⟨hij, htail⟩ hempty
            | false => rfl
          rw [hp]
          refine (promise_atomsChildren hf hscope htails hchild
            (ensures_goalChildren hf.listed depth) hlimit p.atoms.toList 0 i rfl hatoms).mono ?_
          intro hno p' hp'
          obtain rfl := Option.some.inj hp'
          exact hno
        refine hall.mono ?_
        rintro hno ⟨atoms, ⟨k, p, hp, hgoal, rfl⟩, havoids⟩
        exact hno k ((hf.listed k goal).mpr ⟨p, hp, hgoal⟩) p hp havoids

/-- **A goal is found wherever it is**, when nothing is being looked for. -/
theorem kept_goalChildren (hf : f.Lawful) (hscope : f.Scope input scope) (htails : f.TailsStop)
    (hpredicted : f.Predicted input root goal i) (hgoal : scope goal i j) {s : SearchState}
    (hs : Ready f input (fun _ => False) limit s) (hlimit : j ≤ limit) :
    Kept f input (fun _ => False) limit i j (¬ f.Spans input goal i j) s
      ((goalChildren f (Chart.of f input root) input (f.nestingBound input.size) goal i
        j).run s) := by
  have hkept := promise_goalChildren hf hscope htails (f.nestingBound input.size) (fun _ => False)
    (inactive_lt_nestingBound _) goal i j limit
    ⟨hpredicted, hgoal, fun _ _ _ h => h.elim, fun _ _ _ h => h.elim, fun _ h => h.elim⟩ hlimit s hs
  refine hkept.mono fun hno hspans => ?_
  rcases hno with hactive | hno
  · exact hactive
  · exact hno (hspans.spansAvoiding fun _ _ _ h => h.elim)

theorem ready_empty : Ready f input (fun _ => False) limit {} := by
  refine ⟨?_, ⟨fun _ _ _ h => ?_, fun _ _ _ _ h => ?_⟩, ⟨fun _ _ h => ?_, fun _ _ _ h => ?_⟩⟩
  · funext key
    simp [Active]
  · exact absurd h (by simp)
  · exact absurd h (by simp)
  · exact absurd h (by simp)
  · exact absurd h (by simp)

end GoalChildren

end Search

end GrammarFuzzing
