import GrammarFuzzing.Proofs.Parse.Completeness

/-!
# Searches for a derivation that goes on

An input can be the beginning of something that a goal derives: it ends within a literal or between
two atoms, somewhere inside an alternative of the goal (`GrammarFuzzing.FlatGrammar.GoalBegins`). A
chart is viable exactly for such inputs as far as its root is concerned
(`GrammarFuzzing.Chart.goalBegins_of_viable`), and the search for such a derivation finds one
(`GrammarFuzzing.Search.partialGoal_isSome`).

The argument that cutting cycles loses nothing is the one for whole derivations, on positions in
place of stretches. What is different is that a success is never taken back: once something is found
for what comes after an atom, the atom itself is found as well, since nothing is being looked for to
the left of it. So records made before a success are never consulted after it.
-/

namespace GrammarFuzzing

namespace FlatGrammar

variable {f : FlatGrammar} {input : Array UInt8} {active : Goal × Nat → Prop}

/-! ### Beginnings -/

/-- **The input from a position on begins something that atoms derive**, without passing an active
goal that is unfinished. -/
inductive Begins (f : FlatGrammar) (input : Array UInt8) (active : Goal × Nat → Prop) :
    List Atom → Nat → Prop
  | stop {atoms : List Atom} : f.Begins input active atoms input.size
  | literal {value : Literal} {rest : List Atom} {i : Nat} :
    Chart.bytesAt input i value.toBytes = true →
      f.Begins input active rest (i + value.toBytes.length) →
        f.Begins input active (.literal value :: rest) i
  | cut {value : Literal} {rest : List Atom} {i : Nat} :
    (input.toList.drop i).isPrefixOf value.toBytes = true →
      f.Begins input active (.literal value :: rest) i
  | goal {goal : Goal} {sender recipient : Option String} {rest : List Atom} {i m : Nat} :
    f.Spans input goal i m → f.Begins input active rest m →
      f.Begins input active (.goal goal sender recipient :: rest) i
  | unfinished {goal : Goal} {sender recipient : Option String} {atoms rest : List Atom} {i : Nat} :
    ¬ active (goal, i) → f.Alternative goal atoms → f.Begins input active atoms i →
      f.Begins input active (.goal goal sender recipient :: rest) i

/-- The input from a position on begins an alternative of the goal. -/
def GoalBegins (f : FlatGrammar) (input : Array UInt8) (active : Goal × Nat → Prop) (goal : Goal)
    (i : Nat) : Prop :=
  ∃ atoms, f.Alternative goal atoms ∧ f.Begins input active atoms i

section Begins

variable {atoms : List Atom} {goal : Goal} {i j : Nat}

/-- One more unfinished goal. -/
def alsoUnfinished (key : Goal × Nat) (active : Goal × Nat → Prop) : Goal × Nat → Prop :=
  fun key' => key' = key ∨ active key'

theorem Begins.mono {active' : Goal × Nat → Prop} (hactive : ∀ key, active' key → active key)
    (h : f.Begins input active atoms i) : f.Begins input active' atoms i := by
  induction h with
  | stop => exact .stop
  | literal hbytes _ ih => exact .literal hbytes ih
  | cut hcut => exact .cut hcut
  | goal hspans _ ih => exact .goal hspans ih
  | unfinished hgoal halt _ ih => exact .unfinished (fun h => hgoal (hactive _ h)) halt ih

/-- Where the input goes on, a literal begins with it or is cut off by its end. -/
theorem begins_cons_literal {value : Literal} {rest : List Atom} (hend : i ≠ input.size) :
    f.Begins input active (.literal value :: rest) i ↔
      (Chart.bytesAt input i value.toBytes = true ∧
        f.Begins input active rest (i + value.toBytes.length)) ∨
      (input.toList.drop i).isPrefixOf value.toBytes = true := by
  constructor
  · intro h
    cases h with
    | stop => exact absurd rfl hend
    | literal hbytes hrest => exact Or.inl ⟨hbytes, hrest⟩
    | cut hcut => exact Or.inr hcut
  · rintro (⟨hbytes, hrest⟩ | hcut)
    · exact .literal hbytes hrest
    · exact .cut hcut

/-- Where the input goes on, a goal is read up to some position or stays unfinished. -/
theorem begins_cons_goal {sender recipient : Option String} {rest : List Atom}
    (hend : i ≠ input.size) :
    f.Begins input active (.goal goal sender recipient :: rest) i ↔
      (∃ m, f.Spans input goal i m ∧ f.Begins input active rest m) ∨
      ¬ active (goal, i) ∧ f.GoalBegins input active goal i := by
  constructor
  · intro h
    cases h with
    | stop => exact absurd rfl hend
    | goal hspans hrest => exact Or.inl ⟨_, hspans, hrest⟩
    | unfinished hgoal halt hatoms => exact Or.inr ⟨hgoal, _, halt, hatoms⟩
  · rintro (⟨m, hspans, hrest⟩ | ⟨hgoal, atoms, halt, hatoms⟩)
    · exact .goal hspans hrest
    · exact .unfinished hgoal halt hatoms

/-- A beginning either passes one more goal nowhere, or has a beginning of that goal in it that
passes it nowhere. -/
theorem Begins.or_goalBegins (key : Goal × Nat) (h : f.Begins input active atoms i) :
    f.Begins input (alsoUnfinished key active) atoms i ∨
      f.GoalBegins input (alsoUnfinished key active) key.1 key.2 := by
  induction h with
  | stop => exact Or.inl .stop
  | literal hbytes _ ih => exact ih.imp_left (.literal hbytes)
  | cut hcut => exact Or.inl (.cut hcut)
  | goal hspans _ ih => exact ih.imp_left (.goal hspans)
  | @unfinished goal _ _ atoms rest i hgoal halt _ ih =>
    rcases ih with hatoms | hbegins
    · by_cases hkey : (goal, i) = key
      · subst hkey
        exact Or.inr ⟨atoms, halt, hatoms⟩
      · exact Or.inl (.unfinished (fun h => h.elim hkey hgoal) halt hatoms)
    · exact Or.inr hbegins

/-- **A goal that can be begun can be begun without passing itself.** -/
theorem GoalBegins.cut (h : f.GoalBegins input active goal i) :
    f.GoalBegins input (alsoUnfinished (goal, i) active) goal i := by
  obtain ⟨atoms, halt, hatoms⟩ := h
  rcases hatoms.or_goalBegins (goal, i) with hatoms | hbegins
  · exact ⟨atoms, halt, hatoms⟩
  · exact hbegins

/-- What is read first can be begun with. -/
theorem Reads.begins {as bs : List Atom} (h : f.Reads input as i j)
    (hbs : f.Begins input active bs j) : f.Begins input active (as ++ bs) i := by
  induction h with
  | nil => exact hbs
  | literal hbytes _ ih => exact .literal hbytes (ih hbs)
  | goal halt hatoms _ _ ih => exact .goal ⟨_, halt, hatoms⟩ (ih hbs)

/-- What begins a goal that is predicted begins the root. -/
theorem Predicted.goalBegins {root : Goal} (h : f.Predicted input root goal i)
    (hgoal : f.GoalBegins input (fun _ => False) goal i) :
    f.GoalBegins input (fun _ => False) root 0 := by
  induction h with
  | root => exact hgoal
  | @step p k d origin position goal sender recipient hp _ hreads ha ih =>
    obtain ⟨atoms, halt, hatoms⟩ := hgoal
    obtain ⟨hlt, hget⟩ := Array.getElem?_eq_some_iff.mp ha
    have hdrop : p.atoms.toList.drop d =
        .goal goal sender recipient :: p.atoms.toList.drop (d + 1) := by
      rw [List.drop_eq_getElem_cons (by simpa using hlt), Array.getElem_toList, hget]
    refine ih ⟨p.atoms.toList, ⟨k, p, hp, rfl, rfl⟩, ?_⟩
    have hrest : f.Begins input (fun _ => False) (p.atoms.toList.drop d) position := by
      rw [hdrop]
      exact .unfinished id halt hatoms
    have hbegins := hreads.begins hrest
    rwa [List.take_append_drop] at hbegins

end Begins

end FlatGrammar

/-! ### Viable charts -/

/-- An item that holds begins the root if what is left of its production can be begun. -/
theorem Item.Holds.goalBegins {f : FlatGrammar} {input : Array UInt8} {root : Goal} {position : Nat}
    {i : Item} (h : i.Holds f input root position)
    (hrest : ∀ p, f.productions[i.production]? = some p →
      f.Begins input (fun _ => False) (p.atoms.toList.drop i.dot) position) :
    f.GoalBegins input (fun _ => False) root 0 := by
  obtain ⟨p, hp, -, hpredicted, hreads⟩ := h
  have hbegins := hreads.begins (hrest p hp)
  rw [List.take_append_drop] at hbegins
  exact hpredicted.goalBegins ⟨_, ⟨_, p, hp, rfl, rfl⟩, hbegins⟩

/-- **A viable chart has a beginning of its root**, provided the root has an alternative at all. -/
theorem Chart.goalBegins_of_viable {f : FlatGrammar} {input : Array UInt8} {root : Goal}
    (hf : f.Lawful) (hroot : ∃ atoms, f.Alternative root atoms)
    (h : (Chart.of f input root).viable f input = true) :
    f.GoalBegins input (fun _ => False) root 0 := by
  rw [viable] at h
  simp only at h
  split at h
  · rename_i hend
    rw [Bool.or_eq_true, decide_eq_true_eq, Bool.not_eq_true'] at hend
    rcases hend with hempty | hitems
    · obtain ⟨atoms, halt⟩ := hroot
      exact ⟨atoms, halt, hempty ▸ .stop⟩
    · obtain ⟨i, hi⟩ := Array.exists_mem_of_ne_empty _ (by simpa using hitems)
      exact ((mem_itemsAt hf).mp hi).goalBegins fun p _ => .stop
  · -- Some item waits for a literal that starts with all that is left of the input.
    obtain ⟨position, -, hany⟩ := List.any_eq_true.mp h
    obtain ⟨i, hi, hcut⟩ := Array.any_eq_true'.mp hany
    split at hcut
    · rename_i value ha
      refine ((mem_itemsAt hf).mp hi).goalBegins fun p hp => ?_
      obtain ⟨p', hp', hget⟩ := FlatGrammar.atomAt?_eq_some.mp ha
      obtain rfl := Option.some.inj (hp.symm.trans hp')
      obtain ⟨hlt, hget⟩ := Array.getElem?_eq_some_iff.mp hget
      rw [List.drop_eq_getElem_cons (by simpa using hlt), Array.getElem_toList, hget]
      exact .cut hcut
    · exact absurd hcut Bool.false_ne_true

/-! ### Records of failures -/

namespace Search

variable {f : FlatGrammar} {input : Array UInt8} {root : Goal}

/-- The goals that are being looked for from a position on. -/
def Unfinished (s : SearchState) (key : Goal × Nat) : Prop :=
  s.activePartials.contains key = true

/-- **The state in which a search for a beginning may start**: whatever failed has failed for good,
and no goal is being looked for up to an end. -/
structure PartialReady (f : FlatGrammar) (input : Array UInt8) (active : Goal × Nat → Prop)
    (s : SearchState) : Prop where
  whole : Ready f input (fun _ => False) input.size s
  unfinished_eq : Unfinished s = active
  failed : ∀ goal i, s.failedPartials.contains (goal, i) = true → ¬ active (goal, i) →
    ¬ f.GoalBegins input active goal i

/-- **The promise of a search for a beginning** at a position: if it fails it changes nothing of
importance, and if it succeeds a search to the left of the position may start. -/
def PartialPromise (f : FlatGrammar) (input : Array UInt8) (active : Goal × Nat → Prop) (i : Nat)
    (fails : Prop) (search : Search) : Prop :=
  ∀ s, PartialReady f input active s →
    ((search.run s).1 = none → PartialReady f input active (search.run s).2 ∧ fails) ∧
      ((search.run s).1 ≠ none → Ready f input (fun _ => False) i (search.run s).2)

theorem Ready.anti {active : Goal × Nat × Nat → Prop} {limit limit' : Nat} {s : SearchState}
    (hs : Ready f input active limit s) (h : limit' ≤ limit) : Ready f input active limit' s :=
  ⟨hs.active_eq, ⟨fun goal i j hf hj => hs.upto.goals goal i j hf (by omega),
    fun k dot i j hf hj => hs.upto.atoms k dot i j hf (by omega)⟩, hs.clean⟩

section PartialPromise

variable {α : Type} {active : Goal × Nat → Prop} {i : Nat} {fails : Prop} {search tail : Search}

theorem partialPromise_none (h : fails) : PartialPromise f input active i fails (return none) :=
  fun _ hs => ⟨fun _ => ⟨hs, h⟩, fun h => absurd rfl h⟩

theorem partialPromise_some (hi : i ≤ input.size) (ts : List Tree) :
    PartialPromise f input active i fails (return some ts) :=
  fun _ hs => ⟨fun h => absurd h (by simp), fun _ => hs.whole.anti hi⟩

theorem PartialPromise.mono {fails' : Prop} (h : PartialPromise f input active i fails search)
    (hfails : fails → fails') : PartialPromise f input active i fails' search :=
  fun s hs => ⟨fun hnone => ((h s hs).1 hnone).imp_right hfails, (h s hs).2⟩

/-- One search after another that failed. -/
theorem PartialPromise.otherwise {fails' : Prop} {next : Search}
    (h : PartialPromise f input active i fails search)
    (hnext : PartialPromise f input active i fails' next) :
    PartialPromise f input active i (fails ∧ fails') (otherwise search next) := by
  intro s hs
  obtain ⟨hfailed, hfound⟩ := h s hs
  rw [run_otherwise]
  rcases hrun : search.run s with ⟨_ | ts, s'⟩
  · rw [hrun] at hfailed
    obtain ⟨hs', hno⟩ := hfailed rfl
    obtain ⟨hfailed', hfound'⟩ := hnext s' hs'
    exact ⟨fun hnone => (hfailed' hnone).imp_right fun hno' => ⟨hno, hno'⟩, hfound'⟩
  · rw [hrun] at hfound
    exact ⟨fun h => absurd h (Option.some_ne_none ts), fun _ => hfound (Option.some_ne_none ts)⟩

theorem partialPromise_first {search : α → Search} {fails : α → Prop} {as : List α}
    (h : ∀ a ∈ as, PartialPromise f input active i (fails a) (search a)) :
    PartialPromise f input active i (∀ a ∈ as, fails a) (first search as) := by
  induction as with
  | nil => exact partialPromise_none (by simp)
  | cons a as ih =>
    have hrest := ih fun b hb => h b (List.mem_cons_of_mem _ hb)
    exact ((h a List.mem_cons_self).otherwise hrest).mono List.forall_mem_cons.mpr

/-- A leaf before what comes after it. -/
theorem PartialPromise.before_leaf {j : Nat} (h : PartialPromise f input active j fails tail)
    (hij : i ≤ j) (ts : List Tree) :
    PartialPromise f input active i fails (before (return some ts) tail) := by
  intro s hs
  obtain ⟨hfailed, hfound⟩ := h s hs
  rw [run_before]
  rcases hrun : tail.run s with ⟨_ | after, s'⟩
  · rw [hrun] at hfailed
    exact ⟨hfailed, fun h => absurd rfl h⟩
  · rw [hrun] at hfound
    exact ⟨fun h => absurd h (by simp), fun _ => (hfound (by simp)).anti hij⟩

theorem PartialPromise.wrapped (h : PartialPromise f input active i fails search) (goal : Goal)
    (sender recipient : Option String) :
    PartialPromise f input active i fails (wrapped goal sender recipient search) := by
  intro s hs
  obtain ⟨hfailed, hfound⟩ := h s hs
  rw [run_wrapped]
  exact ⟨fun hnone => hfailed (Option.map_eq_none_iff.mp hnone),
    fun hsome => hfound fun hnone => hsome (by rw [hnone]; rfl)⟩

/-- **A goal before what comes after it**: the goal is found whenever the rest is. -/
theorem PartialPromise.before_goal (hf : f.Lawful) (hloop : f.Loopless) (htails : f.TailsStop)
    {goal : Goal} {m : Nat} (hpredicted : f.Predicted input root goal i)
    (hspans : f.Spans input goal i m) (h : PartialPromise f input active m fails tail)
    (sender recipient : Option String) :
    PartialPromise f input active i fails (before (Search.wrapped goal sender recipient
      (goalChildren f (Chart.of f input root) input (f.nestingBound input.size) goal i m))
      tail) := by
  intro s hs
  obtain ⟨hfailed, hfound⟩ := h s hs
  rw [run_before]
  rcases hrun : tail.run s with ⟨_ | after, s'⟩
  · rw [hrun] at hfailed
    exact ⟨hfailed, fun h => absurd rfl h⟩
  · rw [hrun] at hfound
    have hready : Ready f input (fun _ => False) m s' := hfound (by simp)
    have hkept := kept_goalChildren hf (hloop.scope input) htails hpredicted trivial hready
      (Nat.le_refl m)
    refine ⟨fun hnone => ?_, fun _ => ?_⟩
    · -- Nothing is being looked for, so a goal that spans the stretch is found on it.
      have hnone' := Option.map_eq_none_iff.mp (Option.map_eq_none_iff.mp hnone)
      exact absurd hspans (hkept.failed hnone').2
    · exact hkept.ready_left hready hspans.le fun j hj _ => hj

end PartialPromise

/-! ### Unfinished goals -/

section Unfinished

variable {active : Goal × Nat → Prop} {goal : Goal} {i : Nat} {search : Search}

theorem PartialReady.enterPartial {s : SearchState} (hs : PartialReady f input active s)
    (key : Goal × Nat) :
    PartialReady f input (FlatGrammar.alsoUnfinished key active) (s.enterPartial key) := by
  refine ⟨⟨hs.whole.active_eq, ⟨hs.whole.upto.goals, hs.whole.upto.atoms⟩,
    ⟨hs.whole.clean.goals, hs.whole.clean.atoms⟩⟩, contains_insert_eq hs.unfinished_eq key,
    fun goal i hfailed hactive => ?_⟩
  rintro ⟨atoms, halt, hatoms⟩
  exact hs.failed goal i hfailed (fun h => hactive (Or.inr h))
    ⟨atoms, halt, hatoms.mono fun _ => Or.inr⟩

/-- A goal that fails takes the failures inside it along. -/
theorem PartialReady.leavePartial {s : SearchState}
    (hs : PartialReady f input (FlatGrammar.alsoUnfinished (goal, i) active) s)
    (hactive : ¬ active (goal, i))
    (hfails : ¬ f.GoalBegins input (FlatGrammar.alsoUnfinished (goal, i) active) goal i) :
    PartialReady f input active ((s.leavePartial (goal, i)).failPartial (goal, i)) := by
  refine ⟨⟨hs.whole.active_eq, ⟨hs.whole.upto.goals, hs.whole.upto.atoms⟩,
    ⟨hs.whole.clean.goals, hs.whole.clean.atoms⟩⟩, contains_erase_eq hs.unfinished_eq hactive,
    fun goal' i' hkey hactive' => ?_⟩
  rintro ⟨atoms, halt, hatoms⟩
  have hbegins : f.GoalBegins input (FlatGrammar.alsoUnfinished (goal, i) active) goal' i' :=
    ⟨atoms, halt, (hatoms.or_goalBegins (goal, i)).resolve_right hfails⟩
  by_cases hsame : (goal', i') = (goal, i)
  · obtain ⟨rfl, rfl⟩ := Prod.mk.inj hsame
    exact hfails hbegins
  · have hfailed := (contains_or_eq hkey).resolve_right hsame
    exact hs.failed goal' i' hfailed (fun h => h.elim hsame hactive') hbegins

/-- **A goal is begun while it is unfinished.** -/
theorem partialPromise_goal
    (h : PartialPromise f input (FlatGrammar.alsoUnfinished (goal, i) active) i
      (¬ f.GoalBegins input (FlatGrammar.alsoUnfinished (goal, i) active) goal i) search) :
    PartialPromise f input active i (active (goal, i) ∨ ¬ f.GoalBegins input active goal i)
      (guarded (fun s => s.failedPartials.contains (goal, i) || s.activePartials.contains (goal, i))
        (noting (SearchState.failPartial (goal, i))
          (during (SearchState.enterPartial (goal, i)) (SearchState.leavePartial (goal, i))
            search))) := by
  intro s hs
  rw [run_guarded]
  split
  · rename_i hhopeless
    refine ⟨fun _ => ⟨hs, ?_⟩, fun h => absurd rfl h⟩
    by_cases hactive : active (goal, i)
    · exact Or.inl hactive
    · rcases Bool.or_eq_true_iff.mp hhopeless with hfailed | hunfinished
      · exact Or.inr (hs.failed goal i hfailed hactive)
      · exact Or.inl (hs.unfinished_eq ▸ hunfinished)
  · rename_i hhopeless
    have hactive : ¬ active (goal, i) := by
      rw [← hs.unfinished_eq]
      exact fun h => hhopeless (Bool.or_eq_true_iff.mpr (Or.inr h))
    obtain ⟨hfailed, hfound⟩ := h _ (hs.enterPartial (goal, i))
    rw [run_noting, run_during]
    rcases hrun : search.run (s.enterPartial (goal, i)) with ⟨_ | ts, s'⟩
    · rw [hrun] at hfailed
      obtain ⟨hs', hno⟩ := hfailed rfl
      exact ⟨fun _ => ⟨hs'.leavePartial hactive hno, Or.inr fun hbegins => hno hbegins.cut⟩,
        fun h => absurd rfl h⟩
    · rw [hrun] at hfound
      have hready : Ready f input (fun _ => False) i s' := hfound (by simp)
      exact ⟨fun h => absurd h (by simp), fun _ => ⟨hready.active_eq,
        ⟨hready.upto.goals, hready.upto.atoms⟩, ⟨hready.clean.goals, hready.clean.atoms⟩⟩⟩

end Unfinished

/-! ### Promises of the searches -/

section Promises

variable {active : Goal × Nat → Prop}

/-- What is promised of the search for unfinished goals while these goals are active. -/
def UnfinishedPromise (f : FlatGrammar) (input : Array UInt8) (root : Goal)
    (active : Goal × Nat → Prop) (child : Goal → Nat → Search) : Prop :=
  ∀ (goal : Goal) (i : Nat), f.Predicted input root goal i →
    PartialPromise f input active i (active (goal, i) ∨ ¬ f.GoalBegins input active goal i)
      (child goal i)

/-- A literal, what comes after it being searched first. -/
theorem partialPromise_literal {value : Literal} {rest : List Atom} {i : Nat} (hi : i ≤ input.size)
    (hend : i ≠ input.size) {tail : Search}
    (htail : Chart.bytesAt input i value.toBytes = true →
      PartialPromise f input active (i + value.toBytes.length)
        (¬ f.Begins input active rest (i + value.toBytes.length)) tail) :
    PartialPromise f input active i (¬ f.Begins input active (.literal value :: rest) i)
      (if value.toBytes.isPrefixOf (input.toList.drop i) then
        before (return some [Tree.leaf value]) tail
      else if (input.toList.drop i).isPrefixOf value.toBytes then
        return some [Tree.leaf (cutLiteral value (input.toList.drop i))]
      else return none) := by
  split
  · rename_i hwhole
    have hprefix := List.isPrefixOf_iff_prefix.mp hwhole
    have hbytes := Chart.bytesAt_iff_starts.mpr hprefix
    refine ((htail hbytes).before_leaf (Nat.le_add_right _ _) _).mono fun hno h => ?_
    rcases (FlatGrammar.begins_cons_literal hend).mp h with ⟨-, hrest⟩ | hcut
    · exact hno hrest
    · -- All of the input that is left is the literal, and nothing comes after it.
      have hsame := hprefix.eq_of_length_le (List.isPrefixOf_iff_prefix.mp hcut).length_le
      have hlength : i + value.toBytes.length = input.size := by
        rw [hsame, List.length_drop, Array.length_toList]
        omega
      exact hno (hlength ▸ .stop)
  · rename_i hwhole
    split
    · exact partialPromise_some hi _
    · rename_i hcut
      refine partialPromise_none fun h => ?_
      rcases (FlatGrammar.begins_cons_literal hend).mp h with ⟨hbytes, -⟩ | hcut'
      · exact hwhole (List.isPrefixOf_iff_prefix.mpr (Chart.bytesAt_iff_starts.mp hbytes))
      · exact hcut hcut'

/-- A goal: it is searched up to each of its ends, with what comes after it searched first, and then
as an unfinished one. -/
theorem partialPromise_cons_goal (hf : f.Lawful) (hloop : f.Loopless) (htails : f.TailsStop)
    {partialChild : Goal → Nat → Search}
    (hchild : UnfinishedPromise f input root active partialChild) {goal : Goal}
    {sender recipient : Option String} {rest : List Atom} {i : Nat} (hend : i ≠ input.size)
    (hpredicted : f.Predicted input root goal i) {tail : Nat → Search}
    (htail : ∀ m, f.Spans input goal i m →
      PartialPromise f input active m (¬ f.Begins input active rest m) (tail m)) :
    PartialPromise f input active i
      (¬ f.Begins input active (.goal goal sender recipient :: rest) i)
      (otherwise
        (first (fun m => before (Search.wrapped goal sender recipient
            (goalChildren f (Chart.of f input root) input (f.nestingBound input.size) goal i m))
            (tail m))
          ((Chart.of f input root).ends goal i))
        (Search.wrapped goal sender recipient (partialChild goal i))) := by
  have hwhole : PartialPromise f input active i
      (∀ m ∈ (Chart.of f input root).ends goal i, ¬ f.Begins input active rest m)
      (first (fun m => before (Search.wrapped goal sender recipient
          (goalChildren f (Chart.of f input root) input (f.nestingBound input.size) goal i m))
          (tail m))
        ((Chart.of f input root).ends goal i)) := by
    refine partialPromise_first fun m hm => ?_
    have hspans := ((Chart.mem_ends_of hf).mp hm).2
    exact (htail m hspans).before_goal hf hloop htails hpredicted hspans sender recipient
  refine (hwhole.otherwise ((hchild goal i hpredicted).wrapped goal sender recipient)).mono ?_
  rintro ⟨hno, hno'⟩ h
  rcases (FlatGrammar.begins_cons_goal hend).mp h with ⟨m, hspans, hrest⟩ | ⟨hactive, hbegins⟩
  · exact hno m ((Chart.mem_ends_of hf).mpr ⟨hpredicted, hspans⟩) hrest
  · exact hno'.elim hactive fun hno' => hno' hbegins

/-- **The search for a beginning with the rest of a production** fails only if there is none. -/
theorem partialPromise_atoms (hf : f.Lawful) (hloop : f.Loopless) (htails : f.TailsStop)
    {partialChild : Goal → Nat → Search}
    (hchild : UnfinishedPromise f input root active partialChild) {k origin : Nat} {p : Production}
    {atoms : List Atom} {dot i : Nat} (hdrop : p.atoms.toList.drop dot = atoms)
    (hat : AtomsAt f input root (fun _ _ _ => True) (fun _ => False) k p origin dot i i) :
    PartialPromise f input active i (¬ f.Begins input active atoms i)
      (partialAtoms (Chart.of f input root) input
        (goalChildren f (Chart.of f input root) input (f.nestingBound input.size)) partialChild
        atoms i) := by
  induction atoms generalizing dot i with
  | nil =>
    rw [partialAtoms.eq_def]
    by_cases hend : i = input.size
    · rw [if_pos hend]
      exact partialPromise_some (hat.reads.le_size hat.predicted.le_size) []
    · rw [if_neg hend]
      refine partialPromise_none fun h => hend ?_
      cases h
      rfl
  | cons a rest ih =>
    have hi : i ≤ input.size := hat.reads.le_size hat.predicted.le_size
    rw [partialAtoms.eq_def]
    by_cases hend : i = input.size
    · rw [if_pos hend]
      exact partialPromise_some hi []
    · rw [if_neg hend]
      -- What comes after the first atom is searched from where the atom ends.
      have hnext : ∀ m, f.Reads input [a] i m →
          PartialPromise f input active m (¬ f.Begins input active rest m)
            (partialAtoms (Chart.of f input root) input
              (goalChildren f (Chart.of f input root) input (f.nestingBound input.size))
              partialChild rest m) := by
        intro m ha
        obtain ⟨hat', hdrop'⟩ := hat.next hdrop ha
        exact ih hdrop' ⟨hat'.production, hat'.predicted, trivial, fun _ _ _ _ => trivial,
          hat'.reads, fun _ _ _ h => h.elim, fun _ h => h.elim⟩
      cases a with
      | literal value =>
        exact partialPromise_literal hi hend fun hbytes => hnext _ (.literal hbytes .nil)
      | goal goal sender recipient =>
        refine partialPromise_cons_goal hf hloop htails hchild hend (hat.predicted_goal hdrop) ?_
        exact fun m hspans => hnext m (FlatGrammar.reads_cons_goal.mpr ⟨m, hspans, .nil⟩)

/-- The goals with productions, each from any position on. -/
def partialPlaces (f : FlatGrammar) (input : Array UInt8) : Finset (Goal × Nat) :=
  f.ofGoal.keys.toFinset ×ˢ Finset.range (input.size + 1)

open Classical in
/-- How many goals can still become unfinished. -/
noncomputable def notUnfinished (f : FlatGrammar) (input : Array UInt8)
    (active : Goal × Nat → Prop) : Nat :=
  ((partialPlaces f input).filter fun key => ¬ active key).card

theorem notUnfinished_lt_nestingBound (active : Goal × Nat → Prop) :
    notUnfinished f input active < f.nestingBound input.size := by
  classical
  have hkeys : f.ofGoal.keys.toFinset.card ≤ f.ofGoal.size := by
    rw [← Std.HashMap.length_keys]
    exact List.toFinset_card_le _
  have hplaces : (partialPlaces f input).card ≤
      f.ofGoal.size * (input.size + 1) * (input.size + 1) := by
    rw [partialPlaces, Finset.card_product, Finset.card_range]
    exact (Nat.mul_le_mul_right _ hkeys).trans (Nat.le_mul_of_pos_right _ (Nat.succ_pos _))
  have hfilter : notUnfinished f input active ≤ (partialPlaces f input).card :=
    Finset.card_filter_le _ _
  rw [FlatGrammar.nestingBound]
  omega

theorem notUnfinished_lt (hf : f.Listed) {goal : Goal} {i : Nat} (hkey : ¬ active (goal, i))
    {k : Nat} {p : Production} (hp : f.productions[k]? = some p) (hgoal : p.goal = goal)
    (hi : i ≤ input.size) :
    notUnfinished f input (FlatGrammar.alsoUnfinished (goal, i) active) <
      notUnfinished f input active := by
  subst hgoal
  have hplace : (p.goal, i) ∈ partialPlaces f input := by
    simp only [partialPlaces, Finset.mem_product, List.mem_toFinset, Finset.mem_range,
      Std.HashMap.mem_keys]
    exact ⟨hf.contains hp, by omega⟩
  exact card_unmarked_lt hplace hkey (Or.inl rfl) fun _ => Or.inr

/-- **The search for a beginning of a goal** fails only if the goal is unfinished or there is
none. -/
theorem promise_partialGoal (hf : f.Lawful) (hloop : f.Loopless) (htails : f.TailsStop) :
    ∀ (depth : Nat) (active : Goal × Nat → Prop), notUnfinished f input active < depth →
      UnfinishedPromise f input root active (partialGoal f (Chart.of f input root) input
        (goalChildren f (Chart.of f input root) input (f.nestingBound input.size)) depth)
  | 0, _, h => absurd h (Nat.not_lt_zero _)
  | depth + 1, active, hdepth => by
    intro goal i hpredicted
    by_cases hactive : active (goal, i)
    · rw [partialGoal]
      intro s hs
      rw [run_guarded, if_pos]
      · exact ⟨fun _ => ⟨hs, Or.inl hactive⟩, fun h => absurd rfl h⟩
      · rw [← hs.unfinished_eq] at hactive
        exact Bool.or_eq_true_iff.mpr (Or.inr hactive)
    · rw [partialGoal]
      refine partialPromise_goal ?_
      have hall : PartialPromise f input (FlatGrammar.alsoUnfinished (goal, i) active) i
          (∀ k ∈ f.productionsOf goal, ∀ p, f.productions[k]? = some p →
            ¬ f.Begins input (FlatGrammar.alsoUnfinished (goal, i) active) p.atoms.toList i)
          (alternatives f (fun _ p => partialAtoms (Chart.of f input root) input
            (goalChildren f (Chart.of f input root) input (f.nestingBound input.size))
            (partialGoal f (Chart.of f input root) input
              (goalChildren f (Chart.of f input root) input (f.nestingBound input.size)) depth)
            p.atoms.toList i) goal) := by
        refine partialPromise_first fun k hk => ?_
        obtain ⟨p, hp, hgoal⟩ := (hf.listed k goal).mp hk
        -- One goal more is unfinished inside, so one level less is enough there.
        have hlt := notUnfinished_lt hf.listed hactive hp hgoal hpredicted.le_size
        have hchild := promise_partialGoal hf hloop htails depth
          (FlatGrammar.alsoUnfinished (goal, i) active) (by omega)
        have hat : AtomsAt f input root (fun _ _ _ => True) (fun _ => False) k p i 0 i i :=
          ⟨hp, hgoal ▸ hpredicted, trivial, fun _ _ _ _ => trivial, .nil, fun _ _ _ h => h.elim,
            fun _ h => h.elim⟩
        rw [hp]
        refine (partialPromise_atoms hf hloop htails hchild List.drop_zero hat).mono ?_
        intro hno p' hp'
        obtain rfl := Option.some.inj hp'
        exact hno
      refine hall.mono ?_
      rintro hno ⟨atoms, ⟨k, p, hp, hgoal, rfl⟩, hbegins⟩
      exact hno k ((hf.listed k goal).mpr ⟨p, hp, hgoal⟩) p hp hbegins

/-- **A beginning is found when there is one**, after the search for a whole derivation failed. -/
theorem partialGoal_isSome (hf : f.Lawful) (hloop : f.Loopless) (htails : f.TailsStop)
    (hbegins : f.GoalBegins input (fun _ => False) root 0) {s : SearchState}
    (hs : PartialReady f input (fun _ => False) s) :
    ((partialGoal f (Chart.of f input root) input
      (goalChildren f (Chart.of f input root) input (f.nestingBound input.size))
      (f.nestingBound input.size) root 0).run s).1 ≠ none := by
  intro hnone
  have hpromise := promise_partialGoal hf hloop htails (f.nestingBound input.size)
    (fun _ => False) (notUnfinished_lt_nestingBound _) root 0 .root s hs
  rcases (hpromise.1 hnone).2 with hactive | hno
  · exact hactive
  · exact hno hbegins

end Promises

end Search

end GrammarFuzzing
