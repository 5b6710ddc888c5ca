import GrammarFuzzing.Proofs.Parse.Partial
import GrammarFuzzing.Proofs.Parse.Recognition

/-!
# Beginnings of what a grammar derives

In incomplete mode the recognizer asks whether the chart of the input is viable. A chart is viable
exactly for the inputs that begin something its root yields (`GrammarFuzzing.Chart.viable_iff`),
provided no goal that can be met on the way is a dead end: each of them yields something
(`GrammarFuzzing.FlatGrammar.Live`).

That a beginning of a yield makes the chart viable needs no such proviso. The derivation of the
yield is cut where the input ends (`GrammarFuzzing.FlatGrammar.Yields.begins`), and the items of the
chart follow it up to the cut (`GrammarFuzzing.Item.Holds.viable`). The other way round a viable
chart only promises that an alternative has been begun, and the proviso is what finishes it
(`GrammarFuzzing.FlatGrammar.Live.exists_yields_of_begins`).
-/

namespace GrammarFuzzing

namespace FlatGrammar

variable {f : FlatGrammar} {input : Array UInt8} {root : Goal} {atoms : List Atom} {i : Nat}

/-! ### Beginnings of yields are beginnings -/

/-- **What begins a yield of atoms begins the atoms.** -/
theorem Derives.begins {ts : List Tree} (h : f.Derives atoms ts) (hi : i ≤ input.size)
    (hstarts : input.toList.drop i <+: Tree.listToBytes ts) :
    f.Begins input (fun _ => False) atoms i := by
  induction h generalizing i with
  | nil =>
    rw [Tree.listToBytes_nil, List.prefix_nil, List.drop_eq_nil_iff, Array.length_toList] at hstarts
    rw [Nat.le_antisymm hi hstarts]
    exact .stop
  | @literal value rest ts _ ih =>
    rw [Tree.listToBytes_cons, Tree.toBytes_leaf] at hstarts
    rcases List.prefix_or_prefix_of_prefix hstarts (List.prefix_append ..) with hcut | hwhole
    · exact .cut (List.isPrefixOf_iff_prefix.mpr hcut)
    · have hbytes := Chart.bytesAt_iff_starts.mpr hwhole
      refine .literal hbytes (ih (Chart.add_length_le_of_bytesAt hbytes hi) ?_)
      rwa [← List.prefix_append_right_inj value.toBytes, Chart.append_drop_of_bytesAt hbytes]
  | @goal goal sender recipient as rest cs ts halt hcs _ ihcs ihts =>
    rw [Tree.listToBytes_append, Search.listToBytes_wrap] at hstarts
    rcases List.prefix_or_prefix_of_prefix hstarts (List.prefix_append ..) with hcut | hwhole
    · exact .unfinished id halt (ihcs hi hcut)
    · have hbytes := Chart.bytesAt_iff_starts.mpr hwhole
      refine .goal ⟨as, halt, hcs.reads hbytes⟩
        (ihts (Chart.add_length_le_of_bytesAt hbytes hi) ?_)
      rwa [← List.prefix_append_right_inj (Tree.listToBytes cs),
        Chart.append_drop_of_bytesAt hbytes]

/-- What begins a yield of a goal begins the goal. -/
theorem GoalYields.goalBegins {goal : Goal} {w : Bytes} (h : f.GoalYields goal w)
    (hstarts : input.toList <+: w) : f.GoalBegins input (fun _ => False) goal 0 := by
  obtain ⟨atoms, halt, ts, hts, rfl⟩ := h
  exact ⟨atoms, halt, hts.begins (Nat.zero_le _) (by rwa [List.drop_zero])⟩

/-! ### Goals that are no dead ends -/

/-- All goals among some atoms belong to a set. -/
def GoalsIn (P : Goal → Prop) (atoms : List Atom) : Prop :=
  ∀ goal sender recipient, Atom.goal goal sender recipient ∈ atoms → P goal

/-- **A set of goals without dead ends**: each yields something, and leads to such goals only. -/
structure Live (f : FlatGrammar) (P : Goal → Prop) : Prop where
  yields : ∀ {goal}, P goal → ∃ w, f.GoalYields goal w
  closed : ∀ {goal atoms}, P goal → f.Alternative goal atoms → GoalsIn P atoms

variable {P : Goal → Prop}

theorem GoalsIn.tail {a : Atom} (h : GoalsIn P (a :: atoms)) : GoalsIn P atoms :=
  fun goal sender recipient hmem => h goal sender recipient (List.mem_cons_of_mem _ hmem)

theorem GoalsIn.head {goal : Goal} {sender recipient : Option String}
    (h : GoalsIn P (.goal goal sender recipient :: atoms)) : P goal :=
  h goal sender recipient List.mem_cons_self

/-- Atoms without dead ends yield something. -/
theorem Live.exists_yields (hP : f.Live P) (h : GoalsIn P atoms) : ∃ w, f.Yields atoms w := by
  induction atoms with
  | nil => exact ⟨[], yields_nil⟩
  | cons a atoms ih =>
    obtain ⟨v, hv⟩ := ih h.tail
    cases a with
    | literal value => exact ⟨_, yields_cons_literal.mpr ⟨v, rfl, hv⟩⟩
    | goal goal sender recipient =>
      obtain ⟨u, hu⟩ := hP.yields h.head
      exact ⟨_, yields_cons_goal.mpr ⟨u, v, rfl, hu, hv⟩⟩

/-- **What has been begun can be finished**, where there are no dead ends. -/
theorem Live.exists_yields_of_begins (hP : f.Live P) (h : GoalsIn P atoms)
    (hbegins : f.Begins input (fun _ => False) atoms i) :
    ∃ w, f.Yields atoms w ∧ input.toList.drop i <+: w := by
  induction hbegins with
  | @stop atoms =>
    obtain ⟨w, hw⟩ := hP.exists_yields h
    refine ⟨w, hw, ?_⟩
    rw [List.drop_eq_nil_of_le (Nat.le_of_eq Array.length_toList)]
    exact List.nil_prefix
  | @literal value rest i hbytes _ ih =>
    obtain ⟨w, hw, hstarts⟩ := ih h.tail
    refine ⟨_, yields_cons_literal.mpr ⟨w, rfl, hw⟩, ?_⟩
    rw [← Chart.append_drop_of_bytesAt hbytes]
    exact (List.prefix_append_right_inj _).mpr hstarts
  | @cut value rest i hcut =>
    obtain ⟨w, hw⟩ := hP.exists_yields h.tail
    exact ⟨_, yields_cons_literal.mpr ⟨w, rfl, hw⟩,
      (List.isPrefixOf_iff_prefix.mp hcut).trans (List.prefix_append ..)⟩
  | @goal goal sender recipient rest i m hspans _ ih =>
    obtain ⟨u, hu, hbytes, rfl⟩ := spans_iff.mp hspans
    obtain ⟨w, hw, hstarts⟩ := ih h.tail
    refine ⟨_, yields_cons_goal.mpr ⟨u, w, rfl, hu, hw⟩, ?_⟩
    rw [← Chart.append_drop_of_bytesAt hbytes]
    exact (List.prefix_append_right_inj _).mpr hstarts
  | @unfinished goal sender recipient as rest i _ halt _ ih =>
    obtain ⟨u, hu, hstarts⟩ := ih (hP.closed h.head halt)
    obtain ⟨w, hw⟩ := hP.exists_yields h.tail
    exact ⟨_, yields_cons_goal.mpr ⟨u, w, rfl, ⟨as, halt, hu⟩, hw⟩,
      hstarts.trans (List.prefix_append ..)⟩

end FlatGrammar

/-! ### Viable charts -/

namespace Chart

variable {f : FlatGrammar} {input : Array UInt8} {root : Goal} {atoms : List Atom} {i : Nat}

/-- A chart with an item at the end of the input is viable. -/
theorem viable_of_mem_end {c : Chart} {item : Item} (h : item ∈ c.itemsAt input.size) :
    c.viable f input = true := by
  have hitems : (c.itemsAt input.size).isEmpty = false := by
    rw [Bool.eq_false_iff]
    intro hempty
    rw [Array.isEmpty_iff.mp hempty] at h
    exact absurd h (Array.not_mem_empty _)
  simp [viable, hitems]

/-- A chart with an item that waits for a literal which begins with all that is left of the input is
viable. -/
theorem viable_of_cut {c : Chart} {item : Item} (h : item ∈ c.itemsAt i) (hi : i ≤ input.size)
    {value : Literal} (ha : f.atomAt? item.production item.dot = some (.literal value))
    (hcut : (input.toList.drop i).isPrefixOf value.toBytes = true) : c.viable f input = true := by
  rw [viable]
  simp only
  split
  · rfl
  · refine List.any_eq_true.mpr ⟨i, List.mem_range.mpr (Nat.lt_succ_of_le hi), ?_⟩
    exact Array.any_eq_true'.mpr ⟨item, h, by rw [ha]; exact hcut⟩

end Chart

section Viable

open FlatGrammar

variable {f : FlatGrammar} {input : Array UInt8} {root : Goal} {atoms : List Atom} {i : Nat}

/-- **A chart is viable if what an item waits for has been begun**: the items it leads to follow the
beginning to the end of the input. -/
theorem Item.Holds.viable (hf : f.Lawful) (hbegins : f.Begins input (fun _ => False) atoms i) :
    ∀ (item : Item) {p : Production}, f.productions[item.production]? = some p →
      p.atoms.toList.drop item.dot = atoms → item.Holds f input root i →
        (Chart.of f input root).viable f input = true := by
  -- Nothing is begun by passing over an atom that stands at the dot.
  have hatom : ∀ {item : Item} {p : Production} {a : Atom} {rest : List Atom},
      f.productions[item.production]? = some p → p.atoms.toList.drop item.dot = a :: rest →
        f.atomAt? item.production item.dot = some a := fun hp hdrop =>
    atomAt?_eq_some.mpr ⟨_, hp, (atom_of_drop hdrop).1⟩
  induction hbegins with
  | stop =>
    intro item p _ _ h
    exact Chart.viable_of_mem_end ((Chart.mem_itemsAt hf).mpr h)
  | literal hbytes _ ih =>
    intro item p hp hdrop h
    exact ih item.advanced hp (atom_of_drop hdrop).2
      (h.advanced (hatom hp hdrop) (.literal hbytes .nil))
  | cut hcut =>
    intro item p hp hdrop h
    exact Chart.viable_of_cut ((Chart.mem_itemsAt hf).mpr h) h.le_size (hatom hp hdrop) hcut
  | goal hspans _ ih =>
    intro item p hp hdrop h
    exact ih item.advanced hp (atom_of_drop hdrop).2
      (h.advanced (hatom hp hdrop) (reads_cons_goal.mpr ⟨_, hspans, .nil⟩))
  | @unfinished goal sender recipient as rest i _ halt _ ih =>
    intro item p hp hdrop h
    obtain ⟨k, q, hq, rfl, rfl⟩ := halt
    exact ih ⟨k, 0, i⟩ hq rfl (Item.holds_start hq (h.predicted (hatom hp hdrop)))

/-- **A chart is viable exactly for the beginnings of what its root yields**, if the root leads to
no dead end. -/
theorem Chart.viable_iff (hf : f.Lawful) {P : Goal → Prop} (hP : f.Live P) (hroot : P root) :
    (Chart.of f input root).viable f input = true ↔
      ∃ w, f.GoalYields root w ∧ input.toList <+: w := by
  constructor
  · intro h
    obtain ⟨w, atoms, halt, -⟩ := hP.yields hroot
    obtain ⟨atoms, halt, hbegins⟩ := Chart.goalBegins_of_viable hf ⟨atoms, halt⟩ h
    obtain ⟨w, hw, hstarts⟩ := hP.exists_yields_of_begins (hP.closed hroot halt) hbegins
    exact ⟨w, ⟨atoms, halt, hw⟩, by rwa [List.drop_zero] at hstarts⟩
  · rintro ⟨w, hw, hstarts⟩
    obtain ⟨atoms, ⟨k, p, hp, rfl, rfl⟩, hbegins⟩ := hw.goalBegins hstarts
    exact Item.Holds.viable hf hbegins ⟨k, 0, 0⟩ hp rfl (Item.holds_start hp .root)

end Viable

end GrammarFuzzing
