import GrammarFuzzing.Proofs.Parse.Span
import Mathlib.Data.List.ProdSigma

/-!
# What a chart holds

The chart of an input holds at each position exactly the items that hold there
(`GrammarFuzzing.Chart.mem_itemsAt`), and it records exactly the stretches that predicted goals span
(`GrammarFuzzing.Chart.spans_of_iff`). An item **holds** when its goal is predicted at its origin
and the atoms before its dot read the input up to the position (`GrammarFuzzing.Item.Holds`).

That nothing else is added is an invariant of every operation on a chart
(`GrammarFuzzing.Chart.Sound`). That nothing is missing comes from the items that have been
processed: each has led on to whatever it leads to (`GrammarFuzzing.Chart.Handled`), and this is
never undone while the chart grows (`GrammarFuzzing.Chart.Grows`).

The one delicate case is a goal that ends where it starts. When it is complete, the items that wait
for it may not all be there yet. But then it yields nothing, and a goal that is nullable is skipped
as soon as an item waits for it; only goals that moved on have to look back, and what they look back
at is finished.
-/

namespace GrammarFuzzing

/-! ### Sets of items -/

namespace ItemSet

/-- The items are listed once each, and are those that were seen. -/
structure Coherent (s : ItemSet) : Prop where
  nodup : s.items.toList.Nodup
  seen : ∀ i, s.seen.contains i = true ↔ i ∈ s.items

theorem coherent_empty : empty.Coherent :=
  ⟨by simp [empty], by simp [empty]⟩

theorem Coherent.insert {s : ItemSet} (hs : s.Coherent) (i : Item) : (s.insert i).Coherent := by
  rw [ItemSet.insert]
  split
  · exact hs
  · rename_i hseen
    have hmem : i ∉ s.items := fun h => hseen ((hs.seen i).mpr h)
    refine ⟨?_, fun j => ?_⟩
    · rw [Array.toList_push, List.nodup_append]
      refine ⟨hs.nodup, by simp, ?_⟩
      intro j hj k hk hjk
      rw [List.mem_singleton.mp hk] at hjk
      exact hmem (hjk ▸ Array.mem_toList_iff.mp hj)
    · rw [Std.HashSet.contains_insert, Bool.or_eq_true, hs.seen, Array.mem_push, beq_iff_eq,
        or_comm, @eq_comm _ i j]

theorem Coherent.mem_insert {s : ItemSet} (hs : s.Coherent) {i j : Item} :
    j ∈ (s.insert i).items ↔ j ∈ s.items ∨ j = i := by
  rw [ItemSet.insert]
  split
  · rename_i hseen
    refine ⟨Or.inl, fun h => h.elim id ?_⟩
    rintro rfl
    exact (hs.seen j).mp hseen
  · exact Array.mem_push

theorem getElem?_insert {s : ItemSet} {k : Nat} {i j : Item} (h : s.items[k]? = some j) :
    (s.insert i).items[k]? = some j := by
  rw [ItemSet.insert]
  split
  · exact h
  · obtain ⟨hlt, -⟩ := Array.getElem?_eq_some_iff.mp h
    rw [Array.getElem?_push_lt hlt, ← h, Array.getElem?_eq_getElem hlt]

end ItemSet

/-! ### Predicted goals and items that hold -/

namespace FlatGrammar

theorem atomAt?_eq_some {f : FlatGrammar} {k d : Nat} {a : Atom} :
    f.atomAt? k d = some a ↔ ∃ p, f.productions[k]? = some p ∧ p.atoms[d]? = some a := by
  rw [atomAt?]
  split
  · rename_i p hp
    simp [hp]
  · rename_i hp
    simp [hp]

/-- The atom after a dot, and the atoms after the next one. -/
theorem atom_of_drop {p : Production} {d : Nat} {a : Atom} {rest : List Atom}
    (h : p.atoms.toList.drop d = a :: rest) :
    p.atoms[d]? = some a ∧ p.atoms.toList.drop (d + 1) = rest := by
  constructor
  · have hget : (p.atoms.toList.drop d)[0]? = some a := by rw [h]; rfl
    rwa [List.getElem?_drop, Nat.add_zero, Array.getElem?_toList] at hget
  · rw [← List.drop_drop, h, List.drop_one, List.tail_cons]

/-- **The goals that are looked for at a position**: the root at the beginning, and whatever follows
a part of an alternative of such a goal. -/
inductive Predicted (f : FlatGrammar) (input : Array UInt8) (root : Goal) : Goal → Nat → Prop
  | root : f.Predicted input root root 0
  | step {p : Production} {k d origin position : Nat} {goal : Goal}
      {sender recipient : Option String} : f.productions[k]? = some p →
    f.Predicted input root p.goal origin →
    f.Reads input (p.atoms.toList.take d) origin position →
    p.atoms[d]? = some (.goal goal sender recipient) → f.Predicted input root goal position

theorem Predicted.le_size {f : FlatGrammar} {input : Array UInt8} {root goal : Goal} {i : Nat}
    (h : f.Predicted input root goal i) : i ≤ input.size := by
  induction h with
  | root => exact Nat.zero_le _
  | step _ _ hreads _ ih => exact hreads.le_size ih

/-- **A grammar whose productions are listed and whose nullable goals are known.** -/
structure Lawful (f : FlatGrammar) : Prop where
  listed : f.Listed
  nullable : ∀ goal, f.nullable.contains goal = true ↔ f.GoalYields goal []

theorem lawful_of (g : Grammar) : (of g).Lawful :=
  ⟨listed_of g, fun _ => nullable_of_iff g⟩

end FlatGrammar

/-- **An item holds at a position**: its goal is predicted at its origin, and what stands before the
dot reads the input from there to the position. -/
def Item.Holds (f : FlatGrammar) (input : Array UInt8) (root : Goal) (position : Nat) (i : Item) :
    Prop :=
  ∃ p, f.productions[i.production]? = some p ∧ i.dot ≤ p.atoms.size ∧
    f.Predicted input root p.goal i.origin ∧
    f.Reads input (p.atoms.toList.take i.dot) i.origin position

section Holds

variable {f : FlatGrammar} {input : Array UInt8} {root goal : Goal} {i : Item} {position stop : Nat}

theorem Item.Holds.origin_le (h : i.Holds f input root position) : i.origin ≤ position := by
  obtain ⟨p, -, -, -, hreads⟩ := h
  exact hreads.le

theorem Item.Holds.le_size (h : i.Holds f input root position) : position ≤ input.size := by
  obtain ⟨p, -, -, hpredicted, hreads⟩ := h
  exact hreads.le_size hpredicted.le_size

theorem Item.holds_start {k : Nat} {p : Production} (hp : f.productions[k]? = some p)
    (h : f.Predicted input root p.goal position) :
    (Item.mk k 0 position).Holds f input root position :=
  ⟨p, hp, Nat.zero_le _, h, .nil⟩

/-- **An item moves on** over an atom that reads the input. -/
theorem Item.Holds.advanced (h : i.Holds f input root position) {a : Atom}
    (ha : f.atomAt? i.production i.dot = some a) (hreads : f.Reads input [a] position stop) :
    i.advanced.Holds f input root stop := by
  obtain ⟨p, hp, hdot, hpredicted, hread⟩ := h
  obtain ⟨p', hp', ha⟩ := FlatGrammar.atomAt?_eq_some.mp ha
  obtain rfl := Option.some.inj (hp.symm.trans hp')
  obtain ⟨hlt, -⟩ := Array.getElem?_eq_some_iff.mp ha
  refine ⟨p, hp, hlt, hpredicted, ?_⟩
  rw [Item.advanced, List.take_add_one, Array.getElem?_toList, ha]
  exact hread.append hreads

theorem Item.Holds.predicted (h : i.Holds f input root position) {sender recipient : Option String}
    (ha : f.atomAt? i.production i.dot = some (.goal goal sender recipient)) :
    f.Predicted input root goal position := by
  obtain ⟨p, hp, -, hpredicted, hread⟩ := h
  obtain ⟨p', hp', ha⟩ := FlatGrammar.atomAt?_eq_some.mp ha
  obtain rfl := Option.some.inj (hp.symm.trans hp')
  exact .step hp hpredicted hread ha

/-- An item with nothing after its dot has read an alternative. -/
theorem Item.Holds.spans (h : i.Holds f input root position)
    (ha : f.atomAt? i.production i.dot = none) (hgoal : f.goalOf? i.production = some goal) :
    f.Predicted input root goal i.origin ∧ f.Spans input goal i.origin position := by
  obtain ⟨p, hp, hdot, hpredicted, hread⟩ := h
  rw [FlatGrammar.goalOf?, hp] at hgoal
  obtain rfl := Option.some.inj hgoal
  have hall : p.atoms.toList.take i.dot = p.atoms.toList := by
    rw [FlatGrammar.atomAt?, hp] at ha
    exact List.take_of_length_le (by simpa using ha)
  rw [hall] at hread
  exact ⟨hpredicted, _, ⟨_, _, hp, rfl, rfl⟩, hread⟩

end Holds

/-! ### Growing charts -/

namespace Chart

variable {f : FlatGrammar} {input : Array UInt8} {root : Goal}

/-- One chart comes out of another by additions at a position and after it. -/
structure Grows (position : Nat) (c d : Chart) : Prop where
  size : d.sets.size = c.sets.size
  items : ∀ {q k : Nat} {i : Item}, (c.itemsAt q)[k]? = some i → (d.itemsAt q)[k]? = some i
  earlier : ∀ {q : Nat}, q < position → d.itemsAt q = c.itemsAt q
  spans : ∀ {goal : Goal} {i j : Nat}, c.spans goal i j = true → d.spans goal i j = true

theorem Grows.refl (position : Nat) (c : Chart) : Grows position c c :=
  ⟨rfl, id, fun _ => rfl, id⟩

theorem Grows.trans {position : Nat} {c d e : Chart} (h₁ : Grows position c d)
    (h₂ : Grows position d e) : Grows position c e :=
  ⟨h₂.size.trans h₁.size, fun h => h₂.items (h₁.items h),
    fun h => (h₂.earlier h).trans (h₁.earlier h), fun h => h₂.spans (h₁.spans h)⟩

theorem Grows.mem {position q : Nat} {c d : Chart} (h : Grows position c d) {i : Item}
    (hi : i ∈ c.itemsAt q) : i ∈ d.itemsAt q := by
  obtain ⟨k, hk⟩ := Array.mem_iff_getElem?.mp hi
  exact Array.mem_of_getElem? (h.items hk)

/-- **A chart that holds nothing wrong**, all ends found so far being at most the position. -/
structure Sound (f : FlatGrammar) (input : Array UInt8) (root : Goal) (position : Nat) (c : Chart) :
    Prop where
  size : c.sets.size = input.size + 1
  coherent : ∀ q, (c.sets.getD q .empty).Coherent
  holds : ∀ {q : Nat} {i : Item}, i ∈ c.itemsAt q → i.Holds f input root q
  spans : ∀ {goal : Goal} {i j : Nat}, c.spans goal i j = true →
    f.Predicted input root goal i ∧ f.Spans input goal i j
  decreasing : ∀ goal i, (c.completed.getD (goal, i) []).Pairwise (· > ·)
  ends_le : ∀ {goal : Goal} {i j : Nat}, c.spans goal i j = true → j ≤ position

section Add

variable {c : Chart} {position q : Nat} {i : Item}

theorem getD_sets_add (hq : q < c.sets.size) (q' : Nat) :
    (c.add q i).sets.getD q' .empty =
      if q = q' then (c.sets.getD q' .empty).insert i else c.sets.getD q' .empty := by
  rw [add, Array.getD_eq_getD_getElem?, Array.getElem?_modify, Array.getD_eq_getD_getElem?]
  split
  · rename_i hqq
    subst hqq
    rw [Array.getElem?_eq_getElem hq]
    rfl
  · rfl

theorem grows_add (hq : q < c.sets.size) (hpos : position ≤ q) :
    Grows position c (c.add q i) := by
  refine ⟨by simp [add], fun h => ?_, fun h => ?_, fun h => h⟩
  · rw [itemsAt, getD_sets_add hq]
    split
    · exact ItemSet.getElem?_insert h
    · exact h
  · rw [itemsAt, getD_sets_add hq, if_neg (by omega), itemsAt]

/-- **One more item that holds.** -/
theorem Sound.add (hc : c.Sound f input root position) (hi : i.Holds f input root q)
    (hpos : position ≤ q) :
    (c.add q i).Sound f input root position ∧ Grows position c (c.add q i) ∧
      i ∈ (c.add q i).itemsAt q := by
  have hq : q < c.sets.size := by
    have := hi.le_size
    rw [hc.size]
    omega
  have hgrows := grows_add (i := i) hq hpos
  -- Only the set at `q` is another one.
  refine ⟨⟨hgrows.size.trans hc.size, fun q' => ?_, fun {q' j} hj => ?_, hc.spans, hc.decreasing,
    hc.ends_le⟩, hgrows, ?_⟩
  · rw [getD_sets_add hq]
    split
    · exact (hc.coherent q').insert i
    · exact hc.coherent q'
  · rw [itemsAt, getD_sets_add hq] at hj
    split at hj
    · rename_i hqq
      subst hqq
      rcases (hc.coherent q).mem_insert.mp hj with hj | rfl
      · exact hc.holds hj
      · exact hi
    · exact hc.holds hj
  · rw [itemsAt, getD_sets_add hq, if_pos rfl]
    exact (hc.coherent q).mem_insert.mpr (Or.inr rfl)

theorem Sound.addAll (hc : c.Sound f input root position) {is : List Item}
    (his : ∀ i ∈ is, i.Holds f input root q) (hpos : position ≤ q) :
    (c.addAll q is).Sound f input root position ∧ Grows position c (c.addAll q is) ∧
      ∀ i ∈ is, i ∈ (c.addAll q is).itemsAt q := by
  induction is generalizing c with
  | nil => exact ⟨hc, .refl _ _, by simp⟩
  | cons i is ih =>
    obtain ⟨hsound, hgrows, hmem⟩ := hc.add (his i List.mem_cons_self) hpos
    obtain ⟨hsound', hgrows', hmem'⟩ := ih hsound fun j hj => his j (List.mem_cons_of_mem _ hj)
    refine ⟨hsound', hgrows.trans hgrows', fun j hj => ?_⟩
    rcases List.mem_cons.mp hj with rfl | hj
    · exact hgrows'.mem hmem
    · exact hmem' j hj

end Add

/-! ### Complete derivations -/

section Complete

variable {c : Chart} {goal : Goal} {origin position : Nat}

theorem spans_iff_mem {i j : Nat} :
    c.spans goal i j = true ↔ j ∈ c.completed.getD (goal, i) [] :=
  List.contains_iff_mem

theorem getD_complete (key : Goal × Nat) :
    (c.complete goal origin position).completed.getD key [] =
      if (goal, origin) = key then
        (if (c.completed.getD key []).head? = some position then c.completed.getD key []
          else position :: c.completed.getD key [])
      else c.completed.getD key [] := by
  rw [complete, Std.HashMap.getD_alter]
  by_cases hkey : (goal, origin) = key
  · subst hkey
    rw [if_pos (beq_self_eq_true _), if_pos rfl, Std.HashMap.getD_eq_getD_getElem?]
    cases c.completed[(goal, origin)]? with
    | none => simp
    | some ends =>
      simp only [Option.getD_some]
      split <;> rfl
  · rw [if_neg (by simpa using hkey), if_neg hkey]

/-- A list that decreases, with a number on top that is not below any of its own. -/
theorem decreasing_cons {ends : List Nat} {stop : Nat} (h : ends.Pairwise (· > ·))
    (hle : ∀ j ∈ ends, j ≤ stop) (hhead : ends.head? ≠ some stop) :
    (stop :: ends).Pairwise (· > ·) := by
  refine List.pairwise_cons.mpr ⟨fun j hj => ?_, h⟩
  cases ends with
  | nil => exact absurd hj List.not_mem_nil
  | cons k ends =>
    have hk := hle k List.mem_cons_self
    have hne : k ≠ stop := fun hks => hhead (by rw [List.head?_cons, hks])
    rcases List.mem_cons.mp hj with rfl | hj
    · omega
    · have := (List.pairwise_cons.mp h).1 j hj
      omega

/-- **One more complete derivation.** -/
theorem Sound.complete (hc : c.Sound f input root position)
    (hpredicted : f.Predicted input root goal origin)
    (hspans : f.Spans input goal origin position) :
    (c.complete goal origin position).Sound f input root position ∧
      Grows position c (c.complete goal origin position) ∧
      (c.complete goal origin position).spans goal origin position = true := by
  -- If the end is found again it is on top already, since no end is greater than the position.
  have hmem : ∀ {goal' i j}, (c.complete goal origin position).spans goal' i j = true ↔
      c.spans goal' i j = true ∨ goal' = goal ∧ i = origin ∧ j = position := by
    intro goal' i j
    rw [spans_iff_mem, spans_iff_mem, getD_complete]
    by_cases hkey : (goal, origin) = (goal', i)
    · obtain ⟨rfl, rfl⟩ := Prod.mk.inj hkey
      rw [if_pos rfl]
      split
      · rename_i hhead
        refine ⟨Or.inl, fun h => h.elim id ?_⟩
        rintro ⟨-, -, rfl⟩
        exact List.mem_of_mem_head? hhead
      · simp [or_comm]
    · rw [if_neg hkey]
      refine ⟨Or.inl, fun h => h.elim id ?_⟩
      rintro ⟨rfl, rfl, -⟩
      exact absurd rfl hkey
  refine ⟨⟨hc.size, hc.coherent, hc.holds, fun h => ?_, fun goal' i => ?_, fun h => ?_⟩,
    ⟨rfl, id, fun _ => rfl, fun h => hmem.mpr (Or.inl h)⟩, hmem.mpr (Or.inr ⟨rfl, rfl, rfl⟩)⟩
  · rcases hmem.mp h with h | ⟨rfl, rfl, rfl⟩
    · exact hc.spans h
    · exact ⟨hpredicted, hspans⟩
  · rw [getD_complete]
    split
    · split
      · exact hc.decreasing goal' i
      · rename_i hhead
        exact decreasing_cons (hc.decreasing goal' i)
          (fun j hj => hc.ends_le (spans_iff_mem.mpr hj)) hhead
    · exact hc.decreasing goal' i
  · rcases hmem.mp h with h | ⟨-, -, rfl⟩
    · exact hc.ends_le h
    · exact Nat.le_refl _

end Complete

/-! ### Processed items -/

theorem mem_waiting {c : Chart} {position : Nat} {goal : Goal} {i : Item} :
    i ∈ c.waiting f position goal ↔ i ∈ c.itemsAt position ∧
      ∃ sender recipient, f.atomAt? i.production i.dot = some (.goal goal sender recipient) := by
  rw [waiting, List.mem_filter, Array.mem_toList_iff]
  refine and_congr_right fun _ => ?_
  cases f.atomAt? i.production i.dot with
  | none => simp
  | some a =>
    cases a with
    | literal value => simp
    | goal h sender recipient => simp

/-- **An item at a position has led on to whatever it leads to.** A goal that is complete looks back
at its origin only if it lies before the position. -/
structure Handled (f : FlatGrammar) (input : Array UInt8) (c : Chart) (position : Nat) (i : Item) :
    Prop where
  scanned : ∀ value, f.atomAt? i.production i.dot = some (.literal value) →
    bytesAt input position value.toBytes = true →
      i.advanced ∈ c.itemsAt (position + value.toBytes.length)
  predicted : ∀ goal sender recipient,
    f.atomAt? i.production i.dot = some (.goal goal sender recipient) →
      ∀ k ∈ f.productionsOf goal, Item.mk k 0 position ∈ c.itemsAt position
  skipped : ∀ goal sender recipient,
    f.atomAt? i.production i.dot = some (.goal goal sender recipient) →
      f.nullable.contains goal = true → i.advanced ∈ c.itemsAt position
  completed : ∀ goal, f.atomAt? i.production i.dot = none → f.goalOf? i.production = some goal →
    c.spans goal i.origin position = true
  returned : ∀ goal, f.atomAt? i.production i.dot = none → f.goalOf? i.production = some goal →
    i.origin < position → ∀ j ∈ c.waiting f i.origin goal, j.advanced ∈ c.itemsAt position

theorem Handled.mono {c d : Chart} {position q : Nat} {i : Item} (h : Handled f input c q i)
    (hgrows : Grows position c d) (hq : q ≤ position) : Handled f input d q i := by
  refine ⟨fun value ha hbytes => hgrows.mem (h.scanned value ha hbytes),
    fun goal sender recipient ha k hk => hgrows.mem (h.predicted goal sender recipient ha k hk),
    fun goal sender recipient ha hnull => hgrows.mem (h.skipped goal sender recipient ha hnull),
    fun goal ha hgoal => hgrows.spans (h.completed goal ha hgoal), ?_⟩
  intro goal ha hgoal hlt j hj
  have hsame : d.itemsAt i.origin = c.itemsAt i.origin := hgrows.earlier (by omega)
  rw [mem_waiting, hsame, ← mem_waiting] at hj
  exact hgrows.mem (h.returned goal ha hgoal hlt j hj)

section Process

variable {c : Chart} {position : Nat} {i : Item}

theorem Handled.of_literal {value : Literal}
    (ha : f.atomAt? i.production i.dot = some (.literal value))
    (h : bytesAt input position value.toBytes = true →
      i.advanced ∈ c.itemsAt (position + value.toBytes.length)) :
    Handled f input c position i := by
  refine ⟨fun value' ha' hbytes => ?_, ?_, ?_, ?_, ?_⟩
  · obtain rfl := Atom.literal.inj (Option.some.inj (ha.symm.trans ha'))
    exact h hbytes
  · simp [ha]
  · simp [ha]
  · simp [ha]
  · simp [ha]

theorem Handled.of_goal {goal : Goal} {sender recipient : Option String}
    (ha : f.atomAt? i.production i.dot = some (.goal goal sender recipient))
    (hstart : ∀ k ∈ f.productionsOf goal, Item.mk k 0 position ∈ c.itemsAt position)
    (hskip : f.nullable.contains goal = true → i.advanced ∈ c.itemsAt position) :
    Handled f input c position i := by
  refine ⟨?_, fun goal' _ _ ha' => ?_, fun goal' _ _ ha' => ?_, ?_, ?_⟩
  · simp [ha]
  · obtain ⟨rfl, -, -⟩ := Atom.goal.inj (Option.some.inj (ha.symm.trans ha'))
    exact hstart
  · obtain ⟨rfl, -, -⟩ := Atom.goal.inj (Option.some.inj (ha.symm.trans ha'))
    exact hskip
  · simp [ha]
  · simp [ha]

theorem Handled.of_end (ha : f.atomAt? i.production i.dot = none)
    (h : ∀ goal, f.goalOf? i.production = some goal → c.spans goal i.origin position = true ∧
      (i.origin < position → ∀ j ∈ c.waiting f i.origin goal, j.advanced ∈ c.itemsAt position)) :
    Handled f input c position i := by
  refine ⟨?_, ?_, ?_, fun goal _ hgoal => (h goal hgoal).1, fun goal _ hgoal => (h goal hgoal).2⟩
  · simp [ha]
  · simp [ha]
  · simp [ha]

/-- **An item at its end** records its goal, and moves on what waits for it. -/
theorem Sound.process_end (hc : c.Sound f input root position)
    (hholds : i.Holds f input root position) (ha : f.atomAt? i.production i.dot = none)
    {goal : Goal} (hgoal : f.goalOf? i.production = some goal) :
    let d := (c.complete goal i.origin position).addAll position
      ((c.waiting f i.origin goal).map Item.advanced)
    d.Sound f input root position ∧ Grows position c d ∧ Handled f input d position i := by
  obtain ⟨hpredicted, hspans⟩ := hholds.spans ha hgoal
  obtain ⟨hsound, hgrows, hcompleted⟩ := hc.complete hpredicted hspans
  have hwaiting : ∀ j ∈ (c.waiting f i.origin goal).map Item.advanced,
      j.Holds f input root position := by
    intro j' hj'
    obtain ⟨j, hj, rfl⟩ := List.mem_map.mp hj'
    obtain ⟨hj, sender, recipient, haj⟩ := mem_waiting.mp hj
    exact (hc.holds hj).advanced haj (FlatGrammar.reads_cons_goal.mpr ⟨position, hspans, .nil⟩)
  obtain ⟨hsound', hgrows', hmem⟩ := hsound.addAll hwaiting (Nat.le_refl _)
  refine ⟨hsound', hgrows.trans hgrows', .of_end ha fun goal' hgoal' => ?_⟩
  obtain rfl := Option.some.inj (hgoal.symm.trans hgoal')
  refine ⟨hgrows'.spans hcompleted, fun hlt j hj => ?_⟩
  -- What waited before the item was processed is all that ever will.
  rw [mem_waiting, (hgrows.trans hgrows').earlier hlt, ← mem_waiting] at hj
  exact hmem _ (List.mem_map_of_mem hj)

/-- **An item before a goal** starts the productions of the goal, and skips it if it is nullable. -/
theorem Sound.process_goal (hf : f.Lawful) (hc : c.Sound f input root position)
    (hholds : i.Holds f input root position) {goal : Goal} {sender recipient : Option String}
    (ha : f.atomAt? i.production i.dot = some (.goal goal sender recipient)) :
    let d := c.addAll position ((f.productionsOf goal).map fun k => ⟨k, 0, position⟩)
    let e := if f.nullable.contains goal then d.add position i.advanced else d
    e.Sound f input root position ∧ Grows position c e ∧ Handled f input e position i := by
  have hstart : ∀ j ∈ (f.productionsOf goal).map (fun k => Item.mk k 0 position),
      j.Holds f input root position := by
    intro j hj
    obtain ⟨k, hk, rfl⟩ := List.mem_map.mp hj
    obtain ⟨p, hp, rfl⟩ := (hf.listed k goal).mp hk
    exact Item.holds_start hp (hholds.predicted ha)
  obtain ⟨hsound, hgrows, hmem⟩ := hc.addAll hstart (Nat.le_refl _)
  dsimp only
  split
  · rename_i hnull
    have hskip : f.Reads input [.goal goal sender recipient] position position :=
      FlatGrammar.reads_cons_goal.mpr
        ⟨position, FlatGrammar.spans_self.mpr ((hf.nullable goal).mp hnull), .nil⟩
    obtain ⟨hsound', hgrows', hmem'⟩ := hsound.add (hholds.advanced ha hskip) (Nat.le_refl _)
    refine ⟨hsound', hgrows.trans hgrows', .of_goal ha (fun k hk => ?_) fun _ => hmem'⟩
    exact hgrows'.mem (hmem _ (List.mem_map_of_mem hk))
  · rename_i hnull
    exact ⟨hsound, hgrows, .of_goal ha (fun k hk => hmem _ (List.mem_map_of_mem hk))
      fun h => absurd h hnull⟩

/-- **Processing an item** adds nothing wrong, and the item is handled then. -/
theorem Sound.process (hf : f.Lawful) (hc : c.Sound f input root position)
    (hi : i ∈ c.itemsAt position) :
    (c.process f input position i).Sound f input root position ∧
      Grows position c (c.process f input position i) ∧
      Handled f input (c.process f input position i) position i := by
  have hholds := hc.holds hi
  rw [Chart.process]
  cases ha : f.atomAt? i.production i.dot with
  | none =>
    cases hgoal : f.goalOf? i.production with
    | none => exact ⟨hc, .refl _ _, .of_end ha fun goal hno => absurd hno (by simp [hgoal])⟩
    | some goal => exact hc.process_end hholds ha hgoal
  | some a =>
    cases a with
    | literal value =>
      simp only
      split
      · rename_i hbytes
        obtain ⟨hsound, hgrows, hmem⟩ := hc.add (hholds.advanced ha (.literal hbytes .nil))
          (Nat.le_add_right _ _)
        exact ⟨hsound, hgrows, .of_literal ha fun _ => hmem⟩
      · rename_i hbytes
        exact ⟨hc, .refl _ _, .of_literal ha fun h => absurd h hbytes⟩
    | goal goal sender recipient => exact hc.process_goal hf hholds ha

end Process

/-! ### Closing a set -/

/-- The places for a dot in productions that are numbered from `k` on. -/
def places : Nat → List Production → List (Nat × Nat)
  | _, [] => []
  | k, p :: ps => (List.range (p.atoms.size + 1)).map (k, ·) ++ places (k + 1) ps

theorem length_places (f : FlatGrammar) :
    (places 0 f.productions.toList).length = dottedCount f := by
  have h : ∀ (ps : List Production) (k n : Nat),
      n + (places k ps).length = ps.foldl (fun n p => n + p.atoms.size + 1) n := by
    intro ps
    induction ps with
    | nil => exact fun _ _ => rfl
    | cons p ps ih =>
      intro k n
      rw [places, List.foldl_cons, ← ih (k + 1)]
      simp only [List.length_append, List.length_map, List.length_range]
      omega
  rw [dottedCount, ← Array.foldl_toList, ← h f.productions.toList 0 0, Nat.zero_add]

theorem mem_places {ps : List Production} {k j d : Nat} {p : Production} (hp : ps[j]? = some p)
    (hd : d ≤ p.atoms.size) : (k + j, d) ∈ places k ps := by
  induction ps generalizing k j with
  | nil => simp at hp
  | cons q ps ih =>
    rw [places, List.mem_append]
    cases j with
    | zero =>
      obtain rfl : q = p := by simpa using hp
      exact Or.inl (List.mem_map.mpr ⟨d, List.mem_range.mpr (by omega), rfl⟩)
    | succ j =>
      have h := ih (k := k + 1) (by simpa using hp)
      rw [Nat.add_assoc, Nat.add_comm 1 j] at h
      exact Or.inr h

/-- **No set holds more items than there are places for a dot times origins.** -/
theorem Sound.size_itemsAt_le {c : Chart} {position q : Nat} (hc : c.Sound f input root position) :
    (c.itemsAt q).size ≤ dottedCount f * (q + 1) := by
  have hsub : (c.itemsAt q).toList ⊆ (places 0 f.productions.toList ×ˢ List.range (q + 1)).map
      fun x => ⟨x.1.1, x.1.2, x.2⟩ := by
    intro i hi
    have hholds := hc.holds (Array.mem_toList_iff.mp hi)
    have horigin := hholds.origin_le
    obtain ⟨p, hp, hdot, -⟩ := hholds
    have hplace := mem_places (k := 0) (by rwa [Array.getElem?_toList]) hdot
    rw [Nat.zero_add] at hplace
    refine List.mem_map.mpr ⟨((i.production, i.dot), i.origin), ?_, rfl⟩
    exact List.mem_product.mpr ⟨hplace, List.mem_range.mpr (Nat.lt_succ_of_le horigin)⟩
  have hle := (List.subperm_of_subset (hc.coherent q).nodup hsub).length_le
  rwa [List.length_map, List.length_product, length_places, List.length_range,
    Array.length_toList] at hle

/-- **Closing a set handles all its items.** -/
theorem Sound.close (hf : f.Lawful) {position : Nat} :
    ∀ (fuel k : Nat) {c : Chart}, c.Sound f input root position →
      (∀ j < k, ∀ i, (c.itemsAt position)[j]? = some i → Handled f input c position i) →
      dottedCount f * (position + 1) < fuel + k →
        (close f input position fuel k c).Sound f input root position ∧
          Grows position c (close f input position fuel k c) ∧
          ∀ i ∈ (close f input position fuel k c).itemsAt position,
            Handled f input (close f input position fuel k c) position i
  | 0, k, c, hc, hdone, hfuel => by
    rw [Chart.close]
    refine ⟨hc, .refl _ _, fun i hi => ?_⟩
    -- The set cannot hold more items than have been processed.
    obtain ⟨j, hj⟩ := Array.mem_iff_getElem?.mp hi
    have hlt := (Array.getElem?_eq_some_iff.mp hj).1
    have hsize := hc.size_itemsAt_le (q := position)
    exact hdone j (by omega) i hj
  | fuel + 1, k, c, hc, hdone, hfuel => by
    rw [Chart.close]
    split
    · rename_i hnone
      refine ⟨hc, .refl _ _, fun i hi => ?_⟩
      obtain ⟨j, hj⟩ := Array.mem_iff_getElem?.mp hi
      have hlt := (Array.getElem?_eq_some_iff.mp hj).1
      have hsize := Array.getElem?_eq_none_iff.mp hnone
      exact hdone j (by omega) i hj
    · rename_i i hi
      obtain ⟨hsound, hgrows, hhandled⟩ := hc.process hf (Array.mem_of_getElem? hi)
      have hdone' : ∀ j < k + 1, ∀ i',
          ((c.process f input position i).itemsAt position)[j]? = some i' →
            Handled f input (c.process f input position i) position i' := by
        intro j hj i' hi'
        rcases Nat.lt_or_eq_of_le (Nat.lt_succ_iff.mp hj) with hj | rfl
        · -- The items before are still the same ones.
          have hlt : j < (c.itemsAt position).size := by
            have := (Array.getElem?_eq_some_iff.mp hi).1
            omega
          have hold := Array.getElem?_eq_getElem hlt
          obtain rfl := Option.some.inj ((hgrows.items hold).symm.trans hi')
          exact (hdone j hj _ hold).mono hgrows (Nat.le_refl _)
        · obtain rfl := Option.some.inj ((hgrows.items hi).symm.trans hi')
          exact hhandled
      obtain ⟨hsound', hgrows', hall⟩ :=
        Sound.close hf fuel (k + 1) hsound hdone' (by omega)
      exact ⟨hsound', hgrows.trans hgrows', hall⟩

/-! ### The whole chart -/

/-- The chart before the first set is closed. -/
def start (f : FlatGrammar) (input : Array UInt8) (root : Goal) : Chart :=
  addAll ⟨Array.replicate (input.size + 1) .empty, {}⟩ 0
    ((f.productionsOf root).map fun k => ⟨k, 0, 0⟩)

theorem sound_start (hf : f.Lawful) :
    (start f input root).Sound f input root 0 ∧
      ∀ k ∈ f.productionsOf root, Item.mk k 0 0 ∈ (start f input root).itemsAt 0 := by
  have hset : ∀ q, (Array.replicate (input.size + 1) ItemSet.empty).getD q .empty = .empty := by
    intro q
    rw [Array.getD_eq_getD_getElem?, Array.getElem?_replicate]
    split <;> rfl
  have hempty : (Chart.mk (Array.replicate (input.size + 1) .empty) {}).Sound f input root 0 := by
    refine ⟨by simp, fun q => ?_, fun {q i} hi => ?_, fun h => ?_, fun goal i => ?_, fun h => ?_⟩
    · rw [hset]
      exact ItemSet.coherent_empty
    · rw [itemsAt, hset] at hi
      exact absurd hi (by simp [ItemSet.empty])
    · exact absurd h (by simp [spans])
    · simp
    · exact absurd h (by simp [spans])
  have hholds : ∀ i ∈ (f.productionsOf root).map (fun k => Item.mk k 0 0),
      i.Holds f input root 0 := by
    intro i hi
    obtain ⟨k, hk, rfl⟩ := List.mem_map.mp hi
    obtain ⟨p, hp, rfl⟩ := (hf.listed k root).mp hk
    exact Item.holds_start hp .root
  -- The starts of the root are the only items there are so far.
  obtain ⟨hsound, -, hmem⟩ := hempty.addAll hholds (Nat.le_refl _)
  exact ⟨hsound, fun k hk => hmem _ (List.mem_map_of_mem hk)⟩

/-- The sets are closed from left to right, and each stays as it is then. -/
theorem sound_foldl (hf : f.Lawful) (m : Nat) :
    let c := (List.range m).foldl (fun c position =>
      close f input position (dottedCount f * (position + 1) + 1) 0 c) (start f input root)
    c.Sound f input root m ∧ Grows 0 (start f input root) c ∧
      ∀ q < m, ∀ i ∈ c.itemsAt q, Handled f input c q i := by
  induction m with
  | zero => exact ⟨(sound_start hf).1, .refl _ _, by simp⟩
  | succ m ih =>
    obtain ⟨hsound, hgrows, hhandled⟩ := ih
    simp only [List.range_succ, List.foldl_append, List.foldl_cons, List.foldl_nil]
    obtain ⟨hsound', hgrows', hall⟩ := Sound.close hf (dottedCount f * (m + 1) + 1) 0 hsound
      (by simp) (by omega)
    refine ⟨⟨hsound'.size, hsound'.coherent, hsound'.holds, hsound'.spans, hsound'.decreasing,
      fun h => Nat.le_succ_of_le (hsound'.ends_le h)⟩, ?_, fun q hq i hi => ?_⟩
    · exact hgrows.trans ⟨hgrows'.size, hgrows'.items, fun h => absurd h (Nat.not_lt_zero _),
        hgrows'.spans⟩
    · rcases Nat.lt_or_eq_of_le (Nat.lt_succ_iff.mp hq) with hq | rfl
      · rw [hgrows'.earlier hq] at hi
        exact (hhandled q hq i hi).mono hgrows' (Nat.le_of_lt hq)
      · exact hall i hi

section Of

variable (hf : f.Lawful)

include hf

theorem sound_of : (of f input root).Sound f input root (input.size + 1) :=
  (sound_foldl hf (input.size + 1)).1

theorem handled_of {q : Nat} {i : Item} (hi : i ∈ (of f input root).itemsAt q) :
    Handled f input (of f input root) q i :=
  (sound_foldl hf (input.size + 1)).2.2 q
    (Nat.lt_succ_of_le ((sound_of hf).holds hi).le_size) i hi

/-- **An item moves over whatever reads the input.** -/
theorem mem_itemsAt_of_reads {as : List Atom} {j k : Nat} (h : f.Reads input as j k) :
    ∀ {n d origin : Nat} {p : Production} {bs : List Atom}, f.productions[n]? = some p →
      p.atoms.toList.drop d = as ++ bs → Item.mk n d origin ∈ (of f input root).itemsAt j →
        Item.mk n (d + as.length) origin ∈ (of f input root).itemsAt k := by
  -- The item moves on atom by atom. Over a goal it does so when the alternative that reads there,
  -- which is started beside it, has moved to its end: that is the other induction hypothesis.
  induction h with
  | nil => exact fun _ _ hmem => hmem
  | @literal value rest i j hbytes _ ih =>
    intro n d origin p bs hp hdrop hmem
    obtain ⟨hget, hrest⟩ := FlatGrammar.atom_of_drop hdrop
    have ha := FlatGrammar.atomAt?_eq_some.mpr ⟨p, hp, hget⟩
    have hscanned := (handled_of hf hmem).scanned value ha hbytes
    have hmem' := ih hp hrest hscanned
    rwa [Nat.add_assoc, Nat.add_comm 1] at hmem'
  | @goal goal sender recipient atoms rest i m j halt hatoms _ ihatoms ihrest =>
    intro n d origin p bs hp hdrop hmem
    obtain ⟨hget, hrest⟩ := FlatGrammar.atom_of_drop hdrop
    have ha := FlatGrammar.atomAt?_eq_some.mpr ⟨p, hp, hget⟩
    have hhandled := handled_of hf hmem
    have hadvanced : Item.mk n (d + 1) origin ∈ (of f input root).itemsAt m := by
      rcases Nat.lt_or_eq_of_le hatoms.le with hlt | rfl
      · -- The goal was predicted here and is complete there, where it looks back.
        obtain ⟨n', p', hp', rfl, rfl⟩ := halt
        have hstart := hhandled.predicted _ sender recipient ha n'
          ((hf.listed n' p'.goal).mpr ⟨p', hp', rfl⟩)
        have hwhole : p'.atoms.toList.drop 0 = p'.atoms.toList ++ [] := by
          rw [List.drop_zero, List.append_nil]
        have hend := ihatoms hp' hwhole hstart
        have hnone : f.atomAt? n' (0 + p'.atoms.toList.length) = none := by
          rw [FlatGrammar.atomAt?, hp']
          simp
        have hgoal : f.goalOf? n' = some p'.goal := by rw [FlatGrammar.goalOf?, hp']; rfl
        exact (handled_of hf hend).returned p'.goal hnone hgoal hlt _
          (mem_waiting.mpr ⟨hmem, sender, recipient, ha⟩)
      · -- The goal ends where it starts, so it is nullable and was skipped.
        have hnull := (hf.nullable goal).mpr (FlatGrammar.spans_self.mp ⟨atoms, halt, hatoms⟩)
        exact hhandled.skipped goal sender recipient ha hnull
    have hmem' := ihrest hp hrest hadvanced
    rwa [Nat.add_assoc, Nat.add_comm 1] at hmem'

/-- The productions of a predicted goal are started where it is predicted. -/
theorem mem_itemsAt_of_predicted {goal : Goal} {position : Nat}
    (h : f.Predicted input root goal position) :
    ∀ k ∈ f.productionsOf goal, Item.mk k 0 position ∈ (of f input root).itemsAt position := by
  induction h with
  | root =>
    exact fun k hk => (sound_foldl hf (input.size + 1)).2.1.mem ((sound_start hf).2 k hk)
  | @step p k d origin position goal sender recipient hp hpredicted hreads ha ih =>
    intro k' hk'
    have hd : d < p.atoms.toList.length := by
      rw [Array.length_toList]
      exact (Array.getElem?_eq_some_iff.mp ha).1
    have hstart := ih k ((hf.listed k p.goal).mpr ⟨p, hp, rfl⟩)
    have hmem := mem_itemsAt_of_reads hf hreads hp
      (by rw [List.drop_zero, List.take_append_drop]) hstart
    rw [Nat.zero_add, List.length_take_of_le (Nat.le_of_lt hd)] at hmem
    exact (handled_of hf hmem).predicted goal sender recipient
      (FlatGrammar.atomAt?_eq_some.mpr ⟨p, hp, ha⟩) k' hk'

/-- **The items of a chart are those that hold.** -/
theorem mem_itemsAt {q : Nat} {i : Item} :
    i ∈ (of f input root).itemsAt q ↔ i.Holds f input root q := by
  refine ⟨(sound_of hf).holds, ?_⟩
  obtain ⟨k, d, origin⟩ := i
  rintro ⟨p, hp, hdot, hpredicted, hreads⟩
  have hstart := mem_itemsAt_of_predicted hf hpredicted k ((hf.listed k p.goal).mpr ⟨p, hp, rfl⟩)
  have hmem := mem_itemsAt_of_reads hf hreads hp
    (by rw [List.drop_zero, List.take_append_drop]) hstart
  rwa [Nat.zero_add, List.length_take_of_le (by simpa using hdot)] at hmem

/-- **The stretches that a chart records** are those that a predicted goal spans. -/
theorem spans_of_iff {goal : Goal} {i j : Nat} :
    (of f input root).spans goal i j = true ↔
      f.Predicted input root goal i ∧ f.Spans input goal i j := by
  refine ⟨(sound_of hf).spans, ?_⟩
  rintro ⟨hpredicted, atoms, ⟨k, p, hp, rfl, rfl⟩, hreads⟩
  -- The item at the end of the alternative is in the chart, and its goal was recorded.
  have hmem : Item.mk k p.atoms.size i ∈ (of f input root).itemsAt j :=
    (mem_itemsAt hf).mpr ⟨p, hp, Nat.le_refl _, hpredicted, by
      rwa [List.take_of_length_le (by simp)]⟩
  have hnone : f.atomAt? k p.atoms.size = none := by
    rw [FlatGrammar.atomAt?, hp]
    simp
  exact (handled_of hf hmem).completed p.goal hnone (by rw [FlatGrammar.goalOf?, hp]; rfl)

/-- The ends of a goal, in increasing order. -/
theorem mem_ends_of {goal : Goal} {i j : Nat} :
    j ∈ (of f input root).ends goal i ↔
      f.Predicted input root goal i ∧ f.Spans input goal i j := by
  rw [ends, List.mem_reverse, ← spans_iff_mem, spans_of_iff hf]

theorem ends_of_increasing (goal : Goal) (i : Nat) :
    ((of f input root).ends goal i).Pairwise (· < ·) := by
  rw [ends, List.pairwise_reverse]
  exact (sound_of hf).decreasing goal i

end Of

end Chart

end GrammarFuzzing
