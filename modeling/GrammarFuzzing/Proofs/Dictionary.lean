import GrammarFuzzing.Dictionary
import Mathlib.Data.List.Basic
import Mathlib.Data.List.Dedup

/-!
# What dictionaries and sets hold

Dictionaries and sets are lists in increasing order, but hardly any fact about them needs the order:
a lookup finds the first pair of its key, and an insertion adds what it is given and keeps the rest.
This file states that as membership, `GrammarFuzzing.Dictionary.mem_of_find?` for a lookup,
`GrammarFuzzing.Dictionary.mem_put` and `GrammarFuzzing.Dictionary.mem_keys_put` for a dictionary
that grew, and `GrammarFuzzing.SortedSet.mem_ofList` and `GrammarFuzzing.SortedSet.mem_union` for
sets.

What needs the order is that nothing else can be seen of a dictionary or a set: sets with the same
elements are equal (`GrammarFuzzing.SortedSet.eq_of_sorted`), and so are dictionaries with the same
lookups (`GrammarFuzzing.Dictionary.eq_of_find?`).
-/

namespace GrammarFuzzing

namespace Dictionary

variable {κ β : Type} [Ord κ] [Std.LawfulEqOrd κ]

omit [Std.LawfulEqOrd κ] in
@[simp] theorem find?_nil (key : κ) : find? ([] : Dictionary κ β) key = none := rfl

theorem find?_cons_self (key : κ) (v : β) (d : Dictionary κ β) :
    find? ((key, v) :: d) key = some v := by
  simp [find?]

theorem find?_cons_of_ne {k key : κ} (h : k ≠ key) (v : β) (d : Dictionary κ β) :
    find? ((k, v) :: d) key = find? d key := by
  rw [find?]
  split
  · exact absurd (Std.LawfulEqOrd.compare_eq_iff_eq.mp ‹_›) h
  · rfl

/-- **The first pair with a key tells its value.** -/
theorem find?_append_cons_self {before : Dictionary κ β} {key : κ} (h : key ∉ before.keys) (v : β)
    (after : Dictionary κ β) : find? (before ++ (key, v) :: after) key = some v := by
  induction before with
  | nil => exact find?_cons_self key v after
  | cons p before ih =>
    obtain ⟨hne, hrest⟩ := not_or.mp (mt List.mem_cons.mpr h)
    rw [List.cons_append, find?_cons_of_ne (Ne.symm hne)]
    exact ih hrest

/-- What a lookup finds is there. -/
theorem mem_of_find? {d : Dictionary κ β} {key : κ} {v : β} (h : d.find? key = some v) :
    (key, v) ∈ d := by
  induction d with
  | nil => simp at h
  | cons p d ih =>
    obtain ⟨k, w⟩ := p
    by_cases hk : k = key
    · subst hk
      rw [find?_cons_self] at h
      rw [Option.some.inj h]
      exact List.mem_cons_self
    · rw [find?_cons_of_ne hk] at h
      exact List.mem_cons_of_mem _ (ih h)

/-- A key has a value exactly when it is one of the keys. -/
theorem has_iff_mem_keys {d : Dictionary κ β} {key : κ} : d.has key = true ↔ key ∈ d.keys := by
  induction d with
  | nil => simp [has, keys]
  | cons p d ih =>
    obtain ⟨k, w⟩ := p
    by_cases hk : k = key
    · subst hk
      simp [has, keys, find?_cons_self]
    · rw [has, find?_cons_of_ne hk, ← has, ih]
      simp [keys, Ne.symm hk]

theorem exists_find?_of_mem_keys {d : Dictionary κ β} {key : κ} (h : key ∈ d.keys) :
    ∃ v, d.find? key = some v :=
  Option.isSome_iff_exists.mp (has_iff_mem_keys.mpr h)

omit [Std.LawfulEqOrd κ] in
/-- Values are looked up by key before or after they are mapped. -/
theorem find?_map {γ : Type} (f : β → γ) (d : Dictionary κ β) (key : κ) :
    find? (d.map fun p => (p.1, f p.2)) key = (d.find? key).map f := by
  induction d with
  | nil => rfl
  | cons p d ih =>
    simp only [List.map_cons, find?]
    cases compare p.1 key with
    | eq => rfl
    | lt | gt => exact ih

/-- So are values that are computed from their keys. -/
theorem find?_map_keys {γ : Type} (f : κ → γ) (d : Dictionary κ β) (key : κ) :
    find? (d.map fun p => (p.1, f p.1)) key = (d.find? key).map fun _ => f key := by
  induction d with
  | nil => rfl
  | cons p d ih =>
    by_cases hkey : p.1 = key
    · subst hkey
      rw [List.map_cons, find?_cons_self, find?_cons_self (v := p.2), Option.map_some]
    · rw [List.map_cons, find?_cons_of_ne hkey, find?_cons_of_ne (v := p.2) hkey, ih]

/-- The other keys keep their values when the pairs of one key are left out. -/
theorem find?_filter_ne [DecidableEq κ] {key other : κ} (h : other ≠ key) (d : Dictionary κ β) :
    find? (List.filter (fun p => p.1 ≠ key) d) other = find? d other := by
  induction d with
  | nil => rfl
  | cons p d ih =>
    by_cases hp : p.1 = key
    · rw [List.filter_cons_of_neg (by simpa using hp), ih,
        find?_cons_of_ne (by rw [hp]; exact h.symm)]
    · rw [List.filter_cons_of_pos (by simpa using hp)]
      by_cases hother : p.1 = other
      · subst hother
        rw [find?_cons_self, find?_cons_self (v := p.2)]
      · rw [find?_cons_of_ne hother, find?_cons_of_ne (v := p.2) hother, ih]

theorem mem_keys_of_find? {d : Dictionary κ β} {key : κ} {v : β} (h : d.find? key = some v) :
    key ∈ d.keys :=
  List.mem_map.mpr ⟨_, mem_of_find? h, rfl⟩

omit [Std.LawfulEqOrd κ] in
/-- What is in a dictionary with a new value is that value or was there before. -/
theorem mem_put {key : κ} {value : β} {d : Dictionary κ β} {p : κ × β}
    (h : p ∈ d.put key value) : p = (key, value) ∨ p ∈ d := by
  induction d with
  | nil => exact Or.inl (by simpa [put] using h)
  | cons q d ih =>
    obtain ⟨k, v⟩ := q
    rw [put] at h
    split at h
    · simpa using h
    · rcases List.mem_cons.mp h with h | h
      · exact Or.inl h
      · exact Or.inr (List.mem_cons_of_mem _ h)
    · rcases List.mem_cons.mp h with h | h
      · exact Or.inr (h ▸ List.mem_cons_self)
      · exact (ih h).imp_right (List.mem_cons_of_mem _)

theorem find?_put_self (key : κ) (value : β) (d : Dictionary κ β) :
    (d.put key value).find? key = some value := by
  induction d with
  | nil => exact find?_cons_self key value _
  | cons p d ih =>
    obtain ⟨k, v⟩ := p
    rw [put]
    split
    · exact find?_cons_self key value _
    · exact find?_cons_self key value _
    · rename_i hgt
      have hne : k ≠ key := fun h => by simp [h] at hgt
      rw [find?_cons_of_ne hne, ih]

theorem find?_put_of_ne {key other : κ} (h : key ≠ other) (value : β) (d : Dictionary κ β) :
    (d.put key value).find? other = d.find? other := by
  induction d with
  | nil => exact find?_cons_of_ne h value _
  | cons p d ih =>
    obtain ⟨k, v⟩ := p
    rw [put]
    split
    · exact find?_cons_of_ne h value _
    · rename_i heq
      obtain rfl : key = k := Std.LawfulEqOrd.compare_eq_iff_eq.mp heq
      rw [find?_cons_of_ne h, find?_cons_of_ne h]
    · by_cases hk : k = other
      · subst hk
        rw [find?_cons_self, find?_cons_self]
      · rw [find?_cons_of_ne hk, find?_cons_of_ne hk, ih]

theorem mem_keys_put {key other : κ} {value : β} {d : Dictionary κ β} :
    other ∈ (d.put key value).keys ↔ other = key ∨ other ∈ d.keys := by
  rw [← has_iff_mem_keys, ← has_iff_mem_keys, has, has]
  by_cases h : other = key
  · subst h
    simp [find?_put_self]
  · simp [find?_put_of_ne (Ne.symm h), h]

theorem mem_keys_ofPairs {pairs : List (κ × β)} {key : κ} :
    key ∈ (ofPairs pairs).keys ↔ key ∈ pairs.map (·.1) := by
  have hfold : ∀ (pairs : List (κ × β)) (d : Dictionary κ β),
      key ∈ (pairs.foldl (fun d p => put p.1 p.2 d) d).keys ↔
        key ∈ pairs.map (·.1) ∨ key ∈ d.keys := by
    intro pairs
    induction pairs with
    | nil => simp
    | cons p pairs ih =>
      intro d
      rw [List.foldl_cons, ih, mem_keys_put, List.map_cons, List.mem_cons, or_left_comm, or_assoc]
  rw [ofPairs, hfold]
  simp [keys]

omit [Std.LawfulEqOrd κ] in
/-- What is in a dictionary of pairs is one of the pairs. -/
theorem mem_of_mem_ofPairs {pairs : List (κ × β)} {p : κ × β} (h : p ∈ ofPairs pairs) :
    p ∈ pairs := by
  have hfold : ∀ (pairs : List (κ × β)) (d : Dictionary κ β),
      p ∈ pairs.foldl (fun d p => put p.1 p.2 d) d → p ∈ pairs ∨ p ∈ d := by
    intro pairs
    induction pairs with
    | nil => exact fun _ h => Or.inr h
    | cons q pairs ih =>
      intro d h
      rcases ih _ h with hmem | hput
      · exact Or.inl (List.mem_cons_of_mem q hmem)
      · rcases mem_put hput with rfl | hmem
        · exact Or.inl List.mem_cons_self
        · exact Or.inr hmem
  exact (hfold pairs [] h).resolve_right List.not_mem_nil

/-- **Of several values for one key the last one counts.** -/
theorem find?_ofPairs [DecidableEq κ] (pairs : List (κ × β)) (key : κ) :
    (ofPairs pairs).find? key =
      (pairs.filterMap fun p => if p.1 = key then some p.2 else none).getLast? := by
  have hfold : ∀ (pairs : List (κ × β)) (d : Dictionary κ β),
      (pairs.foldl (fun d p => put p.1 p.2 d) d).find? key =
        (pairs.filterMap fun p => if p.1 = key then some p.2 else none).getLast?.or
          (d.find? key) := by
    intro pairs
    induction pairs with
    | nil => exact fun d => rfl
    | cons p pairs ih =>
      intro d
      rw [List.foldl_cons, ih, List.filterMap_cons]
      by_cases hkey : p.1 = key
      · subst hkey
        rw [find?_put_self, if_pos rfl, List.getLast?_cons]
        cases (pairs.filterMap fun q => if q.1 = p.1 then some q.2 else none).getLast? <;> rfl
      · rw [find?_put_of_ne hkey, if_neg hkey]
  rw [ofPairs, hfold, find?_nil, Option.or_none]

omit [Std.LawfulEqOrd κ] in
/-- A key above all others is put last. -/
theorem put_eq_append {key : κ} {value : β} {d : Dictionary κ β}
    (h : ∀ k ∈ d.keys, compare key k = .gt) : d.put key value = d ++ [(key, value)] := by
  induction d with
  | nil => rfl
  | cons p d ih =>
    obtain ⟨k, v⟩ := p
    rw [put, h k List.mem_cons_self, ih fun k hk => h k (List.mem_cons_of_mem _ hk)]
    rfl

/-- A new key is one more key. -/
theorem keys_put_perm {key : κ} {value : β} {d : Dictionary κ β} (h : key ∉ d.keys) :
    (d.put key value).keys.Perm (key :: d.keys) := by
  induction d with
  | nil => exact .refl _
  | cons p d ih =>
    obtain ⟨k, v⟩ := p
    rw [put]
    split
    · exact .refl _
    · rename_i heq
      exact absurd (Std.LawfulEqOrd.compare_eq_iff_eq.mp heq ▸ List.mem_cons_self) h
    · exact ((ih fun hkey => h (List.mem_cons_of_mem _ hkey)).cons k).trans (.swap ..)

end Dictionary

namespace SortedSet

variable {α : Type} [Ord α] [Std.LawfulEqOrd α]

@[simp] theorem mem_insert {x y : α} {s : List α} : y ∈ insert x s ↔ y = x ∨ y ∈ s := by
  induction s with
  | nil => simp [insert]
  | cons z s ih =>
    rw [insert]
    split
    · exact List.mem_cons
    · have hxz : x = z := Std.LawfulEqOrd.compare_eq_iff_eq.mp ‹_›
      simp [hxz]
    · rw [List.mem_cons, ih, List.mem_cons]
      exact or_left_comm

omit [Std.LawfulEqOrd α] in
theorem mem_of_mem_insert {x y : α} {s : List α} (h : y ∈ insert x s) : y = x ∨ y ∈ s := by
  induction s with
  | nil => simpa [insert] using h
  | cons z s ih =>
    rw [insert] at h
    split at h
    · exact List.mem_cons.mp h
    · exact Or.inr h
    · rcases List.mem_cons.mp h with rfl | h
      · exact Or.inr List.mem_cons_self
      · exact (ih h).imp_right (List.mem_cons_of_mem _)

@[simp] theorem mem_union {x : α} {s t : List α} : x ∈ union s t ↔ x ∈ s ∨ x ∈ t := by
  rw [union]
  induction t generalizing s with
  | nil => simp
  | cons y t ih =>
    rw [List.foldl_cons, ih, mem_insert, List.mem_cons, or_assoc, or_left_comm]

@[simp] theorem mem_ofList {x : α} {xs : List α} : x ∈ ofList xs ↔ x ∈ xs := by
  rw [show ofList xs = union [] xs from rfl, mem_union]
  simp

omit [Std.LawfulEqOrd α] in
theorem length_insert_le (x : α) (s : List α) : (insert x s).length ≤ s.length + 1 := by
  induction s with
  | nil => exact Nat.le_refl 1
  | cons y s ih =>
    rw [insert]
    split
    · exact Nat.le_refl _
    · exact Nat.le_succ _
    · exact Nat.succ_le_succ ih

omit [Std.LawfulEqOrd α] in
/-- A set has no more elements than the list it was made from. -/
theorem length_ofList_le (xs : List α) : (ofList xs).length ≤ xs.length := by
  have hfold : ∀ xs s : List α, (xs.foldl (fun s x => insert x s) s).length ≤
      s.length + xs.length := by
    intro xs
    induction xs with
    | nil => exact fun s => Nat.le_refl _
    | cons x xs ih =>
      intro s
      have h := length_insert_le x s
      have h' := ih (insert x s)
      rw [List.foldl_cons, List.length_cons]
      omega
  simpa [ofList] using hfold xs []

omit [Std.LawfulEqOrd α] in
/-- A set with one more element still is in increasing order. -/
theorem sorted_insert [Std.TransOrd α] (x : α) {s : List α}
    (h : s.Pairwise fun a b => compare a b = .lt) :
    (insert x s).Pairwise fun a b => compare a b = .lt := by
  induction s with
  | nil => simp [insert]
  | cons y s ih =>
    rw [insert]
    split
    · rename_i hlt
      refine List.pairwise_cons.mpr ⟨fun z hz => ?_, h⟩
      rcases List.mem_cons.mp hz with rfl | hz
      · exact hlt
      · exact Std.TransCmp.lt_trans hlt (List.rel_of_pairwise_cons h hz)
    · exact h
    · rename_i hgt
      refine List.pairwise_cons.mpr ⟨fun z hz => ?_, ih h.of_cons⟩
      rcases mem_of_mem_insert hz with rfl | hz
      · exact Std.OrientedCmp.gt_iff_lt.mp hgt
      · exact List.rel_of_pairwise_cons h hz

/-- What increases does not repeat itself. -/
theorem nodup_of_sorted {xs : List α} (h : xs.Pairwise fun a b => compare a b = .lt) :
    xs.Nodup := by
  refine h.imp fun {a b} hlt heq => ?_
  rw [heq, Std.ReflOrd.compare_self] at hlt
  exact absurd hlt (by decide)

omit [Std.LawfulEqOrd α] in
/-- **So is a union of sets.** -/
theorem sorted_union [Std.TransOrd α] {s : List α} (h : s.Pairwise fun a b => compare a b = .lt)
    (t : List α) : (union s t).Pairwise fun a b => compare a b = .lt := by
  rw [union]
  induction t generalizing s with
  | nil => exact h
  | cons x t ih => exact ih (sorted_insert x h)

omit [Std.LawfulEqOrd α] in
/-- **A set lists its elements in increasing order.** -/
theorem sorted_ofList [Std.TransOrd α] (xs : List α) :
    (ofList xs).Pairwise fun a b => compare a b = .lt :=
  sorted_union .nil xs

/-- Sets with the same elements are equal. -/
theorem eq_of_sorted [Std.TransOrd α] {s t : List α}
    (hs : s.Pairwise fun a b => compare a b = .lt) (ht : t.Pairwise fun a b => compare a b = .lt)
    (h : ∀ x, x ∈ s ↔ x ∈ t) : s = t := by
  have hperm := (List.perm_ext_iff_of_nodup (nodup_of_sorted hs) (nodup_of_sorted ht)).mpr h
  refine hperm.eq_of_pairwise (fun a b _ _ hab hba => ?_) hs ht
  exact absurd (hab.symm.trans (Std.OrientedCmp.gt_of_lt hba)) (by decide)

/-- **The set of a list does not depend on its order**, nor on how often it repeats an element. -/
theorem ofList_congr [Std.TransOrd α] {xs ys : List α} (h : ∀ x, x ∈ xs ↔ x ∈ ys) :
    ofList xs = ofList ys :=
  eq_of_sorted (sorted_ofList xs) (sorted_ofList ys) fun x => by rw [mem_ofList, mem_ofList, h]

/-- A set has as many elements as the list has different ones. -/
theorem length_ofList [Std.TransOrd α] [DecidableEq α] (xs : List α) :
    (ofList xs).length = xs.dedup.length := by
  refine List.Perm.length_eq ((List.perm_ext_iff_of_nodup (nodup_of_sorted (sorted_ofList xs))
    (List.nodup_dedup xs)).mpr fun x => ?_)
  rw [mem_ofList, List.mem_dedup]

end SortedSet

/-! ### The order of the keys -/

namespace Dictionary

variable {κ β : Type} [Ord κ] [Std.LawfulEqOrd κ]

/-- The keys are a set, into which the key of a new value is inserted. -/
theorem keys_put (key : κ) (value : β) (d : Dictionary κ β) :
    (d.put key value).keys = SortedSet.insert key d.keys := by
  induction d with
  | nil => rfl
  | cons p d ih =>
    obtain ⟨k, v⟩ := p
    rw [put, show keys ((k, v) :: d) = k :: keys d from rfl, SortedSet.insert]
    split
    · rfl
    · rename_i heq
      exact congrArg (· :: keys d) (Std.LawfulEqOrd.compare_eq_iff_eq.mp heq)
    · exact congrArg (k :: ·) ih

/-- So the keys stay in increasing order. -/
theorem sorted_keys_put [Std.TransOrd κ] {d : Dictionary κ β}
    (h : d.keys.Pairwise fun a b => compare a b = .lt) (key : κ) (value : β) :
    (d.put key value).keys.Pairwise fun a b => compare a b = .lt := by
  rw [keys_put]
  exact SortedSet.sorted_insert key h

/-- Where each key occurs once, every value is found. -/
theorem find?_of_mem {d : Dictionary κ β} (hd : d.keys.Nodup) {key : κ} {v : β}
    (h : (key, v) ∈ d) : d.find? key = some v := by
  obtain ⟨before, after, rfl⟩ := List.append_of_mem h
  rw [keys, List.map_append, List.map_cons] at hd
  refine find?_append_cons_self (fun hmem => ?_) v after
  exact (List.nodup_append.mp hd).2.2 key hmem key List.mem_cons_self rfl

theorem eq_filterMap_find? {d : Dictionary κ β} (hd : d.keys.Nodup) :
    d = d.keys.filterMap fun key => (d.find? key).map fun v => (key, v) := by
  rw [keys, List.filterMap_map]
  refine (List.filterMap_some.symm.trans (List.filterMap_congr fun p hp => ?_))
  rw [Function.comp_apply, find?_of_mem hd hp, Option.map_some]

/-- **Dictionaries with the same lookups are equal.** -/
theorem eq_of_find? [Std.TransOrd κ] {d e : Dictionary κ β}
    (hd : d.keys.Pairwise fun a b => compare a b = .lt)
    (he : e.keys.Pairwise fun a b => compare a b = .lt)
    (h : ∀ key, d.find? key = e.find? key) : d = e := by
  have hkeys : d.keys = e.keys := SortedSet.eq_of_sorted hd he fun key => by
    rw [← has_iff_mem_keys, ← has_iff_mem_keys, has, has, h]
  rw [eq_filterMap_find? (SortedSet.nodup_of_sorted hd),
    eq_filterMap_find? (SortedSet.nodup_of_sorted he), hkeys, funext h]

/-- What is computed for each key of a list is found for the keys of the list. -/
theorem find?_map_self [DecidableEq κ] (f : κ → β) (xs : List κ) (key : κ) :
    find? (xs.map fun x => (x, f x)) key = if key ∈ xs then some (f key) else none := by
  induction xs with
  | nil => rfl
  | cons x xs ih =>
    rw [List.map_cons]
    by_cases hx : x = key
    · subst hx
      rw [find?_cons_self, if_pos List.mem_cons_self]
    · rw [find?_cons_of_ne hx, ih]
      simp [Ne.symm hx]

omit [Ord κ] [Std.LawfulEqOrd κ] in
theorem keys_map_self (f : κ → β) (xs : List κ) : keys (xs.map fun x => (x, f x)) = xs := by
  rw [keys, List.map_map]
  exact List.map_id xs

end Dictionary

end GrammarFuzzing
