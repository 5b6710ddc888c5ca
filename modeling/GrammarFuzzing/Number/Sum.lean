/-!
# Sums of counts

`GrammarFuzzing.sumOf` adds up counts of items, edges and steps, one after the other, so that a fact
about a sum is proved by recursion on the list.
-/

namespace GrammarFuzzing

/-- **The sum of some counts.** -/
def sumOf : List Nat → Nat
  | [] => 0
  | n :: rest => n + sumOf rest

theorem sumOf_append (ms ns : List Nat) : sumOf (ms ++ ns) = sumOf ms + sumOf ns := by
  induction ms with
  | nil => rw [List.nil_append, sumOf, Nat.zero_add]
  | cons m ms ih => rw [List.cons_append, sumOf, sumOf, ih, Nat.add_assoc]

/-- A sum of counts that are not above others. -/
theorem sumOf_map_le {α : Type} {f f' : α → Nat} : ∀ {xs : List α}, (∀ x ∈ xs, f x ≤ f' x) →
    sumOf (xs.map f) ≤ sumOf (xs.map f')
  | [], _ => Nat.le_refl 0
  | _ :: _, h => Nat.add_le_add (h _ List.mem_cons_self)
    (sumOf_map_le fun x hx => h x (List.mem_cons_of_mem _ hx))

end GrammarFuzzing
