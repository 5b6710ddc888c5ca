import GrammarFuzzing.Number.Scalar
import Mathlib.Algebra.Order.Field.Rat
import Mathlib.Algebra.Order.Group.MinMax
import Mathlib.Tactic.Linarith
import Mathlib.Tactic.Positivity

/-!
# Exact scalars

What scores, energies and rates are meant to be is told by computing them without rounding. An
**exact** scalar (`GrammarFuzzing.Exact`) is a rational number, one of two infinities, or no number
at all, as a measured value can be any of these. Arithmetic on rationals is that of rationals, and
the other values follow the rules of floating-point numbers: infinities absorb rationals, and what
has no sensible value is no number. There is one zero.

The lemmas here say what the operations of `GrammarFuzzing.Scalar` are on rationals. A score that is
shown to be a rational is then a matter of ordinary arithmetic.
-/

namespace GrammarFuzzing

/-- **An exact scalar.** -/
inductive Exact
  | rational (q : ℚ)
  | infinite (negative : Bool)
  /-- No number. -/
  | undefined
  deriving DecidableEq

namespace Exact

/-- Infinities of one sign add up, and of two signs to no number. -/
def add : Exact → Exact → Exact
  | .rational p, .rational q => .rational (p + q)
  | .undefined, _ | _, .undefined => .undefined
  | .infinite a, .infinite b => if a = b then .infinite a else .undefined
  | .infinite a, .rational _ | .rational _, .infinite a => .infinite a

def neg : Exact → Exact
  | .rational q => .rational (-q)
  | .infinite a => .infinite (!a)
  | .undefined => .undefined

/-- An infinity times zero is no number. -/
def mul : Exact → Exact → Exact
  | .rational p, .rational q => .rational (p * q)
  | .undefined, _ | _, .undefined => .undefined
  | .infinite a, .infinite b => .infinite (a != b)
  | .infinite a, .rational q | .rational q, .infinite a =>
    if q = 0 then .undefined else .infinite (a != decide (q < 0))

/-- What is divided by zero is infinite, unless it is zero itself. -/
def div : Exact → Exact → Exact
  | .rational p, .rational q =>
    if q ≠ 0 then .rational (p / q) else if p = 0 then .undefined else .infinite (p < 0)
  | .undefined, _ | _, .undefined | .infinite _, .infinite _ => .undefined
  | .rational _, .infinite _ => .rational 0
  | .infinite a, .rational q => .infinite (a != decide (q < 0))

/-- No number is neither less nor greater than anything. -/
def lt : Exact → Exact → Bool
  | .rational p, .rational q => p < q
  | .undefined, _ | _, .undefined => false
  | .infinite a, .infinite b => a && !b
  | .infinite a, .rational _ => a
  | .rational _, .infinite b => !b

/-- The number that the bits of a floating-point number stand for. -/
def ofClass : FloatClass → Exact
  | .nan => .undefined
  | .infinite negative => .infinite negative
  | .zero _ => .rational 0
  | .finite negative m => .rational ((if negative then -1 else 1) * m.mantissa * 2 ^ m.exponent)

/-- **Exact scalars.** -/
instance : Scalar Exact where
  add := add
  sub a b := add a (neg b)
  mul := mul
  div := div
  ofNat n := .rational n
  ofFloat x := .ofClass (.of x)
  sumStart := .rational 0
  lt := lt
  isFinite a := match a with
    | .rational _ => true
    | _ => false
  isNumber a := decide (a ≠ .undefined)

/-! ### Rationals -/

@[simp] theorem ofNat_eq (n : Nat) : (Scalar.ofNat n : Exact) = .rational n := rfl

@[simp] theorem sumStart_eq : (Scalar.sumStart : Exact) = .rational 0 := rfl

@[simp] theorem rational_add (p q : ℚ) : rational p + rational q = rational (p + q) := rfl

@[simp] theorem rational_sub (p q : ℚ) : rational p - rational q = rational (p - q) :=
  congrArg rational (sub_eq_add_neg p q).symm

@[simp] theorem rational_mul (p q : ℚ) : rational p * rational q = rational (p * q) := rfl

theorem rational_div (p : ℚ) {q : ℚ} (hq : q ≠ 0) : rational p / rational q = rational (p / q) :=
  if_pos hq

@[simp] theorem lt_rational (p q : ℚ) : Scalar.lt (rational p) (rational q) = decide (p < q) := rfl

@[simp] theorem isNumber_rational (q : ℚ) : Scalar.isNumber (rational q) = true := rfl

/-- The finite scalars are the rationals. -/
theorem isFinite_iff {a : Exact} : Scalar.isFinite a = true ↔ ∃ q, a = rational q := by
  cases a with
  | rational q => exact iff_of_true rfl ⟨q, rfl⟩
  | infinite | undefined => exact iff_of_false Bool.false_ne_true nofun

theorem ratio_eq (a : Nat) {b : Nat} (hb : b ≠ 0) : (Scalar.ratio a b : Exact) = rational (a / b) :=
  rational_div _ (Nat.cast_ne_zero.mpr hb)

theorem max_rational (p q : ℚ) :
    Scalar.max (rational p) (rational q) = rational (max p q) := by
  simp only [Scalar.max, isNumber_rational, Bool.not_true, Bool.false_eq_true, if_false,
    lt_rational, decide_eq_true_eq]
  split
  · rw [max_eq_right (le_of_lt ‹_›)]
  · rw [max_eq_left (not_lt.mp ‹_›)]

theorem min_rational (p q : ℚ) :
    Scalar.min (rational p) (rational q) = rational (min p q) := by
  simp only [Scalar.min, isNumber_rational, Bool.not_true, Bool.false_eq_true, if_false,
    lt_rational, decide_eq_true_eq]
  split
  · rw [min_eq_right (le_of_lt ‹_›)]
  · rw [min_eq_left (not_lt.mp ‹_›)]

theorem sum_rational (qs : List ℚ) : Scalar.sum (qs.map rational) = rational qs.sum := by
  have hfold : ∀ (qs : List ℚ) (p : ℚ),
      (qs.map rational).foldl (· + ·) (rational p) = rational (p + qs.sum) := by
    intro qs
    induction qs with
    | nil => intro p; simp
    | cons q qs ih =>
      intro p
      rw [List.map_cons, List.foldl_cons, rational_add, ih, List.sum_cons, add_assoc]
  rw [Scalar.sum, sumStart_eq, hfold, zero_add]

/-! ### The unit interval -/

/-- **A rational between zero and one.** -/
def InUnit (a : Exact) : Prop :=
  ∃ q : ℚ, a = rational q ∧ 0 ≤ q ∧ q ≤ 1

theorem inUnit_rational {q : ℚ} (h₀ : 0 ≤ q) (h₁ : q ≤ 1) : InUnit (rational q) :=
  ⟨q, rfl, h₀, h₁⟩

theorem inUnit_clamp01 (q : ℚ) : InUnit (Scalar.clamp01 (rational q)) := by
  simp only [Scalar.clamp01, ofNat_eq, lt_rational, decide_eq_true_eq, Nat.cast_zero, Nat.cast_one]
  split
  · exact inUnit_rational le_rfl zero_le_one
  · split
    · exact inUnit_rational zero_le_one le_rfl
    · exact inUnit_rational (not_lt.mp ‹_›) (not_lt.mp ‹_›)

/-- What is left of one. -/
theorem InUnit.one_sub {a : Exact} (h : InUnit a) : InUnit (Scalar.ofNat 1 - a) := by
  obtain ⟨q, rfl, h₀, h₁⟩ := h
  rw [ofNat_eq, rational_sub, Nat.cast_one]
  exact inUnit_rational (by linarith) (by linarith)

/-- Scalars between zero and one are rationals whose sum is between zero and their number. -/
theorem exists_sum_of_inUnit : ∀ {as : List Exact}, (∀ a ∈ as, InUnit a) →
    ∃ qs : List ℚ, as = qs.map rational ∧ 0 ≤ qs.sum ∧ qs.sum ≤ as.length
  | [], _ => ⟨[], rfl, le_rfl, le_rfl⟩
  | a :: as, h => by
    rw [List.forall_mem_cons] at h
    obtain ⟨q, rfl, h₀, h₁⟩ := h.1
    obtain ⟨qs, rfl, hs₀, hs₁⟩ := exists_sum_of_inUnit h.2
    refine ⟨q :: qs, rfl, ?_, ?_⟩
    · rw [List.sum_cons]
      exact add_nonneg h₀ hs₀
    · rw [List.sum_cons, List.length_cons, Nat.cast_add, Nat.cast_one]
      linarith

/-- **A mean of scalars between zero and one** is between zero and one, also if some are left
out. -/
theorem inUnit_mean {as : List Exact} (h : ∀ a ∈ as, InUnit a) {n : Nat} (hn : n ≠ 0)
    (hlength : as.length ≤ n) : InUnit (Scalar.sum as / Scalar.ofNat n) := by
  obtain ⟨qs, rfl, h₀, h₁⟩ := exists_sum_of_inUnit h
  have hpos : (0 : ℚ) < n := by exact_mod_cast Nat.pos_of_ne_zero hn
  rw [sum_rational, ofNat_eq, rational_div _ hpos.ne']
  refine inUnit_rational (div_nonneg h₀ hpos.le) ((div_le_one hpos).mpr (h₁.trans ?_))
  exact_mod_cast hlength

end Exact

end GrammarFuzzing
