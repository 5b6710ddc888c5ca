import GrammarFuzzing.Dictionary
import GrammarFuzzing.Random.Draw

/-!
# Which candidate comes next

A scheduler picks one of several candidates and learns from what was picked.

* `GrammarFuzzing.uniformIndex` – every candidate alike;
* `GrammarFuzzing.PowerSchedule` – by **energy**: what was produced rarely and is poorly covered
  gets most of the weight. The energy of a key is its uncovered share, divided by a power of how
  often it was produced. Where no candidate has any energy the choice is uniform.
-/

namespace GrammarFuzzing

/-- **Why no candidate could be picked.** -/
inductive ScheduleError
  /-- There was none. -/
  | noCandidates
  /-- None of so many candidates has any weight. -/
  | degenerateWeights (count : Nat)
  deriving DecidableEq

/-- The error in words. -/
def ScheduleError.message : ScheduleError → String
  | .noCandidates => "No candidates to schedule"
  | .degenerateWeights count => "All " ++ toString count ++ " candidate weights are zero"

/-- An index below a count, every one alike. -/
def uniformIndex (count : Nat) : Draw (Except ScheduleError Nat) := do
  match ← Draw.index? count with
  | some i => return .ok i
  | none => return .error .noCandidates

/-- An index by weight, or every one alike where the weights cannot be drawn from. -/
def weightedIndex {α : Type} [Scalar α] (weights : List α) : Draw (Except ScheduleError Nat) := do
  match ← Draw.weighted? weights with
  | some i => return .ok i
  | none => uniformIndex weights.length

/-- **A power schedule** over keys: how often each key was produced, what share of it is covered,
and the energies that were assigned last. -/
structure PowerSchedule (κ α : Type) where
  frequencies : Dictionary κ Nat := []
  coverage : Dictionary κ α := []
  energies : Dictionary κ α := []

namespace PowerSchedule

variable {κ α : Type} [Ord κ] [Scalar α]

/-- The power of the frequency that divides the uncovered share. -/
def exponent : Nat := 2

/-- The energy of a key before it is set in proportion to the others. -/
def rawEnergy (frequency : Nat) (coverage : α) : α :=
  let uncovered := Scalar.ofNat 1 - Scalar.clamp01 coverage
  if frequency = 0 then uncovered
  else uncovered / Scalar.pow (Scalar.ofNat frequency) exponent

/-- How often each key occurs in a list. -/
def count (keys : List κ) : Dictionary κ Nat :=
  keys.foldl (fun d k => d.put k ((d.find? k).getD 0 + 1)) []

/-- The energies of all keys that were produced or are covered, not yet in proportion. A key that is
not covered at all counts as uncovered. -/
def rawEnergies (frequencies : Dictionary κ Nat) (coverage : Dictionary κ α) : Dictionary κ α :=
  let produced := frequencies.map fun (k, n) =>
    (k, rawEnergy n ((coverage.find? k).getD (Scalar.ofNat 0)))
  coverage.foldl (fun d (k, c) => if d.has k then d else d.put k (rawEnergy 0 c)) produced

/-- **Assigns energies** from the keys produced so far and what is covered of each. They sum to one;
if there is no energy at all, none is assigned. -/
def assignEnergy (observed : List κ) (coverage : Dictionary κ α) (_ : PowerSchedule κ α) :
    Except ScheduleError (Dictionary κ α) × PowerSchedule κ α :=
  let frequencies := count observed
  let raw := rawEnergies frequencies coverage
  let total := Scalar.sum raw.values
  if Scalar.isNumber total && !Scalar.lt (Scalar.ofNat 0) total then
    (.error (.degenerateWeights raw.length), ⟨frequencies, coverage, []⟩)
  else
    let energies := raw.map fun (k, e) => (k, e / total)
    (.ok energies, ⟨frequencies, coverage, energies⟩)

/-- The energy of a key, zero if none was assigned. -/
def energy (s : PowerSchedule κ α) (key : κ) : α :=
  (s.energies.find? key).getD (Scalar.ofNat 0)

/-- Draws a key by its energy. -/
def choose (s : PowerSchedule κ α) : Draw (Except ScheduleError κ) := do
  if s.energies.isEmpty then return .error .noCandidates
  match ← Draw.weighted? s.energies.values with
  | none => return .error (.degenerateWeights s.energies.length)
  | some i =>
    match s.energies.keys[i]? with
    | some k => return .ok k
    | none => return .error .noCandidates

/-- **The index of the next candidate**, drawn by the energies that the candidates would have. -/
def next (s : PowerSchedule κ α) (candidates : List κ) : Draw (Except ScheduleError Nat) := do
  if candidates.isEmpty then return .error .noCandidates
  weightedIndex <| candidates.map fun c =>
    rawEnergy ((s.frequencies.find? c).getD 0) ((s.coverage.find? c).getD (Scalar.ofNat 0))

/-- The schedule after a key was produced and coverage was measured again. -/
def feedback (s : PowerSchedule κ α) (chosen : κ) (coverage : Dictionary κ α) :
    PowerSchedule κ α :=
  { s with
    frequencies := s.frequencies.put chosen ((s.frequencies.find? chosen).getD 0 + 1)
    coverage := coverage }

end PowerSchedule

end GrammarFuzzing
