import GrammarFuzzing.Evolution.Run
import GrammarFuzzing.Proofs.Fuzz.Expansion

/-!
# How populations are filled

Two loops fill a population: one tops it up with random trees, the other takes in offspring, some of
them mutated. Both offer one tree after the other to a census, so what they keep is told by what is
kept when one tree is offered (`GrammarFuzzing.Census.gives_refillWithin_of`,
`GrammarFuzzing.Engine.gives_addOffspring_of`).

A tree that cannot be made is done without: failures are caught in both loops. The one thing that is
not is an expansion that does not end, and so this is all that the loops can fail with.
-/

namespace GrammarFuzzing

open Attempt

variable {g : Grammar} {fails : GrammarError → Prop}

namespace Census

/-- **Topping up keeps what is kept by one fuzzed tree more.** -/
theorem gives_refillWithin_of {target : Nat} {P : Tree → Prop} {I : List Tree → Census → Prop}
    (hfuzz : ∀ {population c}, I population c → Gives (Fuzzer.mk g c.settings).fuzz fails P)
    (hadd : ∀ {population c t}, I population c → population.length < target → P t →
      I (c.addUnique population t).1 (c.addUnique population t).2) :
    ∀ attempts {population c}, I population c →
      Gives (refillWithin g target attempts c population)
        (fun e => fails e ∧ Fuzzer.Unending e) fun r => I r.1 r.2
  | 0, _, _, h => gives_pure h
  | attempts + 1, population, c, h => by
    rw [refillWithin]
    split
    · exact gives_pure h
    · rename_i hroom
      refine (hfuzz h).caught.bind fun fuzzed hfuzzed => ?_
      cases fuzzed with
      | none => exact gives_refillWithin_of hfuzz hadd attempts h
      | some t =>
        refine gives_refillWithin_of hfuzz hadd attempts ?_
        exact hadd h (Nat.lt_of_not_le hroom) (hfuzzed t rfl)

/-- At least one attempt is made to fill an empty population. -/
theorem exists_attempts {target : Nat} (htarget : 0 < target) :
    ∃ attempts, (target - ([] : List Tree).length) * attemptsPerTree = attempts + 1 :=
  Nat.exists_eq_succ_of_ne_zero (Nat.mul_pos htarget (by decide)).ne'

end Census

namespace Engine

variable {τ : Type} {strategy : Strategy τ} {rate : Float}
  {I : List Offspring → τ → List Tree → Census → Prop}

/-- **Taking in offspring keeps what is kept by one of them more**, whether it is mutated, cannot be
mutated or is left alone. -/
theorem gives_addOffspring_of
    (hstay : ∀ {o rest memory population c}, I (o :: rest) memory population c →
      I rest memory (c.addUnique population o.tree).1 (c.addUnique population o.tree).2)
    (hmutate : ∀ {o rest memory population c}, I (o :: rest) memory population c →
      Draw.Gives (strategy.mutate memory g o.tree o.failing) fun r =>
        (∀ name, r.1 = .error (.unending name) → fails (.unending name)) ∧
          ∀ t, r.1 = .ok t ∨ t = o.tree →
            I rest r.2 (c.addUnique population t).1 (c.addUnique population t).2) :
    ∀ offspring {memory population c}, I offspring memory population c →
      Gives (addOffspring strategy g rate offspring memory population c) fails fun r =>
        I [] r.1 r.2.1 r.2.2
  | [], _, _, _, h => gives_pure h
  | o :: rest, memory, population, c, h => by
    rw [addOffspring]
    refine (gives_lift (Draw.gives_true _)).bind fun mutated _ => ?_
    dsimp only
    split
    · refine (gives_lift (hmutate h)).bind ?_
      rintro ⟨result, memory'⟩ ⟨hends, hnext⟩
      refine (gives_settle (fun _ => id) hends).bind fun settled hsettled => ?_
      refine gives_addOffspring_of hstay hmutate rest (hnext _ ?_)
      cases settled with
      | none => exact Or.inr rfl
      | some t => exact Or.inl (hsettled t rfl)
    · exact gives_addOffspring_of hstay hmutate rest (hstay h)

end Engine

end GrammarFuzzing
