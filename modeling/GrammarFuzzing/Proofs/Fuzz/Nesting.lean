import GrammarFuzzing.Fuzz.Expand

/-!
# Deeper nesting changes nothing

The expansion of a symbol is given a number that bounds how deeply symbols may be nested. The number
is there to make the recursion end, and it does no more than that: what a symbol expands to within
one nesting it expands to within every deeper one
(`GrammarFuzzing.Fuzzer.extends_expandSymbol_add`), from the same source and with the same choices.
So an expansion that comes to an end has one result, whatever nesting it is given beyond what it
needs.

A failure is such a result, too: it may be caught, and what is made then must not depend on the
nesting either. An expansion that does not end is the one failure that cannot be caught.

The nesting is passed on to the symbols in a rule and nowhere else. So the whole argument is one
relation between attempts, `GrammarFuzzing.Attempt.Extends`, which all ways of putting attempts
together respect.
-/

namespace GrammarFuzzing

/-- The failure of an expansion that does not come to an end within the nesting it is given. -/
def Fuzzer.Unending (e : GrammarError) : Prop :=
  ∃ name, e = .unending name

/-! ### Attempts that extend others -/

namespace Attempt

open Fuzzer (Unending)

variable {α β : Type}

/-- **One attempt extends another**: whatever the other comes to, it comes to from the same source,
and leaves the same source. Where the other does not end, it may do anything. -/
def Extends (b a : Attempt GrammarError α) : Prop :=
  ∀ source result source', a.run.run source = (result, source') →
    (∀ e, result = .error e → ¬ Unending e) → b.run.run source = (result, source')

theorem Extends.refl (a : Attempt GrammarError α) : a.Extends a :=
  fun _ _ _ h _ => h

theorem Extends.trans {a b c : Attempt GrammarError α} (h₂ : c.Extends b) (h₁ : b.Extends a) :
    c.Extends a :=
  fun source result source' h hends =>
    h₂ source result source' (h₁ source result source' h hends) hends

theorem Extends.ok {a b : Attempt GrammarError α} (h : b.Extends a) {source : Source} {x : α}
    (ha : (a.run.run source).1 = .ok x) : (b.run.run source).1 = .ok x := by
  have hb := h source (.ok x) (a.run.run source).2 (Prod.ext ha rfl) (by simp)
  rw [hb]

theorem run_bind {ε : Type} (a : Attempt ε α) (next : α → Attempt ε β) (source : Source) :
    (a >>= next).run.run source =
      match a.run.run source with
      | (.ok x, source') => (next x).run.run source'
      | (.error e, source') => (.error e, source') := by
  rw [ExceptT.run_bind, StateT.run_bind]
  rcases a.run.run source with ⟨_ | x, source'⟩ <;> rfl

/-- **One step before the rest.** -/
theorem Extends.bind {a b : Attempt GrammarError α} {next next' : α → Attempt GrammarError β}
    (h : b.Extends a) (hnext : ∀ x, (next' x).Extends (next x)) :
    (b >>= next').Extends (a >>= next) := by
  intro source result source' hresult hends
  rw [run_bind] at hresult ⊢
  rcases hrun : a.run.run source with ⟨e | x, middle⟩
  · rw [hrun] at hresult
    obtain ⟨rfl, rfl⟩ := Prod.mk.inj hresult
    rw [h source _ _ hrun fun e' he' => hends e' (congrArg _ (Except.error.inj he'))]
  · rw [hrun] at hresult
    rw [h source _ _ hrun (by simp)]
    exact hnext x middle result source' hresult hends

theorem run_caught (a : Attempt GrammarError α) (source : Source) :
    a.caught.run.run source =
      match a.run.run source with
      | (.ok x, source') => (.ok (some x), source')
      | (.error (.unending name), source') => (.error (.unending name), source')
      | (.error _, source') => (.ok none, source') := by
  rw [caught, run_bind]
  have hlift : (Attempt.lift a.run : Attempt GrammarError _).run.run source =
      (.ok (a.run.run source).1, (a.run.run source).2) := rfl
  rw [hlift]
  rcases a.run.run source with ⟨e | x, source'⟩
  · cases e <;> rfl
  · rfl

/-- **What is caught** is caught in the same way. -/
theorem Extends.caught {a b : Attempt GrammarError α} (h : b.Extends a) :
    b.caught.Extends a.caught := by
  intro source result source' hresult hends
  rw [run_caught] at hresult ⊢
  rcases hrun : a.run.run source with ⟨e | x, middle⟩
  · rw [hrun] at hresult
    have hnot : ¬ Unending e := by
      rintro ⟨name, rfl⟩
      exact hends _ (Prod.mk.inj hresult).1.symm ⟨name, rfl⟩
    rw [h source _ _ hrun fun e' he' => Except.error.inj he' ▸ hnot]
    exact hresult
  · rw [hrun] at hresult
    rw [h source _ _ hrun (by simp)]
    exact hresult

end Attempt

namespace Fuzzer

open Attempt

/-! ### Copies -/

theorem extends_expandCopies {expand expand' : Nat → Attempt GrammarError Tree}
    (h : ∀ budget, (expand' budget).Extends (expand budget)) : ∀ n budget,
      (expandCopies expand' n budget).Extends (expandCopies expand n budget)
  | 0, _ => .refl _
  | n + 1, budget => by
    rw [expandCopies, expandCopies]
    refine (h budget).bind fun t => ?_
    exact (extends_expandCopies h n _).bind fun _ => .refl _

theorem extends_expandRepeated {expand expand' : Nat → Attempt GrammarError (List Tree)}
    (h : ∀ budget, (expand' budget).Extends (expand budget)) {distance min : Nat} {forced : Bool} :
    ∀ n made reserved remaining,
      (expandRepeated expand' distance min forced n made reserved remaining).Extends
        (expandRepeated expand distance min forced n made reserved remaining)
  | 0, _, _, _ => .refl _
  | n + 1, made, reserved, remaining => by
    rw [expandRepeated, expandRepeated]
    split
    · split
      · exact .refl _
      · refine (h 0).bind fun ts => ?_
        exact (extends_expandRepeated h n _ _ _).bind fun _ => .refl _
    · refine (h _).bind fun ts => ?_
      exact (extends_expandRepeated h n _ _ _).bind fun _ => .refl _

/-! ### Nodes and symbols -/

variable {f : Fuzzer}

section Nodes

variable {expand expand' : SymbolExpansion} {inMessage : Bool}

mutual

/-- **The expansion of a node** uses that of symbols alone. -/
theorem extends_expandNode (h : ∀ name sender recipient budget,
    (expand' name sender recipient budget inMessage).Extends
      (expand name sender recipient budget inMessage)) : ∀ n budget hintFixed,
      (f.expandNode expand' inMessage n budget hintFixed).Extends
        (f.expandNode expand inMessage n budget hintFixed)
  | .terminal _ _, _, _ | .charset _ _, _, _ => by
    rw [expandNode, expandNode]
    exact .refl _
  | .reference _ name sender recipient, budget, hintFixed => by
    rw [expandNode, expandNode]
    refine (Extends.refl _).bind fun copies => ?_
    exact extends_expandCopies (h name sender recipient) copies budget
  | .sequence _ parts, budget, hintFixed => by
    rw [expandNode, expandNode]
    exact extends_expandParts h parts budget hintFixed
  | .choice _ options, budget, hintFixed => by
    rw [expandNode, expandNode]
    refine (Extends.refl _).bind fun choice => ?_
    exact extends_expandNth h options choice.1 choice.2 hintFixed
  | .repetition _ body _ _ _, budget, hintFixed => by
    rw [expandNode, expandNode]
    refine (Extends.refl _).bind fun count => ?_
    exact extends_expandRepeated (fun budget => extends_expandNode h body budget _) _ _ _ _

theorem extends_expandParts (h : ∀ name sender recipient budget,
    (expand' name sender recipient budget inMessage).Extends
      (expand name sender recipient budget inMessage)) : ∀ parts budget hintFixed,
      (f.expandParts expand' inMessage hintFixed parts budget).Extends
        (f.expandParts expand inMessage hintFixed parts budget)
  | [], _, _ => by
    rw [expandParts, expandParts]
    exact .refl _
  | n :: rest, budget, hintFixed => by
    rw [expandParts, expandParts]
    refine (extends_expandNode h n _ hintFixed).bind fun ts => ?_
    exact (extends_expandParts h rest _ hintFixed).bind fun _ => .refl _

theorem extends_expandNth (h : ∀ name sender recipient budget,
    (expand' name sender recipient budget inMessage).Extends
      (expand name sender recipient budget inMessage)) : ∀ options i budget hintFixed,
      (f.expandNth expand' inMessage hintFixed budget options i).Extends
        (f.expandNth expand inMessage hintFixed budget options i)
  | [], _, _, _ => by
    rw [expandNth, expandNth]
    exact .refl _
  | n :: _, 0, budget, hintFixed => by
    rw [expandNth, expandNth]
    exact extends_expandNode h n budget hintFixed
  | _ :: rest, i + 1, budget, hintFixed => by
    rw [expandNth, expandNth]
    exact extends_expandNth h rest i budget hintFixed

end

theorem extends_expandDependencies {budget : Nat} (h : ∀ name,
    (expand' name none none budget true).Extends (expand name none none budget true)) :
    ∀ names, (expandDependencies expand' budget names).Extends
      (expandDependencies expand budget names)
  | [] => .refl _
  | name :: rest => by
    rw [expandDependencies, expandDependencies]
    refine (h name).bind fun t => ?_
    exact (extends_expandDependencies h rest).bind fun _ => .refl _

theorem extends_expandGenerator {budget : Nat} (h : ∀ name,
    (expand' name none none budget true).Extends (expand name none none budget true))
    (generating : List String) (name : String) :
    (f.expandGenerator expand' generating name budget).Extends
      (f.expandGenerator expand generating name budget) := by
  rw [expandGenerator, expandGenerator]
  split
  · split
    · exact .refl _
    · exact (extends_expandDependencies h _).caught.bind fun _ => .refl _
  · exact .refl _

theorem extends_expandRule (h : ∀ name sender recipient budget inMessage,
    (expand' name sender recipient budget inMessage).Extends
      (expand name sender recipient budget inMessage)) (name : String)
    (sender recipient : Option String) (budget : Nat) (inMessage : Bool) :
    (f.expandRule expand' name sender recipient budget inMessage).Extends
      (f.expandRule expand name sender recipient budget inMessage) := by
  rw [expandRule, expandRule]
  refine (Extends.refl _).bind fun body => ?_
  refine (extends_expandNode (fun name sender recipient budget =>
    h name sender recipient budget _) body _ _).bind fun _ => .refl _

end Nodes

/-- One nesting more changes nothing. -/
theorem extends_expandSymbol : ∀ (depth : Nat) (generating : List String) (name : String)
    (sender recipient : Option String) (budget : Nat) (inMessage : Bool),
    (f.expandSymbol (depth + 1) generating name sender recipient budget inMessage).Extends
      (f.expandSymbol depth generating name sender recipient budget inMessage)
  | 0, _, name, _, _, _, _ => by
    -- Without any nesting a symbol does not expand.
    intro source result source' h hends
    rw [expandSymbol] at h
    exact absurd ⟨name, rfl⟩ (hends _ (Prod.mk.inj h).1.symm)
  | depth + 1, generating, name, sender, recipient, budget, inMessage => by
    have ih := extends_expandSymbol depth
    rw [expandSymbol, expandSymbol]
    refine (extends_expandGenerator (fun dependency => ih _ dependency none none budget true)
      generating name).bind fun generated => ?_
    split
    · exact .refl _
    · exact extends_expandRule (ih generating) name _ _ budget inMessage

/-- **Deeper nesting changes nothing.** -/
theorem extends_expandSymbol_add (depth more : Nat) (generating : List String) (name : String)
    (sender recipient : Option String) (budget : Nat) (inMessage : Bool) :
    (f.expandSymbol (depth + more) generating name sender recipient budget inMessage).Extends
      (f.expandSymbol depth generating name sender recipient budget inMessage) := by
  induction more with
  | zero => exact .refl _
  | succ more ih => exact (extends_expandSymbol (depth + more) _ _ _ _ _ _).trans ih

end Fuzzer

end GrammarFuzzing
