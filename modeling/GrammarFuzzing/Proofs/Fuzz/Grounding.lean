import GrammarFuzzing.Proofs.Fuzz.Ending
import GrammarFuzzing.Proofs.Fuzz.RoundTrip
import Mathlib.Logic.Relation

/-!
# How deeply expansions are nested

An expansion loses a node of its budget with every symbol, so the question whether it ends is a
question about symbols that have no budget left. Such a symbol takes a nearest expansion, but a hint
that multiplies an option keeps to no budget: it makes copies where nearest expansions have none. So
a rule that has run out of budget may still require other symbols
(`GrammarFuzzing.Fuzzer.RuleRequires`), and what counts is whether a rule can require itself in the
end. A fuzzer is **grounded** (`GrammarFuzzing.Fuzzer.Grounded`) if none can.

* Where no option is multiplied every rule requires nearer ones only, and the fuzzer is grounded
  (`GrammarFuzzing.Fuzzer.grounded_of_multiplies_eq_false`). This is for bare names, since a rule
  with brackets in its name has a distance of its own.
* In a grounded fuzzer symbols are nested no deeper than the budget and the number of rules together
  (`GrammarFuzzing.Draft.fuzzSymbol_nesting`), whatever the hints and the source are: once the
  budget is used up no rule occurs twice on the way down.
* In a fuzzer that is not grounded expansion need not end. If a symbol is an option of itself and
  the option is always multiplied, it never does (`GrammarFuzzing.Document.unending_nested`).
-/

namespace GrammarFuzzing

/-- A part is no farther than all parts together. -/
theorem Node.distanceWith_le_totalDistance {x : String → Nat} {n : Node} : ∀ {ns : List Node},
    n ∈ ns → n.distanceWith x ≤ totalDistance x ns
  | [], h => absurd h List.not_mem_nil
  | m :: ns, h => by
    have hle := n.distanceWith_le_unreachable x
    rw [totalDistance, satAdd]
    rcases List.mem_cons.mp h with rfl | h
    · omega
    · have hns := distanceWith_le_totalDistance (x := x) h
      omega

namespace Fuzzer

open Attempt Relation

variable {f : Fuzzer}

/-! ### What is required without a budget -/

/-- Whether a hint may multiply an option. -/
def multiplies (f : Fuzzer) (n : Node) : Bool :=
  match n with
  | .repetition _ _ _ _ .optional => f.hinted n
  | _ => false

/-- **The symbols that the expansion of a node without budget may come to.** A choice takes a
nearest option, and a repetition makes the copies that it must make, or those that a hint asks for.
Within these no more hints are asked. -/
inductive Requires (f : Fuzzer) : Bool → Node → String → Prop
  | reference {hintFixed : Bool} {id : Nat} {name : String} {sender recipient : Option String} :
    f.Requires hintFixed (.reference id name sender recipient) name
  | part {hintFixed : Bool} {id : Nat} {parts : List Node} {n : Node} {name : String} :
    n ∈ parts → f.Requires hintFixed n name → f.Requires hintFixed (.sequence id parts) name
  | nearest {hintFixed : Bool} {id : Nat} {options : List Node} {n : Node} {name : String} :
    n ∈ options → f.grammar.distance n ≤ f.grammar.distance (.choice id options) →
      f.Requires hintFixed n name → f.Requires hintFixed (.choice id options) name
  | mandatory {hintFixed : Bool} {id min : Nat} {body : Node} {max : Option Nat}
    {form : RepetitionForm} {name : String} :
    0 < min → f.Requires hintFixed body name →
      f.Requires hintFixed (.repetition id body min max form) name
  | multiplied {id min : Nat} {body : Node} {max : Option Nat} {form : RepetitionForm}
    {name : String} :
    f.multiplies (.repetition id body min max form) = true → f.Requires true body name →
      f.Requires false (.repetition id body min max form) name

/-- **A rule without budget may require another rule.** -/
def RuleRequires (f : Fuzzer) (a b : String) : Prop :=
  ∃ body name, f.grammar.body? a = some body ∧ f.Requires false body name ∧ bareName name = b

/-- **No rule requires itself in the end**, once its budget is used up. -/
def Grounded (f : Fuzzer) : Prop :=
  ∀ a, ¬ TransGen f.RuleRequires a a

/-- A fuzzer is grounded if its rules have ranks that decrease. -/
theorem grounded_of_rank (rank : String → Nat) (h : ∀ a b, f.RuleRequires a b → rank b < rank a) :
    f.Grounded := by
  have hless : ∀ {a b}, TransGen f.RuleRequires a b → rank b < rank a := by
    intro a b hab
    induction hab with
    | single hab => exact h _ _ hab
    | tail _ hbc ih => exact Nat.lt_trans (h _ _ hbc) ih
  exact fun a ha => absurd (hless ha) (Nat.lt_irrefl _)

/-- What a node requires it refers to. -/
theorem Requires.mem_subnodes {hintFixed : Bool} {n : Node} {name : String}
    (h : f.Requires hintFixed n name) :
    ∃ id sender recipient, Node.reference id name sender recipient ∈ n.subnodes := by
  induction h with
  | @reference _ id name sender recipient =>
    exact ⟨id, sender, recipient, Node.mem_subnodes_self _⟩
  | part hn _ ih =>
    obtain ⟨id, sender, recipient, hmem⟩ := ih
    exact ⟨id, sender, recipient, Node.mem_subnodes_sequence hn hmem⟩
  | nearest hn _ _ ih =>
    obtain ⟨id, sender, recipient, hmem⟩ := ih
    exact ⟨id, sender, recipient, Node.mem_subnodes_choice hn hmem⟩
  | mandatory _ _ ih | multiplied _ _ ih =>
    obtain ⟨id, sender, recipient, hmem⟩ := ih
    exact ⟨id, sender, recipient, Node.mem_subnodes_repetition hmem⟩

/-- Without multiplied options a node requires nearer symbols only. -/
theorem Requires.distance_lt {hintFixed : Bool} {n : Node} {name : String}
    (h : f.Requires hintFixed n name) (hplain : ∀ m ∈ n.subnodes, f.multiplies m = false)
    (hlt : f.grammar.distance n < unreachable) :
    distanceIn f.grammar.distances name < f.grammar.distance n := by
  induction h with
  | reference =>
    rw [Grammar.distance, Node.distanceWith, satAdd] at hlt ⊢
    omega
  | @part _ id parts n name hn _ ih =>
    have hle : f.grammar.distance n ≤ f.grammar.distance (.sequence id parts) := by
      rw [Grammar.distance, Grammar.distance, Node.distanceWith.eq_def _ (.sequence id parts)]
      exact Node.distanceWith_le_totalDistance hn
    have hpart := ih (fun m hm => hplain m (Node.mem_subnodes_sequence hn hm)) (by omega)
    omega
  | @nearest _ id options n name hn hle _ ih =>
    have hoption := ih (fun m hm => hplain m (Node.mem_subnodes_choice hn hm)) (by omega)
    omega
  | @mandatory _ id min body max form name hmin _ ih =>
    have heq := distance_repetition hlt
    have hle : f.grammar.distance body ≤ f.grammar.distance body * min :=
      Nat.le_mul_of_pos_right _ hmin
    have hcopy := ih (fun m hm => hplain m (Node.mem_subnodes_repetition hm)) (by omega)
    omega
  | multiplied hmultiplies =>
    exact absurd hmultiplies (by simp [hplain _ (Node.mem_subnodes_self _)])

/-- **A fuzzer that multiplies no option is grounded**, if the names of its rules are bare. -/
theorem grounded_of_multiplies_eq_false (hg : f.grammar.WellFormed)
    (hproductive : f.grammar.Productive) (hbare : f.grammar.BareNames)
    (hplain : ∀ p ∈ f.grammar.rules, ∀ n ∈ p.2.subnodes, f.multiplies n = false) : f.Grounded := by
  refine grounded_of_rank (distanceIn f.grammar.distances) ?_
  rintro a b ⟨body, name, hbody, hrequires, rfl⟩
  have hless := hrequires.distance_lt
    (fun m hm => hplain _ (Dictionary.mem_of_find? hbody) m hm) (hproductive a body hbody)
  obtain ⟨id, sender, recipient, hmem⟩ := hrequires.mem_subnodes
  have hhas := hg.has_reference ((Grammar.occurs_of_body? hbody).of_mem_subnodes hmem)
  rwa [Grammar.distanceIn_of_body? hbody, hbare name (Dictionary.has_iff_mem_keys.mp hhas)]

/-! ### Ways through a grounded grammar -/

open Classical in
/-- How many rules a rule may require in the end, itself included. -/
noncomputable def height (f : Fuzzer) (a : String) : Nat :=
  (f.grammar.rules.keys.toFinset.filter fun b => ReflTransGen f.RuleRequires a b).card

theorem height_le (f : Fuzzer) (a : String) : f.height a ≤ f.grammar.rules.length := by
  classical
  refine (Finset.card_filter_le _ _).trans ((List.toFinset_card_le _).trans ?_)
  rw [Dictionary.keys, List.length_map]

/-- **A rule that is required is lower**, as it does not require the rule above. -/
theorem Grounded.height_lt (hf : f.Grounded) {a b : String} (h : f.RuleRequires a b) :
    f.height b < f.height a := by
  classical
  have ha : a ∈ f.grammar.rules.keys := by
    obtain ⟨body, name, hbody, -, -⟩ := h
    exact Dictionary.mem_keys_of_find? hbody
  refine Finset.card_lt_card (Finset.ssubset_iff_of_subset ?_ |>.mpr ⟨a, ?_, fun hback => ?_⟩)
  · exact Finset.monotone_filter_right _ fun c _ hc => ReflTransGen.head h hc
  · exact Finset.mem_filter.mpr ⟨List.mem_toFinset.mpr ha, .refl⟩
  · exact hf a (TransGen.head' h (Finset.mem_filter.mp hback).2)

/-! ### Loops -/

section Loops

variable {fails : GrammarError → Prop} {budget : Nat}

/-- Copies of a symbol get at most the budget. -/
theorem gives_expandCopies_within {expand : Nat → Attempt GrammarError Tree}
    (h : ∀ b ≤ budget, Gives (expand b) fails fun _ => True) : ∀ n b, b ≤ budget →
      Gives (expandCopies expand n b) fails fun _ => True
  | 0, _, _ => gives_pure trivial
  | n + 1, b, hb => by
    rw [expandCopies]
    refine (h b hb).bind fun t _ => ?_
    exact (gives_expandCopies_within h n _ (by omega)).bind fun _ _ => gives_pure trivial

/-- **Copies of a body get at most the budget.** Without a budget there are only such as must be
made. -/
theorem gives_expandRepeated_within {expand : Nat → Attempt GrammarError (List Tree)}
    {distance least : Nat} {forced : Bool}
    (h : ∀ b ≤ budget, (budget = 0 → forced = true ∨ 0 < least) →
      Gives (expand b) fails fun _ => True) : ∀ n made reserved remaining, remaining ≤ budget →
        Gives (expandRepeated expand distance least forced n made reserved remaining) fails
          fun _ => True
  | 0, _, _, _, _ => gives_pure trivial
  | n + 1, made, reserved, remaining, hremaining => by
    have hrest : ∀ ts reserved, Gives (expandRepeated expand distance least forced n (made + 1)
        reserved (remaining - Tree.listSize ts)) fails fun _ => True := fun ts reserved =>
      gives_expandRepeated_within h n (made + 1) reserved _ (by omega)
    rw [expandRepeated]
    split
    · split
      · exact gives_pure trivial
      · rename_i hmore
        have hmust : forced = true ∨ 0 < least := by
          cases forced with
          | true => exact Or.inl rfl
          | false =>
            have hmade : made < least := by simpa using hmore
            exact Or.inr (by omega)
        refine (h 0 (Nat.zero_le _) fun _ => hmust).bind fun ts _ => ?_
        exact (hrest ts _).bind fun _ _ => gives_pure trivial
    · -- A copy that fits is nearer than the budget, so there is one.
      refine (h _ (by omega) fun hnone => absurd hnone (by omega)).bind fun ts _ => ?_
      exact (hrest ts _).bind fun _ _ => gives_pure trivial

end Loops

/-- **A hint that fixes the count** of a repetition is asked for the first time, and it empties the
repetition or multiplies an option. -/
theorem gives_repetitionCount_fixed {id min : Nat} {body : Node} {max : Option Nat}
    {form : RepetitionForm} (hbounds : ∀ m, max = some m → min ≤ m) (hintFixed : Bool) :
    Draw.Gives (f.repetitionCount (f.grammar.settingsOf (.repetition id body min max form)) min max
      form hintFixed) fun count => count.2 = true → hintFixed = false ∧
        (count.1 = 0 ∨ f.multiplies (.repetition id body min max form) = true) := by
  cases hintFixed with
  | true =>
    have hplain : ∀ most, Draw.Gives (do return (← Draw.between min most, false))
        fun count : Nat × Bool => count.2 = true → true = false ∧
          (count.1 = 0 ∨ f.multiplies (.repetition id body min max form) = true) := fun most =>
      (Draw.gives_true _).bind fun n _ => Draw.gives_pure fun hno => absurd hno Bool.false_ne_true
    cases form <;> exact hplain _
  | false =>
    refine (gives_repetitionCount hbounds false).mono fun count hcount hfixed => ⟨rfl, ?_⟩
    rw [if_pos hfixed] at hcount
    obtain ⟨hhint, ⟨-, hzero⟩ | ⟨rfl, -⟩⟩ := hcount
    · exact Or.inl hzero
    · exact Or.inr hhint

/-! ### Nodes -/

section Nodes

variable {fails : GrammarError → Prop} {expand : SymbolExpansion} {inMessage : Bool}

/-- **The symbols that a node may come to can be expanded**: with any part of the budget, and if
there is none, those that the node requires. -/
def Supplies (fails : GrammarError → Prop) (expand : SymbolExpansion) (inMessage : Bool)
    (budget : Nat) (required : String → Prop) : Prop :=
  ∀ name b, b ≤ budget → (budget = 0 → required name) → ∀ sender recipient,
    Gives (expand name sender recipient b inMessage) fails fun _ => True

theorem Supplies.mono {budget budget' : Nat} {required required' : String → Prop}
    (h : Supplies fails expand inMessage budget required) (hle : budget' ≤ budget)
    (himp : budget = 0 → ∀ name, required' name → required name) :
    Supplies fails expand inMessage budget' required' := by
  intro name b hb hname sender recipient
  exact h name b (Nat.le_trans hb hle)
    (fun hzero => himp hzero name (hname (by omega))) sender recipient

mutual

/-- **A node is expanded by way of symbols that it may come to.** -/
theorem gives_expandNode_supplied (hg : f.grammar.WellFormed) : ∀ {n : Node}, f.grammar.Occurs n →
    ∀ {budget hintFixed}, Supplies fails expand inMessage budget (f.Requires hintFixed n) →
      Gives (f.expandNode expand inMessage n budget hintFixed) fails fun _ => True
  | .terminal id value, _, budget, hintFixed, _ => by
    rw [expandNode]
    exact gives_pure trivial
  | .charset id chars, _, budget, hintFixed, _ => by
    rw [expandNode]
    refine (gives_lift (Draw.gives_true _)).bind fun picked _ => ?_
    cases picked with
    | none => exact gives_pure trivial
    | some c => exact gives_pure trivial
  | .reference id name sender recipient, _, budget, hintFixed, h => by
    rw [expandNode]
    refine (gives_lift (Draw.gives_true _)).bind fun k _ => ?_
    exact gives_expandCopies_within
      (fun b hb => h name b hb (fun _ => .reference) sender recipient) k budget (Nat.le_refl _)
  | .sequence id parts, hn, budget, hintFixed, h => by
    rw [expandNode]
    have hparts : ∀ n ∈ parts, f.grammar.Occurs n := fun n h =>
      hn.of_mem_subnodes (Node.mem_subnodes_sequence h n.mem_subnodes_self)
    refine gives_expandParts_supplied hg hparts (h.mono (Nat.le_refl _) fun _ name => ?_)
    rintro ⟨n, hmem, hname⟩
    exact .part hmem hname
  | .choice id options, hn, budget, hintFixed, h => by
    rw [expandNode]
    have hoptions : ∀ n ∈ options, f.grammar.Occurs n := fun n h =>
      hn.of_mem_subnodes (Node.mem_subnodes_choice h n.mem_subnodes_self)
    refine (gives_lift (gives_chooseOption_near id (hg.choice_ne_nil hn) budget)).bind ?_
    rintro ⟨i, budget'⟩ ⟨n, hi, hnear⟩
    dsimp only at hi hnear ⊢
    have hmem := List.mem_of_getElem? hi
    rw [expandNth_eq hi]
    refine gives_expandOption_supplied hg hoptions n hmem (h.mono (by omega) ?_)
    exact fun hzero name hname => .nearest hmem (by omega) hname
  | .repetition id body min max form, hn, budget, hintFixed, h => by
    rw [expandNode]
    have hbody := hn.of_mem_subnodes (Node.mem_subnodes_repetition body.mem_subnodes_self)
    have hbounds : ∀ m, max = some m → min ≤ m := fun m hm => (hg.bounds (hm ▸ hn)).2
    refine (gives_lift (gives_repetitionCount_fixed hbounds hintFixed)).bind ?_
    rintro ⟨copies, forced⟩ hfixed
    dsimp only at hfixed ⊢
    rcases Nat.eq_zero_or_pos copies with rfl | hcopies
    · exact gives_pure trivial
    · refine gives_expandRepeated_within (fun b hb hmust => ?_) copies 0 _ _ (Nat.le_refl _)
      refine gives_expandNode_supplied hg hbody (h.mono hb fun hzero name hname => ?_)
      cases forced with
      | true =>
        obtain ⟨rfl, hnone | hmultiplies⟩ := hfixed rfl
        · omega
        · exact .multiplied hmultiplies hname
      | false =>
        rw [Bool.or_false] at hname
        exact .mandatory ((hmust hzero).resolve_left Bool.false_ne_true) hname

theorem gives_expandOption_supplied (hg : f.grammar.WellFormed) : ∀ {options : List Node},
    (∀ n ∈ options, f.grammar.Occurs n) → ∀ n ∈ options, ∀ {budget hintFixed},
      Supplies fails expand inMessage budget (f.Requires hintFixed n) →
        Gives (f.expandNode expand inMessage n budget hintFixed) fails fun _ => True
  | [], _, n, hn, _, _, _ => absurd hn List.not_mem_nil
  | m :: rest, hoptions, n, hn, budget, hintFixed, h => by
    rcases List.mem_cons.mp hn with hn | hn
    · rw [hn] at h ⊢
      exact gives_expandNode_supplied hg (hoptions m List.mem_cons_self) h
    · exact gives_expandOption_supplied hg (fun k hk => hoptions k (List.mem_cons_of_mem _ hk)) n
        hn h

theorem gives_expandParts_supplied (hg : f.grammar.WellFormed) : ∀ {parts : List Node},
    (∀ n ∈ parts, f.grammar.Occurs n) → ∀ {budget hintFixed},
      Supplies fails expand inMessage budget
        (fun name => ∃ n ∈ parts, f.Requires hintFixed n name) →
        Gives (f.expandParts expand inMessage hintFixed parts budget) fails fun _ => True
  | [], _, budget, hintFixed, _ => by
    rw [expandParts]
    exact gives_pure trivial
  | n :: rest, hparts, budget, hintFixed, h => by
    have hbudget := partBudget_le (f := f) n rest budget
    rw [expandParts]
    refine (gives_expandNode_supplied hg (hparts n List.mem_cons_self)
      (h.mono (by omega) fun _ name hname => ⟨n, List.mem_cons_self, hname⟩)).bind fun ts _ => ?_
    refine (gives_expandParts_supplied hg (fun m hm => hparts m (List.mem_cons_of_mem _ hm))
      (h.mono (Nat.sub_le _ _) fun _ name => ?_)).bind fun _ _ => gives_pure trivial
    rintro ⟨m, hm, hname⟩
    exact ⟨m, List.mem_cons_of_mem _ hm, hname⟩

end

end Nodes

/-! ### Symbols -/

/-- A failure for another reason than the nesting. -/
def Settled (e : GrammarError) : Prop :=
  ¬ Unending e

/-- **A symbol is expanded within its height**, and so far beyond that as it has a budget. -/
theorem gives_expandSymbol_settled (hg : f.grammar.WellFormed)
    (hgenerators : f.grammar.generators = []) (hf : f.Grounded) :
    ∀ nesting generating name sender recipient budget inMessage,
      f.height (bareName name) < nesting → budget = 0 ∨ budget + f.grammar.rules.length ≤ nesting →
        Gives (f.expandSymbol nesting generating name sender recipient budget inMessage) Settled
          fun _ => True
  | 0, _, _, _, _, _, _, hheight, _ => absurd hheight (Nat.not_lt_zero _)
  | nesting + 1, generating, name, sender, recipient, budget, inMessage, hheight, hbudget => by
    cases hbody : f.grammar.body? (bareName name) with
    | none =>
      rw [expandSymbol]
      dsimp only
      rw [expandGenerator_of_generators_nil hgenerators, pure_bind]
      dsimp only
      rw [expandRule, Grammar.rule, hbody]
      refine Gives.bind (P := fun _ => False) (gives_throw ?_) fun _ hno => hno.elim
      rintro ⟨other, hother⟩
      exact absurd hother (by simp)
    | some body =>
      rw [expandSymbol_of_body? hgenerators hbody]
      refine (gives_expandNode_supplied hg (Grammar.occurs_of_body? hbody) ?_).bind
        fun _ _ => gives_pure trivial
      intro other b hb hrequires sender recipient
      have hle := f.height_le (bareName other)
      refine gives_expandSymbol_settled hg hgenerators hf nesting _ _ _ _ _ _ ?_ (by omega)
      -- Without a budget for the rule the symbol is lower, and otherwise there is room for all.
      rcases Nat.eq_zero_or_pos (budget - 1) with hzero | hpos
      · have hless := hf.height_lt ⟨_, other, hbody, hrequires hzero, rfl⟩
        omega
      · omega

/-- The nesting that a symbol is given suffices for its budget and for all rules. -/
theorem add_lt_depthBound (f : Fuzzer) (budget : Nat) :
    budget + f.grammar.rules.length < f.depthBound budget := by
  have hbound := f.le_depthBound budget
  have hmul : budget + f.farthest + 2 ≤
      (budget + f.farthest + 2) * (f.grammar.generators.length + 1) :=
    Nat.le_mul_of_pos_right _ (Nat.succ_pos _)
  omega

/-- **In a grounded fuzzer a symbol expands to one tree**, within every nesting that exceeds the
budget and the number of rules together. -/
theorem Grounded.exists_tree (hg : f.grammar.WellFormed) (hbare : f.grammar.BareNames)
    (hgenerators : f.grammar.generators = []) (hf : f.Grounded) {name : String}
    (hname : name ∈ f.grammar.rules.keys) (budget : Nat) (source : Source) :
    ∃ t, ∀ nesting, budget + f.grammar.rules.length < nesting →
      ((f.expandSymbol nesting [] name none none budget false).run.run source).1 = .ok t := by
  have hheight := f.height_le (bareName name)
  have hsettled := gives_expandSymbol_settled hg hgenerators hf
    (budget + f.grammar.rules.length + 1) [] name none none budget false (by omega) (by omega)
  have hcanonical := gives_canonical_expandSymbol hg hgenerators
    (budget + f.grammar.rules.length + 1) [] name none none budget false
  rcases (hsettled.and hcanonical).run source with ⟨t, ht, -⟩ | ⟨e, -, hno, hunending⟩
  · refine ⟨t, fun nesting hnesting => ?_⟩
    obtain ⟨more, rfl⟩ := Nat.exists_eq_add_of_lt hnesting
    rw [Nat.add_right_comm _ more 1]
    exact (extends_expandSymbol_add _ more [] name none none budget false).ok ht
  · exact absurd (hunending hbare (Dictionary.has_iff_mem_keys.mpr hname)) hno

/-! ### Options of themselves -/

/-- A hint that is certain applies. -/
theorem fires_one : fires 1.0 = pure true := by
  rw [fires, if_pos (by decide), Draw.bool]
  rw [if_pos (by decide)]

/-- An option that is certain to be multiplied has at least two copies. -/
theorem gives_repetitionCount_certain {n : Node} {min : Nat} {max : Option Nat}
    (hcertain : (f.grammar.settingsOf n).multipleOption = 1.0) :
    Draw.Gives (f.repetitionCount (f.grammar.settingsOf n) min max .optional false) fun count =>
      2 ≤ count.1 ∧ count.2 = true := by
  rw [repetitionCount, hcertain, fires_one, if_pos Bool.not_false, pure_bind, if_pos rfl]
  refine (Draw.gives_between f.two_le_mostHinted).bind fun n hn => Draw.gives_pure ?_
  exact ⟨hn.1, rfl⟩

/-- **A symbol that is an option of itself is never done** if the option is certain to be
multiplied: the first copy needs a copy of its own, within whatever nesting. -/
theorem gives_expandSymbol_unending {s : String} {id id' min : Nat} {max : Option Nat}
    {from? to? : Option String} (hbare : bareName s = s)
    (hbody : f.grammar.body? s =
      some (.repetition id (.reference id' s from? to?) min max .optional))
    (hcertain : (f.grammar.settingsOf
      (.repetition id (.reference id' s from? to?) min max .optional)).multipleOption = 1.0)
    (hgenerators : f.grammar.generators = []) :
    ∀ nesting generating sender recipient budget inMessage,
      Gives (f.expandSymbol nesting generating s sender recipient budget inMessage)
        (· = .unending s) fun _ => False
  | 0, _, _, _, _, _ => by
    rw [expandSymbol]
    exact gives_throw rfl
  | nesting + 1, generating, sender, recipient, budget, inMessage => by
    have ih := gives_expandSymbol_unending hbare hbody hcertain hgenerators nesting generating
    have hcopy : ∀ inMessage b, Gives (f.expandNode (f.expandSymbol nesting generating) inMessage
        (.reference id' s from? to?) b true) (· = .unending s) fun _ => False := by
      intro inMessage b
      rw [expandNode, referenceCount, if_pos rfl]
      refine (gives_lift (Draw.gives_pure rfl : Draw.Gives (pure 1) (· = 1))).bind ?_
      rintro _ rfl
      exact (ih from? to? b inMessage).bind fun _ hno => hno.elim
    have hbare_body := (congrArg f.grammar.body? hbare).trans hbody
    rw [expandSymbol_of_body? hgenerators hbare_body]
    refine Gives.bind (P := fun _ => False) ?_ fun _ hno => hno.elim
    rw [expandNode]
    refine (gives_lift (gives_repetitionCount_certain hcertain)).bind ?_
    rintro ⟨copies, forced⟩ ⟨hcopies, rfl⟩
    obtain ⟨more, rfl⟩ := Nat.exists_eq_add_of_lt hcopies
    -- The count is fixed, so the first copy is made even if it gets no budget.
    dsimp only
    rw [expandRepeated]
    split
    · exact (hcopy _ 0).bind fun _ hno => hno.elim
    · exact (hcopy _ _).bind fun _ hno => hno.elim

end Fuzzer

/-! ### Nesting -/

/-- **Symbols are nested no deeper than the budget and the number of rules together** in a grounded
fuzzer, whatever the hints, the number of repetitions and the source are: an expansion within more
nestings than that does not run out of them, and all of them make one tree, which is the random tree
of the symbol. A fuzzer is grounded if no hint multiplies an option. This is for a grammar without
generators. Its names are to be bare where that is said: otherwise expansion may come to a symbol
without a rule, and fails. -/
theorem Draft.fuzzSymbol_nesting {d : Draft} (hd : d.Coherent) {g : Grammar} (h : d.build = .ok g)
    (hgenerators : g.generators = []) (settings : FuzzSettings) :
    let f : Fuzzer := ⟨g, settings⟩
    (g.BareNames → (∀ p ∈ g.rules, ∀ n ∈ p.2.subnodes, f.multiplies n = false) → f.Grounded) ∧
      (f.Grounded → ∀ s budget source,
        (∀ nesting, budget + g.rules.length < nesting → ∀ name,
          ((f.expandSymbol nesting [] s none none budget false).run.run source).1 ≠
            .error (.unending name)) ∧
        (g.BareNames → s ∈ g.rules.keys → ∃ t,
          ((f.fuzzSymbol s budget).run.run source).1 = .ok t ∧
            ∀ nesting, budget + g.rules.length < nesting →
              ((f.expandSymbol nesting [] s none none budget false).run.run source).1 =
                .ok t)) := by
  intro f
  have hg : f.grammar.WellFormed := hd.wellFormed h
  refine ⟨Fuzzer.grounded_of_multiplies_eq_false hg (builds_of_build h).isProductive,
    fun hf s budget source => ⟨fun nesting hnesting name hunending => ?_, fun hbare hs => ?_⟩⟩
  · have hheight : f.height (bareName s) ≤ g.rules.length := f.height_le (bareName s)
    have hsettled := Fuzzer.gives_expandSymbol_settled hg hgenerators hf nesting [] s none none
      budget false (by omega) (Or.inr hnesting.le)
    rcases hsettled.run source with ⟨t, ht, -⟩ | ⟨e, he, hno⟩
    · exact absurd (ht.symm.trans hunending) (by simp)
    · exact hno ⟨name, Except.error.inj (he.symm.trans hunending)⟩
  · obtain ⟨t, ht⟩ := hf.exists_tree hg hbare hgenerators hs budget source
    refine ⟨t, ?_, ht⟩
    rw [Fuzzer.fuzzSymbol_eq hbare hs]
    exact ht _ (f.add_lt_depthBound budget)

/-- Items that are digits or nothing, and lists of them. Options are certain to be multiplied. -/
def Document.digitLists : Document :=
  ⟨"list", [("digit", .chars "01"), ("item", .optional (.ref "digit")),
    ("list", .alt [.ref "item", .seq [.ref "item", .text ",", .ref "list"]])],
    [⟨.kind .option, { multipleOption := some 1.0 }⟩]⟩

/-- Without a budget a list requires an item, and an item a digit. -/
theorem Document.grounded_digitLists {g : Grammar} (h : digitLists.toGrammar = .ok g)
    (settings : FuzzSettings) : (Fuzzer.mk g settings).Grounded := by
  obtain rfl := Except.ok.inj ((rfl : digitLists.toGrammar = .ok _).symm.trans h)
  refine Fuzzer.grounded_of_rank (["digit", "item", "list"].idxOf ·) ?_
  rintro a b ⟨body, name, hbody, hrequires, rfl⟩
  have ha : a ∈ ["digit", "item", "list"] := Dictionary.mem_keys_of_find? hbody
  simp only [List.mem_cons, List.not_mem_nil, or_false] at ha
  rcases ha with rfl | rfl | rfl
  · obtain rfl : Node.charset 0 ['0', '1'] = body := Option.some.inj hbody
    cases hrequires
  · obtain rfl : Node.repetition 2 (.reference 1 "digit" none none) 0 (some 1) .optional = body :=
      Option.some.inj hbody
    cases hrequires with
    | mandatory hmin => exact absurd hmin (Nat.lt_irrefl 0)
    | multiplied _ hdigit =>
      cases hdigit
      decide
  · obtain rfl : Node.choice 8 [.reference 3 "item" none none, .sequence 7
        [.reference 4 "item" none none, .terminal 5 (.text ","), .reference 6 "list" none none]] =
      body := Option.some.inj hbody
    cases hrequires with
    | nearest hn hnear hname =>
      rcases List.mem_pair.mp hn with rfl | rfl
      · cases hname
        decide
      · -- A list of two items is farther than one item.
        exact absurd (show 4 ≤ 1 from hnear) (by decide)

/-- Sums multiply no option, so they are grounded. Of the lists, a list without budget requires an
item and an item a digit: at most three symbols are nested, and it is an item of two digits. -/
theorem Document.fuzzSymbol_digitLists :
    (∃ g, sums.toGrammar = .ok g ∧ (Fuzzer.mk g {}).Grounded) ∧
    ∃ g t, digitLists.toGrammar = .ok g ∧
      (((Fuzzer.mk g {}).fuzzSymbol "list" 0).run.run (.ofWords [])).1 = .ok t ∧
        t.toBytes = Utf8.encode "00" ∧ (((Fuzzer.mk g {}).expandSymbol 4 [] "list" none none 0
          false).run.run (.ofWords [])).1 = .ok t := by
  constructor
  · have h : sums.toGrammar = .ok _ := rfl
    have hbare : ∀ name ∈ ["digit", "sum"], bareName name = name := by decide
    obtain ⟨hgrounded, -⟩ := Draft.fuzzSymbol_nesting sums.coherent_toDraft h rfl {}
    exact ⟨_, h, hgrounded hbare (by decide)⟩
  · have h : digitLists.toGrammar = .ok _ := rfl
    have hbare : ∀ name ∈ ["digit", "item", "list"], bareName name = name := by decide
    obtain ⟨-, hnesting⟩ := Draft.fuzzSymbol_nesting digitLists.coherent_toDraft h rfl {}
    obtain ⟨-, hends⟩ := hnesting (grounded_digitLists h {}) "list" 0 (.ofWords [])
    obtain ⟨t, ht, hexpand⟩ := hends hbare (by decide)
    refine ⟨_, t, h, ht, ?_, hexpand 4 (by decide)⟩
    obtain rfl := Except.ok.inj ht
    rfl

/-- A symbol that is an option of itself. Options are certain to be multiplied. -/
def Document.nested : Document :=
  ⟨"s", [("s", .optional (.ref "s"))], [⟨.kind .option, { multipleOption := some 1.0 }⟩]⟩

/-- **Expansion need not end**: within every nesting, for every budget and from every source a
symbol that is an option of itself runs out of nestings. -/
theorem Document.unending_nested {g : Grammar} (h : nested.toGrammar = .ok g)
    (settings : FuzzSettings) (nesting budget : Nat) (source : Source) :
    (((Fuzzer.mk g settings).expandSymbol nesting [] "s" none none budget false).run.run source).1 =
      .error (.unending "s") := by
  have hrule : g.generators = [] ∧ g.body? "s" = some (.repetition 1 (.reference 0 "s" none none) 0
      (some 1) .optional) ∧ (g.settingsOf (.repetition 1 (.reference 0 "s" none none) 0 (some 1)
        .optional)).multipleOption = 1.0 := by
    obtain rfl := Except.ok.inj ((rfl : nested.toGrammar = .ok _).symm.trans h)
    exact ⟨rfl, rfl, rfl⟩
  obtain ⟨hgenerators, hbody, hcertain⟩ := hrule
  have hunending := Fuzzer.gives_expandSymbol_unending (f := ⟨g, settings⟩) (by decide) hbody
    hcertain hgenerators nesting [] none none budget false
  rcases hunending.run source with ⟨t, -, hno⟩ | ⟨e, he, rfl⟩
  · exact hno.elim
  · exact he

end GrammarFuzzing
