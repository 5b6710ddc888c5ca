import GrammarFuzzing.Proofs.Fuzz.Budget

/-!
# Random expansion ends

Without hints a symbol always expands to a tree, whatever generators the grammar has
(`GrammarFuzzing.Fuzzer.gives_fuzzSymbol_ends`): the nesting that an expansion is given is never
used up.

With generators the sizes of trees say nothing about budgets, since a generated value may be of any
size. But sizes are not what makes expansion end. From a symbol to the symbols in its rule the
greater one of budget and distance decreases, because a budget loses a node and a node that gets no
budget takes a nearest expansion. A generator starts over with symbols of any distance, but with the
same budget, and it is not asked again while they are expanded. So an expansion needs

* the greater one of its budget and its distance, and
* for each generator that is not at work, the farthest distance and two
  (`GrammarFuzzing.Fuzzer.ends_expandSymbol`),

and what `GrammarFuzzing.Fuzzer.depthBound` allows is at least that.

The names of the rules have to be bare for this. A rule with brackets in its name has a distance of
its own, but where it is referred to, the rule without the brackets is expanded. That one may refer
to the rule with the brackets, and then expansion never ends
(`GrammarFuzzing.Document.unending_bracketed`).
-/

namespace GrammarFuzzing

namespace Fuzzer

open Attempt

variable {f : Fuzzer}

/-! ### Generators at work -/

/-- How many generators are not at work. -/
def idle (f : Fuzzer) (generating : List String) : Nat :=
  (f.grammar.generators.filter fun p => !generating.contains p.1).length

theorem idle_le (f : Fuzzer) (generating : List String) :
    f.idle generating ≤ f.grammar.generators.length :=
  List.length_filter_le _ _

/-- **A generator that starts to work is no longer idle.** -/
theorem idle_cons_lt {generating : List String} {name : String} {generator : Generator}
    (hgenerator : f.grammar.generator? name = some generator)
    (hidle : generating.contains name = false) :
    f.idle (name :: generating) < f.idle generating := by
  have hsplit : (f.grammar.generators.filter fun p => !(name :: generating).contains p.1) =
      (f.grammar.generators.filter fun p => !generating.contains p.1).filter
        fun p => p.1 != name := by
    rw [List.filter_filter]
    refine List.filter_congr fun p _ => ?_
    rw [List.contains_cons, Bool.not_or]
    rfl
  have hmem : (name, generator) ∈ f.grammar.generators.filter fun p => !generating.contains p.1 :=
    List.mem_filter.mpr ⟨Dictionary.mem_of_find? hgenerator, by rw [hidle]; rfl⟩
  rw [idle, idle, hsplit, List.length_filter_lt_length_iff_exists]
  exact ⟨_, hmem, by simp⟩

/-! ### Loops -/

/-- **Symbols expand to trees** if they may be nested so deeply. -/
def Ends (f : Fuzzer) (depth : Nat) (expand : SymbolExpansion) : Prop :=
  ∀ name, f.grammar.rules.has name = true → distanceIn f.grammar.distances name < depth →
    ∀ budget, budget ≤ unreachable → budget ≤ depth → ∀ sender recipient inMessage,
      Gives (expand name sender recipient budget inMessage) Never fun _ => True

/-- **A repetition ends**, if a copy ends that gets a part of the budget, or none when it must be
made. -/
theorem ends_expandRepeated {expand : Nat → Attempt GrammarError (List Tree)}
    {depth distance least : Nat} (hleast : 0 < least → Affordable depth 0 distance)
    (h : ∀ budget, Affordable depth budget distance →
      Gives (expand budget) Never fun _ => True) :
    ∀ n made reserved remaining, remaining ≤ unreachable → remaining ≤ depth →
      Gives (expandRepeated expand distance least false n made reserved remaining) Never
        fun _ => True
  | 0, made, reserved, remaining, _, _ => by
    rw [expandRepeated]
    exact gives_pure trivial
  | n + 1, made, reserved, remaining, hremaining, hdepth => by
    have hrest : ∀ ts reserved, Gives (expandRepeated expand distance least false n (made + 1)
        reserved (remaining - Tree.listSize ts)) Never fun _ => True := fun ts reserved =>
      ends_expandRepeated hleast h n (made + 1) reserved _ (by omega) (by omega)
    rw [expandRepeated]
    split
    · split
      · exact gives_pure trivial
      · rename_i hmore
        have hmade : made < least := by simpa using hmore
        refine (h 0 (hleast (by omega))).bind fun ts _ => ?_
        exact (hrest ts _).bind fun _ _ => gives_pure trivial
    · -- A copy that fits is nearer than the budget.
      refine (h _ ⟨by omega, by omega, by omega, by omega⟩).bind fun ts _ => ?_
      exact (hrest ts _).bind fun _ _ => gives_pure trivial

/-! ### Nodes -/

section Nodes

variable {expand : SymbolExpansion} {depth : Nat} {inMessage : Bool}

mutual

/-- **The expansion of a node ends**, if those of symbols do. -/
theorem ends_expandNode (hg : f.grammar.WellFormed) (hhints : f.Unhinted)
    (hexpand : f.Ends depth expand) : ∀ {n : Node}, f.grammar.Occurs n → ∀ {budget},
      Affordable depth budget (f.grammar.distance n) → ∀ hintFixed,
        Gives (f.expandNode expand inMessage n budget hintFixed) Never fun _ => True
  | .terminal id value, _, budget, _, _ => by
    rw [expandNode]
    exact gives_pure trivial
  | .charset id chars, _, budget, _, _ => by
    rw [expandNode]
    refine (gives_lift (Draw.gives_true _)).bind fun picked _ => ?_
    cases picked with
    | none => exact gives_pure trivial
    | some c => exact gives_pure trivial
  | .reference id name sender recipient, hn, budget, hafford, hintFixed => by
    have hlt := hafford.distance_lt
    have hdepth := hafford.distance_le_depth
    rw [Grammar.distance, Node.distanceWith, satAdd] at hlt hdepth
    rw [expandNode]
    refine (gives_lift (gives_referenceCount hintFixed)).bind fun k hk => ?_
    obtain rfl : k = 1 := hk.resolve_right fun hhint =>
      absurd hhint.1 (by simp [hhints.hinted_eq_false hn])
    exact (hexpand name (hg.has_reference hn) (by omega) budget hafford.budget_le
      hafford.budget_le_depth sender recipient inMessage).bind fun _ _ => gives_pure trivial
  | .sequence id parts, hn, budget, hafford, hintFixed => by
    rw [expandNode]
    have hparts : ∀ n ∈ parts, f.grammar.Occurs n := fun n h =>
      hn.of_mem_subnodes (Node.mem_subnodes_sequence h n.mem_subnodes_self)
    rw [Grammar.distance, Node.distanceWith] at hafford
    exact ends_expandParts hg hhints hexpand hparts hafford hintFixed
  | .choice id options, hn, budget, hafford, hintFixed => by
    rw [expandNode]
    have hoptions : ∀ n ∈ options, f.grammar.Occurs n := fun n h =>
      hn.of_mem_subnodes (Node.mem_subnodes_choice h n.mem_subnodes_self)
    refine (gives_lift (gives_chooseOption_near id (hg.choice_ne_nil hn) budget)).bind ?_
    rintro ⟨i, budget'⟩ ⟨n, hi, hnear⟩
    dsimp only at hi hnear ⊢
    have hle := hafford.budget_le
    have hdepth := hafford.budget_le_depth
    have hlt := hafford.distance_lt
    have hdepth' := hafford.distance_le_depth
    rw [expandNth_eq hi]
    -- An option that fits is nearer than the budget, a nearest one gets no budget.
    rcases hnear with ⟨hfits, rfl⟩ | ⟨hnear, rfl⟩
    · exact ends_expandOption hg hhints hexpand hoptions n (List.mem_of_getElem? hi)
        ⟨hle, hdepth, by omega, by omega⟩ hintFixed
    · exact ends_expandOption hg hhints hexpand hoptions n (List.mem_of_getElem? hi)
        ⟨Nat.zero_le _, Nat.zero_le _, by omega, by omega⟩ hintFixed
  | .repetition id body min max form, hn, budget, hafford, hintFixed => by
    rw [expandNode]
    have hbody := hn.of_mem_subnodes (Node.mem_subnodes_repetition body.mem_subnodes_self)
    refine (gives_lift (hhints.gives_repetitionCount hg hn hintFixed)).bind ?_
    rintro ⟨copies, forced⟩ hforced
    obtain rfl : forced = false := hforced
    exact ends_expandRepeated hafford.copy
      (fun _ h => ends_expandNode hg hhints hexpand hbody h (hintFixed || false)) copies 0 _ _
      hafford.budget_le hafford.budget_le_depth

/-- The expansion of each option ends. -/
theorem ends_expandOption (hg : f.grammar.WellFormed) (hhints : f.Unhinted)
    (hexpand : f.Ends depth expand) : ∀ {options : List Node},
      (∀ n ∈ options, f.grammar.Occurs n) → ∀ n ∈ options, ∀ {budget},
        Affordable depth budget (f.grammar.distance n) → ∀ hintFixed,
          Gives (f.expandNode expand inMessage n budget hintFixed) Never fun _ => True
  | [], _, n, hn, _, _, _ => absurd hn List.not_mem_nil
  | m :: rest, hoptions, n, hn, budget, hafford, hintFixed => by
    rcases List.mem_cons.mp hn with hn | hn
    · rw [hn] at hafford ⊢
      exact ends_expandNode hg hhints hexpand (hoptions m List.mem_cons_self) hafford hintFixed
    · exact ends_expandOption hg hhints hexpand
        (fun k hk => hoptions k (List.mem_cons_of_mem _ hk)) n hn hafford hintFixed

/-- The expansions of the parts of a sequence end. -/
theorem ends_expandParts (hg : f.grammar.WellFormed) (hhints : f.Unhinted)
    (hexpand : f.Ends depth expand) : ∀ {parts : List Node}, (∀ n ∈ parts, f.grammar.Occurs n) →
      ∀ {remaining}, Affordable depth remaining
        (Node.totalDistance (distanceIn f.grammar.distances) parts) → ∀ hintFixed,
          Gives (f.expandParts expand inMessage hintFixed parts remaining) Never fun _ => True
  | [], _, remaining, _, _ => by
    rw [expandParts]
    exact gives_pure trivial
  | n :: rest, hparts, remaining, hafford, hintFixed => by
    have hle := hafford.budget_le
    have hdepth := hafford.budget_le_depth
    have hlt := hafford.distance_lt
    have hdepth' := hafford.distance_le_depth
    rw [Node.totalDistance, ← Grammar.distance, satAdd] at hlt hdepth'
    have hbudget := partBudget_le (f := f) n rest remaining
    rw [expandParts]
    refine (ends_expandNode hg hhints hexpand (hparts n List.mem_cons_self)
      ⟨by omega, by omega, by omega, by omega⟩ hintFixed).bind fun ts _ => ?_
    exact (ends_expandParts hg hhints hexpand (fun m hm => hparts m (List.mem_cons_of_mem _ hm))
      ⟨by omega, by omega, by omega, by omega⟩ hintFixed).bind fun _ _ => gives_pure trivial

end

end Nodes

/-! ### Symbols -/

/-- A generator that is not at work ends, if what it depends on does. -/
theorem ends_expandGenerator {expand : SymbolExpansion} {generating : List String} {name : String}
    {budget : Nat} (h : ∀ generator, f.grammar.generator? name = some generator →
      generating.contains name = false → ∀ dependency ∈ generator.dependencies,
        Gives (expand dependency none none budget true) Never fun _ => True) :
    Gives (f.expandGenerator expand generating name budget) Never fun _ => True := by
  rw [expandGenerator]
  split
  · rename_i generator hgenerator
    split
    · exact gives_pure trivial
    · rename_i hidle
      have hparams := gives_expandDependencies (P := fun _ _ => True)
        (h generator hgenerator (Bool.not_eq_true _ ▸ hidle))
      refine (hparams.caught.allow fun _ he => he.1).bind fun params _ => ?_
      cases params with
      | none => exact gives_pure trivial
      | some params =>
        exact (gives_lift (Draw.gives_true _)).bind fun _ _ => gives_pure trivial
  · exact gives_pure trivial

/-- There is room for the budget and for the farthest symbol, and for each generator once more. -/
theorem room_le_depthBound (f : Fuzzer) (budget : Nat) :
    budget + f.farthest + 1 + f.idle [] * (f.farthest + 2) ≤ f.depthBound budget := by
  have hbound := f.le_depthBound budget
  have hidle := Nat.mul_le_mul_right (f.farthest + 2) (f.idle_le [])
  have hmore : f.grammar.generators.length * (f.farthest + 2) ≤
      (budget + f.farthest + 2) * f.grammar.generators.length := by
    rw [Nat.mul_comm]
    exact Nat.mul_le_mul_right _ (by omega)
  rw [Nat.mul_add_one _ f.grammar.generators.length] at hbound
  omega

section Symbols

variable (hg : f.grammar.WellFormed) (hbare : f.grammar.BareNames)
include hg hbare

/-- **A symbol expands to a tree** if the symbols in its rule do, which are nearer, and if there is
room for the farthest symbol while its generator is at work. -/
theorem ends_expandSymbol_succ (hhints : f.Unhinted) {nesting : Nat}
    (ih : ∀ generating depth, depth + f.idle generating * (f.farthest + 2) ≤ nesting →
      f.Ends depth (f.expandSymbol nesting generating))
    {generating : List String} {depth : Nat}
    (hnesting : depth + f.idle generating * (f.farthest + 2) ≤ nesting + 1) {name : String}
    {body : Node} (hrule : f.grammar.rule name = .ok body)
    (hdepth : f.grammar.distance body < depth) (hlt : f.grammar.distance body < unreachable)
    {budget : Nat} (hbudget : budget ≤ unreachable) (hbudget' : budget ≤ depth)
    (sender recipient : Option String) (inMessage : Bool) :
    Gives (f.expandSymbol (nesting + 1) generating name sender recipient budget inMessage) Never
      fun _ => True := by
  have hbody := Grammar.body?_of_rule hrule
  rw [expandSymbol]
  refine (ends_expandGenerator fun generator hgenerator hidle dependency hdependency => ?_).bind
    fun generated _ => ?_
  · -- With the generator at work there is room for a symbol at any distance.
    have hless := Nat.mul_le_mul_right (f.farthest + 2) (idle_cons_lt hgenerator hidle)
    rw [Nat.succ_mul] at hless
    have hhas := hg.has_dependency hgenerator dependency hdependency
    obtain ⟨-, other, hother⟩ := hbare.exists_body (Dictionary.has_iff_mem_keys.mp hhas)
    have hfarthest := distanceIn_le_farthest hother
    exact ih (name :: generating) (depth + (f.farthest + 1)) (by omega) dependency hhas
      (by omega) budget hbudget (by omega) none none true
  · split
    · exact gives_pure trivial
    · have hafford : Affordable (depth - 1) (budget - 1) (f.grammar.distance body) :=
        ⟨by omega, by omega, hlt, by omega⟩
      rw [expandRule, hrule]
      refine Gives.bind (P := (· = body)) (gives_pure rfl) ?_
      rintro _ rfl
      exact (ends_expandNode hg hhints (ih generating (depth - 1) (by omega))
        (Grammar.occurs_of_body? hbody) hafford false).bind fun _ _ => gives_pure trivial

/-- **A symbol expands to a tree** if it may be nested as deeply as its budget and its distance say,
and so far beyond that as each idle generator may start over. -/
theorem ends_expandSymbol (hproductive : f.grammar.Productive) (hhints : f.Unhinted) :
    ∀ nesting generating depth,
      depth + f.idle generating * (f.farthest + 2) ≤ nesting →
        f.Ends depth (f.expandSymbol nesting generating)
  | 0, generating, depth, hnesting => by
    intro name hname hdepth
    omega
  | nesting + 1, generating, depth, hnesting => by
    intro name hname hdepth budget hbudget hbudget' sender recipient inMessage
    obtain ⟨hbarename, body, hbody⟩ := hbare.exists_body (Dictionary.has_iff_mem_keys.mp hname)
    have hrule : f.grammar.rule name = .ok body := by
      rw [Grammar.rule, hbarename, hbody]
    rw [Grammar.distanceIn_of_body? hbody] at hdepth
    exact ends_expandSymbol_succ hg hbare hhints
      (ends_expandSymbol hproductive hhints nesting) hnesting hrule hdepth
      (hproductive name body hbody) hbudget hbudget' sender recipient inMessage

/-- **Fuzzing ends whatever is asked for**: within every budget of 64 bits there is a tree, or there
is no rule for it. -/
theorem gives_fuzzSymbol_settles (hproductive : f.grammar.Productive) (hhints : f.Unhinted)
    (name : String) {budget : Nat} (hbudget : budget ≤ unreachable) :
    Gives (f.fuzzSymbol name budget) (fun e => ¬ Unending e) fun _ => True := by
  rw [fuzzSymbol]
  cases hrule : f.grammar.rule (bareName name) with
  | error e =>
    refine Gives.bind (P := fun _ => False) (gives_throw ?_) fun _ hno => hno.elim
    rw [Grammar.rule] at hrule
    split at hrule
    · exact absurd hrule (by simp)
    · rintro ⟨other, rfl⟩
      exact absurd hrule (by simp)
  | ok body =>
    refine Gives.bind (P := fun _ => True) (gives_pure trivial) fun _ _ => ?_
    have hroom := f.room_le_depthBound budget
    have hbody := Grammar.body?_of_rule hrule
    have hfarthest := distanceIn_le_farthest hbody
    obtain ⟨nesting, hnesting⟩ : ∃ nesting, f.depthBound budget = nesting + 1 :=
      ⟨f.depthBound budget - 1, by omega⟩
    rw [hnesting] at hroom ⊢
    rw [Grammar.distanceIn_of_body? hbody] at hfarthest
    have hdepth : f.grammar.distance body < budget + f.farthest + 1 := by omega
    refine (ends_expandSymbol_succ hg hbare hhints
      (ends_expandSymbol hg hbare hproductive hhints nesting) hroom hrule hdepth
      (hproductive _ body hbody) hbudget (by omega) none none false).allow ?_
    exact fun e he => he.elim

/-- **A symbol is always fuzzed to a tree**, within every budget of 64 bits. -/
theorem gives_fuzzSymbol_ends (hproductive : f.grammar.Productive) (hhints : f.Unhinted)
    {name : String} (hname : name ∈ f.grammar.rules.keys) {budget : Nat}
    (hbudget : budget ≤ unreachable) : Gives (f.fuzzSymbol name budget) Never fun _ => True := by
  obtain ⟨-, body, hbody⟩ := hbare.exists_body hname
  have hfarthest := distanceIn_le_farthest hbody
  rw [fuzzSymbol_eq hbare hname]
  exact ends_expandSymbol hg hbare hproductive hhints _ [] (budget + f.farthest + 1)
    (f.room_le_depthBound budget) name (Dictionary.has_iff_mem_keys.mpr hname) (by omega) budget
    hbudget (by omega) none none false

end Symbols

/-! ### Rules in a circle -/

/-- **Rules that lead to one another and to nothing else** never come to an end, whatever nesting
they are given. -/
theorem gives_expandSymbol_circle {circle : List String}
    (hcircle : ∀ name ∈ circle, f.grammar.generator? name = none ∧
      ∃ id next sender recipient, f.grammar.rule name = .ok (.reference id next sender recipient) ∧
        f.hinted (.reference id next sender recipient) = false ∧ next ∈ circle) :
    ∀ nesting generating, ∀ name ∈ circle, ∀ sender recipient budget inMessage,
      Gives (f.expandSymbol nesting generating name sender recipient budget inMessage) Unending
        fun _ => False
  | 0, _, name, _, _, _, _, _ => by
    rw [expandSymbol]
    exact gives_throw ⟨name, rfl⟩
  | nesting + 1, generating, name, hname, sender, recipient, budget, inMessage => by
    obtain ⟨hgenerator, id, next, sender', recipient', hrule, hhint, hnext⟩ := hcircle name hname
    have hnone : ∀ expand, f.expandGenerator expand generating name budget = pure none := by
      intro expand
      unfold expandGenerator
      rw [hgenerator]
    rw [expandSymbol]
    dsimp only
    rw [hnone, pure_bind]
    dsimp only
    rw [expandRule, hrule]
    refine Gives.bind (P := (· = _)) (gives_pure rfl) ?_
    rintro _ rfl
    refine Gives.bind (P := fun _ => False) ?_ fun _ hno => hno.elim
    rw [expandNode]
    refine (gives_lift (gives_referenceCount false)).bind fun k hk => ?_
    obtain rfl : k = 1 := hk.resolve_right fun hhinted => absurd hhinted.1 (by simp [hhint])
    rw [expandCopies]
    exact (gives_expandSymbol_circle hcircle nesting generating next hnext _ _ _ _).bind
      fun _ hno => hno.elim

end Fuzzer

/-- A rule that refers to itself with brackets around its name. There is another rule under the name
with brackets, but a reference passes it by. -/
def Document.bracketed : Document :=
  ⟨"x", [("x", .ref "<<x>>"), ("<<x>>", .text "a")], []⟩

/-- **With brackets in a name expansion need not end**: there is a finite tree for each rule, and
yet no nesting is deep enough, for any budget and from any source. -/
theorem Document.unending_bracketed {g : Grammar} (h : bracketed.toGrammar = .ok g)
    (settings : FuzzSettings) :
    g.Productive ∧
      (∀ nesting budget, Attempt.Gives
        ((Fuzzer.mk g settings).expandSymbol nesting [] "x" none none budget false) Fuzzer.Unending
          fun _ => False) ∧
      Attempt.Gives (Fuzzer.mk g settings).fuzz Fuzzer.Unending fun _ => False := by
  have hrules : g.start = "x" ∧ (∀ name, g.generator? name = none) ∧
      (∀ name ∈ ["x", "<x>"], g.rule name = .ok (.reference 0 "<x>" none none)) ∧
      (g.settingsOf (.reference 0 "<x>" none none)).repeatReference = 0.0 := by
    obtain rfl := Except.ok.inj ((rfl : bracketed.toGrammar = .ok _).symm.trans h)
    refine ⟨rfl, fun _ => rfl, fun name hname => ?_, rfl⟩
    simp only [List.mem_cons, List.not_mem_nil, or_false] at hname
    rcases hname with rfl | rfl <;> rfl
  obtain ⟨hstart, hgenerators, hrule, hnever⟩ := hrules
  have hhint : Fuzzer.hinted ⟨g, settings⟩ (.reference 0 "<x>" none none) = false := by
    rw [Fuzzer.hinted, hnever]
    decide
  have hexpand := fun nesting budget =>
    Fuzzer.gives_expandSymbol_circle (f := ⟨g, settings⟩)
      (fun name (hname : name ∈ ["x", "<x>"]) => ⟨hgenerators name, 0, "<x>", none, none,
        hrule name hname, hhint, List.mem_cons_of_mem _ List.mem_cons_self⟩)
      nesting [] "x" List.mem_cons_self none none budget false
  refine ⟨(Draft.builds_of_build h).isProductive, hexpand, ?_⟩
  rw [Fuzzer.fuzz, Fuzzer.fuzzSymbol]
  dsimp only
  rw [hstart, show bareName "x" = "x" by decide, hrule "x" List.mem_cons_self]
  exact Attempt.Gives.bind (P := fun _ => True) (Attempt.gives_pure trivial) fun _ _ => hexpand _ _

end GrammarFuzzing
