import GrammarFuzzing.Proofs.Fuzz.Expansion
import GrammarFuzzing.Proofs.Grammar.Distance

/-!
# Random expansion keeps to its budget

Without hints and generators a symbol expands to a tree that is no larger than the budget, or no
larger than its distance when the budget is smaller than that
(`GrammarFuzzing.Fuzzer.thrifty_expandSymbol`). Distances being lower bounds, an expansion within a
small budget is a smallest tree (`GrammarFuzzing.Draft.fuzzSymbol_size`).

Every node keeps the same bound, `max budget distance`, and the proof goes node by node:

* a part of a sequence may use what is left without the distances of the parts that follow, so
  whatever it uses, the rest still has its distances;
* a repetition keeps such a reserve for the copies that must follow. The invariant of its loop
  (`GrammarFuzzing.Fuzzer.gives_size_expandRepeated`) is that as long as a copy fits, the reserve is
  the distance of exactly those copies; once none fits, the reserve is not asked for any more;
* a choice takes an option that fits or one of the nearest, and these have its own distance.

The same bound, which only shrinks from a symbol to the symbols in it, shows that expansion ends:
the nesting a symbol is given is at least its budget and its distance.
-/

namespace GrammarFuzzing

namespace Attempt

variable {ε α : Type} {fails fails' : ε → Prop} {P Q : α → Prop}

/-- Two properties of what an attempt gives. -/
theorem Gives.and {a : Attempt ε α} (hP : Gives a fails P) (hQ : Gives a fails' Q) :
    Gives a (fun e => fails e ∧ fails' e) fun x => P x ∧ Q x := by
  intro source
  have hp := hP source
  have hq := hQ source
  split
  · rename_i heq
    rw [heq] at hp hq
    exact ⟨hp, hq⟩
  · rename_i heq
    rw [heq] at hp hq
    exact ⟨hp, hq⟩

end Attempt

namespace Node

variable {x : String → Nat}

/-- An option at the distance of the nearest one. -/
theorem exists_distanceWith_eq_leastDistance : ∀ {ns : List Node}, ns ≠ [] →
    ∃ n ∈ ns, n.distanceWith x = leastDistance x ns
  | [], h => absurd rfl h
  | [n], _ =>
    ⟨n, List.mem_singleton_self n, (Nat.min_eq_left (distanceWith_le_unreachable x n)).symm⟩
  | n :: m :: ns, _ => by
    rw [leastDistance]
    rcases Nat.le_total (n.distanceWith x) (leastDistance x (m :: ns)) with hleft | hright
    · exact ⟨n, List.mem_cons_self, (Nat.min_eq_left hleft).symm⟩
    · rw [Nat.min_eq_right hright]
      obtain ⟨k, hk, heq⟩ := exists_distanceWith_eq_leastDistance (List.cons_ne_nil m ns)
      exact ⟨k, List.mem_cons_of_mem _ hk, heq⟩

theorem foldl_min_distances : ∀ (ns : List Node) {least : Nat}, least ≤ unreachable →
    (ns.map (distanceWith x)).foldl Nat.min least = Nat.min least (leastDistance x ns)
  | [], _, h => (Nat.min_eq_left h).symm
  | n :: ns, least, h => by
    rw [List.map_cons, List.foldl_cons, leastDistance,
      foldl_min_distances ns (Nat.le_trans (Nat.min_le_left _ _) h)]
    exact Nat.min_assoc ..

end Node

namespace Fuzzer

open Attempt

/-- The failures of what cannot fail. -/
def Never (_ : GrammarError) : Prop :=
  False

/-- **A budget and a distance that an expansion can keep to** which is nested so deeply. -/
structure Affordable (depth budget distance : Nat) : Prop where
  budget_le : budget ≤ unreachable
  budget_le_depth : budget ≤ depth
  distance_lt : distance < unreachable
  distance_le_depth : distance ≤ depth

/-! ### Loops -/

/-- **A repetition keeps to its budget.** `distance * (least - made)` is what the copies need that
must follow. -/
theorem gives_size_expandRepeated {expand : Nat → Attempt GrammarError (List Tree)}
    {depth distance least : Nat} (hleast : 0 < least → Affordable depth 0 distance)
    (h : ∀ budget, Affordable depth budget distance → Gives (expand budget) Never fun ts =>
      Tree.listSize ts ≤ max budget distance) :
    ∀ n made reserved remaining, remaining ≤ unreachable → remaining ≤ depth →
      (distance < remaining → reserved = distance * (least - made)) →
        Gives (expandRepeated expand distance least false n made reserved remaining) Never fun ts =>
          Tree.listSize ts ≤ max remaining (distance * (least - made))
  | 0, made, reserved, remaining, _, _, _ => by
    rw [expandRepeated]
    exact gives_pure (by simp)
  | n + 1, made, reserved, remaining, hremaining, hdepth, hreserved => by
    rw [expandRepeated]
    split
    · rename_i hfull
      split
      · exact gives_pure (by simp)
      · -- A copy that must follow gets no budget, and no further copy will fit.
        rename_i hmore
        have hmade : made < least := by simpa using hmore
        obtain ⟨k, hk⟩ : ∃ k, least - made = k + 1 := ⟨least - made - 1, by omega⟩
        have hk' : least - (made + 1) = k := by omega
        refine (h 0 (hleast (by omega))).bind fun ts hts => ?_
        have hrest := gives_size_expandRepeated hleast h n (made + 1) reserved
          (remaining - Tree.listSize ts) (by omega) (by omega) fun hfits => absurd hfits (by omega)
        refine hrest.bind fun us hus => gives_pure ?_
        rw [hk'] at hus
        rw [hk, Nat.mul_succ, Tree.listSize_append]
        omega
    · -- A copy gets what is not reserved for the copies that must follow it.
      rename_i hfits
      have hreserve := hreserved (by omega)
      have hnext : reserved - distance = distance * (least - (made + 1)) := by
        rw [hreserve, Nat.sub_add_eq, Nat.mul_sub_one]
      refine (h (remaining - (reserved - distance))
        ⟨by omega, by omega, by omega, by omega⟩).bind fun ts hts => ?_
      have hrest := gives_size_expandRepeated hleast h n (made + 1) (reserved - distance)
        (remaining - Tree.listSize ts) (by omega) (by omega) fun _ => hnext
      refine hrest.bind fun us hus => gives_pure ?_
      have henough : least - made = 0 ∨ distance ≤ reserved := by
        rcases Nat.eq_zero_or_pos (least - made) with hzero | hpos
        · exact Or.inl hzero
        · rw [hreserve]
          exact Or.inr (Nat.le_mul_of_pos_right _ hpos)
      rw [Tree.listSize_append, ← hreserve]
      rw [← hnext] at hus
      rcases henough with hzero | hle
      · rw [hzero, Nat.mul_zero] at hreserve
        omega
      · omega

/-! ### Options -/

variable {f : Fuzzer}

/-- The distance of an option by its index. -/
theorem getD_map_distance {options : List Node} {i : Nat} (hi : i < options.length) :
    (options.map f.grammar.distance).getD i 0 = f.grammar.distance options[i] := by
  rw [List.getD_eq_getElem?_getD, List.getElem?_map, List.getElem?_eq_getElem hi]
  rfl

/-- An index drawn among those that pass a test. -/
theorem gives_getD_filter {keep : Nat → Bool} {length : Nat} {P : Nat × Nat → Prop} {budget : Nat}
    (hne : (List.range length).filter keep ≠ [])
    (h : ∀ i, i < length → keep i = true → P (i, budget)) :
    Draw.Gives (do
      return (((List.range length).filter keep).getD
        (← Draw.below ((List.range length).filter keep).length) 0, budget)) P := by
  refine (Draw.gives_below (List.length_pos_iff.mpr hne)).bind fun i hi => Draw.gives_pure ?_
  rw [List.getD_eq_getElem?_getD, List.getElem?_eq_getElem hi]
  have hmem := List.mem_filter.mp (List.getElem_mem hi)
  exact h _ (List.mem_range.mp hmem.1) hmem.2

/-- **The option that is chosen** fits into the budget, or it is one of the nearest and gets
none. -/
theorem gives_chooseOption_near (id : Nat) {options : List Node} (hoptions : options ≠ [])
    (budget : Nat) :
    Draw.Gives (f.chooseOption options budget) fun choice =>
      ∃ n, options[choice.1]? = some n ∧ (f.grammar.distance n < budget ∧ choice.2 = budget ∨
        f.grammar.distance n ≤ f.grammar.distance (.choice id options) ∧ choice.2 = 0) := by
  rw [chooseOption]
  dsimp only
  split
  · have hnearest : (options.map f.grammar.distance).foldl Nat.min unreachable =
        f.grammar.distance (.choice id options) := by
      rw [Grammar.distance, Node.distanceWith]
      refine (Node.foldl_min_distances options (Nat.le_refl _)).trans ?_
      exact Nat.min_eq_right (Node.leastDistance_le_unreachable _ _)
    rw [hnearest]
    refine gives_getD_filter ?_ fun i hi hkeep => ?_
    · obtain ⟨n, hn, heq⟩ := Node.exists_distanceWith_eq_leastDistance hoptions
      obtain ⟨i, hi, rfl⟩ := List.getElem_of_mem hn
      refine List.ne_nil_of_mem (a := i) (List.mem_filter.mpr ⟨List.mem_range.mpr hi, ?_⟩)
      rw [decide_eq_true_iff, getD_map_distance hi, Grammar.distance, Grammar.distance, heq,
        Node.distanceWith]
    · rw [decide_eq_true_iff, getD_map_distance hi] at hkeep
      exact ⟨options[i], List.getElem?_eq_getElem hi, Or.inr ⟨hkeep, rfl⟩⟩
  · rename_i hfitting
    refine gives_getD_filter (by simpa using hfitting) fun i hi hkeep => ?_
    rw [decide_eq_true_iff, getD_map_distance hi] at hkeep
    exact ⟨options[i], List.getElem?_eq_getElem hi, Or.inl ⟨hkeep, rfl⟩⟩

theorem expandNth_eq {expand : SymbolExpansion} {inMessage hintFixed : Bool} {budget : Nat}
    {n : Node} : ∀ {options : List Node} {i : Nat}, options[i]? = some n →
      f.expandNth expand inMessage hintFixed budget options i =
        f.expandNode expand inMessage n budget hintFixed
  | [], _, h => absurd h (by simp)
  | m :: options, 0, h => by
    obtain rfl : m = n := by simpa using h
    rw [expandNth]
  | _ :: options, i + 1, h => by
    rw [expandNth]
    exact expandNth_eq (by simpa using h)

/-! ### Nodes -/

theorem Unhinted.hinted_eq_false (h : f.Unhinted) {n : Node} (hn : f.grammar.Occurs n) :
    f.hinted n = false := by
  obtain ⟨p, hp, hn⟩ := hn
  exact h p hp n hn

/-- **Symbols keep to their budget** in an expansion that is nested so deeply. -/
def Thrifty (f : Fuzzer) (depth : Nat) (expand : SymbolExpansion) : Prop :=
  ∀ name, f.grammar.rules.has name = true → distanceIn f.grammar.distances name < depth →
    ∀ budget, budget ≤ unreachable → budget ≤ depth → ∀ sender recipient inMessage,
      Gives (expand name sender recipient budget inMessage) Never fun t =>
        t.size ≤ max budget (distanceIn f.grammar.distances name + 1)

theorem distance_repetition {id min : Nat} {body : Node} {max : Option Nat} {form : RepetitionForm}
    (h : f.grammar.distance (.repetition id body min max form) < unreachable) :
    f.grammar.distance (.repetition id body min max form) = f.grammar.distance body * min := by
  rw [Grammar.distance, Node.distanceWith, ← Grammar.distance] at h ⊢
  split at h
  · rename_i hmin
    rw [if_pos hmin, hmin, Nat.mul_zero]
  · rename_i hmin
    rw [if_neg hmin]
    rw [satMul] at h ⊢
    omega

/-- A copy that must be made is affordable without a budget. -/
theorem Affordable.copy {depth budget id min : Nat} {body : Node} {max : Option Nat}
    {form : RepetitionForm}
    (h : Affordable depth budget (f.grammar.distance (.repetition id body min max form)))
    (hmin : 0 < min) : Affordable depth 0 (f.grammar.distance body) := by
  have hlt := h.distance_lt
  have hdepth := h.distance_le_depth
  have hdistance := distance_repetition h.distance_lt
  have hle : f.grammar.distance body ≤ f.grammar.distance body * min :=
    Nat.le_mul_of_pos_right _ hmin
  exact ⟨Nat.zero_le _, Nat.zero_le _, by omega, by omega⟩

/-- Without hints the count of a repetition is never forced. -/
theorem Unhinted.gives_repetitionCount (hhints : f.Unhinted) (hg : f.grammar.WellFormed)
    {id min : Nat} {body : Node} {max : Option Nat} {form : RepetitionForm}
    (hn : f.grammar.Occurs (.repetition id body min max form)) (hintFixed : Bool) :
    Draw.Gives (f.repetitionCount (f.grammar.settingsOf (.repetition id body min max form)) min max
      form hintFixed) fun count => count.2 = false := by
  have hbounds : ∀ m, max = some m → min ≤ m := fun m hm => (hg.bounds (hm ▸ hn)).2
  refine (Fuzzer.gives_repetitionCount hbounds hintFixed).mono fun count hcount => ?_
  by_contra hforced
  rw [Bool.not_eq_false] at hforced
  rw [if_pos hforced] at hcount
  exact absurd hcount.1 (by simp [hhints.hinted_eq_false hn])

/-- A part of a sequence gets at most what the later parts can spare. -/
theorem partBudget_le (part : Node) (later : List Node) (remaining : Nat) :
    f.partBudget part later remaining ≤
      remaining - Node.totalDistance (distanceIn f.grammar.distances) later := by
  rw [partBudget]
  split
  · exact Nat.zero_le _
  · exact Nat.le_refl _

section Nodes

variable {expand : SymbolExpansion} {depth : Nat} {inMessage : Bool}

mutual

/-- **A node keeps to its budget**, if symbols do. -/
theorem gives_size_expandNode (hg : f.grammar.WellFormed) (hhints : f.Unhinted)
    (hexpand : f.Thrifty depth expand) : ∀ {n : Node}, f.grammar.Occurs n → ∀ {budget},
      Affordable depth budget (f.grammar.distance n) → ∀ hintFixed,
        Gives (f.expandNode expand inMessage n budget hintFixed) Never fun ts =>
          Tree.listSize ts ≤ max budget (f.grammar.distance n)
  | .terminal id value, _, budget, _, _ => by
    rw [expandNode, Grammar.distance, Node.distanceWith]
    exact gives_pure (by simp [Tree.leaf, Tree.size])
  | .charset id chars, _, budget, _, _ => by
    rw [expandNode, Grammar.distance, Node.distanceWith]
    refine (gives_lift (Draw.gives_true _)).bind fun picked _ => ?_
    cases picked with
    | none => exact gives_pure (by simp)
    | some c => exact gives_pure (by simp [Tree.leaf, Tree.size])
  | .reference id name sender recipient, hn, budget, hafford, hintFixed => by
    have hlt := hafford.distance_lt
    have hdepth := hafford.distance_le_depth
    rw [Grammar.distance, Node.distanceWith, satAdd] at hlt hdepth ⊢
    rw [expandNode]
    refine (gives_lift (gives_referenceCount hintFixed)).bind fun k hk => ?_
    obtain rfl : k = 1 := hk.resolve_right fun hhint =>
      absurd hhint.1 (by simp [hhints.hinted_eq_false hn])
    refine (hexpand name (hg.has_reference hn) (by omega) budget hafford.budget_le
      hafford.budget_le_depth sender recipient inMessage).bind fun t ht => gives_pure ?_
    rw [Tree.listSize_cons, Tree.listSize_nil]
    omega
  | .sequence id parts, hn, budget, hafford, hintFixed => by
    rw [expandNode]
    have hparts : ∀ n ∈ parts, f.grammar.Occurs n := fun n h =>
      hn.of_mem_subnodes (Node.mem_subnodes_sequence h n.mem_subnodes_self)
    rw [Grammar.distance, Node.distanceWith] at hafford ⊢
    exact gives_size_expandParts hg hhints hexpand hparts hafford hintFixed
  | .choice id options, hn, budget, hafford, hintFixed => by
    rw [expandNode]
    have hoptions : ∀ n ∈ options, f.grammar.Occurs n := fun n h =>
      hn.of_mem_subnodes (Node.mem_subnodes_choice h n.mem_subnodes_self)
    refine (gives_lift (gives_chooseOption_near id (hg.choice_ne_nil hn) budget)).bind ?_
    rintro ⟨i, budget'⟩ ⟨n, hi, hnear⟩
    dsimp only at hi hnear ⊢
    have hle := hafford.budget_le
    have hdepth := hafford.budget_le_depth
    have hlt := hafford.distance_lt
    have hdepth' := hafford.distance_le_depth
    rw [expandNth_eq hi]
    -- An option that fits has a smaller distance than the budget, a nearest one has that of the
    -- choice.
    rcases hnear with ⟨hfits, rfl⟩ | ⟨hnear, rfl⟩
    · refine (gives_size_expandOption hg hhints hexpand hoptions n (List.mem_of_getElem? hi)
        ⟨hle, hdepth, by omega, by omega⟩ hintFixed).mono fun ts hts => ?_
      omega
    · refine (gives_size_expandOption hg hhints hexpand hoptions n (List.mem_of_getElem? hi)
        ⟨Nat.zero_le _, Nat.zero_le _, by omega, by omega⟩ hintFixed).mono fun ts hts => ?_
      omega
  | .repetition id body min max form, hn, budget, hafford, hintFixed => by
    rw [expandNode]
    have hbody := hn.of_mem_subnodes (Node.mem_subnodes_repetition body.mem_subnodes_self)
    have hdistance := distance_repetition hafford.distance_lt
    refine (gives_lift (hhints.gives_repetitionCount hg hn hintFixed)).bind ?_
    rintro ⟨copies, forced⟩ hforced
    obtain rfl : forced = false := hforced
    rw [hdistance]
    exact gives_size_expandRepeated hafford.copy
      (fun _ h => gives_size_expandNode hg hhints hexpand hbody h (hintFixed || false)) copies 0 _ _
      hafford.budget_le hafford.budget_le_depth fun _ => rfl

/-- Each option keeps to its budget. -/
theorem gives_size_expandOption (hg : f.grammar.WellFormed) (hhints : f.Unhinted)
    (hexpand : f.Thrifty depth expand) : ∀ {options : List Node},
      (∀ n ∈ options, f.grammar.Occurs n) → ∀ n ∈ options, ∀ {budget},
        Affordable depth budget (f.grammar.distance n) → ∀ hintFixed,
          Gives (f.expandNode expand inMessage n budget hintFixed) Never fun ts =>
            Tree.listSize ts ≤ max budget (f.grammar.distance n)
  | [], _, n, hn, _, _, _ => absurd hn List.not_mem_nil
  | m :: rest, hoptions, n, hn, budget, hafford, hintFixed => by
    rcases List.mem_cons.mp hn with hn | hn
    · rw [hn] at hafford ⊢
      exact gives_size_expandNode hg hhints hexpand (hoptions m List.mem_cons_self) hafford
        hintFixed
    · exact gives_size_expandOption hg hhints hexpand
        (fun k hk => hoptions k (List.mem_cons_of_mem _ hk)) n hn hafford hintFixed

/-- The parts of a sequence keep to a budget together. -/
theorem gives_size_expandParts (hg : f.grammar.WellFormed) (hhints : f.Unhinted)
    (hexpand : f.Thrifty depth expand) : ∀ {parts : List Node}, (∀ n ∈ parts, f.grammar.Occurs n) →
      ∀ {remaining}, Affordable depth remaining
        (Node.totalDistance (distanceIn f.grammar.distances) parts) → ∀ hintFixed,
          Gives (f.expandParts expand inMessage hintFixed parts remaining) Never fun ts =>
            Tree.listSize ts ≤
              max remaining (Node.totalDistance (distanceIn f.grammar.distances) parts)
  | [], _, remaining, _, _ => by
    rw [expandParts]
    exact gives_pure (by simp)
  | n :: rest, hparts, remaining, hafford, hintFixed => by
    have hle := hafford.budget_le
    have hdepth := hafford.budget_le_depth
    have hlt := hafford.distance_lt
    have hdepth' := hafford.distance_le_depth
    rw [Node.totalDistance, ← Grammar.distance, satAdd] at hlt hdepth' ⊢
    rw [expandParts]
    have hbudget := partBudget_le (f := f) n rest remaining
    refine (gives_size_expandNode hg hhints hexpand (hparts n List.mem_cons_self)
      ⟨by omega, by omega, by omega, by omega⟩ hintFixed).bind fun ts hts => ?_
    refine (gives_size_expandParts hg hhints hexpand
      (fun m hm => hparts m (List.mem_cons_of_mem _ hm))
      ⟨by omega, by omega, by omega, by omega⟩ hintFixed).bind fun us hus => gives_pure ?_
    rw [Tree.listSize_append]
    omega

end

end Nodes

/-! ### Symbols -/

/-- Without generators there is no generated tree. -/
theorem expandGenerator_of_generators_nil (h : f.grammar.generators = []) (expand : SymbolExpansion)
    (generating : List String) (name : String) (budget : Nat) :
    f.expandGenerator expand generating name budget = pure none := by
  rw [expandGenerator, Grammar.generator?, h, Dictionary.find?_nil]

/-- Without generators a symbol is expanded by its rule. -/
theorem expandSymbol_of_body? (hgenerators : f.grammar.generators = []) {name : String}
    {body : Node} (hbody : f.grammar.body? (bareName name) = some body) (depth : Nat)
    (generating : List String) (sender recipient : Option String) (budget : Nat)
    (inMessage : Bool) :
    f.expandSymbol (depth + 1) generating name sender recipient budget inMessage = do
      let sender := if inMessage then none else sender
      let recipient := if inMessage then none else recipient
      let children ← f.expandNode (f.expandSymbol depth generating)
        (inMessage || sender.isSome) body (budget - 1) false
      return ⟨.nonTerminal name, children, [], sender, recipient, false⟩ := by
  rw [expandSymbol]
  dsimp only
  rw [expandGenerator_of_generators_nil hgenerators, pure_bind]
  dsimp only
  rw [expandRule, Grammar.rule, hbody]
  rfl

/-- **A symbol keeps to its budget**, and its expansion ends if it may be nested as deeply as its
budget and its distance say. -/
theorem thrifty_expandSymbol (hg : f.grammar.WellFormed) (hbare : f.grammar.BareNames)
    (hproductive : f.grammar.Productive) (hgenerators : f.grammar.generators = [])
    (hhints : f.Unhinted) : ∀ depth generating, f.Thrifty depth (f.expandSymbol depth generating)
  | 0, _ => fun _ _ hdepth => absurd hdepth (Nat.not_lt_zero _)
  | depth + 1, generating => by
    intro name hname hdepth budget hbudget hbudget' sender recipient inMessage
    obtain ⟨hbarename, body, hbody⟩ := hbare.exists_body (Dictionary.has_iff_mem_keys.mp hname)
    have hbare_body : f.grammar.body? (bareName name) = some body := by rw [hbarename, hbody]
    rw [Grammar.distanceIn_of_body? hbody] at hdepth ⊢
    have hafford : Affordable depth (budget - 1) (f.grammar.distance body) :=
      ⟨by omega, by omega, hproductive name body hbody, by omega⟩
    rw [expandSymbol_of_body? hgenerators hbare_body]
    refine (gives_size_expandNode hg hhints (thrifty_expandSymbol hg hbare hproductive hgenerators
      hhints depth generating) (Grammar.occurs_of_body? hbody) hafford false).bind fun ts hts => ?_
    refine gives_pure ?_
    rw [Tree.size]
    omega

theorem le_foldl_max : ∀ (ns : List Nat) (most : Nat),
    most ≤ ns.foldl Nat.max most ∧ ∀ n ∈ ns, n ≤ ns.foldl Nat.max most
  | [], most => ⟨Nat.le_refl most, fun _ hn => absurd hn List.not_mem_nil⟩
  | m :: ns, most => by
    obtain ⟨hmost, hns⟩ := le_foldl_max ns (Nat.max most m)
    refine ⟨Nat.le_trans (Nat.le_max_left most m) hmost, fun n hn => ?_⟩
    rcases List.mem_cons.mp hn with rfl | hn
    · exact Nat.le_trans (Nat.le_max_right most n) hmost
    · exact hns n hn

/-- The distance of the farthest symbol. -/
def farthest (f : Fuzzer) : Nat :=
  f.grammar.distances.values.foldl Nat.max 0

theorem distanceIn_le_farthest {name : String} {body : Node}
    (hbody : f.grammar.body? name = some body) :
    distanceIn f.grammar.distances name ≤ f.farthest :=
  (le_foldl_max _ 0).2 _ (List.mem_map_of_mem (f := (·.2))
    (Dictionary.mem_of_find? (Grammar.find?_distances hbody)))

theorem le_depthBound (f : Fuzzer) (budget : Nat) :
    (budget + f.farthest + 2) * (f.grammar.generators.length + 1) + f.grammar.rules.length ≤
      f.depthBound budget :=
  Nat.add_le_add_left (Nat.le_add_right _ _) _

/-- The nesting that a symbol is given suffices for its budget and its distance. -/
theorem lt_depthBound {name : String} {body : Node} (hbody : f.grammar.body? name = some body)
    (budget : Nat) :
    distanceIn f.grammar.distances name < f.depthBound budget ∧ budget < f.depthBound budget := by
  have hfarthest := distanceIn_le_farthest hbody
  have hbound := f.le_depthBound budget
  have hmul : budget + f.farthest + 2 ≤
      (budget + f.farthest + 2) * (f.grammar.generators.length + 1) :=
    Nat.le_mul_of_pos_right _ (Nat.succ_pos _)
  omega

/-- **A random tree keeps to its budget**, and there always is one. -/
theorem gives_size_fuzzSymbol (hg : f.grammar.WellFormed) (hbare : f.grammar.BareNames)
    (hproductive : f.grammar.Productive) (hgenerators : f.grammar.generators = [])
    (hhints : f.Unhinted) {name : String} (hname : name ∈ f.grammar.rules.keys) {budget : Nat}
    (hbudget : budget ≤ unreachable) :
    Gives (f.fuzzSymbol name budget) Never fun t =>
      t.size ≤ max budget (distanceIn f.grammar.distances name + 1) := by
  obtain ⟨-, body, hbody⟩ := hbare.exists_body hname
  obtain ⟨hdistance, hdepth⟩ := lt_depthBound hbody budget
  rw [fuzzSymbol_eq hbare hname]
  exact thrifty_expandSymbol hg hbare hproductive hgenerators hhints _ [] name
    (Dictionary.has_iff_mem_keys.mpr hname) hdistance budget hbudget hdepth.le none none false

/-- **A random tree is a tree of its symbol**, valid and within its budget or the distance of the
symbol, which no valid tree falls short of. -/
theorem exists_gives_fuzzSymbol (hg : f.grammar.WellFormed) (hbare : f.grammar.BareNames)
    (hproductive : f.grammar.Productive) (hchars : f.grammar.NoEmptyCharset)
    (hgenerators : f.grammar.generators = []) (hhints : f.Unhinted) {name : String}
    (hname : name ∈ f.grammar.rules.keys) :
    ∃ least, f.grammar.symbolDistance name = .ok least ∧ 0 < least ∧
      (∀ t : Tree, t.symbol = .nonTerminal name → f.grammar.Valid t → least ≤ t.size) ∧
      ∀ budget, budget ≤ unreachable → Gives (f.fuzzSymbol name budget) Never fun t =>
        t.symbol = .nonTerminal name ∧ f.grammar.Valid t ∧ t.size ≤ max budget least := by
  obtain ⟨hbarename, body, hbody⟩ := hbare.exists_body hname
  have hlt := hproductive name body hbody
  refine ⟨f.grammar.distance body + 1, ?_, Nat.succ_pos _, fun t hsymbol hvalid => ?_,
    fun budget hbudget => ?_⟩
  · rw [Grammar.symbolDistance, Grammar.rule, hbarename, hbody]
    exact congrArg Except.ok (Nat.min_eq_left hlt)
  · have hle := hvalid.satAdd_le_size hsymbol
    rw [Grammar.distanceIn_of_body? hbody, satAdd] at hle
    omega
  · have hsize := gives_size_fuzzSymbol hg hbare hproductive hgenerators hhints hname hbudget
    have hderives := gives_fuzzSymbol hg hbare hchars hname budget
    rw [Grammar.distanceIn_of_body? hbody] at hsize
    refine ((hsize.and hderives).allow fun e h => h.1).mono ?_
    rintro t ⟨hle, hsymbol, hvalid⟩
    rw [hhints.widened_eq] at hvalid
    exact ⟨hsymbol, hvalid, hle⟩

end Fuzzer

/-- **A random tree has at most as many nodes as its budget or as the distance of its symbol**,
whichever is greater, and the distance is the number of nodes of a smallest valid tree. So a budget
that is at most the distance makes a smallest tree, of exactly that size. This is for a grammar
without generators in which nothing is hinted; a budget is a number of 64 bits, of which
`GrammarFuzzing.unreachable` is the greatest.

The names of the rules are to be bare. A rule with brackets in its name has a distance of its own,
but where it is referred to, the rule without the brackets is expanded. -/
theorem Draft.fuzzSymbol_size {d : Draft} (hd : d.Coherent) {g : Grammar} (h : d.build = .ok g)
    (hbare : g.BareNames) (hchars : g.NoEmptyCharset) (hgenerators : g.generators = [])
    (settings : FuzzSettings) (hhints : (Fuzzer.mk g settings).Unhinted) {s : String}
    (hs : s ∈ g.rules.keys) :
    ∃ least, g.symbolDistance s = .ok least ∧
      (∀ t : Tree, t.symbol = .nonTerminal s → g.validate t = .ok () → least ≤ t.size) ∧
      ∀ budget, budget ≤ unreachable → ∀ source,
        ∃ t, (((Fuzzer.mk g settings).fuzzSymbol s budget).run.run source).1 = .ok t ∧
          t.symbol = .nonTerminal s ∧ g.validate t = .ok () ∧ t.size ≤ max budget least ∧
          (budget ≤ least → t.size = least) := by
  have hg := hd.wellFormed h
  obtain ⟨least, hleast, -, hsmallest, hgives⟩ := Fuzzer.exists_gives_fuzzSymbol
    (f := ⟨g, settings⟩) hg hbare (builds_of_build h).isProductive hchars hgenerators hhints hs
  refine ⟨least, hleast, fun t hsymbol hvalid => ?_, fun budget hbudget source => ?_⟩
  · exact hsmallest t hsymbol (hg.validate_eq_ok.mp hvalid)
  · rcases (hgives budget hbudget).run source with ⟨t, ht, hsymbol, hvalid, hle⟩ | ⟨e, -, hno⟩
    · refine ⟨t, ht, hsymbol, hg.validate_eq_ok.mpr hvalid, hle, fun hsmall => ?_⟩
      have hleastle := hsmallest t hsymbol hvalid
      omega
    · exact hno.elim

/-- Nested sums of digits. -/
def Document.sums : Document :=
  ⟨"sum", [("digit", .chars "0123456789"), ("sum", .alt [.ref "digit",
    .seq [.text "(", .ref "sum", .text "+", .plus (.ref "sum"), .text ")"]])], []⟩

/-- Three nodes make a smallest sum, and a random sum within three nodes has three. -/
theorem Document.fuzzSymbol_sums :
    ∃ g t, sums.toGrammar = .ok g ∧ g.symbolDistance "sum" = .ok 3 ∧
      (((Fuzzer.mk g {}).fuzzSymbol "sum" 3).run.run (.ofSeed 28)).1 = .ok t ∧ t.size = 3 := by
  have h : sums.toGrammar = .ok _ := rfl
  have hbare : ∀ name ∈ ["digit", "sum"], bareName name = name := by decide
  obtain ⟨least, hleast, -, hfuzz⟩ := Draft.fuzzSymbol_size sums.coherent_toDraft h hbare
    (by decide) rfl {} (by decide) (s := "sum") (by decide)
  obtain rfl : 3 = least := Except.ok.inj hleast
  obtain ⟨t, ht, -, -, -, hsize⟩ := hfuzz 3 (by decide) (.ofSeed 28)
  exact ⟨_, t, h, rfl, ht, hsize (Nat.le_refl 3)⟩

end GrammarFuzzing
