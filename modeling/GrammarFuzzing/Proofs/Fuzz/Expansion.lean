import GrammarFuzzing.Proofs.Fuzz.Hints
import GrammarFuzzing.Proofs.Fuzz.Nesting
import GrammarFuzzing.Proofs.Parse.Search
import GrammarFuzzing.Proofs.Random.Draw

/-!
# What random expansion makes

Whatever is drawn, a node of a rule expands to children that the widened node stands for, each of
them valid in the widened grammar (`GrammarFuzzing.Fuzzer.gives_expandNode`), and a symbol expands
to a valid tree with the symbol at its root (`GrammarFuzzing.Fuzzer.gives_expandSymbol`). Budgets
steer which of the possible expansions is made, but never what is possible. The one place where a
budget cuts something off is a repetition (`GrammarFuzzing.Fuzzer.gives_expandRepeated`): it stops
early only when no hint fixed its count and there are enough copies already.

Generators do not matter either: a generated value is used only if it can be parsed, and what is
parsed is valid.
-/

namespace GrammarFuzzing

/-! ### Attempts -/

namespace Attempt

variable {ε α β : Type} {fails : ε → Prop} {P : α → Prop} {Q : β → Prop}

/-- **Whatever the source, an attempt gives a value with a property**, or it fails in one of the
permitted ways. -/
def Gives (a : Attempt ε α) (fails : ε → Prop) (P : α → Prop) : Prop :=
  Draw.Gives a.run fun result =>
    match result with
    | .ok x => P x
    | .error e => fails e

theorem gives_pure {x : α} (h : P x) : Gives (pure x : Attempt ε α) fails P :=
  fun _ => h

theorem gives_throw {e : ε} (h : fails e) : Gives (throw e : Attempt ε α) fails P :=
  fun _ => h

theorem gives_true (a : Attempt ε α) : Gives a (fun _ => True) fun _ => True := by
  intro source
  split <;> trivial

theorem gives_lift {d : Draw α} (hd : Draw.Gives d P) : Gives (Attempt.lift d) fails P :=
  fun source => hd source

/-- **One step before the rest.** -/
theorem Gives.bind {a : Attempt ε α} {next : α → Attempt ε β} (ha : Gives a fails P)
    (hnext : ∀ x, P x → Gives (next x) fails Q) : Gives (a >>= next) fails Q := by
  rw [Gives, ExceptT.run_bind]
  refine Draw.Gives.bind ha fun result hresult => ?_
  cases result with
  | ok x => exact hnext x hresult
  | error e => exact Draw.gives_pure hresult

/-- What an attempt comes to. -/
theorem Gives.run {a : Attempt ε α} (ha : Gives a fails P) (source : Source) :
    (∃ x, (a.run.run source).1 = .ok x ∧ P x) ∨ ∃ e, (a.run.run source).1 = .error e ∧ fails e := by
  have hresult := ha source
  cases hrun : (a.run.run source).1 with
  | ok x =>
    rw [hrun] at hresult
    exact Or.inl ⟨x, rfl, hresult⟩
  | error e =>
    rw [hrun] at hresult
    exact Or.inr ⟨e, rfl, hresult⟩

/-- What an attempt gave has the property. -/
theorem Gives.of_run_eq {a : Attempt ε α} (ha : Gives a fails P) {source source' : Source} {x : α}
    (h : a.run.run source = (.ok x, source')) : P x :=
  Draw.Gives.of_run_eq ha h

theorem Gives.mono {a : Attempt ε α} {P' : α → Prop} (ha : Gives a fails P)
    (h : ∀ x, P x → P' x) : Gives a fails P' := by
  refine Draw.Gives.mono ha fun result hresult => ?_
  cases result with
  | ok x => exact h x hresult
  | error e => exact hresult

/-- More ways to fail may be permitted. -/
theorem Gives.allow {a : Attempt ε α} {fails' : ε → Prop} (ha : Gives a fails P)
    (h : ∀ e, fails e → fails' e) : Gives a fails' P := by
  refine Draw.Gives.mono ha fun result hresult => ?_
  cases result with
  | ok x => exact hresult
  | error e => exact h e hresult

/-- In which way an attempt fails may be forgotten. -/
theorem Gives.forget {a : Attempt ε α} (ha : Gives a fails P) : Gives a (fun _ => True) P :=
  ha.allow fun _ _ => trivial

/-- What was made has the property, and every failure but one is caught. -/
theorem gives_settle {fails : GrammarError → Prop} {result : Except GrammarError α}
    (hok : ∀ x, result = .ok x → P x)
    (herror : ∀ name, result = .error (.unending name) → fails (.unending name)) :
    Gives (settle result) fails fun x? => ∀ x, x? = some x → P x := by
  cases result with
  | ok x => exact gives_pure fun y hy => hok y (congrArg _ (Option.some.inj hy))
  | error e =>
    cases e with
    | unending name => exact gives_throw (herror name rfl)
    | _ => exact gives_pure fun y hy => absurd hy (by simp)

/-- **An attempt that is caught** makes what the attempt makes, if it makes anything, and does not
end where the attempt does not. -/
theorem Gives.caught {fails : GrammarError → Prop} {a : Attempt GrammarError α}
    (ha : Gives a fails P) : Gives a.caught (fun e => fails e ∧ Fuzzer.Unending e) fun x? =>
      ∀ x, x? = some x → P x := by
  rw [Attempt.caught]
  refine Gives.bind (gives_lift ha) fun result hresult => gives_settle ?_ ?_
  · rintro x rfl
    exact hresult
  · rintro name rfl
    exact ⟨hresult, name, rfl⟩

/-- An attempt that does not end is not caught. -/
theorem Gives.caught_unending {a : Attempt GrammarError α}
    (ha : Gives a Fuzzer.Unending fun _ => False) :
    Gives a.caught Fuzzer.Unending fun _ => False := by
  intro source
  rw [run_caught]
  rcases hrun : a.run.run source with ⟨e | x, source'⟩
  · obtain ⟨name, rfl⟩ := Draw.Gives.of_run_eq ha hrun
    exact ⟨name, rfl⟩
  · exact (ha.of_run_eq hrun).elim

end Attempt

namespace Fuzzer

open Attempt

/-! ### Copies -/

section Copies

variable {fails : GrammarError → Prop}

/-- **Copies of a symbol** are as many trees as asked for. -/
theorem gives_expandCopies {expand : Nat → Attempt GrammarError Tree} {P : Tree → Prop}
    (h : ∀ budget, Gives (expand budget) fails P) : ∀ n budget,
      Gives (expandCopies expand n budget) fails
        (Node.Copies (fun ds => ∃ c, ds = [c] ∧ P c) n)
  | 0, _ => gives_pure rfl
  | n + 1, budget => by
    rw [expandCopies]
    refine (h budget).bind fun t ht => ?_
    refine (gives_expandCopies h n _).bind fun ts hts => gives_pure ?_
    exact ⟨[t], ts, rfl, ⟨t, rfl, ht⟩, hts⟩

/-- **Copies of a body** are as many as asked for, unless the count may be missed and there are
enough. -/
theorem gives_expandRepeated {expand : Nat → Attempt GrammarError (List Tree)}
    {P : List Tree → Prop} (h : ∀ budget, Gives (expand budget) fails P) {distance min : Nat}
    {forced : Bool} : ∀ n made reserved remaining,
      Gives (expandRepeated expand distance min forced n made reserved remaining) fails fun ts =>
        ∃ k ≤ n, Node.Copies P k ts ∧ (k = n ∨ forced = false ∧ min ≤ made + k)
  | 0, _, _, _ => gives_pure ⟨0, Nat.le_refl 0, rfl, Or.inl rfl⟩
  | n + 1, made, reserved, remaining => by
    have hmore : ∀ {ts us : List Tree}, P ts → (∃ k ≤ n, Node.Copies P k us ∧
        (k = n ∨ forced = false ∧ min ≤ made + 1 + k)) → ∃ k ≤ n + 1, Node.Copies P k (ts ++ us) ∧
          (k = n + 1 ∨ forced = false ∧ min ≤ made + k) := by
      rintro ts us hts ⟨k, hk, hus, hcount⟩
      refine ⟨k + 1, Nat.succ_le_succ hk, ⟨ts, us, rfl, hts, hus⟩, ?_⟩
      rcases hcount with rfl | ⟨hforced, hmin⟩
      · exact Or.inl rfl
      · exact Or.inr ⟨hforced, by omega⟩
    rw [expandRepeated]
    -- The loop stops here, or a copy is made, with or without a budget, and the rest follows.
    split
    · split
      · rename_i henough
        rw [Bool.and_eq_true, Bool.not_eq_true', decide_eq_true_iff] at henough
        exact gives_pure ⟨0, Nat.zero_le _, rfl, Or.inr henough⟩
      · refine (h 0).bind fun ts hts => ?_
        refine (gives_expandRepeated h n _ _ _).bind fun us hus => gives_pure (hmore hts hus)
    · refine (h _).bind fun ts hts => ?_
      exact (gives_expandRepeated h n _ _ _).bind fun us hus => gives_pure (hmore hts hus)

end Copies

/-! ### Counts and options -/

variable {f : Fuzzer}

theorem gives_fires (p : Float) : Draw.Gives (fires p) fun fired => fired = true → p > 0.0 := by
  rw [fires]
  split
  · exact (Draw.gives_true _).mono fun _ _ _ => ‹_›
  · exact Draw.gives_pure fun hno => absurd hno Bool.false_ne_true

/-- **The count of a repetition** is within its bounds, or a hint fixed it. -/
theorem gives_repetitionCount {id min : Nat} {body : Node} {max : Option Nat}
    {form : RepetitionForm} (hbounds : ∀ m, max = some m → min ≤ m) (hintFixed : Bool) :
    Draw.Gives (f.repetitionCount (f.grammar.settingsOf (.repetition id body min max form)) min max
      form hintFixed) fun count => if count.2 then
        f.hinted (.repetition id body min max form) = true ∧
          (form = .plus ∧ count.1 = 0 ∨ form = .optional ∧ count.1 ≤ f.mostHinted)
      else min ≤ count.1 ∧ ∀ m, max = some m → count.1 ≤ m := by
  have hle : min ≤ max.getD (Nat.max f.settings.maxRepetitions min) := by
    cases max with
    | none => exact Nat.le_max_right _ _
    | some m => exact hbounds m rfl
  -- Without a hint the count is drawn between the bounds, whatever the form.
  have hplain : Draw.Gives (do return (← Draw.between min
      (max.getD (Nat.max f.settings.maxRepetitions min)), false)) fun count : Nat × Bool =>
        if count.2 then f.hinted (.repetition id body min max form) = true ∧
          (form = .plus ∧ count.1 = 0 ∨ form = .optional ∧ count.1 ≤ f.mostHinted)
        else min ≤ count.1 ∧ ∀ m, max = some m → count.1 ≤ m := by
    refine (Draw.gives_between hle).bind fun n hn => Draw.gives_pure ⟨hn.1, fun m hm => ?_⟩
    rw [hm] at hn
    exact hn.2
  cases form with
  | star | bounded => exact hplain
  | plus =>
    rw [repetitionCount]
    split
    · refine (gives_fires _).bind fun fired hfired => ?_
      split
      · rename_i hfire
        exact Draw.gives_pure ⟨decide_eq_true (hfired hfire), Or.inl ⟨rfl, rfl⟩⟩
      · exact hplain
    · exact hplain
  | optional =>
    rw [repetitionCount]
    split
    · refine (gives_fires _).bind fun fired hfired => ?_
      split
      · rename_i hfire
        refine (Draw.gives_between f.two_le_mostHinted).bind fun n hn => Draw.gives_pure ?_
        exact ⟨decide_eq_true (hfired hfire), Or.inr ⟨rfl, hn.2⟩⟩
      · exact hplain
    · exact hplain

/-- A reference is expanded once, or a hint fixed how often. -/
theorem gives_referenceCount {id : Nat} {name : String} {sender recipient : Option String}
    (hintFixed : Bool) :
    Draw.Gives (f.referenceCount (f.grammar.settingsOf (.reference id name sender recipient))
      hintFixed) fun k => k = 1 ∨
        f.hinted (.reference id name sender recipient) = true ∧ k ≤ f.mostHinted := by
  rw [referenceCount]
  split
  · exact Draw.gives_pure (Or.inl rfl)
  · refine (gives_fires _).bind fun fired hfired => ?_
    split
    · rename_i hfire
      have hhint : f.hinted (.reference id name sender recipient) = true :=
        decide_eq_true (hfired hfire)
      refine (Draw.gives_true _).bind fun none _ => ?_
      split
      · exact Draw.gives_pure (Or.inr ⟨hhint, Nat.zero_le _⟩)
      · exact (Draw.gives_between f.two_le_mostHinted).mono fun k hk => Or.inr ⟨hhint, hk.2⟩
    · exact Draw.gives_pure (Or.inl rfl)

/-- The option that is chosen is one of the options. -/
theorem gives_chooseOption {options : List Node} (hoptions : options ≠ []) (budget : Nat) :
    Draw.Gives (f.chooseOption options budget) fun choice => choice.1 < options.length := by
  -- Both lists of candidates are lists of indices, and so is an index that stands for none.
  have hindex : ∀ (keep : Nat → Bool) (i : Nat),
      ((List.range options.length).filter keep).getD i 0 < options.length := by
    intro keep i
    rw [List.getD_eq_getElem?_getD]
    cases hi : ((List.range options.length).filter keep)[i]? with
    | none => exact List.length_pos_iff.mpr hoptions
    | some k =>
      exact List.mem_range.mp (List.mem_of_mem_filter (List.mem_of_getElem? hi))
  rw [chooseOption]
  split
  · exact (Draw.gives_true _).bind fun i _ => Draw.gives_pure (hindex _ i)
  · exact (Draw.gives_true _).bind fun i _ => Draw.gives_pure (hindex _ i)

/-! ### Nodes -/

/-- What a node may expand to: children that the widened node stands for, all of them valid. -/
def Expands (f : Fuzzer) (n : Node) (ts : List Tree) : Prop :=
  (f.widen n).Matches ts ∧ ∀ t ∈ ts, f.widened.Valid t

/-- What a symbol may expand to: a valid tree with the symbol at its root. -/
def Derives (f : Fuzzer) (name : String) (t : Tree) : Prop :=
  t.symbol = .nonTerminal name ∧ f.widened.Valid t

section Nodes

variable {fails : GrammarError → Prop} {expand : SymbolExpansion} {inMessage : Bool}

mutual

/-- **A node expands to what the widened node stands for**, if symbols expand to what they
derive. -/
theorem gives_expandNode (hg : f.grammar.WellFormed) (hchars : f.grammar.NoEmptyCharset)
    (hexpand : ∀ name, f.grammar.rules.has name = true → ∀ sender recipient budget,
      Gives (expand name sender recipient budget inMessage) fails (f.Derives name)) :
    ∀ {n : Node}, f.grammar.Occurs n → ∀ budget hintFixed,
      Gives (f.expandNode expand inMessage n budget hintFixed) fails (f.Expands n)
  | .terminal id value, _, _, _ => by
    rw [expandNode]
    refine gives_pure ⟨?_, fun t ht => ?_⟩
    · rw [widen, Node.Matches]
      exact ⟨_, rfl, by simp [Node.isLiteral, Tree.leaf]⟩
    · rw [List.mem_singleton.mp ht]
      exact Grammar.valid_leaf value
  | .charset id chars, hn, _, _ => by
    rw [expandNode]
    refine (gives_lift (Draw.gives_pick? (hchars.ne_nil hn))).bind fun picked hpicked => ?_
    obtain ⟨c, hc, rfl⟩ := hpicked
    refine gives_pure ⟨?_, fun t ht => ?_⟩
    · rw [widen, Node.Matches]
      exact ⟨_, rfl, by simp [Node.isOneOf, Tree.leaf, hc]⟩
    · rw [List.mem_singleton.mp ht]
      exact Grammar.valid_leaf _
  | .reference id name sender recipient, hn, budget, hintFixed => by
    rw [expandNode]
    refine (gives_lift (gives_referenceCount hintFixed)).bind fun k hk => ?_
    refine (gives_expandCopies (hexpand name (hg.has_reference hn) sender recipient) k _).mono ?_
    refine fun ts hts => ⟨matches_widen_reference hk (hts.mono ?_), hts.forall_mem ?_⟩
    · rintro ds ⟨c, rfl, hc, -⟩
      exact ⟨c, rfl, by simp [Node.isNamed, hc]⟩
    · rintro ds ⟨c, rfl, -, hc⟩ t ht
      rwa [List.mem_singleton.mp ht]
  | .sequence id parts, hn, budget, hintFixed => by
    rw [expandNode]
    have hparts : ∀ n ∈ parts, f.grammar.Occurs n := fun n h =>
      hn.of_mem_subnodes (Node.mem_subnodes_sequence h n.mem_subnodes_self)
    refine (gives_expandParts hg hchars hexpand hparts budget hintFixed).mono fun ts hts => ?_
    refine ⟨?_, hts.2⟩
    rw [widen, Node.Matches]
    exact hts.1
  | .choice id options, hn, budget, hintFixed => by
    rw [expandNode]
    have hoptions : ∀ n ∈ options, f.grammar.Occurs n := fun n h =>
      hn.of_mem_subnodes (Node.mem_subnodes_choice h n.mem_subnodes_self)
    refine (gives_lift (gives_chooseOption (hg.choice_ne_nil hn) budget)).bind fun choice hi => ?_
    refine (gives_expandNth hg hchars hexpand hoptions hi choice.2 hintFixed).mono fun ts hts => ?_
    refine ⟨?_, hts.2⟩
    rw [widen, Node.Matches]
    exact hts.1
  | .repetition id body min max form, hn, budget, hintFixed => by
    rw [expandNode]
    have hbody := hn.of_mem_subnodes (Node.mem_subnodes_repetition body.mem_subnodes_self)
    have hbounds : ∀ m, max = some m → min ≤ m := fun m hm => (hg.bounds (hm ▸ hn)).2
    refine (gives_lift (gives_repetitionCount hbounds hintFixed)).bind fun count hcount => ?_
    refine (gives_expandRepeated
      (fun budget => gives_expandNode hg hchars hexpand hbody budget (hintFixed || count.2))
      _ _ _ _).mono ?_
    rintro ts ⟨k, hk, hcopies, hstop⟩
    refine ⟨matches_widen_repetition (k := k) (hg.fitsForm hn) ?_
      (hcopies.mono fun ds hds => hds.1), hcopies.forall_mem fun ds hds => hds.2⟩
    split at hcount
    · -- The count was fixed by a hint, so the loop has not stopped early.
      rename_i hforced
      obtain rfl : k = count.1 := hstop.resolve_right fun h => absurd hforced (by simp [h.1])
      exact Or.inr hcount
    · obtain ⟨hmin, hmax⟩ := hcount
      refine Or.inl ⟨?_, fun m hm => Nat.le_trans hk (hmax m hm)⟩
      rcases hstop with rfl | ⟨-, henough⟩
      · exact hmin
      · omega

/-- The parts of a sequence expand one after the other. -/
theorem gives_expandParts (hg : f.grammar.WellFormed) (hchars : f.grammar.NoEmptyCharset)
    (hexpand : ∀ name, f.grammar.rules.has name = true → ∀ sender recipient budget,
      Gives (expand name sender recipient budget inMessage) fails (f.Derives name)) :
    ∀ {parts : List Node}, (∀ n ∈ parts, f.grammar.Occurs n) → ∀ budget hintFixed,
      Gives (f.expandParts expand inMessage hintFixed parts budget) fails fun ts =>
        Node.MatchesAll (f.listWiden parts) ts ∧ ∀ t ∈ ts, f.widened.Valid t
  | [], _, _, _ => by
    rw [expandParts]
    refine gives_pure ⟨?_, fun t ht => absurd ht List.not_mem_nil⟩
    rw [listWiden, Node.MatchesAll]
  | n :: rest, hparts, budget, hintFixed => by
    rw [expandParts]
    refine (gives_expandNode hg hchars hexpand (hparts n List.mem_cons_self) _ _).bind
      fun ts hts => ?_
    refine (gives_expandParts hg hchars hexpand
      (fun m hm => hparts m (List.mem_cons_of_mem _ hm)) _ _).bind fun us hus => gives_pure ?_
    refine ⟨?_, fun t ht => (List.mem_append.mp ht).elim (hts.2 t) (hus.2 t)⟩
    rw [listWiden]
    exact ⟨ts, us, rfl, hts.1, hus.1⟩

/-- The option at an index expands. -/
theorem gives_expandNth (hg : f.grammar.WellFormed) (hchars : f.grammar.NoEmptyCharset)
    (hexpand : ∀ name, f.grammar.rules.has name = true → ∀ sender recipient budget,
      Gives (expand name sender recipient budget inMessage) fails (f.Derives name)) :
    ∀ {options : List Node}, (∀ n ∈ options, f.grammar.Occurs n) → ∀ {i : Nat},
      i < options.length → ∀ budget hintFixed,
        Gives (f.expandNth expand inMessage hintFixed budget options i) fails fun ts =>
          Node.MatchesSome (f.listWiden options) ts ∧ ∀ t ∈ ts, f.widened.Valid t
  | [], _, _, hi, _, _ => absurd hi (Nat.not_lt_zero _)
  | n :: rest, hoptions, 0, _, budget, hintFixed => by
    rw [expandNth]
    refine (gives_expandNode hg hchars hexpand (hoptions n List.mem_cons_self) _ _).mono ?_
    rintro ts ⟨hmatch, hvalid⟩
    rw [listWiden]
    exact ⟨Or.inl hmatch, hvalid⟩
  | n :: rest, hoptions, i + 1, hi, budget, hintFixed => by
    rw [expandNth]
    refine (gives_expandNth hg hchars hexpand (fun m hm => hoptions m (List.mem_cons_of_mem _ hm))
      (Nat.lt_of_succ_lt_succ hi) _ _).mono ?_
    rintro ts ⟨hmatch, hvalid⟩
    rw [listWiden]
    exact ⟨Or.inr hmatch, hvalid⟩

end

end Nodes

/-! ### Properties of all trees of a node -/

section Members

variable {fails : GrammarError → Prop} {expand : SymbolExpansion} {inMessage : Bool}
  {P : Tree → Prop}

mutual

/-- **All trees of a node have a property** that the terminals of a leaf have, and the trees of a
reference. -/
theorem gives_mem_expandNode
    (hleaf : ∀ {l value}, f.grammar.Occurs l → l.Admits (Tree.leaf value) → P (Tree.leaf value))
    (hexpand : ∀ {id name sender recipient},
      f.grammar.Occurs (.reference id name sender recipient) → ∀ budget,
        Gives (expand name sender recipient budget inMessage) fails P) :
    ∀ {n : Node}, f.grammar.Occurs n → ∀ budget hintFixed,
      Gives (f.expandNode expand inMessage n budget hintFixed) fails fun ts => ∀ t ∈ ts, P t
  | .terminal id value, hn, _, _ => by
    rw [expandNode]
    refine gives_pure (List.forall_mem_singleton.mpr (hleaf hn ?_))
    simp [Node.Admits, Node.isLiteral, Tree.leaf]
  | .charset id chars, hn, _, _ => by
    rw [expandNode]
    by_cases hchars : chars = []
    · subst hchars
      exact gives_pure fun t ht => absurd ht List.not_mem_nil
    · refine (gives_lift (Draw.gives_pick? hchars)).bind fun picked hpicked => ?_
      obtain ⟨c, hc, rfl⟩ := hpicked
      refine gives_pure (List.forall_mem_singleton.mpr (hleaf hn ?_))
      simp [Node.Admits, Node.isOneOf, Tree.leaf, hc]
  | .reference id name sender recipient, hn, budget, hintFixed => by
    rw [expandNode]
    refine (gives_lift (Draw.gives_true _)).bind fun k _ => ?_
    refine (gives_expandCopies (hexpand hn) k budget).mono fun ts hts => hts.forall_mem ?_
    rintro ds ⟨c, rfl, hc⟩
    exact List.forall_mem_singleton.mpr hc
  | .sequence id parts, hn, budget, hintFixed => by
    rw [expandNode]
    exact gives_mem_expandParts hleaf hexpand (fun n h =>
      hn.of_mem_subnodes (Node.mem_subnodes_sequence h n.mem_subnodes_self)) budget hintFixed
  | .choice id options, hn, budget, hintFixed => by
    rw [expandNode]
    refine (gives_lift (Draw.gives_true _)).bind fun choice _ => ?_
    exact gives_mem_expandNth hleaf hexpand (fun n h =>
      hn.of_mem_subnodes (Node.mem_subnodes_choice h n.mem_subnodes_self)) choice.1 _ hintFixed
  | .repetition id body min max form, hn, budget, hintFixed => by
    rw [expandNode]
    have hbody := hn.of_mem_subnodes (Node.mem_subnodes_repetition body.mem_subnodes_self)
    refine (gives_lift (Draw.gives_true _)).bind fun count _ => ?_
    refine (gives_expandRepeated (fun budget =>
      gives_mem_expandNode hleaf hexpand hbody budget (hintFixed || count.2)) _ _ _ _).mono ?_
    rintro ts ⟨k, -, hcopies, -⟩
    exact hcopies.forall_mem fun ds hds => hds

/-- All trees of consecutive parts have it. -/
theorem gives_mem_expandParts
    (hleaf : ∀ {l value}, f.grammar.Occurs l → l.Admits (Tree.leaf value) → P (Tree.leaf value))
    (hexpand : ∀ {id name sender recipient},
      f.grammar.Occurs (.reference id name sender recipient) → ∀ budget,
        Gives (expand name sender recipient budget inMessage) fails P) :
    ∀ {parts : List Node}, (∀ n ∈ parts, f.grammar.Occurs n) → ∀ budget hintFixed,
      Gives (f.expandParts expand inMessage hintFixed parts budget) fails fun ts => ∀ t ∈ ts, P t
  | [], _, _, _ => by
    rw [expandParts]
    exact gives_pure fun t ht => absurd ht List.not_mem_nil
  | n :: rest, hparts, budget, hintFixed => by
    obtain ⟨hn, hrest⟩ := List.forall_mem_cons.mp hparts
    rw [expandParts]
    refine (gives_mem_expandNode hleaf hexpand hn _ _).bind fun ts hts => ?_
    refine (gives_mem_expandParts hleaf hexpand hrest _ _).bind fun us hus => ?_
    exact gives_pure (List.forall_mem_append.mpr ⟨hts, hus⟩)

/-- All trees of the option that was chosen have it. -/
theorem gives_mem_expandNth
    (hleaf : ∀ {l value}, f.grammar.Occurs l → l.Admits (Tree.leaf value) → P (Tree.leaf value))
    (hexpand : ∀ {id name sender recipient},
      f.grammar.Occurs (.reference id name sender recipient) → ∀ budget,
        Gives (expand name sender recipient budget inMessage) fails P) :
    ∀ {options : List Node}, (∀ n ∈ options, f.grammar.Occurs n) → ∀ i budget hintFixed,
      Gives (f.expandNth expand inMessage hintFixed budget options i) fails fun ts => ∀ t ∈ ts, P t
  | [], _, _, _, _ => by
    rw [expandNth]
    exact gives_pure fun t ht => absurd ht List.not_mem_nil
  | n :: rest, hoptions, 0, budget, hintFixed => by
    rw [expandNth]
    exact gives_mem_expandNode hleaf hexpand (hoptions n List.mem_cons_self) budget hintFixed
  | n :: rest, hoptions, i + 1, budget, hintFixed => by
    rw [expandNth]
    exact gives_mem_expandNth hleaf hexpand
      (fun m hm => hoptions m (List.mem_cons_of_mem _ hm)) i budget hintFixed

end

end Members

section Fuzzed

variable {P : Tree → Prop} {S : Option String → Prop}
  (href : ∀ {id name sender recipient}, f.grammar.Occurs (.reference id name sender recipient) →
    S sender)
  (hleaf : ∀ value, P (Tree.leaf value))
  (hnode : ∀ {name sender recipient cs}, S sender → (∀ c ∈ cs, P c) →
    P ⟨.nonTerminal name, cs, [], sender, recipient, false⟩)
  (hgenerator : ∀ expand generating name budget sender recipient, S sender →
    Gives (f.expandGenerator expand generating name budget) (fun _ => True) fun generated =>
      ∀ t, generated = some t → P (t.withParty sender recipient))
  (hnone : S none)
include href hleaf hnode hgenerator hnone

/-- **What holds of terminals and of generated trees, and is handed up by nodes, holds of every tree
that a symbol expands to.** A node has the sender that some reference names, or none. -/
theorem gives_expandSymbol_of : ∀ depth generating name sender recipient budget inMessage,
    S sender → Gives (f.expandSymbol depth generating name sender recipient budget inMessage)
      (fun _ => True) P
  | 0, _, _, _, _, _, _, _ => by
    rw [expandSymbol]
    exact gives_throw trivial
  | depth + 1, generating, name, sender, recipient, budget, inMessage, hsender => by
    rw [expandSymbol]
    dsimp only
    generalize hgiven : (if inMessage then none else sender) = given
    have hgiven : S given := by
      rw [← hgiven]
      split
      · exact hnone
      · exact hsender
    refine (hgenerator _ _ _ _ given (if inMessage then none else recipient) hgiven).bind
      fun generated hgenerated => ?_
    split
    · rename_i t
      exact gives_pure (hgenerated t rfl)
    · rw [expandRule]
      cases hbody : f.grammar.body? (bareName name) with
      | none =>
        rw [Grammar.rule, hbody]
        exact gives_throw trivial
      | some body =>
        rw [Grammar.rule, hbody]
        refine (gives_mem_expandNode (P := P) (fun _ _ => hleaf _) ?_
          (Grammar.occurs_of_body? hbody) _ _).bind fun ts hts => gives_pure (hnode hgiven hts)
        exact fun hn budget =>
          gives_expandSymbol_of depth generating _ _ _ budget _ (href hn)

/-- What holds of terminals and of generated trees, and is handed up by nodes, holds of every tree
that is fuzzed. -/
theorem gives_fuzzSymbol_of (name : String) (budget : Nat) :
    Gives (f.fuzzSymbol name budget) (fun _ => True) P := by
  rw [fuzzSymbol]
  refine (gives_true _).bind fun _ _ => ?_
  exact gives_expandSymbol_of href hleaf hnode hgenerator hnone _ _ _ _ _ _ _ hnone

end Fuzzed

/-! ### Symbols -/

/-- The dependencies of a generator expand one by one. -/
theorem gives_expandDependencies {fails : GrammarError → Prop} {expand : SymbolExpansion}
    {P : String → Tree → Prop} {budget : Nat} : ∀ {names : List String},
      (∀ name ∈ names, Gives (expand name none none budget true) fails (P name)) →
        Gives (expandDependencies expand budget names) fails (List.Forall₂ P names)
  | [], _ => gives_pure .nil
  | name :: rest, h => by
    rw [expandDependencies]
    refine (h name List.mem_cons_self).bind fun t ht => ?_
    refine (gives_expandDependencies fun n hn => h n (List.mem_cons_of_mem _ hn)).bind ?_
    exact fun ts hts => gives_pure (.cons ht hts)

/-- **A generated tree derives from its symbol**, since it was parsed. -/
theorem derives_of_generatedTree? (hg : f.grammar.WellFormed) (hbare : f.grammar.BareNames)
    {name : String} (hname : name ∈ f.grammar.rules.keys) {params : List Tree}
    {value : Option Bytes} {t : Tree} (h : f.generatedTree? name params value = some t) :
    f.Derives name t := by
  cases value with
  | none => exact absurd h (by simp [generatedTree?])
  | some value =>
    rw [generatedTree?] at h
    split at h
    · rename_i u hparse
      obtain ⟨hsymbol, hvalid, -⟩ := hg.parse_sound hbare hname hparse
      obtain rfl := Option.some.inj h
      refine ⟨(Tree.symbol_asReadOnly u).trans hsymbol, ?_⟩
      exact Grammar.valid_withSources.mpr (Grammar.valid_asReadOnly u (valid_widened hg hvalid))
    · exact absurd h (by simp)

/-- A symbol with a bare name is fuzzed as it is expanded. -/
theorem fuzzSymbol_eq (hbare : f.grammar.BareNames) {name : String}
    (hname : name ∈ f.grammar.rules.keys) (budget : Nat) :
    f.fuzzSymbol name budget =
      f.expandSymbol (f.depthBound budget) [] name none none budget false := by
  obtain ⟨hbarename, body, hbody⟩ := hbare.exists_body hname
  rw [fuzzSymbol, hbarename, Grammar.rule, hbarename, hbody]
  rfl

theorem Derives.withParty {name : String} {t : Tree} (h : f.Derives name t)
    (sender recipient : Option String) : f.Derives name (t.withParty sender recipient) :=
  ⟨h.1, Grammar.valid_withParty.mpr h.2⟩

section Symbols

variable (hg : f.grammar.WellFormed) (hbare : f.grammar.BareNames)
include hg hbare

/-- What the generator of a symbol gives derives from the symbol, whatever its dependencies are. -/
theorem gives_expandGenerator {fails : GrammarError → Prop} {expand : SymbolExpansion}
    (hexpand : ∀ name, f.grammar.rules.has name = true → ∀ budget,
      Gives (expand name none none budget true) fails fun _ => True) (generating : List String)
    {name : String} (hname : name ∈ f.grammar.rules.keys) (budget : Nat) :
    Gives (f.expandGenerator expand generating name budget) fails fun generated =>
      ∀ t, generated = some t → f.Derives name t := by
  rw [expandGenerator]
  split
  · rename_i generator hgenerator
    split
    · exact gives_pure fun t ht => absurd ht (by simp)
    · have hparams := gives_expandDependencies (P := fun _ _ => True) fun dependency hdependency =>
        hexpand dependency (hg.has_dependency hgenerator dependency hdependency) budget
      refine (hparams.caught.allow fun _ he => he.1).bind fun params _ => ?_
      cases params with
      | none => exact gives_pure fun t ht => absurd ht (by simp)
      | some params =>
        exact (gives_lift (Draw.gives_true _)).bind fun value _ => gives_pure fun t ht =>
          derives_of_generatedTree? hg hbare hname ht
  · exact gives_pure fun t ht => absurd ht (by simp)

/-- **A symbol over an expansion of its rule derives from the symbol.** -/
theorem gives_expandRule (hchars : f.grammar.NoEmptyCharset) {fails : GrammarError → Prop}
    {expand : SymbolExpansion} (hexpand : ∀ name, f.grammar.rules.has name = true →
      ∀ sender recipient budget inMessage,
        Gives (expand name sender recipient budget inMessage) fails (f.Derives name))
    {name : String} (hname : name ∈ f.grammar.rules.keys) (sender recipient : Option String)
    (budget : Nat) (inMessage : Bool) :
    Gives (f.expandRule expand name sender recipient budget inMessage) fails (f.Derives name) := by
  obtain ⟨hbarename, body, hbody⟩ := hbare.exists_body hname
  have hrule : f.grammar.rule name = .ok body := by rw [Grammar.rule, hbarename, hbody]
  rw [expandRule, hrule]
  refine Gives.bind (gives_pure rfl : Gives (pure body) fails (· = body)) fun n hn => ?_
  obtain rfl := hn
  refine (gives_expandNode hg hchars (fun name hname sender recipient budget =>
    hexpand name hname sender recipient budget _) (Grammar.occurs_of_body? hbody) _ _).bind ?_
  intro ts hts
  refine gives_pure ⟨rfl, (Grammar.valid_nonTerminal rfl).mpr ⟨⟨f.widen n, ?_, hts.1⟩, hts.2⟩⟩
  rw [body?_widened, hbody, Option.map_some]

/-- **A symbol expands to what it derives**, at every nesting, or the nesting is not enough. -/
theorem gives_expandSymbol (hchars : f.grammar.NoEmptyCharset) :
    ∀ (depth : Nat) (generating : List String) (name : String),
      f.grammar.rules.has name = true → ∀ sender recipient budget inMessage,
        Gives (f.expandSymbol depth generating name sender recipient budget inMessage) Unending
          (f.Derives name)
  | 0, _, name, _, _, _, _, _ => by
    rw [expandSymbol]
    exact gives_throw ⟨name, rfl⟩
  | depth + 1, generating, name, hhas, sender, recipient, budget, inMessage => by
    have hname : name ∈ f.grammar.rules.keys := Dictionary.has_iff_mem_keys.mp hhas
    have ih := gives_expandSymbol hchars depth
    rw [expandSymbol]
    refine (gives_expandGenerator hg hbare (fun dependency hdependency budget =>
      (ih _ dependency hdependency none none budget true).mono fun _ _ => trivial)
      generating hname budget).bind ?_
    intro generated hgenerated
    split
    · rename_i t
      exact gives_pure ((hgenerated t rfl).withParty _ _)
    · exact gives_expandRule hg hbare hchars (ih generating) hname _ _ _ _

/-- **A symbol is fuzzed to what it derives**, within every budget. -/
theorem gives_fuzzSymbol (hchars : f.grammar.NoEmptyCharset) {name : String}
    (hname : name ∈ f.grammar.rules.keys) (budget : Nat) :
    Gives (f.fuzzSymbol name budget) Unending (f.Derives name) := by
  rw [fuzzSymbol_eq hbare hname]
  exact gives_expandSymbol hg hbare hchars _ _ _ (Dictionary.has_iff_mem_keys.mpr hname) _ _ _ _

/-- **A fuzzed tree has the symbol at its root**, whatever the grammar allows below it. -/
theorem gives_symbol_fuzzSymbol {name : String} (hname : name ∈ f.grammar.rules.keys)
    (budget : Nat) : Gives (f.fuzzSymbol name budget) (fun _ => True) fun t =>
      t.symbol = .nonTerminal name := by
  rw [fuzzSymbol_eq hbare hname]
  cases f.depthBound budget with
  | zero =>
    rw [expandSymbol]
    exact gives_throw trivial
  | succ depth =>
    rw [expandSymbol]
    refine (gives_expandGenerator hg hbare (fun _ _ _ => gives_true _) _ hname budget).bind ?_
    intro generated hgenerated
    split
    · rename_i t
      exact gives_pure (hgenerated t rfl).1
    · rw [expandRule]
      exact (gives_true _).bind fun body _ => (gives_true _).bind fun cs _ => gives_pure rfl

end Symbols

end Fuzzer

/-! ### Fuzzed trees -/

/-- **Fuzzed trees derive from the grammar**, whatever generators and hints it has. From every
source and within every budget, fuzzing a symbol makes a tree with the symbol at its root that is
valid in the widened grammar, unless symbols have to be nested more deeply than they may. The same
holds of the expansion of the symbol within every nesting, and deeper nesting does not change the
tree; so it holds of every expansion that comes to an end. With no hint the widened grammar is the
grammar. -/
theorem Document.fuzzSymbol_derives {doc : Document} {generators : Dictionary String Generator}
    {g : Grammar} (h : { doc.toDraft with generators := generators }.build = .ok g)
    (hbare : g.BareNames) (hchars : g.NoEmptyCharset) {s : String} (hs : s ∈ g.rules.keys)
    (settings : FuzzSettings) :
    let f : Fuzzer := ⟨g, settings⟩
    (∀ budget source,
      (∃ t, ((f.fuzzSymbol s budget).run.run source).1 = .ok t ∧
        t.symbol = .nonTerminal s ∧ f.widened.validate t = .ok ()) ∨
      ∃ name, ((f.fuzzSymbol s budget).run.run source).1 = .error (.unending name)) ∧
    (∀ depth budget source,
      (∃ t, ((f.expandSymbol depth [] s none none budget false).run.run source).1 = .ok t ∧
        t.symbol = .nonTerminal s ∧ f.widened.validate t = .ok () ∧
        ∀ more, ((f.expandSymbol (depth + more) [] s none none budget false).run.run source).1 =
          .ok t) ∨
      ∃ name, ((f.expandSymbol depth [] s none none budget false).run.run source).1 =
        .error (.unending name)) ∧
    (f.Unhinted → f.widened = g) := by
  intro f
  have hg : f.grammar.WellFormed := wellFormed_of_build h
  have hcases : ∀ {a : Attempt GrammarError Tree},
      Attempt.Gives a Fuzzer.Unending (f.Derives s) → ∀ source,
        (∃ t, (a.run.run source).1 = .ok t ∧ t.symbol = .nonTerminal s ∧
          f.widened.validate t = .ok ()) ∨
        ∃ name, (a.run.run source).1 = .error (.unending name) := by
    intro a ha source
    rcases ha.run source with ⟨t, ht, hsymbol, hvalid⟩ | ⟨e, he, name, rfl⟩
    · exact Or.inl ⟨t, ht, hsymbol, (Fuzzer.bounded_widened hg).validate_eq_ok.mpr hvalid⟩
    · exact Or.inr ⟨name, he⟩
  refine ⟨fun budget => hcases ?_, fun depth budget source => ?_, fun h => h.widened_eq⟩
  · exact Fuzzer.gives_fuzzSymbol hg hbare hchars hs budget
  · have hgives := Fuzzer.gives_expandSymbol hg hbare hchars depth [] s
      (Dictionary.has_iff_mem_keys.mpr hs) none none budget false
    refine (hcases hgives source).imp_left ?_
    rintro ⟨t, ht, hsymbol, hvalid⟩
    refine ⟨t, ht, hsymbol, hvalid, fun more => ?_⟩
    exact (Fuzzer.extends_expandSymbol_add depth more [] s none none budget false).ok ht

/-- Binary numbers: at least one digit. -/
def Document.binaryNumbers (settings : List GrammarSetting) : Document :=
  ⟨"number", [("digit", .chars "01"), ("number", .plus (.ref "digit"))], settings⟩

/-- A generator of digits that always fails. -/
def Generator.failing : Dictionary String Generator :=
  [("digit", ⟨[], fun _ => return none⟩)]

/-- Without settings the source of zeros makes a number that is valid in the grammar. With a hint
that leaves every `+` without copies it makes one without digits, which is valid in the widened
grammar. -/
theorem Document.fuzzSymbol_binaryNumbers :
    (∃ g t, { (binaryNumbers []).toDraft with generators := Generator.failing }.build = .ok g ∧
      (((Fuzzer.mk g {}).fuzzSymbol "number" 10).run.run (.ofWords [])).1 = .ok t ∧
        g.validate t = .ok ()) ∧
    ∃ g t, { (binaryNumbers [⟨.kind .plus, { emptyPlus := some 1.0 }⟩]).toDraft with
        generators := Generator.failing }.build = .ok g ∧
      (((Fuzzer.mk g {}).fuzzSymbol "number" 10).run.run (.ofWords [])).1 = .ok t ∧
        t.children = [] ∧ (Fuzzer.mk g {}).widened.validate t = .ok () := by
  have hbare : ∀ name ∈ ["digit", "number"], bareName name = name := by decide
  have hs : "number" ∈ ["digit", "number"] := by decide
  constructor
  · have h : { (binaryNumbers []).toDraft with generators := Generator.failing }.build = .ok _ :=
      rfl
    have hfuzz := fuzzSymbol_derives h hbare (by decide) hs {}
    refine ⟨_, _, h, rfl, ?_⟩
    rcases hfuzz.1 10 (.ofWords []) with ⟨t, ht, -, hvalid⟩ | ⟨name, hno⟩
    · rw [hfuzz.2.2 (by decide)] at hvalid
      obtain rfl := Except.ok.inj ht
      exact hvalid
    · exact nomatch (show Except.ok _ = Except.error _ from hno)
  · have h : { (binaryNumbers [⟨.kind .plus, { emptyPlus := some 1.0 }⟩]).toDraft with
        generators := Generator.failing }.build = .ok _ := rfl
    have hfuzz := fuzzSymbol_derives h hbare (by decide) hs {}
    refine ⟨_, _, h, rfl, rfl, ?_⟩
    rcases hfuzz.1 10 (.ofWords []) with ⟨t, ht, -, hvalid⟩ | ⟨name, hno⟩
    · obtain rfl := Except.ok.inj ht
      exact hvalid
    · exact nomatch (show Except.ok _ = Except.error _ from hno)

end GrammarFuzzing
