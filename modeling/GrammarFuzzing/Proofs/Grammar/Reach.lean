import GrammarFuzzing.Grammar.Reach
import GrammarFuzzing.Proofs.Grammar.Outermost
import Mathlib.Data.List.Nodup
import Mathlib.Logic.Relation

/-!
# What occurs below a symbol

One symbol **refers** to another if its rule does (`GrammarFuzzing.Grammar.Refers`). The names that
`GrammarFuzzing.Grammar.reachable` finds are those that can be reached by one reference or more
(`GrammarFuzzing.Grammar.mem_reachable_iff`). They are found round by round, with
`GrammarFuzzing.Grammar.Reaching` as the invariant: each round takes away one body that is pending
and adds those of the names that are new. Since no name is new twice, the search ends by itself,
with nothing pending (`GrammarFuzzing.Grammar.Searches`), within as many rounds as there are rules
and one more, however the rules refer to each other
(`GrammarFuzzing.Grammar.Reaching.exists_found`).

In a valid tree every step down to a non-terminal follows a reference, so what occurs below a symbol
is reachable from it (`GrammarFuzzing.Grammar.Valid.transGen_refers`). A symbol that is not
reachable from itself therefore occurs at places of which none is above another
(`GrammarFuzzing.Grammar.Valid.apart`).
-/

namespace GrammarFuzzing

theorem nodup_eraseDups {α : Type} [BEq α] [LawfulBEq α] : ∀ xs : List α, xs.eraseDups.Nodup
  | [] => List.nodup_nil
  | x :: xs => by
    rw [List.eraseDups_cons, List.nodup_cons, List.mem_eraseDups, List.mem_filter]
    exact ⟨by simp, nodup_eraseDups _⟩
termination_by xs => xs.length
decreasing_by exact Nat.lt_succ_of_le (List.length_filter_le ..)

namespace Grammar

open Node Relation

variable {g : Grammar}

/-! ### Reachable names -/

/-- The names that the rule of a name refers to. -/
def referencesOf (g : Grammar) (name : String) : List String :=
  ((g.body? name).map Node.references).getD []

/-- **The rule of a name refers to another name.** -/
def Refers (g : Grammar) (a b : String) : Prop :=
  b ∈ g.referencesOf a

theorem refers_iff {a b : String} : g.Refers a b ↔
    ∃ body, g.body? a = some body ∧ ∃ id sender recipient,
      .reference id b sender recipient ∈ body.leaves := by
  rw [Refers, referencesOf]
  cases g.body? a with
  | none => simp
  | some body =>
    rw [Option.map_some, Option.getD_some, references, List.mem_filterMap]
    constructor
    · rintro ⟨l, hl, hname⟩
      cases l with
      | reference id name sender recipient =>
        obtain rfl := Option.some.inj hname
        exact ⟨body, rfl, id, sender, recipient, hl⟩
      | _ => exact absurd hname (by simp)
    · rintro ⟨body', hbody, id, sender, recipient, hl⟩
      obtain rfl := Option.some.inj hbody
      exact ⟨_, hl, rfl⟩

/-- What is referred to has a rule. -/
theorem Refers.mem_keys (hg : g.WellFormed) {a b : String} (h : g.Refers a b) :
    b ∈ g.rules.keys := by
  obtain ⟨body, hbody, id, sender, recipient, hl⟩ := refers_iff.mp h
  exact Dictionary.has_iff_mem_keys.mp (hg.has_reference
    ((occurs_of_body? hbody).of_mem_subnodes (mem_subnodes_of_mem_leaves hl)))

/-- What the body of a rule refers to. -/
theorem refers_of_body? {a b : String} {body : Node} (hbody : g.body? a = some body) :
    g.Refers a b ↔ b ∈ body.references := by
  rw [Refers, referencesOf, hbody]
  rfl

/-- **Names with rules have their bodies looked up** one by one. -/
theorem BareNames.exists_mapM_rule (hbare : g.BareNames) : ∀ {names : List String},
    (∀ n ∈ names, n ∈ g.rules.keys) → ∃ bodies, names.mapM g.rule = .ok bodies ∧
      List.Forall₂ (fun n body => g.body? n = some body) names bodies
  | [], _ => ⟨[], rfl, .nil⟩
  | n :: names, h => by
    rw [List.forall_mem_cons] at h
    obtain ⟨body, hbody⟩ := Dictionary.exists_find?_of_mem_keys h.1
    obtain ⟨bodies, hbodies, hall⟩ := hbare.exists_mapM_rule h.2
    refine ⟨body :: bodies, ?_, .cons hbody hall⟩
    rw [List.mapM_cons, hbare.rule_eq_ok hbody, hbodies]
    rfl

/-- **The invariant of the search**: each name was found once and by references, and whatever the
start or a name that was found refers to was found, or its body is pending. -/
structure Reaching (g : Grammar) (start : String) (seen : List String) (pending : List Node) :
    Prop where
  nodup : seen.Nodup
  reached : ∀ n ∈ seen, TransGen g.Refers start n
  pending_mem : ∀ body ∈ pending, ∃ n, (n = start ∨ n ∈ seen) ∧ g.body? n = some body
  open_or_pending : ∀ n, n = start ∨ n ∈ seen →
    (∃ body ∈ pending, g.body? n = some body) ∨ ∀ m, g.Refers n m → m ∈ seen

variable {start : String} {seen : List String} {pending : List Node} {body : Node}

/-- **The search without a bound on its rounds**: it is over when nothing is pending. -/
inductive Searches (g : Grammar) : List String → List Node → List String → Prop
  | over {seen : List String} : g.Searches seen [] seen
  | round {seen fresh found : List String} {body : Node} {pending bodies : List Node} :
    fresh = (body.references.eraseDups.filter fun n => !seen.contains n) →
    fresh.mapM g.rule = .ok bodies →
    g.Searches (seen ++ fresh) (bodies.reverse ++ pending) found →
    g.Searches seen (body :: pending) found

/-- The search begins with the body of the start. -/
theorem reaching_start (hbody : g.body? start = some body) : g.Reaching start [] [body] := by
  refine ⟨List.nodup_nil, nofun, fun b hb => ?_, fun n hn => Or.inl ?_⟩
  · obtain rfl := List.mem_singleton.mp hb
    exact ⟨start, Or.inl rfl, hbody⟩
  · obtain rfl := hn.resolve_right List.not_mem_nil
    exact ⟨body, List.mem_singleton.mpr rfl, hbody⟩

/-- What the search finds has a rule. -/
theorem Reaching.mem_keys (hg : g.WellFormed) (h : g.Reaching start seen pending) {n : String}
    (hn : n ∈ seen) : n ∈ g.rules.keys := by
  obtain ⟨m, -, hm⟩ := TransGen.tail'_iff.mp (h.reached n hn)
  exact Refers.mem_keys hg hm

/-- **A round keeps the invariant.** -/
theorem Reaching.step (h : g.Reaching start seen (body :: pending)) {fresh : List String}
    (hfresh : fresh = body.references.eraseDups.filter fun n => !seen.contains n)
    {bodies : List Node}
    (hbodies : List.Forall₂ (fun n body => g.body? n = some body) fresh bodies) :
    g.Reaching start (seen ++ fresh) (bodies.reverse ++ pending) := by
  have hmem : ∀ n, n ∈ fresh ↔ n ∈ body.references ∧ n ∉ seen := by
    intro n
    simp [hfresh]
  have hmore : ∀ n ∈ seen, n ∈ seen ++ fresh := fun n hn => List.mem_append_left _ hn
  obtain ⟨name, hname, hbody⟩ := h.pending_mem body List.mem_cons_self
  refine ⟨?_, fun n hn => ?_, fun b hb => ?_, fun n hn => ?_⟩
  · rw [hfresh]
    refine h.nodup.append ((nodup_eraseDups _).filter _) fun n hseen hn => ?_
    exact ((hmem n).mp (hfresh ▸ hn)).2 hseen
  · rcases List.mem_append.mp hn with hn | hn
    · exact h.reached n hn
    · have hrefers := (refers_of_body? hbody).mpr ((hmem n).mp hn).1
      rcases hname with rfl | hname
      · exact .single hrefers
      · exact (h.reached name hname).tail hrefers
  · rcases List.mem_append.mp hb with hb | hb
    · obtain ⟨n, hn, hnb⟩ := exists_of_mem_right hbodies (List.mem_reverse.mp hb)
      exact ⟨n, Or.inr (List.mem_append_right _ hn), hnb⟩
    · obtain ⟨n, hn, hnb⟩ := h.pending_mem b (List.mem_cons_of_mem _ hb)
      exact ⟨n, hn.imp_right (hmore n), hnb⟩
  · -- A name is new and its body pending, or it was open before, or it has just been looked at.
    rw [List.mem_append, ← or_assoc] at hn
    rcases hn with hold | hn
    · rcases h.open_or_pending n hold with ⟨b, hb, hnb⟩ | hopen
      · rcases List.mem_cons.mp hb with rfl | hb
        · refine Or.inr fun m hm => ?_
          by_cases hseen : m ∈ seen
          · exact hmore m hseen
          · exact List.mem_append_right _ ((hmem m).mpr ⟨(refers_of_body? hnb).mp hm, hseen⟩)
        · exact Or.inl ⟨b, List.mem_append_right _ hb, hnb⟩
      · exact Or.inr fun m hm => hmore m (hopen m hm)
    · obtain ⟨b, hb, hnb⟩ := exists_of_mem_right hbodies.flip hn
      exact Or.inl ⟨b, List.mem_append_left _ (List.mem_reverse.mpr hb), hnb⟩

/-- There are at most as many names as rules. -/
theorem Reaching.length_le (hg : g.WellFormed) (h : g.Reaching start seen pending) :
    seen.length ≤ g.rules.length := by
  have hkeys : seen ⊆ g.rules.map (·.1) := fun n hn => h.mem_keys hg hn
  have hle := (List.subperm_of_subset h.nodup hkeys).length_le
  rwa [List.length_map] at hle

theorem reachFrom_nil (g : Grammar) (rounds : Nat) (seen : List String) :
    g.reachFrom rounds seen [] = .ok seen := by
  cases rounds with
  | zero => rw [reachFrom]
  | succ rounds =>
    rw [reachFrom]
    exact Nat.succ_ne_zero rounds

/-- **The search ends**, with nothing pending. As many rounds are enough as bodies are pending and
rules have not been found. -/
theorem Reaching.exists_found (hg : g.WellFormed) (hbare : g.BareNames)
    (h : g.Reaching start seen pending) : ∃ found, g.Reaching start found [] ∧
      g.Searches seen pending found ∧
      ∀ rounds, pending.length + g.rules.length ≤ rounds + seen.length →
        g.reachFrom rounds seen pending = .ok found := by
  induction hleft : pending.length + g.rules.length - seen.length using Nat.strong_induction_on
    generalizing seen pending with
  | _ left ih =>
    cases pending with
    | nil => exact ⟨seen, h, .over, fun rounds _ => g.reachFrom_nil rounds seen⟩
    | cons body pending =>
      generalize hfresh : (body.references.eraseDups.filter fun n => !seen.contains n) = fresh
      obtain ⟨name, -, hbody⟩ := h.pending_mem body List.mem_cons_self
      have hkeys : ∀ n ∈ fresh, n ∈ g.rules.keys := fun n hn => by
        rw [← hfresh, List.mem_filter, List.mem_eraseDups] at hn
        exact ((refers_of_body? hbody).mpr hn.1).mem_keys hg
      obtain ⟨bodies, hbodies, hall⟩ := hbare.exists_mapM_rule hkeys
      have hstep := h.step hfresh.symm hall
      have hle := h.length_le hg
      have hlength := hall.length_eq
      rw [List.length_cons] at hleft
      obtain ⟨found, hfound, hsearch, hrounds⟩ := ih _ (by
        rw [List.length_append, List.length_append, List.length_reverse]
        omega) hstep rfl
      refine ⟨found, hfound, .round hfresh.symm hbodies hsearch, fun rounds hlt => ?_⟩
      rw [List.length_cons] at hlt
      cases rounds with
      | zero => omega
      | succ rounds =>
        rw [reachFrom, hfresh, hbodies]
        refine hrounds rounds ?_
        rw [List.length_append, List.length_append, List.length_reverse]
        omega

/-- **The reachable names are found** within as many rounds as there are rules and one more: those
that one reference or more lead to. -/
theorem exists_found (hg : g.WellFormed) (hbare : g.BareNames) (hbody : g.body? start = some body) :
    ∃ found, g.Searches [] [body] found ∧
      (∀ rounds, g.rules.length < rounds → g.reachFrom rounds [] [body] = .ok found) ∧
      ∀ n, n ∈ found ↔ TransGen g.Refers start n := by
  obtain ⟨found, hfound, hsearch, hrounds⟩ := (reaching_start hbody).exists_found hg hbare
  refine ⟨found, hsearch, fun rounds hlt => hrounds rounds ?_,
    fun n => ⟨hfound.reached n, fun hreach => ?_⟩⟩
  · rw [List.length_singleton, List.length_nil]
    omega
  · -- With nothing pending, what was found is closed under references.
    have hclosed : ∀ n, n = start ∨ n ∈ found → ∀ m, g.Refers n m → m ∈ found := fun n hn =>
      (hfound.open_or_pending n hn).resolve_left fun ⟨_, hb, _⟩ => List.not_mem_nil hb
    induction hreach with
    | single href => exact hclosed _ (Or.inl rfl) _ href
    | tail _ href ih => exact hclosed _ (Or.inr ih) _ href

theorem reachable_eq_ok (hbare : g.BareNames) (hbody : g.body? start = some body)
    {found : List String} (hfound : g.reachFrom (g.rules.length + 1) [] [body] = .ok found) :
    g.reachable start = .ok (SortedSet.ofList found) := by
  rw [reachable, hbare.rule_eq_ok hbody]
  exact congrArg (Except.map SortedSet.ofList) hfound

/-- The reachable names are listed in order. -/
theorem sorted_of_reachable {name : String} {names : List String}
    (h : g.reachable name = .ok names) :
    names.Pairwise fun a b => compare a b = .lt := by
  rw [reachable] at h
  simp only [bind, Except.bind, pure, Except.pure] at h
  split at h
  · exact absurd h (by simp)
  split at h
  · exact absurd h (by simp)
  obtain rfl := Except.ok.inj h
  exact SortedSet.sorted_ofList _

/-- **The reachable names** are those that one reference or more lead to. -/
theorem mem_reachable_iff (hg : g.WellFormed) (hbare : g.BareNames) (hstart : start ∈ g.rules.keys)
    {names : List String} (h : g.reachable start = .ok names) {n : String} :
    n ∈ names ↔ TransGen g.Refers start n := by
  obtain ⟨body, hbody⟩ := Dictionary.exists_find?_of_mem_keys hstart
  obtain ⟨found, -, hrounds, hfound⟩ := exists_found hg hbare hbody
  have hreachable := reachable_eq_ok hbare hbody (hrounds _ (Nat.lt_succ_self _))
  obtain rfl := Except.ok.inj (h.symm.trans hreachable)
  rw [SortedSet.mem_ofList, hfound]

/-! ### Occurrences in valid trees -/

/-- The rule of a valid node refers to each of its children that is a non-terminal. -/
theorem Valid.refers {t c : Tree} {a b : String} (ht : g.Valid t)
    (hsymbol : t.symbol = .nonTerminal a) (hc : c ∈ t.children)
    (hchild : c.symbol = .nonTerminal b) : g.Refers a b := by
  obtain ⟨⟨body, hbody, hmatch⟩, -⟩ := (valid_nonTerminal hsymbol).mp ht
  obtain ⟨ls, hls, hadmits⟩ := matches_iff_lifts.mp hmatch
  obtain ⟨l, hl, hlc⟩ := exists_of_mem_right hadmits hc
  have hleaf := mem_leaves_of_spells hls l hl
  cases l with
  | reference id name sender recipient =>
    have hname : c.symbol = .nonTerminal name := of_decide_eq_true hlc
    obtain rfl := Symbol.nonTerminal.inj (hchild.symm.trans hname)
    exact refers_iff.mpr ⟨body, hbody, id, sender, recipient, hleaf⟩
  | terminal | charset =>
    simp [Admits, isLiteral, isOneOf, hchild] at hlc
  | _ => exact hlc.elim

/-- **What occurs below a symbol is reachable from it.** -/
theorem Valid.transGen_refers {path : Path} {n : Tree} {b : String} : ∀ {t : Tree} {a : String},
    g.Valid t → t.symbol = .nonTerminal a → path ≠ [] → t.get? path = some n →
      n.symbol = .nonTerminal b → TransGen g.Refers a b := by
  induction path with
  | nil => exact fun _ _ h => absurd rfl h
  | cons i path ih =>
    intro t a ht hsymbol _ hn hb
    rw [Tree.get?_cons] at hn
    obtain ⟨c, hc, hbelow⟩ := Option.bind_eq_some_iff.mp hn
    have hmem := List.mem_of_getElem? hc
    have hcvalid := validAll_iff.mp ht.children c hmem
    cases path with
    | nil =>
      obtain rfl := Option.some.inj ((Tree.get?_nil c).symm.trans hbelow)
      exact .single (ht.refers hsymbol hmem hb)
    | cons j path =>
      -- The child has something below it, so that it is a non-terminal itself.
      cases hchild : c.symbol with
      | nonTerminal d =>
        exact .head (ht.refers hsymbol hmem hchild) (ih hcvalid hchild (by simp) hbelow hb)
      | terminal value =>
        rw [Tree.get?_cons, (valid_terminal hchild).mp hcvalid] at hbelow
        exact absurd hbelow (by simp)
      | slice =>
        have hno := hcvalid.symbol
        simp [hchild, Symbol.isTerminal] at hno

/-- A symbol that is not reachable from itself does not occur below itself. -/
theorem Valid.eq_nil_of_get? {t n : Tree} {s : String} (ht : g.Valid t)
    (hs : ¬ TransGen g.Refers s s) (hsymbol : t.symbol = .nonTerminal s) {path : Path}
    (hn : t.get? path = some n) (hb : n.symbol = .nonTerminal s) : path = [] :=
  by_contra fun hpath => hs (ht.transGen_refers hsymbol hpath hn hb)

/-- **No occurrence of such a symbol is above another one.** -/
theorem Valid.apart {t m n : Tree} {s : String} (ht : g.Valid t) (hs : ¬ TransGen g.Refers s s)
    {p q : Path} (hm : t.get? p = some m) (hsm : m.symbol = .nonTerminal s) (hn : t.get? q = some n)
    (hsn : n.symbol = .nonTerminal s) (hpq : p ≠ q) : ¬ p <+: q := by
  rintro ⟨below, rfl⟩
  rw [Tree.get?_append, hm, Option.bind_some] at hn
  have hnil := (ht.of_get? hm).eq_nil_of_get? hs hsm hn hsn
  rw [hnil, List.append_nil] at hpq
  exact hpq rfl

end Grammar

end GrammarFuzzing
