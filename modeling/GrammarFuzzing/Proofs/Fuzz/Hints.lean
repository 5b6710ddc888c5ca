import GrammarFuzzing.Fuzz.Expand
import GrammarFuzzing.Proofs.Grammar.Validity

/-!
# What structural hints allow

A structural hint lets random expansion leave the bounds of a node. What a fuzzer may make with its
hints is what derives from its **widened** grammar, `GrammarFuzzing.Fuzzer.widened`, in which
exactly the hinted nodes have other bounds:

| node | probability above zero | in the widened grammar |
|---|---|---|
| `+` | `emptyPlus` | from no copy on |
| `?` | `multipleOption` | up to `max 2 maxRepetitions` copies |
| reference | `repeatReference` | none to `max 2 maxRepetitions` copies of it |

Widening only adds derivations (`GrammarFuzzing.Fuzzer.valid_widened`), and none when
nothing is hinted (`GrammarFuzzing.Fuzzer.Unhinted.widened_eq`).
-/

namespace GrammarFuzzing

namespace Fuzzer

variable (f : Fuzzer)

/-- The greatest number of copies that a hint makes. -/
def mostHinted : Nat :=
  Nat.max f.settings.maxRepetitions 2

theorem two_le_mostHinted : 2 ≤ f.mostHinted :=
  Nat.le_max_right _ _

/-- **Whether a hint may apply to a node**: the probability of the hint for its kind of node is
above zero. -/
def hinted (n : Node) : Bool :=
  match n with
  | .reference .. => (f.grammar.settingsOf n).repeatReference > 0.0
  | .repetition _ _ _ _ .plus => (f.grammar.settingsOf n).emptyPlus > 0.0
  | .repetition _ _ _ _ .optional => (f.grammar.settingsOf n).multipleOption > 0.0
  | _ => false

/-- No node of a rule is hinted. -/
def Unhinted : Prop :=
  ∀ p ∈ f.grammar.rules, ∀ n ∈ p.2.subnodes, f.hinted n = false

instance : Decidable f.Unhinted :=
  inferInstanceAs (Decidable (∀ p ∈ f.grammar.rules, ∀ n ∈ p.2.subnodes, f.hinted n = false))

mutual

/-- **A node with the bounds that the hints leave it.** -/
def widen : Node → Node
  | .terminal id value => .terminal id value
  | .charset id chars => .charset id chars
  | .reference id name sender recipient =>
    if f.hinted (.reference id name sender recipient) then
      .repetition id (.reference id name sender recipient) 0 (some f.mostHinted) .bounded
    else .reference id name sender recipient
  | .sequence id parts => .sequence id (listWiden parts)
  | .choice id options => .choice id (listWiden options)
  | .repetition id body min max form =>
    let hinted := f.hinted (.repetition id body min max form)
    .repetition id (widen body) (if hinted ∧ form = .plus then 0 else min)
      (if hinted ∧ form = .optional then some f.mostHinted else max) form

/-- Several nodes with the bounds that the hints leave them. -/
def listWiden : List Node → List Node
  | [] => []
  | n :: rest => widen n :: listWiden rest

end

/-- **The grammar that the hints leave.** It is there to check trees with, which asks for its rules
only: the numbers still tell the nodes of the grammar. -/
def widened : Grammar :=
  { f.grammar with
    rules := f.grammar.rules.map fun p => (p.1, f.widen p.2)
    distances := ruleDistances (f.grammar.rules.map fun p => (p.1, f.widen p.2))
    distances_eq := rfl }

variable {f}

/-! ### Nothing hinted -/

mutual

/-- A node in which nothing is hinted stays as it is. -/
theorem widen_eq : ∀ {n : Node}, (∀ m ∈ n.subnodes, f.hinted m = false) → f.widen n = n
  | .terminal _ _, _ | .charset _ _, _ => by rw [widen]
  | .reference _ _ _ _, h => by
    rw [widen, h _ (Node.mem_subnodes_self _)]
    rfl
  | .sequence _ parts, h => by
    rw [widen, listWiden_eq fun n hn m hm => h m (Node.mem_subnodes_sequence hn hm)]
  | .choice _ options, h => by
    rw [widen, listWiden_eq fun n hn m hm => h m (Node.mem_subnodes_choice hn hm)]
  | .repetition _ body _ _ _, h => by
    rw [widen, h _ (Node.mem_subnodes_self _),
      widen_eq fun m hm => h m (Node.mem_subnodes_repetition hm)]
    simp

theorem listWiden_eq : ∀ {ns : List Node}, (∀ n ∈ ns, ∀ m ∈ n.subnodes, f.hinted m = false) →
    f.listWiden ns = ns
  | [], _ => by rw [listWiden]
  | n :: ns, h => by
    rw [listWiden, widen_eq (h n List.mem_cons_self),
      listWiden_eq fun k hk => h k (List.mem_cons_of_mem _ hk)]

end

/-- **With no hint the widened grammar is the grammar.** -/
theorem Unhinted.widened_eq (h : f.Unhinted) : f.widened = f.grammar := by
  have hrules : (f.grammar.rules.map fun p => (p.1, f.widen p.2)) = f.grammar.rules := by
    conv_rhs => rw [← List.map_id f.grammar.rules]
    refine List.map_congr_left fun p hp => ?_
    rw [widen_eq (h p hp)]
    rfl
  exact Grammar.eq_of_rules rfl hrules rfl rfl rfl

/-! ### Bounds -/

mutual

/-- A node in a widened node is a widened node, or the reference that is repeated. -/
theorem of_mem_subnodes_widen {m : Node} : ∀ {n : Node}, m ∈ (f.widen n).subnodes →
    ∃ k ∈ n.subnodes, m = f.widen k ∨ m = k ∧ ∃ id name sender recipient,
      k = .reference id name sender recipient
  | .terminal _ _, h | .charset _ _, h => by
    refine ⟨_, Node.mem_subnodes_self _, Or.inl ?_⟩
    rw [widen] at h ⊢
    rwa [Node.subnodes, List.mem_singleton] at h
  | .reference id name sender recipient, h => by
    refine ⟨_, Node.mem_subnodes_self _, ?_⟩
    rw [widen] at h ⊢
    split at h
    · rename_i hhint
      rw [if_pos hhint]
      rw [Node.subnodes, Node.subnodes, List.mem_cons, List.mem_singleton] at h
      exact h.imp_right fun h => ⟨h, _, _, _, _, rfl⟩
    · rename_i hhint
      rw [if_neg hhint]
      rw [Node.subnodes, List.mem_singleton] at h
      exact Or.inl h
  | .sequence id parts, h => by
    rw [widen, Node.subnodes, List.mem_cons] at h
    rcases h with rfl | h
    · exact ⟨_, Node.mem_subnodes_self _, Or.inl (by rw [widen])⟩
    · obtain ⟨n, hn, k, hk, hm⟩ := of_mem_listSubnodes_listWiden h
      exact ⟨k, Node.mem_subnodes_sequence hn hk, hm⟩
  | .choice id options, h => by
    rw [widen, Node.subnodes, List.mem_cons] at h
    rcases h with rfl | h
    · exact ⟨_, Node.mem_subnodes_self _, Or.inl (by rw [widen])⟩
    · obtain ⟨n, hn, k, hk, hm⟩ := of_mem_listSubnodes_listWiden h
      exact ⟨k, Node.mem_subnodes_choice hn hk, hm⟩
  | .repetition id body min max form, h => by
    rw [widen, Node.subnodes, List.mem_cons] at h
    rcases h with rfl | h
    · exact ⟨_, Node.mem_subnodes_self _, Or.inl (by rw [widen])⟩
    · obtain ⟨k, hk, hm⟩ := of_mem_subnodes_widen h
      exact ⟨k, Node.mem_subnodes_repetition hk, hm⟩

theorem of_mem_listSubnodes_listWiden {m : Node} : ∀ {ns : List Node},
    m ∈ Node.listSubnodes (f.listWiden ns) → ∃ n ∈ ns, ∃ k ∈ n.subnodes, m = f.widen k ∨
      m = k ∧ ∃ id name sender recipient, k = .reference id name sender recipient
  | [], h => by
    rw [listWiden, Node.listSubnodes] at h
    exact absurd h List.not_mem_nil
  | n :: ns, h => by
    rw [listWiden, Node.listSubnodes, List.mem_append] at h
    rcases h with h | h
    · exact ⟨n, List.mem_cons_self, of_mem_subnodes_widen h⟩
    · obtain ⟨k, hk, hm⟩ := of_mem_listSubnodes_listWiden h
      exact ⟨k, List.mem_cons_of_mem _ hk, hm⟩

end

/-- **Widened bounds admit a count, too.** -/
theorem bounded_widened (hg : f.grammar.WellFormed) : f.widened.Bounded := by
  refine ⟨fun {id body min max form} hoccurs => ?_⟩
  obtain ⟨p, hp, hm⟩ := hoccurs
  obtain ⟨q, hq, rfl⟩ := List.mem_map.mp hp
  obtain ⟨k, hk, hwiden | ⟨rfl, _, _, _, _, hno⟩⟩ := of_mem_subnodes_widen hm
  · have hmost : 0 < f.mostHinted := Nat.lt_of_lt_of_le (by decide) f.two_le_mostHinted
    cases k with
    | terminal | charset | sequence | choice =>
      rw [widen] at hwiden
      exact absurd hwiden (by simp)
    | reference id name sender recipient =>
      rw [widen] at hwiden
      split at hwiden
      · obtain ⟨-, -, rfl, hmax, -⟩ := Node.repetition.inj hwiden
        obtain rfl := Option.some.inj hmax
        exact ⟨hmost, Nat.zero_le _⟩
      · exact absurd hwiden (by simp)
    | repetition id' body' min' max' form' =>
      rw [widen] at hwiden
      obtain ⟨-, -, rfl, hmax, rfl⟩ := Node.repetition.inj hwiden
      have hk' : f.grammar.Occurs (.repetition id' body' min' max' form) := ⟨q, hq, hk⟩
      -- The lower bound only falls, and the upper one changes for options alone.
      have hle : (if f.hinted (.repetition id' body' min' max' form) ∧ form = .plus then 0
          else min') ≤ min' := by
        split <;> omega
      split at hmax
      · rename_i hoptional
        obtain ⟨-, rfl⟩ := hoptional
        obtain ⟨rfl, -⟩ := hg.fitsForm hk'
        obtain rfl := Option.some.inj hmax
        exact ⟨hmost, Nat.le_trans hle (Nat.zero_le _)⟩
      · subst hmax
        obtain ⟨hpos, hbound⟩ := hg.bounds hk'
        exact ⟨hpos, Nat.le_trans hle hbound⟩
  · exact absurd hno (by simp)

/-! ### Matches -/

/-- The numbers of copies that a repetition may have: those within its bounds, and those that a hint
makes. -/
def Allows (f : Fuzzer) : Node → Nat → Prop
  | .repetition id body min max form, k =>
    (min ≤ k ∧ ∀ m, max = some m → k ≤ m) ∨ f.hinted (.repetition id body min max form) = true ∧
      (form = .plus ∧ k = 0 ∨ form = .optional ∧ k ≤ f.mostHinted)
  | _, _ => False

/-- **A widened repetition stands for all numbers of copies that are allowed.** -/
theorem matches_widen_repetition {id min k : Nat} {body : Node} {max : Option Nat}
    {form : RepetitionForm} (hform : (Node.repetition id body min max form).FitsForm)
    (hk : f.Allows (.repetition id body min max form) k) {cs : List Tree}
    (hcs : Node.Copies (f.widen body).Matches k cs) :
    (f.widen (.repetition id body min max form)).Matches cs := by
  have htwo := f.two_le_mostHinted
  rw [widen, Node.Matches]
  refine ⟨k, ?_, ?_, hcs⟩
  · -- A hint that makes fewer copies than the bound is one of a `+`, which loses its lower bound.
    split
    · exact Nat.zero_le _
    · rename_i hplus
      rcases hk with ⟨hmin, -⟩ | ⟨hhint, ⟨rfl, -⟩ | ⟨rfl, -⟩⟩
      · exact hmin
      · exact absurd ⟨hhint, rfl⟩ hplus
      · rw [hform.1]
        exact Nat.zero_le _
  · -- A hint that makes more copies than the bound is one of a `?`, which gets a greater one.
    intro m hm
    split at hm
    · rename_i hoptional
      obtain ⟨-, rfl⟩ := hoptional
      obtain rfl := Option.some.inj hm
      rcases hk with ⟨-, hmax⟩ | ⟨-, ⟨hno, -⟩ | ⟨-, hmost⟩⟩
      · exact Nat.le_trans (hmax 1 hform.2) (by omega)
      · exact absurd hno (by simp)
      · exact hmost
    · rename_i hoptional
      rcases hk with ⟨-, hmax⟩ | ⟨hhint, ⟨-, rfl⟩ | ⟨rfl, -⟩⟩
      · exact hmax m hm
      · exact Nat.zero_le _
      · exact absurd ⟨hhint, rfl⟩ hoptional

/-- A widened reference stands for one copy, and when it is hinted for any number that a hint
makes. -/
theorem matches_widen_reference {id k : Nat} {name : String} {sender recipient : Option String}
    (hk : k = 1 ∨ f.hinted (.reference id name sender recipient) = true ∧ k ≤ f.mostHinted)
    {cs : List Tree}
    (hcs : Node.Copies (fun ds => ∃ c, ds = [c] ∧ Node.isNamed name c = true) k cs) :
    (f.widen (.reference id name sender recipient)).Matches cs := by
  have htwo := f.two_le_mostHinted
  rw [widen]
  split
  · rw [Node.Matches]
    refine ⟨k, Nat.zero_le _, fun m hm => ?_, hcs.mono fun ds hds => ?_⟩
    · obtain rfl := Option.some.inj hm
      rcases hk with rfl | ⟨-, hmost⟩
      · omega
      · exact hmost
    · rwa [Node.Matches]
  · rename_i hhint
    obtain rfl : k = 1 := hk.resolve_right fun h => hhint h.1
    obtain ⟨ds, es, rfl, hds, rfl⟩ := hcs
    rwa [List.append_nil, Node.Matches]

mutual

/-- **What a node stands for it still does when it is widened.** -/
theorem matches_widen : ∀ {n : Node} {cs : List Tree}, (∀ m ∈ n.subnodes, m.FitsForm) →
    n.Matches cs → (f.widen n).Matches cs
  | .terminal _ _, cs, _, h | .charset _ _, cs, _, h => by rwa [widen]
  | .reference _ _ _ _, cs, _, h => by
    rw [Node.Matches] at h
    exact matches_widen_reference (Or.inl rfl) ⟨cs, [], (List.append_nil _).symm, h, rfl⟩
  | .sequence _ parts, cs, hform, h => by
    rw [Node.Matches] at h
    rw [widen, Node.Matches]
    exact matchesAll_listWiden (fun n hn m hm => hform m (Node.mem_subnodes_sequence hn hm)) h
  | .choice _ options, cs, hform, h => by
    rw [Node.Matches] at h
    rw [widen, Node.Matches]
    exact matchesSome_listWiden (fun n hn m hm => hform m (Node.mem_subnodes_choice hn hm)) h
  | .repetition _ body _ _ _, cs, hform, h => by
    rw [Node.Matches] at h
    obtain ⟨k, hmin, hmax, hcs⟩ := h
    refine matches_widen_repetition (hform _ (Node.mem_subnodes_self _)) (Or.inl ⟨hmin, hmax⟩)
      (hcs.mono fun ds hds => ?_)
    exact matches_widen (fun m hm => hform m (Node.mem_subnodes_repetition hm)) hds

theorem matchesAll_listWiden : ∀ {ns : List Node} {cs : List Tree},
    (∀ n ∈ ns, ∀ m ∈ n.subnodes, m.FitsForm) → Node.MatchesAll ns cs →
      Node.MatchesAll (f.listWiden ns) cs
  | [], cs, _, h => by rwa [listWiden]
  | n :: ns, cs, hform, h => by
    obtain ⟨ds, es, rfl, hds, hes⟩ := h
    rw [listWiden]
    exact ⟨ds, es, rfl, matches_widen (hform n List.mem_cons_self) hds,
      matchesAll_listWiden (fun k hk => hform k (List.mem_cons_of_mem _ hk)) hes⟩

theorem matchesSome_listWiden : ∀ {ns : List Node} {cs : List Tree},
    (∀ n ∈ ns, ∀ m ∈ n.subnodes, m.FitsForm) → Node.MatchesSome ns cs →
      Node.MatchesSome (f.listWiden ns) cs
  | [], cs, _, h => h.elim
  | n :: ns, cs, hform, h => by
    rw [listWiden]
    exact h.imp (matches_widen (hform n List.mem_cons_self))
      (matchesSome_listWiden fun k hk => hform k (List.mem_cons_of_mem _ hk))

end

theorem body?_widened (name : String) :
    f.widened.body? name = (f.grammar.body? name).map f.widen :=
  Dictionary.find?_map f.widen f.grammar.rules name

/-- **What derives from a grammar derives from the widened one.** -/
theorem valid_widened (hg : f.grammar.WellFormed) {t : Tree} (h : f.grammar.Valid t) :
    f.widened.Valid t := by
  refine h.of_rules fun name body hbody => ⟨f.widen body, ?_, fun cs hcs => ?_⟩
  · rw [body?_widened, hbody, Option.map_some]
  · exact matches_widen
      (fun m hm => hg.fitsForm ((Grammar.occurs_of_body? hbody).of_mem_subnodes hm)) hcs

end Fuzzer

end GrammarFuzzing
