import GrammarFuzzing.Parse.Flat
import GrammarFuzzing.Proofs.Grammar.WellFormed

/-!
# The productions of a grammar

Which alternatives the flat form of a grammar has for a goal. The productions are collected one goal
after the other, and a goal that comes again adds nothing, so a goal has the alternatives of its
first entry (`GrammarFuzzing.FlatGrammar.collects_of`). For a symbol that is the rule that a lookup
finds (`GrammarFuzzing.FlatGrammar.alternative_named`). All other goals belong to a node, and in a
well-formed grammar the number of the node tells which one: whatever entry is first, it is the entry
of that node (`GrammarFuzzing.Grammar.WellFormed.alternative_own`).

The entries that a node makes for itself, leaving out those of the nodes in it, are
`GrammarFuzzing.Node.ownAlternatives`.
-/

namespace GrammarFuzzing

/-! ### The entries of a node -/

namespace Node

/-- The goals of a node with their alternatives, without those of the nodes in it. -/
def ownAlternatives : Node → List (Goal × List (List Atom))
  | .charset id chars => [(.inner id, chars.map fun c => [.literal (.text c.toString)])]
  | .choice id options => [(.inner id, flattenEach options)]
  | .repetition id body min max _ =>
    (.inner id, [copies min body.flatten ++ tailAtoms id min max]) ::
      tails id body.flatten min max
  | _ => []

mutual

/-- The goals in a node are those of the nodes in it. -/
theorem mem_alternatives {q : Goal × List (List Atom)} :
    ∀ {n : Node}, q ∈ n.alternatives ↔ ∃ m ∈ n.subnodes, q ∈ m.ownAlternatives
  | .terminal .. | .charset .. | .reference .. => by
    simp [alternatives, subnodes, ownAlternatives]
  | .sequence id parts => by
    rw [alternatives, mem_listAlternatives, subnodes]
    simp [ownAlternatives]
  | .choice id options => by
    rw [alternatives, List.mem_cons, mem_listAlternatives, subnodes]
    simp [ownAlternatives]
  | .repetition id body min max form => by
    rw [alternatives, List.mem_cons, List.mem_append, mem_alternatives, subnodes]
    simp only [List.mem_cons, exists_eq_or_imp, ownAlternatives, or_assoc]

theorem mem_listAlternatives {q : Goal × List (List Atom)} :
    ∀ {ns : List Node}, q ∈ listAlternatives ns ↔ ∃ m ∈ listSubnodes ns, q ∈ m.ownAlternatives
  | [] => by simp [listAlternatives, listSubnodes]
  | n :: ns => by
    rw [listAlternatives, List.mem_append, mem_alternatives, mem_listAlternatives, listSubnodes]
    simp only [List.mem_append, or_and_right, exists_or]

end

theorem mem_tails {id min : Nat} {max : Option Nat} {element : List Atom} {goal : Goal}
    {alts : List (List Atom)} :
    (goal, alts) ∈ tails id element min max ↔
      (max = none ∧ goal = .tail id none ∧ alts = [[], element ++ [.plain (.tail id none)]]) ∨
        ∃ m n, max = some m ∧ n < m - min ∧ goal = .tail id (some (n + 1)) ∧
          alts = boundedTail id element n := by
  cases max with
  | none => simp [tails]
  | some m =>
    simp only [tails, List.mem_map, List.mem_range, Prod.mk.injEq]
    constructor
    · rintro ⟨n, hn, rfl, rfl⟩
      exact Or.inr ⟨m, n, rfl, hn, rfl, rfl⟩
    · rintro (⟨hm, -⟩ | ⟨m', n, hm, hn, rfl, rfl⟩)
      · exact absurd hm (by simp)
      · obtain rfl := Option.some.inj hm
        exact ⟨n, hn, rfl, rfl⟩

end Node

/-- The number of the node that a goal belongs to. -/
def Goal.node? : Goal → Option Nat
  | .named _ => none
  | .inner id | .tail id _ => some id

namespace Node

theorem goal_node?_of_mem_own {n : Node} {goal : Goal} {alts : List (List Atom)}
    (h : (goal, alts) ∈ n.ownAlternatives) : goal.node? = some n.id := by
  cases n with
  | terminal | reference | sequence => simp [ownAlternatives] at h
  | charset | choice =>
    rw [ownAlternatives, List.mem_singleton] at h
    rw [(Prod.mk.inj h).1]
    rfl
  | repetition =>
    rw [ownAlternatives, List.mem_cons, mem_tails] at h
    rcases h with h | ⟨-, rfl, -⟩ | ⟨-, -, -, -, rfl, -⟩
    · rw [(Prod.mk.inj h).1]
      rfl
    · rfl
    · rfl

/-- **A node makes one entry for each of its goals.** -/
theorem alternatives_unique {n : Node} {goal : Goal} {alts alts' : List (List Atom)}
    (h : (goal, alts) ∈ n.ownAlternatives) (h' : (goal, alts') ∈ n.ownAlternatives) :
    alts = alts' := by
  cases n with
  | terminal | reference | sequence => simp [ownAlternatives] at h
  | charset | choice =>
    rw [ownAlternatives, List.mem_singleton] at h h'
    rw [(Prod.mk.inj h).2, (Prod.mk.inj h').2]
  | repetition =>
    rw [ownAlternatives, List.mem_cons, mem_tails] at h h'
    rcases h with h | ⟨rfl, rfl, rfl⟩ | ⟨m, n, rfl, -, rfl, rfl⟩
    · obtain ⟨rfl, rfl⟩ := Prod.mk.inj h
      exact (show alts' = _ by simpa using h').symm
    · exact (show alts' = _ by simpa using h').symm
    · exact (show _ ∧ alts' = _ by simpa using h').2.symm

/-! ### The goals of a flattened node -/

mutual

/-- **The goals of a flattened node** are the symbols it refers to and nodes in it. -/
theorem goal_of_mem_flatten {goal : Goal} {sender recipient : Option String} :
    ∀ {n : Node}, Atom.goal goal sender recipient ∈ n.flatten →
      (∃ id name, goal = .named name ∧ .reference id name sender recipient ∈ n.subnodes) ∨
        ∃ m ∈ n.subnodes, ∃ alts, goal = .inner m.id ∧ (goal, alts) ∈ m.ownAlternatives
  | .terminal id value, h => by simp [flatten] at h
  | .reference id name sender recipient, h => by
    rw [flatten, List.mem_singleton] at h
    obtain ⟨rfl, rfl, rfl⟩ := Atom.goal.inj h
    exact Or.inl ⟨id, name, rfl, mem_subnodes_self _⟩
  | .sequence id parts, h => by
    rw [flatten] at h
    obtain ⟨n, hn, h⟩ := goal_of_mem_listFlatten h
    refine h.imp ?_ ?_
    · rintro ⟨id, name, rfl, hname⟩
      exact ⟨id, name, rfl, mem_subnodes_sequence hn hname⟩
    · rintro ⟨m, hm, hgoal⟩
      exact ⟨m, mem_subnodes_sequence hn hm, hgoal⟩
  | .charset id chars, h | .choice id options, h | .repetition id body min max form, h => by
    rw [flatten, List.mem_singleton] at h
    obtain ⟨rfl, -⟩ := Atom.goal.inj h
    exact Or.inr ⟨_, mem_subnodes_self _, _, rfl, by
      rw [ownAlternatives]; exact List.mem_cons_self⟩

theorem goal_of_mem_listFlatten {goal : Goal} {sender recipient : Option String} :
    ∀ {ns : List Node}, Atom.goal goal sender recipient ∈ listFlatten ns → ∃ n ∈ ns,
      (∃ id name, goal = .named name ∧ .reference id name sender recipient ∈ n.subnodes) ∨
        ∃ m ∈ n.subnodes, ∃ alts, goal = .inner m.id ∧ (goal, alts) ∈ m.ownAlternatives
  | [], h => by simp [listFlatten] at h
  | n :: ns, h => by
    rw [listFlatten, List.mem_append] at h
    rcases h with h | h
    · exact ⟨n, List.mem_cons_self, goal_of_mem_flatten h⟩
    · obtain ⟨m, hm, h⟩ := goal_of_mem_listFlatten h
      exact ⟨m, List.mem_cons_of_mem _ hm, h⟩

end

/-- The goals of a tail are those of one more copy, and a tail again. -/
theorem goal_of_mem_tails {id min : Nat} {max : Option Nat} {element atoms : List Atom}
    {goal goal' : Goal} {alts : List (List Atom)} {sender recipient : Option String}
    (h : (goal, alts) ∈ tails id element min max) (hatoms : atoms ∈ alts)
    (hgoal : Atom.goal goal' sender recipient ∈ atoms) :
    Atom.goal goal' sender recipient ∈ element ∨
      ∃ alts, (goal', alts) ∈ tails id element min max := by
  -- Either there are no more atoms, or they are one more copy and what may follow it.
  rcases mem_tails.mp h with ⟨hmax, -, rfl⟩ | ⟨m, n, hmax, hn, -, rfl⟩
  · rcases List.mem_cons.mp hatoms with rfl | hatoms
    · exact absurd hgoal List.not_mem_nil
    · rw [List.mem_singleton.mp hatoms, List.mem_append] at hgoal
      refine hgoal.imp_right fun hgoal => ⟨_, mem_tails.mpr (Or.inl ⟨hmax, ?_, rfl⟩)⟩
      exact (Atom.goal.inj (List.mem_singleton.mp hgoal)).1
  · rcases List.mem_cons.mp hatoms with rfl | hatoms
    · exact absurd hgoal List.not_mem_nil
    · rw [List.mem_singleton.mp hatoms, List.mem_append] at hgoal
      refine hgoal.imp_right fun hgoal => ?_
      split at hgoal
      · exact absurd hgoal List.not_mem_nil
      · refine ⟨_, mem_tails.mpr (Or.inr ⟨m, n - 1, hmax, by omega, ?_, rfl⟩)⟩
        rw [(Atom.goal.inj (List.mem_singleton.mp hgoal)).1, Nat.sub_add_cancel (by omega)]

/-- What follows the copies of a repetition is one of its tails. -/
theorem tails_of_mem_tailAtoms (element : List Atom) {goal : Goal}
    {sender recipient : Option String} {id min : Nat} {max : Option Nat}
    (h : Atom.goal goal sender recipient ∈ tailAtoms id min max) :
    ∃ alts, (goal, alts) ∈ tails id element min max := by
  cases max with
  | none =>
    rw [tailAtoms, List.mem_singleton] at h
    exact ⟨_, mem_tails.mpr (Or.inl ⟨rfl, (Atom.goal.inj h).1, rfl⟩)⟩
  | some m =>
    rw [tailAtoms] at h
    split at h
    · rw [List.mem_singleton] at h
      refine ⟨_, mem_tails.mpr (Or.inr ⟨m, m - min - 1, rfl, by omega, ?_, rfl⟩)⟩
      rw [(Atom.goal.inj h).1, Nat.sub_add_cancel (by omega)]
    · exact absurd h List.not_mem_nil

end Node

/-! ### Collecting productions -/

namespace FlatGrammar

/-- **The atoms are an alternative of the goal.** -/
def Alternative (f : FlatGrammar) (goal : Goal) (atoms : List Atom) : Prop :=
  ∃ (i : Nat) (p : Production), f.productions[i]? = some p ∧ p.goal = goal ∧ p.atoms.toList = atoms

/-- **Productions are listed under their goals.** -/
def Listed (f : FlatGrammar) : Prop :=
  ∀ (i : Nat) (goal : Goal),
    i ∈ f.productionsOf goal ↔ ∃ p, f.productions[i]? = some p ∧ p.goal = goal

theorem Listed.contains {f : FlatGrammar} (hf : f.Listed) {i : Nat} {p : Production}
    (h : f.productions[i]? = some p) : f.ofGoal.contains p.goal = true := by
  by_contra hno
  have hi : i ∈ f.productionsOf p.goal := (hf i p.goal).mpr ⟨p, h, rfl⟩
  rw [productionsOf, Std.HashMap.getD_eq_fallback_of_contains_eq_false (by simpa using hno)] at hi
  exact absurd hi List.not_mem_nil

/-- The atoms of a production. -/
def atomsOf? (f : FlatGrammar) (production : Nat) : Option (List Atom) :=
  (f.productions[production]?).map fun p => p.atoms.toList

/-- The flat grammar has collected the entries of a list: for each goal the first one, with the
alternatives in their order. -/
structure Collects (f : FlatGrammar) (entries : List (Goal × List (List Atom))) : Prop where
  contains : ∀ goal, f.ofGoal.contains goal = true ↔ (entries.lookup goal).isSome = true
  listed : f.Listed
  ordered : ∀ goal,
    (f.productionsOf goal).map f.atomsOf? = ((entries.lookup goal).getD []).map some

theorem collects_empty : empty.Collects [] := by
  refine ⟨fun goal => ?_, fun i goal => ?_, fun goal => ?_⟩
  · simp [empty]
  · simp [empty, productionsOf]
  · simp [empty, productionsOf]

theorem Listed.alternative_iff {f : FlatGrammar} (hf : f.Listed) {goal : Goal} {atoms : List Atom} :
    f.Alternative goal atoms ↔ ∃ k ∈ f.productionsOf goal, f.atomsOf? k = some atoms := by
  constructor
  · rintro ⟨k, p, hp, hgoal, rfl⟩
    exact ⟨k, (hf k goal).mpr ⟨p, hp, hgoal⟩, by rw [atomsOf?, hp]; rfl⟩
  · rintro ⟨k, hk, hatoms⟩
    obtain ⟨p, hp, hgoal⟩ := (hf k goal).mp hk
    rw [atomsOf?, hp] at hatoms
    exact ⟨k, p, hp, hgoal, Option.some.inj hatoms⟩

/-- The alternatives of a goal are those of its first entry. -/
theorem Collects.alternative {f : FlatGrammar} {entries : List (Goal × List (List Atom))}
    (hf : f.Collects entries) (goal : Goal) (atoms : List Atom) :
    f.Alternative goal atoms ↔ ∃ alts, entries.lookup goal = some alts ∧ atoms ∈ alts := by
  rw [hf.listed.alternative_iff, ← List.mem_map, hf.ordered]
  cases entries.lookup goal with
  | none => simp
  | some alts => simp

section Add

variable {f : FlatGrammar} {goal : Goal} {alts : List (List Atom)}

theorem add_of_contains (h : f.ofGoal.contains goal = true) : f.add goal alts = f := by
  rw [add, if_pos h]

theorem productionsOf_add (h : f.ofGoal.contains goal = false) (goal' : Goal) :
    (f.add goal alts).productionsOf goal' =
      if goal = goal' then (List.range alts.length).map (f.productions.size + ·)
      else f.productionsOf goal' := by
  rw [add, if_neg (by simp [h]), productionsOf, Std.HashMap.getD_insert]
  simp [productionsOf]

/-- A production after an entry was added is an old one or an alternative of the entry. -/
theorem getElem?_productions_add (h : f.ofGoal.contains goal = false) {i : Nat} {p : Production} :
    (f.add goal alts).productions[i]? = some p ↔
      f.productions[i]? = some p ∨ ∃ k atoms, i = f.productions.size + k ∧
        alts[k]? = some atoms ∧ p = ⟨goal, atoms.toArray⟩ := by
  rw [add, if_neg (by simp [h])]
  simp only [Array.getElem?_append, List.getElem?_toArray, List.getElem?_map]
  split
  · rename_i hi
    refine ⟨Or.inl, fun h => h.resolve_right ?_⟩
    rintro ⟨k, -, rfl, -⟩
    omega
  · rename_i hi
    rw [Array.getElem?_eq_none (by omega)]
    simp only [Option.map_eq_some_iff, reduceCtorEq, false_or]
    constructor
    · rintro ⟨atoms, hatoms, rfl⟩
      exact ⟨i - f.productions.size, atoms, by omega, hatoms, rfl⟩
    · rintro ⟨k, atoms, rfl, hatoms, rfl⟩
      exact ⟨atoms, by rwa [Nat.add_sub_cancel_left], rfl⟩

/-- **A new goal is listed with its alternatives.** -/
theorem Listed.add (hf : f.Listed) (h : f.ofGoal.contains goal = false) :
    (f.add goal alts).Listed := by
  have hnot : ∀ (i : Nat) (p : Production), f.productions[i]? = some p → p.goal ≠ goal := by
    rintro i p hp rfl
    exact absurd (hf.contains hp) (by simp [h])
  intro i goal'
  rw [productionsOf_add h]
  simp only [getElem?_productions_add h]
  split
  · rename_i hgoal
    subst hgoal
    simp only [List.mem_map, List.mem_range]
    constructor
    · rintro ⟨k, hk, rfl⟩
      exact ⟨_, Or.inr ⟨k, alts[k], rfl, List.getElem?_eq_getElem hk, rfl⟩, rfl⟩
    · rintro ⟨p, hp | ⟨k, atoms, rfl, hk, rfl⟩, hgoal⟩
      · exact absurd hgoal (hnot i p hp)
      · exact ⟨k, (List.getElem?_eq_some_iff.mp hk).1, rfl⟩
  · rename_i hgoal
    rw [hf]
    constructor
    · rintro ⟨p, hp, hgoal'⟩
      exact ⟨p, Or.inl hp, hgoal'⟩
    · rintro ⟨p, hp | ⟨k, atoms, -, -, rfl⟩, hgoal'⟩
      · exact ⟨p, hp, hgoal'⟩
      · exact absurd hgoal' hgoal

/-- The alternatives of the new goal, in their order. -/
theorem atomsOf?_add_self (h : f.ofGoal.contains goal = false) :
    ((f.add goal alts).productionsOf goal).map (f.add goal alts).atomsOf? = alts.map some := by
  rw [productionsOf_add h, if_pos rfl, List.map_map]
  refine List.ext_getElem (by simp) fun k hk _ => ?_
  have hk' : k < alts.length := by simpa using hk
  have hget : (f.add goal alts).productions[f.productions.size + k]? =
      some ⟨goal, alts[k].toArray⟩ :=
    (getElem?_productions_add h).mpr
      (Or.inr ⟨k, alts[k], rfl, List.getElem?_eq_getElem hk', rfl⟩)
  simp [atomsOf?, hget]

/-- The alternatives of any other goal stay as they are. -/
theorem atomsOf?_add_of_ne (hf : f.Listed) (h : f.ofGoal.contains goal = false) {goal' : Goal}
    (hgoal : goal ≠ goal') :
    ((f.add goal alts).productionsOf goal').map (f.add goal alts).atomsOf? =
      (f.productionsOf goal').map f.atomsOf? := by
  rw [productionsOf_add h, if_neg hgoal]
  refine List.map_congr_left fun k hk => ?_
  obtain ⟨p, hp, -⟩ := (hf k goal').mp hk
  rw [atomsOf?, atomsOf?, (getElem?_productions_add h).mpr (Or.inl hp), hp]

theorem lookup_concat (entries : List (Goal × List (List Atom))) (goal goal' : Goal)
    (alts : List (List Atom)) :
    (entries ++ [(goal, alts)]).lookup goal' =
      (entries.lookup goal').or (if goal = goal' then some alts else none) := by
  rw [List.lookup_append, List.lookup_cons, List.lookup_nil]
  by_cases hgoal : goal = goal'
  · simp [hgoal]
  · rw [if_neg hgoal, beq_false_of_ne (Ne.symm hgoal)]

/-- **One more entry.** -/
theorem Collects.add {entries : List (Goal × List (List Atom))} (hf : f.Collects entries)
    (goal : Goal) (alts : List (List Atom)) :
    (f.add goal alts).Collects (entries ++ [(goal, alts)]) := by
  cases hc : f.ofGoal.contains goal with
  | true =>
    obtain ⟨old, hold⟩ := Option.isSome_iff_exists.mp ((hf.contains goal).mp hc)
    -- The entry is not the first one of its goal, so no lookup finds it.
    have hsame : ∀ goal', (entries ++ [(goal, alts)]).lookup goal' = entries.lookup goal' := by
      intro goal'
      rw [lookup_concat]
      split
      · rename_i hgoal
        rw [← hgoal, hold, Option.some_or]
      · rw [Option.or_none]
    rw [add_of_contains hc]
    refine ⟨fun goal' => ?_, hf.listed, fun goal' => ?_⟩
    · rw [hsame, hf.contains]
    · rw [hsame, hf.ordered]
  | false =>
    have hfresh : entries.lookup goal = none := by
      rw [← Option.not_isSome_iff_eq_none, ← hf.contains, hc]
      exact Bool.false_ne_true
    refine ⟨fun goal' => ?_, hf.listed.add hc, fun goal' => ?_⟩
    · rw [lookup_concat, FlatGrammar.add, if_neg (by simp [hc])]
      simp only [Std.HashMap.contains_insert, Bool.or_eq_true, hf.contains]
      by_cases hgoal : goal = goal'
      · simp [hgoal]
      · simp [hgoal]
    · rw [lookup_concat]
      by_cases hgoal : goal = goal'
      · subst hgoal
        rw [atomsOf?_add_self hc, if_pos rfl, hfresh, Option.none_or, Option.getD_some]
      · rw [atomsOf?_add_of_ne hf.listed hc hgoal, if_neg hgoal, Option.or_none, hf.ordered]

end Add

/-- The entries of a grammar: those of its rules, and those of the nodes in them. -/
def entriesOf (g : Grammar) : List (Goal × List (List Atom)) :=
  (g.rules.map fun (name, body) => (Goal.named name, body.ruleAlternatives)) ++
    g.rules.flatMap fun (_, body) => body.alternatives

/-- **The flat form of a grammar collects the entries of the grammar.** -/
theorem collects_of (g : Grammar) : (of g).Collects (entriesOf g) := by
  have hfold : ∀ (more entries : List (Goal × List (List Atom))) (f : FlatGrammar),
      f.Collects entries →
      (more.foldl (fun f (q : Goal × List (List Atom)) => f.add q.1 q.2) f).Collects
        (entries ++ more) := by
    intro more
    induction more with
    | nil =>
      intro entries f hf
      rwa [List.append_nil]
    | cons q more ih =>
      intro entries f hf
      have h := ih _ _ (hf.add q.1 q.2)
      rwa [List.append_assoc] at h
  have h := hfold (entriesOf g) [] empty collects_empty
  exact ⟨h.contains, h.listed, h.ordered⟩

theorem listed_of (g : Grammar) : (of g).Listed :=
  (collects_of g).listed

/-! ### The alternatives of a goal -/

theorem lookup_named (rules : Dictionary String Node) (name : String)
    (entries : List (Goal × List (List Atom))) (hentries : ∀ q ∈ entries, q.1 ≠ .named name) :
    ((List.map (fun (r : String × Node) => (Goal.named r.1, r.2.ruleAlternatives)) rules) ++
      entries).lookup (.named name) = (rules.find? name).map Node.ruleAlternatives := by
  induction rules with
  | nil =>
    rw [List.map_nil, List.nil_append, Dictionary.find?_nil, Option.map_none,
      List.lookup_eq_none_iff]
    exact fun q hq => bne_iff_ne.mpr (Ne.symm (hentries q hq))
  | cons r rules ih =>
    obtain ⟨name', body⟩ := r
    rw [List.map_cons, List.cons_append, List.lookup_cons]
    by_cases hname : name' = name
    · subst hname
      simp [Dictionary.find?_cons_self]
    · rw [Dictionary.find?_cons_of_ne hname, ← ih, beq_false_of_ne]
      simp [Ne.symm hname]

/-- **The alternatives of a symbol** are those of its rule. -/
theorem alternative_named {g : Grammar} {name : String} {atoms : List Atom} :
    (of g).Alternative (.named name) atoms ↔
      ∃ body, g.body? name = some body ∧ atoms ∈ body.ruleAlternatives := by
  have hinner : ∀ q ∈ g.rules.flatMap (fun (_, body) => body.alternatives), q.1 ≠ .named name := by
    intro q hq hname
    obtain ⟨r, -, hq⟩ := List.mem_flatMap.mp hq
    obtain ⟨m, -, hq⟩ := Node.mem_alternatives.mp hq
    have hnode : q.1.node? = some m.id := Node.goal_node?_of_mem_own hq
    rw [hname] at hnode
    exact absurd hnode (by simp [Goal.node?])
  rw [(collects_of g).alternative, entriesOf, lookup_named g.rules name _ hinner]
  simp only [Option.map_eq_some_iff, exists_exists_and_eq_and, Grammar.body?]

/-- An entry is that of a symbol, or one that an occurring node makes. -/
theorem own_of_mem_entriesOf {g : Grammar} {goal : Goal} {alts : List (List Atom)}
    (h : (goal, alts) ∈ entriesOf g) :
    (∃ name, goal = .named name) ∨ ∃ n, g.Occurs n ∧ (goal, alts) ∈ n.ownAlternatives := by
  rw [entriesOf, List.mem_append] at h
  rcases h with h | h
  · obtain ⟨r, -, hr⟩ := List.mem_map.mp h
    exact Or.inl ⟨r.1, (Prod.mk.inj hr).1.symm⟩
  · obtain ⟨r, hr, h⟩ := List.mem_flatMap.mp h
    obtain ⟨n, hn, hown⟩ := Node.mem_alternatives.mp h
    exact Or.inr ⟨n, ⟨r, hr, hn⟩, hown⟩

theorem mem_of_lookup {entries : List (Goal × List (List Atom))} {goal : Goal}
    {alts : List (List Atom)} (h : entries.lookup goal = some alts) : (goal, alts) ∈ entries := by
  obtain ⟨l, r, hentries, -⟩ := List.lookup_eq_some_iff.mp h
  rw [hentries]
  exact List.mem_append_right l List.mem_cons_self

/-- An alternative of a goal is one of a symbol, or one that an occurring node makes. -/
theorem own_of_alternative {g : Grammar} {goal : Goal} {atoms : List Atom}
    (h : (of g).Alternative goal atoms) :
    (∃ name, goal = .named name) ∨
      ∃ n alts, g.Occurs n ∧ (goal, alts) ∈ n.ownAlternatives ∧ atoms ∈ alts := by
  obtain ⟨alts, hlookup, hatoms⟩ := ((collects_of g).alternative goal atoms).mp h
  refine (own_of_mem_entriesOf (mem_of_lookup hlookup)).imp_right ?_
  rintro ⟨n, hn, hown⟩
  exact ⟨n, alts, hn, hown, hatoms⟩

end FlatGrammar

namespace Grammar

/-- **The alternatives of a goal of a node** are those that the node makes. -/
theorem WellFormed.alternative_own {g : Grammar} (hg : g.WellFormed) {n : Node} (hn : g.Occurs n)
    {goal : Goal} {alts : List (List Atom)} (h : (goal, alts) ∈ n.ownAlternatives)
    {atoms : List Atom} : (FlatGrammar.of g).Alternative goal atoms ↔ atoms ∈ alts := by
  have hnode := Node.goal_node?_of_mem_own h
  have hmem : (goal, alts) ∈ FlatGrammar.entriesOf g := by
    obtain ⟨r, hr, hn⟩ := hn
    exact List.mem_append_right _
      (List.mem_flatMap.mpr ⟨r, hr, Node.mem_alternatives.mpr ⟨n, hn, h⟩⟩)
  have hsome : ((FlatGrammar.entriesOf g).lookup goal).isSome = true :=
    List.lookup_isSome_iff.mpr ⟨_, hmem, beq_self_eq_true goal⟩
  obtain ⟨first, hlookup⟩ := Option.isSome_iff_exists.mp hsome
  -- The first entry of the goal is one of an occurring node, and so one of this node.
  have hfirst : first = alts := by
    rcases FlatGrammar.own_of_mem_entriesOf (FlatGrammar.mem_of_lookup hlookup) with
      ⟨name, rfl⟩ | ⟨m, hm, hown⟩
    · exact absurd hnode (by simp [Goal.node?])
    · have hid : m.id = n.id :=
        Option.some.inj ((Node.goal_node?_of_mem_own hown).symm.trans hnode)
      obtain rfl := hg.eq_of_id_eq hm hn hid
      exact Node.alternatives_unique hown h
  rw [(FlatGrammar.collects_of g).alternative, hlookup, hfirst]
  simp

end Grammar

end GrammarFuzzing
