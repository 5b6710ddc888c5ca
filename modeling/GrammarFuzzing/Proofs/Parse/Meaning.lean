import GrammarFuzzing.Proofs.Grammar.Annotation
import GrammarFuzzing.Proofs.Parse.Derivation

/-!
# What goals stand for

The flat form of a grammar derives what the grammar does. Each goal stands for something in terms of
the grammar (`GrammarFuzzing.Goal.Means`): a symbol for what its rule matches, the goal of a node
for what the node matches, and the tail of a repetition for a number of further copies, each child
with the parties of the leaf that it comes out of. From this both directions follow.

* Every derivation has the meaning of its atoms and its trees are annotated, hence valid
  (`GrammarFuzzing.FlatGrammar.Derives.means`). It is enough that each alternative of a goal has the
  meaning of the goal (`GrammarFuzzing.Grammar.WellFormed.means_of_alternative`).
* The literals of a valid tree are listed by its symbol
  (`GrammarFuzzing.Grammar.WellFormed.readable`).

Together, a symbol lists exactly the literals of valid trees of the symbol
(`GrammarFuzzing.Grammar.WellFormed.goalLists_named`), and yields what these trees render as
(`GrammarFuzzing.Grammar.WellFormed.goalYields_named`).

A node of a parsed tree is made from the name of its goal, which is stripped of brackets once more.
Hence the condition that the names of the rules are bare (`GrammarFuzzing.Grammar.BareNames`).
-/

namespace GrammarFuzzing

/-! ### Copies -/

namespace Node

variable {α : Type} {P : List α → Prop}

theorem Copies.add {j k : Nat} {ds es : List α} (h₁ : Copies P j ds) (h₂ : Copies P k es) :
    Copies P (j + k) (ds ++ es) := by
  induction j generalizing ds with
  | zero =>
    obtain rfl : ds = [] := h₁
    rwa [Nat.zero_add]
  | succ j ih =>
    obtain ⟨ds₁, ds₂, rfl, h, h₁⟩ := h₁
    rw [Nat.succ_add, List.append_assoc]
    exact ⟨ds₁, ds₂ ++ es, rfl, h, ih h₁⟩

theorem Copies.split {j k : Nat} {cs : List α} (h : Copies P (j + k) cs) :
    ∃ ds es, cs = ds ++ es ∧ Copies P j ds ∧ Copies P k es := by
  induction j generalizing cs with
  | zero => exact ⟨[], cs, rfl, rfl, by rwa [Nat.zero_add] at h⟩
  | succ j ih =>
    rw [Nat.succ_add] at h
    obtain ⟨ds₁, ds₂, rfl, h₁, h⟩ := h
    obtain ⟨ds, es, rfl, hds, hes⟩ := ih h
    exact ⟨ds₁ ++ ds, es, (List.append_assoc ..).symm, ⟨ds₁, ds, rfl, h₁, hds⟩, hes⟩

end Node

/-! ### Meanings -/

open Node hiding id

/-- **What a goal stands for**: the children that it contributes. -/
def Goal.Means (g : Grammar) : Goal → List Tree → Prop
  | .named name, cs => ∃ body, g.body? name = some body ∧ body.Annotates cs
  | .inner id, cs => ∃ n, g.Occurs n ∧ n.id = id ∧ n.Annotates cs
  | .tail id most, cs => ∃ body min max form, g.Occurs (.repetition id body min max form) ∧
    ∃ k, (∀ m, most = some m → k ≤ m) ∧ Copies body.Annotates k cs

/-- What atoms stand for, one after the other. -/
def AtomsMean (g : Grammar) : List Atom → List Tree → Prop
  | [], ts => ts = []
  | .literal value :: rest, ts => ∃ us, ts = Tree.leaf value :: us ∧ AtomsMean g rest us
  | .goal goal sender recipient :: rest, ts =>
    ∃ cs us, ts = Search.wrap goal sender recipient cs ++ us ∧ goal.Means g cs ∧ AtomsMean g rest us

section Mean

variable {g : Grammar}

theorem atomsMean_append {as bs : List Atom} {ts : List Tree} (h : AtomsMean g (as ++ bs) ts) :
    ∃ us vs, ts = us ++ vs ∧ AtomsMean g as us ∧ AtomsMean g bs vs := by
  induction as generalizing ts with
  | nil => exact ⟨[], ts, rfl, rfl, h⟩
  | cons a as ih =>
    cases a with
    | literal value =>
      obtain ⟨us, rfl, h⟩ := h
      obtain ⟨vs, ws, rfl, hvs, hws⟩ := ih h
      exact ⟨_, ws, (List.cons_append ..).symm, ⟨vs, rfl, hvs⟩, hws⟩
    | goal goal sender recipient =>
      obtain ⟨cs, us, rfl, hcs, h⟩ := h
      obtain ⟨vs, ws, rfl, hvs, hws⟩ := ih h
      exact ⟨_, ws, (List.append_assoc ..).symm, ⟨cs, vs, rfl, hcs, hvs⟩, hws⟩

theorem atomsMean_copies {n : Nat} {element : List Atom} {P : List Tree → Prop}
    (hP : ∀ ts, AtomsMean g element ts → P ts) {ts : List Tree}
    (h : AtomsMean g (copies n element) ts) : Copies P n ts := by
  induction n generalizing ts with
  | zero => exact h
  | succ n ih =>
    rw [copies, List.replicate_succ, List.flatten_cons] at h
    obtain ⟨us, vs, rfl, hus, hvs⟩ := atomsMean_append h
    exact ⟨us, vs, rfl, hP us hus, ih hvs⟩

/-- A single goal that dissolves. -/
theorem atomsMean_plain {goal : Goal} {ts : List Tree} (hnode : goal.node?.isSome = true)
    (h : AtomsMean g [.plain goal] ts) : goal.Means g ts := by
  obtain ⟨cs, us, rfl, hcs, hnil⟩ := h
  obtain rfl : us = [] := hnil
  cases goal with
  | named name => simp [Goal.node?] at hnode
  | inner id => simpa [Search.wrap] using hcs
  | tail id most => simpa [Search.wrap] using hcs

theorem annotates_of_means_inner (hg : g.WellFormed) {n : Node} (hn : g.Occurs n)
    {ts : List Tree} (h : AtomsMean g [.plain (.inner n.id)] ts) : n.Annotates ts := by
  obtain ⟨m, hm, hid, hmatch⟩ := atomsMean_plain rfl h
  rwa [hg.eq_of_id_eq hm hn hid] at hmatch

mutual

/-- **A node is flattened into atoms that mean the node.** -/
theorem Grammar.WellFormed.annotates_of_flatten (hg : g.WellFormed) (hbare : g.BareNames) :
    ∀ {n : Node} {ts : List Tree}, g.Occurs n → AtomsMean g n.flatten ts → n.Annotates ts
  | .terminal id value, ts, _, h => by
    obtain ⟨us, rfl, hnil⟩ := h
    obtain rfl : us = [] := hnil
    have hleaf : (terminal id value).IsLeaf := trivial
    refine (annotates_of_isLeaf hleaf).mpr ⟨_, rfl, ?_, rfl, rfl⟩
    simp [Admits, isLiteral, Tree.leaf]
  | .reference id name sender recipient, ts, hn, h => by
    obtain ⟨cs, us, rfl, -, hnil⟩ := h
    obtain rfl : us = [] := hnil
    obtain ⟨body, hbody⟩ := hg.exists_body_of_reference hn
    have hleaf : (reference id name sender recipient).IsLeaf := trivial
    refine (annotates_of_isLeaf hleaf).mpr ⟨_, rfl, ?_, rfl, rfl⟩
    simp [Admits, isNamed, Symbol.named, hbare.of_body? hbody]
  | .sequence id parts, ts, hn, h => by
    rw [flatten] at h
    exact annotates_sequence.mpr (hg.annotatesAll_of_flatten hbare (fun n hp =>
      hn.of_mem_subnodes (mem_subnodes_sequence hp n.mem_subnodes_self)) h)
  | .charset _ _, ts, hn, h | .choice _ _, ts, hn, h | .repetition _ _ _ _ _, ts, hn, h =>
    annotates_of_means_inner hg hn h

theorem Grammar.WellFormed.annotatesAll_of_flatten (hg : g.WellFormed) (hbare : g.BareNames) :
    ∀ {ns : List Node} {ts : List Tree}, (∀ n ∈ ns, g.Occurs n) →
      AtomsMean g (listFlatten ns) ts → Lifts Marks (SpellsAll ns) ts
  | [], ts, _, h => lifts_nil.mpr h
  | n :: ns, ts, hn, h => by
    rw [listFlatten] at h
    obtain ⟨us, vs, rfl, hus, hvs⟩ := atomsMean_append h
    exact lifts_append.mpr ⟨us, vs, rfl,
      hg.annotates_of_flatten hbare (hn n List.mem_cons_self) hus,
      hg.annotatesAll_of_flatten hbare (fun m hm => hn m (List.mem_cons_of_mem _ hm)) hvs⟩

end

section Sound

variable (hg : g.WellFormed) (hbare : g.BareNames)

include hg hbare

/-- An option of a choice means the choice. -/
theorem Grammar.WellFormed.annotates_of_option {id : Nat} {options : List Node}
    (hn : g.Occurs (.choice id options)) {atoms : List Atom} (halt : atoms ∈ flattenEach options)
    {ts : List Tree} (h : AtomsMean g atoms ts) : (Node.choice id options).Annotates ts := by
  obtain ⟨n, hmem, rfl⟩ := List.mem_map.mp halt
  exact annotates_choice.mpr ⟨n, hmem, hg.annotates_of_flatten hbare
    (hn.of_mem_subnodes (mem_subnodes_choice hmem n.mem_subnodes_self)) h⟩

omit hbare in
/-- The tails of a repetition have further copies of its body. -/
theorem Grammar.WellFormed.copies_of_tail {id min : Nat} {body : Node} {max most : Option Nat}
    {form : RepetitionForm} (hn : g.Occurs (.repetition id body min max form)) {ts : List Tree}
    (h : AtomsMean g [.plain (.tail id most)] ts) :
    ∃ k, (∀ m, most = some m → k ≤ m) ∧ Copies body.Annotates k ts := by
  obtain ⟨body', min', max', form', hn', hk⟩ := atomsMean_plain rfl h
  have hsame := hg.eq_of_id_eq hn' hn rfl
  obtain ⟨-, rfl, -⟩ := Node.repetition.inj hsame
  exact hk

/-- The copies that must be there and the tail after them mean the repetition. -/
theorem Grammar.WellFormed.annotates_of_repetition {id min : Nat} {body : Node} {max : Option Nat}
    {form : RepetitionForm} (hn : g.Occurs (.repetition id body min max form)) {ts : List Tree}
    (h : AtomsMean g (copies min body.flatten ++ tailAtoms id min max) ts) :
    (Node.repetition id body min max form).Annotates ts := by
  obtain ⟨us, vs, rfl, hus, hvs⟩ := atomsMean_append h
  have hbody := hn.of_mem_subnodes (mem_subnodes_repetition body.mem_subnodes_self)
  have hcopies : Copies body.Annotates min us :=
    atomsMean_copies (fun ts => hg.annotates_of_flatten hbare hbody) hus
  rw [annotates_repetition]
  cases max with
  | none =>
    obtain ⟨k, -, hk⟩ := hg.copies_of_tail hn hvs
    exact ⟨min + k, Nat.le_add_right _ _, by simp, hcopies.add hk⟩
  | some m =>
    obtain ⟨-, hle⟩ := hg.bounds hn
    rw [tailAtoms] at hvs
    split at hvs
    · rename_i hlt
      obtain ⟨k, hkm, hk⟩ := hg.copies_of_tail hn hvs
      have hkm := hkm _ rfl
      refine ⟨min + k, Nat.le_add_right _ _, fun m' hm' => ?_, hcopies.add hk⟩
      obtain rfl := Option.some.inj hm'
      omega
    · obtain rfl : vs = [] := hvs
      refine ⟨min, Nat.le_refl _, fun m' hm' => ?_, by rwa [List.append_nil]⟩
      obtain rfl := Option.some.inj hm'
      exact hle

/-- What a tail may be followed by means the tail: to stop, or one more copy before a tail. -/
theorem Grammar.WellFormed.means_of_tails {id min : Nat} {body : Node} {max : Option Nat}
    {form : RepetitionForm} (hn : g.Occurs (.repetition id body min max form)) {goal : Goal}
    {alts : List (List Atom)} (htails : (goal, alts) ∈ tails id body.flatten min max)
    {atoms : List Atom} (hatoms : atoms ∈ alts) {ts : List Tree} (h : AtomsMean g atoms ts) :
    goal.Means g ts := by
  have hbody := hn.of_mem_subnodes (mem_subnodes_repetition body.mem_subnodes_self)
  rcases mem_tails.mp htails with ⟨rfl, rfl, rfl⟩ | ⟨m, n, rfl, -, rfl, rfl⟩
  · refine ⟨body, min, none, form, hn, ?_⟩
    rcases List.mem_cons.mp hatoms with rfl | hatoms
    · exact ⟨0, by simp, h⟩
    · rw [List.mem_singleton.mp hatoms] at h
      obtain ⟨us, vs, rfl, hus, hvs⟩ := atomsMean_append h
      obtain ⟨k, -, hk⟩ := hg.copies_of_tail hn hvs
      exact ⟨k + 1, by simp, us, vs, rfl, hg.annotates_of_flatten hbare hbody hus, hk⟩
  · refine ⟨body, min, some m, form, hn, ?_⟩
    rcases List.mem_cons.mp hatoms with rfl | hatoms
    · exact ⟨0, by simp, h⟩
    · rw [List.mem_singleton.mp hatoms] at h
      obtain ⟨us, vs, rfl, hus, hvs⟩ := atomsMean_append h
      have hcopy : body.Annotates us := hg.annotates_of_flatten hbare hbody hus
      split at hvs
      · obtain rfl : vs = [] := hvs
        exact ⟨1, by simp, us, [], rfl, hcopy, rfl⟩
      · obtain ⟨k, hkm, hk⟩ := hg.copies_of_tail hn hvs
        have hkm := hkm _ rfl
        refine ⟨k + 1, fun m' hm' => ?_, us, vs, rfl, hcopy, hk⟩
        obtain rfl := Option.some.inj hm'
        omega

/-- **The alternatives of a goal mean the goal.** -/
theorem Grammar.WellFormed.means_of_alternative {goal : Goal} {atoms : List Atom}
    (halt : (FlatGrammar.of g).Alternative goal atoms) {ts : List Tree} (h : AtomsMean g atoms ts) :
    goal.Means g ts := by
  rcases FlatGrammar.own_of_alternative halt with ⟨name, rfl⟩ | ⟨n, alts, hn, hown, hatoms⟩
  · obtain ⟨body, hbody, hatoms⟩ := FlatGrammar.alternative_named.mp halt
    have hn := Grammar.occurs_of_body? hbody
    refine ⟨body, hbody, ?_⟩
    cases body with
    | choice id options => exact hg.annotates_of_option hbare hn hatoms h
    | terminal | charset | reference | sequence | repetition =>
      -- The rule has one alternative, its body flattened.
      rw [ruleAlternatives, List.mem_singleton] at hatoms
      · exact hg.annotates_of_flatten hbare hn (hatoms ▸ h)
      · exact fun _ _ => Node.noConfusion
  · cases n with
    | terminal | reference | sequence => simp [ownAlternatives] at hown
    | charset id chars =>
      rw [ownAlternatives, List.mem_singleton] at hown
      obtain ⟨rfl, rfl⟩ := Prod.mk.inj hown
      obtain ⟨c, hc, rfl⟩ := List.mem_map.mp hatoms
      obtain ⟨us, rfl, hnil⟩ := h
      obtain rfl : us = [] := hnil
      have hleaf : (charset id chars).IsLeaf := trivial
      refine ⟨_, hn, rfl, (annotates_of_isLeaf hleaf).mpr ⟨_, rfl, ?_, rfl, rfl⟩⟩
      simpa [Admits, isOneOf, Tree.leaf] using hc
    | choice id options =>
      rw [ownAlternatives, List.mem_singleton] at hown
      obtain ⟨rfl, rfl⟩ := Prod.mk.inj hown
      exact ⟨_, hn, rfl, hg.annotates_of_option hbare hn hatoms h⟩
    | repetition id body min max form =>
      rw [ownAlternatives, List.mem_cons] at hown
      rcases hown with hown | htails
      · obtain ⟨rfl, rfl⟩ := Prod.mk.inj hown
        rw [List.mem_singleton.mp hatoms] at h
        exact ⟨_, hn, rfl, hg.annotates_of_repetition hbare hn h⟩
      · exact hg.means_of_tails hbare hn htails hatoms h

/-- **What atoms derive is what they mean, and annotated.** -/
theorem FlatGrammar.Derives.means {atoms : List Atom} {ts : List Tree}
    (h : (FlatGrammar.of g).Derives atoms ts) :
    AtomsMean g atoms ts ∧ ∀ t ∈ ts, g.Annotated t := by
  induction h with
  | nil => exact ⟨rfl, by simp⟩
  | @literal value rest ts _ ih =>
    refine ⟨⟨ts, rfl, ih.1⟩, fun t ht => ?_⟩
    rcases List.mem_cons.mp ht with rfl | ht
    · exact Grammar.annotated_leaf value
    · exact ih.2 t ht
  | @goal goal sender recipient atoms rest cs ts halt _ _ ihcs ihts =>
    have hcs := hg.means_of_alternative hbare halt ihcs.1
    refine ⟨⟨cs, ts, rfl, hcs, ihts.1⟩, fun t ht => ?_⟩
    rcases List.mem_append.mp ht with ht | ht
    · cases goal with
      | named name =>
        obtain rfl := List.mem_singleton.mp ht
        obtain ⟨body, hbody, hmatch⟩ := hcs
        have hsymbol : Symbol.named name = .nonTerminal name := by
          rw [Symbol.named, hbare.of_body? hbody]
        exact (Grammar.annotated_nonTerminal hsymbol).mpr
          ⟨⟨body, hbody, hmatch⟩, Grammar.annotatedAll_iff.mpr ihcs.2⟩
      | inner id => exact ihcs.2 t ht
      | tail id most => exact ihcs.2 t ht
    · exact ihts.2 t ht

/-- What an alternative of a symbol derives are the children of an annotated tree. -/
theorem FlatGrammar.Derives.annotated {name : String} {atoms : List Atom} {cs : List Tree}
    (halt : (FlatGrammar.of g).Alternative (.named name) atoms)
    (hcs : (FlatGrammar.of g).Derives atoms cs) : g.Annotated (.branch name cs) := by
  obtain ⟨hmeans, hannotated⟩ := hcs.means hg hbare
  exact (Grammar.annotated_nonTerminal rfl).mpr
    ⟨hg.means_of_alternative hbare halt hmeans, Grammar.annotatedAll_iff.mpr hannotated⟩

end Sound

end Mean

/-! ### Valid trees are derived -/

namespace FlatGrammar

variable {f : FlatGrammar}

/-- **A readable tree**: a leaf has its own literal only, and a node has literals that its symbol
lists. -/
structure Readable (f : FlatGrammar) (t : Tree) : Prop where
  terminal : ∀ value, t.symbol = .terminal value → t.literals = [value]
  nonTerminal : ∀ name, t.symbol = .nonTerminal name → f.GoalLists (.named name) t.literals

section Copies

variable {element : List Atom} {P : List Tree → Prop}
  (hP : ∀ ds, (∀ d ∈ ds, f.Readable d) → P ds → f.Lists element (Tree.listLiterals ds))

include hP

theorem lists_copies {n : Nat} {cs : List Tree} (hcs : ∀ c ∈ cs, f.Readable c)
    (h : Copies P n cs) : f.Lists (copies n element) (Tree.listLiterals cs) := by
  induction n generalizing cs with
  | zero =>
    obtain rfl : cs = [] := h
    exact lists_nil
  | succ n ih =>
    obtain ⟨ds, es, rfl, hds, hes⟩ := h
    rw [List.forall_mem_append] at hcs
    rw [copies, List.replicate_succ, List.flatten_cons, Tree.listLiterals_append]
    exact (hP ds hcs.1 hds).append (ih hcs.2 hes)

theorem goalLists_tail_none {id : Nat}
    (halt : ∀ atoms ∈ [[], element ++ [Atom.plain (.tail id none)]],
      f.Alternative (.tail id none) atoms)
    {k : Nat} {cs : List Tree} (hcs : ∀ c ∈ cs, f.Readable c) (h : Copies P k cs) :
    f.GoalLists (.tail id none) (Tree.listLiterals cs) := by
  induction k generalizing cs with
  | zero =>
    obtain rfl : cs = [] := h
    exact ⟨[], halt _ List.mem_cons_self, lists_nil⟩
  | succ k ih =>
    obtain ⟨ds, es, rfl, hds, hes⟩ := h
    rw [List.forall_mem_append] at hcs
    refine ⟨_, halt _ (List.mem_cons_of_mem _ List.mem_cons_self), ?_⟩
    rw [Tree.listLiterals_append]
    exact (hP ds hcs.1 hds).append ((ih hcs.2 hes).atom none none)

theorem goalLists_tail_some {id top : Nat}
    (halt : ∀ n < top, ∀ atoms ∈ boundedTail id element n,
      f.Alternative (.tail id (some (n + 1))) atoms)
    {k n : Nat} (hk : k ≤ n + 1) (hn : n < top) {cs : List Tree} (hcs : ∀ c ∈ cs, f.Readable c)
    (h : Copies P k cs) : f.GoalLists (.tail id (some (n + 1))) (Tree.listLiterals cs) := by
  induction k generalizing n cs with
  | zero =>
    obtain rfl : cs = [] := h
    exact ⟨[], halt n hn _ List.mem_cons_self, lists_nil⟩
  | succ k ih =>
    obtain ⟨ds, es, rfl, hds, hes⟩ := h
    rw [List.forall_mem_append] at hcs
    refine ⟨_, halt n hn _ (List.mem_cons_of_mem _ List.mem_cons_self), ?_⟩
    rw [Tree.listLiterals_append]
    refine (hP ds hcs.1 hds).append ?_
    cases n with
    | zero =>
      obtain rfl : k = 0 := by omega
      obtain rfl : es = [] := hes
      exact lists_nil
    | succ n => exact (ih (by omega) (by omega) hcs.2 hes).atom none none

end Copies

end FlatGrammar

namespace Grammar

variable {g : Grammar}

open FlatGrammar

/-- A character of a set is yielded by the set. -/
theorem WellFormed.lists_of_isOneOf (hg : g.WellFormed) {id : Nat} {chars : List Char}
    (hn : g.Occurs (.charset id chars)) {c : Tree} (hc : isOneOf chars c = true)
    (hread : (of g).Readable c) : (of g).GoalLists (.inner id) c.literals := by
  obtain ⟨x, hx, hsymbol⟩ := exists_of_isOneOf hc
  have hown : (Goal.inner id, chars.map fun c => [Atom.literal (.text c.toString)]) ∈
      (Node.charset id chars).ownAlternatives := List.mem_singleton.mpr rfl
  have halt := (hg.alternative_own hn hown).mpr (List.mem_map_of_mem hx)
  rw [hread.terminal _ hsymbol]
  exact ⟨_, halt, lists_literal _⟩

/-- Copies beyond those that must be there are yielded by the tail after them. -/
theorem WellFormed.lists_tailAtoms (hg : g.WellFormed) {id min more : Nat} {body : Node}
    {max : Option Nat} {form : RepetitionForm} (hn : g.Occurs (.repetition id body min max form))
    (hP : ∀ ds, (∀ d ∈ ds, (of g).Readable d) → body.Matches ds →
      (of g).Lists body.flatten (Tree.listLiterals ds))
    (hmax : ∀ m, max = some m → min + more ≤ m) {es : List Tree}
    (hread : ∀ c ∈ es, (of g).Readable c) (hes : Copies body.Matches more es) :
    (of g).Lists (tailAtoms id min max) (Tree.listLiterals es) := by
  have halt : ∀ {goal : Goal} {alts : List (List Atom)},
      (goal, alts) ∈ tails id body.flatten min max →
        ∀ atoms ∈ alts, (of g).Alternative goal atoms :=
    fun hmem atoms hatoms => (hg.alternative_own hn (List.mem_cons_of_mem _ hmem)).mpr hatoms
  cases max with
  | none =>
    have htail := goalLists_tail_none hP (halt (mem_tails.mpr (Or.inl ⟨rfl, rfl, rfl⟩))) hread hes
    exact htail.atom none none
  | some m =>
    have hm := hmax m rfl
    rw [tailAtoms]
    split
    · rename_i hlt
      have htail := goalLists_tail_some (n := m - min - 1) hP
        (fun n hn => halt (mem_tails.mpr (Or.inr ⟨m, n, rfl, hn, rfl, rfl⟩)))
        (by omega) (by omega) hread hes
      rw [Nat.sub_add_cancel (by omega)] at htail
      exact htail.atom none none
    · obtain rfl : more = 0 := by omega
      obtain rfl : es = [] := hes
      exact lists_nil

mutual

/-- **Matching children that are readable are yielded by the atoms of the node.** -/
theorem WellFormed.lists_of_matches (hg : g.WellFormed) :
    ∀ {n : Node} {cs : List Tree}, g.Occurs n → n.Matches cs → (∀ c ∈ cs, (of g).Readable c) →
      (of g).Lists n.flatten (Tree.listLiterals cs)
  | .terminal id value, cs, _, h, hcs => by
    obtain ⟨c, rfl, hc⟩ := h
    have hvalue := (hcs c List.mem_cons_self).terminal value (by simpa [isLiteral] using hc)
    have h := lists_literal (f := of g) value
    rwa [← hvalue, ← List.append_nil c.literals] at h
  | .reference id name sender recipient, cs, _, h, hcs => by
    obtain ⟨c, rfl, hc⟩ := h
    have hname := (hcs c List.mem_cons_self).nonTerminal name (by simpa [isNamed] using hc)
    have h := hname.atom sender recipient
    rwa [← List.append_nil c.literals] at h
  | .charset id chars, cs, hn, h, hcs => by
    obtain ⟨c, rfl, hc⟩ := h
    have h := (hg.lists_of_isOneOf hn hc (hcs c List.mem_cons_self)).atom none none
    rwa [← List.append_nil c.literals] at h
  | .sequence id parts, cs, hn, h, hcs => by
    rw [Matches] at h
    rw [flatten]
    exact hg.lists_of_matchesAll (fun n hp => hn.of_mem_subnodes
      (mem_subnodes_sequence hp n.mem_subnodes_self)) h hcs
  | .choice id options, cs, hn, h, hcs => by
    rw [Matches] at h
    obtain ⟨atoms, hatoms, hlists⟩ := hg.lists_of_matchesSome (fun n hp => hn.of_mem_subnodes
      (mem_subnodes_choice hp n.mem_subnodes_self)) h hcs
    have hown : (Goal.inner id, flattenEach options) ∈ (Node.choice id options).ownAlternatives :=
      List.mem_singleton.mpr rfl
    have hgoal : (of g).GoalLists (.inner id) (Tree.listLiterals cs) :=
      ⟨atoms, (hg.alternative_own hn hown).mpr hatoms, hlists⟩
    exact hgoal.atom none none
  | .repetition id body min max form, cs, hn, h, hcs => by
    rw [Matches] at h
    obtain ⟨k, hmin, hmax, hcopies⟩ := h
    obtain ⟨more, rfl⟩ := Nat.exists_eq_add_of_le hmin
    -- The goal of the node yields the copies that must be there, its tail those beyond.
    obtain ⟨ds, es, rfl, hds, hes⟩ := hcopies.split
    rw [List.forall_mem_append] at hcs
    have hbody := hn.of_mem_subnodes (mem_subnodes_repetition body.mem_subnodes_self)
    have hP : ∀ ds, (∀ d ∈ ds, (of g).Readable d) → body.Matches ds →
        (of g).Lists body.flatten (Tree.listLiterals ds) :=
      fun ds hds hmatch => hg.lists_of_matches hbody hmatch hds
    have htail : (of g).Lists (tailAtoms id min max) (Tree.listLiterals es) :=
      hg.lists_tailAtoms hn hP hmax hcs.2 hes
    have hgoal : (of g).GoalLists (.inner id) (Tree.listLiterals (ds ++ es)) := by
      refine ⟨_, (hg.alternative_own hn List.mem_cons_self).mpr (List.mem_singleton.mpr rfl), ?_⟩
      rw [Tree.listLiterals_append]
      exact (lists_copies hP hcs.1 hds).append htail
    exact hgoal.atom none none

theorem WellFormed.lists_of_matchesAll (hg : g.WellFormed) :
    ∀ {ns : List Node} {cs : List Tree}, (∀ n ∈ ns, g.Occurs n) → MatchesAll ns cs →
      (∀ c ∈ cs, (of g).Readable c) → (of g).Lists (listFlatten ns) (Tree.listLiterals cs)
  | [], cs, _, h, _ => by
    obtain rfl : cs = [] := h
    exact lists_nil
  | n :: ns, cs, hn, h, hcs => by
    obtain ⟨ds, es, rfl, hds, hes⟩ := h
    rw [List.forall_mem_append] at hcs
    rw [listFlatten, Tree.listLiterals_append]
    exact (hg.lists_of_matches (hn n List.mem_cons_self) hds hcs.1).append
      (hg.lists_of_matchesAll (fun m hm => hn m (List.mem_cons_of_mem _ hm)) hes hcs.2)

theorem WellFormed.lists_of_matchesSome (hg : g.WellFormed) :
    ∀ {ns : List Node} {cs : List Tree}, (∀ n ∈ ns, g.Occurs n) → MatchesSome ns cs →
      (∀ c ∈ cs, (of g).Readable c) →
        ∃ atoms ∈ flattenEach ns, (of g).Lists atoms (Tree.listLiterals cs)
  | [], cs, _, h, _ => h.elim
  | n :: ns, cs, hn, h, hcs => by
    rw [MatchesSome] at h
    rcases h with h | h
    · exact ⟨n.flatten, List.mem_cons_self,
        hg.lists_of_matches (hn n List.mem_cons_self) h hcs⟩
    · obtain ⟨atoms, hatoms, hlists⟩ :=
        hg.lists_of_matchesSome (fun m hm => hn m (List.mem_cons_of_mem _ hm)) h hcs
      exact ⟨atoms, List.mem_cons_of_mem _ hatoms, hlists⟩

end

/-- A symbol yields what its rule matches. -/
theorem WellFormed.goalLists_of_matches (hg : g.WellFormed) {name : String} {body : Node}
    (hbody : g.body? name = some body) {cs : List Tree} (hmatch : body.Matches cs)
    (hcs : ∀ c ∈ cs, (of g).Readable c) :
    (of g).GoalLists (.named name) (Tree.listLiterals cs) := by
  have hn := occurs_of_body? hbody
  cases body with
  | choice id options =>
    rw [Matches] at hmatch
    obtain ⟨atoms, hatoms, hlists⟩ := hg.lists_of_matchesSome (fun n hp => hn.of_mem_subnodes
      (mem_subnodes_choice hp n.mem_subnodes_self)) hmatch hcs
    exact ⟨atoms, alternative_named.mpr ⟨_, hbody, hatoms⟩, hlists⟩
  | terminal | charset | reference | sequence | repetition =>
    exact ⟨_, alternative_named.mpr ⟨_, hbody, List.mem_singleton.mpr rfl⟩,
      hg.lists_of_matches hn hmatch hcs⟩

mutual

/-- **Valid trees are readable.** -/
theorem WellFormed.readable (hg : g.WellFormed) : ∀ {t : Tree}, g.Valid t → (of g).Readable t
  | ⟨symbol, children, sources, sender, recipient, readOnly⟩, h => by
    refine ⟨fun value hvalue => h.literals_terminal hvalue, fun name hname => ?_⟩
    obtain rfl : symbol = .nonTerminal name := hname
    obtain ⟨⟨body, hbody, hmatch⟩, hvalid⟩ := h
    rw [Tree.literals_nonTerminal rfl]
    exact hg.goalLists_of_matches hbody hmatch (hg.readableAll hvalid)

theorem WellFormed.readableAll (hg : g.WellFormed) :
    ∀ {ts : List Tree}, g.ValidAll ts → ∀ t ∈ ts, (of g).Readable t
  | [], _, t, ht => absurd ht List.not_mem_nil
  | u :: ts, h, t, ht => by
    rw [ValidAll] at h
    rcases List.mem_cons.mp ht with ht | ht
    · rw [ht]
      exact hg.readable h.1
    · exact hg.readableAll h.2 t ht

end

/-- **A symbol lists exactly the literals of valid trees of the symbol.** -/
theorem WellFormed.goalLists_named (hg : g.WellFormed) (hbare : g.BareNames) {name : String}
    {vs : List Literal} : (of g).GoalLists (.named name) vs ↔
      ∃ t, t.symbol = .nonTerminal name ∧ g.Valid t ∧ t.literals = vs := by
  constructor
  · rintro ⟨atoms, halt, cs, hcs, rfl⟩
    exact ⟨Tree.branch name cs, rfl, (hcs.annotated hg hbare halt).valid,
      Tree.literals_nonTerminal rfl⟩
  · rintro ⟨t, hname, ht, rfl⟩
    exact (hg.readable ht).nonTerminal name hname

/-- **A symbol yields exactly what valid trees of the symbol render as.** -/
theorem WellFormed.goalYields_named (hg : g.WellFormed) (hbare : g.BareNames) {name : String}
    {w : Bytes} : (of g).GoalYields (.named name) w ↔
      ∃ t, t.symbol = .nonTerminal name ∧ g.Valid t ∧ t.toBytes = w := by
  constructor
  · rintro ⟨atoms, halt, cs, hcs, rfl⟩
    exact ⟨Tree.branch name cs, rfl, (hcs.annotated hg hbare halt).valid,
      Tree.toBytes_nonTerminal rfl⟩
  · rintro ⟨t, hname, ht, rfl⟩
    rw [← Tree.flatMap_literals]
    exact ((hg.goalLists_named hbare).mpr ⟨t, hname, ht, rfl⟩).goalYields

end Grammar

end GrammarFuzzing
