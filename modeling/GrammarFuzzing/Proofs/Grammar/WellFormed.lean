import GrammarFuzzing.Grammar.Document
import GrammarFuzzing.Proofs.Dictionary
import Mathlib.Data.List.Basic

/-!
# Grammars that a draft builds

What every other file asks of a grammar is collected here in `GrammarFuzzing.Grammar.WellFormed`:

* the number of a node that occurs in a rule leads back to the node, so that two occurrences with
  one number are one node;
* references and the dependencies of generators have rules, the bounds of repetitions admit a count
  and are those that the form of the repetition stands for, and choices have options.

Numbers are handed out by `GrammarFuzzing.Draft.add`, one for each new node, so the invariant of a
draft under construction is `GrammarFuzzing.Draft.Numbered`: whatever occurs in one of its nodes is
itself one of its nodes, under its own number. Making a node keeps it
(`GrammarFuzzing.Expression.grows_addTo`), and `GrammarFuzzing.Draft.build` checks the rest
(`GrammarFuzzing.Draft.Builds`). The grammar of a document is well formed whatever generators are
registered with it (`GrammarFuzzing.Document.wellFormed_of_build`).
-/

namespace GrammarFuzzing

/-! ### Nodes within nodes -/

namespace Node

mutual

/-- A node and everything in it. -/
def subnodes : Node → List Node
  | .terminal id value => [.terminal id value]
  | .charset id chars => [.charset id chars]
  | .reference id name sender recipient => [.reference id name sender recipient]
  | .sequence id parts => .sequence id parts :: listSubnodes parts
  | .choice id options => .choice id options :: listSubnodes options
  | .repetition id body min max form => .repetition id body min max form :: body.subnodes

/-- Several nodes and everything in them. -/
def listSubnodes : List Node → List Node
  | [] => []
  | n :: rest => n.subnodes ++ listSubnodes rest

end

theorem mem_listSubnodes {m : Node} {ns : List Node} :
    m ∈ listSubnodes ns ↔ ∃ n ∈ ns, m ∈ n.subnodes := by
  induction ns with
  | nil => simp [listSubnodes]
  | cons n ns ih => simp [listSubnodes, ih]

theorem mem_subnodes_self (n : Node) : n ∈ n.subnodes := by
  cases n <;> simp [subnodes]

theorem mem_subnodes_sequence {m n : Node} {id : Nat} {parts : List Node} (hn : n ∈ parts)
    (hm : m ∈ n.subnodes) : m ∈ (Node.sequence id parts).subnodes := by
  rw [subnodes]
  exact List.mem_cons_of_mem _ (mem_listSubnodes.mpr ⟨n, hn, hm⟩)

theorem mem_subnodes_choice {m n : Node} {id : Nat} {options : List Node} (hn : n ∈ options)
    (hm : m ∈ n.subnodes) : m ∈ (Node.choice id options).subnodes := by
  rw [subnodes]
  exact List.mem_cons_of_mem _ (mem_listSubnodes.mpr ⟨n, hn, hm⟩)

theorem mem_subnodes_repetition {m body : Node} {id min : Nat} {max : Option Nat}
    {form : RepetitionForm} (hm : m ∈ body.subnodes) :
    m ∈ (Node.repetition id body min max form).subnodes := by
  rw [subnodes]
  exact List.mem_cons_of_mem _ hm

mutual

/-- **What lies within a node of a node lies within the node.** -/
theorem subnodes_trans {k m : Node} (hk : k ∈ m.subnodes) :
    ∀ {n : Node}, m ∈ n.subnodes → k ∈ n.subnodes
  | .terminal .., h | .charset .., h | .reference .., h => by
    rw [subnodes, List.mem_singleton] at h
    rwa [← h]
  | .sequence id parts, h => by
    rw [subnodes, List.mem_cons] at h
    rcases h with rfl | h
    · exact hk
    · obtain ⟨n, hn, hkn⟩ := mem_listSubnodes.mp (listSubnodes_trans hk h)
      exact mem_subnodes_sequence hn hkn
  | .choice id options, h => by
    rw [subnodes, List.mem_cons] at h
    rcases h with rfl | h
    · exact hk
    · obtain ⟨n, hn, hkn⟩ := mem_listSubnodes.mp (listSubnodes_trans hk h)
      exact mem_subnodes_choice hn hkn
  | .repetition id body min max form, h => by
    rw [subnodes, List.mem_cons] at h
    rcases h with rfl | h
    · exact hk
    · exact mem_subnodes_repetition (subnodes_trans hk h)

theorem listSubnodes_trans {k m : Node} (hk : k ∈ m.subnodes) :
    ∀ {ns : List Node}, m ∈ listSubnodes ns → k ∈ listSubnodes ns
  | [], h => by simp [listSubnodes] at h
  | n :: ns, h => by
    rw [listSubnodes, List.mem_append] at h ⊢
    exact h.imp (subnodes_trans hk) (listSubnodes_trans hk)

end

mutual

/-- A proper part of a node is smaller than the node. -/
theorem eq_or_sizeOf_lt_of_mem_subnodes {m : Node} :
    ∀ {n : Node}, m ∈ n.subnodes → m = n ∨ sizeOf m < sizeOf n
  | .terminal .., h | .charset .., h | .reference .., h => by
    rw [subnodes, List.mem_singleton] at h
    exact Or.inl h
  | .sequence id parts, h => by
    rw [subnodes, List.mem_cons] at h
    refine h.imp_right fun h => ?_
    have := sizeOf_lt_of_mem_listSubnodes h
    simp only [sequence.sizeOf_spec]
    omega
  | .choice id options, h => by
    rw [subnodes, List.mem_cons] at h
    refine h.imp_right fun h => ?_
    have := sizeOf_lt_of_mem_listSubnodes h
    simp only [choice.sizeOf_spec]
    omega
  | .repetition id body min max form, h => by
    rw [subnodes, List.mem_cons] at h
    refine h.imp_right fun h => ?_
    rcases eq_or_sizeOf_lt_of_mem_subnodes h with rfl | h <;>
      simp only [repetition.sizeOf_spec] <;> omega

theorem sizeOf_lt_of_mem_listSubnodes {m : Node} :
    ∀ {ns : List Node}, m ∈ listSubnodes ns → sizeOf m < sizeOf ns
  | [], h => by simp [listSubnodes] at h
  | n :: ns, h => by
    rw [listSubnodes, List.mem_append] at h
    simp only [List.cons.sizeOf_spec]
    rcases h with h | h
    · rcases eq_or_sizeOf_lt_of_mem_subnodes h with rfl | h <;> omega
    · have := sizeOf_lt_of_mem_listSubnodes h
      omega

end

/-- **The bounds of a repetition that is written as a star, a plus or an option** are those the form
stands for. -/
def FitsForm : Node → Prop
  | .repetition _ _ min max .star => min = 0 ∧ max = none
  | .repetition _ _ min max .plus => min = 1 ∧ max = none
  | .repetition _ _ min max .optional => min = 0 ∧ max = some 1
  | _ => True

/-- Whether a node is a set of no characters. -/
def isEmptyCharset : Node → Bool
  | .charset _ [] => true
  | _ => false

end Node

/-! ### Drafts number their nodes -/

namespace Draft

/-- Everything in a node is a node of the draft, under its own number, and fits its form. -/
def Owns (d : Draft) (n : Node) : Prop :=
  ∀ m ∈ n.subnodes, d.nodes[m.id]? = some m ∧ m.FitsForm

/-- **The nodes of a draft are numbered**: each owns what is in it. -/
def Numbered (d : Draft) : Prop :=
  ∀ n ∈ d.nodes, d.Owns n

/-- One draft comes out of another by making nodes. -/
structure Grows (d e : Draft) : Prop where
  numbered : d.Numbered → e.Numbered
  nodes : ∀ {i : Nat} {n : Node}, d.nodes[i]? = some n → e.nodes[i]? = some n
  rules : e.rules = d.rules

theorem Grows.refl (d : Draft) : d.Grows d :=
  ⟨id, id, rfl⟩

theorem Grows.trans {d e f : Draft} (h₁ : d.Grows e) (h₂ : e.Grows f) : d.Grows f :=
  ⟨h₂.numbered ∘ h₁.numbered, h₂.nodes ∘ h₁.nodes, h₂.rules.trans h₁.rules⟩

theorem Grows.owns {d e : Draft} (h : d.Grows e) {n : Node} (hn : d.Owns n) : e.Owns n :=
  fun m hm => (hn m hm).imp_left h.nodes

/-- **Making a node** out of nodes that the draft owns. -/
theorem grows_add (d : Draft) (make : Nat → Node) (hid : (make d.nodes.size).id = d.nodes.size)
    (hform : (make d.nodes.size).FitsForm)
    (hparts : ∀ m ∈ (make d.nodes.size).subnodes, m = make d.nodes.size ∨
      d.nodes[m.id]? = some m ∧ m.FitsForm) :
    d.Grows (d.add make).2 ∧ (d.add make).2.Owns (d.add make).1 := by
  have hnodes : ∀ {i : Nat} {n : Node}, d.nodes[i]? = some n →
      (d.add make).2.nodes[i]? = some n := by
    intro i n h
    obtain ⟨hi, -⟩ := Array.getElem?_eq_some_iff.mp h
    simp only [add, Array.getElem?_push]
    rw [if_neg (by omega), h]
  have howns : (d.add make).2.Owns (d.add make).1 := by
    intro m hm
    rcases hparts m hm with rfl | h
    · refine ⟨?_, hform⟩
      rw [hid]
      simp [add]
    · exact h.imp_left hnodes
  refine ⟨⟨fun hd n hn => ?_, hnodes, rfl⟩, howns⟩
  rcases Array.mem_push.mp hn with hn | rfl
  · exact fun m hm => (hd n hn m hm).imp_left hnodes
  · exact howns

/-- Making a node without parts. -/
theorem grows_add_leaf (d : Draft) (make : Nat → Node)
    (hid : (make d.nodes.size).id = d.nodes.size) (hform : (make d.nodes.size).FitsForm)
    (hleaf : (make d.nodes.size).subnodes = [make d.nodes.size]) :
    d.Grows (d.add make).2 ∧ (d.add make).2.Owns (d.add make).1 :=
  grows_add d make hid hform fun m hm => Or.inl (by rwa [hleaf, List.mem_singleton] at hm)

/-- Making a node of a list of nodes. -/
theorem grows_add_list {d : Draft} {ns : List Node} (make : List Node → Nat → Node)
    (hid : ∀ ns id, (make ns id).id = id) (hform : ∀ ns id, (make ns id).FitsForm)
    (hmake : ∀ ns id, (make ns id).subnodes = make ns id :: Node.listSubnodes ns)
    (hns : ∀ n ∈ ns, d.Owns n) :
    d.Grows (d.add (make ns)).2 ∧ (d.add (make ns)).2.Owns (d.add (make ns)).1 := by
  refine grows_add d (make ns) (hid _ _) (hform _ _) fun m hm => ?_
  rw [hmake, List.mem_cons] at hm
  refine hm.imp_right fun hm => ?_
  obtain ⟨n, hn, hm⟩ := Node.mem_listSubnodes.mp hm
  exact hns n hn m hm

end Draft

namespace Expression

open Draft

mutual

/-- **The node of an expression** is owned by the draft that has it. -/
theorem grows_addTo : ∀ (e : Expression) (d : Draft),
    d.Grows (e.addTo d).2 ∧ (e.addTo d).2.Owns (e.addTo d).1
  | .text _, _ | .bytes _, _ | .ref _, _ | .message _ _ _, _ | .chars _, _ =>
    grows_add_leaf _ _ rfl trivial rfl
  | .seq parts, d => by
    obtain ⟨hg, ho⟩ := grows_listAddTo parts d
    obtain ⟨hg', ho'⟩ := grows_add_list (fun ns id => .sequence id ns) (fun _ _ => rfl)
      (fun _ _ => trivial) (fun _ _ => rfl) ho
    exact ⟨hg.trans hg', ho'⟩
  | .alt options, d => by
    obtain ⟨hg, ho⟩ := grows_listAddTo options d
    obtain ⟨hg', ho'⟩ := grows_add_list (fun ns id => .choice id ns) (fun _ _ => rfl)
      (fun _ _ => trivial) (fun _ _ => rfl) ho
    exact ⟨hg.trans hg', ho'⟩
  | .star body, d => grows_repeated body d 0 none .star fun _ _ => ⟨rfl, rfl⟩
  | .plus body, d => grows_repeated body d 1 none .plus fun _ _ => ⟨rfl, rfl⟩
  | .optional body, d => grows_repeated body d 0 (some 1) .optional fun _ _ => ⟨rfl, rfl⟩
  | .repeat body min max, d => grows_repeated body d min max .bounded fun _ _ => trivial

theorem grows_repeated (body : Expression) (d : Draft) (min : Nat) (max : Option Nat)
    (form : RepetitionForm) (hform : ∀ id n, (Node.repetition id n min max form).FitsForm) :
    d.Grows ((body.addTo d).2.add fun id => .repetition id (body.addTo d).1 min max form).2 ∧
      ((body.addTo d).2.add fun id => .repetition id (body.addTo d).1 min max form).2.Owns
        ((body.addTo d).2.add fun id => .repetition id (body.addTo d).1 min max form).1 := by
  obtain ⟨hg, ho⟩ := grows_addTo body d
  obtain ⟨hg', ho'⟩ := grows_add (body.addTo d).2
    (fun id => .repetition id (body.addTo d).1 min max form) rfl (hform _ _) (fun m hm => by
      rw [Node.subnodes, List.mem_cons] at hm
      exact hm.imp_right fun hm => ho m hm)
  exact ⟨hg.trans hg', ho'⟩

theorem grows_listAddTo : ∀ (es : List Expression) (d : Draft),
    d.Grows (listAddTo d es).2 ∧ ∀ n ∈ (listAddTo d es).1, (listAddTo d es).2.Owns n
  | [], d => ⟨Grows.refl d, by simp [listAddTo]⟩
  | e :: es, d => by
    obtain ⟨hg, ho⟩ := grows_addTo e d
    obtain ⟨hg', ho'⟩ := grows_listAddTo es (e.addTo d).2
    refine ⟨hg.trans hg', fun n hn => ?_⟩
    rcases List.mem_cons.mp hn with rfl | hn
    · exact hg'.owns ho
    · exact ho' n hn

end

end Expression

/-! ### What a document drafts -/

namespace Draft

/-- A draft whose rules, too, are made of its own nodes. -/
structure Coherent (d : Draft) : Prop where
  numbered : d.Numbered
  rules : ∀ p ∈ d.rules, d.Owns p.2

theorem coherent_empty : Draft.Coherent {} :=
  ⟨by simp [Numbered], by simp⟩

theorem Coherent.rule {d : Draft} (hd : d.Coherent) (name : String) {body : Node}
    (hbody : d.Owns body) : (d.rule name body).Coherent := by
  refine ⟨hd.numbered, fun p hp => ?_⟩
  rcases Dictionary.mem_put hp with rfl | hp
  · exact hbody
  · exact hd.rules p hp

theorem Coherent.grows {d e : Draft} (hd : d.Coherent) (h : d.Grows e) : e.Coherent :=
  ⟨h.numbered hd.numbered, fun p hp => h.owns (hd.rules p (h.rules ▸ hp))⟩

end Draft

/-- **The draft of a document is coherent.** -/
theorem Document.coherent_toDraft (doc : Document) : doc.toDraft.Coherent := by
  have hfold : ∀ (rules : List (String × Expression)) (d : Draft), d.Coherent →
      (rules.foldl (fun (d : Draft) (p : String × Expression) =>
        ((p.2.addTo d).2).rule p.1 (p.2.addTo d).1) d).Coherent := by
    intro rules
    induction rules with
    | nil => exact fun d hd => hd
    | cons p rules ih =>
      intro d hd
      obtain ⟨hg, ho⟩ := Expression.grows_addTo p.2 d
      exact ih _ ((hd.grows hg).rule p.1 ho)
  have h := hfold doc.rules {} Draft.coherent_empty
  exact ⟨h.numbered, h.rules⟩

/-! ### What building checks -/

/-- Checks one after the other pass when each of them passes. -/
theorem forM_eq_ok {ε α : Type} {xs : List α} {check : α → Except ε Unit}
    (h : xs.forM check = .ok ()) : ∀ x ∈ xs, check x = .ok () := by
  induction xs with
  | nil => simp
  | cons x xs ih =>
    have hbind : (check x >>= fun _ => xs.forM check) = .ok () := h
    cases hx : check x with
    | error e =>
      rw [hx] at hbind
      exact absurd hbind (by simp [bind, Except.bind])
    | ok u =>
      rw [hx] at hbind
      intro y hy
      rcases List.mem_cons.mp hy with rfl | hy
      · exact hx
      · exact ih hbind y hy

/-- **A grammar that a draft builds**: it has what the draft has, and passes all checks. -/
structure Draft.Builds (d : Draft) (g : Grammar) : Prop where
  nodes : g.nodes = d.nodes
  rules : g.rules = d.rules
  start : g.start = d.start.getD "start"
  settings : g.settings = d.settings
  generators : g.generators = d.generators
  has_start : g.rules.has g.start = true
  checkNode : ∀ n ∈ d.nodes, d.checkNode n = .ok ()
  checkGenerator : ∀ p ∈ d.generators, d.checkGenerator p.1 p.2 = .ok ()
  productive : ∀ p ∈ g.distances, p.2 ≠ unreachable

theorem Draft.builds_of_build {d : Draft} {g : Grammar} (h : d.build = .ok g) : d.Builds g := by
  rw [build] at h
  simp only [bind, Except.bind, pure, Except.pure, throw, throwThe, MonadExceptOf.throw] at h
  split at h
  · exact absurd h (by simp)
  rename_i hstart
  split at h
  · exact absurd h (by simp)
  rename_i hnodes
  split at h
  · exact absurd h (by simp)
  rename_i hgenerators
  split at h
  · exact absurd h (by simp)
  rename_i hproductive
  obtain rfl := Except.ok.inj h
  refine ⟨rfl, rfl, rfl, rfl, rfl, by simpa using hstart, fun n hn => ?_, ?_, fun p hp => ?_⟩
  · exact forM_eq_ok hnodes n (Array.mem_toList_iff.mpr hn)
  · exact forM_eq_ok hgenerators
  · intro hu
    have hcheck := forM_eq_ok hproductive p hp
    rw [if_pos hu] at hcheck
    exact absurd hcheck (by simp)

/-- The symbol of a checked generator and what it depends on have rules. -/
theorem Draft.has_of_checkGenerator (d : Draft) {name : String} {generator : Generator}
    (h : d.checkGenerator name generator = .ok ()) :
    d.rules.has name = true ∧
      ∀ dependency ∈ generator.dependencies, d.rules.has dependency = true := by
  rw [checkGenerator] at h
  simp only [bind, Except.bind, pure, Except.pure, throw, throwThe, MonadExceptOf.throw] at h
  split at h
  · exact absurd h (by simp)
  rename_i hname
  refine ⟨by simpa using hname, fun dependency hdependency => ?_⟩
  have hcheck := forM_eq_ok h dependency hdependency
  by_contra hno
  rw [if_neg hno] at hcheck
  exact absurd hcheck (by simp)

/-! ### Well-formed grammars -/

namespace Grammar

/-- The distances of a grammar follow from its rules. -/
theorem eq_of_rules {g h : Grammar} (hnodes : g.nodes = h.nodes) (hrules : g.rules = h.rules)
    (hstart : g.start = h.start) (hsettings : g.settings = h.settings)
    (hgenerators : g.generators = h.generators) : g = h := by
  obtain ⟨nodes, rules, start, settings, generators, distances, hdistances⟩ := g
  obtain ⟨nodes', rules', start', settings', generators', distances', hdistances'⟩ := h
  obtain rfl : nodes = nodes' := hnodes
  obtain rfl : rules = rules' := hrules
  subst hstart hsettings hgenerators hdistances hdistances'
  rfl

/-- A node occurs in a rule of the grammar. -/
def Occurs (g : Grammar) (n : Node) : Prop :=
  ∃ p ∈ g.rules, n ∈ p.2.subnodes

theorem Occurs.of_mem_subnodes {g : Grammar} {m n : Node} (hn : g.Occurs n) (hm : m ∈ n.subnodes) :
    g.Occurs m := by
  obtain ⟨p, hp, hn⟩ := hn
  exact ⟨p, hp, Node.subnodes_trans hm hn⟩

theorem occurs_of_body? {g : Grammar} {name : String} {body : Node}
    (h : g.body? name = some body) : g.Occurs body :=
  ⟨_, Dictionary.mem_of_find? h, Node.mem_subnodes_self body⟩

/-- No set of characters in a rule is empty. -/
def NoEmptyCharset (g : Grammar) : Prop :=
  ∀ p ∈ g.rules, ∀ n ∈ p.2.subnodes, n.isEmptyCharset = false

instance (g : Grammar) : Decidable g.NoEmptyCharset :=
  inferInstanceAs (Decidable (∀ p ∈ g.rules, ∀ n ∈ p.2.subnodes, n.isEmptyCharset = false))

theorem NoEmptyCharset.ne_nil {g : Grammar} (hg : g.NoEmptyCharset) {id : Nat} {chars : List Char}
    (hn : g.Occurs (.charset id chars)) : chars ≠ [] := by
  rintro rfl
  obtain ⟨p, hp, hn⟩ := hn
  exact absurd (hg p hp _ hn) (by simp [Node.isEmptyCharset])

/-- The bounds of all repetitions admit a count. -/
structure Bounded (g : Grammar) : Prop where
  bounds : ∀ {id body min max form}, g.Occurs (.repetition id body min (some max) form) →
    0 < max ∧ min ≤ max

/-- **A well-formed grammar**: numbers tell nodes apart, references and dependencies have rules,
bounds admit a count and fit the form, and choices have options. -/
structure WellFormed (g : Grammar) : Prop extends g.Bounded where
  numbered : ∀ {n : Node}, g.Occurs n → g.nodes[n.id]? = some n
  fitsForm : ∀ {n : Node}, g.Occurs n → n.FitsForm
  has_reference : ∀ {id name sender recipient}, g.Occurs (.reference id name sender recipient) →
    g.rules.has name = true
  choice_ne_nil : ∀ {id options}, g.Occurs (.choice id options) → options ≠ []
  has_dependency : ∀ {name generator}, g.generator? name = some generator →
    ∀ dependency ∈ generator.dependencies, g.rules.has dependency = true

/-- **Two occurrences with one number are one node.** -/
theorem WellFormed.eq_of_id_eq {g : Grammar} (hg : g.WellFormed) {m n : Node} (hm : g.Occurs m)
    (hn : g.Occurs n) (h : m.id = n.id) : m = n := by
  have hmn := hg.numbered hm
  rw [h, hg.numbered hn] at hmn
  exact (Option.some.inj hmn).symm

theorem WellFormed.exists_body_of_reference {g : Grammar} (hg : g.WellFormed) {id : Nat}
    {name : String} {sender recipient : Option String}
    (h : g.Occurs (.reference id name sender recipient)) : ∃ body, g.body? name = some body :=
  Option.isSome_iff_exists.mp (hg.has_reference h)

/-- A rule is found under the name without brackets. -/
theorem body?_of_rule {g : Grammar} {name : String} {body : Node} (h : g.rule name = .ok body) :
    g.body? (bareName name) = some body := by
  rw [rule] at h
  split at h
  · exact Except.ok.inj h ▸ ‹_›
  · exact nomatch h

/-- Stripping brackets leaves the names of the rules unchanged. -/
def BareNames (g : Grammar) : Prop :=
  ∀ name ∈ g.rules.keys, bareName name = name

theorem BareNames.of_body? {g : Grammar} (h : g.BareNames) {name : String} {body : Node}
    (hbody : g.body? name = some body) : bareName name = name :=
  h name (Dictionary.mem_keys_of_find? hbody)

/-- So rules are found under their names. -/
theorem BareNames.rule_eq_ok {g : Grammar} (h : g.BareNames) {name : String} {body : Node}
    (hbody : g.body? name = some body) : g.rule name = .ok body := by
  rw [rule, h.of_body? hbody, hbody]

end Grammar

/-- The draft that makes a grammar again is coherent if that which made it is. -/
theorem Draft.Builds.coherent_toDraft {d : Draft} {g : Grammar} (h : d.Builds g)
    (hd : d.Coherent) : g.toDraft.Coherent := by
  refine ⟨fun n hn m hm => ?_, fun p hp m hm => ?_⟩
  · rw [Grammar.toDraft, h.nodes] at hn ⊢
    exact hd.numbered n hn m hm
  · rw [Grammar.toDraft, h.rules] at hp
    rw [Grammar.toDraft, h.nodes]
    exact hd.rules p hp m hm

/-- **A grammar that a coherent draft builds is well formed.** -/
theorem Draft.Coherent.wellFormed {d : Draft} (hd : d.Coherent) {g : Grammar}
    (h : d.build = .ok g) : g.WellFormed := by
  have hb := builds_of_build h
  have howned : ∀ {n : Node}, g.Occurs n → d.nodes[n.id]? = some n ∧ n.FitsForm := by
    rintro n ⟨p, hp, hn⟩
    exact hd.rules p (hb.rules ▸ hp) n hn
  have hchecked : ∀ {n : Node}, g.Occurs n → d.checkNode n = .ok () := fun hn =>
    hb.checkNode _ (Array.mem_of_getElem? (howned hn).1)
  -- Whatever occurs is a node of the draft, and so has been checked.
  refine ⟨⟨fun hn => ?_⟩, fun hn => hb.nodes ▸ (howned hn).1, fun hn => (howned hn).2,
    fun hn => ?_, fun hn hnil => ?_, fun hgenerator dependency hdependency => ?_⟩
  · have hcheck := hchecked hn
    rw [checkNode] at hcheck
    split at hcheck
    · exact absurd hcheck (by simp)
    · omega
  · have hcheck := hchecked hn
    rw [checkNode] at hcheck
    split at hcheck
    · exact hb.rules ▸ ‹_›
    · exact absurd hcheck (by simp)
  · have hcheck := hchecked hn
    rw [hnil, checkNode] at hcheck
    exact absurd hcheck (by simp)
  · have hcheck := hb.checkGenerator _ (hb.generators ▸ Dictionary.mem_of_find? hgenerator)
    rw [hb.rules]
    exact (d.has_of_checkGenerator hcheck).2 dependency hdependency

/-- A registered generator belongs to a symbol with a rule. -/
theorem Draft.Builds.has_generator {d : Draft} {g : Grammar} (hb : d.Builds g) {name : String}
    {generator : Generator} (h : g.generator? name = some generator) : g.rules.has name = true := by
  have hcheck := hb.checkGenerator _ (hb.generators ▸ Dictionary.mem_of_find? h)
  rw [hb.rules]
  exact (d.has_of_checkGenerator hcheck).1

/-- **The grammar of a document is well formed**, whatever generators are registered. -/
theorem Document.wellFormed_of_build {doc : Document} {generators : Dictionary String Generator}
    {g : Grammar} (h : { doc.toDraft with generators := generators }.build = .ok g) :
    g.WellFormed := by
  have hd : Draft.Coherent { doc.toDraft with generators := generators } :=
    ⟨doc.coherent_toDraft.numbered, doc.coherent_toDraft.rules⟩
  exact hd.wellFormed h

theorem Document.wellFormed_of_toGrammar {doc : Document} {g : Grammar}
    (h : doc.toGrammar = .ok g) : g.WellFormed :=
  doc.coherent_toDraft.wellFormed h

end GrammarFuzzing
