import GrammarFuzzing.Proofs.Grammar.Productivity
import GrammarFuzzing.Proofs.Grammar.Reach

/-!
# Reachable names occur

A name that can be reached by references from a symbol occurs below the symbol in some valid tree.
For one reference that asks for a list of children in which the reference is used. A node spells
each of its leaves in some list (`GrammarFuzzing.Grammar.WellFormed.exists_spells`): whatever stands
beside the leaf is spelled somehow, an option with it is chosen, and a repetition has a copy, since
its bounds admit one. All other leaves of the list are filled with any valid trees, which exist
because every rule is productive and no set of characters is empty. So a tree of the name that is
referred to can be put below the symbol (`GrammarFuzzing.Grammar.WellFormed.exists_valid_above`),
and several references make a way down.

With `GrammarFuzzing.Grammar.Valid.transGen_refers`, which goes the other way, the reachable names
are exactly those that occur (`GrammarFuzzing.Document.reachable_occurs`).
-/

namespace GrammarFuzzing

namespace Grammar

open Node Relation

variable {g : Grammar}

/-! ### Lists of leaves with a given leaf -/

mutual

/-- **Every node spells something**, in which a given one of its leaves is used. -/
theorem WellFormed.exists_spells (hg : g.WellFormed) (l : Node) : ∀ {n : Node}, g.Occurs n →
    ∃ ls, n.Spells ls ∧ (l ∈ n.leaves → l ∈ ls)
  | .terminal .., _ | .charset .., _ | .reference .., _ => ⟨_, rfl, fun hl => hl⟩
  | .sequence _ parts, hn => by
    rw [leaves]
    simp only [Spells]
    exact hg.exists_spellsAll l fun n hp => hn.of_mem_subnodes
      (mem_subnodes_sequence hp n.mem_subnodes_self)
  | .choice _ options, hn => by
    rw [leaves]
    simp only [Spells]
    exact hg.exists_spellsSome l (hg.choice_ne_nil hn) fun n hp => hn.of_mem_subnodes
      (mem_subnodes_choice hp n.mem_subnodes_self)
  | .repetition _ body min max _, hn => by
    rw [leaves]
    obtain ⟨ls, hls, hmem⟩ := hg.exists_spells l (n := body)
      (hn.of_mem_subnodes (mem_subnodes_repetition body.mem_subnodes_self))
    -- The least number of copies need not be positive, but a positive one is admitted.
    have hmax : ∀ m, max = some m → Max.max min 1 ≤ m := by
      rintro m rfl
      have := hg.bounds hn
      omega
    refine ⟨_, ⟨Max.max min 1, Nat.le_max_left .., hmax, copies_replicate hls _⟩, fun hl => ?_⟩
    exact List.mem_flatten.mpr ⟨ls, List.mem_replicate.mpr ⟨by omega, rfl⟩, hmem hl⟩

theorem WellFormed.exists_spellsAll (hg : g.WellFormed) (l : Node) : ∀ {ns : List Node},
    (∀ n ∈ ns, g.Occurs n) → ∃ ls, SpellsAll ns ls ∧ (l ∈ listLeaves ns → l ∈ ls)
  | [], _ => ⟨[], rfl, fun hl => hl⟩
  | _ :: _, hns => by
    rw [List.forall_mem_cons] at hns
    obtain ⟨ks, hks, hk⟩ := hg.exists_spells l hns.1
    obtain ⟨ms, hms, hm⟩ := hg.exists_spellsAll l hns.2
    refine ⟨ks ++ ms, ⟨ks, ms, rfl, hks, hms⟩, fun hl => ?_⟩
    rw [listLeaves, List.mem_append] at hl
    exact List.mem_append.mpr (hl.imp hk hm)

theorem WellFormed.exists_spellsSome (hg : g.WellFormed) (l : Node) : ∀ {ns : List Node},
    ns ≠ [] → (∀ n ∈ ns, g.Occurs n) → ∃ ls, SpellsSome ns ls ∧ (l ∈ listLeaves ns → l ∈ ls)
  | [], hne, _ => absurd rfl hne
  | _ :: ns, _, hns => by
    rw [List.forall_mem_cons] at hns
    rw [listLeaves, List.mem_append]
    -- An option with the leaf is chosen, if there is one after the first.
    by_cases hlater : l ∈ listLeaves ns
    · have hne : ns ≠ [] := by
        rintro rfl
        exact List.not_mem_nil hlater
      obtain ⟨ls, hls, hmem⟩ := hg.exists_spellsSome l hne hns.2
      exact ⟨ls, Or.inr hls, fun _ => hmem hlater⟩
    · obtain ⟨ls, hls, hmem⟩ := hg.exists_spells l hns.1
      exact ⟨ls, Or.inl hls, fun hl => hmem (hl.resolve_right hlater)⟩

end

/-! ### Trees above a tree -/

/-- **A name occurs below a symbol**: some valid tree of the symbol has a node of that name under
its root. -/
def OccursBelow (g : Grammar) (s name : String) : Prop :=
  ∃ t path n, t.symbol = .nonTerminal s ∧ g.validate t = .ok () ∧ path ≠ [] ∧
    t.get? path = some n ∧ n.symbol = .nonTerminal name

section Productive

variable (hg : g.WellFormed) (hproductive : g.Productive) (hchars : g.NoEmptyCharset)

include hg hproductive hchars

/-- **Every leaf is filled** with a valid tree. -/
theorem exists_admits {l : Node} (hl : g.Occurs l) (hleaf : l.IsLeaf) :
    ∃ c, l.Admits c ∧ g.Valid c := by
  obtain ⟨c, hc, hvalid⟩ := hchars.exists_marks hl hleaf fun id name sender recipient heq => by
    obtain ⟨body, hbody⟩ := hg.exists_body_of_reference (heq ▸ hl)
    exact hg.exists_annotated hproductive hchars hbody
  exact ⟨c, hc.admits, hvalid.valid⟩

/-- **A valid tree has a valid tree above it** at every symbol whose rule refers to its own. -/
theorem WellFormed.exists_valid_above {a b : String} (h : g.Refers a b) {u : Tree}
    (hu : g.Valid u) (hsymbol : u.symbol = .nonTerminal b) :
    ∃ (t : Tree) (i : Nat), t.symbol = .nonTerminal a ∧ g.Valid t ∧ t.children[i]? = some u := by
  obtain ⟨body, hbody, id, sender, recipient, hl⟩ := refers_iff.mp h
  have hoccurs := occurs_of_body? hbody
  obtain ⟨ls, hls, hmem⟩ := hg.exists_spells (.reference id b sender recipient) hoccurs
  -- The reference is filled with the given tree, and the other leaves with any.
  have hfill : ∀ l ∈ ls, ∃ c,
      (l.Admits c ∧ (l = .reference id b sender recipient → c = u)) ∧ g.Valid c := by
    intro l hl
    by_cases heq : l = .reference id b sender recipient
    · refine ⟨u, ⟨?_, fun _ => rfl⟩, hu⟩
      rw [heq]
      exact decide_eq_true hsymbol
    · have hleaf := mem_leaves_of_spells hls l hl
      obtain ⟨c, hc, hvalid⟩ := exists_admits hg hproductive hchars
        (hoccurs.of_mem_subnodes (mem_subnodes_of_mem_leaves hleaf)) (isLeaf_of_mem_leaves hleaf)
      exact ⟨c, ⟨hc, fun h => absurd h heq⟩, hvalid⟩
  obtain ⟨cs, hcs, hvalid⟩ := exists_forall₂ hfill
  obtain ⟨c, hc, -, hcu⟩ := exists_of_mem_right hcs.flip (hmem hl)
  obtain ⟨i, hi⟩ := List.getElem?_of_mem hc
  refine ⟨Tree.branch a cs, i, rfl, (valid_nonTerminal rfl).mpr ⟨⟨body, hbody, ?_⟩, hvalid⟩, ?_⟩
  · exact matches_iff_lifts.mpr ⟨ls, hls, hcs.imp fun _ _ h => h.1⟩
  · rw [← hcu rfl]
    exact hi

/-- **What can be reached occurs**, by induction on the references from their end. -/
theorem WellFormed.occursBelow_of_transGen {a b : String} (h : TransGen g.Refers a b) :
    g.OccursBelow a b := by
  induction h using TransGen.head_induction_on with
  | @single a href =>
    obtain ⟨body, hbody⟩ := Dictionary.exists_find?_of_mem_keys (href.mem_keys hg)
    obtain ⟨u, hsymbol, hu⟩ := hg.exists_annotated hproductive hchars hbody
    obtain ⟨t, i, ht, hvalid, hi⟩ :=
      hg.exists_valid_above hproductive hchars href hu.valid hsymbol
    refine ⟨t, [i], u, ht, hg.validate_eq_ok.mpr hvalid, List.cons_ne_nil _ _, ?_, hsymbol⟩
    rw [Tree.get?_cons, hi, Option.bind_some, Tree.get?_nil]
  | @head a c href _ ih =>
    obtain ⟨u, path, n, hsymbol, hu, -, hn, hname⟩ := ih
    obtain ⟨t, i, ht, hvalid, hi⟩ := hg.exists_valid_above hproductive hchars href
      (hg.validate_eq_ok.mp hu) hsymbol
    refine ⟨t, i :: path, n, ht, hg.validate_eq_ok.mpr hvalid, List.cons_ne_nil _ _, ?_, hname⟩
    rw [Tree.get?_cons, hi, Option.bind_some, hn]

/-- **The names that occur below a symbol** are those that references lead to. -/
theorem WellFormed.occursBelow_iff {a b : String} :
    g.OccursBelow a b ↔ TransGen g.Refers a b := by
  refine ⟨?_, hg.occursBelow_of_transGen hproductive hchars⟩
  rintro ⟨t, path, n, hsymbol, hvalid, hpath, hn, hname⟩
  exact (hg.validate_eq_ok.mp hvalid).transGen_refers hsymbol hpath hn hname

end Productive

end Grammar

/-- **The reachable names of a symbol are those that occur below it**, in a grammar without empty
sets of characters. The symbol is among them exactly if it is recursive. They are found however the
rules refer to each other: the search goes on until nothing is pending, and any number of rounds
that is greater than that of the rules finds the same. -/
theorem Document.reachable_occurs {doc : Document} {g : Grammar} (h : doc.toGrammar = .ok g)
    (hbare : g.BareNames) (hchars : g.NoEmptyCharset) {s : String} {body : Node}
    (hs : g.body? s = some body) : ∃ found names, g.reachable s = .ok names ∧
      (∀ name, name ∈ names ↔ g.OccursBelow s name) ∧
      (s ∈ names ↔ Relation.TransGen g.Refers s s) ∧ names = SortedSet.ofList found ∧
      g.Searches [] [body] found ∧
      ∀ rounds, g.rules.length < rounds → g.reachFrom rounds [] [body] = .ok found := by
  have hg := wellFormed_of_toGrammar h
  have hproductive := (Draft.builds_of_build h).isProductive
  obtain ⟨found, hsearch, hrounds, hfound⟩ := Grammar.exists_found hg hbare hs
  have hmem : ∀ name, name ∈ SortedSet.ofList found ↔ Relation.TransGen g.Refers s name :=
    fun name => SortedSet.mem_ofList.trans (hfound name)
  refine ⟨found, _, Grammar.reachable_eq_ok hbare hs (hrounds _ (Nat.lt_succ_self _)),
    fun name => ?_, hmem s, rfl, hsearch, hrounds⟩
  rw [hmem, hg.occursBelow_iff hproductive hchars]

/-- Lists of items, of which each is a digit or a list in brackets. -/
def Document.itemLists : Document :=
  ⟨"list", [("digit", .chars "01"),
    ("item", .alt [.ref "digit", .seq [.text "(", .ref "list", .text ")"]]),
    ("list", .seq [.ref "item", .star (.seq [.text ",", .ref "item"])])], []⟩

/-- The lists and the items are recursive, one through the other, and nothing occurs below a
digit. -/
theorem Document.reachable_itemLists : ∃ g, itemLists.toGrammar = .ok g ∧
    g.reachable "list" = .ok ["digit", "item", "list"] ∧ g.OccursBelow "list" "list" ∧
    g.reachable "digit" = .ok [] ∧ ∀ name, ¬ g.OccursBelow "digit" name := by
  have h : itemLists.toGrammar = .ok _ := rfl
  have hbare : ∀ name ∈ ["digit", "item", "list"], bareName name = name := by decide
  obtain ⟨_, names, hlist, hnames, -⟩ :=
    reachable_occurs h hbare (by decide) (s := "list") rfl
  obtain ⟨_, none, hdigit, hnone, -⟩ :=
    reachable_occurs h hbare (by decide) (s := "digit") rfl
  obtain rfl : ["digit", "item", "list"] = names := Except.ok.inj hlist
  obtain rfl : [] = none := Except.ok.inj hdigit
  refine ⟨_, h, hlist, (hnames "list").mp (by decide), hdigit, fun name hname => ?_⟩
  exact absurd ((hnone name).mpr hname) List.not_mem_nil

end GrammarFuzzing
