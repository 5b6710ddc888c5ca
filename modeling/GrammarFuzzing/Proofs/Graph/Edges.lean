import GrammarFuzzing.Graph.Basic
import GrammarFuzzing.Proofs.Dictionary
import Mathlib.Data.List.Perm.Subperm

/-!
# Edges of a graph

A graph keeps for each place a set of places that can come right after it. So the places that edges
lead to are at most as many as there are edges (`GrammarFuzzing.Graph.length_le_size`). This is what
bounds the rounds in which places are found.

Places are numbered as the nodes of the grammar are. Where numbers tell nodes apart
(`GrammarFuzzing.Grammar.Numbered`), whatever is looked up by a number is about the one node with
that number (`GrammarFuzzing.Grammar.Numbered.find?_filterMap`).
-/

namespace GrammarFuzzing

/-! ### The order of places -/

namespace Vertex

theorem compare_node (i j : Nat) : compare (Vertex.node i) (.node j) = compare i j := by
  change (compare i j).then .eq = _
  rw [Ordering.then_eq]

theorem compare_exit (s t : String) : compare (Vertex.exit s) (.exit t) = compare s t := by
  change (compare s t).then .eq = _
  rw [Ordering.then_eq]

/-- Nodes come before exits. -/
theorem compare_node_exit (i : Nat) (t : String) : compare (Vertex.node i) (.exit t) = .lt := rfl

theorem compare_exit_node (s : String) (j : Nat) : compare (Vertex.exit s) (.node j) = .gt := rfl

instance : Std.LawfulEqOrd Vertex where
  compare_self := by
    rintro (i | s)
    · rw [compare_node, Std.ReflOrd.compare_self]
    · rw [compare_exit, Std.ReflOrd.compare_self]
  eq_of_compare := by
    rintro (i | s) (j | t) h
    · rw [compare_node] at h
      rw [Std.LawfulEqOrd.eq_of_compare h]
    · exact absurd h (by simp [compare_node_exit])
    · exact absurd h (by simp [compare_exit_node])
    · rw [compare_exit] at h
      rw [Std.LawfulEqOrd.eq_of_compare h]

instance : Std.TransOrd Vertex where
  eq_swap := by
    rintro (i | s) (j | t)
    · rw [compare_node, compare_node, Std.OrientedOrd.eq_swap]
    · rfl
    · rfl
    · rw [compare_exit, compare_exit, Std.OrientedOrd.eq_swap]
  isLE_trans := by
    rintro (i | s) (j | t) (k | u) h h'
    all_goals simp only [compare_node, compare_exit, compare_node_exit, compare_exit_node] at *
    · exact Std.TransOrd.isLE_trans h h'
    all_goals first | rfl | exact absurd h (by decide) | exact absurd h' (by decide) | skip
    · exact Std.TransOrd.isLE_trans h h'

end Vertex

/-! ### Sets of places -/

namespace Graph

/-- The places that edges lead to. -/
def targets (g : Graph) : List Vertex :=
  g.edges.flatMap (·.2)

/-- **Every edge leads to one place.** -/
theorem length_targets (g : Graph) : g.targets.length = g.size := by
  rw [targets, size]
  induction g.edges with
  | nil => rfl
  | cons e edges ih => rw [List.flatMap_cons, List.length_append, ih, List.map_cons, sumOf]

theorem mem_targets {g : Graph} {v w : Vertex} (h : w ∈ g.successors v) : w ∈ g.targets := by
  rw [successors] at h
  cases hfind : g.edges.find? v with
  | none =>
    rw [hfind] at h
    exact absurd h List.not_mem_nil
  | some ws =>
    rw [hfind] at h
    exact List.mem_flatMap.mpr ⟨(v, ws), Dictionary.mem_of_find? hfind, h⟩

/-- **Different places that edges lead to are at most as many as there are edges.** -/
theorem length_le_size {g : Graph} {vs : List Vertex} (hnodup : vs.Nodup)
    (h : ∀ v ∈ vs, v ∈ g.targets) : vs.length ≤ g.size := by
  rw [← g.length_targets]
  exact (List.subperm_of_subset hnodup h).length_le

/-- A graph in which the places after each place are in increasing order. -/
def Ordered (g : Graph) : Prop :=
  ∀ v, (g.successors v).Pairwise fun a b => compare a b = .lt

theorem Ordered.nodup {g : Graph} (h : g.Ordered) (v : Vertex) : (g.successors v).Nodup :=
  SortedSet.nodup_of_sorted (h v)

end Graph

/-! ### Nodes by their numbers -/

/-- **Numbers tell the nodes of a grammar apart.** -/
def Grammar.Numbered (g : Grammar) : Prop :=
  ∀ n ∈ g.nodes, g.nodes[n.id]? = some n

namespace Grammar.Numbered

variable {g : Grammar} {n : Node}

theorem eq_of_id_eq (hg : g.Numbered) {m n : Node} (hm : m ∈ g.nodes) (hn : n ∈ g.nodes)
    (h : m.id = n.id) : m = n := by
  have hmn := hg m hm
  rw [h, hg n hn] at hmn
  exact (Option.some.inj hmn).symm

/-- **What is kept of nodes by their numbers is found there.** -/
theorem find?_filterMap {β : Type} (hg : g.Numbered) {f : Node → Option (Nat × β)}
    (hf : ∀ m p, f m = some p → p.1 = m.id) (hn : n ∈ g.nodes) :
    Dictionary.find? (g.nodes.toList.filterMap f) n.id = (f n).map (·.2) := by
  cases hfind : Dictionary.find? (g.nodes.toList.filterMap f) n.id with
  | some value =>
    obtain ⟨m, hm, hkept⟩ := List.mem_filterMap.mp (Dictionary.mem_of_find? hfind)
    obtain rfl := hg.eq_of_id_eq (Array.mem_toList_iff.mp hm) hn (hf m _ hkept).symm
    rw [hkept, Option.map_some]
  | none =>
    cases hkept : f n with
    | none => rfl
    | some p =>
      have hmem : p ∈ g.nodes.toList.filterMap f :=
        List.mem_filterMap.mpr ⟨n, Array.mem_toList_iff.mpr hn, hkept⟩
      have hkey : n.id ∈ Dictionary.keys (g.nodes.toList.filterMap f) :=
        List.mem_map.mpr ⟨p, hmem, hf n p hkept⟩
      obtain ⟨value, hvalue⟩ := Dictionary.exists_find?_of_mem_keys hkey
      rw [hfind] at hvalue
      exact absurd hvalue (by simp)

/-- A terminal is found by its number. -/
theorem find?_terminals (hg : g.Numbered) {id : Nat} {value : Literal}
    (hn : .terminal id value ∈ g.nodes) :
    (Graph.ofGrammar g).terminals.find? id = some value := by
  refine (hg.find?_filterMap (fun m p h => ?_) hn).trans rfl
  cases m with
  | terminal => exact Option.some.inj h ▸ rfl
  | charset | reference | sequence | choice | repetition => exact absurd h (by simp)

/-- **Only messages cost a turn.** -/
theorem cost_eq_zero (hg : g.Numbered) (hn : n ∈ g.nodes) (hsender : n.sender? = none) :
    (Graph.ofGrammar g).cost (.node n.id) = 0 := by
  refine if_neg fun hcontains => ?_
  obtain ⟨m, hm, hid⟩ := List.mem_map.mp (List.contains_iff_mem.mp hcontains)
  obtain ⟨hm, hmessage⟩ := List.mem_filter.mp hm
  obtain rfl := hg.eq_of_id_eq (Array.mem_toList_iff.mp hm) hn hid
  rw [hsender] at hmessage
  exact absurd hmessage (by simp)

end Grammar.Numbered

/-- A place that holds a value is a terminal with the value. -/
theorem Graph.exists_terminal_of_holds {g : Grammar} {value : Literal} {v : Vertex}
    (h : (Graph.ofGrammar g).holds value v = true) :
    ∃ id, v = .node id ∧ .terminal id value ∈ g.nodes := by
  cases v with
  | node id =>
    have hfind : (Graph.ofGrammar g).terminals.find? id = some value := of_decide_eq_true h
    obtain ⟨n, hn, hkept⟩ := List.mem_filterMap.mp (Dictionary.mem_of_find? hfind)
    cases n with
    | terminal =>
      obtain ⟨rfl, rfl⟩ := Prod.mk.inj (Option.some.inj hkept)
      exact ⟨_, rfl, Array.mem_toList_iff.mp hn⟩
    | charset | reference | sequence | choice | repetition => exact absurd hkept (by simp)
  | exit rule => exact absurd h (by simp [holds])

theorem Graph.cost_le_one (g : Graph) (v : Vertex) : g.cost v ≤ 1 := by
  cases v with
  | node id =>
    rw [cost]
    split
    · exact Nat.le_refl 1
    · exact Nat.zero_le 1
  | exit rule => exact Nat.zero_le 1

end GrammarFuzzing
