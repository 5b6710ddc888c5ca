import GrammarFuzzing.Tree.Path
import Mathlib.Data.List.Nodup

/-!
# The nodes of a tree and their paths

`GrammarFuzzing.Tree.nodes` lists the nodes of a tree with their paths, and
`GrammarFuzzing.Tree.get?` looks a path up. The two agree: a node is listed with a path exactly when
it is found there (`GrammarFuzzing.Tree.mem_nodes`), and every path is listed once
(`GrammarFuzzing.Tree.nodup_nodes`). So the paths that `GrammarFuzzing.Tree.findAll` gives for a
symbol are its occurrences, each once (`GrammarFuzzing.Tree.mem_findAll`,
`GrammarFuzzing.Tree.nodup_findAll`).

A change at a path is seen at that path, below it and, as another subtree, above it. Elsewhere
nothing changes (`GrammarFuzzing.Tree.get?_modify?_of_apart`), and above it only the children do
(`GrammarFuzzing.Tree.map_get?_modify?`).
-/

namespace GrammarFuzzing.Tree

theorem get?_nil (t : Tree) : t.get? [] = some t := by
  obtain ⟨symbol, children, sources, sender, recipient, readOnly⟩ := t
  rfl

theorem get?_cons (t : Tree) (i : Nat) (path : Path) :
    t.get? (i :: path) = t.children[i]?.bind fun c => c.get? path := by
  rw [get?]
  cases t.children[i]? <;> rfl

/-- **A node below the root is modified** in the child that its path leads through. -/
theorem modify?_cons_eq_some {f : Tree → Tree} {t u : Tree} {i : Nat} {path : Path} :
    t.modify? f (i :: path) = some u ↔ ∃ c d, t.children[i]? = some c ∧ c.modify? f path = some d ∧
      u = { t with children := t.children.set i d } := by
  rw [modify?]
  cases hc : t.children[i]? with
  | none => simp
  | some c =>
    cases hd : c.modify? f path with
    | none => simp [hd]
    | some d => simp [hd, eq_comm]

/-- A node that is there can be modified. -/
theorem exists_modify {f : Tree → Tree} {path : Path} {old : Tree} : ∀ {t : Tree},
    t.get? path = some old → ∃ u, t.modify? f path = some u := by
  induction path with
  | nil => exact fun _ => ⟨_, rfl⟩
  | cons i path ih =>
    intro t hold
    rw [get?_cons] at hold
    obtain ⟨c, hc, hold⟩ := Option.bind_eq_some_iff.mp hold
    obtain ⟨d, hd⟩ := ih hold
    exact ⟨_, modify?_cons_eq_some.mpr ⟨c, d, hc, hd, rfl⟩⟩

/-- A path leads on from where its first part ends. -/
theorem get?_append (p q : Path) : ∀ t : Tree,
    t.get? (p ++ q) = (t.get? p).bind fun n => n.get? q := by
  induction p with
  | nil => exact fun t => by rw [List.nil_append, get?_nil, Option.bind_some]
  | cons i p ih =>
    intro t
    rw [List.cons_append, get?_cons, get?_cons, Option.bind_assoc]
    simp only [ih]

/-! ### What a change leaves alone -/

/-- What stands at the path that was modified. -/
theorem get?_modify? {f : Tree → Tree} {path : Path} {old : Tree} : ∀ {t u : Tree},
    t.modify? f path = some u → t.get? path = some old → u.get? path = some (f old) := by
  induction path with
  | nil =>
    rintro t _ ⟨⟩ hold
    obtain rfl := Option.some.inj ((get?_nil t).symm.trans hold)
    exact get?_nil _
  | cons i path ih =>
    intro t u hu hold
    obtain ⟨c, d, hc, hd, rfl⟩ := modify?_cons_eq_some.mp hu
    obtain ⟨hi, -⟩ := List.getElem?_eq_some_iff.mp hc
    rw [get?_cons, hc, Option.bind_some] at hold
    rw [get?_cons, List.getElem?_set_self hi, Option.bind_some]
    exact ih hd hold

/-- **What a node has besides its children** is the same wherever the path does not lead through the
node that was modified. -/
theorem map_get?_modify? {α : Type} {own : Tree → α}
    (hown : ∀ (t : Tree) (children : List Tree), own { t with children := children } = own t)
    {f : Tree → Tree} {path : Path} : ∀ {t u : Tree} {q : Path}, t.modify? f path = some u →
      ¬ path <+: q → (u.get? q).map own = (t.get? q).map own := by
  induction path with
  | nil => exact fun _ hq => absurd List.nil_prefix hq
  | cons i path ih =>
    intro t u q hu hq
    obtain ⟨c, d, hc, hd, rfl⟩ := modify?_cons_eq_some.mp hu
    obtain ⟨hi, -⟩ := List.getElem?_eq_some_iff.mp hc
    cases q with
    | nil => rw [get?_nil, get?_nil, Option.map_some, Option.map_some, hown]
    | cons j q =>
      rw [get?_cons, get?_cons]
      by_cases hij : i = j
      · subst hij
        rw [List.getElem?_set_self hi, hc, Option.bind_some, Option.bind_some]
        exact ih hd fun hprefix => hq (List.cons_prefix_cons.mpr ⟨rfl, hprefix⟩)
      · rw [List.getElem?_set_ne hij]

/-- **Whole subtrees are the same** wherever the path neither leads to the node that was modified
nor through it. -/
theorem get?_modify?_of_apart {f : Tree → Tree} {path : Path} : ∀ {t u : Tree} {q : Path},
    t.modify? f path = some u → ¬ path <+: q → ¬ q <+: path → u.get? q = t.get? q := by
  induction path with
  | nil => exact fun _ hq => absurd List.nil_prefix hq
  | cons i path ih =>
    intro t u q hu hq hq'
    obtain ⟨c, d, hc, hd, rfl⟩ := modify?_cons_eq_some.mp hu
    obtain ⟨hi, -⟩ := List.getElem?_eq_some_iff.mp hc
    cases q with
    | nil => exact absurd List.nil_prefix hq'
    | cons j q =>
      rw [get?_cons, get?_cons]
      by_cases hij : i = j
      · subst hij
        rw [List.getElem?_set_self hi, hc, Option.bind_some, Option.bind_some]
        exact ih hd (fun hprefix => hq (List.cons_prefix_cons.mpr ⟨rfl, hprefix⟩))
          fun hprefix => hq' (List.cons_prefix_cons.mpr ⟨rfl, hprefix⟩)
      · rw [List.getElem?_set_ne hij]

/-! ### Listed nodes -/

mutual

/-- **A node is listed with a path exactly when it is found there.** -/
theorem mem_nodes : ∀ {t n : Tree} {path : Path}, (path, n) ∈ t.nodes ↔ t.get? path = some n
  | ⟨symbol, children, sources, sender, recipient, readOnly⟩, n, path => by
    rw [nodes, List.mem_cons, mem_listNodes]
    cases path with
    | nil => simp [get?_nil, eq_comm]
    | cons i path =>
      rw [get?_cons, Option.bind_eq_some_iff]
      simp

/-- The nodes listed below children from an index on. -/
theorem mem_listNodes : ∀ {ts : List Tree} {i : Nat} {n : Tree} {path : Path},
    (path, n) ∈ listNodes i ts ↔
      ∃ j below c, path = (i + j) :: below ∧ ts[j]? = some c ∧ c.get? below = some n
  | [], i, n, path => by simp [listNodes]
  | t :: ts, i, n, path => by
    have hrest : (path, n) ∈ listNodes (i + 1) ts ↔ ∃ j below c, path = (i + 1 + j) :: below ∧
        ts[j]? = some c ∧ c.get? below = some n := mem_listNodes
    rw [listNodes, List.mem_append, hrest]
    constructor
    · rintro (h | ⟨j, below, c, rfl, hc, hn⟩)
      · obtain ⟨⟨below, m⟩, hm, heq⟩ := List.mem_map.mp h
        obtain ⟨rfl, rfl⟩ := Prod.mk.inj heq
        exact ⟨0, below, t, rfl, rfl, mem_nodes.mp hm⟩
      · exact ⟨j + 1, below, c, by rw [Nat.add_right_comm, Nat.add_assoc], hc, hn⟩
    · rintro ⟨j, below, c, rfl, hc, hn⟩
      cases j with
      | zero =>
        obtain rfl : t = c := by simpa using hc
        exact Or.inl (List.mem_map.mpr ⟨(below, n), mem_nodes.mpr hn, rfl⟩)
      | succ j =>
        exact Or.inr ⟨j, below, c, by rw [Nat.add_right_comm, Nat.add_assoc], hc, hn⟩

end

theorem le_of_mem_listNodes {ts : List Tree} {i : Nat} {path : Path}
    (h : path ∈ (listNodes i ts).map (·.1)) : ∃ k below, path = k :: below ∧ i ≤ k := by
  obtain ⟨⟨path, n⟩, hn, rfl⟩ := List.mem_map.mp h
  obtain ⟨j, below, -, rfl, -⟩ := mem_listNodes.mp hn
  exact ⟨i + j, below, rfl, Nat.le_add_right i j⟩

mutual

/-- **Every path is listed once.** -/
theorem nodup_nodes : ∀ t : Tree, (t.nodes.map (·.1)).Nodup
  | ⟨symbol, children, sources, sender, recipient, readOnly⟩ => by
    rw [nodes, List.map_cons, List.nodup_cons]
    refine ⟨fun h => ?_, nodup_listNodes children 0⟩
    obtain ⟨k, below, hpath, -⟩ := le_of_mem_listNodes h
    exact absurd hpath (by simp)

theorem nodup_listNodes : ∀ (ts : List Tree) (i : Nat), ((listNodes i ts).map (·.1)).Nodup
  | [], i => by simp [listNodes]
  | t :: ts, i => by
    rw [listNodes, List.map_append, List.map_map]
    have hmap : ((·.1) ∘ fun n : Path × Tree => (i :: n.1, n.2)) = (i :: ·) ∘ (·.1) := rfl
    rw [hmap, ← List.map_map]
    refine List.Nodup.append ((nodup_nodes t).map fun p q h => (List.cons.inj h).2)
      (nodup_listNodes ts (i + 1)) ?_
    -- paths into the first child start with `i`, the others with something greater
    intro path hfirst hlater
    obtain ⟨below, -, rfl⟩ := List.mem_map.mp hfirst
    obtain ⟨k, below', hpath, hk⟩ := le_of_mem_listNodes hlater
    rw [(List.cons.inj hpath).1] at hk
    omega

end

/-- **The paths found for a symbol are its occurrences.** -/
theorem mem_findAll {t : Tree} {s : Symbol} {path : Path} :
    path ∈ t.findAll s ↔ ∃ n, t.get? path = some n ∧ n.symbol = s := by
  rw [findAll, List.mem_map]
  constructor
  · rintro ⟨⟨path, n⟩, hn, rfl⟩
    obtain ⟨hmem, hs⟩ := List.mem_filter.mp hn
    exact ⟨n, mem_nodes.mp hmem, by simpa using hs⟩
  · rintro ⟨n, hn, hs⟩
    exact ⟨(path, n), List.mem_filter.mpr ⟨mem_nodes.mpr hn, by simpa using hs⟩, rfl⟩

/-- Each occurrence of a symbol is found once. -/
theorem nodup_findAll (t : Tree) (s : Symbol) : (t.findAll s).Nodup :=
  (nodup_nodes t).sublist (List.filter_sublist.map _)

mutual

/-- Every node is listed. -/
theorem length_nodes : ∀ t : Tree, t.nodes.length = t.size
  | ⟨symbol, children, sources, sender, recipient, readOnly⟩ => by
    rw [nodes, List.length_cons, length_listNodes children 0, size, Nat.add_comm]

theorem length_listNodes : ∀ (ts : List Tree) (i : Nat), (listNodes i ts).length = listSize ts
  | [], i => by rw [listNodes, listSize, List.length_nil]
  | t :: ts, i => by
    rw [listNodes, List.length_append, List.length_map, length_nodes t, length_listNodes ts (i + 1),
      listSize]

end

/-- A symbol occurs at most as often as there are nodes. -/
theorem length_findAll_le (t : Tree) (s : Symbol) : (t.findAll s).length ≤ t.size := by
  rw [findAll, List.length_map, ← length_nodes t]
  exact List.length_filter_le ..

end GrammarFuzzing.Tree
