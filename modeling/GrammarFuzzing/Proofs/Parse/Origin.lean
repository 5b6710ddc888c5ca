import GrammarFuzzing.Proofs.Parse.Search

/-!
# Where parsed nodes come from

Every node below the root of a parsed tree is a terminal, or was made for a reference that occurs in
the grammar and carries the parties which that reference names. So a property of trees that holds of
terminals and is handed up by references holds of all children of a parsed tree
(`GrammarFuzzing.Grammar.parse_induction`), in complete and in incomplete mode alike, and whatever
names the grammar has.
-/

namespace GrammarFuzzing

/-! ### Atoms that are symbols -/

namespace FlatGrammar

/-- **A symbol among the atoms of an alternative is a reference of the grammar**, with its
parties. -/
theorem exists_reference_of_alternative {g : Grammar} {goal : Goal} {atoms : List Atom}
    (h : (of g).Alternative goal atoms) {name : String} {sender recipient : Option String}
    (hatom : Atom.goal (.named name) sender recipient ∈ atoms) :
    ∃ id, g.Occurs (.reference id name sender recipient) := by
  have hflat : ∀ {n : Node}, g.Occurs n → Atom.goal (.named name) sender recipient ∈ n.flatten →
      ∃ id, g.Occurs (.reference id name sender recipient) := by
    intro n hn hmem
    rcases Node.goal_of_mem_flatten hmem with ⟨id, name', hgoal, href⟩ | ⟨m, -, alts, hgoal, -⟩
    · obtain rfl := Goal.named.inj hgoal
      exact ⟨id, hn.of_mem_subnodes href⟩
    · exact absurd hgoal (by simp)
  have heach : ∀ {ns : List Node}, (∀ n ∈ ns, g.Occurs n) → atoms ∈ Node.flattenEach ns →
      ∃ id, g.Occurs (.reference id name sender recipient) := by
    intro ns hns hmem
    obtain ⟨n, hn, rfl⟩ := List.mem_map.mp hmem
    exact hflat (hns n hn) hatom
  have hoptions : ∀ {id : Nat} {options : List Node}, g.Occurs (.choice id options) →
      ∀ n ∈ options, g.Occurs n := fun hn n h =>
    hn.of_mem_subnodes (Node.mem_subnodes_choice h n.mem_subnodes_self)
  rcases own_of_alternative h with ⟨symbol, rfl⟩ | ⟨n, alts, hn, hown, hatoms⟩
  · obtain ⟨body, hbody, hatoms⟩ := alternative_named.mp h
    have hoccurs := Grammar.occurs_of_body? hbody
    cases body with
    | choice id options => exact heach (hoptions hoccurs) hatoms
    | terminal | charset | reference | sequence | repetition =>
      rw [List.mem_singleton.mp hatoms] at hatom
      exact hflat hoccurs hatom
  · cases n with
    | terminal | reference | sequence => simp [Node.ownAlternatives] at hown
    | charset id chars =>
      obtain ⟨-, rfl⟩ := Prod.mk.inj (List.mem_singleton.mp hown)
      obtain ⟨c, -, rfl⟩ := List.mem_map.mp hatoms
      simp at hatom
    | choice id options =>
      obtain ⟨-, rfl⟩ := Prod.mk.inj (List.mem_singleton.mp hown)
      exact heach (hoptions hn) hatoms
    | repetition id body min max form =>
      have hbody := hn.of_mem_subnodes (Node.mem_subnodes_repetition body.mem_subnodes_self)
      have htails : ¬ ∃ alts, (Goal.named name, alts) ∈ Node.tails id body.flatten min max := by
        rintro ⟨alts, hmem⟩
        rcases Node.mem_tails.mp hmem with ⟨-, hgoal, -⟩ | ⟨_, _, -, -, hgoal, -⟩ <;>
          exact absurd hgoal (by simp)
      rcases List.mem_cons.mp hown with hown | hown
      · obtain ⟨-, rfl⟩ := Prod.mk.inj hown
        rw [List.mem_singleton.mp hatoms, List.mem_append] at hatom
        rcases hatom with hatom | hatom
        · obtain ⟨copy, hcopy, hatom⟩ := List.mem_flatten.mp hatom
          rw [(List.mem_replicate.mp hcopy).2] at hatom
          exact hflat hbody hatom
        · exact absurd (Node.tails_of_mem_tailAtoms body.flatten hatom) htails
      · exact hflat hbody ((Node.goal_of_mem_tails hown hatoms hatom).resolve_right htails)

end FlatGrammar

/-! ### Searches -/

namespace Search

variable {f : FlatGrammar} {chart : Chart} {input : Array UInt8} {P : Tree → Prop}

/-- Each symbol among the atoms hands a property up from the children of its node. -/
def HandsUp (P : Tree → Prop) (atoms : List Atom) : Prop :=
  ∀ {name sender recipient}, Atom.goal (.named name) sender recipient ∈ atoms →
    ∀ {cs : List Tree}, (∀ c ∈ cs, P c) → P ⟨.named name, cs, [], sender, recipient, false⟩

theorem HandsUp.tail {atom : Atom} {rest : List Atom} (h : HandsUp P (atom :: rest)) :
    HandsUp P rest :=
  fun hatom => h (List.mem_cons_of_mem _ hatom)

/-- A goal contributes trees with the property if those that it is made of have it. -/
theorem HandsUp.wrap {goal : Goal} {sender recipient : Option String} {rest : List Atom}
    (h : HandsUp P (.goal goal sender recipient :: rest)) {cs : List Tree} (hcs : ∀ c ∈ cs, P c) :
    ∀ t ∈ Search.wrap goal sender recipient cs, P t := by
  cases goal with
  | named name => exact List.forall_mem_singleton.mpr (h List.mem_cons_self hcs)
  | inner | tail => exact hcs

/-- What one search finds before the other has the property if both parts have it. -/
theorem ensures_forall_before {head tail : Search} (hhead : Ensures head fun ts => ∀ t ∈ ts, P t)
    (htail : Ensures tail fun ts => ∀ t ∈ ts, P t) :
    Ensures (before head tail) fun ts => ∀ t ∈ ts, P t := by
  refine (ensures_before hhead htail).mono ?_
  rintro ts ⟨cs, us, rfl, hcs, hus⟩
  exact List.forall_mem_append.mpr ⟨hcs, hus⟩

/-- What is found for a symbol or another goal has the property if what it is made of has it. -/
theorem HandsUp.ensures_wrapped {goal : Goal} {sender recipient : Option String} {rest : List Atom}
    (h : HandsUp P (.goal goal sender recipient :: rest)) {search : Search}
    (hsearch : Ensures search fun ts => ∀ t ∈ ts, P t) :
    Ensures (wrapped goal sender recipient search) fun ts => ∀ t ∈ ts, P t := by
  refine (hsearch.wrapped goal sender recipient).mono ?_
  rintro ts ⟨cs, rfl, hcs⟩
  exact h.wrap hcs

/-- The alternatives of a goal find what their atoms find. -/
theorem ensures_forall_alternatives {atoms : Nat → Production → Search}
    (hup : ∀ {k : Nat} {p : Production}, f.productions[k]? = some p → HandsUp P p.atoms.toList)
    (h : ∀ k p, HandsUp P p.atoms.toList → Ensures (atoms k p) fun ts => ∀ t ∈ ts, P t)
    (goal : Goal) : Ensures (alternatives f atoms goal) fun ts => ∀ t ∈ ts, P t := by
  refine ensures_first fun k _ => ?_
  split
  · exact ensures_none
  · rename_i p hp
    exact h k p (hup hp)

variable (hleaf : ∀ value, P (Tree.leaf value))
include hleaf

theorem ensures_forall_leaf (value : Literal) :
    Ensures (return some [Tree.leaf value]) fun ts => ∀ t ∈ ts, P t :=
  ensures_some (List.forall_mem_singleton.mpr (hleaf value))

/-- Whatever is found for atoms has the property. -/
theorem ensures_forall_atomsChildren {child : Goal → Nat → Nat → Search}
    (hchild : ∀ goal i j, Ensures (child goal i j) fun ts => ∀ t ∈ ts, P t) (k : Nat) :
    ∀ {atoms : List Atom}, HandsUp P atoms → ∀ dot i j,
      Ensures (atomsChildren chart input child k atoms dot i j) fun ts => ∀ t ∈ ts, P t
  | [], _, dot, i, j => by
    rw [atomsChildren]
    split
    · exact ensures_some fun t ht => absurd ht List.not_mem_nil
    · exact ensures_none
  | .literal value :: rest, hup, dot, i, j => by
    rw [atomsChildren]
    refine (Ensures.noting ?_ _).guarded _
    simp only
    split
    · exact ensures_forall_before (ensures_forall_leaf hleaf value)
        (ensures_forall_atomsChildren hchild k hup.tail _ _ _)
    · exact ensures_none
  | .goal goal sender recipient :: rest, hup, dot, i, j => by
    rw [atomsChildren]
    refine (Ensures.noting (ensures_first fun m _ => ?_) _).guarded _
    exact ensures_forall_before (hup.ensures_wrapped (hchild goal i m))
      (ensures_forall_atomsChildren hchild k hup.tail _ _ _)

/-- Whatever is found for atoms where the input ends has the property. -/
theorem ensures_forall_partialAtoms {child : Goal → Nat → Nat → Search}
    {partialChild : Goal → Nat → Search}
    (hchild : ∀ goal i j, Ensures (child goal i j) fun ts => ∀ t ∈ ts, P t)
    (hpartial : ∀ goal i, Ensures (partialChild goal i) fun ts => ∀ t ∈ ts, P t) :
    ∀ {atoms : List Atom}, HandsUp P atoms → ∀ i,
      Ensures (partialAtoms chart input child partialChild atoms i) fun ts => ∀ t ∈ ts, P t
  | [], _, i => by
    rw [partialAtoms]
    split
    · exact ensures_some fun t ht => absurd ht List.not_mem_nil
    · exact ensures_none
  | .literal value :: rest, hup, i => by
    rw [partialAtoms]
    split
    · exact ensures_some fun t ht => absurd ht List.not_mem_nil
    · dsimp only
      split
      · exact ensures_forall_before (ensures_forall_leaf hleaf value)
          (ensures_forall_partialAtoms hchild hpartial hup.tail _)
      · split
        · exact ensures_forall_leaf hleaf _
        · exact ensures_none
  | .goal goal sender recipient :: rest, hup, i => by
    rw [partialAtoms]
    split
    · exact ensures_some fun t ht => absurd ht List.not_mem_nil
    · refine ensures_otherwise (ensures_first fun m _ => ?_) (hup.ensures_wrapped (hpartial goal i))
      exact ensures_forall_before (hup.ensures_wrapped (hchild goal i m))
        (ensures_forall_partialAtoms hchild hpartial hup.tail _)

variable (hup : ∀ {k : Nat} {p : Production}, f.productions[k]? = some p → HandsUp P p.atoms.toList)
include hup

/-- **Whatever is found for a goal has the property.** -/
theorem ensures_forall_goalChildren : ∀ (depth : Nat) (goal : Goal) (i j : Nat),
    Ensures (goalChildren f chart input depth goal i j) fun ts => ∀ t ∈ ts, P t
  | 0, _, _, _ => ensures_none
  | depth + 1, goal, i, j => by
    rw [goalChildren]
    refine (Ensures.noting (Ensures.during ?_ _ _) _).guarded _
    exact ensures_forall_alternatives hup (fun k p hp =>
      ensures_forall_atomsChildren hleaf (ensures_forall_goalChildren depth) k hp 0 i j) goal

/-- Whatever is found for a goal where the input ends has the property. -/
theorem ensures_forall_partialGoal {child : Goal → Nat → Nat → Search}
    (hchild : ∀ goal i j, Ensures (child goal i j) fun ts => ∀ t ∈ ts, P t) :
    ∀ (depth : Nat) (goal : Goal) (i : Nat),
      Ensures (partialGoal f chart input child depth goal i) fun ts => ∀ t ∈ ts, P t
  | 0, _, _ => ensures_none
  | depth + 1, goal, i => by
    rw [partialGoal]
    refine (Ensures.noting (Ensures.during ?_ _ _) _).guarded _
    exact ensures_forall_alternatives hup (fun _ p hp =>
      ensures_forall_partialAtoms hleaf hchild (ensures_forall_partialGoal hchild depth) hp i) goal

/-- All children of a root have the property, in both modes. -/
theorem forall_of_children? {goal : Goal} {mode : ParseMode} {cs : List Tree}
    (h : f.children? chart input goal mode = some cs) : ∀ c ∈ cs, P c := by
  have hwhole : ∀ goal i j,
      Ensures (goalChildren f chart input (f.nestingBound input.size) goal i j)
      fun ts => ∀ t ∈ ts, P t := ensures_forall_goalChildren hleaf hup _
  cases mode with
  | complete => exact hwhole goal 0 input.size _ cs h
  | incomplete =>
    rw [FlatGrammar.children?] at h
    split at h
    · refine ensures_otherwise (hwhole goal 0 input.size) ?_ _ cs h
      exact ensures_forall_partialGoal hleaf hup hwhole _ goal 0
    · exact absurd h (by simp)

end Search

namespace Grammar

/-- **What holds of terminals and is handed up by references holds of the children of a parsed
tree.** The tree is the root over such children, its nested parties removed. -/
theorem parse_induction {g : Grammar} {P : Tree → Prop} (hleaf : ∀ value, P (Tree.leaf value))
    (hnode : ∀ {id name sender recipient}, g.Occurs (.reference id name sender recipient) →
      ∀ {cs : List Tree}, (∀ c ∈ cs, P c) → P ⟨.named name, cs, [], sender, recipient, false⟩)
    {w : Bytes} {s : String} {mode : ParseMode} {t : Tree} (h : g.parse w s mode = .ok t) :
    ∃ cs, (∀ c ∈ cs, P c) ∧
      t = Tree.stripNestedParties ⟨.named (bareName s), cs, [], none, none, false⟩ := by
  have hup : ∀ {k : Nat} {p : Production}, (FlatGrammar.of g).productions[k]? = some p →
      Search.HandsUp P p.atoms.toList := by
    intro k p hp name sender recipient hatom cs hcs
    obtain ⟨id, href⟩ :=
      FlatGrammar.exists_reference_of_alternative ⟨k, p, hp, rfl, rfl⟩ hatom
    exact hnode href hcs
  rw [parse] at h
  dsimp only at h
  split at h
  · exact absurd h (by simp)
  · split at h
    · rename_i cs hcs
      exact ⟨cs, Search.forall_of_children? hleaf hup hcs, (Except.ok.inj h).symm⟩
    · exact absurd h (by simp)

end Grammar

end GrammarFuzzing
