import GrammarFuzzing.Proofs.Grammar.WellFormed
import GrammarFuzzing.Proofs.Graph.Edges

/-!
# The edges that rules have

What a rule contributes to the graph of a grammar can be told without the graph: the places from
which a node is left (`GrammarFuzzing.Node.exits`), and the edges inside it
(`GrammarFuzzing.Node.edges`), which depend on the node and on the bodies of the rules that it
refers to. The graph has exactly these edges (`GrammarFuzzing.Graph.mem_successors_ofGrammar`),
although it is built by visits that remember the nodes they have been to, and by entering rules in
the middle of others.

* A visit adds the edges inside the node and returns its exits, whatever was visited before
  (`GrammarFuzzing.GraphBuilder.visited_visit`). What is remembered of a node is right because
  numbers tell nodes apart.
* Entering a rule adds its edges, and those of all rules that are entered on the way
  (`GrammarFuzzing.GraphBuilder.grown_enterRule`). A rule that is still being visited when a
  reference leads back to it is complete in the end.

Rules are entered under the names in references, hence the condition that names are bare.
-/

namespace GrammarFuzzing

/-! ### Exits and edges of nodes -/

namespace Node

mutual

/-- **The places from which a node is left.** -/
def exits : Node → List Vertex
  | .terminal id _ => [.node id]
  | .charset id _ => [.node id]
  | .reference _ name _ _ => [.exit name]
  | .sequence id parts => sequenceExits [.node id] parts
  | .choice _ options => choiceExits [] options
  | .repetition id body min _ _ =>
    if min = 0 then SortedSet.insert (.node id) body.exits else body.exits

/-- The places from which a sequence is left that was entered from some places. -/
def sequenceExits (entered : List Vertex) : List Node → List Vertex
  | [] => entered
  | n :: rest =>
    sequenceExits (if n.skippable then SortedSet.union entered n.exits else n.exits) rest

/-- The places from which a choice is left, besides some others. -/
def choiceExits (found : List Vertex) : List Node → List Vertex
  | [] => found
  | n :: rest => choiceExits (SortedSet.union found n.exits) rest

end

/-- The other places are among the exits. -/
theorem mem_choiceExits {v : Vertex} {found : List Vertex} (options : List Node) (h : v ∈ found) :
    v ∈ choiceExits found options := by
  induction options generalizing found with
  | nil => exact h
  | cons n rest ih => exact ih (SortedSet.mem_union.mpr (Or.inl h))

/-- The edges from some places to another one. -/
def edgesTo (vs : List Vertex) (w : Vertex) : List (Vertex × Vertex) :=
  vs.map fun v => (v, w)

mutual

/-- **The edges inside a node**, where `rule` tells the body of each rule. -/
def edges (rule : String → Option Node) : Node → List (Vertex × Vertex)
  | .terminal _ _ => []
  | .charset _ _ => []
  | .reference id name _ _ => (rule name).toList.map fun body => (.node id, .node body.id)
  | .sequence id parts => sequenceEdges rule [.node id] parts
  | .choice id options => choiceEdges rule id options
  | .repetition id body _ max _ =>
    body.edges rule ++ (.node id, .node body.id) ::
      if max.all fun m => m > 1 then edgesTo body.exits (.node body.id) else []

/-- The edges of a sequence that is entered from some places. -/
def sequenceEdges (rule : String → Option Node) (entered : List Vertex) :
    List Node → List (Vertex × Vertex)
  | [] => []
  | n :: rest =>
    n.edges rule ++ (edgesTo entered (.node n.id) ++
      sequenceEdges rule (if n.skippable then SortedSet.union entered n.exits else n.exits) rest)

/-- The edges of a choice. -/
def choiceEdges (rule : String → Option Node) (id : Nat) : List Node → List (Vertex × Vertex)
  | [] => []
  | n :: rest => (.node id, .node n.id) :: (n.edges rule ++ choiceEdges rule id rest)

end

end Node

namespace Grammar

/-- The edges of a rule: those inside its body, and those to its exit. -/
def ruleEdges (g : Grammar) (name : String) (body : Node) : List (Vertex × Vertex) :=
  body.edges g.body? ++ Node.edgesTo body.exits (.exit name)

/-- **A rule of the grammar has an edge.** -/
def HasEdge (g : Grammar) (e : Vertex × Vertex) : Prop :=
  ∃ name body, g.body? name = some body ∧ e ∈ g.ruleEdges name body

end Grammar

/-! ### Adding edges -/

namespace GraphBuilder

/-- The graph that is being built has an edge. -/
def Has (b : GraphBuilder) (e : Vertex × Vertex) : Prop :=
  e.2 ∈ (b.edges.find? e.1).getD []

variable {b c : GraphBuilder} {e : Vertex × Vertex} {v w : Vertex} {vs : List Vertex}

theorem find?_edge (b : GraphBuilder) (v w x : Vertex) : ((b.edge v w).edges.find? x).getD [] =
    if v = x then SortedSet.insert w ((b.edges.find? x).getD [])
    else (b.edges.find? x).getD [] := by
  rw [edge]
  split
  · rename_i h
    subst h
    rw [Dictionary.find?_put_self, Option.getD_some]
  · rw [Dictionary.find?_put_of_ne ‹_›]

theorem has_edge : (b.edge v w).Has e ↔ e = (v, w) ∨ b.Has e := by
  obtain ⟨x, y⟩ := e
  rw [Has, Has, find?_edge]
  split
  · rename_i h
    subst h
    simp
  · rename_i h
    simp [Prod.ext_iff, Ne.symm h]

theorem has_edgesFrom : (b.edgesFrom vs w).Has e ↔ e ∈ Node.edgesTo vs w ∨ b.Has e := by
  rw [edgesFrom, Node.edgesTo]
  induction vs generalizing b with
  | nil => simp
  | cons v vs ih => rw [List.foldl_cons, ih, has_edge, List.map_cons, List.mem_cons, or_left_comm,
      or_assoc]

/-! ### Visits -/

variable {g : Grammar}

/-- **The invariant of building a graph**: what is remembered of a node is what a visit would find,
and its edges are there; there are no other edges than those of rules, each set of them in order. -/
structure Sound (g : Grammar) (b : GraphBuilder) : Prop where
  memo : ∀ {n : Node}, g.Occurs n → ∀ ends, b.ends.find? n.id = some ends →
    ends = n.exits ∧ ∀ e ∈ n.edges g.body?, b.Has e
  only : ∀ e, b.Has e → g.HasEdge e
  ordered : ∀ v, ((b.edges.find? v).getD []).Pairwise fun x y => compare x y = .lt

/-- **What building on adds**: edges, and rules with all their edges. -/
structure Grown (g : Grammar) (b c : GraphBuilder) : Prop where
  sound : c.Sound g
  has : ∀ e, b.Has e → c.Has e
  entered : ∀ name ∈ b.entered, name ∈ c.entered
  complete : ∀ name ∈ c.entered, name ∈ b.entered ∨
    ∀ body, g.body? name = some body → ∀ e ∈ g.ruleEdges name body, c.Has e

theorem Sound.grown (h : b.Sound g) : Grown g b b :=
  ⟨h, fun _ he => he, fun _ hn => hn, fun _ hn => Or.inl hn⟩

theorem Grown.trans {d : GraphBuilder} (h : Grown g b c) (h' : Grown g c d) : Grown g b d := by
  refine ⟨h'.sound, fun e he => h'.has e (h.has e he), fun n hn => h'.entered n (h.entered n hn),
    fun n hn => ?_⟩
  rcases h'.complete n hn with hn | hcomplete
  · refine (h.complete n hn).imp_right fun hcomplete body hbody e he => ?_
    exact h'.has e (hcomplete body hbody e he)
  · exact Or.inr hcomplete

/-- Adding an edge of a rule. -/
theorem Sound.edge (h : b.Sound g) (he : g.HasEdge (v, w)) : Grown g b (b.edge v w) := by
  refine ⟨⟨fun hn ends hends => ?_, fun e he' => ?_, fun x => ?_⟩,
    fun e he => has_edge.mpr (Or.inr he), fun _ hn => hn, fun _ hn => Or.inl hn⟩
  · obtain ⟨hends, hinside⟩ := h.memo hn ends hends
    exact ⟨hends, fun e he => has_edge.mpr (Or.inr (hinside e he))⟩
  · rcases has_edge.mp he' with rfl | he'
    · exact he
    · exact h.only e he'
  · rw [find?_edge]
    split
    · exact SortedSet.sorted_insert _ (h.ordered x)
    · exact h.ordered x

theorem Sound.edgesFrom (h : b.Sound g) (he : ∀ e ∈ Node.edgesTo vs w, g.HasEdge e) :
    Grown g b (b.edgesFrom vs w) := by
  rw [GraphBuilder.edgesFrom]
  induction vs generalizing b with
  | nil => exact h.grown
  | cons v vs ih =>
    obtain ⟨hv, hvs⟩ := List.forall_mem_cons.mp he
    have hedge := h.edge hv
    exact hedge.trans (ih hedge.sound hvs)

/-- **What a visit comes to**, if something has some exits and some edges. -/
structure Visited (g : Grammar) (exits : List Vertex) (edges : List (Vertex × Vertex))
    (b : GraphBuilder) (r : List Vertex × GraphBuilder) : Prop where
  ends : r.1 = exits
  grown : Grown g b r.2
  inside : ∀ e ∈ edges, r.2.Has e

/-- **A node that occurs is visited once.** -/
theorem visited_once (hg : g.WellFormed) {n : Node} (hn : g.Occurs n)
    {visit : GraphBuilder → List Vertex × GraphBuilder} (hb : b.Sound g)
    (h : Visited g n.exits (n.edges g.body?) b (visit b)) :
    Visited g n.exits (n.edges g.body?) b (once n.id visit b) := by
  rw [once]
  cases hfind : b.ends.find? n.id with
  | some ends =>
    obtain ⟨hends, hinside⟩ := hb.memo hn ends hfind
    exact ⟨hends, hb.grown, hinside⟩
  | none =>
    obtain ⟨hends, hgrown, hinside⟩ := h
    refine ⟨hends, ⟨⟨fun {m} hm ends hfound => ?_, hgrown.sound.only, hgrown.sound.ordered⟩,
      hgrown.has, hgrown.entered, hgrown.complete⟩, hinside⟩
    -- Another node has another number.
    by_cases hid : n.id = m.id
    · obtain rfl := hg.eq_of_id_eq hn hm hid
      rw [Dictionary.find?_put_self] at hfound
      exact ⟨(Option.some.inj hfound).symm.trans hends, hinside⟩
    · rw [Dictionary.find?_put_of_ne hid] at hfound
      exact hgrown.sound.memo hm ends hfound

/-- **References are followed**: the edge into the rule is added, besides others. -/
def Follows (g : Grammar) (follow : Nat → String → GraphBuilder → GraphBuilder) : Prop :=
  ∀ {id name target b}, g.body? name = some target → b.Sound g →
    g.HasEdge (.node id, .node target.id) →
      Grown g b (follow id name b) ∧ (follow id name b).Has (.node id, .node target.id)

variable {visitor : Nat → String → GraphBuilder → GraphBuilder}

mutual

/-- **Visiting a node** adds the edges inside it, and finds its exits. -/
theorem visited_visit (hg : g.WellFormed) (hfollow : Follows g visitor) : ∀ {n : Node}
    {b : GraphBuilder}, g.Occurs n → (∀ e ∈ n.edges g.body?, g.HasEdge e) → b.Sound g →
      Visited g n.exits (n.edges g.body?) b (n.visit visitor b)
  | .terminal .., b, hn, _, hb | .charset .., b, hn, _, hb => by
    rw [Node.visit]
    refine visited_once hg hn hb ?_
    rw [Node.exits, Node.edges]
    exact ⟨rfl, hb.grown, fun e he => absurd he List.not_mem_nil⟩
  | .reference id name sender recipient, b, hn, hedges, hb => by
    obtain ⟨target, htarget⟩ := hg.exists_body_of_reference hn
    rw [Node.visit]
    refine visited_once hg hn hb ?_
    rw [Node.edges, htarget] at hedges
    rw [Node.exits, Node.edges, htarget]
    obtain ⟨hgrown, hedge⟩ := hfollow htarget hb (hedges _ (List.mem_singleton.mpr rfl))
    exact ⟨rfl, hgrown, fun e he => List.mem_singleton.mp he ▸ hedge⟩
  | .sequence id parts, b, hn, hedges, hb => by
    rw [Node.visit]
    refine visited_once hg hn hb ?_
    rw [Node.edges] at hedges
    rw [Node.exits, Node.edges]
    exact visited_visitParts hg hfollow (fun m hm => hn.of_mem_subnodes
      (Node.mem_subnodes_sequence hm (Node.mem_subnodes_self m))) hedges hb
  | .choice id options, b, hn, hedges, hb => by
    rw [Node.visit]
    refine visited_once hg hn hb ?_
    rw [Node.edges] at hedges
    rw [Node.exits, Node.edges]
    exact visited_visitOptions hg hfollow (fun m hm => hn.of_mem_subnodes
      (Node.mem_subnodes_choice hm (Node.mem_subnodes_self m))) hedges hb
  | .repetition id body min max form, b, hn, hedges, hb => by
    have hbody : g.Occurs body :=
      hn.of_mem_subnodes (Node.mem_subnodes_repetition (Node.mem_subnodes_self body))
    rw [Node.visit]
    refine visited_once hg hn hb ?_
    rw [Node.edges] at hedges
    obtain ⟨hinside, hedges⟩ := List.forall_mem_append.mp hedges
    obtain ⟨henter, hback⟩ := List.forall_mem_cons.mp hedges
    obtain ⟨hends, hgrown, hhas⟩ := visited_visit hg hfollow hbody hinside hb
    have hentered := hgrown.sound.edge henter
    rw [Node.exits, Node.edges]
    dsimp only
    rw [hends]
    split at hback
    · rename_i hmany
      have hlooped := hentered.sound.edgesFrom hback
      simp only [if_pos hmany]
      refine ⟨rfl, (hgrown.trans hentered).trans hlooped, fun e he => has_edgesFrom.mpr ?_⟩
      rw [List.mem_append, List.mem_cons, ← or_assoc] at he
      refine he.symm.imp_right fun he => has_edge.mpr ?_
      exact he.symm.imp_right (hhas e)
    · rename_i honce
      simp only [if_neg honce]
      refine ⟨rfl, hgrown.trans hentered, fun e he => has_edge.mpr ?_⟩
      rw [List.mem_append, List.mem_singleton] at he
      exact he.symm.imp_right (hhas e)

/-- Visiting the parts of a sequence. -/
theorem visited_visitParts (hg : g.WellFormed) (hfollow : Follows g visitor) :
    ∀ {parts : List Node} {entered : List Vertex} {b : GraphBuilder}, (∀ n ∈ parts, g.Occurs n) →
      (∀ e ∈ Node.sequenceEdges g.body? entered parts, g.HasEdge e) → b.Sound g →
        Visited g (Node.sequenceExits entered parts) (Node.sequenceEdges g.body? entered parts) b
          (Node.visitParts visitor entered parts b)
  | [], entered, b, _, _, hb => by
    rw [Node.visitParts, Node.sequenceExits, Node.sequenceEdges]
    exact ⟨rfl, hb.grown, fun e he => absurd he List.not_mem_nil⟩
  | n :: rest, entered, b, hparts, hedges, hb => by
    obtain ⟨hn, hparts⟩ := List.forall_mem_cons.mp hparts
    rw [Node.sequenceEdges] at hedges
    obtain ⟨hinside, hedges⟩ := List.forall_mem_append.mp hedges
    obtain ⟨henter, hlater⟩ := List.forall_mem_append.mp hedges
    obtain ⟨hends, hgrown, hhas⟩ := visited_visit hg hfollow hn hinside hb
    have hentered := hgrown.sound.edgesFrom henter
    rw [Node.visitParts, Node.sequenceExits, Node.sequenceEdges]
    dsimp only
    rw [hends]
    obtain ⟨hexits, hrest, hhasrest⟩ := visited_visitParts hg hfollow hparts hlater hentered.sound
    refine ⟨hexits, (hgrown.trans hentered).trans hrest, fun e he => ?_⟩
    rw [List.mem_append, List.mem_append] at he
    rcases he with he | he | he
    · exact hrest.has e (hentered.has e (hhas e he))
    · exact hrest.has e (has_edgesFrom.mpr (Or.inl he))
    · exact hhasrest e he

/-- Visiting the options of a choice. -/
theorem visited_visitOptions (hg : g.WellFormed) (hfollow : Follows g visitor) :
    ∀ {options : List Node} {found : List Vertex} {id : Nat} {b : GraphBuilder},
      (∀ n ∈ options, g.Occurs n) → (∀ e ∈ Node.choiceEdges g.body? id options, g.HasEdge e) →
        b.Sound g → Visited g (Node.choiceExits found options)
          (Node.choiceEdges g.body? id options) b (Node.visitOptions visitor id found options b)
  | [], found, id, b, _, _, hb => by
    rw [Node.visitOptions, Node.choiceExits, Node.choiceEdges]
    exact ⟨rfl, hb.grown, fun e he => absurd he List.not_mem_nil⟩
  | n :: rest, found, id, b, hoptions, hedges, hb => by
    obtain ⟨hn, hoptions⟩ := List.forall_mem_cons.mp hoptions
    rw [Node.choiceEdges] at hedges
    obtain ⟨henter, hedges⟩ := List.forall_mem_cons.mp hedges
    obtain ⟨hinside, hlater⟩ := List.forall_mem_append.mp hedges
    have hentered := hb.edge henter
    obtain ⟨hends, hgrown, hhas⟩ := visited_visit hg hfollow hn hinside hentered.sound
    rw [Node.visitOptions, Node.choiceExits, Node.choiceEdges]
    dsimp only
    rw [hends]
    obtain ⟨hexits, hrest, hhasrest⟩ := visited_visitOptions hg hfollow hoptions hlater hgrown.sound
    refine ⟨hexits, (hentered.trans hgrown).trans hrest, fun e he => ?_⟩
    rw [List.mem_cons, List.mem_append] at he
    rcases he with he | he | he
    · exact hrest.has e (hgrown.has e (has_edge.mpr (Or.inl he)))
    · exact hrest.has e (hhas e he)
    · exact hhasrest e he

end

/-! ### Entering rules -/

theorem enterRule_of_mem {name : String} (h : name ∈ b.entered) (nesting : Nat) (body : Node) :
    enterRule g nesting name body b = b := by
  cases nesting with
  | zero => rfl
  | succ nesting => rw [enterRule, if_pos (List.contains_iff_mem.mpr h)]

section Rules

variable (hg : g.WellFormed) (hbare : g.BareNames)

include hbare

/-- References are followed if rules are entered. -/
theorem follows_of_enter {enter : String → Node → GraphBuilder → GraphBuilder}
    (henter : ∀ {name body b}, g.body? name = some body → b.Sound g →
      Grown g b (enter name body b)) : Follows g (follow g enter) := by
  intro id name target b htarget hb he
  have hedge := hb.edge he
  have hentered := henter htarget hedge.sound
  rw [follow, hbare.rule_eq_ok htarget]
  exact ⟨hedge.trans hentered, hentered.has _ (has_edge.mpr (Or.inl rfl))⟩

include hg

/-- **Entering a rule** adds its edges. It has been entered afterwards, unless rules are nested too
deeply. -/
theorem grown_enterRule (nesting : Nat) : ∀ {name : String} {body : Node} {b : GraphBuilder},
    g.body? name = some body → b.Sound g → Grown g b (enterRule g nesting name body b) ∧
      (nesting ≠ 0 → name ∈ (enterRule g nesting name body b).entered) := by
  induction nesting with
  | zero => exact fun _ hb => ⟨hb.grown, fun h => absurd rfl h⟩
  | succ nesting ih =>
    intro name body b hbody hb
    by_cases hentered : name ∈ b.entered
    · rw [enterRule_of_mem hentered]
      exact ⟨hb.grown, fun _ => hentered⟩
    rw [enterRule, if_neg (fun h => hentered (List.contains_iff_mem.mp h))]
    dsimp only
    have hstarted : Sound g { b with entered := SortedSet.insert name b.entered } :=
      ⟨hb.memo, hb.only, hb.ordered⟩
    obtain ⟨hends, hgrown, hinside⟩ := visited_visit hg
      (follows_of_enter hbare fun hbody hb => (ih hbody hb).1) (Grammar.occurs_of_body? hbody)
      (fun e he => ⟨name, body, hbody, List.mem_append_left _ he⟩) hstarted
    rw [hends]
    have hleft := hgrown.trans (hgrown.sound.edgesFrom
      fun e he => ⟨name, body, hbody, List.mem_append_right _ he⟩)
    have hself := hleft.entered name (SortedSet.mem_insert.mpr (Or.inl rfl))
    refine ⟨⟨hleft.sound, hleft.has, fun n hn => hleft.entered n
      (SortedSet.mem_insert.mpr (Or.inr hn)), fun n hn => ?_⟩, fun _ => hself⟩
    rcases hleft.complete n hn with hn | hcomplete
    · -- The rule itself is complete once the edges to its exit are there.
      refine (SortedSet.mem_insert.mp hn).symm.imp_right ?_
      rintro rfl body' hbody' e he
      obtain rfl := Option.some.inj (hbody.symm.trans hbody')
      rw [has_edgesFrom]
      exact (List.mem_append.mp he).symm.imp_right (hinside e)
    · exact Or.inr hcomplete

/-- Rules are entered one after the other; of several with one name, the first one. -/
theorem grown_foldl_enterRule {nesting : Nat} : ∀ {rules before : Dictionary String Node}
    {b : GraphBuilder}, rules.length ≤ nesting → g.rules = before ++ rules →
      (∀ name ∈ before.keys, name ∈ b.entered) → b.Sound g →
        Grown g b (rules.foldl (fun b (name, body) => enterRule g nesting name body b) b) ∧
          ∀ name ∈ g.rules.keys, name ∈
            (rules.foldl (fun b (name, body) => enterRule g nesting name body b) b).entered
  | [], before, b, _, hrules, hbefore, hb => by
    rw [List.append_nil] at hrules
    exact ⟨hb.grown, hrules ▸ hbefore⟩
  | (name, body) :: rules, before, b, hnesting, hrules, hbefore, hb => by
    rw [List.length_cons] at hnesting
    have hstep : Grown g b (enterRule g nesting name body b) ∧
        name ∈ (enterRule g nesting name body b).entered := by
      by_cases hentered : name ∈ b.entered
      · rw [enterRule_of_mem hentered]
        exact ⟨hb.grown, hentered⟩
      · have hbody : g.body? name = some body := by
          rw [Grammar.body?, hrules]
          exact Dictionary.find?_append_cons_self (fun h => hentered (hbefore name h)) _ _
        exact (grown_enterRule hg hbare nesting hbody hb).imp_right fun h =>
          h (Nat.ne_zero_of_lt hnesting)
    obtain ⟨hgrown, hname⟩ := hstep
    have hentered : ∀ other ∈ Dictionary.keys (before ++ [(name, body)]),
        other ∈ (enterRule g nesting name body b).entered := by
      intro other h
      rw [Dictionary.keys, List.map_append, List.mem_append] at h
      rcases h with h | h
      · exact hgrown.entered other (hbefore other h)
      · exact List.mem_singleton.mp h ▸ hname
    obtain ⟨hrest, hall⟩ := grown_foldl_enterRule (Nat.le_of_succ_le hnesting)
      (by rw [hrules, List.append_assoc, List.singleton_append]) hentered hgrown.sound
    exact ⟨hgrown.trans hrest, hall⟩

/-- **All rules are complete in the end.** -/
theorem grown_enterAll (hb : b.Sound g) (hno : b.entered = []) :
    Grown g b (enterAll g b) ∧ ∀ e, g.HasEdge e → (enterAll g b).Has e := by
  obtain ⟨hgrown, hentered⟩ := grown_foldl_enterRule hg hbare (Nat.le_refl g.rules.length)
    (List.nil_append g.rules).symm (fun _ h => absurd h List.not_mem_nil) hb
  refine ⟨hgrown, fun e he => ?_⟩
  obtain ⟨name, body, hbody, he⟩ := he
  rcases hgrown.complete name (hentered name (Dictionary.mem_keys_of_find? hbody)) with
    hname | hcomplete
  · exact absurd (hno ▸ hname) List.not_mem_nil
  · exact hcomplete body hbody e he

end Rules

/-- Nothing is known in the beginning. -/
theorem sound_empty : GraphBuilder.Sound g {} :=
  ⟨fun _ _ h => absurd h (by simp), fun _ he => absurd he List.not_mem_nil, fun _ => .nil⟩

end GraphBuilder

/-! ### The edges of the graph of a grammar -/

namespace Graph

variable {g : Grammar} (hg : g.WellFormed) (hbare : g.BareNames)

include hg hbare

/-- **The edges of the graph are those of the rules.** -/
theorem mem_successors_ofGrammar {v w : Vertex} :
    w ∈ (ofGrammar g).successors v ↔ g.HasEdge (v, w) := by
  obtain ⟨hgrown, hall⟩ := GraphBuilder.grown_enterAll hg hbare GraphBuilder.sound_empty rfl
  exact ⟨hgrown.sound.only (v, w), hall (v, w)⟩

/-- The places after each place are in order. -/
theorem ordered_ofGrammar : (ofGrammar g).Ordered :=
  (GraphBuilder.grown_enterAll hg hbare GraphBuilder.sound_empty rfl).1.sound.ordered

end Graph

end GrammarFuzzing
