import GrammarFuzzing.Proofs.Graph.Edges
import Mathlib.Data.List.Chain

/-!
# Walks through a graph

A walk is a list of places of which each can come right after the one before it
(`GrammarFuzzing.Graph.IsWalk`). It costs a turn for each message that it enters, which the place
where it starts is not: in the graph of a grammar the cost of places is the number of messages among
them (`GrammarFuzzing.Graph.sumOf_cost_ofGrammar`).
-/

namespace GrammarFuzzing

/-- **Whether a place is a message**: a node that has a sender. -/
def Grammar.messageAt (g : Grammar) : Vertex → Bool
  | .node id => g.nodes.any fun n => n.sender?.isSome && n.id = id
  | .exit _ => false

theorem Grammar.messageAt_iff {g : Grammar} {v : Vertex} : g.messageAt v = true ↔
    ∃ n ∈ g.nodes, n.sender?.isSome = true ∧ v = .node n.id := by
  cases v with
  | exit rule => simp [messageAt]
  | node id =>
    rw [messageAt, Array.any_eq_true']
    simp only [Bool.and_eq_true, decide_eq_true_iff, Vertex.node.injEq, @eq_comm _ id]

namespace Graph

/-- **A walk**: an edge leads from each place to the next one. -/
def IsWalk (g : Graph) (places : List Vertex) : Prop :=
  places.IsChain fun v w => w ∈ g.successors v

/-- **A walk of at least one edge to a goal.** -/
def Leads (g : Graph) (start : Vertex) (isGoal : Vertex → Bool) (places : List Vertex) : Prop :=
  ∃ inner goal, places = start :: (inner ++ [goal]) ∧ g.IsWalk places ∧ isGoal goal = true

variable {g : Graph} {v w : Vertex} {vs ws : List Vertex}

/-- **One walk after another**, over an edge between them. -/
theorem isWalk_append_cons : g.IsWalk (vs ++ v :: w :: ws) ↔
    g.IsWalk (vs ++ [v]) ∧ w ∈ g.successors v ∧ g.IsWalk (w :: ws) :=
  List.isChain_append_cons_cons

/-- **One more place** after the last one. -/
theorem isWalk_concat (h : vs.getLast? = some v) :
    g.IsWalk (vs ++ [w]) ↔ g.IsWalk vs ∧ w ∈ g.successors v := by
  obtain ⟨vs, rfl⟩ := List.getLast?_eq_some_iff.mp h
  rw [List.append_assoc, List.singleton_append, isWalk_append_cons]
  exact and_congr_right fun _ => and_iff_left (List.isChain_singleton w)

/-- What it costs to enter a place of a grammar. -/
theorem cost_ofGrammar (g : Grammar) (v : Vertex) :
    (ofGrammar g).cost v = if g.messageAt v then 1 else 0 := by
  cases v with
  | exit rule => rfl
  | node id =>
    refine if_congr ?_ rfl rfl
    rw [Grammar.messageAt_iff, List.contains_iff_mem, ofGrammar, List.mem_map]
    simp [and_assoc, @eq_comm _ id]

/-- **Places cost a turn for each message among them.** -/
theorem sumOf_cost_ofGrammar (g : Grammar) (vs : List Vertex) :
    sumOf (vs.map (ofGrammar g).cost) = vs.countP g.messageAt := by
  induction vs with
  | nil => rfl
  | cons v vs ih => rw [List.map_cons, sumOf, ih, cost_ofGrammar, List.countP_cons, Nat.add_comm]

end Graph

end GrammarFuzzing
