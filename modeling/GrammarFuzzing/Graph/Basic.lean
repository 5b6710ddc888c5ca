import GrammarFuzzing.Grammar.Basic
import GrammarFuzzing.Number.Sum

/-!
# The graph of a grammar

An edge of the graph leads from a place in the grammar to one that can come right after it when the
grammar is expanded from left to right. The places are the nodes of the grammar and the **exits** of
its rules:

* a sequence leads to its first part, and each part to the next one;
* a choice leads to its options, a repetition into its body and from the end of the body back to its
  beginning, if there may be several copies;
* a reference leads to the body of its rule, and the end of the body to the exit of the rule. The
  exit leads to whatever follows *any* reference to the rule.

The graph does not know through which reference a rule was entered. That is why it is finite even
for a recursive grammar, and why it has more walks than the grammar has expansions.
-/

namespace GrammarFuzzing

/-- **A place in a grammar**: a node by its number, or the end of the expansion of a rule. -/
inductive Vertex
  | node (id : Nat)
  | exit (rule : String)
  deriving DecidableEq, Ord

/-- **A graph over the places of a grammar.** -/
structure Graph where
  /-- The places that can come right after each place. -/
  edges : Dictionary Vertex (List Vertex)
  /-- The nodes that are terminals. -/
  terminals : Dictionary Nat Literal
  /-- The numbers of the references that are messages. -/
  messages : List Nat

namespace Node

mutual

/-- Whether nothing in a node needs to be passed. -/
def skippable : Node → Bool
  | .terminal _ _ => false
  | .charset _ _ => false
  | .reference _ _ _ _ => false
  | .sequence _ parts => allSkippable parts
  | .choice _ options => anySkippable options
  | .repetition _ _ min _ _ => min = 0

/-- Whether all of several nodes are skippable. -/
def allSkippable : List Node → Bool
  | [] => true
  | n :: rest => n.skippable && allSkippable rest

/-- Whether one of several nodes is skippable. -/
def anySkippable : List Node → Bool
  | [] => false
  | n :: rest => n.skippable || anySkippable rest

end

end Node

/-! ### Building the graph -/

/-- **A graph that is being built**: its edges, from where each node is left that was visited, and
the rules that were entered. -/
structure GraphBuilder where
  edges : Dictionary Vertex (List Vertex) := []
  ends : Dictionary Nat (List Vertex) := []
  entered : List String := []

namespace GraphBuilder

/-- Adds an edge. -/
def edge (v w : Vertex) (b : GraphBuilder) : GraphBuilder :=
  { b with edges := b.edges.put v (SortedSet.insert w ((b.edges.find? v).getD [])) }

/-- Adds an edge from each of several places. -/
def edgesFrom (vs : List Vertex) (w : Vertex) (b : GraphBuilder) : GraphBuilder :=
  vs.foldl (fun b v => b.edge v w) b

/-- Visits a node unless it was visited before. -/
def once (id : Nat) (visit : GraphBuilder → List Vertex × GraphBuilder) (b : GraphBuilder) :
    List Vertex × GraphBuilder :=
  match b.ends.find? id with
  | some ends => (ends, b)
  | none =>
    let (ends, b) := visit b
    (ends, { b with ends := b.ends.put id ends })

end GraphBuilder

namespace Node

mutual

/-- **Visits a node**: adds the edges inside it, and tells the places from which it is left. A
reference is followed, and left from the exit of its rule. -/
def visit (follow : Nat → String → GraphBuilder → GraphBuilder) :
    Node → GraphBuilder → List Vertex × GraphBuilder
  | .terminal id _ => GraphBuilder.once id fun b => ([.node id], b)
  | .charset id _ => GraphBuilder.once id fun b => ([.node id], b)
  | .reference id name _ _ => GraphBuilder.once id fun b => ([.exit name], follow id name b)
  | .sequence id parts => GraphBuilder.once id (visitParts follow [.node id] parts)
  | .choice id options => GraphBuilder.once id (visitOptions follow id [] options)
  | .repetition id body min max _ => GraphBuilder.once id fun b =>
    let (ends, b) := visit follow body b
    let b := b.edge (.node id) (.node body.id)
    let b := if max.all fun m => m > 1 then b.edgesFrom ends (.node body.id) else b
    (if min = 0 then SortedSet.insert (.node id) ends else ends, b)

/-- Visits the parts of a sequence that was entered from some places. -/
def visitParts (follow : Nat → String → GraphBuilder → GraphBuilder) (entered : List Vertex) :
    List Node → GraphBuilder → List Vertex × GraphBuilder
  | [], b => (entered, b)
  | n :: rest, b =>
    let (ends, b) := visit follow n b
    visitParts follow (if n.skippable then SortedSet.union entered ends else ends) rest
      (b.edgesFrom entered (.node n.id))

/-- Visits the options of a choice that is left from some places so far. -/
def visitOptions (follow : Nat → String → GraphBuilder → GraphBuilder) (id : Nat)
    (found : List Vertex) : List Node → GraphBuilder → List Vertex × GraphBuilder
  | [], b => (found, b)
  | n :: rest, b =>
    let (ends, b) := visit follow n (b.edge (.node id) (.node n.id))
    visitOptions follow id (SortedSet.union found ends) rest b

end

end Node

namespace GraphBuilder

/-- Follows a reference into its rule, which may have to be entered. -/
def follow (g : Grammar) (enter : String → Node → GraphBuilder → GraphBuilder) (id : Nat)
    (name : String) (b : GraphBuilder) : GraphBuilder :=
  match g.rule name with
  | .ok target => enter name target (b.edge (.node id) (.node target.id))
  | .error _ => b

/-- **Enters a rule** unless it was entered before: visits its body, and adds the edges to its exit.
Rules that are entered from references in the body are nested in it; there are no more of them than
rules in all. -/
def enterRule (g : Grammar) : Nat → String → Node → GraphBuilder → GraphBuilder
  | 0, _, _, b => b
  | nesting + 1, name, body, b =>
    if b.entered.contains name then b
    else
      let b := { b with entered := SortedSet.insert name b.entered }
      let (ends, b) := body.visit (follow g (enterRule g nesting)) b
      b.edgesFrom ends (.exit name)

/-- Enters all rules of a grammar, one after the other. -/
def enterAll (g : Grammar) (b : GraphBuilder) : GraphBuilder :=
  g.rules.foldl (fun b (name, body) => enterRule g g.rules.length name body b) b

end GraphBuilder

namespace Graph

/-- The places that can come right after a place, in increasing order. -/
def successors (g : Graph) (v : Vertex) : List Vertex :=
  (g.edges.find? v).getD []

/-- The number of edges. -/
def size (g : Graph) : Nat :=
  sumOf (g.edges.map fun e => e.2.length)

/-- **The graph of a grammar.** -/
def ofGrammar (g : Grammar) : Graph where
  edges := (GraphBuilder.enterAll g {}).edges
  terminals := g.nodes.toList.filterMap fun
    | .terminal id value => some (id, value)
    | _ => none
  messages := (g.nodes.toList.filter fun n => n.sender?.isSome).map Node.id

/-- The terminals with a value, by their numbers. -/
def occurrences (g : Graph) (value : Literal) : List Nat :=
  (List.filter (fun t => t.2 = value) g.terminals).map (·.1)

/-- Whether a place is a terminal with a value. -/
def holds (g : Graph) (value : Literal) : Vertex → Bool
  | .node id => g.terminals.find? id = some value
  | .exit _ => false

/-- What it costs to enter a place: each message is a turn. -/
def cost (g : Graph) : Vertex → Nat
  | .node id => if g.messages.contains id then 1 else 0
  | .exit _ => 0

end Graph

end GrammarFuzzing
