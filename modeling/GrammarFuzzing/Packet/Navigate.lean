import GrammarFuzzing.Graph.Search
import GrammarFuzzing.Packet.Reduce

/-!
# Ways from packet to packet

A `GrammarFuzzing.Navigator` answers from the graph of a reduction which packets can directly follow
a packet, and what is the cheapest way from one packet to another.
-/

namespace GrammarFuzzing

/-- **A navigator**: a reduction, its graph, and the packets that references enter, by the numbers
of the references. -/
structure Navigator where
  reduction : Reduction
  graph : Graph
  entries : Dictionary Nat Packet

namespace Navigator

/-- The navigator of a reduction. -/
def of (r : Reduction) : Navigator where
  reduction := r
  graph := .ofGrammar r.grammar
  entries := r.grammar.nodes.toList.filterMap fun
    | .reference id name _ _ => (r.packetOfRule? name).map fun p => (id, p)
    | _ => none

/-- The packet that is entered at a place. -/
def packetAt? (n : Navigator) : Vertex → Option Packet
  | .node id => n.entries.find? id
  | .exit _ => none

/-- **The cheapest sequence of packets** that leads from right after a packet up to and including
another one, and its cost in turns. -/
def shortestPath (n : Navigator) (start goal : Packet) : Option (List Packet × Nat) := do
  let startNode ← n.reduction.tokenNode? start
  let goalNode ← n.reduction.tokenNode? goal
  let (walk, cost) ← n.graph.shortestPath startNode goalNode
  return (walk.filterMap n.packetAt?, cost)

/-- **The packets that can directly follow a packet**, in increasing order. -/
def successors (n : Navigator) (p : Packet) : List Packet :=
  match n.reduction.tokenNode? p with
  | none => []
  | some start =>
    let found := n.graph.after (fun v => (n.packetAt? v).isSome) (.node start)
    SortedSet.ofList (found.filterMap n.packetAt?)

end Navigator

end GrammarFuzzing
