import GrammarFuzzing.Packet.Basic

/-!
# The order of packets as a grammar

What a grammar says about the *order* of its messages is again a grammar, over packets instead of
bytes. `GrammarFuzzing.Grammar.reduce` makes it: in the rules that can be reached from the start
symbol without entering a message, the **control** rules,

* every reference to a message becomes a reference to a rule whose only expansion is a token for the
  packet;
* every terminal and every set of characters becomes a reference to a rule that is empty.

A sequence of packets is a possible exchange exactly if its tokens derive from the start symbol. The
reduction remembers which packet each token stands for, and a terminal for each empty rule.
-/

namespace GrammarFuzzing

/-- **A grammar over packets**, with its packets by their numbers, and for each rule that replaced a
terminal the terminal. -/
structure Reduction where
  grammar : Grammar
  packets : List Packet
  literals : Dictionary String Literal

namespace Reduction

/-- What the names of rules for packets begin with. -/
def packetMark : String := "_packet_"

/-- What the names of rules for terminals begin with. -/
def literalMark : String := "_literal_"

/-- The rule for a packet. -/
def packetRule (k : Nat) : String :=
  packetMark ++ toString k

/-- The token for a packet. -/
def token (k : Nat) : String :=
  angled (toString k)

/-- The rule for a terminal. -/
def literalRule (id : Nat) : String :=
  literalMark ++ toString id

/-- The names of the rules that a body refers to without sending them as messages, from right to
left. -/
def controlReferences (body : Node) : List String :=
  (body.leaves.filterMap fun
    | .reference _ name none _ => some name
    | _ => none).reverse

/-- The control rules that were found and whatever can be found from pending names, each with its
body. Every name is found once, so the number of rules bounds the rounds. -/
def controlFrom (g : Grammar) :
    Nat → Dictionary String Node → List String → Except GrammarError (Dictionary String Node)
  | 0, found, _ => .ok found
  | rounds + 1, found, pending =>
    match pending.dropWhile fun name => found.has name with
    | [] => .ok found
    | name :: rest =>
      match g.rule name with
      | .error e => .error e
      | .ok body => controlFrom g rounds (found.put name body) (controlReferences body ++ rest)

/-- **The control rules of a grammar** with their bodies. -/
def controlRules (g : Grammar) : Except GrammarError (Dictionary String Node) :=
  controlFrom g (g.rules.length + 1) [] [g.start]

/-- The numbers of the nodes in control rules. -/
def controlIds (g : Grammar) : Except GrammarError (List Nat) :=
  (controlRules g).map fun found => SortedSet.ofList (found.values.flatMap Node.ids)

mutual

/-- **A node of a control rule as the reduction has it**: `control` tells which nodes are in control
rules. -/
def reduceNode (packets : List Packet) (control : Nat → Bool) : Node → Node
  | .terminal id value =>
    if control id then .reference id (literalRule id) none none else .terminal id value
  | .charset id chars =>
    if control id then .reference id (literalRule id) none none else .charset id chars
  | .reference id name sender recipient =>
    let n := Node.reference id name sender recipient
    match (Packet.ofReference? n).bind packets.idxOf? with
    | some k => if control id then .reference id (packetRule k) sender recipient else n
    | none => n
  | .sequence id parts => .sequence id (reduceNodes packets control parts)
  | .choice id options => .choice id (reduceNodes packets control options)
  | .repetition id body min max form =>
    .repetition id (reduceNode packets control body) min max form

/-- Several nodes as the reduction has them. -/
def reduceNodes (packets : List Packet) (control : Nat → Bool) : List Node → List Node
  | [] => []
  | n :: rest => reduceNode packets control n :: reduceNodes packets control rest

end

/-- The terminal that stands for a terminal or a set of characters: the terminal itself, or the
first character. -/
def standIn? : Node → Option Literal
  | .terminal _ value => some value
  | .charset _ chars => some (.text (String.ofList (chars.take 1)))
  | _ => none

/-- The terminals that the reduction of a grammar takes out of control rules, by their rules. -/
def literalsOf (g : Grammar) (control : Nat → Bool) : Dictionary String Literal :=
  .ofPairs (g.nodes.toList.filterMap fun n =>
    if control n.id then (standIn? n).map fun value => (literalRule n.id, value) else none)

/-- The draft with a rule whose body is a text. -/
def addText (d : Draft) (name text : String) : Draft :=
  let (n, d) := d.add fun id => .terminal id (.text text)
  d.rule name n

end Reduction

open Reduction in
/-- **The order of packets in a grammar.** -/
def Grammar.reduce (g : Grammar) : Except GrammarError Reduction := do
  let packets := Packet.all g
  let ids ← controlIds g
  let control := ids.contains
  let literals := literalsOf g control
  let d := g.toDraft
  let d := { d with
    nodes := d.nodes.map (reduceNode packets control)
    rules := d.rules.map fun r => (r.1, reduceNode packets control r.2) }
  let d := (List.range packets.length).foldl (fun d k => addText d (packetRule k) (token k)) d
  let d := literals.keys.foldl (fun d name => addText d name "") d
  return ⟨← d.build, packets, literals⟩

namespace Reduction

/-- A number as it is written after a mark: digits, with or without a plus sign. -/
def readIndex? (cs : List Char) : Option Nat :=
  let digits := match cs with
    | '+' :: rest => rest
    | cs => cs
  if digits.isEmpty || !digits.all Char.isDigit then none
  else some (digits.foldl (fun n c => n * 10 + (c.toNat - '0'.toNat)) 0)

/-- The packet that a rule stands for. -/
def packetOfRule? (r : Reduction) (rule : String) : Option Packet := do
  let digits ← SettingSelector.after? packetMark rule
  r.packets[← readIndex? digits]?

/-- The tokens of a sequence of packets; none if one of them is unknown. -/
def tokens? (r : Reduction) (history : List Packet) : Option String :=
  (history.mapM fun p => (r.packets.idxOf? p).map token).map String.join

/-- The node that is the token of a packet. -/
def tokenNode? (r : Reduction) (p : Packet) : Option Nat := do
  let k ← r.packets.idxOf? p
  let body ← (r.grammar.rule (packetRule k)).toOption
  return body.id

end Reduction

end GrammarFuzzing
