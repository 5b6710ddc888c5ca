import GrammarFuzzing.Grammar.Basic

/-!
# Parties

A grammar with messages describes an exchange between parties. `GrammarFuzzing.Grammar.parties`
lists them, and `GrammarFuzzing.Grammar.slice` restricts the grammar to the messages of some:
references to messages of other senders are dropped from sequences and choices. The result is
checked again, since nothing may be left of a choice.
-/

namespace GrammarFuzzing

namespace Node

/-- Whether a node is no message, or one of the given senders. -/
def isSentBy (senders : List String) (n : Node) : Bool :=
  match n.sender? with
  | some s => senders.contains s
  | none => true

mutual

/-- **The node without messages of other senders** in its sequences and choices. -/
def keepSenders (senders : List String) : Node → Node
  | .terminal id value => .terminal id value
  | .charset id chars => .charset id chars
  | .reference id name sender recipient => .reference id name sender recipient
  | .sequence id parts => .sequence id (listKeepSenders senders parts)
  | .choice id options => .choice id (listKeepSenders senders options)
  | .repetition id body min max form => .repetition id (body.keepSenders senders) min max form

/-- Several nodes without messages of other senders. -/
def listKeepSenders (senders : List String) : List Node → List Node
  | [] => []
  | n :: rest =>
    if n.isSentBy senders then n.keepSenders senders :: listKeepSenders senders rest
    else listKeepSenders senders rest

end

end Node

namespace Grammar

/-- The parties that send messages, and with `recipients` also those that receive them, in
increasing order. -/
def parties (g : Grammar) (recipients : Bool) : List String :=
  SortedSet.ofList <| g.nodes.toList.flatMap fun
    | .reference _ _ sender recipient =>
      sender.toList ++ if recipients then recipient.toList else []
    | _ => []

/-- **The grammar restricted to the messages of some parties.** -/
def slice (g : Grammar) (chosen : List String) : Except GrammarError Grammar :=
  let known := g.parties true
  match chosen.find? fun p => !known.contains p with
  | some p => .error (.unknownParty p known)
  | none =>
    let d := g.toDraft
    Draft.build { d with
      nodes := d.nodes.map (Node.keepSenders chosen)
      rules := d.rules.map fun r => (r.1, r.2.keepSenders chosen) }

end Grammar

end GrammarFuzzing
