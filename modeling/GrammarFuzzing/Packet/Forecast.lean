import GrammarFuzzing.Packet.Reduce
import GrammarFuzzing.Parse.Basic

/-!
# What may come next in an exchange

The **history** of an exchange is the sequence of packets sent so far. The reduction of a grammar
answers what a history allows by reading its tokens:

* `GrammarFuzzing.Reduction.predict` – the packets that may come next;
* `GrammarFuzzing.Reduction.isComplete` – whether the exchange may end here;
* `GrammarFuzzing.Reduction.assemble` – the tree of a complete exchange, made of the trees of its
  messages.
-/

namespace GrammarFuzzing.Reduction

/-- **The packets that may come next**: those with which the history is the beginning of some
complete exchange. -/
def predict (r : Reduction) (history : List Packet) : List Packet :=
  match r.tokens? history with
  | none => []
  | some known =>
    (r.packets.zipIdx.filter fun (_, k) =>
      r.grammar.recognize (Utf8.encode (known ++ token k)) r.grammar.start .incomplete).map (·.1)

/-- **Whether a history is a complete exchange.** -/
def isComplete (r : Reduction) (history : List Packet) : Bool :=
  match r.tokens? history with
  | none => false
  | some tokens => r.grammar.recognize (Utf8.encode tokens) r.grammar.start .complete

mutual

/-- A tree over packets with message trees in place of packets, and terminals in place of the rules
that replaced them. The second result is the message trees that are left. -/
def substitute (r : Reduction) : Tree → List Tree → Option (Tree × List Tree)
  | ⟨symbol, children, sources, sender, recipient, readOnly⟩, messages =>
    match symbol with
    | .nonTerminal name =>
      match r.packetOfRule? name with
      | some packet =>
        match messages with
        | [] => none
        | t :: rest => some (t.withParty packet.sender packet.recipient, rest)
      | none =>
        match r.literals.find? name with
        | some value => some (Tree.leaf value, messages)
        | none =>
          match substituteList r children messages with
          | some (children, rest) => some ({ symbol := .named name, children := children }, rest)
          | none => none
    | symbol => some (⟨symbol, children, sources, sender, recipient, readOnly⟩, messages)

/-- Several trees over packets with message trees in place of packets. -/
def substituteList (r : Reduction) : List Tree → List Tree → Option (List Tree × List Tree)
  | [], messages => some ([], messages)
  | t :: rest, messages =>
    match substitute r t messages with
    | none => none
    | some (t, messages) =>
      match substituteList r rest messages with
      | none => none
      | some (ts, messages) => some (t :: ts, messages)

end

/-- **The tree of a complete exchange**, from its packets and the trees of their messages. -/
def assemble (r : Reduction) (history : List (Packet × Tree)) : Except ParseError Tree :=
  let start := r.grammar.start
  let mismatch := ParseError.noMatch start 0 history.length
  match r.tokens? (history.map (·.1)) with
  | none => .error mismatch
  | some tokens =>
    match r.grammar.parse (Utf8.encode tokens) start .complete with
    | .error e => .error e
    | .ok skeleton =>
      match r.substitute skeleton (history.map (·.2)) with
      | some (t, _) => .ok t
      | none => .error mismatch

end GrammarFuzzing.Reduction
