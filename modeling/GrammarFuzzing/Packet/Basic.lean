import GrammarFuzzing.Grammar.Basic

/-!
# Packets

A **packet** is a type of message: the symbol of the message and the parties between which it is
sent. The packets of a grammar are its references with a sender.
-/

namespace GrammarFuzzing

/-- **A type of message.** Packets are ordered by sender, recipient and name. -/
structure Packet where
  sender : Option String
  recipient : Option String
  name : String
  deriving DecidableEq, Ord

namespace Packet

/-- The packet that a reference sends. -/
def ofReference? : Node → Option Packet
  | .reference _ name (some sender) recipient => some ⟨some sender, recipient, bareName name⟩
  | _ => none

/-- **All packets of a grammar** in increasing order. -/
def all (g : Grammar) : List Packet :=
  SortedSet.ofList (g.nodes.toList.filterMap ofReference?)

/-- The symbol of the message. -/
def symbol (p : Packet) : Symbol :=
  .nonTerminal p.name

/-- The packet as a specification writes its reference. -/
def describe (p : Packet) : String :=
  angled (":".intercalate (p.sender.toList ++ p.recipient.toList ++ [p.name]))

end Packet

end GrammarFuzzing
