import GrammarFuzzing.Grammar.Spec

/-!
# Checking a tree against a grammar

A tree is **valid** when the children of every non-terminal node are what the body of its rule
stands for: `GrammarFuzzing.Node.ends` computes where in a list of children a match of a node can
end, and a rule fits if one of the ends is the end of the list. `GrammarFuzzing.Grammar.validate`
checks a whole tree and reports the first node that does not derive, parents before their children.

A repetition is matched round by round, all copies of one round at once. Once the least number of
copies is reached, a position that was reached in an earlier round is not followed again: what it
leads to was reached with fewer copies.
-/

namespace GrammarFuzzing

namespace Node

/-- Whether a child is a terminal with a value. -/
def isLiteral (value : Literal) (c : Tree) : Bool :=
  c.symbol = .terminal value

/-- Whether a child is a text of one character out of a set. -/
def isOneOf (chars : List Char) (c : Tree) : Bool :=
  match c.symbol with
  | .terminal (.text s) =>
    match s.toList with
    | [c] => chars.contains c
    | _ => false
  | _ => false

/-- Whether a child is a node with a name. -/
def isNamed (name : String) (c : Tree) : Bool :=
  c.symbol = .nonTerminal name

/-- The position after a child that passes a test. -/
def endAfter (cs : List Tree) (pos : Nat) (test : Tree → Bool) : List Nat :=
  match cs[pos]? with
  | some c => if test c then [pos + 1] else []
  | none => []

/-- The positions that one more match leads to. -/
def advance (step : Nat → List Nat) (frontier : List Nat) : List Nat :=
  SortedSet.ofList (frontier.flatMap step)

/-- The positions after exactly so many copies. -/
def afterCopies (step : Nat → List Nat) : Nat → List Nat → List Nat
  | 0, frontier => frontier
  | n + 1, frontier => if frontier.isEmpty then [] else afterCopies step n (advance step frontier)

/-- The positions after at most so many more copies, besides those seen before. Positions that were
seen are not followed again. -/
def afterMore (step : Nat → List Nat) : Nat → List Nat → List Nat → List Nat
  | 0, seen, frontier => SortedSet.union seen frontier
  | n + 1, seen, frontier =>
    let fresh := frontier.filter fun p => !seen.contains p
    if fresh.isEmpty then seen
    else afterMore step n (SortedSet.union seen fresh) (advance step fresh)

/-- The positions after at least `min` and at most `max` copies, among a list of `length`
children. Without an upper bound there are no new positions after `length + 1` rounds. -/
def afterRepetition (step : Nat → List Nat) (length min : Nat) (max : Option Nat) (pos : Nat) :
    List Nat :=
  let rounds := match max with
    | some max => max - min
    | none => length + 1
  afterMore step rounds [] (afterCopies step min [pos])

mutual

/-- **Where a match of a node can end** that starts at a position among the children. -/
def ends (cs : List Tree) : Node → Nat → List Nat
  | .terminal _ value, pos => endAfter cs pos (isLiteral value)
  | .charset _ chars, pos => endAfter cs pos (isOneOf chars)
  | .reference _ name _ _, pos => endAfter cs pos (isNamed name)
  | .sequence _ parts, pos => sequenceEnds cs parts [pos]
  | .choice _ options, pos => choiceEnds cs options pos
  | .repetition _ body min max _, pos =>
    afterRepetition (fun p => ends cs body p) cs.length min max pos

/-- Where consecutive matches of several nodes can end that start at one of the positions. -/
def sequenceEnds (cs : List Tree) : List Node → List Nat → List Nat
  | [], frontier => frontier
  | n :: rest, frontier => sequenceEnds cs rest (advance (fun p => ends cs n p) frontier)

/-- Where a match of one of several nodes can end. -/
def choiceEnds (cs : List Tree) : List Node → Nat → List Nat
  | [], _ => []
  | n :: rest, pos => SortedSet.union (ends cs n pos) (choiceEnds cs rest pos)

end

/-- Whether a node stands for the whole list of children. -/
def fits (n : Node) (cs : List Tree) : Bool :=
  (n.ends cs 0).contains cs.length

end Node

namespace Grammar

mutual

/-- What is wrong with a tree whose root is at a path. -/
def validateAt (g : Grammar) (path : Path) : Tree → Except GrammarError Unit
  | ⟨symbol, children, _, _, _, _⟩ =>
    match symbol with
    | .terminal _ =>
      if children.isEmpty then .ok ()
      else .error (.invalidTree path symbol.toSpec "terminal with children")
    | .slice => .error (.invalidTree path symbol.toSpec "slice marker inside a tree")
    | .nonTerminal name =>
      match g.body? name with
      | none => .error (.invalidTree path symbol.toSpec ("no rule for " ++ angled name))
      | some body =>
        if body.fits children then validateListAt g path 0 children
        else .error (.invalidTree path symbol.toSpec ("children do not match " ++ body.toSpec))

/-- What is wrong with the children of the node at a path, from index `i` on. -/
def validateListAt (g : Grammar) (path : Path) (i : Nat) : List Tree → Except GrammarError Unit
  | [] => .ok ()
  | t :: rest =>
    match validateAt g (path ++ [i]) t with
    | .ok () => validateListAt g path (i + 1) rest
    | .error e => .error e

end

/-- **Whether a tree derives from the grammar**; otherwise the first node that does not. -/
def validate (g : Grammar) (t : Tree) : Except GrammarError Unit :=
  g.validateAt [] t

end Grammar

end GrammarFuzzing
