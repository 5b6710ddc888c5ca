import Std.Data.HashMap
import Std.Data.HashSet
import GrammarFuzzing.Grammar.Basic

/-!
# Grammars as flat productions

For parsing, a grammar is read as plain productions: each goal has alternatives, and each
alternative is a list of atoms, which are literals and further goals. A goal is named by what it
stands for:

* `GrammarFuzzing.Goal.named` – a symbol of the grammar;
* `GrammarFuzzing.Goal.inner` – a choice, a repetition or a set of characters inside a rule;
* `GrammarFuzzing.Goal.tail` – what may follow the copies of a repetition made so far.

Only named goals become nodes of a tree; the children of the others belong to the node around them.
Since a goal is known by the number of its node, a node that is used twice is one goal.

Main definitions: `Node.flatten` turns a node into atoms, `Node.alternatives` lists the goals in a
node with their alternatives, and `FlatGrammar.of` collects those of a grammar and the goals that
derive nothing at all.
-/

namespace GrammarFuzzing

/-- What a parser looks for. -/
inductive Goal
  /-- A symbol. -/
  | named (name : String)
  /-- The choice, repetition or set of characters with a number. -/
  | inner (id : Nat)
  /-- The rest of the repetition with a number: any number of further copies, or at most so many. -/
  | tail (id : Nat) (most : Option Nat)
  deriving DecidableEq, Hashable

/-- One part of an alternative. -/
inductive Atom
  /-- A terminal. -/
  | literal (value : Literal)
  /-- A goal, with the parties of the message that it is. -/
  | goal (goal : Goal) (sender recipient : Option String)

/-- A goal without parties. -/
def Atom.plain (g : Goal) : Atom :=
  .goal g none none

namespace Node

mutual

/-- **A node as atoms.** Sequences dissolve; what needs alternatives becomes a goal. -/
def flatten : Node → List Atom
  | .terminal _ value => [.literal value]
  | .reference _ name sender recipient => [.goal (.named name) sender recipient]
  | .sequence _ parts => listFlatten parts
  | .charset id _ => [.plain (.inner id)]
  | .choice id _ => [.plain (.inner id)]
  | .repetition id _ _ _ _ => [.plain (.inner id)]

/-- Several nodes as atoms, one after the other. -/
def listFlatten : List Node → List Atom
  | [] => []
  | n :: rest => n.flatten ++ listFlatten rest

end

/-- Each of several nodes as atoms. -/
def flattenEach (ns : List Node) : List (List Atom) :=
  ns.map flatten

/-- So many copies of atoms. -/
def copies (n : Nat) (element : List Atom) : List Atom :=
  (List.replicate n element).flatten

/-- What follows the least number of copies of a repetition. -/
def tailAtoms (id min : Nat) : Option Nat → List Atom
  | none => [.plain (.tail id none)]
  | some max => if min < max then [.plain (.tail id (some (max - min)))] else []

/-- The alternatives of a tail with at most `n + 1` further copies: nothing, or one more copy and a
tail with at most `n`. -/
def boundedTail (id : Nat) (element : List Atom) (n : Nat) : List (List Atom) :=
  [[], element ++ if n = 0 then [] else [.plain (.tail id (some n))]]

/-- All tails of a repetition, each with its alternatives: nothing, or one more copy and a tail. -/
def tails (id : Nat) (element : List Atom) (min : Nat) :
    Option Nat → List (Goal × List (List Atom))
  | none => [(.tail id none, [[], element ++ [.plain (.tail id none)]])]
  | some max => (List.range (max - min)).map fun n =>
    (.tail id (some (n + 1)), boundedTail id element n)

mutual

/-- **The goals in a node with their alternatives.** -/
def alternatives : Node → List (Goal × List (List Atom))
  | .terminal _ _ => []
  | .reference _ _ _ _ => []
  | .sequence _ parts => listAlternatives parts
  | .charset id chars => [(.inner id, chars.map fun c => [.literal (.text c.toString)])]
  | .choice id options => (.inner id, flattenEach options) :: listAlternatives options
  | .repetition id body min max _ =>
    let element := body.flatten
    (.inner id, [copies min element ++ tailAtoms id min max]) ::
      (tails id element min max ++ body.alternatives)

/-- The goals in several nodes with their alternatives. -/
def listAlternatives : List Node → List (Goal × List (List Atom))
  | [] => []
  | n :: rest => n.alternatives ++ listAlternatives rest

end

/-- The alternatives of a symbol whose rule has this body: the options of a choice, or the body. -/
def ruleAlternatives : Node → List (List Atom)
  | .choice _ options => flattenEach options
  | n => [n.flatten]

end Node

/-- One alternative of a goal. -/
structure Production where
  goal : Goal
  atoms : Array Atom

/-- **A grammar as flat productions.** `ofGoal` lists the productions of each goal in order. -/
structure FlatGrammar where
  productions : Array Production
  ofGoal : Std.HashMap Goal (List Nat)
  nullable : Std.HashSet Goal

namespace FlatGrammar

/-- No productions. -/
def empty : FlatGrammar :=
  ⟨#[], {}, {}⟩

/-- The productions with those of one more goal, unless the goal has some already. -/
def add (f : FlatGrammar) (goal : Goal) (alternatives : List (List Atom)) : FlatGrammar :=
  if f.ofGoal.contains goal then f
  else
    let first := f.productions.size
    { f with
      productions := f.productions ++ (alternatives.map fun atoms => ⟨goal, atoms.toArray⟩).toArray
      ofGoal := f.ofGoal.insert goal ((List.range alternatives.length).map (first + ·)) }

/-- Whether an atom derives nothing, when the goals that do are given. -/
def atomNullable (nullable : Std.HashSet Goal) : Atom → Bool
  | .literal value => value.toBytes.isEmpty
  | .goal g _ _ => nullable.contains g

/-- One round in which the goals with an alternative of nullable atoms become nullable. -/
def nullableRound (productions : Array Production) (nullable : Std.HashSet Goal) :
    Std.HashSet Goal :=
  productions.foldl (fun s p =>
    if p.atoms.all (atomNullable s) then s.insert p.goal else s) nullable

/-- The nullable goals, by rounds until nothing is new. -/
def nullableGoals (productions : Array Production) : Nat → Std.HashSet Goal → Std.HashSet Goal
  | 0, s => s
  | rounds + 1, s =>
    let next := nullableRound productions s
    if next.size = s.size then s else nullableGoals productions rounds next

/-- **The flat form of a grammar.** -/
def of (g : Grammar) : FlatGrammar :=
  let named := g.rules.map fun (name, body) => (Goal.named name, body.ruleAlternatives)
  let inner := g.rules.flatMap fun (_, body) => body.alternatives
  let f := (named ++ inner).foldl (fun f (goal, alts) => f.add goal alts) empty
  { f with nullable := nullableGoals f.productions (f.ofGoal.size + 1) {} }

/-- The productions of a goal. -/
def productionsOf (f : FlatGrammar) (g : Goal) : List Nat :=
  f.ofGoal.getD g []

/-- The atom after the dot of a production. -/
def atomAt? (f : FlatGrammar) (production dot : Nat) : Option Atom :=
  match f.productions[production]? with
  | some p => p.atoms[dot]?
  | none => none

/-- The goal that a production is an alternative of. -/
def goalOf? (f : FlatGrammar) (production : Nat) : Option Goal :=
  (f.productions[production]?).map (·.goal)

end FlatGrammar

end GrammarFuzzing
