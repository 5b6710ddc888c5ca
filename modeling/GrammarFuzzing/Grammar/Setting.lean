import GrammarFuzzing.Grammar.Error
import GrammarFuzzing.Grammar.Node
import GrammarFuzzing.Text.Blank

/-!
# Settings of nodes

A grammar may come with settings: each selects nodes by a `GrammarFuzzing.SettingSelector` and
overrides some of the knobs of `GrammarFuzzing.NodeSettings` there. All settings that select a node
apply to it in the order in which they are written, so that later ones win
(`GrammarFuzzing.resolveSettings`).

Three knobs are **structural hints**, probabilities with which random expansion leaves the declared
bounds of a node on purpose.
-/

namespace GrammarFuzzing

/-- Which nodes a setting is for. -/
inductive SettingSelector
  /-- All nodes. -/
  | all
  /-- The nodes of a kind. -/
  | kind (kind : NodeKind)
  /-- The references to a name. -/
  | symbol (name : String)

namespace SettingSelector

/-- The text after a given beginning. -/
def after? (start : String) (s : String) : Option (List Char) :=
  if start.toList.isPrefixOf s.toList then some (s.toList.drop start.length) else none

/-- Whether a text is something between angle brackets. -/
def isAngled (s : String) : Bool :=
  s.toList.head? == some '<' && s.toList.getLast? == some '>' && s.utf8ByteSize > 2

/-- The kind that a text names, blanks around it aside. -/
def readKind (s : String) : Except GrammarError NodeKind :=
  match NodeKind.ofName? (trim s) with
  | some k => .ok k
  | none => .error (.invalidSelector (trim s))

/-- **The selector that a text writes**: a star, `all_with_type(Kind)` or `<name>`. -/
def read (s : String) : Except GrammarError SettingSelector :=
  let s := trim s
  if s = "*" then .ok .all
  else
    match after? "all_with_type(" s with
    | some inner =>
      if inner.getLast? = some ')' then
        (readKind (String.ofList inner.dropLast)).map .kind
      else .error (.invalidSelector s)
    | none => if isAngled s then .ok (.symbol (bareName s)) else .error (.invalidSelector s)

/-- Whether a node is selected. -/
def selects : SettingSelector → Node → Bool
  | .all, _ => true
  | .kind k, n => n.kind = k
  | .symbol name, .reference _ n _ _ => n = name
  | .symbol _, _ => false

end SettingSelector

/-- The knobs of a node. -/
structure NodeSettings where
  havoc : Float
  maxStackPower : Nat
  /-- The probability that a reference is expanded not once, but not at all or several times. -/
  repeatReference : Float
  /-- The probability that a `+` repetition is empty. -/
  emptyPlus : Float
  /-- The probability that a `?` repetition has several copies. -/
  multipleOption : Float
  deriving BEq

namespace NodeSettings

/-- The knobs of a node that no setting selects. -/
def standard : NodeSettings :=
  ⟨0.0, 7, 0.0, 0.0, 0.0⟩

end NodeSettings

/-- The knobs that a setting turns. -/
structure SettingOverrides where
  havoc : Option Float := none
  maxStackPower : Option Nat := none
  repeatReference : Option Float := none
  emptyPlus : Option Float := none
  multipleOption : Option Float := none

namespace SettingOverrides

/-- The knobs after they were turned. -/
def apply (o : SettingOverrides) (s : NodeSettings) : NodeSettings :=
  ⟨o.havoc.getD s.havoc, o.maxStackPower.getD s.maxStackPower,
    o.repeatReference.getD s.repeatReference, o.emptyPlus.getD s.emptyPlus,
    o.multipleOption.getD s.multipleOption⟩

end SettingOverrides

/-- **A setting**: the nodes it is for and the knobs it turns. -/
structure GrammarSetting where
  selector : SettingSelector
  overrides : SettingOverrides

/-- The knobs of a node under a list of settings. -/
def resolveSettings (settings : List GrammarSetting) (n : Node) : NodeSettings :=
  (settings.filter fun s => s.selector.selects n).foldl (fun acc s => s.overrides.apply acc)
    .standard

end GrammarFuzzing
