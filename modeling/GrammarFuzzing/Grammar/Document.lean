import GrammarFuzzing.Grammar.Basic

/-!
# Grammars as documents

A `GrammarFuzzing.Document` is a grammar as it is exchanged in JSON: rules whose bodies are
`GrammarFuzzing.Expression`s, a start symbol and settings. `GrammarFuzzing.Document.ofJson?` reads
one, and `GrammarFuzzing.Document.toDraft` makes its nodes: rules in the order of their keys as
written, and within a rule every node after the nodes in it.
-/

namespace GrammarFuzzing

/-- **The body of a rule as it is written.** -/
inductive Expression
  | text (value : String)
  | bytes (value : Bytes)
  | ref (name : String)
  | message (name sender : String) (recipient : Option String)
  | seq (parts : List Expression)
  | alt (options : List Expression)
  | star (body : Expression)
  | plus (body : Expression)
  | optional (body : Expression)
  | repeat (body : Expression) (min : Nat) (max : Option Nat)
  | chars (value : String)

/-- **A grammar as it is written.** -/
structure Document where
  start : String
  rules : Dictionary String Expression
  settings : List GrammarSetting

namespace Expression

mutual

/-- **The node of an expression**, made after the nodes in it. -/
def addTo (d : Draft) : Expression → Node × Draft
  | .text value => d.text value
  | .bytes value => d.bytes value
  | .ref name => d.reference name
  | .message name sender recipient => d.message name sender recipient
  | .seq parts =>
    let (ns, d) := listAddTo d parts
    d.sequence ns
  | .alt options =>
    let (ns, d) := listAddTo d options
    d.choice ns
  | .star body =>
    let (n, d) := addTo d body
    d.star n
  | .plus body =>
    let (n, d) := addTo d body
    d.plus n
  | .optional body =>
    let (n, d) := addTo d body
    d.optional n
  | .repeat body min max =>
    let (n, d) := addTo d body
    d.repeated n min max
  | .chars value => d.chars value.toList

/-- The nodes of several expressions. -/
def listAddTo (d : Draft) : List Expression → List Node × Draft
  | [] => ([], d)
  | e :: rest =>
    let (n, d) := addTo d e
    let (ns, d) := listAddTo d rest
    (n :: ns, d)

end

mutual

/-- **The expression that a JSON choice writes.** -/
def ofJson? : Json → Option Expression
  | .object [(tag, x)] =>
    match tag with
    | "text" => x.string?.map .text
    | "bytes" => (Literal.bytesOfJson? x).map .bytes
    | "ref" => x.string?.map .ref
    | "message" => messageOfJson? x
    | "seq" => (arrayOfJson? x).map .seq
    | "alt" => (arrayOfJson? x).map .alt
    | "star" => (ofJson? x).map .star
    | "plus" => (ofJson? x).map .plus
    | "optional" => (ofJson? x).map .optional
    | "repeat" => repeatOfJson? x
    | "chars" => x.string?.map .chars
    | _ => none
  | _ => none

/-- Several expressions out of JSON. -/
def listOfJson? : List Json → Option (List Expression)
  | [] => some []
  | x :: rest =>
    match ofJson? x, listOfJson? rest with
    | some e, some es => some (e :: es)
    | _, _ => none

/-- A list of expressions out of an array. -/
def arrayOfJson? : Json → Option (List Expression)
  | .array xs => listOfJson? xs
  | _ => none

/-- The parties and the name of a message, as a record or as the array of its fields. -/
def messageOfJson? : Json → Option Expression
  | .object ms => do
    let name ← Json.field? ms "name" Json.string?
    let sender ← Json.field? ms "sender" Json.string?
    let recipient ← Json.optional? ms "recipient" Json.string?
    some (.message name sender recipient)
  | .array [.string name, .string sender] => some (.message name sender none)
  | .array [.string name, .string sender, x] =>
    (x.nullable? Json.string?).map fun recipient => .message name sender recipient
  | _ => none

/-- The body and the bounds of a repetition, as a record or as the array of its fields. -/
def repeatOfJson? : Json → Option Expression
  | .object ms => do
    let min ← Json.field? ms "min" Json.nat?
    let max ← Json.optional? ms "max" Json.nat?
    match bodiesOfJson? ms with
    | some [body] => some (.repeat body min max)
    | _ => none
  | .array (x :: rest) =>
    match ofJson? x, rest with
    | some body, [min] => min.nat?.map fun min => .repeat body min none
    | some body, [min, max] => do
      let min ← min.nat?
      let max ← max.nullable? Json.nat?
      some (.repeat body min max)
    | _, _ => none
  | _ => none

/-- The expressions that the members called `expr` write. -/
def bodiesOfJson? : List (String × Json) → Option (List Expression)
  | [] => some []
  | (name, x) :: rest =>
    if name = "expr" then
      match ofJson? x, bodiesOfJson? rest with
      | some e, some es => some (e :: es)
      | _, _ => none
    else bodiesOfJson? rest

end

end Expression

namespace GrammarSetting

/-- The setting that a JSON record writes. -/
def ofJson? : Json → Option GrammarSetting
  | .object ms => do
    let text ← Json.field? ms "selector" Json.string?
    let selector ← (SettingSelector.read text).toOption
    let havoc ← Json.optional? ms "havoc_probability" Json.float?
    let maxStackPower ← Json.optional? ms "max_stack_pow" (Json.natBelow? (Nat.pow 2 32))
    let repeatReference ← Json.optional? ms "nonterminal_should_repeat" Json.float?
    let emptyPlus ← Json.optional? ms "plus_should_return_nothing" Json.float?
    let multipleOption ← Json.optional? ms "option_should_return_multiple" Json.float?
    some ⟨selector, ⟨havoc, maxStackPower, repeatReference, emptyPlus, multipleOption⟩⟩
  | _ => none

end GrammarSetting

namespace Document

/-- The rules that the members of an object write; of two with one key the later one counts. -/
def rulesOfJson? (x : Json) : Option (Dictionary String Expression) := do
  let rules ← (← x.members?).mapM fun (name, x) => (Expression.ofJson? x).map fun e => (name, e)
  some (.ofPairs rules)

/-- **The document that a JSON record writes.** There are no members but the start symbol, the rules
and the settings; the record may be the array of these three. -/
def ofJson? : Json → Option Document
  | .object ms => do
    if !Json.onlyNames ms ["start", "rules", "settings"] then none
    let start ← Json.fieldOr? ms "start" "start" Json.string?
    let rules ← Json.field? ms "rules" rulesOfJson?
    let settings ← Json.fieldOr? ms "settings" [] (Json.list? GrammarSetting.ofJson?)
    some ⟨start, rules, settings⟩
  | .array [.string start, rules] => (rulesOfJson? rules).map fun rules => ⟨start, rules, []⟩
  | .array [.string start, rules, settings] => do
    some ⟨start, ← rulesOfJson? rules, ← settings.list? GrammarSetting.ofJson?⟩
  | _ => none

/-- **The draft of a document.** -/
def toDraft (doc : Document) : Draft :=
  let d := doc.rules.foldl (fun (d : Draft) (name, e) =>
    let (n, d) := e.addTo d
    d.rule name n) {}
  { d.withStart doc.start with settings := doc.settings }

/-- The grammar of a document. -/
def toGrammar (doc : Document) : Except GrammarError Grammar :=
  doc.toDraft.build

end Document

end GrammarFuzzing
