import GrammarFuzzing.Json.Reader
import GrammarFuzzing.Toml.Basic

/-!
# Reading TOML

`GrammarFuzzing.Toml.parse?` reads a whole text as a table. As with JSON, each part of the grammar
is a function from the characters that are left to a value and what is left after it, and `none`
refuses the text. A line is a pair, the header of a table, or empty; each may end in a comment.
-/

namespace GrammarFuzzing.Toml

/-! ### Blanks, comments and the ends of lines -/

/-- What is left after blanks within a line. -/
def skipBlanks (cs : List Char) : List Char :=
  cs.dropWhile fun c => c == ' ' || c == '\t'

/-- Whether a character may stand in a text: no control character but the tab. -/
def isTextChar (c : Char) : Bool :=
  c == '\t' || (0x20 ≤ c.toNat && c.toNat ≠ 0x7f)

/-- Whether a character may stand in a comment. -/
def isCommentChar (c : Char) : Bool :=
  c == '\t' || 0x20 ≤ c.toNat

/-- What is left after a comment, if there is one. -/
def skipComment : List Char → List Char
  | '#' :: rest => rest.dropWhile isCommentChar
  | cs => cs

/-- What is left after the end of a line. -/
def lineBreak? : List Char → Option (List Char)
  | '\n' :: rest => some rest
  | '\r' :: '\n' :: rest => some rest
  | _ => none

/-- What is left after the rest of a line, where nothing but blanks and a comment may stand. -/
def endLine? (cs : List Char) : Option (List Char) :=
  match skipComment (skipBlanks cs) with
  | [] => some []
  | cs => lineBreak? cs

/-- What is left after blanks, comments and empty lines. The number bounds the lines. -/
def skipLines : Nat → List Char → List Char
  | 0, cs => cs
  | lines + 1, cs =>
    let rest := skipComment (skipBlanks cs)
    match lineBreak? rest with
    | some rest => skipLines lines rest
    | none => rest

/-! ### Strings -/

/-- The character that a number of hexadecimal digits write. -/
def readHex? : Nat → Nat → List Char → Option (Char × List Char)
  | 0, n, cs => if n.isValidChar then some (Char.ofNat n, cs) else none
  | digits + 1, n, c :: cs =>
    match Json.hexValue? c with
    | some d => readHex? digits (n * 16 + d) cs
    | none => none
  | _ + 1, _, [] => none

/-- The character after a backslash. -/
def readEscape? : List Char → Option (Char × List Char)
  | 'u' :: rest => readHex? 4 0 rest
  | 'U' :: rest => readHex? 8 0 rest
  | '/' :: _ => none
  | c :: rest => (Json.simpleEscape? c).map fun c => (c, rest)
  | [] => none

/-- The rest of a quoted string after its opening quote. -/
def readBasic? : Nat → List Char → List Char → Option (String × List Char)
  | 0, _, _ => none
  | _ + 1, done, '"' :: rest => some (String.ofList done.reverse, rest)
  | fuel + 1, done, '\\' :: rest =>
    match readEscape? rest with
    | some (c, rest) => readBasic? fuel (c :: done) rest
    | none => none
  | fuel + 1, done, c :: rest => if isTextChar c then readBasic? fuel (c :: done) rest else none
  | _ + 1, _, [] => none

/-- The rest of a string between single quotes after the opening one. Nothing is escaped. -/
def readLiteral? (cs : List Char) : Option (String × List Char) :=
  let body := cs.takeWhile fun c => c != '\'' && isTextChar c
  match cs.drop body.length with
  | '\'' :: rest => some (String.ofList body, rest)
  | _ => none

/-- The end of a string of several lines at a run of quotes: at most two of them may belong to the
string before the three that close it. The result is those in the string and what is left; there is
none if the run is too short to close the string. -/
def closing? (quote : Char) (cs : List Char) : Option (List Char × List Char) :=
  let run := (cs.takeWhile fun c => c == quote).length
  if run < 3 then none
  else
    let inside := Nat.min (run - 3) 2
    some (List.replicate inside quote, cs.drop (inside + 3))

/-- What is left after a backslash at the end of a line: blanks and line breaks are left out. -/
def continued? (cs : List Char) : Option (List Char) :=
  match lineBreak? (skipBlanks cs) with
  | none => none
  | some rest => some (rest.dropWhile fun c => c == ' ' || c == '\t' || c == '\n' || c == '\r')

/-- The rest of a string of several lines between triple quotes, with or without escapes. -/
def readLong? (quote : Char) (escapes : Bool) :
    Nat → List Char → List Char → Option (String × List Char)
  | 0, _, _ => none
  | fuel + 1, done, cs =>
    match closing? quote cs with
    | some (inside, rest) => some (String.ofList (done.reverse ++ inside), rest)
    | none =>
      match lineBreak? cs with
      | some rest => readLong? quote escapes fuel ('\n' :: done) rest
      | none =>
        match cs with
        | [] => none
        | c :: rest =>
          if escapes && c == '\\' then
            match continued? rest with
            | some rest => readLong? quote escapes fuel done rest
            | none =>
              match readEscape? rest with
              | some (c, rest) => readLong? quote escapes fuel (c :: done) rest
              | none => none
          else if isTextChar c then readLong? quote escapes fuel (c :: done) rest
          else none

/-- A string of several lines after its opening quotes; a line break right after them is left
out. -/
def readLongBody? (quote : Char) (escapes : Bool) (cs : List Char) : Option (String × List Char) :=
  let cs := (lineBreak? cs).getD cs
  readLong? quote escapes (cs.length + 1) [] cs

/-! ### Keys -/

/-- Whether a character may stand in a key without quotes. -/
def isKeyChar (c : Char) : Bool :=
  c.isAlphanum || c == '-' || c == '_'

/-- One part of a key. -/
def readKeyPart? : List Char → Option (String × List Char)
  | '"' :: rest => readBasic? (rest.length + 1) [] rest
  | '\'' :: rest => readLiteral? rest
  | cs =>
    match cs.takeWhile isKeyChar with
    | [] => none
    | key => some (String.ofList key, cs.dropWhile isKeyChar)

/-- **A dotted key**: the parts before the last one, and the last one. -/
def readKey? : Nat → List String → List Char → Option (List String × String × List Char)
  | 0, _, _ => none
  | fuel + 1, done, cs =>
    match readKeyPart? (skipBlanks cs) with
    | none => none
    | some (part, rest) =>
      match skipBlanks rest with
      | '.' :: rest => readKey? fuel (part :: done) rest
      | rest => some (done.reverse, part, rest)

/-! ### Numbers -/

/-- The digits of a numeral without the underscores between them. -/
def dropUnderscores? (isDigit : Char → Bool) : List Char → Option (List Char)
  | [] => none
  | [c] => if isDigit c then some [c] else none
  | c :: '_' :: rest => if isDigit c then (dropUnderscores? isDigit rest).map (c :: ·) else none
  | c :: rest => if isDigit c then (dropUnderscores? isDigit rest).map (c :: ·) else none

/-- The digits of a whole number, which has no zeros in front. -/
def wholeDigits? (cs : List Char) : Option (List Char) :=
  match dropUnderscores? Char.isDigit cs with
  | some ('0' :: _ :: _) => none
  | ds => ds

/-- The numeral to a base. -/
def readBase? (base : Nat) (cs : List Char) : Option Nat :=
  let digit? (c : Char) : Option Nat := (Json.hexValue? c).filter fun d => d < base
  (dropUnderscores? (fun c => (digit? c).isSome) cs).map fun ds =>
    ds.foldl (fun n c => n * base + (digit? c).getD 0) 0

/-- An integer, which has to fit into 64 bits. -/
def readInt? (cs : List Char) : Option Int :=
  let value := match cs with
    | '0' :: 'x' :: ds => (readBase? 16 ds).map Int.ofNat
    | '0' :: 'o' :: ds => (readBase? 8 ds).map Int.ofNat
    | '0' :: 'b' :: ds => (readBase? 2 ds).map Int.ofNat
    | cs =>
      let (negative, ds) := splitSign cs
      ((wholeDigits? ds).bind digitsValue?).map fun n => if negative then -(n : Int) else n
  value.filter fun n => int64Min ≤ n && n ≤ int64Max

/-- The part of a number before its exponent: digits, and a point with digits. -/
def mantissa? (cs : List Char) : Option (List Char) :=
  let whole := cs.takeWhile fun c => c != '.'
  match cs.drop whole.length with
  | [] => wholeDigits? whole
  | _ :: fraction =>
    match wholeDigits? whole, dropUnderscores? Char.isDigit fraction with
    | some a, some b => some (a ++ '.' :: b)
    | _, _ => none

/-- The characters of a number after its sign without underscores. A number has a point or an
exponent. -/
def unsigned? (cs : List Char) : Option (List Char) :=
  let m := cs.takeWhile fun c => c != 'e' && c != 'E'
  match mantissa? m, cs.drop m.length with
  | some ds, [] => if m.contains '.' then some ds else none
  | some ds, _ :: exponent =>
    let (down, es) := splitSign exponent
    (dropUnderscores? Char.isDigit es).map fun es =>
      ds ++ 'e' :: (if down then ['-'] else []) ++ es
  | none, _ => none

/-- A floating-point number. Beyond the largest one there is none, but below the least one there is
minus infinity. -/
def readFloat? (cs : List Char) : Option Float :=
  let (negative, body) := splitSign cs
  let magnitude :=
    if body = "inf".toList then some (1.0 / 0.0)
    else if body = "nan".toList then some (0.0 / 0.0)
    else
      ((unsigned? body).bind fun ds => GrammarFuzzing.readFloat? (String.ofList ds)).filter fun x =>
        negative || !x.isInf
  magnitude.map fun x => if negative then -x else x

/-- A word or a number. -/
def readPlain? (cs : List Char) : Option Toml :=
  if cs = "true".toList then some (.bool true)
  else if cs = "false".toList then some (.bool false)
  else
    match readInt? cs with
    | some n => some (.int n)
    | none => (readFloat? cs).map .float

/-- Whether a character may stand in a word or a number. -/
def isPlainChar (c : Char) : Bool :=
  c.isAlphanum || c == '+' || c == '-' || c == '_' || c == '.' || c == ':'

/-! ### Values -/

mutual

/-- **A value** at the front of the text. The number bounds the recursion. -/
def readValue? : Nat → List Char → Option (Toml × List Char)
  | 0, _ => none
  | fuel + 1, cs =>
    match cs with
    | '"' :: '"' :: '"' :: rest =>
      (readLongBody? '"' true rest).map fun (s, rest) => (.string s, rest)
    | '\'' :: '\'' :: '\'' :: rest =>
      (readLongBody? '\'' false rest).map fun (s, rest) => (.string s, rest)
    | '"' :: rest =>
      (readBasic? (rest.length + 1) [] rest).map fun (s, rest) => (.string s, rest)
    | '\'' :: rest => (readLiteral? rest).map fun (s, rest) => (.string s, rest)
    | '[' :: rest => (readItems? fuel [] rest).map fun (items, rest) => (.array items, rest)
    | '\x7b' :: rest =>
      match skipBlanks rest with
      | '\x7d' :: rest => some (.table .braces [], rest)
      | rest => (readMembers? fuel [] rest).map fun (ms, rest) => (.table .braces ms, rest)
    | cs => (readPlain? (cs.takeWhile isPlainChar)).map fun x => (x, cs.dropWhile isPlainChar)

/-- The items of an array after its opening bracket. They may stand on several lines, and a comma
may follow the last one. -/
def readItems? : Nat → List Toml → List Char → Option (List Toml × List Char)
  | 0, _, _ => none
  | fuel + 1, done, cs =>
    match skipLines (cs.length + 1) cs with
    | ']' :: rest => some (done.reverse, rest)
    | cs =>
      match readValue? fuel cs with
      | none => none
      | some (x, rest) =>
        match skipLines (rest.length + 1) rest with
        | ',' :: rest => readItems? fuel (x :: done) rest
        | ']' :: rest => some ((x :: done).reverse, rest)
        | _ => none

/-- The pairs of a table between braces, at least one, on one line. -/
def readMembers? : Nat → Members → List Char → Option (Members × List Char)
  | 0, _, _ => none
  | fuel + 1, done, cs =>
    match readKey? (cs.length + 1) [] cs with
    | some (path, key, '=' :: rest) =>
      match readValue? fuel (skipBlanks rest) with
      | none => none
      | some (x, rest) =>
        match putDotted path key x done, skipBlanks rest with
        | some ms, ',' :: rest => readMembers? fuel ms rest
        | some ms, '\x7d' :: rest => some (ms, rest)
        | _, _ => none
    | _ => none

end

/-! ### Documents -/

/-- The document read so far: its table, and the table that the last header opened. -/
structure Document where
  root : Members := []
  current : List String := []

/-- **One line** of a document, if it is not empty. -/
def readLine? (d : Document) (cs : List Char) : Option (Document × List Char) :=
  match skipBlanks cs with
  | '[' :: '[' :: rest =>
    match readKey? (rest.length + 1) [] rest with
    | some (path, key, ']' :: ']' :: rest) => do
      let root ← openArrayTable path key d.root
      some (⟨root, path ++ [key]⟩, rest)
    | _ => none
  | '[' :: rest =>
    match readKey? (rest.length + 1) [] rest with
    | some (path, key, ']' :: rest) => do
      let root ← openTable path key d.root
      some (⟨root, path ++ [key]⟩, rest)
    | _ => none
  | cs =>
    match readKey? (cs.length + 1) [] cs with
    | some (path, key, '=' :: rest) => do
      let rest := skipBlanks rest
      let (x, rest) ← readValue? (2 * rest.length + 2) rest
      let root ← putPair d.current path key x d.root
      some (⟨root, d.current⟩, rest)
    | _ => none

/-- The lines of a document from some point on. The number bounds the lines. -/
def readLines? : Nat → Document → List Char → Option Document
  | 0, _, _ => none
  | fuel + 1, d, cs =>
    match skipLines (cs.length + 1) cs with
    | [] => some d
    | cs =>
      match readLine? d cs with
      | none => none
      | some (d, rest) =>
        match endLine? rest with
        | some rest => readLines? fuel d rest
        | none => none

/-- **The table that a text writes.** A byte order mark in front is left out. -/
def parse? (s : String) : Option Members :=
  let cs := match s.toList with
    | '\ufeff' :: rest => rest
    | cs => cs
  (readLines? (cs.length + 1) {} cs).map (·.root)

end GrammarFuzzing.Toml
