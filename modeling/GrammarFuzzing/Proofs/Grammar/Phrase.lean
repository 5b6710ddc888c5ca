import GrammarFuzzing.Grammar.Spec
import GrammarFuzzing.Proofs.Text.Delimited

/-!
# The phrases of a specification

The body of a rule is written as a **line** of phrases with spaces in between. A
`GrammarFuzzing.Phrase` is a word – a literal, a set of characters, a reference – or a group:
options between parentheses, which are lines again. Quantifiers may follow.

A line is read back from its text (`GrammarFuzzing.Phrase.line_append`), by induction over its
phrases, each of which is read back whatever follows behind its end. Three things could stand in
the way:

* an empty sequence is written as nothing at all, so a quantifier, a space or a closing parenthesis
  may stand where a word is expected. No word begins with any of these
  (`GrammarFuzzing.Word.head?_write_append`);
* a space separates two phrases, but also begins the separator of two options. No phrase begins with
  the bar that follows it there (`GrammarFuzzing.Phrase.head?_write_append_ne`);
* names are not quoted. They may be anything in which none of the characters around a name occurs
  (`GrammarFuzzing.Legible`).
-/

namespace GrammarFuzzing

/-- **A name that can be told from what stands around it** in a specification, whatever letters,
digits and underscores it has. -/
def Legible (name : String) : Prop :=
  ∀ c ∈ name.toList, c ≠ '<' ∧ c ≠ '>' ∧ c ≠ ':'

instance (name : String) : Decidable (Legible name) :=
  List.decidableBAll (fun c => c ≠ '<' ∧ c ≠ '>' ∧ c ≠ ':') name.toList

/-- **How often something may occur**, as a specification writes it. -/
inductive Quantifier
  | star
  | plus
  | optional
  | bounded (min : Nat) (max : Option Nat)

/-- **A word of a specification**: what a node without parts is written as. An empty sequence is
written as nothing. -/
inductive Word
  | nothing
  | literal (value : Literal)
  | charset (chars : List Char)
  | reference (parties : List String) (name : String)

/-- **A phrase**: a word, or options between parentheses, each a line of phrases. -/
inductive Phrase
  | word (content : Word) (times : List Quantifier)
  | group (options : List (List Phrase)) (times : List Quantifier)

variable {rest rest' : List Char}

/-! ### Quantifiers -/

namespace Quantifier

/-- The quantifier of a repetition. -/
def of (min : Nat) (max : Option Nat) : RepetitionForm → Quantifier
  | .star => .star
  | .plus => .plus
  | .optional => .optional
  | .bounded => .bounded min max

/-- A quantifier as text. -/
def write : Quantifier → List Char
  | .star => ['*']
  | .plus => ['+']
  | .optional => ['?']
  | .bounded min max => (Node.quantifier min max .bounded).toList

theorem write_of (min : Nat) (max : Option Nat) (form : RepetitionForm) :
    (of min max form).write = (Node.quantifier min max form).toList := by
  cases form <;> simp [of, write, Node.quantifier]

/-- What follows the lower bound. -/
def afterMin (min : Nat) : Option Nat → List Char
  | some max => if max = min then ['\x7d'] else ',' :: (Nat.toDigits 10 max ++ ['\x7d'])
  | none => [',', '\x7d']

theorem write_bounded (min : Nat) (max : Option Nat) :
    (bounded min max).write = '\x7b' :: (Nat.toDigits 10 min ++ afterMin min max) := by
  cases max with
  | none => simp [write, Node.quantifier, afterMin, String.toList_append]
  | some max =>
    simp only [write, Node.quantifier, afterMin]
    split <;> simp [String.toList_append]

/-- The characters that a quantifier begins with. -/
def opens (c : Char) : Bool :=
  c = '*' || c = '+' || c = '?' || c = '\x7b'

theorem head?_write (q : Quantifier) (more : List Char) :
    ∃ c, (q.write ++ more).head? = some c ∧ opens c = true := by
  cases q with
  | star | plus | optional => exact ⟨_, rfl, rfl⟩
  | bounded min max => exact ⟨'\x7b', by rw [write_bounded]; rfl, rfl⟩

theorem exists_afterMin_eq_cons (min : Nat) (max : Option Nat) :
    ∃ c tail, afterMin min max = c :: tail ∧ endsNumber c = true := by
  rw [afterMin.eq_def]
  split
  · split <;> exact ⟨_, _, rfl, rfl⟩
  · exact ⟨_, _, rfl, rfl⟩

theorem brace_ne_digits (n : Nat) (more : List Char) :
    '\x7d' :: rest ≠ Nat.toDigits 10 n ++ more := by
  intro h
  obtain ⟨c, cs, hdigits⟩ := List.exists_cons_of_ne_nil (Nat.toDigits_ne_nil (n := n) (b := 10))
  obtain ⟨digit, hc⟩ := exists_digitChar_of_mem_toDigits (by decide) n
    (hdigits ▸ List.mem_cons_self)
  rw [hdigits] at h
  exact Nat.digitChar_ne '\x7d' rfl (hc ▸ (List.cons.inj h).1.symm)

theorem afterMin_append {min : Nat} {max max' : Option Nat}
    (h : afterMin min max ++ rest = afterMin min max' ++ rest') : max = max' ∧ rest = rest' := by
  have hcases : ∀ max, (max = some min ∧ afterMin min max = ['\x7d']) ∨
      (max = none ∧ afterMin min max = [',', '\x7d']) ∨
      ∃ n, max = some n ∧ afterMin min max = ',' :: (Nat.toDigits 10 n ++ ['\x7d']) := by
    rintro (_ | n)
    · exact Or.inr (Or.inl ⟨rfl, rfl⟩)
    · by_cases hn : n = min
      · exact Or.inl ⟨congrArg some hn, if_pos hn⟩
      · exact Or.inr (Or.inr ⟨n, rfl, if_neg hn⟩)
  rcases hcases max with ⟨rfl, hmax⟩ | ⟨rfl, hmax⟩ | ⟨n, rfl, hmax⟩ <;>
    rcases hcases max' with ⟨rfl, hmax'⟩ | ⟨rfl, hmax'⟩ | ⟨n', rfl, hmax'⟩ <;>
    simp only [hmax, hmax', List.cons_append, List.nil_append, List.append_assoc,
      List.cons.injEq] at h
  · exact ⟨rfl, h.2⟩
  · exact absurd h.1 (by decide)
  · exact absurd h.1 (by decide)
  · exact absurd h.1 (by decide)
  · exact ⟨rfl, h.2.2⟩
  · exact absurd h.2 (brace_ne_digits n' _)
  · exact absurd h.1 (by decide)
  · exact absurd h.2.symm (brace_ne_digits n _)
  · obtain ⟨rfl, -, hrest⟩ := digits_append (by decide) (by decide) rfl rfl h.2
    exact ⟨rfl, hrest⟩

/-- **A quantifier is read back**, whatever follows. -/
theorem selfDelimiting_write : SelfDelimiting write := by
  have hmark : ∀ min max, ∃ tail, (bounded min max).write = '\x7b' :: tail := fun min max =>
    ⟨_, write_bounded min max⟩
  rintro (_ | _ | _ | ⟨min, max⟩) (_ | _ | _ | ⟨min', max'⟩) rest rest' h
  case bounded.bounded =>
    rw [write_bounded, write_bounded, List.cons_append, List.cons_append, List.append_assoc,
      List.append_assoc] at h
    obtain ⟨c, tail, hc, hends⟩ := exists_afterMin_eq_cons min max
    obtain ⟨c', tail', hc', hends'⟩ := exists_afterMin_eq_cons min' max'
    have hdigits := (List.cons.inj h).2
    rw [hc, hc'] at hdigits
    obtain ⟨rfl, rfl, htail⟩ := digits_append (by decide) (by decide) hends hends' hdigits
    have hafter : afterMin min max ++ rest = afterMin min max' ++ rest' := by
      rw [hc, hc']
      exact congrArg (c :: ·) htail
    obtain ⟨rfl, hrest⟩ := afterMin_append hafter
    exact ⟨rfl, hrest⟩
  case star.star | plus.plus | optional.optional => exact ⟨rfl, (List.cons.inj h).2⟩
  case bounded.star | bounded.plus | bounded.optional =>
    obtain ⟨tail, htail⟩ := hmark min max
    rw [htail] at h
    exact absurd (List.cons.inj h).1 (by decide)
  case star.bounded | plus.bounded | optional.bounded =>
    obtain ⟨tail, htail⟩ := hmark min' max'
    rw [htail] at h
    exact absurd (List.cons.inj h).1 (by decide)
  all_goals exact absurd (List.cons.inj h).1 (by decide)

end Quantifier

/-! ### What stands behind phrases and lines -/

/-- **What a line ends before**: the end of the text, the next rule, the end of the group or its
next option. -/
inductive EndsLine : List Char → Prop
  | text : EndsLine []
  | rule (more : List Char) : EndsLine ('\n' :: more)
  | group (more : List Char) : EndsLine (')' :: more)
  | option (more : List Char) : EndsLine (' ' :: '|' :: ' ' :: more)

/-- **What a phrase ends before**: the end of its line or the next phrase. -/
inductive EndsPhrase : List Char → Prop
  | line {rest : List Char} : EndsLine rest → EndsPhrase rest
  | phrase (more : List Char) : EndsPhrase (' ' :: more)

/-- The characters that a phrase begins with, unless it begins with an empty word. -/
def opensPhrase (c : Char) : Bool :=
  c = '"' || c = 'b' || c = '[' || c = '<' || c = '('

/-- **What a word ends before**: anything that no phrase begins with, and no bar. -/
def EndsWord (rest : List Char) : Prop :=
  ∀ c ∈ rest.head?, opensPhrase c = false ∧ c ≠ '|'

theorem EndsPhrase.head? (h : EndsPhrase rest) :
    ∀ c ∈ rest.head?, Quantifier.opens c = false ∧ opensPhrase c = false ∧ c ≠ '|' := by
  rcases h with (_ | _ | _ | _) | _ <;> simp [Quantifier.opens, opensPhrase]

/-- A word ends before its quantifiers. -/
theorem EndsPhrase.endsWord (h : EndsPhrase rest) (times : List Quantifier) :
    EndsWord (times.flatMap Quantifier.write ++ rest) := by
  cases times with
  | nil => exact fun c hc => (h.head? c hc).2
  | cons q times =>
    intro c hc
    obtain ⟨d, hd, hopens⟩ := q.head?_write (times.flatMap Quantifier.write ++ rest)
    rw [List.flatMap_cons, List.append_assoc, hd] at hc
    obtain rfl := Option.some.inj hc
    simp only [Quantifier.opens, Bool.or_eq_true, decide_eq_true_eq] at hopens
    rcases hopens with ((rfl | rfl) | rfl) | rfl <;> decide

/-- **Quantifiers are read back** before the end of the phrase. -/
theorem EndsPhrase.times_append {times times' : List Quantifier} (hrest : EndsPhrase rest)
    (hrest' : EndsPhrase rest')
    (h : times.flatMap Quantifier.write ++ rest = times'.flatMap Quantifier.write ++ rest') :
    times = times' ∧ rest = rest' := by
  refine Quantifier.selfDelimiting_write.flatMap
    (fun r => ∀ c ∈ r.head?, Quantifier.opens c = false) (fun q more hq => ?_)
    (fun c hc => (hrest.head? c hc).1) (fun c hc => (hrest'.head? c hc).1) h
  obtain ⟨c, hc, hopens⟩ := q.head?_write more
  exact absurd (hq c hc) (by rw [hopens]; decide)

/-! ### Words -/

namespace Word

/-- A word as text. -/
def write : Word → List Char
  | .nothing => []
  | .literal value => value.toSpec.toList
  | .charset chars => '[' :: (chars.flatMap Node.setChar ++ [']'])
  | .reference parties name =>
    '<' :: (parties.flatMap (fun p => p.toList ++ [':']) ++ (name.toList ++ ['>']))

/-- The names in a word are legible. -/
def Proper : Word → Prop
  | .reference parties name => Legible name ∧ ∀ p ∈ parties, Legible p
  | _ => True

/-- The first character of a word tells which kind of word it is. -/
def mark : Word → Option Char
  | .nothing => none
  | .literal (.text _) => some '"'
  | .literal (.bytes _) => some 'b'
  | .charset _ => some '['
  | .reference _ _ => some '<'

theorem head?_write_append (w : Word) (hrest : EndsWord rest) :
    (w.write ++ rest).head?.filter opensPhrase = w.mark := by
  cases w with
  | nothing =>
    rw [write, List.nil_append, mark, Option.filter_eq_none_iff]
    exact fun c hc => by simp [(hrest c hc).1]
  | literal value =>
    cases value <;> simp [write, Literal.toSpec, quote, mark, opensPhrase]
  | charset | reference => simp [write, mark, opensPhrase]

/-- No word begins like a group. -/
theorem write_append_ne (w : Word) (hrest : EndsWord rest) (more : List Char) :
    w.write ++ rest ≠ '(' :: more := by
  intro h
  have hmark := w.head?_write_append hrest
  rw [h] at hmark
  cases w with
  | literal value => cases value <;> exact absurd hmark (by simp [mark, opensPhrase])
  | nothing | charset | reference => exact absurd hmark (by simp [mark, opensPhrase])

theorem head?_write_append_ne (w : Word) (hrest : EndsWord rest) :
    (w.write ++ rest).head? ≠ some '|' := by
  cases w with
  | nothing => exact fun h => (hrest '|' h).2 rfl
  | literal value => cases value <;> simp [write, Literal.toSpec, quote]
  | charset | reference => simp [write]

theorem setChar_cases (c : Char) :
    (c ≠ ']' ∧ c ≠ '\\' ∧ Node.setChar c = [c]) ∨ Node.setChar c = ['\\', c] := by
  rw [Node.setChar]
  split
  · exact Or.inr rfl
  · rename_i h
    rw [not_or, not_or] at h
    exact Or.inl ⟨h.1, h.2.1, rfl⟩

theorem selfDelimiting_setChar : SelfDelimiting Node.setChar := by
  intro c d rest rest' h
  rcases setChar_cases c with ⟨-, hc, hwrite⟩ | hwrite <;>
    rcases setChar_cases d with ⟨-, hd, hwrite'⟩ | hwrite' <;> rw [hwrite, hwrite'] at h
  · exact List.cons.inj h
  · exact absurd (List.cons.inj h).1 hc
  · exact absurd (List.cons.inj h).1.symm hd
  · exact List.cons.inj (List.cons.inj h).2

theorem charset_append {cs ds : List Char}
    (h : cs.flatMap Node.setChar ++ ']' :: rest = ds.flatMap Node.setChar ++ ']' :: rest') :
    cs = ds ∧ rest = rest' := by
  obtain ⟨rfl, hrest⟩ := selfDelimiting_setChar.flatMap (fun r => r.head? = some ']')
    (fun c more => by
      rcases setChar_cases c with ⟨hc, -, hwrite⟩ | hwrite <;> rw [hwrite]
      · simpa using hc
      · simp) rfl rfl h
  exact ⟨rfl, (List.cons.inj hrest).2⟩

/-- **Parties and a name** with colons in between, none in them. -/
theorem parties_append {name name' : String} (hname : Legible name) (hname' : Legible name') :
    ∀ {ps qs : List String}, (∀ p ∈ ps, Legible p) → (∀ q ∈ qs, Legible q) →
      ps.flatMap (fun p => p.toList ++ [':']) ++ name.toList =
        qs.flatMap (fun q => q.toList ++ [':']) ++ name'.toList → ps = qs ∧ name = name'
  | [], [], _, _, h => ⟨rfl, String.toList_inj.mp h⟩
  | [], q :: qs, _, _, h => by
    have hcolon : ':' ∈ name.toList := by
      rw [List.flatMap_nil, List.nil_append] at h
      simp [h]
    exact absurd rfl (hname ':' hcolon).2.2
  | p :: ps, [], _, _, h => by
    have hcolon : ':' ∈ name'.toList := by
      rw [List.flatMap_nil, List.nil_append] at h
      simp [← h]
    exact absurd rfl ( hname' ':' hcolon).2.2
  | p :: ps, q :: qs, hps, hqs, h => by
    rw [List.forall_mem_cons] at hps hqs
    simp only [List.flatMap_cons, List.append_assoc, List.cons_append, List.nil_append] at h
    obtain ⟨hp, hmore⟩ := append_inj_of_kind (fun c => c ≠ ':')
      (fun c hc => by simpa using (hps.1 c hc).2.2) (fun c hc => by simpa using (hqs.1 c hc).2.2)
      (by simp) (by simp) h
    obtain ⟨rfl, hnames⟩ := parties_append hname hname' hps.2 hqs.2 (List.cons.inj hmore).2
    exact ⟨congrArg (· :: ps) (String.toList_inj.mp hp), hnames⟩

theorem reference_append {name name' : String} {ps qs : List String}
    (hw : (reference ps name).Proper) (hw' : (reference qs name').Proper)
    (h : (reference ps name).write ++ rest = (reference qs name').write ++ rest') :
    reference ps name = reference qs name' ∧ rest = rest' := by
  have hkind : ∀ {ps name}, (reference ps name).Proper →
      ∀ c ∈ ps.flatMap (fun p => p.toList ++ [':']) ++ name.toList, (c ≠ '>' : Bool) = true := by
    intro ps name hw c hc
    rcases List.mem_append.mp hc with hc | hc
    · obtain ⟨p, hp, hc⟩ := List.mem_flatMap.mp hc
      rcases List.mem_append.mp hc with hc | hc
      · simpa using (hw.2 p hp c hc).2.1
      · rw [List.mem_singleton.mp hc]
        decide
    · simpa using (hw.1 c hc).2.1
  simp only [write, List.cons_append, List.append_assoc, List.nil_append, List.cons.injEq,
    true_and] at h
  rw [← List.append_assoc, ← List.append_assoc] at h
  obtain ⟨hlabel, hrest⟩ := append_inj_of_kind (fun c => c ≠ '>') (hkind hw) (hkind hw')
    (by simp) (by simp) h
  obtain ⟨rfl, rfl⟩ := parties_append hw.1 hw'.1 hw.2 hw'.2 hlabel
  exact ⟨rfl, (List.cons.inj hrest).2⟩

/-- **A word is read back.** -/
theorem write_append {w w' : Word} (hw : w.Proper) (hw' : w'.Proper) (hrest : EndsWord rest)
    (hrest' : EndsWord rest') (h : w.write ++ rest = w'.write ++ rest') :
    w = w' ∧ rest = rest' := by
  have hmark : w.mark = w'.mark := by
    rw [← w.head?_write_append hrest, h, w'.head?_write_append hrest']
  cases w with
  | nothing =>
    cases w' with
    | nothing => exact ⟨rfl, h⟩
    | literal value => cases value <;> exact absurd hmark (by simp [mark])
    | charset | reference => exact absurd hmark (by simp [mark])
  | literal value =>
    cases w' with
    | literal value' =>
      obtain ⟨rfl, hrest⟩ := Literal.selfDelimiting_toSpec h
      exact ⟨rfl, hrest⟩
    | nothing | charset | reference => cases value <;> exact absurd hmark (by simp [mark])
  | charset chars =>
    cases w' with
    | charset chars' =>
      simp only [write, List.cons_append, List.append_assoc, List.nil_append, List.cons.injEq,
        true_and] at h
      obtain ⟨rfl, hrest⟩ := charset_append h
      exact ⟨rfl, hrest⟩
    | literal value => cases value <;> exact absurd hmark (by simp [mark])
    | nothing | reference => exact absurd hmark (by simp [mark])
  | reference parties name =>
    cases w' with
    | reference parties' name' => exact reference_append hw hw' h
    | literal value => cases value <;> exact absurd hmark (by simp [mark])
    | nothing | charset => exact absurd hmark (by simp [mark])

end Word

/-! ### Phrases -/

namespace Phrase

/-- **Induction over phrases**: what holds of all phrases of the options holds of the group. -/
theorem induction {motive : Phrase → Prop} (word : ∀ w times, motive (.word w times))
    (group : ∀ options times, (∀ line ∈ options, ∀ p ∈ line, motive p) →
      motive (.group options times)) (p : Phrase) : motive p :=
  @Phrase.rec motive (fun options => ∀ line ∈ options, ∀ p ∈ line, motive p)
    (fun line => ∀ p ∈ line, motive p) word group (fun _ h => absurd h List.not_mem_nil)
    (fun _ _ hline hoptions => List.forall_mem_cons.mpr ⟨hline, hoptions⟩)
    (fun _ h => absurd h List.not_mem_nil)
    (fun _ _ hp hline => List.forall_mem_cons.mpr ⟨hp, hline⟩) p

mutual

/-- **A phrase as text.** -/
def write : Phrase → List Char
  | .word w times => w.write ++ times.flatMap Quantifier.write
  | .group options times =>
    '(' :: ([' ', '|', ' '].intercalate (writeOptions options) ++
      ')' :: times.flatMap Quantifier.write)

/-- The options of a group as text. -/
def writeOptions : List (List Phrase) → List (List Char)
  | [] => []
  | line :: options => [' '].intercalate (writeParts line) :: writeOptions options

/-- The phrases of a line as text. -/
def writeParts : List Phrase → List (List Char)
  | [] => []
  | p :: line => p.write :: writeParts line

end

theorem writeParts_eq_map (line : List Phrase) : writeParts line = line.map write := by
  induction line with
  | nil => rw [writeParts, List.map_nil]
  | cons p line ih => rw [writeParts, ih, List.map_cons]

/-- **A line as text.** -/
def writeLine (line : List Phrase) : List Char :=
  [' '].intercalate (line.map write)

theorem writeOptions_eq_map (options : List (List Phrase)) :
    writeOptions options = options.map writeLine := by
  induction options with
  | nil => rw [writeOptions, List.map_nil]
  | cons line options ih =>
    rw [writeOptions, ih, List.map_cons, writeParts_eq_map, writeLine]

/-- **Proper phrases**: names are legible, groups have options, and options have phrases. -/
inductive Proper : Phrase → Prop
  | word {w : Word} {times : List Quantifier} : w.Proper → Proper (.word w times)
  | group {options : List (List Phrase)} {times : List Quantifier} : options ≠ [] →
    (∀ line ∈ options, line ≠ []) → (∀ line ∈ options, ∀ p ∈ line, Proper p) →
      Proper (.group options times)

/-- No phrase begins with the bar that separates options. -/
theorem head?_write_append_ne (p : Phrase) (hrest : EndsPhrase rest) :
    (p.write ++ rest).head? ≠ some '|' := by
  cases p with
  | word w times =>
    rw [write, List.append_assoc]
    exact w.head?_write_append_ne (hrest.endsWord times)
  | group options times => simp [write]

/-- A phrase **is read back** when it is told from all other phrases before the end of a phrase. -/
def ReadBack (p : Phrase) : Prop :=
  ∀ ⦃q : Phrase⦄, q.Proper → ∀ {rest rest' : List Char}, EndsPhrase rest → EndsPhrase rest' →
    p.write ++ rest = q.write ++ rest' → p = q ∧ rest = rest'

/-- A line does not go on where a line ends. -/
theorem endsLine_ne (hrest : EndsLine rest) (p : Phrase) {more : List Char}
    (hmore : EndsPhrase more) : rest ≠ [' '] ++ (p.write ++ more) := by
  intro h
  cases hrest with
  | text | rule | group => exact absurd h (by simp)
  | option tail =>
    have hbar := congrArg List.head? (List.cons.inj h).2
    exact p.head?_write_append_ne hmore hbar.symm

/-- **A line of phrases that are read back is read back.** -/
theorem line_append_of_readBack {line line' : List Phrase} (hne : line ≠ []) (hne' : line' ≠ [])
    (hread : ∀ p ∈ line, p.ReadBack) (hproper : ∀ p ∈ line', p.Proper) (hrest : EndsLine rest)
    (hrest' : EndsLine rest') (h : writeLine line ++ rest = writeLine line' ++ rest') :
    line = line' ∧ rest = rest' :=
  intercalate_append_inj write EndsPhrase [' '] hne hne'
    (fun p hp q hq _ _ hmore hmore' h => hread p hp (hproper q hq) hmore hmore' h)
    (fun more => .phrase more) (fun q _ _ hmore => endsLine_ne hrest q hmore)
    (fun p _ _ hmore => endsLine_ne hrest' p hmore) (.line hrest) (.line hrest') h

/-- **A phrase is read back.** -/
theorem readBack {p : Phrase} (hp : p.Proper) : p.ReadBack := by
  induction p using Phrase.induction with
  | word w times =>
    intro q hq rest rest' hrest hrest' h
    obtain ⟨hw⟩ := hp
    cases hq with
    | @word w' times' hw' =>
      rw [write, write, List.append_assoc, List.append_assoc] at h
      obtain ⟨rfl, htimes⟩ := Word.write_append hw hw' (hrest.endsWord times)
        (hrest'.endsWord times') h
      obtain ⟨rfl, hrest⟩ := hrest.times_append hrest' htimes
      exact ⟨rfl, hrest⟩
    | group =>
      rw [write, write, List.append_assoc] at h
      exact absurd h (w.write_append_ne (hrest.endsWord times) _)
  | group options times ih =>
    intro q hq rest rest' hrest hrest' h
    obtain _ | ⟨hne, hlines, hproper⟩ := hp
    cases hq with
    | @word w times' _ =>
      rw [write, write, List.append_assoc] at h
      exact absurd h.symm (w.write_append_ne (hrest'.endsWord times') _)
    | @group options' times' hne' hlines' hproper' =>
      simp only [write, writeOptions_eq_map, List.cons_append, List.append_assoc, List.cons.injEq,
        true_and] at h
      -- The closing parenthesis is where the last option ends, and no separator.
      obtain ⟨rfl, hmore⟩ := intercalate_append_inj writeLine EndsLine [' ', '|', ' '] hne hne'
        (fun line hline line' hline' _ _ hmore hmore' h =>
          line_append_of_readBack (hlines line hline) (hlines' line' hline')
            (fun p hp => ih line hline p hp (hproper line hline p hp)) (hproper' line' hline')
            hmore hmore' h)
        (fun more => .option more) (fun _ _ _ _ => by simp) (fun _ _ _ _ => by simp) (.group _)
        (.group _) h
      obtain ⟨rfl, hrest⟩ := hrest.times_append hrest' (List.cons.inj hmore).2
      exact ⟨rfl, hrest⟩

/-- **A line is read back** from its text before the end of a line. -/
theorem line_append {line line' : List Phrase} (hne : line ≠ []) (hne' : line' ≠ [])
    (hproper : ∀ p ∈ line, p.Proper) (hproper' : ∀ p ∈ line', p.Proper) (hrest : EndsLine rest)
    (hrest' : EndsLine rest') (h : writeLine line ++ rest = writeLine line' ++ rest') :
    line = line' ∧ rest = rest' :=
  line_append_of_readBack hne hne' (fun p hp => readBack (hproper p hp)) hproper' hrest hrest' h

end Phrase

end GrammarFuzzing
