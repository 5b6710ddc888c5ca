import GrammarFuzzing.Grammar.Slice
import GrammarFuzzing.Proofs.Grammar.Phrase
import GrammarFuzzing.Proofs.Parse.Recognition

/-!
# What the text of a grammar determines

The text of a grammar is read back as the lines of its rules (`GrammarFuzzing.Node.line`,
`GrammarFuzzing.Grammar.lines_of_toSpec_eq`). A line says which children it stands for
(`GrammarFuzzing.Phrase.MatchesAll`), so the text determines the language as soon as a node stands
for what its line says (`GrammarFuzzing.Node.matches_iff`).

It does unless a repetition **loses its group**. Parentheses are written around the body of a
repetition if that is a sequence of several parts, but not if it is a sequence of one part, even if
that part is itself a sequence of several parts. The quantifier then stands behind the last of these
and belongs to it: the text is that of another grammar
(`GrammarFuzzing.Node.toSpec_lostGroup`). Where no repetition loses its group
(`GrammarFuzzing.Grammar.KeepsGroups`), grammars with one text have one language
(`GrammarFuzzing.Document.recognize_eq_of_toSpec_eq`).
-/

namespace GrammarFuzzing

/-! ### Lines -/

namespace Phrase

/-- A phrase with one more quantifier behind it. -/
def withQuantifier (q : Quantifier) : Phrase → Phrase
  | .word w times => .word w (times ++ [q])
  | .group options times => .group options (times ++ [q])

/-- A line with one more quantifier behind it, which belongs to the last phrase. -/
def quantifyLast (q : Quantifier) : List Phrase → List Phrase
  | [] => []
  | [p] => [p.withQuantifier q]
  | p :: p' :: line => p :: quantifyLast q (p' :: line)

/-- The line of an empty sequence is not empty: it has an empty word. -/
def orNothing : List Phrase → List Phrase
  | [] => [.word .nothing []]
  | p :: line => p :: line

variable {line line' : List Phrase} {q : Quantifier}

theorem quantifyLast_ne_nil (h : line ≠ []) : quantifyLast q line ≠ [] := by
  fun_cases quantifyLast q line <;> simp_all

theorem orNothing_ne_nil (line : List Phrase) : orNothing line ≠ [] := by
  cases line <;> simp [orNothing]

theorem orNothing_of_ne_nil (h : line ≠ []) : orNothing line = line := by
  obtain ⟨p, line, rfl⟩ := List.exists_cons_of_ne_nil h
  rfl

theorem quantifyLast_append (h : line' ≠ []) :
    quantifyLast q (line ++ line') = line ++ quantifyLast q line' := by
  induction line with
  | nil => rfl
  | cons p line ih =>
    obtain ⟨p', more, hmore⟩ :=
      List.exists_cons_of_ne_nil (List.append_ne_nil_of_right_ne_nil line h)
    rw [List.cons_append, List.cons_append, ← ih, hmore, quantifyLast]

theorem write_withQuantifier (p : Phrase) : (p.withQuantifier q).write = p.write ++ q.write := by
  cases p <;> simp [withQuantifier, write]

theorem writeLine_append (h : line ≠ []) (h' : line' ≠ []) :
    writeLine (line ++ line') = writeLine line ++ ' ' :: writeLine line' := by
  obtain ⟨p, line, rfl⟩ := List.exists_cons_of_ne_nil h
  obtain ⟨p', line', rfl⟩ := List.exists_cons_of_ne_nil h'
  simp [writeLine, intercalate_cons]

theorem writeLine_quantifyLast (h : line ≠ []) :
    writeLine (quantifyLast q line) = writeLine line ++ q.write := by
  obtain ⟨front, p, rfl⟩ := List.eq_nil_or_concat line |>.resolve_left h
  rw [List.concat_eq_append, quantifyLast_append (List.cons_ne_nil _ _), quantifyLast]
  rcases eq_or_ne front [] with rfl | hfront
  · simp [writeLine, write_withQuantifier]
  · rw [writeLine_append hfront (List.cons_ne_nil _ _),
      writeLine_append hfront (List.cons_ne_nil _ _)]
    simp [writeLine, write_withQuantifier]

theorem writeLine_orNothing (line : List Phrase) : writeLine (orNothing line) = writeLine line := by
  cases line with
  | nil => rfl
  | cons p line => rfl

theorem writeLine_flatten : ∀ {lines : List (List Phrase)}, (∀ line ∈ lines, line ≠ []) →
    writeLine lines.flatten = [' '].intercalate (lines.map writeLine)
  | [], _ => rfl
  | [line], _ => by
    rw [List.flatten_singleton, List.map_singleton, List.intercalate_singleton]
  | line :: line' :: lines, h => by
    rw [List.forall_mem_cons] at h
    have hne : (line' :: lines).flatten ≠ [] := by
      rw [List.flatten_cons]
      exact List.append_ne_nil_of_left_ne_nil (h.2 line' List.mem_cons_self) _
    rw [List.flatten_cons, writeLine_append h.1 hne, writeLine_flatten h.2]
    simp only [List.map_cons, List.intercalate_cons_cons, List.append_assoc, List.cons_append,
      List.nil_append]

end Phrase

namespace Node

/-- The parties that a reference names, in the order in which they are written. -/
def writtenParties (sender recipient : Option String) : List String :=
  match sender, recipient with
  | some s, some r => [s, r]
  | some s, none => [s]
  | none, _ => []

mutual

/-- **The line of a node**: its text, as phrases. -/
def line : Node → List Phrase
  | .terminal _ value => [.word (.literal value) []]
  | .charset _ chars => [.word (.charset chars) []]
  | .reference _ name sender recipient =>
    [.word (.reference (writtenParties sender recipient) name) []]
  | .sequence _ parts => Phrase.orNothing (lines parts).flatten
  | .choice _ options => [.group (lines options) []]
  | .repetition _ body min max form =>
    if body.needsGroup then [.group [body.line] [Quantifier.of min max form]]
    else Phrase.quantifyLast (Quantifier.of min max form) body.line

/-- The lines of several nodes. -/
def lines : List Node → List (List Phrase)
  | [] => []
  | n :: rest => n.line :: lines rest

end

theorem lines_eq_map (ns : List Node) : lines ns = ns.map line := by
  induction ns with
  | nil => rw [lines, List.map_nil]
  | cons n ns ih => rw [lines, ih, List.map_cons]

theorem line_ne_nil : ∀ n : Node, n.line ≠ []
  | .terminal .. | .charset .. | .reference .. | .choice .. => by simp [line]
  | .sequence _ parts => by
    rw [line]
    exact Phrase.orNothing_ne_nil _
  | .repetition _ body min max form => by
    rw [line]
    split
    · simp
    · exact Phrase.quantifyLast_ne_nil (line_ne_nil body)

theorem lines_ne_nil (ns : List Node) : ∀ l ∈ lines ns, l ≠ [] := by
  rw [lines_eq_map]
  rintro _ h
  obtain ⟨n, -, rfl⟩ := List.mem_map.mp h
  exact n.line_ne_nil

mutual

/-- **The text of a node is its line, written.** -/
theorem toList_toSpec : ∀ n : Node, n.toSpec.toList = Phrase.writeLine n.line
  | .terminal _ value => by simp [toSpec, line, Phrase.writeLine, Phrase.write, Word.write]
  | .charset _ chars => by
    simp [toSpec, line, Phrase.writeLine, Phrase.write, Word.write, String.toList_append]
  | .reference _ name sender recipient => by
    rcases sender with _ | s <;> rcases recipient with _ | r <;>
      simp [toSpec, line, Phrase.writeLine, Phrase.write, Word.write, referenceSpec,
        writtenParties, angled, String.toList_append]
  | .sequence _ parts => by
    rw [toSpec, String.toList_intercalate, toList_listToSpec parts, line,
      Phrase.writeLine_orNothing, Phrase.writeLine_flatten (lines_ne_nil parts)]
    rfl
  | .choice _ options => by
    rw [toSpec, String.toList_append, String.toList_append, String.toList_intercalate,
      toList_listToSpec options, line]
    simp [Phrase.writeLine, Phrase.write, Phrase.writeOptions_eq_map]
  | .repetition _ body min max form => by
    rw [toSpec, line, String.toList_append, ← Quantifier.write_of]
    split
    · simp [Phrase.writeLine, Phrase.write, Phrase.writeOptions_eq_map, String.toList_append,
        toList_toSpec body]
    · rw [Phrase.writeLine_quantifyLast body.line_ne_nil, toList_toSpec body]

theorem toList_listToSpec : ∀ ns : List Node,
    (listToSpec ns).map String.toList = (lines ns).map Phrase.writeLine
  | [] => rfl
  | n :: ns => by
    rw [listToSpec, lines, List.map_cons, List.map_cons, toList_toSpec n, toList_listToSpec ns]

end

end Node

/-! ### Groups that are lost -/

namespace Node

/-- Whether a node is written as several phrases with nothing around them: it is a sequence of
several parts, or a sequence whose only part is written so. -/
def spreads : Node → Bool
  | .sequence _ [n] => n.spreads
  | n => n.needsGroup

/-- **Whether a repetition loses its group**: its body is written as several phrases, but without
parentheses. -/
def losesGroup : Node → Bool
  | .repetition _ body _ _ _ => body.spreads && !body.needsGroup
  | _ => false

/-- **A repetition that loses its group** is written like a sequence in which the last part alone is
repeated. -/
theorem toSpec_lostGroup (id id' id'' : Nat) (parts : List Node) (last : Node) (min : Nat)
    (max : Option Nat) (form : RepetitionForm) (hlast : last.needsGroup = false) :
    (repetition id (.sequence id' [.sequence id'' (parts ++ [last])]) min max form).toSpec =
      (sequence id (parts ++ [.repetition id' last min max form])).toSpec := by
  have hline : ∀ n : Node, ((lines parts).flatten ++ n.line) ≠ [] := fun n =>
    List.append_ne_nil_of_right_ne_nil _ n.line_ne_nil
  have hsequence : ∀ id n, (sequence id (parts ++ [n])).line =
      (lines parts).flatten ++ n.line := by
    intro id n
    rw [line, ← Phrase.orNothing_of_ne_nil (hline n)]
    simp [lines_eq_map]
  rw [← String.toList_inj, toList_toSpec, toList_toSpec, hsequence, line, line]
  simp only [lines, List.flatten_singleton, hsequence, Phrase.orNothing_of_ne_nil (hline last)]
  rw [if_neg (by simp [needsGroup]), Phrase.quantifyLast_append last.line_ne_nil, line, if_neg]
  rw [hlast]
  exact Bool.false_ne_true

/-- A node that is not spread is one phrase, if no repetition in it loses its group. -/
theorem exists_line_eq_singleton : ∀ {n : Node}, (∀ m ∈ n.subnodes, m.losesGroup = false) →
    n.spreads = false → ∃ p, n.line = [p]
  | .terminal .., _, _ | .charset .., _, _ | .reference .., _, _ | .choice .., _, _ => by
    simp [line]
  | .sequence _ [], _, _ => ⟨_, rfl⟩
  | .sequence _ [n], hgroups, hspreads => by
    rw [spreads] at hspreads
    obtain ⟨p, hp⟩ := exists_line_eq_singleton
      (fun m hm => hgroups m (mem_subnodes_sequence List.mem_cons_self hm)) hspreads
    exact ⟨p, by simp [line, lines, hp, Phrase.orNothing]⟩
  | .sequence _ (_ :: _ :: _), _, hspreads => by simp [spreads, needsGroup] at hspreads
  | .repetition id body min max form, hgroups, _ => by
    have hgroup := hgroups _ (mem_subnodes_self _)
    rw [losesGroup] at hgroup
    rw [line]
    cases hbody : body.needsGroup with
    | true => exact ⟨_, if_pos rfl⟩
    | false =>
      rw [hbody, Bool.not_false, Bool.and_true] at hgroup
      obtain ⟨p, hp⟩ := exists_line_eq_singleton
        (fun m hm => hgroups m (mem_subnodes_repetition hm)) hgroup
      exact ⟨_, by rw [if_neg Bool.false_ne_true, hp, Phrase.quantifyLast]⟩

end Node

/-! ### What lines stand for -/

namespace Quantifier

/-- Whether a quantifier allows so many copies. -/
def Allows : Quantifier → Nat → Prop
  | .star, _ => True
  | .plus, k => 1 ≤ k
  | .optional, k => k ≤ 1
  | .bounded min max, k => min ≤ k ∧ ∀ m, max = some m → k ≤ m

theorem allows_of {id : Nat} {body : Node} {min : Nat} {max : Option Nat} {form : RepetitionForm}
    (h : (Node.repetition id body min max form).FitsForm) (k : Nat) :
    (of min max form).Allows k ↔ min ≤ k ∧ ∀ m, max = some m → k ≤ m := by
  cases form with
  | bounded => rfl
  | star | plus | optional =>
    obtain ⟨rfl, rfl⟩ := h
    simp [of, Allows]

/-- As many lists with a property, one after the other, as the quantifiers allow. The first
quantifier is the innermost. -/
def Repeats (P : List Tree → Prop) : List Quantifier → List Tree → Prop
  | [], cs => P cs
  | q :: times, cs => Repeats (fun ds => ∃ k, q.Allows k ∧ Node.Copies P k ds) times cs

theorem repeats_concat (P : List Tree → Prop) (times : List Quantifier) (q : Quantifier) :
    Repeats P (times ++ [q]) = fun cs => ∃ k, q.Allows k ∧ Node.Copies (Repeats P times) k cs := by
  induction times generalizing P with
  | nil => rfl
  | cons q' times ih =>
    funext cs
    rw [List.cons_append, Repeats, ih]
    rfl

end Quantifier

/-- **The lists of children that a word stands for.** -/
def Word.Matches : Word → List Tree → Prop
  | .nothing, cs => cs = []
  | .literal value, cs => ∃ c, cs = [c] ∧ Node.isLiteral value c = true
  | .charset chars, cs => ∃ c, cs = [c] ∧ Node.isOneOf chars c = true
  | .reference _ name, cs => ∃ c, cs = [c] ∧ Node.isNamed name c = true

namespace Phrase

mutual

/-- **The lists of children that a phrase stands for.** -/
def Matches : Phrase → List Tree → Prop
  | .word w times, cs => Quantifier.Repeats w.Matches times cs
  | .group options times, cs => Quantifier.Repeats (fun ds => MatchesSome options ds) times cs

/-- The lists of children that one of several lines stands for. -/
def MatchesSome : List (List Phrase) → List Tree → Prop
  | [], _ => False
  | line :: options, cs => MatchesAll line cs ∨ MatchesSome options cs

/-- **The lists of children that a line stands for**: its phrases one after the other. -/
def MatchesAll : List Phrase → List Tree → Prop
  | [], cs => cs = []
  | p :: line, cs => ∃ ds es, cs = ds ++ es ∧ p.Matches ds ∧ MatchesAll line es

end

variable {line line' : List Phrase} {cs : List Tree}

theorem matchesAll_singleton {p : Phrase} : MatchesAll [p] cs ↔ p.Matches cs := by
  simp [MatchesAll]

theorem matchesAll_append : MatchesAll (line ++ line') cs ↔
    ∃ ds es, cs = ds ++ es ∧ MatchesAll line ds ∧ MatchesAll line' es := by
  induction line generalizing cs with
  | nil => simp [MatchesAll]
  | cons p line ih =>
    simp only [List.cons_append, MatchesAll, ih]
    constructor
    · rintro ⟨ds, -, rfl, hp, es, fs, rfl, hline, hline'⟩
      exact ⟨ds ++ es, fs, (List.append_assoc _ _ _).symm, ⟨ds, es, rfl, hp, hline⟩, hline'⟩
    · rintro ⟨-, fs, rfl, ⟨ds, es, rfl, hp, hline⟩, hline'⟩
      exact ⟨ds, es ++ fs, List.append_assoc _ _ _, hp, es, fs, rfl, hline, hline'⟩

theorem matchesAll_orNothing : MatchesAll (orNothing line) cs ↔ MatchesAll line cs := by
  cases line with
  | nil =>
    rw [orNothing, matchesAll_singleton, Matches, MatchesAll, Quantifier.Repeats, Word.Matches]
  | cons p line => rfl

theorem matches_withQuantifier (p : Phrase) (q : Quantifier) :
    (p.withQuantifier q).Matches cs ↔ ∃ k, q.Allows k ∧ Node.Copies p.Matches k cs := by
  cases p <;> simp only [withQuantifier, Matches, Quantifier.repeats_concat]

end Phrase

namespace Node

theorem copies_congr {P Q : List Tree → Prop} (h : ∀ ds, P ds ↔ Q ds) {k : Nat} {cs : List Tree} :
    Copies P k cs ↔ Copies Q k cs :=
  ⟨fun hcs => hcs.mono fun ds => (h ds).mp, fun hcs => hcs.mono fun ds => (h ds).mpr⟩

mutual

/-- **A node stands for what its line says**, if no repetition in it loses its group. -/
theorem matches_iff : ∀ {n : Node}, (∀ m ∈ n.subnodes, m.FitsForm ∧ m.losesGroup = false) →
    ∀ {cs : List Tree}, n.Matches cs ↔ Phrase.MatchesAll n.line cs
  | .terminal .., _, _ | .charset .., _, _ | .reference .., _, _ => by
    rw [line, Phrase.matchesAll_singleton, Phrase.Matches, Matches]
    rfl
  | .sequence _ parts, h, _ => by
    rw [line, Phrase.matchesAll_orNothing, Matches]
    exact matchesAll_iff fun m hm => h m (List.mem_cons_of_mem _ hm)
  | .choice _ options, h, _ => by
    rw [line, Phrase.matchesAll_singleton, Phrase.Matches, Quantifier.Repeats, Matches]
    exact matchesSome_iff fun m hm => h m (List.mem_cons_of_mem _ hm)
  | .repetition id body min max form, h, cs => by
    have hbody : ∀ ds, body.Matches ds ↔ Phrase.MatchesAll body.line ds := fun ds =>
      matches_iff fun m hm => h m (mem_subnodes_repetition hm)
    have hself := h _ (mem_subnodes_self _)
    -- The body is one phrase: by its parentheses, or because it is written as one without them.
    have hphrase : ∃ p : Phrase, (repetition id body min max form).line =
        [p.withQuantifier (.of min max form)] ∧ ∀ ds, p.Matches ds ↔ body.Matches ds := by
      cases hneeds : body.needsGroup with
      | true =>
        refine ⟨.group [body.line] [], by rw [line, if_pos hneeds]; rfl, fun ds => ?_⟩
        rw [hbody, Phrase.Matches, Quantifier.Repeats, Phrase.MatchesSome, Phrase.MatchesSome,
          or_false]
      | false =>
        have hgroup := hself.2
        rw [losesGroup, hneeds, Bool.not_false, Bool.and_true] at hgroup
        obtain ⟨p, hp⟩ := exists_line_eq_singleton
          (fun m hm => (h m (mem_subnodes_repetition hm)).2) hgroup
        refine ⟨p, by rw [line, hneeds, if_neg Bool.false_ne_true, hp, Phrase.quantifyLast],
          fun ds => ?_⟩
        rw [hbody, hp, Phrase.matchesAll_singleton]
    obtain ⟨p, hp, hmatches⟩ := hphrase
    rw [hp, Phrase.matchesAll_singleton, Phrase.matches_withQuantifier, Matches]
    refine exists_congr fun k => ?_
    rw [Quantifier.allows_of hself.1, and_assoc, copies_congr hmatches]

theorem matchesAll_iff : ∀ {ns : List Node},
    (∀ m ∈ listSubnodes ns, m.FitsForm ∧ m.losesGroup = false) →
      ∀ {cs : List Tree}, MatchesAll ns cs ↔ Phrase.MatchesAll (lines ns).flatten cs
  | [], _, _ => by rw [MatchesAll, lines, List.flatten_nil, Phrase.MatchesAll]
  | n :: ns, h, cs => by
    rw [listSubnodes, List.forall_mem_append] at h
    rw [MatchesAll, lines, List.flatten_cons, Phrase.matchesAll_append]
    refine exists_congr fun ds => exists_congr fun es => and_congr_right fun _ => ?_
    exact and_congr (matches_iff h.1) (matchesAll_iff h.2)

theorem matchesSome_iff : ∀ {ns : List Node},
    (∀ m ∈ listSubnodes ns, m.FitsForm ∧ m.losesGroup = false) →
      ∀ {cs : List Tree}, MatchesSome ns cs ↔ Phrase.MatchesSome (lines ns) cs
  | [], _, _ => by rw [MatchesSome, lines, Phrase.MatchesSome]
  | n :: ns, h, cs => by
    rw [listSubnodes, List.forall_mem_append] at h
    rw [MatchesSome, lines, Phrase.MatchesSome]
    exact or_congr (matches_iff h.1) (matchesSome_iff h.2)

end

end Node

/-! ### Lines that can be read -/

namespace Phrase

theorem Proper.withQuantifier {p : Phrase} (h : p.Proper) (q : Quantifier) :
    (p.withQuantifier q).Proper := by
  cases h with
  | word hw => exact .word hw
  | group hne hlines hproper => exact .group hne hlines hproper

theorem proper_quantifyLast (q : Quantifier) : ∀ {line : List Phrase}, (∀ p ∈ line, p.Proper) →
    ∀ p ∈ quantifyLast q line, p.Proper
  | [], _ => by simp [quantifyLast]
  | [p], h => by simpa [quantifyLast] using (h p List.mem_cons_self).withQuantifier q
  | p :: p' :: line, h => by
    rw [List.forall_mem_cons] at h
    exact List.forall_mem_cons.mpr ⟨h.1, proper_quantifyLast q h.2⟩

theorem proper_orNothing {line : List Phrase} (h : ∀ p ∈ line, p.Proper) :
    ∀ p ∈ orNothing line, p.Proper := by
  cases line with
  | nil => simpa [orNothing] using Proper.word (w := .nothing) trivial
  | cons p line => exact h

end Phrase

namespace Node

/-- A node that can be read from its text: names are legible, and choices have options. -/
def Writable : Node → Prop
  | .reference _ name sender recipient =>
    Legible name ∧ ∀ p ∈ writtenParties sender recipient, Legible p
  | .choice _ options => options ≠ []
  | _ => True

mutual

/-- **Such nodes have proper lines.** -/
theorem proper_line : ∀ {n : Node}, (∀ m ∈ n.subnodes, m.Writable) → ∀ p ∈ n.line, p.Proper
  | .terminal .., _ | .charset .., _ => by
    simp only [line, List.mem_singleton, forall_eq]
    exact .word trivial
  | .reference .., h => by
    simp only [line, List.mem_singleton, forall_eq]
    exact .word (h _ (mem_subnodes_self _))
  | .sequence _ parts, h => by
    rw [line]
    refine Phrase.proper_orNothing fun p hp => ?_
    obtain ⟨l, hl, hp⟩ := List.mem_flatten.mp hp
    exact proper_lines (fun m hm => h m (List.mem_cons_of_mem _ hm)) l hl p hp
  | .choice id options, h => by
    have hne : options ≠ [] := h _ (mem_subnodes_self _)
    simp only [line, List.mem_singleton, forall_eq]
    refine .group (by rw [lines_eq_map]; simpa using hne) (lines_ne_nil options) ?_
    exact proper_lines fun m hm => h m (List.mem_cons_of_mem _ hm)
  | .repetition id body min max form, h => by
    have hbody := proper_line fun m hm => h m (mem_subnodes_repetition hm)
    rw [line]
    split
    · simp only [List.mem_singleton, forall_eq]
      exact .group (by simp) (by simpa using body.line_ne_nil) (by simpa using hbody)
    · exact Phrase.proper_quantifyLast _ hbody

theorem proper_lines : ∀ {ns : List Node}, (∀ m ∈ listSubnodes ns, m.Writable) →
    ∀ l ∈ lines ns, ∀ p ∈ l, p.Proper
  | [], _ => by simp [lines]
  | n :: ns, h => by
    rw [listSubnodes, List.forall_mem_append] at h
    rw [lines]
    exact List.forall_mem_cons.mpr ⟨proper_line h.1, proper_lines h.2⟩

end

end Node

/-! ### Grammars -/

theorem bareName_of_legible {name : String} (h : Legible name) : bareName name = name := by
  rw [bareName]
  split
  · rename_i hname
    exact absurd rfl (h '<' (by rw [hname]; exact List.mem_cons_self)).1
  · rfl

namespace Grammar

/-- **No repetition in a rule loses its group.** -/
def KeepsGroups (g : Grammar) : Prop :=
  ∀ p ∈ g.rules, ∀ n ∈ p.2.subnodes, n.losesGroup = false

instance (g : Grammar) : Decidable g.KeepsGroups :=
  inferInstanceAs (Decidable (∀ p ∈ g.rules, ∀ n ∈ p.2.subnodes, n.losesGroup = false))

/-- **The names of rules and of parties are legible.** -/
structure LegibleNames (g : Grammar) : Prop where
  rules : ∀ name ∈ g.rules.keys, Legible name
  parties : ∀ party ∈ g.parties true, Legible party

variable {g g' : Grammar}

theorem LegibleNames.bareNames (h : g.LegibleNames) : g.BareNames := fun name hname =>
  bareName_of_legible (h.rules name hname)

/-- A party that a reference writes is a party of the grammar. -/
theorem WellFormed.mem_parties (hg : g.WellFormed) {id : Nat} {name party : String}
    {sender recipient : Option String} (hn : g.Occurs (.reference id name sender recipient))
    (hparty : party ∈ Node.writtenParties sender recipient) : party ∈ g.parties true := by
  rw [parties, SortedSet.mem_ofList, List.mem_flatMap]
  refine ⟨_, Array.mem_toList_iff.mpr (Array.mem_of_getElem? (hg.numbered hn)), ?_⟩
  cases sender with
  | none => exact absurd hparty List.not_mem_nil
  | some s => cases recipient <;> simpa [Node.writtenParties] using hparty

theorem WellFormed.writable (hg : g.WellFormed) (hlegible : g.LegibleNames) {n : Node}
    (hn : g.Occurs n) : n.Writable := by
  cases n with
  | reference id name sender recipient =>
    exact ⟨hlegible.rules name (Dictionary.has_iff_mem_keys.mp (hg.has_reference hn)),
      fun p hp => hlegible.parties p (hg.mem_parties hn hp)⟩
  | choice id options => exact hg.choice_ne_nil hn
  | terminal | charset | sequence | repetition => trivial

/-- The rules in the order in which they are written. -/
def writtenRules (g : Grammar) : Dictionary String Node :=
  (g.body? g.start).toList.map (fun body => (g.start, body)) ++
    g.rules.filter fun r => r.1 ≠ g.start

/-- The rules as they are written, each with its line. -/
def writtenLines (g : Grammar) : List (String × List Phrase) :=
  g.writtenRules.map fun r => (r.1, r.2.line)

/-- A rule as text: its name and its line. -/
def writeRule (rule : String × List Phrase) : List Char :=
  '<' :: (rule.1.toList ++ '>' :: (" ::= ".toList ++ Phrase.writeLine rule.2))

theorem toList_toSpec (g : Grammar) :
    g.toSpec.toList = ['\n'].intercalate (g.writtenLines.map writeRule) := by
  have hrule : ∀ name body, (ruleSpec name body).toList = writeRule (name, body.line) := by
    intro name body
    simp [ruleSpec, angled, writeRule, String.toList_append, Node.toList_toSpec]
  rw [toSpec, String.toList_intercalate, writtenLines, writtenRules]
  simp only [List.map_append, List.map_map, Function.comp_def, hrule]
  rfl

theorem mem_writtenRules {r : String × Node} (h : r ∈ g.writtenRules) : r ∈ g.rules := by
  rw [writtenRules, List.mem_append] at h
  rcases h with h | h
  · obtain ⟨body, hbody, rfl⟩ := List.mem_map.mp h
    exact Dictionary.mem_of_find? (Option.mem_toList.mp hbody)
  · exact (List.mem_filter.mp h).1

/-- Writing the start rule first does not change which rule a name has. -/
theorem find?_writtenRules (g : Grammar) (name : String) :
    g.writtenRules.find? name = g.body? name := by
  by_cases hname : name = g.start
  · subst hname
    rw [writtenRules]
    cases hbody : g.body? g.start with
    | some body => exact Dictionary.find?_cons_self _ _ _
    | none =>
      refine Option.eq_none_iff_forall_ne_some.mpr fun body hfound => ?_
      have hmem := (List.mem_filter.mp (Dictionary.mem_of_find? hfound)).2
      exact absurd rfl (of_decide_eq_true hmem)
  · have hothers := Dictionary.find?_filter_ne hname g.rules
    rw [writtenRules]
    cases g.body? g.start with
    | some body => exact (Dictionary.find?_cons_of_ne (Ne.symm hname) _ _).trans hothers
    | none => exact hothers

theorem writtenLines_ne_nil (hstart : g.rules.has g.start = true) : g.writtenLines ≠ [] := by
  obtain ⟨body, hbody⟩ := Option.isSome_iff_exists.mp hstart
  have hbody' : g.body? g.start = some body := hbody
  simp [writtenLines, writtenRules, hbody']

/-- **A rule is read back** before the end of its line. -/
theorem writeRule_append {rest rest' : List Char} {r r' : String × List Phrase}
    (hname : Legible r.1) (hname' : Legible r'.1) (hne : r.2 ≠ []) (hne' : r'.2 ≠ [])
    (hproper : ∀ p ∈ r.2, p.Proper) (hproper' : ∀ p ∈ r'.2, p.Proper) (hrest : EndsLine rest)
    (hrest' : EndsLine rest') (h : writeRule r ++ rest = writeRule r' ++ rest') :
    r = r' ∧ rest = rest' := by
  simp only [writeRule, List.cons_append, List.append_assoc, List.cons.injEq, true_and] at h
  obtain ⟨hnames, hlines⟩ := append_inj_of_kind (fun c => c ≠ '>')
    (fun c hc => by simpa using (hname c hc).2.1) (fun c hc => by simpa using (hname' c hc).2.1)
    (by simp) (by simp) h
  obtain ⟨hline, hrest⟩ := Phrase.line_append hne hne' hproper hproper' hrest hrest'
    (List.append_cancel_left (List.cons.inj hlines).2)
  exact ⟨Prod.ext (String.toList_inj.mp hnames) hline, hrest⟩

/-- What is read back of a rule: its name is legible, its line is a proper one. -/
theorem WellFormed.proper_writtenLines (hg : g.WellFormed) (hlegible : g.LegibleNames)
    {r : String × List Phrase} (hr : r ∈ g.writtenLines) :
    Legible r.1 ∧ r.2 ≠ [] ∧ ∀ p ∈ r.2, p.Proper := by
  obtain ⟨rule, hrule, rfl⟩ := List.mem_map.mp hr
  have hmem := mem_writtenRules hrule
  refine ⟨hlegible.rules _ (List.mem_map.mpr ⟨rule, hmem, rfl⟩), rule.2.line_ne_nil, ?_⟩
  exact Node.proper_line fun m hm => hg.writable hlegible ⟨rule, hmem, hm⟩

/-- **The text of a grammar determines its rules**, up to what their lines leave out. -/
theorem WellFormed.writtenLines_eq (hg : g.WellFormed) (hg' : g'.WellFormed)
    (hstart : g.rules.has g.start = true) (hstart' : g'.rules.has g'.start = true)
    (hlegible : g.LegibleNames) (hlegible' : g'.LegibleNames) (h : g.toSpec = g'.toSpec) :
    g.writtenLines = g'.writtenLines := by
  have htext := congrArg String.toList h
  rw [toList_toSpec, toList_toSpec] at htext
  -- Neither text goes on with one more rule.
  have hread : g.writtenLines = g'.writtenLines ∧ ([] : List Char) = [] :=
    intercalate_append_inj writeRule EndsLine ['\n'] (writtenLines_ne_nil hstart)
      (writtenLines_ne_nil hstart')
      (fun r hr r' hr' more more' hmore hmore' heq => by
        obtain ⟨hname, hne, hproper⟩ := hg.proper_writtenLines hlegible hr
        obtain ⟨hname', hne', hproper'⟩ := hg'.proper_writtenLines hlegible' hr'
        exact writeRule_append hname hname' hne hne' hproper hproper' hmore hmore' heq)
      (fun more => .rule more) (fun _ _ _ _ => by simp) (fun _ _ _ _ => by simp) .text .text
      (by rw [htext])
  exact hread.1

/-- So rules of one name have one line. -/
theorem map_line_body? (h : g.writtenLines = g'.writtenLines) (name : String) :
    (g.body? name).map Node.line = (g'.body? name).map Node.line := by
  rw [← find?_writtenRules, ← find?_writtenRules g', ← Dictionary.find?_map, ← Dictionary.find?_map]
  exact congrArg (Dictionary.find? · name) h

theorem mem_keys_of_writtenLines_eq (h : g.writtenLines = g'.writtenLines) {name : String}
    (hname : name ∈ g.rules.keys) : name ∈ g'.rules.keys := by
  obtain ⟨body, hbody⟩ := Dictionary.exists_find?_of_mem_keys hname
  have hline := map_line_body? h name
  rw [body?, hbody, Option.map_some] at hline
  obtain ⟨body', hbody', -⟩ := Option.map_eq_some_iff.mp hline.symm
  exact Dictionary.mem_keys_of_find? hbody'

/-- **A tree of one grammar is a tree of another one with the same lines**, if neither loses a
group. -/
theorem Valid.of_writtenLines_eq (hg : g.WellFormed) (hg' : g'.WellFormed) (hgroups : g.KeepsGroups)
    (hgroups' : g'.KeepsGroups) (h : g.writtenLines = g'.writtenLines) {t : Tree}
    (ht : g.Valid t) : g'.Valid t := by
  have hmatches : ∀ {g : Grammar}, g.WellFormed → g.KeepsGroups → ∀ {name body},
      g.body? name = some body → ∀ cs, body.Matches cs ↔ Phrase.MatchesAll body.line cs := by
    intro g hg hgroups name body hbody cs
    refine Node.matches_iff fun m hm => ⟨hg.fitsForm ?_, ?_⟩
    · exact (occurs_of_body? hbody).of_mem_subnodes hm
    · exact hgroups _ (Dictionary.mem_of_find? hbody) m hm
  refine ht.of_rules fun name body hbody => ?_
  have hline := map_line_body? h name
  rw [hbody, Option.map_some] at hline
  obtain ⟨body', hbody', hline'⟩ := Option.map_eq_some_iff.mp hline.symm
  refine ⟨body', hbody', fun cs hcs => ?_⟩
  rw [hmatches hg' hgroups' hbody', hline']
  exact (hmatches hg hgroups hbody cs).mp hcs

theorem recognize_of_writtenLines_eq (hg : g.WellFormed) (hg' : g'.WellFormed)
    (hlegible : g.LegibleNames) (hlegible' : g'.LegibleNames) (hgroups : g.KeepsGroups)
    (hgroups' : g'.KeepsGroups) (h : g.writtenLines = g'.writtenLines) {s : String}
    (hs : s ∈ g.rules.keys) {w : Bytes} (hw : g.recognize w s .complete = true) :
    g'.recognize w s .complete = true := by
  obtain ⟨t, hsymbol, ht, hbytes⟩ := (hg.recognize_iff_valid hlegible.bareNames hs w).mp hw
  refine (hg'.recognize_iff_valid hlegible'.bareNames (mem_keys_of_writtenLines_eq h hs) w).mpr ?_
  exact ⟨t, hsymbol, ht.of_writtenLines_eq hg hg' hgroups hgroups' h, hbytes⟩

end Grammar

/-- **The text of a grammar determines its language**, where names are legible and no repetition
loses its group: two documents whose grammars are written as the same text make the same bytes of
every rule. -/
theorem Document.recognize_eq_of_toSpec_eq {doc doc' : Document} {g g' : Grammar}
    (h : doc.toGrammar = .ok g) (h' : doc'.toGrammar = .ok g') (hlegible : g.LegibleNames)
    (hlegible' : g'.LegibleNames) (hgroups : g.KeepsGroups) (hgroups' : g'.KeepsGroups)
    (hspec : g.toSpec = g'.toSpec) {s : String} (hs : s ∈ g.rules.keys ∨ s ∈ g'.rules.keys)
    (w : Bytes) : g.recognize w s .complete = g'.recognize w s .complete := by
  have hg := wellFormed_of_toGrammar h
  have hg' := wellFormed_of_toGrammar h'
  have hlines : g.writtenLines = g'.writtenLines :=
    hg.writtenLines_eq hg' (Draft.builds_of_build h).has_start (Draft.builds_of_build h').has_start
      hlegible hlegible' hspec
  have hboth : s ∈ g.rules.keys ∧ s ∈ g'.rules.keys := by
    rcases hs with hs | hs
    · exact ⟨hs, Grammar.mem_keys_of_writtenLines_eq hlines hs⟩
    · exact ⟨Grammar.mem_keys_of_writtenLines_eq hlines.symm hs, hs⟩
  rw [Bool.eq_iff_iff]
  constructor
  · exact Grammar.recognize_of_writtenLines_eq hg hg' hlegible hlegible' hgroups hgroups' hlines
      hboth.1
  · exact Grammar.recognize_of_writtenLines_eq hg' hg hlegible' hlegible hgroups' hgroups
      hlines.symm hboth.2

/-- Any number of pairs, as a repeated sequence. -/
def Document.repeatedPairs : Document :=
  ⟨"pairs", [("pairs", .star (.seq [.text "a", .text "b"]))], []⟩

/-- Any number of pairs, as a repeated choice with one option. -/
def Document.chosenPairs : Document :=
  ⟨"pairs", [("pairs", .star (.alt [.seq [.text "a", .text "b"]]))], []⟩

/-- Both have the parentheses, and so the same pairs. -/
theorem Document.recognize_pairs : ∃ g g', repeatedPairs.toGrammar = .ok g ∧
    chosenPairs.toGrammar = .ok g' ∧ g.toSpec = "<pairs> ::= (\"a\" \"b\")*" ∧
      g.recognize (Utf8.encode "abab") "pairs" .complete =
        g'.recognize (Utf8.encode "abab") "pairs" .complete := by
  have h : repeatedPairs.toGrammar = .ok _ := rfl
  have h' : chosenPairs.toGrammar = .ok _ := rfl
  refine ⟨_, _, h, h', rfl, recognize_eq_of_toSpec_eq h h' ⟨by decide, by decide⟩
    ⟨by decide, by decide⟩ (by decide) (by decide) rfl (Or.inl (by decide)) _⟩

/-- Any number of pairs, but the pair is the only part of another sequence. -/
def Document.nestedPairs : Document :=
  ⟨"pairs", [("pairs", .star (.seq [.seq [.text "a", .text "b"]]))], []⟩

/-- One pair, with any number of seconds. -/
def Document.openPairs : Document :=
  ⟨"pairs", [("pairs", .seq [.text "a", .star (.text "b")])], []⟩

/-- **Where a group is lost the text does not determine the language**: of these two grammars with
one text only the first one has two pairs in a row. -/
theorem Document.toSpec_nestedPairs : ∃ g g', nestedPairs.toGrammar = .ok g ∧
    openPairs.toGrammar = .ok g' ∧ g.toSpec = g'.toSpec ∧
      g.recognize (Utf8.encode "abab") "pairs" .complete = true ∧
      g'.recognize (Utf8.encode "abab") "pairs" .complete = false := by
  have h : nestedPairs.toGrammar = .ok _ := rfl
  have h' : openPairs.toGrammar = .ok _ := rfl
  have hbare : ∀ name ∈ ["pairs"], bareName name = name := by decide
  have hs : "pairs" ∈ ["pairs"] := by decide
  have hg := wellFormed_of_toGrammar h
  refine ⟨_, _, h, h', rfl, (hg.recognize_iff_valid hbare hs _).mpr ⟨.branch "pairs"
    [.leaf (.text "a"), .leaf (.text "b"), .leaf (.text "a"), .leaf (.text "b")], rfl,
    hg.validate_eq_ok.mp rfl, rfl⟩, ?_⟩
  rw [Bool.eq_false_iff, ne_eq, (wellFormed_of_toGrammar h').recognize_iff_valid hbare hs]
  rintro ⟨t, hsymbol, ht, hbytes⟩
  obtain ⟨⟨body, hbody, hmatch⟩, hvalid⟩ := (Grammar.valid_nonTerminal hsymbol).mp ht
  cases hbody
  obtain ⟨_, _, hchildren, ⟨c, rfl, hc⟩, es, _, rfl, ⟨k, -, -, hcopies⟩, rfl⟩ := hmatch
  rw [List.append_nil, List.singleton_append] at hchildren
  have hes := hcopies.forall_mem (Q := fun e => e.symbol = .terminal (.text "b")) (by
    rintro ds ⟨e, rfl, he⟩ x hx
    rw [List.mem_singleton.mp hx]
    exact of_decide_eq_true he)
  -- The third byte is an `a`, but that of the third child, if there is one, is a `b`.
  have hleaf : ∀ {v : String} {e : Tree}, e.symbol = .terminal (.text v) → e ∈ t.children →
      e.toBytes = Utf8.encode v := by
    rintro v ⟨_, children, _, _, _, _⟩ rfl hmem
    obtain rfl : children = [] := hvalid _ hmem
    rw [Tree.toBytes, Tree.listToBytes_nil, List.append_nil]
    rfl
  rw [Tree.toBytes_nonTerminal hsymbol] at hbytes
  rw [hchildren] at hleaf hbytes
  rw [Tree.listToBytes_cons, hleaf (of_decide_eq_true hc) List.mem_cons_self] at hbytes
  rcases es with _ | ⟨d, _ | ⟨e, es⟩⟩
  · exact absurd hbytes (by decide)
  · rw [Tree.listToBytes_cons, hleaf (hes d (by simp)) (by simp)] at hbytes
    exact absurd hbytes (by decide)
  · rw [Tree.listToBytes_cons, Tree.listToBytes_cons, hleaf (hes d (by simp)) (by simp),
      hleaf (hes e (by simp)) (by simp)] at hbytes
    have hthird : some (98 : UInt8) = some 97 := congrArg (fun bs : Bytes => bs[2]?) hbytes
    exact absurd hthird (by decide)

end GrammarFuzzing
