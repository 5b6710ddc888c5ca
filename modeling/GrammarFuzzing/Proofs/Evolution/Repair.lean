import GrammarFuzzing.Proofs.Constraint.Blame
import GrammarFuzzing.Proofs.Evolution.Operators
import GrammarFuzzing.Proofs.Grammar.Reach
import GrammarFuzzing.Proofs.Parse.Parsing
import GrammarFuzzing.Proofs.Text.Numerals

/-!
# Repairing a comparison with a literal

A comparison of a symbol with a literal suggests the literal as the value of each occurrence that is
not equal to it, and repair puts a tree of the literal's text there. Whether the comparison holds
afterwards depends on three things.

* The occurrences must not get into each other's way. A symbol that is not reachable from itself
  occurs at places of which none is above another, and a tree of the symbol has no occurrence below
  its root. So a replacement takes no occurrence away, adds none and changes no other one. This is
  the invariant of the repair (`GrammarFuzzing.Grammar.Mending`).
* The literal has to survive the way through its text: it is written, parsed, rendered and read
  again by the operand, and what is read has to be equal to it. Texts, integers and floats are all
  read back, a float because its shortest decimal is rounded to it. But a literal is suggested to
  any operand, and a text is never equal to a number, what is no number equals nothing, and an
  integer is not read where the literal is written with a fraction
  (`GrammarFuzzing.Operand.accepts`).
* All combinations have to be checked. Those beyond `GrammarFuzzing.maxBindings` count as checks
  that do not hold, whatever the tree is.

Where the suggestions can be applied at all, the comparison is mended exactly if the last two are
the case (`GrammarFuzzing.Draft.repair_mends_iff`), and each of them can fail by itself
(`GrammarFuzzing.Document.repair_misses_numerals`).
-/

namespace GrammarFuzzing

/-! ### Literals that are read back -/

/-- Integers have 64 bits. -/
def Value.Fits : Value → Prop
  | .int n => int64Min ≤ n ∧ n ≤ int64Max
  | .float _ | .text _ => True

namespace Operand

/-- What an operand reads in the text of a node. -/
def read? : Operand → String → Option Value
  | .text _, w => some (.text w)
  | .int _, w => (readInt64? (trim w)).map .int
  | .float _, w => (readFloat? (trim w)).map .float
  | .literal _, _ | .length _, _ | .count .., _ => none

/-- **The operand reads the occurrences of a symbol**, as texts or as numbers. -/
inductive Reads (s : String) : Operand → Prop
  | text : Reads s (.text (.symbol s))
  | int : Reads s (.int (.symbol s))
  | float : Reads s (.float (.symbol s))

theorem Reads.eval?_eq {s : String} {x : Operand} (hx : x.Reads s) {t n : Tree} {p : Path}
    (hn : t.get? p = some n) : x.eval? t [(s, p)] = x.read? n.text := by
  have hnode : node? t [(s, p)] (.symbol s) = some n := by
    rw [node?, Dictionary.find?, Std.ReflOrd.compare_self, Option.bind_some, hn]
  cases hx with
  | text => rw [eval?, hnode, Option.map_some, read?]
  | int => rw [eval?, hnode, Option.bind_some, read?, Tree.toInt?]
  | float => rw [eval?, hnode, Option.bind_some, read?, Tree.toFloat?]

theorem eval?_literal (t : Tree) (b : Binding) (value : Value) :
    (literal value).eval? t b = some value := by
  rw [eval?]

/-- **A text passes a comparison** of an operand, on the left or the right, with a literal: what the
operand reads in the text is equal to the literal. -/
def Passes (x : Operand) (value : Value) (left right : Operand) (w : String) : Prop :=
  ∃ v, x.read? w = some v ∧
    (left = x ∧ v.compare? value = some .eq ∨ right = x ∧ value.compare? v = some .eq)

/-- **Whether an operand accepts a literal**: texts are compared with texts and numbers with
numbers, the literal is a number if it is to be one, and it is written as an integer if it is to be
read as one. -/
def accepts : Operand → Value → Bool
  | .text _, .text _ => true
  | .int _, .int _ | .float _, .int _ => true
  | .int _, .float a => (readInt64? (showFloat a)).isSome
  | .float _, .float a => !a.isNaN
  | _, _ => false

variable {s : String} {x : Operand} {value v : Value}

/-- **A literal that is accepted is read back** as an equal value. -/
theorem Reads.exists_read? (hx : x.Reads s) (hfits : value.Fits) (h : x.accepts value = true) :
    ∃ v, x.read? value.describe = some v ∧
      v.compare? value = some .eq ∧ value.compare? v = some .eq := by
  cases hx with
  | text =>
    cases value with
    | text w => exact ⟨.text w, rfl, congrArg some Std.ReflCmp.compare_self,
        congrArg some Std.ReflCmp.compare_self⟩
    | int n => nomatch h
    | float a => nomatch h
  | int =>
    cases value with
    | text w => nomatch h
    | int n =>
      refine ⟨.int n, ?_, congrArg some Std.ReflCmp.compare_self,
        congrArg some Std.ReflCmp.compare_self⟩
      rw [read?, Value.describe, trim_toString, readInt64?_toString hfits.1 hfits.2]
      rfl
    | float a =>
      obtain ⟨n, hn⟩ := Option.isSome_iff_exists.mp h
      have hnumber : a.isNaN = false := by
        rw [← Bool.not_eq_true]
        intro hnan
        rw [showFloat_of_isNaN hnan] at hn
        nomatch hn
      obtain ⟨b, hb, heq, heq'⟩ := exists_readFloat?_of_readInt64? hn
      obtain rfl := Option.some.inj ((readFloat?_showFloat hnumber).symm.trans hb)
      refine ⟨.int n, ?_, heq', heq⟩
      rw [read?, Value.describe, trim_showFloat, hn]
      rfl
  | float =>
    cases value with
    | text w => nomatch h
    | int n =>
      obtain ⟨b, hb, heq, heq'⟩ :=
        exists_readFloat?_of_readInt64? (readInt64?_toString hfits.1 hfits.2)
      refine ⟨.float b, ?_, heq, heq'⟩
      rw [read?, Value.describe, trim_toString, hb]
      rfl
    | float a =>
      have hnumber : a.isNaN = false := by simpa [accepts] using h
      have hself := compareFloats_self hnumber
      refine ⟨.float a, ?_, hself, hself⟩
      rw [read?, Value.describe, trim_showFloat, readFloat?_showFloat hnumber]
      rfl

/-- **Only a literal that is accepted is read back** as an equal value. -/
theorem Reads.accepts_of_read? (hx : x.Reads s) (h : x.read? value.describe = some v)
    (heq : v.compare? value = some .eq ∨ value.compare? v = some .eq) : x.accepts value = true := by
  cases hx with
  | text =>
    obtain rfl := Option.some.inj h
    cases value with
    | text w => rfl
    | int n => exact heq.elim nofun nofun
    | float a => exact heq.elim nofun nofun
  | int =>
    obtain ⟨n, hn, rfl⟩ := Option.map_eq_some_iff.mp h
    cases value with
    | text w => exact heq.elim nofun nofun
    | int n => rfl
    | float a =>
      rw [Value.describe, trim_showFloat] at hn
      exact Option.isSome_iff_exists.mpr ⟨n, hn⟩
  | float =>
    obtain ⟨b, hb, rfl⟩ := Option.map_eq_some_iff.mp h
    cases value with
    | text w => exact heq.elim nofun nofun
    | int n => rfl
    | float a =>
      rw [accepts, Bool.not_eq_true', ← Bool.not_eq_true]
      intro hnan
      have hleft : (Value.float b).compare? (.float a) = none := compareFloats_eq_none (Or.inr hnan)
      have hright : (Value.float a).compare? (.float b) = none :=
        compareFloats_eq_none (Or.inl hnan)
      rw [hleft, hright] at heq
      exact heq.elim nofun nofun

end Operand

/-! ### Comparisons of a symbol with a literal -/

/-- A choice for one symbol is an occurrence of it. -/
theorem chooses_singleton_iff {s : String} {t : Tree} {b : Binding} : Chooses t [s] b ↔
    ∃ p n, b = [(s, p)] ∧ t.get? p = some n ∧ n.symbol = .named s := by
  constructor
  · rintro ⟨hkeys, hoccurs⟩
    obtain ⟨⟨name, p⟩, rfl, rfl⟩ := List.map_eq_singleton_iff.mp hkeys
    obtain ⟨n, hn, hsymbol⟩ := hoccurs name p List.mem_cons_self
    exact ⟨p, n, rfl, hn, hsymbol⟩
  · rintro ⟨p, n, rfl, hn, hsymbol⟩
    refine ⟨rfl, fun name q hmem => ?_⟩
    obtain ⟨rfl, rfl⟩ := Prod.mk.inj (List.mem_singleton.mp hmem)
    exact ⟨n, hn, hsymbol⟩

/-- **A comparison of a symbol with a literal**, with the literal on either side. -/
structure Equation (s : String) (x : Operand) (value : Value) (left right : Operand) : Prop where
  reads : x.Reads s
  sides : left = x ∧ right = .literal value ∨ left = .literal value ∧ right = x

namespace Equation

open Constraint

variable {s : String} {x : Operand} {value : Value} {left right : Operand}
  (h : Equation s x value left right)
include h

theorem boundNames_eq : boundNames left right = [s] := by
  rcases h.sides with ⟨rfl, rfl⟩ | ⟨rfl, rfl⟩ <;> cases h.reads <;> rfl

theorem suggestions_eq : suggestions left .eq right s = [⟨.eq, value⟩] := by
  rcases h.sides with ⟨rfl, rfl⟩ | ⟨rfl, rfl⟩ <;> cases h.reads <;> simp [suggestions, mend?]

/-- The comparison of one occurrence depends on its text. -/
theorem compares_iff {t n : Tree} {p : Path} (hn : t.get? p = some n) :
    Compares t left .eq right [(s, p)] ↔ x.Passes value left right n.text := by
  have heval := h.reads.eval?_eq hn
  have hne : x ≠ .literal value := by
    cases h.reads <;> simp
  have hholds : ∀ o, Comparison.eq.holds o = true ↔ o = .eq := by decide
  rcases h.sides with ⟨rfl, rfl⟩ | ⟨rfl, rfl⟩ <;>
    simp [Compares, Operand.Passes, heval, Operand.eval?_literal, hholds, hne.symm]

/-- **The text of a literal passes** if the operand accepts the literal. -/
theorem passes_describe_iff (hfits : value.Fits) :
    x.Passes value left right value.describe ↔ x.accepts value = true := by
  constructor
  · rintro ⟨v, hv, hequal⟩
    exact h.reads.accepts_of_read? hv (hequal.imp And.right And.right)
  · intro haccepts
    obtain ⟨v, hv, heq, heq'⟩ := h.reads.exists_read? hfits haccepts
    exact ⟨v, hv, h.sides.imp (fun hleft => ⟨hleft.1, heq⟩) fun hright => ⟨hright.2, heq'⟩⟩

/-- There are as many combinations as occurrences. -/
theorem length_combinations (t : Tree) :
    (combinations t (boundNames left right)).length = (t.findAll (.named s)).length := by
  rw [h.boundNames_eq, length_combinations_cons, combinations, List.length_singleton, Nat.mul_one]

/-- **What is blamed** are occurrences that do not compare, with the literal as the suggestion. -/
theorem exists_of_mem_failing {t : Tree} {clause : String} {f : FailingTree}
    (hf : f ∈ (evaluateComparison t left .eq right clause).failing) :
    f = ⟨f.path, .named s, clause, [⟨.eq, value⟩]⟩ ∧
      ∃ n, t.get? f.path = some n ∧ n.symbol = .named s := by
  obtain ⟨b, hb, -, hf⟩ := exists_of_mem_failing_evaluateComparison hf
  rw [h.boundNames_eq] at hb
  obtain ⟨p, n, rfl, hn, hsymbol⟩ := chooses_singleton_iff.mp hb
  obtain rfl : f = ⟨p, .named s, clause, [⟨.eq, value⟩]⟩ := by
    simpa [blamed, h.suggestions_eq] using hf
  exact ⟨rfl, n, hn, hsymbol⟩

/-- **An occurrence that does not compare is blamed**, if all occurrences are checked. -/
theorem path_mem_failing {t n : Tree} {clause : String}
    (hfew : (t.findAll (.named s)).length ≤ maxBindings) {p : Path} (hn : t.get? p = some n)
    (hsymbol : n.symbol = .named s) (hfails : ¬ Compares t left .eq right [(s, p)]) :
    p ∈ (evaluateComparison t left .eq right clause).failing.map (·.path) := by
  rw [← h.length_combinations] at hfew
  have hb : Chooses t (boundNames left right) [(s, p)] := by
    rw [h.boundNames_eq]
    exact chooses_singleton_iff.mpr ⟨p, n, rfl, hn, hsymbol⟩
  exact path_mem_failing_evaluateComparison hfew hb hfails
    (f := ⟨p, .named s, clause, suggestions left .eq right s⟩) (by simp [blamed])

/-- **When the comparison holds**: there are few enough occurrences, and each of them compares. -/
theorem success_iff {t : Tree} {clause : String} :
    (evaluateComparison t left .eq right clause).success = true ↔
      (t.findAll (.named s)).length ≤ maxBindings ∧
        ∀ p n, t.get? p = some n → n.symbol = .named s → Compares t left .eq right [(s, p)] := by
  rw [success_evaluateComparison, h.length_combinations, h.boundNames_eq]
  refine and_congr_right fun _ => ⟨fun hall p n hn hsymbol => ?_, fun hall b hb => ?_⟩
  · exact hall _ (chooses_singleton_iff.mpr ⟨p, n, rfl, hn, hsymbol⟩)
  · obtain ⟨p, n, rfl, hn, hsymbol⟩ := chooses_singleton_iff.mp hb
    exact hall p n hn hsymbol

end Equation

/-! ### Replacing occurrences -/

/-- **A symbol occurs at a path.** -/
def Tree.OccursAt (t : Tree) (s : String) (p : Path) : Prop :=
  ∃ n, t.get? p = some n ∧ n.symbol = .nonTerminal s

/-- Removing parties moves no occurrence. -/
theorem Tree.occursAt_stripParties {t : Tree} {inside : Bool} {s : String} {p : Path} :
    (t.stripParties inside).OccursAt s p ↔ t.OccursAt s p := by
  simp [OccursAt, get?_stripParties]

/-- Where a symbol occurs at the same paths, it occurs equally often. -/
theorem Tree.length_findAll_congr {t u : Tree} {s : String}
    (h : ∀ p, u.OccursAt s p ↔ t.OccursAt s p) :
    (u.findAll (.nonTerminal s)).length = (t.findAll (.nonTerminal s)).length :=
  ((List.perm_ext_iff_of_nodup (u.nodup_findAll _) (t.nodup_findAll _)).mpr fun p =>
    mem_findAll.trans ((h p).trans mem_findAll.symm)).length_eq

namespace Grammar

open Relation

variable {g : Grammar} {s : String} {value : Value} {t u : Tree} {done : List Path}

/-- **A tree in which some occurrences of a symbol are mended**: the symbol occurs where it did,
those occurrences render as they should, and the others are what they were. -/
structure Mending (g : Grammar) (s : String) (w : Bytes) (t : Tree) (done : List Path) (u : Tree) :
    Prop where
  valid : g.Valid u
  occursAt : ∀ p, u.OccursAt s p ↔ t.OccursAt s p
  mended : ∀ p ∈ done, ∃ n, u.get? p = some n ∧ n.symbol = .nonTerminal s ∧ n.toBytes = w
  untouched : ∀ p, t.OccursAt s p → p ∉ done → u.get? p = t.get? p

theorem Mending.refl {w : Bytes} (ht : g.Valid t) : g.Mending s w t [] t :=
  ⟨ht, fun _ => Iff.rfl, nofun, fun _ _ _ => rfl⟩

section Replace

variable (hs : ¬ TransGen g.Refers s s) (hu : g.Valid u) {parsed u' : Tree} {p : Path}
  (hsymbol : parsed.symbol = .nonTerminal s) (hreplace : u.replace p parsed = .ok u')
include hs hu hsymbol hreplace

/-- Where one occurrence is replaced by another, the others are what they were. -/
theorem Valid.get?_replace_of_ne {q : Path} (hq : u.OccursAt s q) (hqp : q ≠ p) :
    u'.get? q = u.get? q := by
  obtain ⟨old, hold, holdSymbol, hmodify⟩ := Tree.replace_eq_ok hreplace
  rw [hsymbol] at holdSymbol
  obtain ⟨n, hn, hsn⟩ := hq
  exact Tree.get?_modify?_of_apart hmodify (hu.apart hs hold holdSymbol hn hsn (Ne.symm hqp))
    (hu.apart hs hn hsn hold holdSymbol hqp)

/-- **Where one occurrence is replaced by another**, the symbol occurs where it did. -/
theorem Valid.occursAt_replace (hvalid : g.Valid parsed) (q : Path) :
    u'.OccursAt s q ↔ u.OccursAt s q := by
  obtain ⟨old, hold, holdSymbol, hmodify⟩ := Tree.replace_eq_ok hreplace
  rw [hsymbol] at holdSymbol
  have hat := Tree.get?_modify? hmodify hold
  constructor
  · rintro ⟨n, hn, hsn⟩
    by_cases hpq : p <+: q
    · -- Below the root of what was put in, the symbol does not occur.
      obtain ⟨below, rfl⟩ := hpq
      rw [Tree.get?_append, hat, Option.bind_some] at hn
      have hnil := (valid_withParty.mpr hvalid).eq_nil_of_get? hs hsymbol hn hsn
      rw [hnil, List.append_nil]
      exact ⟨old, hold, holdSymbol⟩
    · have hsame : (u'.get? q).map Tree.symbol = (u.get? q).map Tree.symbol :=
        Tree.map_get?_modify? (fun _ _ => rfl) hmodify hpq
      rw [hn, Option.map_some, eq_comm, Option.map_eq_some_iff] at hsame
      obtain ⟨m, hm, hsm⟩ := hsame
      exact ⟨m, hm, hsm.trans hsn⟩
  · intro hq
    by_cases hqp : q = p
    · exact ⟨parsed.withParty old.sender old.recipient, hqp ▸ hat, hsymbol⟩
    · rw [Tree.OccursAt, hu.get?_replace_of_ne hs hsymbol hreplace hq hqp]
      exact hq

end Replace

/-- **One more occurrence is mended.** -/
theorem Mending.replace {w : Bytes} (hs : ¬ TransGen g.Refers s s) (h : g.Mending s w t done u)
    {p : Path} (hp : t.OccursAt s p) (hnew : p ∉ done) {parsed : Tree} (hvalid : g.Valid parsed)
    (hsymbol : parsed.symbol = .nonTerminal s) (hbytes : parsed.toBytes = w) {u' : Tree}
    (hu : u.replace p parsed = .ok u') : g.Mending s w t (p :: done) u' := by
  obtain ⟨old, hold, -, hmodify⟩ := Tree.replace_eq_ok hu
  have hat := Tree.get?_modify? hmodify hold
  have helsewhere : ∀ q, u.OccursAt s q → q ≠ p → u'.get? q = u.get? q := fun q =>
    h.valid.get?_replace_of_ne hs hsymbol hu
  refine ⟨(h.valid.replace hvalid hu).1, fun q => ?_, fun q hq => ?_, fun q hq hrest => ?_⟩
  · exact (h.valid.occursAt_replace hs hsymbol hu hvalid q).trans (h.occursAt q)
  · rcases List.mem_cons.mp hq with rfl | hq
    · exact ⟨_, hat, hsymbol, (Tree.toBytes_withParty _ _ _).trans hbytes⟩
    · obtain ⟨n, hn, hsn, hw⟩ := h.mended q hq
      have hqp : q ≠ p := fun heq => hnew (heq ▸ hq)
      exact ⟨n, (helsewhere q ⟨n, hn, hsn⟩ hqp).trans hn, hsn, hw⟩
  · rw [List.mem_cons, not_or] at hrest
    exact (helsewhere q ((h.occursAt q).mpr hq) hrest.1).trans (h.untouched q hq hrest.2)

/-- Without its nested parties the tree has the same occurrences. -/
theorem Mending.occursAt_stripNestedParties {w : Bytes} (h : g.Mending s w t done u) (p : Path) :
    u.stripNestedParties.OccursAt s p ↔ t.OccursAt s p :=
  Tree.occursAt_stripParties.trans (h.occursAt p)

/-- Without its nested parties the tree has the same mended texts. -/
theorem Mending.get?_stripNestedParties_of_mem {w : String}
    (h : g.Mending s (Utf8.encode w) t done u) {p : Path} (hp : p ∈ done) :
    ∃ n, u.stripNestedParties.get? p = some n ∧ n.symbol = .nonTerminal s ∧ n.text = w := by
  obtain ⟨n, hn, hsymbol, hbytes⟩ := h.mended p hp
  refine ⟨n.stripParties (false || u.enclosed p), ?_, ?_, ?_⟩
  · rw [Tree.stripNestedParties, Tree.get?_stripParties, hn, Option.map_some]
  · rw [Tree.symbol_stripParties, hsymbol]
  · rw [Tree.text, Tree.toBytes_stripParties, hbytes, Utf8.decodeLossy_encode]

/-- Without its nested parties the tree has the texts of before elsewhere. -/
theorem Mending.get?_stripNestedParties_of_notMem {w : Bytes} (h : g.Mending s w t done u)
    {p : Path} {n : Tree} (hn : t.get? p = some n) (hsymbol : n.symbol = .nonTerminal s)
    (hp : p ∉ done) : ∃ m, u.stripNestedParties.get? p = some m ∧ m.text = n.text := by
  refine ⟨n.stripParties (false || u.enclosed p), ?_, ?_⟩
  · rw [Tree.stripNestedParties, Tree.get?_stripParties, h.untouched p ⟨n, hn, hsymbol⟩ hp, hn,
      Option.map_some]
  · rw [Tree.text, Tree.toBytes_stripParties, Tree.text]

/-! ### Applying suggestions -/

/-- **A blame suggests a literal** for an occurrence that may be replaced. -/
structure Suggests (s : String) (value : Value) (t : Tree) (f : FailingTree) : Prop where
  symbol : f.symbol = .nonTerminal s
  suggestions : f.suggestions = [⟨.eq, value⟩]
  writable : ∃ n, t.get? f.path = some n ∧ n.symbol = .nonTerminal s ∧ n.readOnly = false

/-- **The suggestion is applied** as long as the occurrence is what it was. -/
theorem Suggests.exists_apply {f : FailingTree} (hf : Suggests s value t f)
    (hsame : u.get? f.path = t.get? f.path) {parsed : Tree}
    (hparsed : g.parse (Utf8.encode value.describe) s .complete = .ok parsed)
    (hsymbol : parsed.symbol = .nonTerminal s) :
    ∃ u', u.replace f.path parsed = .ok u' ∧ applySuggestion? g u f = some u' := by
  obtain ⟨n, hn, hsn, hwritable⟩ := hf.writable
  rw [← hsame] at hn
  obtain ⟨u', hu'⟩ := Tree.exists_replace hn (hsymbol.trans hsn.symm)
  refine ⟨u', hu', ?_⟩
  have hequality : f.equalitySuggestion? = some ⟨.eq, value⟩ := by
    rw [FailingTree.equalitySuggestion?, hf.suggestions]
    rfl
  simp [applySuggestion?, hequality, hf.symbol, Symbol.name?, hn, hsn, hwritable, hparsed, hu',
    Except.toOption]

/-- **Every suggestion is applied**, one after the other. -/
theorem Mending.foldl_repairStep (hs : ¬ TransGen g.Refers s s) {parsed : Tree}
    (hparsed : g.parse (Utf8.encode value.describe) s .complete = .ok parsed)
    (hvalid : g.Valid parsed) (hsymbol : parsed.symbol = .nonTerminal s) :
    ∀ {fs : List FailingTree} {done : List Path} {u : Tree} (applied : Bool),
      g.Mending s parsed.toBytes t done u → (∀ f ∈ fs, Suggests s value t f) →
        (fs.map (·.path)).Nodup → (∀ f ∈ fs, f.path ∉ done) →
          ∃ u', fs.foldl (repairStep g) (u, applied) = (u', applied || !fs.isEmpty) ∧
            g.Mending s parsed.toBytes t ((fs.map (·.path)).reverse ++ done) u'
  | [], done, u, applied, h, _, _, _ => ⟨u, by simp, h⟩
  | f :: fs, done, u, applied, h, hfs, hnodup, hnew => by
    rw [List.forall_mem_cons] at hfs hnew
    rw [List.map_cons, List.nodup_cons] at hnodup
    obtain ⟨n, hn, hsn, -⟩ := hfs.1.writable
    -- This occurrence was not mended yet, so that it is still the one that was blamed.
    obtain ⟨u', hu', happly⟩ :=
      hfs.1.exists_apply (h.untouched _ ⟨n, hn, hsn⟩ hnew.1) hparsed hsymbol
    have hstep := h.replace hs ⟨n, hn, hsn⟩ hnew.1 hvalid hsymbol rfl hu'
    have hlater : ∀ f' ∈ fs, f'.path ∉ f.path :: done := by
      intro f' hf' hmem
      rcases List.mem_cons.mp hmem with heq | hmem
      · exact hnodup.1 (heq ▸ List.mem_map_of_mem hf')
      · exact hnew.2 f' hf' hmem
    obtain ⟨u'', hfold, hmending⟩ :=
      hstep.foldl_repairStep hs hparsed hvalid hsymbol true hfs.2 hnodup.2 hlater
    refine ⟨u'', ?_, by simpa using hmending⟩
    rw [List.foldl_cons, repairStep, happly, hfold]
    simp

/-! ### Repaired comparisons -/

/-- **A failing comparison whose suggestions can all be applied**: the symbol is not reachable from
itself, the occurrences to blame may be replaced, and the text of the literal derives from the
symbol. -/
structure Mendable (g : Grammar) (s : String) (x : Operand) (value : Value) (left right : Operand)
    (t : Tree) : Prop extends Equation s x value left right where
  mem_keys : s ∈ g.rules.keys
  not_reachable : ∃ names, g.reachable s = .ok names ∧ s ∉ names
  valid : g.validate t = .ok ()
  fails : (Constraint.evaluate t (.compare left .eq right)).success = false
  writable : ∀ f ∈ (Constraint.evaluate t (.compare left .eq right)).failing,
    ∀ n, t.get? f.path = some n → n.isWritable = true
  parsed : ∃ u, g.parse (Utf8.encode value.describe) s .complete = .ok u

/-- **The comparison is mended**: repair applies a suggestion and makes a valid tree on which the
comparison holds. -/
def Mended (g : Grammar) (left right : Operand) (t : Tree) : Prop :=
  ∃ u, repair g t (Constraint.evaluate t (.compare left .eq right)).failing = (u, true) ∧
    g.validate u = .ok () ∧ (Constraint.evaluate u (.compare left .eq right)).success = true

section Mendable

variable {x : Operand} {left right : Operand} (hbare : g.BareNames)
  (h : g.Mendable s x value left right t)
include hbare h

theorem Mendable.not_transGen (hg : g.WellFormed) : ¬ TransGen g.Refers s s := by
  obtain ⟨names, hnames, hnot⟩ := h.not_reachable
  exact mt (mem_reachable_iff hg hbare h.mem_keys hnames).mpr hnot

/-- The literal is suggested for every node that is to blame. -/
theorem Mendable.suggests :
    ∀ f ∈ (Constraint.evaluate t (.compare left .eq right)).failing, Suggests s value t f := by
  intro f hf
  have hwritable := h.writable f hf
  rw [Constraint.evaluate, Fitness.failing] at hf
  obtain ⟨hblamed, n, hn, hsn⟩ := h.toEquation.exists_of_mem_failing hf
  rw [Symbol.named, hbare s h.mem_keys] at hblamed hsn
  have hnode := hwritable n hn
  rw [Tree.isWritable, Bool.and_eq_true, Bool.not_eq_true'] at hnode
  exact ⟨by rw [hblamed], by rw [hblamed], n, hn, hsn, hnode.2⟩

/-- **What repair makes of such a tree**: one in which the blamed occurrences are mended. -/
theorem Mendable.exists_mending (hg : g.WellFormed) : ∃ done u,
    (∀ p, p ∈ done ↔ p ∈ (Constraint.evaluate t (.compare left .eq right)).failing.map (·.path)) ∧
      g.Mending s (Utf8.encode value.describe) t done u ∧
        repair g t (Constraint.evaluate t (.compare left .eq right)).failing =
          (if !(Constraint.evaluate t (.compare left .eq right)).failing.isEmpty then
              u.stripNestedParties else u,
            !(Constraint.evaluate t (.compare left .eq right)).failing.isEmpty) := by
  obtain ⟨parsed, hparsed⟩ := h.parsed
  obtain ⟨hsymbol, hvalid, hbytes⟩ := hg.parse_sound hbare h.mem_keys hparsed
  have hsuggests := h.suggests hbare
  have hnodup : ((Constraint.evaluate t (.compare left .eq right)).failing.map (·.path)).Nodup := by
    rw [Constraint.evaluate, Fitness.failing, Constraint.failing_evaluateComparison]
    exact Constraint.nodup_distinctPaths _
  generalize (Constraint.evaluate t (.compare left .eq right)).failing = fs at hsuggests hnodup ⊢
  -- In which order the blame is gone through does not matter, as no occurrence is above another.
  generalize hsorted : (fs.mergeSort fun a b => b.path.length ≤ a.path.length) = sorted
  have hperm : sorted.Perm fs := hsorted ▸ List.mergeSort_perm fs _
  obtain ⟨u, hfold, hmending⟩ := (Mending.refl (hg.validate_eq_ok.mp h.valid)).foldl_repairStep
    (h.not_transGen hbare hg) hparsed hvalid hsymbol false
    (fun f hf => hsuggests f (hperm.mem_iff.mp hf)) ((hperm.map _).nodup_iff.mpr hnodup)
    fun _ _ => List.not_mem_nil
  rw [hbytes] at hmending
  refine ⟨_, u, fun p => ?_, hmending, ?_⟩
  · rw [List.append_nil, List.mem_reverse]
    exact (hperm.map _).mem_iff
  · have hempty : sorted.isEmpty = fs.isEmpty := by
      rw [Bool.eq_iff_iff, List.isEmpty_iff, List.isEmpty_iff, ← List.length_eq_zero_iff,
        hperm.length_eq, List.length_eq_zero_iff]
    rw [repair, hsorted, hfold, hempty, Bool.false_or]

/-- There is something to blame if all occurrences are checked. -/
theorem Mendable.failing_ne_nil (hfew : (t.findAll (.nonTerminal s)).length ≤ maxBindings) :
    (Constraint.evaluate t (.compare left .eq right)).failing ≠ [] := by
  have hfails := h.fails
  rw [Constraint.evaluate] at hfails ⊢
  refine Constraint.failing_evaluateComparison_ne_nil ?_ hfails
  rw [h.toEquation.length_combinations, Symbol.named, hbare s h.mem_keys]
  exact hfew

/-- **When the comparison holds of what repair makes**: all occurrences are checked, and if there is
one to mend, the text of the literal passes the comparison. -/
theorem Mendable.success_iff (hdone : ∀ p, p ∈ done ↔
      p ∈ (Constraint.evaluate t (.compare left .eq right)).failing.map (·.path))
    (hmending : g.Mending s (Utf8.encode value.describe) t done u) :
    (Constraint.evaluate u.stripNestedParties (.compare left .eq right)).success = true ↔
      (t.findAll (.nonTerminal s)).length ≤ maxBindings ∧
        (done ≠ [] → x.Passes value left right value.describe) := by
  have hname : Symbol.named s = .nonTerminal s := by
    rw [Symbol.named, hbare s h.mem_keys]
  rw [Constraint.evaluate, Fitness.success, h.toEquation.success_iff, hname,
    Tree.length_findAll_congr hmending.occursAt_stripNestedParties]
  refine and_congr_right fun hfew => ⟨fun hall hne => ?_, fun hpasses p n hn hsymbol => ?_⟩
  · obtain ⟨p, hp⟩ := List.exists_mem_of_ne_nil done hne
    obtain ⟨n, hn, hsymbol, htext⟩ := hmending.get?_stripNestedParties_of_mem hp
    rw [← htext]
    exact (h.toEquation.compares_iff hn).mp (hall p n hn hsymbol)
  · rw [h.toEquation.compares_iff hn]
    by_cases hp : p ∈ done
    · obtain ⟨m, hm, -, htext⟩ := hmending.get?_stripNestedParties_of_mem hp
      obtain rfl := Option.some.inj (hn.symm.trans hm)
      rw [htext]
      exact hpasses (List.ne_nil_of_mem hp)
    · -- An occurrence that was not blamed compared before, and its text is what it was.
      obtain ⟨m, hm, hsame⟩ := (hmending.occursAt_stripNestedParties p).mp ⟨n, hn, hsymbol⟩
      obtain ⟨n', hn', htext⟩ := hmending.get?_stripNestedParties_of_notMem hm hsame hp
      obtain rfl := Option.some.inj (hn.symm.trans hn')
      rw [htext, ← h.toEquation.compares_iff hm]
      by_contra hfails
      rw [← hname] at hfew hsame
      refine hp ((hdone p).mpr ?_)
      rw [Constraint.evaluate]
      exact h.toEquation.path_mem_failing hfew hm hsame hfails

/-- **When the comparison is mended**: all occurrences are checked, and the text of the literal
passes the comparison. -/
theorem Mendable.mended_iff (hg : g.WellFormed) : g.Mended left right t ↔
    (t.findAll (.nonTerminal s)).length ≤ maxBindings ∧
      x.Passes value left right value.describe := by
  obtain ⟨done, u, hdone, hmending, hrepair⟩ := h.exists_mending hbare hg
  have hsuccess := h.success_iff hbare hdone hmending
  have hempty : done ≠ [] ↔ (Constraint.evaluate t (.compare left .eq right)).failing ≠ [] := by
    simp only [ne_eq, List.eq_nil_iff_forall_not_mem, hdone, List.mem_map]
    simp
  constructor
  · rintro ⟨u', hrepair', -, hu'⟩
    rw [hrepair] at hrepair'
    obtain ⟨rfl, hblamed⟩ := Prod.mk.inj hrepair'
    rw [hblamed, if_pos rfl, hsuccess] at hu'
    refine ⟨hu'.1, hu'.2 (hempty.mpr ?_)⟩
    simpa using hblamed
  · rintro ⟨hfew, hpasses⟩
    have hblamed : (Constraint.evaluate t (.compare left .eq right)).failing.isEmpty = false :=
      List.isEmpty_eq_false_iff.mpr (h.failing_ne_nil hbare hfew)
    rw [hblamed] at hrepair
    exact ⟨_, hrepair, hg.validate_eq_ok.mpr (valid_stripParties u false hmending.valid),
      hsuccess.mpr ⟨hfew, fun _ => hpasses⟩⟩

end Mendable

end Grammar

/-- **When a repaired comparison holds.** For every grammar of bare names and every failing
comparison of the text or the number that a symbol renders with a literal – the symbol not being
reachable from itself, the occurrences to blame being writable, and the text of the literal deriving
from the symbol – repair applies suggestions and makes a valid tree on which the comparison holds if
and only if

* all occurrences of the symbol are checked, of which there may be `GrammarFuzzing.maxBindings`;
* the operand accepts the literal: a text is compared with a text or a number with a number, and the
  literal is written in a way that the operand reads. -/
theorem Draft.repair_mends_iff {d : Draft} (hd : d.Coherent) {g : Grammar} (h : d.build = .ok g)
    (hbare : g.BareNames) {s : String} {x : Operand} {value : Value} {left right : Operand}
    {t : Tree} (hmendable : g.Mendable s x value left right t) (hfits : value.Fits) :
    g.Mended left right t ↔
      (t.findAll (.nonTerminal s)).length ≤ maxBindings ∧ x.accepts value = true := by
  rw [hmendable.mended_iff hbare (hd.wellFormed h),
    hmendable.toEquation.passes_describe_iff hfits]

/-! ### Numerals -/

/-- Numerals are digits one after the other. -/
def Document.numerals : Document :=
  ⟨"numeral", [("digit", .chars "0123456789"), ("numeral", .plus (.ref "digit"))], []⟩

/-- The tree of a digit. -/
def Tree.digit (c : Char) : Tree :=
  .branch "digit" [.leaf (.text (String.singleton c))]

/-- The tree of a numeral. -/
def Tree.numeral (cs : List Char) : Tree :=
  .branch "numeral" (cs.map digit)

theorem Tree.plain_numeral (cs : List Char) : (numeral cs).Plain := by
  refine plain_node.mpr (List.forall_mem_map.mpr fun c _ => plain_node.mpr ?_)
  exact List.forall_mem_singleton.mpr (plain_leaf _)

theorem Tree.get?_numeral {cs : List Char} {i : Nat} (hi : i < cs.length) :
    (numeral cs).get? [i] = some (digit cs[i]) := by
  rw [get?_cons, numeral, branch, List.getElem?_map, List.getElem?_eq_getElem hi, Option.map_some,
    Option.bind_some, get?_nil]

theorem Tree.length_le_findAll_numeral (cs : List Char) :
    cs.length ≤ ((numeral cs).findAll (.nonTerminal "digit")).length := by
  have hnodup : ((List.range cs.length).map fun i => [i]).Nodup :=
    List.nodup_range.map fun i j h => (List.cons.inj h).1
  have hsub : (List.range cs.length).map (fun i => [i]) ⊆
      (numeral cs).findAll (.nonTerminal "digit") := by
    intro p hp
    obtain ⟨i, hi, rfl⟩ := List.mem_map.mp hp
    exact mem_findAll.mpr ⟨_, get?_numeral (List.mem_range.mp hi), rfl⟩
  simpa using (List.subperm_of_subset hnodup hsub).length_le

/-- A digit is valid. -/
theorem Document.valid_digit {g : Grammar} (h : numerals.toGrammar = .ok g) {c : Char}
    (hc : c ∈ "0123456789".toList) : g.Valid (.digit c) := by
  obtain rfl := Except.ok.inj ((rfl : numerals.toGrammar = .ok _).symm.trans h)
  refine (Grammar.valid_nonTerminal rfl).mpr ⟨⟨.charset 0 "0123456789".toList, rfl, ?_⟩,
    List.forall_mem_singleton.mpr (Grammar.valid_leaf _)⟩
  rw [Node.Matches]
  refine ⟨_, rfl, ?_⟩
  simpa [Node.isOneOf, Tree.leaf] using hc

/-- A numeral is valid. -/
theorem Document.valid_numeral {g : Grammar} (h : numerals.toGrammar = .ok g) {cs : List Char}
    (hne : cs ≠ []) (hcs : ∀ c ∈ cs, c ∈ "0123456789".toList) : g.Valid (.numeral cs) := by
  have hbody : g.body? "numeral" =
      some (.repetition 2 (.reference 1 "digit" none none) 1 none .plus) := by
    obtain rfl := Except.ok.inj ((rfl : numerals.toGrammar = .ok _).symm.trans h)
    rfl
  refine (Grammar.valid_nonTerminal rfl).mpr ⟨⟨_, hbody, ?_⟩,
    List.forall_mem_map.mpr fun c hc => valid_digit h (hcs c hc)⟩
  rw [Node.Matches]
  refine ⟨_, ?_, nofun, Node.copies_singletons (List.forall_mem_map.mpr fun c _ => ?_)⟩
  · exact List.length_pos_iff.mpr (mt List.map_eq_nil_iff.mp hne)
  · rw [Node.Matches]
    exact ⟨_, rfl, rfl⟩

/-- What is needed of the grammar of numerals. -/
theorem Document.numerals_spec {g : Grammar} (h : numerals.toGrammar = .ok g) : g.BareNames ∧
    "digit" ∈ g.rules.keys ∧ g.reachable "digit" = .ok [] ∧
      ∃ u, g.parse (Utf8.encode "2") "digit" .complete = .ok u := by
  have hg := wellFormed_of_toGrammar h
  have hdigit := valid_digit h (c := '2') (by decide)
  obtain rfl := Except.ok.inj ((rfl : numerals.toGrammar = .ok _).symm.trans h)
  have hbare : ∀ name ∈ ["digit", "numeral"], bareName name = name := by decide
  have hs : "digit" ∈ ["digit", "numeral"] := by decide
  have hrecognize := (hg.recognize_iff_valid hbare hs (Utf8.encode "2")).mpr
    ⟨.digit '2', rfl, hdigit, rfl⟩
  have hloop := hg.noEmptyLoop (by decide)
  exact ⟨hbare, hs, rfl, hg.exists_parse_complete hbare hs (hg.noEmptyLoopIn hloop _ _) hrecognize⟩

theorem Tree.text_digit (c : Char) : (digit c).text = String.singleton c := by
  have hbytes : (digit c).toBytes = Utf8.encode (String.singleton c) := by
    simp [toBytes_eq, digit, branch, leaf, Symbol.toBytes, Literal.toBytes]
  rw [text, hbytes, Utf8.decodeLossy_encode]

/-- A comparison of what an operand reads with a literal. -/
theorem Operand.Reads.equation {s : String} {x : Operand} (hx : x.Reads s) (value : Value) :
    Equation s x value x (.literal value) :=
  ⟨hx, Or.inl ⟨rfl, rfl⟩⟩

/-- **Digits that do not compare** with a literal: there are too many of them, or one is unequal. -/
def Operand.Misses (x : Operand) (value : Value) (cs : List Char) : Prop :=
  maxBindings < cs.length ∨
    ∃ c ∈ cs, ∀ v, x.read? (String.singleton c) = some v → v.compare? value ≠ some .eq

section

variable {x : Operand} {value : Value} {cs : List Char} (hx : x.Reads "digit")
include hx

theorem Document.fails_numeral (h : x.Misses value cs) :
    (Constraint.evaluate (.numeral cs) (.compare x .eq (.literal value))).success = false := by
  have heq := hx.equation value
  rw [← Bool.not_eq_true, Constraint.evaluate, Fitness.success, heq.success_iff]
  rintro ⟨hfew, hall⟩
  rcases h with hmany | ⟨c, hc, hne⟩
  · rw [show Symbol.named "digit" = .nonTerminal "digit" from rfl] at hfew
    exact Nat.not_lt_of_le (Nat.le_trans (Tree.length_le_findAll_numeral cs) hfew) hmany
  · obtain ⟨i, hi, rfl⟩ := List.mem_iff_getElem.mp hc
    have hn := Tree.get?_numeral hi
    obtain ⟨v, hv, hequal⟩ := (heq.compares_iff hn).mp (hall [i] _ hn rfl)
    rw [Tree.text_digit] at hv
    refine hequal.elim (fun hleft => hne v hv hleft.2) fun hright => ?_
    cases hx <;> nomatch hright.1

/-- The comparison of the digits of a numeral with a literal that is written as one of them can be
repaired, as far as its suggestions go. -/
theorem Document.mendable_numeral {g : Grammar} (h : numerals.toGrammar = .ok g) (hne : cs ≠ [])
    (hcs : ∀ c ∈ cs, c ∈ "0123456789".toList) (hvalue : value.describe = "2")
    (hmisses : x.Misses value cs) :
    g.Mendable "digit" x value x (.literal value) (.numeral cs) := by
  obtain ⟨-, hs, hreachable, hparse⟩ := numerals_spec h
  have hvalid := (wellFormed_of_toGrammar h).validate_eq_ok.mpr (valid_numeral h hne hcs)
  have heq := hx.equation value
  refine ⟨heq, hs, ⟨[], hreachable, List.not_mem_nil⟩, hvalid, fails_numeral hx hmisses,
    fun f hf n hn => ?_, hvalue ▸ hparse⟩
  rw [Constraint.evaluate, Fitness.failing] at hf
  obtain ⟨-, m, hm, hsymbol⟩ := heq.exists_of_mem_failing hf
  obtain rfl := Option.some.inj (hm.symm.trans hn)
  rw [Tree.isWritable, hsymbol, ((Tree.plain_numeral cs).of_get? hm).readOnly]
  rfl

end

/-- A digit that is not the wanted text is repaired, and so is one that is not the wanted float. -/
theorem Document.repair_mends_numerals : ∃ g, numerals.toGrammar = .ok g ∧
    g.Mended (.text (.symbol "digit")) (.literal (.text "2")) (.numeral ['1', '2']) ∧
    g.Mended (.float (.symbol "digit")) (.literal (.float 2.0)) (.numeral ['1']) := by
  have h : numerals.toGrammar = .ok _ := rfl
  have htext := mendable_numeral .text h (by decide : ['1', '2'] ≠ []) (by simp)
    (rfl : (Value.text "2").describe = "2") (Or.inr ⟨'1', by decide, fun v hv => by
      obtain rfl := Option.some.inj hv
      decide⟩)
  have hfloat := mendable_numeral .float h (by decide : ['1'] ≠ []) (by simp)
    (by decide +kernel : (Value.float 2.0).describe = "2") (Or.inr ⟨'1', by decide, fun v hv => by
      obtain rfl := Option.some.inj hv
      decide +kernel⟩)
  have hcoherent := numerals.coherent_toDraft
  have hbare := (numerals_spec h).1
  exact ⟨_, h, (Draft.repair_mends_iff hcoherent h hbare htext trivial).mpr ⟨by decide, rfl⟩,
    (Draft.repair_mends_iff hcoherent h hbare hfloat trivial).mpr ⟨by decide, by decide +kernel⟩⟩

/-- **Digits that no repair helps**: one that is compared with a number, and more of them than are
checked. -/
theorem Document.repair_misses_numerals : ∃ g, numerals.toGrammar = .ok g ∧ g.BareNames ∧
    (g.Mendable "digit" (.text (.symbol "digit")) (.int 2) (.text (.symbol "digit"))
        (.literal (.int 2)) (.numeral ['1']) ∧
      ¬ g.Mended (.text (.symbol "digit")) (.literal (.int 2)) (.numeral ['1'])) ∧
    (g.Mendable "digit" (.text (.symbol "digit")) (.text "2") (.text (.symbol "digit"))
        (.literal (.text "2")) (.numeral (List.replicate (maxBindings + 1) '2')) ∧
      ¬ g.Mended (.text (.symbol "digit")) (.literal (.text "2"))
        (.numeral (List.replicate (maxBindings + 1) '2'))) := by
  have h : numerals.toGrammar = .ok _ := rfl
  have hg := wellFormed_of_toGrammar h
  obtain ⟨hbare, -⟩ := numerals_spec h
  have hlength : maxBindings < (List.replicate (maxBindings + 1) '2').length := by
    rw [List.length_replicate]
    exact Nat.lt_succ_self _
  have hone := mendable_numeral .text h (by decide : ['1'] ≠ []) (by simp)
    (rfl : (Value.int 2).describe = "2") (Or.inr ⟨'1', by decide, fun v hv => by
      obtain rfl := Option.some.inj hv
      exact nofun⟩)
  have hmany := mendable_numeral .text h
    (List.ne_nil_of_length_pos (Nat.zero_lt_of_lt hlength))
    (fun c hc => List.eq_of_mem_replicate hc ▸ by decide)
    (rfl : (Value.text "2").describe = "2") (Or.inl hlength)
  refine ⟨_, h, hbare, ⟨hone, ?_⟩, hmany, ?_⟩
  · rw [hone.mended_iff hbare hg]
    rintro ⟨-, v, hv, hequal⟩
    obtain rfl := Option.some.inj hv
    exact hequal.elim (fun heq => nomatch heq.2) fun heq => nomatch heq.2
  · rw [hmany.mended_iff hbare hg]
    rintro ⟨hfew, -⟩
    exact Nat.not_le_of_lt hlength (Nat.le_trans (Tree.length_le_findAll_numeral _) hfew)

end GrammarFuzzing
