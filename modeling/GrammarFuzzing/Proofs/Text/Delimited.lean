import GrammarFuzzing.Symbol
import Mathlib.Data.List.Basic
import Mathlib.Data.Nat.Digits.Defs

/-!
# Text that shows where it ends

Text is put together from pieces without anything that tells how long they are. That it can still be
taken apart is a property of each way of writing: what was written, and where it ends, is seen
whatever follows (`GrammarFuzzing.SelfDelimiting`). A piece that is quoted has it
(`GrammarFuzzing.Literal.selfDelimiting_toSpec`), since a quote inside is escaped. A run of pieces
has it as soon as what stands behind the run cannot be taken for one more piece
(`GrammarFuzzing.SelfDelimiting.flatMap`). Where pieces only end before certain texts, a separator
between them has to be such a text (`GrammarFuzzing.intercalate_append_inj`).

Numbers are no such pieces: one more digit makes another number. They are always followed by a brace
or a comma (`GrammarFuzzing.digits_append`).
-/

namespace GrammarFuzzing

variable {α : Type} {rest rest' : List Char}

/-- **A way of writing whose end is seen**, whatever follows. -/
def SelfDelimiting (write : α → List Char) : Prop :=
  ∀ ⦃a b : α⦄ ⦃rest rest' : List Char⦄, write a ++ rest = write b ++ rest' → a = b ∧ rest = rest'

section Pieces

variable {write : α → List Char} {Ends : List Char → Prop} {as bs : List α}

/-- Pieces in a row are followed by an end if the first of them is one. -/
theorem ends_flatMap_append (hnext : ∀ a ∈ as, ∀ more, Ends (write a ++ more)) (hrest : Ends rest) :
    Ends (as.flatMap write ++ rest) := by
  cases as with
  | nil => exact hrest
  | cons a as =>
    rw [List.flatMap_cons, List.append_assoc]
    exact hnext a List.mem_cons_self _

/-- **Pieces in a row** are told apart up to a text that does not begin with one, if each of them is
told apart before an end, and the next piece is an end for the one before. -/
theorem flatMap_append_inj (write : α → List Char) (Ends : List Char → Prop)
    (hpiece : ∀ a ∈ as, ∀ b ∈ bs, ∀ {more more'}, Ends more → Ends more' →
      write a ++ more = write b ++ more' → a = b ∧ more = more')
    (hnext : ∀ a ∈ as, ∀ more, Ends (write a ++ more))
    (hnext' : ∀ b ∈ bs, ∀ more, Ends (write b ++ more))
    (hlast : ∀ b ∈ bs, ∀ more, Ends more → rest ≠ write b ++ more)
    (hlast' : ∀ a ∈ as, ∀ more, Ends more → rest' ≠ write a ++ more)
    (hrest : Ends rest) (hrest' : Ends rest')
    (h : as.flatMap write ++ rest = bs.flatMap write ++ rest') : as = bs ∧ rest = rest' := by
  induction as generalizing bs with
  | nil =>
    cases bs with
    | nil => exact ⟨rfl, h⟩
    | cons b bs =>
      -- What stands behind the pieces would begin with one more piece.
      rw [List.flatMap_nil, List.nil_append, List.flatMap_cons, List.append_assoc] at h
      rw [List.forall_mem_cons] at hnext' hlast
      exact absurd h (hlast.1 _ (ends_flatMap_append hnext'.2 hrest'))
  | cons a as ih =>
    rw [List.forall_mem_cons] at hnext hlast'
    cases bs with
    | nil =>
      rw [List.flatMap_nil, List.nil_append, List.flatMap_cons, List.append_assoc] at h
      exact absurd h.symm (hlast'.1 _ (ends_flatMap_append hnext.2 hrest))
    | cons b bs =>
      rw [List.forall_mem_cons] at hnext' hlast
      simp only [List.flatMap_cons, List.append_assoc] at h
      obtain ⟨rfl, hmore⟩ := hpiece a List.mem_cons_self b List.mem_cons_self
        (ends_flatMap_append hnext.2 hrest) (ends_flatMap_append hnext'.2 hrest') h
      obtain ⟨rfl, hrest⟩ := ih
        (fun a ha b hb => hpiece a (List.mem_cons_of_mem _ ha) b (List.mem_cons_of_mem _ hb))
        hnext.2 hnext'.2 hlast.2 hlast'.2 hmore
      exact ⟨rfl, hrest⟩

/-- Pieces whose ends are seen need nothing in between. -/
theorem SelfDelimiting.flatMap (hw : SelfDelimiting write) (Stops : List Char → Prop)
    (hstops : ∀ a more, ¬ Stops (write a ++ more)) (hrest : Stops rest) (hrest' : Stops rest')
    (h : as.flatMap write ++ rest = bs.flatMap write ++ rest') : as = bs ∧ rest = rest' :=
  flatMap_append_inj write (fun _ => True) (fun _ _ _ _ _ _ _ _ => @hw _ _ _ _)
    (fun _ _ _ => trivial) (fun _ _ _ => trivial)
    (fun b _ more _ hb => hstops b more (hb ▸ hrest))
    (fun a _ more _ ha => hstops a more (ha ▸ hrest')) trivial trivial h

theorem intercalate_cons (separator x : List Char) (xs : List (List Char)) :
    separator.intercalate (x :: xs) = x ++ xs.flatMap (separator ++ ·) := by
  induction xs generalizing x with
  | nil => rw [List.intercalate_singleton, List.flatMap_nil, List.append_nil]
  | cons y xs ih => rw [List.intercalate_cons_cons, ih, List.flatMap_cons, List.append_assoc,
      List.append_assoc]

/-- **Pieces with a separator in between.** -/
theorem intercalate_append_inj (write : α → List Char) (Ends : List Char → Prop)
    (separator : List Char) (has : as ≠ []) (hbs : bs ≠ [])
    (hpiece : ∀ a ∈ as, ∀ b ∈ bs, ∀ {more more'}, Ends more → Ends more' →
      write a ++ more = write b ++ more' → a = b ∧ more = more')
    (hseparator : ∀ more, Ends (separator ++ more))
    (hlast : ∀ b ∈ bs, ∀ more, Ends more → rest ≠ separator ++ (write b ++ more))
    (hlast' : ∀ a ∈ as, ∀ more, Ends more → rest' ≠ separator ++ (write a ++ more))
    (hrest : Ends rest) (hrest' : Ends rest')
    (h : separator.intercalate (as.map write) ++ rest =
      separator.intercalate (bs.map write) ++ rest') : as = bs ∧ rest = rest' := by
  obtain ⟨a, as, rfl⟩ := List.exists_cons_of_ne_nil has
  obtain ⟨b, bs, rfl⟩ := List.exists_cons_of_ne_nil hbs
  rw [List.map_cons, List.map_cons, intercalate_cons, intercalate_cons, List.append_assoc,
    List.append_assoc, List.flatMap_map, List.flatMap_map] at h
  rw [List.forall_mem_cons] at hlast hlast'
  have hnext : ∀ (cs : List α), ∀ c ∈ cs, ∀ more, Ends ((separator ++ write c) ++ more) := by
    intro cs c _ more
    rw [List.append_assoc]
    exact hseparator _
  obtain ⟨rfl, hmore⟩ := hpiece a List.mem_cons_self b List.mem_cons_self
    (ends_flatMap_append (hnext as) hrest) (ends_flatMap_append (hnext bs) hrest') h
  obtain ⟨rfl, hrest⟩ := flatMap_append_inj (fun c => separator ++ write c) Ends
    (fun a ha b hb more more' hmore hmore' h => by
      rw [List.append_assoc, List.append_assoc] at h
      exact hpiece a (List.mem_cons_of_mem _ ha) b (List.mem_cons_of_mem _ hb) hmore hmore'
        (List.append_cancel_left h))
    (hnext as) (hnext bs)
    (fun b hb more hmore h => hlast.2 b hb more hmore (by rw [h, List.append_assoc]))
    (fun a ha more hmore h => hlast'.2 a ha more hmore (by rw [h, List.append_assoc]))
    hrest hrest' hmore
  exact ⟨rfl, hrest⟩

end Pieces

/-- Characters of one kind end before one of another kind. -/
theorem append_inj_of_kind (kind : Char → Bool) : ∀ {xs ys : List Char},
    (∀ c ∈ xs, kind c = true) → (∀ c ∈ ys, kind c = true) → (∀ c ∈ rest.head?, kind c = false) →
      (∀ c ∈ rest'.head?, kind c = false) → xs ++ rest = ys ++ rest' → xs = ys ∧ rest = rest'
  | [], [], _, _, _, _, h => ⟨rfl, h⟩
  | [], y :: ys, _, hys, hrest, _, h => by
    rw [List.nil_append] at h
    have hy := hrest y (by rw [h]; rfl)
    rw [hys y List.mem_cons_self] at hy
    exact absurd hy (by decide)
  | x :: xs, [], hxs, _, _, hrest', h => by
    rw [List.nil_append] at h
    have hx := hrest' x (by rw [← h]; rfl)
    rw [hxs x List.mem_cons_self] at hx
    exact absurd hx (by decide)
  | x :: xs, y :: ys, hxs, hys, hrest, hrest', h => by
    obtain ⟨rfl, hmore⟩ := List.cons.inj h
    obtain ⟨rfl, hrest⟩ := append_inj_of_kind kind (List.forall_mem_cons.mp hxs).2
      (List.forall_mem_cons.mp hys).2 hrest hrest' hmore
    exact ⟨rfl, hrest⟩

/-! ### Digits -/

namespace Hex

theorem digitValue?_digit : ∀ n < 16, digitValue? (digit n) = some n := by
  decide

theorem digitValue?_digitChar : ∀ n < 16, digitValue? n.digitChar = some n := by
  decide

theorem digit_inj {m n : Nat} (hm : m < 16) (hn : n < 16) (h : digit m = digit n) : m = n := by
  have hvalue := digitValue?_digit m hm
  rw [h, digitValue?_digit n hn] at hvalue
  exact (Option.some.inj hvalue).symm

theorem digitChar_inj {m n : Nat} (hm : m < 16) (hn : n < 16)
    (h : Nat.digitChar m = Nat.digitChar n) : m = n := by
  have hvalue := digitValue?_digitChar m hm
  rw [h, digitValue?_digitChar n hn] at hvalue
  exact (Option.some.inj hvalue).symm

/-- The two digits of a byte determine it. -/
theorem pair_injective {b c : UInt8} (h : pair b = pair c) : b = c := by
  obtain ⟨hhigh, h⟩ := List.cons.inj h
  obtain ⟨hlow, -⟩ := List.cons.inj h
  have hb := b.toNat_lt
  have hc := c.toNat_lt
  have hdiv := digit_inj (by omega) (by omega) hhigh
  have hmod := digit_inj (by omega) (by omega) hlow
  exact UInt8.toNat_inj.mp (by omega)

end Hex

variable {base m n : Nat}

theorem exists_digitChar_of_mem_toDigits {c : Char} (hbase : 1 < base) (n : Nat)
    (h : c ∈ Nat.toDigits base n) : ∃ d, c = Nat.digitChar d := by
  induction n using Nat.strongRecOn with
  | ind n ih =>
    rw [Nat.toDigits_eq_if hbase] at h
    split at h
    · exact ⟨n, List.mem_singleton.mp h⟩
    · rcases List.mem_append.mp h with h | h
      · exact ih (n / base) (Nat.div_lt_self (by omega) hbase) h
      · exact ⟨_, List.mem_singleton.mp h⟩

/-- Digits up to base sixteen determine the number. -/
theorem toDigits_injective (hbase : 1 < base) (hsixteen : base ≤ 16)
    (h : Nat.toDigits base m = Nat.toDigits base n) : m = n := by
  have hlonger : ∀ {k : Nat} {c d : Char}, [c] ≠ Nat.toDigits base k ++ [d] := by
    intro k c d hk
    have hlength := congrArg List.length hk
    have hpos := Nat.length_toDigits_pos (b := base) (n := k)
    rw [List.length_singleton, List.length_append, List.length_singleton] at hlength
    omega
  induction m using Nat.strongRecOn generalizing n with
  | ind m ih =>
    rw [Nat.toDigits_eq_if hbase, Nat.toDigits_eq_if (n := n) hbase] at h
    split at h <;> split at h
    · exact Hex.digitChar_inj (by omega) (by omega) (List.cons.inj h).1
    · exact absurd h hlonger
    · exact absurd h.symm hlonger
    · -- The last digit is the remainder, the digits before it are those of the quotient.
      obtain ⟨hhigh, hlow⟩ := List.append_inj' h rfl
      have hm := Nat.mod_lt m (by omega : base > 0)
      have hn := Nat.mod_lt n (by omega : base > 0)
      have hdiv := ih (m / base) (Nat.div_lt_self (by omega) hbase) hhigh
      have hmod := Hex.digitChar_inj (by omega) (by omega) (List.cons.inj hlow).1
      rw [← Nat.div_add_mod m base, hdiv, hmod, Nat.div_add_mod]

/-- What may stand after a number. -/
def endsNumber (c : Char) : Bool :=
  c = '\x7d' || c = ','

/-- **A number is read** up to a brace or a comma. -/
theorem digits_append (hbase : 1 < base) (hsixteen : base ≤ 16) {c d : Char}
    (hc : endsNumber c = true) (hd : endsNumber d = true)
    (h : Nat.toDigits base m ++ c :: rest = Nat.toDigits base n ++ d :: rest') :
    m = n ∧ c = d ∧ rest = rest' := by
  have hdigits : ∀ k, ∀ e ∈ Nat.toDigits base k, (!endsNumber e) = true := by
    intro k e he
    obtain ⟨digit, rfl⟩ := exists_digitChar_of_mem_toDigits hbase k he
    simp [endsNumber, Nat.digitChar_ne '\x7d' rfl, Nat.digitChar_ne ',' rfl]
  obtain ⟨hnumber, hrest⟩ := append_inj_of_kind (fun e => !endsNumber e) (hdigits m)
    (hdigits n) (by simpa using hc) (by simpa using hd) h
  exact ⟨toDigits_injective hbase hsixteen hnumber, List.cons.inj hrest⟩

/-! ### Quotes -/

/-- The character that a letter after a backslash stands for. -/
def unescape? : Char → Option Char
  | '0' => some '\x00'
  | 't' => some '\t'
  | 'r' => some '\r'
  | 'n' => some '\n'
  | '"' => some '"'
  | '\\' => some '\\'
  | _ => none

/-- **How a character is written between quotes**: as it is, by a letter, or by its code. -/
inductive QuotedAs (c : Char) : List Char → Prop
  | plain : c ≠ '"' → c ≠ '\\' → QuotedAs c [c]
  | letter {e : Char} : unescape? e = some c → QuotedAs c ['\\', e]
  | code : QuotedAs c ('\\' :: 'u' :: '\x7b' :: (Nat.toDigits 16 c.toNat ++ ['\x7d']))

theorem quotedAs_quoteChar (c : Char) : QuotedAs c (quoteChar c).toList := by
  rw [quoteChar.eq_def]
  split
  iterate 6 exact .letter rfl
  rename_i hquote hbackslash
  split
  · rw [Char.toString_eq_singleton, String.toList_singleton]
    exact .plain hquote hbackslash
  · simp only [hexDigits, String.toList_append, String.toList_ofList]
    exact .code

theorem QuotedAs.unique {c d : Char} {xs ys : List Char} (hc : QuotedAs c xs) (hd : QuotedAs d ys)
    (h : xs ++ rest = ys ++ rest') : c = d ∧ rest = rest' := by
  cases hc with
  | plain hquote hbackslash =>
    cases hd with
    | plain => exact List.cons.inj h
    | letter | code => exact absurd (List.cons.inj h).1 hbackslash
  | @letter e he =>
    cases hd with
    | plain _ hbackslash => exact absurd (List.cons.inj h).1.symm hbackslash
    | letter he' =>
      obtain ⟨rfl, hrest⟩ := List.cons.inj (List.cons.inj h).2
      exact ⟨Option.some.inj (he.symm.trans he'), hrest⟩
    | code =>
      obtain ⟨rfl, -⟩ := List.cons.inj (List.cons.inj h).2
      exact absurd he (by simp [unescape?])
  | code =>
    cases hd with
    | plain _ hbackslash => exact absurd (List.cons.inj h).1.symm hbackslash
    | letter he' =>
      obtain ⟨rfl, -⟩ := List.cons.inj (List.cons.inj h).2
      exact absurd he' (by simp [unescape?])
    | code =>
      simp only [List.cons_append, List.append_assoc, List.cons.injEq, true_and,
        List.nil_append] at h
      obtain ⟨hcode, -, hrest⟩ := digits_append (by decide) (by decide) rfl rfl h
      exact ⟨Char.toNat_inj.mp hcode, hrest⟩

theorem QuotedAs.head_ne {c : Char} {xs : List Char} (h : QuotedAs c xs) (more : List Char) :
    (xs ++ more).head? ≠ some '"' := by
  cases h with
  | plain hquote => simpa using hquote
  | letter | code => simp

/-- **How a byte is written between quotes.** -/
inductive ShownAs (b : UInt8) : List Char → Prop
  | plain {c : Char} : c.toNat = b.toNat → c ≠ '"' → c ≠ '\\' → ShownAs b [c]
  | letter {e : Char} : e.toNat = b.toNat → e ≠ 'x' → ShownAs b ['\\', e]
  | code : ShownAs b ('\\' :: 'x' :: Hex.pair b)

theorem shownAs_showByte (b : UInt8) : ShownAs b (Literal.showByte b).toList := by
  have hb := b.toNat_lt
  have hchar : (Char.ofNat b.toNat).toNat = b.toNat := by
    rw [Char.ofNat, dif_pos (Or.inl (by omega))]
    rfl
  rw [Literal.showByte]
  split
  · rename_i hquote
    exact .letter (by rw [hquote]; rfl) (by decide)
  rename_i hquote
  split
  · rename_i hbackslash
    exact .letter (by rw [hbackslash]; rfl) (by decide)
  rename_i hbackslash
  split
  · rw [Char.toString_eq_singleton, String.toList_singleton]
    refine .plain hchar (fun h => hquote ?_) (fun h => hbackslash ?_)
    all_goals
      rw [h] at hchar
      exact UInt8.toNat_inj.mp hchar.symm
  · simp only [String.toList_append, String.toList_ofList]
    exact .code

theorem ShownAs.unique {b b' : UInt8} {xs ys : List Char} (hb : ShownAs b xs) (hb' : ShownAs b' ys)
    (h : xs ++ rest = ys ++ rest') : b = b' ∧ rest = rest' := by
  cases hb with
  | plain hc _ hbackslash =>
    cases hb' with
    | plain hc' =>
      obtain ⟨rfl, hrest⟩ := List.cons.inj h
      exact ⟨UInt8.toNat_inj.mp (hc.symm.trans hc'), hrest⟩
    | letter | code => exact absurd (List.cons.inj h).1 hbackslash
  | letter he hx =>
    cases hb' with
    | plain _ _ hbackslash => exact absurd (List.cons.inj h).1.symm hbackslash
    | letter he' =>
      obtain ⟨rfl, hrest⟩ := List.cons.inj (List.cons.inj h).2
      exact ⟨UInt8.toNat_inj.mp (he.symm.trans he'), hrest⟩
    | code => exact absurd (List.cons.inj (List.cons.inj h).2).1 hx
  | code =>
    cases hb' with
    | plain _ _ hbackslash => exact absurd (List.cons.inj h).1.symm hbackslash
    | letter _ hx => exact absurd (List.cons.inj (List.cons.inj h).2).1.symm hx
    | code =>
      obtain ⟨hpair, hrest⟩ := List.append_inj (List.cons.inj (List.cons.inj h).2).2 rfl
      exact ⟨Hex.pair_injective hpair, hrest⟩

theorem ShownAs.head_ne {b : UInt8} {xs : List Char} (h : ShownAs b xs) (more : List Char) :
    (xs ++ more).head? ≠ some '"' := by
  cases h with
  | plain _ hquote => simpa using hquote
  | letter | code => simp

/-! ### Literals -/

/-- **A literal is read back** from its text, whatever follows. -/
theorem Literal.selfDelimiting_toSpec : SelfDelimiting fun v : Literal => v.toSpec.toList := by
  have hchars : SelfDelimiting fun c => (quoteChar c).toList := fun c d _ _ =>
    (quotedAs_quoteChar c).unique (quotedAs_quoteChar d)
  have hbytes : SelfDelimiting fun b => (showByte b).toList := fun b b' _ _ =>
    (shownAs_showByte b).unique (shownAs_showByte b')
  rintro (s | bs) (t | cs) rest rest' h <;>
    simp only [toSpec, quote, String.toList_append, String.toList_join, List.flatMap_map,
      List.append_assoc, String.reduceToList, List.cons_append, List.nil_append,
      List.cons.injEq] at h
  · obtain ⟨hst, hrest⟩ := hchars.flatMap (fun r => r.head? = some '"')
      (fun c => (quotedAs_quoteChar c).head_ne) rfl rfl h.2
    exact ⟨congrArg _ (String.toList_inj.mp hst), (List.cons.inj hrest).2⟩
  · exact absurd h.1 (by decide)
  · exact absurd h.1 (by decide)
  · obtain ⟨rfl, hrest⟩ := hbytes.flatMap (fun r => r.head? = some '"')
      (fun b => (shownAs_showByte b).head_ne) rfl rfl h.2.2
    exact ⟨rfl, (List.cons.inj hrest).2⟩

end GrammarFuzzing
