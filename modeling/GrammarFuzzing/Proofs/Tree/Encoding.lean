import GrammarFuzzing.Proofs.Text.ReadBack
import GrammarFuzzing.Proofs.Tree.Shape
import GrammarFuzzing.Tree.Shape

/-!
# The shape of a tree can be read back from its bytes

`GrammarFuzzing.Tree.encodeShape` writes the shape of a tree as bytes. All lengths and counts are
written with 64 bits, so two shapes are told apart as long as those numbers fit
(`GrammarFuzzing.Tree.CountsFit`).

Bytes that begin with the shape of a tree begin with no other shape
(`GrammarFuzzing.Tree.sameShape_of_encodeShape_append`). This is what an induction over trees can
prove: a child is followed by its siblings, so it has to be recognized whatever follows. The pieces
that a shape is written with – counts, sized texts, symbols – are shown to have this property one
after the other. That the encoding is injective, and no encoding an initial part of another
(`GrammarFuzzing.Tree.sameShape_of_isPrefix`), are its special cases.
-/

namespace GrammarFuzzing

/-- **A text is determined by its bytes.** -/
theorem Utf8.encode_injective {s t : String} (h : Utf8.encode s = Utf8.encode t) : s = t := by
  have hread := Utf8.decode?_encode s
  rw [h, Utf8.decode?_encode] at hread
  exact (Option.some.inj hread).symm

namespace Md5

@[simp] theorem length_lowFirst : ∀ (k n : Nat), (lowFirst k n).length = k
  | 0, _ => rfl
  | k + 1, n => by rw [lowFirst, List.length_cons, length_lowFirst]

/-- A number that the bytes can hold is determined by them. -/
theorem eq_of_lowFirst_eq : ∀ {k m n : Nat}, m < Nat.pow 256 k → n < Nat.pow 256 k →
    lowFirst k m = lowFirst k n → m = n
  | 0, _, _, hm, hn, _ => (Nat.lt_one_iff.mp hm).trans (Nat.lt_one_iff.mp hn).symm
  | k + 1, m, n, hm, hn, h => by
    obtain ⟨hlow, hrest⟩ := List.cons.inj h
    have hmod : m % 256 = n % 256 := by
      have := congrArg UInt8.toNat hlow
      rwa [UInt8.toNat_ofNat', UInt8.toNat_ofNat'] at this
    have hdiv : m / 256 = n / 256 :=
      eq_of_lowFirst_eq (Nat.div_lt_of_lt_mul (Nat.mul_comm _ _ ▸ hm))
        (Nat.div_lt_of_lt_mul (Nat.mul_comm _ _ ▸ hn)) hrest
    omega

end Md5

/-- The number of bytes that the content of a symbol has. -/
def Symbol.contentSize : Symbol → Nat
  | .terminal value => value.size
  | .nonTerminal name => (Utf8.encode name).length
  | .slice => 0

namespace Tree

/-! ### Counts and symbols -/

/-- Whether a count can be written with 64 bits. -/
def Fits64 (n : Nat) : Prop :=
  n < Nat.pow 2 64

instance (n : Nat) : Decidable (Fits64 n) :=
  inferInstanceAs (Decidable (n < Nat.pow 2 64))

variable {rest rest' : Bytes}

/-- **A count is read back**, whatever follows. -/
theorem encodeCount_append {m n : Nat} (hm : Fits64 m) (hn : Fits64 n)
    (h : encodeCount m ++ rest = encodeCount n ++ rest') : m = n ∧ rest = rest' := by
  obtain ⟨hcount, hrest⟩ := List.append_inj h (by simp [encodeCount])
  have hbytes : Nat.pow 2 64 = Nat.pow 256 8 := rfl
  exact ⟨Md5.eq_of_lowFirst_eq (hbytes ▸ hm) (hbytes ▸ hn) hcount, hrest⟩

/-- **So are bytes** that stand after their number. -/
theorem encodeSized_append {b c : Bytes} (hb : Fits64 b.length) (hc : Fits64 c.length)
    (h : encodeSized b ++ rest = encodeSized c ++ rest') : b = c ∧ rest = rest' := by
  rw [encodeSized, encodeSized, List.append_assoc, List.append_assoc] at h
  obtain ⟨hlength, hrest⟩ := encodeCount_append hb hc h
  exact List.append_inj hrest hlength

/-- **So are symbols.** Their first byte tells the kind. -/
theorem encodeSymbol_append {s t : Symbol} (hs : Fits64 s.contentSize) (ht : Fits64 t.contentSize)
    (h : encodeSymbol s ++ rest = encodeSymbol t ++ rest') : s = t ∧ rest = rest' := by
  rcases s with (text | bytes) | name | _ <;> rcases t with (text' | bytes') | name' | _
  case terminal.text.terminal.text =>
    obtain ⟨hbytes, hrest⟩ := encodeSized_append hs ht (List.cons.inj h).2
    exact ⟨by rw [Utf8.encode_injective hbytes], hrest⟩
  case terminal.bytes.terminal.bytes =>
    obtain ⟨rfl, hrest⟩ := encodeSized_append hs ht (List.cons.inj h).2
    exact ⟨rfl, hrest⟩
  case nonTerminal.nonTerminal =>
    obtain ⟨hbytes, hrest⟩ := encodeSized_append hs ht (List.cons.inj h).2
    exact ⟨by rw [Utf8.encode_injective hbytes], hrest⟩
  case slice.slice => exact ⟨rfl, (List.cons.inj h).2⟩
  all_goals exact absurd (List.cons.inj h).1 (by decide)

/-! ### Trees -/

mutual

/-- **All lengths and counts in a tree can be written with 64 bits**: those of the contents of its
symbols, and the numbers of children. -/
def CountsFit : Tree → Prop
  | ⟨symbol, children, _, _, _, _⟩ =>
    Fits64 symbol.contentSize ∧ Fits64 children.length ∧ ListCountsFit children

/-- All lengths and counts in several trees can be written with 64 bits. -/
def ListCountsFit : List Tree → Prop
  | [] => True
  | t :: rest => t.CountsFit ∧ ListCountsFit rest

end

mutual

/-- **Bytes that begin with the shape of a tree begin with no other shape.** -/
theorem sameShape_of_encodeShape_append : ∀ {t u : Tree} {rest rest' : Bytes}, t.CountsFit →
    u.CountsFit → t.encodeShape ++ rest = u.encodeShape ++ rest' → t.SameShape u ∧ rest = rest'
  | ⟨symbol, children, _, _, _, _⟩, ⟨symbol', children', _, _, _, _⟩, rest, rest',
      ⟨hsymbol, hcount, hchildren⟩, ⟨hsymbol', hcount', hchildren'⟩, h => by
    rw [encodeShape, encodeShape] at h
    simp only [List.append_assoc] at h
    obtain ⟨rfl, hafter⟩ := encodeSymbol_append hsymbol hsymbol' h
    obtain ⟨hlength, hafter⟩ := encodeCount_append hcount hcount' hafter
    obtain ⟨hall, hrest⟩ :=
      sameShape_of_listEncodeShape_append hchildren hchildren' hlength hafter
    exact ⟨sameShape_iff.mpr ⟨rfl, hall⟩, hrest⟩

theorem sameShape_of_listEncodeShape_append : ∀ {ts us : List Tree} {rest rest' : Bytes},
    ListCountsFit ts → ListCountsFit us → ts.length = us.length →
      listEncodeShape ts ++ rest = listEncodeShape us ++ rest' →
        List.Forall₂ SameShape ts us ∧ rest = rest'
  | [], [], _, _, _, _, _, h => ⟨.nil, by simpa [listEncodeShape] using h⟩
  | [], _ :: _, _, _, _, _, hlength, _ | _ :: _, [], _, _, _, _, hlength, _ =>
    absurd hlength (by simp)
  | t :: ts, u :: us, rest, rest', ⟨ht, hts⟩, ⟨hu, hus⟩, hlength, h => by
    rw [listEncodeShape, listEncodeShape, List.append_assoc, List.append_assoc] at h
    obtain ⟨hhead, h⟩ := sameShape_of_encodeShape_append ht hu h
    obtain ⟨htail, hrest⟩ :=
      sameShape_of_listEncodeShape_append hts hus (Nat.succ.inj hlength) h
    exact ⟨.cons hhead htail, hrest⟩

end

mutual

/-- The encoding reads symbols and nothing else. -/
theorem encodeShape_skeleton : ∀ (t : Tree), t.skeleton.encodeShape = t.encodeShape
  | ⟨symbol, children, _, _, _, _⟩ => by
    rw [skeleton, encodeShape, encodeShape, listEncodeShape_skeleton, listSkeleton_eq_map,
      List.length_map]

theorem listEncodeShape_skeleton : ∀ (ts : List Tree),
    listEncodeShape (listSkeleton ts) = listEncodeShape ts
  | [] => by rw [listSkeleton]
  | t :: ts => by
    rw [listSkeleton, listEncodeShape, listEncodeShape, encodeShape_skeleton,
      listEncodeShape_skeleton]

end

theorem SameShape.encodeShape_eq {t u : Tree} (h : t.SameShape u) :
    t.encodeShape = u.encodeShape := by
  rw [← encodeShape_skeleton t, h, encodeShape_skeleton]

/-- **The encoding is injective on shapes.** -/
theorem encodeShape_eq_iff {t u : Tree} (ht : t.CountsFit) (hu : u.CountsFit) :
    t.encodeShape = u.encodeShape ↔ t.SameShape u := by
  refine ⟨fun h => ?_, SameShape.encodeShape_eq⟩
  exact (sameShape_of_encodeShape_append ht hu (congrArg (· ++ []) h)).1

/-- **No encoding is a proper initial part of another.** -/
theorem sameShape_of_isPrefix {t u : Tree} (ht : t.CountsFit) (hu : u.CountsFit)
    (h : t.encodeShape <+: u.encodeShape) : t.SameShape u := by
  obtain ⟨rest, hrest⟩ := h
  exact (sameShape_of_encodeShape_append ht hu (hrest.trans (List.append_nil _).symm)).1

end Tree

end GrammarFuzzing
