import GrammarFuzzing.Number.Reading
import GrammarFuzzing.Text.Blank
import GrammarFuzzing.Text.Utf8
import Mathlib.Tactic.SplitIfs

/-!
# What is written is read back

* The machine that reads UTF-8 gives back each character from its bytes
  (`GrammarFuzzing.Utf8.emits_utf8EncodeChar`), so a text that was written as bytes is read back
  (`GrammarFuzzing.Utf8.decode?_encode`), with nothing replaced
  (`GrammarFuzzing.Utf8.decodeLossy_encode`). The first byte of a character sets the range in which
  the second one must lie; that the second byte does lie there is because characters are shortest
  forms, no surrogates and not beyond the last code point.
* The first bytes of a text are a text only if they are the bytes of its first characters
  (`GrammarFuzzing.Utf8.encode_of_decode?`): the machine does the same on them as on the text.
* An integer of 64 bits that was written in decimal digits is read back
  (`GrammarFuzzing.readInt64?_toString`), and there are no blanks around it to be removed.
-/

namespace GrammarFuzzing

/-! ### Characters -/

namespace Utf8

/-- **The machine reads a character**: it waits until the last of these bytes completes it. -/
inductive Emits : State → Bytes → Char → Prop
  | last {s : State} {b : UInt8} {c : Char} : feed s b = .emit c → Emits s [b] c
  | more {s next : State} {b : UInt8} {bs : Bytes} {c : Char} :
    feed s b = .wait next → Emits next bs c → Emits s (b :: bs) c

variable {s : State} {bs bs' rest rest' : Bytes} {c c' : Char}

/-- Ill-formed parts are no matter while a character is read. -/
theorem Emits.charsLossyFrom (h : Emits s bs c) :
    charsLossyFrom s (bs ++ rest) = c :: charsLossyFrom .idle rest := by
  induction h with
  | @last s b c hb => cases s <;> simp only [List.singleton_append, Utf8.charsLossyFrom, hb]
  | @more s next b bs c hb _ ih =>
    rw [← ih]
    cases s <;> simp only [List.cons_append, Utf8.charsLossyFrom, hb]

theorem Emits.charsFrom? (h : Emits s bs c) :
    charsFrom? s (bs ++ rest) = (charsFrom? .idle rest).map (c :: ·) := by
  induction h with
  | @last s b c hb => cases s <;> simp only [List.singleton_append, Utf8.charsFrom?, hb]
  | @more s next b bs c hb _ ih =>
    rw [← ih]
    cases s <;> simp only [List.cons_append, Utf8.charsFrom?, hb]

/-- **The machine reads at most one character** from the first bytes it is fed. -/
theorem Emits.unique (h : Emits s bs c) (h' : Emits s bs' c')
    (happend : bs ++ rest = bs' ++ rest') :
    bs = bs' ∧ c = c' := by
  induction h generalizing bs' with
  | @last s b c hb =>
    cases h' with
    | last hb' =>
      obtain ⟨rfl, -⟩ := List.cons.inj happend
      exact ⟨rfl, Step.emit.inj (hb.symm.trans hb')⟩
    | more hb' _ =>
      obtain ⟨rfl, -⟩ := List.cons.inj happend
      exact Step.noConfusion (hb.symm.trans hb')
  | @more s next b bs c hb _ ih =>
    cases h' with
    | last hb' =>
      obtain ⟨rfl, -⟩ := List.cons.inj happend
      exact Step.noConfusion (hb.symm.trans hb')
    | more hb' hbs' =>
      obtain ⟨rfl, htail⟩ := List.cons.inj happend
      obtain rfl := Step.wait.inj (hb.symm.trans hb')
      obtain ⟨rfl, rfl⟩ := ih hbs' htail
      exact ⟨rfl, rfl⟩

/-- A machine that waits is inside a character. -/
theorem feed_ne_wait_idle (s : State) (b : UInt8) : feed s b ≠ .wait .idle := by
  cases s with
  | idle =>
    rw [feed, lead]
    split_ifs <;> simp
  | inside bits owed lo hi =>
    rw [feed]
    split
    · cases owed <;> simp
    · simp

/-- Well-formed bytes are nothing, between characters, or begin with a character. -/
theorem emits_of_charsFrom? : ∀ {s : State} {bs : Bytes} {cs : List Char},
    charsFrom? s bs = some cs → (s = .idle ∧ bs = [] ∧ cs = []) ∨
      ∃ c cs' bs' rest, bs = bs' ++ rest ∧ cs = c :: cs' ∧ Emits s bs' c ∧
        charsFrom? .idle rest = some cs'
  | .idle, [], cs, h => Or.inl ⟨rfl, rfl, (Option.some.inj h).symm⟩
  | .inside .., [], cs, h => absurd h (by simp [Utf8.charsFrom?])
  | .idle, b :: bs, cs, h | .inside .., b :: bs, cs, h => by
    rw [Utf8.charsFrom?] at h
    split at h
    · rename_i next hb
      rcases emits_of_charsFrom? h with ⟨rfl, rfl, rfl⟩ | ⟨c, cs', bs', rest, rfl, rfl, hbs', hrest⟩
      · exact absurd hb (feed_ne_wait_idle _ b)
      · exact Or.inr ⟨c, cs', b :: bs', rest, rfl, rfl, .more hb hbs', hrest⟩
    · rename_i c hb
      obtain ⟨cs', hcs', rfl⟩ := Option.map_eq_some_iff.mp h
      exact Or.inr ⟨c, cs', [b], bs, rfl, rfl, .last hb, hcs'⟩
    · exact absurd h (by simp)

variable {bits owed lo hi : Nat} {b : UInt8}

/-- A byte in the range that is not the last one of its character. -/
theorem feed_inside_succ (hlo : lo ≤ b.toNat) (hhi : b.toNat ≤ hi) :
    feed (.inside bits (owed + 1) lo hi) b =
      .wait (.inside (bits * 64 + (b.toNat - 0x80)) owed 0x80 0xbf) := by
  simp [feed, hlo, hhi]

/-- The last byte of a character. -/
theorem feed_inside_zero (hlo : lo ≤ b.toNat) (hhi : b.toNat ≤ hi) :
    feed (.inside bits 0 lo hi) b = .emit (Char.ofNat (bits * 64 + (b.toNat - 0x80))) := by
  simp [feed, hlo, hhi]

variable {v : Nat}

theorem lead_of_two (hlow : 127 < v) (hhigh : v ≤ 2047) :
    lead (v / 64 + 192) = .wait (.inside (v / 64) 0 0x80 0xbf) := by
  have hle : v / 64 ≤ 31 := by omega
  have hge : 2 ≤ v / 64 := by omega
  rw [lead, if_neg (by omega), if_neg (by omega), if_pos (by omega), Nat.add_sub_cancel]

theorem lead_of_three (hlow : 2047 < v) (hhigh : v ≤ 65535) (hscalar : v < 0xd800 ∨ 0xdfff < v) :
    ∃ lo hi, lead (v / 4096 + 224) = .wait (.inside (v / 4096) 1 lo hi) ∧
      lo ≤ v / 64 % 64 + 128 ∧ v / 64 % 64 + 128 ≤ hi := by
  have hle : v / 4096 ≤ 15 := by omega
  rw [lead, if_neg (by omega), if_neg (by omega), if_neg (by omega)]
  split_ifs with hfirst hlast
  · have hzero : v / 4096 = 0 := by omega
    exact ⟨_, _, by rw [hzero], by omega, by omega⟩
  · have htop : v / 4096 = 0xd := by omega
    exact ⟨_, _, by rw [htop], by omega, by omega⟩
  · rw [Nat.add_sub_cancel]
    exact ⟨_, _, rfl, by omega, by omega⟩
  all_goals omega

theorem lead_of_four (hlow : 65535 < v) (hhigh : v ≤ 0x10ffff) :
    ∃ lo hi, lead (v / 262144 + 240) = .wait (.inside (v / 262144) 2 lo hi) ∧
      lo ≤ v / 4096 % 64 + 128 ∧ v / 4096 % 64 + 128 ≤ hi := by
  have hle : v / 262144 ≤ 4 := by omega
  rw [lead, if_neg (by omega), if_neg (by omega), if_neg (by omega), if_neg (by omega),
    if_neg (by omega), if_neg (by omega)]
  split_ifs with hfirst hmiddle hlast
  · have hzero : v / 262144 = 0 := by omega
    exact ⟨_, _, by rw [hzero], by omega, by omega⟩
  · rw [Nat.add_sub_cancel]
    exact ⟨_, _, rfl, by omega, by omega⟩
  · have htop : v / 262144 = 4 := by omega
    exact ⟨_, _, by rw [htop], by omega, by omega⟩
  all_goals omega

/-- A byte is the number it was made from. -/
theorem toNat_ofNat {n : Nat} (h : n < 256) : (UInt8.ofNat n).toNat = n := by
  rw [UInt8.toNat_ofNat', Nat.mod_eq_of_lt h]

/-- The code of a character is none of a surrogate and not beyond the last one. -/
theorem code_valid (c : Char) :
    (c.val.toNat < 0xd800 ∨ 0xdfff < c.val.toNat) ∧ c.val.toNat ≤ 0x10ffff := by
  have h := c.valid
  rw [UInt32.isValidChar, Nat.isValidChar] at h
  omega

/-- **A character is read back from its bytes.** -/
theorem emits_utf8EncodeChar (c : Char) : Emits .idle (String.utf8EncodeChar c) c := by
  obtain ⟨hscalar, hlast⟩ := code_valid c
  have hc : ∀ n, n = c.val.toNat → Char.ofNat n = c := by
    rintro n rfl
    exact Char.ofNat_toNat c
  rw [String.utf8EncodeChar]
  generalize c.val.toNat = v at hscalar hlast hc
  -- The bytes after the first one carry six bits each.
  have htail : ∀ n, (UInt8.ofNat (n % 64 + 128)).toNat = n % 64 + 128 := fun n =>
    toNat_ofNat (by omega)
  split_ifs with hone htwo hthree
  · refine .last ?_
    rw [feed, toNat_ofNat (by omega), lead, if_pos (by omega), hc v rfl]
  · have hfirst : (UInt8.ofNat (v / 64 % 32 + 192)).toNat = v / 64 + 192 := by
      rw [toNat_ofNat (by omega)]
      omega
    refine .more (hfirst ▸ lead_of_two (by omega) htwo) (.last ?_)
    rw [feed_inside_zero (by rw [htail]; omega) (by rw [htail]; omega), htail, hc _ (by omega)]
  · have hfirst : (UInt8.ofNat (v / 4096 % 16 + 224)).toNat = v / 4096 + 224 := by
      rw [toNat_ofNat (by omega)]
      omega
    obtain ⟨lo, hi, hlead, hlo, hhi⟩ := lead_of_three (by omega) hthree hscalar
    refine .more (hfirst ▸ hlead)
      (.more (feed_inside_succ (by rw [htail]; exact hlo) (by rw [htail]; exact hhi)) (.last ?_))
    rw [feed_inside_zero (by rw [htail]; omega) (by rw [htail]; omega), htail, htail,
      hc _ (by omega)]
  · have hfirst : (UInt8.ofNat (v / 262144 % 8 + 240)).toNat = v / 262144 + 240 := by
      rw [toNat_ofNat (by omega)]
      omega
    obtain ⟨lo, hi, hlead, hlo, hhi⟩ := lead_of_four (by omega) hlast
    refine .more (hfirst ▸ hlead)
      (.more (feed_inside_succ (by rw [htail]; exact hlo) (by rw [htail]; exact hhi))
        (.more (feed_inside_succ (by rw [htail]; omega) (by rw [htail]; omega)) (.last ?_)))
    rw [feed_inside_zero (by rw [htail]; omega) (by rw [htail]; omega), htail, htail, htail,
      hc _ (by omega)]

/-- **A text is read back from its bytes**, with nothing replaced. -/
theorem decodeLossy_encode (s : String) : decodeLossy (encode s) = s := by
  have hchars : ∀ cs : List Char,
      charsLossyFrom .idle (cs.flatMap String.utf8EncodeChar) = cs := by
    intro cs
    induction cs with
    | nil => rfl
    | cons c cs ih => rw [List.flatMap_cons, (emits_utf8EncodeChar c).charsLossyFrom, ih]
  rw [decodeLossy, encode, hchars, String.ofList_toList]

/-- **The bytes of a text are well-formed**, and are read as the text. -/
theorem decode?_encode (s : String) : decode? (encode s) = some s := by
  have hchars : ∀ cs : List Char,
      charsFrom? .idle (cs.flatMap String.utf8EncodeChar) = some cs := by
    intro cs
    induction cs with
    | nil => rfl
    | cons c cs ih =>
      rw [List.flatMap_cons, (emits_utf8EncodeChar c).charsFrom?, ih, Option.map_some]
  rw [decode?, encode, hchars, Option.map_some, String.ofList_toList]

/-- **The first bytes of a text that are well-formed** are the bytes of what they are read as. -/
theorem encode_of_decode? {s t : String} {bytes : Bytes} (hstarts : bytes <+: encode s)
    (h : decode? bytes = some t) : encode t = bytes := by
  have hchars : ∀ (all cs : List Char) (bytes : Bytes),
      bytes <+: all.flatMap String.utf8EncodeChar → charsFrom? .idle bytes = some cs →
        cs.flatMap String.utf8EncodeChar = bytes := by
    intro all
    induction all with
    | nil =>
      intro cs bytes hstarts h
      rw [List.flatMap_nil, List.prefix_nil] at hstarts
      subst hstarts
      obtain rfl := Option.some.inj h
      rfl
    | cons d all ih =>
      intro cs bytes hstarts h
      rcases emits_of_charsFrom? h with ⟨-, rfl, rfl⟩ | ⟨c, cs', bs, rest, rfl, rfl, hbs, hrest⟩
      · rfl
      · obtain ⟨more, hmore⟩ := hstarts
        rw [List.flatMap_cons, List.append_assoc] at hmore
        obtain ⟨rfl, rfl⟩ := hbs.unique (emits_utf8EncodeChar d) hmore
        rw [List.flatMap_cons, ih cs' rest ⟨more, List.append_cancel_left hmore⟩ hrest]
  obtain ⟨cs, hcs, rfl⟩ := Option.map_eq_some_iff.mp h
  rw [encode, String.toList_ofList]
  exact hchars _ _ _ hstarts hcs

end Utf8

/-! ### Integers -/

theorem decimalDigit?_of_isDigit {c : Char} (h : c.isDigit = true) :
    decimalDigit? c = some (c.toNat - '0'.toNat) := by
  simp only [Char.isDigit, Bool.and_eq_true, decide_eq_true_eq] at h
  have hc : ('0' ≤ c && c ≤ '9') = true := by
    rw [Bool.and_eq_true, decide_eq_true_eq, decide_eq_true_eq]
    exact h
  rw [decimalDigit?, if_pos hc]

theorem digitsValueFrom?_of_isDigit {cs : List Char} (h : ∀ c ∈ cs, c.isDigit = true) (acc : Nat) :
    digitsValueFrom? acc cs = some (Nat.ofDigitChars 10 cs acc) := by
  induction cs generalizing acc with
  | nil => rfl
  | cons c cs ih =>
    rw [List.forall_mem_cons] at h
    rw [digitsValueFrom?, decimalDigit?_of_isDigit h.1]
    exact ih h.2 _

theorem isDigit_toDigits (n : Nat) : ∀ c ∈ Nat.toDigits 10 n, c.isDigit = true :=
  fun _ hc => Nat.isDigit_of_mem_toDigits (by decide) (by decide) hc

/-- Digits are read as the number they write. -/
theorem digitsValue?_of_isDigit {cs : List Char} (hne : cs ≠ []) (h : ∀ c ∈ cs, c.isDigit = true) :
    digitsValue? cs = some (Nat.ofDigitChars 10 cs 0) := by
  rw [digitsValue?]
  · exact digitsValueFrom?_of_isDigit h 0
  · exact hne

/-- **The digits of a number are read back.** -/
theorem digitsValue?_toDigits (n : Nat) : digitsValue? (Nat.toDigits 10 n) = some n := by
  rw [digitsValue?_of_isDigit Nat.toDigits_ne_nil (isDigit_toDigits n),
    Nat.ofDigitChars_ten_toDigits]

/-- Digits have no sign in front. -/
theorem splitSign_toDigits (n : Nat) :
    splitSign (Nat.toDigits 10 n) = (false, Nat.toDigits 10 n) := by
  have hdigits := isDigit_toDigits n
  rw [splitSign.eq_def]
  split
  · rename_i rest h
    exact absurd (hdigits '+' (h ▸ List.mem_cons_self)) (by decide)
  · rename_i rest h
    exact absurd (hdigits '-' (h ▸ List.mem_cons_self)) (by decide)
  · rfl

/-- **An integer of 64 bits is read back** from its decimal digits. -/
theorem readInt64?_toString {n : Int} (hmin : int64Min ≤ n) (hmax : n ≤ int64Max) :
    readInt64? (toString n) = some n := by
  have hrange : int64Min ≤ n ∧ n ≤ int64Max := ⟨hmin, hmax⟩
  cases n with
  | ofNat k =>
    have hchars : (toString (Int.ofNat k)).toList = Nat.toDigits 10 k := Nat.toList_repr
    rw [readInt64?, hchars, splitSign_toDigits]
    simp only [digitsValue?_toDigits]
    exact if_pos hrange
  | negSucc k =>
    have hchars : (toString (Int.negSucc k)).toList = '-' :: Nat.toDigits 10 (k + 1) := by
      change ("-" ++ (k + 1).repr).toList = _
      rw [String.toList_append, Nat.toList_repr]
      rfl
    rw [readInt64?, hchars, splitSign]
    simp only [digitsValue?_toDigits, if_true]
    exact if_pos hrange

/-- A text without blanks is as it is without blanks around it. -/
theorem trim_of_not_isBlank {s : String} (h : ∀ c ∈ s.toList, isBlank c = false) : trim s = s := by
  have hdrop : ∀ {cs : List Char}, (∀ c ∈ cs, isBlank c = false) → cs.dropWhile isBlank = cs := by
    intro cs hcs
    cases cs with
    | nil => rfl
    | cons c cs => rw [List.dropWhile_cons, hcs c List.mem_cons_self, if_neg Bool.false_ne_true]
  rw [trim, hdrop h, hdrop fun c hc => h c (List.mem_reverse.mp hc), List.reverse_reverse,
    String.ofList_toList]

theorem isBlank_of_isDigit {c : Char} (h : c.isDigit = true) : isBlank c = false := by
  simp only [Char.isDigit, Bool.and_eq_true, decide_eq_true_eq] at h
  have hlow : 48 ≤ c.toNat := h.1
  have hhigh : c.toNat ≤ 57 := h.2
  simp only [isBlank, Bool.or_eq_false_iff, Bool.and_eq_false_iff, decide_eq_false_iff_not,
    beq_eq_false_iff_ne]
  omega

/-- There is no blank in an integer. -/
theorem trim_toString (n : Int) : trim (toString n) = toString n := by
  refine trim_of_not_isBlank fun c hc => ?_
  cases n with
  | ofNat k =>
    have hchars : (toString (Int.ofNat k)).toList = Nat.toDigits 10 k := Nat.toList_repr
    exact isBlank_of_isDigit (isDigit_toDigits k c (hchars ▸ hc))
  | negSucc k =>
    change c ∈ ("-" ++ (k + 1).repr).toList at hc
    rw [String.toList_append, Nat.toList_repr, List.mem_append] at hc
    rcases hc with hc | hc
    · obtain rfl : c = '-' := by simpa using hc
      decide
    · exact isBlank_of_isDigit (isDigit_toDigits _ c hc)

end GrammarFuzzing
