import GrammarFuzzing.Packet.Forecast
import GrammarFuzzing.Proofs.Grammar.Validity
import GrammarFuzzing.Tree.Message
import Mathlib.Data.List.Basic
import Mathlib.Data.Nat.Digits.Lemmas

/-!
# Histories written as tokens

A history is read by writing each of its packets as a token, a number between angle brackets. No
digit closes a bracket, so tokens written one after the other can be told apart
(`GrammarFuzzing.Reduction.join_token_inj`), and bytes that write one history write no other.

`GrammarFuzzing.Reduction.Writes` says that bytes write the packets of some messages. It only speaks
of the types of the messages, their sender, recipient and symbol. Whatever writes messages writes
the histories of their types, and those alone (`GrammarFuzzing.Reduction.Writes.tokens?_iff`).
-/

namespace GrammarFuzzing

/-! ### Bytes of texts -/

namespace Utf8

theorem encode_append (s t : String) : encode (s ++ t) = encode s ++ encode t := by
  rw [encode, String.toList_append, List.flatMap_append]
  rfl

/-- Different texts have different bytes. -/
theorem encode_inj {s t : String} : encode s = encode t ↔ s = t := by
  rw [← String.toByteArray_inj, ← String.utf8Encode_toList, ← String.utf8Encode_toList,
    List.utf8Encode, List.utf8Encode, List.toByteArray_inj]
  rfl

end Utf8

namespace Reduction

/-! ### Tokens -/

theorem toList_token (k : Nat) : (token k).toList = '<' :: (Nat.toDigits 10 k ++ ['>']) := by
  simp [token, angled]

theorem close_notMem_toDigits (k : Nat) : '>' ∉ Nat.toDigits 10 k :=
  fun h => absurd (Nat.isDigit_of_mem_toDigits (by decide) (by decide) h) (by decide)

/-- Lists are told apart at the first mark. -/
theorem append_cons_inj {α : Type} {mark : α} : ∀ {xs ys us vs : List α}, mark ∉ xs → mark ∉ ys →
    xs ++ mark :: us = ys ++ mark :: vs → xs = ys ∧ us = vs
  | [], [], _, _, _, _, h => ⟨rfl, (List.cons.inj h).2⟩
  | [], y :: _, _, _, _, hys, h => absurd ((List.cons.inj h).1 ▸ List.mem_cons_self) hys
  | x :: _, [], _, _, hxs, _, h => absurd ((List.cons.inj h).1 ▸ List.mem_cons_self) hxs
  | x :: _, y :: _, _, _, hxs, hys, h => by
    obtain ⟨rfl, htail⟩ := List.cons.inj h
    obtain ⟨rfl, hrest⟩ := append_cons_inj (fun hm => hxs (List.mem_cons_of_mem _ hm))
      (fun hm => hys (List.mem_cons_of_mem _ hm)) htail
    exact ⟨rfl, hrest⟩

theorem toList_join_token_cons (k : Nat) (ks : List Nat) :
    (String.join ((k :: ks).map token)).toList =
      '<' :: (Nat.toDigits 10 k ++ '>' :: (String.join (ks.map token)).toList) := by
  rw [List.map_cons, String.join_cons, String.toList_append, toList_token, List.cons_append,
    List.append_assoc]
  rfl

/-- **Tokens in a row can be told apart**: each ends at its closing bracket. -/
theorem join_token_inj {ks js : List Nat} :
    String.join (ks.map token) = String.join (js.map token) ↔ ks = js := by
  refine ⟨fun h => ?_, fun h => h ▸ rfl⟩
  rw [← String.toList_inj] at h
  induction ks generalizing js with
  | nil =>
    cases js with
    | nil => rfl
    | cons j js =>
      rw [toList_join_token_cons] at h
      exact absurd h (List.cons_ne_nil _ _).symm
  | cons k ks ih =>
    rw [toList_join_token_cons] at h
    cases js with
    | nil => exact absurd h (List.cons_ne_nil _ _)
    | cons j js =>
      rw [toList_join_token_cons] at h
      obtain ⟨hdigits, hrest⟩ := append_cons_inj (close_notMem_toDigits k)
        (close_notMem_toDigits j) (List.cons.inj h).2
      have hkj : k = j := by
        rw [← Nat.ofDigitChars_ten_toDigits (n := k), hdigits, Nat.ofDigitChars_ten_toDigits]
      rw [hkj, ih hrest]

/-! ### Tokens as bytes -/

/-- A digit closes no bracket, as bytes either. -/
theorem close_notMem_utf8EncodeChar {c : Char} (h : c.isDigit = true) :
    (0x3e : UInt8) ∉ String.utf8EncodeChar c := by
  simp only [Char.isDigit, Bool.and_eq_true, decide_eq_true_eq] at h
  have hle : c.val.toNat ≤ 57 := h.2
  have hascii : c.val.toNat ≤ 127 := by omega
  rw [String.utf8EncodeChar]
  simp only [hascii, if_true, List.mem_singleton]
  intro hclose
  have hnat : 62 = c.val.toNat % 256 := congrArg UInt8.toNat hclose
  omega

/-- The bytes of a token before its closing bracket. -/
def tokenHead (k : Nat) : Bytes :=
  ('<' :: Nat.toDigits 10 k).flatMap String.utf8EncodeChar

theorem encode_token (k : Nat) : Utf8.encode (token k) = tokenHead k ++ [0x3e] := by
  rw [Utf8.encode, toList_token, ← List.cons_append, List.flatMap_append, tokenHead]
  rfl

theorem close_notMem_tokenHead (k : Nat) : (0x3e : UInt8) ∉ tokenHead k := by
  intro h
  obtain ⟨c, hc, h⟩ := List.mem_flatMap.mp h
  rcases List.mem_cons.mp hc with rfl | hc
  · exact absurd h (by decide)
  · exact close_notMem_utf8EncodeChar
      (Nat.isDigit_of_mem_toDigits (by decide) (by decide) hc) h

theorem encode_join_token_cons (k : Nat) (ks : List Nat) :
    Utf8.encode (String.join ((k :: ks).map token)) =
      tokenHead k ++ 0x3e :: Utf8.encode (String.join (ks.map token)) := by
  rw [List.map_cons, String.join_cons, Utf8.encode_append, encode_token, List.append_assoc]
  rfl

/-- **Tokens whose bytes begin those of others are the first of them.** -/
theorem prefix_of_encode_join_token {ks js : List Nat}
    (h : Utf8.encode (String.join (ks.map token)) <+: Utf8.encode (String.join (js.map token))) :
    ks <+: js := by
  induction ks generalizing js with
  | nil => exact List.nil_prefix
  | cons k ks ih =>
    rw [encode_join_token_cons] at h
    cases js with
    | nil =>
      have hlength := h.length_le
      rw [List.length_append, List.length_cons] at hlength
      exact absurd hlength (Nat.not_le_of_lt (Nat.lt_add_left _ (Nat.succ_pos _)))
    | cons j js =>
      obtain ⟨v, hv⟩ := h
      rw [encode_join_token_cons, List.append_assoc, List.cons_append] at hv
      obtain ⟨hhead, hrest⟩ := append_cons_inj (close_notMem_tokenHead k)
        (close_notMem_tokenHead j) hv
      have htoken : Utf8.encode (token k) = Utf8.encode (token j) := by
        rw [encode_token, encode_token, hhead]
      have hkj : [k] = [j] :=
        join_token_inj.mp (congrArg (String.join [·]) (Utf8.encode_inj.mp htoken))
      rw [(List.cons.inj hkj).1, List.cons_prefix_cons]
      exact ⟨rfl, ih ⟨v, hrest⟩⟩

end Reduction

/-! ### Histories and messages -/

/-- The type of a message: its parties and its symbol. -/
def TreeMessage.label (m : TreeMessage) : Option String × Option String × Symbol :=
  (some m.sender, m.recipient, m.symbol)

/-- The type of the messages that a packet is the type of. -/
def Packet.label (p : Packet) : Option String × Option String × Symbol :=
  (p.sender, p.recipient, p.symbol)

theorem Packet.label_inj {p q : Packet} (h : p.label = q.label) : p = q := by
  obtain ⟨sender, recipient, name⟩ := p
  obtain ⟨sender', recipient', name'⟩ := q
  simpa [label, symbol] using h

namespace Reduction

variable {r : Reduction}

/-- The token of a packet. -/
def tokenOf (r : Reduction) (p : Packet) : String :=
  token (r.packets.idxOf p)

theorem map_tokenOf (ps : List Packet) :
    ps.map r.tokenOf = (ps.map r.packets.idxOf).map token := by
  rw [List.map_map]
  rfl

theorem join_tokenOf_inj {ps qs : List Packet} (hps : ∀ p ∈ ps, p ∈ r.packets)
    (h : String.join (ps.map r.tokenOf) = String.join (qs.map r.tokenOf)) : ps = qs := by
  rw [map_tokenOf, map_tokenOf, join_token_inj] at h
  induction ps generalizing qs with
  | nil => exact (List.map_eq_nil_iff.mp h.symm).symm
  | cons p ps ih =>
    cases qs with
    | nil => exact absurd h (by simp)
    | cons q qs =>
      rw [List.map_cons, List.map_cons] at h
      obtain ⟨hpq, hrest⟩ := List.cons.inj h
      rw [List.idxOf_inj (hps p List.mem_cons_self)] at hpq
      rw [hpq, ih (fun p hp => hps p (List.mem_cons_of_mem _ hp)) hrest]

/-- **A history whose tokens begin those of another begins the other.** -/
theorem prefix_of_encode_join_tokenOf {ps qs : List Packet} (hps : ∀ p ∈ ps, p ∈ r.packets)
    (h : Utf8.encode (String.join (ps.map r.tokenOf)) <+:
      Utf8.encode (String.join (qs.map r.tokenOf))) : ps <+: qs := by
  rw [map_tokenOf, map_tokenOf] at h
  obtain ⟨rest, hrest⟩ := prefix_of_encode_join_token h
  obtain ⟨qs₁, qs₂, rfl, hqs₁, -⟩ := List.map_eq_append_iff.mp hrest.symm
  have hjoin : String.join (ps.map r.tokenOf) = String.join (qs₁.map r.tokenOf) := by
    rw [map_tokenOf, map_tokenOf, hqs₁]
  rw [join_tokenOf_inj hps hjoin]
  exact List.prefix_append ..

theorem idxOf?_of_mem {packets : List Packet} {p : Packet} (h : p ∈ packets) :
    packets.idxOf? p = some (packets.idxOf p) := by
  obtain ⟨k, hk⟩ := Option.isSome_iff_exists.mp (List.isSome_idxOf?.mpr h)
  rw [List.idxOf_eq_getD_idxOf?, hk, Option.getD_some]

theorem mapM_token_eq_some : ∀ {history : List Packet} {ts : List String},
    (history.mapM fun p => (r.packets.idxOf? p).map token) = some ts ↔
      (∀ p ∈ history, p ∈ r.packets) ∧ ts = history.map r.tokenOf
  | [], ts => by simp [eq_comm]
  | p :: history, ts => by
    rw [List.mapM_cons]
    by_cases hp : p ∈ r.packets
    · rw [idxOf?_of_mem hp, Option.map_some]
      simp only [Option.pure_def, Option.bind_eq_bind, Option.bind_some, Option.bind_eq_some_iff,
        mapM_token_eq_some, List.forall_mem_cons, List.map_cons]
      constructor
      · rintro ⟨us, ⟨hall, rfl⟩, hts⟩
        exact ⟨⟨hp, hall⟩, (Option.some.inj hts).symm⟩
      · rintro ⟨⟨-, hall⟩, rfl⟩
        exact ⟨_, ⟨hall, rfl⟩, rfl⟩
    · -- One unknown packet spoils the history.
      rw [List.idxOf?_eq_none_iff.mpr hp]
      simp [hp]

/-- **A history of known packets is written as their tokens.** -/
theorem tokens?_eq_some {history : List Packet} {s : String} : r.tokens? history = some s ↔
    (∀ p ∈ history, p ∈ r.packets) ∧ s = String.join (history.map r.tokenOf) := by
  rw [tokens?, Option.map_eq_some_iff]
  simp only [mapM_token_eq_some]
  constructor
  · rintro ⟨ts, ⟨hall, rfl⟩, rfl⟩
    exact ⟨hall, rfl⟩
  · rintro ⟨hall, rfl⟩
    exact ⟨_, ⟨hall, rfl⟩, rfl⟩

/-- **Bytes that send packets**: the tokens of known packets. -/
structure Sends (r : Reduction) (w : Bytes) (ps : List Packet) : Prop where
  known : ∀ p ∈ ps, p ∈ r.packets
  bytes : w = Utf8.encode (String.join (ps.map r.tokenOf))

theorem sends_nil : r.Sends [] [] :=
  ⟨fun _ hp => absurd hp List.not_mem_nil, rfl⟩

theorem sends_singleton {p : Packet} (hp : p ∈ r.packets) :
    r.Sends (Utf8.encode (r.tokenOf p)) [p] := by
  refine ⟨List.forall_mem_singleton.mpr hp, ?_⟩
  rw [List.map_singleton, String.join_cons, String.join_nil, String.append_empty]

theorem Sends.append {w v : Bytes} {ps qs : List Packet} (h : r.Sends w ps) (h' : r.Sends v qs) :
    r.Sends (w ++ v) (ps ++ qs) := by
  refine ⟨List.forall_mem_append.mpr ⟨h.known, h'.known⟩, ?_⟩
  rw [List.map_append, String.join_append, Utf8.encode_append, h.bytes, h'.bytes]

/-- **The bytes tell the packets.** -/
theorem Sends.inj {w : Bytes} {ps qs : List Packet} (h : r.Sends w ps) (h' : r.Sends w qs) :
    ps = qs :=
  join_tokenOf_inj h.known (Utf8.encode_inj.mp (h.bytes.symm.trans h'.bytes))

/-- **Bytes that write messages**: the tokens of packets of their types. -/
def Writes (r : Reduction) (w : Bytes) (ms : List TreeMessage) : Prop :=
  ∃ ps : List Packet, (∀ p ∈ ps, p ∈ r.packets) ∧
    ps.map Packet.label = ms.map TreeMessage.label ∧
      w = Utf8.encode (String.join (ps.map r.tokenOf))

theorem writes_nil : r.Writes [] [] :=
  ⟨[], sends_nil.known, rfl, sends_nil.bytes⟩

theorem writes_singleton {p : Packet} {m : TreeMessage} (hp : p ∈ r.packets)
    (hm : p.label = m.label) : r.Writes (Utf8.encode (r.tokenOf p)) [m] :=
  ⟨[p], (sends_singleton hp).known, congrArg (fun label => [label]) hm, (sends_singleton hp).bytes⟩

theorem Writes.append {w v : Bytes} {ms ns : List TreeMessage} (h₁ : r.Writes w ms)
    (h₂ : r.Writes v ns) : r.Writes (w ++ v) (ms ++ ns) := by
  obtain ⟨ps, hps, hms, hw⟩ := h₁
  obtain ⟨qs, hqs, hns, hv⟩ := h₂
  obtain ⟨hknown, hbytes⟩ := Sends.append ⟨hps, hw⟩ ⟨hqs, hv⟩
  refine ⟨ps ++ qs, hknown, ?_, hbytes⟩
  rw [List.map_append, List.map_append, hms, hns]

/-- Where the messages stand does not matter. -/
theorem Writes.of_label {w : Bytes} {ms ns : List TreeMessage} (h : r.Writes w ms)
    (hlabel : ms.map TreeMessage.label = ns.map TreeMessage.label) : r.Writes w ns := by
  obtain ⟨ps, hps, hms, rfl⟩ := h
  exact ⟨ps, hps, hms.trans hlabel, rfl⟩

/-- **Bytes that write messages write the history of their types**, and no other. -/
theorem Writes.tokens?_iff {w : Bytes} {ms : List TreeMessage} (h : r.Writes w ms)
    {history : List Packet} : (∃ s, r.tokens? history = some s ∧ Utf8.encode s = w) ↔
      ms.map TreeMessage.label = history.map Packet.label := by
  obtain ⟨ps, hps, hms, rfl⟩ := h
  rw [← hms]
  constructor
  · rintro ⟨s, hs, hw⟩
    obtain ⟨-, rfl⟩ := tokens?_eq_some.mp hs
    rw [join_tokenOf_inj hps (Utf8.encode_inj.mp hw).symm]
  · intro hlabel
    obtain rfl : ps = history := (List.map_injective_iff.mpr fun _ _ => Packet.label_inj) hlabel
    exact ⟨_, tokens?_eq_some.mpr ⟨hps, rfl⟩, rfl⟩

end Reduction

end GrammarFuzzing
