import GrammarFuzzing.Proofs.Grammar.Annotation
import GrammarFuzzing.Proofs.Packet.Control
import GrammarFuzzing.Proofs.Packet.Token

/-!
# The reduced grammar

The reduction of a grammar renames nodes in place: `GrammarFuzzing.Reduction.reduceNode` replaces
leaves by references and keeps everything else, so a reduced node spells what the node spells, leaf
by leaf (`GrammarFuzzing.Reduction.spells_reduceNode`), and nodes keep their numbers. Then rules for
tokens and empty texts are added. Since no rule of the grammar has such a name, the others are as
they were.

`GrammarFuzzing.Reduction.Reduces` collects what a reduction has, as far as its control rules are
concerned. Nothing else is derived from its start symbol.
-/

namespace GrammarFuzzing

namespace Packet

theorem compare_eq (p q : Packet) : compare p q = (compare p.sender q.sender).then
    ((compare p.recipient q.recipient).then (compare p.name q.name)) := by
  change (compare p.sender q.sender).then ((compare p.recipient q.recipient).then
    ((compare p.name q.name).then .eq)) = _
  rw [Ordering.then_eq]

instance : Std.LawfulEqOrd Packet where
  compare_self := by simp [compare_eq]
  eq_of_compare := by
    intro p q h
    rw [compare_eq] at h
    simp only [Ordering.then_eq_eq, Std.LawfulEqOrd.compare_eq_iff_eq] at h
    cases p
    cases q
    simp_all

instance : Std.TransOrd Packet := by
  have h : (compare : Packet → Packet → Ordering) = compareLex (compareOn sender)
      (compareLex (compareOn recipient) (compareOn name)) :=
    funext fun p => funext fun q => compare_eq p q
  unfold Std.TransOrd
  rw [h]
  infer_instance

end Packet

namespace Reduction

open Node hiding id

/-! ### Reduced nodes -/

section Nodes

variable (packets : List Packet) (control : Nat → Bool)

/-- A leaf stays, or a reference takes its place. -/
theorem reduceNode_of_isLeaf {l : Node} (h : l.IsLeaf) :
    reduceNode packets control l = l ∨ ∃ name sender recipient,
      reduceNode packets control l = .reference l.id name sender recipient := by
  cases l with
  | terminal | charset =>
    rw [reduceNode]
    split
    · exact Or.inr ⟨_, _, _, rfl⟩
    · exact Or.inl rfl
  | reference id name sender recipient =>
    rw [reduceNode]
    split
    · split
      · exact Or.inr ⟨_, _, _, rfl⟩
      · exact Or.inl rfl
    · exact Or.inl rfl
  | sequence | choice | repetition => exact h.elim

theorem isLeaf_reduceNode {l : Node} (h : l.IsLeaf) : (reduceNode packets control l).IsLeaf := by
  rcases reduceNode_of_isLeaf packets control h with hl | ⟨name, sender, recipient, hl⟩
  · rwa [hl]
  · rw [hl]
    trivial

theorem isLeaf_of_reduceNode {n : Node} (h : (reduceNode packets control n).IsLeaf) : n.IsLeaf := by
  cases n with
  | terminal | charset | reference => trivial
  | sequence | choice | repetition =>
    rw [reduceNode] at h
    exact h

@[simp] theorem id_reduceNode (n : Node) : (reduceNode packets control n).id = n.id := by
  by_cases hleaf : n.IsLeaf
  · rcases reduceNode_of_isLeaf packets control hleaf with h | ⟨name, sender, recipient, h⟩
    · rw [h]
    · rw [h]
      rfl
  · cases n with
    | terminal | charset | reference => exact absurd trivial hleaf
    | sequence | choice | repetition =>
      rw [reduceNode]
      rfl

/-- The bounds of repetitions stay. -/
theorem fitsForm_reduceNode {n : Node} (h : n.FitsForm) :
    (reduceNode packets control n).FitsForm := by
  by_cases hleaf : n.IsLeaf
  · rcases reduceNode_of_isLeaf packets control hleaf with hn | ⟨name, sender, recipient, hn⟩
    · rwa [hn]
    · rw [hn]
      trivial
  · cases n with
    | terminal | charset | reference => exact absurd trivial hleaf
    | sequence | choice =>
      rw [reduceNode]
      trivial
    | repetition id body min max form =>
      rw [reduceNode]
      cases form <;> exact h

/-- What lies in a reduced leaf is the reduced leaf. -/
theorem subnodes_reduceNode_of_isLeaf {l : Node} (h : l.IsLeaf) :
    (reduceNode packets control l).subnodes = l.subnodes.map (reduceNode packets control) := by
  rw [subnodes_of_isLeaf (isLeaf_reduceNode packets control h), subnodes_of_isLeaf h]
  rfl

/-- What a reduced leaf spells is the reduced leaf. -/
theorem spells_reduceNode_of_isLeaf {l : Node} {ms : List Node} (h : l.IsLeaf) :
    (reduceNode packets control l).Spells ms ↔
      Lifts (fun l m => m = reduceNode packets control l) l.Spells ms := by
  have hspells : l.Spells = fun ls => ls = [l] := funext fun ls => propext (spells_of_isLeaf h)
  rw [spells_of_isLeaf (isLeaf_reduceNode packets control h), hspells]
  simp only [lifts_singleton, exists_eq_right]

mutual

/-- What lies in a reduced node is reduced. -/
theorem subnodes_reduceNode : ∀ n : Node, (reduceNode packets control n).subnodes =
    n.subnodes.map (reduceNode packets control)
  | .terminal .. | .charset .. | .reference .. =>
    subnodes_reduceNode_of_isLeaf packets control trivial
  | .sequence id parts => by
    rw [reduceNode, subnodes, subnodes, List.map_cons, reduceNode, listSubnodes_reduceNodes]
  | .choice id options => by
    rw [reduceNode, subnodes, subnodes, List.map_cons, reduceNode, listSubnodes_reduceNodes]
  | .repetition id body min max form => by
    rw [reduceNode, subnodes, subnodes, List.map_cons, reduceNode, subnodes_reduceNode]

theorem listSubnodes_reduceNodes : ∀ ns : List Node,
    listSubnodes (reduceNodes packets control ns) =
      (listSubnodes ns).map (reduceNode packets control)
  | [] => by rw [reduceNodes, listSubnodes, List.map_nil]
  | n :: ns => by
    rw [reduceNodes, listSubnodes, listSubnodes, List.map_append, subnodes_reduceNode,
      listSubnodes_reduceNodes]

end

mutual

/-- **A reduced node spells what the node spells, leaf by leaf.** -/
theorem spells_reduceNode : ∀ {n : Node} {ms : List Node},
    (reduceNode packets control n).Spells ms ↔
      Lifts (fun l m => m = reduceNode packets control l) n.Spells ms
  | .terminal .., _ | .charset .., _ | .reference .., _ =>
    spells_reduceNode_of_isLeaf packets control trivial
  | .sequence _ parts, ms => by
    simp only [reduceNode, Spells, spellsAll_reduceNodes]
  | .choice _ options, ms => by
    simp only [reduceNode, Spells, spellsSome_reduceNodes]
  | .repetition _ body min max _, ms => by
    simp only [reduceNode, Spells, lifts_exists, lifts_and, lifts_copies, spells_reduceNode]

theorem spellsAll_reduceNodes : ∀ {ns : List Node} {ms : List Node},
    SpellsAll (reduceNodes packets control ns) ms ↔
      Lifts (fun l m => m = reduceNode packets control l) (SpellsAll ns) ms
  | [], _ => by
    rw [reduceNodes]
    exact lifts_nil.symm
  | n :: ns, ms => by
    rw [reduceNodes, SpellsAll, show SpellsAll (n :: ns) = fun ls => ∃ ks ms, ls = ks ++ ms ∧
      n.Spells ks ∧ SpellsAll ns ms from rfl, lifts_append]
    simp only [spells_reduceNode, spellsAll_reduceNodes]

theorem spellsSome_reduceNodes : ∀ {ns : List Node} {ms : List Node},
    SpellsSome (reduceNodes packets control ns) ms ↔
      Lifts (fun l m => m = reduceNode packets control l) (SpellsSome ns) ms
  | [], _ => by simp [reduceNodes, SpellsSome, Lifts]
  | n :: ns, ms => by
    rw [reduceNodes, SpellsSome, show SpellsSome (n :: ns) = fun ls => n.Spells ls ∨
      SpellsSome ns ls from rfl, lifts_or, spells_reduceNode, spellsSome_reduceNodes]

end

/-- **A reduced node matches what corresponds to the leaves of the node.** -/
theorem matches_reduceNode {n : Node} {cs : List Tree} :
    (reduceNode packets control n).Matches cs ↔
      Lifts (fun l c => (reduceNode packets control l).Admits c) n.Spells cs := by
  have hspells : (reduceNode packets control n).Spells =
      Lifts (fun l m => m = reduceNode packets control l) n.Spells :=
    funext fun ms => propext (spells_reduceNode packets control)
  rw [matches_iff_lifts, hspells, lifts_lifts]
  simp only [exists_eq_left]

end Nodes

/-! ### Rules for texts -/

section Texts

variable {d : Draft} {texts : List (String × String)}

/-- The draft with rules whose bodies are texts. -/
def addTexts (d : Draft) (texts : List (String × String)) : Draft :=
  texts.foldl (fun d p => addText d p.1 p.2) d

theorem coherent_addText (hd : d.Coherent) (name text : String) :
    (addText d name text).Coherent := by
  obtain ⟨hgrows, howns⟩ := Draft.grows_add_leaf d (fun id => .terminal id (.text text)) rfl trivial
    rfl
  exact (hd.grows hgrows).rule name howns

theorem coherent_addTexts (hd : d.Coherent) (texts : List (String × String)) :
    (addTexts d texts).Coherent := by
  induction texts generalizing d with
  | nil => exact hd
  | cons p texts ih => exact ih (coherent_addText hd p.1 p.2)

theorem start_addTexts (d : Draft) (texts : List (String × String)) :
    (addTexts d texts).start = d.start := by
  induction texts generalizing d with
  | nil => rfl
  | cons p texts ih => exact ih _

theorem rules_addText {name : String} (h : bareName name = name) (text : String) :
    (addText d name text).rules = d.rules.put name (.terminal d.nodes.size (.text text)) := by
  change d.rules.put (bareName name) (.terminal d.nodes.size (.text text)) = _
  rw [h]

theorem nodes_addText (d : Draft) (name text : String) :
    (addText d name text).nodes = d.nodes.push (.terminal d.nodes.size (.text text)) :=
  rfl

/-- **The nodes that are added are texts** with new numbers. -/
theorem mem_nodes_addTexts {n : Node} (h : n ∈ (addTexts d texts).nodes) :
    n ∈ d.nodes ∨ ∃ id, d.nodes.size ≤ id ∧ ∃ p ∈ texts, n = .terminal id (.text p.2) := by
  induction texts generalizing d with
  | nil => exact Or.inl h
  | cons p texts ih =>
    rcases ih (d := addText d p.1 p.2) h with h | ⟨id, hid, q, hq, rfl⟩
    · rw [nodes_addText, Array.mem_push] at h
      refine h.imp_right fun hn => ?_
      exact ⟨_, Nat.le_refl _, p, List.mem_cons_self, hn⟩
    · rw [nodes_addText, Array.size_push] at hid
      exact Or.inr ⟨id, Nat.le_of_succ_le hid, q, List.mem_cons_of_mem _ hq, rfl⟩

variable (hbare : ∀ p ∈ texts, bareName p.1 = p.1)

include hbare

/-- Other rules stay. -/
theorem find?_addTexts_of_notMem {name : String} (h : name ∉ texts.map (·.1)) :
    (addTexts d texts).rules.find? name = d.rules.find? name := by
  induction texts generalizing d with
  | nil => rfl
  | cons p texts ih =>
    rw [List.forall_mem_cons] at hbare
    rw [List.map_cons, List.mem_cons, not_or] at h
    rw [addTexts, List.foldl_cons, ← addTexts, ih hbare.2 h.2, rules_addText hbare.1,
      Dictionary.find?_put_of_ne (Ne.symm h.1)]

/-- **A rule that was added has its text**, if no name has two, and a new number. -/
theorem find?_addTexts_of_mem (htexts : ∀ p ∈ texts, ∀ q ∈ texts, p.1 = q.1 → p.2 = q.2)
    {p : String × String} (hp : p ∈ texts) : ∃ id, d.nodes.size ≤ id ∧
      (addTexts d texts).rules.find? p.1 = some (.terminal id (.text p.2)) := by
  induction texts generalizing d p with
  | nil => exact absurd hp List.not_mem_nil
  | cons q texts ih =>
    rw [List.forall_mem_cons] at hbare
    rw [addTexts, List.foldl_cons, ← addTexts]
    by_cases hlater : p.1 ∈ texts.map (·.1)
    · -- The rule is added again, with the same text.
      obtain ⟨q', hq', hname⟩ := List.mem_map.mp hlater
      obtain ⟨id, hnew, hid⟩ := ih (d := addText d q.1 q.2) hbare.2 (fun a ha b hb =>
        htexts a (List.mem_cons_of_mem _ ha) b (List.mem_cons_of_mem _ hb)) hq'
      rw [hname, htexts q' (List.mem_cons_of_mem _ hq') p hp hname] at hid
      rw [nodes_addText, Array.size_push] at hnew
      exact ⟨id, Nat.le_of_succ_le hnew, hid⟩
    · have hpq : p = q := (List.mem_cons.mp hp).resolve_right fun hmem =>
        hlater (List.mem_map.mpr ⟨p, hmem, rfl⟩)
      subst hpq
      rw [find?_addTexts_of_notMem hbare.2 hlater, rules_addText hbare.1,
        Dictionary.find?_put_self]
      exact ⟨_, Nat.le_refl _, rfl⟩

theorem mem_keys_addTexts {name : String} (h : name ∈ (addTexts d texts).rules.keys) :
    name ∈ texts.map (·.1) ∨ name ∈ d.rules.keys := by
  by_cases hmem : name ∈ texts.map (·.1)
  · exact Or.inl hmem
  · obtain ⟨body, hbody⟩ := Dictionary.exists_find?_of_mem_keys h
    rw [find?_addTexts_of_notMem hbare hmem] at hbody
    exact Or.inr (Dictionary.mem_keys_of_find? hbody)

end Texts

/-! ### Names of the added rules -/

/-- **No rule has a name that begins with one of the marks** of the rules that a reduction adds. -/
def Unmarked (g : Grammar) : Prop :=
  ∀ name ∈ g.rules.keys, ¬ packetMark.toList <+: name.toList ∧ ¬ literalMark.toList <+: name.toList

instance (g : Grammar) : Decidable (Unmarked g) :=
  inferInstanceAs (Decidable (∀ name ∈ g.rules.keys,
    ¬ packetMark.toList <+: name.toList ∧ ¬ literalMark.toList <+: name.toList))

theorem toList_packetRule (k : Nat) :
    (packetRule k).toList = packetMark.toList ++ (toString k).toList :=
  String.toList_append

theorem toList_literalRule (id : Nat) :
    (literalRule id).toList = literalMark.toList ++ (toString id).toList :=
  String.toList_append

theorem bareName_of_head {name : String} {c : Char} {cs : List Char} (h : name.toList = c :: cs)
    (hc : c ≠ '<') : bareName name = name := by
  rw [bareName, h]
  split
  · rename_i heq
    exact absurd (List.cons.inj heq).1 hc
  · rfl

theorem bareName_packetRule (k : Nat) : bareName (packetRule k) = packetRule k :=
  bareName_of_head (toList_packetRule k) (by decide)

theorem bareName_literalRule (id : Nat) : bareName (literalRule id) = literalRule id :=
  bareName_of_head (toList_literalRule id) (by decide)

theorem packetRule_ne_literalRule (k id : Nat) : packetRule k ≠ literalRule id := by
  intro h
  have hlist := congrArg String.toList h
  rw [toList_packetRule, toList_literalRule] at hlist
  have hsecond : 'p' = 'l' := (List.cons.inj (List.cons.inj hlist).2).1
  exact absurd hsecond (by decide)

theorem literalRule_inj {id id' : Nat} (h : literalRule id = literalRule id') : id = id' := by
  rw [literalRule, literalRule, String.append_right_inj] at h
  have hdigits : Nat.toDigits 10 id = Nat.toDigits 10 id' := by
    simpa using congrArg String.toList h
  rw [← Nat.ofDigitChars_ten_toDigits (n := id), hdigits, Nat.ofDigitChars_ten_toDigits]

theorem token_congr {j k : Nat} (h : packetRule j = packetRule k) : token j = token k := by
  rw [packetRule, packetRule, String.append_right_inj] at h
  rw [token, token, h]

section Reduce

variable {g : Grammar} {control : Nat → Bool}

/-- The rules that a reduction adds, with their texts. -/
def addedTexts (g : Grammar) (control : Nat → Bool) : List (String × String) :=
  ((List.range (Packet.all g).length).map fun k => (packetRule k, token k)) ++
    (literalsOf g control).keys.map fun name => (name, "")

theorem mem_keys_literalsOf {name : String} : name ∈ (literalsOf g control).keys ↔
    ∃ n ∈ g.nodes, control n.id = true ∧ (standIn? n).isSome = true ∧ name = literalRule n.id := by
  rw [literalsOf, Dictionary.mem_keys_ofPairs, List.mem_map]
  constructor
  · rintro ⟨p, hp, rfl⟩
    obtain ⟨n, hn, hpair⟩ := List.mem_filterMap.mp hp
    split at hpair
    · rename_i hcontrol
      obtain ⟨value, hvalue, rfl⟩ := Option.map_eq_some_iff.mp hpair
      exact ⟨n, Array.mem_toList_iff.mp hn, hcontrol, hvalue ▸ rfl, rfl⟩
    · exact absurd hpair (by simp)
  · rintro ⟨n, hn, hcontrol, hvalue, rfl⟩
    obtain ⟨value, hvalue⟩ := Option.isSome_iff_exists.mp hvalue
    refine ⟨(literalRule n.id, value), List.mem_filterMap.mpr ⟨n, Array.mem_toList_iff.mpr hn, ?_⟩,
      rfl⟩
    rw [if_pos hcontrol, hvalue, Option.map_some]

/-- An added rule is one for a packet or one for a literal. -/
theorem mem_addedTexts {p : String × String} (h : p ∈ addedTexts g control) :
    (∃ k, p = (packetRule k, token k)) ∨ ∃ id, p = (literalRule id, "") := by
  rw [addedTexts, List.mem_append, List.mem_map, List.mem_map] at h
  rcases h with ⟨k, -, rfl⟩ | ⟨name, hname, rfl⟩
  · exact Or.inl ⟨k, rfl⟩
  · obtain ⟨n, -, -, -, rfl⟩ := mem_keys_literalsOf.mp hname
    exact Or.inr ⟨n.id, rfl⟩

theorem packet_mem_addedTexts {k : Nat} (h : k < (Packet.all g).length) :
    (packetRule k, token k) ∈ addedTexts g control :=
  List.mem_append_left _ (List.mem_map.mpr ⟨k, List.mem_range.mpr h, rfl⟩)

theorem literal_mem_addedTexts {n : Node} (hn : n ∈ g.nodes) (hcontrol : control n.id = true)
    (hvalue : (standIn? n).isSome = true) : (literalRule n.id, "") ∈ addedTexts g control :=
  List.mem_append_right _
    (List.mem_map.mpr ⟨_, mem_keys_literalsOf.mpr ⟨n, hn, hcontrol, hvalue, rfl⟩, rfl⟩)

theorem bareName_addedTexts : ∀ p ∈ addedTexts g control, bareName p.1 = p.1 := by
  intro p hp
  rcases mem_addedTexts hp with ⟨k, rfl⟩ | ⟨id, rfl⟩
  · exact bareName_packetRule k
  · exact bareName_literalRule id

/-- No added rule has two texts. -/
theorem addedTexts_functional : ∀ p ∈ addedTexts g control, ∀ q ∈ addedTexts g control,
    p.1 = q.1 → p.2 = q.2 := by
  intro p hp q hq hname
  rcases mem_addedTexts hp with ⟨k, rfl⟩ | ⟨id, rfl⟩ <;>
    rcases mem_addedTexts hq with ⟨j, rfl⟩ | ⟨id', rfl⟩
  · exact token_congr hname
  · exact absurd hname (packetRule_ne_literalRule k id')
  · exact absurd hname.symm (packetRule_ne_literalRule j id)
  · rfl

/-- Rules of the grammar are not added. -/
theorem notMem_addedTexts (hmarks : Unmarked g) {name : String} (h : name ∈ g.rules.keys) :
    name ∉ (addedTexts g control).map (·.1) := by
  intro hmem
  obtain ⟨p, hp, rfl⟩ := List.mem_map.mp hmem
  rcases mem_addedTexts hp with ⟨k, rfl⟩ | ⟨id, rfl⟩
  · exact (hmarks _ h).1 ⟨_, (toList_packetRule k).symm⟩
  · exact (hmarks _ h).2 ⟨_, (toList_literalRule id).symm⟩

/-! ### What the added rules stand for -/

/-- Rules of the grammar stand for no literals. -/
theorem find?_literalsOf_of_unmarked (hmarks : Unmarked g) {name : String}
    (h : name ∈ g.rules.keys) : (literalsOf g control).find? name = none := by
  cases hfind : (literalsOf g control).find? name with
  | none => rfl
  | some value =>
    obtain ⟨n, -, -, -, rfl⟩ := mem_keys_literalsOf.mp (Dictionary.mem_keys_of_find? hfind)
    exact absurd ⟨_, (toList_literalRule n.id).symm⟩ (hmarks _ h).2

/-- **The rule of a literal stands for its stand-in**: no two nodes have one number. -/
theorem find?_literalsOf (hg : g.toDraft.Coherent) {l : Node} (hl : l ∈ g.nodes)
    (hcontrol : control l.id = true) {value : Literal} (hvalue : standIn? l = some value) :
    (literalsOf g control).find? (literalRule l.id) = some value := by
  obtain ⟨value', hfind⟩ := Dictionary.exists_find?_of_mem_keys
    (mem_keys_literalsOf.mpr ⟨l, hl, hcontrol, hvalue ▸ rfl, rfl⟩)
  have hmem := Dictionary.mem_of_mem_ofPairs (Dictionary.mem_of_find? hfind)
  obtain ⟨n, hn, hpair⟩ := List.mem_filterMap.mp hmem
  split at hpair
  · obtain ⟨v, hv, heq⟩ := Option.map_eq_some_iff.mp hpair
    obtain ⟨hname, rfl⟩ := Prod.mk.inj heq
    have hsame : some n = some l := by
      rw [← (hg.numbered n (Array.mem_toList_iff.mp hn) n (mem_subnodes_self n)).1,
        ← (hg.numbered l hl l (mem_subnodes_self l)).1, literalRule_inj hname]
    obtain rfl := Option.some.inj hsame
    rw [hfind, ← hv, hvalue]
  · exact absurd hpair (by simp)

/-- Digits are read as the number that they write. -/
theorem readIndex?_of_digits {cs : List Char} (hne : cs ≠ [])
    (hdigits : ∀ c ∈ cs, c.isDigit = true) :
    readIndex? cs = some (Nat.ofDigitChars 10 cs 0) := by
  have hvalue : cs.foldl (fun n c => n * 10 + (c.toNat - '0'.toNat)) 0 =
      Nat.ofDigitChars 10 cs 0 := by
    simp only [Nat.ofDigitChars, Nat.mul_comm 10]
  have hall : (cs.isEmpty || !cs.all Char.isDigit) = false := by simpa [hne] using hdigits
  rw [readIndex?, ← hvalue, hall]
  · rfl
  · rintro rest rfl
    exact absurd (hdigits '+' List.mem_cons_self) (by decide)

theorem readIndex?_toDigits (k : Nat) : readIndex? (Nat.toDigits 10 k) = some k := by
  rw [readIndex?_of_digits Nat.toDigits_ne_nil fun c hc =>
    Nat.isDigit_of_mem_toDigits (by decide) (by decide) hc, Nat.ofDigitChars_ten_toDigits]

/-- **The rule of a packet stands for the packet.** -/
theorem packetOfRule?_packetRule (r : Reduction) (k : Nat) :
    r.packetOfRule? (packetRule k) = r.packets[k]? := by
  have hafter : SettingSelector.after? packetMark (packetRule k) = some (Nat.toDigits 10 k) := by
    rw [SettingSelector.after?, toList_packetRule, if_pos (by simp), ← String.length_toList,
      List.drop_left]
    simp
  rw [packetOfRule?, hafter, Option.bind_eq_bind, Option.bind_some, readIndex?_toDigits]
  rfl

/-- So every packet has a rule that stands for it. -/
theorem packetOfRule?_of_mem {r : Reduction} {p : Packet} (hp : p ∈ r.packets) :
    r.packetOfRule? (packetRule (r.packets.idxOf p)) = some p := by
  rw [packetOfRule?_packetRule, List.getElem?_eq_getElem (List.idxOf_lt_length_of_mem hp),
    List.getElem_idxOf]

theorem packetOfRule?_eq_none {r : Reduction} {name : String}
    (h : ¬packetMark.toList <+: name.toList) : r.packetOfRule? name = none := by
  rw [packetOfRule?, SettingSelector.after?, if_neg (by rwa [List.isPrefixOf_iff_prefix])]
  rfl

theorem packetOfRule?_literalRule (r : Reduction) (id : Nat) :
    r.packetOfRule? (literalRule id) = none := by
  refine packetOfRule?_eq_none ?_
  rintro ⟨rest, h⟩
  rw [toList_literalRule] at h
  have hsecond : 'p' = 'l' := (List.cons.inj (List.cons.inj h).2).1
  exact absurd hsecond (by decide)

/-! ### The reduced draft -/

/-- The draft of a grammar with its nodes reduced in place. -/
def reduceBodies (g : Grammar) (control : Nat → Bool) : Draft :=
  { g.toDraft with
    nodes := g.nodes.map (reduceNode (Packet.all g) control)
    rules := g.rules.map fun r => (r.1, reduceNode (Packet.all g) control r.2) }

/-- **Reduced nodes are numbered as the nodes are.** -/
theorem coherent_reduceBodies (h : g.toDraft.Coherent) (control : Nat → Bool) :
    (reduceBodies g control).Coherent := by
  have howns : ∀ n, g.toDraft.Owns n →
      (reduceBodies g control).Owns (reduceNode (Packet.all g) control n) := by
    intro n hn m hm
    rw [subnodes_reduceNode] at hm
    obtain ⟨k, hk, rfl⟩ := List.mem_map.mp hm
    obtain ⟨hid, hform⟩ := hn k hk
    have hid : g.nodes[k.id]? = some k := hid
    refine ⟨?_, fitsForm_reduceNode _ _ hform⟩
    rw [reduceBodies, id_reduceNode, Array.getElem?_map, hid, Option.map_some]
  refine ⟨fun n hn => ?_, fun p hp => ?_⟩
  · obtain ⟨m, hm, rfl⟩ := Array.mem_map.mp hn
    exact howns m (h.numbered m hm)
  · obtain ⟨q, hq, rfl⟩ := List.mem_map.mp hp
    exact howns q.2 (h.rules q hq)

/-- **A reduction is built from the reduced draft.** -/
theorem exists_of_reduce {r : Reduction} (h : g.reduce = .ok r) :
    ∃ ids, controlIds g = .ok ids ∧ r.packets = Packet.all g ∧
      r.literals = literalsOf g ids.contains ∧
      (addTexts (reduceBodies g ids.contains) (addedTexts g ids.contains)).build =
        .ok r.grammar := by
  rw [Grammar.reduce] at h
  simp only [bind, Except.bind, pure, Except.pure] at h
  split at h
  · exact absurd h (by simp)
  rename_i ids hids
  split at h
  · exact absurd h (by simp)
  rename_i reduced hbuild
  obtain rfl := Except.ok.inj h
  refine ⟨ids, hids, rfl, rfl, ?_⟩
  rw [addTexts, addedTexts, List.foldl_append, List.foldl_map, List.foldl_map]
  exact hbuild

/-! ### The built reduction -/

section Built

variable {g' : Grammar} (h : (addTexts (reduceBodies g control) (addedTexts g control)).Builds g')

include h

/-- **Rules of the grammar are reduced.** -/
theorem body?_of_unmarked (hmarks : Unmarked g) {name : String} {body : Node}
    (hbody : g.body? name = some body) :
    g'.body? name = some (reduceNode (Packet.all g) control body) := by
  rw [Grammar.body?, h.rules, find?_addTexts_of_notMem bareName_addedTexts
    (notMem_addedTexts hmarks (Dictionary.mem_keys_of_find? hbody))]
  exact (Dictionary.find?_map _ _ _).trans (congrArg (Option.map _) hbody)

/-- **The added rules have their texts.** -/
theorem body?_of_mem_addedTexts {name text : String}
    (hmem : (name, text) ∈ addedTexts g control) :
    ∃ id, g.nodes.size ≤ id ∧ g'.body? name = some (.terminal id (.text text)) := by
  obtain ⟨id, hid, hbody⟩ := find?_addTexts_of_mem (d := reduceBodies g control)
    bareName_addedTexts addedTexts_functional hmem
  rw [reduceBodies, Array.size_map] at hid
  exact ⟨id, hid, by rwa [Grammar.body?, h.rules]⟩

theorem bareNames_of_builds (hbare : g.BareNames) : g'.BareNames := by
  intro name hname
  rw [h.rules] at hname
  rcases mem_keys_addTexts bareName_addedTexts hname with hadded | hkept
  · obtain ⟨p, hp, rfl⟩ := List.mem_map.mp hadded
    exact bareName_addedTexts p hp
  · obtain ⟨p, hp, rfl⟩ := List.mem_map.mp hkept
    obtain ⟨q, hq, rfl⟩ := List.mem_map.mp hp
    exact hbare q.1 (List.mem_map.mpr ⟨q, hq, rfl⟩)

theorem start_of_builds : g'.start = g.start := by
  rw [h.start, start_addTexts]
  rfl

end Built

end Reduce

/-! ### What a reduction has -/

/-- The rule that a leaf of a control rule refers to in a reduction. -/
def replacement (r : Reduction) : Node → String
  | .reference _ name (some sender) recipient =>
    packetRule (r.packets.idxOf ⟨some sender, recipient, name⟩)
  | .reference _ name none _ => name
  | l => literalRule l.id

/-- The text of the rule that a leaf refers to in a reduction, unless it is a control rule. -/
def replacementText? (r : Reduction) : Node → Option String
  | .reference _ name (some sender) recipient => some (r.tokenOf ⟨some sender, recipient, name⟩)
  | .reference _ _ none _ => none
  | _ => some ""

/-- **A reduction of a grammar with these control rules.** Control rules are as they were, with a
reference in place of every leaf; what takes the place of a message or a literal has a text. The
names of rules tell what they stand for: a packet, a literal, or themselves. -/
structure Reduces (g : Grammar) (found : Dictionary String Node) (r : Reduction) : Prop where
  control : ControlRules g found
  kept : ∀ {name}, name ∈ found.keys → r.packetOfRule? name = none ∧ r.literals.find? name = none
  literal : ∀ {name body l value}, found.find? name = some body → l ∈ body.leaves →
    standIn? l = some value → r.literals.find? (literalRule l.id) = some value
  wellFormed : r.grammar.WellFormed
  bareNames : r.grammar.BareNames
  start : r.grammar.start = g.start
  packet : ∀ {name body id other sender recipient}, found.find? name = some body →
    .reference id other (some sender) recipient ∈ body.leaves →
      (⟨some sender, recipient, other⟩ : Packet) ∈ r.packets
  body : ∀ {name body}, found.find? name = some body → ∃ body', r.grammar.body? name = some body' ∧
    ∀ cs, body'.Matches cs ↔ Lifts (fun l c => isNamed (r.replacement l) c = true) body.Spells cs
  leaf : ∀ {name body body' l}, found.find? name = some body → r.grammar.body? name = some body' →
    l ∈ body'.subnodes → l.IsLeaf → ∃ k ∈ body.leaves,
      l = .reference k.id (r.replacement k) k.sender? k.recipient?
  text : ∀ {name body l text}, found.find? name = some body → l ∈ body.leaves →
    r.replacementText? l = some text →
      ∃ id, r.grammar.body? (r.replacement l) = some (.terminal id (.text text))

section Reduces

variable {d : Draft} {g : Grammar} {r : Reduction} {found : Dictionary String Node}

/-- **A control leaf is replaced by a reference.** -/
theorem reduceNode_leaf {control : Nat → Bool} {l : Node} (hl : l.IsLeaf)
    (hcontrol : control l.id = true)
    (hmessage : ∀ id name sender recipient, l = .reference id name (some sender) recipient →
      bareName name = name ∧ (⟨some sender, recipient, name⟩ : Packet) ∈ r.packets) :
    reduceNode r.packets control l =
      .reference l.id (r.replacement l) l.sender? l.recipient? := by
  cases l with
  | terminal id | charset id =>
    change control id = true at hcontrol
    rw [reduceNode, if_pos hcontrol]
    rfl
  | reference id name sender recipient =>
    change control id = true at hcontrol
    cases sender with
    | none => rfl
    | some sender =>
      obtain ⟨hname, hmem⟩ := hmessage id name sender recipient rfl
      rw [reduceNode, Packet.ofReference?, Option.bind_some, hname, idxOf?_of_mem hmem]
      simp only [hcontrol, if_true]
      rfl
  | sequence | choice | repetition => exact hl.elim

/-- A message that a rule sends is one of the packets. -/
theorem mem_all_of_occurs (hg : g.WellFormed) (hbare : g.BareNames) {id : Nat}
    {name sender : String} {recipient : Option String}
    (h : g.Occurs (.reference id name (some sender) recipient)) :
    bareName name = name ∧ (⟨some sender, recipient, name⟩ : Packet) ∈ Packet.all g := by
  have hname := hbare name (Dictionary.has_iff_mem_keys.mp (hg.has_reference h))
  refine ⟨hname, ?_⟩
  rw [Packet.all, SortedSet.mem_ofList, List.mem_filterMap]
  refine ⟨_, Array.mem_toList_iff.mpr (Array.mem_of_getElem? (hg.numbered h)), ?_⟩
  rw [Packet.ofReference?, hname]

/-- Whatever a grammar refers to has been checked. -/
theorem mem_keys_of_reference {d : Draft} (hb : d.Builds g) {id : Nat} {name : String}
    {sender recipient : Option String} (hn : .reference id name sender recipient ∈ g.nodes) :
    name ∈ g.rules.keys := by
  have hcheck := hb.checkNode _ (hb.nodes ▸ hn)
  rw [Draft.checkNode] at hcheck
  split at hcheck
  · rename_i hhas
    exact hb.rules ▸ Dictionary.has_iff_mem_keys.mp hhas
  · exact absurd hcheck (by simp)

/-- Packets are for symbols with rules. -/
theorem mem_keys_of_mem_all {d : Draft} (hb : d.Builds g) (hbare : g.BareNames) {p : Packet}
    (hp : p ∈ Packet.all g) : p.name ∈ g.rules.keys := by
  rw [Packet.all, SortedSet.mem_ofList, List.mem_filterMap] at hp
  obtain ⟨n, hn, hpacket⟩ := hp
  cases n with
  | reference id name sender recipient =>
    cases sender with
    | none => exact absurd hpacket (by simp [Packet.ofReference?])
    | some sender =>
      obtain rfl := Option.some.inj hpacket
      have hname := mem_keys_of_reference hb (Array.mem_toList_iff.mp hn)
      exact (hbare name hname).symm ▸ hname
  | terminal | charset | sequence | choice | repetition =>
    exact absurd hpacket (by simp [Packet.ofReference?])

/-- **The rule that takes the place of a control leaf is added**, unless it is a control rule. -/
theorem replacement_mem_addedTexts {control : Nat → Bool} (hpackets : r.packets = Packet.all g)
    {l : Node} (hl : l ∈ g.nodes) (hcontrol : control l.id = true) {text : String}
    (hmessage : ∀ id name sender recipient, l = .reference id name (some sender) recipient →
      (⟨some sender, recipient, name⟩ : Packet) ∈ Packet.all g) (hleaf : l.IsLeaf)
    (htext : r.replacementText? l = some text) :
    (r.replacement l, text) ∈ addedTexts g control := by
  cases l with
  | terminal | charset =>
    obtain rfl := Option.some.inj htext
    exact literal_mem_addedTexts hl hcontrol rfl
  | reference id name sender recipient =>
    cases sender with
    | none => exact absurd htext (by simp [replacementText?])
    | some sender =>
      obtain rfl := Option.some.inj htext
      rw [replacement, tokenOf, hpackets]
      exact packet_mem_addedTexts (List.idxOf_lt_length_of_mem (hmessage _ _ _ _ rfl))
  | sequence | choice | repetition => exact hleaf.elim

/-- **What is reduced is a reduction.** -/
theorem exists_reduces (hd : d.Coherent) (h : d.build = .ok g) (hbare : g.BareNames)
    (hmarks : Unmarked g) (hr : g.reduce = .ok r) : ∃ found, Reduces g found r := by
  have hb := Draft.builds_of_build h
  have hg := hd.wellFormed h
  obtain ⟨ids, hids, hpackets, hliterals, hbuild⟩ := exists_of_reduce hr
  have hbuilds := Draft.builds_of_build hbuild
  have hreduced := coherent_addTexts
    (coherent_reduceBodies (hb.coherent_toDraft hd) ids.contains) (addedTexts g ids.contains)
  obtain ⟨found, hfound, hcontrolIds⟩ := exists_controlRules hg hbare
    (Dictionary.has_iff_mem_keys.mp hb.has_start) hids
  have hcontrol : ∀ {name body}, found.find? name = some body → ∀ n ∈ body.subnodes,
      ids.contains n.id = true := fun hbody n hn =>
    List.contains_iff_mem.mpr ((hcontrolIds n.id).mpr ⟨_, _, hbody, n, hn, rfl⟩)
  have hoccurs : ∀ {name body l}, found.find? name = some body → l ∈ body.leaves → g.Occurs l :=
    fun hbody hl => (Grammar.occurs_of_body? (hfound.body hbody)).of_mem_subnodes
      (mem_subnodes_of_mem_leaves hl)
  have hbody' : ∀ {name body}, found.find? name = some body →
      r.grammar.body? name = some (reduceNode (Packet.all g) ids.contains body) := fun hbody =>
    body?_of_unmarked hbuilds hmarks (hfound.body hbody)
  -- Every control leaf has become a reference.
  have hleaf : ∀ {name body l}, found.find? name = some body → l ∈ body.leaves →
      reduceNode (Packet.all g) ids.contains l =
        .reference l.id (r.replacement l) l.sender? l.recipient? := by
    intro name body l hbody hl
    rw [← hpackets]
    refine reduceNode_leaf (isLeaf_of_mem_leaves hl)
      (hcontrol hbody l (mem_subnodes_of_mem_leaves hl)) ?_
    rintro id other sender recipient rfl
    rw [hpackets]
    exact mem_all_of_occurs hg hbare (hoccurs hbody hl)
  refine ⟨found, hfound, fun {name} hname => ?_, fun {name body l value} hbody hl hvalue => ?_,
    hreduced.wellFormed hbuild, bareNames_of_builds hbuilds hbare,
    start_of_builds hbuilds, fun hbody hl => ?_, fun {name body} hbody => ?_,
    fun {name body _ l} hbody hfind hl hisleaf => ?_, fun {name body l text} hbody hl htext => ?_⟩
  · obtain ⟨body, hbody⟩ := Dictionary.exists_find?_of_mem_keys hname
    have hrule := Dictionary.mem_keys_of_find? (hfound.body hbody)
    rw [hliterals]
    exact ⟨packetOfRule?_eq_none (hmarks _ hrule).1,
      find?_literalsOf_of_unmarked hmarks hrule⟩
  · rw [hliterals]
    exact find?_literalsOf (hb.coherent_toDraft hd)
      (Array.mem_of_getElem? (hg.numbered (hoccurs hbody hl)))
      (hcontrol hbody l (mem_subnodes_of_mem_leaves hl)) hvalue
  · rw [hpackets]
    exact (mem_all_of_occurs hg hbare (hoccurs hbody hl)).2
  · refine ⟨_, hbody' hbody, fun cs => ?_⟩
    rw [matches_reduceNode]
    refine lifts_congr fun ls hls l hl c => ?_
    rw [hleaf hbody (mem_leaves_of_spells hls l hl)]
    rfl
  · obtain rfl := Option.some.inj (hfind.symm.trans (hbody' hbody))
    rw [subnodes_reduceNode] at hl
    obtain ⟨k, hk, rfl⟩ := List.mem_map.mp hl
    have hk := mem_leaves_of_isLeaf hk (isLeaf_of_reduceNode _ _ hisleaf)
    exact ⟨k, hk, hleaf hbody hk⟩
  · have hl' := hoccurs hbody hl
    have hadded := replacement_mem_addedTexts hpackets (Array.mem_of_getElem? (hg.numbered hl'))
      (hcontrol hbody l (mem_subnodes_of_mem_leaves hl)) (by
        rintro id name sender recipient rfl
        exact (mem_all_of_occurs hg hbare hl').2) (isLeaf_of_mem_leaves hl) htext
    obtain ⟨id, -, hid⟩ := body?_of_mem_addedTexts hbuilds hadded
    exact ⟨id, hid⟩

end Reduces

end Reduction

end GrammarFuzzing
