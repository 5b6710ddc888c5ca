import GrammarFuzzing.Proofs.Parse.Sentence
import Mathlib.Order.Bounds.Basic

/-!
# How far an input can be followed

An input that cannot be parsed is reported with the furthest position of its chart. It is the
greatest offset that a tree of the symbol **reaches** (`GrammarFuzzing.Tree.Reaches`): the leaves
before some boundary in it render as the input up to the offset
(`GrammarFuzzing.Document.noMatch_furthest`). Offsets inside a leaf do not count, however much of
the leaf the input has.

* The position is not too far. An item that holds there belongs to a goal that was predicted, and
  whatever the goal lists stands within what the root lists, after the input so far
  (`GrammarFuzzing.FlatGrammar.Predicted.exists_around`). What the dot has not passed yet is listed,
  too, where there are no dead ends, so that the item stands at a boundary of a tree
  (`GrammarFuzzing.Item.Holds.exists_goalLists`).
* It is not too near. An item follows the trees that its remaining atoms derive leaf by leaf, and
  hands over to an item of a goal that the boundary lies in (`GrammarFuzzing.Item.Holds.follows`).
-/

namespace GrammarFuzzing

/-- **A tree reaches an offset of an input**: the leaves before a boundary in it render as the input
up to there. -/
def Tree.Reaches (t : Tree) (w : Bytes) (k : Nat) : Prop :=
  k ≤ w.length ∧ ∃ before after, t.literals = before ++ after ∧
    before.flatMap Literal.toBytes = w.take k

namespace Chart

variable {input : Array UInt8} {i : Nat} {w : Bytes}

/-- The input up to a position and the bytes that stand there. -/
theorem take_append_of_bytesAt (h : bytesAt input i w = true) :
    input.toList.take i ++ w = input.toList.take (i + w.length) := by
  rw [List.take_add, ← List.prefix_iff_eq_take.mp (bytesAt_iff_starts.mp h)]

/-- Bytes that continue the input up to a position stand there. -/
theorem bytesAt_of_take {k : Nat} (hi : i ≤ input.size) (hk : k ≤ input.size)
    (h : input.toList.take i ++ w = input.toList.take k) :
    bytesAt input i w = true ∧ i + w.length = k := by
  have hlength := congrArg List.length h
  rw [List.length_append, List.length_take, List.length_take, Array.length_toList] at hlength
  obtain rfl : i + w.length = k := by omega
  rw [List.take_add] at h
  exact ⟨bytesAt_iff_starts.mpr (List.prefix_iff_eq_take.mpr (List.append_cancel_left h)), rfl⟩

end Chart

namespace FlatGrammar

variable {f : FlatGrammar} {input : Array UInt8} {root goal : Goal} {i k : Nat}

/-! ### Not too far -/

/-- **Atoms that were read list literals of the input**, and an alternative lists them before
whatever the rest of it does. -/
theorem exists_lists_of_reads {p : Production} {n d origin : Nat}
    (hp : f.productions[n]? = some p)
    (hreads : f.Reads input (p.atoms.toList.take d) origin k) :
    ∃ us : List Literal,
      input.toList.take origin ++ us.flatMap Literal.toBytes = input.toList.take k ∧
        ∀ vs, f.Lists (p.atoms.toList.drop d) vs → f.GoalLists p.goal (us ++ vs) := by
  obtain ⟨ts, hderives, hbytes, rfl⟩ := Search.exists_builds hreads
  refine ⟨Tree.listLiterals ts, ?_, fun vs hvs => ⟨_, ⟨n, p, hp, rfl, rfl⟩, ?_⟩⟩
  · rw [Tree.flatMap_listLiterals]
    exact Chart.take_append_of_bytesAt hbytes
  · rw [← List.take_append_drop d p.atoms.toList]
    exact Lists.append ⟨ts, hderives, rfl⟩ hvs

variable {P : Goal → Prop}

/-- Atoms without dead ends list something. -/
theorem Live.exists_lists (hP : f.Live P) {atoms : List Atom} (h : GoalsIn P atoms) :
    ∃ vs, f.Lists atoms vs := by
  obtain ⟨-, ts, hts, -⟩ := hP.exists_yields h
  exact ⟨_, ts, hts, rfl⟩

/-- The goals after a dot in a production of a goal without dead ends. -/
theorem Live.goalsIn_drop (hP : f.Live P) {p : Production} {n : Nat}
    (hp : f.productions[n]? = some p) (hgoal : P p.goal) (d : Nat) :
    GoalsIn P (p.atoms.toList.drop d) :=
  fun goal sender recipient hmem =>
    hP.closed hgoal ⟨n, p, hp, rfl, rfl⟩ goal sender recipient (List.mem_of_mem_drop hmem)

/-- **What a predicted goal lists stands within what the root lists**, after the input up to the
position, if the root leads to no dead end. -/
theorem Predicted.exists_around (hP : f.Live P) (hroot : P root)
    (h : f.Predicted input root goal i) :
    P goal ∧ ∃ before after : List Literal,
      before.flatMap Literal.toBytes = input.toList.take i ∧
        ∀ vs, f.GoalLists goal vs → f.GoalLists root (before ++ (vs ++ after)) := by
  induction h with
  | root => exact ⟨hroot, [], [], rfl, fun vs hvs => by rwa [List.append_nil, List.nil_append]⟩
  | @step p n d origin position goal sender recipient hp _ hreads ha ih =>
    obtain ⟨hgoal, before, after, hbefore, haround⟩ := ih
    obtain ⟨us, hus, hlists⟩ := exists_lists_of_reads hp hreads
    obtain ⟨hlt, hget⟩ := Array.getElem?_eq_some_iff.mp ha
    have hdrop : p.atoms.toList.drop d =
        .goal goal sender recipient :: p.atoms.toList.drop (d + 1) := by
      rw [List.drop_eq_getElem_cons (by simpa using hlt), Array.getElem_toList, hget]
    have hrest := hP.goalsIn_drop hp hgoal d
    rw [hdrop] at hrest
    obtain ⟨ws, hws⟩ := hP.exists_lists hrest.tail
    refine ⟨hrest.head, before ++ us, ws ++ after, ?_, fun vs hvs => ?_⟩
    · rw [List.flatMap_append, hbefore, hus]
    · have hall := haround _ (hlists (vs ++ ws) (hdrop ▸ (hvs.atom sender recipient).append hws))
      simpa only [List.append_assoc] using hall

end FlatGrammar

section Items

open FlatGrammar

variable {f : FlatGrammar} {input : Array UInt8} {root : Goal} {k : Nat}

/-- **An item stands at a boundary** in what the root lists. -/
theorem Item.Holds.exists_goalLists {P : Goal → Prop} (hP : f.Live P) (hroot : P root)
    {item : Item} (h : item.Holds f input root k) : ∃ before after : List Literal,
      f.GoalLists root (before ++ after) ∧
        before.flatMap Literal.toBytes = input.toList.take k := by
  obtain ⟨p, hp, -, hpredicted, hreads⟩ := h
  obtain ⟨hgoal, before, after, hbefore, haround⟩ := hpredicted.exists_around hP hroot
  obtain ⟨us, hus, hlists⟩ := exists_lists_of_reads hp hreads
  obtain ⟨ws, hws⟩ := hP.exists_lists (hP.goalsIn_drop hp hgoal item.dot)
  refine ⟨before ++ us, ws ++ after, ?_, ?_⟩
  · have hall := haround _ (hlists ws hws)
    simpa only [List.append_assoc] using hall
  · rw [List.flatMap_append, hbefore, hus]

/-! ### Not too near -/

/-- **Items follow derived trees leaf by leaf.** If an item holds before atoms that derive some
trees, and the input goes on with the first leaves of these, an item holds after them. -/
theorem Item.Holds.follows {atoms : List Atom} {ts : List Tree} (hts : f.Derives atoms ts) :
    ∀ (item : Item) {p : Production} {i : Nat} {us vs : List Literal},
      f.productions[item.production]? = some p → p.atoms.toList.drop item.dot = atoms →
        item.Holds f input root i → Tree.listLiterals ts = us ++ vs →
          Chart.bytesAt input i (us.flatMap Literal.toBytes) = true →
            ∃ item' : Item, item'.Holds f input root (i + (us.flatMap Literal.toBytes).length) := by
  -- The atom after the dot is passed if the leaves to follow go beyond it. Otherwise it is a goal
  -- that they end in, and an alternative of the goal is followed from its start.
  have hatom : ∀ {item : Item} {p : Production} {a : Atom} {rest : List Atom},
      f.productions[item.production]? = some p → p.atoms.toList.drop item.dot = a :: rest →
        f.atomAt? item.production item.dot = some a := fun hp hdrop =>
    atomAt?_eq_some.mpr ⟨_, hp, (atom_of_drop hdrop).1⟩
  induction hts with
  | nil =>
    intro item p i us vs _ _ h hsplit _
    rw [Tree.listLiterals_nil, List.nil_eq_append_iff] at hsplit
    rw [hsplit.1]
    exact ⟨item, h⟩
  | @literal value rest ts _ ih =>
    intro item p i us vs hp hdrop h hsplit hbytes
    rw [Tree.listLiterals_cons, Tree.literals_leaf] at hsplit
    cases us with
    | nil => exact ⟨item, h⟩
    | cons u us =>
      obtain ⟨rfl, hrest⟩ := List.cons.inj hsplit
      rw [List.flatMap_cons, Chart.bytesAt_append, Bool.and_eq_true] at hbytes
      rw [List.flatMap_cons, List.length_append, ← Nat.add_assoc]
      exact ih item.advanced hp (atom_of_drop hdrop).2
        (h.advanced (hatom hp hdrop) (.literal hbytes.1 .nil)) hrest hbytes.2
  | @goal goal sender recipient as rest cs ts halt hcs _ ihcs ihts =>
    intro item p i us vs hp hdrop h hsplit hbytes
    rw [Tree.listLiterals_append, Search.listLiterals_wrap, List.append_eq_append_iff] at hsplit
    rcases hsplit with ⟨ws, rfl, hsplit⟩ | ⟨ws, hsplit, -⟩
    · rw [List.flatMap_append, Tree.flatMap_listLiterals, Chart.bytesAt_append,
        Bool.and_eq_true] at hbytes
      rw [List.flatMap_append, Tree.flatMap_listLiterals, List.length_append, ← Nat.add_assoc]
      exact ihts item.advanced hp (atom_of_drop hdrop).2 (h.advanced (hatom hp hdrop)
        (reads_cons_goal.mpr ⟨_, ⟨as, halt, hcs.reads hbytes.1⟩, .nil⟩)) hsplit hbytes.2
    · obtain ⟨n, q, hq, rfl, rfl⟩ := halt
      exact ihcs ⟨n, 0, i⟩ hq rfl
        (Item.holds_start hq (h.predicted (hatom hp hdrop))) hsplit hbytes

/-- **Items hold at every boundary** in what the root lists, as long as it agrees with the input. -/
theorem FlatGrammar.GoalLists.exists_holds {before after : List Literal}
    (h : f.GoalLists root (before ++ after))
    (hbytes : Chart.bytesAt input 0 (before.flatMap Literal.toBytes) = true) :
    ∃ item : Item, item.Holds f input root (before.flatMap Literal.toBytes).length := by
  obtain ⟨atoms, ⟨n, p, hp, rfl, rfl⟩, ts, hts, hsplit⟩ := h
  obtain ⟨item, hitem⟩ := Item.Holds.follows hts ⟨n, 0, 0⟩ hp rfl
    (Item.holds_start hp .root) hsplit hbytes
  rw [Nat.zero_add] at hitem
  exact ⟨item, hitem⟩

end Items

/-! ### The furthest position -/

namespace Chart

open FlatGrammar

variable {f : FlatGrammar} {input : Array UInt8} {root : Goal}

/-- **The furthest position is the greatest one with an item**, if there is any item. -/
theorem isGreatest_furthest {c : Chart} (hitem : ∃ k item, item ∈ c.itemsAt k)
    (hbound : ∀ {k item}, item ∈ c.itemsAt k → k < c.sets.size) :
    IsGreatest {k | ∃ item, item ∈ c.itemsAt k} c.furthest := by
  have hempty : ∀ {k}, (!(c.itemsAt k).isEmpty) = true ↔ ∃ item, item ∈ c.itemsAt k := by
    intro k
    rw [Bool.not_eq_true', Array.isEmpty_eq_false_iff_exists_mem]
  have hmem : ∀ {k item}, item ∈ c.itemsAt k → k ∈ (List.range c.sets.size).reverse := fun h =>
    List.mem_reverse.mpr (List.mem_range.mpr (hbound h))
  obtain ⟨k, item, hk⟩ := hitem
  cases hfound : (List.range c.sets.size).reverse.find? fun i => !(c.itemsAt i).isEmpty with
  | none => exact absurd (hempty.mpr ⟨item, hk⟩) (List.find?_eq_none.mp hfound k (hmem hk))
  | some last =>
    obtain ⟨hlast, before, after, hsplit, hbefore⟩ := List.find?_eq_some_iff_append.mp hfound
    rw [furthest, hfound, Option.getD_some]
    refine ⟨hempty.mp hlast, ?_⟩
    rintro j ⟨item, hj⟩
    -- The positions that were tried before have no item, and those after it are smaller.
    have hdecreasing : (before ++ last :: after).Pairwise (· > ·) := by
      rw [← hsplit, List.pairwise_reverse]
      exact List.pairwise_lt_range
    have htried := hmem hj
    rw [hsplit, List.mem_append, List.mem_cons] at htried
    rcases htried with htried | rfl | htried
    · have hno := hbefore j htried
      rw [hempty.mpr ⟨item, hj⟩] at hno
      exact absurd hno (by simp)
    · exact Nat.le_refl _
    · exact Nat.le_of_lt
        ((List.pairwise_cons.mp (List.pairwise_append.mp hdecreasing).2.1).1 j htried)

variable (input) in
/-- The furthest position of the chart of an input is the greatest one where an item holds. -/
theorem isGreatest_furthest_of (hf : f.Lawful) (hroot : ∃ atoms, f.Alternative root atoms) :
    IsGreatest {k | ∃ item : Item, item.Holds f input root k} (of f input root).furthest := by
  obtain ⟨-, n, p, hp, rfl, -⟩ := hroot
  have hstart : (Item.mk n 0 0).Holds f input p.goal 0 := Item.holds_start hp .root
  have hgreatest := isGreatest_furthest ⟨0, _, (mem_itemsAt hf).mpr hstart⟩ fun {k item} h => by
    rw [(sound_of hf).size]
    exact Nat.lt_succ_of_le ((mem_itemsAt hf).mp h).le_size
  simpa only [mem_itemsAt hf] using hgreatest

end Chart

namespace Grammar

open FlatGrammar

variable {g : Grammar} {s : String}

/-- What is not parsed is a mismatch at the furthest position of the chart. -/
theorem parse_ok_or_noMatch (hbare : g.BareNames) (hs : s ∈ g.rules.keys) (w : Bytes)
    (mode : ParseMode) : (∃ t, g.parse w s mode = .ok t) ∨
      g.parse w s mode =
        .error (.noMatch s (Chart.of (of g) w.toArray (.named s)).furthest w.length) := by
  obtain ⟨hname, body, hbody⟩ := hbare.exists_body hs
  have hrule : g.rule s = .ok body := by rw [rule, hname, hbody]
  rw [parse, hname, hrule]
  dsimp only
  split
  · exact Or.inl ⟨_, rfl⟩
  · exact Or.inr (by rw [List.size_toArray])

/-- **Trees reach the positions where items hold**, and no others, if the symbol leads to no dead
end. -/
theorem WellFormed.reaches_iff (hg : g.WellFormed) (hbare : g.BareNames) {names : String → Prop}
    (hnames : g.Makes names) (hs : names s) {w : Bytes} {k : Nat} :
    (∃ t : Tree, t.symbol = .nonTerminal s ∧ g.Valid t ∧ t.Reaches w k) ↔
      ∃ item : Item, item.Holds (of g) w.toArray (.named s) k := by
  constructor
  · rintro ⟨t, hsymbol, ht, hk, before, after, hsplit, hbytes⟩
    have hlists := (hg.goalLists_named hbare).mpr ⟨t, hsymbol, ht, hsplit⟩
    obtain ⟨hstart, hlength⟩ := Chart.bytesAt_of_take (Nat.zero_le w.toArray.size) hk
      (by simpa using hbytes)
    rw [Nat.zero_add] at hlength
    rw [← hlength]
    exact hlists.exists_holds hstart
  · rintro ⟨item, hitem⟩
    obtain ⟨before, after, hlists, hbytes⟩ :=
      hitem.exists_goalLists (hnames.live hg) (.named hs)
    obtain ⟨t, hsymbol, ht, hsplit⟩ := (hg.goalLists_named hbare).mp hlists
    exact ⟨t, hsymbol, ht, by simpa using hitem.le_size, before, after, hsplit, hbytes⟩

end Grammar

/-- **A mismatch is reported at the furthest position that can be reached**: the greatest offset of
the input at which some tree of the symbol has a boundary between its leaves, with the leaves before
it rendering as the input up to there. -/
theorem Document.noMatch_furthest {doc : Document} {g : Grammar} (h : doc.toGrammar = .ok g)
    (hbare : g.BareNames) (hchars : g.NoEmptyCharset) {s : String} (hs : s ∈ g.rules.keys)
    {w : Bytes} {mode : ParseMode} {name : String} {k n : Nat}
    (hparse : g.parse w s mode = .error (.noMatch name k n)) :
    name = s ∧ n = w.length ∧ k ≤ n ∧
      IsGreatest {k | ∃ t : Tree, t.symbol = .nonTerminal s ∧ g.validate t = .ok () ∧
        t.Reaches w k} k := by
  have hg := wellFormed_of_toGrammar h
  have hmakes := hg.makes (Draft.builds_of_build h).isProductive hchars
  obtain ⟨-, body, hbody⟩ := hbare.exists_body hs
  have hfurthest := Chart.isGreatest_furthest_of w.toArray (FlatGrammar.lawful_of g)
    (hg.exists_alternative hbody)
  rcases Grammar.parse_ok_or_noMatch hbare hs w mode with ⟨t, ht⟩ | hnoMatch
  · exact absurd (ht.symm.trans hparse) (by simp)
  · obtain ⟨rfl, rfl, rfl⟩ := ParseError.noMatch.inj (Except.error.inj (hnoMatch.symm.trans hparse))
    simp only [← hg.reaches_iff hbare hmakes hs, ← hg.validate_eq_ok] at hfurthest
    obtain ⟨t, -, -, hle, -⟩ := hfurthest.1
    exact ⟨rfl, rfl, hle, hfurthest⟩

/-- Words are all alike. -/
theorem Document.literals_accented {g : Grammar} (h : accented.toGrammar = .ok g) {t : Tree}
    (hsymbol : t.symbol = .nonTerminal "word") (ht : g.Valid t) :
    t.literals = [.text "é", .bytes [0, 255]] := by
  obtain rfl := Except.ok.inj ((show accented.toGrammar = .ok _ from rfl).symm.trans h)
  obtain ⟨⟨body, hbody, hmatch⟩, hvalid⟩ := (Grammar.valid_nonTerminal hsymbol).mp ht
  obtain rfl := Option.some.inj ((show _ = some _ from rfl).symm.trans hbody)
  obtain ⟨_, _, hchildren, ⟨c, rfl, hc⟩, _, _, rfl, ⟨d, rfl, hd⟩, rfl⟩ := hmatch
  rw [hchildren] at hvalid
  rw [Tree.literals_nonTerminal hsymbol, hchildren]
  have hcs := (hvalid c (by simp)).literals_terminal (of_decide_eq_true hc)
  have hds := (hvalid d (by simp)).literals_terminal (of_decide_eq_true hd)
  simp [hcs, hds]

/-- Boundaries are before the letter, after it, and after the two bytes. -/
theorem Document.isGreatest_accented {g : Grammar} (h : accented.toGrammar = .ok g) :
    IsGreatest {k | ∃ t : Tree, t.symbol = .nonTerminal "word" ∧ g.validate t = .ok () ∧
      t.Reaches [0xc3, 0xa9, 0] k} 2 := by
  have hg := wellFormed_of_toGrammar h
  constructor
  · obtain rfl := Except.ok.inj ((show accented.toGrammar = .ok _ from rfl).symm.trans h)
    exact ⟨.branch "word" [.leaf (.text "é"), .leaf (.bytes [0, 255])], rfl, rfl, by decide,
      [.text "é"], [.bytes [0, 255]], literals_accented h rfl (hg.validate_eq_ok.mp rfl), rfl⟩
  · rintro k ⟨t, hsymbol, hvalid, hk, before, after, hsplit, hbytes⟩
    rw [literals_accented h hsymbol (hg.validate_eq_ok.mp hvalid)] at hsplit
    have hlength := congrArg List.length hbytes
    rw [List.length_take, Nat.min_eq_left hk] at hlength
    match before, hsplit with
    | [], _ => exact hlength ▸ Nat.zero_le 2
    | [_], hsplit =>
      obtain ⟨rfl, -⟩ := List.cons.inj hsplit
      exact Nat.le_of_eq hlength.symm
    | _ :: _ :: before, hsplit =>
      obtain ⟨rfl, htail⟩ := List.cons.inj hsplit
      obtain ⟨rfl, -⟩ := List.cons.inj htail
      have htext : (Literal.text "é").toBytes.length = 2 := rfl
      have hraw : (Literal.bytes [0, 255]).toBytes.length = 2 := rfl
      have hthree : k ≤ 3 := hk
      rw [List.flatMap_cons, List.flatMap_cons, List.length_append, List.length_append] at hlength
      omega

/-- A word that breaks off after one of its last two bytes can be followed to the end of its letter,
not into the bytes after it. -/
theorem Document.noMatch_accented : ∃ g, accented.toGrammar = .ok g ∧
    g.parse [0xc3, 0xa9, 0] "word" .complete = .error (.noMatch "word" 2 3) ∧
    IsGreatest {k | ∃ t : Tree, t.symbol = .nonTerminal "word" ∧ g.validate t = .ok () ∧
      t.Reaches [0xc3, 0xa9, 0] k} 2 := by
  obtain ⟨g, h, hbare, hs, hchars⟩ : ∃ g, accented.toGrammar = .ok g ∧ g.BareNames ∧
      "word" ∈ g.rules.keys ∧ g.NoEmptyCharset :=
    ⟨_, rfl, (by decide : ∀ name ∈ ["word"], bareName name = name),
      (by decide : "word" ∈ ["word"]), by decide⟩
  have hg := wellFormed_of_toGrammar h
  rcases Grammar.parse_ok_or_noMatch hbare hs [0xc3, 0xa9, 0] .complete with ⟨t, ht⟩ | hnoMatch
  · obtain ⟨hsymbol, hvalid, hbytes⟩ := hg.parse_sound hbare hs ht
    rw [← Tree.flatMap_literals, literals_accented h hsymbol hvalid] at hbytes
    exact absurd hbytes (by decide)
  · obtain ⟨-, -, -, hgreatest⟩ := noMatch_furthest h hbare hchars hs hnoMatch
    rw [hgreatest.unique (isGreatest_accented h)] at hnoMatch hgreatest
    exact ⟨g, h, hnoMatch, hgreatest⟩

end GrammarFuzzing
