import GrammarFuzzing.Proofs.Fuzz.Budget
import GrammarFuzzing.Proofs.Random.Possible
import GrammarFuzzing.Proofs.Tree.Shape
import Mathlib.Tactic.Ring

/-!
# No shape is out of reach

A budget steers random expansion away from large trees, and it must not make a shape impossible: an
option that does not fit is not drawn, and a repetition stops when another copy does not fit. This
file proves that a large enough budget rules out nothing. Without hints and generators, every shape
that derives with no repetition going beyond what the fuzzer draws for it
(`GrammarFuzzing.Grammar.capped`) is made from some words of the source, within *every* budget above
the square of its size (`GrammarFuzzing.Draft.fuzzSymbol_complete`).

What has to be kept along a derivation is a **spare**: while a node is expanded to a list of trees,
its budget is at least the size of the list and the spare together
(`GrammarFuzzing.Fuzzer.mayGive_expandNode`). Distances are lower bounds of sizes, so all that is
still to be made always fits.

* An option has at most the size of the list as its distance, and this is below the budget.
* What a sequence keeps back for its later parts, or a repetition for the copies that must follow,
  is no more than the size of the trees that they are going to be.

A symbol takes one node off the budget, and passes on to the symbols in its rule what is left
without their siblings. Squares leave enough room for that.
-/

namespace GrammarFuzzing

/-! ### Derivations within a cap -/

namespace Node

mutual

/-- **A node with an upper bound for every repetition.** Where there is none it is `most`, or the
lower bound if that is greater. -/
def cap (most : Nat) : Node → Node
  | .terminal id value => .terminal id value
  | .charset id chars => .charset id chars
  | .reference id name sender recipient => .reference id name sender recipient
  | .sequence id parts => .sequence id (listCap most parts)
  | .choice id options => .choice id (listCap most options)
  | .repetition id body min max form =>
    .repetition id (cap most body) min (some (max.getD (Nat.max most min))) form

/-- Several nodes with an upper bound for every repetition. -/
def listCap (most : Nat) : List Node → List Node
  | [] => []
  | n :: rest => cap most n :: listCap most rest

end

mutual

/-- What a capped node stands for the node stands for. -/
theorem matches_of_cap {most : Nat} : ∀ {n : Node} {cs : List Tree},
    (n.cap most).Matches cs → n.Matches cs
  | .terminal _ _, _, h | .charset _ _, _, h | .reference _ _ _ _, _, h => by rwa [cap] at h
  | .sequence _ parts, _, h => by
    rw [cap, Matches] at h
    rw [Matches]
    exact matchesAll_of_listCap h
  | .choice _ options, _, h => by
    rw [cap, Matches] at h
    rw [Matches]
    exact matchesSome_of_listCap h
  | .repetition _ body min max _, _, h => by
    rw [cap, Matches] at h
    obtain ⟨k, hmin, hmax, hcopies⟩ := h
    rw [Matches]
    refine ⟨k, hmin, fun m hm => ?_, hcopies.mono fun ds hds => matches_of_cap hds⟩
    subst hm
    exact hmax m rfl

theorem matchesAll_of_listCap {most : Nat} : ∀ {ns : List Node} {cs : List Tree},
    MatchesAll (listCap most ns) cs → MatchesAll ns cs
  | [], _, h => by rwa [listCap] at h
  | n :: ns, _, h => by
    rw [listCap] at h
    obtain ⟨ds, es, rfl, hds, hes⟩ := h
    exact ⟨ds, es, rfl, matches_of_cap hds, matchesAll_of_listCap hes⟩

theorem matchesSome_of_listCap {most : Nat} : ∀ {ns : List Node} {cs : List Tree},
    MatchesSome (listCap most ns) cs → MatchesSome ns cs
  | [], _, h => by rwa [listCap] at h
  | n :: ns, _, h => by
    rw [listCap] at h
    exact h.imp matches_of_cap matchesSome_of_listCap

end

end Node

namespace Grammar

/-- **The grammar with an upper bound for every repetition.** A tree is valid in it if it has a
derivation in which a repetition without an upper bound is used at most so many times, or as often
as it has to be. -/
def capped (g : Grammar) (most : Nat) : Grammar :=
  { g with
    rules := g.rules.map fun p => (p.1, p.2.cap most)
    distances := ruleDistances (g.rules.map fun p => (p.1, p.2.cap most))
    distances_eq := rfl }

variable {g : Grammar}

theorem body?_capped (most : Nat) (name : String) :
    (g.capped most).body? name = (g.body? name).map (Node.cap most) :=
  Dictionary.find?_map (Node.cap most) g.rules name

theorem exists_body?_of_capped {most : Nat} {name : String} {body : Node}
    (h : (g.capped most).body? name = some body) :
    ∃ n, g.body? name = some n ∧ body = n.cap most := by
  rw [body?_capped, Option.map_eq_some_iff] at h
  obtain ⟨n, hn, rfl⟩ := h
  exact ⟨n, hn, rfl⟩

/-- **What derives within a cap derives.** -/
theorem Valid.of_capped {most : Nat} {t : Tree} (h : (g.capped most).Valid t) : g.Valid t := by
  refine h.of_rules fun name body hbody => ?_
  obtain ⟨n, hn, rfl⟩ := exists_body?_of_capped hbody
  exact ⟨n, hn, fun cs hcs => Node.matches_of_cap hcs⟩

end Grammar

/-! ### Attempts that may give a value -/

namespace Attempt

variable {ε α β : Type} {x : α} {P : α → Prop} {Q : β → Prop}

/-- **From some source an attempt gives a value with a property**, and leaves the source at the end
of the words that it takes. -/
def MayGive (a : Attempt ε α) (P : α → Prop) : Prop :=
  ∃ x, Draw.CanGive a.run (.ok x) ∧ P x

theorem mayGive_pure (h : P x) : MayGive (pure x : Attempt ε α) P :=
  ⟨x, Draw.canGive_pure _, h⟩

/-- **One step before the rest.** -/
theorem MayGive.bind {a : Attempt ε α} {next : α → Attempt ε β} (ha : MayGive a P)
    (hnext : ∀ x, P x → MayGive (next x) Q) : MayGive (a >>= next) Q := by
  obtain ⟨x, hx, hP⟩ := ha
  obtain ⟨y, hy, hQ⟩ := hnext x hP
  refine ⟨y, ?_, hQ⟩
  rw [ExceptT.run_bind]
  exact hx.bind hy

theorem mayGive_lift {d : Draw α} (hd : Draw.CanGive d x) :
    MayGive (Attempt.lift d : Attempt ε α) (· = x) := by
  refine ⟨x, ?_, rfl⟩
  change Draw.CanGive (Except.ok <$> d) (Except.ok x)
  rw [← bind_pure_comp]
  exact hd.bind (Draw.canGive_pure _)

/-- There are words from which an attempt that may give a value does. -/
theorem MayGive.run {a : Attempt ε α} (h : MayGive a P) :
    ∃ words x, (a.run.run (.ofWords words)).1 = .ok x ∧ P x := by
  obtain ⟨x, hx, hP⟩ := h
  obtain ⟨words, hwords⟩ := hx.run
  exact ⟨words, x, hwords, hP⟩

end Attempt

namespace Fuzzer

open Attempt GrammarFuzzing.Tree

/-! ### Counts and options -/

variable {f : Fuzzer}

theorem canGive_fires {p : Float} (h : ¬ p > 0.0) : Draw.CanGive (fires p) false := by
  rw [fires, if_neg h]
  exact Draw.canGive_pure false

/-- **Every count between the bounds may be drawn**, where nothing is hinted. -/
theorem canGive_repetitionCount {id min k : Nat} {body : Node} {max : Option Nat}
    {form : RepetitionForm} (hhint : f.hinted (.repetition id body min max form) = false)
    (hmin : min ≤ k) (hmax : k ≤ max.getD (Nat.max f.settings.maxRepetitions min))
    (hintFixed : Bool) :
    Draw.CanGive (f.repetitionCount (f.grammar.settingsOf (.repetition id body min max form)) min
      max form hintFixed) (k, false) := by
  have hplain : Draw.CanGive (do return (← Draw.between min
      (max.getD (Nat.max f.settings.maxRepetitions min)), false)) (k, false) :=
    (Draw.canGive_between hmin hmax).bind (Draw.canGive_pure _)
  cases form with
  | star | bounded => exact hplain
  | plus =>
    rw [repetitionCount]
    split
    · exact (canGive_fires (of_decide_eq_false hhint)).bind hplain
    · exact hplain
  | optional =>
    rw [repetitionCount]
    split
    · exact (canGive_fires (of_decide_eq_false hhint)).bind hplain
    · exact hplain

/-- A reference may be expanded once, where nothing is hinted. -/
theorem canGive_referenceCount {id : Nat} {name : String} {sender recipient : Option String}
    (hhint : f.hinted (.reference id name sender recipient) = false) (hintFixed : Bool) :
    Draw.CanGive (f.referenceCount (f.grammar.settingsOf (.reference id name sender recipient))
      hintFixed) 1 := by
  rw [referenceCount]
  split
  · exact Draw.canGive_pure 1
  · exact (canGive_fires (of_decide_eq_false hhint)).bind (Draw.canGive_pure 1)

/-- **Every option that fits may be chosen.** -/
theorem canGive_chooseOption {options : List Node} {i budget : Nat} {n : Node}
    (hi : options[i]? = some n) (hfits : f.grammar.distance n < budget) :
    Draw.CanGive (f.chooseOption options budget) (i, budget) := by
  obtain ⟨hlength, rfl⟩ := List.getElem?_eq_some_iff.mp hi
  have hmem : i ∈ (List.range options.length).filter fun i =>
      (options.map f.grammar.distance).getD i 0 < budget := by
    rw [List.mem_filter, List.mem_range, decide_eq_true_iff, getD_map_distance hlength]
    exact ⟨hlength, hfits⟩
  rw [chooseOption]
  dsimp only
  rw [if_neg (by simpa using List.ne_nil_of_mem hmem)]
  obtain ⟨j, hj, hij⟩ := List.getElem_of_mem hmem
  refine (Draw.canGive_below hj).bind ?_
  rw [List.getD_eq_getElem?_getD, List.getElem?_eq_getElem hj, hij]
  exact Draw.canGive_pure _

/-! ### Loops -/

/-- Several trees of the shapes of others. -/
def SameShapes (us ds : List Tree) : Prop :=
  List.Forall₂ SameShape us ds

theorem SameShapes.append {us us' ds ds' : List Tree} (h : SameShapes us ds)
    (h' : SameShapes us' ds') : SameShapes (us ++ us') (ds ++ ds') :=
  List.rel_append h h'

theorem SameShapes.listSize_eq {us ds : List Tree} (h : SameShapes us ds) :
    listSize us = listSize ds :=
  listSize_eq_of_sameShape h

/-- **A repetition may make copies of every shape**, if it has a spare beyond their size. What is
reserved never is more than the size of the copies that must follow. -/
theorem mayGive_expandRepeated {expand : Nat → Attempt GrammarError (List Tree)}
    {P : List Tree → Prop} {distance least spare : Nat} (hspare : 0 < spare)
    (hdistance : ∀ ds, P ds → distance ≤ listSize ds)
    (h : ∀ ds, P ds → ∀ budget, spare + listSize ds ≤ budget →
      MayGive (expand budget) (SameShapes · ds)) :
    ∀ {n made reserved remaining : Nat} {ds : List Tree}, Node.Copies P n ds → least ≤ made + n →
      reserved ≤ distance * (least - made) → spare + listSize ds ≤ remaining →
        MayGive (expandRepeated expand distance least false n made reserved remaining)
          (SameShapes · ds)
  | 0, _, _, _, _, hcopies, _, _, _ => by
    obtain rfl := hcopies
    rw [expandRepeated]
    exact mayGive_pure .nil
  | n + 1, made, reserved, remaining, _, hcopies, hleast, hreserved, hremaining => by
    obtain ⟨ds, es, rfl, hds, hes⟩ := hcopies
    rw [listSize_append] at hremaining
    have hfits := hdistance ds hds
    have hfollow : distance * n ≤ listSize es := hes.mul_le_listSize fun fs _ => hdistance fs
    have hnext : reserved - distance ≤ distance * (least - (made + 1)) := by
      rw [Nat.sub_add_eq, Nat.mul_sub_one]
      exact Nat.sub_le_sub_right hreserved distance
    have hless : distance * (least - (made + 1)) ≤ distance * n :=
      Nat.mul_le_mul_left distance (by omega)
    rw [expandRepeated, if_neg (by omega)]
    refine (h ds hds _ (by omega)).bind fun us hus => ?_
    have hsize := hus.listSize_eq
    refine (mayGive_expandRepeated hspare hdistance h hes (by omega) hnext
      (by omega)).bind fun vs hvs => ?_
    exact mayGive_pure (hus.append hvs)

/-! ### Nodes -/

/-- **A child that an expansion may make** with every budget from the spare on: it is valid, and if
it is the tree of a symbol, the symbol may expand to one of its shape. -/
structure Attainable (f : Fuzzer) (expand : SymbolExpansion) (inMessage : Bool) (spare : Nat)
    (c : Tree) : Prop where
  valid : f.grammar.Valid c
  mayGive : ∀ name, c.symbol = .nonTerminal name → ∀ sender recipient budget, spare ≤ budget →
    MayGive (expand name sender recipient budget inMessage) (SameShape · c)

section Nodes

variable {expand : SymbolExpansion} {inMessage : Bool} {spare : Nat} {cs : List Tree}

/-- A leaf has the shape of every valid terminal with its value. -/
theorem Attainable.sameShape_leaf {c : Tree} (hc : f.Attainable expand inMessage spare c)
    {value : Literal} (hsymbol : c.symbol = .terminal value) : (leaf value).SameShape c := by
  refine sameShape_iff.mpr ⟨hsymbol.symm, ?_⟩
  rw [(Grammar.valid_terminal hsymbol).mp hc.valid]
  exact .nil

/-- The distance of a node is a lower bound of the trees that it is to expand to. -/
theorem distance_le_listSize (hcs : ∀ c ∈ cs, f.Attainable expand inMessage spare c) {most : Nat}
    {n : Node} (h : (n.cap most).Matches cs) : f.grammar.distance n ≤ listSize cs :=
  Node.distanceWith_le_listSize (fun c hc _ hname => (hcs c hc).valid.satAdd_le_size hname)
    (Node.matches_of_cap h)

theorem totalDistance_le_listSize (hcs : ∀ c ∈ cs, f.Attainable expand inMessage spare c)
    {most : Nat} {ns : List Node} (h : Node.MatchesAll (Node.listCap most ns) cs) :
    Node.totalDistance (distanceIn f.grammar.distances) ns ≤ listSize cs :=
  Node.totalDistance_le_listSize (fun c hc _ hname => (hcs c hc).valid.satAdd_le_size hname)
    (Node.matchesAll_of_listCap h)

theorem distance_repetition_le (id min : Nat) (body : Node) (max : Option Nat)
    (form : RepetitionForm) : f.grammar.distance (.repetition id body min max form) ≤
      f.grammar.distance body * min := by
  rw [Grammar.distance, Node.distanceWith]
  split
  · exact Nat.zero_le _
  · exact Nat.min_le_left _ _

mutual

/-- **A node may expand to every shape that it derives within the cap**, if symbols may, and there
is a spare beyond its size. -/
theorem mayGive_expandNode (hhints : f.Unhinted) (hspare : 0 < spare) :
    ∀ {n : Node} {cs : List Tree}, f.grammar.Occurs n →
      (∀ c ∈ cs, f.Attainable expand inMessage spare c) →
        (n.cap f.settings.maxRepetitions).Matches cs → ∀ {budget}, spare + listSize cs ≤ budget →
          MayGive (f.expandNode expand inMessage n budget false) (SameShapes · cs)
  | .terminal id value, _, _, hcs, h, budget, _ => by
    rw [Node.cap, Node.Matches] at h
    obtain ⟨c, rfl, hc⟩ := h
    rw [expandNode]
    have hshape := (hcs c List.mem_cons_self).sameShape_leaf (of_decide_eq_true hc)
    exact mayGive_pure (.cons hshape .nil)
  | .charset id chars, _, _, hcs, h, budget, _ => by
    rw [Node.cap, Node.Matches] at h
    obtain ⟨c, rfl, hc⟩ := h
    obtain ⟨x, hx, hsymbol⟩ := Node.exists_of_isOneOf hc
    rw [expandNode]
    refine (mayGive_lift (Draw.canGive_pick? hx)).bind ?_
    rintro _ rfl
    exact mayGive_pure (.cons ((hcs c List.mem_cons_self).sameShape_leaf hsymbol) .nil)
  | .reference id name sender recipient, _, hn, hcs, h, budget, hbudget => by
    rw [Node.cap, Node.Matches] at h
    obtain ⟨c, rfl, hc⟩ := h
    rw [expandNode]
    refine (mayGive_lift (canGive_referenceCount (hhints.hinted_eq_false hn) false)).bind ?_
    rintro _ rfl
    have hchild := (hcs c List.mem_cons_self).mayGive name (of_decide_eq_true hc) sender recipient
    refine (hchild budget (by omega)).bind fun t ht => ?_
    exact mayGive_pure (.cons ht .nil)
  | .sequence id parts, _, hn, hcs, h, budget, hbudget => by
    rw [Node.cap, Node.Matches] at h
    rw [expandNode]
    have hparts : ∀ n ∈ parts, f.grammar.Occurs n := fun n hmem =>
      hn.of_mem_subnodes (Node.mem_subnodes_sequence hmem n.mem_subnodes_self)
    exact mayGive_expandParts hhints hspare hparts hcs h hbudget
  | .choice id options, _, hn, hcs, h, budget, hbudget => by
    rw [Node.cap, Node.Matches] at h
    rw [expandNode]
    have hoptions : ∀ n ∈ options, f.grammar.Occurs n := fun n hmem =>
      hn.of_mem_subnodes (Node.mem_subnodes_choice hmem n.mem_subnodes_self)
    obtain ⟨i, n, hi, hle, hoption⟩ := exists_mayGive_option hhints hspare hoptions hcs h
    have hfits : f.grammar.distance n < budget := by omega
    refine (mayGive_lift (canGive_chooseOption hi hfits)).bind ?_
    rintro _ rfl
    dsimp only
    rw [expandNth_eq hi]
    exact hoption hbudget
  | .repetition id body min max form, _, hn, hcs, h, budget, hbudget => by
    rw [Node.cap, Node.Matches] at h
    obtain ⟨k, hmin, hmax, hcopies⟩ := h
    rw [expandNode]
    refine (mayGive_lift (canGive_repetitionCount (hhints.hinted_eq_false hn) hmin (hmax _ rfl)
      false)).bind ?_
    rintro _ rfl
    have hbody := hn.of_mem_subnodes (Node.mem_subnodes_repetition body.mem_subnodes_self)
    refine mayGive_expandRepeated hspare (fun ds hds => distance_le_listSize hds.2 hds.1)
      (fun ds hds budget hbudget => ?_) (hcopies.and_forall_mem hcs) (by omega)
      (distance_repetition_le ..) hbudget
    exact mayGive_expandNode hhints hspare hbody hds.2 hds.1 hbudget

/-- The parts of a sequence may expand to every shape. Each leaves the others their size. -/
theorem mayGive_expandParts (hhints : f.Unhinted) (hspare : 0 < spare) :
    ∀ {parts : List Node} {cs : List Tree}, (∀ n ∈ parts, f.grammar.Occurs n) →
      (∀ c ∈ cs, f.Attainable expand inMessage spare c) →
        Node.MatchesAll (Node.listCap f.settings.maxRepetitions parts) cs →
          ∀ {remaining}, spare + listSize cs ≤ remaining →
            MayGive (f.expandParts expand inMessage false parts remaining) (SameShapes · cs)
  | [], _, _, _, h, _, _ => by
    rw [Node.listCap, Node.MatchesAll] at h
    subst h
    rw [expandParts]
    exact mayGive_pure .nil
  | n :: rest, _, hparts, hcs, h, remaining, hremaining => by
    rw [Node.listCap, Node.MatchesAll] at h
    obtain ⟨ds, es, rfl, hds, hes⟩ := h
    rw [listSize_append] at hremaining
    have hcds : ∀ c ∈ ds, f.Attainable expand inMessage spare c := fun c hc =>
      hcs c (List.mem_append_left es hc)
    have hces : ∀ c ∈ es, f.Attainable expand inMessage spare c := fun c hc =>
      hcs c (List.mem_append_right ds hc)
    have hfits := distance_le_listSize hcds hds
    have hlater := totalDistance_le_listSize hces hes
    rw [expandParts, partBudget, if_neg (by omega)]
    refine (mayGive_expandNode hhints hspare (hparts n List.mem_cons_self) hcds hds
      (by omega)).bind fun us hus => ?_
    have hsize := hus.listSize_eq
    refine (mayGive_expandParts hhints hspare (fun m hm => hparts m (List.mem_cons_of_mem n hm))
      hces hes (by omega)).bind fun vs hvs => ?_
    exact mayGive_pure (hus.append hvs)

/-- One of several options fits and may expand to a shape that one of them derives. -/
theorem exists_mayGive_option (hhints : f.Unhinted) (hspare : 0 < spare) :
    ∀ {options : List Node} {cs : List Tree}, (∀ n ∈ options, f.grammar.Occurs n) →
      (∀ c ∈ cs, f.Attainable expand inMessage spare c) →
        Node.MatchesSome (Node.listCap f.settings.maxRepetitions options) cs →
          ∃ (i : Nat) (n : Node), options[i]? = some n ∧ f.grammar.distance n ≤ listSize cs ∧
            ∀ {budget}, spare + listSize cs ≤ budget →
              MayGive (f.expandNode expand inMessage n budget false) (SameShapes · cs)
  | [], _, _, _, h => by
    rw [Node.listCap, Node.MatchesSome] at h
    exact h.elim
  | n :: rest, _, hoptions, hcs, h => by
    rw [Node.listCap, Node.MatchesSome] at h
    rcases h with h | h
    · refine ⟨0, n, rfl, distance_le_listSize hcs h, fun hbudget => ?_⟩
      exact mayGive_expandNode hhints hspare (hoptions n List.mem_cons_self) hcs h hbudget
    · obtain ⟨i, m, hi, hm⟩ := exists_mayGive_option hhints hspare
        (fun m hm => hoptions m (List.mem_cons_of_mem n hm)) hcs h
      exact ⟨i + 1, m, by simpa using hi, hm⟩

end

end Nodes

/-! ### Symbols -/

/-- The budget that is left for the symbols in a rule, beyond the size of their siblings. -/
theorem spare_le {size budget : Nat} (h : (size + 1) ^ 2 < budget) :
    size ^ 2 + 1 + size ≤ budget - 1 := by
  have hsquare : (size + 1) ^ 2 = size ^ 2 + 2 * size + 1 := by ring
  omega

/-- **A symbol may expand to every shape that it derives within the cap**, if it may be nested as
deeply as the shape is large, with every budget above the square of its size. -/
theorem mayGive_expandSymbol (hbare : f.grammar.BareNames) (hgenerators : f.grammar.generators = [])
    (hhints : f.Unhinted) : ∀ (depth : Nat) (generating : List String) {t : Tree} {name : String},
      t.symbol = .nonTerminal name → (f.grammar.capped f.settings.maxRepetitions).Valid t →
        t.size ≤ depth → ∀ sender recipient budget inMessage, t.size ^ 2 < budget →
          MayGive (f.expandSymbol depth generating name sender recipient budget inMessage)
            (SameShape · t)
  | 0, _, t, _, _, _, hdepth, _, _, _, _, _ => absurd t.size_pos (by omega)
  | depth + 1, generating, t, name, hsymbol, hvalid, hdepth, sender, recipient, budget, inMessage,
    hbudget => by
    obtain ⟨⟨body, hbody, hmatch⟩, hchildren⟩ := (Grammar.valid_nonTerminal hsymbol).mp hvalid
    obtain ⟨n, hn, rfl⟩ := Grammar.exists_body?_of_capped hbody
    have hname : bareName name = name := hbare name (Dictionary.mem_keys_of_find? hn)
    have hbare_body : f.grammar.body? (bareName name) = some n := by rw [hname, hn]
    rw [size_eq, Nat.add_comm] at hdepth hbudget
    rw [expandSymbol_of_body? hgenerators hbare_body]
    -- Each child has a smaller square, and the spare is what all of them need at the most.
    refine (mayGive_expandNode hhints (Nat.succ_pos (listSize t.children ^ 2))
      (Grammar.occurs_of_body? hn) (fun c hc => ⟨(hchildren c hc).of_capped, ?_⟩) hmatch
      (spare_le hbudget)).bind fun us hus => ?_
    · intro childName hchild sender' recipient' childBudget hspare
      have hsmaller : c.size ≤ listSize t.children := listSize_le_of_mem hc
      refine mayGive_expandSymbol hbare hgenerators hhints depth generating hchild
        (hchildren c hc) (by omega) sender' recipient' childBudget _ ?_
      exact Nat.lt_of_le_of_lt (Nat.pow_le_pow_left hsmaller 2) hspare
    · exact mayGive_pure (sameShape_iff.mpr ⟨hsymbol.symm, hus⟩)

end Fuzzer

/-- **Within every budget that is large enough a random tree can have every valid shape.** Let the
tree be valid in the grammar in which a repetition without an upper bound has the one of the fuzzer.
Then it is valid, and within every budget above the square of its size some words of the source make
fuzzing its symbol give a tree of its shape. This is for a grammar without generators in which
nothing is hinted, and whose rules have bare names. -/
theorem Draft.fuzzSymbol_complete {d : Draft} (hd : d.Coherent) {g : Grammar} (h : d.build = .ok g)
    (hbare : g.BareNames) (hgenerators : g.generators = []) (settings : FuzzSettings)
    (hhints : (Fuzzer.mk g settings).Unhinted) {s : String} {t : Tree}
    (hsymbol : t.symbol = .nonTerminal s) (hvalid : (g.capped settings.maxRepetitions).Valid t) :
    g.validate t = .ok () ∧ ∀ budget, t.size ^ 2 < budget → ∃ words u,
      (((Fuzzer.mk g settings).fuzzSymbol s budget).run.run (.ofWords words)).1 = .ok u ∧
        u.SameShape t := by
  have hg := hd.wellFormed h
  constructor
  · exact hg.validate_eq_ok.mpr hvalid.of_capped
  · intro budget hbudget
    obtain ⟨⟨body, hbody, -⟩, -⟩ := (Grammar.valid_nonTerminal hsymbol).mp hvalid.of_capped
    obtain ⟨-, hdepth⟩ := Fuzzer.lt_depthBound (f := ⟨g, settings⟩) hbody budget
    have hsize : t.size ≤ t.size ^ 2 := Nat.le_self_pow two_ne_zero t.size
    have hgives := Fuzzer.mayGive_expandSymbol (f := ⟨g, settings⟩) hbare hgenerators hhints
      ((Fuzzer.mk g settings).depthBound budget) [] hsymbol hvalid (by omega) none none budget false
      hbudget
    rw [← Fuzzer.fuzzSymbol_eq (f := ⟨g, settings⟩) hbare (Dictionary.mem_keys_of_find? hbody)]
      at hgives
    exact hgives.run

/-- A number of two digits is among the random ones within 26 nodes, if there may be two copies. -/
theorem Document.fuzzSymbol_twoDigits :
    let digit (c : Char) := Tree.branch "digit" [.leaf (.text c.toString)]
    let number := Tree.branch "number" [digit '1', digit '0']
    ∃ g words u, (binaryNumbers []).toGrammar = .ok g ∧
      (((Fuzzer.mk g ⟨50, 2⟩).fuzzSymbol "number" 26).run.run (.ofWords words)).1 = .ok u ∧
        u.SameShape number := by
  intro digit number
  have h : (binaryNumbers []).toGrammar = .ok _ := rfl
  have hbare : ∀ name ∈ ["digit", "number"], bareName name = name := by decide
  have hfuzz := Draft.fuzzSymbol_complete (binaryNumbers []).coherent_toDraft h hbare rfl ⟨50, 2⟩
    (by decide) (t := number) (s := "number") rfl ?_
  · obtain ⟨words, u, hu, hshape⟩ := hfuzz.2 26 (by decide)
    exact ⟨_, words, u, h, hu, hshape⟩
  · refine (Grammar.valid_nonTerminal rfl).mpr
      ⟨⟨.repetition 2 (.reference 1 "digit" none none) 1 (some 2) .plus, rfl, ?_⟩, fun c hc => ?_⟩
    · refine ⟨2, by decide, fun m hm => (Option.some.inj hm).le, [digit '1'], [digit '0'], rfl, ?_,
        [digit '0'], [], rfl, ?_, rfl⟩
      · exact ⟨_, rfl, rfl⟩
      · exact ⟨_, rfl, rfl⟩
    · rcases List.mem_pair.mp hc with rfl | rfl
      all_goals
        refine (Grammar.valid_nonTerminal rfl).mpr ⟨⟨.charset 0 ['0', '1'], rfl, ?_⟩, ?_⟩
        · exact ⟨_, rfl, rfl⟩
        · intro leaf hleaf
          rw [List.mem_singleton.mp hleaf]
          exact Grammar.valid_leaf _

end GrammarFuzzing
