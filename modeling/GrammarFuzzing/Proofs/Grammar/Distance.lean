import GrammarFuzzing.Proofs.Grammar.Validity
import Mathlib.Data.Finset.Card
import Mathlib.Order.Lattice.Nat

/-!
# Distances are least sizes

The distances of a grammar are found by rounds (`GrammarFuzzing.ruleDistances`), from the greatest
distance downwards. This file proves that they are what they are meant to be.

* They solve the equations of the rules (`GrammarFuzzing.distanceIn_ruleDistances`): after as many
  rounds as there are rules nothing changes any more.
* They are lower bounds: what a node stands for has at least as many nodes as the distance of the
  node, and a valid tree at least as many as the distance of its symbol
  (`GrammarFuzzing.Grammar.Valid.symbolDistance_le_size`).

The number of rounds is the one argument here. A distance that is not `unreachable` only depends on
distances that are **smaller** (`GrammarFuzzing.Node.distanceWith_le`), since a reference adds a
node. So the distance of a rule is final one round after the smaller distances are, and a rule has
to wait for at most as many rounds as there are rules with a smaller distance
(`GrammarFuzzing.roundDistance_rank`).
-/

namespace GrammarFuzzing

/-! ### Distances of nodes -/

namespace Node

variable {x y : String → Nat}

mutual

theorem distanceWith_le_unreachable (x : String → Nat) :
    ∀ n : Node, n.distanceWith x ≤ unreachable
  | .terminal .. | .charset .. => by
    rw [distanceWith]
    decide
  | .reference .. => by
    rw [distanceWith]
    exact Nat.min_le_right _ _
  | .sequence _ parts => by
    rw [distanceWith]
    exact totalDistance_le_unreachable x parts
  | .choice _ options => by
    rw [distanceWith]
    exact leastDistance_le_unreachable x options
  | .repetition .. => by
    rw [distanceWith]
    split
    · exact Nat.zero_le _
    · exact Nat.min_le_right _ _

theorem totalDistance_le_unreachable (x : String → Nat) :
    ∀ ns : List Node, totalDistance x ns ≤ unreachable
  | [] => by
    rw [totalDistance]
    exact Nat.zero_le _
  | _ :: _ => by
    rw [totalDistance]
    exact Nat.min_le_right _ _

theorem leastDistance_le_unreachable (x : String → Nat) :
    ∀ ns : List Node, leastDistance x ns ≤ unreachable
  | [] => by
    rw [leastDistance]
  | n :: _ => by
    rw [leastDistance]
    exact Nat.le_trans (Nat.min_le_left _ _) (distanceWith_le_unreachable x n)

end

mutual

/-- **A distance depends on smaller distances only**: it does not grow when the smaller ones do
not. -/
theorem distanceWith_le {v : Nat} (hv : v < unreachable)
    (h : ∀ name, x name < v → y name ≤ x name) :
    ∀ n : Node, n.distanceWith x ≤ v → n.distanceWith y ≤ n.distanceWith x
  | .terminal .., _ | .charset .., _ => by rw [distanceWith, distanceWith]
  | .reference _ name _ _, hle => by
    rw [distanceWith, satAdd] at hle
    have hname := h name (by omega)
    rw [distanceWith, distanceWith, satAdd, satAdd]
    omega
  | .sequence _ parts, hle => by
    rw [distanceWith] at hle
    rw [distanceWith, distanceWith]
    exact totalDistance_le hv h parts hle
  | .choice _ options, hle => by
    rw [distanceWith] at hle
    rw [distanceWith, distanceWith]
    exact leastDistance_le hv h options hle
  | .repetition _ body min _ _, hle => by
    rw [distanceWith] at hle
    rw [distanceWith, distanceWith]
    split at hle
    · rw [if_pos ‹_›, if_pos ‹_›]
    · rename_i hmin
      have hmul : body.distanceWith x ≤ body.distanceWith x * min :=
        Nat.le_mul_of_pos_right _ (Nat.pos_of_ne_zero hmin)
      rw [satMul] at hle
      have hbody := distanceWith_le hv h body (by omega)
      have hmul' := Nat.mul_le_mul_right min hbody
      rw [if_neg hmin, if_neg hmin, satMul, satMul]
      omega

theorem totalDistance_le {v : Nat} (hv : v < unreachable)
    (h : ∀ name, x name < v → y name ≤ x name) :
    ∀ ns : List Node, totalDistance x ns ≤ v → totalDistance y ns ≤ totalDistance x ns
  | [], _ => by rw [totalDistance, totalDistance]
  | n :: ns, hle => by
    rw [totalDistance, satAdd] at hle
    have hn := distanceWith_le hv h n (by omega)
    have hns := totalDistance_le hv h ns (by omega)
    rw [totalDistance, totalDistance, satAdd, satAdd]
    omega

theorem leastDistance_le {v : Nat} (hv : v < unreachable)
    (h : ∀ name, x name < v → y name ≤ x name) :
    ∀ ns : List Node, leastDistance x ns ≤ v → leastDistance y ns ≤ leastDistance x ns
  | [], _ => by rw [leastDistance, leastDistance]
  | n :: ns, hle => by
    rw [leastDistance] at hle
    rw [leastDistance, leastDistance]
    rcases Nat.le_total (n.distanceWith x) (leastDistance x ns) with hleft | hright
    · have hn := distanceWith_le hv h n (by omega)
      omega
    · have hns := leastDistance_le hv h ns (by omega)
      omega

end

/-- Distances do not grow when the distances of the rules do not. -/
theorem distanceWith_mono (h : ∀ name, y name ≤ x name) (n : Node) :
    n.distanceWith y ≤ n.distanceWith x := by
  rcases Nat.lt_or_ge (n.distanceWith x) unreachable with hlt | hge
  · exact distanceWith_le hlt (fun name _ => h name) n (Nat.le_refl _)
  · exact Nat.le_trans (distanceWith_le_unreachable y n) hge

end Node

/-! ### Rounds -/

section Rounds

variable (rules : Dictionary String Node)

/-- The distance of the body of a rule after so many rounds. -/
def roundDistance (k : Nat) (name : String) : Nat :=
  distanceIn (Nat.repeat (distanceRound rules) k (rules.map fun p => (p.1, unreachable))) name

variable {rules}

theorem roundDistance_zero (name : String) : roundDistance rules 0 name = unreachable := by
  rw [roundDistance, Nat.repeat, distanceIn, Dictionary.find?_map fun _ => unreachable]
  cases Dictionary.find? rules name <;> rfl

theorem roundDistance_succ (k : Nat) (name : String) :
    roundDistance rules (k + 1) name =
      ((rules.find? name).map fun body => body.distanceWith (roundDistance rules k)).getD
        unreachable :=
  congrArg (·.getD unreachable)
    (Dictionary.find?_map (fun body => body.distanceWith (roundDistance rules k)) rules name)

theorem roundDistance_le_unreachable (k : Nat) (name : String) :
    roundDistance rules k name ≤ unreachable := by
  cases k with
  | zero => exact (roundDistance_zero name).le
  | succ k =>
    rw [roundDistance_succ]
    cases rules.find? name with
    | none => exact Nat.le_refl _
    | some body => exact body.distanceWith_le_unreachable _

/-- From round to round no distance grows. -/
theorem roundDistance_succ_le (k : Nat) (name : String) :
    roundDistance rules (k + 1) name ≤ roundDistance rules k name := by
  induction k generalizing name with
  | zero =>
    rw [roundDistance_zero]
    exact roundDistance_le_unreachable _ _
  | succ k ih =>
    rw [roundDistance_succ, roundDistance_succ]
    cases rules.find? name with
    | none => exact Nat.le_refl _
    | some body => exact Node.distanceWith_mono ih body

theorem roundDistance_antitone {j k : Nat} (h : j ≤ k) (name : String) :
    roundDistance rules k name ≤ roundDistance rules j name :=
  antitone_nat_of_succ_le (f := fun k => roundDistance rules k name)
    (fun k => roundDistance_succ_le k name) h

variable (rules) in
/-- The distance of the body of a rule that no round improves. -/
noncomputable def finalDistance (name : String) : Nat :=
  sInf (Set.range fun k => roundDistance rules k name)

theorem finalDistance_le (k : Nat) (name : String) :
    finalDistance rules name ≤ roundDistance rules k name :=
  Nat.sInf_le ⟨k, rfl⟩

variable (rules) in
theorem exists_roundDistance_eq (name : String) :
    ∃ k, roundDistance rules k name = finalDistance rules name :=
  Nat.sInf_mem (Set.range_nonempty fun k => roundDistance rules k name)

theorem mem_keys_of_finalDistance_lt {name : String} (h : finalDistance rules name < unreachable) :
    name ∈ rules.keys := by
  obtain ⟨k, hk⟩ := exists_roundDistance_eq rules name
  rw [← hk] at h
  cases k with
  | zero =>
    rw [roundDistance_zero] at h
    exact absurd h (Nat.lt_irrefl _)
  | succ k =>
    rw [roundDistance_succ] at h
    cases hbody : rules.find? name with
    | none =>
      rw [hbody] at h
      exact absurd h (Nat.lt_irrefl _)
    | some body => exact Dictionary.mem_keys_of_find? hbody

variable (rules) in
/-- The rules that a rule may have to wait for: those with a smaller distance. -/
noncomputable def nearer (name : String) : Finset String :=
  rules.keys.toFinset.filter fun other => finalDistance rules other < finalDistance rules name

theorem card_nearer_lt {name other : String}
    (h : finalDistance rules other < finalDistance rules name)
    (hother : other ∈ rules.keys) : (nearer rules other).card < (nearer rules name).card := by
  refine Finset.card_lt_card ⟨fun r hr => ?_, fun hsub => ?_⟩
  · obtain ⟨hmem, hlt⟩ := Finset.mem_filter.mp hr
    exact Finset.mem_filter.mpr ⟨hmem, hlt.trans h⟩
  · have hself := hsub (Finset.mem_filter.mpr ⟨List.mem_toFinset.mpr hother, h⟩)
    exact absurd (Finset.mem_filter.mp hself).2 (Nat.lt_irrefl _)

theorem card_nearer_lt_length {name : String} (h : name ∈ rules.keys) :
    (nearer rules name).card < rules.length := by
  have hcard : rules.keys.toFinset.card ≤ rules.length := by
    refine Nat.le_trans (List.toFinset_card_le _) ?_
    rw [Dictionary.keys, List.length_map]
  refine Nat.lt_of_lt_of_le (Finset.card_lt_card ⟨Finset.filter_subset _ _, fun hsub => ?_⟩) hcard
  have hself := hsub (List.mem_toFinset.mpr h)
  exact absurd (Finset.mem_filter.mp hself).2 (Nat.lt_irrefl _)

/-- **A distance is final one round after the smaller ones are.** -/
theorem roundDistance_rank {name : String} (h : finalDistance rules name < unreachable) :
    roundDistance rules ((nearer rules name).card + 1) name = finalDistance rules name := by
  induction hd : finalDistance rules name using Nat.strong_induction_on generalizing name with
  | _ v ih =>
    subst hd
    refine Nat.le_antisymm ?_ (finalDistance_le _ _)
    obtain ⟨k, hk⟩ := exists_roundDistance_eq rules name
    cases k with
    | zero =>
      rw [roundDistance_zero] at hk
      exact absurd h (by omega)
    | succ k =>
      -- In round `k` the smaller distances were at least what they are in the round asked for.
      have hsmaller : ∀ other, roundDistance rules k other < finalDistance rules name →
          roundDistance rules (nearer rules name).card other ≤ roundDistance rules k other := by
        intro other hother
        have hfinal := Nat.lt_of_le_of_lt (finalDistance_le k other) hother
        have hkey := mem_keys_of_finalDistance_lt (hfinal.trans h)
        calc roundDistance rules (nearer rules name).card other
            ≤ roundDistance rules ((nearer rules other).card + 1) other :=
              roundDistance_antitone (card_nearer_lt hfinal hkey) other
          _ = finalDistance rules other := ih _ hfinal (hfinal.trans h) rfl
          _ ≤ roundDistance rules k other := finalDistance_le k other
      obtain ⟨body, hbody⟩ := Dictionary.exists_find?_of_mem_keys (mem_keys_of_finalDistance_lt h)
      rw [roundDistance_succ, hbody] at hk
      rw [roundDistance_succ, hbody]
      change body.distanceWith (roundDistance rules k) = _ at hk
      exact Nat.le_trans (Node.distanceWith_le h hsmaller body hk.le) hk.le

/-- After as many rounds as there are rules all distances are final. -/
theorem roundDistance_length (name : String) :
    roundDistance rules rules.length name = finalDistance rules name := by
  refine Nat.le_antisymm ?_ (finalDistance_le _ _)
  rcases Nat.lt_or_ge (finalDistance rules name) unreachable with hlt | hge
  · rw [← roundDistance_rank hlt]
    exact roundDistance_antitone (card_nearer_lt_length (mem_keys_of_finalDistance_lt hlt)) name
  · exact Nat.le_trans (roundDistance_le_unreachable _ _) hge

variable (rules) in
/-- **The distances of the rules solve their equations.** -/
theorem distanceIn_ruleDistances (name : String) :
    distanceIn (ruleDistances rules) name =
      ((rules.find? name).map fun body =>
        body.distanceWith (distanceIn (ruleDistances rules))).getD unreachable := by
  have hlast : ∀ name, distanceIn (ruleDistances rules) name = finalDistance rules name := by
    intro name
    refine Nat.le_antisymm ?_ (finalDistance_le (rules.length + 1) name)
    exact Nat.le_trans (roundDistance_succ_le _ _) (roundDistance_length name).le
  have hround : distanceIn (ruleDistances rules) = roundDistance rules rules.length := by
    funext name
    rw [hlast, roundDistance_length]
  conv_rhs => rw [hround]
  exact roundDistance_succ rules.length name

end Rounds

/-! ### Sizes -/

namespace Tree

theorem size_eq (t : Tree) : t.size = 1 + listSize t.children := by
  cases t
  rw [size]

theorem size_pos (t : Tree) : 0 < t.size := by
  rw [size_eq]
  omega

@[simp] theorem listSize_nil : listSize [] = 0 := by
  rw [listSize]

@[simp] theorem listSize_cons (t : Tree) (ts : List Tree) :
    listSize (t :: ts) = t.size + listSize ts := by
  rw [listSize]

@[simp] theorem listSize_append (ts us : List Tree) :
    listSize (ts ++ us) = listSize ts + listSize us := by
  induction ts with
  | nil => simp
  | cons t ts ih =>
    rw [List.cons_append, listSize_cons, listSize_cons, ih, Nat.add_assoc]

end Tree

namespace Node

open GrammarFuzzing.Tree

variable {x : String → Nat}

/-- So many lists that each have a least size. -/
theorem Copies.mul_le_listSize {P : List Tree → Prop} {least : Nat} : ∀ {k : Nat} {cs : List Tree},
    (∀ ds, ds.Sublist cs → P ds → least ≤ listSize ds) → Copies P k cs → least * k ≤ listSize cs
  | 0, _, _, _ => by
    rw [Nat.mul_zero]
    exact Nat.zero_le _
  | k + 1, _, hleast, hcs => by
    obtain ⟨ds, es, rfl, hds, hes⟩ := hcs
    have hd := hleast ds (List.sublist_append_left ds es) hds
    have he := hes.mul_le_listSize fun fs hfs =>
      hleast fs (hfs.trans (List.sublist_append_right ds es))
    rw [listSize_append, Nat.mul_succ]
    omega

mutual

/-- **What a node stands for has at least as many nodes as its distance**, if the trees in it have
at least as many as the distances of their symbols. -/
theorem distanceWith_le_listSize : ∀ {n : Node} {cs : List Tree},
    (∀ c ∈ cs, ∀ name, c.symbol = .nonTerminal name → satAdd (x name) 1 ≤ c.size) →
      n.Matches cs → n.distanceWith x ≤ listSize cs
  | .terminal .., cs, _, h | .charset .., cs, _, h => by
    rw [Matches] at h
    obtain ⟨c, rfl, -⟩ := h
    rw [distanceWith, listSize_cons]
    exact Nat.le_add_right_of_le c.size_pos
  | .reference _ name _ _, cs, hcs, h => by
    rw [Matches] at h
    obtain ⟨c, rfl, hc⟩ := h
    rw [distanceWith, listSize_cons, listSize_nil]
    exact hcs c List.mem_cons_self name (of_decide_eq_true hc)
  | .sequence _ parts, cs, hcs, h => by
    rw [Matches] at h
    rw [distanceWith]
    exact totalDistance_le_listSize hcs h
  | .choice _ options, cs, hcs, h => by
    rw [Matches] at h
    rw [distanceWith]
    exact leastDistance_le_listSize hcs h
  | .repetition _ body min _ _, cs, hcs, h => by
    rw [Matches] at h
    obtain ⟨k, hmin, -, hcopies⟩ := h
    have hle := hcopies.mul_le_listSize fun ds hds hmatch =>
      distanceWith_le_listSize (fun c hc => hcs c (hds.subset hc)) hmatch
    have hmul := Nat.mul_le_mul_left (body.distanceWith x) hmin
    rw [distanceWith]
    split
    · exact Nat.zero_le _
    · rw [satMul]
      omega

theorem totalDistance_le_listSize : ∀ {ns : List Node} {cs : List Tree},
    (∀ c ∈ cs, ∀ name, c.symbol = .nonTerminal name → satAdd (x name) 1 ≤ c.size) →
      MatchesAll ns cs → totalDistance x ns ≤ listSize cs
  | [], _, _, _ => by
    rw [totalDistance]
    exact Nat.zero_le _
  | n :: ns, _, hcs, h => by
    obtain ⟨ds, es, rfl, hds, hes⟩ := h
    have hn := distanceWith_le_listSize (fun c hc => hcs c (List.mem_append_left _ hc)) hds
    have hns := totalDistance_le_listSize (fun c hc => hcs c (List.mem_append_right _ hc)) hes
    rw [totalDistance, satAdd, listSize_append]
    omega

theorem leastDistance_le_listSize : ∀ {ns : List Node} {cs : List Tree},
    (∀ c ∈ cs, ∀ name, c.symbol = .nonTerminal name → satAdd (x name) 1 ≤ c.size) →
      MatchesSome ns cs → leastDistance x ns ≤ listSize cs
  | [], _, _, h => h.elim
  | n :: ns, _, hcs, h => by
    rw [leastDistance]
    rcases h with h | h
    · exact Nat.le_trans (Nat.min_le_left _ _) (distanceWith_le_listSize hcs h)
    · exact Nat.le_trans (Nat.min_le_right _ _) (leastDistance_le_listSize hcs h)

end

end Node

namespace Grammar

variable {g : Grammar}

/-- Every rule derives some finite tree. -/
def Productive (g : Grammar) : Prop :=
  ∀ name body, g.body? name = some body → g.distance body < unreachable

/-- **The distance of a rule is the distance of its body.** -/
theorem distanceIn_of_body? {name : String} {body : Node} (h : g.body? name = some body) :
    distanceIn g.distances name = g.distance body := by
  have heq := distanceIn_ruleDistances g.rules name
  rw [← g.distances_eq, show g.rules.find? name = some body from h] at heq
  exact heq

mutual

/-- **A valid tree has at least as many nodes as the distance of its symbol.** -/
theorem Valid.satAdd_le_size : ∀ {t : Tree} {name : String}, g.Valid t →
    t.symbol = .nonTerminal name → satAdd (distanceIn g.distances name) 1 ≤ t.size
  | ⟨_, children, _, _, _, _⟩, name, ht, hname => by
    obtain rfl : _ = Symbol.nonTerminal name := hname
    obtain ⟨⟨body, hbody, hmatch⟩, hvalid⟩ := ht
    have hle : g.distance body ≤ Tree.listSize children :=
      Node.distanceWith_le_listSize (ValidAll.satAdd_le_size hvalid) hmatch
    rw [distanceIn_of_body? hbody, satAdd, Tree.size]
    omega

theorem ValidAll.satAdd_le_size : ∀ {ts : List Tree}, g.ValidAll ts → ∀ c ∈ ts, ∀ name,
    c.symbol = .nonTerminal name → satAdd (distanceIn g.distances name) 1 ≤ c.size
  | [], _, c, hc, _, _ => absurd hc List.not_mem_nil
  | t :: ts, hts, c, hc, name, hname => by
    rcases List.mem_cons.mp hc with hc | hc
    · rw [hc] at hname ⊢
      exact Valid.satAdd_le_size hts.1 hname
    · exact ValidAll.satAdd_le_size hts.2 c hc name hname

end

end Grammar

/-- A rule has an entry in the table of distances. -/
theorem Grammar.find?_distances {g : Grammar} {name : String} {body : Node}
    (h : g.body? name = some body) :
    g.distances.find? name = some (distanceIn g.distances name) := by
  have hfind := Dictionary.find?_map
    (fun body => body.distanceWith (roundDistance g.rules g.rules.length)) g.rules name
  change (ruleDistances g.rules).find? name = _ at hfind
  rw [distanceIn, g.distances_eq, hfind, show g.rules.find? name = some body from h]
  rfl

/-- **A grammar that a draft builds is productive.** -/
theorem Draft.Builds.isProductive {d : Draft} {g : Grammar} (h : d.Builds g) : g.Productive := by
  intro name body hbody
  refine Nat.lt_of_le_of_ne (body.distanceWith_le_unreachable _) ?_
  have hfind := Grammar.find?_distances hbody
  rw [Grammar.distanceIn_of_body? hbody] at hfind
  exact h.productive _ (Dictionary.mem_of_find? hfind)

end GrammarFuzzing
