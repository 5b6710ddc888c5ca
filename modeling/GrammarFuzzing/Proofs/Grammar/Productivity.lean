import GrammarFuzzing.Proofs.Grammar.Distance
import GrammarFuzzing.Proofs.Grammar.Spelling
import Mathlib.Logic.Relation

/-!
# Which rules derive a tree

A grammar is built only if the distance of every rule is finite. The distance of a set of characters
is 1, whatever is in the set, so this does not look for sets that are empty, and a rule may pass
that derives nothing. This file says which rules do derive something.

`GrammarFuzzing.Grammar.derivable` finds their names in rounds: a round adds the rules whose bodies
have a match among what was found before (`GrammarFuzzing.Node.hasMatch`), and there are as many
rounds as rules. Either a round adds nothing, and then no later one does, or it adds a name, so that
in the end nothing is left to add (`GrammarFuzzing.Grammar.derivableRound_derivable`).

* What is found has a valid tree, by induction on the round
  (`GrammarFuzzing.Grammar.WellFormed.exists_valid_of_mem`).
* What has a valid tree is found, by induction on the tree
  (`GrammarFuzzing.Grammar.Valid.mem_derivable`).
* A rule at a finite distance that leads to no empty set is found, by induction on the distance
  (`GrammarFuzzing.Grammar.WellFormed.mem_derivable_of_avoids`).
-/

namespace GrammarFuzzing

/-! ### Nodes that match something -/

namespace Node

mutual

/-- **Whether a node has a match**, when it is known which rules derive something. -/
def hasMatch (rule : String → Bool) : Node → Bool
  | .terminal _ _ => true
  | .charset _ chars => !chars.isEmpty
  | .reference _ name _ _ => rule name
  | .sequence _ parts => allMatch rule parts
  | .choice _ options => someMatch rule options
  | .repetition _ body min _ _ => min = 0 || body.hasMatch rule

/-- Whether each of several nodes has a match. -/
def allMatch (rule : String → Bool) : List Node → Bool
  | [] => true
  | n :: rest => n.hasMatch rule && allMatch rule rest

/-- Whether one of several nodes has a match. -/
def someMatch (rule : String → Bool) : List Node → Bool
  | [] => false
  | n :: rest => n.hasMatch rule || someMatch rule rest

end

variable {rule rule' : String → Bool}

mutual

theorem hasMatch_mono (h : ∀ name, rule name = true → rule' name = true) :
    ∀ {n : Node}, n.hasMatch rule = true → n.hasMatch rule' = true
  | .terminal .., _ => rfl
  | .charset .., hn => hn
  | .reference _ name _ _, hn => by
    rw [hasMatch] at hn ⊢
    exact h name hn
  | .sequence .., hn => by
    rw [hasMatch] at hn ⊢
    exact allMatch_mono h hn
  | .choice .., hn => by
    rw [hasMatch] at hn ⊢
    exact someMatch_mono h hn
  | .repetition .., hn => by
    rw [hasMatch, Bool.or_eq_true] at hn ⊢
    exact hn.imp_right (hasMatch_mono h)

theorem allMatch_mono (h : ∀ name, rule name = true → rule' name = true) :
    ∀ {ns : List Node}, allMatch rule ns = true → allMatch rule' ns = true
  | [], _ => rfl
  | _ :: _, hns => by
    rw [allMatch, Bool.and_eq_true] at hns ⊢
    exact hns.imp (hasMatch_mono h) (allMatch_mono h)

theorem someMatch_mono (h : ∀ name, rule name = true → rule' name = true) :
    ∀ {ns : List Node}, someMatch rule ns = true → someMatch rule' ns = true
  | [], hns => hns
  | _ :: _, hns => by
    rw [someMatch, Bool.or_eq_true] at hns ⊢
    exact hns.imp (hasMatch_mono h) (someMatch_mono h)

end

mutual

/-- **What a node stands for shows that it has a match**, if the names in it derive something. -/
theorem hasMatch_of_matches : ∀ {n : Node} {cs : List Tree},
    (∀ c ∈ cs, ∀ name, c.symbol = .nonTerminal name → rule name = true) →
      n.Matches cs → n.hasMatch rule = true
  | .terminal .., _, _, _ => rfl
  | .charset _ chars, _, _, h => by
    obtain ⟨c, -, hc⟩ := h
    obtain ⟨x, hx, -⟩ := exists_of_isOneOf hc
    cases chars with
    | nil => exact absurd hx List.not_mem_nil
    | cons => rfl
  | .reference _ name _ _, _, hcs, h => by
    obtain ⟨c, rfl, hc⟩ := h
    rw [hasMatch]
    exact hcs c List.mem_cons_self name (of_decide_eq_true hc)
  | .sequence .., _, hcs, h => by
    rw [hasMatch]
    exact allMatch_of_matchesAll hcs h
  | .choice .., _, hcs, h => by
    rw [hasMatch]
    exact someMatch_of_matchesSome hcs h
  | .repetition _ _ min _ _, _, hcs, h => by
    obtain ⟨k, hmin, -, hcopies⟩ := h
    rw [hasMatch, Bool.or_eq_true, decide_eq_true_iff]
    cases k with
    | zero => exact Or.inl (Nat.le_zero.mp hmin)
    | succ k =>
      obtain ⟨ds, es, rfl, hds, -⟩ := hcopies
      exact Or.inr (hasMatch_of_matches (fun c hc => hcs c (List.mem_append_left _ hc)) hds)

theorem allMatch_of_matchesAll : ∀ {ns : List Node} {cs : List Tree},
    (∀ c ∈ cs, ∀ name, c.symbol = .nonTerminal name → rule name = true) →
      MatchesAll ns cs → allMatch rule ns = true
  | [], _, _, _ => rfl
  | _ :: _, _, hcs, h => by
    obtain ⟨ds, es, rfl, hds, hes⟩ := h
    rw [allMatch, Bool.and_eq_true]
    exact ⟨hasMatch_of_matches (fun c hc => hcs c (List.mem_append_left _ hc)) hds,
      allMatch_of_matchesAll (fun c hc => hcs c (List.mem_append_right _ hc)) hes⟩

theorem someMatch_of_matchesSome : ∀ {ns : List Node} {cs : List Tree},
    (∀ c ∈ cs, ∀ name, c.symbol = .nonTerminal name → rule name = true) →
      MatchesSome ns cs → someMatch rule ns = true
  | [], _, _, h => h.elim
  | _ :: _, _, hcs, h => by
    rw [someMatch, Bool.or_eq_true]
    exact h.imp (hasMatch_of_matches hcs) (someMatch_of_matchesSome hcs)

end

/-- The rules that a node needs are those at a smaller distance. -/
def NeedsNearer (x : String → Nat) (v : Nat) (rule : String → Bool) (n : Node) : Prop :=
  ∀ id name sender recipient, .reference id name sender recipient ∈ n.subnodes → x name < v →
    rule name = true

mutual

/-- **A node at a finite distance has a match** if no set of characters in it is empty, and the
rules at smaller distances derive something. -/
theorem hasMatch_of_distance {x : String → Nat} {v : Nat} (hv : v < unreachable) :
    ∀ {n : Node}, n.distanceWith x ≤ v → (∀ m ∈ n.subnodes, m.isEmptyCharset = false) →
      n.NeedsNearer x v rule → n.hasMatch rule = true
  | .terminal .., _, _, _ => rfl
  | .charset _ chars, _, hchars, _ => by
    have hne := hchars _ (mem_subnodes_self _)
    cases chars with
    | nil => exact absurd hne (by simp [isEmptyCharset])
    | cons => rfl
  | .reference id name sender recipient, hle, _, hrule => by
    rw [distanceWith, satAdd] at hle
    rw [hasMatch]
    exact hrule id name sender recipient (mem_subnodes_self _) (by omega)
  | .sequence _ parts, hle, hchars, hrule => by
    rw [distanceWith] at hle
    rw [hasMatch]
    exact allMatch_of_distance hv hle (fun n hn m hm => hchars m (mem_subnodes_sequence hn hm))
      fun n hn id name sender recipient hm =>
        hrule id name sender recipient (mem_subnodes_sequence hn hm)
  | .choice _ options, hle, hchars, hrule => by
    rw [distanceWith] at hle
    rw [hasMatch]
    exact someMatch_of_distance hv hle (fun n hn m hm => hchars m (mem_subnodes_choice hn hm))
      fun n hn id name sender recipient hm =>
        hrule id name sender recipient (mem_subnodes_choice hn hm)
  | .repetition _ body min _ _, hle, hchars, hrule => by
    rw [distanceWith] at hle
    rw [hasMatch, Bool.or_eq_true, decide_eq_true_iff]
    by_cases hmin : min = 0
    · exact Or.inl hmin
    · rw [if_neg hmin, satMul] at hle
      have hmul := Nat.le_mul_of_pos_right (body.distanceWith x) (Nat.pos_of_ne_zero hmin)
      exact Or.inr (hasMatch_of_distance hv (by omega)
        (fun m hm => hchars m (mem_subnodes_repetition hm)) fun id name sender recipient hm =>
          hrule id name sender recipient (mem_subnodes_repetition hm))

theorem allMatch_of_distance {x : String → Nat} {v : Nat} (hv : v < unreachable) :
    ∀ {ns : List Node}, totalDistance x ns ≤ v →
      (∀ n ∈ ns, ∀ m ∈ n.subnodes, m.isEmptyCharset = false) →
        (∀ n ∈ ns, n.NeedsNearer x v rule) → allMatch rule ns = true
  | [], _, _, _ => rfl
  | n :: ns, hle, hchars, hrule => by
    rw [totalDistance, satAdd] at hle
    rw [List.forall_mem_cons] at hchars hrule
    rw [allMatch, Bool.and_eq_true]
    exact ⟨hasMatch_of_distance hv (by omega) hchars.1 hrule.1,
      allMatch_of_distance hv (by omega) hchars.2 hrule.2⟩

theorem someMatch_of_distance {x : String → Nat} {v : Nat} (hv : v < unreachable) :
    ∀ {ns : List Node}, leastDistance x ns ≤ v →
      (∀ n ∈ ns, ∀ m ∈ n.subnodes, m.isEmptyCharset = false) →
        (∀ n ∈ ns, n.NeedsNearer x v rule) → someMatch rule ns = true
  | [], hle, _, _ => by
    rw [leastDistance] at hle
    exact absurd hv (Nat.not_lt_of_le hle)
  | n :: ns, hle, hchars, hrule => by
    rw [leastDistance, min_le_iff] at hle
    rw [List.forall_mem_cons] at hchars hrule
    rw [someMatch, Bool.or_eq_true]
    exact hle.imp (fun h => hasMatch_of_distance hv h hchars.1 hrule.1)
      fun h => someMatch_of_distance hv h hchars.2 hrule.2

end

end Node

namespace Grammar

open Node

/-! ### Rounds -/

/-- The names of the rules that have a match, when it is known which names derive something. -/
def derivableRound (g : Grammar) (names : List String) : List String :=
  g.rules.keys.filter fun name => (g.body? name).any fun body => body.hasMatch names.contains

/-- **The names of the rules that derive a finite tree.** -/
def derivable (g : Grammar) : List String :=
  Nat.repeat g.derivableRound g.rules.length []

variable {g : Grammar}

theorem mem_derivableRound {names : List String} {name : String} :
    name ∈ g.derivableRound names ↔
      ∃ body, g.body? name = some body ∧ body.hasMatch names.contains = true := by
  rw [derivableRound, List.mem_filter, Option.any_eq_true_iff_get]
  constructor
  · rintro ⟨-, h, hmatch⟩
    exact ⟨_, (Option.some_get h).symm, hmatch⟩
  · rintro ⟨body, hbody, hmatch⟩
    exact ⟨Dictionary.mem_keys_of_find? hbody, by simp [hbody], by simpa [hbody] using hmatch⟩

theorem derivableRound_mono {names names' : List String} (h : names ⊆ names') :
    g.derivableRound names ⊆ g.derivableRound names' := by
  intro name hname
  obtain ⟨body, hbody, hmatch⟩ := mem_derivableRound.mp hname
  refine mem_derivableRound.mpr ⟨body, hbody, hasMatch_mono (fun other hother => ?_) hmatch⟩
  exact List.contains_iff_mem.mpr (h (List.contains_iff_mem.mp hother))

/-- From round to round no name is lost. -/
theorem repeat_derivableRound_subset (k : Nat) :
    Nat.repeat g.derivableRound k [] ⊆ Nat.repeat g.derivableRound (k + 1) [] := by
  induction k with
  | zero => exact List.nil_subset _
  | succ k ih => exact derivableRound_mono ih

/-- **After some rounds nothing is left to add, or there are more names than rounds.** -/
theorem derivableRound_closed_or_grown (k : Nat) :
    Nat.repeat g.derivableRound (k + 1) [] ⊆ Nat.repeat g.derivableRound k [] ∨
      k < (Nat.repeat g.derivableRound (k + 1) []).toFinset.card := by
  induction k with
  | zero =>
    rcases List.eq_nil_or_concat (Nat.repeat g.derivableRound 1 []) with hnil | ⟨_, name, hname⟩
    · exact Or.inl (by simp only [hnil, List.nil_subset])
    · exact Or.inr (Finset.card_pos.mpr ⟨name, by simp [hname]⟩)
  | succ k ih =>
    rcases ih with hclosed | hgrown
    · exact Or.inl (derivableRound_mono hclosed)
    · by_cases hclosed : Nat.repeat g.derivableRound (k + 1 + 1) [] ⊆
        Nat.repeat g.derivableRound (k + 1) []
      · exact Or.inl hclosed
      · -- The next round keeps the names there are, and adds one.
        have hcard := Finset.card_lt_card (s := (Nat.repeat g.derivableRound (k + 1) []).toFinset)
          (t := (Nat.repeat g.derivableRound (k + 1 + 1) []).toFinset)
          ⟨fun name hname => ?_, fun h => hclosed fun name hname => ?_⟩
        · exact Or.inr (by omega)
        · exact List.mem_toFinset.mpr
            (repeat_derivableRound_subset (k + 1) (List.mem_toFinset.mp hname))
        · exact List.mem_toFinset.mp (h (List.mem_toFinset.mpr hname))

/-- **After as many rounds as there are rules nothing is left to add.** -/
theorem derivableRound_derivable : g.derivableRound g.derivable ⊆ g.derivable := by
  rcases derivableRound_closed_or_grown (g := g) g.rules.length with hclosed | hgrown
  · exact hclosed
  · have hle : (g.derivableRound g.derivable).toFinset.card ≤ g.rules.length :=
      calc (g.derivableRound g.derivable).toFinset.card
          ≤ (g.derivableRound g.derivable).length := List.toFinset_card_le _
        _ ≤ g.rules.keys.length := List.length_filter_le _ _
        _ = g.rules.length := List.length_map _
    exact absurd hle (Nat.not_le_of_lt hgrown)

/-- A rule with a match among the derivable names is derivable. -/
theorem mem_derivable_of_hasMatch {name : String} {body : Node} (hbody : g.body? name = some body)
    (h : body.hasMatch g.derivable.contains = true) : name ∈ g.derivable :=
  derivableRound_derivable (mem_derivableRound.mpr ⟨body, hbody, h⟩)

/-! ### What is found has a tree -/

mutual

/-- **A node with a match matches valid children**, if the names that are known derive something. -/
theorem WellFormed.matches_of_hasMatch (hg : g.WellFormed) {rule : String → Bool}
    (hrule : ∀ name, rule name = true → ∃ t, t.symbol = .nonTerminal name ∧ g.Valid t) :
    ∀ {n : Node}, g.Occurs n → n.hasMatch rule = true → ∃ cs, n.Matches cs ∧ ∀ c ∈ cs, g.Valid c
  | .terminal _ value, _, _ =>
    ⟨[Tree.leaf value], ⟨_, rfl, by simp [isLiteral, Tree.leaf]⟩, by simp [valid_leaf]⟩
  | .charset _ chars, _, h => by
    rw [hasMatch] at h
    obtain ⟨c, cs, rfl⟩ := List.exists_cons_of_ne_nil (l := chars) (by simpa using h)
    exact ⟨[Tree.leaf (.text c.toString)], ⟨_, rfl, by simp [isOneOf, Tree.leaf]⟩,
      by simp [valid_leaf]⟩
  | .reference _ name _ _, _, h => by
    rw [hasMatch] at h
    obtain ⟨t, ht, hvalid⟩ := hrule name h
    exact ⟨[t], ⟨t, rfl, by simp [isNamed, ht]⟩, by simpa using hvalid⟩
  | .sequence _ parts, hn, h => by
    rw [hasMatch] at h
    exact hg.matchesAll_of_allMatch hrule (fun n hp => hn.of_mem_subnodes
      (mem_subnodes_sequence hp n.mem_subnodes_self)) h
  | .choice _ options, hn, h => by
    rw [hasMatch] at h
    exact hg.matchesSome_of_someMatch hrule (fun n hp => hn.of_mem_subnodes
      (mem_subnodes_choice hp n.mem_subnodes_self)) h
  | .repetition _ body min max _, hn, h => by
    have hmax : ∀ m, max = some m → min ≤ m := fun m hm => (hg.bounds (hm ▸ hn)).2
    rw [hasMatch, Bool.or_eq_true, decide_eq_true_iff] at h
    rcases h with hmin | h
    · exact ⟨[], ⟨0, by omega, fun m _ => Nat.zero_le m, rfl⟩, by simp⟩
    · obtain ⟨cs, hcs, hvalid⟩ := hg.matches_of_hasMatch hrule
        (hn.of_mem_subnodes (mem_subnodes_repetition body.mem_subnodes_self)) h
      refine ⟨_, ⟨min, Nat.le_refl _, hmax, copies_replicate hcs min⟩, fun c hc => ?_⟩
      obtain ⟨ds, hds, hc⟩ := List.mem_flatten.mp hc
      rw [List.eq_of_mem_replicate hds] at hc
      exact hvalid c hc

theorem WellFormed.matchesAll_of_allMatch (hg : g.WellFormed) {rule : String → Bool}
    (hrule : ∀ name, rule name = true → ∃ t, t.symbol = .nonTerminal name ∧ g.Valid t) :
    ∀ {ns : List Node}, (∀ n ∈ ns, g.Occurs n) → allMatch rule ns = true →
      ∃ cs, MatchesAll ns cs ∧ ∀ c ∈ cs, g.Valid c
  | [], _, _ => ⟨[], rfl, by simp⟩
  | _ :: _, hns, h => by
    rw [allMatch, Bool.and_eq_true] at h
    rw [List.forall_mem_cons] at hns
    obtain ⟨ds, hds, hvalid⟩ := hg.matches_of_hasMatch hrule hns.1 h.1
    obtain ⟨es, hes, hvalid'⟩ := hg.matchesAll_of_allMatch hrule hns.2 h.2
    exact ⟨ds ++ es, ⟨ds, es, rfl, hds, hes⟩, List.forall_mem_append.mpr ⟨hvalid, hvalid'⟩⟩

theorem WellFormed.matchesSome_of_someMatch (hg : g.WellFormed) {rule : String → Bool}
    (hrule : ∀ name, rule name = true → ∃ t, t.symbol = .nonTerminal name ∧ g.Valid t) :
    ∀ {ns : List Node}, (∀ n ∈ ns, g.Occurs n) → someMatch rule ns = true →
      ∃ cs, MatchesSome ns cs ∧ ∀ c ∈ cs, g.Valid c
  | [], _, h => by simp [someMatch] at h
  | _ :: _, hns, h => by
    rw [someMatch, Bool.or_eq_true] at h
    rw [List.forall_mem_cons] at hns
    rcases h with h | h
    · obtain ⟨cs, hcs, hvalid⟩ := hg.matches_of_hasMatch hrule hns.1 h
      exact ⟨cs, Or.inl hcs, hvalid⟩
    · obtain ⟨cs, hcs, hvalid⟩ := hg.matchesSome_of_someMatch hrule hns.2 h
      exact ⟨cs, Or.inr hcs, hvalid⟩

end

/-- **What any number of rounds finds has a valid tree.** -/
theorem WellFormed.exists_valid_of_mem (hg : g.WellFormed) : ∀ (k : Nat) (name : String),
    name ∈ Nat.repeat g.derivableRound k [] → ∃ t, t.symbol = .nonTerminal name ∧ g.Valid t
  | 0, _, h => absurd h List.not_mem_nil
  | k + 1, name, h => by
    obtain ⟨body, hbody, hmatch⟩ := mem_derivableRound.mp h
    obtain ⟨cs, hcs, hvalid⟩ := hg.matches_of_hasMatch
      (fun other hother => hg.exists_valid_of_mem k other (List.contains_iff_mem.mp hother))
      (occurs_of_body? hbody) hmatch
    exact ⟨Tree.branch name cs, rfl, (valid_nonTerminal rfl).mpr ⟨⟨body, hbody, hcs⟩, hvalid⟩⟩

/-! ### What has a tree is found -/

mutual

/-- **The symbol of a valid tree is derivable.** -/
theorem Valid.mem_derivable : ∀ {t : Tree} {name : String}, g.Valid t →
    t.symbol = .nonTerminal name → name ∈ g.derivable
  | ⟨_, _, _, _, _, _⟩, name, ht, hname => by
    obtain rfl : _ = Symbol.nonTerminal name := hname
    obtain ⟨⟨body, hbody, hmatch⟩, hvalid⟩ := ht
    refine mem_derivable_of_hasMatch hbody
      (hasMatch_of_matches (fun c hc other hother => ?_) hmatch)
    exact List.contains_iff_mem.mpr (ValidAll.mem_derivable hvalid c hc other hother)

theorem ValidAll.mem_derivable : ∀ {ts : List Tree}, g.ValidAll ts → ∀ c ∈ ts, ∀ name,
    c.symbol = .nonTerminal name → name ∈ g.derivable
  | [], _, _, hc, _, _ => absurd hc List.not_mem_nil
  | _ :: _, hts, c, hc, name, hname => by
    rcases List.mem_cons.mp hc with hc | hc
    · rw [hc] at hname
      exact Valid.mem_derivable hts.1 hname
    · exact ValidAll.mem_derivable hts.2 c hc name hname

end

/-- **The derivable names are those that a valid tree may have at its root.** -/
theorem WellFormed.mem_derivable_iff (hg : g.WellFormed) {name : String} :
    name ∈ g.derivable ↔ ∃ t, t.symbol = .nonTerminal name ∧ g.Valid t := by
  constructor
  · exact hg.exists_valid_of_mem g.rules.length name
  · rintro ⟨t, hname, ht⟩
    exact ht.mem_derivable hname

/-! ### Empty sets of characters -/

/-- The rule of the first name refers to the second. -/
def RefersTo (g : Grammar) (name other : String) : Prop :=
  ∃ body, g.body? name = some body ∧
    ∃ id sender recipient, Node.reference id other sender recipient ∈ body.subnodes

/-- **A name leads to no empty set**: neither its rule has one, nor a rule that it leads to. -/
def AvoidsEmptyCharsets (g : Grammar) (name : String) : Prop :=
  ∀ other body, Relation.ReflTransGen g.RefersTo name other → g.body? other = some body →
    ∀ n ∈ body.subnodes, n.isEmptyCharset = false

/-- **A name that leads to no empty set is derivable**, since its distance is finite. -/
theorem WellFormed.mem_derivable_of_avoids (hg : g.WellFormed) (hproductive : g.Productive)
    {name : String} {body : Node} (hbody : g.body? name = some body)
    (havoids : g.AvoidsEmptyCharsets name) : name ∈ g.derivable := by
  induction hd : g.distance body using Nat.strong_induction_on generalizing name body with
  | _ v ih =>
    subst hd
    refine mem_derivable_of_hasMatch hbody (hasMatch_of_distance (hproductive name body hbody)
      (Nat.le_refl _) (havoids name body .refl hbody) ?_)
    intro id other sender recipient hother hlt
    have hrefers : g.RefersTo name other := ⟨body, hbody, id, sender, recipient, hother⟩
    obtain ⟨body', hbody'⟩ :=
      hg.exists_body_of_reference ((occurs_of_body? hbody).of_mem_subnodes hother)
    rw [distanceIn_of_body? hbody'] at hlt
    exact List.contains_iff_mem.mpr (ih _ hlt hbody'
      (fun third body'' hlead => havoids third body'' (.head hrefers hlead)) rfl)

end Grammar

/-- **Which rules of the grammar of a document derive a tree**: exactly the derivable ones, and so
every rule that leads to no empty set of characters. -/
theorem Document.exists_valid_iff {doc : Document} {g : Grammar} (h : doc.toGrammar = .ok g)
    {s : String} (hs : s ∈ g.rules.keys) :
    ((∃ t : Tree, t.symbol = .nonTerminal s ∧ g.validate t = .ok ()) ↔ s ∈ g.derivable) ∧
      (g.AvoidsEmptyCharsets s →
        ∃ t : Tree, t.symbol = .nonTerminal s ∧ g.validate t = .ok ()) := by
  have hg := wellFormed_of_toGrammar h
  have hproductive := (Draft.builds_of_build h).isProductive
  have hiff : (∃ t : Tree, t.symbol = .nonTerminal s ∧ g.validate t = .ok ()) ↔
      s ∈ g.derivable := by
    rw [hg.mem_derivable_iff]
    exact exists_congr fun t => and_congr_right fun _ => hg.validate_eq_ok
  refine ⟨hiff, fun havoids => hiff.mpr ?_⟩
  obtain ⟨body, hbody⟩ := Dictionary.exists_find?_of_mem_keys hs
  exact hg.mem_derivable_of_avoids hproductive hbody havoids

/-- A word that may be replaced by nothing that exists. -/
def Document.hollow : Document :=
  ⟨"start", [("dead", .chars ""), ("start", .alt [.ref "dead", .ref "word"]),
    ("word", .plus (.chars "ab"))], []⟩

/-- The grammar is built. The word derives a tree since it leads to no empty set, the start symbol
in spite of one, and the third rule derives none. -/
theorem Document.exists_valid_hollow : ∃ g, hollow.toGrammar = .ok g ∧
    (∃ t : Tree, t.symbol = .nonTerminal "word" ∧ g.validate t = .ok ()) ∧
      (∃ t : Tree, t.symbol = .nonTerminal "start" ∧ g.validate t = .ok ()) ∧
        ¬ ∃ t : Tree, t.symbol = .nonTerminal "dead" ∧ g.validate t = .ok () := by
  have h : hollow.toGrammar = .ok _ := rfl
  refine ⟨_, h, (exists_valid_iff h (by decide)).2 ?_,
    (exists_valid_iff h (by decide)).1.mpr (by decide),
    (exists_valid_iff h (by decide)).1.not.mpr (by decide)⟩
  intro other body hlead hbody
  rcases hlead.cases_head with rfl | ⟨next, ⟨word, hword, id, sender, recipient, hmem⟩, -⟩
  · obtain rfl := Option.some.inj hbody
    decide
  · obtain rfl := Option.some.inj hword
    simp [Node.subnodes] at hmem

end GrammarFuzzing
