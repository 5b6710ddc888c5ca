import GrammarFuzzing.Grammar.Validate
import GrammarFuzzing.Proofs.Grammar.WellFormed

/-!
# What a node stands for

`GrammarFuzzing.Node.Matches` says which lists of children a node of a rule stands for: a sequence
stands for a split into consecutive matches, a choice for what one of its options stands for, and a
repetition for a split into a number of matches within its bounds. `GrammarFuzzing.Node.ends`
computes the same on positions, and `GrammarFuzzing.Grammar.Bounded.mem_ends` proves that it does:
a position is an end exactly when the stretch of children up to it is a match.

The only part of this that is not bookkeeping is the repetition. Copies are walks along a step
relation on positions (`GrammarFuzzing.Node.Walk`), which `GrammarFuzzing.Node.afterMore` follows
round by round without following a position twice. Nothing is lost by that
(`GrammarFuzzing.Node.mem_afterMore`): at all times the positions that were followed lead only to
positions that were followed or are about to be. And nothing is lost by stopping after as many
rounds as there are children, since a copy that matches no child can be left out
(`GrammarFuzzing.Node.Walk.shorten`).
-/

namespace GrammarFuzzing

namespace Node

/-! ### Matches -/

/-- So many lists with a property, one after the other. -/
def Copies {α : Type} (P : List α → Prop) : Nat → List α → Prop
  | 0, cs => cs = []
  | k + 1, cs => ∃ ds es, cs = ds ++ es ∧ P ds ∧ Copies P k es

theorem Copies.mono {α : Type} {P Q : List α → Prop} (h : ∀ ds, P ds → Q ds) :
    ∀ {k : Nat} {cs : List α}, Copies P k cs → Copies Q k cs
  | 0, _, hcs => hcs
  | _ + 1, _, hcs => by
    obtain ⟨ds, es, rfl, hds, hes⟩ := hcs
    exact ⟨ds, es, rfl, h ds hds, hes.mono h⟩

theorem Copies.forall_mem {α : Type} {P : List α → Prop} {Q : α → Prop}
    (h : ∀ ds, P ds → ∀ x ∈ ds, Q x) : ∀ {k : Nat} {cs : List α}, Copies P k cs → ∀ x ∈ cs, Q x
  | 0, cs, hcs, x, hx => by
    obtain rfl : cs = [] := hcs
    exact absurd hx List.not_mem_nil
  | _ + 1, _, hcs, x, hx => by
    obtain ⟨ds, es, rfl, hds, hes⟩ := hcs
    rcases List.mem_append.mp hx with hx | hx
    · exact h ds hds x hx
    · exact hes.forall_mem h x hx

/-- What holds of all elements may be asked of each copy. -/
theorem Copies.and_forall_mem {α : Type} {P : List α → Prop} {Q : α → Prop} :
    ∀ {k : Nat} {cs : List α}, Copies P k cs → (∀ x ∈ cs, Q x) →
      Copies (fun ds => P ds ∧ ∀ x ∈ ds, Q x) k cs
  | 0, _, hcs, _ => hcs
  | _ + 1, _, hcs, hQ => by
    obtain ⟨ds, es, rfl, hds, hes⟩ := hcs
    exact ⟨ds, es, rfl, ⟨hds, fun x hx => hQ x (List.mem_append_left es hx)⟩,
      hes.and_forall_mem fun x hx => hQ x (List.mem_append_right ds hx)⟩

/-- Children one by one are copies. -/
theorem copies_singletons {α : Type} {P : List α → Prop} :
    ∀ {cs : List α}, (∀ c ∈ cs, P [c]) → Copies P cs.length cs
  | [], _ => rfl
  | c :: cs, h => by
    rw [List.forall_mem_cons] at h
    exact ⟨[c], cs, rfl, h.1, copies_singletons h.2⟩

/-- A text of one character out of a set is one of its characters. -/
theorem exists_of_isOneOf {chars : List Char} {c : Tree} (h : isOneOf chars c = true) :
    ∃ x ∈ chars, c.symbol = .terminal (.text x.toString) := by
  rw [isOneOf] at h
  split at h
  · rename_i s hs
    split at h
    · rename_i x hx
      obtain rfl : s = x.toString := by
        rw [← String.ofList_toList (s := s), hx]
        rfl
      exact ⟨x, List.contains_iff_mem.mp h, hs⟩
    · exact absurd h Bool.false_ne_true
  · exact absurd h Bool.false_ne_true

mutual

/-- **The lists of children that a node stands for.** -/
def Matches : Node → List Tree → Prop
  | .terminal _ value, cs => ∃ c, cs = [c] ∧ isLiteral value c = true
  | .charset _ chars, cs => ∃ c, cs = [c] ∧ isOneOf chars c = true
  | .reference _ name _ _, cs => ∃ c, cs = [c] ∧ isNamed name c = true
  | .sequence _ parts, cs => MatchesAll parts cs
  | .choice _ options, cs => MatchesSome options cs
  | .repetition _ body min max _, cs =>
    ∃ k, min ≤ k ∧ (∀ m, max = some m → k ≤ m) ∧ Copies (fun ds => Matches body ds) k cs

/-- The lists of children that nodes stand for one after the other. -/
def MatchesAll : List Node → List Tree → Prop
  | [], cs => cs = []
  | n :: rest, cs => ∃ ds es, cs = ds ++ es ∧ Matches n ds ∧ MatchesAll rest es

/-- The lists of children that one of several nodes stands for. -/
def MatchesSome : List Node → List Tree → Prop
  | [], _ => False
  | n :: rest, cs => Matches n cs ∨ MatchesSome rest cs

end

/-! ### Stretches of a list -/

/-- The stretch of a list between two positions has a property. -/
def Stretch {α : Type} (P : List α → Prop) (cs : List α) (pos stop : Nat) : Prop :=
  ∃ ds es, cs.drop pos = ds ++ es ∧ stop = pos + ds.length ∧ P ds

section Stretch

variable {α : Type} {P Q : List α → Prop} {cs : List α} {pos stop : Nat}

theorem Stretch.le (h : Stretch P cs pos stop) : pos ≤ stop := by
  obtain ⟨ds, es, -, rfl, -⟩ := h
  omega

theorem Stretch.le_add_length (h : Stretch P cs pos stop) : stop ≤ pos + cs.length := by
  obtain ⟨ds, es, hdrop, rfl, -⟩ := h
  have hlen := congrArg List.length hdrop
  rw [List.length_drop, List.length_append] at hlen
  omega

theorem drop_add_length {ds es : List α} (h : cs.drop pos = ds ++ es) :
    cs.drop (pos + ds.length) = es := by
  rw [← List.drop_drop, h, List.drop_left]

/-- A stretch of the whole list. -/
theorem stretch_zero_length : Stretch P cs 0 cs.length ↔ P cs := by
  constructor
  · rintro ⟨ds, es, hdrop, hlen, h⟩
    rw [List.drop_zero] at hdrop
    have hes : es = [] := by
      have := congrArg List.length hdrop
      rw [List.length_append] at this
      exact List.eq_nil_of_length_eq_zero (by omega)
    rwa [hdrop, hes, List.append_nil]
  · exact fun h => ⟨cs, [], by simp, by simp, h⟩

theorem stretch_nil : Stretch (fun ds => ds = []) cs pos stop ↔ stop = pos := by
  constructor
  · rintro ⟨ds, es, -, rfl, rfl⟩
    rfl
  · rintro rfl
    exact ⟨[], _, rfl, rfl, rfl⟩

/-- Two stretches in a row are a stretch. -/
theorem stretch_append :
    Stretch (fun cs => ∃ ds es, cs = ds ++ es ∧ P ds ∧ Q es) cs pos stop ↔
      ∃ middle, Stretch P cs pos middle ∧ Stretch Q cs middle stop := by
  constructor
  · rintro ⟨-, rest, hdrop, rfl, ds, es, rfl, hP, hQ⟩
    rw [List.append_assoc] at hdrop
    refine ⟨pos + ds.length, ⟨ds, es ++ rest, hdrop, rfl, hP⟩, es, rest, ?_, ?_, hQ⟩
    · exact drop_add_length hdrop
    · rw [List.length_append, Nat.add_assoc]
  · rintro ⟨middle, ⟨ds, rest, hdrop, rfl, hP⟩, es, rest', hdrop', rfl, hQ⟩
    rw [drop_add_length hdrop] at hdrop'
    exact ⟨ds ++ es, rest', by rw [hdrop, hdrop', List.append_assoc],
      by rw [List.length_append, Nat.add_assoc], ds, es, rfl, hP, hQ⟩

theorem stretch_or :
    Stretch (fun cs => P cs ∨ Q cs) cs pos stop ↔
      Stretch P cs pos stop ∨ Stretch Q cs pos stop := by
  constructor
  · rintro ⟨ds, es, hdrop, hstop, h | h⟩
    · exact Or.inl ⟨ds, es, hdrop, hstop, h⟩
    · exact Or.inr ⟨ds, es, hdrop, hstop, h⟩
  · rintro (⟨ds, es, hdrop, hstop, h⟩ | ⟨ds, es, hdrop, hstop, h⟩)
    · exact ⟨ds, es, hdrop, hstop, Or.inl h⟩
    · exact ⟨ds, es, hdrop, hstop, Or.inr h⟩

theorem stretch_exists {ι : Type} {P : ι → List α → Prop} :
    Stretch (fun cs => ∃ i, P i cs) cs pos stop ↔ ∃ i, Stretch (P i) cs pos stop := by
  constructor
  · rintro ⟨ds, es, hdrop, hstop, i, h⟩
    exact ⟨i, ds, es, hdrop, hstop, h⟩
  · rintro ⟨i, ds, es, hdrop, hstop, h⟩
    exact ⟨ds, es, hdrop, hstop, i, h⟩

theorem stretch_and {p : Prop} :
    Stretch (fun cs => p ∧ P cs) cs pos stop ↔ p ∧ Stretch P cs pos stop := by
  constructor
  · rintro ⟨ds, es, hdrop, hstop, hp, h⟩
    exact ⟨hp, ds, es, hdrop, hstop, h⟩
  · rintro ⟨hp, ds, es, hdrop, hstop, h⟩
    exact ⟨ds, es, hdrop, hstop, hp, h⟩

end Stretch

/-- One child that passes a test. -/
theorem mem_endAfter {cs : List Tree} {pos stop : Nat} {test : Tree → Bool} :
    stop ∈ endAfter cs pos test ↔
      Stretch (fun ds => ∃ c, ds = [c] ∧ test c = true) cs pos stop := by
  rw [endAfter]
  constructor
  · intro h
    split at h
    · rename_i c hc
      split at h
      · obtain rfl := List.mem_singleton.mp h
        obtain ⟨hlt, rfl⟩ := List.getElem?_eq_some_iff.mp hc
        exact ⟨[cs[pos]], cs.drop (pos + 1), List.drop_eq_getElem_cons hlt, rfl, _, rfl, ‹_›⟩
      · exact absurd h (by simp)
    · exact absurd h (by simp)
  · rintro ⟨-, es, hdrop, rfl, c, rfl, hc⟩
    have hget : cs[pos]? = some c := by
      rw [← Nat.add_zero pos, ← List.getElem?_drop, hdrop]
      rfl
    rw [hget]
    simp [hc]

/-! ### Walks along a step relation -/

/-- So many steps lead from one position to another. -/
def Walk (step : Nat → List Nat) : Nat → Nat → Nat → Prop
  | 0, p, q => q = p
  | k + 1, p, q => ∃ r ∈ step p, Walk step k r q

section Walk

variable {step : Nat → List Nat}

theorem mem_advance {frontier : List Nat} {q : Nat} :
    q ∈ advance step frontier ↔ ∃ p ∈ frontier, q ∈ step p := by
  simp [advance]

theorem mem_afterCopies {n : Nat} {frontier : List Nat} {q : Nat} :
    q ∈ afterCopies step n frontier ↔ ∃ p ∈ frontier, Walk step n p q := by
  induction n generalizing frontier with
  | zero => simp [afterCopies, Walk]
  | succ n ih =>
    rw [afterCopies]
    split
    · rename_i hempty
      simp [List.isEmpty_iff.mp hempty]
    · rw [ih]
      constructor
      · rintro ⟨r, hr, hwalk⟩
        obtain ⟨p, hp, hstep⟩ := mem_advance.mp hr
        exact ⟨p, hp, r, hstep, hwalk⟩
      · rintro ⟨p, hp, r, hstep, hwalk⟩
        exact ⟨r, mem_advance.mpr ⟨p, hp, hstep⟩, hwalk⟩

theorem mem_afterMore_of_seen {n : Nat} {seen frontier : List Nat} {q : Nat} (h : q ∈ seen) :
    q ∈ afterMore step n seen frontier := by
  induction n generalizing seen frontier with
  | zero => simp [afterMore, h]
  | succ n ih =>
    rw [afterMore]
    split
    · exact h
    · exact ih (SortedSet.mem_union.mpr (Or.inl h))

theorem walk_of_mem_afterMore {n : Nat} {seen frontier : List Nat} {q : Nat}
    (h : q ∈ afterMore step n seen frontier) :
    q ∈ seen ∨ ∃ k ≤ n, ∃ p ∈ frontier, Walk step k p q := by
  induction n generalizing seen frontier with
  | zero =>
    rw [afterMore, SortedSet.mem_union] at h
    exact h.imp_right fun h => ⟨0, Nat.le_refl _, q, h, rfl⟩
  | succ n ih =>
    rw [afterMore] at h
    split at h
    · exact Or.inl h
    · rcases ih h with h | ⟨k, hk, p, hp, hwalk⟩
      · refine (SortedSet.mem_union.mp h).imp_right fun h => ?_
        exact ⟨0, Nat.zero_le _, q, List.mem_of_mem_filter h, rfl⟩
      · obtain ⟨r, hr, hstep⟩ := mem_advance.mp hp
        exact Or.inr ⟨k + 1, by omega, r, List.mem_of_mem_filter hr, p, hstep, hwalk⟩

theorem Walk.mem_of_closed {seen : List Nat} (hclosed : ∀ p ∈ seen, ∀ r ∈ step p, r ∈ seen)
    {k p q : Nat} (hp : p ∈ seen) (h : Walk step k p q) : q ∈ seen := by
  induction k generalizing p with
  | zero =>
    obtain rfl : q = p := h
    exact hp
  | succ k ih =>
    obtain ⟨r, hr, hwalk⟩ := h
    exact ih (hclosed p hp r hr) hwalk

theorem mem_union_fresh {seen frontier : List Nat} {r : Nat} (hr : r ∈ seen ∨ r ∈ frontier) :
    r ∈ SortedSet.union seen (frontier.filter fun p => !seen.contains p) := by
  rw [SortedSet.mem_union, List.mem_filter]
  by_cases hseen : r ∈ seen
  · exact Or.inl hseen
  · exact Or.inr ⟨hr.resolve_left hseen, by simp [hseen]⟩

/-- What has been followed leads to what has been followed or is about to be: no walk leaves the
positions at hand unnoticed. -/
theorem mem_afterMore_of_walk {n : Nat} {seen frontier : List Nat}
    (hclosed : ∀ p ∈ seen, ∀ r ∈ step p, r ∈ seen ∨ r ∈ frontier) {k p q : Nat} (hk : k ≤ n)
    (hp : p ∈ seen ∨ p ∈ frontier) (hwalk : Walk step k p q) :
    q ∈ afterMore step n seen frontier := by
  induction n generalizing seen frontier k p with
  | zero =>
    obtain rfl : k = 0 := by omega
    obtain rfl : q = p := hwalk
    rw [afterMore, SortedSet.mem_union]
    exact hp
  | succ n ih =>
    rw [afterMore]
    split
    · -- Nothing is new, so the positions that were seen are closed under steps.
      rename_i hempty
      have hall : ∀ r, r ∈ seen ∨ r ∈ frontier → r ∈ seen := by
        intro r hr
        by_contra hseen
        have hfresh : r ∈ frontier.filter fun p => !seen.contains p := by
          simp [hr.resolve_left hseen, hseen]
        rw [List.isEmpty_iff.mp hempty] at hfresh
        exact absurd hfresh List.not_mem_nil
      exact hwalk.mem_of_closed (fun p hp r hr => hall r (hclosed p hp r hr)) (hall p hp)
    · have hclosed' : ∀ p ∈ SortedSet.union seen (frontier.filter fun p => !seen.contains p),
          ∀ r ∈ step p, r ∈ SortedSet.union seen (frontier.filter fun p => !seen.contains p) ∨
            r ∈ advance step (frontier.filter fun p => !seen.contains p) := by
        intro p hp r hr
        rcases SortedSet.mem_union.mp hp with hp | hp
        · exact Or.inl (mem_union_fresh (hclosed p hp r hr))
        · exact Or.inr (mem_advance.mpr ⟨p, hp, hr⟩)
      -- The walk stays on positions that were seen for a while, and leaves them by a fresh one.
      induction k generalizing p with
      | zero =>
        obtain rfl : q = p := hwalk
        exact mem_afterMore_of_seen (mem_union_fresh hp)
      | succ k ihk =>
        obtain ⟨r, hr, hwalk⟩ := hwalk
        by_cases hseen : p ∈ seen
        · exact ihk (by omega) (hclosed p hseen r hr) hwalk
        · have hfresh : p ∈ frontier.filter fun p => !seen.contains p := by
            simp [hp.resolve_left hseen, hseen]
          exact ih hclosed' (by omega) (Or.inr (mem_advance.mpr ⟨p, hfresh, hr⟩)) hwalk

/-- **At most so many more copies**: following no position twice loses none. -/
theorem mem_afterMore {n : Nat} {frontier : List Nat} {q : Nat} :
    q ∈ afterMore step n [] frontier ↔ ∃ k ≤ n, ∃ p ∈ frontier, Walk step k p q := by
  constructor
  · exact fun h => (walk_of_mem_afterMore h).resolve_left List.not_mem_nil
  · rintro ⟨k, hk, p, hp, hwalk⟩
    exact mem_afterMore_of_walk (by simp) hk (Or.inr hp) hwalk

theorem Walk.add {j k p q r : Nat} (h₁ : Walk step j p q) (h₂ : Walk step k q r) :
    Walk step (j + k) p r := by
  induction j generalizing p with
  | zero =>
    obtain rfl : q = p := h₁
    rwa [Nat.zero_add]
  | succ j ih =>
    obtain ⟨s, hs, hwalk⟩ := h₁
    rw [Nat.succ_add]
    exact ⟨s, hs, ih hwalk⟩

theorem Walk.split {j k p r : Nat} (h : Walk step (j + k) p r) :
    ∃ q, Walk step j p q ∧ Walk step k q r := by
  induction j generalizing p with
  | zero => exact ⟨p, rfl, by rwa [Nat.zero_add] at h⟩
  | succ j ih =>
    rw [Nat.succ_add] at h
    obtain ⟨s, hs, hwalk⟩ := h
    obtain ⟨q, hq, hr⟩ := ih hwalk
    exact ⟨q, ⟨s, hs, hq⟩, hr⟩

/-- **Steps that stay in place can be left out** of a walk that never goes back. -/
theorem Walk.shorten (hle : ∀ p, ∀ q ∈ step p, p ≤ q) {k p q : Nat} (h : Walk step k p q) :
    p ≤ q ∧ ∃ j, j ≤ q - p ∧ Walk step j p q := by
  induction k generalizing p with
  | zero =>
    obtain rfl : q = p := h
    exact ⟨Nat.le_refl _, 0, Nat.zero_le _, rfl⟩
  | succ k ih =>
    obtain ⟨r, hr, hwalk⟩ := h
    obtain ⟨hrq, j, hj, hwalk⟩ := ih hwalk
    have hpr := hle p r hr
    rcases Nat.eq_or_lt_of_le hpr with rfl | hlt
    · exact ⟨hrq, j, hj, hwalk⟩
    · exact ⟨by omega, j + 1, by omega, r, hr, hwalk⟩

/-- **Copies between bounds.** -/
theorem mem_afterRepetition {length min pos q : Nat} {max : Option Nat}
    (hle : ∀ p, ∀ q ∈ step p, p ≤ q) (hlength : ∀ k, Walk step k pos q → q ≤ pos + length)
    (hbounds : ∀ m, max = some m → min ≤ m) :
    q ∈ afterRepetition step length min max pos ↔
      ∃ k, min ≤ k ∧ (∀ m, max = some m → k ≤ m) ∧ Walk step k pos q := by
  simp only [afterRepetition, mem_afterMore, mem_afterCopies, List.mem_singleton, exists_eq_left]
  constructor
  · rintro ⟨k, hk, p, hp, hwalk⟩
    refine ⟨min + k, Nat.le_add_right _ _, fun m hm => ?_, hp.add hwalk⟩
    subst hm
    have hmin := hbounds m rfl
    simp only at hk
    omega
  · rintro ⟨k, hmin, hmax, hwalk⟩
    have hq := hlength k hwalk
    obtain ⟨more, rfl⟩ := Nat.exists_eq_add_of_le hmin
    obtain ⟨p, hp, hmore⟩ := hwalk.split
    have hpos := (hp.shorten hle).1
    cases max with
    | some m =>
      have hm := hmax m rfl
      exact ⟨more, by simp only; omega, p, hp, hmore⟩
    | none =>
      -- No bound is kept to, but a walk that moves at each step is no longer than the list.
      obtain ⟨hpq, j, hj, hshort⟩ := hmore.shorten hle
      exact ⟨j, by simp only; omega, p, hp, hshort⟩

/-- Steps over stretches walk over copies. -/
theorem walk_iff_stretch {P : List Tree → Prop} {cs : List Tree}
    (hstep : ∀ p q, q ∈ step p ↔ Stretch P cs p q) {k p q : Nat} :
    Walk step k p q ↔ Stretch (Copies P k) cs p q := by
  induction k generalizing p with
  | zero => exact stretch_nil.symm
  | succ k ih =>
    refine Iff.trans ?_ stretch_append.symm
    exact exists_congr fun r => and_congr (hstep p r) ih

end Walk

end Node

/-! ### Ends are ends of matches -/

namespace Grammar

open Node

mutual

/-- **A position is an end exactly when the stretch up to it is a match.** -/
theorem Bounded.mem_ends {g : Grammar} (hg : g.Bounded) (cs : List Tree) :
    ∀ {n : Node}, g.Occurs n → ∀ {pos stop : Nat},
      (stop ∈ n.ends cs pos ↔ Stretch n.Matches cs pos stop)
  | .terminal _ _, _, _, _ | .charset _ _, _, _, _ | .reference _ _ _ _, _, _, _ => by
    rw [ends, mem_endAfter]
    simp only [Matches]
  | .sequence _ parts, hn, pos, stop => by
    have hparts : ∀ n ∈ parts, g.Occurs n := fun n h =>
      hn.of_mem_subnodes (mem_subnodes_sequence h n.mem_subnodes_self)
    rw [ends, hg.mem_sequenceEnds cs hparts]
    simp [Matches]
  | .choice _ options, hn, pos, stop => by
    have hoptions : ∀ n ∈ options, g.Occurs n := fun n h =>
      hn.of_mem_subnodes (mem_subnodes_choice h n.mem_subnodes_self)
    rw [ends, hg.mem_choiceEnds cs hoptions]
    simp only [Matches]
  | .repetition _ body min max _, hn, pos, stop => by
    have hbody := hn.of_mem_subnodes (mem_subnodes_repetition body.mem_subnodes_self)
    have hstep : ∀ p q, q ∈ body.ends cs p ↔ Stretch body.Matches cs p q :=
      fun p q => hg.mem_ends cs hbody
    rw [ends, mem_afterRepetition (fun p q hq => ((hstep p q).mp hq).le)
      (fun k hwalk => ((walk_iff_stretch hstep).mp hwalk).le_add_length)
      (fun m hm => (hg.bounds (hm ▸ hn)).2)]
    simp only [walk_iff_stretch hstep, Matches, stretch_exists, stretch_and]

theorem Bounded.mem_sequenceEnds {g : Grammar} (hg : g.Bounded) (cs : List Tree) :
    ∀ {parts : List Node}, (∀ n ∈ parts, g.Occurs n) → ∀ {frontier : List Nat} {stop : Nat},
      (stop ∈ sequenceEnds cs parts frontier ↔
        ∃ p ∈ frontier, Stretch (MatchesAll parts) cs p stop)
  | [], _, frontier, stop => by
    simp only [sequenceEnds, MatchesAll, stretch_nil, exists_eq_right']
  | n :: rest, hn, frontier, stop => by
    have hstep : ∀ p q, q ∈ n.ends cs p ↔ Stretch n.Matches cs p q :=
      fun p q => hg.mem_ends cs (hn n List.mem_cons_self)
    rw [sequenceEnds, hg.mem_sequenceEnds cs fun m h => hn m (List.mem_cons_of_mem _ h)]
    simp only [MatchesAll, stretch_append, mem_advance, hstep]
    constructor
    · rintro ⟨q, ⟨p, hp, hpq⟩, hrest⟩
      exact ⟨p, hp, q, hpq, hrest⟩
    · rintro ⟨p, hp, q, hpq, hrest⟩
      exact ⟨q, ⟨p, hp, hpq⟩, hrest⟩

theorem Bounded.mem_choiceEnds {g : Grammar} (hg : g.Bounded) (cs : List Tree) :
    ∀ {options : List Node}, (∀ n ∈ options, g.Occurs n) → ∀ {pos stop : Nat},
      (stop ∈ choiceEnds cs options pos ↔ Stretch (MatchesSome options) cs pos stop)
  | [], _, pos, stop => by
    simp [choiceEnds, MatchesSome, Stretch]
  | n :: rest, hn, pos, stop => by
    rw [choiceEnds, SortedSet.mem_union, hg.mem_ends cs (hn n List.mem_cons_self),
      hg.mem_choiceEnds cs fun m h => hn m (List.mem_cons_of_mem _ h)]
    simp only [MatchesSome, stretch_or]

end

/-- **A rule fits the children that its body stands for.** -/
theorem Bounded.fits_iff {g : Grammar} (hg : g.Bounded) {n : Node} (hn : g.Occurs n)
    {cs : List Tree} : n.fits cs = true ↔ n.Matches cs := by
  rw [fits, List.contains_iff_mem, hg.mem_ends cs hn, stretch_zero_length]

end Grammar

end GrammarFuzzing
