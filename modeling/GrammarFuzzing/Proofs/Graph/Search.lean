import GrammarFuzzing.Graph.Search
import GrammarFuzzing.Proofs.Graph.Walks
import Mathlib.Data.List.Nodup
import Mathlib.Data.Set.List

/-!
# What searches find

A search finds a walk to a goal if there is one, none is cheaper than the one it finds, and none as
cheap is shorter (`GrammarFuzzing.Graph.search_least`). The invariant of its rounds
(`GrammarFuzzing.Graph.Searching`) tells places that were **looked at** from the others. The search
itself does not keep them apart:

* no way to a place that was looked at is improved any more, since every entry of the frontier takes
  at least as much, and any entry that is left for such a place is stale;
* every other place that has a way has one entry for it, among stale ones that take more;
* a way leads over a place that was looked at, so it is one edge longer than the way there, and the
  places on it can be followed back to the start (`GrammarFuzzing.Graph.Searching.exists_places`).

Once the edges of all places that were looked at have been followed, every walk is either at such a
place or there is an entry that takes no more (`GrammarFuzzing.Graph.Searching.covers`). So the
first entry that is not stale belongs to a least walk.

The search ends, since each round takes an entry off, and adds at most as many as edges lead from
the place that it looks at. No place is looked at twice, but the start is once more than others,
being looked at before it has been found (`GrammarFuzzing.Graph.sumOf_degree_le`).
-/

namespace GrammarFuzzing

/-! ### Efforts -/

namespace Effort

variable {a b c : Effort}

theorem le_iff : a.le b = true ↔ a.cost < b.cost ∨ a.cost = b.cost ∧ a.steps ≤ b.steps := by
  rw [le, Bool.or_eq_true, Bool.and_eq_true, decide_eq_true_iff, decide_eq_true_iff,
    decide_eq_true_iff]

theorem le_refl (a : Effort) : a.le a = true :=
  le_iff.mpr (Or.inr ⟨rfl, Nat.le_refl _⟩)

theorem le_trans (h : a.le b = true) (h' : b.le c = true) : a.le c = true := by
  rw [le_iff] at h h' ⊢
  omega

theorem le_of_not_le (h : a.le b ≠ true) : b.le a = true := by
  rw [Ne, le_iff] at h
  rw [le_iff]
  omega

/-- A walk takes no less with one more place. -/
theorem le_extend (g : Graph) (v : Vertex) (a : Effort) : a.le (g.extend v a) = true := by
  rw [le_iff, Graph.extend]
  dsimp only
  omega

/-- **One more place keeps the order.** -/
theorem extend_le_extend (g : Graph) (v : Vertex) (h : a.le b = true) :
    (g.extend v a).le (g.extend v b) = true := by
  rw [le_iff] at h
  rw [le_iff, Graph.extend, Graph.extend]
  dsimp only
  omega

end Effort

namespace Graph

variable {g : Graph} {start : Vertex}

/-- Estimates add nothing. -/
@[simp] theorem expected_eq (g : Graph) (v : Vertex) (a : Effort) : g.expected v a = a := rfl

/-! ### Trails -/

/-- **The walks from the start**, each with its last place, what it takes, and its places. A walk
that stays has no last place, as the search sees it. -/
inductive Trail (g : Graph) (start : Vertex) : Option Vertex → Effort → List Vertex → Prop
  /-- The walk that stays. -/
  | stay : Trail g start none ⟨0, 0⟩ [start]
  /-- One more edge. -/
  | step {p : Option Vertex} {a : Effort} {places : List Vertex} {v : Vertex}
      (h : Trail g start p a places) (hv : v ∈ g.successors (p.getD start)) :
      Trail g start (some v) (g.extend v a) (places ++ [v])

variable {p : Option Vertex} {a : Effort} {places : List Vertex}

theorem Trail.getLast? (h : g.Trail start p a places) : places.getLast? = some (p.getD start) := by
  cases h with
  | stay => rfl
  | step => rw [List.getLast?_concat, Option.getD_some]

/-- **A trail is a walk** with as many edges and the same cost. -/
theorem Trail.exists_rest (h : g.Trail start p a places) : ∃ rest, places = start :: rest ∧
    g.IsWalk places ∧ rest.length = a.steps ∧ sumOf (rest.map g.cost) = a.cost := by
  induction h with
  | stay => exact ⟨[], rfl, List.isChain_singleton start, rfl, rfl⟩
  | @step p a places v h hv ih =>
    obtain ⟨rest, rfl, hwalk, hsteps, hcost⟩ := ih
    refine ⟨rest ++ [v], rfl, (isWalk_concat h.getLast?).mpr ⟨hwalk, hv⟩, ?_, ?_⟩
    · rw [List.length_append, hsteps]
      rfl
    · rw [List.map_append, sumOf_append, hcost]
      rfl

/-- **Every walk is a trail.** -/
theorem exists_trail (rest : List Vertex) : g.IsWalk (start :: rest) →
    ∃ p a, g.Trail start p a (start :: rest) := by
  induction rest using List.reverseRecOn with
  | nil => exact fun _ => ⟨_, _, .stay⟩
  | append_singleton rest v ih =>
    intro hwalk
    rw [← List.cons_append] at hwalk
    obtain ⟨p, a, h⟩ := ih hwalk.left_of_append
    exact ⟨_, _, h.step ((isWalk_concat h.getLast?).mp hwalk).2⟩

/-- **The walks to goals** are the trails that have a last place which is one. -/
theorem leads_iff {isGoal : Vertex → Bool} : g.Leads start isGoal places ↔
    ∃ v a, g.Trail start (some v) a places ∧ isGoal v = true := by
  constructor
  · rintro ⟨inner, goal, rfl, hwalk, hgoal⟩
    rw [← List.cons_append] at hwalk ⊢
    obtain ⟨p, a, h⟩ := exists_trail inner hwalk.left_of_append
    exact ⟨goal, _, h.step ((isWalk_concat h.getLast?).mp hwalk).2, hgoal⟩
  · rintro ⟨v, a, htrail, hgoal⟩
    obtain ⟨-, -, hwalk, -, -⟩ := htrail.exists_rest
    cases htrail with
    | step h hv =>
      obtain ⟨rest, rfl, -⟩ := h.exists_rest
      exact ⟨rest, v, rfl, hwalk, hgoal⟩

/-! ### The frontier -/

theorem mem_enqueue {e x : FrontierEntry} : ∀ {queue : List FrontierEntry},
    x ∈ e.enqueue queue ↔ x = e ∨ x ∈ queue
  | [] => by rw [FrontierEntry.enqueue, List.mem_singleton]; simp
  | y :: rest => by
    rw [FrontierEntry.enqueue]
    split
    · rw [List.mem_cons, mem_enqueue, List.mem_cons, or_left_comm]
    · exact List.mem_cons

theorem enqueue_perm (e : FrontierEntry) : ∀ queue : List FrontierEntry,
    (e.enqueue queue).Perm (e :: queue)
  | [] => .refl _
  | y :: rest => by
    rw [FrontierEntry.enqueue]
    split
    · exact ((enqueue_perm e rest).cons y).trans (.swap e y rest)
    · exact .refl _

/-- **A frontier is in order.** -/
def InOrder (queue : List FrontierEntry) : Prop :=
  queue.Pairwise fun e f => e.effort.le f.effort = true

theorem InOrder.enqueue {e : FrontierEntry} : ∀ {queue : List FrontierEntry}, InOrder queue →
    InOrder (e.enqueue queue)
  | [], _ => List.pairwise_singleton _ _
  | x :: rest, h => by
    obtain ⟨hx, hrest⟩ := List.pairwise_cons.mp h
    rw [FrontierEntry.enqueue]
    split
    · rename_i hle
      refine List.pairwise_cons.mpr ⟨fun f hf => ?_, InOrder.enqueue hrest⟩
      rcases mem_enqueue.mp hf with rfl | hf
      · exact hle
      · exact hx f hf
    · rename_i hle
      have hle := Effort.le_of_not_le hle
      refine List.pairwise_cons.mpr ⟨fun f hf => ?_, h⟩
      rcases List.mem_cons.mp hf with rfl | hf
      · exact hle
      · exact Effort.le_trans hle (hx f hf)

/-! ### The invariant of a search -/

/-- **The invariant of a search**, with the places that were looked at. -/
structure Searching (g : Graph) (start : Vertex) (looked : List (Option Vertex))
    (s : Exploration) : Prop where
  /-- No place was looked at twice. -/
  nodup : looked.Nodup
  /-- The entries are in order, and all different. -/
  inOrder : InOrder s.frontier
  distinct : s.frontier.Nodup
  /-- No entry takes less than the best way to its place. -/
  known : ∀ e ∈ s.frontier, ∃ w, s.way? e.place = some w ∧ w.effort.le e.effort = true
  /-- Where there is a way, the place was looked at, or there is an entry for it. -/
  queued : ∀ p w, s.way? p = some w → p ∈ looked ∨ ⟨w.effort, p⟩ ∈ s.frontier
  /-- Where a place was looked at, there is no such entry, and none takes less. -/
  settled : ∀ p ∈ looked, ∃ w, s.way? p = some w ∧ ⟨w.effort, p⟩ ∉ s.frontier ∧
    ∀ e ∈ s.frontier, w.effort.le e.effort = true
  /-- A way leads over a place that was looked at. -/
  parent : ∀ v w, s.ways.find? v = some w → w.parent ∈ looked ∧
    ∃ u, s.way? w.parent = some u ∧ v ∈ g.successors (w.parent.getD start) ∧
      w.effort = g.extend v u.effort

/-- **The edges from a place have been followed**: there are ways over them, or better ones. -/
def Followed (g : Graph) (start : Vertex) (s : Exploration) (p : Option Vertex) : Prop :=
  ∀ u, s.way? p = some u → ∀ v ∈ g.successors (p.getD start),
    ∃ w, s.ways.find? v = some w ∧ w.effort.le (g.extend v u.effort) = true

variable {looked : List (Option Vertex)} {s : Exploration} {e : FrontierEntry}
  {rest : List FrontierEntry} {w : Way}

/-- **The places on a way** can be followed back to the start. -/
theorem Searching.exists_places (h : g.Searching start looked s) {n : Nat} :
    ∀ {p : Option Vertex} {w : Way}, s.way? p = some w → w.effort.steps = n →
      ∃ places, s.places start (n + 1) p = some places ∧ g.Trail start p w.effort places := by
  induction n with
  | zero =>
    intro p w hw hsteps
    cases p with
    | none =>
      obtain rfl := Option.some.inj hw
      exact ⟨[start], rfl, .stay⟩
    | some v =>
      obtain ⟨-, u, -, -, heffort⟩ := h.parent v w hw
      rw [heffort] at hsteps
      exact absurd hsteps (Nat.succ_ne_zero _)
  | succ n ih =>
    intro p w hw hsteps
    cases p with
    | none =>
      obtain rfl := Option.some.inj hw
      exact absurd hsteps (Nat.succ_ne_zero n).symm
    | some v =>
      obtain ⟨-, u, hu, hv, heffort⟩ := h.parent v w hw
      rw [heffort] at hsteps
      obtain ⟨places, hplaces, htrail⟩ := ih hu (Nat.succ.inj hsteps)
      refine ⟨places ++ [v], ?_, heffort ▸ htrail.step hv⟩
      rw [Exploration.places, show s.ways.find? v = some w from hw, Option.bind_some, hplaces]
      rfl

/-- **Where a trail ends has been looked at**, at no greater effort, or there is an entry that takes
no more. -/
theorem Searching.covers (h : g.Searching start looked s)
    (hfollowed : ∀ p ∈ looked, g.Followed start s p) {p : Option Vertex} {a : Effort}
    {places : List Vertex} (htrail : g.Trail start p a places) :
    (p ∈ looked ∧ ∃ w, s.way? p = some w ∧ w.effort.le a = true) ∨
      ∃ e ∈ s.frontier, e.effort.le a = true := by
  have hway : ∀ {p w a}, s.way? p = some w → w.effort.le a = true →
      (p ∈ looked ∧ ∃ w, s.way? p = some w ∧ w.effort.le a = true) ∨
        ∃ e ∈ s.frontier, e.effort.le a = true := fun hw hle =>
    (h.queued _ _ hw).imp (fun hp => ⟨hp, _, hw, hle⟩) fun he => ⟨_, he, hle⟩
  induction htrail with
  | stay => exact hway rfl (Effort.le_refl _)
  | @step p a places v htrail hv ih =>
    rcases ih with ⟨hp, u, hu, hle⟩ | ⟨e, he, hle⟩
    · obtain ⟨w, hw, hbetter⟩ := hfollowed p hp u hu v hv
      exact hway (p := some v) hw (Effort.le_trans hbetter (Effort.extend_le_extend g v hle))
    · exact Or.inr ⟨e, he, Effort.le_trans hle (Effort.le_extend g v a)⟩

/-! ### One round -/

/-- An entry that is stale is passed over. -/
theorem Searching.skip (h : g.Searching start looked s) (hfrontier : s.frontier = e :: rest)
    (hw : s.way? e.place = some w) (hstale : e.effort ≠ w.effort) :
    g.Searching start looked { s with frontier := rest } := by
  have hsub : ∀ f ∈ rest, f ∈ s.frontier := fun f hf => hfrontier ▸ List.mem_cons_of_mem e hf
  refine ⟨h.nodup, ?_, ?_, fun f hf => h.known f (hsub f hf), fun p u hu => ?_, fun p hp => ?_,
    h.parent⟩
  · exact (List.pairwise_cons.mp (hfrontier ▸ h.inOrder)).2
  · exact (List.nodup_cons.mp (hfrontier ▸ h.distinct)).2
  · refine (h.queued p u hu).imp_right fun hmem => ?_
    rw [hfrontier] at hmem
    refine (List.mem_cons.mp hmem).resolve_left ?_
    rintro rfl
    exact hstale (congrArg Way.effort (Option.some.inj (hu.symm.trans hw)))
  · obtain ⟨u, hu, hnot, hleast⟩ := h.settled p hp
    exact ⟨u, hu, fun hmem => hnot (hsub _ hmem), fun f hf => hleast f (hsub f hf)⟩

/-- **A place is looked at** when its entry comes first. -/
theorem Searching.look (h : g.Searching start looked s) (hfrontier : s.frontier = e :: rest)
    (hw : s.way? e.place = some w) (hfresh : e.effort = w.effort) :
    e.place ∉ looked ∧ g.Searching start (e.place :: looked) { s with frontier := rest } := by
  have hentry : e = ⟨w.effort, e.place⟩ := by rw [← hfresh]
  have hmem : e ∈ s.frontier := hfrontier ▸ List.mem_cons_self
  have hsub : ∀ f ∈ rest, f ∈ s.frontier := fun f hf => hfrontier ▸ List.mem_cons_of_mem e hf
  obtain ⟨hleast, hinOrder⟩ := List.pairwise_cons.mp (hfrontier ▸ h.inOrder)
  obtain ⟨honce, hdistinct⟩ := List.nodup_cons.mp (hfrontier ▸ h.distinct)
  have hnew : e.place ∉ looked := by
    intro hlooked
    obtain ⟨u, hu, hnot, -⟩ := h.settled _ hlooked
    obtain rfl := Option.some.inj (hw.symm.trans hu)
    exact hnot (hentry ▸ hmem)
  refine ⟨hnew, List.nodup_cons.mpr ⟨hnew, h.nodup⟩, hinOrder, hdistinct,
    fun f hf => h.known f (hsub f hf), fun p u hu => ?_, List.forall_mem_cons.mpr ⟨?_, ?_⟩,
    fun v u hu => ?_⟩
  · rcases h.queued p u hu with hp | hp
    · exact Or.inl (List.mem_cons_of_mem _ hp)
    · rw [hfrontier] at hp
      rcases List.mem_cons.mp hp with rfl | hp
      · exact Or.inl List.mem_cons_self
      · exact Or.inr hp
  · exact ⟨w, hw, hentry ▸ honce, fun f hf => hfresh ▸ hleast f hf⟩
  · intro p hp
    obtain ⟨u, hu, hnot, hleast⟩ := h.settled p hp
    exact ⟨u, hu, fun hmem => hnot (hsub _ hmem), fun f hf => hleast f (hsub f hf)⟩
  · exact (h.parent v u hu).imp_left (List.mem_cons_of_mem _)

/-- **What following edges keeps and improves.** -/
structure Improves (looked : List (Option Vertex)) (s t : Exploration) : Prop where
  /-- No way to a place that was looked at has changed. -/
  same : ∀ p ∈ looked, t.way? p = s.way? p
  /-- No other one is worse. -/
  better : ∀ v w, s.ways.find? v = some w → ∃ u, t.ways.find? v = some u ∧
    u.effort.le w.effort = true

theorem Improves.refl (looked : List (Option Vertex)) (s : Exploration) : Improves looked s s :=
  ⟨fun _ _ => rfl, fun _ w hw => ⟨w, hw, Effort.le_refl _⟩⟩

theorem Improves.trans {t r : Exploration} (h : Improves looked s t) (h' : Improves looked t r) :
    Improves looked s r := by
  refine ⟨fun p hp => (h'.same p hp).trans (h.same p hp), fun v w hw => ?_⟩
  obtain ⟨u, hu, hle⟩ := h.better v w hw
  obtain ⟨x, hx, hle'⟩ := h'.better v u hu
  exact ⟨x, hx, Effort.le_trans hle' hle⟩

/-! ### Following edges -/

theorem way?_put_self (ways : Dictionary Vertex Way) (frontier : List FrontierEntry) (v : Vertex)
    (w : Way) : Exploration.way? ⟨ways.put v w, frontier⟩ (some v) = some w :=
  Dictionary.find?_put_self v w ways

theorem way?_put_of_ne {v : Vertex} {p : Option Vertex} (h : p ≠ some v)
    (frontier : List FrontierEntry) (w : Way) :
    Exploration.way? ⟨s.ways.put v w, frontier⟩ p = s.way? p := by
  cases p with
  | none => rfl
  | some x => exact Dictionary.find?_put_of_ne (fun hx => h (congrArg some hx.symm)) w s.ways

section Relax

variable {p : Option Vertex} {u : Way} {v : Vertex} (h : g.Searching start looked s)
  (hp : p ∈ looked) (hu : s.way? p = some u)
  (hmost : ∀ q ∈ looked, ∀ w, s.way? q = some w → w.effort.le u.effort = true)
  (hv : v ∈ g.successors (p.getD start))

include h hp hu hmost hv

/-- **A new or better way is found.** -/
theorem Searching.put (hbetter : ∀ w, s.ways.find? v = some w →
      w.effort.le (g.extend v u.effort) ≠ true) :
    some v ∉ looked ∧ g.Searching start looked ⟨s.ways.put v ⟨g.extend v u.effort, p⟩,
      FrontierEntry.enqueue ⟨g.extend v u.effort, some v⟩ s.frontier⟩ := by
  have hle : u.effort.le (g.extend v u.effort) = true := Effort.le_extend g v u.effort
  -- Places that were looked at have ways that take less.
  have hnew : some v ∉ looked := by
    intro hlooked
    obtain ⟨w, hw, -⟩ := h.settled _ hlooked
    exact hbetter w hw (Effort.le_trans (hmost _ hlooked w hw) hle)
  have hother : ∀ q ∈ looked, q ≠ some v := fun q hq hqv => hnew (hqv ▸ hq)
  refine ⟨hnew, h.nodup, InOrder.enqueue h.inOrder, ?_, fun e he => ?_, fun q w hw => ?_,
    fun q hq => ?_, fun x w hw => ?_⟩
  · rw [(enqueue_perm _ _).nodup_iff, List.nodup_cons]
    refine ⟨fun hmem => ?_, h.distinct⟩
    obtain ⟨w, hw, hwle⟩ := h.known _ hmem
    exact hbetter w hw hwle
  · rcases mem_enqueue.mp he with rfl | he
    · exact ⟨_, way?_put_self _ _ _ _, Effort.le_refl _⟩
    · obtain ⟨w, hw, hwle⟩ := h.known e he
      by_cases hplace : e.place = some v
      · rw [hplace] at hw
        rw [hplace, way?_put_self]
        exact ⟨_, rfl, Effort.le_trans (Effort.le_of_not_le (hbetter w hw)) hwle⟩
      · rw [way?_put_of_ne hplace]
        exact ⟨w, hw, hwle⟩
  · by_cases hq : q = some v
    · rw [hq, way?_put_self] at hw
      obtain rfl := Option.some.inj hw
      exact Or.inr (mem_enqueue.mpr (Or.inl (hq ▸ rfl)))
    · rw [way?_put_of_ne hq] at hw
      exact (h.queued q w hw).imp_right fun hmem => mem_enqueue.mpr (Or.inr hmem)
  · obtain ⟨w, hw, hnot, hleast⟩ := h.settled q hq
    rw [way?_put_of_ne (hother q hq)]
    refine ⟨w, hw, fun hmem => ?_, fun e he => ?_⟩
    · rcases mem_enqueue.mp hmem with heq | hmem
      · exact hother q hq (congrArg FrontierEntry.place heq)
      · exact hnot hmem
    · rcases mem_enqueue.mp he with rfl | he
      · exact Effort.le_trans (hmost q hq w hw) hle
      · exact hleast e he
  · by_cases hx : v = x
    · subst hx
      rw [Dictionary.find?_put_self] at hw
      obtain rfl := Option.some.inj hw
      refine ⟨hp, u, ?_, hv, rfl⟩
      rw [way?_put_of_ne (hother p hp), hu]
    · rw [Dictionary.find?_put_of_ne hx] at hw
      obtain ⟨hparent, u', hu', hrest⟩ := h.parent x w hw
      refine ⟨hparent, u', ?_, hrest⟩
      rw [way?_put_of_ne (hother _ hparent), hu']

/-- **One edge is followed.** -/
theorem Searching.relax : g.Searching start looked (g.relax p u.effort s v) ∧
    Improves looked s (g.relax p u.effort s v) ∧
      (∃ w, (g.relax p u.effort s v).ways.find? v = some w ∧
        w.effort.le (g.extend v u.effort) = true) ∧
        (g.relax p u.effort s v).frontier.length ≤ s.frontier.length + 1 := by
  rw [Graph.relax]
  split
  · rename_i hkept
    obtain ⟨w, hw, hle⟩ := (Option.any_eq_true _ _).mp hkept
    exact ⟨h, .refl looked s, ⟨w, hw, hle⟩, Nat.le_succ _⟩
  · rename_i hkept
    have hbetter : ∀ w, s.ways.find? v = some w → w.effort.le (g.extend v u.effort) ≠ true :=
      fun w hw hle => hkept ((Option.any_eq_true _ _).mpr ⟨w, hw, hle⟩)
    obtain ⟨hnew, hsearching⟩ := h.put hp hu hmost hv hbetter
    refine ⟨hsearching, ⟨fun q hq => way?_put_of_ne (fun hqv => hnew (hqv ▸ hq)) _ _,
      fun x w hw => ?_⟩, ⟨_, Dictionary.find?_put_self _ _ _, Effort.le_refl _⟩, ?_⟩
    · by_cases hx : v = x
      · subst hx
        exact ⟨_, Dictionary.find?_put_self _ _ _, Effort.le_of_not_le (hbetter w hw)⟩
      · exact ⟨w, (Dictionary.find?_put_of_ne hx _ _).trans hw, Effort.le_refl _⟩
    · rw [(enqueue_perm _ _).length_eq, List.length_cons]

end Relax

/-- **All edges from a place are followed**, one after the other. -/
theorem Searching.foldl_relax {p : Option Vertex} {u : Way} (hp : p ∈ looked) :
    ∀ {vs : List Vertex} {s : Exploration}, g.Searching start looked s → s.way? p = some u →
      (∀ q ∈ looked, ∀ w, s.way? q = some w → w.effort.le u.effort = true) →
      (∀ v ∈ vs, v ∈ g.successors (p.getD start)) →
        g.Searching start looked (vs.foldl (g.relax p u.effort) s) ∧
          Improves looked s (vs.foldl (g.relax p u.effort) s) ∧
            (∀ v ∈ vs, ∃ w, (vs.foldl (g.relax p u.effort) s).ways.find? v = some w ∧
              w.effort.le (g.extend v u.effort) = true) ∧
              (vs.foldl (g.relax p u.effort) s).frontier.length ≤ s.frontier.length + vs.length
  | [], s, h, _, _, _ => ⟨h, .refl looked s, fun v hv => absurd hv List.not_mem_nil, Nat.le_refl _⟩
  | v :: vs, s, h, hu, hmost, hvs => by
    obtain ⟨hv, hvs⟩ := List.forall_mem_cons.mp hvs
    obtain ⟨hsearching, himproves, ⟨w, hw, hle⟩, hlength⟩ := h.relax hp hu hmost hv
    obtain ⟨hsearching, himproves', hfollowed, hlength'⟩ := Searching.foldl_relax hp hsearching
      ((himproves.same p hp).trans hu)
      (fun q hq x hx => hmost q hq x (himproves.same q hq ▸ hx)) hvs
    refine ⟨hsearching, himproves.trans himproves', List.forall_mem_cons.mpr ⟨?_, hfollowed⟩, ?_⟩
    · obtain ⟨x, hx, hle'⟩ := himproves'.better v w hw
      exact ⟨x, hx, Effort.le_trans hle' hle⟩
    · rw [List.foldl_cons, List.length_cons]
      omega

/-- **A round that looks at a place** keeps the invariant, and follows all edges from there. -/
theorem Searching.expand (h : g.Searching start looked s)
    (hfollowed : ∀ p ∈ looked, g.Followed start s p) (hfrontier : s.frontier = e :: rest)
    (hw : s.way? e.place = some w) (hfresh : e.effort = w.effort) :
    ∃ t, (g.successors (e.place.getD start)).foldl (g.relax e.place w.effort)
        { s with frontier := rest } = t ∧
      g.Searching start (e.place :: looked) t ∧ (∀ p ∈ e.place :: looked, g.Followed start t p) ∧
        t.frontier.length ≤ rest.length + (g.successors (e.place.getD start)).length := by
  have hmost : ∀ q ∈ e.place :: looked, ∀ x, s.way? q = some x →
      x.effort.le w.effort = true := by
    refine List.forall_mem_cons.mpr ⟨fun x hx => ?_, fun q hq x hx => ?_⟩
    · obtain rfl := Option.some.inj (hw.symm.trans hx)
      exact Effort.le_refl _
    · obtain ⟨y, hy, -, hleast⟩ := h.settled q hq
      obtain rfl := Option.some.inj (hx.symm.trans hy)
      exact hfresh ▸ hleast e (hfrontier ▸ List.mem_cons_self)
  obtain ⟨hsearching, himproves, hnow, hlength⟩ := Searching.foldl_relax List.mem_cons_self
    (h.look hfrontier hw hfresh).2 hw hmost fun v hv => hv
  refine ⟨_, rfl, hsearching, List.forall_mem_cons.mpr ⟨fun u hu => ?_, fun p hp u hu v hv => ?_⟩,
    hlength⟩
  · rw [himproves.same _ List.mem_cons_self] at hu
    obtain rfl := Option.some.inj (hw.symm.trans hu)
    exact hnow
  · rw [himproves.same p (List.mem_cons_of_mem _ hp)] at hu
    obtain ⟨x, hx, hle⟩ := hfollowed p hp u hu v hv
    obtain ⟨y, hy, hle'⟩ := himproves.better v x hx
    exact ⟨y, hy, Effort.le_trans hle' hle⟩

/-! ### The number of rounds -/

theorem sumOf_perm {ms ns : List Nat} (h : ms.Perm ns) : sumOf ms = sumOf ns := by
  induction h with
  | nil => rfl
  | cons m _ ih => rw [sumOf, sumOf, ih]
  | swap m n rest => rw [sumOf, sumOf, sumOf, sumOf, Nat.add_left_comm]
  | trans _ _ ih ih' => exact ih.trans ih'

/-- What is found for different keys is, all together, no longer than what there is. -/
theorem sumOf_find?_le : ∀ {d : Dictionary Vertex (List Vertex)} {vs : List Vertex}, vs.Nodup →
    sumOf (vs.map fun v => ((d.find? v).getD []).length) ≤ sumOf (d.map fun e => e.2.length)
  | [], vs, h => by
    clear h
    induction vs with
    | nil => exact Nat.le_refl 0
    | cons v vs ih => simpa [sumOf] using ih
  | (k, ws) :: d, vs, h => by
    have hother : ∀ {vs : List Vertex}, k ∉ vs →
        vs.map (fun v => ((Dictionary.find? ((k, ws) :: d) v).getD []).length) =
          vs.map fun v => ((Dictionary.find? d v).getD []).length := by
      intro vs hk
      refine List.map_congr_left fun v hv => ?_
      rw [Dictionary.find?_cons_of_ne (ne_of_mem_of_not_mem hv hk).symm]
    rw [List.map_cons, sumOf]
    by_cases hk : k ∈ vs
    · have hsplit := List.perm_cons_erase hk
      rw [sumOf_perm (hsplit.map _), List.map_cons, sumOf, Dictionary.find?_cons_self,
        hother (List.nodup_cons.mp (hsplit.nodup_iff.mp h)).1, Option.getD_some]
      exact Nat.add_le_add_left (sumOf_find?_le (h.erase k)) _
    · rw [hother hk]
      exact (sumOf_find?_le h).trans (Nat.le_add_left _ _)

/-- The number of edges from a place, or from the start. -/
def degree (g : Graph) (start : Vertex) (p : Option Vertex) : Nat :=
  (g.successors (p.getD start)).length

/-- **Different places** have at most as many edges as there are, and the start has as many
again. -/
theorem sumOf_degree_le (h : looked.Nodup) : sumOf (looked.map (g.degree start)) ≤ 2 * g.size := by
  have hplaces : ∀ {ps : List (Option Vertex)}, ps.Nodup → none ∉ ps →
      sumOf (ps.map (g.degree start)) ≤ g.size := by
    intro ps hps hnone
    obtain ⟨vs, rfl⟩ : ps ∈ Set.range (List.map some) := by
      rw [Set.range_list_map]
      exact fun p hp => Option.ne_none_iff_exists.mp (ne_of_mem_of_not_mem hp hnone)
    rw [List.map_map]
    exact sumOf_find?_le (List.Nodup.of_map _ hps)
  by_cases hnone : none ∈ looked
  · have hsplit := List.perm_cons_erase hnone
    have hrest := hplaces (h.erase none) (List.nodup_cons.mp (hsplit.nodup_iff.mp h)).1
    have hstart := hplaces (List.nodup_singleton (some start)) (by simp)
    rw [sumOf_perm (hsplit.map _), List.map_cons, sumOf]
    change g.degree start (some start) + 0 ≤ g.size at hstart
    change g.degree start (some start) + _ ≤ _
    omega
  · have := hplaces h hnone
    omega

/-! ### Searches -/

/-- A round that passes over a stale entry. -/
theorem explore_stale {isGoal : Vertex → Bool} {rounds : Nat} (hfrontier : s.frontier = e :: rest)
    (hw : s.way? e.place = some w) (hstale : e.effort ≠ w.effort) :
    g.explore start isGoal (rounds + 1) s =
      g.explore start isGoal rounds { s with frontier := rest } := by
  have hw : Exploration.way? ⟨s.ways, rest⟩ e.place = some w := hw
  simp only [explore, hfrontier, hw, expected_eq, Option.filter_some, hstale, decide_false,
    Bool.false_eq_true, if_false]

/-- A round that looks at a place. -/
theorem explore_fresh {isGoal : Vertex → Bool} {rounds : Nat} (hfrontier : s.frontier = e :: rest)
    (hw : s.way? e.place = some w) (hfresh : e.effort = w.effort) :
    g.explore start isGoal (rounds + 1) s =
      if e.place.any isGoal then some ({ s with frontier := rest }, e.place)
      else g.explore start isGoal rounds ((g.successors (e.place.getD start)).foldl
        (g.relax e.place w.effort) { s with frontier := rest }) := by
  have hw : Exploration.way? ⟨s.ways, rest⟩ e.place = some w := hw
  simp only [explore, hfrontier, hw, expected_eq, Option.filter_some, hfresh, decide_true, if_true]

/-- **What a search comes to** in the end: either there is no trail to a goal, or it has a way to
one that takes no more than any trail to a goal. -/
def Finishes (g : Graph) (start : Vertex) (isGoal : Vertex → Bool) (s : Exploration) :
    Option Vertex → Prop
  | none => ∀ v a places, g.Trail start (some v) a places → isGoal v ≠ true
  | some v => isGoal v = true ∧ ∃ w places, s.ways.find? v = some w ∧
      s.places start (w.effort.steps + 1) (some v) = some places ∧
        g.Trail start (some v) w.effort places ∧
          ∀ v' a places', g.Trail start (some v') a places' → isGoal v' = true →
            w.effort.le a = true

variable {isGoal : Vertex → Bool}

/-- When the first entry is for a goal, the way to it is a least one. -/
theorem Searching.finishes_some (h : g.Searching start looked s)
    (hfollowed : ∀ p ∈ looked, g.Followed start s p) (hno : ∀ v, some v ∈ looked → isGoal v = false)
    {v : Vertex} {a : Effort} (hfrontier : s.frontier = ⟨a, some v⟩ :: rest)
    (hw : s.ways.find? v = some w) (hfresh : a = w.effort) (hgoal : isGoal v = true) :
    g.Finishes start isGoal { s with frontier := rest } (some v) := by
  obtain ⟨-, hsearching⟩ := h.look hfrontier hw hfresh
  obtain ⟨places, hplaces, htrail⟩ :=
    hsearching.exists_places (p := some v) (w := w) hw rfl
  refine ⟨hgoal, w, places, hw, hplaces, htrail, fun v' b places' htrail' hgoal' => ?_⟩
  rcases h.covers hfollowed htrail' with ⟨hlooked, -⟩ | ⟨f, hf, hle⟩
  · exact absurd hgoal' (by rw [hno v' hlooked]; decide)
  · have hinOrder := h.inOrder
    rw [hfrontier] at hf hinOrder
    rcases List.mem_cons.mp hf with rfl | hf
    · exact hfresh ▸ hle
    · exact hfresh ▸ Effort.le_trans ((List.pairwise_cons.mp hinOrder).1 f hf) hle

/-- **A search that has enough rounds comes to an end**: each round takes an entry off the frontier,
and puts at most as many there as edges lead from the place it looks at. -/
theorem Searching.exists_explore : ∀ {rounds : Nat} {looked : List (Option Vertex)}
    {s : Exploration}, g.Searching start looked s → (∀ p ∈ looked, g.Followed start s p) →
      (∀ v, some v ∈ looked → isGoal v = false) →
        s.frontier.length + 2 * g.size < rounds + sumOf (looked.map (g.degree start)) →
          ∃ t goal, g.explore start isGoal rounds s = some (t, goal) ∧
            g.Finishes start isGoal t goal
  | 0, looked, s, h, _, _, hrounds => by
    have hle : sumOf (looked.map (g.degree start)) ≤ 2 * g.size := sumOf_degree_le h.nodup
    omega
  | rounds + 1, looked, s, h, hfollowed, hno, hrounds => by
    cases hfrontier : s.frontier with
    | nil =>
      refine ⟨s, none, by rw [explore, hfrontier], fun v a places htrail hgoal => ?_⟩
      rcases h.covers hfollowed htrail with ⟨hlooked, -⟩ | ⟨e, he, -⟩
      · exact absurd hgoal (by rw [hno v hlooked]; decide)
      · rw [hfrontier] at he
        exact absurd he List.not_mem_nil
    | cons e rest =>
      rw [hfrontier, List.length_cons] at hrounds
      obtain ⟨w, hw, -⟩ := h.known e (hfrontier ▸ List.mem_cons_self)
      by_cases hfresh : e.effort = w.effort
      · rw [explore_fresh hfrontier hw hfresh]
        split
        · rename_i hgoal
          obtain ⟨v, hv, hgoal⟩ := (Option.any_eq_true _ _).mp hgoal
          obtain ⟨a, _⟩ := e
          obtain rfl : _ = some v := hv
          exact ⟨_, _, rfl, h.finishes_some hfollowed hno hfrontier hw hfresh hgoal⟩
        · rename_i hgoal
          obtain ⟨t, ht, hsearching, hfollowed', hlength⟩ := h.expand hfollowed hfrontier hw hfresh
          rw [ht]
          refine hsearching.exists_explore hfollowed' (fun v hv => ?_) ?_
          · rcases List.mem_cons.mp hv with hv | hv
            · rw [← hv] at hgoal
              exact Bool.eq_false_iff.mpr hgoal
            · exact hno v hv
          · rw [List.map_cons, sumOf, degree]
            omega
      · rw [explore_stale hfrontier hw hfresh]
        refine (h.skip hfrontier hw hfresh).exists_explore hfollowed hno ?_
        dsimp only
        omega

theorem searching_setOut (g : Graph) (start : Vertex) : g.Searching start [] (g.setOut start) := by
  refine ⟨.nil, List.pairwise_singleton _ _, List.nodup_singleton _, fun e he => ?_,
    fun p w hw => ?_, fun p hp => absurd hp List.not_mem_nil,
    fun v w hw => absurd hw (by simp [setOut])⟩
  · obtain rfl := List.mem_singleton.mp he
    exact ⟨_, rfl, Effort.le_refl _⟩
  · cases p with
    | none =>
      obtain rfl := Option.some.inj hw
      exact Or.inr (List.mem_singleton.mpr rfl)
    | some v => exact absurd hw (by simp [setOut, Exploration.way?])

/-- **A search comes to an end.** -/
theorem exists_finishes (g : Graph) (start : Vertex) (isGoal : Vertex → Bool) :
    ∃ s goal, g.explore start isGoal g.enoughRounds (g.setOut start) = some (s, goal) ∧
      g.Finishes start isGoal s goal := by
  refine (g.searching_setOut start).exists_explore (fun p hp => absurd hp List.not_mem_nil)
    (fun v hv => absurd hv List.not_mem_nil) ?_
  rw [setOut, enoughRounds, List.length_singleton]
  omega

/-- **A search finds a least walk to a goal**: none is cheaper, and none as cheap is shorter. If it
finds none, there is no walk to a goal. -/
theorem search_cases (g : Graph) (start : Vertex) (isGoal : Vertex → Bool) :
    (g.search start isGoal = none ∧ ∀ places, ¬ g.Leads start isGoal places) ∨
      ∃ places, g.search start isGoal = some (places, sumOf (places.tail.map g.cost)) ∧
        g.Leads start isGoal places ∧ ∀ others, g.Leads start isGoal others →
          sumOf (places.tail.map g.cost) < sumOf (others.tail.map g.cost) ∨
            sumOf (places.tail.map g.cost) = sumOf (others.tail.map g.cost) ∧
              places.length ≤ others.length := by
  have hmeasure : ∀ {p a places}, g.Trail start p a places →
      sumOf (places.tail.map g.cost) = a.cost ∧ places.length = a.steps + 1 := by
    intro p a places htrail
    obtain ⟨rest, rfl, -, hsteps, hcost⟩ := htrail.exists_rest
    exact ⟨hcost, congrArg (· + 1) hsteps⟩
  obtain ⟨s, goal, hexplore, hfinishes⟩ := g.exists_finishes start isGoal
  rw [search, hexplore, Option.bind_eq_bind, Option.bind_some]
  cases goal with
  | none =>
    refine Or.inl ⟨rfl, fun places hplaces => ?_⟩
    obtain ⟨v, a, htrail, hgoal⟩ := leads_iff.mp hplaces
    exact hfinishes v a places htrail hgoal
  | some v =>
    obtain ⟨hgoal, w, places, hw, hplaces, htrail, hleast⟩ := hfinishes
    refine Or.inr ⟨places, ?_, leads_iff.mpr ⟨v, _, htrail, hgoal⟩, fun others hothers => ?_⟩
    · simp only [Option.bind_eq_bind, Option.bind_some, hw, hplaces, (hmeasure htrail).1]
      rfl
    · obtain ⟨v', a, htrail', hgoal'⟩ := leads_iff.mp hothers
      rw [(hmeasure htrail).1, (hmeasure htrail).2, (hmeasure htrail').1, (hmeasure htrail').2]
      have hle := Effort.le_iff.mp (hleast v' a others htrail' hgoal')
      omega

/-- **Search in the graph of a grammar is optimal.** It comes to an end by itself. It finds nothing
exactly if no walk of at least one edge leads to a goal. Otherwise it finds such a walk, the cost is
the number of messages entered after its start, no other such walk is cheaper, and none of the same
cost has fewer edges. -/
theorem search_least (g : Grammar) (start : Vertex) (isGoal : Vertex → Bool) :
    ((ofGrammar g).explore start isGoal (ofGrammar g).enoughRounds
      ((ofGrammar g).setOut start)).isSome = true ∧
    ((ofGrammar g).search start isGoal = none ↔
      ¬ ∃ places, (ofGrammar g).Leads start isGoal places) ∧
    ∀ places cost, (ofGrammar g).search start isGoal = some (places, cost) →
      (ofGrammar g).Leads start isGoal places ∧ cost = places.tail.countP g.messageAt ∧
        ∀ others, (ofGrammar g).Leads start isGoal others →
          cost ≤ others.tail.countP g.messageAt ∧
            (others.tail.countP g.messageAt = cost → places.length ≤ others.length) := by
  refine ⟨?_, ?_⟩
  · obtain ⟨s, goal, hexplore, -⟩ := (ofGrammar g).exists_finishes start isGoal
    rw [hexplore, Option.isSome_some]
  · rcases (ofGrammar g).search_cases start isGoal with
      ⟨hnone, hgoals⟩ | ⟨found, hfound, hleads, hleast⟩
    · rw [hnone]
      exact ⟨iff_of_true rfl (not_exists.mpr hgoals), fun _ _ h => absurd h (by simp)⟩
    · rw [hfound]
      refine ⟨iff_of_false (by simp) (not_not.mpr ⟨found, hleads⟩), ?_⟩
      rintro _ _ ⟨⟩
      refine ⟨hleads, sumOf_cost_ofGrammar g _, fun others hothers => ?_⟩
      have hothers := hleast others hothers
      rw [sumOf_cost_ofGrammar, sumOf_cost_ofGrammar] at hothers
      rw [sumOf_cost_ofGrammar]
      omega

/-- Coming back to the start is a walk; past a message it costs a turn, and the other way is
longer. -/
example : search
    ⟨[(.node 0, [.node 1, .node 2]), (.node 1, [.node 0]), (.node 2, [.node 3]),
      (.node 3, [.node 0])], [], [1]⟩ (.node 0) (· = .node 0) =
    some ([.node 0, .node 2, .node 3, .node 0], 0) := by decide

/-- **A walk from a place to another**, by what it costs to enter the places after the first. -/
def Walk (g : Graph) (start v : Vertex) (cost : Nat) : Prop :=
  ∃ p a places, g.Trail start p a places ∧ p.getD start = v ∧ a.cost = cost

/-- The walk that stays. -/
theorem Walk.stay : g.Walk start start 0 :=
  ⟨_, _, _, .stay, rfl, rfl⟩

/-- One more edge. -/
theorem Walk.step {v w : Vertex} {cost : Nat} (hv : g.Walk start v cost)
    (hw : w ∈ g.successors v) : g.Walk start w (cost + g.cost w) := by
  obtain ⟨p, a, places, htrail, rfl, rfl⟩ := hv
  exact ⟨_, _, _, htrail.step hw, rfl, rfl⟩

/-- **A search finds a goal that a walk leads to**, at no greater cost. -/
theorem exists_search {v w : Vertex} {cost : Nat} (hv : g.Walk start v cost)
    (hw : w ∈ g.successors v) (hgoal : isGoal w = true) :
    ∃ places least, g.search start isGoal = some (places, least) ∧ least ≤ cost + g.cost w := by
  obtain ⟨p, a, places, htrail, rfl, rfl⟩ := hv
  have hleads := leads_iff.mpr ⟨w, _, htrail.step hw, hgoal⟩
  rcases g.search_cases start isGoal with ⟨-, hnone⟩ | ⟨found, hfound, -, hleast⟩
  · exact absurd hleads (hnone _)
  · obtain ⟨rest, hrest, -, -, hcost⟩ := (htrail.step hw).exists_rest
    have hle := hleast _ hleads
    rw [hrest, List.tail_cons, hcost] at hle
    exact ⟨found, _, hfound, by rw [extend] at hle; dsimp only at hle; omega⟩

end Graph

end GrammarFuzzing
