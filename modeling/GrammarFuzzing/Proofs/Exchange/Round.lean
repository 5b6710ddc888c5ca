import GrammarFuzzing.Exchange.Script
import GrammarFuzzing.Proofs.Exchange.Trace
import GrammarFuzzing.Proofs.Fuzz.Expansion
import GrammarFuzzing.Proofs.Packet.Prediction

/-!
# What a round does

A round is followed along its computation, on a channel and on the same channel with a record. Two
things are told at once.

* *What it leaves behind when it comes to an end.* Each message is either made up for a packet and
  sent, or received and read as a packet (`GrammarFuzzing.ExchangeFuzzer.Exchanges`), and what is on
  the record is one event for each, in order (`GrammarFuzzing.ExchangeFuzzer.traces_converse`).
* *Why it can fail.* The history of a round has grown by predicted packets only. So where such
  histories can always go on, a round does not get stuck; and choosing uniformly among candidates
  does not fail, because candidates are asked for only when there are some. Errors that the channel
  itself reports are passed on as they are (`GrammarFuzzing.ExchangeFuzzer.Fails`).
-/

namespace GrammarFuzzing

/-- Nothing can be said next: an exchange is stuck, or a choice among packets fails. -/
def ExchangeError.IsDeadEnd : ExchangeError → Prop
  | .stuck _ | .schedule _ => True
  | _ => False

/-- Histories that grow by predicted packets are complete or go on. -/
def Reduction.GoesOn (r : Reduction) : Prop :=
  ∀ history, r.Grown history → r.isComplete history = true ∨ r.predict history ≠ []

/-- A uniform choice among some candidates gives the index of one. -/
theorem gives_uniformIndex {count : Nat} (hcount : 0 < count) :
    Draw.Gives (uniformIndex count) fun r => ∃ i < count, r = .ok i := by
  rw [uniformIndex, Draw.index?, if_neg hcount.ne']
  exact ((Draw.gives_below hcount).bind fun i hi => Draw.gives_pure (P := fun o => ∃ i < count,
    o = some i) ⟨i, hi, rfl⟩).bind fun o ho => by
      obtain ⟨i, hi, rfl⟩ := ho
      exact Draw.gives_pure ⟨i, hi, rfl⟩

namespace ExchangeFuzzer

open Exchanging

variable {f : ExchangeFuzzer} {σ : Type} {t : Transport σ}

/-- **A new fuzzer for a grammar** has its reduction, and the coverage of nothing. -/
theorem eq_of_of {g : Grammar} {settings : ExchangeSettings} {coverage : CoverageSettings}
    {fuzzSettings : FuzzSettings} (h : of g settings coverage fuzzSettings = .ok f) :
    ∃ r, g.reduce = .ok r ∧ f = {
      grammar := g
      settings := settings
      fuzzSettings := fuzzSettings
      localParties := f.localParties
      navigator := .of r
      coverage := .grammar (.of g coverage.goal f.localParties)
      log := { interval := coverage.logIntervalMs } } := by
  rw [of] at h
  dsimp only at h
  split at h
  · exact absurd h (by simp)
  · split at h
    · exact absurd h (by simp)
    · rename_i r hr
      obtain rfl := Except.ok.inj h
      exact ⟨r, hr, rfl⟩

/-- A new fuzzer has the grammar and the settings that it is for, and chooses uniformly. -/
theorem reduction_of {g : Grammar} {settings : ExchangeSettings} {coverage : CoverageSettings}
    {fuzzSettings : FuzzSettings} (h : of g settings coverage fuzzSettings = .ok f) :
    g.reduce = .ok f.reduction ∧ f.grammar = g ∧ f.settings = settings ∧
      f.fuzzSettings = fuzzSettings ∧ f.scheduler = .uniform := by
  obtain ⟨r, hr, hf⟩ := eq_of_of h
  rw [hf]
  exact ⟨hr, rfl, rfl, rfl, rfl⟩

/-- A new fuzzer has learnt nothing yet. -/
theorem learnt_of {g : Grammar} {settings : ExchangeSettings} {coverage : CoverageSettings}
    {fuzzSettings : FuzzSettings} (h : of g settings coverage fuzzSettings = .ok f) :
    f.rounds = 0 ∧ f.observed = [] ∧
      f.coverage = .grammar (.of g coverage.goal f.localParties) := by
  obtain ⟨r, -, hf⟩ := eq_of_of h
  rw [hf]
  exact ⟨rfl, rfl, rfl⟩

/-- There is a new fuzzer for a grammar with a reduction, if its parties are known. -/
theorem exists_of {g : Grammar} {r : Reduction} (hreduce : g.reduce = .ok r)
    (settings : ExchangeSettings) (hparties : ∀ p ∈ settings.localParties, p ∈ g.parties true)
    (hlocal : settings.localParties ≠ []) (coverage : CoverageSettings)
    (fuzzSettings : FuzzSettings) : ∃ f, of g settings coverage fuzzSettings = .ok f ∧
      f.localParties = SortedSet.ofList settings.localParties := by
  have hknown : settings.localParties.find? (fun p => !(g.parties true).contains p) = none := by
    simpa using hparties
  have hsome : settings.localParties.isEmpty = false := by simpa using hlocal
  rw [of]
  simp only [hknown, hreduce, hsome]
  exact ⟨_, rfl, rfl⟩

/-- **The permitted ways to fail.** A dead end is one only where the scheduler is not the uniform
one, where histories need not go on, or where the channel itself reports it. -/
def Fails (f : ExchangeFuzzer) (t : Transport σ) (error : ExchangeError) : Prop :=
  f.scheduler = .uniform → f.reduction.GoesOn → error.IsDeadEnd → t.FailsWith error

theorem fails_of_failsWith {error : ExchangeError} (h : t.FailsWith error) : f.Fails t error :=
  fun _ _ _ => h

theorem fails_of_not_isDeadEnd {error : ExchangeError} (h : ¬error.IsDeadEnd) : f.Fails t error :=
  fun _ _ hno => absurd hno h

/-- **All ways in which one message can fail**: the channel fails, a scheduler other than the
uniform one does, or the message cannot be made up or read. -/
structure Permits (f : ExchangeFuzzer) (t : Transport σ) (fails : ExchangeError → Prop) : Prop where
  channel : ∀ {error}, t.FailsWith error → fails error
  schedule : f.scheduler ≠ .uniform → ∀ e, fails (.schedule e)
  grammar : ∀ e, fails (.grammar e)
  unexpected : ∀ sender payload, fails (.unexpectedMessage sender payload)

theorem permits_fails : f.Permits t (f.Fails t) where
  channel := fails_of_failsWith
  schedule hno _ huniform := absurd huniform hno
  grammar _ := fails_of_not_isDeadEnd fun hno => hno
  unexpected _ _ := fails_of_not_isDeadEnd fun hno => hno

variable {fails : ExchangeError → Prop}

/-! ### Picking a packet -/

/-- What a fold that keeps the best of a list ends with is what it began with or one of the list. -/
theorem mem_of_foldl_best {α β : Type} {step : Option β → α → Option β} (value : α → β)
    (hstep : ∀ best a, step best a = some (value a) ∨ step best a = best) :
    ∀ (as : List α) {best : Option β} {b : β}, as.foldl step best = some b →
      b ∈ as.map value ∨ best = some b
  | [], _, _, h => Or.inr h
  | a :: as, best, b, h => by
    rcases mem_of_foldl_best value hstep as h with hmem | hbest
    · exact Or.inl (List.mem_cons_of_mem _ hmem)
    · rcases hstep best a with ha | ha <;> rw [ha] at hbest
      · exact Or.inl (List.mem_cons.mpr (Or.inl (Option.some.inj hbest).symm))
      · exact Or.inr hbest

theorem mem_of_cheapest? {costs : List (Nat × Packet)} {p : Packet} (h : cheapest? costs = some p) :
    p ∈ costs.map (·.2) := by
  obtain ⟨c, hc, rfl⟩ := Option.map_eq_some_iff.mp h
  refine List.mem_map_of_mem ?_
  have hmem := mem_of_foldl_best id (fun best c => ?_) costs hc
  · simpa using hmem
  · cases best with
    | none => exact Or.inl rfl
    | some b =>
      dsimp only
      split
      · exact Or.inl rfl
      · exact Or.inr rfl

/-- What is picked on the way to a type of message is a candidate. -/
theorem mem_of_towards? {candidates : List Packet} {target : String} {p : Packet}
    (h : f.towards? candidates target = some p) : p ∈ candidates := by
  rcases Option.or_eq_some_iff.mp h with hfind | ⟨-, hclosest⟩
  · exact List.mem_of_find?_eq_some hfind
  · obtain ⟨⟨cost, q⟩, hmem, rfl⟩ := List.mem_map.mp (mem_of_cheapest? hclosest)
    obtain ⟨q', hq', hcost⟩ := List.mem_filterMap.mp hmem
    obtain ⟨_, -, heq⟩ := Option.map_eq_some_iff.mp hcost
    rwa [← (Prod.mk.inj heq).2]

/-- **What is picked is a candidate**, and with the uniform scheduler picking one of some candidates
does not fail. -/
theorem traces_pick (hfails : f.Permits t fails) {candidates : List Packet}
    (hcandidates : candidates ≠ []) :
    Traces (σ := σ) (f.pick candidates) (f.pick candidates) fails fun events p =>
      events = [] ∧ p ∈ candidates := by
  have hnext : Draw.Gives (f.scheduler.next (candidates.map (·.name))) fun r =>
      f.scheduler = .uniform → ∃ i < candidates.length, r = .ok i := by
    cases f.scheduler with
    | power schedule => exact fun _ => nofun
    | uniform =>
      rw [Scheduler.next, List.length_map]
      exact (gives_uniformIndex (List.length_pos_iff.mpr hcandidates)).mono fun _ h _ => h
  rw [pick, pick]
  refine (traces_draw (Draw.gives_true f.target?)).bind_silent fun target _ => ?_
  split
  · rename_i p hp
    obtain ⟨target, -, htowards⟩ := Option.bind_eq_some_iff.mp hp
    exact traces_pure ⟨rfl, mem_of_towards? htowards⟩
  · refine (traces_attempt hnext fun e he => ?_).bind_silent fun i hi => ?_
    · refine hfails.schedule (fun huniform => ?_) e
      obtain ⟨i, -, hno⟩ := he huniform
      exact absurd hno (by simp)
    · split
      · rename_i p hp
        exact traces_pure ⟨rfl, List.mem_of_getElem? hp⟩
      · rename_i hnone
        refine traces_throw (hfails.schedule (fun huniform => ?_) _)
        obtain ⟨j, hj, heq⟩ := hi huniform
        obtain rfl := Except.ok.inj heq
        exact absurd (List.getElem?_eq_none_iff.mp hnone) (Nat.not_le_of_lt hj)

/-! ### Making up a message -/

/-- A fuzzer can make up a tree for a symbol: from some source of random words it does. -/
def Makes (f : ExchangeFuzzer) (name : String) (u : Tree) : Prop :=
  ∃ source, (((Fuzzer.mk f.grammar f.fuzzSettings).fuzzSymbol name
    f.fuzzSettings.maxNodes).run.run source).1 = .ok u

theorem gives_candidates (name : String) : ∀ count : Nat,
    Attempt.Gives (f.candidates name count) (fun _ => True) fun us => ∀ u ∈ us, f.Makes name u
  | 0 => Attempt.gives_pure fun _ hu => absurd hu List.not_mem_nil
  | count + 1 => by
    have hmakes : Attempt.Gives ((Fuzzer.mk f.grammar f.fuzzSettings).fuzzSymbol name
        f.fuzzSettings.maxNodes) (fun _ => True) (f.Makes name) := by
      intro source
      split
      · rename_i u hu
        exact ⟨source, hu⟩
      · trivial
    rw [candidates]
    refine hmakes.bind fun u hu => (gives_candidates name count).bind fun us hus => ?_
    exact Attempt.gives_pure (List.forall_mem_cons.mpr ⟨hu, hus⟩)

theorem mem_of_fittest? {us : List Tree} {scores : List (Evaluation Float)} {u : Tree}
    (h : fittest? us scores = some u) : u ∈ us := by
  obtain ⟨c, hc, rfl⟩ := Option.map_eq_some_iff.mp h
  have hmem := mem_of_foldl_best (fun p => (p.1, p.2.fitness)) (fun best p => ?_) (us.zip scores) hc
  · obtain ⟨⟨u, score⟩, hpair, rfl⟩ := List.mem_map.mp (hmem.resolve_right (by simp))
    exact (List.of_mem_zip hpair).1
  · cases best with
    | none => exact Or.inl rfl
    | some b =>
      dsimp only
      split
      · exact Or.inl rfl
      · exact Or.inr rfl

/-- **What is sent for a packet was made up for its symbol.** -/
theorem traces_synthesize (hfails : f.Permits t fails) (p : Packet) :
    Traces (σ := σ) (f.synthesize p) (f.synthesize p) fails fun events u =>
      events = [] ∧ f.Makes p.name u := by
  rw [synthesize, synthesize]
  refine Traces.bind_silent (traces_attempt (gives_candidates p.name _) fun e _ =>
    hfails.grammar e) fun us hus => ?_
  refine (traces_evaluate us).bind_silent fun scores _ => ?_
  split
  · rename_i u hu
    exact traces_pure ⟨rfl, hus u (mem_of_fittest? hu)⟩
  · exact traces_throw (hfails.grammar _)

/-! ### One message -/

theorem of_readAs? {g : Grammar} {m : Message} {p : Packet} {u : Tree} :
    ∀ {expected : List Packet}, readAs? g m expected = some (p, u) →
      p ∈ expected ∧ agrees m p = true ∧ g.parse m.payload p.name .complete = .ok u
  | [], h => absurd h (by simp [readAs?])
  | q :: expected, h => by
    rw [readAs?] at h
    split at h
    · obtain ⟨hmem, hread⟩ := of_readAs? h
      exact ⟨List.mem_cons_of_mem q hmem, hread⟩
    · rename_i hagrees
      split at h
      · rename_i u' hparse
        obtain ⟨rfl, rfl⟩ := Prod.mk.inj (Option.some.inj h)
        exact ⟨List.mem_cons_self, by simpa using hagrees, hparse⟩
      · obtain ⟨hmem, hread⟩ := of_readAs? h
        exact ⟨List.mem_cons_of_mem q hmem, hread⟩

/-- **A message of an exchange and its event**: the tree of a packet was made up and sent, or it was
read from what was received, which is between the parties of the packet. -/
inductive Exchanges (f : ExchangeFuzzer) : Packet × Tree → WireEvent → Prop
  | sent {p : Packet} {u : Tree} : f.Makes p.name u → f.Exchanges (p, u) (.sent (messageOf p u))
  | received {p : Packet} {u : Tree} {m : Message} : agrees m p = true →
    f.grammar.parse m.payload p.name .complete = .ok u → f.Exchanges (p, u) (.received m)

/-- **One message is exchanged for one of the packets that may come next**, with one event. -/
theorem traces_exchangeMessage (hfails : f.Permits t fails) (next : List Packet) :
    Traces (f.exchangeMessage t next) (f.exchangeMessage t.recorded next) fails
      fun events r => r.1 ∈ next ∧ ∃ event, events = [event] ∧ f.Exchanges r event := by
  rw [exchangeMessage, exchangeMessage]
  split
  · refine (traces_receive fun _ => hfails.channel).bind fun events m hevents => ?_
    split
    · rename_i r hread
      rw [interpret] at hread
      split at hread
      · rename_i r' hr'
        obtain rfl := Except.ok.inj hread
        obtain ⟨hmem, hagrees, hparse⟩ := of_readAs? hr'
        refine traces_pure ⟨hmem, _, ?_, .received hagrees hparse⟩
        rw [List.append_nil]
        exact hevents
      · exact absurd hread (by simp)
    · rename_i e hread
      rw [interpret] at hread
      split at hread
      · exact absurd hread (by simp)
      · obtain rfl := Except.error.inj hread
        exact traces_throw (hfails.unexpected _ _)
  · rename_i hsendable
    refine (traces_pick hfails (by simpa using hsendable)).bind_silent fun p hp => ?_
    refine (traces_synthesize hfails p).bind_silent fun u hu => ?_
    refine (traces_send fun _ => hfails.channel).bind fun events _ hevents => ?_
    exact traces_pure ⟨List.mem_of_mem_filter hp, _, by rw [List.append_nil]; exact hevents,
      .sent hu⟩

/-! ### Whole exchanges -/

/-- An exchange ends only where it is complete, and always where it is complete and nothing may come
next. -/
theorem traces_ends (packets next : List Packet) :
    Traces (σ := σ) (f.ends packets next) (f.ends packets next) fails fun events b =>
      events = [] ∧ (b = true → f.reduction.isComplete packets = true) ∧
        (b = false → next = [] → f.reduction.isComplete packets = false) := by
  rw [ends, ends]
  split
  · rename_i hcomplete
    have hcomplete : f.reduction.isComplete packets = false := by simpa using hcomplete
    exact traces_pure ⟨rfl, fun hno => absurd hno (by simp), fun _ _ => hcomplete⟩
  · rename_i hcomplete
    have hcomplete : f.reduction.isComplete packets = true := by simpa using hcomplete
    split
    · exact traces_pure ⟨rfl, fun _ => hcomplete, fun hno => absurd hno (by simp)⟩
    · rename_i hnext
      refine (traces_draw (Draw.gives_true _)).bind_silent fun b _ => traces_pure ⟨rfl, ?_, ?_⟩
      · exact fun _ => hcomplete
      · exact fun _ hno => absurd hno (by simpa using hnext)

/-- **The rest of an exchange** continues its history by one message for each event, until it is
complete. -/
theorem traces_converse : ∀ (room : Nat) (history : List (Packet × Tree)),
    f.reduction.Grown (history.map (·.1)) →
      Traces (f.converse t room history) (f.converse t.recorded room history) (f.Fails t)
        fun events full => ∃ more, full = history ++ more ∧ List.Forall₂ f.Exchanges more events ∧
          f.reduction.isComplete (full.map (·.1)) = true := by
  intro room
  induction room with
  | zero =>
    intro history hgrown
    rw [converse, converse]
    refine (traces_ends _ _).bind_silent fun b hb => ?_
    split
    · rename_i htrue
      exact traces_pure ⟨[], (List.append_nil _).symm, .nil, hb.1 htrue⟩
    · exact traces_throw (fails_of_not_isDeadEnd fun hno => hno)
  | succ room ih =>
    intro history hgrown
    rw [converse, converse]
    refine (traces_ends _ _).bind_silent fun b hb => ?_
    split
    · rename_i htrue
      exact traces_pure ⟨[], (List.append_nil _).symm, .nil, hb.1 htrue⟩
    · rename_i hfalse
      dsimp only
      split
      · rename_i hempty
        have hempty : f.reduction.predict (history.map (·.1)) = [] := by simpa using hempty
        refine traces_throw fun _ hgoesOn _ => ?_
        rcases hgoesOn _ hgrown with hcomplete | hnext
        · rw [hb.2 (by simpa using hfalse) hempty] at hcomplete
          exact absurd hcomplete Bool.false_ne_true
        · exact absurd hempty hnext
      · refine (traces_exchangeMessage permits_fails _).bind fun events r hr => ?_
        obtain ⟨hmem, event, rfl, hexchanges⟩ := hr
        have hgrown' : f.reduction.Grown ((history ++ [r]).map (·.1)) := by
          rw [List.map_append, List.map_singleton]
          exact hgrown.snoc hmem
        refine (ih _ hgrown').mono fun events full hfull => ?_
        obtain ⟨more, rfl, hmore, hcomplete⟩ := hfull
        exact ⟨r :: more, List.append_cons .. |>.symm, .cons hexchanges hmore, hcomplete⟩

/-- **An exchange begins afresh and has one more event for each message.** Its tree is put together
from the trees of a complete history. -/
theorem traces_conduct :
    Traces (f.conduct t) (f.conduct t.recorded) (f.Fails t) fun events r =>
      ∃ history more, r.1 = history.map (·.1) ∧ events = .reset :: more ∧
        List.Forall₂ f.Exchanges history more ∧ f.reduction.isComplete r.1 = true ∧
          f.reduction.assemble history = .ok r.2 := by
  rw [conduct, conduct]
  refine (traces_reset fun _ => fails_of_failsWith).bind fun _ _ hreset => ?_
  subst hreset
  refine (traces_converse _ [] .nil).bind fun events history hhistory => ?_
  obtain ⟨more, rfl, hmore, hcomplete⟩ := hhistory
  split
  · rename_i tree hassemble
    refine traces_pure ⟨history, events, rfl, ?_, hmore, hcomplete, hassemble⟩
    rw [List.append_nil]
    rfl
  · exact traces_throw (fails_of_not_isDeadEnd fun hno => hno)

/-! ### Rounds -/

/-- What a round comes to on a channel, from a state of the channel, an evaluator and a source. -/
def result (f : ExchangeFuzzer) (t : Transport σ) (elapsed : Nat) (s : σ) (e : Evaluator Float)
    (source : Source) : Except ExchangeError Tree :=
  (((f.runRound t elapsed).run (s, e)).run source).1.1.1

/-- What happens on the channel in a round. -/
def record (f : ExchangeFuzzer) (t : Transport σ) (elapsed : Nat) (s : σ) (e : Evaluator Float)
    (source : Source) : List WireEvent :=
  (((f.runRound t.recorded elapsed).run ((s, []), e)).run source).1.2.1.2

theorem traces_round (elapsed : Nat) :
    Traces (f.round t elapsed) (f.round t.recorded elapsed) (f.Fails t) fun events r =>
      ∃ history more, events = .reset :: more ∧ List.Forall₂ f.Exchanges history more ∧
        f.reduction.isComplete (history.map (·.1)) = true ∧
          f.reduction.assemble history = .ok r.1 ∧
            r.2 = f.learn elapsed (history.map (·.1)) r.1 := by
  rw [round, round]
  refine traces_conduct.bind fun events r hr => ?_
  obtain ⟨history, more, hpackets, hevents, hmore, hcomplete, hassemble⟩ := hr
  refine traces_pure ⟨history, more, ?_, hmore, hpackets ▸ hcomplete, hassemble, ?_⟩
  · rw [List.append_nil]
    exact hevents
  · rw [hpackets]

theorem runRound_run (t : Transport σ) (elapsed : Nat) (s : σ) (e : Evaluator Float)
    (source : Source) : ((f.runRound t elapsed).run (s, e)).run source =
      match outcome (f.round t elapsed) s e source with
      | ((.ok (tree, f'), state), source) => (((.ok tree, f'), state), source)
      | ((.error error, state), source) => (((.error error, f), state), source) := by
  have hbind : ∀ {α β : Type} (a : Id α) (f : α → Id β), (a >>= f) = f a := fun _ _ => rfl
  rw [runRound, StateT.run_bind, StateT.run_bind, hbind]
  unfold outcome
  obtain ⟨⟨r, state⟩, source'⟩ := ((f.round t elapsed).run.run (s, e)).run source
  cases r <;> rfl

/-- **A round on a channel and on the recorded channel come to the same.** A round that comes to a
tree has put it together from a complete history, and its record begins with a reset and has one
event for each message; a round that fails has met one of the permitted errors. -/
theorem result_record (t : Transport σ) (elapsed : Nat) (s : σ) (e : Evaluator Float)
    (source : Source) :
    f.result t.recorded elapsed (s, []) e source = f.result t elapsed s e source ∧
      match f.result t elapsed s e source with
      | .ok tree => ∃ history events, f.record t elapsed s e source = .reset :: events ∧
          List.Forall₂ f.Exchanges history events ∧
            f.reduction.isComplete (history.map (·.1)) = true ∧
              f.reduction.assemble history = .ok tree
      | .error error => f.Fails t error := by
  obtain ⟨r, s', e', source', events, hrun, hrun', hpost⟩ :=
    traces_round (f := f) (t := t) elapsed s [] e source
  rw [result, result, record, runRound_run, runRound_run, hrun, hrun']
  cases r with
  | error error => exact ⟨rfl, hpost⟩
  | ok r =>
    obtain ⟨history, more, rfl, hmore, hcomplete, hassemble, -⟩ := hpost
    exact ⟨rfl, history, more, rfl, hmore, hcomplete, hassemble⟩

end ExchangeFuzzer

/-! ### Exact predictions and rounds that do not get stuck -/

/-- **Predictions are exact, and rounds do not get stuck.** The packets predicted after a history
are those with which some complete exchange goes on, in increasing order. So a history that has
grown from the empty one by predicted packets is complete or goes on, and a round of a fuzzer that
chooses uniformly never ends in a dead end, whatever the channel does and the source holds: a dead
end is reported only if an operation of the channel itself failed with it. -/
theorem Reduction.predict_exact {d : Draft} (hd : d.Coherent) {g : Grammar} (h : d.build = .ok g)
    (hbare : g.BareNames) (hmarks : Unmarked g) {r : Reduction} (hr : g.reduce = .ok r) :
    (∀ history, (r.predict history).Pairwise (fun p q => compare p q = .lt) ∧
      ∀ p, p ∈ r.predict history ↔ ∃ rest, r.isComplete (history ++ [p] ++ rest) = true) ∧
    (∀ history, r.Grown history → r.isComplete history = true ∨ r.predict history ≠ []) ∧
    ∀ f : ExchangeFuzzer, f.reduction = r → f.scheduler = .uniform →
      ∀ (σ : Type) (t : Transport σ) (elapsed : Nat) (s : σ) (e : Evaluator Float)
        (source : Source) (error : ExchangeError),
        f.result t elapsed s e source = .error error → error.IsDeadEnd → t.FailsWith error := by
  have hg := hd.wellFormed h
  have hproductive := (Draft.builds_of_build h).isProductive
  have hsorted := sorted_packets hr
  have hnodup := SortedSet.nodup_of_sorted hsorted
  obtain ⟨found, hreduces⟩ := exists_reduces hd h hbare hmarks hr
  have hgoesOn : r.GoesOn := fun history hgrown =>
    hreduces.isComplete_or_predict_ne_nil hg hproductive hnodup hgrown
  refine ⟨fun history => ⟨sorted_predict hsorted history, fun p => ?_⟩, hgoesOn, ?_⟩
  · rw [hreduces.mem_predict hg hproductive hnodup]
    exact exists_congr fun rest => by rw [List.append_cons history p rest]
  · rintro f rfl huniform σ t elapsed s e source error hresult hdead
    have hrecord := (f.result_record t elapsed s e source).2
    rw [hresult] at hrecord
    exact hrecord huniform hgoesOn hdead

/-- **The ways in which a scripted channel fails.** -/
theorem Script.of_failsWith {script : Script} {greeting : List Message} {resetFails : Bool}
    {error : ExchangeError} (h : (script.transport greeting resetFails).FailsWith error) :
    error = .disconnected ∨ (∃ reason, error = .endpoint reason) ∨ ∃ ms, error = .timeout ms := by
  cases h with
  | @reset queue _ h =>
    cases resetFails
    · exact absurd h (by simp [transport])
    · exact Or.inl (Except.error.inj h).symm
  | @send m queue _ h =>
    dsimp only [transport] at h
    split at h
    · exact absurd h (by simp)
    · exact Or.inr (Or.inl ⟨_, (Except.error.inj h).symm⟩)
    all_goals exact Or.inl (Except.error.inj h).symm
  | @receive ms queue _ h =>
    cases queue with
    | nil => exact Or.inr (Or.inr ⟨ms, (Except.error.inj h).symm⟩)
    | cons m queue => exact absurd h (by simp [transport])

theorem Script.not_isDeadEnd {script : Script} {greeting : List Message} {resetFails : Bool}
    {error : ExchangeError} (h : (script.transport greeting resetFails).FailsWith error) :
    ¬error.IsDeadEnd := by
  obtain rfl | ⟨reason, rfl⟩ | ⟨ms, rfl⟩ := of_failsWith h <;> exact id

/-- A new fuzzer that plays the client of the handshake gets into no dead end with any script, and
its greeting is predicted exactly if it begins a complete exchange. -/
theorem Document.predict_handshake : ∃ g f, handshake.toGrammar = .ok g ∧
    ExchangeFuzzer.of g { localParties := ["Client"] } {} {} = .ok f ∧
    (⟨some "Client", some "Server", "greeting"⟩ ∈ f.reduction.predict [] ↔
      ∃ rest, f.reduction.isComplete (⟨some "Client", some "Server", "greeting"⟩ :: rest) = true) ∧
    (f.reduction.isComplete [] = true ∨ f.reduction.predict [] ≠ []) ∧
    ∀ (script : Script) (greeting : List Message) (source : Source) (error : ExchangeError),
      f.result (script.transport greeting false) 0 [] (.ofConstraints []) source = .error error →
        ¬error.IsDeadEnd := by
  have h : handshake.toGrammar = .ok _ := rfl
  obtain ⟨r, hr⟩ := exists_reduce_handshake
  obtain ⟨f, hof, -⟩ := ExchangeFuzzer.exists_of hr { localParties := ["Client"] }
    (by decide) (by decide) {} {}
  obtain ⟨hreduce, -, -, -, huniform⟩ := ExchangeFuzzer.reduction_of hof
  obtain ⟨hpredict, hgrown, hround⟩ := Reduction.predict_exact handshake.coherent_toDraft h
    (by decide : ∀ name ∈ ["greeting", "session"], bareName name = name)
    (by decide : ∀ name ∈ ["greeting", "session"],
      ¬ Reduction.packetMark.toList <+: name.toList ∧
        ¬ Reduction.literalMark.toList <+: name.toList)
    hreduce
  refine ⟨_, f, h, hof, (hpredict []).2 _, hgrown [] .nil, ?_⟩
  intro script greeting source error herror hdead
  exact Script.not_isDeadEnd (hround f rfl huniform _ _ _ _ _ _ _ herror hdead) hdead

end GrammarFuzzing
