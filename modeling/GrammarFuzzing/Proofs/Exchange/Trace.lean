import GrammarFuzzing.Exchange.Round
import GrammarFuzzing.Proofs.Random.Draw

/-!
# Traces of an exchange

What an exchange does on its channel is told by running it on the channel that keeps a record.
`GrammarFuzzing.Exchanging.Traces` relates a computation on a channel with the same computation on
the recorded channel: from equal states and the same source of random words both come to the same
result and equal states, and the second has added events to its record. One predicate tells which
events go with which value, another which errors there can be.

It is proved along a computation, with one rule for each way to make one and
`GrammarFuzzing.Exchanging.Traces.bind` for a step before the rest, which splits the events where
the step ends. The rules come from those for `GrammarFuzzing.Exchanging.Records`, which tells the
events of a computation that fails too, and the source that is left.
-/

namespace GrammarFuzzing

/-- **The errors with which a channel fails itself.** -/
inductive Transport.FailsWith {σ : Type} (t : Transport σ) : ExchangeError → Prop
  | reset {s : σ} {error : ExchangeError} : (t.reset s).1 = .error error → t.FailsWith error
  | send {m : Message} {s : σ} {error : ExchangeError} :
    (t.send m s).1 = .error error → t.FailsWith error
  | receive {ms : Nat} {s : σ} {error : ExchangeError} :
    (t.receive ms s).1 = .error error → t.FailsWith error

namespace Exchanging

variable {σ α β : Type}

/-- The result of a computation, and the state and the source that it leaves. -/
def outcome (x : Exchanging σ α) (s : σ) (e : Evaluator Float) (source : Source) :
    (Except ExchangeError α × σ × Evaluator Float) × Source :=
  (x.run.run (s, e)).run source

/-- The rest of a computation runs where its first step left off. -/
theorem outcome_bind (x : Exchanging σ α) (next : α → Exchanging σ β) (s : σ) (e : Evaluator Float)
    (source : Source) : outcome (x >>= next) s e source =
      match outcome x s e source with
      | ((.ok a, s, e), source) => outcome (next a) s e source
      | ((.error error, s, e), source) => ((.error error, s, e), source) := by
  have hbind : ∀ {α β : Type} (a : Id α) (f : α → Id β), (a >>= f) = f a := fun _ _ => rfl
  unfold outcome
  rw [ExceptT.run_bind, StateT.run_bind, StateT.run_bind, hbind]
  obtain ⟨⟨r, s', e'⟩, source'⟩ := (x.run.run (s, e)).run source
  cases r <;> rfl

theorem outcome_draw (d : Draw α) (s : σ) (e : Evaluator Float) (source : Source) :
    outcome (draw d) s e source = ((.ok (d.run source).1, s, e), (d.run source).2) :=
  rfl

theorem outcome_call (f : σ → Except ExchangeError α × σ) (s : σ) (e : Evaluator Float)
    (source : Source) : outcome (call f) s e source = (((f s).1, (f s).2, e), source) :=
  rfl

variable {x : Exchanging σ α} {x' : Exchanging (σ × List WireEvent) α}

/-! ### Events, results and sources -/

/-- **A computation and the same computation on the recorded channel**, told of the events, the
result, whether it is a value or an error, and the source that is left. -/
def Records (x : Exchanging σ α) (x' : Exchanging (σ × List WireEvent) α)
    (post : List WireEvent → Except ExchangeError α → Source → Prop) : Prop :=
  ∀ s log e source, ∃ r s' e' left events,
    outcome x s e source = ((r, s', e'), left) ∧
    outcome x' (s, log) e source = ((r, (s', log ++ events), e'), left) ∧
    post events r left

section Records

variable {post post' : List WireEvent → Except ExchangeError α → Source → Prop}

theorem Records.mono (h : Records x x' post)
    (hpost : ∀ events r left, post events r left → post' events r left) : Records x x' post' := by
  intro s log e source
  obtain ⟨r, s', e', left, events, hx, hx', hr⟩ := h s log e source
  exact ⟨r, s', e', left, events, hx, hx', hpost events r left hr⟩

theorem records_pure {a : α} (h : ∀ left, post [] (.ok a) left) :
    Records (pure a : Exchanging σ α) (pure a) post := fun s log e source =>
  ⟨.ok a, s, e, source, [], rfl, by rw [List.append_nil]; rfl, h source⟩

theorem records_throw {error : ExchangeError} (h : ∀ left, post [] (.error error) left) :
    Records (throw error : Exchanging σ α) (throw error) post := fun s log e source =>
  ⟨.error error, s, e, source, [], rfl, by rw [List.append_nil]; rfl, h source⟩

/-- A random choice does nothing on the channel. -/
theorem records_draw {d : Draw α}
    (h : ∀ source, post [] (.ok (d.run source).1) (d.run source).2) :
    Records (draw (σ := σ) d) (draw d) post := fun s log e source =>
  ⟨.ok (d.run source).1, s, e, (d.run source).2, [], rfl, by rw [List.append_nil]; rfl, h source⟩

/-- **One step before the rest.** The events of the step come before those of the rest; if the step
fails, the rest does nothing. -/
theorem Records.bind {next : α → Exchanging σ β} {next' : α → Exchanging (σ × List WireEvent) β}
    {post' : List WireEvent → Except ExchangeError β → Source → Prop} (h : Records x x' post)
    (hfails : ∀ events error left, post events (.error error) left →
      post' events (.error error) left)
    (hnext : ∀ events a left, post events (.ok a) left →
      Records (next a) (next' a) fun more r left => post' (events ++ more) r left) :
    Records (x >>= next) (x' >>= next') post' := by
  intro s log e source
  obtain ⟨r, s₁, e₁, source₁, events, hx, hx', hpost⟩ := h s log e source
  rw [outcome_bind, outcome_bind, hx, hx']
  cases r with
  | error error => exact ⟨.error error, s₁, e₁, source₁, events, rfl, rfl, hfails _ _ _ hpost⟩
  | ok a =>
    obtain ⟨r, s₂, e₂, left, more, hrest, hrest', hpost'⟩ :=
      hnext events a source₁ hpost s₁ (log ++ events) e₁ source₁
    exact ⟨r, s₂, e₂, left, events ++ more, hrest, by rw [← List.append_assoc]; exact hrest',
      hpost'⟩

end Records

/-! ### Values and permitted errors -/

/-- **A computation and the same computation on the recorded channel**: they agree. If they come to
a value, the events that are added to the record go with it, and otherwise they fail in one of the
permitted ways. -/
def Traces (x : Exchanging σ α) (x' : Exchanging (σ × List WireEvent) α)
    (fails : ExchangeError → Prop) (post : List WireEvent → α → Prop) : Prop :=
  ∀ s log e source, ∃ r s' e' source' events,
    outcome x s e source = ((r, s', e'), source') ∧
    outcome x' (s, log) e source = ((r, (s', log ++ events), e'), source') ∧
    match r with
    | .ok a => post events a
    | .error error => fails error

variable {fails : ExchangeError → Prop} {post : List WireEvent → α → Prop}

/-- What is told of events and values only, or of errors only. -/
theorem traces_iff_records : Traces x x' fails post ↔ Records x x' fun events r _ =>
    match r with
    | .ok a => post events a
    | .error error => fails error :=
  Iff.rfl

theorem traces_pure {a : α} (h : post [] a) :
    Traces (pure a : Exchanging σ α) (pure a) fails post :=
  traces_iff_records.mpr (records_pure fun _ => h)

theorem traces_throw {error : ExchangeError} (h : fails error) :
    Traces (throw error : Exchanging σ α) (throw error) fails post :=
  traces_iff_records.mpr (records_throw fun _ => h)

/-- **One step before the rest.** The events of the step come before those of the rest. -/
theorem Traces.bind {next : α → Exchanging σ β} {next' : α → Exchanging (σ × List WireEvent) β}
    {post' : List WireEvent → β → Prop} (h : Traces x x' fails post)
    (hnext : ∀ events a, post events a →
      Traces (next a) (next' a) fails fun more b => post' (events ++ more) b) :
    Traces (x >>= next) (x' >>= next') fails post' :=
  traces_iff_records.mpr ((traces_iff_records.mp h).bind (fun _ _ _ hfails => hfails)
    fun events a _ ha => traces_iff_records.mp (hnext events a ha))

/-- A step that does nothing on the channel, before the rest. -/
theorem Traces.bind_silent {P : α → Prop} {next : α → Exchanging σ β}
    {next' : α → Exchanging (σ × List WireEvent) β} {post' : List WireEvent → β → Prop}
    (h : Traces x x' fails fun events a => events = [] ∧ P a)
    (hnext : ∀ a, P a → Traces (next a) (next' a) fails post') :
    Traces (x >>= next) (x' >>= next') fails post' := by
  refine h.bind fun events a ha => ?_
  obtain ⟨rfl, ha⟩ := ha
  exact hnext a ha

theorem Traces.mono {post' : List WireEvent → α → Prop} (h : Traces x x' fails post)
    (hpost : ∀ events a, post events a → post' events a) : Traces x x' fails post' := by
  refine traces_iff_records.mpr ((traces_iff_records.mp h).mono fun events r _ hr => ?_)
  cases r with
  | ok a => exact hpost events a hr
  | error error => exact hr

/-- A random choice does nothing on the channel. -/
theorem traces_draw {d : Draw α} {P : α → Prop} (hd : Draw.Gives d P) :
    Traces (Exchanging.draw (σ := σ) d) (Exchanging.draw d) fails fun events a =>
      events = [] ∧ P a :=
  traces_iff_records.mpr (records_draw fun source => ⟨rfl, hd source⟩)

/-- A random choice that may fail does nothing on the channel. -/
theorem traces_attempt {ε : Type} {onError : ε → ExchangeError} {d : Draw (Except ε α)}
    {P : Except ε α → Prop} (hd : Draw.Gives d P)
    (herror : ∀ e, P (.error e) → fails (onError e)) :
    Traces (attempt (σ := σ) onError d) (attempt onError d) fails fun events a =>
      events = [] ∧ P (.ok a) := by
  refine (traces_draw hd).bind_silent fun a ha => ?_
  cases a with
  | ok a => exact traces_pure ⟨rfl, ha⟩
  | error e => exact traces_throw (herror e ha)

/-- Scoring trees does nothing on the channel. -/
theorem traces_evaluate (ts : List Tree) :
    Traces (Exchanging.evaluate (σ := σ) ts) (Exchanging.evaluate ts) fails fun events _ =>
      events = [] ∧ True :=
  fun s log e source => ⟨.ok (e.evaluateAll ts).1, s, (e.evaluateAll ts).2, source, [], rfl,
    by rw [List.append_nil]; rfl, rfl, trivial⟩

/-! ### Operations of the channel -/

/-- Waiting for a message. -/
theorem traces_receive {t : Transport σ} {ms : Nat}
    (herror : ∀ error, t.FailsWith error → fails error) :
    Traces (call (t.receive ms)) (call (t.recorded.receive ms)) fails fun events m =>
      events = [.received m] := by
  intro s log e source
  rw [outcome_call, outcome_call]
  rcases hreceive : t.receive ms s with ⟨error | m, s'⟩
  · refine ⟨.error error, s', e, source, [], rfl, ?_, herror error ?_⟩
    · rw [List.append_nil]
      simp only [Transport.recorded, hreceive]
    · exact .receive (congrArg Prod.fst hreceive)
  · refine ⟨.ok m, s', e, source, [.received m], rfl, ?_, rfl⟩
    simp only [Transport.recorded, hreceive]

/-- Sending a message. -/
theorem traces_send {t : Transport σ} {m : Message}
    (herror : ∀ error, t.FailsWith error → fails error) :
    Traces (call (t.send m)) (call (t.recorded.send m)) fails fun events _ =>
      events = [.sent m] := by
  intro s log e source
  refine ⟨(t.send m s).1, (t.send m s).2, e, source, [.sent m], rfl, rfl, ?_⟩
  split
  · rfl
  · rename_i error hsend
    exact herror error (.send hsend)

/-- Starting afresh. -/
theorem traces_reset {t : Transport σ} (herror : ∀ error, t.FailsWith error → fails error) :
    Traces (call t.reset) (call t.recorded.reset) fails fun events _ => events = [.reset] := by
  intro s log e source
  refine ⟨(t.reset s).1, (t.reset s).2, e, source, [.reset], rfl, rfl, ?_⟩
  split
  · rfl
  · rename_i error hreset
    exact herror error (.reset hreset)

end Exchanging

end GrammarFuzzing
