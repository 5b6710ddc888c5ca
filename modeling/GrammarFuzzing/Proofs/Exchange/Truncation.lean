import GrammarFuzzing.Proofs.Exchange.Report

/-!
# Exchanges that are cut off

A round whose room for messages is used up is cut off. This file says what is known then
(`GrammarFuzzing.ExchangeFuzzer.exchanged_of_truncated`): as many messages were exchanged as there
was room for, and that is the number in the error. Mostly the exchange could not have ended there.
But the loop asks whether an exchange **ends** before it looks at the room, and a complete exchange
that may go on only ends if chance says so. So an exchange may be complete when it is cut off, and
then the last thing that was drawn was that it goes on.

Since the last draw has to be told from earlier ones, the loop is followed along with the source
that it leaves (`GrammarFuzzing.Exchanging.Records`).
-/

namespace GrammarFuzzing

namespace ExchangeFuzzer

open Exchanging

variable {f : ExchangeFuzzer} {σ : Type} {t : Transport σ}

/-- The channel itself has failed with this, if an exchange was cut off. -/
def CutByChannel (t : Transport σ) (error : ExchangeError) : Prop :=
  ∀ n, error = .truncated n → t.FailsWith (.truncated n)

theorem permits_cutByChannel : f.Permits t (CutByChannel t) where
  channel h _ heq := heq ▸ h
  schedule _ _ _ hno := absurd hno (by simp)
  grammar _ _ hno := absurd hno (by simp)
  unexpected _ _ _ hno := absurd hno (by simp)

/-- A computation whose errors are permitted is cut off only if the channel has failed with it. -/
theorem records_of_traces {α : Type} {x : Exchanging σ α}
    {x' : Exchanging (σ × List WireEvent) α} {post : List WireEvent → α → Prop}
    (h : Traces x x' (CutByChannel t) post) : Records x x' fun events r _ =>
      match r with
      | .ok a => post events a
      | .error error => CutByChannel t error :=
  traces_iff_records.mp h

/-- **An exchange is cut off** after a history, with a source left: the number in the error is that
of the messages, which were all predicted, and a complete exchange had something to go on with and
was drawn to go on. -/
structure CutOff (f : ExchangeFuzzer) (history : List (Packet × Tree)) (n : Nat) (left : Source) :
    Prop where
  length : n = history.length
  grown : f.reduction.Grown (history.map (·.1))
  goesOn : f.reduction.isComplete (history.map (·.1)) = true →
    f.reduction.predict (history.map (·.1)) ≠ [] ∧
      ∃ before, (Draw.chance f.settings.continueProbability).run before = (true, left)

/-! ### The end of the room -/

/-- Without room an exchange that is not complete is cut off. -/
theorem converse_zero_of_not_isComplete {history : List (Packet × Tree)}
    (h : f.reduction.isComplete (history.map (·.1)) = false) :
    f.converse t 0 history = throw (.truncated history.length) := by
  rw [converse, ends]
  simp only [h]
  rfl

/-- **Where there is no room left** nothing happens on the channel. -/
theorem records_converse_zero {history : List (Packet × Tree)}
    (hgrown : f.reduction.Grown (history.map (·.1))) :
    Records (f.converse t 0 history) (f.converse t.recorded 0 history) fun events r left =>
      events = [] ∧ ∀ n, r = .error (.truncated n) → f.CutOff history n left := by
  cases hcomplete : f.reduction.isComplete (history.map (·.1)) with
  | false =>
    rw [converse_zero_of_not_isComplete hcomplete, converse_zero_of_not_isComplete hcomplete]
    refine records_throw fun left => ⟨rfl, fun n hn => ?_⟩
    obtain rfl := ExchangeError.truncated.inj (Except.error.inj hn)
    exact ⟨rfl, hgrown, fun hno => absurd (hno.symm.trans hcomplete) (by simp)⟩
  | true =>
    by_cases hnext : f.reduction.predict (history.map (·.1)) = []
    · rw [converse_of_isComplete hcomplete hnext, converse_of_isComplete hcomplete hnext]
      exact records_pure fun left => ⟨rfl, fun n hno => absurd hno (by simp)⟩
    · rw [converse_zero_of_predict hcomplete hnext, converse_zero_of_predict hcomplete hnext]
      -- What is drawn leaves the very source that the round ends with.
      intro s log e source
      rcases hdraw : (Draw.chance f.settings.continueProbability).run source with ⟨b, left⟩
      rw [outcome_bind, outcome_bind, outcome_draw, outcome_draw, hdraw]
      cases b with
      | false =>
        exact ⟨.ok history, s, e, left, [], rfl, by rw [List.append_nil]; rfl, rfl,
          fun n hno => absurd hno (by simp)⟩
      | true =>
        refine ⟨.error (.truncated history.length), s, e, left, [], rfl,
          by rw [List.append_nil]; rfl, rfl, fun n hn => ?_⟩
        obtain rfl := ExchangeError.truncated.inj (Except.error.inj hn)
        exact ⟨rfl, hgrown, fun _ => ⟨hnext, source, hdraw⟩⟩

/-! ### Rounds -/

/-- **An exchange that is cut off used up its room**, with one event for each message. -/
theorem records_converse : ∀ (room : Nat) {history : List (Packet × Tree)},
    f.reduction.Grown (history.map (·.1)) →
      Records (f.converse t room history) (f.converse t.recorded room history)
        fun events r left =>
      ∀ n, r = .error (.truncated n) → t.FailsWith (.truncated n) ∨
        ∃ more, List.Forall₂ f.Exchanges more events ∧ more.length = room ∧
          f.CutOff (history ++ more) n left := by
  intro room
  induction room with
  | zero =>
    intro history hgrown
    refine (records_converse_zero hgrown).mono fun events r left h n hn => ?_
    obtain ⟨rfl, hcut⟩ := h
    exact Or.inr ⟨[], .nil, rfl, by rw [List.append_nil]; exact hcut n hn⟩
  | succ room ih =>
    intro history hgrown
    rw [converse, converse]
    refine (records_of_traces (t := t) (traces_ends _ _)).bind
      (fun events error left h n hn => Or.inl (h n (Except.error.inj hn)))
      fun events b left hb => ?_
    obtain ⟨rfl, -⟩ := hb
    split
    · exact records_pure fun left n hno => absurd hno (by simp)
    · dsimp only
      split
      · exact records_throw fun left n hno => absurd hno (by simp)
      · refine (records_of_traces (traces_exchangeMessage permits_cutByChannel _)).bind
          (fun events error left h n hn => Or.inl (h n (Except.error.inj hn)))
          fun events r left hr => ?_
        obtain ⟨hmem, event, rfl, hexchanges⟩ := hr
        have hgrown' : f.reduction.Grown ((history ++ [r]).map (·.1)) := by
          rw [List.map_append, List.map_singleton]
          exact hgrown.snoc hmem
        refine (ih hgrown').mono fun events r' left h n hn => ?_
        refine (h n hn).imp_right ?_
        rintro ⟨more, hmore, hlength, hcut⟩
        refine ⟨r :: more, .cons hexchanges hmore, congrArg (· + 1) hlength, ?_⟩
        rwa [List.append_cons]

theorem records_round (elapsed : Nat) :
    Records (f.round t elapsed) (f.round t.recorded elapsed) fun events r left =>
      ∀ n, r = .error (.truncated n) → t.FailsWith (.truncated n) ∨
        ∃ history more, events = .reset :: more ∧ List.Forall₂ f.Exchanges history more ∧
          history.length = f.settings.maxMessages ∧ f.CutOff history n left := by
  have hconduct : Records (f.conduct t) (f.conduct t.recorded) fun events r left =>
      ∀ n, r = .error (.truncated n) → t.FailsWith (.truncated n) ∨
        ∃ history more, events = .reset :: more ∧ List.Forall₂ f.Exchanges history more ∧
          history.length = f.settings.maxMessages ∧ f.CutOff history n left := by
    rw [conduct, conduct]
    refine (records_of_traces (traces_reset fun error h n hn => hn ▸ h)).bind
      (fun events error left h n hn => Or.inl (h n (Except.error.inj hn))) fun _ _ _ hreset => ?_
    subst hreset
    refine (records_converse f.settings.maxMessages .nil).bind
      (fun events error left h n hn => ?_) fun events history left _ => ?_
    · refine (h n (congrArg _ (Except.error.inj hn))).imp_right ?_
      rintro ⟨history, hmore, hlength, hcut⟩
      exact ⟨history, events, rfl, hmore, hlength, hcut⟩
    · split
      · exact records_pure fun left n hno => absurd hno (by simp)
      · exact records_throw fun left n hno => absurd hno (by simp)
  rw [round, round]
  refine hconduct.bind (fun events error left h n hn => h n (congrArg _ (Except.error.inj hn)))
    fun events r left _ => records_pure fun left n hno => absurd hno (by simp)

/-- The source that a round leaves. -/
def sourceAfter (f : ExchangeFuzzer) (t : Transport σ) (elapsed : Nat) (s : σ) (e : Evaluator Float)
    (source : Source) : Source :=
  (((f.runRound t elapsed).run (s, e)).run source).2

/-- **Why a round is cut off.** Unless the channel itself has failed with this, exactly as many
messages were exchanged after the reset as there is room for, each for a packet that was predicted,
and that is the number in the error. The exchange was not complete, or there was something to go on
with and chance, which was asked last in the round, said to go on. -/
theorem exchanged_of_truncated (f : ExchangeFuzzer) (t : Transport σ) (elapsed : Nat) (s : σ)
    (e : Evaluator Float) (source : Source) {n : Nat}
    (h : f.result t elapsed s e source = .error (.truncated n)) :
    t.FailsWith (.truncated n) ∨
      ∃ history events, f.record t elapsed s e source = .reset :: events ∧
        List.Forall₂ f.Exchanges history events ∧ f.reduction.Grown (history.map (·.1)) ∧
          n = history.length ∧ n = f.settings.maxMessages ∧
            (f.reduction.isComplete (history.map (·.1)) = false ∨
              f.reduction.predict (history.map (·.1)) ≠ [] ∧
                ∃ before, (Draw.chance f.settings.continueProbability).run before =
                  (true, f.sourceAfter t elapsed s e source)) := by
  obtain ⟨r, s', e', left, events, hrun, hrun', hpost⟩ :=
    records_round (f := f) (t := t) elapsed s [] e source
  rw [result, runRound_run, hrun] at h
  rw [record, sourceAfter, runRound_run, runRound_run, hrun, hrun']
  cases r with
  | ok r => exact absurd h (by simp)
  | error error =>
    obtain rfl := Except.error.inj h
    refine (hpost n rfl).imp_right ?_
    rintro ⟨history, more, rfl, hmore, hlength, hcut⟩
    refine ⟨history, more, rfl, hmore, hcut.grown, hcut.length, hcut.length.trans hlength, ?_⟩
    cases hcomplete : f.reduction.isComplete (history.map (·.1)) with
    | false => exact Or.inl rfl
    | true => exact Or.inr (hcut.goesOn hcomplete)

end ExchangeFuzzer

/-- The client of the chat has room for a question and its answer. After these the chat is complete,
but chance says that it goes on, so it is cut off. -/
theorem Document.truncated_chat : ∃ g f history events, chat.toGrammar = .ok g ∧
    ExchangeFuzzer.of g
      { localParties := ["Client"], maxMessages := 2, continueProbability := 1.0,
        candidatesPerPacket := 1 } {} {} = .ok f ∧
    f.result .answering 0 [] (.ofConstraints []) (.ofWords []) = .error (.truncated 2) ∧
    f.record .answering 0 [] (.ofConstraints []) (.ofWords []) = .reset :: events ∧
    List.Forall₂ f.Exchanges history events ∧ history.map (·.1) = [.question, .answer] ∧
    f.reduction.isComplete (history.map (·.1)) = true ∧
    f.reduction.predict (history.map (·.1)) ≠ [] ∧
    ∃ before, (Draw.chance 1.0).run before =
      (true, f.sourceAfter .answering 0 [] (.ofConstraints []) (.ofWords [])) := by
  obtain ⟨g, f, h, hof, hsettings, hfuzz, hclient, hf⟩ := ExchangeFuzzer.exists_playsChat
    { localParties := ["Client"], maxMessages := 2, continueProbability := 1.0,
      candidatesPerPacket := 1 } rfl
  have hroom : f.settings.maxMessages = 0 + 2 := by rw [hsettings]
  have hchance : ∀ source, ((Draw.chance f.settings.continueProbability).run source).1 = true := by
    rw [hsettings]
    exact fun source => rfl
  have hresult := hf.result_cut_chat (by rw [hsettings]) hfuzz hclient hroom hchance
    (show Transport.answering.reset [] = _ from rfl) rfl (fun ms => rfl) 0 (.ofWords [])
  rcases f.exchanged_of_truncated _ _ _ _ _ hresult with hfails | ⟨history, events, hrecord,
    hexchanges, hgrown, hlength, -, hcut⟩
  · -- A script has other ways to fail.
    obtain hno | ⟨_, hno⟩ | ⟨_, hno⟩ := Script.of_failsWith hfails <;> exact absurd hno (by simp)
  · have hpackets := hf.eq_of_grown_chat hgrown (by rw [List.length_map, hlength])
    rw [hpackets] at hcut
    obtain hno | ⟨-, hbefore⟩ := hcut
    · exact absurd (hno.symm.trans hf.isComplete_chat_answer) (by simp)
    · rw [hsettings] at hbefore
      exact ⟨g, f, history, events, h, hof, hresult, hrecord, hexchanges, hpackets,
        hpackets ▸ hf.isComplete_chat_answer, hpackets ▸ hf.predict_chat_answer, hbefore⟩

end GrammarFuzzing
