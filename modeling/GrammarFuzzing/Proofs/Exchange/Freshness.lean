import GrammarFuzzing.Proofs.Exchange.Interleaving

/-!
# No stale answer survives a reset

After a reset that has succeeded, the client gets answers to what it sends from then on, in the
order of sending, and nothing else (`GrammarFuzzing.EndpointSession.delivers_after_reset`). It does
not matter how client and worker take turns, how often the client gave up before, or what the
harness makes of messages.

To tell for which request an answer was produced, messages are sent with the time of the call
(`GrammarFuzzing.EndpointAction.stamp`), and answers come back with the time of their message. A
session does not look into messages and answers, so it goes the same way without times
(`GrammarFuzzing.EndpointSession.run_map_snd`).

A reset that has succeeded leaves both queues empty. From there on the queues hand on what is put
into them, so whatever is taken was produced for a message that was sent later, and its time is
greater.
-/

namespace GrammarFuzzing

variable {μ α : Type}

/-! ### Where answers come from -/

/-- **The action at a time**: a message is sent with the time, and its answers come back with it. -/
def EndpointAction.stamp (time : Nat) : EndpointAction μ α → EndpointAction (Nat × μ) (Nat × α)
  | .send m => .send (time, m)
  | .receive => .receive
  | .reset => .reset
  | .proceed => .proceed
  | .giveUp => .giveUp
  | .work harness => .work fun m => (harness m.2).map (List.map (Prod.mk m.1))

/-- Actions at the times from a time on. -/
def EndpointAction.stampFrom (time : Nat) :
    List (EndpointAction μ α) → List (EndpointAction (Nat × μ) (Nat × α))
  | [] => []
  | a :: rest => a.stamp time :: stampFrom (time + 1) rest

/-! ### Sessions do not look into messages -/

section Map

variable {μ' α' : Type} (f : μ → μ') (g : α → α')

/-- The request with other messages. -/
@[simp] def EndpointRequest.map : EndpointRequest μ → EndpointRequest μ'
  | .deliver m => .deliver (f m)
  | .reset n => .reset n

/-- The reply with other answers. -/
@[simp] def EndpointReply.map : EndpointReply α → EndpointReply α'
  | .answer a => .answer (g a)
  | .resetDone n => .resetDone n

/-- The worker with other messages and answers. -/
@[simp] def EndpointWorker.map : EndpointWorker μ α → EndpointWorker μ' α'
  | .posting left => .posting (left.map (EndpointReply.map g))
  | .handling r => .handling (r.map f)

/-- The endpoint with other messages and answers. -/
@[simp] def EndpointState.map (e : EndpointState μ α) : EndpointState μ' α' where
  requests := e.requests.map (EndpointRequest.map f)
  replies := e.replies.map (EndpointReply.map g)
  worker := e.worker.map f g
  inFlight := e.inFlight
  resets := e.resets

/-- The client with other messages. -/
@[simp] def EndpointClient.map : EndpointClient μ → EndpointClient μ'
  | .idle => .idle
  | .submitting r => .submitting (r.map f)
  | .receiving => .receiving
  | .awaiting n => .awaiting n

/-- **The session with other messages and answers.** -/
@[simp] def EndpointSession.map (s : EndpointSession μ α) : EndpointSession μ' α' :=
  ⟨s.endpoint.map f g, s.client.map f⟩

/-- The event with other messages and answers. -/
@[simp] def EndpointEvent.map : EndpointEvent μ α → EndpointEvent μ' α'
  | .sending m => .sending (f m)
  | .resetting => .resetting
  | .handled m answers => .handled (f m) (answers.map g)
  | .received a => .received (g a)
  | .silence => .silence
  | .dropped a => .dropped (g a)
  | .resetDone => .resetDone
  | .resetAbandoned => .resetAbandoned

end Map

namespace EndpointSession

/-- What the client does when it goes on does not depend on messages and answers. -/
theorem proceed_map {μ' α' : Type} (f : μ → μ') (g : α → α') (s : EndpointSession μ α) :
    (s.map f g).proceed = (s.proceed.1.map (EndpointEvent.map f g), s.proceed.2.map f g) := by
  obtain ⟨⟨requests, replies, worker, inFlight, resets⟩, client⟩ := s
  cases client with
  | idle => rfl
  | submitting r =>
    cases r with
    | deliver m | reset n => simp [proceed]
  | receiving =>
    cases replies with
    | nil => rfl
    | cons r rest =>
      cases r with
      | answer | resetDone => rfl
  | awaiting n =>
    cases replies with
    | nil => rfl
    | cons r rest =>
      cases r with
      | answer => rfl
      | resetDone k =>
        by_cases hk : k = n
        · simp [proceed, hk, take]
        · simp [proceed, hk, take]

/-- **A step without times** is the step with times, whatever they are. -/
theorem step_map_snd (s : EndpointSession (Nat × μ) (Nat × α)) (a : EndpointAction μ α)
    (time : Nat) : (s.map Prod.snd Prod.snd).step a =
      ((s.step (a.stamp time)).1.map (EndpointEvent.map Prod.snd Prod.snd),
        (s.step (a.stamp time)).2.map Prod.snd Prod.snd) := by
  cases a with
  | proceed => exact proceed_map Prod.snd Prod.snd s
  | send m | reset | receive | giveUp =>
    obtain ⟨endpoint, client⟩ := s
    cases client with
    | idle | submitting | receiving | awaiting => rfl
  | work harness =>
    obtain ⟨⟨requests, replies, worker, inFlight, resets⟩, client⟩ := s
    simp only [step, EndpointState.returned?, EndpointState.work, EndpointAction.stamp]
    cases worker with
    | posting left =>
      cases left with
      | nil =>
        cases requests with
        | nil | cons => rfl
      | cons r left => simp
    | handling r =>
      cases r with
      | reset n => rfl
      | deliver m =>
        cases hm : harness m.2 with
        | none => simp [hm]
        | some answers => simp [EndpointState.finish, hm, Function.comp_def]

/-- **A session without times** is the session with times. -/
theorem run_map_snd (s : EndpointSession (Nat × μ) (Nat × α)) (actions : List (EndpointAction μ α))
    (time : Nat) : (s.map Prod.snd Prod.snd).run actions =
      ((s.run (EndpointAction.stampFrom time actions)).1.map
          (Option.map (EndpointEvent.map Prod.snd Prod.snd)),
        (s.run (EndpointAction.stampFrom time actions)).2.map Prod.snd Prod.snd) := by
  induction actions generalizing s time with
  | nil => rfl
  | cons a rest ih =>
    rw [run_cons, step_map_snd s a time, ih _ (time + 1)]
    rfl

end EndpointSession

/-! ### Times of events -/

open EndpointEvent

/-- **An event keeps time**: a message is sent with the time of the event, and answers come back
with the time of their message. -/
def EndpointEvent.Timely (time : Nat) : Option (EndpointEvent (Nat × μ) (Nat × α)) → Prop
  | some (.sending m) => m.1 = time
  | some (.handled m answers) => ∀ a ∈ answers, a.1 = m.1
  | _ => True

/-- **Actions at a time keep time.** -/
theorem EndpointSession.timely_step (s : EndpointSession (Nat × μ) (Nat × α))
    (a : EndpointAction μ α) (time : Nat) : Timely time (s.step (a.stamp time)).1 := by
  cases a with
  | send | receive | reset | giveUp =>
    rw [EndpointAction.stamp, step]
    split <;> trivial
  | proceed =>
    rw [EndpointAction.stamp, step, proceed]
    repeat' split
    all_goals trivial
  | work harness =>
    rw [EndpointAction.stamp, step, EndpointState.returned?]
    split
    · rename_i m _
      cases harness m.2 with
      | none => trivial
      | some answers =>
        intro a ha
        obtain ⟨b, -, rfl⟩ := List.mem_map.mp ha
        rfl
    · trivial

/-- What happens at an index keeps the time of the action there. -/
theorem EndpointSession.timely_run {actions : List (EndpointAction μ α)} {i : Nat}
    {e : Option (EndpointEvent (Nat × μ) (Nat × α))} :
    ∀ {s : EndpointSession (Nat × μ) (Nat × α)} {time : Nat},
      (s.run (EndpointAction.stampFrom time actions)).1[i]? = some e → Timely (time + i) e := by
  induction actions generalizing i with
  | nil => exact fun h => absurd h (by simp [EndpointAction.stampFrom, run])
  | cons a rest ih =>
    intro s time h
    cases i with
    | zero =>
      obtain rfl : (s.step (a.stamp time)).1 = e := by
        simpa [EndpointAction.stampFrom, run] using h
      exact s.timely_step a time
    | succ i =>
      have hrest : ((s.step (a.stamp time)).2.run
          (EndpointAction.stampFrom (time + 1) rest)).1[i]? = some e := by
        simpa [EndpointAction.stampFrom, run] using h
      rw [← Nat.add_assoc, Nat.add_right_comm]
      exact ih hrest

/-! ### What comes back -/

section Events

variable {es : List (Option (EndpointEvent (Nat × μ) (Nat × α)))} {time : Nat}

/-- What the harness returned, it returned for a message. -/
theorem exists_handled_of_mem_returns {a : Nat × α} (h : a ∈ es.flatMap returns) :
    ∃ m answers, some (.handled m answers) ∈ es ∧ a ∈ answers := by
  obtain ⟨_ | e, he, ha⟩ := List.mem_flatMap.mp h
  · exact absurd ha List.not_mem_nil
  · cases e with
    | handled m answers => exact ⟨m, answers, he, ha⟩
    | _ => exact absurd ha List.not_mem_nil

theorem mem_handles {m : Nat × μ} {answers : List (Nat × α)}
    (h : some (.handled m answers) ∈ es) : m ∈ es.flatMap handles :=
  List.mem_flatMap.mpr ⟨_, h, List.mem_singleton.mpr rfl⟩

/-- What the client got is among what it took. -/
theorem receives_sublist_takes (es : List (Option (EndpointEvent μ α))) :
    (es.flatMap receives).Sublist (es.flatMap takes) := by
  induction es with
  | nil => exact .refl _
  | cons e es ih =>
    refine List.Sublist.append ?_ ih
    cases e with
    | none => exact .refl _
    | some e =>
      cases e with
      | dropped => exact List.nil_sublist _
      | _ => exact .refl _

/-- **Messages are sent one after the other.** -/
theorem pairwise_sends (h : ∀ i e, es[i]? = some e → Timely (time + i) e) :
    (es.flatMap sends).Pairwise (fun m n => m.1 < n.1) ∧ ∀ m ∈ es.flatMap sends, time ≤ m.1 := by
  induction es generalizing time with
  | nil => exact ⟨.nil, fun m hm => absurd hm List.not_mem_nil⟩
  | cons e es ih =>
    obtain ⟨hpairwise, hlater⟩ := @ih (time + 1) fun i e he => by
      rw [Nat.add_right_comm, Nat.add_assoc]
      exact h (i + 1) e (by simpa using he)
    have hfirst : ∀ m, e = some (.sending m) → m.1 = time := by
      rintro m rfl
      exact h 0 _ rfl
    rw [List.flatMap_cons]
    by_cases hsending : ∃ m, e = some (.sending m)
    · obtain ⟨m, rfl⟩ := hsending
      have hm := hfirst m rfl
      refine ⟨List.pairwise_cons.mpr ⟨fun n hn => ?_, hpairwise⟩,
        List.forall_mem_cons.mpr ⟨Nat.le_of_eq hm.symm, ?_⟩⟩
      · have := hlater n hn
        omega
      · exact fun n hn => Nat.le_of_succ_le (hlater n hn)
    · have hnil : sends e = [] := by
        rw [sends]
        exact fun m hm => hsending ⟨m, hm⟩
      rw [hnil, List.nil_append]
      exact ⟨hpairwise, fun n hn => Nat.le_of_succ_le (hlater n hn)⟩

/-- **Answers are returned in the order of their messages.** -/
theorem pairwise_returns
    (htimes : ∀ m answers, some (.handled m answers) ∈ es → ∀ a ∈ answers, a.1 = m.1)
    (h : (es.flatMap handles).Pairwise fun m n => m.1 < n.1) :
    (es.flatMap returns).Pairwise fun a b => a.1 ≤ b.1 := by
  induction es with
  | nil => exact .nil
  | cons e es ih =>
    rw [List.flatMap_cons] at h ⊢
    have hrest : ∀ m answers, some (.handled m answers) ∈ es → ∀ a ∈ answers, a.1 = m.1 :=
      fun m answers hmem => htimes m answers (List.mem_cons_of_mem _ hmem)
    have hlater := ih hrest (List.pairwise_append.mp h).2.1
    by_cases hhandled : ∃ m answers, e = some (.handled m answers)
    · obtain ⟨m, answers, rfl⟩ := hhandled
      have hsame := htimes m answers List.mem_cons_self
      refine List.pairwise_append.mpr ⟨?_, hlater, fun a ha b hb => ?_⟩
      · exact List.pairwise_of_forall_mem_list fun a ha b hb =>
          Nat.le_of_eq ((hsame a ha).trans (hsame b hb).symm)
      · obtain ⟨n, others, hn, hb⟩ := exists_handled_of_mem_returns hb
        have hlt := (List.pairwise_append.mp h).2.2 m (List.mem_singleton.mpr rfl) n
          (mem_handles hn)
        rw [hsame a ha, hrest n others hn b hb]
        exact Nat.le_of_lt hlt
    · have hnil : returns e = [] := by
        rw [returns]
        exact fun m answers hm => hhandled ⟨m, answers, hm⟩
      rwa [hnil, List.nil_append]

end Events

/-- **What happens after a reset** that has succeeded at a time, until the last state of a
session. -/
structure EndpointSession.DeliversAfter (time : Nat)
    (later : List (Option (EndpointEvent (Nat × μ) (Nat × α))))
    (last : EndpointSession (Nat × μ) (Nat × α)) : Prop where
  /-- The client gets answers only to messages from after the reset. -/
  fresh : ∀ a ∈ later.flatMap receives, time < a.1
  /-- It gets them in the order of the messages. -/
  ordered : (later.flatMap receives).Pairwise fun a b => a.1 ≤ b.1
  /-- What it gets was returned by the harness, each answer once. -/
  once : (later.flatMap receives).Sublist (later.flatMap returns)
  /-- The harness handles the messages in their order, and the others are still waiting. -/
  handled : later.flatMap sends = later.flatMap handles ++ last.view.messages
  /-- Of what the harness returned, the client has taken what it has not still to take. -/
  kept : later.flatMap returns = later.flatMap takes ++ last.view.answers
  /-- What it takes and does not get, another reset drops. -/
  dropped : ∀ (i : Nat) (a : Nat × α), later[i]? = some (some (.dropped a)) →
    ∃ j < i, later[j]? = some (some .resetting)

/-- **After a reset nothing stale comes back.** -/
theorem EndpointSession.deliversAfter_of_resetDone
    {events : List (Option (EndpointEvent (Nat × μ) (Nat × α)))}
    {last : EndpointSession (Nat × μ) (Nat × α)}
    (hrun : (view ({} : EndpointSession (Nat × μ) (Nat × α))).Run events last.view)
    (htimes : ∀ i e, events[i]? = some e → Timely i e) {time : Nat}
    (hdone : events[time]? = some (some .resetDone)) :
    DeliversAfter time (events.drop (time + 1)) last := by
  obtain ⟨v, w, hbefore, hstep, hafter⟩ := hrun.exists_of_getElem? hdone
  obtain ⟨hrequests, hreplies⟩ := (orderly_new.run hbefore).empty_of_resetDone hstep
  have hidle : w.awaited = none := by
    cases hstep with
    | succeed _ _ hw => rw [hw]
  have hhandled := hafter.messages
  have hkept := hafter.answers
  rw [EndpointView.messages, hrequests, List.filterMap_nil, List.nil_append] at hhandled
  rw [EndpointView.answers, hreplies, List.filterMap_nil, List.nil_append] at hkept
  generalize hlater : events.drop (time + 1) = later at *
  have hlaterTimes : ∀ i e, later[i]? = some e → Timely (time + 1 + i) e := by
    intro i e he
    rw [← hlater, List.getElem?_drop] at he
    exact htimes _ e he
  have hanswers : ∀ m answers, some (.handled m answers) ∈ later → ∀ a ∈ answers, a.1 = m.1 := by
    intro m answers hmem
    obtain ⟨i, hi⟩ := List.mem_iff_getElem?.mp hmem
    exact hlaterTimes i _ hi
  obtain ⟨hincreasing, hfresh⟩ := pairwise_sends hlaterTimes
  have honce : (later.flatMap receives).Sublist (later.flatMap returns) :=
    (receives_sublist_takes later).trans (hkept ▸ List.sublist_append_left _ _)
  rw [hhandled] at hincreasing hfresh
  refine ⟨fun a ha => ?_, ?_, honce, hhandled, hkept, fun i a ha => ?_⟩
  · obtain ⟨m, answers, hm, ha⟩ := exists_handled_of_mem_returns (honce.subset ha)
    rw [hanswers m answers hm a ha]
    exact hfresh m (List.mem_append_left _ (mem_handles hm))
  · exact (pairwise_returns hanswers (List.pairwise_append.mp hincreasing).1).sublist honce
  · exact (hafter.exists_resetting ha).resolve_left (absurd hidle)

/-- **No stale answer survives a reset.** Whatever client and worker do, in whatever order, the
number of requests in flight is not below zero. With the times of calls, which change nothing else,
every message is sent with its time and answered with it; and after a reset that has succeeded, the
client gets the answers to later messages only, in their order, each once, and all of them that no
later reset drops. -/
theorem EndpointSession.delivers_after_reset
    (actions : List (EndpointAction Message EndpointAnswer)) :
    0 ≤ (run {} actions).2.endpoint.inFlight ∧
    ∃ (events : List (Option (EndpointEvent (Nat × Message) (Nat × EndpointAnswer))))
      (last : EndpointSession (Nat × Message) (Nat × EndpointAnswer)),
      run {} (EndpointAction.stampFrom 0 actions) = (events, last) ∧
      run {} actions = (events.map (Option.map (EndpointEvent.map Prod.snd Prod.snd)),
        last.map Prod.snd Prod.snd) ∧
      (∀ (i : Nat) (m : Nat × Message), events[i]? = some (some (.sending m)) → m.1 = i) ∧
      (∀ m answers, some (.handled m answers) ∈ events → ∀ a ∈ answers, a.1 = m.1) ∧
      ∀ time : Nat, events[time]? = some (some .resetDone) →
        DeliversAfter time (events.drop (time + 1)) last := by
  have htimes :
      ∀ i e, (run {} (EndpointAction.stampFrom 0 actions)).1[i]? = some e → Timely i e := by
    intro i e he
    have htimely := timely_run he
    rwa [Nat.zero_add] at htimely
  refine ⟨inFlight_nonneg actions, _, _, rfl, run_map_snd {} actions 0, fun i m hm => ?_,
    fun m answers hm => ?_, fun time hdone => ?_⟩
  · exact htimes i _ hm
  · obtain ⟨i, hi⟩ := List.mem_iff_getElem?.mp hm
    exact htimes i _ hi
  · exact deliversAfter_of_resetDone (run_view {} _) htimes hdone

/-- A reset is abandoned while the harness is at a message. The next one finds the answer and the
old acknowledgement in front of its own. -/
example :
    let work := EndpointAction.work fun m : Nat => some [m + 10]
    let before := [.send 1, .proceed, work, .reset, .proceed, .giveUp]
    let later := [work, work, work, work, work, .reset, .proceed, work, work, work,
      .proceed, .proceed, .proceed]
    let fresh := [.send 2, .proceed, work, work, work, .receive, .proceed]
    (EndpointSession.run {} (before ++ later ++ fresh)).1.reduceOption =
      [.sending 1, .resetting, .resetAbandoned, .handled 1 [11], .resetting, .dropped 11,
        .resetDone, .sending 2, .handled 2 [12], .received 12] := by
  rfl

end GrammarFuzzing
