import GrammarFuzzing.Exchange.Endpoint
import Mathlib.Data.List.Basic

/-!
# What client and worker do to their queues

Client and worker of an endpoint take their steps in any order. Seen from outside, a session is two
queues (`GrammarFuzzing.EndpointSession.view`): the requests that are not handled, from the one the
worker is about to the one the client is adding, and the replies that the client has not taken, up
to the ones the worker still has to add. Every step of client or worker adds a request at the end of
the first queue, replaces the first request by its replies at the end of the second, or takes the
first reply, if it does anything to them (`GrammarFuzzing.EndpointSession.step_view`). All that
follows is proved of these queues.

* **What goes in comes out, in order**: what is taken and what is left is what was there and what
  was produced, and so for requests (`GrammarFuzzing.EndpointView.Run.messages`,
  `GrammarFuzzing.EndpointView.Run.answers`).
* **A reset that succeeds leaves both queues empty**
  (`GrammarFuzzing.EndpointView.Orderly.empty_of_resetDone`). The invariant is on the numbers of
  resets: through both queues they increase, and the reset that the client is in the course of is
  the last thing in them, as a request or as its acknowledgement. Acknowledgements of resets that
  were abandoned have smaller numbers, so none of them is taken for it, and once it has been found
  there is nothing after it.
* The number of requests in flight is the length of the first queue.

The channel to an endpoint is a case of this: each of its calls is a session, and one can follow the
other (`GrammarFuzzing.Endpoint.exists_run_transport`).
-/

namespace GrammarFuzzing

variable {μ α : Type}

/-! ### What happens in a session -/

namespace EndpointEvent

/-- The message that is sent at an event. -/
def sends : Option (EndpointEvent μ α) → List μ
  | some (.sending m) => [m]
  | _ => []

/-- The message that has been handled. -/
def handles : Option (EndpointEvent μ α) → List μ
  | some (.handled m _) => [m]
  | _ => []

/-- The answers that the harness has returned. -/
def returns : Option (EndpointEvent μ α) → List α
  | some (.handled _ answers) => answers
  | _ => []

/-- The answer that the client has got. -/
def receives : Option (EndpointEvent μ α) → List α
  | some (.received a) => [a]
  | _ => []

/-- The answer that the client has taken, whether it got or dropped it. -/
def takes : Option (EndpointEvent μ α) → List α
  | some (.received a) | some (.dropped a) => [a]
  | _ => []

end EndpointEvent

/-- The message to be delivered. -/
@[simp] def EndpointRequest.message? : EndpointRequest μ → Option μ
  | .deliver m => some m
  | .reset _ => none

/-- The number of a reset. -/
@[simp] def EndpointRequest.number? : EndpointRequest μ → Option Nat
  | .deliver _ => none
  | .reset n => some n

/-- The answer of a reply. -/
@[simp] def EndpointReply.answer? : EndpointReply α → Option α
  | .answer a => some a
  | .resetDone _ => none

/-- The number of the reset that is acknowledged. -/
@[simp] def EndpointReply.number? : EndpointReply α → Option Nat
  | .answer _ => none
  | .resetDone n => some n

/-! ### Two queues -/

/-- **A session from outside**: requests that are not handled, replies that are not taken, and the
number of the reset that the client is in the course of. -/
structure EndpointView (μ α : Type) where
  requests : List (EndpointRequest μ)
  replies : List (EndpointReply α)
  inFlight : Int
  resets : Nat
  awaited : Option Nat

namespace EndpointView

open EndpointEvent

/-- The messages that are not handled. -/
def messages (v : EndpointView μ α) : List μ :=
  v.requests.filterMap EndpointRequest.message?

/-- The answers that are not taken. -/
def answers (v : EndpointView μ α) : List α :=
  v.replies.filterMap EndpointReply.answer?

/-- The numbers of resets in the queues, those of acknowledgements first. -/
def numbers (v : EndpointView μ α) : List Nat :=
  v.replies.filterMap EndpointReply.number? ++ v.requests.filterMap EndpointRequest.number?

/-- **What a step does to the queues.** -/
inductive Step : EndpointView μ α → Option (EndpointEvent μ α) → EndpointView μ α → Prop where
  /-- Nothing happens to the queues. -/
  | rest {v w : EndpointView μ α} (hw : w = v) : Step v none w
  | silence {v w : EndpointView μ α} (hw : w = v) : Step v (some .silence) w
  /-- The client gives up waiting for an acknowledgement. -/
  | abandon {v w : EndpointView μ α} (hw : w = { v with awaited := none }) :
      Step v (some .resetAbandoned) w
  /-- The client sends a message. -/
  | send {v w : EndpointView μ α} {m : μ} (hv : v.awaited = none)
      (hw : w = { v with requests := v.requests ++ [.deliver m], inFlight := v.inFlight + 1 }) :
      Step v (some (.sending m)) w
  /-- The client asks for a reset. -/
  | reset {v w : EndpointView μ α}
      (hw : w = { v with
        requests := v.requests ++ [.reset (v.resets + 1)], inFlight := v.inFlight + 1,
        resets := v.resets + 1, awaited := some (v.resets + 1) }) :
      Step v (some .resetting) w
  /-- A message is handled. -/
  | handle {v w : EndpointView μ α} {m : μ} {rest : List (EndpointRequest μ)} {answers : List α}
      (hv : v.requests = .deliver m :: rest)
      (hw : w = { v with
        requests := rest, replies := v.replies ++ answers.map .answer,
        inFlight := v.inFlight - 1 }) :
      Step v (some (.handled m answers)) w
  /-- A reset is acknowledged. -/
  | acknowledge {v w : EndpointView μ α} {n : Nat} {rest : List (EndpointRequest μ)}
      (hv : v.requests = .reset n :: rest)
      (hw : w = { v with
        requests := rest, replies := v.replies ++ [.resetDone n],
        inFlight := v.inFlight - 1 }) : Step v none w
  /-- The client gets an answer. -/
  | receive {v w : EndpointView μ α} {a : α} {rest : List (EndpointReply α)}
      (hv : v.replies = .answer a :: rest) (hw : w = { v with replies := rest }) :
      Step v (some (.received a)) w
  /-- The client skips the acknowledgement of another reset. -/
  | skip {v w : EndpointView μ α} {n : Nat} {rest : List (EndpointReply α)}
      (hv : v.replies = .resetDone n :: rest) (hn : v.awaited ≠ some n)
      (hw : w = { v with replies := rest }) : Step v none w
  /-- A reset drops an answer. -/
  | drop {v w : EndpointView μ α} {a : α} {rest : List (EndpointReply α)}
      (hv : v.replies = .answer a :: rest) (hawaited : v.awaited ≠ none)
      (hw : w = { v with replies := rest }) : Step v (some (.dropped a)) w
  /-- A reset finds its acknowledgement. -/
  | succeed {v w : EndpointView μ α} {n : Nat} {rest : List (EndpointReply α)}
      (hv : v.replies = .resetDone n :: rest) (hn : v.awaited = some n)
      (hw : w = { v with replies := rest, awaited := none }) : Step v (some .resetDone) w

variable {v w : EndpointView μ α} {e : Option (EndpointEvent μ α)}

/-- **No message is lost on the way to the worker**, and none overtakes another. -/
theorem Step.messages (h : v.Step e w) : v.messages ++ sends e = handles e ++ w.messages := by
  cases h with
  | rest hw | silence hw | abandon hw => simp [hw, sends, handles, EndpointView.messages]
  | send _ hw | reset hw =>
    simp [hw, sends, handles, EndpointView.messages, EndpointRequest.message?]
  | handle hv hw | acknowledge hv hw =>
    simp [hv, hw, sends, handles, EndpointView.messages, EndpointRequest.message?,
      List.filterMap_cons]
  | receive hv hw | skip hv _ hw | drop hv _ hw | succeed hv _ hw =>
    simp [hw, sends, handles, EndpointView.messages]

/-- **No answer is lost on the way to the client**, and none overtakes another. -/
theorem Step.answers (h : v.Step e w) : v.answers ++ returns e = takes e ++ w.answers := by
  cases h with
  | rest hw | silence hw | abandon hw | send _ hw | reset hw =>
    simp [hw, returns, takes, EndpointView.answers]
  | handle hv hw | acknowledge hv hw =>
    simp [hw, returns, takes, EndpointView.answers, EndpointReply.answer?, List.filterMap_map,
      Function.comp_def]
  | receive hv hw | skip hv _ hw | drop hv _ hw | succeed hv _ hw =>
    simp [hv, hw, returns, takes, EndpointView.answers, EndpointReply.answer?, List.filterMap_cons]

/-! ### Resets -/

/-- **The invariant of a session**: the numbers of resets increase through the queues, the reset
that the client is in the course of is the last thing in them, and the requests are counted. -/
structure Orderly (v : EndpointView μ α) : Prop where
  increasing : v.numbers.Pairwise (· < ·)
  bounded : ∀ n ∈ v.numbers, n ≤ v.resets
  last : ∀ n, v.awaited = some n → (∃ front, v.requests = front ++ [.reset n]) ∨
    v.requests = [] ∧ ∃ front, v.replies = front ++ [.resetDone n]
  counted : v.inFlight = v.requests.length

/-- **Numbers go through the queues in their order**: some leave at the front, and a new one is
greater than those before it. -/
theorem Step.numbers_cases (h : v.Step e w) :
    (w.numbers.Sublist v.numbers ∧ w.resets = v.resets) ∨
      (w.numbers = v.numbers ++ [v.resets + 1] ∧ w.resets = v.resets + 1) := by
  cases h with
  | rest hw | silence hw | abandon hw =>
    subst hw
    exact Or.inl ⟨.refl _, rfl⟩
  | send _ hw =>
    subst hw
    exact Or.inl ⟨by simp [numbers, EndpointRequest.number?], rfl⟩
  | reset hw =>
    subst hw
    exact Or.inr ⟨by simp [numbers, EndpointRequest.number?], rfl⟩
  | handle hv hw | acknowledge hv hw =>
    subst hw
    refine Or.inl ⟨?_, rfl⟩
    simp [numbers, hv, EndpointRequest.number?, EndpointReply.number?, List.filterMap_cons,
      List.filterMap_map, Function.comp_def]
  | receive hv hw | skip hv _ hw | drop hv _ hw | succeed hv _ hw =>
    subst hw
    refine Or.inl ⟨?_, rfl⟩
    simp [numbers, hv, EndpointReply.number?, List.filterMap_cons]

/-- What is left of a queue with a last element once another one has been taken. -/
theorem exists_front_of_cons {β : Type} {x y : β} {rest front : List β}
    (h : x :: rest = front ++ [y]) (hne : x ≠ y) : ∃ front, rest = front ++ [y] := by
  cases front with
  | nil => exact absurd (List.cons.inj h).1 hne
  | cons z front => exact ⟨front, (List.cons.inj h).2⟩

/-- **The number in the course stays the last thing in the queues.** -/
theorem Orderly.last_step (hv : v.Orderly) (h : v.Step e w) {n : Nat} (hn : w.awaited = some n) :
    (∃ front, w.requests = front ++ [.reset n]) ∨
      w.requests = [] ∧ ∃ front, w.replies = front ++ [.resetDone n] := by
  cases h with
  | rest hw | silence hw =>
    subst hw
    exact hv.last n hn
  | abandon hw | succeed _ _ hw =>
    rw [hw] at hn
    exact absurd hn nofun
  | send hawaited hw =>
    rw [hw] at hn
    exact absurd (hawaited.symm.trans hn) nofun
  | reset hw =>
    subst hw
    exact Or.inl ⟨v.requests, by rw [← Option.some.inj hn]⟩
  | handle hrequests hw =>
    subst hw
    -- The request that is handled is not the reset.
    rcases hv.last n hn with ⟨front, hfront⟩ | ⟨hnil, -⟩
    · exact Or.inl (exists_front_of_cons (hrequests.symm.trans hfront) nofun)
    · exact absurd (hrequests.symm.trans hnil) nofun
  | acknowledge hrequests hw =>
    subst hw
    rcases hv.last n hn with ⟨front, hfront⟩ | ⟨hnil, -⟩
    · rw [hrequests] at hfront
      cases front with
      | nil =>
        obtain ⟨hreset, rfl⟩ := List.cons.inj hfront
        obtain rfl := EndpointRequest.reset.inj hreset
        exact Or.inr ⟨rfl, v.replies, rfl⟩
      | cons _ front => exact Or.inl ⟨front, (List.cons.inj hfront).2⟩
    · exact absurd (hrequests.symm.trans hnil) nofun
  | receive hreplies hw | drop hreplies _ hw =>
    subst hw
    refine (hv.last n hn).imp_right fun ⟨hnil, front, hfront⟩ => ⟨hnil, ?_⟩
    exact exists_front_of_cons (hreplies.symm.trans hfront) nofun
  | skip hreplies hother hw =>
    subst hw
    refine (hv.last n hn).imp_right fun ⟨hnil, front, hfront⟩ => ⟨hnil, ?_⟩
    refine exists_front_of_cons (hreplies.symm.trans hfront) fun h => hother ?_
    rw [EndpointReply.resetDone.inj h]
    exact hn

/-- **A step keeps the invariant.** -/
theorem Orderly.step (hv : v.Orderly) (h : v.Step e w) : w.Orderly := by
  have hnumbers : w.numbers.Pairwise (· < ·) ∧ ∀ n ∈ w.numbers, n ≤ w.resets := by
    rcases h.numbers_cases with ⟨hsub, hresets⟩ | ⟨hnumbers, hresets⟩
    · exact ⟨hv.increasing.sublist hsub, fun n hn => hresets ▸ hv.bounded n (hsub.subset hn)⟩
    · rw [hnumbers, hresets]
      refine ⟨List.pairwise_append.mpr ⟨hv.increasing, List.pairwise_singleton _ _, ?_⟩, ?_⟩
      · intro n hn m hm
        rw [List.mem_singleton.mp hm]
        exact Nat.lt_succ_of_le (hv.bounded n hn)
      · intro n hn
        rcases List.mem_append.mp hn with hn | hn
        · exact Nat.le_succ_of_le (hv.bounded n hn)
        · exact Nat.le_of_eq (List.mem_singleton.mp hn)
  refine ⟨hnumbers.1, hnumbers.2, fun n => hv.last_step h, ?_⟩
  have hcounted := hv.counted
  cases h with
  | rest hw | silence hw | abandon hw | receive _ hw | skip _ _ hw | drop _ _ hw
  | succeed _ _ hw => rwa [hw]
  | send _ hw | reset hw => simp [hw, hcounted]
  | handle hrequests hw | acknowledge hrequests hw =>
    rw [hrequests, List.length_cons] at hcounted
    rw [hw]
    dsimp only
    omega

/-- **A reset that succeeds leaves nothing in the queues.** -/
theorem Orderly.empty_of_resetDone (hv : v.Orderly) (h : v.Step (some .resetDone) w) :
    w.requests = [] ∧ w.replies = [] := by
  cases h with
  | succeed hreplies hn hw =>
    rename_i n rest
    subst hw
    -- The number is the first of all, and so no other is the same.
    have hnumbers : v.numbers = n :: (rest.filterMap EndpointReply.number? ++
        v.requests.filterMap EndpointRequest.number?) := by
      simp [numbers, hreplies, EndpointReply.number?]
    have hincreasing := hv.increasing
    rw [hnumbers] at hincreasing
    have hfirst := (List.pairwise_cons.mp hincreasing).1
    rcases hv.last n hn with ⟨front, hfront⟩ | ⟨hnil, front, hfront⟩
    · refine absurd (hfirst n (List.mem_append_right _ ?_)) (Nat.lt_irrefl n)
      exact List.mem_filterMap.mpr ⟨.reset n, by simp [hfront], rfl⟩
    · refine ⟨hnil, ?_⟩
      rw [hreplies] at hfront
      cases front with
      | nil => exact (List.cons.inj hfront).2
      | cons _ front =>
        refine absurd (hfirst n (List.mem_append_left _ ?_)) (Nat.lt_irrefl n)
        exact List.mem_filterMap.mpr ⟨.resetDone n, by simp [(List.cons.inj hfront).2], rfl⟩

/-! ### Runs -/

/-- **Steps one after the other**, with what happened at each of them. -/
inductive Run : EndpointView μ α → List (Option (EndpointEvent μ α)) → EndpointView μ α → Prop where
  | nil {v : EndpointView μ α} : Run v [] v
  | cons {v w x : EndpointView μ α} {e : Option (EndpointEvent μ α)}
      {es : List (Option (EndpointEvent μ α))} (h : v.Step e w) (hrest : Run w es x) :
      Run v (e :: es) x

variable {es : List (Option (EndpointEvent μ α))}

theorem Orderly.run (hv : v.Orderly) (h : v.Run es w) : w.Orderly := by
  induction h with
  | nil => exact hv
  | cons h _ ih => exact ih (hv.step h)

/-- **What is sent is handled in its order**, or not handled yet. -/
theorem Run.messages (h : v.Run es w) :
    v.messages ++ es.flatMap sends = es.flatMap handles ++ w.messages := by
  induction h with
  | nil => simp
  | cons h _ ih =>
    rw [List.flatMap_cons, List.flatMap_cons, ← List.append_assoc, h.messages, List.append_assoc,
      ih, List.append_assoc]

/-- **What the harness returns is taken in its order**, or not taken yet. -/
theorem Run.answers (h : v.Run es w) :
    v.answers ++ es.flatMap returns = es.flatMap takes ++ w.answers := by
  induction h with
  | nil => simp
  | cons h _ ih =>
    rw [List.flatMap_cons, List.flatMap_cons, ← List.append_assoc, h.answers, List.append_assoc, ih,
      List.append_assoc]

/-- A run that leads to an event leads through the step at which it happens. -/
theorem Run.exists_of_getElem? (h : v.Run es w) {i : Nat} (he : es[i]? = some e) :
    ∃ x y, v.Run (es.take i) x ∧ x.Step e y ∧ y.Run (es.drop (i + 1)) w := by
  induction h generalizing i with
  | nil => exact absurd he (by simp)
  | @cons v x w e' es hstep hrest ih =>
    cases i with
    | zero =>
      obtain rfl : e' = e := by simpa using he
      exact ⟨v, x, .nil, hstep, hrest⟩
    | succ i =>
      obtain ⟨y, z, hy, hz, hrest⟩ := ih (by simpa using he)
      exact ⟨y, z, .cons hstep hy, hz, hrest⟩

/-- **Only resets drop answers**: in a run that starts outside of a reset, one was called before. -/
theorem Run.exists_resetting (h : v.Run es w) {i : Nat} {a : α}
    (he : es[i]? = some (some (.dropped a))) :
    v.awaited ≠ none ∨ ∃ j < i, es[j]? = some (some .resetting) := by
  induction h generalizing i with
  | nil => exact absurd he (by simp)
  | @cons v x w e es hstep hrest ih =>
    cases i with
    | zero =>
      obtain rfl : e = some (.dropped a) := by simpa using he
      cases hstep with
      | drop _ hawaited _ => exact Or.inl hawaited
    | succ i =>
      rcases ih (by simpa using he) with hawaited | ⟨j, hj, hresetting⟩
      · have hcalled : v.awaited ≠ none ∨ e = some .resetting := by
          cases hstep with
          | reset hw => exact Or.inr rfl
          | abandon hw | succeed _ _ hw => exact absurd (by rw [hw]) hawaited
          | rest hw | silence hw | send _ hw | handle _ hw | acknowledge _ hw | receive _ hw
          | skip _ _ hw | drop _ _ hw =>
            rw [hw] at hawaited
            exact Or.inl hawaited
        refine hcalled.imp_right ?_
        rintro rfl
        exact ⟨0, Nat.succ_pos i, rfl⟩
      · exact Or.inr ⟨j + 1, Nat.succ_lt_succ hj, by simpa using hresetting⟩

end EndpointView

/-! ### Sessions from outside -/

/-- The request that the worker has taken. -/
@[simp] def EndpointWorker.taken : EndpointWorker μ α → List (EndpointRequest μ)
  | .handling r => [r]
  | .posting _ => []

/-- The replies that the worker has to add. -/
@[simp] def EndpointWorker.unposted : EndpointWorker μ α → List (EndpointReply α)
  | .handling _ => []
  | .posting left => left

/-- The request that the client is adding. -/
@[simp] def EndpointClient.adding : EndpointClient μ → List (EndpointRequest μ)
  | .submitting r => [r]
  | _ => []

/-- The number of the reset that the client is in the course of. -/
@[simp] def EndpointClient.awaited? : EndpointClient μ → Option Nat
  | .submitting r => r.number?
  | .awaiting n => some n
  | _ => none

namespace EndpointSession

/-- **The two queues of a session.** -/
def view (s : EndpointSession μ α) : EndpointView μ α where
  requests := s.endpoint.worker.taken ++ (s.endpoint.requests ++ s.client.adding)
  replies := s.endpoint.replies ++ s.endpoint.worker.unposted
  inFlight := s.endpoint.inFlight
  resets := s.endpoint.resets
  awaited := s.client.awaited?

/-- What the client does when it goes on is a step of the queues. -/
theorem proceed_view (s : EndpointSession μ α) : s.view.Step s.proceed.1 s.proceed.2.view := by
  obtain ⟨⟨requests, replies, worker, inFlight, resets⟩, client⟩ := s
  cases client with
  | idle => exact .rest rfl
  | submitting r =>
    -- The request goes from the client to the end of the queue.
    cases r with
    | deliver m | reset n => exact .rest (by simp [proceed, view])
  | receiving =>
    cases replies with
    | nil => exact .rest rfl
    | cons r rest =>
      cases r with
      | answer a => exact .receive rfl rfl
      | resetDone n => exact .skip rfl nofun rfl
  | awaiting n =>
    cases replies with
    | nil => exact .rest rfl
    | cons r rest =>
      cases r with
      | answer a => exact .drop rfl nofun rfl
      | resetDone k =>
        rw [proceed]
        dsimp only
        split
        · exact .succeed rfl (congrArg some ‹k = n›.symm) rfl
        · exact .skip rfl (fun h => ‹k ≠ n› (Option.some.inj h).symm) rfl

/-- What the worker does is a step of the queues. -/
theorem work_view (harness : μ → Option (List α)) (e : EndpointState μ α)
    (client : EndpointClient μ) : (view ⟨e, client⟩).Step
      ((e.returned? harness).map fun r => .handled r.1 r.2) (view ⟨e.work harness, client⟩) := by
  obtain ⟨requests, replies, worker, inFlight, resets⟩ := e
  cases worker with
  | posting left =>
    cases left with
    | nil =>
      cases requests with
      | nil => exact .rest rfl
      | cons r rest => exact .rest rfl
    | cons r left => exact .rest (by simp [view, EndpointState.work])
  | handling r =>
    cases r with
    | reset n => exact .acknowledge rfl (by simp [view, EndpointState.work, EndpointState.finish])
    | deliver m =>
      simp only [EndpointState.returned?, EndpointState.work]
      cases harness m with
      | none => exact .rest rfl
      | some answers => exact .handle rfl (by simp [view, EndpointState.finish])

/-- **A step of a session is a step of its queues.** -/
theorem step_view (s : EndpointSession μ α) (a : EndpointAction μ α) :
    s.view.Step (s.step a).1 (s.step a).2.view := by
  obtain ⟨e, client⟩ := s
  cases a with
  | send m =>
    cases client with
    | idle => exact .send rfl (by simp [step, view])
    | submitting | receiving | awaiting => exact .rest rfl
  | reset =>
    cases client with
    | idle => exact .reset (by simp [step, view])
    | submitting | receiving | awaiting => exact .rest rfl
  | receive =>
    cases client with
    | idle | submitting | receiving | awaiting => exact .rest rfl
  | giveUp =>
    cases client with
    | idle | submitting => exact .rest rfl
    | receiving => exact .silence rfl
    | awaiting n => exact .abandon rfl
  | proceed => exact proceed_view ⟨e, client⟩
  | work harness => exact work_view harness e client

/-- **A session is a run of its queues.** -/
theorem run_view (s : EndpointSession μ α) (actions : List (EndpointAction μ α)) :
    s.view.Run (s.run actions).1 (s.run actions).2.view := by
  induction actions generalizing s with
  | nil => exact .nil
  | cons a rest ih => exact .cons (s.step_view a) (ih _)

theorem orderly_new : (view ({} : EndpointSession μ α)).Orderly :=
  ⟨.nil, by simp [EndpointView.numbers, view], nofun, rfl⟩

/-- **The number of requests in flight is never below zero.** -/
theorem inFlight_nonneg (actions : List (EndpointAction μ α)) :
    0 ≤ (run {} actions).2.endpoint.inFlight := by
  change 0 ≤ (run {} actions).2.view.inFlight
  rw [(orderly_new.run (run_view {} actions)).counted]
  exact Int.natCast_nonneg _

end EndpointSession

/-! ### Calls of the channel -/

namespace EndpointSession

theorem run_cons (s : EndpointSession μ α) (a : EndpointAction μ α)
    (rest : List (EndpointAction μ α)) : s.run (a :: rest) =
      ((s.step a).1 :: ((s.step a).2.run rest).1, ((s.step a).2.run rest).2) :=
  rfl

/-- One run after another. -/
theorem run_append (s : EndpointSession μ α) (actions more : List (EndpointAction μ α)) :
    s.run (actions ++ more) =
      ((s.run actions).1 ++ ((s.run actions).2.run more).1, ((s.run actions).2.run more).2) := by
  induction actions generalizing s with
  | nil => rfl
  | cons a rest ih => rw [List.cons_append, run_cons, ih, run_cons, List.cons_append]

/-- A client that is not adding a request goes on without adding any. -/
theorem adding_proceed {s : EndpointSession μ α} (h : s.client.adding = []) :
    s.proceed.2.client.adding = [] := by
  obtain ⟨⟨requests, replies, worker, inFlight, resets⟩, client⟩ := s
  cases client with
  | submitting r => exact absurd h (List.cons_ne_nil r [])
  | idle => exact h
  | receiving =>
    cases replies with
    | nil => exact h
    | cons r rest =>
      cases r with
      | answer | resetDone => rfl
  | awaiting n =>
    cases replies with
    | nil => exact h
    | cons r rest =>
      cases r with
      | answer => rfl
      | resetDone k =>
        rw [proceed]
        dsimp only
        split
        · rfl
        · rfl

theorem adding_run_replicate {a : EndpointAction μ α}
    (hstep : ∀ s : EndpointSession μ α, s.client.adding = [] → (s.step a).2.client.adding = [])
    (n : Nat) {s : EndpointSession μ α} (h : s.client.adding = []) :
    (s.run (List.replicate n a)).2.client.adding = [] := by
  induction n generalizing s with
  | zero => exact h
  | succ n ih => exact ih (hstep s h)

/-- **Waiting is a run** after which the client is in no call. -/
theorem exists_run_wait (harness : μ → Option (List α)) {s : EndpointSession μ α}
    (h : s.client.adding = []) :
    ∃ actions, (s.run actions).2 = (s.wait harness).2 ∧ (s.wait harness).2.client = .idle := by
  let works := List.replicate (s.endpoint.stepsLeft harness) (EndpointAction.work harness)
  let looks := List.replicate (s.run works).2.endpoint.replies.length
    (EndpointAction.proceed (μ := μ) (α := α))
  have hwait : (s.wait harness).2 = ((s.run works).2.run (looks ++ [.giveUp])).2 := rfl
  refine ⟨works ++ (looks ++ [.giveUp]), by rw [run_append, hwait], ?_⟩
  have hlooked : ((s.run works).2.run looks).2.client.adding = [] :=
    adding_run_replicate (a := .proceed) (fun _ => adding_proceed) _
      (adding_run_replicate (a := .work harness) (fun _ h => h) _ h)
  rw [hwait, run_append, run_cons]
  generalize ((s.run works).2.run looks).2 = looked at hlooked
  obtain ⟨e, client⟩ := looked
  cases client with
  | submitting r => exact absurd hlooked (List.cons_ne_nil r [])
  | idle | receiving | awaiting => rfl

end EndpointSession

/-- **A call of the channel is a session** with a client that is in no call before and after it. -/
theorem Endpoint.exists_run_transport (harness : Message → Option HarnessOutcome) (resetMs : Nat)
    (e : Endpoint) :
    (∀ m, ∃ actions, (EndpointSession.run ⟨e, .idle⟩ actions).2 =
      ⟨((transport harness resetMs).send m e).2, .idle⟩) ∧
    (∀ ms, ∃ actions, (EndpointSession.run ⟨e, .idle⟩ actions).2 =
      ⟨((transport harness resetMs).receive ms e).2, .idle⟩) ∧
    ∃ actions, (EndpointSession.run ⟨e, .idle⟩ actions).2 =
      ⟨((transport harness resetMs).reset e).2, .idle⟩ := by
  have hcall : ∀ call, (EndpointSession.run ⟨e, .idle⟩ call).2.client.adding = [] →
      ∃ actions, (EndpointSession.run ⟨e, .idle⟩ actions).2 =
        ⟨((EndpointSession.run ⟨e, .idle⟩ call).2.wait
          fun m => (harness m).map HarnessOutcome.answers).2.endpoint, .idle⟩ := by
    intro call hcall
    obtain ⟨actions, hactions, hidle⟩ := EndpointSession.exists_run_wait
      (fun m => (harness m).map HarnessOutcome.answers) hcall
    refine ⟨call ++ actions, ?_⟩
    rw [EndpointSession.run_append, hactions]
    generalize (EndpointSession.wait _ _).2 = last at hidle
    obtain ⟨endpoint, client⟩ := last
    obtain rfl : client = .idle := hidle
    rfl
  refine ⟨fun m => ⟨[.send m, .proceed], rfl⟩, fun ms => ?_, ?_⟩
  · simp only [transport]
    exact hcall [.receive] rfl
  · simp only [transport]
    exact hcall [.reset, .proceed] rfl

end GrammarFuzzing
