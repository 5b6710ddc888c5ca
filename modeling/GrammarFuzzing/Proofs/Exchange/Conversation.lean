import GrammarFuzzing.Proofs.Exchange.Round
import GrammarFuzzing.Proofs.Packet.Assembly

/-!
# Exchanges message by message

Where only one packet may come next and the channel does what is expected of it, an exchange takes
one message more: what is made up for the packet is sent
(`GrammarFuzzing.ExchangeFuzzer.leads_send`), or what is received is read as the packet
(`GrammarFuzzing.ExchangeFuzzer.leads_receive`). Such steps can be made one after the other
(`GrammarFuzzing.ExchangeFuzzer.Leads.trans`), and a whole round comes to what the exchange comes to
where they lead (`GrammarFuzzing.ExchangeFuzzer.outcome_conduct`). So a round can be followed to its
end, whatever is drawn on the way.
-/

namespace GrammarFuzzing

namespace ExchangeFuzzer

open Exchanging

variable {f : ExchangeFuzzer} {σ : Type} {t : Transport σ} {e : Evaluator Float}
  {room count count' : Nat} {history history' history'' : List (Packet × Tree)} {s s' s'' : σ}

/-- **An exchange leads from one history to another**, and from one state of the channel to another:
with room for so many messages more, it goes on from there. -/
def Leads (f : ExchangeFuzzer) (t : Transport σ) (e : Evaluator Float) (count : Nat)
    (history : List (Packet × Tree)) (s : σ) (history' : List (Packet × Tree)) (s' : σ) : Prop :=
  ∀ room source, ∃ left, outcome (f.converse t (room + count) history) s e source =
    outcome (f.converse t room history') s' e left

theorem leads_refl : f.Leads t e 0 history s history s :=
  fun _ source => ⟨source, rfl⟩

/-- One part of an exchange after the other. -/
theorem Leads.trans (h : f.Leads t e count history s history' s')
    (h' : f.Leads t e count' history' s' history'' s'') :
    f.Leads t e (count' + count) history s history'' s'' := by
  intro room source
  obtain ⟨left, hleft⟩ := h (room + count') source
  obtain ⟨left', hleft'⟩ := h' room left
  exact ⟨left', by rw [← Nat.add_assoc, hleft, hleft']⟩

/-! ### Where exchanges end -/

/-- An exchange ends where it is complete and nothing may come next. -/
theorem converse_of_isComplete
    (hcomplete : f.reduction.isComplete (history.map (·.1)) = true)
    (hnext : f.reduction.predict (history.map (·.1)) = []) :
    f.converse t room history = pure history := by
  cases room <;> (rw [converse, ends, hnext]; simp only [hcomplete]; rfl)

/-- Whether a complete exchange that may go on ends is left to chance. -/
theorem ends_of_predict {packets next : List Packet}
    (hcomplete : f.reduction.isComplete packets = true) (hnext : next ≠ []) :
    f.ends (σ := σ) packets next =
      draw (Draw.chance f.settings.continueProbability) >>= fun b => pure !b := by
  have hempty : next.isEmpty = false := by simpa using hnext
  rw [ends]
  simp only [hcomplete, hempty, Bool.not_true, Bool.false_eq_true, if_false]

/-- Without room a complete exchange that may go on is cut off if it is drawn to go on. -/
theorem converse_zero_of_predict
    (h : f.reduction.isComplete (history.map (·.1)) = true)
    (hnext : f.reduction.predict (history.map (·.1)) ≠ []) :
    f.converse t 0 history = draw (Draw.chance f.settings.continueProbability) >>= fun b =>
      if b then throw (.truncated history.length) else pure history := by
  rw [converse, ends_of_predict h hnext, bind_assoc]
  refine bind_congr fun b => ?_
  cases b <;> rfl

/-- Where an exchange is not complete and nothing can be sent, it waits for a message. -/
theorem converse_of_receive
    (hcomplete : f.reduction.isComplete (history.map (·.1)) = false)
    (hnext : f.reduction.predict (history.map (·.1)) ≠ [])
    (hremote : (f.reduction.predict (history.map (·.1))).filter f.isLocal = []) :
    f.converse t (room + 1) history = call (t.receive f.settings.timeoutMs) >>= fun m =>
      match f.interpret (f.reduction.predict (history.map (·.1))) m with
      | .ok r => f.converse t room (history ++ [r])
      | .error e => throw e := by
  have hempty : (f.reduction.predict (history.map (·.1))).isEmpty = false := by simpa using hnext
  rw [converse, ends]
  simp only [hcomplete, hempty, exchangeMessage, hremote, Bool.not_false, if_true, pure_bind,
    Bool.false_eq_true, if_false, List.isEmpty_nil, bind_assoc]
  refine bind_congr fun m => ?_
  cases f.interpret (f.reduction.predict (history.map (·.1))) m <;> rfl

/-- Where an exchange is not complete and something can be sent, it is made up and sent. -/
theorem converse_of_send
    (hcomplete : f.reduction.isComplete (history.map (·.1)) = false)
    (hsendable : (f.reduction.predict (history.map (·.1))).filter f.isLocal ≠ []) :
    f.converse t (room + 1) history =
      f.pick ((f.reduction.predict (history.map (·.1))).filter f.isLocal) >>= fun p =>
        f.synthesize p >>= fun u => call (t.send (messageOf p u)) >>= fun _ =>
          f.converse t room (history ++ [(p, u)]) := by
  have hempty : ((f.reduction.predict (history.map (·.1))).filter f.isLocal).isEmpty = false := by
    simpa using hsendable
  have hnext : (f.reduction.predict (history.map (·.1))).isEmpty = false := by
    rw [List.isEmpty_eq_false_iff]
    rintro hno
    exact hsendable (by rw [hno, List.filter_nil])
  rw [converse, ends]
  simp only [hcomplete, hnext, exchangeMessage, hempty, Bool.not_false, if_true, pure_bind,
    Bool.false_eq_true, if_false, bind_assoc]

/-- What is read as the only packet that may come next. -/
theorem interpret_of_parse {p : Packet} {m : Message} {u : Tree} (hagrees : agrees m p = true)
    (hparse : f.grammar.parse m.payload p.name .complete = .ok u) :
    f.interpret [p] m = .ok (p, u) := by
  rw [interpret, readAs?]
  simp only [hagrees, hparse, Bool.not_true, Bool.false_eq_true, if_false]

/-- **A message is received** for the only packet that may come next. -/
theorem leads_receive {p : Packet} {m : Message} {u : Tree}
    (hcomplete : f.reduction.isComplete (history.map (·.1)) = false)
    (hnext : f.reduction.predict (history.map (·.1)) = [p]) (hremote : f.isLocal p = false)
    (hreceive : t.receive f.settings.timeoutMs s = (.ok m, s')) (hagrees : agrees m p = true)
    (hparse : f.grammar.parse m.payload p.name .complete = .ok u) :
    f.Leads t e 1 history s (history ++ [(p, u)]) s' := by
  intro room source
  refine ⟨source, ?_⟩
  rw [converse_of_receive hcomplete (by simp [hnext]) (by simp [hnext, hremote]), outcome_bind,
    outcome_call, hreceive, hnext]
  simp only [interpret_of_parse hagrees hparse]

/-- **The only candidate is picked**, whether it is aimed at or drawn. -/
theorem outcome_pick_singleton (huniform : f.scheduler = .uniform) (p : Packet) (s : σ)
    (e : Evaluator Float) (source : Source) :
    ∃ left, outcome (f.pick [p]) s e source = ((.ok p, s, e), left) := by
  rw [pick, outcome_bind, outcome_draw]
  dsimp only
  split
  · rename_i q hq
    obtain ⟨target, -, htowards⟩ := Option.bind_eq_some_iff.mp hq
    obtain rfl := List.mem_singleton.mp (mem_of_towards? htowards)
    exact ⟨_, rfl⟩
  · have hnext := gives_uniformIndex Nat.one_pos
    rw [huniform, outcome_bind, attempt, outcome_bind, outcome_draw]
    obtain ⟨i, hi, hindex⟩ := hnext (f.target?.run source).2
    obtain rfl : i = 0 := Nat.lt_one_iff.mp hi
    rw [Scheduler.next, List.map_singleton, List.length_singleton, hindex]
    exact ⟨_, rfl⟩

/-- **A message is sent** for the only packet that may come next. -/
theorem leads_send {p : Packet} {u : Tree} (huniform : f.scheduler = .uniform)
    (hcomplete : f.reduction.isComplete (history.map (·.1)) = false)
    (hnext : f.reduction.predict (history.map (·.1)) = [p]) (hlocal : f.isLocal p = true)
    (hmade : ∀ source, ∃ left, outcome (f.synthesize p) s e source = ((.ok u, s, e), left))
    (hsend : t.send (messageOf p u) s = (.ok (), s')) :
    f.Leads t e 1 history s (history ++ [(p, u)]) s' := by
  intro room source
  have hsendable : (f.reduction.predict (history.map (·.1))).filter f.isLocal = [p] := by
    simp [hnext, hlocal]
  obtain ⟨left, hpick⟩ := outcome_pick_singleton huniform p s e source
  obtain ⟨left', hu⟩ := hmade left
  refine ⟨left', ?_⟩
  rw [converse_of_send hcomplete (by simp [hsendable]), hsendable, outcome_bind, hpick]
  dsimp only
  rw [outcome_bind, hu]
  dsimp only
  rw [outcome_bind, outcome_call, hsend]

/-! ### Rounds -/

/-- **A round comes to what its exchange leads to.** -/
theorem outcome_conduct (hreset : t.reset s = (.ok (), s'))
    (hleads : f.Leads t e count [] s' history s'') (hroom : f.settings.maxMessages = room + count)
    (source : Source) : ∃ left, outcome (f.conduct t) s e source =
      outcome (f.converse t room history >>= fun history =>
        match f.reduction.assemble history with
        | .ok tree => pure (history.map (·.1), tree)
        | .error e => throw (.parse e)) s'' e left := by
  obtain ⟨left, hleft⟩ := hleads room source
  refine ⟨left, ?_⟩
  rw [conduct, outcome_bind, outcome_call, hreset]
  refine (outcome_bind ..).trans ?_
  rw [hroom, hleft]
  exact (outcome_bind ..).symm

/-- **A round whose exchange ends** comes to the tree that is put together. -/
theorem runRound_of_leads (hreset : t.reset s = (.ok (), s'))
    (hleads : f.Leads t e count [] s' history s'') (hroom : f.settings.maxMessages = room + count)
    (hends : ∀ source, ∃ left, outcome (f.converse t room history) s'' e source =
      ((.ok history, s'', e), left)) {tree : Tree}
    (hassemble : f.reduction.assemble history = .ok tree) (elapsed : Nat) (source : Source) :
    ∃ f' left, ((f.runRound t elapsed).run (s, e)).run source =
      (((.ok tree, f'), s'', e), left) := by
  obtain ⟨left, hconduct⟩ := outcome_conduct hreset hleads hroom source
  obtain ⟨left', hleft'⟩ := hends left
  rw [outcome_bind, hleft'] at hconduct
  simp only [hassemble] at hconduct
  refine ⟨f.learn elapsed (history.map (·.1)) tree, left', ?_⟩
  rw [runRound_run, round, outcome_bind, hconduct]
  rfl

/-- **A round whose exchange fails** fails with the same error. -/
theorem result_of_leads_error (hreset : t.reset s = (.ok (), s'))
    (hleads : f.Leads t e count [] s' history s'') (hroom : f.settings.maxMessages = room + count)
    {error : ExchangeError} (hfails : ∀ source, ∃ s₁ left,
      outcome (f.converse t room history) s'' e source = ((.error error, s₁, e), left))
    (elapsed : Nat) (source : Source) : f.result t elapsed s e source = .error error := by
  obtain ⟨left, hconduct⟩ := outcome_conduct hreset hleads hroom source
  obtain ⟨_, left', hleft'⟩ := hfails left
  rw [outcome_bind, hleft'] at hconduct
  rw [result, runRound_run, round, outcome_bind, hconduct]

/-! ### New fuzzers for documents -/

/-- **A fuzzer that plays a document**, as a new one does. No rule of the reduction derives nothing,
so whatever is complete is put together. -/
structure Plays (f : ExchangeFuzzer) (d : Document) : Prop where
  builds : d.toGrammar = .ok f.grammar
  bareNames : f.grammar.BareNames
  unmarked : Reduction.Unmarked f.grammar
  noEmptyCharset : f.grammar.NoEmptyCharset
  unhinted : (Fuzzer.mk f.grammar f.fuzzSettings).Unhinted
  reduces : f.grammar.reduce = .ok f.reduction
  reducedRules : ∀ p ∈ f.reduction.grammar.rules, p.2.vanishes (fun _ => false) = false
  uniform : f.scheduler = .uniform

/-- There is a new fuzzer that plays some parties of a document. -/
theorem exists_plays {d : Document} {g : Grammar} (h : d.toGrammar = .ok g)
    (hbare : g.BareNames) (hmarks : Reduction.Unmarked g) (hchars : g.NoEmptyCharset)
    (hhints : (Fuzzer.mk g {}).Unhinted)
    (hreduce : (d.toGrammar.bind Grammar.reduce).toOption.any (fun r =>
      decide (∀ p ∈ r.grammar.rules, p.2.vanishes (fun _ => false) = false)) = true)
    (settings : ExchangeSettings) (hparties : ∀ p ∈ settings.localParties, p ∈ g.parties true)
    (hlocal : settings.localParties ≠ []) : ∃ f, of g settings {} {} = .ok f ∧
      f.settings = settings ∧ f.fuzzSettings = {} ∧
        f.localParties = SortedSet.ofList settings.localParties ∧ f.Plays d := by
  rw [h] at hreduce
  cases hr : g.reduce with
  | error e =>
    rw [show (Except.ok g).bind Grammar.reduce = g.reduce from rfl, hr] at hreduce
    exact absurd hreduce Bool.false_ne_true
  | ok r =>
    rw [show (Except.ok g).bind Grammar.reduce = g.reduce from rfl, hr] at hreduce
    obtain ⟨f, hof, hparty⟩ := exists_of hr settings hparties hlocal {} {}
    obtain ⟨hreduces, rfl, hsettings, hfuzz, huniform⟩ := reduction_of hof
    obtain rfl : r = f.reduction := Except.ok.inj (hr.symm.trans hreduces)
    exact ⟨f, hof, hsettings, hfuzz, hparty, h, hbare, hmarks, hchars, hfuzz ▸ hhints, hr,
      of_decide_eq_true hreduce, huniform⟩

namespace Plays

variable {d : Document} (hf : f.Plays d)

include hf

theorem wellFormed : f.grammar.WellFormed :=
  d.coherent_toDraft.wellFormed hf.builds

theorem exists_reduces : ∃ found, Reduction.Reduces f.grammar found f.reduction :=
  Reduction.exists_reduces d.coherent_toDraft hf.builds hf.bareNames hf.unmarked hf.reduces

/-- Predicted packets begin the rest of a complete exchange. -/
theorem mem_predict {history : List Packet} {p : Packet} : p ∈ f.reduction.predict history ↔
    ∃ rest, f.reduction.isComplete (history ++ p :: rest) = true := by
  obtain ⟨found, hr⟩ := hf.exists_reduces
  exact hr.mem_predict hf.wellFormed (Draft.builds_of_build hf.builds).isProductive
    (SortedSet.nodup_of_sorted (Reduction.sorted_packets hf.reduces))

theorem predict_eq_singleton {history : List Packet} {p : Packet}
    (h : ∀ q, (∃ rest, f.reduction.isComplete (history ++ q :: rest) = true) ↔ q = p) :
    f.reduction.predict history = [p] :=
  Reduction.predict_eq_singleton (Reduction.sorted_packets hf.reduces) fun q =>
    hf.mem_predict.trans (h q)

/-- Complete exchanges are put together. -/
theorem exists_assemble {history : List (Packet × Tree)}
    (hcomplete : f.reduction.isComplete (history.map (·.1)) = true) :
    ∃ tree, f.reduction.assemble history = .ok tree := by
  obtain ⟨found, hr⟩ := hf.exists_reduces
  exact hr.exists_assemble (hr.wellFormed.noEmptyLoop hf.reducedRules) hcomplete

/-- The text of a valid tree is read, if no rule of the grammar derives nothing. -/
theorem exists_parse {g : Grammar} (h : d.toGrammar = .ok g)
    (hrules : ∀ p ∈ g.rules, p.2.vanishes (fun _ => false) = false) {name : String}
    (hname : name ∈ g.rules.keys) (t : Tree) (hsymbol : t.symbol = .nonTerminal name)
    (hvalid : g.validate t = .ok ()) {w : Bytes} (hw : t.toBytes = w) :
    ∃ u, f.grammar.parse w name .complete = .ok u := by
  obtain rfl := Except.ok.inj (h.symm.trans hf.builds)
  have hg := hf.wellFormed
  exact hg.exists_parse_complete hf.bareNames hname (hg.noEmptyLoopIn (hg.noEmptyLoop hrules) _ _)
    ((hg.recognize_iff_valid hf.bareNames hname _).mpr
      ⟨t, hsymbol, hg.validate_eq_ok.mp hvalid, hw⟩)

end Plays

end ExchangeFuzzer

/-! ### A question and its answer -/

/-- A client asks and a server answers, over and over. -/
def Document.chat : Document :=
  ⟨"session", [("question", .text "who?"), ("answer", .text "me"), ("session", .plus (.seq [
    .message "question" "Client" (some "Server"), .message "answer" "Server" (some "Client")]))],
    []⟩

/-- What the client sends. -/
def Packet.question : Packet :=
  ⟨some "Client", some "Server", "question"⟩

/-- What the server sends back. -/
def Packet.answer : Packet :=
  ⟨some "Server", some "Client", "answer"⟩

/-- The tree of what the client sends. -/
def Tree.question : Tree :=
  .branch "question" [.leaf (.text "who?")]

/-- What the client says. -/
def Message.question : Message :=
  ⟨"Client", some "Server", Utf8.encode "who?"⟩

/-- What the server says. -/
def Message.answer : Message :=
  ⟨"Server", some "Client", Utf8.encode "me"⟩

/-- The channel of a server that answers. -/
def Transport.answering : Transport (List Message) :=
  Script.transport [⟨some "Client", Utf8.encode "who?", .reply [.answer]⟩] [] false

theorem Document.exists_body_chat {g : Grammar} (h : chat.toGrammar = .ok g) :
    ∃ i j k l : Nat, g.body? g.start = some (.repetition i (.sequence j
      [.reference k "question" (some "Client") (some "Server"),
        .reference l "answer" (some "Server") (some "Client")]) 1 none .plus) := by
  obtain rfl := Except.ok.inj ((show chat.toGrammar = .ok _ from rfl).symm.trans h)
  exact ⟨_, _, _, _, rfl⟩

namespace ExchangeFuzzer

open Exchanging Node

/-- A new fuzzer plays the client of the chat. -/
theorem exists_playsChat (settings : ExchangeSettings)
    (hclient : settings.localParties = ["Client"]) : ∃ g f, Document.chat.toGrammar = .ok g ∧
      of g settings {} {} = .ok f ∧ f.settings = settings ∧ f.fuzzSettings = {} ∧
        f.localParties = ["Client"] ∧ f.Plays .chat := by
  obtain ⟨f, hof, hsettings, hfuzz, hlocal, hf⟩ := exists_plays
    (show Document.chat.toGrammar = .ok _ from rfl)
    (by decide : ∀ name ∈ ["answer", "question", "session"], bareName name = name)
    (by decide : ∀ name ∈ ["answer", "question", "session"],
      ¬ Reduction.packetMark.toList <+: name.toList ∧
        ¬ Reduction.literalMark.toList <+: name.toList)
    (by decide) (by decide) (by decide +kernel) settings (by rw [hclient]; decide)
    (by rw [hclient]; decide)
  refine ⟨_, f, rfl, hof, hsettings, hfuzz, ?_, hf⟩
  rw [hlocal, hclient]
  rfl

namespace Plays

variable {f : ExchangeFuzzer} (hf : f.Plays .chat)

include hf

/-- **Complete exchanges of the chat ask and answer**, any number of times. -/
theorem isComplete_chat (history : List Packet) : f.reduction.isComplete history = true ↔
    ∃ k, history = (List.replicate (k + 1) [.question, .answer]).flatten := by
  obtain ⟨found, hr⟩ := hf.exists_reduces
  obtain ⟨i, j, k, l, hbody⟩ := Document.exists_body_chat hf.builds
  rw [hr.isComplete_iff_spells hbody (by simp [leaves, listLeaves, Reduction.sentPacket?])]
  simp only [Spells, lifts_exists, lifts_and, lifts_copies]
  have hround : Lifts (fun l p => Reduction.sentPacket? l = some p) (SpellsAll
      [.reference k "question" (some "Client") (some "Server"),
        .reference l "answer" (some "Server") (some "Client")]) =
      fun ps => ps = [.question, .answer] := by
    funext ps
    refine propext ⟨?_, ?_⟩
    · rintro ⟨ls, ⟨_, _, rfl, rfl, _, _, rfl, rfl, rfl⟩, hps⟩
      simpa [Reduction.sentPacket?, List.forall₂_cons_left_iff, Packet.question, Packet.answer,
        eq_comm] using hps
    · rintro rfl
      exact ⟨_, ⟨_, _, rfl, rfl, _, _, rfl, rfl, rfl⟩, .cons rfl (.cons rfl .nil)⟩
  rw [hround]
  simp only [copies_eq_iff]
  constructor
  · rintro ⟨k, hk, -, rfl⟩
    exact ⟨k - 1, by rw [Nat.sub_add_cancel hk]⟩
  · rintro ⟨k, rfl⟩
    exact ⟨k + 1, Nat.le_add_left 1 k, fun m hm => absurd hm (by simp), rfl⟩

/-- A chat is not over before an answer. -/
theorem not_isComplete_chat : f.reduction.isComplete [] = false ∧
    f.reduction.isComplete [.question] = false := by
  simp [Bool.eq_false_iff, hf.isComplete_chat, List.replicate_succ]

theorem isComplete_chat_answer : f.reduction.isComplete [.question, .answer] = true :=
  (hf.isComplete_chat _).mpr ⟨0, rfl⟩

/-- First comes a question. -/
theorem predict_chat_nil : f.reduction.predict [] = [.question] := by
  refine hf.predict_eq_singleton fun q => ⟨?_, ?_⟩
  · rintro ⟨rest, hrest⟩
    obtain ⟨k, hk⟩ := (hf.isComplete_chat _).mp hrest
    rw [List.replicate_succ, List.flatten_cons] at hk
    exact (List.cons.inj hk).1
  · rintro rfl
    exact ⟨[.answer], hf.isComplete_chat_answer⟩

/-- Then comes an answer. -/
theorem predict_chat_question : f.reduction.predict [.question] = [.answer] := by
  refine hf.predict_eq_singleton fun q => ⟨?_, ?_⟩
  · rintro ⟨rest, hrest⟩
    obtain ⟨k, hk⟩ := (hf.isComplete_chat _).mp hrest
    rw [List.replicate_succ, List.flatten_cons] at hk
    exact (List.cons.inj (List.cons.inj hk).2).1
  · rintro rfl
    exact ⟨[], hf.isComplete_chat_answer⟩

/-- Then the chat may go on. -/
theorem predict_chat_answer : f.reduction.predict [.question, .answer] ≠ [] :=
  List.ne_nil_of_mem (hf.mem_predict.mpr ⟨[.answer], (hf.isComplete_chat _).mpr ⟨1, rfl⟩⟩)

/-- The answer is read. -/
theorem exists_parse_answer :
    ∃ u, f.grammar.parse Message.answer.payload "answer" .complete = .ok u :=
  hf.exists_parse (show Document.chat.toGrammar = .ok _ from rfl) (by decide) (by decide)
    (.branch "answer" [.leaf (.text "me")]) rfl rfl rfl

/-- The question is made up, whatever the source holds. -/
theorem outcome_synthesize_question (hcandidates : f.settings.candidatesPerPacket = 1)
    (hfuzz : f.fuzzSettings = {}) {σ : Type} (s : σ) (source : Source) :
    outcome (f.synthesize .question) s (.ofConstraints []) source =
      ((.ok .question, s, .ofConstraints []), source) := by
  have hgrammar :=
    Except.ok.inj (hf.builds.symm.trans (show Document.chat.toGrammar = .ok _ from rfl))
  rw [synthesize, hcandidates]
  obtain ⟨grammar, settings, fuzzSettings, _, _, _, _, _, _, _⟩ := f
  obtain rfl : grammar = _ := hgrammar
  obtain rfl : fuzzSettings = _ := hfuzz
  rfl

/-- **The client asks, and the server answers.** -/
theorem leads_chat (hcandidates : f.settings.candidatesPerPacket = 1) (hfuzz : f.fuzzSettings = {})
    (hclient : f.localParties = ["Client"]) {σ : Type} {t : Transport σ} {s s' s'' : σ}
    (hsend : t.send .question s = (.ok (), s'))
    (hreceive : ∀ ms, t.receive ms s' = (.ok .answer, s'')) {u : Tree}
    (hu : f.grammar.parse Message.answer.payload "answer" .complete = .ok u) :
    f.Leads t (.ofConstraints []) 2 [] s [(.question, .question), (.answer, u)] s'' := by
  have hlocal : f.isLocal .question = true ∧ f.isLocal .answer = false := by
    rw [isLocal, isLocal, hclient]
    decide
  have hask : f.Leads t (.ofConstraints []) 1 [] s [(.question, .question)] s' :=
    leads_send hf.uniform hf.not_isComplete_chat.1 hf.predict_chat_nil hlocal.1
      (fun source => ⟨source, hf.outcome_synthesize_question hcandidates hfuzz s source⟩) hsend
  exact hask.trans (leads_receive hf.not_isComplete_chat.2 hf.predict_chat_question hlocal.2
    (hreceive _) (by decide) hu)

/-- **A round with room for one question and one answer** is cut off if chance goes on with it. -/
theorem result_cut_chat (hcandidates : f.settings.candidatesPerPacket = 1)
    (hfuzz : f.fuzzSettings = {}) (hclient : f.localParties = ["Client"])
    (hroom : f.settings.maxMessages = 0 + 2) (hchance : ∀ source,
      ((Draw.chance f.settings.continueProbability).run source).1 = true)
    {σ : Type} {t : Transport σ} {s₀ s s' s'' : σ} (hreset : t.reset s₀ = (.ok (), s))
    (hsend : t.send .question s = (.ok (), s'))
    (hreceive : ∀ ms, t.receive ms s' = (.ok .answer, s'')) (elapsed : Nat) (source : Source) :
    f.result t elapsed s₀ (.ofConstraints []) source = .error (.truncated 2) := by
  obtain ⟨u, hu⟩ := hf.exists_parse_answer
  refine result_of_leads_error hreset (hf.leads_chat hcandidates hfuzz hclient hsend hreceive hu)
    hroom (fun source => ?_) elapsed source
  refine ⟨s'', ((Draw.chance f.settings.continueProbability).run source).2, ?_⟩
  rw [converse_zero_of_predict hf.isComplete_chat_answer hf.predict_chat_answer, outcome_bind,
    outcome_draw, hchance]
  rfl

/-- Two predicted packets are a question and its answer. -/
theorem eq_of_grown_chat {history : List Packet} (h : f.reduction.Grown history)
    (hlength : 2 = history.length) : history = [.question, .answer] := by
  cases h with
  | nil => exact absurd hlength (by simp)
  | @snoc history q h hq =>
    cases h with
    | nil => exact absurd hlength (by simp)
    | @snoc history p h hp =>
      obtain rfl : history = [] := by simpa using hlength
      rw [hf.predict_chat_nil, List.mem_singleton] at hp
      subst hp
      rw [List.nil_append, hf.predict_chat_question, List.mem_singleton] at hq
      subst hq
      rfl

end Plays

end ExchangeFuzzer

end GrammarFuzzing
