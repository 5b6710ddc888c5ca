import GrammarFuzzing.Proofs.Exchange.Report

/-!
# Rounds one after the other

A fuzzer is asked for round after round, and some of them fail. What it has learnt in the end is
what the trees of the finished rounds tell, in order: how many there are, what they cover and of
which types their messages are. Calls that failed might as well not have been made
(`GrammarFuzzing.ExchangeFuzzer.after_learns_finished`).

The fuzzer learns the types of messages from the **packets** of a history, not from the tree. That
they agree rests on how the tree is put together: its messages are the trees of the history
(`GrammarFuzzing.Reduction.Reduces.filledRule_of_assemble`), and each of these has the symbol of its
packet at its root (`GrammarFuzzing.ExchangeFuzzer.Exchanges.symbol_eq`). Names that the reduction
keeps for itself have to be left out for this, and names that lose brackets when they are looked up;
the rest holds for all grammars.
-/

namespace GrammarFuzzing

/-- The types of the messages of a tree. -/
def Tree.messageTypes (t : Tree) : List String :=
  t.messages.filterMap fun m => m.symbol.name?

/-- **A call of a round**, with the channel, and with what has become of the channel, the evaluator
and the source by then. -/
structure RoundCall where
  {σ : Type}
  transport : Transport σ
  state : σ
  evaluator : Evaluator Float
  source : Source
  /-- The milliseconds since the start. -/
  elapsed : Nat

namespace ExchangeFuzzer

open Exchanging

variable {f : ExchangeFuzzer}

/-- What a call comes to, and the fuzzer after it. -/
def play (f : ExchangeFuzzer) (c : RoundCall) : Except ExchangeError Tree × ExchangeFuzzer :=
  (((f.runRound c.transport c.elapsed).run (c.state, c.evaluator)).run c.source).1.1

/-- The fuzzer after some calls, one after the other. -/
def after (f : ExchangeFuzzer) (calls : List RoundCall) : ExchangeFuzzer :=
  calls.foldl (fun f c => (f.play c).2) f

/-- What the calls come to. -/
def results : ExchangeFuzzer → List RoundCall → List (Except ExchangeError Tree)
  | _, [] => []
  | f, c :: calls => (f.play c).1 :: (f.play c).2.results calls

/-- **The trees of the finished rounds**, in order. -/
def finished (f : ExchangeFuzzer) (calls : List RoundCall) : List Tree :=
  (f.results calls).filterMap Except.toOption

/-! ### One call -/

/-- **A call fails and leaves the fuzzer as it was, or the fuzzer learns from a tree** that was put
together from a complete history. -/
theorem play_cases (f : ExchangeFuzzer) (c : RoundCall) :
    (∃ error, f.play c = (.error error, f)) ∨
      ∃ history events tree, f.play c = (.ok tree, f.learn c.elapsed (history.map (·.1)) tree) ∧
        List.Forall₂ f.Exchanges history events ∧
          f.reduction.isComplete (history.map (·.1)) = true ∧
            f.reduction.assemble history = .ok tree := by
  obtain ⟨r, s', e', left, events, hrun, -, hpost⟩ :=
    traces_round (f := f) (t := c.transport) c.elapsed c.state [] c.evaluator c.source
  rw [play, runRound_run, hrun]
  cases r with
  | error error => exact Or.inl ⟨error, rfl⟩
  | ok r =>
    obtain ⟨history, more, -, hmore, hcomplete, hassemble, hlearn⟩ := hpost
    exact Or.inr ⟨history, more, r.1, Prod.ext rfl hlearn, hmore, hcomplete, hassemble⟩

/-- After a call that fails the fuzzer is what it was. -/
theorem play_of_error {c : RoundCall} {error : ExchangeError} (h : (f.play c).1 = .error error) :
    (f.play c).2 = f := by
  rcases f.play_cases c with ⟨_, hplay⟩ | ⟨_, _, _, hplay, -⟩
  · rw [hplay]
  · rw [hplay] at h
    exact absurd h (by simp)

/-! ### Calls one after the other -/

@[simp] theorem finished_nil : f.finished [] = [] := rfl

theorem after_cons {c : RoundCall} {r : Except ExchangeError Tree} {f' : ExchangeFuzzer}
    (h : f.play c = (r, f')) (calls : List RoundCall) : f.after (c :: calls) = f'.after calls := by
  rw [after, List.foldl_cons, h]
  rfl

theorem finished_cons {c : RoundCall} {r : Except ExchangeError Tree} {f' : ExchangeFuzzer}
    (h : f.play c = (r, f')) (calls : List RoundCall) :
    f.finished (c :: calls) = r.toOption.toList ++ f'.finished calls := by
  rw [finished, results, h, List.filterMap_cons]
  cases r <;> rfl

theorem after_append (calls more : List RoundCall) :
    f.after (calls ++ more) = (f.after calls).after more :=
  List.foldl_append

theorem results_append (calls more : List RoundCall) :
    f.results (calls ++ more) = f.results calls ++ (f.after calls).results more := by
  induction calls generalizing f with
  | nil => rfl
  | cons c calls ih =>
    rw [List.cons_append, results, results, ih, List.cons_append]
    rfl

theorem finished_append (calls more : List RoundCall) :
    f.finished (calls ++ more) = f.finished calls ++ (f.after calls).finished more := by
  rw [finished, results_append, List.filterMap_append]
  rfl

theorem length_finished (calls : List RoundCall) :
    (f.finished calls).length = (f.results calls).countP Except.isOk := by
  rw [finished, List.length_filterMap_eq_countP]
  congr 1
  funext r
  cases r <;> rfl

/-- **Calls that fail can be left out.** -/
theorem leave_out (calls more : List RoundCall) {c : RoundCall} {error : ExchangeError}
    (h : ((f.after calls).play c).1 = .error error) :
    f.after (calls ++ c :: more) = f.after (calls ++ more) ∧
      f.finished (calls ++ c :: more) = f.finished (calls ++ more) := by
  have hplay : (f.after calls).play c = (.error error, f.after calls) :=
    Prod.ext h (play_of_error h)
  rw [after_append, after_append, after_cons hplay, finished_append, finished_append,
    finished_cons hplay]
  exact ⟨rfl, rfl⟩

/-- **What learning hands on from round to round** holds after all calls, of the fuzzer and of the
trees of the finished rounds. -/
theorem after_invariant {P : ExchangeFuzzer → List Tree → Prop}
    (hlearn : ∀ {f trees history events tree} (elapsed : Nat), P f trees →
      List.Forall₂ f.Exchanges history events →
        f.reduction.isComplete (history.map (·.1)) = true →
          f.reduction.assemble history = .ok tree →
            P (f.learn elapsed (history.map (·.1)) tree) (trees ++ [tree]))
    (hstart : P f []) (calls : List RoundCall) : P (f.after calls) (f.finished calls) := by
  have hall : ∀ {calls : List RoundCall} {f trees}, P f trees →
      P (f.after calls) (trees ++ f.finished calls) := by
    intro calls
    induction calls with
    | nil =>
      intro f trees hf
      rwa [finished_nil, List.append_nil]
    | cons c calls ih =>
      intro f trees hf
      rcases f.play_cases c with ⟨error, hplay⟩ | ⟨history, events, tree, hplay, hexchanges,
        hcomplete, hassemble⟩
      · rw [after_cons hplay, finished_cons hplay]
        exact ih hf
      · rw [after_cons hplay, finished_cons hplay, ← List.append_assoc]
        exact ih (hlearn c.elapsed hf hexchanges hcomplete hassemble)
  exact hall hstart

/-! ### What has been learnt -/

theorem rounds_after (calls : List RoundCall) :
    (f.after calls).rounds = f.rounds + (f.finished calls).length := by
  refine after_invariant (P := fun f' trees => f'.rounds = f.rounds + trees.length)
    (fun _ h _ _ _ => ?_) rfl calls
  rw [learn, h, List.length_append, ← Nat.add_assoc]
  rfl

theorem coverage_after (calls : List RoundCall) :
    (f.after calls).coverage = (f.finished calls).foldl CoverageSource.observe f.coverage := by
  refine after_invariant
    (P := fun f' trees => f'.coverage = trees.foldl CoverageSource.observe f.coverage)
    (fun _ h _ _ _ => ?_) rfl calls
  rw [learn, h, List.foldl_append]
  rfl

/-- What is observed of trees of a grammar is coverage of the grammar. -/
theorem foldl_observe_grammar (trees : List Tree) (coverage : Coverage) :
    trees.foldl CoverageSource.observe (.grammar coverage) =
      .grammar (trees.foldl Coverage.observe coverage) := by
  induction trees generalizing coverage with
  | nil => rfl
  | cons t trees ih => exact ih (coverage.observe t)

section Observed

variable {d : Draft} (hd : d.Coherent) (h : d.build = .ok f.grammar)
  (hbare : f.grammar.BareNames)
include hd h hbare

/-- **What was exchanged for a packet has its symbol at the root**, whether it was made up or
read. -/
theorem Exchanges.symbol_eq {p : Packet} {u : Tree} {event : WireEvent}
    (hexchanges : f.Exchanges (p, u) event) (hname : p.name ∈ f.grammar.rules.keys) :
    u.symbol = p.symbol := by
  have hg := hd.wellFormed h
  cases hexchanges with
  | sent hmakes =>
    obtain ⟨source, hsource⟩ := hmakes
    have hgives := Fuzzer.gives_symbol_fuzzSymbol (f := ⟨f.grammar, f.fuzzSettings⟩) hg hbare hname
      f.fuzzSettings.maxNodes source
    rw [hsource] at hgives
    exact hgives
  | received _ hparse => exact (hg.parse_sound hbare hname hparse).1

variable (hmarks : Reduction.Unmarked f.grammar) (hreduce : f.grammar.reduce = .ok f.reduction)
include hmarks hreduce

/-- **The messages of an assembled tree have the types of the packets of its history.** -/
theorem messageTypes_of_assemble {history : List (Packet × Tree)} {events : List WireEvent}
    (hexchanges : List.Forall₂ f.Exchanges history events)
    (hcomplete : f.reduction.isComplete (history.map (·.1)) = true) {tree : Tree}
    (hassemble : f.reduction.assemble history = .ok tree) :
    tree.messageTypes = (history.map (·.1)).map (·.name) := by
  obtain ⟨found, hr⟩ := Reduction.exists_reduces hd h hbare hmarks hreduce
  have hsymbols : ∀ e ∈ history, e.2.symbol.name? = some e.1.name := by
    intro e he
    obtain ⟨i, hi, rfl⟩ := List.mem_iff_getElem.mp he
    have hi' := hexchanges.length_eq ▸ hi
    have hname := Reduction.mem_keys_of_isComplete h hbare hreduce hcomplete _
      (List.mem_map_of_mem (List.getElem_mem hi))
    have hsymbol := (hexchanges.get hi hi').symbol_eq hd h hbare hname
    exact congrArg Symbol.name? hsymbol
  have hmessages : tree.messages.map (·.symbol) = history.map (·.2.symbol) := by
    have hcontents := congrArg (List.map fun c => c.1.2.2)
      (hr.filledRule_of_assemble hassemble).messages
    rwa [List.map_map, List.map_map] at hcontents
  calc tree.messageTypes
    _ = (tree.messages.map (·.symbol)).filterMap Symbol.name? := by rw [List.filterMap_map]; rfl
    _ = history.filterMap fun e => e.2.symbol.name? := by rw [hmessages, List.filterMap_map]; rfl
    _ = history.filterMap fun e => some e.1.name := List.filterMap_congr hsymbols
    _ = (history.map (·.1)).map (·.name) := by rw [List.filterMap_eq_map', List.map_map]; rfl

theorem observed_after (calls : List RoundCall) :
    (f.after calls).observed = f.observed ++ (f.finished calls).flatMap Tree.messageTypes := by
  -- What is learnt changes neither the grammar nor its reduction.
  refine (after_invariant (P := fun f' trees => f'.grammar = f.grammar ∧
    f'.reduction = f.reduction ∧ f'.observed = f.observed ++ trees.flatMap Tree.messageTypes)
    (fun {f' trees history events tree} _ hf' hexchanges hcomplete hassemble => ?_)
    ⟨rfl, rfl, (List.append_nil _).symm⟩ calls).2.2
  obtain ⟨hgrammar, hreduction, hobserved⟩ := hf'
  rw [← hgrammar] at h hbare hmarks hreduce
  rw [← hreduction] at hreduce
  have htypes := messageTypes_of_assemble hd h hbare hmarks hreduce hexchanges hcomplete hassemble
  refine ⟨hgrammar, hreduction, ?_⟩
  rw [List.flatMap_append, List.flatMap_singleton, htypes, ← List.append_assoc, ← hobserved]
  rfl

end Observed

/-! ### Whole sessions -/

/-- A round fails where it waits for a first message and none comes. -/
theorem result_of_silence {σ : Type} {t : Transport σ} {s s' s'' : σ} {room : Nat}
    (hroom : f.settings.maxMessages = room + 1) (hcomplete : f.reduction.isComplete [] = false)
    (hnext : f.reduction.predict [] ≠ []) (hremote : (f.reduction.predict []).filter f.isLocal = [])
    (hreset : t.reset s = (.ok (), s')) {error : ExchangeError}
    (hreceive : t.receive f.settings.timeoutMs s' = (.error error, s'')) (elapsed : Nat)
    (e : Evaluator Float) (source : Source) : f.result t elapsed s e source = .error error := by
  refine result_of_leads_error hreset leads_refl hroom (fun source => ⟨s'', source, ?_⟩) elapsed
    source
  rw [converse_of_receive hcomplete hnext hremote, outcome_bind, outcome_call, hreceive]

/-- **Failed rounds leave no trace.** A new fuzzer, with whatever scheduler, is asked for rounds,
each with whatever has become of the channel, the evaluator and the source. Then it has counted the
calls that came to a tree, and covered what these trees cover. If no name loses brackets and no name
is one that the reduction keeps for itself, it has observed the types of their messages, in order. A
call that failed has left the fuzzer as it was, its log included, and without it the others would
have come to the same trees and the same fuzzer. -/
theorem after_learns_finished {g : Grammar} {settings : ExchangeSettings}
    {coverage : CoverageSettings} {fuzzSettings : FuzzSettings} {new : ExchangeFuzzer}
    (hof : of g settings coverage fuzzSettings = .ok new) (scheduler : Scheduler)
    (calls : List RoundCall) :
    let f := { new with scheduler := scheduler }
    (f.after calls).rounds = (f.results calls).countP Except.isOk ∧
    (f.after calls).coverage =
      .grammar ((f.finished calls).foldl Coverage.observe (.of g coverage.goal f.localParties)) ∧
    (∀ d : Draft, d.Coherent → d.build = .ok g → g.BareNames → Reduction.Unmarked g →
      (f.after calls).observed = (f.finished calls).flatMap Tree.messageTypes) ∧
    ∀ before c more error, calls = before ++ c :: more →
      ((f.after before).play c).1 = .error error →
        ((f.after before).play c).2 = f.after before ∧
          f.after calls = f.after (before ++ more) ∧
            f.finished calls = f.finished (before ++ more) := by
  intro f
  obtain ⟨hreduce, rfl, -⟩ := reduction_of hof
  obtain ⟨hrounds, hobserved, hcoverage⟩ := learnt_of hof
  refine ⟨?_, ?_, fun d hd h hbare hmarks => ?_, ?_⟩
  · rw [rounds_after, ← length_finished, show f.rounds = 0 from hrounds, Nat.zero_add]
  · rw [coverage_after, ← foldl_observe_grammar, show f.coverage = _ from hcoverage]
  · rw [observed_after (f := f) hd h hbare hmarks hreduce, show f.observed = [] from hobserved,
      List.nil_append]
  · rintro before c more error rfl herror
    exact ⟨play_of_error herror, leave_out before more herror⟩

end ExchangeFuzzer

/-- A server greets a client. -/
def Document.welcome : Document :=
  ⟨"session", [("greeting", .text "hi"),
    ("session", .message "greeting" "Server" (some "Client"))], []⟩

/-- The greeting of a server. -/
def Packet.greeting : Packet :=
  ⟨some "Server", some "Client", "greeting"⟩

/-- What the server says. -/
def Message.greeting : Message :=
  ⟨"Server", none, Utf8.encode "hi"⟩

/-- The channel of a server that greets. -/
def Transport.greeted : Transport (List Message) :=
  Script.transport [] [.greeting] false

namespace ExchangeFuzzer

open Exchanging

/-- A new fuzzer plays the client of the welcome. -/
theorem exists_playsWelcome : ∃ g f, Document.welcome.toGrammar = .ok g ∧
    of g { localParties := ["Client"] } {} {} = .ok f ∧
      f.settings = { localParties := ["Client"] } ∧ f.isLocal .greeting = false ∧
        f.Plays .welcome := by
  obtain ⟨f, hof, hsettings, -, hlocal, hf⟩ := exists_plays
    (show Document.welcome.toGrammar = .ok _ from rfl)
    (by decide : ∀ name ∈ ["greeting", "session"], bareName name = name)
    (by decide : ∀ name ∈ ["greeting", "session"],
      ¬ Reduction.packetMark.toList <+: name.toList ∧
        ¬ Reduction.literalMark.toList <+: name.toList)
    (by decide) (by decide) (by decide +kernel) { localParties := ["Client"] } (by decide)
    (by decide)
  refine ⟨_, f, rfl, hof, hsettings, ?_, hf⟩
  rw [isLocal, hlocal]
  decide

namespace Plays

variable {f : ExchangeFuzzer} (hf : f.Plays .welcome)

include hf

/-- A welcome is over after the greeting, which comes first. -/
theorem isComplete_welcome : f.reduction.isComplete [] = false ∧
    f.reduction.isComplete [.greeting] = true ∧ f.reduction.predict [] = [.greeting] ∧
      f.reduction.predict [.greeting] = [] := by
  obtain ⟨found, hr⟩ := hf.exists_reduces
  have hgrammar :=
    Except.ok.inj (hf.builds.symm.trans (show Document.welcome.toGrammar = .ok _ from rfl))
  have hbody : ∃ id, f.grammar.body? f.grammar.start =
      some (.reference id "greeting" (some "Server") (some "Client")) := by
    rw [hgrammar]
    exact ⟨_, rfl⟩
  obtain ⟨id, hbody⟩ := hbody
  have hcomplete := hr.isComplete_singleton hbody
  refine ⟨?_, (hcomplete _).mpr rfl, hr.predict_singleton hf.wellFormed
    (Draft.builds_of_build hf.builds).isProductive hbody (Reduction.sorted_packets hf.reduces)⟩
  rw [Bool.eq_false_iff, ne_eq, hcomplete]
  simp

/-- The client is greeted, and the round comes to a tree. -/
theorem result_greeted (hremote : f.isLocal .greeting = false) {room : Nat}
    (hroom : f.settings.maxMessages = room + 1) (elapsed : Nat) (e : Evaluator Float)
    (source : Source) : ∃ tree, f.result .greeted elapsed [.greeting] e source = .ok tree := by
  obtain ⟨hfirst, hlast, hnext, hend⟩ := hf.isComplete_welcome
  obtain ⟨u, hu⟩ : ∃ u, f.grammar.parse Message.greeting.payload "greeting" .complete = .ok u :=
    hf.exists_parse (show Document.welcome.toGrammar = .ok _ from rfl) (by decide) (by decide)
      (.branch "greeting" [.leaf (.text "hi")]) rfl rfl rfl
  have hleads : f.Leads .greeted e 1 [] [.greeting] [(.greeting, u)] [] :=
    leads_receive hfirst hnext hremote rfl (by decide) hu
  have hcomplete : f.reduction.isComplete ([(Packet.greeting, u)].map (·.1)) = true := hlast
  obtain ⟨tree, htree⟩ := hf.exists_assemble hcomplete
  obtain ⟨f', left, hrun⟩ := runRound_of_leads rfl hleads hroom
    (fun source => ⟨source, by rw [converse_of_isComplete hcomplete hend]; rfl⟩)
    htree elapsed source
  exact ⟨tree, by rw [result, hrun]⟩

end Plays

end ExchangeFuzzer

/-- The client of the welcome is not greeted at first, and then it is. It has learnt from one tree,
whose message has the type that was observed. -/
theorem Document.learns_welcome : ∃ g f calls tree, welcome.toGrammar = .ok g ∧
    ExchangeFuzzer.of g { localParties := ["Client"] } {} {} = .ok f ∧ calls.length = 2 ∧
    f.finished calls = [tree] ∧ (f.after calls).rounds = 1 ∧
    (f.after calls).observed = tree.messageTypes := by
  obtain ⟨g, f, h, hof, hsettings, hremote, hf⟩ := ExchangeFuzzer.exists_playsWelcome
  obtain ⟨hfirst, -, hnext, -⟩ := hf.isComplete_welcome
  let silent : RoundCall := ⟨Script.transport [] [] false, [], .ofConstraints [], .ofWords [], 0⟩
  let greeted : RoundCall := ⟨.greeted, [.greeting], .ofConstraints [], .ofWords [], 0⟩
  have hroom := congrArg ExchangeSettings.maxMessages hsettings
  have hsilent : (f.play silent).1 = .error (.timeout f.settings.timeoutMs) :=
    ExchangeFuzzer.result_of_silence hroom hfirst (by simp [hnext]) (by simp [hnext, hremote]) rfl
      rfl 0 _ _
  have hplay : f.play silent = (.error (.timeout f.settings.timeoutMs), f) :=
    Prod.ext hsilent (ExchangeFuzzer.play_of_error hsilent)
  obtain ⟨tree, htree⟩ := hf.result_greeted hremote hroom 0 (.ofConstraints []) (.ofWords [])
  have hresults : f.results [silent, greeted] =
      [.error (.timeout f.settings.timeoutMs), .ok tree] := by
    rw [ExchangeFuzzer.results, hplay, ExchangeFuzzer.results,
      show (f.play greeted).1 = _ from htree]
    rfl
  have hfinished : f.finished [silent, greeted] = [tree] := by
    rw [ExchangeFuzzer.finished, hresults]
    rfl
  obtain ⟨hrounds, -, hobserved, -⟩ :=
    ExchangeFuzzer.after_learns_finished hof f.scheduler [silent, greeted]
  obtain rfl := Except.ok.inj (h.symm.trans hf.builds)
  refine ⟨_, f, [silent, greeted], tree, hf.builds, hof, rfl, hfinished, ?_, ?_⟩
  · exact hrounds.trans (congrArg _ hresults)
  · refine (hobserved _ welcome.coherent_toDraft hf.builds hf.bareNames hf.unmarked).trans ?_
    rw [hfinished, List.flatMap_singleton]

end GrammarFuzzing
