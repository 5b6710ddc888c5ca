import GrammarFuzzing.Proofs.Fuzz.Expansion
import GrammarFuzzing.Proofs.Grammar.Senders
import GrammarFuzzing.Proofs.Parse.Origin

/-!
# Who sends the messages of a tree

A node gets a sender from the reference that it expands or is parsed for, and from nowhere else. So
in the trees of a grammar in which only some senders are referred to, no other sends a message, be
they fuzzed (`GrammarFuzzing.Fuzzer.gives_sentBy_fuzzSymbol`) or parsed
(`GrammarFuzzing.Grammar.sentBy_parse`). This holds of generated values too, which are parsed.

For a slice it means that slicing leaves the messages of the chosen senders only, provided that
every message of another one could be dropped (`GrammarFuzzing.Grammar.slice_senders`).
-/

namespace GrammarFuzzing

variable {senders : List String}

/-! ### Parsed trees -/

/-- **A parsed tree has the senders that the grammar refers to.** -/
theorem Grammar.sentBy_parse {g : Grammar} (hg : ∀ n, g.Occurs n → n.isSentBy senders = true)
    {w : Bytes} {s : String} {mode : ParseMode} {t : Tree} (h : g.parse w s mode = .ok t) :
    t.SentBy senders := by
  have hnode : ∀ {id name sender recipient}, g.Occurs (.reference id name sender recipient) →
      ∀ {cs : List Tree}, (∀ c ∈ cs, c.SentBy senders) →
        Tree.SentBy senders ⟨.named name, cs, [], sender, recipient, false⟩ := by
    intro id name sender recipient href cs hcs
    refine Tree.sentBy_node.mpr ⟨?_, hcs⟩
    rintro s rfl
    simpa [Node.isSentBy, Node.sender?] using hg _ href
  obtain ⟨cs, hcs, rfl⟩ := parse_induction Tree.sentBy_leaf hnode h
  exact (Tree.sentBy_node.mpr ⟨fun s hs => absurd hs (by simp), hcs⟩).stripParties false

/-! ### Fuzzed trees -/

namespace Fuzzer

open Attempt

variable {f : Fuzzer}

/-- A generated tree has the senders that the grammar refers to, since it was parsed. -/
theorem sentBy_of_generatedTree? (hg : ∀ n, f.grammar.Occurs n → n.isSentBy senders = true)
    {name : String} {params : List Tree} {value : Option Bytes} {t : Tree}
    (h : f.generatedTree? name params value = some t) : t.SentBy senders := by
  cases value with
  | none => exact absurd h (by simp [generatedTree?])
  | some value =>
    rw [generatedTree?] at h
    split at h
    · rename_i u hparse
      obtain rfl := Option.some.inj h
      exact (Grammar.sentBy_parse hg hparse).asReadOnly.withSources params
    · exact absurd h (by simp)

/-- What the generator of a symbol gives has the senders that the grammar refers to. -/
theorem gives_sentBy_expandGenerator
    (hg : ∀ n, f.grammar.Occurs n → n.isSentBy senders = true) (expand : SymbolExpansion)
    (generating : List String) (name : String) (budget : Nat) :
    Gives (f.expandGenerator expand generating name budget) (fun _ => True) fun generated =>
      ∀ t, generated = some t → t.SentBy senders := by
  rw [expandGenerator]
  split
  · split
    · exact gives_pure fun t ht => absurd ht (by simp)
    · refine (gives_true _).bind fun params _ => ?_
      cases params with
      | none => exact gives_pure fun t ht => absurd ht (by simp)
      | some params =>
        exact (gives_true _).bind fun value _ => gives_pure fun t ht =>
          sentBy_of_generatedTree? hg ht
  · exact gives_pure fun t ht => absurd ht (by simp)

/-- **A fuzzed tree has the senders that the grammar refers to.** -/
theorem gives_sentBy_fuzzSymbol (hg : ∀ n, f.grammar.Occurs n → n.isSentBy senders = true)
    (name : String) (budget : Nat) :
    Gives (f.fuzzSymbol name budget) (fun _ => True) (Tree.SentBy senders) := by
  refine gives_fuzzSymbol_of (S := fun sender => ∀ s ∈ sender, s ∈ senders) ?_
    Tree.sentBy_leaf ?_ ?_ ?_ name budget
  · rintro id name _ recipient hn s rfl
    simpa [Node.isSentBy, Node.sender?] using hg _ hn
  · exact fun hsender hcs => Tree.sentBy_node.mpr ⟨hsender, hcs⟩
  · intro expand generating name budget sender recipient hsender
    refine (gives_sentBy_expandGenerator hg _ _ _ _).mono fun generated hgenerated t ht => ?_
    exact (hgenerated t ht).withParty hsender recipient
  · exact fun s hs => absurd hs (by simp)

end Fuzzer

/-! ### Slices -/

/-- **Slicing leaves the messages of the chosen senders, where all others can be dropped.** No
message of another sender occurs in a slice exactly if none is the body of a rule or of a
repetition. Then every message of a tree is sent by one of the chosen, whether the slice fuzzed the
tree, from any source, within any limits and whatever generators and hints it has, or parsed it,
from the whole input or from the beginning of one. -/
theorem Grammar.slice_senders {g slice : Grammar} {senders : List String}
    (h : g.slice senders = .ok slice) :
    ((∀ n, slice.Occurs n → n.isSentBy senders = true) ↔ g.Droppable senders) ∧
    (g.Droppable senders →
      (∀ settings s budget source t,
        (((Fuzzer.mk slice settings).fuzzSymbol s budget).run.run source).1 = .ok t →
          ∀ m ∈ t.messages, m.sender ∈ senders) ∧
      ∀ w s mode t, slice.parse w s mode = .ok t → ∀ m ∈ t.messages, m.sender ∈ senders) := by
  refine ⟨isSentBy_slice_iff h, fun hdroppable => ?_⟩
  have hslice := (isSentBy_slice_iff h).mpr hdroppable
  refine ⟨fun settings s budget source t ht => ?_, fun w s mode t ht => ?_⟩
  · have hgives := Fuzzer.gives_sentBy_fuzzSymbol (f := ⟨slice, settings⟩) hslice s budget
    exact (hgives.of_run_eq (Prod.ext ht rfl)).messages
  · exact (sentBy_parse hslice ht).messages

/-- A client says hello, and a server replies or says nothing. -/
def Document.reply : Document :=
  ⟨"talk", [("hello", .text "HELLO"), ("ok", .text "OK"), ("talk", .seq
    [.message "hello" "client" (some "server"), .optional (.seq [.message "ok" "server" none])])],
    []⟩

/-- The client's part of the talk has no message of the server, because it stood in a sequence. So
whatever is fuzzed or parsed with it, the client sends all messages. -/
theorem Document.slice_reply : ∃ g slice, reply.toGrammar = .ok g ∧ g.slice ["client"] = .ok slice ∧
    (∀ n, slice.Occurs n → n.isSentBy ["client"] = true) ∧
      ∀ w s mode t, slice.parse w s mode = .ok t → ∀ m ∈ t.messages, m.sender ∈ ["client"] := by
  have h : reply.toGrammar = .ok _ := rfl
  have hsome : (reply.toGrammar.bind (Grammar.slice · ["client"])).toOption.isSome = true := by
    decide +kernel
  rw [h] at hsome
  cases hslice : Grammar.slice _ ["client"] with
  | ok slice =>
    obtain ⟨hoccurs, htrees⟩ := Grammar.slice_senders hslice
    exact ⟨_, slice, h, hslice, hoccurs.mpr (by decide), (htrees (by decide)).2⟩
  | error e =>
    rw [Except.bind, hslice] at hsome
    exact absurd hsome (by simp [Except.toOption])

end GrammarFuzzing
