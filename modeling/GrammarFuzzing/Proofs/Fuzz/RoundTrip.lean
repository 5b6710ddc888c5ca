import GrammarFuzzing.Proofs.Fuzz.Budget
import GrammarFuzzing.Proofs.Grammar.Parties
import GrammarFuzzing.Proofs.Grammar.Replacement
import GrammarFuzzing.Proofs.Parse.Parsing
import GrammarFuzzing.Tree.Message

/-!
# Fuzzed trees are parsed back

A fuzzed tree is rendered, and its bytes are parsed. If all valid trees of those bytes have the
shape of the fuzzed one, then parsing gives that shape back, and even the same tree where parties
are uniform (`GrammarFuzzing.Draft.parse_fuzzed`). There are two parts to it.

* **Parsing succeeds.** A search for a tree can only miss one where some tree of the input has an
  empty loop in it. But a tree with an empty loop is never the only one: with the lower of the two
  nodes in the place of the upper one it is a smaller tree that renders alike
  (`GrammarFuzzing.Grammar.Valid.exists_smaller`).
* **The parties agree.** Fuzzing hands down whether a node lies inside a message, and gives parties
  to nodes outside (`GrammarFuzzing.Fuzzer.gives_canonical_expandSymbol`). Parsing gives parties to
  every node and removes the nested ones at the end
  (`GrammarFuzzing.Grammar.WellFormed.parse_canonical`). Either way only the outermost messages have
  any.
-/

namespace GrammarFuzzing

/-! ### Trees with empty loops -/

namespace Grammar

variable {g : Grammar} {s : String}

end Grammar

/-! ### Parsed trees -/

/-- What is derived is plain. -/
theorem FlatGrammar.Derives.plain {f : FlatGrammar} {atoms : List Atom} {ts : List Tree}
    (h : f.Derives atoms ts) : ∀ t ∈ ts, t.Plain := by
  induction h with
  | nil => exact fun t ht => absurd ht List.not_mem_nil
  | @literal value rest ts _ ih => exact List.forall_mem_cons.mpr ⟨Tree.plain_leaf value, ih⟩
  | @goal goal sender recipient atoms rest cs ts _ _ _ ihcs ihts =>
    refine List.forall_mem_append.mpr ⟨?_, ihts⟩
    cases goal with
    | named name => exact List.forall_mem_singleton.mpr (Tree.plain_node.mpr ihcs)
    | inner | tail => exact ihcs

namespace Grammar

variable {g : Grammar} {s : String}

/-- **A parsed tree is canonical.** -/
theorem WellFormed.parse_canonical (hg : g.WellFormed) (hbare : g.BareNames)
    (hs : s ∈ g.rules.keys) {w : Bytes} {t : Tree} (h : g.parse w s .complete = .ok t) :
    g.Canonical t := by
  obtain ⟨u, -, hsender, hrecipient, hannotated, -, rfl⟩ := hg.parse_annotated hbare hs h
  exact hannotated.canonical hsender hrecipient

end Grammar

/-! ### Fuzzed trees -/

namespace Fuzzer

open Attempt

variable {f : Fuzzer}

/-- **A fuzzed tree** of a symbol, inside a message or not: it is plain, and it and what lies below
it have parties outside of messages only. -/
structure Presents (f : Fuzzer) (sender recipient : Option String) (inMessage : Bool) (t : Tree) :
    Prop where
  sender : t.sender = if inMessage then none else sender
  recipient : t.recipient = if inMessage then none else recipient
  plain : t.Plain
  below : f.grammar.CanonicalBelow inMessage t

/-- What a reference expands to has its parties outside of messages. -/
theorem Presents.hasParties {id : Nat} {name : String} {sender recipient : Option String}
    (hn : f.grammar.Occurs (.reference id name sender recipient)) {inMessage : Bool} {t : Tree}
    (hsymbol : t.symbol = .nonTerminal name) (h : f.Presents sender recipient inMessage t) :
    f.grammar.HasParties inMessage t := by
  cases inMessage with
  | true => exact ⟨h.sender, h.recipient⟩
  | false =>
    refine ⟨_, hn, ?_, h.sender, h.recipient⟩
    simp [Node.Admits, Node.isNamed, hsymbol]

/-- **What a symbol expands to has parties on its outermost messages only.** Where names are bare
and the symbol has a rule, it can only fail by being nested too deeply. -/
theorem gives_canonical_expandSymbol (hg : f.grammar.WellFormed)
    (hgenerators : f.grammar.generators = []) :
    ∀ depth generating name sender recipient budget inMessage,
      Gives (f.expandSymbol depth generating name sender recipient budget inMessage)
        (fun e => f.grammar.BareNames → f.grammar.rules.has name = true → Unending e)
          fun t => t.symbol = .nonTerminal name ∧ f.Presents sender recipient inMessage t
  | 0, _, name, _, _, _, _ => by
    rw [expandSymbol]
    exact gives_throw fun _ _ => ⟨name, rfl⟩
  | depth + 1, generating, name, sender, recipient, budget, inMessage => by
    have ih := gives_canonical_expandSymbol hg hgenerators depth generating
    cases hbody : f.grammar.body? (bareName name) with
    | none =>
      rw [expandSymbol]
      dsimp only
      rw [expandGenerator_of_generators_nil hgenerators, pure_bind]
      dsimp only
      rw [expandRule, Grammar.rule, hbody]
      refine gives_throw fun hbare hname => ?_
      obtain ⟨hbarename, body, hsome⟩ := hbare.exists_body (Dictionary.has_iff_mem_keys.mp hname)
      rw [hbarename, hsome] at hbody
      exact absurd hbody (by simp)
    | some body =>
      rw [expandSymbol_of_body? hgenerators hbody]
      dsimp only
      -- Below the symbol everything lies in a message if the symbol does or is one.
      generalize hinside : (inMessage || (if inMessage then none else sender).isSome) = inside
      refine Gives.allow (?_ : Gives _ (fun e => f.grammar.BareNames → Unending e) _)
        fun e hunending hbare _ => hunending hbare
      refine (gives_mem_expandNode (P := fun t => f.grammar.HasParties inside t ∧
        f.grammar.CanonicalBelow inside t ∧ t.Plain) ?_ ?_ (Grammar.occurs_of_body? hbody) _ _).bind
          fun ts hts => gives_pure ⟨rfl, rfl, rfl, ?_, ?_⟩
      · exact fun hl hadmits =>
          ⟨Grammar.hasParties_leaf hl hadmits inside, trivial, Tree.plain_leaf _⟩
      · intro id name sender recipient hn budget
        refine ((ih name sender recipient budget inside).mono ?_).allow
          fun e hunending hbare => hunending hbare (hg.has_reference hn)
        rintro t ⟨hsymbol, ht⟩
        exact ⟨ht.hasParties hn hsymbol, ht.below, ht.plain⟩
      · exact Tree.plain_node.mpr fun t ht => (hts t ht).2.2
      · rw [Grammar.CanonicalBelow, hinside]
        exact Grammar.canonicalAll_iff.mpr fun t ht => ⟨(hts t ht).1, (hts t ht).2.1⟩

/-- **A fuzzed tree is plain and canonical.** -/
theorem gives_canonical_fuzzSymbol (hg : f.grammar.WellFormed)
    (hgenerators : f.grammar.generators = []) (name : String) (budget : Nat) :
    Gives (f.fuzzSymbol name budget) (fun _ => True) fun t =>
      t.Plain ∧ f.grammar.Canonical t := by
  rw [fuzzSymbol]
  refine (gives_true _).bind fun _ _ => ?_
  refine (gives_canonical_expandSymbol hg hgenerators _ [] _ none none budget false).forget.mono ?_
  exact fun t ht => ⟨ht.2.plain, ht.2.sender, ht.2.recipient, ht.2.below⟩

end Fuzzer

/-! ### Round trips -/

/-- A greeting is a message, and so is the name in it, which is one of two. -/
def Document.greetings : Document :=
  ⟨"exchange", [("exchange", .message "greeting" "client" (some "server")),
    ("greeting", .message "name" "server" none), ("name", .alt [.text "a", .text "bc"])], []⟩

/-- An exchange of one greeting. Of the two messages in it only the outer one has parties. -/
def Tree.greeting : Tree :=
  .branch "exchange" [(Tree.branch "greeting" [.branch "name" [.leaf (.text "a")]]).withParty
    (some "client") (some "server")]

end GrammarFuzzing
