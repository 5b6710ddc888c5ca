import GrammarFuzzing.Proofs.Fuzz.Expansion
import GrammarFuzzing.Proofs.Grammar.Generated
import GrammarFuzzing.Proofs.Parse.Origin

/-!
# Fuzzed trees are current

A parsed tree is written in all of its nodes (`GrammarFuzzing.Grammar.current_parse`). A fuzzed one
is written down to the nodes of generators. There the value was parsed, so that it renders as what
was generated; then it was marked as read-only throughout and got the trees it was computed from as
its sources. A deterministic generator computes the same from them whenever it is asked again
(`GrammarFuzzing.Fuzzer.current_of_generatedTree?`). So all fuzzed trees are current
(`GrammarFuzzing.Fuzzer.gives_current_fuzzSymbol`).
-/

namespace GrammarFuzzing

/-- **A grammar whose generated values can be kept up to date**: its generators are deterministic,
and values are parsed as what they are. -/
structure Grammar.Repeatable (g : Grammar) : Prop where
  wellFormed : g.WellFormed
  bareNames : g.BareNames
  deterministic : ∀ {name generator}, g.generator? name = some generator → generator.Deterministic
  has_generator : ∀ {name generator}, g.generator? name = some generator → g.rules.has name = true

/-- **A parsed tree is current**, since no generator made any of it. -/
theorem Grammar.current_parse {g : Grammar} {w : Bytes} {s : String} {mode : ParseMode} {t : Tree}
    (h : g.parse w s mode = .ok t) : g.Current t := by
  obtain ⟨cs, hcs, rfl⟩ := parse_induction Current.leaf (fun _ _ hcs => Current.node hcs) h
  exact (Current.node hcs).stripParties false

namespace Fuzzer

open Attempt

variable {f : Fuzzer}

/-- **A generated tree is current** if its generator computes the same whenever it is asked. -/
theorem current_of_generatedTree? (hg : f.grammar.Repeatable) {name : String}
    {generator : Generator} (hgenerator : f.grammar.generator? name = some generator)
    {params : List Tree} {value : Option Bytes}
    (hvalue : Draw.Gives (generator.generate params) (· = value)) {t : Tree}
    (h : f.generatedTree? name params value = some t) : f.grammar.Current t := by
  cases value with
  | none => exact absurd h (by simp [generatedTree?])
  | some bytes =>
    rw [generatedTree?] at h
    split at h
    · rename_i u hparse
      have hname := Dictionary.has_iff_mem_keys.mp (hg.has_generator hgenerator)
      obtain ⟨hsymbol, -, hbytes⟩ := hg.wellFormed.parse_sound hg.bareNames hname hparse
      obtain rfl := Option.some.inj h
      refine .generated ⟨name, generator, (Tree.symbol_asReadOnly u).trans hsymbol, hgenerator, ?_⟩
        ((Tree.frozen_asReadOnly u).of_children rfl rfl)
      have hsame : (u.asReadOnly.withSources params).toBytes = bytes := by
        rw [Tree.toBytes_withSources, Tree.toBytes_asReadOnly, hbytes]
      rw [hsame]
      exact hvalue
    · exact absurd h (by simp)

/-- What the generator of a symbol gives is current. -/
theorem gives_current_expandGenerator (hg : f.grammar.Repeatable) (expand : SymbolExpansion)
    (generating : List String) (name : String) (budget : Nat) :
    Gives (f.expandGenerator expand generating name budget) (fun _ => True) fun generated =>
      ∀ t, generated = some t → f.grammar.Current t := by
  rw [expandGenerator]
  split
  · rename_i generator hgenerator
    split
    · exact gives_pure fun t ht => absurd ht (by simp)
    · refine (gives_true _).bind fun params _ => ?_
      cases params with
      | none => exact gives_pure fun t ht => absurd ht (by simp)
      | some params =>
        -- The value that is used here is the one that the generator always computes.
        obtain ⟨value, hvalue⟩ := hg.deterministic hgenerator params
        refine (gives_lift hvalue).bind fun drawn hdrawn => ?_
        subst hdrawn
        exact gives_pure fun t ht => current_of_generatedTree? hg hgenerator hvalue ht
  · exact gives_pure fun t ht => absurd ht (by simp)

/-- **A fuzzed tree is current.** -/
theorem gives_current_fuzzSymbol (hg : f.grammar.Repeatable) (name : String) (budget : Nat) :
    Gives (f.fuzzSymbol name budget) (fun _ => True) f.grammar.Current := by
  refine gives_fuzzSymbol_of (S := fun _ => True) (fun _ => trivial) Grammar.Current.leaf
    (fun _ hcs => Grammar.Current.node hcs) ?_ trivial name budget
  intro expand generating name budget sender recipient _
  refine (gives_current_expandGenerator hg _ _ _ _).mono fun generated hgenerated t ht => ?_
  exact (hgenerated t ht).withParty sender recipient

end Fuzzer

end GrammarFuzzing
