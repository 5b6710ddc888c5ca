import GrammarFuzzing.Proofs.Parse.Loops
import GrammarFuzzing.Proofs.Parse.Search

/-!
# Parts of readings

When a whole input is parsed, a goal is looked for only as part of a reading of the input
(`GrammarFuzzing.FlatGrammar.PartOf`): everything around it can be read. So whatever can be built
for the goal is found in some tree that renders as the input
(`GrammarFuzzing.Grammar.exists_tree_of_part`), and if the goal leads back to itself there, some
tree of the input has an empty loop in it. An input without such trees is therefore a scope in which
searches miss nothing (`GrammarFuzzing.Grammar.WellFormed.scope`), whatever the grammar derives
otherwise.
-/

namespace GrammarFuzzing

namespace FlatGrammar

/-- **A goal is part of a reading** of a stretch by another goal. -/
inductive PartOf (f : FlatGrammar) (input : Array UInt8) (root : Goal) (start stop : Nat) :
    Goal → Nat → Nat → Prop
  | whole : f.PartOf input root start stop root start stop
  | step {above goal : Goal} {sender recipient : Option String} {before after : List Atom}
    {i a b j : Nat} : f.PartOf input root start stop above i j →
      f.Alternative above (before ++ .goal goal sender recipient :: after) →
      f.Reads input before i a → f.Spans input goal a b → f.Reads input after b j →
      f.PartOf input root start stop goal a b

end FlatGrammar

namespace Grammar

open FlatGrammar

/-- **What is built for a part is in something that is built for the whole.** -/
theorem exists_tree_of_part {f : FlatGrammar} {input : Array UInt8} {root goal : Goal}
    {start stop i j : Nat} (h : f.PartOf input root start stop goal i j) {ds : List Tree}
    (hds : Search.GoalBuilds f input goal i j ds) :
    ∃ cs, Search.GoalBuilds f input root start stop cs ∧ ∃ sender recipient, ∀ u,
      Inside u (Search.wrap goal sender recipient ds) →
        Inside u (Search.wrap root none none cs) := by
  induction h generalizing ds with
  | whole => exact ⟨ds, hds, none, none, fun _ => id⟩
  | @step above goal sender recipient before after i a b j _ halt hbefore _ hafter ih =>
    obtain ⟨ts, hts⟩ := Search.exists_builds hbefore
    obtain ⟨us, hus⟩ := Search.exists_builds hafter
    have habove : Search.GoalBuilds f input above i j
        (ts ++ (Search.wrap goal sender recipient ds ++ us)) :=
      ⟨_, halt, hts.append (Search.Builds.goal hds hus)⟩
    obtain ⟨cs, hcs, sender', recipient', hinside⟩ := ih habove
    refine ⟨cs, hcs, sender, recipient, fun u hu => hinside u (Inside.wrap ?_ _ _ _)⟩
    exact hu.mono fun t ht => List.mem_append_right _ (List.mem_append_left _ ht)

variable {g : Grammar} {s : String} {w : Bytes}

/-- **Without empty loops in the trees of an input** the parts of its readings are a scope for
searches. -/
theorem WellFormed.scope (hg : g.WellFormed) (hbare : g.BareNames) (hs : s ∈ g.rules.keys)
    (hloop : g.NoEmptyLoopIn s w) :
    (of g).Scope w.toArray ((of g).PartOf w.toArray (.named s) 0 w.toArray.size) := by
  refine ⟨.step, fun {goal i} hpart hgoal => ?_⟩
  obtain ⟨name, hway, hname⟩ := hg.exists_named_of_loop hgoal
  obtain ⟨atoms, cs, c, halt, hcs, hnil, hc, hsame⟩ := exists_children_of_loop hname
  obtain ⟨atoms', ds, halt', hds, hempty, hnode⟩ := exists_inside_of_way hway halt hcs hnil
  have hbuilds : Search.GoalBuilds (of g) w.toArray goal i i ds := by
    refine ⟨atoms', halt', hds, ?_, ?_⟩
    · rw [hempty]
      rfl
    · rw [hempty]
      rfl
  obtain ⟨es, hes, sender, recipient, hinside⟩ := exists_tree_of_part hpart hbuilds
  obtain ⟨u, hsymbol, rfl, hu⟩ := hnode sender recipient
  -- The tree over all of the input, with the loop in it.
  have hbytes : (Tree.branch s es).toBytes = w := by
    obtain ⟨_, _, hbuilds⟩ := hes
    rw [Tree.toBytes_nonTerminal rfl]
    have hall := Chart.bytesAt_zero_iff.mp ⟨hbuilds.bytes, by have := hbuilds.stop; omega⟩
    rwa [List.toList_toArray] at hall
  have hroot : Inside u [Tree.branch s es] := by
    have hwrap : Search.wrap (.named s) none none es = [Tree.branch s es] := by
      rw [Search.wrap, Symbol.named, (hbare.exists_body hs).1]
      rfl
    rw [← hwrap]
    exact hinside u hu
  obtain ⟨t, ht, path, hpath⟩ := hroot
  obtain rfl := List.mem_singleton.mp ht
  have hvalid := hg.validate_eq_ok.mpr (hg.annotated_of_builds hbare hes).valid
  refine hloop _ rfl hvalid hbytes ⟨path, u, hpath, ?_⟩
  exact isEmptyLoop_of_inside hsymbol hnil hc (hsame.trans hsymbol.symm)

end Grammar

end GrammarFuzzing
