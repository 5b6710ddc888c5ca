import GrammarFuzzing.Proofs.Grammar.Validity
import GrammarFuzzing.Proofs.Tree.Paths

/-!
# Valid trees with other subtrees

A subtree of a valid tree may be replaced by any valid tree with the same symbol: the children of
the node above keep their symbols, so they still are what its rule stands for
(`GrammarFuzzing.Grammar.Valid.replace`). This is what repair, crossover and mutation rest on.
-/

namespace GrammarFuzzing

/-- **Replacing succeeds** where there is a node with the symbol of the new subtree, which takes
over the parties of the old one. -/
theorem Tree.replace_eq_ok {t u new : Tree} {path : Path} (h : t.replace path new = .ok u) :
    ∃ old, t.get? path = some old ∧ old.symbol = new.symbol ∧
      t.modify? (fun old => new.withParty old.sender old.recipient) path = some u := by
  rw [replace] at h
  split at h
  · exact absurd h (by simp)
  · rename_i old hold
    split at h
    · exact absurd h (by simp)
    · rename_i hsymbol
      split at h
      · rename_i hmodify
        obtain rfl := Except.ok.inj h
        exact ⟨old, hold, not_not.mp hsymbol, hmodify⟩
      · exact absurd h (by simp)

/-- **A node can be replaced by any tree with its symbol.** -/
theorem Tree.exists_replace {t old new : Tree} {path : Path} (hold : t.get? path = some old)
    (hsymbol : new.symbol = old.symbol) : ∃ u, t.replace path new = .ok u := by
  obtain ⟨u, hu⟩ := Tree.exists_modify (f := fun old => new.withParty old.sender old.recipient) hold
  refine ⟨u, ?_⟩
  rw [replace, hold]
  simp only [hsymbol, ne_eq, not_true_eq_false, if_false, hu]

namespace Grammar

variable {g : Grammar}

theorem sameSymbols_set {cs : List Tree} {i : Nat} {c d : Tree} (hc : cs[i]? = some c)
    (hd : d.symbol = c.symbol) : SameSymbols cs (cs.set i d) := by
  obtain ⟨hi, rfl⟩ := List.getElem?_eq_some_iff.mp hc
  have hlength : i < (cs.map (·.symbol)).length := by rwa [List.length_map]
  have hget : (cs.map (·.symbol))[i] = cs[i].symbol := List.getElem_map ..
  rw [SameSymbols, List.map_set, hd, ← hget, List.set_getElem_self]

/-- A valid node with another child of the same symbol. -/
theorem Valid.set_child {t : Tree} (ht : g.Valid t) {i : Nat} {c d : Tree}
    (hc : t.children[i]? = some c) (hd : g.Valid d) (hsymbol : d.symbol = c.symbol) :
    g.Valid { t with children := t.children.set i d } := by
  obtain ⟨symbol, children, sources, sender, recipient, readOnly⟩ := t
  cases symbol with
  | terminal value =>
    obtain rfl : children = [] := ht
    exact rfl
  | slice => exact ht.elim
  | nonTerminal name =>
    obtain ⟨⟨body, hbody, hmatch⟩, hvalid⟩ := ht
    refine ⟨⟨body, hbody, matches_of_sameSymbols (sameSymbols_set hc hsymbol) hmatch⟩, ?_⟩
    refine validAll_iff.mpr fun e he => ?_
    rcases List.mem_or_eq_of_mem_set he with he | rfl
    · exact validAll_iff.mp hvalid e he
    · exact hd

/-- A valid tree with the node at a path changed into a valid one of the same symbol. -/
theorem Valid.modify? {f : Tree → Tree} (hf : ∀ old, g.Valid (f old)) {path : Path} :
    ∀ {t t' : Tree}, (∀ old, t.get? path = some old → (f old).symbol = old.symbol) → g.Valid t →
      t.modify? f path = some t' → g.Valid t' ∧ t'.symbol = t.symbol := by
  induction path with
  | nil =>
    rintro t _ hsymbol ht ⟨⟩
    exact ⟨hf t, hsymbol t rfl⟩
  | cons i path ih =>
    intro t t' hsymbol ht ht'
    obtain ⟨c, d, hc, hd, rfl⟩ := Tree.modify?_cons_eq_some.mp ht'
    have hbelow : ∀ old, c.get? path = some old → (f old).symbol = old.symbol := by
      intro old hold
      refine hsymbol old ?_
      rw [Tree.get?_cons, hc]
      exact hold
    have hcvalid := validAll_iff.mp ht.children c (List.mem_of_getElem? hc)
    obtain ⟨hdvalid, hdsymbol⟩ := ih hbelow hcvalid hd
    exact ⟨ht.set_child hc hdvalid hdsymbol, rfl⟩

/-- **Replacing a subtree by a valid one keeps a tree valid**, and keeps its symbol. -/
theorem Valid.replace {t t' new : Tree} {path : Path} (ht : g.Valid t) (hnew : g.Valid new)
    (h : t.replace path new = .ok t') : g.Valid t' ∧ t'.symbol = t.symbol := by
  obtain ⟨old, hold, hsymbol, hmodify⟩ := Tree.replace_eq_ok h
  refine Valid.modify? (fun _ => valid_withParty.mpr hnew) ?_ ht hmodify
  intro other hother
  rw [hold] at hother
  obtain rfl := Option.some.inj hother
  exact hsymbol.symm

/-- A valid tree with a symbol has a rule for it. -/
theorem Valid.mem_keys {t : Tree} {name : String} (ht : g.Valid t)
    (h : t.symbol = .nonTerminal name) : name ∈ g.rules.keys := by
  obtain ⟨⟨body, hbody, -⟩, -⟩ := (valid_nonTerminal h).mp ht
  exact Dictionary.mem_keys_of_find? hbody

/-! ### Trees of the language -/

/-- **A tree derives from the start symbol.** -/
def DerivesStart (g : Grammar) (t : Tree) : Prop :=
  t.symbol = .nonTerminal g.start ∧ g.Valid t

theorem DerivesStart.stripNestedParties {t : Tree} (h : g.DerivesStart t) :
    g.DerivesStart t.stripNestedParties :=
  ⟨(Tree.symbol_stripParties false t).trans h.1, valid_stripParties t false h.2⟩

theorem DerivesStart.replace {t t' new : Tree} {path : Path} (ht : g.DerivesStart t)
    (hnew : g.Valid new) (h : t.replace path new = .ok t') : g.DerivesStart t' := by
  obtain ⟨hvalid, hsymbol⟩ := ht.2.replace hnew h
  exact ⟨hsymbol.trans ht.1, hvalid⟩

theorem DerivesStart.of_get? {t c : Tree} {path : Path} (ht : g.DerivesStart t)
    (h : t.get? path = some c) : g.Valid c :=
  ht.2.of_get? h

end Grammar

end GrammarFuzzing
