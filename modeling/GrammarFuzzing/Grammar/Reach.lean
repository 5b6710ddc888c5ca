import GrammarFuzzing.Grammar.Basic

/-!
# What can occur below a symbol

`GrammarFuzzing.Grammar.reachable` is the set of names that the rule of a symbol refers to, directly
or through other rules. The symbol itself is among them only if it is recursive.
-/

namespace GrammarFuzzing.Grammar

/-- The names found so far and whatever can be found from pending bodies, the last one first. The
rule of a name is looked up when the name is found, and is pending once, so the number of rules
bounds the rounds. -/
def reachFrom (g : Grammar) : Nat → List String → List Node → Except GrammarError (List String)
  | 0, seen, _ => .ok seen
  | _, seen, [] => .ok seen
  | rounds + 1, seen, body :: pending =>
    let fresh := body.references.eraseDups.filter fun n => !seen.contains n
    match fresh.mapM g.rule with
    | .error e => .error e
    | .ok bodies => reachFrom g rounds (seen ++ fresh) (bodies.reverse ++ pending)

/-- **The names that can occur below a symbol**, in increasing order. -/
def reachable (g : Grammar) (name : String) : Except GrammarError (List String) := do
  let body ← g.rule name
  let found ← g.reachFrom (g.rules.length + 1) [] [body]
  return SortedSet.ofList found

end GrammarFuzzing.Grammar
