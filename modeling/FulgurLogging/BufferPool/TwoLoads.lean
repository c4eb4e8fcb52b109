import FulgurLogging.BufferPool.InProgress

/-!
# The two loads of `GetSize`

`GetSize` loads `head_` first and `tail_` after it, and other threads run in between. A `Put`
started there is not counted, and a `Get` started there is. So the value falls behind what is in
the pool, which does no harm, until more `Get`s have been started by the second load than `Put`s
by the first. Then the difference is negative, and an almost empty pool looks almost full.
-/

namespace FulgurLogging

open Census Ring Transition

namespace InProgress

variable {size : ℕ} {β T : Type*}

variable [NeZero size]

variable [DecidableEq T]

/-- On an empty pool of 8192 slots, a buffer passed through between the loads makes `GetSize`
return 8191. -/
example : (getSizeLoads 8192 0 1).toNat = 8191 := by decide

end InProgress

end FulgurLogging
