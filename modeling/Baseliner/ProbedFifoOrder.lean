import Baseliner.ProbedClient

/-! The order of the records on the FIFO of daemon mode. `client_write_fifo` first sends what
is queued and stops at a write that fails, but it tries the new record all the same. -/

namespace Baseliner.ProbedFifoOrder

open GuardedRuns ProbedClient

variable {ok : Nat → Bool} {f : Fifo} {r : ResFifo} {submitted : List ResFifo}

/-- What a flush leaves of a queue, when the next write has number `n`. -/
def unsent (ok : Nat → Bool) : Nat → List ResFifo → List ResFifo
  | _, [] => []
  | n, q :: qs => if ok n then unsent ok (n + 1) qs else q :: qs

structure Delivered (f : Fifo) (submitted : List ResFifo) : Prop where
  order : f.written ++ f.queue = submitted
  count : f.countClientFifoq = f.queue.length

end Baseliner.ProbedFifoOrder
