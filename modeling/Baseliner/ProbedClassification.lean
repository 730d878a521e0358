import Mathlib.Algebra.Order.Ring.Int
import Baseliner.ProbedClient

/-! The result of a completed probe. `client_res_update` takes three differences, overwrites
the state with what it finds wrong, and cuts the seconds of the round trip to 32 bits before
it looks whether they are too many. -/

namespace Baseliner.ProbedClassification

open ListSearch ProbedTime ProbedClient

variable {r : Res}

structure NormalStamps (r : Res) : Prop where
  t1 : r.t1.Normal
  t2 : r.t2.Normal
  t3 : r.t3.Normal
  t4 : r.t4.Normal

section Update

variable {env : Env} {a : Addr} {d : Data} {ts : Option Ts} {dscp : Int} {now : Ts} {c : Client}
  {pre post : List Msess} {s : Msess} {newer older : List Res}

end Update

end Baseliner.ProbedClassification
