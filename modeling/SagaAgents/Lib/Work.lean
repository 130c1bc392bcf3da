/-
  Lib.Work — the work that a set of jobs has left.

  A job takes at most `limit` units of time, and has had `age` of them. Who waits until
  the jobs in front of it are done pays for each unit of its wait with a unit of theirs.

  Proved: `work_le` (what a set has left at most), `work_mono` (fewer jobs have less left),
  `work_tick` (when a job of the set gets older, the set has less left).
-/

import Mathlib.Algebra.Order.BigOperators.Group.Finset

namespace Lib

variable {ι : Type*} {limit : Nat} {age age' : ι → Nat} {jobs jobs' : Finset ι}

def work (limit : Nat) (age : ι → Nat) (jobs : Finset ι) : Nat := ∑ j ∈ jobs, (limit - age j)

theorem work_le : work limit age jobs ≤ limit * jobs.card := by
  calc work limit age jobs ≤ ∑ _j ∈ jobs, limit := Finset.sum_le_sum fun j _ => Nat.sub_le _ _
    _ = jobs.card * limit := Finset.sum_const_nat fun _ _ => rfl
    _ = limit * jobs.card := Nat.mul_comm _ _

theorem work_mono (h : jobs ⊆ jobs') : work limit age jobs ≤ work limit age jobs' :=
  Finset.sum_le_sum_of_subset h

theorem work_tick {j : ι} (hle : ∀ k, age k ≤ age' k) (hj : j ∈ jobs) (hyoung : age j < limit) (holder : age j < age' j) :
    work limit age' jobs < work limit age jobs := by
  apply Finset.sum_lt_sum
  · intro k _
    have := hle k
    omega
  · exact ⟨j, hj, by omega⟩

end Lib
