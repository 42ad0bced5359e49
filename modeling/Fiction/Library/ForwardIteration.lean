import Mathlib.Data.List.Basic

/-!
# Loops over forward iterators

A loop `for (it = begin; it != end; ++it)` visits the values of the iterator until it equals the
end. `Visits` relates a start to the values visited; there is no such list if the loop does not
terminate.
-/

namespace Fiction

/-- The loop from a start to `stop` terminates and visits the values of the list. -/
inductive Visits {α : Type*} (next : α → α) (stop : α) : α → List α → Prop
  | done : Visits next stop stop []
  | step {c : α} {l : List α} : c ≠ stop → Visits next stop (next c) l → Visits next stop c (c :: l)

namespace Visits

variable {α : Type*} {next : α → α} {stop : α}

/-- A loop does not terminate if an invariant keeps it from its end. -/
theorem stop_of_invariant {I : α → Prop} (hI : ∀ c, I c → I (next c)) {c : α} {l : List α}
    (h : Visits next stop c l) (hc : I c) : I stop := by
  induction h with
  | done => exact hc
  | step _ _ ih => exact ih (hI _ hc)

end Visits
end Fiction
