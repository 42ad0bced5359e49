import Mathlib.Order.Basic

/-!
# Searching for a cheapest job in parallel

Workers take jobs and either drop them or publish them as the best one so far. If no good job is
dropped unless the best one is at most as expensive, then a good job that has been handed out is
beaten or still held by a worker. So the best job is a cheapest one when no job is held any more.
-/

namespace Fiction

structure ParallelSearch (ω ι : Type*) where
  taken : ι → Prop
  best : Option ι
  held : ω → Option ι

namespace ParallelSearch

variable {ω ι κ : Type*} [Preorder κ] (cost : ι → κ) (Good : ι → Prop)
  {s s' : ParallelSearch ω ι} {w : ω} {j : ι}

/-- The best job costs at most `n`. -/
def Beaten (best : Option ι) (n : κ) : Prop := ∃ b, best = some b ∧ cost b ≤ n

def OthersHold (s s' : ParallelSearch ω ι) (w : ω) : Prop := ∀ w', w' ≠ w → s'.held w' = s.held w'

/-- What a worker can do. -/
inductive Move (s s' : ParallelSearch ω ι) (w : ω) : Prop
  | idle (held : s'.held w = s.held w) (taken : s'.taken = s.taken) (best : s'.best = s.best)
  | take (j : ι) (free : s.held w = none) (held : s'.held w = some j)
      (taken : ∀ j', s'.taken j' → s.taken j' ∨ j' = j) (best : s'.best = s.best)
  | drop (j : ι) (held : s.held w = some j) (beaten : Good j → Beaten cost s.best (cost j))
      (taken : s'.taken = s.taken) (best : s'.best = s.best)
  | publish (j : ι) (held : s.held w = some j) (good : Good j)
      (cheaper : ∀ b, s.best = some b → cost j < cost b)
      (taken : s'.taken = s.taken) (best : s'.best = some j)

/-- The best job is good, and a good job that has been taken is beaten or held. -/
structure Covered (s : ParallelSearch ω ι) : Prop where
  best : ∀ b, s.best = some b → Good b
  taken : ∀ j, s.taken j → Good j → Beaten cost s.best (cost j) ∨ ∃ w, s.held w = some j

variable {cost Good}

theorem Beaten.mono {best : Option ι} {m n : κ} (h : Beaten cost best m) (hmn : m ≤ n) :
    Beaten cost best n := by
  obtain ⟨b, hb, hle⟩ := h
  exact ⟨b, hb, hle.trans hmn⟩

theorem Move.beaten {n : κ} (h : Move cost Good s s' w) (hb : Beaten cost s.best n) :
    Beaten cost s'.best n := by
  cases h with
  | idle _ _ best => rwa [best]
  | take _ _ _ _ best => rwa [best]
  | drop _ _ _ _ best => rwa [best]
  | publish j _ _ cheaper _ best =>
    obtain ⟨b, hb, hle⟩ := hb
    exact ⟨j, best, (cheaper b hb).le.trans hle⟩

theorem Move.covered (h : Move cost Good s s' w) (hothers : OthersHold s s' w)
    (hs : Covered cost Good s) : Covered cost Good s' := by
  have hkept : ∀ j, (Beaten cost s.best (cost j) ∨ ∃ w, s.held w = some j) →
      (s.held w = some j → Beaten cost s'.best (cost j) ∨ s'.held w = some j) →
      Beaten cost s'.best (cost j) ∨ ∃ w, s'.held w = some j := by
    rintro j (hb | ⟨w', hw'⟩) hown
    · exact .inl (h.beaten hb)
    · by_cases heq : w' = w
      · subst heq
        exact (hown hw').imp_right fun hw => ⟨w', hw⟩
      · exact .inr ⟨w', (hothers w' heq).trans hw'⟩
  cases h with
  | idle held taken best =>
    refine ⟨fun b hb => hs.best b (best ▸ hb), fun j hj hg => ?_⟩
    rw [taken] at hj
    exact hkept j (hs.taken j hj hg) fun hw => .inr (held.trans hw)
  | take j₀ free held taken best =>
    refine ⟨fun b hb => hs.best b (best ▸ hb), fun j hj hg => ?_⟩
    rcases taken j hj with hj | rfl
    · refine hkept j (hs.taken j hj hg) fun hw => ?_
      rw [free] at hw
      cases hw
    · exact .inr ⟨w, held⟩
  | drop j₀ held beaten taken best =>
    refine ⟨fun b hb => hs.best b (best ▸ hb), fun j hj hg => ?_⟩
    rw [taken] at hj
    refine hkept j (hs.taken j hj hg) fun hw => .inl ?_
    cases held.symm.trans hw
    rw [best]
    exact beaten hg
  | publish j₀ held good _ taken best =>
    refine ⟨fun b hb => ?_, fun j hj hg => ?_⟩
    · cases best.symm.trans hb
      exact good
    · rw [taken] at hj
      refine hkept j (hs.taken j hj hg) fun hw => .inl ?_
      cases held.symm.trans hw
      exact ⟨j₀, best, le_rfl⟩

theorem Covered.beaten_of_free (hs : Covered cost Good s) (hfree : ∀ w, s.held w = none)
    (hj : s.taken j) (hg : Good j) : Beaten cost s.best (cost j) := by
  rcases hs.taken j hj hg with hb | ⟨w, hw⟩
  · exact hb
  · rw [hfree w] at hw
    cases hw

section Cheapest

variable (cost Good)

/-- A good job that costs no more than any other one, or nothing if there is none. -/
def Cheapest (best : Option ι) : Prop :=
  match best with
  | some b => Good b ∧ ∀ j, Good j → cost b ≤ cost j
  | none => ∀ j, ¬ Good j

variable {cost Good}

theorem Covered.cheapest (hs : Covered cost Good s)
    (hbeaten : ∀ j, Good j → Beaten cost s.best (cost j)) : Cheapest cost Good s.best := by
  unfold Cheapest
  cases hbest : s.best with
  | none =>
    intro j hj
    obtain ⟨b, hb, -⟩ := hbeaten j hj
    rw [hbest] at hb
    cases hb
  | some b =>
    refine ⟨hs.best b hbest, fun j hj => ?_⟩
    obtain ⟨b', hb', hle⟩ := hbeaten j hj
    cases hbest.symm.trans hb'
    exact hle

theorem Cheapest.exists_of_good {best : Option ι} (h : Cheapest cost Good best) (hj : Good j) :
    ∃ b, best = some b ∧ Good b ∧ ∀ j, Good j → cost b ≤ cost j := by
  cases best with
  | none => exact absurd hj (h j)
  | some b => exact ⟨b, rfl, h⟩

end Cheapest

theorem Cheapest.map_cost_eq_iff {ι' κ' : Type*} [PartialOrder κ'] {cost : ι' → κ'}
    {Good : ι' → Prop} {first : ι'} {best best' : Option ι'}
    (hfirst : ∀ j, Good j → cost first ≤ cost j) (h : Cheapest cost Good best)
    (h' : Cheapest cost (fun j => Good j ∧ j ≠ first) best') :
    best'.map cost = best.map cost ↔
      (Good first → ∃ j, j ≠ first ∧ cost j = cost first ∧ Good j) := by
  constructor
  · intro heq hg
    obtain ⟨b, rfl, hb, hle⟩ := h.exists_of_good hg
    obtain ⟨b', rfl, hcost⟩ := Option.map_eq_some_iff.mp heq
    obtain ⟨⟨hb', hne⟩, -⟩ := h'
    exact ⟨b', hne, hcost.trans (le_antisymm (hle first hg) (hfirst b hb)), hb'⟩
  · intro hex
    by_cases hg : Good first
    · obtain ⟨j, hne, hcost, hj⟩ := hex hg
      obtain ⟨b, rfl, hb, hle⟩ := h.exists_of_good hg
      obtain ⟨b', rfl, hb', hle'⟩ := h'.exists_of_good (j := j) ⟨hj, hne⟩
      have hb₁ : cost b = cost first := le_antisymm (hle first hg) (hfirst b hb)
      have hb₂ : cost b' = cost first :=
        le_antisymm ((hle' j ⟨hj, hne⟩).trans hcost.le) (hfirst b' hb'.1)
      exact congrArg some (hb₂.trans hb₁.symm)
    · have hne : ∀ j, Good j → j ≠ first := fun j hj heq => hg (heq ▸ hj)
      cases best with
      | none =>
        cases best' with
        | none => rfl
        | some b' => exact absurd h'.1.1 (h b')
      | some b =>
        obtain ⟨hb, hle⟩ := h
        obtain ⟨b', rfl, hb', hle'⟩ := h'.exists_of_good (j := b) ⟨hb, hne b hb⟩
        exact congrArg some (le_antisymm (hle' b ⟨hb, hne b hb⟩) (hle b' hb'.1))

end ParallelSearch

end Fiction
