import Fiction.PhysicalDesign.Extension
import Fiction.PhysicalDesign.SolverStates

/-!
# Complete solver states

Every stored solver state implies the whole instance for its aspect ratio, tracked by its literals.
A model of a reused solver is therefore a model of the instance from scratch, apart from those
assumptions that are only made for the tiles of the check point.
-/

namespace Fiction.Exact

variable {S : SpecificationNetwork} {p : ExactParams} {h : SmtHandler} {ar : AspectRatio}

/-- The assertions of the state make up the instance for `ar`. -/
def CompleteState (S : SpecificationNetwork) (p : ExactParams) (ar : AspectRatio)
    (st : SolverState) : Prop :=
  ∀ v, st.assertions v →
    Generated S p (freshCheckPoint ar) v.vars (v.litE st.lit.e) (v.litS st.lit.s)

/-- All stored states are complete and belong to layouts that are long enough. -/
structure CompleteTree (S : SpecificationNetwork) (p : ExactParams) (h : SmtHandler) : Prop where
  complete : ∀ key st, h.solverTree key = some st → CompleteState S p key st
  deep : ∀ key st, h.solverTree key = some st → Deep S p key

theorem completeTree_init : CompleteTree S p .init where
  complete _ _ h := by cases h
  deep _ _ h := by cases h

theorem extends_east {x y : ℕ} {s : Bool} {e : Bool} (hx : x + 1 = ar.x) (hy : y = ar.y) :
    Extends ⟨x, y⟩ ⟨ar, column ar.x ar.y, column x ar.y⟩ false s e s where
  x_le := show x ≤ ar.x by omega
  y_le := hy.le
  added t ht := by
    obtain ⟨heq, htx, hty⟩ := (@mem_allTiles ar t).mp ht
    by_cases hlast : t.x = ar.x
    · exact .inl (List.mem_map.mpr ⟨t.y, List.mem_range.mpr (Nat.lt_succ_of_le hty), by
        rw [heq, ← hlast]; rfl⟩)
    · exact .inr (mem_allTiles.mpr ⟨heq, show t.x ≤ x by omega, hty.trans hy.ge⟩)
  touched t ht := by
    obtain ⟨heq, htx, hty⟩ := (@mem_allTiles ar t).mp ht
    have hcol : ∀ i, t.x = i → t ∈ column i ar.y := fun i hi =>
      List.mem_map.mpr ⟨t.y, List.mem_range.mpr (Nat.lt_succ_of_le hty), by rw [heq, ← hi]; rfl⟩
    by_cases hlast : t.x = ar.x
    · exact .inl (List.mem_append_left _ (hcol _ hlast))
    · by_cases hprev : t.x = x
      · exact .inl (List.mem_append_right _ (hcol _ hprev))
      · exact .inr ⟨mem_allTiles.mpr ⟨heq, show t.x ≤ x by omega, hty.trans hy.ge⟩,
          fun h => absurd h hprev, fun _ => ⟨hy.symm, id⟩⟩

theorem extends_south {x y : ℕ} {s : Bool} {e : Bool} (hx : x = ar.x) (hy : y + 1 = ar.y) :
    Extends ⟨x, y⟩ ⟨ar, row ar.x ar.y, row ar.x y⟩ e false e s where
  x_le := hx.le
  y_le := show y ≤ ar.y by omega
  added t ht := by
    obtain ⟨heq, htx, hty⟩ := (@mem_allTiles ar t).mp ht
    by_cases hlast : t.y = ar.y
    · exact .inl (List.mem_map.mpr ⟨t.x, List.mem_range.mpr (Nat.lt_succ_of_le htx), by
        rw [heq, ← hlast]; rfl⟩)
    · exact .inr (mem_allTiles.mpr ⟨heq, htx.trans hx.ge, show t.y ≤ y by omega⟩)
  touched t ht := by
    obtain ⟨heq, htx, hty⟩ := (@mem_allTiles ar t).mp ht
    have hrow : ∀ j, t.y = j → t ∈ row ar.x j := fun j hj =>
      List.mem_map.mpr ⟨t.x, List.mem_range.mpr (Nat.lt_succ_of_le htx), by rw [heq, ← hj]; rfl⟩
    by_cases hlast : t.y = ar.y
    · exact .inl (List.mem_append_left _ (hrow _ hlast))
    · by_cases hprev : t.y = y
      · exact .inl (List.mem_append_right _ (hrow _ hprev))
      · exact .inr ⟨mem_allTiles.mpr ⟨heq, htx.trans hx.ge, show t.y ≤ y by omega⟩,
          fun _ => ⟨hx.symm, id⟩, fun h => absurd h hprev⟩

section Fetch

variable (ht : SoundTree S p h) (hc : CompleteTree S p h) (hS : (p.layout ar).Small)
  (hret : p.technologySpecifics = .topolinano → Forward S p)
include ht hc hS hret

theorem CompleteTree.fetchSolver :
    CompleteState S p ar (generateSmtInstance S p (fetchSolver h ar).1) := by
  have hx : ar.x < 2 ^ 31 - 1 := hS.1
  have hy : ar.y < 2 ^ 31 - 1 := hS.2
  cases hwest : h.solverTree ⟨pred31 ar.x, ar.y⟩ with
  | some st =>
    have hpred := pred31_of_lt (by omega) (ht.x_lt _ st hwest)
    simp only [Exact.fetchSolver, hwest]
    rintro v ⟨⟨hst, hoff⟩, hg⟩
    have hold := hc.complete _ st hwest v hst
    rw [hoff] at hold
    exact (extends_east hpred rfl).generated hS hret (hc.deep _ st hwest) hold hg
  | none =>
    cases hnorth : h.solverTree ⟨ar.x, pred31 ar.y⟩ with
    | some st =>
      have hpred := pred31_of_lt (by omega) (ht.y_lt _ st hnorth)
      simp only [Exact.fetchSolver, hwest, hnorth]
      rintro v ⟨⟨hst, hoff⟩, hg⟩
      have hold := hc.complete _ st hnorth v hst
      rw [hoff] at hold
      exact (extends_south rfl hpred).generated hS hret (hc.deep _ st hnorth) hold hg
    | none =>
      simp only [Exact.fetchSolver, hwest, hnorth]
      rintro v ⟨-, hg⟩
      exact hg

theorem CompleteTree.examined (hdeep : Deep S p ar) : CompleteTree S p (examined S p h ar) where
  complete key st hk := by
    rcases solverTree_examined hk with ⟨rfl, rfl⟩ | hold
    · exact hc.fetchSolver ht hS hret
    · exact hc.complete key st hold
  deep key st hk := by
    rcases solverTree_examined hk with ⟨rfl, -⟩ | hold
    · exact hdeep
    · exact hc.deep key st hold

/-- A model of the query is one of the instance, and of the assumptions of the check point. -/
theorem CompleteTree.model {v : Valuation} (hv : query S p (Exact.fetchSolver h ar).1 v) :
    CoreModel S p ar v.vars ∧ Assumed S p (Exact.fetchSolver h ar).1.cp v.vars := by
  obtain ⟨hgen, hs, he, ha⟩ := hv
  have hg := hc.fetchSolver ht hS hret v hgen
  have hx : ar.x < 2 ^ 31 - 1 := hS.1
  have hy : ar.y < 2 ^ 31 - 1 := hS.2
  have har := (@SoundTree.fetchSolver _ _ _ ar ht (by omega) (by omega)).ar_eq
  refine ⟨⟨?_, preventInsufficiencies_assumptions_congr har ha.preventInsufficiencies⟩, ha⟩
  have hlit : (generateSmtInstance S p (Exact.fetchSolver h ar).1).lit =
      (Exact.fetchSolver h ar).1.state.lit := rfl
  rwa [hlit, he, hs] at hg

end Fetch

end Fiction.Exact
