import Fiction.PhysicalDesign.Growth

/-!
# Reused solver states

Every stored solver state only makes assertions that hold in the models from scratch of all larger
layouts, once the literals of the borders that moved are off. Hence an instance that is solved
incrementally is satisfiable whenever it is satisfiable from scratch.
-/

namespace Fiction.Exact

/-- The assertions of a state that was stored for `key` hold for all larger layouts. `deadE` and
`deadS` are the literals that have been switched off. -/
structure SoundState (S : SpecificationNetwork) (p : ExactParams) (key : AspectRatio) (lc : ℕ)
    (st : SolverState) (deadE deadS : List ℕ) : Prop where
  e_lt : st.lit.e < lc
  s_lt : st.lit.s < lc
  e_alive : st.lit.e ∉ deadE
  s_alive : st.lit.s ∉ deadS
  deadE_lt : ∀ k ∈ deadE, k < lc
  deadS_lt : ∀ k ∈ deadS, k < lc
  assertions : ∀ ar v litE litS, FreshModel S p ar v → Sufficient S p ar v →
    (p.layout ar).Small → key.x ≤ ar.x → key.y ≤ ar.y →
    (litE st.lit.e = true → ar.x = key.x) → (litS st.lit.s = true → ar.y = key.y) →
    (∀ k ∈ deadE, litE k = false) → (∀ k ∈ deadS, litS k = false) →
      st.assertions ⟨v, litE, litS⟩

/-- All stored states are sound, and their keys fit into the fields of a coordinate. -/
structure SoundTree (S : SpecificationNetwork) (p : ExactParams) (h : SmtHandler) : Prop where
  sound : ∀ key st, h.solverTree key = some st → ∃ deadE deadS, SoundState S p key h.lc st deadE deadS
  x_lt : ∀ key st, h.solverTree key = some st → key.x < 2 ^ 31 - 1
  y_lt : ∀ key st, h.solverTree key = some st → key.y < 2 ^ 31 - 1

section States

variable {S : SpecificationNetwork} {p : ExactParams} {h : SmtHandler} {ar : AspectRatio}

theorem soundTree_init : SoundTree S p .init where
  sound _ _ h := by cases h
  x_lt _ _ h := by cases h
  y_lt _ _ h := by cases h

theorem pred31_of_lt {x : ℕ} (hx : x < 2 ^ 31) (h : pred31 x < 2 ^ 31 - 1) : pred31 x + 1 = x := by
  unfold pred31 CoordinateLayout.toField at *
  omega

theorem mem_column {x y : ℕ} (hx : x ≤ ar.x) (hy : y ≤ ar.y) {t : Tile} (ht : t ∈ column x y) :
    t ∈ allTiles ar := by
  obtain ⟨j, hj, rfl⟩ := List.mem_map.mp ht
  rw [List.mem_range] at hj
  exact mem_allTiles.mpr ⟨rfl, hx, show j ≤ ar.y by omega⟩

theorem mem_row {x y : ℕ} (hx : x ≤ ar.x) (hy : y ≤ ar.y) {t : Tile} (ht : t ∈ row x y) :
    t ∈ allTiles ar := by
  obtain ⟨i, hi, rfl⟩ := List.mem_map.mp ht
  rw [List.mem_range] at hi
  exact mem_allTiles.mpr ⟨rfl, show i ≤ ar.x by omega, hy⟩

theorem not_mem_cons_of_lt {k lc : ℕ} {dead : List ℕ} (hk : k < lc) (hd : ∀ k ∈ dead, k < lc) :
    lc ∉ k :: dead ∧ ∀ j ∈ k :: dead, j < lc + 1 := by
  have hlt : ∀ j ∈ k :: dead, j < lc := fun j hj =>
    (List.mem_cons.mp hj).elim (fun heq => heq ▸ hk) (hd j)
  exact ⟨fun hmem => lt_irrefl _ (hlt lc hmem), fun j hj => Nat.lt_succ_of_lt (hlt j hj)⟩

theorem SoundState.growEast {key : AspectRatio} {lc : ℕ} {st : SolverState} {deadE deadS : List ℕ}
    (hs : SoundState S p key lc st deadE deadS) (hx : key.x + 1 = ar.x) (hy : key.y = ar.y) :
    SoundState S p ar (lc + 1)
      ⟨fun v => st.assertions v ∧ v.litE st.lit.e = false, ⟨lc, st.lit.s⟩⟩
      (st.lit.e :: deadE) deadS where
  e_lt := Nat.lt_succ_self lc
  s_lt := Nat.lt_succ_of_lt hs.s_lt
  e_alive := (not_mem_cons_of_lt hs.e_lt hs.deadE_lt).1
  s_alive := hs.s_alive
  deadE_lt := (not_mem_cons_of_lt hs.e_lt hs.deadE_lt).2
  deadS_lt k hk := Nat.lt_succ_of_lt (hs.deadS_lt k hk)
  assertions ar' v litE litS hv hsuf hS hx' hy' _ hon hdE hdS := by
    have hoff : litE st.lit.e = false := hdE _ List.mem_cons_self
    refine ⟨hs.assertions ar' v litE litS hv hsuf hS (by omega) (by omega) (fun h => ?_)
      (fun h => hy ▸ hon h) (fun k hk => hdE k (List.mem_cons_of_mem _ hk)) hdS, hoff⟩
    rw [hoff] at h
    cases h

theorem SoundState.growSouth {key : AspectRatio} {lc : ℕ} {st : SolverState}
    {deadE deadS : List ℕ} (hs : SoundState S p key lc st deadE deadS) (hx : key.x = ar.x)
    (hy : key.y + 1 = ar.y) :
    SoundState S p ar (lc + 1)
      ⟨fun v => st.assertions v ∧ v.litS st.lit.s = false, ⟨st.lit.e, lc⟩⟩
      deadE (st.lit.s :: deadS) where
  e_lt := Nat.lt_succ_of_lt hs.e_lt
  s_lt := Nat.lt_succ_self lc
  e_alive := hs.e_alive
  s_alive := (not_mem_cons_of_lt hs.s_lt hs.deadS_lt).1
  deadE_lt k hk := Nat.lt_succ_of_lt (hs.deadE_lt k hk)
  deadS_lt := (not_mem_cons_of_lt hs.s_lt hs.deadS_lt).2
  assertions ar' v litE litS hv hsuf hS hx' hy' hon _ hdE hdS := by
    have hoff : litS st.lit.s = false := hdS _ List.mem_cons_self
    refine ⟨hs.assertions ar' v litE litS hv hsuf hS (by omega) (by omega) (fun h => hx ▸ hon h)
      (fun h => ?_) hdE (fun k hk => hdS k (List.mem_cons_of_mem _ hk)), hoff⟩
    rw [hoff] at h
    cases h

theorem soundState_fresh (lc : ℕ) :
    SoundState S p ar (lc + 1) ⟨fun _ => True, ⟨lc, lc⟩⟩ [] [] where
  e_lt := Nat.lt_succ_self lc
  s_lt := Nat.lt_succ_self lc
  e_alive := List.not_mem_nil
  s_alive := List.not_mem_nil
  deadE_lt _ h := absurd h List.not_mem_nil
  deadS_lt _ h := absurd h List.not_mem_nil
  assertions _ _ _ _ _ _ _ _ _ _ _ _ _ := trivial

/-- What the solver for `ar` starts from: a sound state, and a check point with tiles of `ar`. -/
structure Fetched (S : SpecificationNetwork) (p : ExactParams) (h : SmtHandler) (ar : AspectRatio)
    (c : SolverCheckPoint) : Prop where
  ar_eq : c.cp.ar = ar
  within : Within c.cp ar
  sound : ∃ deadE deadS, SoundState S p ar (h.lc + 1) c.state deadE deadS

theorem SoundTree.fetchSolver (ht : SoundTree S p h) (hx : ar.x < 2 ^ 31) (hy : ar.y < 2 ^ 31) :
    Fetched S p h ar (fetchSolver h ar).1 := by
  cases hwest : h.solverTree ⟨pred31 ar.x, ar.y⟩ with
  | some st =>
    obtain ⟨deadE, deadS, hs⟩ := ht.sound _ st hwest
    have hpred := pred31_of_lt hx (ht.x_lt _ st hwest)
    simp only [Exact.fetchSolver, hwest]
    exact ⟨rfl, ⟨le_rfl, le_rfl, fun t => mem_column le_rfl le_rfl,
      fun t => mem_column (by omega) le_rfl⟩, _, _, hs.growEast hpred rfl⟩
  | none =>
    cases hnorth : h.solverTree ⟨ar.x, pred31 ar.y⟩ with
    | some st =>
      obtain ⟨deadE, deadS, hs⟩ := ht.sound _ st hnorth
      have hpred := pred31_of_lt hy (ht.y_lt _ st hnorth)
      simp only [Exact.fetchSolver, hwest, hnorth]
      exact ⟨rfl, ⟨le_rfl, le_rfl, fun t => mem_row le_rfl le_rfl,
        fun t => mem_row le_rfl (by omega)⟩, _, _, hs.growSouth rfl hpred⟩
    | none =>
      simp only [Exact.fetchSolver, hwest, hnorth]
      exact ⟨rfl, ⟨le_rfl, le_rfl, fun _ ht => ht, fun _ ht => absurd ht List.not_mem_nil⟩,
        _, _, soundState_fresh _⟩

theorem solverTree_of_fetchSolver {key : AspectRatio} {st : SolverState}
    (hk : (fetchSolver h ar).2 key = some st) : h.solverTree key = some st := by
  have hupd : ∀ k : AspectRatio, Function.update h.solverTree k none key = some st →
      h.solverTree key = some st := by
    intro k hk
    by_cases heq : key = k
    · rw [heq, Function.update_self] at hk
      cases hk
    · rwa [Function.update_of_ne heq] at hk
  unfold Exact.fetchSolver at hk
  dsimp only at hk
  split at hk
  · exact hupd _ hk
  · split at hk
    · exact hupd _ hk
    · exact hk

theorem Fetched.generate {c : SolverCheckPoint} (hf : Fetched S p h ar c) :
    ∃ deadE deadS, SoundState S p ar (h.lc + 1) (generateSmtInstance S p c) deadE deadS := by
  obtain ⟨deadE, deadS, hs⟩ := hf.sound
  refine ⟨deadE, deadS, ⟨hs.e_lt, hs.s_lt, hs.e_alive, hs.s_alive, hs.deadE_lt, hs.deadS_lt, ?_⟩⟩
  intro ar' v litE litS hv hsuf hS hx hy he hs' hdE hdS
  refine ⟨hs.assertions ar' v litE litS hv hsuf hS hx hy he hs' hdE hdS, ?_⟩
  have hw : Within c.cp ar' :=
    ⟨hf.ar_eq ▸ hx, hf.ar_eq ▸ hy, hf.within.added, hf.within.updated⟩
  exact hw.generated hS ⟨fun h => hf.ar_eq ▸ he h, fun h => hf.ar_eq ▸ hs' h⟩ hsuf hv.generated

/-- What is assumed about tiles that lack neighbours does not depend on the check point. -/
theorem preventInsufficiencies_assumptions_congr {cp cp' : CheckPoint} {v : Assignment}
    (har : cp.ar = cp'.ar) (hv : preventInsufficiencies S p cp v .assumptions) :
    preventInsufficiencies S p cp' v .assumptions := fun t ht _ hsink => by
  obtain ⟨ar', added, updated⟩ := cp'
  obtain rfl : cp.ar = ar' := har
  have hsink' : (if ((layout p cp).isAtEasternBorder t || (layout p cp).isAtSouthernBorder t) = true
      then Sink.assumptions else .solver) = .assumptions := hsink
  have hborder : ((layout p cp).isAtEasternBorder t || (layout p cp).isAtSouthernBorder t) =
      true := by
    by_contra hb
    rw [if_neg hb] at hsink'
    cases hsink'
  exact hv t ht (by rw [hborder]; rfl) hsink'

theorem Fetched.assumed {c : SolverCheckPoint} (hf : Fetched S p h ar c) {v : Assignment}
    (hv : Assumed S p (freshCheckPoint ar) v) : Assumed S p c.cp v := by
  obtain ⟨rfl, hw, -⟩ := hf
  obtain ⟨hcol, hrow, hwave⟩ := hv.utilizeHierarchicalInformation
  exact ⟨hv.technologySpecificConstraints,
    @preventInsufficiencies_assumptions_congr _ _ (freshCheckPoint c.cp.ar) c.cp _ rfl
      hv.preventInsufficiencies,
    hcol, hrow, fun hc hi hb n hn t ht => hwave hc hi hb n hn t (hw.added t ht)⟩

theorem scratch_iff {v : Valuation} :
    scratch S p ar v ↔ FreshModel S p ar v.vars ∧ v.litE 0 = true ∧ v.litS 0 = true := by
  have hcp : fetchSolver .init ar = (⟨⟨fun _ => True, ⟨0, 0⟩⟩, freshCheckPoint ar⟩, fun _ => none) :=
    rfl
  rw [scratch, hcp]
  constructor
  · rintro ⟨⟨-, hg⟩, hs, he, ha⟩
    simp only at hg hs he
    rw [hs, he] at hg
    exact ⟨⟨hg, ha⟩, he, hs⟩
  · rintro ⟨⟨hg, ha⟩, he, hs⟩
    refine ⟨⟨trivial, ?_⟩, hs, he, ha⟩
    simp only
    rwa [hs, he]

theorem satisfiable_scratch_iff :
    Satisfiable (scratch S p ar) ↔ ∃ v, FreshModel S p ar v := by
  constructor
  · rintro ⟨v, hv⟩
    exact ⟨v.vars, (scratch_iff.mp hv).1⟩
  · rintro ⟨v, hv⟩
    exact ⟨⟨v, fun _ => true, fun _ => true⟩, scratch_iff.mpr ⟨hv, rfl, rfl⟩⟩

theorem Fetched.satisfiable {c : SolverCheckPoint} (hf : Fetched S p h ar c)
    (hS : (p.layout ar).Small) {v : Assignment} (hv : FreshModel S p ar v)
    (hsuf : Sufficient S p ar v) : Satisfiable (query S p c) := by
  obtain ⟨deadE, deadS, hs⟩ := hf.generate
  refine ⟨⟨v, fun k => k = c.state.lit.e, fun k => k = c.state.lit.s⟩, ?_, decide_eq_true rfl,
    decide_eq_true rfl, hf.assumed hv.assumed⟩
  refine hs.assertions ar v _ _ hv hsuf hS le_rfl le_rfl (fun _ => rfl) (fun _ => rfl) ?_ ?_
  · exact fun k hk => decide_eq_false fun heq => hs.e_alive (heq ▸ hk)
  · exact fun k hk => decide_eq_false fun heq => hs.s_alive (heq ▸ hk)

/-- A stored state is extended for `ar`. -/
def Reuses (h : SmtHandler) (ar : AspectRatio) : Prop :=
  h.solverTree ⟨pred31 ar.x, ar.y⟩ ≠ none ∨ h.solverTree ⟨ar.x, pred31 ar.y⟩ ≠ none

theorem satisfiable_query_of_not_reuses (hr : ¬ Reuses h ar) {v : Assignment}
    (hv : FreshModel S p ar v) : Satisfiable (query S p (Exact.fetchSolver h ar).1) := by
  unfold Reuses at hr
  push Not at hr
  obtain ⟨hwest, hnorth⟩ := hr
  refine ⟨⟨v, fun _ => true, fun _ => true⟩, ?_⟩
  simp only [Exact.fetchSolver, hwest, hnorth]
  exact ⟨⟨trivial, hv.generated⟩, rfl, rfl, hv.assumed⟩

/-- The handler after the instance for `ar` has been refuted and its state been stored. -/
def examined (S : SpecificationNetwork) (p : ExactParams) (h : SmtHandler) (ar : AspectRatio) :
    SmtHandler :=
  { update h ar with
    solverTree := Function.update (update h ar).solverTree ar
      (some (generateSmtInstance S p (Exact.fetchSolver h ar).1)) }

theorem solverTree_examined {key : AspectRatio} {st : SolverState}
    (hk : (examined S p h ar).solverTree key = some st) :
    key = ar ∧ st = generateSmtInstance S p (Exact.fetchSolver h ar).1 ∨
      h.solverTree key = some st := by
  change Function.update (update h ar).solverTree ar _ key = some st at hk
  by_cases heq : key = ar
  · rw [heq, Function.update_self] at hk
    exact .inl ⟨heq, (Option.some.inj hk).symm⟩
  · rw [Function.update_of_ne heq] at hk
    exact .inr (solverTree_of_fetchSolver hk)

theorem SoundTree.examined (ht : SoundTree S p h) (hx : ar.x < 2 ^ 31 - 1)
    (hy : ar.y < 2 ^ 31 - 1) : SoundTree S p (examined S p h ar) := by
  have hf := @SoundTree.fetchSolver _ _ _ ar ht (by omega) (by omega)
  refine ⟨fun key st hk => ?_, fun key st hk => ?_, fun key st hk => ?_⟩
  · rcases solverTree_examined hk with ⟨rfl, rfl⟩ | hold
    · exact hf.generate
    · obtain ⟨deadE, deadS, hs⟩ := ht.sound key st hold
      exact ⟨deadE, deadS, ⟨Nat.lt_succ_of_lt hs.e_lt, Nat.lt_succ_of_lt hs.s_lt, hs.e_alive,
        hs.s_alive, fun k hk => Nat.lt_succ_of_lt (hs.deadE_lt k hk),
        fun k hk => Nat.lt_succ_of_lt (hs.deadS_lt k hk), hs.assertions⟩⟩
  · rcases solverTree_examined hk with ⟨rfl, -⟩ | hold
    · exact hx
    · exact ht.x_lt key st hold
  · rcases solverTree_examined hk with ⟨rfl, -⟩ | hold
    · exact hy
    · exact ht.y_lt key st hold

end States
end Fiction.Exact
