import Fiction.Library.TransitionSystem
import Fiction.PhysicalDesign.InverseLevels
import Fiction.PhysicalDesign.OrthogonalPlacement
import Mathlib.Order.Bounds.Basic

/-!
# Delays of majority gates

`majority_buffer` compares the fan-ins of a node by the number of majority gates on the paths that
lead to them, and returns how many delays each fan-in lacks. It enumerates all paths, but no path
that starts in a constant. A recursion that runs out of fuel, a failed assertion and an overflow of
a 32-bit loop counter are `none`.
-/

namespace Fiction

namespace MajorityBuffer

open TechnologyNetwork Orthogonal SpecificationNetwork LongestPaths

section Definitions

variable (ntk : TechnologyNetwork)

/-- Constants and inputs have no fan-ins. -/
def foreachFanin (n : ℕ) : List ℕ :=
  if isConstant n ∨ ntk.isCi n then [] else (ntk.node n).children

def foreachIncomingEdge (n : ℕ) : List Edge := (foreachFanin ntk n).map fun c => ⟨c, n⟩

/-- The edges whose sources are not constant. -/
def incomingEdges (n : ℕ) : List Edge :=
  (foreachIncomingEdge ntk n).filter fun e => !isConstant e.source

def allIncomingEdgePaths : ℕ → ℕ → Option (List (List Edge))
  | 0, _ => none
  | fuel + 1, n =>
    if foreachFanin ntk n = [] then some [[]]
    else do
      let paths ← (incomingEdges ntk n).mapM fun e => do
        let ps ← allIncomingEdgePaths fuel e.source
        some (ps.map (· ++ [e]))
      some paths.flatten

/-- A loop over all elements with a counter of type `int`. -/
def counted {α : Type} (l : List α) : Option (List α) := if l.length < 2 ^ 31 then some l else none

def pathDelay (path : List Edge) : Option ℕ := do
  (← counted path).foldlM (fun pathDelay e => do
    let ft ← fanins ntk e.target
    some (if ntk.isMaj e.target ∧ ft.faninNodes.length > 2 then pathDelay + 1 else pathDelay)) 0

def delay (nodePaths : List (List Edge)) : Option ℕ := do
  (← counted nodePaths).foldlM (fun delay path => do
    let d ← pathDelay ntk path
    some (if delay < d then d else delay)) 0

def majorityBuffer (fuel n : ℕ) : Option (List ℤ) := do
  let fc ← fanins ntk n
  if fc.faninNodes = [] then some []
  else
    let delays ← (incomingEdges ntk n).mapM fun e => do
      delay ntk (← allIncomingEdgePaths ntk fuel e.source)
    some (delays.map fun d : ℕ => (delays.foldl max 0 : ℕ) - (d : ℤ))

/-- No node depends on itself. -/
def Acyclic : Prop := ∃ rank : ℕ → ℕ, ∀ n, ∀ c ∈ foreachFanin ntk n, rank c < rank n

/-- The documentation of `fanins` assumes this. -/
def OneConstant : Prop := ∀ n, (foreachFanin ntk n).countP (isConstant ·) ≤ 1

def Countable (n : ℕ) : Prop :=
  ∀ fuel, ∀ e ∈ incomingEdges ntk n, ∀ paths, allIncomingEdgePaths ntk fuel e.source = some paths →
    paths.length < 2 ^ 31 ∧ ∀ path ∈ paths, path.length < 2 ^ 31

/-- A majority gate with three fan-ins that are not constant. -/
def isDelaying (n : ℕ) : Bool :=
  ntk.isMaj n && decide (2 < ((foreachFanin ntk n).filter (!isConstant ·)).length)

/-- Some path from a node without fan-ins, one of `start`, to `n` has `k` majority gates with three
fan-ins that are not constant. -/
inductive MajorityPath (start : ℕ → Prop) : ℕ → ℕ → Prop
  | source {n : ℕ} (h : foreachFanin ntk n = []) (hn : start n) : MajorityPath start n 0
  | step {c n k : ℕ} (hc : c ∈ foreachFanin ntk n) (h : MajorityPath start c k) :
      MajorityPath start n (k + (isDelaying ntk n).toNat)

/-- The largest number of majority gates on a path from `start` to `n`, zero if there is none. -/
def IsDelay (start : ℕ → Prop) (n d : ℕ) : Prop :=
  IsGreatest (insert 0 {k | MajorityPath ntk start n k}) d

/-- One entry for each fan-in that is not constant: what it lacks of the largest delay. -/
structure Balanced (start : ℕ → Prop) (n : ℕ) (delays : List ℤ) : Prop where
  lacks : ∃ D : ℕ → ℕ, (∀ c, IsDelay ntk start c (D c)) ∧
    ∃ max, IsGreatest {d | ∃ c ∈ foreachFanin ntk n, D c = d} max ∧
      delays = ((foreachFanin ntk n).filter (!isConstant ·)).map fun c => (max : ℤ) - D c
  nonneg : ∀ d ∈ delays, 0 ≤ d
  zero : 0 ∈ delays

end Definitions

section Paths

variable {ntk : TechnologyNetwork} {n : ℕ}

/-- The majority gates on a path. -/
def numDelaying (ntk : TechnologyNetwork) (path : List Edge) : ℕ :=
  path.countP fun e => isDelaying ntk e.target

theorem mem_incomingEdges {e : Edge} : e ∈ incomingEdges ntk n ↔
    e.target = n ∧ e.source ∈ foreachFanin ntk n ∧ isConstant e.source = false := by
  rw [incomingEdges, List.mem_filter, foreachIncomingEdge, List.mem_map]
  constructor
  · rintro ⟨⟨c, hc, rfl⟩, hconst⟩
    exact ⟨rfl, hc, by simpa using hconst⟩
  · rintro ⟨rfl, hc, hconst⟩
    exact ⟨⟨e.source, hc, rfl⟩, by simpa using hconst⟩

theorem foreachFanin_eq_nil (h : isConstant n = true) : foreachFanin ntk n = [] := by
  rw [foreachFanin, if_pos (.inl h)]

theorem mem_allIncomingEdgePaths {fuel : ℕ} {paths : List (List Edge)}
    (h : allIncomingEdgePaths ntk (fuel + 1) n = some paths) (hne : foreachFanin ntk n ≠ [])
    {path : List Edge} : path ∈ paths ↔ ∃ e ∈ incomingEdges ntk n, ∃ ps,
      allIncomingEdgePaths ntk fuel e.source = some ps ∧ ∃ p ∈ ps, path = p ++ [e] := by
  rw [allIncomingEdgePaths, if_neg hne, Option.bind_eq_bind, Option.bind_eq_some_iff] at h
  obtain ⟨pss, hpss, hpaths⟩ := h
  obtain rfl := Option.some.inj hpaths
  rw [mapM_eq_some_iff_map] at hpss
  rw [List.mem_flatten]
  constructor
  · rintro ⟨l, hl, hpath⟩
    have hmem := List.mem_map_of_mem (f := some) hl
    rw [← hpss] at hmem
    obtain ⟨e, he, hrun⟩ := List.mem_map.mp hmem
    obtain ⟨ps, hps, hl⟩ := Option.bind_eq_some_iff.mp hrun
    obtain rfl := Option.some.inj hl
    obtain ⟨p, hp, rfl⟩ := List.mem_map.mp hpath
    exact ⟨e, he, ps, hps, p, hp, rfl⟩
  · rintro ⟨e, he, ps, hps, p, hp, rfl⟩
    have hmem : some (ps.map (· ++ [e])) ∈ pss.map some := by
      rw [← hpss]
      exact List.mem_map.mpr ⟨e, he, by rw [hps]; rfl⟩
    obtain ⟨l, hl, heq⟩ := List.mem_map.mp hmem
    obtain rfl := Option.some.inj heq
    exact ⟨_, hl, List.mem_map_of_mem hp⟩

theorem exists_source_paths {fuel : ℕ} {paths : List (List Edge)}
    (h : allIncomingEdgePaths ntk (fuel + 1) n = some paths) (hne : foreachFanin ntk n ≠ [])
    {e : Edge} (he : e ∈ incomingEdges ntk n) :
    ∃ ps, allIncomingEdgePaths ntk fuel e.source = some ps := by
  rw [allIncomingEdgePaths, if_neg hne, Option.bind_eq_bind, Option.bind_eq_some_iff] at h
  obtain ⟨pss, hpss, -⟩ := h
  rw [mapM_eq_some_iff_map] at hpss
  have hmem := List.mem_map_of_mem (f := fun e : Edge =>
    (allIncomingEdgePaths ntk fuel e.source).bind fun ps => some (ps.map (· ++ [e]))) he
  obtain ⟨l, -, hl⟩ := List.mem_map.mp (hpss ▸ hmem)
  obtain ⟨ps, hps, -⟩ := Option.bind_eq_some_iff.mp hl.symm
  exact ⟨ps, hps⟩

theorem exists_path_iff {fuel : ℕ} {paths : List (List Edge)}
    (h : allIncomingEdgePaths ntk fuel n = some paths) (hn : isConstant n = false) {k : ℕ} :
    (∃ path ∈ paths, numDelaying ntk path = k) ↔
      MajorityPath ntk (fun m => isConstant m = false) n k := by
  induction fuel generalizing n paths k with
  | zero => cases h
  | succ fuel ih =>
    by_cases hnil : foreachFanin ntk n = []
    · rw [allIncomingEdgePaths, if_pos hnil] at h
      obtain rfl := Option.some.inj h
      constructor
      · rintro ⟨path, hpath, rfl⟩
        obtain rfl := List.mem_singleton.mp hpath
        exact .source hnil hn
      · intro hk
        cases hk with
        | source => exact ⟨[], List.mem_singleton_self _, rfl⟩
        | step hc => exact absurd hc (by simp [hnil])
    · constructor
      · rintro ⟨path, hpath, rfl⟩
        obtain ⟨e, he, ps, hps, p, hp, rfl⟩ := (mem_allIncomingEdgePaths h hnil).mp hpath
        obtain ⟨rfl, hc, hconst⟩ := mem_incomingEdges.mp he
        have hstep := MajorityPath.step hc ((ih hps hconst).mp ⟨p, hp, rfl⟩)
        rw [numDelaying, List.countP_append, List.countP_singleton]
        cases hd : isDelaying ntk e.target <;> simpa [hd, numDelaying] using hstep
      · intro hk
        cases hk with
        | source h0 => exact absurd h0 hnil
        | @step c _ k hc hck =>
          have hconst : isConstant c = false := by
            by_contra hc'
            cases hck with
            | source _ hs => exact hc' hs
            | step hc'' =>
              rw [foreachFanin_eq_nil (Bool.eq_true_of_not_eq_false hc')] at hc''
              cases hc''
          have he : (⟨c, n⟩ : Edge) ∈ incomingEdges ntk n := mem_incomingEdges.mpr ⟨rfl, hc, hconst⟩
          obtain ⟨ps, hps⟩ := exists_source_paths h hnil he
          obtain ⟨p, hp, rfl⟩ := (ih hps hconst).mpr hck
          refine ⟨p ++ [⟨c, n⟩], (mem_allIncomingEdgePaths h hnil).mpr ⟨_, he, ps, hps, p, hp, rfl⟩,
            ?_⟩
          rw [numDelaying, List.countP_append, List.countP_singleton]
          cases isDelaying ntk n <;> simp [numDelaying]

theorem exists_allIncomingEdgePaths {rank : ℕ → ℕ}
    (hrank : ∀ n, ∀ c ∈ foreachFanin ntk n, rank c < rank n) {fuel : ℕ} (hn : rank n < fuel) :
    ∃ paths, allIncomingEdgePaths ntk fuel n = some paths := by
  induction fuel generalizing n with
  | zero => exact absurd hn (Nat.not_lt_zero _)
  | succ fuel ih =>
    rw [allIncomingEdgePaths]
    split_ifs with hnil
    · exact ⟨[[]], rfl⟩
    · obtain ⟨pss, hpss⟩ := exists_mapM (f := fun e : Edge =>
          (allIncomingEdgePaths ntk fuel e.source).bind fun ps => some (ps.map (· ++ [e])))
        (l := incomingEdges ntk n) (by
          intro e he
          obtain ⟨rfl, hc, -⟩ := mem_incomingEdges.mp he
          obtain ⟨ps, hps⟩ := ih ((hrank _ _ hc).trans_le (Nat.le_of_lt_succ hn))
          exact ⟨ps.map (· ++ [e]), by rw [hps]; rfl⟩)
      exact ⟨pss.flatten, Option.bind_eq_some_iff.mpr ⟨pss, hpss, rfl⟩⟩

theorem allIncomingEdgePaths_mono {fuel fuel' : ℕ} (hle : fuel ≤ fuel') {paths : List (List Edge)}
    (h : allIncomingEdgePaths ntk fuel n = some paths) :
    allIncomingEdgePaths ntk fuel' n = some paths := by
  induction fuel generalizing fuel' n paths with
  | zero => cases h
  | succ fuel ih =>
    obtain ⟨fuel', rfl⟩ : ∃ k, fuel' = k + 1 := ⟨fuel' - 1, by omega⟩
    rw [allIncomingEdgePaths] at h ⊢
    split_ifs at h ⊢
    · exact h
    · obtain ⟨pss, hpss, hpaths⟩ := Option.bind_eq_some_iff.mp h
      refine Option.bind_eq_some_iff.mpr ⟨pss, mapM_mono (fun e _ l hl => ?_) hpss, hpaths⟩
      obtain ⟨ps, hps, hl⟩ := Option.bind_eq_some_iff.mp hl
      exact Option.bind_eq_some_iff.mpr ⟨ps, ih (Nat.le_of_succ_le_succ hle) hps, hl⟩

theorem majorityBuffer_mono {fuel fuel' : ℕ} (hle : fuel ≤ fuel') {delays : List ℤ}
    (h : majorityBuffer ntk fuel n = some delays) : majorityBuffer ntk fuel' n = some delays := by
  obtain ⟨fc, hfc, h⟩ := Option.bind_eq_some_iff.mp h
  refine Option.bind_eq_some_iff.mpr ⟨fc, hfc, ?_⟩
  split_ifs at h ⊢
  · exact h
  · obtain ⟨ds, hds, hdelays⟩ := Option.bind_eq_some_iff.mp h
    refine Option.bind_eq_some_iff.mpr ⟨ds, mapM_mono (fun e _ d hd => ?_) hds, hdelays⟩
    obtain ⟨paths, hpaths, hd⟩ := Option.bind_eq_some_iff.mp hd
    exact Option.bind_eq_some_iff.mpr ⟨paths, allIncomingEdgePaths_mono hle hpaths, hd⟩

theorem countable_of_paths {fuel : ℕ}
    (h : ∀ e ∈ incomingEdges ntk n, ∃ paths, allIncomingEdgePaths ntk fuel e.source = some paths ∧
      paths.length < 2 ^ 31 ∧ ∀ path ∈ paths, path.length < 2 ^ 31) : Countable ntk n := by
  intro fuel' e he paths hpaths
  obtain ⟨paths', hpaths', hbound⟩ := h e he
  have h₁ := allIncomingEdgePaths_mono (le_max_left fuel' fuel) hpaths
  have h₂ := allIncomingEdgePaths_mono (le_max_right fuel' fuel) hpaths'
  obtain rfl := Option.some.inj (h₁.symm.trans h₂)
  exact hbound

end Paths

section Delays

variable {ntk : TechnologyNetwork} {n : ℕ}

theorem fanins_eq (h1 : OneConstant ntk) (hne : foreachFanin ntk n ≠ []) :
    ∃ c, fanins ntk n = some ⟨(foreachFanin ntk n).filter (!isConstant ·), c⟩ := by
  have hn : ¬ (isConstant n = true ∨ ntk.isCi n = true) := fun h =>
    hne (by rw [foreachFanin, if_pos h])
  have hci : ¬ ntk.isCi n = true := fun h => hn (.inr h)
  have hone := h1 n
  rw [foreachFanin, if_neg hn] at hone ⊢
  refine ⟨((ntk.node n).children.find? (isConstant ·)).map (· ≠ 0), ?_⟩
  simp only [fanins, if_neg hci, if_pos hone]

theorem foreachFanin_target_ne_nil {fuel : ℕ} {paths : List (List Edge)}
    (h : allIncomingEdgePaths ntk fuel n = some paths) {path : List Edge} (hpath : path ∈ paths)
    {e : Edge} (he : e ∈ path) : foreachFanin ntk e.target ≠ [] := by
  induction fuel generalizing n paths path with
  | zero => cases h
  | succ fuel ih =>
    by_cases hnil : foreachFanin ntk n = []
    · rw [allIncomingEdgePaths, if_pos hnil] at h
      obtain rfl := Option.some.inj h
      rw [List.mem_singleton.mp hpath] at he
      cases he
    · obtain ⟨e', he', ps, hps, p, hp, rfl⟩ := (mem_allIncomingEdgePaths h hnil).mp hpath
      rcases List.mem_append.mp he with hmem | hmem
      · exact ih hps hp hmem
      · rw [List.mem_singleton.mp hmem, (mem_incomingEdges.mp he').1]
        exact hnil

theorem pathDelay_eq (h1 : OneConstant ntk) {path : List Edge} (hlt : path.length < 2 ^ 31)
    (hne : ∀ e ∈ path, foreachFanin ntk e.target ≠ []) :
    pathDelay ntk path = some (numDelaying ntk path) := by
  have hrun : ∀ d, path.foldlM (fun pathDelay e => do
      let ft ← fanins ntk e.target
      some (if ntk.isMaj e.target ∧ ft.faninNodes.length > 2 then pathDelay + 1 else pathDelay)) d =
        some (d + numDelaying ntk path) := by
    clear hlt
    induction path with
    | nil => exact fun d => rfl
    | cons e path ih =>
      intro d
      obtain ⟨c, hc⟩ := fanins_eq h1 (hne e List.mem_cons_self)
      have hih := ih fun e' he' => hne e' (List.mem_cons_of_mem e he')
      rw [List.foldlM_cons, hc, numDelaying, List.countP_cons, isDelaying]
      refine (hih _).trans ?_
      simp only [numDelaying, Bool.and_eq_true, decide_eq_true_eq, gt_iff_lt]
      split_ifs
      · rw [Nat.add_assoc, Nat.add_comm 1]
      · rfl
  rw [pathDelay, counted, if_pos hlt, Option.bind_eq_bind, Option.bind_some, hrun, Nat.zero_add]

theorem delay_eq (h1 : OneConstant ntk) {paths : List (List Edge)} (hlt : paths.length < 2 ^ 31)
    (hlts : ∀ path ∈ paths, path.length < 2 ^ 31)
    (hne : ∀ path ∈ paths, ∀ e ∈ path, foreachFanin ntk e.target ≠ []) :
    delay ntk paths = some ((paths.map (numDelaying ntk)).foldl max 0) := by
  have hrun : ∀ d, paths.foldlM (fun delay path => do
      let d ← pathDelay ntk path
      some (if delay < d then d else delay)) d =
        some ((paths.map (numDelaying ntk)).foldl max d) := by
    clear hlt
    induction paths with
    | nil => exact fun d => rfl
    | cons path paths ih =>
      intro d
      have hih := ih (fun p hp => hlts p (List.mem_cons_of_mem path hp))
        fun p hp => hne p (List.mem_cons_of_mem path hp)
      have hmax : (if d < numDelaying ntk path then numDelaying ntk path else d) =
          max d (numDelaying ntk path) := by
        split_ifs <;> omega
      rw [List.foldlM_cons, pathDelay_eq h1 (hlts path List.mem_cons_self)
        (hne path List.mem_cons_self), List.map_cons, List.foldl_cons, ← hmax]
      exact hih _
  rw [delay, counted, if_pos hlt, Option.bind_eq_bind, Option.bind_some, hrun]

theorem isDelay_of_paths {fuel : ℕ} {paths : List (List Edge)}
    (h : allIncomingEdgePaths ntk fuel n = some paths) (hn : isConstant n = false) :
    IsDelay ntk (fun m => isConstant m = false) n
      ((paths.map (numDelaying ntk)).foldl max 0) := by
  have hset : {k | MajorityPath ntk (fun m => isConstant m = false) n k} =
      {k | k ∈ paths.map (numDelaying ntk)} := by
    ext k
    rw [Set.mem_ofPred_eq, ← exists_path_iff h hn, Set.mem_ofPred_eq, List.mem_map]
  rw [IsDelay, hset]
  exact isGreatest_foldl_max _

theorem isDelay_of_isConstant (hn : isConstant n = true) :
    IsDelay ntk (fun m => isConstant m = false) n 0 := by
  refine ⟨Set.mem_insert 0 _, ?_⟩
  rintro k (rfl | hk)
  · exact le_rfl
  · cases hk with
    | source => exact le_rfl
    | step hc =>
      rw [foreachFanin_eq_nil hn] at hc
      cases hc

theorem exists_isDelay (ha : Acyclic ntk) :
    ∃ D : ℕ → ℕ, ∀ c, IsDelay ntk (fun m => isConstant m = false) c (D c) := by
  obtain ⟨rank, hrank⟩ := ha
  refine Classical.axiomOfChoice fun c => ?_
  cases hc : isConstant c with
  | true => exact ⟨0, isDelay_of_isConstant hc⟩
  | false =>
    obtain ⟨paths, hpaths⟩ := exists_allIncomingEdgePaths hrank (Nat.lt_succ_self (rank c))
    exact ⟨_, isDelay_of_paths hpaths hc⟩

theorem foldl_max_isGreatest {D : ℕ → ℕ} {l : List ℕ} (hne : l ≠ []) :
    IsGreatest {d | ∃ c ∈ l, D c = d} ((l.map D).foldl max 0) := by
  obtain ⟨h, hle⟩ := isGreatest_foldl_max (l.map D)
  refine ⟨?_, ?_⟩
  · rcases h with h0 | hmem
    · obtain ⟨c, hc⟩ := List.exists_mem_of_ne_nil l hne
      have := hle (.inr (List.mem_map_of_mem (f := D) hc))
      exact ⟨c, hc, by omega⟩
    · exact List.mem_map.mp hmem
  · rintro d ⟨c, hc, rfl⟩
    exact hle (.inr (List.mem_map_of_mem hc))

theorem delay_source (h1 : OneConstant ntk) (hcount : Countable ntk n) {fuel : ℕ} {e : Edge}
    (he : e ∈ incomingEdges ntk n) {paths : List (List Edge)}
    (h : allIncomingEdgePaths ntk fuel e.source = some paths) :
    ∃ d, delay ntk paths = some d ∧ IsDelay ntk (fun m => isConstant m = false) e.source d := by
  obtain ⟨hlt, hlts⟩ := hcount fuel e he paths h
  exact ⟨_, delay_eq h1 hlt hlts fun path hpath ed hed =>
    foreachFanin_target_ne_nil h hpath hed, isDelay_of_paths h (mem_incomingEdges.mp he).2.2⟩

theorem map_source_incomingEdges :
    (incomingEdges ntk n).map Edge.source = (foreachFanin ntk n).filter (!isConstant ·) := by
  rw [incomingEdges, foreachIncomingEdge, List.filter_map, List.map_map]
  exact List.map_id _

variable (ha : Acyclic ntk) (h1 : OneConstant ntk) (hcount : Countable ntk n)
  (hne : ∃ c ∈ foreachFanin ntk n, isConstant c = false)

include h1 hne in
theorem fanins_of_exists : ∃ c, fanins ntk n =
    some ⟨(foreachFanin ntk n).filter (!isConstant ·), c⟩ ∧
      (foreachFanin ntk n).filter (!isConstant ·) ≠ [] := by
  obtain ⟨c, hc, hconst⟩ := hne
  obtain ⟨k, hk⟩ := fanins_eq h1 (List.ne_nil_of_mem hc)
  exact ⟨k, hk, List.ne_nil_of_mem (List.mem_filter.mpr ⟨hc, by simpa using hconst⟩)⟩

include ha h1 hcount hne in
theorem balanced_of_majorityBuffer {fuel : ℕ} {delays : List ℤ}
    (h : majorityBuffer ntk fuel n = some delays) :
    Balanced ntk (fun m => isConstant m = false) n delays := by
  obtain ⟨D, hD⟩ := exists_isDelay ha
  obtain ⟨k, hk, hfil⟩ := fanins_of_exists h1 hne
  rw [majorityBuffer, hk, Option.bind_eq_bind, Option.bind_some, if_neg hfil] at h
  obtain ⟨ds, hds, hdelays⟩ := Option.bind_eq_some_iff.mp h
  obtain rfl := Option.some.inj hdelays
  rw [mapM_eq_some_iff_map] at hds
  have hsource : (incomingEdges ntk n).map (fun e => some (D e.source)) = ds.map some := by
    rw [← hds]
    refine List.map_congr_left fun e he => ?_
    have hmem := List.mem_map_of_mem (f := fun e : Edge =>
      (allIncomingEdgePaths ntk fuel e.source).bind (delay ntk)) he
    obtain ⟨d, -, hd⟩ := List.mem_map.mp (hds ▸ hmem)
    obtain ⟨paths, hpaths, -⟩ := Option.bind_eq_some_iff.mp hd.symm
    obtain ⟨d', hd', hgreatest⟩ := delay_source h1 hcount he hpaths
    rw [(hD e.source).unique hgreatest]
    exact (Option.bind_eq_some_iff.mpr ⟨paths, hpaths, hd'⟩).symm
  have hdsD : ds = ((foreachFanin ntk n).filter (!isConstant ·)).map D := by
    have hinj : Function.Injective (List.map (some (α := ℕ))) :=
      List.map_injective_iff.mpr fun _ _ h => Option.some.inj h
    apply hinj
    rw [← hsource, ← map_source_incomingEdges, List.map_map, List.map_map]
    rfl
  have hmax := foldl_max_isGreatest (D := D) hfil
  rw [← hdsD] at hmax
  refine ⟨⟨D, hD, ds.foldl max 0, ⟨?_, ?_⟩, ?_⟩, ?_, ?_⟩
  · obtain ⟨c, hc, hcD⟩ := hmax.1
    exact ⟨c, List.mem_of_mem_filter hc, hcD⟩
  · rintro d ⟨c, hc, rfl⟩
    cases hconst : isConstant c with
    | true =>
      rw [(hD c).unique (isDelay_of_isConstant hconst)]
      exact Nat.zero_le _
    | false => exact hmax.2 ⟨c, List.mem_filter.mpr ⟨hc, by simpa using hconst⟩, rfl⟩
  · rw [hdsD, List.map_map]
    rfl
  · intro d hd
    obtain ⟨x, hx, rfl⟩ := List.mem_map.mp hd
    rw [hdsD] at hx
    obtain ⟨c, hc, rfl⟩ := List.mem_map.mp hx
    have := hmax.2 ⟨c, hc, rfl⟩
    omega
  · obtain ⟨c, hc, hcD⟩ := hmax.1
    have hmem : D c ∈ ds := by
      rw [hdsD]
      exact List.mem_map_of_mem hc
    exact List.mem_map.mpr ⟨D c, hmem, by omega⟩

include ha h1 hcount hne in
/-- The fan-ins of a node are balanced by the majority gates on the paths that start in an input. -/
theorem exists_majorityBuffer_balanced : ∃ fuel delays, majorityBuffer ntk fuel n = some delays ∧
    Balanced ntk (fun m => isConstant m = false) n delays := by
  obtain ⟨rank, hrank⟩ := id ha
  obtain ⟨k, hk, hfil⟩ := fanins_of_exists h1 hne
  obtain ⟨ds, hds⟩ := exists_mapM (f := fun e : Edge =>
      (allIncomingEdgePaths ntk (rank n) e.source).bind (delay ntk))
    (l := incomingEdges ntk n) (by
      intro e he
      obtain ⟨htarget, hc, -⟩ := mem_incomingEdges.mp he
      obtain ⟨paths, hpaths⟩ := exists_allIncomingEdgePaths hrank (hrank n _ hc)
      obtain ⟨d, hd, -⟩ := delay_source h1 hcount he hpaths
      exact ⟨d, Option.bind_eq_some_iff.mpr ⟨paths, hpaths, hd⟩⟩)
  have hrun : majorityBuffer ntk (rank n) n =
      some (ds.map fun d : ℕ => (ds.foldl max 0 : ℕ) - (d : ℤ)) := by
    rw [majorityBuffer, hk, Option.bind_eq_bind, Option.bind_some, if_neg hfil]
    exact Option.bind_eq_some_iff.mpr ⟨ds, hds, rfl⟩
  exact ⟨rank n, _, hrun, balanced_of_majorityBuffer ha h1 hcount hne hrun⟩

theorem foreachFanin_of_size_le (hn : ntk.size ≤ n) : foreachFanin ntk n = [] := by
  have hnode : ntk.node n = default := by
    rw [node, List.getD_eq_getElem?_getD, List.getElem?_eq_none hn]
    rfl
  rw [foreachFanin, hnode]
  split_ifs <;> rfl

theorem acyclic_of_forall_lt (h : ∀ n < ntk.size, ∀ c ∈ foreachFanin ntk n, c < n) :
    Acyclic ntk := by
  refine ⟨id, fun n c hc => ?_⟩
  by_cases hn : n < ntk.size
  · exact h n hn c hc
  · rw [foreachFanin_of_size_le (Nat.not_lt.mp hn)] at hc
    cases hc

theorem oneConstant_of_forall_lt
    (h : ∀ n < ntk.size, (foreachFanin ntk n).countP (isConstant ·) ≤ 1) : OneConstant ntk := by
  intro n
  by_cases hn : n < ntk.size
  · exact h n hn
  · rw [foreachFanin_of_size_le (Nat.not_lt.mp hn)]
    exact Nat.zero_le _

end Delays

section Networks

def constantMajority : TechnologyNetwork :=
  let (ntk, x) := TechnologyNetwork.empty.createPi
  let (ntk, b₁) := ntk.createBuf 0
  let (ntk, b₂) := ntk.createBuf 0
  let (ntk, b₃) := ntk.createBuf 0
  let (ntk, m) := ntk.createMaj b₁ b₂ b₃
  (ntk.createAnd x m).1

/-- The majority gate lies on paths from a constant only, which are not enumerated. -/
theorem constantMajority_not_balanced : ¬ ∃ fuel delays,
    majorityBuffer constantMajority fuel 7 = some delays ∧
      Balanced constantMajority (fun _ => True) 7 delays := by
  rintro ⟨fuel, delays, hrun, h⟩
  have hdelays : delays = [0, 0] := by
    have h₁ := majorityBuffer_mono (le_max_left fuel 4) hrun
    have h₂ := majorityBuffer_mono (le_max_right fuel 4)
      (show majorityBuffer constantMajority 4 7 = some [0, 0] by decide)
    exact Option.some.inj (h₁.symm.trans h₂)
  obtain ⟨⟨D, hD, max, -, hlacks⟩, -, -⟩ := h
  have heq : [(0 : ℤ), 0] = [(max : ℤ) - D 2, max - D 6] := hdelays.symm.trans hlacks
  simp only [List.cons.injEq, and_true] at heq
  obtain ⟨h₂, h₆⟩ := heq
  have hmaj : MajorityPath constantMajority (fun _ => True) 6 1 :=
    .step (c := 3) (by decide) (.step (c := 0) (by decide) (.source (by decide) trivial))
  have hle : 1 ≤ D 6 := (hD 6).2 (.inr hmaj)
  have hinput : D 2 = 0 := by
    rcases (hD 2).1 with h0 | hpath
    · exact h0
    · generalize D 2 = d at hpath
      cases hpath with
      | source => rfl
      | step hc =>
        rw [show foreachFanin constantMajority 2 = [] by decide] at hc
        cases hc
  omega

def inputMajority : TechnologyNetwork :=
  let (ntk, x) := TechnologyNetwork.empty.createPi
  let (ntk, y) := ntk.createPi
  let (ntk, z) := ntk.createPi
  let (ntk, m) := ntk.createMaj x y z
  (ntk.createAnd x m).1

theorem exists_majorityBuffer_balanced_inputMajority : ∃ fuel delays,
    majorityBuffer inputMajority fuel 6 = some delays ∧
      Balanced inputMajority (fun m => isConstant m = false) 6 delays := by
  refine exists_majorityBuffer_balanced (acyclic_of_forall_lt (by decide))
    (oneConstant_of_forall_lt (by decide)) (@countable_of_paths _ _ 3 (by decide)) (by decide)

example : majorityBuffer inputMajority 3 6 = some [1, 0] := by decide

end Networks

end MajorityBuffer

end Fiction
