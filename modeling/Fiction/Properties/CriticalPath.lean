import Fiction.Layouts.DataFlow
import Fiction.Library.MemoizedEvaluation
import Mathlib.Data.List.Sort

/-!
# Critical path length and throughput

`signal_delay` follows the incoming data flow of a tile back to the inputs and keeps the information
on gate tiles in a cache. The length of the critical path is the greatest length found at a primary
output; the throughput is derived from the differences in the cache.

The lengths and delays are 64-bit counters and are modelled by natural numbers: a path has fewer
than `2 ^ 64` tiles. The order in which `std::sort` leaves paths of equal length is not specified,
so the sorting function is a parameter.
-/

namespace Fiction.CriticalPath

structure PathInfo where
  length : ℕ
  delay : ℕ
  diff : ℕ
  deriving DecidableEq, Inhabited

structure Stats where
  criticalPathLength : ℕ
  throughput : ℕ
  deriving DecidableEq

abbrev DelayCache := List (Tile × PathInfo)

/-- What is documented of `std::sort` with a comparison of lengths. -/
structure SortsByLength (sort : List PathInfo → List PathInfo) : Prop where
  perm : ∀ infos, (sort infos).Perm infos
  sorted : ∀ infos, (sort infos).Pairwise fun i1 i2 => i1.length ≤ i2.length

variable (sort : List PathInfo → List PathInfo) (lyt : GateLevelLayout)

def isPiTile (t : Tile) : Bool := lyt.isPi (lyt.getNode t)

/-- The highest length with its delay and its difference from the shortest path; a single path is
taken as it is. -/
def dominantPath (infos : List PathInfo) : PathInfo :=
  match infos with
  | [info] => info
  | _ =>
    let sorted := sort infos
    let front := sorted.headD ⟨0, 0, 0⟩
    let back := sorted.getLastD ⟨0, 0, 0⟩
    ⟨back.length, back.delay, ((back.delay : ℤ) - front.delay).natAbs⟩

/-- The information on a tile that is computed from the paths into it. -/
def incorporate (t : Tile) (infos : List PathInfo) : PathInfo :=
  let infos := if isPiTile lyt t then
      infos ++ [⟨1, (lyt.clocked.getClockNumber t + (lyt.clocked.numClocks - 1)) %
        lyt.clocked.numClocks, 0⟩]
    else infos
  let dominant := dominantPath sort infos
  { dominant with length := dominant.length + 1, delay := dominant.delay + 1 }

-- without fuel, the recursion has not come to an end
def signalDelay : ℕ → DelayCache → Tile → Option (PathInfo × DelayCache)
  | 0, _, _ => none
  | fuel + 1, delayCache, t =>
    if lyt.isEmptyTile t then some (⟨0, 0, 0⟩, delayCache)
    else
      let idf := lyt.incomingDataFlow t
      if idf.isEmpty then some (⟨1, lyt.clocked.getClockNumber t, 0⟩, delayCache)
      else
        match delayCache.lookup t with
        | some info => some (info, delayCache)
        | none => do
          let (infos, delayCache) ← Graph.traverse (signalDelay fuel) delayCache idf
          let dominant := incorporate sort lyt t infos
          return (dominant, if lyt.isWireTile t then delayCache else (t, dominant) :: delayCache)

/-- The visits of all primary outputs, which share the cache. -/
def foreachPoDelay (fuel : ℕ) : List Tile → DelayCache → ℕ → Option (ℕ × DelayCache)
  | [], delayCache, length => some (length, delayCache)
  | po :: pos, delayCache, length => do
    let (info, delayCache) ← signalDelay sort lyt fuel delayCache po
    foreachPoDelay fuel pos delayCache (max info.length length)

def maxDiff (delayCache : DelayCache) : ℕ := (delayCache.map fun i => i.2.diff).foldr max 0

def run (fuel : ℕ) : Option Stats := do
  let (length, delayCache) ← foreachPoDelay sort lyt fuel lyt.foreachPo [] 0
  return ⟨length, maxDiff delayCache / lyt.clocked.numClocks + 1⟩

/-- A path of occupied tiles along the data flow to the tile `t`. It starts at a primary input or
at a tile that no occupied tile feeds. -/
inductive DataFlowPath : Tile → List Tile → Prop
  | source {t : Tile} (ht : lyt.isEmptyTile t = false)
      (hs : isPiTile lyt t = true ∨ ∀ s ∈ lyt.incomingDataFlow t, lyt.isEmptyTile s = true) :
      DataFlowPath t [t]
  | step {s t : Tile} {p : List Tile} (hp : DataFlowPath s p) (ht : lyt.isEmptyTile t = false)
      (hs : s ∈ lyt.incomingDataFlow t) : DataFlowPath t (p ++ [t])

def OutputPath (p : List Tile) : Prop := ∃ po ∈ lyt.foreachPo, DataFlowPath lyt po p

/-- No path to a primary output has more tiles than `p`. -/
def LongestPath (p : List Tile) : Prop :=
  OutputPath lyt p ∧ ∀ q, OutputPath lyt q → q.length ≤ p.length

/-- A primary input with incoming data flow, but from empty tiles only. -/
def detachedPi (t : Tile) : Bool :=
  isPiTile lyt t && !(lyt.incomingDataFlow t).isEmpty &&
    (lyt.incomingDataFlow t).all lyt.isEmptyTile

/-- `n` is the greatest element of `S`, or zero if there is none. -/
def IsMaximum (S : Set ℕ) (n : ℕ) : Prop := (∀ k ∈ S, k ≤ n) ∧ (n ∈ S ∨ n = 0)

def AcyclicDataFlow : Prop :=
  ∀ t, ¬ Relation.TransGen (fun s t => s ∈ lyt.incomingDataFlow t) t t

section Evaluation

/-- The information on each tile depends on that of the tiles that feed it. -/
def delayGraph : Graph Tile PathInfo where
  deps t := if lyt.isEmptyTile t then [] else lyt.incomingDataFlow t
  rule t infos :=
    if lyt.isEmptyTile t then ⟨0, 0, 0⟩
    else if (lyt.incomingDataFlow t).isEmpty then ⟨1, lyt.clocked.getClockNumber t, 0⟩
    else incorporate sort lyt t infos

variable {sort lyt}

theorem delayGraph_deps {t : Tile} (ht : lyt.isEmptyTile t = false) :
    (delayGraph sort lyt).deps t = lyt.incomingDataFlow t := by
  simp only [delayGraph, ht, Bool.false_eq_true, if_false]

theorem delayGraph_rule_empty {t : Tile} (ht : lyt.isEmptyTile t = true) (infos : List PathInfo) :
    (delayGraph sort lyt).rule t infos = ⟨0, 0, 0⟩ := by
  simp only [delayGraph, ht, if_true]

theorem delayGraph_rule_source {t : Tile} (ht : lyt.isEmptyTile t = false)
    (hidf : lyt.incomingDataFlow t = []) (infos : List PathInfo) :
    (delayGraph sort lyt).rule t infos = ⟨1, lyt.clocked.getClockNumber t, 0⟩ := by
  simp only [delayGraph, ht, hidf, Bool.false_eq_true, if_false, List.isEmpty_nil, if_true]

theorem delayGraph_rule {t : Tile} (ht : lyt.isEmptyTile t = false)
    (hidf : lyt.incomingDataFlow t ≠ []) (infos : List PathInfo) :
    (delayGraph sort lyt).rule t infos = incorporate sort lyt t infos := by
  simp only [delayGraph, ht, Bool.false_eq_true, if_false, List.isEmpty_iff, hidf]

theorem signalDelay_eq_memoized (fuel : ℕ) :
    signalDelay sort lyt fuel =
      (delayGraph sort lyt).memoized (fun t => !lyt.isWireTile t) fuel := by
  induction fuel with
  | zero => rfl
  | succ fuel ih =>
    funext delayCache t
    rw [signalDelay, Graph.memoized, ih]
    cases ht : lyt.isEmptyTile t with
    | true =>
      rw [delayGraph_rule_empty ht]
      simp only [delayGraph, ht, if_true, List.isEmpty_nil]
    | false =>
      rw [delayGraph_deps ht, if_neg Bool.false_ne_true]
      by_cases hidf : lyt.incomingDataFlow t = []
      · rw [delayGraph_rule_source ht hidf]
        simp only [hidf, List.isEmpty_nil, if_true]
      · have hne : ¬(lyt.incomingDataFlow t).isEmpty = true := by simpa using hidf
        simp only [if_neg hne, delayGraph_rule ht hidf]
        cases delayCache.lookup t with
        | some info => rfl
        | none => cases lyt.isWireTile t <;> rfl

end Evaluation

section Lengths

def pathWeight (p : List Tile) : ℕ :=
  p.length + if p.head?.any (detachedPi lyt) then 1 else 0

variable {sort lyt}

theorem DataFlowPath.ne_nil {t : Tile} {p : List Tile} (h : DataFlowPath lyt t p) : p ≠ [] := by
  cases h <;> simp

theorem DataFlowPath.occupied {t : Tile} {p : List Tile} (h : DataFlowPath lyt t p) :
    lyt.isEmptyTile t = false := by
  cases h <;> assumption

theorem pathWeight_concat {p : List Tile} (hp : p ≠ []) (t : Tile) :
    pathWeight lyt (p ++ [t]) = pathWeight lyt p + 1 := by
  obtain ⟨a, p, rfl⟩ := List.exists_cons_of_ne_nil hp
  have hhead : (a :: p ++ [t]).head? = (a :: p).head? := rfl
  rw [pathWeight, pathWeight, hhead, List.length_append, List.length_singleton]
  omega

theorem length_le_pathWeight (p : List Tile) : p.length ≤ pathWeight lyt p := Nat.le_add_right _ _

theorem dominantPath_spec (hsort : SortsByLength sort) {infos : List PathInfo} (hne : infos ≠ []) :
    ∃ front ∈ infos, ∃ back ∈ infos,
      (∀ i ∈ infos, front.length ≤ i.length ∧ i.length ≤ back.length) ∧
      (dominantPath sort infos).length = back.length ∧
      (dominantPath sort infos).delay = back.delay ∧
      (infos = [back] ∧ (dominantPath sort infos).diff = back.diff ∨
        (∀ i, infos ≠ [i]) ∧
          (dominantPath sort infos).diff = ((back.delay : ℤ) - front.delay).natAbs) := by
  by_cases hone : ∃ i, infos = [i]
  · obtain ⟨i, rfl⟩ := hone
    exact ⟨i, by simp, i, by simp, by simp, rfl, rfl, .inl ⟨rfl, rfl⟩⟩
  · have hne₁ : ∀ i, infos ≠ [i] := fun i hi => hone ⟨i, hi⟩
    have hperm := hsort.perm infos
    have hsorted := hsort.sorted infos
    have hdom : dominantPath sort infos = ⟨((sort infos).getLastD ⟨0, 0, 0⟩).length,
        ((sort infos).getLastD ⟨0, 0, 0⟩).delay, ((((sort infos).getLastD ⟨0, 0, 0⟩).delay : ℤ) -
          ((sort infos).headD ⟨0, 0, 0⟩).delay).natAbs⟩ := by
      unfold dominantPath
      split
      · exact absurd rfl (hne₁ _)
      · rfl
    have hne' : sort infos ≠ [] := fun h => hne (List.nil_perm.mp (h ▸ hperm))
    have hhead : (sort infos).headD ⟨0, 0, 0⟩ = (sort infos).head hne' := by
      rw [List.headD_eq_head?_getD, List.head?_eq_some_head hne', Option.getD_some]
    have hlast : (sort infos).getLastD ⟨0, 0, 0⟩ = (sort infos).getLast hne' := by
      rw [List.getLastD_eq_getLast?, List.getLast?_eq_some_getLast hne', Option.getD_some]
    rw [hhead, hlast] at hdom
    refine ⟨_, hperm.mem_iff.mp (List.head_mem hne'), _, hperm.mem_iff.mp (List.getLast_mem hne'),
      fun i hi => ?_, by rw [hdom], by rw [hdom], .inr ⟨hne₁, by rw [hdom]⟩⟩
    have hi' := hperm.mem_iff.mpr hi
    have : Std.Refl fun i1 i2 : PathInfo => i1.length ≤ i2.length := ⟨fun _ => le_rfl⟩
    exact ⟨hsorted.rel_head hi', hsorted.rel_getLast hi'⟩

theorem dominantPath_length (hsort : SortsByLength sort) {infos : List PathInfo}
    (hne : infos ≠ []) : (∀ i ∈ infos, i.length ≤ (dominantPath sort infos).length) ∧
      ∃ i ∈ infos, i.length = (dominantPath sort infos).length := by
  obtain ⟨_, -, back, hback, hbetween, hlength, -⟩ := dominantPath_spec hsort hne
  rw [hlength]
  exact ⟨fun i hi => (hbetween i hi).2, back, hback, rfl⟩

theorem incorporate_length (hsort : SortsByLength sort) {t : Tile} {infos : List PathInfo}
    (hne : infos ≠ []) :
    (∀ i ∈ infos, i.length + 1 ≤ (incorporate sort lyt t infos).length) ∧
      (isPiTile lyt t = true → 2 ≤ (incorporate sort lyt t infos).length) ∧
      ((∃ i ∈ infos, i.length + 1 = (incorporate sort lyt t infos).length) ∨
        isPiTile lyt t = true ∧ (incorporate sort lyt t infos).length = 2) := by
  unfold incorporate
  cases ht : isPiTile lyt t with
  | false =>
    obtain ⟨hle, i, hi, he⟩ := dominantPath_length hsort hne
    simp only [Bool.false_eq_true, if_false]
    exact ⟨fun i hi => Nat.succ_le_succ (hle i hi), fun h => h.elim, .inl ⟨i, hi, by rw [he]⟩⟩
  | true =>
    simp only [if_true]
    generalize hpi : (⟨1, _, 0⟩ : PathInfo) = pi
    have hone : pi.length = 1 := by rw [← hpi]
    obtain ⟨hle, i, hi, he⟩ := dominantPath_length hsort
      (List.append_ne_nil_of_left_ne_nil hne [pi])
    have hpile := hle pi (by simp)
    refine ⟨fun i hi => Nat.succ_le_succ (hle i (List.mem_append_left _ hi)), fun _ => by omega, ?_⟩
    rcases List.mem_append.mp hi with hi | hi
    · exact .inl ⟨i, hi, by rw [he]⟩
    · rw [List.mem_singleton.mp hi] at he
      exact .inr ⟨trivial, by omega⟩

theorem length_pos {v : Tile → PathInfo}
    (hv : (delayGraph sort lyt).Obeys v) {t : Tile} (ht : lyt.isEmptyTile t = false) :
    1 ≤ (v t).length := by
  rw [hv t]
  by_cases hidf : lyt.incomingDataFlow t = []
  · rw [delayGraph_rule_source ht hidf]
  · rw [delayGraph_rule ht hidf, delayGraph_deps ht]
    exact Nat.le_add_left 1 _

theorem length_empty {v : Tile → PathInfo} (hv : (delayGraph sort lyt).Obeys v) {t : Tile}
    (ht : lyt.isEmptyTile t = true) : (v t).length = 0 := by
  rw [hv t, delayGraph_rule_empty ht]

/-- The length of a tile is the greatest weight of a path to it. The induction follows the data
flow. -/
theorem isMaximum_length (hsort : SortsByLength sort) {v : Tile → PathInfo}
    (hv : (delayGraph sort lyt).Obeys v) (hwf : WellFounded (delayGraph sort lyt).Dep) (t : Tile) :
    IsMaximum {k | ∃ p, DataFlowPath lyt t p ∧ pathWeight lyt p = k} (v t).length := by
  induction t using hwf.induction with
  | _ t ih =>
    cases ht : lyt.isEmptyTile t with
    | true =>
      refine ⟨?_, .inr (length_empty hv ht)⟩
      rintro _ ⟨p, hp, rfl⟩
      exact absurd hp.occupied (by simp [ht])
    | false =>
      by_cases hidf : lyt.incomingDataFlow t = []
      · have hone : (v t).length = 1 := by rw [hv t, delayGraph_rule_source ht hidf]
        have hsource : DataFlowPath lyt t [t] := .source ht (.inr (by simp [hidf]))
        have hweight : pathWeight lyt [t] = 1 := by simp [pathWeight, detachedPi, hidf]
        refine ⟨?_, .inl ⟨[t], hsource, by rw [hweight, hone]⟩⟩
        rintro _ ⟨p, hp, rfl⟩
        cases hp with
        | source => rw [hweight, hone]
        | step _ _ hs => simp [hidf] at hs
      · have hrule : v t = incorporate sort lyt t ((lyt.incomingDataFlow t).map v) := by
          rw [hv t, delayGraph_rule ht hidf, delayGraph_deps ht]
        have hne : (lyt.incomingDataFlow t).map v ≠ [] := by simpa using hidf
        obtain ⟨hle, hpi, hattained⟩ := @incorporate_length sort lyt hsort t _ hne
        rw [← hrule] at hle hpi hattained
        have hdep : ∀ s ∈ lyt.incomingDataFlow t, (delayGraph sort lyt).Dep s t := fun s hs => by
          rwa [Graph.Dep, delayGraph_deps ht]
        constructor
        · rintro _ ⟨p, hp, rfl⟩
          cases hp with
          | source _ hs =>
            have hpos : 1 ≤ (v t).length := length_pos hv ht
            by_cases hdet : detachedPi lyt t = true
            · have htpi : isPiTile lyt t = true := by
                simp only [detachedPi, Bool.and_eq_true] at hdet
                exact hdet.1.1
              have hweight : pathWeight lyt [t] = 2 := by simp [pathWeight, hdet]
              rw [hweight]
              exact hpi htpi
            · have hweight : pathWeight lyt [t] = 1 := by simp [pathWeight, hdet]
              rw [hweight]
              exact hpos
          | step hp _ hs =>
            rw [pathWeight_concat hp.ne_nil]
            have hs' := (ih _ (hdep _ hs)).1 _ ⟨_, hp, rfl⟩
            exact (Nat.succ_le_succ hs').trans (hle _ (List.mem_map_of_mem hs))
        · left
          have hstep : ∀ s ∈ lyt.incomingDataFlow t, lyt.isEmptyTile s = false →
              (v s).length + 1 = (v t).length →
              ∃ p, DataFlowPath lyt t p ∧ pathWeight lyt p = (v t).length := by
            intro s hs hos hlen
            have hpos : 1 ≤ (v s).length := length_pos hv hos
            obtain ⟨p, hp, hw⟩ := (ih s (hdep s hs)).2.resolve_right (by omega)
            exact ⟨p ++ [t], .step hp ht hs, by rw [pathWeight_concat hp.ne_nil, hw, hlen]⟩
          have hsource : (∀ s ∈ lyt.incomingDataFlow t, lyt.isEmptyTile s = true) →
              DataFlowPath lyt t [t] := fun h => .source ht (.inr h)
          rcases hattained with ⟨_, hi, hlen⟩ | ⟨htpi, hlen⟩
          · obtain ⟨s, hs, rfl⟩ := List.mem_map.mp hi
            cases hos : lyt.isEmptyTile s with
            | false => exact hstep s hs hos hlen
            | true =>
              -- the longest path into the tile is empty, so all tiles that feed it are
              rw [length_empty hv hos] at hlen
              have hall : ∀ s ∈ lyt.incomingDataFlow t, lyt.isEmptyTile s = true := by
                intro s' hs'
                by_contra hos'
                have h₁ := hle _ (List.mem_map_of_mem hs')
                have h₂ := length_pos hv (by simpa using hos')
                omega
              have hnpi : isPiTile lyt t = false := by
                by_contra h
                have := hpi (by simpa using h)
                omega
              refine ⟨[t], hsource hall, ?_⟩
              rw [← hlen]
              simp [pathWeight, detachedPi, hnpi]
          · by_cases hex : ∃ s ∈ lyt.incomingDataFlow t, lyt.isEmptyTile s = false
            · obtain ⟨s, hs, hos⟩ := hex
              have h₁ := hle _ (List.mem_map_of_mem hs)
              have h₂ := length_pos hv hos
              exact hstep s hs hos (by omega)
            · have hall : ∀ s ∈ lyt.incomingDataFlow t, lyt.isEmptyTile s = true := by
                intro s hs
                by_contra h
                exact hex ⟨s, hs, by simpa using h⟩
              have hdet : detachedPi lyt t = true := by
                simp only [detachedPi, htpi, Bool.true_and, Bool.and_eq_true, List.all_eq_true]
                exact ⟨by simpa using hidf, hall⟩
              refine ⟨[t], hsource hall, ?_⟩
              rw [hlen]
              simp [pathWeight, hdet]

end Lengths

section Run

variable {sort lyt}

theorem foreachPoDelay_isSome {pos : List Tile}
    (hpos : ∀ po ∈ pos, Acc (delayGraph sort lyt).Dep po) : ∃ n, ∀ fuel ≥ n, ∀ delayCache length,
      (foreachPoDelay sort lyt fuel pos delayCache length).isSome := by
  induction pos with
  | nil => exact ⟨0, fun fuel _ delayCache length => rfl⟩
  | cons po pos ih =>
    obtain ⟨n, hn⟩ := ih fun p hp => hpos p (List.mem_cons_of_mem po hp)
    obtain ⟨m, hm⟩ := @Graph.memoized_isSome _ _ _ _ (fun t => !lyt.isWireTile t) po
      (hpos po List.mem_cons_self)
    refine ⟨max m n, fun fuel hfuel delayCache length => ?_⟩
    obtain ⟨x, hx⟩ := Option.isSome_iff_exists.mp
      (hm fuel ((le_max_left m n).trans hfuel) delayCache)
    rw [← signalDelay_eq_memoized] at hx
    rw [foreachPoDelay, hx]
    exact hn fuel ((le_max_right m n).trans hfuel) x.2 _

theorem foreachPoDelay_spec {P : Tile → PathInfo → Prop}
    (hP : ∀ t infos, List.Forall₂ P ((delayGraph sort lyt).deps t) infos →
      P t ((delayGraph sort lyt).rule t infos)) {fuel : ℕ} {pos : List Tile}
    {delayCache delayCache' : DelayCache} {length length' : ℕ}
    (hcache : Graph.CacheAll P delayCache)
    (h : foreachPoDelay sort lyt fuel pos delayCache length = some (length', delayCache')) :
    ∃ infos, List.Forall₂ P pos infos ∧
      length' = infos.foldl (fun length info => max info.length length) length := by
  induction pos generalizing delayCache length with
  | nil =>
    obtain ⟨rfl, rfl⟩ := Prod.mk.inj (Option.some.inj h)
    exact ⟨[], .nil, rfl⟩
  | cons po pos ih =>
    simp only [foreachPoDelay, Option.bind_eq_bind, Option.bind_eq_some_iff,
      signalDelay_eq_memoized] at h
    obtain ⟨x, hx, h⟩ := h
    obtain ⟨hpo, hcache'⟩ := Graph.memoized_spec hP hcache hx
    obtain ⟨infos, hinfos, hlength⟩ := ih hcache' h
    exact ⟨x.1 :: infos, .cons hpo hinfos, hlength⟩

/-- `s` passes data on to the occupied tile `t`. -/
def Feeds (lyt : GateLevelLayout) (s t : Tile) : Prop :=
  lyt.isEmptyTile t = false ∧ s ∈ lyt.incomingDataFlow t

theorem dep_iff_feeds {s t : Tile} : (delayGraph sort lyt).Dep s t ↔ Feeds lyt s t := by
  simp only [Graph.Dep, Feeds, delayGraph]
  cases lyt.isEmptyTile t <;> simp

theorem exists_run_iff :
    (∃ fuel st, run sort lyt fuel = some st) ↔ ∀ po ∈ lyt.foreachPo, Acc (Feeds lyt) po := by
  have hdep : (delayGraph sort lyt).Dep = Feeds lyt := by
    funext s t
    exact propext dep_iff_feeds
  rw [← hdep]
  constructor
  · rintro ⟨fuel, st, h⟩
    simp only [run, Option.bind_eq_bind, Option.bind_eq_some_iff] at h
    obtain ⟨⟨length, delayCache⟩, hdelay, -⟩ := h
    obtain ⟨infos, hinfos, -⟩ := foreachPoDelay_spec
      (P := fun t _ => Acc (delayGraph sort lyt).Dep t) (fun _ _ => Graph.acc_rule)
      (fun p hp => absurd hp List.not_mem_nil) hdelay
    have hand := hinfos.imp fun t _ h => (⟨h, trivial⟩ : Acc (delayGraph sort lyt).Dep t ∧ True)
    exact (List.forall₂_and_left _ _).mp hand |>.1
  · intro h
    obtain ⟨n, hn⟩ := foreachPoDelay_isSome h
    obtain ⟨r, hr⟩ := Option.isSome_iff_exists.mp (hn n le_rfl [] 0)
    refine ⟨n, ⟨r.1, maxDiff r.2 / lyt.clocked.numClocks + 1⟩, ?_⟩
    rw [run, hr]
    rfl

theorem run_mono {fuel fuel' : ℕ} (hle : fuel ≤ fuel') {st : Stats}
    (h : run sort lyt fuel = some st) : run sort lyt fuel' = some st := by
  have hpos : ∀ pos delayCache length r,
      foreachPoDelay sort lyt fuel pos delayCache length = some r →
      foreachPoDelay sort lyt fuel' pos delayCache length = some r := by
    intro pos
    induction pos with
    | nil => exact fun _ _ _ h => h
    | cons po pos ih =>
      intro delayCache length r h
      simp only [foreachPoDelay, Option.bind_eq_bind, Option.bind_eq_some_iff,
        signalDelay_eq_memoized] at h ⊢
      obtain ⟨x, hx, h⟩ := h
      exact ⟨x, Graph.memoized_mono hle hx, ih _ _ _ h⟩
  simp only [run, Option.bind_eq_bind, Option.bind_eq_some_iff] at h ⊢
  obtain ⟨x, hx, h⟩ := h
  exact ⟨x, hpos _ _ _ _ hx, h⟩

theorem IsMaximum.union {A B : Set ℕ} {a b : ℕ} (ha : IsMaximum A a) (hb : IsMaximum B b) :
    IsMaximum (A ∪ B) (max b a) := by
  constructor
  · rintro k (hk | hk)
    · exact (ha.1 k hk).trans (le_max_right b a)
    · exact (hb.1 k hk).trans (le_max_left b a)
  · rcases le_total a b with hab | hba
    · rw [max_eq_left hab]
      exact hb.2.imp_left .inr
    · rw [max_eq_right hba]
      exact ha.2.imp_left .inl

theorem IsMaximum.foldl {f : Tile → ℕ} {S : Tile → Set ℕ} (h : ∀ t, IsMaximum (S t) (f t))
    {A : Set ℕ} {a : ℕ} (ha : IsMaximum A a) (ts : List Tile) :
    IsMaximum (A ∪ {k | ∃ t ∈ ts, k ∈ S t}) (ts.foldl (fun a t => max (f t) a) a) := by
  induction ts generalizing A a with
  | nil =>
    have hempty : A ∪ {k | ∃ t ∈ ([] : List Tile), k ∈ S t} = A := by simp
    rw [hempty]
    exact ha
  | cons t ts ih =>
    have hcons : A ∪ {k | ∃ s ∈ t :: ts, k ∈ S s} = (A ∪ S t) ∪ {k | ∃ s ∈ ts, k ∈ S s} := by
      ext k
      simp [or_assoc]
    rw [hcons]
    exact ih (ha.union (h t))

theorem run_isMaximum (hsort : SortsByLength sort) (hwf : WellFounded (delayGraph sort lyt).Dep) :
    ∃ n st, (∀ fuel ≥ n, run sort lyt fuel = some st) ∧
      IsMaximum {k | ∃ p, OutputPath lyt p ∧ pathWeight lyt p = k} st.criticalPathLength := by
  obtain ⟨v, hv⟩ := Graph.exists_obeys hwf
  obtain ⟨n, hn⟩ := foreachPoDelay_isSome fun po (_ : po ∈ lyt.foreachPo) => hwf.apply po
  obtain ⟨⟨length, delayCache⟩, hdelay⟩ := Option.isSome_iff_exists.mp (hn n le_rfl [] 0)
  have hlength : length = lyt.foreachPo.foldl (fun length po => max (v po).length length) 0 := by
    obtain ⟨infos, hinfos, hlen⟩ := foreachPoDelay_spec (P := fun t info => info = v t)
      (fun t infos h => hv.rule_eq h) (fun p hp => absurd hp List.not_mem_nil) hdelay
    rw [hlen]
    clear hlen hdelay hn
    generalize lyt.foreachPo = pos at hinfos ⊢
    generalize 0 = start
    induction hinfos generalizing start with
    | nil => rfl
    | cons hpo _ ih => rw [List.foldl_cons, List.foldl_cons, hpo, ih]
  refine ⟨n, ⟨length, maxDiff delayCache / lyt.clocked.numClocks + 1⟩, fun fuel hfuel => ?_, ?_⟩
  · refine run_mono hfuel ?_
    rw [run, hdelay]
    rfl
  · have hempty : IsMaximum ∅ 0 := ⟨fun k hk => absurd hk (Set.notMem_empty k), .inr rfl⟩
    have h := hempty.foldl (isMaximum_length hsort hv hwf) lyt.foreachPo
    have hset : {k | ∃ p, OutputPath lyt p ∧ pathWeight lyt p = k} = ∅ ∪ {k | ∃ t ∈ lyt.foreachPo,
        k ∈ {k | ∃ p, DataFlowPath lyt t p ∧ pathWeight lyt p = k}} := by
      ext k
      simp only [Set.mem_ofPred_eq, Set.empty_union, OutputPath]
      constructor
      · rintro ⟨p, ⟨po, hpo, hp⟩, hk⟩
        exact ⟨po, hpo, p, hp, hk⟩
      · rintro ⟨po, hpo, p, hp, hk⟩
        exact ⟨p, ⟨po, hpo, hp⟩, hk⟩
    rw [hset, hlength]
    exact h

theorem isMaximum_iff {n : ℕ}
    (hn : IsMaximum {k | ∃ p, OutputPath lyt p ∧ pathWeight lyt p = k} n) :
    IsMaximum {k | ∃ p, OutputPath lyt p ∧ p.length = k} n ↔
      ∀ p, LongestPath lyt p → p.head?.any (detachedPi lyt) = false := by
  constructor
  · intro h p hp
    by_contra hdet
    have hweight : pathWeight lyt p = p.length + 1 := by
      rw [pathWeight, if_pos (by simpa using hdet)]
    have hle := hn.1 _ ⟨p, hp.1, hweight⟩
    rcases h.2 with ⟨q, hq, hlen⟩ | hzero
    · have := hp.2 q hq
      omega
    · omega
  · intro h
    refine ⟨?_, ?_⟩
    · rintro _ ⟨p, hp, rfl⟩
      exact (length_le_pathWeight p).trans (hn.1 _ ⟨p, hp, rfl⟩)
    · rcases hn.2 with ⟨p, hp, hw⟩ | hzero
      · left
        by_cases hlong : LongestPath lyt p
        · refine ⟨p, hp, ?_⟩
          rw [← hw, pathWeight, h p hlong]
          simp
        · -- a longer path makes up for the tile that is counted twice
          obtain ⟨q, hq, hlt⟩ : ∃ q, OutputPath lyt q ∧ p.length < q.length := by
            by_contra hnone
            simp only [not_exists, not_and, not_lt] at hnone
            exact hlong ⟨hp, hnone⟩
          have hle := (length_le_pathWeight q).trans (hn.1 _ ⟨q, hq, rfl⟩)
          have hweight : pathWeight lyt p ≤ p.length + 1 := by
            unfold pathWeight
            split_ifs <;> omega
          exact ⟨q, hq, by omega⟩
      · exact .inr hzero

end Run

section Runs

open GateLevelLayout

variable {sort lyt}

theorem mem_children_of_mem_incomingDataFlow {s t : Tile} (h : s ∈ lyt.incomingDataFlow t) :
    s ∈ (lyt.node (lyt.getNode t)).children := by
  obtain ⟨i, -, hs⟩ := List.mem_flatMap.mp (OrderedSet.mem_of_mem_ofList h)
  have hchild := (List.mem_filter.mp hs).2
  simpa [isChild] using hchild

theorem getNode_lt_size {s t : Tile} (h : s ∈ lyt.incomingDataFlow t) :
    lyt.getNode t < lyt.size := by
  by_contra hsize
  have hdefault : lyt.node (lyt.getNode t) = default := by
    rw [node, List.getD_eq_getElem?_getD, List.getElem?_eq_none (not_lt.mp hsize)]
    rfl
  have hchild := mem_children_of_mem_incomingDataFlow h
  rw [hdefault] at hchild
  exact absurd hchild List.not_mem_nil

theorem wellFounded_dep (hfin : FinitelyOccupied lyt) (hacyc : AcyclicDataFlow lyt) :
    WellFounded (delayGraph sort lyt).Dep := by
  have hmono : ∀ {s t}, (delayGraph sort lyt).Dep s t → s ∈ lyt.incomingDataFlow t := by
    intro s t h
    simp only [Graph.Dep, delayGraph] at h
    split_ifs at h
    · simp at h
    · exact h
  refine Graph.wellFounded_of_acyclic (hfin.subset fun t ht hnone => ht ?_) fun t h =>
    hacyc t (Relation.TransGen.mono (fun _ _ => hmono) _ _ h)
  have hempty : lyt.isEmptyTile t = true := by simp [isEmptyTile, getNode, hnone]
  simp only [delayGraph, hempty, if_true]

/-- On every layout with acyclic data flow the run ends; the reported length of the critical path is
right exactly if no longest path starts at a detached primary input. -/
theorem criticalPathLength_iff {clocked clocked' : ClockedLayout} {name : String} {ops : List Op}
    (hl : (system clocked name).Legal ops) (hsort : SortsByLength sort)
    (hacyc : AcyclicDataFlow { (system clocked name).run ops with clocked := clocked' }) :
    let lyt : GateLevelLayout := { (system clocked name).run ops with clocked := clocked' }
    ∃ n st, (∀ fuel ≥ n, run sort lyt fuel = some st) ∧
      (IsMaximum {k | ∃ p, OutputPath lyt p ∧ p.length = k} st.criticalPathLength ↔
        ∀ p, LongestPath lyt p → p.head?.any (detachedPi lyt) = false) := by
  intro lyt
  have hfin : FinitelyOccupied lyt := run_finitelyOccupied hl
  obtain ⟨n, st, hrun, hmax⟩ := run_isMaximum hsort (wellFounded_dep hfin hacyc)
  exact ⟨n, st, hrun, isMaximum_iff hmax⟩

/-- One way to sort by lengths. -/
def insertionSort (infos : List PathInfo) : List PathInfo :=
  infos.insertionSort fun i1 i2 => i1.length ≤ i2.length

theorem sortsByLength_insertionSort : SortsByLength insertionSort where
  perm infos := List.perm_insertionSort _ infos
  sorted infos := by
    have : Std.Total fun i1 i2 : PathInfo => i1.length ≤ i2.length := ⟨fun a b => Nat.le_total _ _⟩
    have : IsTrans PathInfo fun i1 i2 => i1.length ≤ i2.length := ⟨fun _ _ _ => Nat.le_trans⟩
    exact List.pairwise_insertionSort _ infos

theorem acyclic_of_children
    (h : ∀ n < lyt.size, ∀ s ∈ (lyt.node n).children, lyt.getNode s < n) : AcyclicDataFlow lyt := by
  have hlt : ∀ {s t}, s ∈ lyt.incomingDataFlow t → lyt.getNode s < lyt.getNode t := fun hs =>
    h _ (getNode_lt_size hs) _ (mem_children_of_mem_incomingDataFlow hs)
  have hrun : ∀ {s t}, Relation.TransGen (fun s t => s ∈ lyt.incomingDataFlow t) s t →
      lyt.getNode s < lyt.getNode t := by
    intro s t hst
    induction hst with
    | single h => exact hlt h
    | tail _ h ih => exact ih.trans (hlt h)
  exact fun t ht => (hrun ht).false

/-- Two paths of an input meet at a gate before another input joins them. -/
def reconvergentOps : List Op :=
  [.createPi "" (.at2 0 0), .createPi "" (.at2 2 0), .createNode [.at2 0 0] .identity (.at2 1 0),
    .createNode [.at2 0 0] .identity (.at2 0 1), .createNode [.at2 1 0, .at2 0 1] .and (.at2 1 1),
    .createNode [.at2 1 1, .at2 2 0] .or (.at2 2 1), .createPo (.at2 2 1) "" (.at2 3 1)]

theorem criticalPathLength_reconvergent :
    let lyt : GateLevelLayout :=
      { (system smallLayout "").run reconvergentOps with clocked := smallLayout }
    ∃ n st, (∀ fuel ≥ n, run insertionSort lyt fuel = some st) ∧
      (IsMaximum {k | ∃ p, OutputPath lyt p ∧ p.length = k} st.criticalPathLength ↔
        ∀ p, LongestPath lyt p → p.head?.any (detachedPi lyt) = false) :=
  criticalPathLength_iff (by decide) sortsByLength_insertionSort (acyclic_of_children (by decide))

def movedInput : GateLevelLayout :=
  (system smallLayout "").run [.createPi "" (.at2 0 0), .moveNode 2 (.at2 1 0) [.at2 0 0],
    .createPo (.at2 1 0) "" (.at2 2 0)]

/-- The path from the moved input to the output has two tiles, but its length is given as three. -/
theorem movedInput_counted_twice : AcyclicDataFlow movedInput ∧
    run insertionSort movedInput 4 = some ⟨3, 1⟩ ∧
      ¬ IsMaximum {k | ∃ p, OutputPath movedInput p ∧ p.length = k} 3 := by
  refine ⟨acyclic_of_children (by decide), by decide, fun h => ?_⟩
  obtain ⟨p, ⟨po, hpo, hp⟩, hlen⟩ := h.2.resolve_right (by decide)
  have hpo' : po = .at2 2 0 := List.mem_singleton.mp hpo
  subst hpo'
  have hinput : movedInput.incomingDataFlow (.at2 1 0) = [.at2 0 0] := by decide
  have houtput : movedInput.incomingDataFlow (.at2 2 0) = [.at2 1 0] := by decide
  cases hp with
  | source => simp at hlen
  | step hp _ hs =>
    obtain rfl := List.mem_singleton.mp (houtput ▸ hs)
    cases hp with
    | source => simp at hlen
    | step hp _ hs =>
      obtain rfl := List.mem_singleton.mp (hinput ▸ hs)
      exact absurd hp.occupied (by decide)

end Runs

end Fiction.CriticalPath
