import Fiction.Properties.CriticalPath
import Mathlib.Data.Int.ModEq
import Mathlib.Order.Lattice.Nat

/-!
# Throughput

The throughput is derived from the delays of a longest and of a shortest path among those that enter
a tile, where only one longest path through each tile that feeds it is known. The shorter paths
through a tile are forgotten there, and with them the differences that add up over several tiles.
Longest paths need not be the slowest ones, and which of them is known may depend on the order in
which `std::sort` leaves paths of equal length. Where clock numbers follow each other, the length of
a path determines its delay.
-/

namespace Fiction.CriticalPath

section Definitions

variable (lyt : GateLevelLayout)

/-- Data flows from `t` to a primary output. -/
def InCone (t : Tile) : Prop := ∃ po ∈ lyt.foreachPo, Relation.ReflTransGen (Feeds lyt) t po

def ConeGate (t : Tile) : Prop :=
  InCone lyt t ∧ lyt.isEmptyTile t = false ∧ lyt.isWireTile t = false

def pathDelay (p : List Tile) : ℕ :=
  p.head?.elim 0 lyt.clocked.getClockNumber + (p.length - 1)

def delayDifferences : Set ℕ :=
  {k | ∃ t, ConeGate lyt t ∧ ∃ p q, DataFlowPath lyt t p ∧ DataFlowPath lyt t q ∧
    pathDelay lyt q = pathDelay lyt p + k}

def clockNumberBefore (t : Tile) : ℕ :=
  (lyt.clocked.getClockNumber t + (lyt.clocked.numClocks - 1)) % lyt.clocked.numClocks

/-- The length and the delay of a path to a tile. An empty tile ends a path of no length, and a
primary input that other tiles feed counts as if a tile in the zone before it did so, too. -/
inductive Arrival : Tile → ℕ → ℕ → Prop
  | empty {t : Tile} (ht : lyt.isEmptyTile t = true) : Arrival t 0 0
  | source {t : Tile} (ht : lyt.isEmptyTile t = false) (hidf : lyt.incomingDataFlow t = []) :
      Arrival t 1 (lyt.clocked.getClockNumber t)
  | input {t : Tile} (ht : lyt.isEmptyTile t = false) (hidf : lyt.incomingDataFlow t ≠ [])
      (hpi : isPiTile lyt t = true) : Arrival t 2 (clockNumberBefore lyt t + 1)
  | step {s t : Tile} {l e : ℕ} (hs : Arrival s l e) (ht : lyt.isEmptyTile t = false)
      (hst : s ∈ lyt.incomingDataFlow t) : Arrival t (l + 1) (e + 1)

def LongestArrival (t : Tile) (l e : ℕ) : Prop :=
  Arrival lyt t l e ∧ ∀ l' e', Arrival lyt t l' e' → l' ≤ l

/-- A longest path to a tile that feeds `t`, or the one to the zone before a primary input. -/
inductive Entry (t : Tile) : ℕ → ℕ → Prop
  | fanin {s : Tile} {l e : ℕ} (hs : s ∈ lyt.incomingDataFlow t) (h : LongestArrival lyt s l e) :
      Entry t l e
  | input (hpi : isPiTile lyt t = true) : Entry t 1 (clockNumberBefore lyt t)

/-- `s` is the only tile from which data flows to `t`. -/
def OnlyFeeds (s t : Tile) : Prop := lyt.incomingDataFlow t = [s] ∧ isPiTile lyt t = false

/-- The delays of a shortest and of a longest entry differ by `k` at a tile from which a chain of
tiles that are fed by one tile only leads to `t`. -/
inductive Imbalance : Tile → ℕ → Prop
  | start {t : Tile} (h : lyt.isEmptyTile t = true ∨ lyt.incomingDataFlow t = []) : Imbalance t 0
  | join {t : Tile} {l e l' e' : ℕ} (ht : lyt.isEmptyTile t = false)
      (hidf : lyt.incomingDataFlow t ≠ []) (hmany : ∀ s, ¬ OnlyFeeds lyt s t)
      (hfront : Entry lyt t l e) (hback : Entry lyt t l' e')
      (hbetween : ∀ i j, Entry lyt t i j → l ≤ i ∧ i ≤ l') : Imbalance t ((e' : ℤ) - e).natAbs
  | chain {s t : Tile} {k : ℕ} (ht : lyt.isEmptyTile t = false) (hst : OnlyFeeds lyt s t)
      (h : Imbalance s k) : Imbalance t k

def imbalancedCycles : Set ℕ :=
  {c | ∃ t k, ConeGate lyt t ∧ Imbalance lyt t k ∧ k / lyt.clocked.numClocks = c}

/-- Among the longest paths that make an imbalance, no choice avoids its clock cycles altogether. -/
def Settled : Prop := ∀ c ∈ imbalancedCycles lyt, ∃ t, ConeGate lyt t ∧
  ∀ k, Imbalance lyt t k → c ≤ k / lyt.clocked.numClocks

/-- Some choice gives a gate `c` cycles, and no gate exceeds them whatever is chosen. -/
def Possible (c : ℕ) : Prop :=
  (c ∈ imbalancedCycles lyt ∨ c = 0) ∧
    ∀ t, ConeGate lyt t → ∃ k, Imbalance lyt t k ∧ k / lyt.clocked.numClocks ≤ c

/-- Tiles of the cone are not fed by empty ones, and in their own layers, too, their clock numbers
follow those of the tiles that feed them. -/
structure InPhase : Prop where
  occupied : ∀ t, InCone lyt t → lyt.isEmptyTile t = false → ∀ s ∈ lyt.incomingDataFlow t,
    lyt.isEmptyTile s = false
  lt : ∀ t, InCone lyt t → lyt.isEmptyTile t = false →
    lyt.clocked.getClockNumber t < lyt.clocked.numClocks
  next : ∀ t, InCone lyt t → lyt.isEmptyTile t = false → ∀ s ∈ lyt.incomingDataFlow t,
    (lyt.clocked.getClockNumber s + 1) % lyt.clocked.numClocks = lyt.clocked.getClockNumber t

end Definitions

section Records

variable {sort : List PathInfo → List PathInfo} {lyt : GateLevelLayout} {v : Tile → PathInfo}
  {s t : Tile} {p : List Tile}

/-- The paths into a tile that are compared there. -/
def entryInfos (lyt : GateLevelLayout) (v : Tile → PathInfo) (t : Tile) : List PathInfo :=
  if isPiTile lyt t then
    (lyt.incomingDataFlow t).map v ++ [⟨1, clockNumberBefore lyt t, 0⟩]
  else (lyt.incomingDataFlow t).map v

theorem mem_entryInfos {i : PathInfo} : i ∈ entryInfos lyt v t ↔
    (∃ s ∈ lyt.incomingDataFlow t, v s = i) ∨
      isPiTile lyt t = true ∧ i = ⟨1, clockNumberBefore lyt t, 0⟩ := by
  rw [entryInfos]
  cases isPiTile lyt t <;> simp

theorem entryInfos_ne_nil (hidf : lyt.incomingDataFlow t ≠ []) : entryInfos lyt v t ≠ [] := by
  rw [entryInfos]
  split_ifs <;> simp [hidf]

theorem onlyFeeds_of_entryInfos {i : PathInfo} (hidf : lyt.incomingDataFlow t ≠ [])
    (h : entryInfos lyt v t = [i]) : ∃ s, OnlyFeeds lyt s t ∧ v s = i := by
  rw [entryInfos] at h
  split_ifs at h with hpi
  · have hlength := congrArg List.length h
    rw [List.length_append, List.length_map, List.length_singleton,
      List.length_singleton] at hlength
    exact absurd (List.length_eq_zero_iff.mp (Nat.succ.inj hlength)) hidf
  · obtain ⟨s, hs, hsi⟩ := List.map_eq_singleton_iff.mp h
    exact ⟨s, ⟨hs, Bool.eq_false_iff.mpr hpi⟩, hsi⟩

theorem OnlyFeeds.entryInfos (h : OnlyFeeds lyt s t) : entryInfos lyt v t = [v s] := by
  rw [CriticalPath.entryInfos, h.1, h.2]
  rfl

theorem obeys_empty (hv : (delayGraph sort lyt).Obeys v) (ht : lyt.isEmptyTile t = true) :
    v t = ⟨0, 0, 0⟩ := by
  rw [hv t, delayGraph_rule_empty ht]

theorem obeys_source (hv : (delayGraph sort lyt).Obeys v) (ht : lyt.isEmptyTile t = false)
    (hidf : lyt.incomingDataFlow t = []) : v t = ⟨1, lyt.clocked.getClockNumber t, 0⟩ := by
  rw [hv t, delayGraph_rule_source ht hidf]

theorem obeys_gate (hv : (delayGraph sort lyt).Obeys v) (ht : lyt.isEmptyTile t = false)
    (hidf : lyt.incomingDataFlow t ≠ []) :
    v t = ⟨(dominantPath sort (entryInfos lyt v t)).length + 1,
      (dominantPath sort (entryInfos lyt v t)).delay + 1,
      (dominantPath sort (entryInfos lyt v t)).diff⟩ := by
  rw [hv t, delayGraph_rule ht hidf, delayGraph_deps ht]
  rfl

end Records

section Arrivals

variable {sort : List PathInfo → List PathInfo} {lyt : GateLevelLayout} {v : Tile → PathInfo}
  {s t : Tile} {l e : ℕ}

theorem pathDelay_concat {p : List Tile} (hp : p ≠ []) (t : Tile) :
    pathDelay lyt (p ++ [t]) = pathDelay lyt p + 1 := by
  obtain ⟨a, p, rfl⟩ := List.exists_cons_of_ne_nil hp
  rw [pathDelay, pathDelay, List.cons_append, List.head?_cons, List.head?_cons, List.length_cons,
    List.length_cons, List.length_append, List.length_singleton]
  omega

theorem Entry.arrival (h : Entry lyt t l e) (ht : lyt.isEmptyTile t = false)
    (hidf : lyt.incomingDataFlow t ≠ []) : Arrival lyt t (l + 1) (e + 1) := by
  cases h with
  | fanin hs h => exact .step h.1 ht hs
  | input hpi => exact .input ht hidf hpi

theorem entry_of_mem_entryInfos
    (hfeeds : ∀ s ∈ lyt.incomingDataFlow t, LongestArrival lyt s (v s).length (v s).delay)
    {i : PathInfo} (hi : i ∈ entryInfos lyt v t) : Entry lyt t i.length i.delay := by
  rcases mem_entryInfos.mp hi with ⟨s, hs, rfl⟩ | ⟨hpi, rfl⟩
  · exact .fanin hs (hfeeds s hs)
  · exact .input hpi

theorem exists_mem_entryInfos
    (hfeeds : ∀ s ∈ lyt.incomingDataFlow t, LongestArrival lyt s (v s).length (v s).delay)
    (h : Entry lyt t l e) : ∃ i ∈ entryInfos lyt v t, i.length = l := by
  cases h with
  | fanin hs h =>
    have hle := (hfeeds _ hs).2 _ _ h.1
    have hge := h.2 _ _ (hfeeds _ hs).1
    exact ⟨_, mem_entryInfos.mpr (.inl ⟨_, hs, rfl⟩), le_antisymm hge hle⟩
  | input hpi => exact ⟨_, mem_entryInfos.mpr (.inr ⟨hpi, rfl⟩), rfl⟩

variable (hsort : SortsByLength sort) (hv : (delayGraph sort lyt).Obeys v)
  (hwf : WellFounded (delayGraph sort lyt).Dep)

include hsort hv hwf

/-- The length and the delay of a tile are those of a longest path to it. The induction follows the
data flow. -/
theorem longestArrival (t : Tile) : LongestArrival lyt t (v t).length (v t).delay := by
  induction t using hwf.induction with
  | _ t ih =>
    cases ht : lyt.isEmptyTile t with
    | true =>
      rw [obeys_empty hv ht]
      refine ⟨.empty ht, fun l e h => ?_⟩
      cases h with
      | empty => exact le_rfl
      | source hocc => simp [ht] at hocc
      | input hocc => simp [ht] at hocc
      | step _ hocc => simp [ht] at hocc
    | false =>
      by_cases hidf : lyt.incomingDataFlow t = []
      · rw [obeys_source hv ht hidf]
        refine ⟨.source ht hidf, fun l e h => ?_⟩
        cases h with
        | empty => exact Nat.zero_le _
        | source => exact le_rfl
        | input _ hne => exact absurd hidf hne
        | step _ _ hst => simp [hidf] at hst
      · have hfeeds : ∀ s ∈ lyt.incomingDataFlow t,
            LongestArrival lyt s (v s).length (v s).delay := fun s hs =>
          ih s (by rwa [Graph.Dep, delayGraph_deps ht])
        obtain ⟨_, -, back, hback, hbetween, hlength, hdelay, -⟩ :=
          dominantPath_spec hsort (entryInfos_ne_nil (v := v) hidf)
        rw [obeys_gate hv ht hidf, hlength, hdelay]
        have hentry := entry_of_mem_entryInfos hfeeds hback
        refine ⟨hentry.arrival ht hidf, fun l e h => ?_⟩
        cases h with
        | empty hocc => simp [ht] at hocc
        | source _ hnil => exact absurd hnil hidf
        | input _ _ hpi =>
          exact Nat.succ_le_succ (hbetween _ (mem_entryInfos.mpr (.inr ⟨hpi, rfl⟩))).2
        | step hs _ hst =>
          have hle := (hbetween _ (mem_entryInfos.mpr (.inl ⟨_, hst, rfl⟩))).2
          exact Nat.succ_le_succ (((hfeeds _ hst).2 _ _ hs).trans hle)

theorem imbalance_diff (t : Tile) : Imbalance lyt t (v t).diff := by
  have hlongest := longestArrival hsort hv hwf
  induction t using hwf.induction with
  | _ t ih =>
    cases ht : lyt.isEmptyTile t with
    | true =>
      rw [obeys_empty hv ht]
      exact .start (.inl ht)
    | false =>
      by_cases hidf : lyt.incomingDataFlow t = []
      · rw [obeys_source hv ht hidf]
        exact .start (.inr hidf)
      · have hentry : ∀ i ∈ entryInfos lyt v t, Entry lyt t i.length i.delay := fun i =>
          entry_of_mem_entryInfos fun s _ => hlongest s
        obtain ⟨front, hfront, back, hback, hbetween, -, -, hdiff⟩ :=
          dominantPath_spec hsort (entryInfos_ne_nil (v := v) hidf)
        rw [obeys_gate hv ht hidf]
        rcases hdiff with ⟨hone, hdiff⟩ | ⟨hmany, hdiff⟩
        · obtain ⟨s, hst, hsv⟩ := onlyFeeds_of_entryInfos hidf hone
          rw [hdiff, ← hsv]
          apply Imbalance.chain ht hst
          apply ih
          rw [Graph.Dep, delayGraph_deps ht, hst.1]
          exact List.mem_singleton.mpr rfl
        · rw [hdiff]
          apply Imbalance.join ht hidf _ (hentry front hfront) (hentry back hback)
          · intro l e h
            obtain ⟨i, hi, rfl⟩ := exists_mem_entryInfos (fun s _ => hlongest s) h
            exact hbetween i hi
          · intro s hst
            exact hmany _ hst.entryInfos

end Arrivals

section Phases

/-- A delay that is determined by the length of a path and its last clock number. -/
structure Tight (n c length delay : ℕ) : Prop where
  mod : delay % n = c
  lower : length ≤ delay + 1
  upper : delay + 1 < length + n

variable {n c l d d' : ℕ}

theorem Tight.unique (h : Tight n c l d) (h' : Tight n c l d') : d = d' := by
  have hle : ∀ {d d'}, Tight n c l d → Tight n c l d' → d ≤ d' := by
    intro d d' h h'
    by_contra hlt
    have hlt' : d' < d := not_le.mp hlt
    have hdvd : n ∣ d - d' := (Nat.modEq_iff_dvd' hlt'.le).mp (h'.mod.trans h.mod.symm)
    have hn := Nat.le_of_dvd (Nat.sub_pos_of_lt hlt') hdvd
    have hupper := h.upper
    have hlower := h'.lower
    omega
  exact le_antisymm (hle h h') (hle h' h)

theorem Tight.succ {c' : ℕ} (h : Tight n c l d) (hc : (c + 1) % n = c') :
    Tight n c' (l + 1) (d + 1) where
  mod := by rw [← hc, ← h.mod, Nat.mod_add_mod]
  lower := Nat.succ_le_succ h.lower
  upper := by
    have hupper := h.upper
    omega

theorem Tight.start (hc : c < n) : Tight n c 1 c := ⟨Nat.mod_eq_of_lt hc, by omega, by omega⟩

theorem pred_unique (hc : c < n) {c' : ℕ} (hc' : c' < n) (h : (c' + 1) % n = c) :
    c' = (c + (n - 1)) % n := by
  rcases Nat.lt_or_ge (c' + 1) n with hlt | hge
  · rw [Nat.mod_eq_of_lt hlt] at h
    rw [← h, show c' + 1 + (n - 1) = c' + n by omega, Nat.add_mod_right, Nat.mod_eq_of_lt hc']
  · rw [show c' + 1 = n by omega, Nat.mod_self] at h
    rw [← h, Nat.zero_add, Nat.mod_eq_of_lt (by omega)]
    omega

theorem pred_succ (hc : c < n) : ((c + (n - 1)) % n + 1) % n = c := by
  rw [Nat.mod_add_mod, show c + (n - 1) + 1 = c + n by omega, Nat.add_mod_right,
    Nat.mod_eq_of_lt hc]

variable {lyt : GateLevelLayout} {s t : Tile} {e e' k k' : ℕ}

theorem InCone.feeds (h : InCone lyt t) (ht : lyt.isEmptyTile t = false)
    (hs : s ∈ lyt.incomingDataFlow t) : InCone lyt s := by
  obtain ⟨po, hpo, hreach⟩ := h
  exact ⟨po, hpo, .head ⟨ht, hs⟩ hreach⟩

theorem InPhase.tight (hph : InPhase lyt) (h : Arrival lyt t l e) (ht : InCone lyt t)
    (hocc : lyt.isEmptyTile t = false) :
    Tight lyt.clocked.numClocks (lyt.clocked.getClockNumber t) l e := by
  induction h with
  | empty hempty => simp [hempty] at hocc
  | source => exact .start (hph.lt _ ht hocc)
  | input =>
    have hlt := hph.lt _ ht hocc
    exact (Tight.start (Nat.mod_lt _ (Nat.zero_lt_of_lt hlt))).succ (pred_succ hlt)
  | step _ _ hst ih =>
    exact (ih (ht.feeds hocc hst) (hph.occupied _ ht hocc _ hst)).succ
      (hph.next _ ht hocc _ hst)

theorem InPhase.entry_tight (hph : InPhase lyt) (h : Entry lyt t l e) (ht : InCone lyt t)
    (hocc : lyt.isEmptyTile t = false) :
    Tight lyt.clocked.numClocks (clockNumberBefore lyt t) l e := by
  have hlt := hph.lt t ht hocc
  cases h with
  | @fanin s _ _ hs h =>
    have hcone := ht.feeds hocc hs
    have hoccs := hph.occupied t ht hocc s hs
    rw [clockNumberBefore, ← pred_unique hlt (hph.lt s hcone hoccs) (hph.next t ht hocc s hs)]
    exact hph.tight h.1 hcone hoccs
  | input => exact .start (Nat.mod_lt _ (Nat.zero_lt_of_lt hlt))

/-- In phase, a tile has a single imbalance. The induction follows the chain of tiles. -/
theorem InPhase.imbalance_unique (hph : InPhase lyt) (h : Imbalance lyt t k)
    (h' : Imbalance lyt t k') (ht : InCone lyt t) (hocc : lyt.isEmptyTile t = false) : k = k' := by
  induction h with
  | @start t hstart =>
    have hidf : lyt.incomingDataFlow t = [] := hstart.resolve_left (by simp [hocc])
    cases h' with
    | start => rfl
    | join _ hne => exact absurd hidf hne
    | chain _ hst => simp [OnlyFeeds, hidf] at hst
  | @join t l e l' e' _ hne hmany hfront hback hbetween =>
    cases h' with
    | start hstart =>
      rcases hstart with hempty | hidf
      · simp [hempty] at hocc
      · exact absurd hidf hne
    | @join _ i j i' j' _ _ _ hfront' hback' hbetween' =>
      have hl : l = i := le_antisymm (hbetween _ _ hfront').1 (hbetween' _ _ hfront).1
      have hl' : l' = i' := le_antisymm (hbetween' _ _ hback).2 (hbetween _ _ hback').2
      subst hl hl'
      have he : e = j :=
        (hph.entry_tight hfront ht hocc).unique (hph.entry_tight hfront' ht hocc)
      have he' : e' = j' :=
        (hph.entry_tight hback ht hocc).unique (hph.entry_tight hback' ht hocc)
      rw [he, he']
    | chain _ hst => exact absurd hst (hmany _)
  | @chain s t k _ hst _ ih =>
    have hs : s ∈ lyt.incomingDataFlow t := by simp [hst.1]
    cases h' with
    | start hstart =>
      rcases hstart with hempty | hidf
      · simp [hempty] at hocc
      · simp [hidf] at hs
    | join _ _ hmany => exact absurd hst (hmany _)
    | @chain s' _ _ _ hst' h' =>
      obtain rfl := List.singleton_injective (hst'.1.symm.trans hst.1)
      exact ih h' (ht.feeds hocc hs) (hph.occupied t ht hocc _ hs)

theorem InPhase.settled (hph : InPhase lyt) : Settled lyt := by
  rintro _ ⟨t, k, hgate, hk, rfl⟩
  refine ⟨t, hgate, fun k' hk' => ?_⟩
  rw [hph.imbalance_unique hk hk' hgate.1 hgate.2.1]

end Phases

section Run

variable {sort : List PathInfo → List PathInfo} {lyt : GateLevelLayout} {v : Tile → PathInfo}

theorem foreachPoDelay_eq_traverse {fuel : ℕ} (pos : List Tile) (delayCache : DelayCache)
    (length : ℕ) : foreachPoDelay sort lyt fuel pos delayCache length =
      (Graph.traverse (signalDelay sort lyt fuel) delayCache pos).map fun r =>
        (r.1.foldl (fun length info => max info.length length) length, r.2) := by
  induction pos generalizing delayCache length with
  | nil => rfl
  | cons po pos ih =>
    rw [foreachPoDelay, Graph.traverse]
    simp only [ih, Option.bind_eq_bind, Option.pure_def]
    cases signalDelay sort lyt fuel delayCache po with
    | none => rfl
    | some x =>
      simp only [Option.bind_some]
      cases Graph.traverse (signalDelay sort lyt fuel) x.2 pos <;> rfl

theorem delayGraph_deps_ne_nil {t : Tile} : (delayGraph sort lyt).deps t ≠ [] ↔
    lyt.isEmptyTile t = false ∧ lyt.incomingDataFlow t ≠ [] := by
  simp only [delayGraph]
  cases lyt.isEmptyTile t <;> simp

theorem foreachPoDelay_cache (hv : (delayGraph sort lyt).Obeys v) {fuel length : ℕ}
    {delayCache : DelayCache}
    (h : foreachPoDelay sort lyt fuel lyt.foreachPo [] 0 = some (length, delayCache)) :
    (∀ p ∈ delayCache, p.2 = v p.1 ∧ ConeGate lyt p.1) ∧
      ∀ t, ConeGate lyt t → lyt.incomingDataFlow t ≠ [] → (t, v t) ∈ delayCache := by
  have hdep : (delayGraph sort lyt).Dep = Feeds lyt := by
    funext s t
    exact propext dep_iff_feeds
  rw [foreachPoDelay_eq_traverse, signalDelay_eq_memoized] at h
  obtain ⟨⟨infos, cache⟩, htraverse, he⟩ := Option.map_eq_some_iff.mp h
  obtain ⟨-, rfl⟩ := Prod.mk.inj he
  have hvalues := (Graph.traverse_spec (P := fun t info => info = v t)
    (f := (delayGraph sort lyt).memoized (fun t => !lyt.isWireTile t) fuel)
    (I := Graph.CacheAll fun t info => info = v t)
    (fun _ _ _ _ _ hI hf => Graph.memoized_spec (fun t infos h => hv.rule_eq h) hI hf)
    (fun p hp => absurd hp List.not_mem_nil) htraverse).2
  have hkeys := (Graph.traverse_spec (P := fun _ _ => True)
    (I := fun cache => ∀ p ∈ cache, InCone lyt p.1 ∧ (!lyt.isWireTile p.1) = true ∧
      (delayGraph sort lyt).deps p.1 ≠ [])
    (fun cache po hpo _ _ hI hf => ⟨trivial, Graph.memoized_keys (Q := InCone lyt)
      (fun s t hst ht => by
        rw [hdep] at hst
        exact ht.feeds hst.1 hst.2) ⟨po, hpo, .refl⟩ hI hf⟩)
    (fun p hp => absurd hp List.not_mem_nil) htraverse).2
  have hcovers := (Graph.traverse_preserves
    (I := (delayGraph sort lyt).Closed fun t => !lyt.isWireTile t) (R := fun c₁ c₂ => c₁ ⊆ c₂)
    (C := (delayGraph sort lyt).Covers fun t => !lyt.isWireTile t) (fun _ _ hp => hp)
    (fun _ _ _ h₁ h₂ _ hp => h₂ (h₁ hp)) (fun _ _ _ => Graph.Covers.mono)
    (fun _ _ _ _ hI hf => Graph.memoized_closed hI hf)
    (fun p hp => absurd hp List.not_mem_nil) htraverse).2.2
  constructor
  · intro p hp
    obtain ⟨hcone, hst, hdeps⟩ := hkeys p hp
    exact ⟨hvalues p hp, hcone, (delayGraph_deps_ne_nil.mp hdeps).1, by simpa using hst⟩
  · rintro t ⟨⟨po, hpo, hreach⟩, hocc, hwire⟩ hidf
    rw [← hdep] at hreach
    obtain ⟨info, hmem⟩ := hcovers po hpo t hreach (by simp [hwire])
      (delayGraph_deps_ne_nil.mpr ⟨hocc, hidf⟩)
    have hval : info = v t := hvalues _ hmem
    rwa [hval] at hmem

theorem isMaximum_foldr {ι : Type*} (f : ι → ℕ) (l : List ι) :
    IsMaximum {k | ∃ i ∈ l, f i = k} ((l.map f).foldr max 0) := by
  induction l with
  | nil => exact ⟨by simp, .inr rfl⟩
  | cons i l ih =>
    obtain ⟨hle, hmem⟩ := ih
    rw [List.map_cons, List.foldr_cons]
    constructor
    · rintro _ ⟨j, hj, rfl⟩
      rcases List.mem_cons.mp hj with rfl | hj
      · exact le_max_left _ _
      · exact (hle _ ⟨j, hj, rfl⟩).trans (le_max_right _ _)
    · rcases le_total (f i) ((l.map f).foldr max 0) with h | h
      · rw [max_eq_right h]
        exact hmem.imp_left fun ⟨j, hj, he⟩ => ⟨j, .tail _ hj, he⟩
      · rw [max_eq_left h]
        exact .inl ⟨i, .head _, rfl⟩

theorem exists_isMaximum {S : Set ℕ} {b : ℕ} (h : ∀ k ∈ S, k ≤ b) : ∃ d, IsMaximum S d := by
  rcases S.eq_empty_or_nonempty with rfl | hne
  · exact ⟨0, nofun, .inr rfl⟩
  · have hbdd : BddAbove S := ⟨b, h⟩
    exact ⟨sSup S, fun k hk => le_csSup hbdd hk, .inl (Nat.sSup_mem hne hbdd)⟩

theorem IsMaximum.unique {S : Set ℕ} {a b : ℕ} (ha : IsMaximum S a) (hb : IsMaximum S b) :
    a = b := by
  have hle : ∀ {a b}, IsMaximum S a → IsMaximum S b → a ≤ b := by
    rintro a b ⟨-, ha | rfl⟩ hb
    · exact hb.1 a ha
    · exact Nat.zero_le b
  exact le_antisymm (hle ha hb) (hle hb ha)

theorem isMaximum_maxDiff (hv : (delayGraph sort lyt).Obeys v) {fuel length : ℕ}
    {delayCache : DelayCache}
    (h : foreachPoDelay sort lyt fuel lyt.foreachPo [] 0 = some (length, delayCache)) :
    IsMaximum {k | ∃ t, ConeGate lyt t ∧ (v t).diff = k} (maxDiff delayCache) := by
  obtain ⟨hkeys, hcached⟩ := foreachPoDelay_cache hv h
  obtain ⟨hle, hmem⟩ := isMaximum_foldr (fun i : Tile × PathInfo => i.2.diff) delayCache
  constructor
  · rintro _ ⟨t, hgate, rfl⟩
    by_cases hidf : lyt.incomingDataFlow t = []
    · rw [obeys_source hv hgate.2.1 hidf]
      exact Nat.zero_le _
    · exact hle _ ⟨_, hcached t hgate hidf, rfl⟩
  · refine hmem.imp_left fun ⟨i, hi, hik⟩ => ?_
    obtain ⟨hval, hgate⟩ := hkeys i hi
    exact ⟨i.1, hgate, by rw [← hval, hik]; rfl⟩

/-- Whatever ties are left, the greatest difference has a possible number of whole cycles. -/
theorem possible_of_isMaximum (hsort : SortsByLength sort)
    (hv : (delayGraph sort lyt).Obeys v) (hwf : WellFounded (delayGraph sort lyt).Dep) {m : ℕ}
    (hm : IsMaximum {k | ∃ t, ConeGate lyt t ∧ (v t).diff = k} m) :
    Possible lyt (m / lyt.clocked.numClocks) := by
  constructor
  · rcases hm.2 with ⟨t, hgate, rfl⟩ | rfl
    · exact .inl ⟨t, _, hgate, imbalance_diff hsort hv hwf t, rfl⟩
    · exact .inr (Nat.zero_div _)
  · intro t hgate
    exact ⟨_, imbalance_diff hsort hv hwf t, Nat.div_le_div_right (hm.1 _ ⟨t, hgate, rfl⟩)⟩

theorem Settled.isMaximum (hset : Settled lyt) {c : ℕ} (h : Possible lyt c) :
    IsMaximum (imbalancedCycles lyt) c := by
  refine ⟨fun c' hc' => ?_, h.1⟩
  obtain ⟨t, hgate, hle⟩ := hset c' hc'
  obtain ⟨k, hk, hkc⟩ := h.2 t hgate
  exact (hle k hk).trans hkc

theorem DataFlowPath.head_occupied {t : Tile} {p : List Tile} (h : DataFlowPath lyt t p) :
    ∃ i, p.head? = some i ∧ lyt.isEmptyTile i = false := by
  induction h with
  | @source t ht => exact ⟨t, rfl, ht⟩
  | step hp _ _ ih =>
    obtain ⟨i, hi, hocc⟩ := ih
    exact ⟨i, by rw [List.head?_append_of_ne_nil _ hp.ne_nil, hi], hocc⟩

theorem exists_bound (hfin : GateLevelLayout.FinitelyOccupied lyt) (f : Tile → ℕ) :
    ∃ b, ∀ t, lyt.isEmptyTile t = false → f t ≤ b := by
  obtain ⟨b, hb⟩ := (hfin.image f).bddAbove
  refine ⟨b, fun t ht => hb ⟨t, fun hnone => ?_, rfl⟩⟩
  simp [GateLevelLayout.isEmptyTile, GateLevelLayout.getNode, hnone] at ht

theorem exists_isMaximum_delayDifferences (hfin : GateLevelLayout.FinitelyOccupied lyt)
    (hsort : SortsByLength sort) (hv : (delayGraph sort lyt).Obeys v)
    (hwf : WellFounded (delayGraph sort lyt).Dep) : ∃ d, IsMaximum (delayDifferences lyt) d := by
  obtain ⟨c, hclock⟩ := exists_bound hfin lyt.clocked.getClockNumber
  obtain ⟨l, hlength⟩ := exists_bound hfin fun t => (v t).length
  apply exists_isMaximum (b := c + l)
  rintro k ⟨t, -, p, q, -, hq, hk⟩
  obtain ⟨i, hi, hocc⟩ := hq.head_occupied
  have hweight := (isMaximum_length hsort hv hwf t).1 _ ⟨q, hq, rfl⟩
  have hlen := ((length_le_pathWeight q).trans hweight).trans (hlength t hq.occupied)
  have hhead := hclock i hocc
  rw [pathDelay, hi, Option.elim_some] at hk
  omega

end Run

section Examples

open GateLevelLayout

theorem inPhase_of_planar {lyt : GateLevelLayout}
    (hplanar : ∀ a b : Tile, a.x = b.x → a.y = b.y →
      lyt.clocked.getClockNumber a = lyt.clocked.getClockNumber b)
    (hlt : ∀ t, lyt.clocked.getClockNumber t < lyt.clocked.numClocks)
    (hocc : ∀ n < lyt.size, ∀ s ∈ (lyt.node n).children, lyt.isEmptyTile s = false) :
    InPhase lyt where
  occupied t _ _ s hs := hocc _ (getNode_lt_size hs) s (mem_children_of_mem_incomingDataFlow hs)
  lt t _ _ := hlt t
  next t _ _ s hs := by
    obtain ⟨i, hi, hs⟩ := List.mem_flatMap.mp (OrderedSet.mem_of_mem_ofList hs)
    have hmem := OrderedSet.mem_of_mem_ofList (List.mem_filter.mp hs).1
    have hpos : s.x = i.x ∧ s.y = i.y := by
      simp only [List.mem_cons, List.not_mem_nil, or_false] at hmem
      rcases hmem with rfl | rfl | rfl
      · exact ⟨rfl, rfl⟩
      · unfold CoordinateLayout.above
        split_ifs <;> exact ⟨rfl, rfl⟩
      · unfold CoordinateLayout.below
        split_ifs <;> exact ⟨rfl, rfl⟩
    have hclk := (List.mem_filter.mp hi).2
    rw [ClockedLayout.isIncomingClocked] at hclk
    split_ifs at hclk
    rw [hplanar s i hpos.1 hpos.2]
    exact of_decide_eq_true hclk

theorem twoddwave_planar (n : ℕ) (hn : 0 < n) (dimension : Ucoord) (a : Arrangement) :
    let clocked : ClockedLayout := ⟨⟨dimension, a⟩, .twoddwaveClocking n⟩
    (∀ a b : Tile, a.x = b.x → a.y = b.y → clocked.getClockNumber a = clocked.getClockNumber b) ∧
      ∀ t, clocked.getClockNumber t < clocked.numClocks := by
  intro clocked
  constructor
  · intro a b hx hy
    show (a.y % n + a.x % n) % n = (b.y % n + b.x % n) % n
    rw [hx, hy]
  · exact fun t => Nat.mod_lt _ hn

/-- Two inputs on top of each other, the upper one a clock phase later, feed a gate that the path of
a third one enters, too. The throughput depends on which of the two is taken for the shortest path. -/
example :
    let clocked : ClockedLayout := ⟨⟨.at3 2 3 1, .cartesian⟩, .twoddwaveClocking 3⟩
    let lyt : GateLevelLayout := { (system clocked "").run
      [.createPi "" (.at2 1 2), .createPi "" (.at3 1 2 1), .createPi "" (.at2 0 0),
        .createNode [.at2 0 0] .identity (.at2 1 0), .createNode [.at2 1 0] .identity (.at2 2 0),
        .createNode [.at2 2 0] .identity (.at2 2 1),
        .createNode [.at2 2 1, .at2 1 2, .at3 1 2 1] .maj (.at2 2 2),
        .createPo (.at2 2 2) "" (.at2 2 3)] with
      clocked := clocked.assignClockNumber (.at3 1 2 1) 1 }
    run insertionSort lyt 10 = some ⟨6, 2⟩ ∧
      run (fun infos => insertionSort infos.reverse) lyt 10 = some ⟨6, 1⟩ := by
  decide +kernel

/-- Three inputs, two of which meet at a gate before the third one joins them. -/
def nestedGates : GateLevelLayout :=
  (system ⟨⟨.at2 6 3, .cartesian⟩, .twoddwaveClocking 3⟩ "").run
    [.createPi "" (.at2 3 3), .createPi "" (.at2 1 2), .createPi "" (.at2 0 0),
      .createNode [.at2 1 2] .identity (.at2 2 2), .createNode [.at2 2 2] .identity (.at2 3 2),
      .createNode [.at2 3 2] .identity (.at2 4 2),
      .createNode [.at2 3 3, .at2 4 2] .and (.at2 4 3),
      .createNode [.at2 0 0] .identity (.at2 1 0), .createNode [.at2 1 0] .identity (.at2 2 0),
      .createNode [.at2 2 0] .identity (.at2 3 0), .createNode [.at2 3 0] .identity (.at2 4 0),
      .createNode [.at2 4 0] .identity (.at2 5 0), .createNode [.at2 5 0] .identity (.at2 5 1),
      .createNode [.at2 5 1] .identity (.at2 5 2),
      .createNode [.at2 4 3, .at2 5 2] .and (.at2 5 3), .createPo (.at2 5 3) "" (.at2 6 3)]

theorem nestedGates_difference : 6 ∈ delayDifferences nestedGates := by
  have hstep : ∀ {s t : Tile} {p : List Tile}, DataFlowPath nestedGates s p →
      nestedGates.isEmptyTile t = false ∧ s ∈ nestedGates.incomingDataFlow t →
        DataFlowPath nestedGates t (p ++ [t]) := fun hp h => .step hp h.1 h.2
  have hshort : DataFlowPath nestedGates (.at2 5 3) [.at2 3 3, .at2 4 3, .at2 5 3] :=
    hstep (hstep (.source (by decide +kernel) (.inl (by decide +kernel))) (by decide +kernel))
      (by decide +kernel)
  have hrow : DataFlowPath nestedGates (.at2 5 0)
      [.at2 0 0, .at2 1 0, .at2 2 0, .at2 3 0, .at2 4 0, .at2 5 0] :=
    hstep (hstep (hstep (hstep (hstep
      (.source (by decide +kernel) (.inl (by decide +kernel))) (by decide +kernel))
      (by decide +kernel)) (by decide +kernel)) (by decide +kernel)) (by decide +kernel)
  have hlong : DataFlowPath nestedGates (.at2 5 3) [.at2 0 0, .at2 1 0, .at2 2 0, .at2 3 0,
      .at2 4 0, .at2 5 0, .at2 5 1, .at2 5 2, .at2 5 3] :=
    hstep (hstep (hstep hrow (by decide +kernel)) (by decide +kernel)) (by decide +kernel)
  have hpo : Feeds nestedGates (.at2 5 3) (.at2 6 3) := ⟨by decide +kernel, by decide +kernel⟩
  have hgate : ConeGate nestedGates (.at2 5 3) :=
    ⟨⟨.at2 6 3, by decide +kernel, .single hpo⟩, by decide +kernel, by decide +kernel⟩
  exact ⟨.at2 5 3, hgate, _, _, hshort, hlong, by decide +kernel⟩

end Examples

end Fiction.CriticalPath
