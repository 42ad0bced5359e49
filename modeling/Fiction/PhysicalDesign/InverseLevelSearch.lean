import Fiction.PhysicalDesign.EdgeColoring
import Fiction.PhysicalDesign.MajorityBuffer
import Mathlib.Data.Finset.Lattice.Fold
import Mathlib.Logic.Relation

/-!
# The search for inverse levels

`inverse_levels` starts at the drivers of the primary outputs. It enters a node only if all fan-outs
of the node are discovered, and leaves it to a later visit otherwise. The last of these visits is
made when the last fan-out of the node is entered. A recursion that runs out of fuel is `none`.
-/

namespace Fiction.InverseLevelSearch

open TechnologyNetwork LongestPaths InverseLevels
open MajorityBuffer (foreachFanin Acyclic)

variable {ntk : TechnologyNetwork} (V : FanoutView ntk)

section Definitions

def inverseLevels (fuel : ℕ) : Option (ℕ → ℕ) := do
  let s ← search V.fanouts (foreachFanin ntk) fuel ntk.foreachPo
  some s.invLevel

/-- Some driver of a primary output is reached from `n` along fan-outs. -/
def ReachesPo (n : ℕ) : Prop :=
  ∃ po ∈ ntk.foreachPo, Relation.ReflTransGen (fun a b => b ∈ V.fanouts a) n po

/-- A node without fan-outs is a constant, an input, or drives an output. -/
def AllUsed : Prop := ∀ n < ntk.size, V.fanouts n = [] →
  isConstant n = true ∨ ntk.isPi n = true ∨ n ∈ ntk.foreachPo

instance : Decidable (AllUsed V) := inferInstanceAs (Decidable (∀ n < ntk.size, _))

end Definitions

section Fanouts

variable {V} {n m : ℕ}

theorem mem_fanouts : m ∈ V.fanouts n ↔ n ∈ foreachFanin ntk m := by
  rw [V.mem_fanouts, IsGate, isSource_iff, foreachFanin]
  split_ifs with hsource
  · exact iff_of_false (fun h => h.1.2 hsource) List.not_mem_nil
  · constructor
    · exact fun h => h.2
    · intro h
      refine ⟨⟨?_, hsource⟩, h⟩
      by_contra hm
      rw [node, List.getD_eq_getElem?_getD, List.getElem?_eq_none (not_lt.1 hm)] at h
      cases h

theorem isGate_of_mem_fanouts (h : m ∈ V.fanouts n) : ntk.IsGate m := ((V.mem_fanouts n m).1 h).1

theorem AllUsed.mem_foreachPo (h : AllUsed V) (hm : ntk.IsGate m) (hnil : V.fanouts m = []) :
    m ∈ ntk.foreachPo := by
  have hsource := hm.2
  rw [isSource_iff, not_or] at hsource
  rcases h m hm.1 hnil with hconst | hpi | hpo
  · exact absurd hconst hsource.1
  · refine absurd ?_ hsource.2
    rw [isPi, List.contains_iff_mem] at hpi
    rw [isCi, List.contains_iff_mem]
    exact List.mem_of_mem_take hpi
  · exact hpo

end Fanouts

section States

variable {V} {n : ℕ} {s s' s'' : InverseLevels}

/-- Discovered nodes have discovered fan-outs and final levels. -/
structure Leveled (V : FanoutView ntk) (s : InverseLevels) : Prop where
  closed : ∀ n, s.discovered n = true → ∀ m ∈ V.fanouts n, s.discovered m = true
  level : ∀ n, s.discovered n = true → s.invLevel n = height V.fanouts s.invLevel n
  zero : ∀ n, s.discovered n = false → s.invLevel n = 0

/-- A node that could be entered from one of its fan-outs but has not been. -/
structure Pending (V : FanoutView ntk) (s : InverseLevels) (n : ℕ) : Prop where
  undiscovered : s.discovered n = false
  used : V.fanouts n ≠ []
  fanouts : ∀ m ∈ V.fanouts n, s.discovered m = true

theorem leveled_undiscovered : Leveled V undiscovered :=
  ⟨fun _ h => absurd h Bool.false_ne_true, fun _ h => absurd h Bool.false_ne_true, fun _ _ => rfl⟩

theorem not_pending_undiscovered : ¬ Pending V undiscovered n := by
  intro h
  obtain ⟨m, hm⟩ := List.exists_mem_of_ne_nil _ h.used
  exact absurd (h.fanouts m hm) Bool.false_ne_true

theorem Leveled.enter_of_discovered (h : Leveled V s) (hn : s.discovered n = true) :
    enter V.fanouts n s = s := by
  have hlevel := h.level n hn
  rw [height] at hlevel
  rw [enter, Function.update_eq_self_iff.2, Function.update_eq_self_iff.2 hn.symm]
  rw [hlevel]
  split_ifs
  · rfl
  · exact max_self _

theorem discovered_enter_self : (enter V.fanouts n s).discovered n = true := Function.update_self ..

theorem discovered_enter {k : ℕ} (h : s.discovered k = true) :
    (enter V.fanouts n s).discovered k = true := by
  by_cases hk : k = n
  · rw [hk]
    exact discovered_enter_self
  · exact (Function.update_of_ne hk ..).trans h

theorem leveled_enter (h : Leveled V s) (hall : ∀ m ∈ V.fanouts n, s.discovered m = true) :
    Leveled V (enter V.fanouts n s) := by
  by_cases hn : s.discovered n = true
  · rwa [h.enter_of_discovered hn]
  have hne : ∀ k, s.discovered k = true → k ≠ n := fun k hk heq => hn (heq ▸ hk)
  -- the level of the new node occurs in none of the old ones
  have hheight : ∀ k, (∀ m ∈ V.fanouts k, s.discovered m = true) →
      height V.fanouts (enter V.fanouts n s).invLevel k = height V.fanouts s.invLevel k :=
    fun k hk => height_congr fun m hm => Function.update_of_ne (hne m (hk m hm)) ..
  refine ⟨fun k hk m hm => ?_, fun k hk => ?_, fun k hk => ?_⟩
  · by_cases hkn : k = n
    · exact discovered_enter (hall m (hkn ▸ hm))
    · have hk' : s.discovered k = true := (Function.update_of_ne hkn ..).symm.trans hk
      exact discovered_enter (h.closed k hk' m hm)
  · by_cases hkn : k = n
    · subst hkn
      rw [hheight k hall, height]
      refine (Function.update_self ..).trans ?_
      rw [h.zero k (Bool.eq_false_of_not_eq_true hn), Nat.zero_max]
    · have hk' : s.discovered k = true := (Function.update_of_ne hkn ..).symm.trans hk
      rw [hheight k (h.closed k hk'), ← h.level k hk']
      exact Function.update_of_ne hkn ..
  · have hkn : k ≠ n := by
      rintro rfl
      exact Bool.false_ne_true (hk.symm.trans discovered_enter_self)
    have hk' : s.discovered k = false := (Function.update_of_ne hkn ..).symm.trans hk
    exact (Function.update_of_ne hkn ..).trans (h.zero k hk')

end States

section Visits

variable {V} {n : ℕ} {ns ns' : List ℕ} {s s' s'' : InverseLevels}

/-- What holds after visits of some nodes: none of them is pending, and no node has become so. -/
structure Visits (V : FanoutView ntk) (ns : List ℕ) (s s' : InverseLevels) : Prop where
  leveled : Leveled V s → Leveled V s'
  discovered : ∀ k, s.discovered k = true → s'.discovered k = true
  pending : ∀ k, Pending V s' k → Pending V s k ∧ k ∉ ns
  sink : ∀ k ∈ ns, V.fanouts k = [] → s'.discovered k = true

theorem Visits.refl (s : InverseLevels) : Visits V [] s s :=
  ⟨id, fun _ => id, fun _ h => ⟨h, List.not_mem_nil⟩, fun _ h => absurd h List.not_mem_nil⟩

theorem Visits.trans (h : Visits V ns s s') (h' : Visits V ns' s' s'') :
    Visits V (ns ++ ns') s s'' := by
  refine ⟨h'.leveled ∘ h.leveled, fun k hk => h'.discovered k (h.discovered k hk), ?_, ?_⟩
  · intro k hk
    obtain ⟨hk', hns'⟩ := h'.pending k hk
    obtain ⟨hk, hns⟩ := h.pending k hk'
    exact ⟨hk, fun hmem => (List.mem_append.1 hmem).elim hns hns'⟩
  · intro k hk hnil
    rcases List.mem_append.1 hk with hk | hk
    · exact h'.discovered k (h.sink k hk hnil)
    · exact h'.sink k hk hnil

theorem visits_of_discovered (hn : s.discovered n = true) : Visits V [n] s s where
  leveled := id
  discovered _ := id
  pending k hk := by
    refine ⟨hk, fun hmem => ?_⟩
    rw [List.mem_singleton.1 hmem] at hk
    exact Bool.false_ne_true (hk.undiscovered.symm.trans hn)
  sink k hk _ := List.mem_singleton.1 hk ▸ hn

theorem visits_of_undiscovered (hall : ¬ ∀ m ∈ V.fanouts n, s.discovered m = true) :
    Visits V [n] s s where
  leveled := id
  discovered _ := id
  pending k hk := by
    refine ⟨hk, fun hmem => hall ?_⟩
    rw [← List.mem_singleton.1 hmem]
    exact hk.fanouts
  sink k hk hnil := by
    refine absurd (fun m hm => ?_) hall
    rw [← List.mem_singleton.1 hk, hnil] at hm
    cases hm

theorem visits_of_fanins (hall : ∀ m ∈ V.fanouts n, s.discovered m = true)
    (h : Visits V (foreachFanin ntk n) (enter V.fanouts n s) s') : Visits V [n] s s' where
  leveled hs := h.leveled (leveled_enter hs hall)
  discovered k hk := h.discovered k (discovered_enter hk)
  pending k hk := by
    obtain ⟨hk, hfanin⟩ := h.pending k hk
    have hkn : k ≠ n := by
      rintro rfl
      exact Bool.false_ne_true (hk.undiscovered.symm.trans discovered_enter_self)
    refine ⟨⟨(Function.update_of_ne hkn ..).symm.trans hk.undiscovered, hk.used, fun m hm => ?_⟩,
      fun hmem => hkn (List.mem_singleton.1 hmem)⟩
    have hmn : m ≠ n := by
      rintro rfl
      exact hfanin (mem_fanouts.1 hm)
    exact (Function.update_of_ne hmn ..).symm.trans (hk.fanouts m hm)
  sink k hk _ := by
    rw [List.mem_singleton.1 hk]
    exact h.discovered n discovered_enter_self

theorem exists_foldlM_visits {visit : InverseLevels → ℕ → Option InverseLevels}
    (hvisit : ∀ n ∈ ns, ∀ s, ∃ s', visit s n = some s' ∧ Visits V [n] s s') (s : InverseLevels) :
    ∃ s', ns.foldlM visit s = some s' ∧ Visits V ns s s' := by
  apply exists_foldlM (I := fun ns => Visits V ns s) _ (Visits.refl s)
  rintro pre n suf s₁ rfl h₁
  obtain ⟨s₂, hs₂, h₂⟩ := hvisit n (List.mem_append_right pre List.mem_cons_self) s₁
  exact ⟨s₂, hs₂, h₁.trans h₂⟩

theorem exists_invJdfs {rank : ℕ → ℕ} (hrank : ∀ n, ∀ c ∈ foreachFanin ntk n, rank c < rank n)
    {fuel : ℕ} (hn : rank n < fuel) (s : InverseLevels) :
    ∃ s', invJdfs V.fanouts (foreachFanin ntk) fuel s n = some s' ∧ Visits V [n] s s' := by
  induction fuel generalizing n s with
  | zero => exact absurd hn (Nat.not_lt_zero _)
  | succ fuel ih =>
    rw [invJdfs]
    by_cases hall : (V.fanouts n).all s.discovered = true
    · rw [if_pos hall]
      rw [List.all_eq_true] at hall
      have hfanins : ∀ fin ∈ foreachFanin ntk n, ∀ s, ∃ s',
          (if s.discovered fin then some s
            else invJdfs V.fanouts (foreachFanin ntk) fuel s fin) = some s' ∧
              Visits V [fin] s s' := by
        intro fin hfin s
        by_cases hdisc : s.discovered fin = true
        · exact ⟨s, if_pos hdisc, visits_of_discovered hdisc⟩
        · rw [if_neg hdisc]
          exact ih ((hrank n fin hfin).trans_le (Nat.le_of_lt_succ hn)) s
      obtain ⟨s', hs', h⟩ := exists_foldlM_visits hfanins (enter V.fanouts n s)
      exact ⟨s', hs', visits_of_fanins hall h⟩
    · rw [if_neg hall]
      rw [List.all_eq_true] at hall
      exact ⟨s, rfl, visits_of_undiscovered hall⟩

end Visits

section Levels

variable {V} {n : ℕ} {s : InverseLevels}

theorem used_of_reachesPo (h : ReachesPo V n) : n ∈ ntk.foreachPo ∨ V.fanouts n ≠ [] := by
  obtain ⟨po, hpo, hreach⟩ := h
  rcases hreach.cases_head with rfl | ⟨m, hm, -⟩
  · exact .inl hpo
  · exact .inr (List.ne_nil_of_mem hm)

/-- At the end all nodes above an output are discovered, by induction from the last fan-outs on. -/
theorem discovered_of_used {rank : ℕ → ℕ}
    (hrank : ∀ n, ∀ c ∈ foreachFanin ntk n, rank c < rank n) (hused : AllUsed V)
    (h : Visits V ntk.foreachPo undiscovered s) (hn : n ∈ ntk.foreachPo ∨ V.fanouts n ≠ []) :
    s.discovered n = true := by
  induction hk : (Finset.range ntk.size).sup rank - rank n using Nat.strong_induction_on
    generalizing n with
  | _ k ih =>
    by_contra hdisc
    by_cases hnil : V.fanouts n = []
    · exact hdisc (h.sink n (hn.resolve_right (not_not.2 hnil)) hnil)
    · refine not_pending_undiscovered (h.pending n
        ⟨Bool.eq_false_of_not_eq_true hdisc, hnil, fun m hm => ?_⟩).1
      have hgate := isGate_of_mem_fanouts hm
      have hlt : rank n < rank m := hrank m n (mem_fanouts.1 hm)
      have hle : rank m ≤ (Finset.range ntk.size).sup rank :=
        Finset.le_sup (Finset.mem_range.2 hgate.1)
      refine ih _ (by omega) ?_ rfl
      by_cases hmnil : V.fanouts m = []
      · exact .inl (hused.mem_foreachPo hgate hmnil)
      · exact .inr hmnil

variable (V)

theorem exists_search {rank : ℕ → ℕ} (hrank : ∀ n, ∀ c ∈ foreachFanin ntk n, rank c < rank n) :
    ∃ fuel s, search V.fanouts (foreachFanin ntk) fuel ntk.foreachPo = some s ∧
      Visits V ntk.foreachPo undiscovered s := by
  use (ntk.foreachPo.map rank).foldr max 0 + 1
  apply exists_foldlM_visits
  intro po hpo
  apply exists_invJdfs hrank
  exact Nat.lt_succ_of_le (le_foldr_max (List.mem_map_of_mem hpo))

theorem lt_size_of_isGreatest (ha : Acyclic ntk) {n k : ℕ} (hn : n < ntk.size)
    (h : IsGreatest {k | PathToSink V.fanouts n k} k) : k < ntk.size := by
  obtain ⟨rank, hrank⟩ := ha
  have hsucc : ∀ a, ∀ b ∈ V.fanouts a, b ∈ Finset.range ntk.size ∧ rank a < rank b := fun a b hb =>
    ⟨Finset.mem_range.2 (isGate_of_mem_fanouts hb).1, hrank b a (mem_fanouts.1 hb)⟩
  have hlt := h.1.lt_card hsucc (Finset.mem_range.2 hn)
  rwa [Finset.card_range] at hlt

/-- The levels of all nodes above an output are the lengths of longest paths along fan-outs, and
they are smaller than the number of nodes. -/
theorem exists_inverseLevels (ha : Acyclic ntk) (hused : AllUsed V) :
    ∃ fuel levels, inverseLevels V fuel = some levels ∧
      ∀ n, ReachesPo V n → IsGreatest {k | PathToSink V.fanouts n k} (levels n) ∧
        (n < ntk.size → levels n < ntk.size) := by
  have ⟨rank, hrank⟩ := ha
  obtain ⟨fuel, s, hs, h⟩ := exists_search V hrank
  refine ⟨fuel, s.invLevel, ?_, fun n hn => ?_⟩
  · rw [inverseLevels, hs]
    rfl
  · have hleveled := h.leveled leveled_undiscovered
    have hgreatest := isGreatest_level hleveled.closed hleveled.level
      (discovered_of_used hrank hused h (used_of_reachesPo hn))
    exact ⟨hgreatest, fun hlt => lt_size_of_isGreatest V ha hlt hgreatest⟩

end Levels

section Networks

def chainedOutputs : TechnologyNetwork :=
  let (ntk, x) := TechnologyNetwork.empty.createPi
  let (ntk, y) := ntk.createPi
  let (ntk, _) := ntk.createPi
  let (ntk, a) := ntk.createAnd x y
  let (ntk, b) := ntk.createAnd a y
  let (ntk, c) := ntk.createAnd a b
  ((ntk.createPo a).createPo c).createPo b

theorem exists_inverseLevels_chainedOutputs :
    ∃ fuel levels, inverseLevels chainedOutputs.fanoutView fuel = some levels ∧
      ∀ n, ReachesPo chainedOutputs.fanoutView n →
        IsGreatest {k | PathToSink chainedOutputs.fanoutView.fanouts n k} (levels n) ∧
          (n < chainedOutputs.size → levels n < chainedOutputs.size) :=
  exists_inverseLevels _ (MajorityBuffer.acyclic_of_forall_lt (by decide)) (by decide)

example : (inverseLevels chainedOutputs.fanoutView 4).map (List.map · [2, 3, 5, 6, 7]) =
    some [3, 3, 2, 1, 0] := by decide

end Networks

end Fiction.InverseLevelSearch
