import Fiction.NetworkTransformation.ConversionEquivalence
import Fiction.Networks.PartialCopy

/-!
# Network balancing

Buffers are inserted between a gate and each of its children until the child is one level below the
gate. The levels are those of a depth view of the network before the insertion. The largest level of
an empty list of outputs is undefined, and `none` here.
-/

namespace Fiction

/-- The largest of some levels, `0` if there are none. -/
def maxLevel (levels : List ℕ) : ℕ := levels.foldr max 0

/-- Levels of longest paths, for the listed gates. -/
structure DepthView (ntk : TechnologyNetwork) (gates : List ℕ) where
  level : ℕ → UInt32
  source : ∀ n, ntk.IsSource n → level n = 0
  gate : ∀ n ∈ gates, (level n).toNat =
    1 + maxLevel ((ntk.node n).children.map fun c => (level c).toNat)

structure NetworkBalancingParams where
  unifyOutputs : Bool := false

namespace NetworkBalancing

open TechnologyNetwork

/-- Inserts `num` buffers after `child`. -/
def insertBufChain : ℕ → TechnologyNetwork → ℕ → TechnologyNetwork × ℕ
  | 0, balanced, child => (balanced, child)
  | num + 1, balanced, child =>
    let (balanced, child) := balanced.createBuf child
    insertBufChain num balanced child

section Balancing

variable (ntk : TechnologyNetwork) (level : ℕ → UInt32) (ps : NetworkBalancingParams)

/-- Constants are not balanced. -/
def gatherChild (old2new : ℕ → ℕ) (n : ℕ) (balanced : TechnologyNetwork) (fn : ℕ) :
    TechnologyNetwork × ℕ :=
  if isConstant fn then (balanced, old2new fn)
  else insertBufChain (level n - level fn - 1).toNat balanced (old2new fn)

def gatherChildren (old2new : ℕ → ℕ) (n : ℕ) (balanced : TechnologyNetwork) :
    List ℕ → TechnologyNetwork × List ℕ
  | [] => (balanced, [])
  | fn :: fns =>
    let (balanced, child) := gatherChild level old2new n balanced fn
    let (balanced, children) := gatherChildren old2new n balanced fns
    (balanced, child :: children)

def balanceGate (s : TechnologyNetwork × (ℕ → ℕ)) (n : ℕ) : TechnologyNetwork × (ℕ → ℕ) :=
  let (balanced, children) := gatherChildren level s.2 n s.1 (ntk.node n).children
  let (balanced, created) := balanced.cloneNode ntk n children
  (balanced, Function.update s.2 n created)

def getPoLevels : List UInt32 := ntk.foreachPo.map level

/-- `std::max_element` -/
def maxElement : List UInt32 → Option UInt32
  | [] => none
  | l :: ls => some (ls.foldl (fun m k => if m < k then k else m) l)

/-- The signals of a technology network are not complemented. -/
def balancePo (old2new : ℕ → ℕ) (maxPoLevel : UInt32) (balanced : TechnologyNetwork) (po : ℕ) :
    TechnologyNetwork :=
  let (balanced, tgtPo) :=
    if ps.unifyOutputs then
      insertBufChain (maxPoLevel - level po).toNat balanced (old2new po)
    else (balanced, old2new po)
  balanced.createPo tgtPo

/-- The run along the gates of a topological view. -/
def run [CopyInitializer] (gates : List ℕ) : Option TechnologyNetwork := do
  let (balanced, old2new) := gates.foldl (balanceGate ntk level) ntk.initializeCopyNetwork
  let maxPoLevel ← maxElement (getPoLevels ntk level)
  let balanced := ntk.foreachPo.foldl (balancePo level ps old2new maxPoLevel) balanced
  some (ntk.restoreNames balanced gates old2new)

/-- The levels are unsigned, so that a child above its parent counts as a difference, too. -/
def isGateBalanced (n : ℕ) : Bool :=
  (ntk.node n).children.all fun fn => isConstant fn || !decide (level n - level fn - 1 > 0)

/-- `std::adjacent_find` with `std::not_equal_to`. -/
def hasAdjacentDifference : List UInt32 → Bool
  | l :: l' :: ls => l != l' || hasAdjacentDifference (l' :: ls)
  | _ => false

def isBalanced : Bool :=
  ntk.creationOrder.all (isGateBalanced ntk level) &&
    !(ps.unifyOutputs && hasAdjacentDifference (getPoLevels ntk level))

end Balancing

end NetworkBalancing

def networkBalancing [CopyInitializer] (r : TreeReduction) (src : SourceNetwork) {gates : List ℕ}
    (D : DepthView (convertNetwork r src) gates) (ps : NetworkBalancingParams) :
    Option TechnologyNetwork :=
  NetworkBalancing.run (convertNetwork r src) D.level ps gates

namespace NetworkBalancing

open TechnologyNetwork

section Labels

def levelRule (data : NetworkNode) (labels : List (Bool × ℕ)) : Bool × ℕ :=
  (data.function.eval (labels.map Prod.fst), 1 + maxLevel (labels.map Prod.snd))

/-- `w` labels a network whose gates are one level above all their children but constants. -/
structure Levelled (base : ℕ → Bool × ℕ) (ntk : TechnologyNetwork) (w : ℕ → Bool × ℕ) : Prop where
  labelled : Labelled levelRule base ntk w
  above : ∀ n < ntk.size, ¬ ntk.IsSource n → ∀ c ∈ (ntk.node n).children, 2 ≤ c →
    (w n).2 = (w c).2 + 1
  level_lt : ∀ n < ntk.size, (w n).2 < 2 ^ 32

variable {base : ℕ → Bool × ℕ} {ntk : TechnologyNetwork} {w : ℕ → Bool × ℕ}

theorem le_maxLevel {l : ℕ} {levels : List ℕ} (h : l ∈ levels) : l ≤ maxLevel levels := by
  induction levels with
  | nil => cases h
  | cons l' levels ih =>
    rcases List.mem_cons.mp h with rfl | h
    · exact le_max_left _ _
    · exact (ih h).trans (le_max_right _ _)

theorem Levelled.pushNode (h : Levelled base ntk w) {children : List ℕ} {function : TruthTable}
    {l : ℕ} (hc : ∀ c ∈ children, c < ntk.size) (hl : ∀ c ∈ children, 2 ≤ c → (w c).2 + 1 = l)
    (hmax : 1 + maxLevel (children.map fun c => (w c).2) = l) (hlt : l < 2 ^ 32) :
    ∃ w', Levelled base (ntk.pushNode children function).1 w' ∧
      Grows ntk w (ntk.pushNode children function).1 w' ∧
      w' ntk.size = (function.eval (children.map fun c => (w c).1), l) := by
  obtain ⟨w', hw', hgrow, hnew⟩ := @Labelled.pushNode _ _ _ _ _ h.labelled children function hc
  rw [levelRule, List.map_map, List.map_map] at hnew
  have hlabel : w' ntk.size = (function.eval (children.map fun c => (w c).1), l) := by
    rw [← hmax]
    exact hnew
  refine ⟨w', ⟨hw', ?_, ?_⟩, hgrow, hlabel⟩
  · intro n hn hs c hcn h2
    rw [size_pushNode] at hn
    rw [node_pushNode] at hcn
    split_ifs at hcn with heq
    · rw [heq, hlabel, hgrow.label c (hc c hcn)]
      exact (hl c hcn h2).symm
    · have hn' : n < ntk.size := by omega
      rw [hgrow.label n hn', hgrow.label c ((h.labelled.child_lt n hn' c hcn).trans hn')]
      exact h.above n hn' hs c hcn h2
  · intro n hn
    rw [size_pushNode] at hn
    rcases Nat.lt_succ_iff_lt_or_eq.mp hn with hn | rfl
    · rw [hgrow.label n hn]
      exact h.level_lt n hn
    · rw [hlabel]
      exact hlt

theorem insertBufChain_spec (num : ℕ) (h : Levelled base ntk w) {child : ℕ}
    (hc : child < ntk.size) (hlt : (w child).2 + num < 2 ^ 32) :
    ∃ w', Levelled base (insertBufChain num ntk child).1 w' ∧
      Grows ntk w (insertBufChain num ntk child).1 w' ∧
      (insertBufChain num ntk child).2 < (insertBufChain num ntk child).1.size ∧
      w' (insertBufChain num ntk child).2 = ((w child).1, (w child).2 + num) := by
  induction num generalizing ntk w child with
  | zero => exact ⟨w, h, .refl, hc, rfl⟩
  | succ num ih =>
    obtain ⟨w₁, h₁, hgrow₁, hnew⟩ := @Levelled.pushNode _ _ _ h [child] .identity
      ((w child).2 + 1) (by simpa using hc) (fun c hcm _ => by rw [List.mem_singleton.mp hcm])
      (by simp [maxLevel, Nat.add_comm]) (by omega)
    have hfresh : ntk.size < (ntk.pushNode [child] .identity).1.size := by
      rw [size_pushNode]
      exact Nat.lt_succ_self _
    rw [List.map_singleton, TruthTable.eval_identity] at hnew
    obtain ⟨w₂, h₂, hgrow₂, hlt₂, hval₂⟩ := ih h₁ hfresh (by rw [hnew]; omega)
    refine ⟨w₂, h₂, hgrow₁.trans hgrow₂, hlt₂, ?_⟩
    rw [hnew] at hval₂
    refine hval₂.trans ?_
    rw [Nat.add_right_comm, Nat.add_assoc]

end Labels

section Gates

variable {base : ℕ → Bool × ℕ} {ntk balanced : TechnologyNetwork} {w : ℕ → Bool × ℕ}
  {level : ℕ → UInt32} {old2new : ℕ → ℕ} {v : ℕ → Bool}

theorem toNat_levelDiff {l l' : UInt32} (h : l'.toNat < l.toNat) :
    (l - l' - 1).toNat = l.toNat - l'.toNat - 1 := by
  have hle : l' ≤ l := UInt32.le_iff_toNat_le.mpr h.le
  have hsub : (l - l').toNat = l.toNat - l'.toNat := UInt32.toNat_sub_of_le _ _ hle
  have hone : 1 ≤ l - l' := by
    rw [UInt32.le_iff_toNat_le, hsub]
    change 1 ≤ _
    omega
  rw [UInt32.toNat_sub_of_le _ _ hone, hsub]
  rfl

/-- The images of node `fn` have its value and its level. -/
structure Image (balanced : TechnologyNetwork) (w : ℕ → Bool × ℕ) (level : ℕ → UInt32)
    (old2new : ℕ → ℕ) (v : ℕ → Bool) (fn : ℕ) : Prop where
  lt : old2new fn < balanced.size
  label : w (old2new fn) = (v fn, (level fn).toNat)
  constant : fn ≤ 1 → old2new fn = fn ∧ (level fn).toNat = 0

theorem Image.grow {n : ℕ} (h : Image balanced w level old2new v n) {balanced' : TechnologyNetwork}
    {w' : ℕ → Bool × ℕ} (hg : Grows balanced w balanced' w') :
    Image balanced' w' level old2new v n :=
  ⟨h.lt.trans_le hg.size_le, (hg.label _ h.lt).trans h.label, h.constant⟩

/-- The label of the child that a gate `n` gets in the place of `fn`. -/
def childLabel (level : ℕ → UInt32) (v : ℕ → Bool) (n fn : ℕ) : Bool × ℕ :=
  (v fn, if fn ≤ 1 then 0 else (level n).toNat - 1)

theorem gatherChild_spec {n fn : ℕ} (h : Levelled base balanced w)
    (hi : Image balanced w level old2new v fn) (hlt : (level fn).toNat < (level n).toNat) :
    ∃ w', Levelled base (gatherChild level old2new n balanced fn).1 w' ∧
      Grows balanced w (gatherChild level old2new n balanced fn).1 w' ∧
      (gatherChild level old2new n balanced fn).2 < (gatherChild level old2new n balanced fn).1.size ∧
      w' (gatherChild level old2new n balanced fn).2 = childLabel level v n fn ∧
      (fn ≤ 1 → (gatherChild level old2new n balanced fn).2 ≤ 1) := by
  unfold gatherChild childLabel
  split_ifs with hc hle hle
  · refine ⟨w, h, .refl, hi.lt, ?_, fun _ => ?_⟩
    · rw [hi.label, (hi.constant hle).2]
    · rw [(hi.constant hle).1]
      exact hle
  · exact absurd (of_decide_eq_true hc) hle
  · exact absurd (decide_eq_true hle) hc
  · have hsmall := (level n).toNat_lt
    rw [toNat_levelDiff hlt]
    obtain ⟨w', h', hgrow, hlt', hval⟩ :=
      insertBufChain_spec ((level n).toNat - (level fn).toNat - 1) h hi.lt (by rw [hi.label]; omega)
    refine ⟨w', h', hgrow, hlt', ?_, fun hle' => absurd hle' hle⟩
    rw [hval, hi.label]
    exact Prod.ext rfl (by simp only; omega)

theorem gatherChildren_spec {n : ℕ} {fns : List ℕ} (h : Levelled base balanced w)
    (hi : ∀ fn ∈ fns, Image balanced w level old2new v fn)
    (hlt : ∀ fn ∈ fns, (level fn).toNat < (level n).toNat) :
    ∃ w', Levelled base (gatherChildren level old2new n balanced fns).1 w' ∧
      Grows balanced w (gatherChildren level old2new n balanced fns).1 w' ∧
      (∀ c ∈ (gatherChildren level old2new n balanced fns).2,
        c < (gatherChildren level old2new n balanced fns).1.size ∧
          (c ≤ 1 ∨ (w' c).2 + 1 = (level n).toNat)) ∧
      (gatherChildren level old2new n balanced fns).2.map w' = fns.map (childLabel level v n) := by
  induction fns generalizing balanced w with
  | nil => exact ⟨w, h, .refl, by simp [gatherChildren], rfl⟩
  | cons fn fns ih =>
    have hfn := hlt fn List.mem_cons_self
    obtain ⟨w₁, h₁, hgrow₁, hlt₁, hval₁, hconst₁⟩ :=
      gatherChild_spec h (hi fn List.mem_cons_self) hfn
    obtain ⟨w₂, h₂, hgrow₂, hc₂, hval₂⟩ := ih h₁
      (fun m hm => (hi m (List.mem_cons_of_mem fn hm)).grow hgrow₁)
      fun m hm => hlt m (List.mem_cons_of_mem fn hm)
    have hcons : (gatherChildren level old2new n balanced (fn :: fns)).2 =
        (gatherChild level old2new n balanced fn).2 :: (gatherChildren level old2new n
          (gatherChild level old2new n balanced fn).1 fns).2 := rfl
    have hlabel := (hgrow₂.label _ hlt₁).trans hval₁
    refine ⟨w₂, h₂, hgrow₁.trans hgrow₂, ?_, ?_⟩
    · intro c hc
      rw [hcons] at hc
      rcases List.mem_cons.mp hc with rfl | hc
      · refine ⟨hlt₁.trans_le hgrow₂.size_le, ?_⟩
        by_cases hle : fn ≤ 1
        · exact .inl (hconst₁ hle)
        · right
          rw [hlabel, childLabel, if_neg hle]
          omega
      · exact hc₂ c hc
    · rw [hcons, List.map_cons, hlabel, hval₂, List.map_cons]

theorem maxLevel_mono {l l' : List ℕ} (h : List.Forall₂ (· ≤ ·) l l') :
    maxLevel l ≤ maxLevel l' := by
  induction h with
  | nil => exact le_rfl
  | cons hle _ ih => exact max_le_max hle ih

theorem maxLevel_le {l : List ℕ} {m : ℕ} (h : ∀ k ∈ l, k ≤ m) : maxLevel l ≤ m := by
  induction l with
  | nil => exact Nat.zero_le _
  | cons k l ih =>
    exact max_le (h k List.mem_cons_self) (ih fun k' hk => h k' (List.mem_cons_of_mem k hk))

theorem maxLevel_childLabel {n : ℕ} {fns : List ℕ} (hconst : ∀ fn ∈ fns, fn ≤ 1 → level fn = 0)
    (hn : (level n).toNat = 1 + maxLevel (fns.map fun c => (level c).toNat)) :
    1 + maxLevel (fns.map fun fn => (childLabel level v n fn).2) = (level n).toNat := by
  rw [hn]
  refine congrArg (1 + ·) (le_antisymm (maxLevel_le fun k hk => ?_) (maxLevel_mono ?_))
  · obtain ⟨fn, -, rfl⟩ := List.mem_map.mp hk
    unfold childLabel
    split_ifs
    · exact Nat.zero_le _
    · simp only
      omega
  · rw [List.forall₂_map_left_iff, List.forall₂_map_right_iff, List.forall₂_same]
    intro fn hfn
    have hle := le_maxLevel (List.mem_map_of_mem (f := fun c => (level c).toNat) hfn)
    unfold childLabel
    split_ifs with hc
    · rw [hconst fn hfn hc]
      exact le_rfl
    · simp only
      omega

end Gates

section Run

variable {ntk : TechnologyNetwork} {V : ntk.TopoView} {D : DepthView ntk V.gates} {a : ℕ → Bool}
  {pre outs : List ℕ} {lev : ℕ → ℕ} {s : TechnologyNetwork × (ℕ → ℕ)} {w : ℕ → Bool × ℕ}

/-- After the gates `pre` and the outputs `outs`, which are driven from the levels `lev`. -/
structure Reached (D : DepthView ntk V.gates) (a : ℕ → Bool) (lev : ℕ → ℕ) (pre outs : List ℕ)
    (s : TechnologyNetwork × (ℕ → ℕ)) (w : ℕ → Bool × ℕ) : Prop where
  levelled : Levelled (fun n => (s.1.sourceValues a n, 0)) s.1 w
  inputs : s.1.inputs.length = ntk.inputs.length
  numPis : s.1.numPis = ntk.numPis
  numPos : s.1.numPos = outs.length
  image : ∀ n, ntk.IsSource n ∨ n ∈ pre → Image s.1 w D.level s.2 (ntk.simulate V.gates a) n
  output_lt : ∀ o ∈ s.1.outputs, o < s.1.size
  outputs : s.1.outputs.map w = outs.map fun o => (ntk.simulate V.gates a o, lev o)

theorem reached_start [CopyInitializer] (hw : ntk.WellFormed) (D : DepthView ntk V.gates)
    (a : ℕ → Bool) (lev : ℕ → ℕ) : ∃ w, Reached D a lev [] [] ntk.initializeCopyNetwork w := by
  have h := initializeCopyNetwork_freshCopy hw
  have hsource : ∀ n < ntk.initializeCopyNetwork.1.size,
      ntk.initializeCopyNetwork.1.IsSource n := by
    intro n hn
    by_cases h2 : 2 ≤ n
    · exact .inr (h.mem_inputs n h2 hn)
    · exact .inl (by omega)
  have hlabelled := @labelled_of_isSource _ levelRule _ (h.partialCopy V.gates).two_le_size
    (fun n hn => ((h.partialCopy V.gates).input_bounds n hn).2) h.children hsource
    fun n => (ntk.initializeCopyNetwork.1.sourceValues a n, 0)
  refine ⟨_, ⟨hlabelled, fun n hn hs => absurd (hsource n hn) hs, ?_⟩, ?_, h.numPis, h.numPos, ?_,
    ?_, ?_⟩
  · exact fun _ _ => Nat.two_pow_pos 32
  · rw [h.inputs, List.length_map]
  · intro n hn
    have hs := hn.resolve_right List.not_mem_nil
    have howner : ntk.inputOwner (ntk.initializeCopyNetwork.2 n) = n := by
      by_cases hc : n ≤ 1
      · rw [h.constant n hc]
        exact (h.partialCopy V.gates).constant n hc
      · exact (h.image (hs.resolve_left hc)).2.2
    have hvalue := (h.partialCopy V.gates).simulation.sourceValues hw a (hsource _ (h.image_lt n))
    rw [howner] at hvalue
    refine ⟨h.image_lt n, ?_, fun hc => ⟨h.constant n hc, ?_⟩⟩
    · rw [hvalue, D.source n hs, (V.simulate_solves a).base n hs]
      rfl
    · rw [D.source n hs]
      rfl
  · rw [h.outputs]
    exact fun o ho => absurd ho List.not_mem_nil
  · rw [h.outputs]
    rfl

theorem Reached.grow (h : Reached D a lev pre outs s w) {balanced : TechnologyNetwork}
    {w' : ℕ → Bool × ℕ} (hl : Levelled (fun n => (s.1.sourceValues a n, 0)) balanced w')
    (hg : Grows s.1 w balanced w') : Reached D a lev pre outs (balanced, s.2) w' where
  levelled := by
    have hbase : balanced.sourceValues a = s.1.sourceValues a := by
      funext n
      rw [sourceValues, sourceValues, hg.inputs]
    exact hbase ▸ hl
  inputs := (congrArg List.length hg.inputs).trans h.inputs
  numPis := hg.numPis.trans h.numPis
  numPos := hg.numPos.trans h.numPos
  image n hn := (h.image n hn).grow hg
  output_lt o ho := (h.output_lt o (hg.outputs ▸ ho)).trans_le hg.size_le
  outputs := by
    rw [hg.outputs, hg.map_label h.output_lt]
    exact h.outputs

theorem Reached.balanceGate (hw : ntk.WellFormed) (h : Reached D a lev pre [] s w) {n : ℕ}
    {suf : List ℕ} (hV : V.gates = pre ++ n :: suf) :
    ∃ w', Reached D a lev (pre ++ [n]) [] (balanceGate ntk D.level s n) w' := by
  obtain ⟨hn, hnew, hdeps⟩ := V.sorted.next hV
  obtain ⟨hns, hpre⟩ := not_or.mp hnew
  obtain ⟨hc, hi⟩ := not_or.mp hns
  have hlevel := D.gate n hn
  have hlt : ∀ fn ∈ (ntk.node n).children, (D.level fn).toNat < (D.level n).toNat := by
    intro fn hfn
    have := le_maxLevel (List.mem_map_of_mem (f := fun c => (D.level c).toNat) hfn)
    omega
  have himage : ∀ fn ∈ (ntk.node n).children,
      Image s.1 w D.level s.2 (ntk.simulate V.gates a) fn := fun fn hfn =>
    h.image fn (hdeps fn hfn)
  obtain ⟨w₁, h₁, hgrow₁, hc₁, hval₁⟩ := gatherChildren_spec h.levelled himage hlt
  have hmax := @maxLevel_childLabel _ (ntk.simulate V.gates a) n (ntk.node n).children
    (fun fn _ hle => D.source fn (.inl hle)) hlevel
  have hsnd : ((gatherChildren D.level s.2 n s.1 (ntk.node n).children).2.map fun c => (w₁ c).2) =
      (ntk.node n).children.map fun fn =>
        (childLabel D.level (ntk.simulate V.gates a) n fn).2 := by
    have := congrArg (List.map Prod.snd) hval₁
    rwa [List.map_map, List.map_map] at this
  have hfst : ((gatherChildren D.level s.2 n s.1 (ntk.node n).children).2.map fun c => (w₁ c).1) =
      (ntk.node n).children.map (ntk.simulate V.gates a) := by
    have := congrArg (List.map Prod.fst) hval₁
    rwa [List.map_map, List.map_map] at this
  obtain ⟨w₂, h₂, hgrow₂, hval₂⟩ := @Levelled.pushNode _ _ _ h₁
    (gatherChildren D.level s.2 n s.1 (ntk.node n).children).2 (ntk.node n).function
    (D.level n).toNat (fun c hcm => (hc₁ c hcm).1)
    (fun c hcm h2 => (hc₁ c hcm).2.resolve_left (by omega)) (hsnd ▸ hmax) (D.level n).toNat_lt
  have hne : (gatherChildren D.level s.2 n s.1 (ntk.node n).children).2.isEmpty = false := by
    have hlen := congrArg List.length hval₁
    rw [List.length_map, List.length_map] at hlen
    rw [List.isEmpty_eq_false_iff, ← List.length_pos_iff, hlen, List.length_pos_iff]
    exact hw.children_ne_nil n (by omega) (V.gates_lt n hn) hi
  have hclone : NetworkBalancing.balanceGate ntk D.level s n =
      let gathered := gatherChildren D.level s.2 n s.1 (ntk.node n).children
      ((gathered.1.pushNode gathered.2 (ntk.node n).function).1,
        Function.update s.2 n gathered.1.size) := by
    unfold NetworkBalancing.balanceGate cloneNode createNode
    simp only [hne]
    rfl
  have hstep := h.grow h₂ (hgrow₁.trans hgrow₂)
  rw [hclone]
  refine ⟨w₂, hstep.levelled, hstep.inputs, hstep.numPis, hstep.numPos, ?_, hstep.output_lt,
    hstep.outputs⟩
  intro m hm
  by_cases hmn : m = n
  · subst hmn
    have hself : Function.update s.2 m
        (gatherChildren D.level s.2 m s.1 (ntk.node m).children).1.size m =
          (gatherChildren D.level s.2 m s.1 (ntk.node m).children).1.size := Function.update_self ..
    refine ⟨?_, ?_, fun hle => absurd hle hc⟩
    · simp only [hself, size_pushNode]
      exact Nat.lt_succ_self _
    · simp only [hself]
      rw [hval₂, hfst, (V.simulate_solves a).rule m hn]
      rfl
  · have hold : Function.update s.2 n
        (gatherChildren D.level s.2 n s.1 (ntk.node n).children).1.size m = s.2 m :=
      Function.update_of_ne hmn ..
    have hprev := hstep.image m (hm.imp_right fun hm =>
      (List.mem_append.mp hm).resolve_right fun hm => hmn (List.mem_singleton.mp hm))
    refine ⟨?_, ?_, fun hle => ?_⟩
    · simp only [hold]
      exact hprev.lt
    · simp only [hold]
      exact hprev.label
    · simp only [hold]
      exact hprev.constant hle

theorem reached_gates [CopyInitializer] (hw : ntk.WellFormed) (D : DepthView ntk V.gates)
    (a : ℕ → Bool) (lev : ℕ → ℕ) : ∃ w, Reached D a lev V.gates []
      (V.gates.foldl (NetworkBalancing.balanceGate ntk D.level) ntk.initializeCopyNetwork) w := by
  have hpre : ∀ pre suf, V.gates = pre ++ suf → ∃ w, Reached D a lev pre []
      (pre.foldl (NetworkBalancing.balanceGate ntk D.level) ntk.initializeCopyNetwork) w := by
    intro pre
    induction pre using List.reverseRecOn with
    | nil => exact fun _ _ => reached_start hw D a lev
    | append_singleton pre n ih =>
      intro suf hV
      rw [List.append_assoc] at hV
      obtain ⟨w, h⟩ := ih _ hV
      rw [List.foldl_append]
      exact h.balanceGate hw hV
  exact hpre _ [] (List.append_nil _).symm

/-- The level from which output `o` is driven. -/
def outputLevel (ps : NetworkBalancingParams) (level : ℕ → UInt32) (maxPoLevel : UInt32) (o : ℕ) :
    ℕ :=
  if ps.unifyOutputs then maxPoLevel.toNat else (level o).toNat

theorem Reached.balancePo {ps : NetworkBalancingParams} {maxPoLevel : UInt32}
    (h : Reached D a (outputLevel ps D.level maxPoLevel) V.gates outs s w) {o : ℕ}
    (ho : o ∈ ntk.outputs) (hle : D.level o ≤ maxPoLevel) :
    ∃ w', Reached D a (outputLevel ps D.level maxPoLevel) V.gates (outs ++ [o])
      (balancePo D.level ps s.2 maxPoLevel s.1 o, s.2) w' := by
  have hi := h.image o (V.outputs_mem o ho)
  have hle' := UInt32.le_iff_toNat_le.mp hle
  have hchain : ∃ w', Levelled (fun n => (s.1.sourceValues a n, 0))
        (if ps.unifyOutputs then
          insertBufChain (maxPoLevel - D.level o).toNat s.1 (s.2 o) else (s.1, s.2 o)).1 w' ∧
      Grows s.1 w (if ps.unifyOutputs then
          insertBufChain (maxPoLevel - D.level o).toNat s.1 (s.2 o) else (s.1, s.2 o)).1 w' ∧
      (if ps.unifyOutputs then
          insertBufChain (maxPoLevel - D.level o).toNat s.1 (s.2 o) else (s.1, s.2 o)).2 <
        (if ps.unifyOutputs then
          insertBufChain (maxPoLevel - D.level o).toNat s.1 (s.2 o) else (s.1, s.2 o)).1.size ∧
      w' (if ps.unifyOutputs then
          insertBufChain (maxPoLevel - D.level o).toNat s.1 (s.2 o) else (s.1, s.2 o)).2 =
        (ntk.simulate V.gates a o, outputLevel ps D.level maxPoLevel o) := by
    unfold outputLevel
    split_ifs
    · rw [UInt32.toNat_sub_of_le _ _ hle]
      obtain ⟨w', h', hgrow, hlt, hval⟩ :=
        insertBufChain_spec (maxPoLevel.toNat - (D.level o).toNat) h.levelled hi.lt (by
          have := maxPoLevel.toNat_lt
          rw [hi.label]
          omega)
      refine ⟨w', h', hgrow, hlt, ?_⟩
      rw [hval, hi.label]
      exact Prod.ext rfl (by simp only; omega)
    · exact ⟨w, h.levelled, .refl, hi.lt, hi.label⟩
  obtain ⟨w', h', hgrow, hlt, hval⟩ := hchain
  have hstep := h.grow h' hgrow
  unfold NetworkBalancing.balancePo
  generalize (if ps.unifyOutputs then
    insertBufChain (maxPoLevel - D.level o).toNat s.1 (s.2 o) else (s.1, s.2 o)) = r at *
  refine ⟨w', ⟨hstep.levelled.labelled.congr rfl rfl, hstep.levelled.above, hstep.levelled.level_lt⟩,
    hstep.inputs, hstep.numPis, ?_, fun n hn => ?_, fun m hm => ?_, ?_⟩
  · rw [List.length_append]
    exact congrArg (· + 1) hstep.numPos
  · have := hstep.image n hn
    exact ⟨this.lt, this.label, this.constant⟩
  · rcases List.mem_append.mp hm with hm | hm
    · exact hstep.output_lt m hm
    · rw [List.mem_singleton.mp hm]
      exact hlt
  · change (r.1.outputs ++ [r.2]).map w' = _
    rw [List.map_append, List.map_append, List.map_singleton, List.map_singleton, hval]
    exact congrArg (· ++ _) hstep.outputs

theorem Reached.balancePos {ps : NetworkBalancingParams} {maxPoLevel : UInt32}
    (h : Reached D a (outputLevel ps D.level maxPoLevel) V.gates [] s w) :
    ∀ outs ⊆ ntk.outputs, (∀ o ∈ outs, D.level o ≤ maxPoLevel) →
      ∃ w', Reached D a (outputLevel ps D.level maxPoLevel) V.gates outs
        (outs.foldl (NetworkBalancing.balancePo D.level ps s.2 maxPoLevel) s.1, s.2) w' := by
  intro outs
  induction outs using List.reverseRecOn with
  | nil => exact fun _ _ => ⟨w, h⟩
  | append_singleton outs o ih =>
    intro hsub hle
    obtain ⟨w₁, h₁⟩ := ih (fun m hm => hsub (List.mem_append_left _ hm))
      fun m hm => hle m (List.mem_append_left _ hm)
    rw [List.foldl_append]
    have hmem : o ∈ outs ++ [o] := List.mem_append_right _ (List.mem_singleton_self o)
    exact h₁.balancePo (hsub hmem) (hle o hmem)

end Run

section Check

variable {base : ℕ → Bool × ℕ} {ntk : TechnologyNetwork} {w : ℕ → Bool × ℕ}
theorem Levelled.values (h : Levelled base ntk w) {a : ℕ → Bool}
    (hb : ∀ n, (base n).1 = ntk.sourceValues a n) :
    Labelled valueRule (ntk.sourceValues a) ntk fun n => (w n).1 where
  two_le_size := h.labelled.two_le_size
  input_lt := h.labelled.input_lt
  child_lt := h.labelled.child_lt
  source n hn := by rw [h.labelled.source n hn, hb]
  gate n hn hs := by
    rw [h.labelled.gate n hn hs, levelRule, List.map_map]
    rfl

theorem Levelled.toNat_level (h : Levelled base ntk w) (hb : ∀ n, (base n).2 = 0)
    (D : DepthView ntk ntk.creationOrder) : ∀ n < ntk.size, (D.level n).toNat = (w n).2 := by
  intro n
  induction n using Nat.strongRecOn with
  | ind n ih =>
    intro hn
    by_cases hs : ntk.IsSource n
    · rw [D.source n hs, h.labelled.source n hs, hb]
      rfl
    · rw [D.gate n (mem_creationOrder.mpr ⟨hn, hs⟩), h.labelled.gate n hn hs]
      change _ = 1 + maxLevel (((ntk.node n).children.map w).map Prod.snd)
      rw [List.map_map]
      refine congrArg (1 + maxLevel ·) (List.map_congr_left fun c hc => ?_)
      have hlt := h.labelled.child_lt n hn c hc
      exact ih c hlt (hlt.trans hn)

theorem Levelled.nonempty_depthView (h : Levelled base ntk w) (hb : ∀ n, (base n).2 = 0) :
    Nonempty (DepthView ntk ntk.creationOrder) := by
  have hofNat : ∀ n < ntk.size, (UInt32.ofNat (w n).2).toNat = (w n).2 := fun n hn =>
    UInt32.toNat_ofNat_of_lt' (h.level_lt n hn)
  refine ⟨⟨fun n => UInt32.ofNat (w n).2, fun n hn => ?_, fun n hn => ?_⟩⟩
  · rw [h.labelled.source n hn, hb]
    rfl
  · obtain ⟨hlt, hs⟩ := mem_creationOrder.mp hn
    rw [hofNat n hlt, h.labelled.gate n hlt hs]
    change 1 + maxLevel (((ntk.node n).children.map w).map Prod.snd) = _
    rw [List.map_map]
    refine congrArg (1 + maxLevel ·) (List.map_congr_left fun c hc => ?_)
    exact (hofNat c ((h.labelled.child_lt n hlt c hc).trans hlt)).symm

theorem hasAdjacentDifference_eq_false {l : List UInt32} {m : UInt32} (h : ∀ k ∈ l, k = m) :
    hasAdjacentDifference l = false := by
  induction l with
  | nil => rfl
  | cons k l ih =>
    cases l with
    | nil => rfl
    | cons k' l =>
      have hk := h k List.mem_cons_self
      have hk' := h k' (List.mem_cons_of_mem k List.mem_cons_self)
      rw [hasAdjacentDifference, hk, hk', bne_self_eq_false, Bool.false_or]
      exact hk' ▸ ih fun k hk => h k (List.mem_cons_of_mem _ hk)

theorem Levelled.isBalanced (h : Levelled base ntk w) (hb : ∀ n, (base n).2 = 0)
    (D : DepthView ntk ntk.creationOrder) {ps : NetworkBalancingParams}
    (ho : ∀ o ∈ ntk.outputs, o < ntk.size) {l : ℕ}
    (hps : ps.unifyOutputs = true → ∀ o ∈ ntk.outputs, (w o).2 = l) :
    isBalanced ntk D.level ps = true := by
  have hlevel := h.toNat_level hb D
  rw [NetworkBalancing.isBalanced, Bool.and_eq_true, Bool.not_eq_true', List.all_eq_true]
  constructor
  · intro n hn
    obtain ⟨hlt, hs⟩ := mem_creationOrder.mp hn
    rw [isGateBalanced, List.all_eq_true]
    intro c hc
    rw [Bool.or_eq_true, Bool.not_eq_true', decide_eq_false_iff_not]
    by_cases h2 : 2 ≤ c
    · right
      have habove := h.above n hlt hs c hc h2
      have hcn := hlevel c ((h.labelled.child_lt n hlt c hc).trans hlt)
      have hdiff := @toNat_levelDiff (D.level n) (D.level c) (by rw [hcn, hlevel n hlt]; omega)
      rw [gt_iff_lt, UInt32.lt_iff_toNat_lt, hdiff, hcn, hlevel n hlt]
      change ¬ 0 < _
      omega
    · exact .inl (decide_eq_true (by omega))
  · cases hu : ps.unifyOutputs with
    | false => rfl
    | true =>
      rw [Bool.true_and]
      refine @hasAdjacentDifference_eq_false _ (UInt32.ofNat l) fun k hk => ?_
      obtain ⟨o, hmem, rfl⟩ := List.mem_map.mp hk
      have hout := List.mem_of_mem_take hmem
      have heq := (hlevel o (ho o hout)).trans (hps hu o hout)
      rw [← heq, UInt32.ofNat_toNat]

end Check

end NetworkBalancing

/-- The behaviour without register inputs. -/
def Behaviour.primary (b : Behaviour) : Behaviour :=
  { b with
    outputs := b.numPos
    values := fun a => (b.values a).take b.numPos }

/-- What is expected of a balanced version of a network with behaviour `b`. -/
structure BalancedVersion (b : Behaviour) (ps : NetworkBalancingParams)
    (balanced : TechnologyNetwork) : Prop where
  topoView : Nonempty balanced.TopoView
  behaviour : ∀ V : balanced.TopoView, V.behaviour = b.primary
  depthView : Nonempty (DepthView balanced balanced.creationOrder)
  isBalanced : ∀ D : DepthView balanced balanced.creationOrder,
    NetworkBalancing.isBalanced balanced D.level ps = true

namespace NetworkBalancing

open TechnologyNetwork

theorem run_eq_none [CopyInitializer] {ntk : TechnologyNetwork} (h : ntk.numPos = 0)
    (level : ℕ → UInt32) (ps : NetworkBalancingParams) (gates : List ℕ) : run ntk level ps gates = none := by
  have hnil : maxElement (getPoLevels ntk level) = none := by
    rw [getPoLevels, foreachPo, h]
    rfl
  rw [run, hnil]
  rfl

theorem exists_maxElement {ls : List UInt32} (h : ls ≠ []) :
    ∃ m, maxElement ls = some m ∧ ∀ k ∈ ls, k ≤ m := by
  have hfold : ∀ (ls : List UInt32) (l : UInt32),
      ∀ k ∈ l :: ls, k ≤ ls.foldl (fun m k => if m < k then k else m) l := by
    intro ls
    induction ls with
    | nil =>
      intro l k hk
      rw [List.mem_singleton.mp hk]
      exact UInt32.le_refl _
    | cons l' ls ih =>
      intro l k hk
      have hmax : l ≤ (if l < l' then l' else l) ∧ l' ≤ (if l < l' then l' else l) := by
        split_ifs with hlt
        · exact ⟨UInt32.le_of_lt hlt, UInt32.le_refl _⟩
        · exact ⟨UInt32.le_refl _, UInt32.not_lt.mp hlt⟩
      have hfirst := ih (if l < l' then l' else l) _ List.mem_cons_self
      rcases List.mem_cons.mp hk with rfl | hk
      · exact UInt32.le_trans hmax.1 hfirst
      · rcases List.mem_cons.mp hk with rfl | hk
        · exact UInt32.le_trans hmax.2 hfirst
        · exact ih _ k (List.mem_cons_of_mem _ hk)
  cases ls with
  | nil => exact absurd rfl h
  | cons l ls => exact ⟨_, rfl, hfold ls l⟩

theorem exists_run_balanced [CopyInitializer] {ntk : TechnologyNetwork} (hw : ntk.WellFormed)
    (V : ntk.TopoView) (D : DepthView ntk V.gates) (ps : NetworkBalancingParams)
    (hpo : 0 < ntk.numPos) :
    ∃ balanced, run ntk D.level ps V.gates = some balanced ∧
      BalancedVersion V.behaviour ps balanced := by
  have hlen : ntk.foreachPo.length = ntk.numPos := List.length_take_of_le hw.numPos_le
  obtain ⟨maxPoLevel, hmax, hge⟩ := @exists_maxElement (getPoLevels ntk D.level) (by
    rw [← List.length_pos_iff, getPoLevels, List.length_map, hlen]
    exact hpo)
  have hle : ∀ o ∈ ntk.foreachPo, D.level o ≤ maxPoLevel := fun o ho =>
    hge _ (List.mem_map_of_mem ho)
  have hreached : ∀ a, ∃ w, Reached D a (outputLevel ps D.level maxPoLevel) V.gates ntk.foreachPo
      (ntk.foreachPo.foldl (balancePo D.level ps
        (V.gates.foldl (balanceGate ntk D.level) ntk.initializeCopyNetwork).2 maxPoLevel)
        (V.gates.foldl (balanceGate ntk D.level) ntk.initializeCopyNetwork).1,
      (V.gates.foldl (balanceGate ntk D.level) ntk.initializeCopyNetwork).2) w := fun a => by
    obtain ⟨w, h⟩ := reached_gates hw D a (outputLevel ps D.level maxPoLevel)
    exact h.balancePos _ (List.take_subset _ _) hle
  have hrun : run ntk D.level ps V.gates = some (ntk.restoreNames
      (ntk.foreachPo.foldl (balancePo D.level ps
        (V.gates.foldl (balanceGate ntk D.level) ntk.initializeCopyNetwork).2 maxPoLevel)
        (V.gates.foldl (balanceGate ntk D.level) ntk.initializeCopyNetwork).1) V.gates
      (V.gates.foldl (balanceGate ntk D.level) ntk.initializeCopyNetwork).2) := by
    rw [run, hmax]
    rfl
  generalize V.gates.foldl (balanceGate ntk D.level) ntk.initializeCopyNetwork = s at *
  generalize ntk.foreachPo.foldl (balancePo D.level ps s.2 maxPoLevel) s.1 = balanced at *
  refine ⟨_, hrun, ?_⟩
  rw [(ntk.restoreNames_sameLogic balanced V.gates s.2).eq]
  generalize (ntk.restoreNames balanced V.gates s.2).networkName = networkName
  generalize (ntk.restoreNames balanced V.gates s.2).signalNames = signalNames
  generalize (ntk.restoreNames balanced V.gates s.2).outputNames = outputNames
  have hnamed : ∀ a, ∃ w, Reached D a (outputLevel ps D.level maxPoLevel) V.gates ntk.foreachPo
      ({ balanced with networkName, signalNames, outputNames }, s.2) w := by
    intro a
    obtain ⟨w, h⟩ := hreached a
    exact ⟨w, ⟨h.levelled.labelled.congr rfl rfl, h.levelled.above, h.levelled.level_lt⟩, h.inputs,
      h.numPis, h.numPos, fun n hn => ⟨(h.image n hn).lt, (h.image n hn).label,
        (h.image n hn).constant⟩, h.output_lt, h.outputs⟩
  generalize { balanced with networkName, signalNames, outputNames } = balanced' at hnamed
  obtain ⟨w, h⟩ := hnamed fun _ => false
  refine ⟨h.levelled.labelled.nonempty_topoView h.output_lt, fun V' => ?_,
    h.levelled.nonempty_depthView fun _ => rfl, fun D' => ?_⟩
  · rw [Behaviour.primary, TopoView.behaviour, TopoView.behaviour]
    congr 1
    · exact h.inputs
    · exact h.numPis
    · have := congrArg List.length h.outputs
      rw [List.length_map, List.length_map] at this
      exact this.trans hlen
    · exact h.numPos.trans hlen
    · funext a
      obtain ⟨w', h'⟩ := hnamed a
      have hvalues := (h'.levelled.values fun _ => rfl).outputValues V'
      have hfst := congrArg (List.map Prod.fst) h'.outputs
      rw [List.map_map, List.map_map] at hfst
      refine (hvalues.trans hfst).trans ?_
      rw [foreachPo, List.map_take]
      rfl
  · have hunified : ps.unifyOutputs = true →
        ∀ o ∈ balanced'.outputs, (w o).2 = maxPoLevel.toNat := by
      intro hu o ho
      have hmem : w o ∈ balanced'.outputs.map w := List.mem_map_of_mem ho
      rw [h.outputs] at hmem
      obtain ⟨o', -, heq⟩ := List.mem_map.mp hmem
      rw [← heq]
      exact if_pos hu
    exact h.levelled.isBalanced (fun _ => rfl) D' h.output_lt hunified

/-- A balanced version of the network results iff it has an output. -/
theorem networkBalancing_iff [CopyInitializer] (r : TreeReduction) (src : SourceNetwork)
    (hs : src.WellFormed) (hw : (convertNetwork r src).WellFormed)
    (V : (convertNetwork r src).TopoView) (D : DepthView (convertNetwork r src) V.gates)
    (ps : NetworkBalancingParams) :
    (∃ balanced, networkBalancing r src D ps = some balanced ∧
      BalancedVersion src.behaviour ps balanced) ↔ 0 < src.behaviour.numPos := by
  rw [← src.behaviour_convertNetwork r hs V]
  constructor
  · rintro ⟨balanced, hrun, -⟩
    by_contra hpos
    rw [networkBalancing, run_eq_none (Nat.eq_zero_of_not_pos hpos)] at hrun
    cases hrun
  · exact exists_run_balanced hw V D ps

def unbalanced : TechnologyNetwork :=
  let (ntk, a) := empty.createPi
  let (ntk, b) := ntk.createBuf a
  let (ntk, c) := ntk.createAnd a b
  (ntk.createPo c).createPo a

theorem unbalanced_wellFormed : unbalanced.WellFormed :=
  wellFormed_of_forall_lt (by decide) (by decide) (by decide) (by decide) (by decide) (by decide)
    (by decide)

def unbalancedView : unbalanced.TopoView := creationView (by decide) (by decide)

def unbalancedDepth : DepthView unbalanced unbalancedView.gates where
  level n := if n = 3 then 1 else if n = 4 then 2 else 0
  source n hn := by
    have : n ≤ 2 := by
      rcases hn with hn | hn
      · omega
      · exact (List.mem_singleton.mp hn).le
    rw [if_neg (by omega), if_neg (by omega)]
  gate := by decide

theorem networkBalancing_unbalanced :
    ∃ balanced, networkBalancing SourceNetwork.halves (.technology unbalanced unbalancedView)
        unbalancedDepth { unifyOutputs := true } = some balanced ∧
      BalancedVersion (SourceNetwork.technology unbalanced unbalancedView).behaviour
        { unifyOutputs := true } balanced :=
  (networkBalancing_iff SourceNetwork.halves (.technology unbalanced unbalancedView) trivial
    unbalanced_wellFormed unbalancedView unbalancedDepth _).mpr (by decide)

/-- An input without any output. -/
def noOutputs : TechnologyNetwork := empty.createPi.1

def noOutputsView : noOutputs.TopoView := creationView (by decide) (by decide)

def noOutputsDepth : DepthView noOutputs noOutputsView.gates where
  level _ := 0
  source _ _ := rfl
  gate := by decide

theorem networkBalancing_noOutputs :
    networkBalancing SourceNetwork.halves (.technology noOutputs noOutputsView) noOutputsDepth {} =
      none := rfl

end NetworkBalancing

end Fiction
