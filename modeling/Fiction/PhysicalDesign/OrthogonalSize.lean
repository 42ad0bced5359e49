import Fiction.NetworkTransformation.FanoutCheck
import Fiction.PhysicalDesign.OrthogonalStages
import Mathlib.Algebra.Order.BigOperators.Group.Finset
import Mathlib.Algebra.Order.BigOperators.Group.List
import Mathlib.Algebra.Order.Group.Nat

/-!
# The size of orthogonal layouts

The walk that computes the size and the placement loop open the same columns and rows. So every
tile that the loop uses lies within the computed size, and the loop ends behind its last corner. The
exception are networks without inputs, whose last row is row `num_pis() - 1`.
-/

namespace Fiction.Orthogonal

open TechnologyNetwork

section Run

variable (ntk : TechnologyNetwork) (V : FanoutView ntk) (T : ntk.TopoView)
  (ctn : ColoringContainer)

def openColumns (ns : List ℕ) : ℕ := (ns.map (columns ntk V ctn)).sum

def openRows (ns : List ℕ) : ℕ :=
  (ns.map fun n => rows ntk V ctn n + if ntk.isPi n then 1 else 0).sum

/-- The tiles in use lie within the layout, and the next free tile is behind its last corner. -/
structure SizeAgrees (D : ClockedLayout) (st : PlacementState) : Prop where
  inside : ∀ t ∈ st.canvas.used, D.Inside t
  lastColumn : st.latestPos.x = D.x + 1
  lastRow : st.latestPos.y = D.y + 1

variable {ntk V T ctn}

theorem openColumns_append (ns ns' : List ℕ) : openColumns ntk V ctn (ns ++ ns') =
    openColumns ntk V ctn ns + openColumns ntk V ctn ns' := by
  rw [openColumns, List.map_append, List.sum_append]
  rfl

theorem openRows_append (ns ns' : List ℕ) : openRows ntk V ctn (ns ++ ns') =
    openRows ntk V ctn ns + openRows ntk V ctn ns' := by
  rw [openRows, List.map_append, List.sum_append]
  rfl

theorem fanin_mem_of_nodes {pre suf : List ℕ} {n : ℕ} (h : nodes ntk T = pre ++ n :: suf)
    (hn : ¬ ntk.IsSource n) {c : ℕ} (hc : c ∈ (ntk.node n).children) : c ∈ pre := by
  have hsource : ∀ m, m ∈ [0, 1] ++ ntk.inputs ↔ ntk.IsSource m := by
    intro m
    simp only [IsSource, List.mem_append, List.mem_cons, List.not_mem_nil, or_false]
    exact or_congr_left (by omega)
  obtain ⟨pre', rfl, hgates⟩ : ∃ pre', pre = [0, 1] ++ ntk.inputs ++ pre' ∧
      T.gates = pre' ++ n :: suf := by
    rcases List.append_eq_append_iff.mp h with ⟨a, ha, hgates⟩ | ⟨a, ha, hsuf⟩
    · exact ⟨a, ha, hgates⟩
    · cases a with
      | nil => exact ⟨[], by simpa using ha.symm, by simpa using hsuf.symm⟩
      | cons m a =>
        obtain ⟨rfl, -⟩ := List.cons.inj hsuf
        exact absurd ((hsource n).mp (by rw [ha]; simp)) hn
  obtain ⟨-, -, hdeps⟩ := T.sorted.next hgates
  rcases hdeps c hc with hs | hmem
  · exact List.mem_append_left _ ((hsource c).mpr hs)
  · exact List.mem_append_right _ hmem

theorem isCi_of_isPlaceable {n : ℕ} (h : isPlaceable ntk n = true) : ntk.isCi n = false := by
  cases hci : ntk.isCi n with
  | false => rfl
  | true => simp [isPlaceable, fanins, hci] at h

theorem mem_nodes {n : ℕ} (hc : isConstant n = false) :
    n ∈ nodes ntk T ↔ n ∈ ntk.inputs ++ T.gates := by
  simp only [isConstant, decide_eq_false_iff_not] at hc
  simp only [nodes, List.mem_append, List.mem_cons, List.not_mem_nil, or_false]
  have : ¬ (n = 0 ∨ n = 1) := by omega
  simp only [this, false_or]

theorem Colored.isSome_of_fanins {n : ℕ} (h : Colored ntk T.gates.reverse ctn)
    (hn : n ∈ ntk.inputs ++ T.gates) {fc : FaninContainer} (hfc : fanins ntk n = some fc)
    (hlen : fc.faninNodes.length = 1) : (ctn.color n).isSome := by
  obtain ⟨m, hm⟩ := List.length_eq_one_iff.mp hlen
  have hci := (mem_faninNodes hfc (by rw [hm]; exact List.mem_singleton_self m)).1
  have hgate : n ∈ T.gates := by
    refine (List.mem_append.mp hn).resolve_left fun hin => ?_
    rw [isCi, List.contains_eq_mem, decide_eq_false_iff_not] at hci
    exact hci hin
  refine h.color_isSome (List.mem_reverse.mpr hgate) ?_
  simp only [fanins, hci, Bool.false_eq_true, if_false] at hfc
  split_ifs at hfc
  rw [← Option.some.inj hfc] at hlen
  exact hlen

section Loop

variable {D : ClockedLayout} {placed placed' : ℕ → Prop} {x y : ℕ} {st : PlacementState}

theorem Stage.weaken (h : Stage D placed x y st) (hp : ∀ m, placed' m → placed m) :
    Stage D placed' x y st :=
  ⟨h.drawn, h.latestPos, fun m hm => h.pos m (hp m hm), h.x_pos⟩

/-- The loop places all nodes if each of them can be placed. -/
theorem Stage.loop (hz : D.z = 1) (hx : openColumns ntk V ctn (nodes ntk T) ≤ D.x)
    (hy : openRows ntk V ctn (nodes ntk T) ≤ D.y + 1) (htwo : ∀ n ∈ ntk.inputs, 2 ≤ n)
    (hpis : ∀ n ∈ ntk.foreachPi, (V.fanouts n).length ≤ 1)
    (hplace : ∀ n ∈ ntk.inputs ++ T.gates, ntk.isPi n = false → isPlaceable ntk n = true)
    (hcolored : Colored ntk T.gates.reverse ctn) (eastFirst : Bool) (pi2node : ℕ → ℕ)
    (h : Stage D (fun _ => False) 1 0 st) :
    ∃ st', (nodes ntk T).foldlM (Orthogonal.placeNode ntk V ctn eastFirst pi2node) st = some st' ∧
      Stage D (fun m => m ∈ nodes ntk T ∧ isConstant m = false)
        (1 + openColumns ntk V ctn (nodes ntk T)) (openRows ntk V ctn (nodes ntk T)) st' := by
  refine exists_foldlM (I := fun pre st => Stage D (fun m => m ∈ pre ∧ isConstant m = false)
    (1 + openColumns ntk V ctn pre) (openRows ntk V ctn pre) st) (fun pre n suf st hl hst => ?_)
    (h.weaken fun m hm => by cases hm.1)
  have hcolumns : openColumns ntk V ctn (pre ++ [n]) =
      openColumns ntk V ctn pre + columns ntk V ctn n := by
    rw [openColumns_append]
    exact congrArg _ (List.sum_singleton)
  have hrows : openRows ntk V ctn (pre ++ [n]) =
      openRows ntk V ctn pre + (rows ntk V ctn n + if ntk.isPi n then 1 else 0) := by
    rw [openRows_append]
    exact congrArg _ (List.sum_singleton)
  rw [hcolumns, hrows]
  cases hc : isConstant n with
  | true =>
    have hpi : ntk.isPi n = false := by
      rw [isPi, List.contains_eq_mem, decide_eq_false_iff_not]
      intro hmem
      have := htwo n (List.mem_of_mem_take hmem)
      simp only [isConstant, decide_eq_true_eq] at hc
      omega
    refine ⟨st, by rw [Orthogonal.placeNode, hc, if_pos rfl], ?_⟩
    rw [columns, rows, hc, hpi]
    refine hst.weaken fun m hm => ⟨(List.mem_append.mp hm.1).resolve_right fun he => ?_, hm.2⟩
    have hmc := hm.2
    rw [List.mem_singleton.mp he, hc] at hmc
    cases hmc
  | false =>
    have hn : n ∈ ntk.inputs ++ T.gates := (mem_nodes hc).mp (by rw [hl]; simp)
    have hfits : openColumns ntk V ctn (pre ++ [n]) ≤ openColumns ntk V ctn (nodes ntk T) ∧
        openRows ntk V ctn (pre ++ [n]) ≤ openRows ntk V ctn (nodes ntk T) := by
      have hl' : nodes ntk T = (pre ++ [n]) ++ suf := by rw [hl]; simp
      rw [hl', openColumns_append (pre ++ [n]) suf, openRows_append (pre ++ [n]) suf]
      exact ⟨Nat.le_add_right _ _, Nat.le_add_right _ _⟩
    rw [hcolumns, hrows] at hfits
    have hpre : ntk.isPi n = false → ∀ m ∈ (ntk.node n).children, isConstant m = false →
        m ∈ pre ∧ isConstant m = false := by
      intro hpi m hm hmc
      refine ⟨fanin_mem_of_nodes hl (fun hs => ?_) hm, hmc⟩
      have hci := isCi_of_isPlaceable (hplace n hn hpi)
      rw [isCi, List.contains_eq_mem, decide_eq_false_iff_not] at hci
      rw [isConstant, decide_eq_false_iff_not] at hc
      exact hs.elim hc hci
    have hpis : ntk.isPi n = true → (V.fanouts n).length ≤ 1 := fun hpi =>
      hpis n (by simpa [isPi, foreachPi] using hpi)
    obtain ⟨st', hst', hstage⟩ := hst.placeNode hz hc hpis (hplace n hn) eastFirst pi2node hpre
      (fun fc hfc hlen => hcolored.isSome_of_fanins hn hfc hlen) (by omega) (by omega)
    refine ⟨st', hst', ?_⟩
    rw [← Nat.add_assoc]
    refine hstage.weaken fun m hm => ?_
    rcases List.mem_append.mp hm.1 with hpre | hm
    · exact .inl ⟨hpre, hm.2⟩
    · exact .inr (List.mem_singleton.mp hm)

end Loop

theorem openRows_eq (ns : List ℕ) :
    openRows ntk V ctn ns = (ns.map (rows ntk V ctn)).sum + ns.countP (ntk.isPi ·) := by
  induction ns with
  | nil => rfl
  | cons n ns ih =>
    have hcons : openRows ntk V ctn (n :: ns) =
        rows ntk V ctn n + (if ntk.isPi n then 1 else 0) + openRows ntk V ctn ns := List.sum_cons
    rw [hcons, ih, List.map_cons, List.sum_cons, List.countP_cons]
    omega

/-- The inputs open one row each. -/
theorem countP_isPi_nodes (hnodup : ntk.inputs.Nodup) (htwo : ∀ n ∈ ntk.inputs, 2 ≤ n)
    (hnum : ntk.numPis ≤ ntk.inputs.length) : (nodes ntk T).countP (ntk.isPi ·) = ntk.numPis := by
  have hmem : ∀ n, ntk.isPi n = true ↔ n ∈ ntk.inputs.take ntk.numPis := by simp [isPi]
  have hconst : ([0, 1] : List ℕ).countP (ntk.isPi ·) = 0 := by
    rw [List.countP_eq_zero]
    intro n hn hpi
    have := htwo n (List.mem_of_mem_take ((hmem n).mp hpi))
    simp only [List.mem_cons, List.not_mem_nil, or_false] at hn
    omega
  have hgates : T.gates.countP (ntk.isPi ·) = 0 := by
    rw [List.countP_eq_zero]
    exact fun n hn hpi => T.sorted.not_known n hn
      (.inr (List.mem_of_mem_take ((hmem n).mp hpi)))
  have htake : (ntk.inputs.take ntk.numPis).countP (ntk.isPi ·) = ntk.numPis := by
    rw [List.countP_eq_length.mpr fun n hn => (hmem n).mpr hn, List.length_take, min_eq_left hnum]
  have hdrop : (ntk.inputs.drop ntk.numPis).countP (ntk.isPi ·) = 0 := by
    rw [List.countP_eq_zero]
    intro n hn hpi
    rw [← List.take_append_drop ntk.numPis ntk.inputs] at hnodup
    exact (List.nodup_append.mp hnodup).2.2 n ((hmem n).mp hpi) n hn rfl
  rw [nodes, List.countP_append, List.countP_append, hconst, hgates,
    ← List.take_append_drop ntk.numPis ntk.inputs, List.countP_append]
  omega

theorem columns_le (n : ℕ) (hpi : ntk.isPi n = true → (V.fanouts n).length ≤ 1) :
    columns ntk V ctn n ≤ 2 := by
  have hcount : ntk.isPi n = true →
      ((V.fanouts n).countP fun fon => ctn.color fon = some .south) ≤ 1 := fun h =>
    List.countP_le_length.trans (hpi h)
  by_cases hp : ntk.isPi n = true
  · have := hcount hp
    rw [columns]
    split_ifs <;> omega
  · rw [columns]
    split_ifs <;> omega

theorem rows_le (n : ℕ) :
    rows ntk V ctn n + (if ntk.isPi n then 1 else 0) ≤ 2 := by
  by_cases hp : ntk.isPi n = true
  · simp only [rows, hp, true_or, if_true]
    split_ifs <;> omega
  · rw [rows, if_neg hp]
    split_ifs <;> omega

theorem sum_map_le {f : ℕ → ℕ} {ns : List ℕ} (h : ∀ n ∈ ns, f n ≤ 2) :
    (ns.map f).sum ≤ 2 * ns.length := by
  have := List.sum_le_card_nsmul (ns.map f) 2 (by simpa using h)
  simpa [Nat.mul_comm] using this

/-- The computed size is that of the columns and rows that the loop opens. -/
theorem determineLayoutSize_eq (hnodup : ntk.inputs.Nodup) (htwo : ∀ n ∈ ntk.inputs, 2 ≤ n)
    (hnum : ntk.numPis ≤ ntk.inputs.length) (hpos : 0 < ntk.numPis)
    (hpis : ∀ n ∈ ntk.foreachPi, (V.fanouts n).length ≤ 1)
    (hsize : 2 * (nodes ntk T).length < 2 ^ 31) :
    determineLayoutSize ntk V T ctn = .at3 (openColumns ntk V ctn (nodes ntk T))
      (openRows ntk V ctn (nodes ntk T) - 1) 1 := by
  have hcolumns : openColumns ntk V ctn (nodes ntk T) ≤ 2 * (nodes ntk T).length :=
    sum_map_le fun n _ => columns_le n fun hpi => hpis n (by simpa [isPi, foreachPi] using hpi)
  have hrows : openRows ntk V ctn (nodes ntk T) ≤ 2 * (nodes ntk T).length :=
    sum_map_le fun n _ => rows_le n
  have hrows_eq := @openRows_eq ntk V ctn (nodes ntk T)
  have hcount := countP_isPi_nodes (T := T) hnodup htwo hnum
  have hlast : lastPi ntk = ntk.numPis - 1 := by
    rw [lastPi]
    omega
  have hfield : ∀ v : ℕ, v < 2 ^ 31 → CoordinateLayout.toField v = v := by
    intro v hv
    rw [CoordinateLayout.toField]
    omega
  rw [determineLayoutSize, foldl_enlarge]
  have hx : 0 + ((nodes ntk T).map (columns ntk V ctn)).sum =
      openColumns ntk V ctn (nodes ntk T) := Nat.zero_add _
  have hy : lastPi ntk + ((nodes ntk T).map (rows ntk V ctn)).sum =
      openRows ntk V ctn (nodes ntk T) - 1 := by omega
  simp only [hx, hy]
  rw [hfield _ (by omega), hfield _ (by omega)]

theorem reserveInputNodes_clocked (lyt : GateLevelLayout) :
    (reserveInputNodes ntk lyt).1.clocked = lyt.clocked := by
  rw [reserveInputNodes]
  dsimp only
  rw [GateLevelLayout.moveNode_clocked]
  generalize (fun _ => 0 : ℕ → ℕ) = piMap
  induction ntk.foreachPi generalizing lyt piMap with
  | nil => rfl
  | cons pi pis ih =>
    rw [List.foldl_cons, ih]
    exact (GateLevelLayout.createPi_createdAt _ _).clocked

/-- Without inputs nothing can be placed. -/
theorem nodes_eq_of_numPis (hzero : ntk.numPis = 0)
    (hplace : ∀ n ∈ ntk.inputs ++ T.gates, ntk.isPi n = false → isPlaceable ntk n = true) :
    nodes ntk T = [0, 1] := by
  have hpi : ∀ n, ntk.isPi n = false := fun n => by simp [isPi, hzero]
  have hinputs : ntk.inputs = [] := by
    refine List.eq_nil_iff_forall_not_mem.mpr fun n hn => ?_
    have hci := isCi_of_isPlaceable (hplace n (List.mem_append_left _ hn) (hpi n))
    rw [isCi, List.contains_eq_mem, decide_eq_false_iff_not] at hci
    exact hci hn
  have hgates : T.gates = [] := by
    have hsorted := T.sorted
    cases hg : T.gates with
    | nil => rfl
    | cons n gates =>
      rw [hg] at hsorted
      have hn := hplace n (by rw [hg]; simp) (hpi n)
      have hfilter : (ntk.node n).children.filter (!isConstant ·) = [] := by
        refine List.filter_eq_nil_iff.mpr fun c hc => ?_
        rcases hsorted.2.1 c hc with hle | hin
        · simp [isConstant, hle]
        · rw [hinputs] at hin
          cases hin
      simp only [isPlaceable, fanins, isCi, hinputs, List.contains_nil, Bool.false_eq_true,
        if_false, hfilter] at hn
      split_ifs at hn
  rw [nodes, hinputs, hgates]
  rfl

/-- A loop that succeeds has placed all nodes. -/
theorem isPlaceable_of_run (htwo : ∀ n ∈ ntk.inputs, 2 ≤ n) {eastFirst : Bool} {clks : NumClks}
    {arrangement : Arrangement} {st : PlacementState}
    (hrun : run ntk V T ctn eastFirst clks arrangement = some st) :
    ∀ n ∈ ntk.inputs ++ T.gates, ntk.isPi n = false → isPlaceable ntk n = true := by
  intro n hn hpi
  by_contra hnot
  have hc : isConstant n = false := by
    rw [isConstant, decide_eq_false_iff_not]
    rcases List.mem_append.mp hn with hin | hgate
    · have := htwo n hin
      omega
    · exact fun hle => T.sorted.not_known n hgate (.inl hle)
  have hnone : ∀ pi2node st, placeNode ntk V ctn eastFirst pi2node st n = none := by
    intro pi2node st
    cases hst : placeNode ntk V ctn eastFirst pi2node st n with
    | none => rfl
    | some st' => exact absurd (isPlaceable_of_placeNode hc hpi hst) hnot
  rw [run] at hrun
  generalize reserveInputNodes ntk _ = p at hrun
  obtain ⟨lyt, pi2node⟩ := p
  dsimp only at hrun
  rw [foldlM_eq_none ((mem_nodes hc).mpr hn) (hnone pi2node)] at hrun
  cases hrun

/-- The last row of the layout is used only if there are inputs. -/
theorem numPis_pos_of_agrees (htwo : ∀ n ∈ ntk.inputs, 2 ≤ n) {eastFirst : Bool} {clks : NumClks}
    {arrangement : Arrangement} {st : PlacementState}
    (hrun : run ntk V T ctn eastFirst clks arrangement = some st)
    (hagrees : SizeAgrees (clockedLayout ntk V T ctn clks arrangement) st) : 0 < ntk.numPis := by
  refine Nat.pos_of_ne_zero fun hzero => ?_
  have hplace := isPlaceable_of_run htwo hrun
  rw [run, nodes_eq_of_numPis hzero hplace] at hrun
  obtain rfl := Option.some.inj hrun
  exact absurd hagrees.lastRow (Nat.succ_ne_zero _).symm

theorem agrees_iff (hnodup : ntk.inputs.Nodup) (htwo : ∀ n ∈ ntk.inputs, 2 ≤ n)
    (hnum : ntk.numPis ≤ ntk.inputs.length)
    (hpis : ∀ n ∈ ntk.foreachPi, (V.fanouts n).length ≤ 1)
    (hcolored : Colored ntk T.gates.reverse ctn) (hsize : 2 * (nodes ntk T).length < 2 ^ 31)
    (eastFirst : Bool) (clks : NumClks) (arrangement : Arrangement) :
    (∃ st, run ntk V T ctn eastFirst clks arrangement = some st ∧
      SizeAgrees (clockedLayout ntk V T ctn clks arrangement) st) ↔
    0 < ntk.numPis ∧
      ∀ n ∈ ntk.inputs ++ T.gates, ntk.isPi n = false → isPlaceable ntk n = true := by
  constructor
  · rintro ⟨st, hrun, hagrees⟩
    exact ⟨numPis_pos_of_agrees htwo hrun hagrees, isPlaceable_of_run htwo hrun⟩
  · rintro ⟨hpos, hplace⟩
    have hdim := @determineLayoutSize_eq ntk V T ctn hnodup htwo hnum hpos hpis hsize
    have hrows := @openRows_eq ntk V ctn (nodes ntk T)
    rw [countP_isPi_nodes hnodup htwo hnum] at hrows
    have hD : ∀ D : ClockedLayout, D = clockedLayout ntk V T ctn clks arrangement →
        D.x = openColumns ntk V ctn (nodes ntk T) ∧
          D.y = openRows ntk V ctn (nodes ntk T) - 1 ∧ D.z = 1 := by
      rintro _ rfl
      rw [CoordinateLayout.x, CoordinateLayout.y, CoordinateLayout.z, clockedLayout, hdim]
      exact ⟨rfl, rfl, rfl⟩
    obtain ⟨hx, hy, hz⟩ := hD _ rfl
    obtain ⟨lyt, pi2node, hreserve⟩ : ∃ lyt pi2node, reserveInputNodes ntk
        (.empty (clockedLayout ntk V T ctn clks arrangement) "") = (lyt, pi2node) := ⟨_, _, rfl⟩
    have hlyt : lyt.clocked = clockedLayout ntk V T ctn clks arrangement := by
      have hclocked := @reserveInputNodes_clocked ntk
        (.empty (clockedLayout ntk V T ctn clks arrangement) "")
      rw [hreserve] at hclocked
      exact hclocked
    have hstart : Stage (clockedLayout ntk V T ctn clks arrangement) (fun _ => False) 1 0
        ⟨⟨lyt, []⟩, fun _ => .at2 0 0, .at2 1 0, 0⟩ :=
      ⟨⟨hlyt, fun _ ht => absurd ht List.not_mem_nil⟩, rfl, fun _ h => h.elim, Nat.one_pos⟩
    obtain ⟨st, hst, hstage⟩ :=
      hstart.loop hz hx.ge (by omega) htwo hpis hplace hcolored eastFirst pi2node
    have hrun : run ntk V T ctn eastFirst clks arrangement = some st := by
      rw [run, hreserve]
      exact hst
    refine ⟨st, hrun, hstage.drawn.inside, ?_, ?_⟩
    · rw [hstage.latestPos, hx]
      exact Nat.add_comm _ _
    · rw [hstage.latestPos, hy]
      change openRows ntk V ctn (nodes ntk T) = _
      omega

end Run

section Substituted

theorem length_fanouts_le {ntk : TechnologyNetwork} (V : FanoutView ntk) (n : ℕ) :
    (V.fanouts n).length ≤ ntk.fanoutSize n := by
  have hnodes : ntk.nodes = (List.range ntk.size).map ntk.node :=
    List.ext_getElem (by simp [size]) fun i hi _ => by simp [node, hi]
  have huse : ∀ m ∈ V.fanouts n, 1 ≤ (ntk.node m).children.countP fun c => c = n := by
    intro m hm
    have hchild := ((V.mem_fanouts n m).mp hm).2
    exact List.countP_pos_iff.mpr ⟨n, hchild, by simp⟩
  have hsubset : (V.fanouts n).toFinset ⊆ (List.range ntk.size).toFinset := by
    intro m hm
    rw [List.mem_toFinset] at hm ⊢
    exact List.mem_range.mpr ((V.mem_fanouts n m).mp hm).1.1
  calc (V.fanouts n).length = ∑ m ∈ (V.fanouts n).toFinset, 1 := by
        rw [← Finset.card_eq_sum_ones, List.toFinset_card_of_nodup (V.nodup n)]
    _ ≤ ∑ m ∈ (V.fanouts n).toFinset, (ntk.node m).children.countP (fun c => c = n) :=
        Finset.sum_le_sum fun m hm => huse m (List.mem_toFinset.mp hm)
    _ ≤ ∑ m ∈ (List.range ntk.size).toFinset, (ntk.node m).children.countP (fun c => c = n) :=
        Finset.sum_le_sum_of_subset hsubset
    _ = (ntk.nodes.map fun data => data.children.countP fun c => c = n).sum := by
        rw [hnodes, List.map_map, List.sum_toFinset _ List.nodup_range]
        rfl
    _ ≤ ntk.fanoutSize n := Nat.le_add_right _ _

/-- `orthogonal` substitutes fan-outs, colours the edges and places the nodes. The computed size
agrees with the placement exactly if there is an input and every gate can be placed. -/
theorem orthogonal_agrees_iff [CopyInitializer] (src : TechnologyNetwork)
    (hw : src.WellFormed) (S : src.TopoView) :
    ∃ ntk, FanoutSubstitution.run src {} S.gates = some ntk ∧
      ∀ (V : FanoutView ntk) (T : ntk.TopoView), 2 * (nodes ntk T).length < 2 ^ 31 →
        ∃ ctn, (∀ fuel > (edges ntk).card, eastSouthEdgeColoring ntk V T fuel = some ctn) ∧
          ∀ (eastFirst : Bool) (clks : NumClks) (arrangement : Arrangement),
            ((∃ st, run ntk V T ctn eastFirst clks arrangement = some st ∧
                SizeAgrees (clockedLayout ntk V T ctn clks arrangement) st) ↔
              0 < src.numPis ∧
                ∀ n ∈ ntk.inputs ++ T.gates, ntk.isPi n = false → isPlaceable ntk n = true) := by
  obtain ⟨ntk, hrun, hinputs⟩ := FanoutSubstitution.fanoutSubstitution_inputs hw S
  refine ⟨ntk, hrun, fun V T hsize => ?_⟩
  obtain ⟨ctn, hcoloring, hcolored⟩ := exists_coloring V T
  refine ⟨ctn, hcoloring, fun eastFirst clks arrangement => ?_⟩
  have hnum : ntk.numPis ≤ ntk.inputs.length := by
    rw [hinputs.numPis, hinputs.length]
    exact hw.numPis_le
  have hpis : ∀ n ∈ ntk.foreachPi, (V.fanouts n).length ≤ 1 := fun n hn =>
    (length_fanouts_le V n).trans (hinputs.fanoutSize_le n (List.mem_of_mem_take hn))
  rw [agrees_iff hinputs.nodup hinputs.two_le hnum hpis hcolored hsize, hinputs.numPis]

theorem circle_wellFormed : circle.WellFormed :=
  wellFormed_of_forall_lt (by decide) (by decide) (by decide) (by decide) (by decide) (by decide)
    (by decide)

theorem orthogonal_agrees_iff_circle :
    ∃ ntk, FanoutSubstitution.run circle {} circleView.gates = some ntk ∧
      ∀ (V : FanoutView ntk) (T : ntk.TopoView), 2 * (nodes ntk T).length < 2 ^ 31 →
        ∃ ctn, (∀ fuel > (edges ntk).card, eastSouthEdgeColoring ntk V T fuel = some ctn) ∧
          ∀ (eastFirst : Bool) (clks : NumClks) (arrangement : Arrangement),
            ((∃ st, run ntk V T ctn eastFirst clks arrangement = some st ∧
                SizeAgrees (clockedLayout ntk V T ctn clks arrangement) st) ↔
              0 < circle.numPis ∧
                ∀ n ∈ ntk.inputs ++ T.gates, ntk.isPi n = false → isPlaceable ntk n = true) :=
  orthogonal_agrees_iff circle circle_wellFormed circleView

/-- A network of one constant output. -/
def constantOutput : TechnologyNetwork := empty.createPo (getConstant true)

def constantOutputView : constantOutput.TopoView := creationView (by decide) (by decide)

/-- Without inputs, the number of the last row underflows. -/
theorem constantOutput_disagrees :
    ∃ ntk, FanoutSubstitution.run constantOutput {} constantOutputView.gates = some ntk ∧
      ∀ (V : FanoutView ntk) (T : ntk.TopoView) (ctn : ColoringContainer) (eastFirst : Bool)
        (clks : NumClks) (arrangement : Arrangement),
        ¬ ∃ st, run ntk V T ctn eastFirst clks arrangement = some st ∧
          SizeAgrees (clockedLayout ntk V T ctn clks arrangement) st := by
  have hw : constantOutput.WellFormed := wellFormed_of_forall_lt (by decide) (by decide)
    (by decide) (by decide) (by decide) (by decide) (by decide)
  obtain ⟨ntk, hrun, hinputs⟩ :=
    FanoutSubstitution.fanoutSubstitution_inputs hw constantOutputView
  refine ⟨ntk, hrun, fun V T ctn eastFirst clks arrangement ⟨st, hst, hagrees⟩ => ?_⟩
  have hpos := numPis_pos_of_agrees hinputs.two_le hst hagrees
  rw [hinputs.numPis] at hpos
  exact absurd hpos (by decide)

end Substituted

end Fiction.Orthogonal
