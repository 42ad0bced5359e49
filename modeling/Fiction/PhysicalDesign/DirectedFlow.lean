import Fiction.Layouts.FlowRanks
import Fiction.PhysicalDesign.EdgeLabels
import Fiction.PhysicalDesign.InverseLevels
import Fiction.PhysicalDesign.SolverStates

/-!
# Directed flow

Under columnar and row clocking every connection leads one column, respectively one row, further.
The edges on a path through the network are therefore laid out one after the other, and a layout is
at least as long as the path. With border I/Os, the inputs share the first column or row and the
outputs the last one.
-/

namespace Fiction.Exact

variable {S : SpecificationNetwork} {p : ExactParams} {ar : AspectRatio} {v : Assignment}
  {t : Tile} {n : ℕ}

/-- A path of `k` edges that are laid out ends in `n`. -/
def HasPlacedPath (S : SpecificationNetwork) (p : ExactParams) : ℕ → ℕ → Prop
  | 0, n => n ∈ placedNodes S p
  | k + 1, n => ∃ ed ∈ placedEdges S p, ed.target = n ∧ HasPlacedPath S p k ed.source

theorem HasPlacedPath.mem_placedNodes {k : ℕ} (h : HasPlacedPath S p k n) :
    n ∈ placedNodes S p := by
  cases k with
  | zero => exact h
  | succ k =>
    obtain ⟨ed, hed, rfl, -⟩ := h
    exact (mem_placedNodes_of_mem_placedEdges hed).2

/-- Connections lead from each rank to the next one, up to rank `far`. -/
structure Directed (p : ExactParams) (ar : AspectRatio) (rank : Tile → ℕ) (far : ℕ) : Prop where
  regular : p.isRegularlyClocked = true
  proceeds : NamedScheme.Proceeds p.scheme.clocking
  rank_le : ∀ t ∈ allTiles ar, rank t ≤ far
  rank_succ : ∀ t ∈ allTiles ar, ∀ u ∈ (p.layout ar).outgoingClockedZones t, rank u = rank t + 1

section Directed

variable {rank : Tile → ℕ} {far : ℕ} (hdir : Directed p ar rank far) (hS : (p.layout ar).Small)
  (h : CoreModel S p ar v)
include hdir hS h

theorem CoreModel.exists_next_rank {ed : Edge} (hed : ed ∈ placedEdges S p)
    (ht : t ∈ allTiles ar) (hv : v.tn t ed.source = true ∨ v.te t ed = true) :
    ∃ u ∈ allTiles ar, rank u = rank t + 1 ∧
      (v.tn u ed.target = true ∨ v.te u ed = true) := by
  obtain ⟨u, hu, hc, hnext⟩ := h.exists_continues hS hdir.regular hdir.proceeds hed ht hv
  exact ⟨u, hu, hdir.rank_succ t ht u hc.1, hnext⟩

theorem CoreModel.exists_target {ed : Edge} (hed : ed ∈ placedEdges S p) (ht : t ∈ allTiles ar)
    (hv : v.tn t ed.source = true ∨ v.te t ed = true) :
    ∃ u ∈ allTiles ar, rank t < rank u ∧ v.tn u ed.target = true := by
  have hrun : ∀ k t, t ∈ allTiles ar → far - rank t ≤ k →
      v.tn t ed.source = true ∨ v.te t ed = true →
        ∃ u ∈ allTiles ar, rank t < rank u ∧ v.tn u ed.target = true := by
    intro k
    induction k with
    | zero =>
      intro t ht hk hv
      obtain ⟨u, hu, hrank, -⟩ := h.exists_next_rank hdir hS hed ht hv
      have hle := hdir.rank_le u hu
      omega
    | succ k ih =>
      intro t ht hk hv
      obtain ⟨u, hu, hrank, hnext | hnext⟩ := h.exists_next_rank hdir hS hed ht hv
      · exact ⟨u, hu, by omega, hnext⟩
      · obtain ⟨w, hw, hlt, hvw⟩ := ih u hu (by omega) (.inr hnext)
        exact ⟨w, hw, by omega, hvw⟩
  exact hrun _ t ht le_rfl hv

theorem CoreModel.le_rank_of_hasPlacedPath {k : ℕ} (hpath : HasPlacedPath S p k n)
    (ht : t ∈ allTiles ar) (hv : v.tn t n = true) : k ≤ rank t := by
  induction k generalizing n t with
  | zero => exact Nat.zero_le _
  | succ k ih =>
    obtain ⟨ed, hed, rfl, hpath⟩ := hpath
    obtain ⟨hsrc, htgt⟩ := mem_placedNodes_of_mem_placedEdges hed
    obtain ⟨u, hu, hvu⟩ := h.exists_tile hsrc
    obtain ⟨w, hw, hlt, hvw⟩ := h.exists_target hdir hS hed hu (.inl hvu)
    obtain rfl := h.tile_unique htgt hw ht hvw hv
    exact (ih hpath hu hvu).trans_lt hlt

theorem CoreModel.length_le_far {k : ℕ} (hpath : HasPlacedPath S p k n) : k ≤ far := by
  obtain ⟨t, ht, hv⟩ := h.exists_tile hpath.mem_placedNodes
  exact (h.le_rank_of_hasPlacedPath hdir hS hpath ht hv).trans (hdir.rank_le t ht)

theorem CoreModel.rank_add_le_of_hasFanoutPath (hio : p.ioPins = true) {k : ℕ}
    (hn : n ∈ placedNodes S p) (hpath : S.HasFanoutPath k n) (ht : t ∈ allTiles ar)
    (hv : v.tn t n = true) : rank t + k ≤ far := by
  induction k generalizing n t with
  | zero => exact hdir.rank_le t ht
  | succ k ih =>
    obtain ⟨m, hm, hfan, hpath⟩ := hpath
    have hg : 2 ≤ m :=
      (SpecificationNetwork.mem_fanouts.mp (S.mem_fanouts_of_mem_foreachFanin hm hfan)).1
    have hmp : m ∈ placedNodes S p :=
      mem_placedNodes.mpr ⟨hm, skipConstOrIoNode_eq_false hio hg⟩
    have hed := mem_placedEdges_of_mem_foreachFanin hmp hfan (mem_placedNodes.mp hn).2
    obtain ⟨u, hu, hlt, hvu⟩ := h.exists_target hdir hS hed ht (.inl hv)
    have hle := ih hmp hpath hu hvu
    omega

end Directed

section Border

variable (S p)

def inputBorderNodes : List ℕ := (placedNodes S p).filter fun n =>
  if p.ioPins then n ∈ S.ntk.foreachPi else ∃ pi ∈ S.ntk.foreachPi, pi ∈ S.foreachFanin n

/-- The nodes that are bound to the border of the outputs. -/
def outputBorderNodes : List ℕ := (placedNodes S p).filter fun n =>
  if p.ioPins then n ∈ S.ntk.foreachPo else ∃ po ∈ S.ntk.foreachPo, n ∈ S.foreachFanin po

variable {S p} (h : CoreModel S p ar v) (hb : p.borderIo = true)
include h hb

theorem CoreModel.inputBorder (hn : n ∈ inputBorderNodes S p) :
    assignInputBorder p (freshCheckPoint ar) v n := by
  obtain ⟨hplaced, hin⟩ := List.mem_filter.mp hn
  have hborder := h.generated.enforceBorderIo hb
  unfold enforceBorderIo at hborder
  cases hio : p.ioPins with
  | true =>
    rw [hio, if_pos rfl] at hborder hin
    exact hborder.1 n (of_decide_eq_true hin)
  | false =>
    rw [hio, if_neg Bool.false_ne_true] at hborder hin
    obtain ⟨pi, hpi, hfan⟩ := of_decide_eq_true hin
    obtain ⟨hnode, hskip⟩ := mem_placedNodes.mp hplaced
    exact hborder.1 pi hpi n (S.mem_fanouts_of_mem_foreachFanin hnode hfan) hskip

theorem CoreModel.outputBorder (hn : n ∈ outputBorderNodes S p) :
    assignOutputBorder p (freshCheckPoint ar) v n := by
  obtain ⟨hplaced, hout⟩ := List.mem_filter.mp hn
  have hborder := h.generated.enforceBorderIo hb
  unfold enforceBorderIo at hborder
  cases hio : p.ioPins with
  | true =>
    rw [hio, if_pos rfl] at hborder hout
    exact hborder.2 n (of_decide_eq_true hout)
  | false =>
    rw [hio, if_neg Bool.false_ne_true] at hborder hout
    obtain ⟨po, hpo, hfan⟩ := of_decide_eq_true hout
    exact hborder.2 po hpo n hfan (mem_placedNodes.mp hplaced).2

/-- Nodes that are bound to two sides of the layout are no more than their tiles. -/
theorem CoreModel.length_le_of_border {first last : List Tile}
    (hfirst : ∀ t ∈ first, t ∈ allTiles ar) (hlast : ∀ t ∈ last, t ∈ allTiles ar)
    (hin : ∀ n, assignInputBorder p (freshCheckPoint ar) v n →
      ∀ t ∈ allTiles ar, v.tn t n = true → t ∈ first)
    (hout : ∀ n, assignOutputBorder p (freshCheckPoint ar) v n →
      ∀ t ∈ allTiles ar, v.tn t n = true → t ∈ last) :
    (inputBorderNodes S p).length ≤ first.length ∧
      (outputBorderNodes S p).length ≤ last.length := by
  constructor
  · refine h.length_le_of_tiles (placedNodes_nodup.filter _) hfirst
      (fun n hn => List.mem_of_mem_filter hn) fun n hn => ?_
    obtain ⟨t, ht, hv⟩ := h.exists_tile (List.mem_of_mem_filter hn)
    exact ⟨t, hin n (h.inputBorder hb hn) t ht hv, hv⟩
  · refine h.length_le_of_tiles (placedNodes_nodup.filter _) hlast
      (fun n hn => List.mem_of_mem_filter hn) fun n hn => ?_
    obtain ⟨t, ht, hv⟩ := h.exists_tile (List.mem_of_mem_filter hn)
    exact ⟨t, hout n (h.outputBorder hb hn) t ht hv, hv⟩

end Border

section Schemes

variable (hp : NamedScheme.Predefined p.arrangement p.scheme) (hS : (p.layout ar).Small)
include hp hS

/-- The rank of a tile under the clocking of the layout. -/
def flowRank (p : ExactParams) : Tile → ℕ := p.scheme.flowRank p.arrangement

theorem flowRank_eq_succ (hl : p.scheme.isLinearScheme = true)
    (hr : p.scheme.Ranked p.arrangement) {u : Tile} (ht : t ∈ allTiles ar)
    (hu : u ∈ (p.layout ar).outgoingClockedZones t) : flowRank p u = flowRank p t + 1 :=
  @NamedScheme.Predefined.flowRank_eq_succ (p.layout ar) _ hp hl hr rfl (fun _ => hS) _ _
    (inside_of_mem_allTiles p ht) hu

theorem directed_flowRank (hl : p.scheme.isLinearScheme = true)
    (hr : p.scheme.Ranked p.arrangement) {far : ℕ}
    (hle : ∀ t ∈ allTiles ar, flowRank p t ≤ far) : Directed p ar (flowRank p) far where
  regular := hp.regular_of_isLinearScheme hl
  proceeds := hp.proceeds (hp.regular_of_isLinearScheme hl)
  rank_le := hle
  rank_succ _ ht _ hu := flowRank_eq_succ hp hS hl hr ht hu

theorem directed_columnar (hc : p.isClockingScheme .columnar = true) :
    Directed p ar Ucoord.x ar.x := by
  have hn := of_decide_eq_true hc
  have hrank : flowRank p = Ucoord.x := by
    funext t
    rw [flowRank, NamedScheme.flowRank, hn]
  rw [← hrank]
  refine directed_flowRank hp hS (decide_eq_true (by rw [hn]; decide)) ?_ fun t ht => ?_
  · exact fun hw => absurd (hn.symm.trans hw) (by decide)
  · rw [hrank]
    exact (mem_allTiles.mp ht).2.1

theorem directed_row (hc : p.isClockingScheme .row = true) : Directed p ar Ucoord.y ar.y := by
  have hn := of_decide_eq_true hc
  have hrank : flowRank p = Ucoord.y := by
    funext t
    rw [flowRank, NamedScheme.flowRank, hn]
  rw [← hrank]
  refine directed_flowRank hp hS (decide_eq_true (by rw [hn]; decide)) ?_ fun t ht => ?_
  · exact fun hw => absurd (hn.symm.trans hw) (by decide)
  · rw [hrank]
    exact (mem_allTiles.mp ht).2.2

theorem directed_twoddwave (hc : p.isClockingScheme .twoddwave = true)
    (hfour : p.scheme.clocking.numClocks = 4 ∨ p.arrangement = .cartesian) :
    Directed p ar (fun t => t.x + t.y) (ar.x + ar.y) := by
  have hn := of_decide_eq_true hc
  have hrank : flowRank p = fun t => t.x + t.y := by
    funext t
    rw [flowRank, NamedScheme.flowRank, hn]
  rw [← hrank]
  refine directed_flowRank hp hS (decide_eq_true (by rw [hn]; decide)) (fun _ => hfour)
    fun t ht => ?_
  obtain ⟨-, hx, hy⟩ := mem_allTiles.mp ht
  rw [hrank]
  exact Nat.add_le_add hx hy

end Schemes

/-- The placed network needs more than ranks up to `far` and than the `side + 1` tiles of a
border. -/
def Exceeds (S : SpecificationNetwork) (p : ExactParams) (far side : ℕ) : Prop :=
  (∃ k n, far < k ∧ HasPlacedPath S p k n) ∨ p.borderIo = true ∧
    side + 1 < max (inputBorderNodes S p).length (outputBorderNodes S p).length

section Skip

variable (h : CoreModel S p ar v) (hS : (p.layout ar).Small)
  (hp : NamedScheme.Predefined p.arrangement p.scheme)
include h hS hp

theorem CoreModel.not_exceeds_columnar (hcol : p.isClockingScheme .columnar = true) :
    ¬ Exceeds S p ar.x ar.y := by
  rintro (⟨k, n, hlt, hpath⟩ | ⟨hb, hlt⟩)
  · exact absurd (h.length_le_far (directed_columnar hp hS hcol) hS hpath) (Nat.not_le.mpr hlt)
  · have hcolumn : ∀ t ∈ allTiles ar, t ∈ column t.x ar.y := fun t ht => by
      obtain ⟨heq, -, hy⟩ := mem_allTiles.mp ht
      exact List.mem_map.mpr ⟨t.y, List.mem_range.mpr (Nat.lt_succ_of_le hy), heq.symm⟩
    have hlen : ∀ x, (column x ar.y).length = ar.y + 1 := fun x => by simp [column]
    have hle : (inputBorderNodes S p).length ≤ (column 0 ar.y).length ∧
        (outputBorderNodes S p).length ≤ (column ar.x ar.y).length := by
      refine h.length_le_of_border hb (fun t => mem_column (Nat.zero_le _) le_rfl)
        (fun t => mem_column le_rfl le_rfl) (fun n hn t ht hv => ?_) (fun n hn t ht hv => ?_)
      · rw [assignInputBorder, if_pos hcol] at hn
        have hx : t.x = 0 := by
          by_contra hx
          rw [hn t ht (decide_eq_false hx)] at hv
          exact absurd hv Bool.false_ne_true
        exact hx ▸ hcolumn t ht
      · rw [assignOutputBorder, if_pos hcol] at hn
        have hx : t.x = ar.x := by
          by_contra hx
          rw [hn t (addedAndUpdatedTiles_fresh ▸ ht) (decide_eq_false hx)] at hv
          exact absurd hv Bool.false_ne_true
        exact hx ▸ hcolumn t ht
    rw [hlen, hlen] at hle
    omega

theorem CoreModel.not_exceeds_row (hrow : p.isClockingScheme .row = true) :
    ¬ Exceeds S p ar.y ar.x := by
  have hcol : ¬ p.isClockingScheme .columnar = true := fun hcol =>
    absurd ((of_decide_eq_true hcol).symm.trans (of_decide_eq_true hrow)) (by decide)
  rintro (⟨k, n, hlt, hpath⟩ | ⟨hb, hlt⟩)
  · exact absurd (h.length_le_far (directed_row hp hS hrow) hS hpath) (Nat.not_le.mpr hlt)
  · have hrow' : ∀ t ∈ allTiles ar, t ∈ row ar.x t.y := fun t ht => by
      obtain ⟨heq, hx, -⟩ := mem_allTiles.mp ht
      exact List.mem_map.mpr ⟨t.x, List.mem_range.mpr (Nat.lt_succ_of_le hx), heq.symm⟩
    have hlen : ∀ y, (row ar.x y).length = ar.x + 1 := fun y => by simp [row]
    have hle : (inputBorderNodes S p).length ≤ (row ar.x 0).length ∧
        (outputBorderNodes S p).length ≤ (row ar.x ar.y).length := by
      refine h.length_le_of_border hb (fun t => mem_row le_rfl (Nat.zero_le _))
        (fun t => mem_row le_rfl le_rfl) (fun n hn t ht hv => ?_) (fun n hn t ht hv => ?_)
      · rw [assignInputBorder, if_neg hcol, if_pos hrow] at hn
        have hy : t.y = 0 := by
          by_contra hy
          rw [hn t ht (decide_eq_false hy)] at hv
          exact absurd hv Bool.false_ne_true
        exact hy ▸ hrow' t ht
      · rw [assignOutputBorder, if_neg hcol, if_pos hrow] at hn
        have hy : t.y = ar.y := by
          by_contra hy
          rw [hn t (addedAndUpdatedTiles_fresh ▸ ht) (decide_eq_false hy)] at hv
          exact absurd hv Bool.false_ne_true
        exact hy ▸ hrow' t ht
    rw [hlen, hlen] at hle
    omega

end Skip

/-- The figures that the skip rules use do not exceed those of the placed network. -/
structure FiguresFit (S : SpecificationNetwork) (p : ExactParams) : Prop where
  depth : S.depth = 0 ∨ ∃ n, HasPlacedPath S p S.depth n
  border : p.borderIo = true → 0 < max S.numPis S.numPos ∧ max S.numPis S.numPos ≤
    max (inputBorderNodes S p).length (outputBorderNodes S p).length

theorem lt_of_lt_pred32 {a k : ℕ} (hk : 0 < k) (h : a < pred32 k) : a + 1 < k := by
  have hle : pred32 k ≤ k - 1 := by
    rw [pred32, show k + (2 ^ 32 - 1) = k - 1 + 2 ^ 32 by omega, Nat.add_mod_right]
    exact Nat.mod_le _ _
  omega

theorem FiguresFit.exceeds (hf : FiguresFit S p) {far side : ℕ}
    (h : far < S.depth ∨ p.borderIo = true ∧ side < pred32 (max S.numPis S.numPos)) :
    Exceeds S p far side := by
  rcases h with hlt | ⟨hb, hlt⟩
  · obtain ⟨n, hpath⟩ := hf.depth.resolve_left (Nat.zero_lt_of_lt hlt).ne'
    exact .inl ⟨_, n, hlt, hpath⟩
  · obtain ⟨hpos, hle⟩ := hf.border hb
    exact .inr ⟨hb, (lt_of_lt_pred32 hpos hlt).trans_le hle⟩

end Fiction.Exact
