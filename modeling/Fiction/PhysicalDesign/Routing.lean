import Fiction.Library.OrderedSet
import Fiction.PhysicalDesign.DirectedFlow

/-!
# Routing

The wire segments of an edge are laid out from the tile of its source on: each next one is the first
outgoing zone in the order of coordinates that hosts the edge and is connected. If connections ascend
along some height, the segments end next to the target. If edges are passed on to one tile each, the
segments are all tiles that host the edge.
-/

namespace Fiction.Exact

variable {S : SpecificationNetwork} {p : ExactParams} {ar : AspectRatio} {v : Assignment}
  {ed : Edge} {t : Tile} {n : ℕ}

section Route

variable (p ar v ed)

/-- The tile on which `n` is placed. -/
def tileOf (n : ℕ) : Tile := ((allTiles ar).find? fun t => v.tn t n).getD (.at2 0 0)

/-- The tile onto which `route` puts the wire segment after the one on `t`. -/
def nextSegment (t : Tile) : Option Tile :=
  (OrderedSet.ofList Ucoord.lt ((p.layout ar).outgoingClockedZones t)).find? fun at' =>
    v.te at' ed && v.tc t at'

/-- The tiles of the wire segments that `route` creates from `t` on, no more than `fuel` ones. -/
def route : ℕ → Tile → List Tile
  | 0, _ => []
  | fuel + 1, t =>
    match nextSegment p ar v ed t with
    | none => []
    | some at' => at' :: route fuel at'

/-- The wire segments of `ed`. -/
def wires : List Tile := route p ar v ed (allTiles ar).length (tileOf ar v ed.source)

end Route

theorem nextSegment_eq_some {u : Tile} (h : nextSegment p ar v ed t = some u) :
    Connected p ar v t u ∧ v.te u ed = true := by
  have hfound := List.find?_some h
  rw [Bool.and_eq_true] at hfound
  exact ⟨⟨OrderedSet.mem_of_mem_ofList (List.mem_of_find?_eq_some h), hfound.2⟩, hfound.1⟩

theorem mem_ofList_outgoingClockedZones {u : Tile} (ht : t ∈ allTiles ar) :
    u ∈ OrderedSet.ofList Ucoord.lt ((p.layout ar).outgoingClockedZones t) ↔
      u ∈ (p.layout ar).outgoingClockedZones t := by
  apply OrderedSet.mem_ofList
  intro a ha b hb
  have hlive : ∀ c ∈ (p.layout ar).outgoingClockedZones t, c.d = false := by
    intro c hc
    rw [(mem_allTiles.mp (mem_allTiles_of_mem_outgoingClockedZones ht hc)).1]
    rfl
  exact Ucoord.eq_of_not_lt ((hlive a ha).trans (hlive b hb).symm)

theorem te_eq_false_of_nextSegment_eq_none (ht : t ∈ allTiles ar)
    (h : nextSegment p ar v ed t = none) {u : Tile} (hc : Connected p ar v t u) :
    v.te u ed = false := by
  have hnone := List.find?_eq_none.mp h u ((mem_ofList_outgoingClockedZones ht).mpr hc.1)
  rw [hc.2, Bool.and_true] at hnone
  exact Bool.eq_false_iff.mpr hnone

section Height

variable {height : Tile → ℕ}
  (hh : ∀ t ∈ allTiles ar, ∀ u ∈ allTiles ar, Connected p ar v t u → height t < height u)
include hh

/-- The number of tiles above `t`. -/
def above (ar : AspectRatio) (height : Tile → ℕ) (t : Tile) : ℕ :=
  ((allTiles ar).toFinset.filter fun u => height t < height u).card

omit hh in
theorem above_le (t : Tile) : above ar height t ≤ (allTiles ar).length :=
  (Finset.card_filter_le _ _).trans (List.toFinset_card_le _)

theorem above_lt {u : Tile} (ht : t ∈ allTiles ar) (hu : u ∈ allTiles ar)
    (hc : Connected p ar v t u) : above ar height u < above ar height t := by
  have hlt := hh t ht u hu hc
  refine Finset.card_lt_card (Finset.ssubset_iff_of_subset (fun w hw => ?_) |>.mpr ⟨u, ?_, ?_⟩)
  · obtain ⟨hw, hlt'⟩ := Finset.mem_filter.mp hw
    exact Finset.mem_filter.mpr ⟨hw, hlt.trans hlt'⟩
  · exact Finset.mem_filter.mpr ⟨List.mem_toFinset.mpr hu, hlt⟩
  · exact fun hw => lt_irrefl _ (Finset.mem_filter.mp hw).2

/-- Where the segments lie, how they are connected, and that none is missing at the end. -/
structure Routed (p : ExactParams) (ar : AspectRatio) (v : Assignment) (ed : Edge)
    (height : Tile → ℕ) (t : Tile) (segments : List Tile) : Prop where
  mem : ∀ u ∈ segments, u ∈ allTiles ar ∧ v.te u ed = true ∧ height t < height u
  ascending : segments.Pairwise fun u w => height u < height w
  connected : (t :: segments).IsChain (Connected p ar v)
  closed : ∀ s ∈ t :: segments, ∀ u, nextSegment p ar v ed s = some u → u ∈ segments
  finished : nextSegment p ar v ed ((t :: segments).getLast (List.cons_ne_nil _ _)) = none

theorem routed_route (fuel : ℕ) (ht : t ∈ allTiles ar) (hfuel : above ar height t ≤ fuel) :
    Routed p ar v ed height t (route p ar v ed fuel t) := by
  induction fuel generalizing t with
  | zero =>
    have hnone : nextSegment p ar v ed t = none := by
      by_contra hne
      obtain ⟨u, hu⟩ := Option.ne_none_iff_exists'.mp hne
      obtain ⟨hc, -⟩ := nextSegment_eq_some hu
      have := above_lt hh ht (mem_allTiles_of_mem_outgoingClockedZones ht hc.1) hc
      omega
    refine ⟨fun u hu => absurd hu List.not_mem_nil, .nil, .singleton t, fun s hs u hu => ?_, hnone⟩
    rw [List.mem_singleton.mp hs, hnone] at hu
    cases hu
  | succ fuel ih =>
    cases hnext : nextSegment p ar v ed t with
    | none =>
      have hroute : route p ar v ed (fuel + 1) t = [] := by rw [route, hnext]
      rw [hroute]
      refine ⟨fun u hu => absurd hu List.not_mem_nil, .nil, .singleton t, fun s hs u hu => ?_,
        hnext⟩
      rw [List.mem_singleton.mp hs, hnext] at hu
      cases hu
    | some u =>
      have hroute : route p ar v ed (fuel + 1) t = u :: route p ar v ed fuel u := by
        rw [route, hnext]
      obtain ⟨hc, hte⟩ := nextSegment_eq_some hnext
      have hu := mem_allTiles_of_mem_outgoingClockedZones ht hc.1
      have hlt := hh t ht u hu hc
      have hr := ih hu (Nat.le_of_lt_succ ((above_lt hh ht hu hc).trans_le hfuel))
      rw [hroute]
      refine ⟨fun w hw => ?_, ?_, hr.connected.cons_cons hc, fun s hs w hw => ?_, ?_⟩
      · rcases List.mem_cons.mp hw with rfl | hw
        · exact ⟨hu, hte, hlt⟩
        · obtain ⟨hmem, htew, hltw⟩ := hr.mem w hw
          exact ⟨hmem, htew, hlt.trans hltw⟩
      · exact List.pairwise_cons.mpr ⟨fun w hw => (hr.mem w hw).2.2, hr.ascending⟩
      · rcases List.mem_cons.mp hs with rfl | hs
        · rw [hnext] at hw
          rw [Option.some.inj hw]
          exact List.mem_cons_self
        · exact List.mem_cons_of_mem _ (hr.closed s hs w hw)
      · rw [List.getLast_cons (List.cons_ne_nil _ _)]
        exact hr.finished

omit hh in
theorem Routed.nodup {segments : List Tile} (h : Routed p ar v ed height t segments) :
    segments.Nodup :=
  h.ascending.imp fun hlt heq => absurd (congrArg height heq) hlt.ne

end Height

section Model

variable (h : CoreModel S p ar v)
include h

theorem CoreModel.tileOf_eq (hn : n ∈ placedNodes S p) (ht : t ∈ allTiles ar)
    (hv : v.tn t n = true) : tileOf ar v n = t := by
  obtain ⟨u, hfind⟩ := Option.isSome_iff_exists.mp
    (List.find?_isSome.mpr ⟨t, ht, hv⟩ : ((allTiles ar).find? fun t => v.tn t n).isSome = true)
  have hu : v.tn u n = true := List.find?_some (p := fun t => v.tn t n) hfind
  rw [tileOf, hfind, Option.getD_some]
  exact h.tile_unique hn (List.mem_of_find?_eq_some hfind) ht hu hv

theorem CoreModel.tileOf_spec (hn : n ∈ placedNodes S p) :
    tileOf ar v n ∈ allTiles ar ∧ v.tn (tileOf ar v n) n = true := by
  obtain ⟨t, ht, hv⟩ := h.exists_tile hn
  rw [h.tileOf_eq hn ht hv]
  exact ⟨ht, hv⟩

variable {height : Tile → ℕ}
  (hh : ∀ t ∈ allTiles ar, ∀ u ∈ allTiles ar, Connected p ar v t u → height t < height u)
  (hed : ed ∈ placedEdges S p)
include hh hed

theorem CoreModel.routed_wires :
    Routed p ar v ed height (tileOf ar v ed.source) (wires p ar v ed) :=
  routed_route hh _ (h.tileOf_spec (mem_placedNodes_of_mem_placedEdges hed).1).1 (above_le _)

variable (hS : (p.layout ar).Small) (hr : p.isRegularlyClocked = true)
  (hp : NamedScheme.Proceeds p.scheme.clocking)
include hS hr hp

theorem CoreModel.connected_target :
    Connected p ar v
      ((tileOf ar v ed.source :: wires p ar v ed).getLast (List.cons_ne_nil _ _))
      (tileOf ar v ed.target) := by
  have hw := h.routed_wires hh hed
  have hsrc := h.tileOf_spec (mem_placedNodes_of_mem_placedEdges hed).1
  have hlast : (tileOf ar v ed.source :: wires p ar v ed).getLast (List.cons_ne_nil _ _) ∈
      allTiles ar ∧ Sends v ed
        ((tileOf ar v ed.source :: wires p ar v ed).getLast (List.cons_ne_nil _ _)) := by
    rcases List.mem_cons.mp (List.getLast_mem (List.cons_ne_nil (tileOf ar v ed.source)
      (wires p ar v ed))) with heq | hmem
    · rw [heq]
      exact ⟨hsrc.1, .inl hsrc.2⟩
    · obtain ⟨hall, hte, -⟩ := hw.mem _ hmem
      exact ⟨hall, .inr hte⟩
  obtain ⟨u, hu, hc, hrec⟩ := h.exists_continues hS hr hp hed hlast.1 hlast.2
  have hte := te_eq_false_of_nextSegment_eq_none hlast.1 hw.finished hc
  rcases hrec with hv | hv
  · rwa [h.tileOf_eq (mem_placedNodes_of_mem_placedEdges hed).2 hu hv]
  · rw [hte] at hv
    exact absurd hv Bool.false_ne_true

variable (hd : DistinctFanins S)
include hd

theorem CoreModel.mem_wires_iff
    (hpass : LabelledFlow.PassedOn (allTiles ar).toFinset (Connected p ar v) (Sends v)
      (Receives v) ed) (ht : t ∈ allTiles ar) : t ∈ wires p ar v ed ↔ v.te t ed = true := by
  have hw := h.routed_wires hh hed
  have hsrc := h.tileOf_spec (mem_placedNodes_of_mem_placedEdges hed).1
  have hflow := h.labelledFlow hS hr hp hd (List.ne_nil_of_mem hed)
  refine ⟨fun hmem => (hw.mem t hmem).2.1, fun hte => ?_⟩
  have hstep : ∀ s ∈ tileOf ar v ed.source :: wires p ar v ed, s ∈ allTiles ar → Sends v ed s →
      ∀ u ∈ allTiles ar, Connected p ar v s u → v.te u ed = true → u ∈ wires p ar v ed := by
    intro s hs hmem hsend u hu hc hteu
    cases hnext : nextSegment p ar v ed s with
    | none =>
      rw [te_eq_false_of_nextSegment_eq_none hmem hnext hc] at hteu
      exact absurd hteu Bool.false_ne_true
    | some w =>
      obtain ⟨hcw, htew⟩ := nextSegment_eq_some hnext
      have hwmem := mem_allTiles_of_mem_outgoingClockedZones hmem hcw.1
      rw [hpass s (List.mem_toFinset.mpr hmem) hsend u (List.mem_toFinset.mpr hu) w
        (List.mem_toFinset.mpr hwmem) hc (.inr hteu) hcw (.inr htew)]
      exact hw.closed s hs w hnext
  refine hflow.induction (P := fun u => v.te u ed = true → u ∈ wires p ar v ed)
    (fun t ht u hu => hh t (List.mem_toFinset.mp ht) u (List.mem_toFinset.mp hu))
    (List.mem_toFinset.mpr hed) (s := tileOf ar v ed.source) (fun s hs hsend hrec => ?_)
    (fun u hu hc _ hteu => hstep _ List.mem_cons_self hsrc.1 (.inl hsrc.2) u
      (List.mem_toFinset.mp hu) hc hteu)
    (fun s hs u hu hP hsend hc hrec hteu => ?_) (List.mem_toFinset.mpr ht) (.inr hte) hte
  · rcases hsend with hv | hv
    · exact (h.tileOf_eq (mem_placedNodes_of_mem_placedEdges hed).1 (List.mem_toFinset.mp hs)
        hv).symm
    · exact absurd (.inr hv) hrec
  · have hs := List.mem_toFinset.mp hs
    refine hstep s ?_ hs hsend u (List.mem_toFinset.mp hu) hc hteu
    rcases hsend with hv | hv
    · rw [h.tileOf_eq (mem_placedNodes_of_mem_placedEdges hed).1 hs hv]
      exact List.mem_cons_self
    · exact List.mem_cons_of_mem _ (hP hv)

theorem CoreModel.length_wires
    (hpass : LabelledFlow.PassedOn (allTiles ar).toFinset (Connected p ar v) (Sends v)
      (Receives v) ed) :
    (wires p ar v ed).length = ((allTiles ar).map fun t => v.te t ed).count true := by
  have hnodup : (allTiles ar).Nodup :=
    @CoordinateLayout.foreachGroundTile_nodup (p.layout ar).toCoordinateLayout
  rw [Counting.count_map_eq]
  refine List.Perm.length_eq ((List.perm_ext_iff_of_nodup (h.routed_wires hh hed).nodup
    (hnodup.filter _)).mpr fun t => ?_)
  rw [List.mem_filter]
  constructor
  · intro hmem
    obtain ⟨hall, hte, -⟩ := (h.routed_wires hh hed).mem t hmem
    exact ⟨hall, hte⟩
  · rintro ⟨hall, hte⟩
    exact (h.mem_wires_iff hh hed hS hr hp hd hpass hall).mpr hte

end Model

end Fiction.Exact
