import Fiction.PhysicalDesign.Growth

/-!
# Rotated aspect ratios

On a Cartesian grid without a regular clocking, mirroring a layout at its diagonal swaps columns
with rows and keeps neighbours, opposite neighbours and borders. A model from scratch for an aspect
ratio is therefore mirrored into one for the rotated aspect ratio.
-/

namespace Fiction

/-- The coordinate mirrored at the diagonal. -/
def Ucoord.mirror (c : Ucoord) : Ucoord := ⟨c.d, c.z, c.x, c.y⟩

@[simp] theorem Ucoord.mirror_mirror (c : Ucoord) : c.mirror.mirror = c := rfl
@[simp] theorem Ucoord.mirror_x (c : Ucoord) : c.mirror.x = c.y := rfl
@[simp] theorem Ucoord.mirror_y (c : Ucoord) : c.mirror.y = c.x := rfl

theorem Ucoord.mirror_injective : Function.Injective Ucoord.mirror :=
  Function.LeftInverse.injective mirror_mirror

@[simp] theorem Ucoord.mirror_inj {c e : Ucoord} : c.mirror = e.mirror ↔ c = e :=
  mirror_injective.eq_iff

/-- The values that the mirrored layout gets. -/
def Assignment.mirror (v : Assignment) : Assignment where
  tn t := v.tn t.mirror
  te t := v.te t.mirror
  tc t u := v.tc t.mirror u.mirror
  tp t u := v.tp t.mirror u.mirror
  ncl := v.ncl
  tcl t := v.tcl t.mirror
  tse t := v.tse t.mirror

namespace Exact

variable {S : SpecificationNetwork} {p : ExactParams} {ar : AspectRatio} {v : Assignment}
  {t u : Tile}

theorem mirror_mem_allTiles (ht : t ∈ allTiles ar.rotate) : t.mirror ∈ allTiles ar := by
  obtain ⟨heq, hx, hy⟩ := mem_allTiles.mp ht
  exact mem_allTiles.mpr ⟨by rw [heq]; rfl, hy, hx⟩

theorem allTiles_nodup : (allTiles ar).Nodup :=
  @CoordinateLayout.foreachGroundTile_nodup ⟨.at3 ar.x ar.y 0, .cartesian⟩

theorem allTiles_rotate_perm : (allTiles ar.rotate).Perm ((allTiles ar).map Ucoord.mirror) := by
  refine (List.perm_ext_iff_of_nodup allTiles_nodup
    (allTiles_nodup.map Ucoord.mirror_injective)).mpr fun t => ?_
  constructor
  · intro ht
    exact List.mem_map.mpr ⟨t.mirror, mirror_mem_allTiles ht, rfl⟩
  · intro ht
    obtain ⟨u, hu, rfl⟩ := List.mem_map.mp ht
    exact @mirror_mem_allTiles ar.rotate u hu

theorem map_allTiles_rotate_perm {β : Type*} (f : Tile → β) :
    ((allTiles ar.rotate).map fun t => f t.mirror).Perm ((allTiles ar).map f) := by
  have hperm := (@allTiles_rotate_perm ar).map fun t => f t.mirror
  rwa [List.map_map] at hperm

section Directions

variable (t : Tile)

theorem east_rotate : (p.layout ar.rotate).east t = ((p.layout ar).south t.mirror).mirror := by
  unfold CoordinateLayout.east CoordinateLayout.south
  simp only [apply_ite Ucoord.mirror]
  rfl

theorem south_rotate : (p.layout ar.rotate).south t = ((p.layout ar).east t.mirror).mirror := by
  unfold CoordinateLayout.east CoordinateLayout.south
  simp only [apply_ite Ucoord.mirror]
  rfl

theorem north_eq_mirror :
    CoordinateLayout.north t = (CoordinateLayout.west t.mirror).mirror := by
  unfold CoordinateLayout.north CoordinateLayout.west
  simp only [apply_ite Ucoord.mirror]
  rfl

theorem west_eq_mirror :
    CoordinateLayout.west t = (CoordinateLayout.north t.mirror).mirror := by
  unfold CoordinateLayout.north CoordinateLayout.west
  simp only [apply_ite Ucoord.mirror]
  rfl

end Directions

theorem mirror_eq_iff {c : Tile} : c.mirror = t ↔ c = t.mirror :=
  ⟨fun h => by rw [← h]; rfl, fun h => by rw [h]; rfl⟩

section Cartesian

variable (ha : p.arrangement = .cartesian)
include ha

/-- The neighbours of a mirrored tile are mirrored, in the opposite order. -/
theorem adjacentCoordinates_rotate (t : Tile) : (p.layout ar.rotate).adjacentCoordinates t =
    (((p.layout ar).adjacentCoordinates t.mirror).map Ucoord.mirror).reverse := by
  rw [CoordinateLayout.adjacentCoordinates_cartesian ha,
    CoordinateLayout.adjacentCoordinates_cartesian ha, ← List.map_reverse, ← List.filter_reverse,
    east_rotate t, south_rotate t, north_eq_mirror t, west_eq_mirror t]
  change List.filter _ (List.map Ucoord.mirror [_, _, _, _]) = _
  rw [List.filter_map]
  refine congrArg (List.map Ucoord.mirror) (List.filter_congr fun c _ => ?_)
  exact decide_eq_decide.mpr (not_congr mirror_eq_iff)

omit ha in
theorem mem_adjacentOppositeCoordinates_cartesian {lyt : CoordinateLayout} {c : Tile × Tile}
    (ha : lyt.arrangement = .cartesian) : c ∈ lyt.adjacentOppositeCoordinates t ↔
      (c = (CoordinateLayout.north t, lyt.south t) ∨ c = (lyt.east t, CoordinateLayout.west t)) ∧
        c.1 ≠ t ∧ c.2 ≠ t := by
  simp only [CoordinateLayout.adjacentOppositeCoordinates, ha, List.mem_filter, List.mem_cons,
    List.not_mem_nil, or_false, decide_eq_true_eq]

/-- The pairs of opposite neighbours are mirrored and turned around. -/
theorem mem_adjacentOppositeCoordinates_rotate {c : Tile × Tile}
    (hc : c ∈ (p.layout ar).adjacentOppositeCoordinates t.mirror) :
    (c.2.mirror, c.1.mirror) ∈ (p.layout ar.rotate).adjacentOppositeCoordinates t := by
  obtain ⟨hpair, hne₁, hne₂⟩ := (mem_adjacentOppositeCoordinates_cartesian ha).mp hc
  refine (mem_adjacentOppositeCoordinates_cartesian ha).mpr
    ⟨?_, fun h => hne₂ (mirror_eq_iff.mp h), fun h => hne₁ (mirror_eq_iff.mp h)⟩
  rw [east_rotate t, south_rotate t, north_eq_mirror t, west_eq_mirror t]
  rcases hpair with rfl | rfl
  · exact .inr rfl
  · exact .inl rfl

end Cartesian

section Irregular

variable (ha : p.arrangement = .cartesian) (hr : p.isRegularlyClocked = false)
include ha hr

theorem fanoutTiles_rotate (t : Tile) : fanoutTiles p (freshCheckPoint ar.rotate) t =
    ((fanoutTiles p (freshCheckPoint ar) t.mirror).map Ucoord.mirror).reverse := by
  rw [fanoutTiles, fanoutTiles, if_neg (Bool.eq_false_iff.mp hr), if_neg (Bool.eq_false_iff.mp hr)]
  exact adjacentCoordinates_rotate ha t

theorem faninTiles_rotate (t : Tile) : faninTiles p (freshCheckPoint ar.rotate) t =
    ((faninTiles p (freshCheckPoint ar) t.mirror).map Ucoord.mirror).reverse := by
  rw [faninTiles, faninTiles, if_neg (Bool.eq_false_iff.mp hr), if_neg (Bool.eq_false_iff.mp hr)]
  exact adjacentCoordinates_rotate ha t

theorem acc_rotate (t : Tile) : acc p (freshCheckPoint ar.rotate) v.mirror t =
    (acc p (freshCheckPoint ar) v t.mirror).reverse := by
  rw [acc, acc, fanoutTiles_rotate ha hr, List.map_reverse, List.map_map]
  rfl

theorem iacc_rotate (t : Tile) : iacc p (freshCheckPoint ar.rotate) v.mirror t =
    (iacc p (freshCheckPoint ar) v t.mirror).reverse := by
  rw [iacc, iacc, faninTiles_rotate ha hr, List.map_reverse, List.map_map]
  rfl

omit ha hr in
theorem someOf_mirror {ts : List Tile} {P P' : Tile → Prop} (hP : ∀ u, P u → P' u.mirror)
    (h : someOf ts P) : someOf (ts.map Ucoord.mirror).reverse P' := fun hne => by
  have hts : ts ≠ [] := by
    rintro rfl
    exact hne rfl
  obtain ⟨u, hu, hPu⟩ := h hts
  exact ⟨u.mirror, List.mem_reverse.mpr (List.mem_map_of_mem hu), hP u hPu⟩

omit ha hr in
theorem mirror_mem_addedAndUpdatedTiles
    (ht : t ∈ addedAndUpdatedTiles (freshCheckPoint ar.rotate)) :
    t.mirror ∈ addedAndUpdatedTiles (freshCheckPoint ar) := by
  rw [addedAndUpdatedTiles_fresh] at ht ⊢
  exact mirror_mem_allTiles ht

theorem defineGateFanoutTiles_rotate
    (h : defineGateFanoutTiles S p (freshCheckPoint ar) v true true) :
    defineGateFanoutTiles S p (freshCheckPoint ar.rotate) v.mirror true true :=
  fun t ht n hn _ _ hv ae hae hk => by
    have hfresh := of_mkAsIfSe_true (h _ (mirror_mem_addedAndUpdatedTiles ht) n hn) hv ae hae hk
    rw [fanoutTiles_rotate ha hr]
    exact someOf_mirror (fun _ => id) hfresh

theorem defineGateFaninTiles_rotate
    (h : defineGateFaninTiles S p (freshCheckPoint ar) v true true) :
    defineGateFaninTiles S p (freshCheckPoint ar.rotate) v.mirror true true :=
  fun t ht n hn _ _ hv ae hae hk => by
    have hfresh := of_mkAsIfSe_true (h _ (mirror_mem_addedAndUpdatedTiles ht) n hn) hv ae hae hk
    rw [faninTiles_rotate ha hr]
    exact someOf_mirror (fun _ => id) hfresh

theorem defineWireFanoutTiles_rotate
    (h : defineWireFanoutTiles S p (freshCheckPoint ar) v true true) :
    defineWireFanoutTiles S p (freshCheckPoint ar.rotate) v.mirror true true :=
  fun t ht ed hed _ _ hv => by
    have hfresh := of_mkAsIfSe_true (h _ (mirror_mem_addedAndUpdatedTiles ht) ed hed) hv
    rw [fanoutTiles_rotate ha hr]
    exact someOf_mirror (fun _ => id) hfresh

theorem defineWireFaninTiles_rotate
    (h : defineWireFaninTiles S p (freshCheckPoint ar) v true true) :
    defineWireFaninTiles S p (freshCheckPoint ar.rotate) v.mirror true true :=
  fun t ht ed hed _ _ hv => by
    have hfresh := of_mkAsIfSe_true (h _ (mirror_mem_addedAndUpdatedTiles ht) ed hed) hv
    rw [faninTiles_rotate ha hr]
    exact someOf_mirror (fun _ => id) hfresh

theorem establishSubPaths_rotate (h : establishSubPaths p (freshCheckPoint ar) v) :
    establishSubPaths p (freshCheckPoint ar.rotate) v.mirror := fun t ht u hu _ hv => by
  rw [fanoutTiles_rotate ha hr, List.mem_reverse] at hu
  obtain ⟨w, hw, rfl⟩ := List.mem_map.mp hu
  have ht' := mirror_mem_allTiles ht
  exact h _ ht' w hw (.inl ht') hv

omit ha in
theorem assignClocking_rotate {n : ℕ} (h : assignClocking p (freshCheckPoint ar) v n) :
    assignClocking p (freshCheckPoint ar.rotate) v.mirror n := fun t ht => by
  have hfresh := h _ (mirror_mem_allTiles ht)
  rw [if_neg (Bool.eq_false_iff.mp hr)] at hfresh ⊢
  exact hfresh

omit ha in
theorem assignPiClockings_rotate (h : assignPiClockings S p (freshCheckPoint ar) v) :
    assignPiClockings S p (freshCheckPoint ar.rotate) v.mirror := fun hb => by
  refine ⟨(h hb).1, ?_⟩
  have h₂ := (h hb).2
  split_ifs at h₂ ⊢
  · exact fun pi hpi => assignClocking_rotate hr (h₂ pi hpi)
  · exact fun pi hpi fn hfn hk => assignClocking_rotate hr (h₂ pi hpi fn hfn hk)

omit ha hr in
theorem tileIteCounters_rotate (ed : Edge) :
    tileIteCounters p (freshCheckPoint ar.rotate) v.mirror ed =
      tileIteCounters p (freshCheckPoint ar) v ed :=
  (map_allTiles_rotate_perm fun t =>
    if v.te t ed then
      if p.hasSynchronizationElements && p.synchronizationElements && !p.desynchronize then
        v.tse t * (layout p (freshCheckPoint ar)).numClocks + 1
      else 1
    else 0).sum_eq

omit ha hr in
theorem pathLength_rotate (longest : ℕ) (path : List Edge) :
    pathLength S p (freshCheckPoint ar.rotate) v.mirror longest path =
      pathLength S p (freshCheckPoint ar) v longest path := by
  have hedge : edgeLength S p (freshCheckPoint ar.rotate) v.mirror =
      edgeLength S p (freshCheckPoint ar) v := funext fun ed => by
    rw [edgeLength, edgeLength, tileIteCounters_rotate]
    rfl
  rw [pathLength, pathLength, hedge]

omit ha hr in
theorem defineLength_rotate {n : ℕ}
    (h : defineLength S p (freshCheckPoint ar) v true true n) :
    defineLength S p (freshCheckPoint ar.rotate) v.mirror true true n := fun he => by
  have hfresh := h he
  rwa [← funext (@pathLength_rotate S p ar v _)] at hfresh

omit ha hr in
theorem assignBorder_rotate {n : ℕ} (h : assignBorder p (freshCheckPoint ar) v n) :
    assignBorder p (freshCheckPoint ar.rotate) v.mirror n := fun t ht hb => by
  refine h _ (mirror_mem_addedAndUpdatedTiles ht) ?_
  have hb' : ¬ (t.y = 0 ∨ t.x = ar.y ∨ t.y = ar.x ∨ t.x = 0) := of_decide_eq_false hb
  exact decide_eq_false (show ¬ (t.x = 0 ∨ t.y = ar.x ∨ t.x = ar.y ∨ t.y = 0) by omega)

theorem enforceStraightInverters_rotate
    (h : enforceStraightInverters S p (freshCheckPoint ar) v true true) :
    enforceStraightInverters S p (freshCheckPoint ar.rotate) v.mirror true true :=
  fun t ht inv hinv hi hk _ _ hv => by
    obtain ⟨c, hc, hstraight⟩ := of_mkAsIfSe_true
      (h _ (mirror_mem_addedAndUpdatedTiles ht) inv hinv hi hk) hv
    have hs : ∀ a b : Tile, straight p (freshCheckPoint ar) v t.mirror a b →
        straight p (freshCheckPoint ar.rotate) v.mirror t a.mirror b.mirror :=
      fun a b hab => ⟨.inr hr, hab.2⟩
    exact ⟨_, mem_adjacentOppositeCoordinates_rotate ha hc,
      (hstraight.imp (hs _ _) (hs _ _)).symm⟩

theorem insufficient_rotate (n : ℕ) : insufficient S p (freshCheckPoint ar.rotate) t n ↔
    insufficient S p (freshCheckPoint ar) t.mirror n := by
  have hlen : ((layout p (freshCheckPoint ar.rotate)).adjacentCoordinates t).length =
      ((layout p (freshCheckPoint ar)).adjacentCoordinates t.mirror).length := by
    rw [show (layout p (freshCheckPoint ar.rotate)).adjacentCoordinates t = _ from
      adjacentCoordinates_rotate ha t, List.length_reverse, List.length_map]
    rfl
  rw [insufficient, insufficient, if_neg (Bool.eq_false_iff.mp hr),
    if_neg (Bool.eq_false_iff.mp hr), hlen]

/-- The borders to the east and to the south are swapped. -/
theorem preventInsufficiencies_rotate (sink : Sink)
    (h : preventInsufficiencies S p (freshCheckPoint ar) v sink) :
    preventInsufficiencies S p (freshCheckPoint ar.rotate) v.mirror sink :=
  fun t ht hb hsink => by
    have hborder : ((layout p (freshCheckPoint ar)).isAtEasternBorder t.mirror ||
        (layout p (freshCheckPoint ar)).isAtSouthernBorder t.mirror) =
          ((layout p (freshCheckPoint ar.rotate)).isAtEasternBorder t ||
            (layout p (freshCheckPoint ar.rotate)).isAtSouthernBorder t) := Bool.or_comm _ _
    have hfresh := h t.mirror (mirror_mem_allTiles ht) (by rw [hborder]; exact hb)
      (by rw [hborder]; exact hsink)
    exact ⟨fun n hn hi => hfresh.1 n hn ((insufficient_rotate ha hr n).mp hi),
      fun hp => absurd hp (Bool.eq_false_iff.mp hr)⟩

theorem exactly_acc_rotate {k : ℕ} (h : exactly (acc p (freshCheckPoint ar) v t.mirror) k) :
    exactly (acc p (freshCheckPoint ar.rotate) v.mirror t) k := by
  rw [acc_rotate ha hr]
  rwa [exactly, atleast, atmost, List.count_reverse]

theorem exactly_iacc_rotate {k : ℕ} (h : exactly (iacc p (freshCheckPoint ar) v t.mirror) k) :
    exactly (iacc p (freshCheckPoint ar.rotate) v.mirror t) k := by
  rw [iacc_rotate ha hr]
  rwa [exactly, atleast, atmost, List.count_reverse]

theorem acc_rotate_eq_nil : acc p (freshCheckPoint ar.rotate) v.mirror t = [] ↔
    acc p (freshCheckPoint ar) v t.mirror = [] := by
  rw [acc_rotate ha hr, List.reverse_eq_nil_iff]

theorem iacc_rotate_eq_nil : iacc p (freshCheckPoint ar.rotate) v.mirror t = [] ↔
    iacc p (freshCheckPoint ar) v t.mirror = [] := by
  rw [iacc_rotate ha hr, List.reverse_eq_nil_iff]

theorem nodeConnections_rotate
    (h : nodeConnections S p (freshCheckPoint ar) v true true t.mirror) :
    nodeConnections S p (freshCheckPoint ar.rotate) v.mirror true true t := fun n hn => by
  obtain ⟨hout, hin⟩ := h n hn
  exact ⟨fun hne _ _ hv => exactly_acc_rotate ha hr (of_mkAsIfSe_true
      (hout fun hnil => hne ((acc_rotate_eq_nil ha hr).mpr hnil)) hv),
    fun hne _ _ hv => exactly_iacc_rotate ha hr (of_mkAsIfSe_true
      (hin fun hnil => hne ((iacc_rotate_eq_nil ha hr).mpr hnil)) hv)⟩

theorem crossingConnections_rotate
    (h : crossingConnections S p (freshCheckPoint ar) v true true t.mirror) :
    crossingConnections S p (freshCheckPoint ar.rotate) v.mirror true true t := by
  have hlen : (acc p (freshCheckPoint ar.rotate) v.mirror t).length =
      (acc p (freshCheckPoint ar) v t.mirror).length ∧
        (iacc p (freshCheckPoint ar.rotate) v.mirror t).length =
          (iacc p (freshCheckPoint ar) v t.mirror).length := by
    rw [acc_rotate ha hr, iacc_rotate ha hr, List.length_reverse, List.length_reverse]
    exact ⟨rfl, rfl⟩
  unfold crossingConnections at h ⊢
  rw [hlen.1, hlen.2]
  split_ifs at h ⊢
  · exact fun _ _ => of_mkAsIfSe_true h
  · exact fun htes =>
      ⟨fun _ _ hk => exactly_acc_rotate ha hr (of_mkAsIfSe_true (h htes).1 hk),
        fun _ _ hk => exactly_iacc_rotate ha hr (of_mkAsIfSe_true (h htes).2 hk)⟩

theorem edgeConnections_rotate
    (h : edgeConnections S p (freshCheckPoint ar) v true true t.mirror) :
    edgeConnections S p (freshCheckPoint ar.rotate) v.mirror true true t := fun htes => by
  obtain ⟨hout, hin, hx⟩ := h htes
  refine ⟨fun hne _ _ hk => ?_, fun hne _ _ hk => ?_,
    fun hp => crossingConnections_rotate ha hr (hx hp)⟩
  · exact exactly_acc_rotate ha hr (of_mkAsIfSe_true
      (hout fun hnil => hne ((acc_rotate_eq_nil ha hr).mpr hnil)) hk)
  · exact exactly_iacc_rotate ha hr (of_mkAsIfSe_true
      (hin fun hnil => hne ((iacc_rotate_eq_nil ha hr).mpr hnil)) hk)

theorem emptyConnections_rotate
    (h : emptyConnections S p (freshCheckPoint ar) v true true t.mirror) :
    emptyConnections S p (freshCheckPoint ar.rotate) v.mirror true true t :=
  fun hlen hne _ _ => by
    have hcount : ((acc p (freshCheckPoint ar.rotate) v.mirror t ++
        iacc p (freshCheckPoint ar.rotate) v.mirror t).count true) =
          (acc p (freshCheckPoint ar) v t.mirror ++
            iacc p (freshCheckPoint ar) v t.mirror).count true := by
      rw [acc_rotate ha hr, iacc_rotate ha hr, List.count_append, List.count_append,
        List.count_reverse, List.count_reverse]
    have hfresh := of_mkAsIfSe_true (h hlen fun hnil => hne (by
      rw [List.append_eq_nil_iff] at hnil ⊢
      exact ⟨(acc_rotate_eq_nil ha hr).mpr hnil.1, (iacc_rotate_eq_nil ha hr).mpr hnil.2⟩))
    rw [atmost, atmost, hcount]
    exact hfresh

theorem defineNumberOfConnections_rotate
    (h : defineNumberOfConnections S p (freshCheckPoint ar) v true true) :
    defineNumberOfConnections S p (freshCheckPoint ar.rotate) v.mirror true true := by
  refine ⟨fun t ht => ?_, fun hp t ht => h.2 hp _ (mirror_mem_allTiles ht)⟩
  obtain ⟨h₁, h₂, h₃⟩ := h.1 _ (mirror_mem_addedAndUpdatedTiles ht)
  exact ⟨nodeConnections_rotate ha hr h₁, edgeConnections_rotate ha hr h₂,
    emptyConnections_rotate ha hr h₃⟩

end Irregular

theorem isClockingScheme_eq_false (hl : p.scheme.isLinearScheme = false) (name : ClockName)
    (hn : name ∈ [ClockName.columnar, .row, .twoddwave, .twoddwaveHex]) :
    p.isClockingScheme name = false := by
  refine decide_eq_false ?_
  rintro rfl
  exact of_decide_eq_false hl hn

section Instance

variable (ha : p.arrangement = .cartesian) (hr : p.isRegularlyClocked = false)
  (hl : p.scheme.isLinearScheme = false)
include hl

theorem globalSynchronization_rotate
    (h : globalSynchronization S p (freshCheckPoint ar) v true true) :
    globalSynchronization S p (freshCheckPoint ar.rotate) v.mirror true true := by
  have h₁ := isClockingScheme_eq_false hl .twoddwave (by decide)
  have h₂ := isClockingScheme_eq_false hl .twoddwaveHex (by decide)
  have h₃ := isClockingScheme_eq_false hl .columnar (by decide)
  have h₄ := isClockingScheme_eq_false hl .row (by decide)
  simp only [globalSynchronization, h₁, h₂, h₃, h₄, Bool.or_self, Bool.and_false,
    Bool.false_eq_true, if_false] at h ⊢
  split_ifs at h ⊢
  · exact fun po hpo => defineLength_rotate (h po hpo)
  · exact fun po hpo fi hfi => defineLength_rotate (h po hpo fi hfi)

theorem assignIoBorder_rotate {n : ℕ} :
    (assignInputBorder p (freshCheckPoint ar) v n →
      assignInputBorder p (freshCheckPoint ar.rotate) v.mirror n) ∧
    (assignOutputBorder p (freshCheckPoint ar) v n →
      assignOutputBorder p (freshCheckPoint ar.rotate) v.mirror n) := by
  have h₃ := isClockingScheme_eq_false hl .columnar (by decide)
  have h₄ := isClockingScheme_eq_false hl .row (by decide)
  simp only [assignInputBorder, assignOutputBorder, h₃, h₄, Bool.false_eq_true, if_false]
  exact ⟨assignBorder_rotate, assignBorder_rotate⟩

theorem enforceBorderIo_rotate (h : enforceBorderIo S p (freshCheckPoint ar) v) :
    enforceBorderIo S p (freshCheckPoint ar.rotate) v.mirror := by
  unfold enforceBorderIo at h ⊢
  split_ifs at h ⊢
  · exact ⟨fun pi hpi => (assignIoBorder_rotate hl).1 (h.1 pi hpi),
      fun po hpo => (assignIoBorder_rotate hl).2 (h.2 po hpo)⟩
  · exact ⟨fun pi hpi fon hfon hk => (assignIoBorder_rotate hl).1 (h.1 pi hpi fon hfon hk),
      fun po hpo fin hfin hk => (assignIoBorder_rotate hl).2 (h.2 po hpo fin hfin hk)⟩

theorem utilizeHierarchicalInformation_of_not_linear (cp : CheckPoint) (sink : Sink) :
    utilizeHierarchicalInformation S p cp v sink := by
  have h₁ := isClockingScheme_eq_false hl .twoddwave (by decide)
  have h₃ := isClockingScheme_eq_false hl .columnar (by decide)
  have h₄ := isClockingScheme_eq_false hl .row (by decide)
  simp only [utilizeHierarchicalInformation, h₁, h₃, h₄, Bool.false_eq_true, false_implies,
    and_self]

include ha hr

/-- The mirrored model belongs to the rotated aspect ratio. -/
theorem FreshModel.rotate (htech : p.technologySpecifics ≠ .topolinano)
    (h : FreshModel S p ar v) : FreshModel S p ar.rotate v.mirror where
  generated := {
    restrictTileElements := fun t ht => h.generated.restrictTileElements _ (mirror_mem_allTiles ht)
    restrictVertices := fun n hn => by
      have hcount := (@map_allTiles_rotate_perm ar _ fun t => v.tn t n).count_eq true
      obtain ⟨hleast, hmost⟩ := h.generated.restrictVertices n hn
      exact ⟨fun he => le_trans (hleast he) hcount.ge, le_trans hcount.le hmost⟩
    defineGateFanoutTiles := defineGateFanoutTiles_rotate ha hr h.generated.defineGateFanoutTiles
    defineGateFaninTiles := defineGateFaninTiles_rotate ha hr h.generated.defineGateFaninTiles
    defineWireFanoutTiles := defineWireFanoutTiles_rotate ha hr h.generated.defineWireFanoutTiles
    defineWireFaninTiles := defineWireFaninTiles_rotate ha hr h.generated.defineWireFaninTiles
    assignPiClockings := fun hd => assignPiClockings_rotate hr (h.generated.assignPiClockings hd)
    globalSynchronization := fun hd =>
      globalSynchronization_rotate hl (h.generated.globalSynchronization hd)
    restrictClocks := fun hp t ht => h.generated.restrictClocks hp _ (mirror_mem_allTiles ht)
    establishSubPaths := fun hn => establishSubPaths_rotate ha hr (h.generated.establishSubPaths hn)
    establishTransitivePaths := fun hn t₁ h₁ t₂ h₂ hne t₃ h₃ hne' _ =>
      h.generated.establishTransitivePaths hn _ (mirror_mem_allTiles h₁) _ (mirror_mem_allTiles h₂)
        (Ucoord.mirror_injective.ne hne) _ (mirror_mem_allTiles h₃)
        (Ucoord.mirror_injective.ne hne') (.inl (mirror_mem_allTiles h₁))
    eliminateCycles := fun hn t ht => h.generated.eliminateCycles hn _ (mirror_mem_allTiles ht)
    enforceBorderIo := fun hb => enforceBorderIo_rotate hl (h.generated.enforceBorderIo hb)
    enforceStraightInverters := fun hs =>
      enforceStraightInverters_rotate ha hr (h.generated.enforceStraightInverters hs)
    restrictSynchronizationElements := fun hs hd hp t ht =>
      h.generated.restrictSynchronizationElements hs hd hp _ (mirror_mem_allTiles ht)
    technologySpecificConstraints := fun ht => absurd ht htech
    preventInsufficiencies :=
      preventInsufficiencies_rotate ha hr .solver h.generated.preventInsufficiencies
    defineNumberOfConnections :=
      defineNumberOfConnections_rotate ha hr h.generated.defineNumberOfConnections
    utilizeHierarchicalInformation := utilizeHierarchicalInformation_of_not_linear hl _ _ }
  assumed := {
    technologySpecificConstraints := fun ht => absurd ht htech
    preventInsufficiencies :=
      preventInsufficiencies_rotate ha hr .assumptions h.assumed.preventInsufficiencies
    utilizeHierarchicalInformation := utilizeHierarchicalInformation_of_not_linear hl _ _ }

end Instance

end Exact
end Fiction
