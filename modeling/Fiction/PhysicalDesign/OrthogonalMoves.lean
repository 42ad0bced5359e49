import Fiction.PhysicalDesign.OrthogonalGates

/-!
# Moves of the orthogonal placement

The state of the placement depicts a plan if its canvas shows the drawing of the plan and its next
free tile is behind the columns and the rows in use. Placing a node makes the move of the plan that
belongs to its colour.
-/

namespace Fiction.Orthogonal

open GridDrawing GateLevelLayout TechnologyNetwork

structure Depicts (D : ClockedLayout) (p : Plan) (st : PlacementState) : Prop where
  shown : Shows D p.drawing st.canvas
  tidy : p.Tidy D.x
  latestPos : st.latestPos = .at2 p.columns p.rows

/-- A vertex with both ports free, in the last column or in the last row. -/
structure Fronts (p : Plan) (x y : ℕ) : Prop where
  eastPort : p.eastPort y = some x
  southPort : p.southPort x = some y
  behind : ∀ i, x < i → p.drawing i y = .blank

/-- The gate `n` is placed on `(x, y)`, where it computes `f` from the values on `ss`. -/
structure GatePlaced (D : ClockedLayout) (p' : Plan) (st : PlacementState) (n x y : ℕ)
    (f : TruthTable) (ss : List Tile) (st' : PlacementState) : Prop where
  depicts : Depicts D p' st'
  fronts : Fronts p' x y
  fresh : .at2 x y ∉ st.canvas.used
  places : Places D p'.drawing st.canvas (.at2 x y) f ss st'.canvas
  node2pos : st'.node2pos = Function.update st.node2pos n (.at2 x y)
  poCounter : st'.poCounter = st.poCounter

section Moves

variable {D : ClockedLayout} {p : Plan} {x y c r c₁ c₂ y₁ y₂ x₁ x₂ r₁ r₂ : ℕ}

theorem fronts_reachEast (h : p.Tidy D.x) (hy : p.eastPort y = some c) :
    Fronts (p.reachEast y c) p.columns y where
  eastPort := Function.update_self ..
  southPort := Function.update_self ..
  behind i hi := by
    change ((p.drawing.drawEast y c p.columns).put p.columns y) i y = _
    rw [Drawing.put_of_ne (by omega), Drawing.drawEast_of_ne (by omega)]
    exact h.blank_of_eastPort hy hi.le

theorem fronts_reachSouth (h : p.Tidy D.x) :
    Fronts (p.reachSouth x r) x p.rows where
  eastPort := Function.update_self ..
  southPort := Function.update_self ..
  behind i hi := by
    change ((p.drawing.drawSouth x r p.rows).put x p.rows) i p.rows = _
    rw [Drawing.put_of_ne (by omega), Drawing.drawSouth_of_ne (by omega)]
    exact h.rows_blank i p.rows le_rfl

/-- Two edges leave the ports of two rows for the next column. The upper one is bent there. -/
def joinEast (p : Plan) (y₁ c₁ y₂ c₂ : ℕ) : Plan :=
  (p.reachEast y₁ c₁).meet p.columns y₁ y₂ c₂

/-- Two edges leave the ports of two columns for the next row. The left one is bent there. -/
def joinSouth (p : Plan) (x₁ r₁ x₂ r₂ : ℕ) : Plan :=
  (p.reachSouth x₂ r₂).meet x₁ r₁ p.rows x₂

theorem tidy_joinEast (h : p.Tidy D.x) (h₁ : p.eastPort y₁ = some c₁)
    (h₂ : p.eastPort y₂ = some c₂) (hlt : y₁ < y₂) (hb : p.columns < D.x) :
    (joinEast p y₁ c₁ y₂ c₂).Tidy D.x := by
  have h₂' : (p.reachEast y₁ c₁).eastPort y₂ = some c₂ :=
    (Function.update_of_ne hlt.ne' ..).trans h₂
  exact (h.reachEast h₁ hb).meet (Function.update_self ..) h₂' hlt (h.east y₂ c₂ h₂).1

theorem tidy_joinSouth (h : p.Tidy D.x) (h₁ : p.southPort x₁ = some r₁)
    (h₂ : p.southPort x₂ = some r₂) (hlt : x₂ < x₁) : (joinSouth p x₁ r₁ x₂ r₂).Tidy D.x := by
  have h₁' : (p.reachSouth x₂ r₂).southPort x₁ = some r₁ :=
    (Function.update_of_ne hlt.ne' ..).trans h₁
  exact (h.reachSouth h₂).meet h₁' (Function.update_self ..) (h.south x₁ r₁ h₁).2.1 hlt

theorem fronts_joinEast (h : p.Tidy D.x) (h₂ : p.eastPort y₂ = some c₂) (hlt : y₁ < y₂) :
    Fronts (joinEast p y₁ c₁ y₂ c₂) p.columns y₂ where
  eastPort := Function.update_self ..
  southPort := Function.update_self ..
  behind i hi := by
    change (((((p.drawing.drawEast y₁ c₁ p.columns).put p.columns y₁).drawSouth p.columns y₁
      y₂).drawEast y₂ c₂ p.columns).put p.columns y₂) i y₂ = _
    rw [Drawing.put_of_ne (by omega), Drawing.drawEast_of_ne (by omega),
      Drawing.drawSouth_of_ne (by omega), Drawing.put_of_ne (by omega),
      Drawing.drawEast_of_ne (by omega)]
    exact h.blank_of_eastPort h₂ hi.le

theorem fronts_joinSouth (h : p.Tidy D.x) (hlt : x₂ < x₁) :
    Fronts (joinSouth p x₁ r₁ x₂ r₂) x₁ p.rows where
  eastPort := Function.update_self ..
  southPort := Function.update_self ..
  behind i hi := by
    change (((((p.drawing.drawSouth x₂ r₂ p.rows).put x₂ p.rows).drawSouth x₁ r₁ p.rows).drawEast
      p.rows x₂ x₁).put x₁ p.rows) i p.rows = _
    rw [Drawing.put_of_ne (by omega), Drawing.drawEast_of_ne (by omega),
      Drawing.drawSouth_of_ne (by omega), Drawing.put_of_ne (by omega),
      Drawing.drawSouth_of_ne (by omega)]
    exact h.rows_blank i p.rows le_rfl

end Moves

section Gates

variable {D : ClockedLayout} {p : Plan} {st : PlacementState} {ntk : TechnologyNetwork}
  {ctn : ColoringContainer} {n m m₁ m₂ x y c r c₁ c₂ y₁ y₂ x₁ x₂ r₁ r₂ : ℕ}

theorem Shows.fresh {d : Drawing} {cv : Canvas} (h : Shows D d cv) (hblank : d x y = .blank) :
    .at2 x y ∉ cv.used := by
  intro hmem
  obtain ⟨-, ⟨-, hne⟩ | ⟨hz, -⟩⟩ := (h.mem_used _).mp hmem
  · exact hne hblank
  · exact absurd hz Nat.zero_ne_one

/-- The state after a gate has been placed. -/
theorem GatePlaced.of_places {p' : Plan} {f : TruthTable} {ss : List Tile} {cv : Canvas}
    (hdepicts : Depicts D p st) (hblank : p.drawing x y = .blank) (htidy : p'.Tidy D.x)
    (hfronts : Fronts p' x y) (h : Places D p'.drawing st.canvas (.at2 x y) f ss cv) :
    GatePlaced D p' st n x y f ss
      { st with
        canvas := cv
        node2pos := Function.update st.node2pos n (.at2 x y)
        latestPos := .at2 p'.columns p'.rows } :=
  ⟨⟨h.shown, htidy, rfl⟩, hfronts, hdepicts.shown.fresh hblank, h, rfl, rfl⟩

theorem Depicts.placeUnary_east (hz : D.z = 1) (h : Depicts D p st)
    (hm : st.node2pos m = .at2 c y) (hused : .at2 c y ∈ st.canvas.used)
    (hport : p.eastPort y = some c) (hb : p.columns < D.x) (hcolor : ctn.color n = some .east)
    (hn : ntk.isInv n = true ∨ ntk.isBuf n = true) :
    ∃ st', placeUnary ntk ctn st n m = some st' ∧
      GatePlaced D (p.reachEast y c) st n p.columns y (ntk.node n).function [.at2 c y] st' := by
  obtain ⟨hc, -, hrow⟩ := h.tidy.east y c hport
  obtain ⟨cv, hcv, hplaces⟩ := h.shown.connectEast hz hused hc hrow
    (h.tidy.blank_of_eastPort hport le_rfl) hn
  refine ⟨_, ?_, .of_places h (h.tidy.blank_of_eastPort hport le_rfl) (h.tidy.reachEast hport hb)
    (fronts_reachEast h.tidy hport) hplaces⟩
  simp only [placeUnary, hcolor, hm, h.latestPos]
  exact congrArg (Option.bind · _) hcv

theorem Depicts.placeUnary_south (hz : D.z = 1) (h : Depicts D p st)
    (hm : st.node2pos m = .at2 x r) (hused : .at2 x r ∈ st.canvas.used)
    (hport : p.southPort x = some r) (hcolor : ctn.color n = some .south)
    (hn : ntk.isInv n = true ∨ ntk.isBuf n = true) :
    ∃ st', placeUnary ntk ctn st n m = some st' ∧
      GatePlaced D (p.reachSouth x r) st n x p.rows (ntk.node n).function [.at2 x r] st' := by
  obtain ⟨-, hr, hcolumn⟩ := h.tidy.south x r hport
  obtain ⟨cv, hcv, hplaces⟩ := h.shown.connectSouth hz hused hr hcolumn
    (h.tidy.rows_blank x p.rows le_rfl) hn
  refine ⟨_, ?_, .of_places h (h.tidy.rows_blank x p.rows le_rfl) (h.tidy.reachSouth hport)
    (fronts_reachSouth h.tidy) hplaces⟩
  simp only [placeUnary, hcolor, hm, h.latestPos]
  exact congrArg (Option.bind · _) hcv

/-- The wire that is bent in the next column shows as a vertex there. -/
theorem Shows.bendEast {d : Drawing} {cv : Canvas} (hz : D.z = 1) (h : Shows D d cv)
    (hs : .at2 c y ∈ cv.used) (hlt : c < x) (hrow : d.RowFree y c) (hblank : d x y = .blank) :
    Leads D ((d.drawEast y c x).put x y) cv (.at2 c y)
        (cv.wireEast (.at2 c y) (.at2 (x + 1) y)) ∧
      (cv.wireEast (.at2 c y) (.at2 (x + 1) y)).2 = .at2 x y := by
  obtain ⟨hleads, -, -, hground⟩ := h.wireEast (.at2 (x + 1) y) hz hs
    (Nat.lt_succ_of_lt hlt) fun i hi _ => hrow i hi
  have hhere : d.drawEast y c (x + 1) x y = .horizontal := by
    rw [Drawing.drawEast, if_pos ⟨rfl, hlt, Nat.lt_succ_self x⟩, hblank]
    rfl
  have hput : (d.drawEast y c (x + 1)).put x y = (d.drawEast y c x).put x y := by
    funext i j
    simp only [Drawing.put, Drawing.drawEast]
    split_ifs <;> first | rfl | omega
  refine ⟨⟨?_, hleads.extension, hleads.mem, hleads.links, hleads.conducts⟩,
    hground (Nat.succ_lt_succ hlt) ?_⟩
  · rw [← hput]
    exact hleads.shown.coarsen (.inl hhere)
  · exact hblank

theorem Shows.bendSouth {d : Drawing} {cv : Canvas} (hz : D.z = 1) (h : Shows D d cv)
    (hs : .at2 x r ∈ cv.used) (hlt : r < y) (hcolumn : d.ColumnFree x r)
    (hblank : d x y = .blank) :
    Leads D ((d.drawSouth x r y).put x y) cv (.at2 x r)
        (cv.wireSouth (.at2 x r) (.at2 x (y + 1))) ∧
      (cv.wireSouth (.at2 x r) (.at2 x (y + 1))).2 = .at2 x y := by
  obtain ⟨hleads, -, -, hground⟩ := h.wireSouth (.at2 x (y + 1)) hz hs
    (Nat.lt_succ_of_lt hlt) fun j hj _ => hcolumn j hj
  have hhere : d.drawSouth x r (y + 1) x y = .vertical := by
    rw [Drawing.drawSouth, if_pos ⟨rfl, hlt, Nat.lt_succ_self y⟩, hblank]
    rfl
  have hput : (d.drawSouth x r (y + 1)).put x y = (d.drawSouth x r y).put x y := by
    funext i j
    simp only [Drawing.put, Drawing.drawSouth]
    split_ifs <;> first | rfl | omega
  refine ⟨⟨?_, hleads.extension, hleads.mem, hleads.links, hleads.conducts⟩,
    hground (Nat.succ_lt_succ hlt) ?_⟩
  · rw [← hput]
    exact hleads.shown.coarsen (.inr hhere)
  · exact hblank

theorem connectAndPlaceBinary_eq {cv : Canvas} {t : Tile} {eastFirst : Bool} {const : Option Bool}
    (hr : r < y) : cv.connectAndPlaceBinary ntk eastFirst t n (.at2 x r) (.at2 c y) const =
      cv.wireAndPlace ntk eastFirst t n (.at2 x r) (.at2 c y) const := by
  have hlt : ¬ (Ucoord.at2 c y).lt (.at2 x r) = true := by
    rw [Ucoord.lt_iff]
    simp only [Ucoord.at2]
    omega
  rw [Canvas.connectAndPlaceBinary, if_neg hlt]

theorem Leads.places_left {d d' : Drawing} {cv cv' : Canvas} {src b t : Tile}
    {res : Canvas × Signal} {f : TruthTable} (h : Leads D d cv src res)
    (h' : Places D d' res.1 t f [res.2, b] cv') (hb : b ∈ cv.used) :
    Places D d' cv t f [src, b] cv' where
  shown := h'.shown
  extension := h.extension.trans h'.extension
  mem := h'.mem
  links := h.links.trans_left h.extension h'.extension h'.links hb
  value val hval := by
    rw [h'.value val hval, List.map_cons, h.conducts val (h'.extension.steady h.shown hval)]
    rfl

theorem Leads.places_right {d d' : Drawing} {cv cv' : Canvas} {src a t : Tile}
    {res : Canvas × Signal} {f : TruthTable} (h : Leads D d cv src res)
    (h' : Places D d' res.1 t f [a, res.2] cv') (ha : a ∈ cv.used) :
    Places D d' cv t f [a, src] cv' where
  shown := h'.shown
  extension := h.extension.trans h'.extension
  mem := h'.mem
  links := h.links.trans_right h.extension h'.extension h'.links ha
  value val hval := by
    rw [h'.value val hval, List.map_cons, List.map_singleton, List.map_cons, List.map_singleton,
      h.conducts val (h'.extension.steady h.shown hval)]

variable {fc : FaninContainer}

theorem Depicts.placeBinaryGate_east (eastFirst : Bool) (hz : D.z = 1) (h : Depicts D p st)
    (hfc : fc.faninNodes = [m₁, m₂] ∨ fc.faninNodes = [m₂, m₁])
    (hm₁ : st.node2pos m₁ = .at2 c₁ y₁) (hused₁ : .at2 c₁ y₁ ∈ st.canvas.used)
    (hm₂ : st.node2pos m₂ = .at2 c₂ y₂) (hused₂ : .at2 c₂ y₂ ∈ st.canvas.used)
    (hport₁ : p.eastPort y₁ = some c₁) (hport₂ : p.eastPort y₂ = some c₂) (hlt : y₁ < y₂)
    (hb : p.columns < D.x) (hcolor : ctn.color n = some .east)
    (hmaj : ntk.isMaj n = fc.constantFanin.isSome) (hn : ntk.isFunction n = true)
    (hsymm : ∀ u v, (placedFunction ntk n fc.constantFanin).eval [u, v] =
      (placedFunction ntk n fc.constantFanin).eval [v, u]) :
    ∃ st', placeBinaryGate ntk ctn eastFirst st n fc = some st' ∧
      GatePlaced D (joinEast p y₁ c₁ y₂ c₂) st n p.columns y₂
        (placedFunction ntk n fc.constantFanin) [.at2 c₁ y₁, .at2 c₂ y₂] st' := by
  obtain ⟨hc₁, -, hrow₁⟩ := h.tidy.east y₁ c₁ hport₁
  obtain ⟨hc₂, -, -⟩ := h.tidy.east y₂ c₂ hport₂
  have hreach := h.tidy.reachEast hport₁ hb
  have hport₂' : (p.reachEast y₁ c₁).eastPort y₂ = some c₂ :=
    (Function.update_of_ne hlt.ne' ..).trans hport₂
  obtain ⟨hleads, hbend⟩ := h.shown.bendEast hz hused₁ hc₁ hrow₁
    (h.tidy.blank_of_eastPort hport₁ le_rfl)
  have hmem := hleads.mem
  rw [hbend] at hmem
  obtain ⟨cv, hcv, hplaces⟩ := hleads.shown.wireAndPlace hz hmem (hleads.extension.mem _ hused₂)
    hlt hc₂ (hreach.south p.columns y₁ (Function.update_self ..)).2.2
    (hreach.east y₂ c₂ hport₂').2.2 eastFirst hmaj hn hsymm
  rw [← connectAndPlaceBinary_eq hlt, ← hbend] at hcv
  rw [← hbend] at hplaces
  refine ⟨_, ?_, .of_places h (h.tidy.blank_of_eastPort hport₂ le_rfl)
    (tidy_joinEast h.tidy hport₁ hport₂ hlt hb) (fronts_joinEast h.tidy hport₂ hlt)
    (hleads.places_left hplaces hused₂)⟩
  -- the upper predecessor is bent, in whichever order the two are listed
  rcases hfc with hfc | hfc
  · have hswap : ¬ (Ucoord.at2 c₂ y₂).y < (Ucoord.at2 c₁ y₁).y := not_lt.mpr hlt.le
    simp only [placeBinaryGate, hfc, List.getElem?_cons_zero, List.getElem?_cons_succ,
      Option.bind_eq_bind, Option.bind_some, hm₁, hm₂, hcolor, h.latestPos, if_neg hswap]
    exact congrArg (Option.bind · _) hcv
  · have hswap : (Ucoord.at2 c₁ y₁).y < (Ucoord.at2 c₂ y₂).y := hlt
    simp only [placeBinaryGate, hfc, List.getElem?_cons_zero, List.getElem?_cons_succ,
      Option.bind_eq_bind, Option.bind_some, hm₁, hm₂, hcolor, h.latestPos, if_pos hswap]
    exact congrArg (Option.bind · _) hcv

theorem Depicts.placeBinaryGate_south (eastFirst : Bool) (hz : D.z = 1) (h : Depicts D p st)
    (hfc : fc.faninNodes = [m₁, m₂] ∨ fc.faninNodes = [m₂, m₁])
    (hm₁ : st.node2pos m₁ = .at2 x₁ r₁) (hused₁ : .at2 x₁ r₁ ∈ st.canvas.used)
    (hm₂ : st.node2pos m₂ = .at2 x₂ r₂) (hused₂ : .at2 x₂ r₂ ∈ st.canvas.used)
    (hport₁ : p.southPort x₁ = some r₁) (hport₂ : p.southPort x₂ = some r₂) (hlt : x₂ < x₁)
    (hcolor : ctn.color n = some .south) (hmaj : ntk.isMaj n = fc.constantFanin.isSome)
    (hn : ntk.isFunction n = true)
    (hsymm : ∀ u v, (placedFunction ntk n fc.constantFanin).eval [u, v] =
      (placedFunction ntk n fc.constantFanin).eval [v, u]) :
    ∃ st', placeBinaryGate ntk ctn eastFirst st n fc = some st' ∧
      GatePlaced D (joinSouth p x₁ r₁ x₂ r₂) st n x₁ p.rows
        (placedFunction ntk n fc.constantFanin) [.at2 x₁ r₁, .at2 x₂ r₂] st' := by
  obtain ⟨-, hr₁, -⟩ := h.tidy.south x₁ r₁ hport₁
  obtain ⟨-, hr₂, hcolumn₂⟩ := h.tidy.south x₂ r₂ hport₂
  have hreach := h.tidy.reachSouth hport₂
  have hport₁' : (p.reachSouth x₂ r₂).southPort x₁ = some r₁ :=
    (Function.update_of_ne hlt.ne' ..).trans hport₁
  obtain ⟨hleads, hbend⟩ := h.shown.bendSouth hz hused₂ hr₂ hcolumn₂
    (h.tidy.rows_blank x₂ p.rows le_rfl)
  have hmem := hleads.mem
  rw [hbend] at hmem
  obtain ⟨cv, hcv, hplaces⟩ := hleads.shown.wireAndPlace hz (hleads.extension.mem _ hused₁) hmem
    hr₁ hlt (hreach.south x₁ r₁ hport₁').2.2
    (hreach.east p.rows x₂ (Function.update_self ..)).2.2 eastFirst hmaj hn hsymm
  rw [← connectAndPlaceBinary_eq hr₁, ← hbend] at hcv
  rw [← hbend] at hplaces
  refine ⟨_, ?_, .of_places h (h.tidy.rows_blank x₁ p.rows le_rfl)
    (tidy_joinSouth h.tidy hport₁ hport₂ hlt) (fronts_joinSouth h.tidy hlt)
    (hleads.places_right hplaces hused₁)⟩
  rcases hfc with hfc | hfc
  · have hswap : ¬ (Ucoord.at2 x₂ r₂).x > (Ucoord.at2 x₁ r₁).x := not_lt.mpr hlt.le
    simp only [placeBinaryGate, hfc, List.getElem?_cons_zero, List.getElem?_cons_succ,
      Option.bind_eq_bind, Option.bind_some, hm₁, hm₂, hcolor, h.latestPos, if_neg hswap]
    exact congrArg (Option.bind · _) hcv
  · have hswap : (Ucoord.at2 x₁ r₁).x > (Ucoord.at2 x₂ r₂).x := hlt
    simp only [placeBinaryGate, hfc, List.getElem?_cons_zero, List.getElem?_cons_succ,
      Option.bind_eq_bind, Option.bind_some, hm₁, hm₂, hcolor, h.latestPos, if_pos hswap]
    exact congrArg (Option.bind · _) hcv

end Gates

/-- The node `k` of an input has not been put on a tile yet. -/
structure Reserved (cv : Canvas) (k : ℕ) : Prop where
  exists_node : 2 ≤ k ∧ k < cv.layout.size
  unplaced : ∀ t ∈ cv.used, cv.layout.getNode t ≠ k
  function : (cv.layout.node k).function = .identity
  children : (cv.layout.node k).children = []

/-- The node `k` of an input is on the tile `t`. -/
structure InputOn (cv : Canvas) (k : ℕ) (t : Tile) : Prop where
  mem : t ∈ cv.used
  element : cv.layout.element t = some ([], .identity)
  getNode : cv.layout.getNode t = k

section Inputs

variable {D : ClockedLayout} {d : Drawing} {p : Plan} {cv cv' : Canvas} {st : PlacementState}
  {ntk : TechnologyNetwork} {V : FanoutView ntk} {ctn : ColoringContainer} {moved : List ℕ}
  {pos : List Tile} {k n y : ℕ} {t : Tile}

theorem Reserved.extends (h : Reserved cv k) (hext : Extends moved pos cv cv') (hk : k ∉ moved) :
    Reserved cv' k where
  exists_node := ⟨h.exists_node.1, h.exists_node.2.trans_le hext.size⟩
  unplaced t ht := by
    by_cases hold : t ∈ cv.used
    · rw [hext.getNode t hold]
      exact h.unplaced t hold
    · rintro rfl
      rcases hext.new t ht hold with ⟨hnew, -⟩ | hmoved
      · exact absurd h.exists_node.2 (not_lt.mpr hnew)
      · exact hk hmoved
  function := (hext.function k h.exists_node.2).trans h.function
  children := (hext.children k h.exists_node.2 hk).trans h.children

theorem InputOn.extends (h : InputOn cv k t) (hext : Extends moved pos cv cv') :
    InputOn cv' k t :=
  ⟨hext.mem t h.mem, (hext.element t h.mem).trans h.element, (hext.getNode t h.mem).trans h.getNode⟩

theorem Conducts.extends {s : Tile} (h : Conducts cv s t) (hs : Shows D d cv)
    (hext : Extends moved pos cv cv') : Conducts cv' s t :=
  fun val hval => h val (hext.steady hs hval)

theorem Reserved.isPlaced_eq_false (h : Reserved cv k) (hs : Shows D d cv) :
    cv.layout.isPlaced k = false := by
  rw [← Bool.not_eq_true]
  intro hp
  have hlive := live_of_isPlaced hp
  have hnode : cv.layout.getNode (cv.layout.getTile k) = k :=
    getNode_eq_of_map (hs.placement.node_of_tile k _ hlive (nodeTileMap_getTile hp))
  have hoccupied : cv.layout.isEmptyTile (cv.layout.getTile k) = false := by
    rw [isEmptyTile, hnode, decide_eq_false_iff_not]
    have := h.exists_node.1
    omega
  refine h.unplaced _ ((hs.element _).mp ?_) hnode
  rw [element_of_occupied hlive hoccupied]
  rfl

theorem Shows.moveInput (h : Shows D d cv) (hk : Reserved cv k) (hblank : d 0 y = .blank) :
    Shows D (d.put 0 y) (cv.put (.at2 0 y) (cv.layout.moveNode k (.at2 0 y) [])).1 ∧
      Extends [k] [] cv (cv.put (.at2 0 y) (cv.layout.moveNode k (.at2 0 y) [])).1 ∧
      Links [] (.at2 0 y) cv (cv.put (.at2 0 y) (cv.layout.moveNode k (.at2 0 y) [])).1 ∧
      InputOn (cv.put (.at2 0 y) (cv.layout.moveNode k (.at2 0 y) [])).1 k (.at2 0 y) := by
  have hu := hk.isPlaced_eq_false h
  have hlive : (Ucoord.at2 0 y).isDead = false := rfl
  have happears := appears_moveNode h.placement hk.exists_node hu hlive
    fun o ho => ((h.mem_used o).mp (h.outputs o ho)).1
  obtain ⟨hshown, hext, hlinks⟩ := h.put (adds_put hblank) happears
    (moveNode_clocked k (.at2 0 y) []) (fun c hc => by cases hc) commutes_nil
    (fun hv => absurd Drawing.put_self hv)
    (fun hempty => counts_moveNode h.placement.toMapsInv hk.exists_node hu hk.children hlive hempty)
    (fun o ho => by cases ho)
  refine ⟨hshown, hext, hlinks, List.mem_append_right _ (List.mem_singleton_self _), ?_, ?_⟩
  · rw [← hk.function]
    exact (congrFun happears.element _).trans (Function.update_self ..)
  · exact getNode_moveNode h.placement.toMapsInv hk.exists_node hu hlive

/-- The input `n`, whose node is `k`, enters in row `y` and is led to `(x, y)`. -/
structure InputPlaced (D : ClockedLayout) (p' : Plan) (st : PlacementState) (n k x y : ℕ)
    (st' : PlacementState) : Prop where
  depicts : Depicts D p' st'
  eastPort : p'.eastPort y = some x
  fresh : .at2 x y ∉ st.canvas.used
  extension : Extends [k] [] st.canvas st'.canvas
  mem : .at2 x y ∈ st'.canvas.used
  links : Links [] (.at2 x y) st.canvas st'.canvas
  input : InputOn st'.canvas k (.at2 0 y)
  conducts : Conducts st'.canvas (.at2 0 y) (.at2 x y)
  node2pos : st'.node2pos = Function.update st.node2pos n (.at2 x y)
  poCounter : st'.poCounter = st.poCounter

theorem Depicts.placePi_straight {pi2node : ℕ → ℕ} (h : Depicts D p st)
    (hk : Reserved st.canvas (pi2node n)) (hfirst : firstFanoutIs ntk V ctn .south n = false) :
    InputPlaced D p.enter st n (pi2node n) 0 p.rows (placePi ntk V ctn pi2node st n) := by
  obtain ⟨hshown, hext, hlinks, hinput⟩ := h.shown.moveInput hk (h.tidy.rows_blank 0 p.rows le_rfl)
  simp only [placePi, hfirst, h.latestPos]
  exact ⟨⟨hshown, h.tidy.enter, rfl⟩, Function.update_self ..,
    h.shown.fresh (h.tidy.rows_blank 0 p.rows le_rfl), hext, hinput.mem, hlinks, hinput,
    fun _ _ => rfl, rfl, rfl⟩

theorem Depicts.placePi_bent {pi2node : ℕ → ℕ} (hz : D.z = 1) (h : Depicts D p st)
    (hk : Reserved st.canvas (pi2node n)) (hfirst : firstFanoutIs ntk V ctn .south n = true)
    (hb : p.columns < D.x) :
    InputPlaced D (p.enter.reachEast p.rows 0) st n (pi2node n) p.columns p.rows
      (placePi ntk V ctn pi2node st n) := by
  obtain ⟨hshown, hext, hlinks, hinput⟩ := h.shown.moveInput hk (h.tidy.rows_blank 0 p.rows le_rfl)
  have henter := h.tidy.enter
  have hport : p.enter.eastPort p.rows = some 0 := Function.update_self ..
  have hblank := henter.blank_of_eastPort hport (i := p.columns) le_rfl
  obtain ⟨hleads, hx, hy, -⟩ := hshown.wireEast (.at2 p.columns p.rows) hz hinput.mem
    h.tidy.columns_pos fun i hi _ => (henter.east p.rows 0 hport).2.2 i hi
  set cv := st.canvas.put (.at2 0 p.rows) (st.canvas.layout.moveNode (pi2node n) (.at2 0 p.rows) [])
    with hcv
  set res := cv.1.wireEast (.at2 0 p.rows) (.at2 p.columns p.rows) with hres
  have hplaces := hleads.shown.createGate (x := p.columns) (y := p.rows)
    ((Drawing.drawEast_of_ne (.inr (.inr le_rfl))).trans hblank) (List.cons_ne_nil res.2 [])
    (fun c hc => by rw [List.mem_singleton.mp hc]; exact ⟨hleads.mem, .inl ⟨hx, hy⟩⟩) .identity
    commutes_singleton
  have hall := hleads.places hplaces
  simp only [placePi, hfirst, h.latestPos]
  refine ⟨⟨hall.shown, henter.reachEast hport hb, rfl⟩, Function.update_self ..,
    h.shown.fresh (h.tidy.rows_blank p.columns p.rows le_rfl), hext.trans hall.extension, hall.mem,
    ?_, hinput.extends hall.extension, fun val hval => ?_, rfl, rfl⟩
  · apply hlinks.trans hext hall.extension hall.links (List.mem_singleton_self _)
    · exact fun s hs => absurd hs List.not_mem_nil
    · exact fun s hs => hs
    · exact fun s hs => .inl (List.mem_singleton.mp hs)
    · exact fun s hs => .inl hs
  · rw [hall.value val hval]
    exact TruthTable.eval_identity _

end Inputs

end Fiction.Orthogonal
