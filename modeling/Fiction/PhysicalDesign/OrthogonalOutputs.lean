import Fiction.PhysicalDesign.OrthogonalMoves

/-!
# Outputs of the orthogonal placement

An output is put on the eastern border. It is reached from the east of its driver, in the row of the
driver, or from the south, in a row of its own.
-/

namespace Fiction.Orthogonal

open GridDrawing GateLevelLayout TechnologyNetwork

section Border

variable {D : ClockedLayout} {d d' : Drawing} {cv : Canvas} {s : Tile} {x y : ℕ}

theorem Shows.createPo (h : Shows D d cv) (hblank : d x y = .blank) (hs : s ∈ cv.used)
    (hp : Precedes s (.at2 x y)) (hx : x = D.x) (name : String) :
    Shows D (d.put x y) (cv.put (.at2 x y) (cv.layout.createPo s name (.at2 x y))).1 ∧
      Extends [] [.at2 x y] cv (cv.put (.at2 x y) (cv.layout.createPo s name (.at2 x y))).1 ∧
      Links [s] (.at2 x y) cv (cv.put (.at2 x y) (cv.layout.createPo s name (.at2 x y))).1 ∧
      Conducts (cv.put (.at2 x y) (cv.layout.createPo s name (.at2 x y))).1 s (.at2 x y) := by
  have happears := appears_createPo h.placement (t := .at2 x y) rfl s name h.numPos
  have hne : s ≠ .at2 x y := by
    rintro rfl
    exact (adds_put hblank).not_occupies ((h.mem_used _).mp hs)
  obtain ⟨hshown, hext, hlinks⟩ := h.put (adds_put hblank) happears
    (createPo_createdAt s name (.at2 x y)).clocked
    (fun c hc => by rw [List.mem_singleton.mp hc]; exact ⟨hs, hp⟩) commutes_singleton
    (fun hv => absurd Drawing.put_self hv)
    (fun hempty => counts_createPo h.placement.toMapsInv rfl hempty hne name)
    (fun _ ho => ⟨List.mem_singleton.mp ho, hx, s, rfl, rfl⟩)
  refine ⟨hshown, hext, hlinks, Shows.conducts ?_⟩
  exact (congrFun happears.element _).trans (Function.update_self ..)

/-- A signal is led to the eastern border from a tile in front of it. -/
theorem Shows.connectToBorder (hz : D.z = 1) (h : Shows D d cv) (hs : s ∈ cv.used)
    (hp : Precedes s (.at2 x y)) (hadds : Adds d (.at2 x y) d') (hlt : x < D.x)
    (hrow : d'.RowFree y x) :
    ∃ res : Canvas × Signal, cv.connectToBorder s (.at2 x y) = (res.1, res.2, .at2 D.x y) ∧
      Leads D (d'.drawEast y x D.x) cv s res ∧ Precedes res.2 (.at2 D.x y) := by
  have hbuf := h.createBuf hadds hs hp
  have hanker : (cv.createBuf s (.at2 x y)).2 = .at2 x y := rfl
  have hmem := hbuf.mem
  rw [hanker] at hmem
  obtain ⟨hleads, hx, hy, -⟩ := hbuf.shown.wireEast (.at2 D.x y) hz hmem hlt
    fun i hi _ => hrow i hi
  have hnot : ¬ cv.layout.clocked.isAtEasternBorder (.at2 x y) = true := by
    rw [h.clocked, CoordinateLayout.isAtEasternBorder, decide_eq_true_iff]
    exact hlt.ne
  have hborder : (cv.createBuf s (.at2 x y)).1.layout.clocked.easternBorderOf (.at2 x y) =
      .at2 D.x y := by
    rw [hbuf.shown.clocked]
    rfl
  refine ⟨_, ?_, hbuf.trans hleads, .inl ⟨hx, hy⟩⟩
  rw [Canvas.connectToBorder, if_neg hnot]
  dsimp only
  rw [hborder, hanker]

end Border

/-- The output of the node on `s` is put on `t`. -/
structure PoPlaced (D : ClockedLayout) (p' : Plan) (st : PlacementState) (s t : Tile)
    (st' : PlacementState) : Prop where
  depicts : Depicts D p' st'
  fresh : t ∉ st.canvas.used
  extension : Extends [] [t] st.canvas st'.canvas
  links : Links [s] t st.canvas st'.canvas
  conducts : Conducts st'.canvas s t
  node2pos : st'.node2pos = st.node2pos
  poCounter : st'.poCounter = st.poCounter + 1

section Outputs

variable {D : ClockedLayout} {p : Plan} {st : PlacementState} {ntk : TechnologyNetwork}
  {V : FanoutView ntk} {ctn : ColoringContainer} {n x y r : ℕ}

/-- The output of a node in the east. -/
theorem Depicts.placePo_east (hz : D.z = 1) (h : Depicts D p st)
    (hn : st.node2pos n = .at2 x y) (hused : .at2 x y ∈ st.canvas.used)
    (hport : p.eastPort y = some x) (hbehind : ∀ i, x < i → p.drawing i y = .blank)
    (hb : p.columns ≤ D.x) (heast : isEasternPoOrientationAvailable ntk V ctn n = true) :
    PoPlaced D (p.leave D.x y x).skipColumn st (.at2 x y) (.at2 D.x y)
      (placePo ntk V ctn st n) := by
  obtain ⟨hx, -, hrow⟩ := h.tidy.east y x hport
  have hlt : x < D.x := hx.trans_le hb
  have heastOf : st.canvas.layout.clocked.east (.at2 x y) = .at2 (x + 1) y := by
    rw [h.shown.clocked, CoordinateLayout.east,
      if_neg (show ¬ (Ucoord.at2 x y).x > D.x from not_lt.mpr hlt.le),
      if_pos (show (Ucoord.at2 x y).x < D.x from hlt)]
    rfl
  have htidy := (h.tidy.leave hport hb).skipColumn
  simp only [placePo, heast, if_true, hn, heastOf, h.latestPos]
  by_cases hborder : x + 1 = D.x
  · have hdirect : st.canvas.connectToBorder (.at2 x y) (.at2 (x + 1) y) =
        (st.canvas, .at2 x y, .at2 (x + 1) y) := by
      have hat : D.isAtEasternBorder (.at2 (x + 1) y) = true := decide_eq_true hborder
      rw [Canvas.connectToBorder, h.shown.clocked, if_pos hat]
    obtain ⟨hshown, hext, hlinks, hconducts⟩ := h.shown.createPo (x := x + 1) (y := y)
      (hbehind _ (Nat.lt_succ_self x)) hused (.inl ⟨rfl, rfl⟩) hborder
      ((ntk.outputNames st.poCounter).getD s!"po{st.poCounter}")
    have hnone : p.drawing.drawEast y x D.x = p.drawing := by
      funext i j
      exact Drawing.drawEast_of_ne (by omega)
    rw [hdirect, ← hborder]
    refine ⟨⟨?_, hborder ▸ htidy, rfl⟩, h.shown.fresh (hbehind _ x.lt_succ_self), hext, hlinks,
      hconducts, rfl, rfl⟩
    change Shows D ((p.drawing.drawEast y x (x + 1)).put (x + 1) y) _
    rw [hborder, hnone, ← hborder]
    exact hshown
  · have hadds : Adds p.drawing (.at2 (x + 1) y) (p.drawing.drawEast y x (x + 2)) := by
      refine ⟨rfl, fun i j hne => Drawing.drawEast_of_ne ?_,
        .inl ⟨rfl, hbehind (x + 1) x.lt_succ_self, ?_⟩⟩
      · change i ≠ x + 1 ∨ j ≠ y at hne
        omega
      · have hhere : p.drawing.drawEast y x (x + 2) (x + 1) y = .horizontal := by
          rw [Drawing.drawEast, if_pos ⟨rfl, by omega, by omega⟩, hbehind _ (by omega)]
          rfl
        change p.drawing.drawEast y x (x + 2) (x + 1) y ≠ .blank ∧
          p.drawing.drawEast y x (x + 2) (x + 1) y ≠ .crossing
        rw [hhere]
        exact ⟨fun he => Content.noConfusion he, fun he => Content.noConfusion he⟩
    obtain ⟨⟨cv, a⟩, hcv, hleads, hprecedes⟩ := h.shown.connectToBorder hz hused
      (x := x + 1) (y := y) (.inl ⟨rfl, rfl⟩) hadds (by omega)
      (fun i hi => by
        rw [Drawing.drawEast_of_ne (by omega)]
        exact hrow i (by omega))
    have hdraw : (p.drawing.drawEast y x (x + 2)).drawEast y (x + 1) D.x =
        p.drawing.drawEast y x D.x := by
      funext i j
      simp only [Drawing.drawEast]
      split_ifs <;> first | rfl | omega
    rw [hdraw] at hleads
    obtain ⟨hshown, hext, hlinks, hconducts⟩ := hleads.shown.createPo (x := D.x) (y := y)
      ((Drawing.drawEast_of_ne (.inr (.inr le_rfl))).trans (hbehind _ hlt)) hleads.mem hprecedes
      rfl ((ntk.outputNames st.poCounter).getD s!"po{st.poCounter}")
    rw [hcv]
    exact ⟨⟨hshown, htidy, rfl⟩, h.shown.fresh (hbehind _ hlt), hleads.extension.trans hext,
      hleads.links.trans_single hleads.extension hext hlinks, fun val hval => (hconducts val hval).trans
        (hleads.conducts val (hext.steady hleads.shown hval)), rfl, rfl⟩

/-- The output of a node in the last row is put into a new one. -/
theorem Depicts.placePo_south (hz : D.z = 1) (h : Depicts D p st)
    (hn : st.node2pos n = .at2 x r) (hused : .at2 x r ∈ st.canvas.used)
    (hport : p.southPort x = some r) (hlast : r + 1 = p.rows) (hb : p.columns ≤ D.x)
    (hy : p.rows ≤ D.y) (hsouth : isEasternPoOrientationAvailable ntk V ctn n = false) :
    PoPlaced D ((p.reachSouth x r).leave D.x p.rows x) st (.at2 x r) (.at2 D.x p.rows)
      (placePo ntk V ctn st n) := by
  obtain ⟨hx, -, -⟩ := h.tidy.south x r hport
  have hlt : x < D.x := hx.trans_le hb
  have hsouthOf : st.canvas.layout.clocked.south (.at2 x r) = .at2 x p.rows := by
    have hr : r < D.y := by omega
    rw [h.shown.clocked, CoordinateLayout.south,
      if_neg (show ¬ (Ucoord.at2 x r).y > D.y from not_lt.mpr hr.le),
      if_pos (show (Ucoord.at2 x r).y < D.y from hr), ← hlast]
    rfl
  have hport' : (p.reachSouth x r).eastPort p.rows = some x := Function.update_self ..
  have htidy := (h.tidy.reachSouth hport).leave hport' hb
  have hblank := h.tidy.rows_blank
  have hnone : p.drawing.drawSouth x r p.rows = p.drawing := by
    funext i j
    exact Drawing.drawSouth_of_ne (by omega)
  obtain ⟨⟨cv, a⟩, hcv, hleads, hprecedes⟩ := h.shown.connectToBorder hz hused
    (x := x) (y := p.rows) (.inr ⟨rfl, hlast⟩) (adds_put (hblank _ _ le_rfl)) hlt
    (fun i hi => by
      rw [Drawing.put_of_ne (by omega)]
      exact .inl (hblank i _ le_rfl))
  obtain ⟨hshown, hext, hlinks, hconducts⟩ := hleads.shown.createPo (x := D.x) (y := p.rows)
    (by
      rw [Drawing.drawEast_of_ne (.inr (.inr le_rfl)), Drawing.put_of_ne (.inl hlt.ne')]
      exact hblank _ _ le_rfl)
    hleads.mem hprecedes rfl ((ntk.outputNames st.poCounter).getD s!"po{st.poCounter}")
  simp only [placePo, hsouth, Bool.false_eq_true, if_false, hn, hsouthOf, h.latestPos, hcv]
  refine ⟨⟨?_, htidy, rfl⟩, h.shown.fresh (hblank _ _ le_rfl), hleads.extension.trans hext,
    hleads.links.trans_single hleads.extension hext hlinks, fun val hval => (hconducts val hval).trans
      (hleads.conducts val (hext.steady hleads.shown hval)), rfl, rfl⟩
  change Shows D ((((p.drawing.drawSouth x r p.rows).put x p.rows).drawEast p.rows x D.x).put D.x
    p.rows) _
  rw [hnone]
  exact hshown

end Outputs

end Fiction.Orthogonal
