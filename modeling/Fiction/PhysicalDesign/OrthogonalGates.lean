import Fiction.PhysicalDesign.OrthogonalCanvas

/-!
# Gates on canvases

A gate is put where the wires from its predecessors end. If the wires leave free ports, the canvas
shows the plan that has made the same move afterwards, and in every steady state the tile of the
gate carries the value that the gate computes from its predecessors.
-/

namespace Fiction.Orthogonal

open GridDrawing GateLevelLayout TechnologyNetwork

/-- A gate on `t` computes `f` from the values on `ss`. -/
structure Places (D : ClockedLayout) (d' : Drawing) (cv : Canvas) (t : Tile) (f : TruthTable)
    (ss : List Tile) (cv' : Canvas) : Prop where
  shown : Shows D d' cv'
  extension : Extends [] [] cv cv'
  mem : t ∈ cv'.used
  links : Links ss t cv cv'
  value : ∀ val, cv'.layout.Steady val → val t = f.eval (ss.map val)

/-- The function that `place` picks for a gate with two fan-ins and perhaps a constant. -/
def placedFunction (ntk : TechnologyNetwork) (n : ℕ) (c : Option Bool) : TruthTable :=
  if ntk.isMaj n then if c = some true then .or else .and else (ntk.node n).function

section Gates

variable {D : ClockedLayout} {d d' : Drawing} {cv : Canvas} {ntk : TechnologyNetwork} {n : ℕ}
  {s src a b t : Tile} {x y r c : ℕ} {f : TruthTable}

theorem adds_put (hblank : d x y = .blank) : Adds d (.at2 x y) (d.put x y) where
  live := rfl
  same _ _ hne := Drawing.put_of_ne hne
  here := by
    refine .inl ⟨rfl, hblank, ?_, ?_⟩
    · rw [show d.put x y (Ucoord.at2 x y).x (Ucoord.at2 x y).y = .vertex from Drawing.put_self]
      intro he
      cases he
    · rw [show d.put x y (Ucoord.at2 x y).x (Ucoord.at2 x y).y = .vertex from Drawing.put_self]
      intro he
      cases he

theorem Shows.createGate (h : Shows D d cv) (hblank : d x y = .blank) {cs : List Tile}
    (hne : cs ≠ []) (hcs : ∀ c ∈ cs, c ∈ cv.used ∧ Precedes c (.at2 x y)) (f : TruthTable)
    (hcommutes : Commutes cs f) :
    Places D (d.put x y) cv (.at2 x y) f cs
      (cv.put (.at2 x y) (cv.layout.createNodeFromLiteral cs f (.at2 x y))).1 := by
  have happears := appears_createNodeFromLiteral h.placement (t := .at2 x y) rfl hne f
  obtain ⟨hshown, hext, hlinks⟩ := h.put (adds_put hblank) happears
    (createNodeFromLiteral_clocked cs f (.at2 x y)) hcs hcommutes
    (fun hv => absurd Drawing.put_self hv)
    (fun hempty => counts_createNodeFromLiteral h.placement.toMapsInv rfl hempty hne f)
    (fun _ ho => by cases ho)
  refine ⟨hshown, hext, List.mem_append_right _ (List.mem_singleton_self _), hlinks,
    fun val hval => ?_⟩
  exact hval _ cs f ((congrFun happears.element _).trans (Function.update_self ..)) hne

/-- Wires in front of a gate do not change what it computes. -/
theorem Leads.places {res : Canvas × Signal} {cv' : Canvas} (h : Leads D d cv src res)
    (h' : Places D d' res.1 t f [res.2] cv') : Places D d' cv t f [src] cv' where
  shown := h'.shown
  extension := h.extension.trans h'.extension
  mem := h'.mem
  links := h.links.trans_single h.extension h'.extension h'.links
  value val hval := by
    rw [h'.value val hval, List.map_singleton, List.map_singleton,
      h.conducts val (h'.extension.steady h.shown hval)]

theorem Shows.place (h : Shows D d cv) (hblank : d x y = .blank) (hs : s ∈ cv.used)
    (hp : Precedes s (.at2 x y)) (hn : ntk.isInv n = true ∨ ntk.isBuf n = true) :
    ∃ cv', cv.place ntk (.at2 x y) n s = some (cv', .at2 x y) ∧
      Places D (d.put x y) cv (.at2 x y) (ntk.node n).function [s] cv' := by
  have hgate := fun f => h.createGate hblank (List.cons_ne_nil s [])
    (fun c hc => by rw [List.mem_singleton.mp hc]; exact ⟨hs, hp⟩) f commutes_singleton
  unfold Canvas.place
  split_ifs with hinv hbuf
  · have hf : (ntk.node n).function = .not := of_decide_eq_true hinv
    rw [hf]
    exact ⟨_, rfl, hgate .not⟩
  · have hf : (ntk.node n).function = .identity := (of_decide_eq_true hbuf).1
    rw [hf]
    exact ⟨_, rfl, hgate .identity⟩
  · exact absurd hn (by simp [hinv, hbuf])

theorem Shows.placeBinary (h : Shows D d cv) (hblank : d x y = .blank) (ha : a ∈ cv.used)
    (hb : b ∈ cv.used) (hpa : Precedes a (.at2 x y)) (hpb : Precedes b (.at2 x y))
    {const : Option Bool} (hmaj : ntk.isMaj n = const.isSome) (hn : ntk.isFunction n = true)
    (hcommutes : Commutes [a, b] (placedFunction ntk n const)) :
    ∃ cv', cv.placeBinary ntk (.at2 x y) n a b const = some (cv', .at2 x y) ∧
      Places D (d.put x y) cv (.at2 x y) (placedFunction ntk n const) [a, b] cv' := by
  have hgate : Places D (d.put x y) cv (.at2 x y) (placedFunction ntk n const) [a, b]
      (cv.put (.at2 x y)
        (cv.layout.createNodeFromLiteral [a, b] (placedFunction ntk n const) (.at2 x y))).1 := by
    refine h.createGate hblank (List.cons_ne_nil a [b]) ?_ _ hcommutes
    intro c hc
    rcases List.mem_cons.mp hc with rfl | hc
    · exact ⟨ha, hpa⟩
    · rw [List.mem_singleton.mp hc]
      exact ⟨hb, hpb⟩
  have hother : ∀ g : TruthTable, g ≠ .maj → (ntk.node n).function = g →
      placedFunction ntk n const = g := by
    intro g hg hf
    have hnot : ntk.isMaj n = false := decide_eq_false (by rw [hf]; exact hg)
    rw [placedFunction, hnot, if_neg Bool.false_ne_true, hf]
  rw [Canvas.placeBinary, if_pos hn]
  by_cases hand : ntk.isAnd n = true
  · rw [hother .and (by decide) (of_decide_eq_true hand)] at hgate ⊢
    exact ⟨_, if_pos hand, hgate⟩
  rw [if_neg hand]
  by_cases hor : ntk.isOr n = true
  · rw [hother .or (by decide) (of_decide_eq_true hor)] at hgate ⊢
    exact ⟨_, if_pos hor, hgate⟩
  rw [if_neg hor]
  by_cases hxor : ntk.isXor n = true
  · rw [hother .xor (by decide) (of_decide_eq_true hxor)] at hgate ⊢
    exact ⟨_, if_pos hxor, hgate⟩
  rw [if_neg hxor]
  by_cases hnand : ntk.isNand n = true
  · rw [hother .nand (by decide) (of_decide_eq_true hnand)] at hgate ⊢
    exact ⟨_, if_pos hnand, hgate⟩
  rw [if_neg hnand]
  by_cases hnor : ntk.isNor n = true
  · rw [hother .nor (by decide) (of_decide_eq_true hnor)] at hgate ⊢
    exact ⟨_, if_pos hnor, hgate⟩
  rw [if_neg hnor]
  by_cases hm : ntk.isMaj n = true
  · obtain ⟨v, rfl⟩ := Option.isSome_iff_exists.mp (hmaj.symm.trans hm)
    rw [placedFunction, if_pos hm] at hgate ⊢
    rw [if_pos hm]
    cases v with
    | false => exact ⟨_, rfl, hgate⟩
    | true => exact ⟨_, rfl, hgate⟩
  · obtain rfl : const = none := by
      rw [Bool.not_eq_true] at hm
      rw [hm] at hmaj
      exact Option.isSome_eq_false_iff.mp hmaj.symm |> Option.isNone_iff_eq_none.mp
    rw [placedFunction, if_neg hm] at hgate ⊢
    rw [if_neg hm]
    exact ⟨_, rfl, hgate⟩

theorem Shows.connectEast (hz : D.z = 1) (h : Shows D d cv) (hs : .at2 c y ∈ cv.used)
    (hlt : c < x) (hrow : d.RowFree y c) (hblank : d x y = .blank)
    (hn : ntk.isInv n = true ∨ ntk.isBuf n = true) :
    ∃ cv', cv.connectAndPlace ntk (.at2 x y) n (.at2 c y) = some (cv', .at2 x y) ∧
      Places D ((d.drawEast y c x).put x y) cv (.at2 x y) (ntk.node n).function [.at2 c y] cv' := by
  have hwest : CoordinateLayout.isWestwardsOf (.at2 x y) (.at2 c y) = true :=
    decide_eq_true ⟨rfl, rfl, hlt⟩
  obtain ⟨hleads, hx, hy, -⟩ := h.wireEast (.at2 x y) hz hs hlt
    fun i hi _ => hrow i hi
  obtain ⟨cv', hcv, hplaces⟩ := hleads.shown.place (x := x) (y := y)
    ((Drawing.drawEast_of_ne (.inr (.inr le_rfl))).trans hblank) hleads.mem (.inl ⟨hx, hy⟩) hn
  refine ⟨cv', ?_, hleads.places hplaces⟩
  rw [Canvas.connectAndPlace, if_pos hwest]
  exact hcv

/-- A gate in the column of its predecessor. -/
theorem Shows.connectSouth (hz : D.z = 1) (h : Shows D d cv) (hs : .at2 x r ∈ cv.used)
    (hlt : r < y) (hcolumn : d.ColumnFree x r) (hblank : d x y = .blank)
    (hn : ntk.isInv n = true ∨ ntk.isBuf n = true) :
    ∃ cv', cv.connectAndPlace ntk (.at2 x y) n (.at2 x r) = some (cv', .at2 x y) ∧
      Places D ((d.drawSouth x r y).put x y) cv (.at2 x y) (ntk.node n).function
        [.at2 x r] cv' := by
  have hwest : ¬ CoordinateLayout.isWestwardsOf (.at2 x y) (.at2 x r) = true := by
    intro hw
    have hx : x > x := (of_decide_eq_true hw).2.2
    omega
  have hnorth : CoordinateLayout.isNorthwardsOf (.at2 x y) (.at2 x r) = true :=
    decide_eq_true ⟨rfl, hlt, rfl⟩
  obtain ⟨hleads, hx, hy, -⟩ := h.wireSouth (.at2 x y) hz hs hlt
    fun j hj _ => hcolumn j hj
  obtain ⟨cv', hcv, hplaces⟩ := hleads.shown.place (x := x) (y := y)
    ((Drawing.drawSouth_of_ne (.inr (.inr le_rfl))).trans hblank) hleads.mem (.inr ⟨hx, hy⟩) hn
  refine ⟨cv', ?_, hleads.places hplaces⟩
  rw [Canvas.connectAndPlace, if_neg hwest, if_pos hnorth]
  exact hcv

theorem drawSouth_drawEast_comm :
    (d.drawEast y c x).drawSouth x r y = (d.drawSouth x r y).drawEast y c x := by
  funext i j
  simp only [Drawing.drawEast, Drawing.drawSouth]
  split_ifs <;> first | rfl | omega

theorem ne_of_north_west (ha : a.x = x) (hb : b.x + 1 = x) : a ≠ b := by
  rintro rfl
  omega

/-- A gate where the column of one predecessor meets the row of the other. -/
theorem Shows.wireAndPlace (hz : D.z = 1) (h : Shows D d cv) (ha : .at2 x r ∈ cv.used)
    (hb : .at2 c y ∈ cv.used) (hr : r < y) (hc : c < x) (hcolumn : d.ColumnFree x r)
    (hrow : d.RowFree y c) (eastFirst : Bool) {const : Option Bool}
    (hmaj : ntk.isMaj n = const.isSome) (hn : ntk.isFunction n = true)
    (hsymm : ∀ u v, (placedFunction ntk n const).eval [u, v] =
      (placedFunction ntk n const).eval [v, u]) :
    ∃ cv', cv.wireAndPlace ntk eastFirst (.at2 x y) n (.at2 x r) (.at2 c y) const =
        some (cv', .at2 x y) ∧
      Places D (((d.drawSouth x r y).drawEast y c x).put x y) cv (.at2 x y)
        (placedFunction ntk n const) [.at2 x r, .at2 c y] cv' := by
  have hblank : d x y = .blank := Content.eq_blank (hrow x hc) (hcolumn y hr)
  have hblank' : (d.drawSouth x r y).drawEast y c x x y = .blank := by
    rw [Drawing.drawEast_of_ne (.inr (.inr le_rfl)), Drawing.drawSouth_of_ne (.inr (.inr le_rfl))]
    exact hblank
  cases eastFirst with
  | true =>
    obtain ⟨hleadsB, hbx, hby, -⟩ := h.wireEast (.at2 x y) hz hb hc
      fun i hi _ => hrow i hi
    have hcolumn' : (d.drawEast y c x).ColumnFree x r := hcolumn.drawEast hrow
    obtain ⟨hleadsA, hax, hay, -⟩ := hleadsB.shown.wireSouth (.at2 x y) hz
      (hleadsB.extension.mem _ ha) hr fun j hj _ => hcolumn' j hj
    change Leads D ((d.drawEast y c x).drawSouth x r y) _ _ _ at hleadsA
    rw [drawSouth_drawEast_comm] at hleadsA
    have hne := ne_of_north_west hax hbx
    obtain ⟨cv', hcv, hplaces⟩ := hleadsA.shown.placeBinary hblank' hleadsA.mem
      (hleadsA.extension.mem _ hleadsB.mem) (.inr ⟨hax, hay⟩) (.inl ⟨hbx, hby⟩) hmaj hn
      (commutes_pair hne hsymm)
    refine ⟨cv', hcv, hplaces.shown, ?_, hplaces.mem, ?_, fun val hval => ?_⟩
    · exact hleadsB.extension.trans (hleadsA.extension.trans hplaces.extension)
    · apply hleadsB.links.trans_right hleadsB.extension (hleadsA.extension.trans hplaces.extension)
        _ ha
      exact hleadsA.links.trans_left hleadsA.extension hplaces.extension hplaces.links hleadsB.mem
    · have hvalA := hplaces.extension.steady hleadsA.shown hval
      rw [hplaces.value val hval, List.map_cons, List.map_singleton, List.map_cons,
        List.map_singleton, hleadsA.conducts val hvalA,
        hleadsB.conducts val (hleadsA.extension.steady hleadsB.shown hvalA)]
  | false =>
    obtain ⟨hleadsA, hax, hay, -⟩ := h.wireSouth (.at2 x y) hz ha hr
      fun j hj _ => hcolumn j hj
    have hrow' : (d.drawSouth x r y).RowFree y c := hrow.drawSouth hcolumn
    obtain ⟨hleadsB, hbx, hby, -⟩ := hleadsA.shown.wireEast (.at2 x y) hz
      (hleadsA.extension.mem _ hb) hc fun i hi _ => hrow' i hi
    have hne := ne_of_north_west hax hbx
    obtain ⟨cv', hcv, hplaces⟩ := hleadsB.shown.placeBinary hblank'
      (hleadsB.extension.mem _ hleadsA.mem) hleadsB.mem (.inr ⟨hax, hay⟩) (.inl ⟨hbx, hby⟩) hmaj hn
      (commutes_pair hne hsymm)
    refine ⟨cv', hcv, hplaces.shown, ?_, hplaces.mem, ?_, fun val hval => ?_⟩
    · exact hleadsA.extension.trans (hleadsB.extension.trans hplaces.extension)
    · apply hleadsA.links.trans_left hleadsA.extension (hleadsB.extension.trans hplaces.extension)
        _ hb
      exact hleadsB.links.trans_right hleadsB.extension hplaces.extension hplaces.links hleadsA.mem
    · have hvalB := hplaces.extension.steady hleadsB.shown hval
      rw [hplaces.value val hval, List.map_cons, List.map_singleton, List.map_cons,
        List.map_singleton, hleadsB.conducts val hvalB,
        hleadsA.conducts val (hleadsB.extension.steady hleadsA.shown hvalB)]

end Gates

end Fiction.Orthogonal
