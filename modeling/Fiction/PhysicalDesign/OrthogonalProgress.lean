import Fiction.PhysicalDesign.DrawableNetworks

/-!
# Progress of the orthogonal placement

Between two steps of the placement loop, the state depicts a plan in which every placed node owns
the ports for the fan-outs that are still to come. Each step makes a move of the plan and keeps this
up, so the loop over a drawable network succeeds.
-/

namespace Fiction.Orthogonal

open GridDrawing TechnologyNetwork

structure Progress {ntk : TechnologyNetwork} (V : FanoutView ntk) (T : ntk.TopoView)
    (ctn : ColoringContainer) (D : ClockedLayout) (pi2node : ℕ → ℕ) (pre outs : List ℕ) (p : Plan)
    (st : PlacementState) : Prop where
  depicts : Depicts D p st
  represents : Represents ntk T pi2node pre pre outs st.canvas st.node2pos
  /-- the ports for fan-outs that have not been placed yet -/
  owns : ∀ m ∈ pre, isConstant m = false → ∀ n ∈ V.fanouts m, n ∉ pre → ∀ c, ctn.color n = some c →
    Owns p c (st.node2pos m)
  terminated : Terminated ntk T pre outs st.canvas st.node2pos

section Steps

variable {ntk : TechnologyNetwork} {V : FanoutView ntk} {T : ntk.TopoView}
  {ctn : ColoringContainer} {D : ClockedLayout} {pi2node : ℕ → ℕ} {pre suf outs : List ℕ} {p : Plan}
  {st : PlacementState} {n x y : ℕ}

/-- The inputs have different nodes. -/
def InjectiveOn (ns : List ℕ) (f : ℕ → ℕ) : Prop := ∀ m ∈ ns, ∀ m' ∈ ns, f m = f m' → m = m'

theorem Progress.placeGate (eastFirst : Bool) (hdraw : Drawable V T ctn) (hz : D.z = 1)
    (hinj : InjectiveOn ntk.inputs pi2node) (hl : nodes ntk T = pre ++ n :: suf)
    (hn : n ∈ T.gates) (h : Progress V T ctn D pi2node pre outs p st)
    (hb : ctn.color n = some .east → p.columns < D.x) :
    ∃ st' p' x y, placeGate ntk ctn eastFirst st n = some st' ∧
      Progress V T ctn D pi2node (pre ++ [n]) outs p' st' ∧ st'.node2pos n = .at2 x y ∧
      Fronts p' x y ∧ (ctn.color n = some .south → y + 1 = p'.rows) ∧
      p'.columns = p.columns + (if ctn.color n = some .south then 0 else 1) ∧
      p'.rows = p.rows + if ctn.color n = some .east then 0 else 1 := by
  obtain ⟨c, hc⟩ := Option.isSome_iff_exists.mp (hdraw.colored n hn)
  have hsource := not_source_of_mem hn
  have hnot := hdraw.notMem hl
  have hpre : ∀ m ∈ (ntk.node n).children, m ∈ pre := fun m hm =>
    fanin_mem_of_nodes hl hsource hm
  have hin : n ∉ ntk.inputs := fun hmem => hsource (.inr hmem)
  obtain ⟨st', p', x, y, f, ss, hst', hplaced, hopens, hss, heval⟩ :=
    h.depicts.placeGate eastFirst hz hsource (hdraw.supported n hn) hc
      (fun m hm hmc => ⟨h.represents.used m (hpre m hm) hmc,
        h.owns m (hpre m hm) hmc n (mem_fanouts_of_mem V hn hm) hnot c hc⟩)
      (fun m hm m' hm' hmc hmc' => h.represents.inj m (hpre m hm) m' (hpre m' hm') hmc hmc')
      (fun he => hb (he ▸ hc))
  have hold := hplaced.node2pos
  rw [hc]
  refine ⟨st', p', x, y, hst', ?_, ?_, hplaced.fronts, ?_, ?_, ?_⟩
  · constructor
    case depicts => exact hplaced.depicts
    case represents =>
      have hext := h.represents.extends (pre ++ [n]) []
        h.depicts.shown hplaced.places.extension hinj (fun m hm => List.mem_append_left _ hm)
        (fun k hk => absurd hk List.not_mem_nil)
        (fun m hm hmem hnot => by
          obtain rfl := List.mem_singleton.mp ((List.mem_append.mp hmem).resolve_left hnot)
          exact absurd hm hin)
        (fun o ho => absurd ho List.not_mem_nil) (fun _ _ => rfl)
      rw [List.append_nil] at hext
      rw [hold]
      apply hext.place hnot hplaced.places.mem
      · intro m hm hmc he
        exact hplaced.fresh (he ▸ h.represents.used m hm hmc)
      · exact fun hmem => absurd hmem hin
      · exact fun _ => hpre
      · intro _ val hval
        rw [hplaced.places.value val hval]
        exact heval val
    case owns =>
      intro m hm hmc n' hn' hnot' c' hc'
      rcases List.mem_append.mp hm with hpm | hm
      · rw [hold, Function.update_of_ne (by rintro rfl; exact hnot hpm)]
        apply hopens.keeps
        · exact h.owns m hpm hmc n' hn' (fun hmem => hnot' (List.mem_append_left _ hmem)) c' hc'
        · -- the only other edge that could leave `m` in this direction is the one to `n`
          rintro rfl hmem
          obtain ⟨m₀, hm₀, he⟩ := List.mem_map.mp hmem
          obtain ⟨hchild, hm₀c⟩ := List.mem_filter.mp hm₀
          have hm₀c' : isConstant m₀ = false := by simpa using hm₀c
          obtain rfl := h.represents.inj m₀ (hpre m₀ hchild) m hpm hm₀c' hmc he
          have hne : n ≠ n' := by
            rintro rfl
            exact hnot' (List.mem_append_right _ (List.mem_singleton_self _))
          exact hdraw.siblings m₀ hmc n (mem_fanouts_of_mem V hn hchild) n' hn' hne
            (hc.trans hc'.symm)
      · rw [List.mem_singleton.mp hm, hold, Function.update_self]
        cases c' with
        | east => exact ⟨x, y, rfl, hplaced.fronts.eastPort⟩
        | south => exact ⟨x, y, rfl, hplaced.fronts.southPort⟩
    case terminated =>
      rw [hold]
      exact h.terminated.place h.represents h.depicts.shown hplaced.places.extension
        hplaced.places.links hplaced.fresh hplaced.places.mem hnot (isConstant_of_mem hn)
        (fun _ => hpre) fun s => (hss s).trans (and_iff_right hn).symm
  · rw [hold, Function.update_self]
  · exact fun he => hopens.last (Option.some.inj he)
  · rw [hopens.columns]
    simp only [Option.some.injEq]
  · rw [hopens.rows]
    simp only [Option.some.injEq]

/-- The row that an input opens is free, wherever the input is led in it. -/
theorem keeps_enter_reachEast {border : ℕ} (h : p.Tidy border) (c : Color) :
    Keeps c [] p (p.enter.reachEast p.rows 0) := by
  rintro c' t ⟨x, y, rfl, hown⟩ -
  cases c' with
  | east =>
    have hlt := (h.east y x hown).2.1
    exact ⟨x, y, rfl,
      (Function.update_of_ne hlt.ne ..).trans ((Function.update_of_ne hlt.ne ..).trans hown)⟩
  | south =>
    have hlt := (h.south x y hown).1
    exact ⟨x, y, rfl, (Function.update_of_ne hlt.ne ..).trans hown⟩

/-- An input keeps all ports and owns those that its fan-out needs. -/
theorem Progress.input (hdraw : Drawable V T ctn) (hinj : InjectiveOn ntk.inputs pi2node)
    (hl : nodes ntk T = pre ++ n :: suf) (hn : n ∈ ntk.inputs)
    (h : Progress V T ctn D pi2node pre outs p st) {p' : Plan} {st' : PlacementState}
    (hplaced : InputPlaced D p' st n (pi2node n) x y st') (hkeeps : Keeps .east [] p p')
    (hsouth : ∀ m ∈ V.fanouts n, ctn.color m = some .south → p'.southPort x = some y) :
    Progress V T ctn D pi2node (pre ++ [n]) outs p' st' := by
  have hnot := hdraw.notMem hl
  have hgate : n ∉ T.gates := fun hmem => not_source_of_mem hmem (.inr hn)
  constructor
  case depicts => exact hplaced.depicts
  case represents =>
    have hext := h.represents.extends (pre ++ [n]) []
      h.depicts.shown hplaced.extension hinj (fun m hm => List.mem_append_left _ hm)
      (fun k hk => ⟨n, by simp, hn, List.mem_singleton.mp hk⟩)
      (fun m _ hmem hnot' => by
        obtain rfl := List.mem_singleton.mp ((List.mem_append.mp hmem).resolve_left hnot')
        exact List.mem_singleton_self _)
      (fun o ho => absurd ho List.not_mem_nil) (fun _ _ => rfl)
    rw [List.append_nil] at hext
    rw [hplaced.node2pos]
    apply hext.place hnot hplaced.mem
    · intro m hm hmc he
      exact hplaced.fresh (he ▸ h.represents.used m hm hmc)
    · exact fun _ => ⟨y, hplaced.input, hplaced.conducts⟩
    · exact fun hmem => absurd hmem hgate
    · exact fun hmem => absurd hmem hgate
  case owns =>
    intro m hm hmc n' hn' hnot' c' hc'
    rcases List.mem_append.mp hm with hpm | hm
    · rw [hplaced.node2pos, Function.update_of_ne (by rintro rfl; exact hnot hpm)]
      apply hkeeps
      · exact h.owns m hpm hmc n' hn' (fun hmem => hnot' (List.mem_append_left _ hmem)) c' hc'
      · exact fun _ hmem => absurd hmem List.not_mem_nil
    · obtain rfl := List.mem_singleton.mp hm
      rw [hplaced.node2pos, Function.update_self]
      cases c' with
      | east => exact ⟨x, y, rfl, hplaced.eastPort⟩
      | south => exact ⟨x, y, rfl, hsouth n' hn' hc'⟩
  case terminated =>
    rw [hplaced.node2pos]
    apply h.terminated.place h.represents h.depicts.shown hplaced.extension hplaced.links
      hplaced.fresh hplaced.mem hnot (hdraw.isConstant_of_input hn)
    · exact fun hmem => absurd hmem hgate
    · exact fun s => ⟨fun hs => absurd hs List.not_mem_nil, fun hs => absurd hs.1 hgate⟩

theorem Progress.placePi (hdraw : Drawable V T ctn) (hz : D.z = 1)
    (hinj : InjectiveOn ntk.inputs pi2node) (hl : nodes ntk T = pre ++ n :: suf)
    (hn : n ∈ ntk.inputs) (h : Progress V T ctn D pi2node pre outs p st)
    (hb : firstFanoutIs ntk V ctn .south n = true → p.columns < D.x) :
    ∃ p' x, Progress V T ctn D pi2node (pre ++ [n]) outs p' (placePi ntk V ctn pi2node st n) ∧
      (placePi ntk V ctn pi2node st n).node2pos n = .at2 x p.rows ∧
      p'.eastPort p.rows = some x ∧ (∀ i, x < i → p'.drawing i p.rows = .blank) ∧
      p'.columns = p.columns + (if firstFanoutIs ntk V ctn .south n then 1 else 0) ∧
      p'.rows = p.rows + 1 := by
  have hreserved := h.represents.reserved n hn (hdraw.notMem hl)
  have htidy := h.depicts.tidy
  cases hfirst : firstFanoutIs ntk V ctn .south n with
  | false =>
    have hplaced := h.depicts.placePi_straight hreserved hfirst
    refine ⟨p.enter, 0, ?_, ?_, hplaced.eastPort, fun i hi => ?_, rfl, rfl⟩
    · apply h.input hdraw hinj hl hn hplaced (keeps_enter htidy .east)
      intro m hm hsouth
      have hlen := hdraw.input_fanout n hn
      rw [← firstFanoutIs_iff (by omega) hm, hfirst] at hsouth
      cases hsouth
    · rw [hplaced.node2pos, Function.update_self]
    · exact (Drawing.put_of_ne (.inl hi.ne')).trans (htidy.rows_blank i _ le_rfl)
  | true =>
    have hplaced := h.depicts.placePi_bent hz hreserved hfirst (hb hfirst)
    have hfronts := fronts_reachEast htidy.enter (y := p.rows) (c := 0) (Function.update_self ..)
    refine ⟨p.enter.reachEast p.rows 0, p.columns, ?_, ?_, hplaced.eastPort, hfronts.behind, rfl,
      rfl⟩
    · apply h.input hdraw hinj hl hn hplaced (keeps_enter_reachEast htidy .east)
      exact fun _ _ _ => hfronts.southPort
    · rw [hplaced.node2pos, Function.update_self]

/-- The output gives up a port that no fan-out is waiting for. -/
theorem Progress.placePo (hz : D.z = 1) (hinj : InjectiveOn ntk.inputs pi2node)
    (h : Progress V T ctn D pi2node pre outs p st) (hn : n ∈ pre) (hc : isConstant n = false)
    (hfanout : (V.fanouts n).length ≤ 1) (hpos : st.node2pos n = .at2 x y)
    (hport : p.eastPort y = some x) (hbehind : ∀ i, x < i → p.drawing i y = .blank)
    (hb : p.columns ≤ D.x) (hsouth : isEasternPoOrientationAvailable ntk V ctn n = false →
      p.southPort x = some y ∧ y + 1 = p.rows ∧ p.rows ≤ D.y) :
    ∃ p', Progress V T ctn D pi2node pre (outs ++ [n]) p' (placePo ntk V ctn st n) ∧
      p'.columns = p.columns + (if isEasternPoOrientationAvailable ntk V ctn n then 1 else 0) ∧
      p'.rows = p.rows + if isEasternPoOrientationAvailable ntk V ctn n then 0 else 1 := by
  have hused := h.represents.used n hn hc
  have hrepresents : ∀ {p' : Plan} {t : Tile} {st' : PlacementState},
      PoPlaced D p' st (.at2 x y) t st' →
      Represents ntk T pi2node pre pre (outs ++ [n]) st'.canvas st'.node2pos := by
    intro p' t st' hplaced
    rw [hplaced.node2pos]
    apply h.represents.extends pre [n] h.depicts.shown hplaced.extension hinj (fun m hm => hm)
      (fun k hk => absurd hk List.not_mem_nil) (fun m _ hmem hnot => absurd hmem hnot)
      (fun o ho => by rwa [List.mem_singleton.mp ho])
    intro val hval
    rw [List.map_singleton, List.map_singleton, hplaced.conducts val hval,
      nodeValue_of_not_constant hc, hpos]
  have hterminated : ∀ {p' : Plan} {t : Tile} {st' : PlacementState},
      PoPlaced D p' st (.at2 x y) t st' →
      Terminated ntk T pre (outs ++ [n]) st'.canvas st'.node2pos := by
    intro p' t st' hplaced
    have hmem : t ∈ st'.canvas.used := by
      apply hplaced.depicts.shown.outputs
      rw [hplaced.extension.outputs]
      exact List.mem_append_right _ (List.mem_singleton_self t)
    rw [hplaced.node2pos]
    exact h.terminated.output h.represents h.depicts.shown hplaced.extension
      (hpos ▸ hplaced.links) hplaced.fresh hmem hn hc
  -- an edge in the direction of the output would be the only one of `n`
  have hfree : ∀ m ∈ pre, isConstant m = false → ∀ n' ∈ V.fanouts m, ∀ c, ctn.color n' = some c →
      st.node2pos m = .at2 x y → firstFanoutIs ntk V ctn c n = true := by
    intro m hm hmc n' hn' c hc' he
    obtain rfl := h.represents.inj m hm n hn hmc hc (he.trans hpos.symm)
    exact (firstFanoutIs_iff hfanout hn' c).mpr hc'
  rw [hpos] at hused
  cases heast : isEasternPoOrientationAvailable ntk V ctn n with
  | true =>
    have hplaced := h.depicts.placePo_east hz hpos hused hport hbehind hb heast
    refine ⟨_, ⟨hplaced.depicts, hrepresents hplaced, ?_, hterminated hplaced⟩, rfl, rfl⟩
    intro m hm hmc n' hn' hnot c hc'
    rw [hplaced.node2pos]
    apply keeps_leave D.x hport
    · exact h.owns m hm hmc n' hn' hnot c hc'
    · rintro rfl hmem
      have hfirst := hfree m hm hmc n' hn' _ hc' (List.mem_singleton.mp hmem)
      rw [isEasternPoOrientationAvailable, hfirst] at heast
      cases heast
  | false =>
    obtain ⟨hport', hlast, hy⟩ := hsouth heast
    have hplaced := h.depicts.placePo_south hz hpos hused hport' hlast hb hy heast
    refine ⟨_, ⟨hplaced.depicts, hrepresents hplaced, ?_, hterminated hplaced⟩, rfl, rfl⟩
    intro m hm hmc n' hn' hnot c hc'
    rw [hplaced.node2pos]
    have hown := keeps_reachSouth h.depicts.tidy hport' c (st.node2pos m)
      (h.owns m hm hmc n' hn' hnot c hc') (by
        rintro rfl hmem
        have hfirst := hfree m hm hmc n' hn' _ hc' (List.mem_singleton.mp hmem)
        have hfirst' : firstFanoutIs ntk V ctn .east n = true := by
          simpa only [isEasternPoOrientationAvailable, Bool.not_eq_false'] using heast
        rw [firstFanoutIs, decide_eq_true_iff] at hfirst hfirst'
        cases hfirst.symm.trans hfirst')
    apply keeps_leave D.x (Function.update_self ..) c _ hown
    rintro rfl hmem
    have hfresh := h.depicts.shown.fresh (h.depicts.tidy.rows_blank x p.rows le_rfl)
    rw [← List.mem_singleton.mp hmem] at hfresh
    exact hfresh (h.represents.used m hm hmc)

end Steps

section Loop

variable {ntk : TechnologyNetwork} {V : FanoutView ntk} {T : ntk.TopoView}
  {ctn : ColoringContainer} {D : ClockedLayout} {pi2node : ℕ → ℕ} {pre suf : List ℕ}
  {st : PlacementState} {n : ℕ} {eastFirst : Bool}

/-- The nodes that drive primary outputs, in the order in which they are visited. -/
def drivers (ntk : TechnologyNetwork) (ns : List ℕ) : List ℕ :=
  ns.filter fun n => !isConstant n && ntk.isPo n

/-- The size of the layout, as the walk before the placement computes it. -/
structure Fits (V : FanoutView ntk) (T : ntk.TopoView) (ctn : ColoringContainer)
    (D : ClockedLayout) : Prop where
  x_eq : D.x = openColumns ntk V ctn (nodes ntk T)
  y_eq : D.y + 1 = openRows ntk V ctn (nodes ntk T)
  z_eq : D.z = 1

/-- The invariant of the loop over the nodes. -/
structure Underway (V : FanoutView ntk) (T : ntk.TopoView) (ctn : ColoringContainer)
    (D : ClockedLayout) (pi2node : ℕ → ℕ) (pre : List ℕ) (st : PlacementState) : Prop where
  exists_plan : ∃ p, Progress V T ctn D pi2node pre (drivers ntk pre) p st ∧
    p.columns = 1 + openColumns ntk V ctn pre ∧ p.rows = openRows ntk V ctn pre

theorem openColumns_concat (ns : List ℕ) (n : ℕ) : openColumns ntk V ctn (ns ++ [n]) =
    openColumns ntk V ctn ns + columns ntk V ctn n := by
  rw [openColumns_append]
  exact congrArg _ List.sum_singleton

theorem openRows_concat (ns : List ℕ) (n : ℕ) : openRows ntk V ctn (ns ++ [n]) =
    openRows ntk V ctn ns + (rows ntk V ctn n + if ntk.isPi n then 1 else 0) := by
  rw [openRows_append]
  exact congrArg _ List.sum_singleton

theorem Fits.concat_le (hD : Fits V T ctn D) (hl : nodes ntk T = pre ++ n :: suf) :
    openColumns ntk V ctn (pre ++ [n]) ≤ D.x ∧ openRows ntk V ctn (pre ++ [n]) ≤ D.y + 1 := by
  have hl' : nodes ntk T = (pre ++ [n]) ++ suf := by rw [hl, List.append_assoc]; rfl
  rw [hD.x_eq, hD.y_eq, hl', openColumns_append (pre ++ [n]) suf, openRows_append (pre ++ [n]) suf]
  exact ⟨Nat.le_add_right _ _, Nat.le_add_right _ _⟩

/-- A node that has been placed gets an output if it drives one. -/
theorem Progress.finish (hz : D.z = 1) (hinj : InjectiveOn ntk.inputs pi2node) {p : Plan} {x y : ℕ}
    (h : Progress V T ctn D pi2node (pre ++ [n]) (drivers ntk pre) p st)
    (hc : isConstant n = false) (hfanout : ntk.isPo n = true → (V.fanouts n).length ≤ 1)
    (hpos : st.node2pos n = .at2 x y) (hport : p.eastPort y = some x)
    (hbehind : ∀ i, x < i → p.drawing i y = .blank) (hb : ntk.isPo n = true → p.columns ≤ D.x)
    (hsouth : ntk.isPo n = true → isEasternPoOrientationAvailable ntk V ctn n = false →
      p.southPort x = some y ∧ y + 1 = p.rows ∧ p.rows ≤ D.y) :
    ∃ p', Progress V T ctn D pi2node (pre ++ [n]) (drivers ntk (pre ++ [n])) p'
        (if ntk.isPo n then Orthogonal.placePo ntk V ctn st n else st) ∧
      p'.columns = p.columns +
        (if ntk.isPo n ∧ isEasternPoOrientationAvailable ntk V ctn n then 1 else 0) ∧
      p'.rows = p.rows +
        if ntk.isPo n ∧ ¬ isEasternPoOrientationAvailable ntk V ctn n then 1 else 0 := by
  have hdrivers : drivers ntk (pre ++ [n]) = drivers ntk pre ++ [n].filter (ntk.isPo ·) := by
    rw [drivers, List.filter_append, ← drivers]
    congr 1
    apply List.filter_congr
    intro m hm
    rw [List.mem_singleton.mp hm, hc]
    rfl
  rw [hdrivers]
  cases hpo : ntk.isPo n with
  | false =>
    refine ⟨p, ?_, ?_, ?_⟩
    · rw [List.filter_cons_of_neg (by rw [hpo]; exact Bool.false_ne_true), List.filter_nil,
        List.append_nil]
      exact h
    · simp
    · simp
  | true =>
    obtain ⟨p', hp', hx, hy⟩ := h.placePo hz hinj (by simp) hc (hfanout hpo) hpos hport hbehind
      (hb hpo) (hsouth hpo)
    rw [List.filter_cons_of_pos hpo, List.filter_nil]
    refine ⟨p', hp', ?_, ?_⟩
    · simpa only [true_and] using hx
    · rw [hy]
      cases isEasternPoOrientationAvailable ntk V ctn n <;> simp

theorem Underway.placeGate (hdraw : Drawable V T ctn) (hD : Fits V T ctn D)
    (hinj : InjectiveOn ntk.inputs pi2node) (hl : nodes ntk T = pre ++ n :: suf)
    (h : Underway V T ctn D pi2node pre st) (hn : n ∈ T.gates) :
    ∃ st', placeNode ntk V ctn eastFirst pi2node st n = some st' ∧
      Underway V T ctn D pi2node (pre ++ [n]) st' := by
  obtain ⟨p, hp, hx, hy⟩ := h.exists_plan
  have hc := isConstant_of_mem hn
  have hpi := hdraw.isPi_of_mem hn
  have hlt := hdraw.openColumns_gate hl hn
  rw [← hD.x_eq] at hlt
  have hrows : rows ntk V ctn n = (if ctn.color n = some .east then 0 else 1) +
      if ntk.isPo n ∧ ¬ isEasternPoOrientationAvailable ntk V ctn n then 1 else 0 := by
    simp only [rows, hc, hpi, Bool.false_eq_true, if_false, false_or]
  have hfits := (hD.concat_le hl).2
  rw [openRows_concat, hpi, if_neg Bool.false_ne_true] at hfits
  obtain ⟨st', p', x, y, hst', hp', hpos, hfronts, hlast, hx', hy'⟩ :=
    hp.placeGate eastFirst hdraw hD.z_eq hinj hl hn fun he => by
      rw [he, if_neg fun hsouth => Color.noConfusion (Option.some.inj hsouth)] at hlt
      omega
  obtain ⟨p'', hp'', hx'', hy''⟩ := hp'.finish hD.z_eq hinj hc (hdraw.output_fanout n hn) hpos
    hfronts.eastPort hfronts.behind (fun _ => by omega) (fun hpo heast => by
      -- an output in the south belongs to a gate in a new row
      have hsouth : ctn.color n = some .south := by
        obtain ⟨c, hcolor⟩ := Option.isSome_iff_exists.mp (hdraw.colored n hn)
        cases c with
        | south => exact hcolor
        | east =>
          have hfirst : firstFanoutIs ntk V ctn .east n = true := by
            simpa only [isEasternPoOrientationAvailable, Bool.not_eq_false'] using heast
          obtain ⟨m, hm⟩ : ∃ m, m ∈ V.fanouts n := by
            cases hf : V.fanouts n with
            | nil => rw [firstFanoutIs_eq_false hf] at hfirst; cases hfirst
            | cons m _ => exact ⟨m, List.mem_cons_self⟩
          have hm' := (firstFanoutIs_iff (hdraw.output_fanout n hn hpo) hm .east).mp hfirst
          exact absurd hm' (hdraw.output_color n hn hpo hcolor m hm)
      refine ⟨hfronts.southPort, hlast hsouth, ?_⟩
      have hone : (if ntk.isPo n ∧ ¬ isEasternPoOrientationAvailable ntk V ctn n then 1 else 0) = 1 :=
        if_pos ⟨hpo, by rw [heast]; exact Bool.false_ne_true⟩
      omega)
  refine ⟨_, ?_, ⟨p'', hp'', ?_, ?_⟩⟩
  · simp only [placeNode, hc, hpi, Bool.false_eq_true, if_false, hst', Option.map_some]
  · rw [hx'', hx', hx, openColumns_concat, hdraw.columns_gate hn]
    omega
  · rw [hy'', hy', hy, openRows_concat, hrows, hpi, if_neg Bool.false_ne_true]
    omega

theorem Underway.placePi (hdraw : Drawable V T ctn) (hD : Fits V T ctn D)
    (hinj : InjectiveOn ntk.inputs pi2node) (hl : nodes ntk T = pre ++ n :: suf)
    (h : Underway V T ctn D pi2node pre st) (hn : n ∈ ntk.inputs) :
    ∃ st', placeNode ntk V ctn eastFirst pi2node st n = some st' ∧
      Underway V T ctn D pi2node (pre ++ [n]) st' := by
  obtain ⟨p, hp, hx, hy⟩ := h.exists_plan
  have hc := hdraw.isConstant_of_input hn
  have hpi : ntk.isPi n = true := (isPi_eq hdraw).mpr hn
  have hinput := hdraw.input_fanout n hn
  have hfanout : (V.fanouts n).length ≤ 1 := by omega
  -- an input that drives an output has no fan-out
  have hnone : ntk.isPo n = true → V.fanouts n = [] := fun hpo => by
    rw [hpo, if_pos rfl] at hinput
    exact List.length_eq_zero_iff.mp (by omega)
  have heast : ntk.isPo n = true → isEasternPoOrientationAvailable ntk V ctn n = true :=
    fun hpo => by
      rw [isEasternPoOrientationAvailable, firstFanoutIs_eq_false (hnone hpo)]
      rfl
  have hcolumns : columns ntk V ctn n = (if firstFanoutIs ntk V ctn .south n then 1 else 0) +
      if ntk.isPo n ∧ isEasternPoOrientationAvailable ntk V ctn n then 1 else 0 := by
    simp only [columns, hc, hpi, Bool.false_eq_true, if_false, if_true, countP_south_eq hfanout]
  have hrows : rows ntk V ctn n =
      if ntk.isPo n ∧ ¬ isEasternPoOrientationAvailable ntk V ctn n then 1 else 0 := by
    simp only [rows, hc, hpi, Bool.false_eq_true, if_false, true_or, if_true, Nat.zero_add]
  have hfits := (hD.concat_le hl).1
  rw [openColumns_concat, hcolumns] at hfits
  obtain ⟨p', x, hp', hpos, hport, hbehind, hx', hy'⟩ := hp.placePi hdraw hD.z_eq hinj hl hn
    fun hfirst => by
      -- the fan-out is still to come, and so is the last gate
      have hl' : nodes ntk T = (pre ++ [n]) ++ suf := by rw [hl, List.append_assoc]; rfl
      obtain ⟨m, hm⟩ : ∃ m, m ∈ V.fanouts n := by
        cases hf : V.fanouts n with
        | nil => rw [firstFanoutIs_eq_false hf] at hfirst; cases hfirst
        | cons m _ => exact ⟨m, List.mem_cons_self⟩
      have hlt := hdraw.openColumns_lt hl' ⟨m, hdraw.mem_gates hm, hdraw.fanout_mem hl hm⟩
      rw [openColumns_concat, hcolumns, hfirst, if_pos rfl, ← hD.x_eq] at hlt
      omega
  obtain ⟨p'', hp'', hx'', hy''⟩ := hp'.finish hD.z_eq hinj hc (fun _ => hfanout) hpos hport hbehind
    (fun hpo => by
      have hone : (if ntk.isPo n ∧ isEasternPoOrientationAvailable ntk V ctn n then 1 else 0) = 1 :=
        if_pos ⟨hpo, heast hpo⟩
      omega)
    (fun hpo hsouth => Bool.noConfusion (hsouth.symm.trans (heast hpo)))
  refine ⟨_, ?_, ⟨p'', hp'', ?_, ?_⟩⟩
  · simp only [placeNode, hc, hpi, Bool.false_eq_true, if_false, if_true, Option.map_some]
  · rw [hx'', hx', hx, openColumns_concat, hcolumns]
    omega
  · rw [hy'', hy', hy, openRows_concat, hrows, hpi, if_pos rfl]
    omega

theorem Underway.skip (hdraw : Drawable V T ctn) (h : Underway V T ctn D pi2node pre st)
    (hc : isConstant n = true) :
    ∃ st', placeNode ntk V ctn eastFirst pi2node st n = some st' ∧
      Underway V T ctn D pi2node (pre ++ [n]) st' := by
  obtain ⟨p, hp, hx, hy⟩ := h.exists_plan
  have hin : n ∉ ntk.inputs := fun hmem =>
    Bool.noConfusion (hc.symm.trans (hdraw.isConstant_of_input hmem))
  have hgate : n ∉ T.gates := fun hmem => Bool.noConfusion (hc.symm.trans (isConstant_of_mem hmem))
  have hpi : ntk.isPi n = false := by
    rw [← Bool.not_eq_true, isPi_eq hdraw]
    exact hin
  have hdrivers : drivers ntk (pre ++ [n]) = drivers ntk pre := by
    rw [drivers, List.filter_append, List.filter_cons_of_neg (by simp [hc]), List.filter_nil,
      List.append_nil]
    rfl
  refine ⟨st, ?_, ⟨p, ⟨hp.depicts, ?_, ?_, ?_⟩, ?_, ?_⟩⟩
  · rw [placeNode, hc, if_pos rfl]
  · rw [hdrivers]
    exact hp.represents.skip hc hin hgate
  · intro m hm hmc n' hn' hnot c hc'
    apply hp.owns m _ hmc n' hn' (fun hmem => hnot (List.mem_append_left _ hmem)) c hc'
    apply (List.mem_append.mp hm).resolve_right
    intro he
    rw [List.mem_singleton.mp he, hc] at hmc
    cases hmc
  · rw [hdrivers]
    exact hp.terminated.skip hc hgate
  · rw [openColumns_concat, columns, hc, if_pos rfl]
    exact hx
  · rw [openRows_concat, rows, hc, if_pos rfl, hpi]
    exact hy

theorem Underway.placeNode (hdraw : Drawable V T ctn) (hD : Fits V T ctn D)
    (hinj : InjectiveOn ntk.inputs pi2node) (hl : nodes ntk T = pre ++ n :: suf)
    (h : Underway V T ctn D pi2node pre st) :
    ∃ st', Orthogonal.placeNode ntk V ctn eastFirst pi2node st n = some st' ∧
      Underway V T ctn D pi2node (pre ++ [n]) st' := by
  cases hc : isConstant n with
  | true => exact h.skip hdraw hc
  | false =>
    rcases List.mem_append.mp ((mem_nodes hc).mp (show n ∈ nodes ntk T by rw [hl]; simp)) with hn | hn
    · exact h.placePi hdraw hD hinj hl hn
    · exact h.placeGate hdraw hD hinj hl hn

/-- The layout has the computed size. -/
theorem Drawable.fits (hdraw : Drawable V T ctn) (clks : NumClks) (arrangement : Arrangement) :
    Fits V T ctn (clockedLayout ntk V T ctn clks arrangement) := by
  have hnum : ntk.numPis ≤ ntk.inputs.length := hdraw.numPis.le
  have hpis : ∀ n ∈ ntk.foreachPi, (V.fanouts n).length ≤ 1 := fun n hn => by
    have := hdraw.input_fanout n (List.mem_of_mem_take hn)
    omega
  have hdim := @determineLayoutSize_eq ntk V T ctn hdraw.inputs_nodup hdraw.two_le hnum
    hdraw.numPis_pos hpis hdraw.size
  have hrows := @openRows_eq ntk V ctn (nodes ntk T)
  rw [countP_isPi_nodes hdraw.inputs_nodup hdraw.two_le hnum] at hrows
  have hpos := hdraw.numPis_pos
  constructor
  case x_eq =>
    rw [CoordinateLayout.x, clockedLayout, hdim]
    rfl
  case y_eq =>
    rw [CoordinateLayout.y, clockedLayout, hdim]
    change openRows ntk V ctn (nodes ntk T) - 1 + 1 = _
    omega
  case z_eq =>
    rw [CoordinateLayout.z, clockedLayout, hdim]
    rfl

/-- The placement of a drawable network succeeds. -/
theorem Drawable.reserves (hdraw : Drawable V T ctn) (D : ClockedLayout) :
    Reserves ntk D (reserveInputNodes ntk (.empty D "")).1
      (reserveInputNodes ntk (.empty D "")).2 := by
  apply reserves_reserveInputNodes ntk D hdraw.inputs_nodup
  rw [foreachPi_eq_inputs hdraw.numPis, ← List.length_pos_iff, ← hdraw.numPis]
  exact hdraw.numPis_pos

theorem Drawable.injectiveOn_reserveInputNodes (hdraw : Drawable V T ctn) (D : ClockedLayout) :
    InjectiveOn ntk.inputs (reserveInputNodes ntk (.empty D "")).2 := by
  rw [← foreachPi_eq_inputs hdraw.numPis]
  exact (hdraw.reserves D).inj

theorem Drawable.exists_run (hdraw : Drawable V T ctn) (eastFirst : Bool) (clks : NumClks)
    (arrangement : Arrangement) :
    ∃ st, run ntk V T ctn eastFirst clks arrangement = some st ∧
      Underway V T ctn (clockedLayout ntk V T ctn clks arrangement)
        (reserveInputNodes ntk (.empty (clockedLayout ntk V T ctn clks arrangement) "")).2
        (nodes ntk T) st := by
  have hD := hdraw.fits clks arrangement
  have hreserves := hdraw.reserves (clockedLayout ntk V T ctn clks arrangement)
  have hinj := hdraw.injectiveOn_reserveInputNodes (clockedLayout ntk V T ctn clks arrangement)
  rw [run]
  apply exists_foldlM (fun pre n suf st hl hst => hst.placeNode hdraw hD hinj hl)
  refine ⟨Plan.blank, ⟨⟨hreserves.shown, .blank, rfl⟩, hreserves.represents hdraw.numPis, ?_, ?_⟩,
    rfl, rfl⟩
  · exact fun m hm => absurd hm List.not_mem_nil
  · intro t
    constructor
    · exact fun ht => absurd ht.1 List.not_mem_nil
    · rintro ⟨m, hm, -⟩
      exact absurd hm.mem List.not_mem_nil

end Loop

end Fiction.Orthogonal
