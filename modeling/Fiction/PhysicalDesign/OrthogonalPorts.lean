import Fiction.PhysicalDesign.OrthogonalOutputs

/-!
# Ports of placed nodes

A node that waits for fan-outs owns the port of its tile in the direction of their colour. The move
of a gate gives up the ports of its fan-ins in the direction of its own colour, and no others.
-/

namespace Fiction.Orthogonal

open GridDrawing TechnologyNetwork

/-- The port of `t` in direction `c` has not been used yet. -/
def Owns (p : Plan) (c : Color) (t : Tile) : Prop :=
  ∃ x y, t = .at2 x y ∧ match c with
    | .east => p.eastPort y = some x
    | .south => p.southPort x = some y

/-- Of the ports in use, at most those of `ts` in direction `c` are given up. -/
def Keeps (c : Color) (ts : List Tile) (p p' : Plan) : Prop :=
  ∀ c' t, Owns p c' t → (c' = c → t ∉ ts) → Owns p' c' t

/-- The move of a gate of colour `c` with fan-ins on `ts`, which is put in row `y`. -/
structure Opens (c : Color) (ts : List Tile) (y : ℕ) (p p' : Plan) : Prop where
  keeps : Keeps c ts p p'
  columns : p'.columns = p.columns + if c = .south then 0 else 1
  rows : p'.rows = p.rows + if c = .east then 0 else 1
  last : c = .south → y + 1 = p'.rows

section Moves

variable {border x y c r c₁ c₂ y₁ y₂ x₁ x₂ r₁ r₂ : ℕ} {p p' p'' : Plan} {ts ts' : List Tile}

theorem keeps_enter (h : p.Tidy border) (d : Color) : Keeps d [] p p.enter := by
  rintro c' t ⟨x, y, rfl, hown⟩ -
  cases c' with
  | east =>
    have hlt := (h.east y x hown).2.1
    exact ⟨x, y, rfl, (Function.update_of_ne hlt.ne ..).trans hown⟩
  | south => exact ⟨x, y, rfl, hown⟩

theorem keeps_reachEast (h : p.Tidy border) (hy : p.eastPort y = some c) :
    Keeps .east [.at2 c y] p (p.reachEast y c) := by
  rintro c' t ⟨x', y', rfl, hown⟩ hnot
  cases c' with
  | east =>
    have hne : y' ≠ y := by
      rintro rfl
      obtain rfl := Option.some.inj (hown.symm.trans hy)
      exact hnot rfl (List.mem_singleton_self _)
    exact ⟨x', y', rfl, (Function.update_of_ne hne ..).trans hown⟩
  | south =>
    have hlt := (h.south x' y' hown).1
    exact ⟨x', y', rfl, (Function.update_of_ne hlt.ne ..).trans hown⟩

theorem keeps_reachSouth (h : p.Tidy border) (hx : p.southPort x = some r) :
    Keeps .south [.at2 x r] p (p.reachSouth x r) := by
  rintro c' t ⟨x', y', rfl, hown⟩ hnot
  cases c' with
  | east =>
    have hlt := (h.east y' x' hown).2.1
    exact ⟨x', y', rfl, (Function.update_of_ne hlt.ne ..).trans hown⟩
  | south =>
    have hne : x' ≠ x := by
      rintro rfl
      obtain rfl := Option.some.inj (hown.symm.trans hx)
      exact hnot rfl (List.mem_singleton_self _)
    exact ⟨x', y', rfl, (Function.update_of_ne hne ..).trans hown⟩

theorem keeps_leave (border : ℕ) (hy : p.eastPort y = some c) :
    Keeps .east [.at2 c y] p (p.leave border y c) := by
  rintro c' t ⟨x', y', rfl, hown⟩ hnot
  cases c' with
  | east =>
    have hne : y' ≠ y := by
      rintro rfl
      obtain rfl := Option.some.inj (hown.symm.trans hy)
      exact hnot rfl (List.mem_singleton_self _)
    exact ⟨x', y', rfl, (Function.update_of_ne hne ..).trans hown⟩
  | south => exact ⟨x', y', rfl, hown⟩

theorem opens_reachEast (h : p.Tidy border) (hy : p.eastPort y = some c) :
    Opens .east [.at2 c y] y p (p.reachEast y c) :=
  ⟨keeps_reachEast h hy, rfl, rfl, fun he => Color.noConfusion he⟩

theorem opens_reachSouth (h : p.Tidy border) (hx : p.southPort x = some r) :
    Opens .south [.at2 x r] p.rows p (p.reachSouth x r) :=
  ⟨keeps_reachSouth h hx, rfl, rfl, fun _ => rfl⟩

theorem opens_joinEast (h : p.Tidy border) (h₁ : p.eastPort y₁ = some c₁)
    (h₂ : p.eastPort y₂ = some c₂) :
    Opens .east [.at2 c₁ y₁, .at2 c₂ y₂] y₂ p (joinEast p y₁ c₁ y₂ c₂) := by
  refine ⟨?_, rfl, rfl, fun he => Color.noConfusion he⟩
  rintro c' t ⟨x', y', rfl, hown⟩ hnot
  cases c' with
  | east =>
    have hne₁ : y' ≠ y₁ := by
      rintro rfl
      obtain rfl := Option.some.inj (hown.symm.trans h₁)
      exact hnot rfl List.mem_cons_self
    have hne₂ : y' ≠ y₂ := by
      rintro rfl
      obtain rfl := Option.some.inj (hown.symm.trans h₂)
      exact hnot rfl (List.mem_cons_of_mem _ (List.mem_singleton_self _))
    exact ⟨x', y', rfl,
      (Function.update_of_ne hne₂ ..).trans ((Function.update_of_ne hne₁ ..).trans hown)⟩
  | south =>
    have hlt := (h.south x' y' hown).1
    exact ⟨x', y', rfl,
      (Function.update_of_ne hlt.ne ..).trans ((Function.update_of_ne hlt.ne ..).trans hown)⟩

theorem opens_joinSouth (h : p.Tidy border) (h₁ : p.southPort x₁ = some r₁)
    (h₂ : p.southPort x₂ = some r₂) :
    Opens .south [.at2 x₁ r₁, .at2 x₂ r₂] p.rows p (joinSouth p x₁ r₁ x₂ r₂) := by
  refine ⟨?_, rfl, rfl, fun _ => rfl⟩
  rintro c' t ⟨x', y', rfl, hown⟩ hnot
  cases c' with
  | east =>
    have hlt := (h.east y' x' hown).2.1
    exact ⟨x', y', rfl,
      (Function.update_of_ne hlt.ne ..).trans ((Function.update_of_ne hlt.ne ..).trans hown)⟩
  | south =>
    have hne₁ : x' ≠ x₁ := by
      rintro rfl
      obtain rfl := Option.some.inj (hown.symm.trans h₁)
      exact hnot rfl List.mem_cons_self
    have hne₂ : x' ≠ x₂ := by
      rintro rfl
      obtain rfl := Option.some.inj (hown.symm.trans h₂)
      exact hnot rfl (List.mem_cons_of_mem _ (List.mem_singleton_self _))
    exact ⟨x', y', rfl,
      (Function.update_of_ne hne₁ ..).trans ((Function.update_of_ne hne₂ ..).trans hown)⟩

end Moves

/-- An inverter or a buffer, or a gate with two fan-ins that may be exchanged. Only a majority also
reads a constant. -/
inductive Supported (ntk : TechnologyNetwork) (n : ℕ) : Prop
  | unary {m : ℕ} (children : (ntk.node n).children = [m]) (hm : isConstant m = false)
    (function : ntk.isInv n = true ∨ ntk.isBuf n = true) : Supported ntk n
  | binary {a b : ℕ} (children : (ntk.node n).children = [a, b]) (ha : isConstant a = false)
    (hb : isConstant b = false) (hab : a ≠ b) (function : ntk.isMaj n = false)
    (symm : ∀ u v, (ntk.node n).function.eval [u, v] = (ntk.node n).function.eval [v, u]) :
    Supported ntk n
  | maj {k a b : ℕ} (children : (ntk.node n).children = [k, a, b] ∨
      (ntk.node n).children = [a, k, b] ∨ (ntk.node n).children = [a, b, k])
    (hk : isConstant k = true) (ha : isConstant a = false) (hb : isConstant b = false)
    (hab : a ≠ b) (function : ntk.isMaj n = true) : Supported ntk n

/-- The value of a node, given the values on the tiles. -/
def nodeValue (node2pos : ℕ → Tile) (val : Tile → Bool) (n : ℕ) : Bool :=
  if isConstant n then n = 1 else val (node2pos n)

section Gates

variable {D : ClockedLayout} {p : Plan} {st : PlacementState} {ntk : TechnologyNetwork}
  {ctn : ColoringContainer} {n a b m : ℕ} {c : Color}

theorem Depicts.placeSingle (hz : D.z = 1) (h : Depicts D p st) (hcolor : ctn.color n = some c)
    (hn : ntk.isInv n = true ∨ ntk.isBuf n = true) (hused : st.node2pos m ∈ st.canvas.used)
    (hown : Owns p c (st.node2pos m)) (hb : c = .east → p.columns < D.x) :
    ∃ st' p' x y, placeUnary ntk ctn st n m = some st' ∧
      GatePlaced D p' st n x y (ntk.node n).function [st.node2pos m] st' ∧
      Opens c [st.node2pos m] y p p' := by
  obtain ⟨x, y, hm, hport⟩ := hown
  rw [hm] at hused ⊢
  cases c with
  | east =>
    obtain ⟨st', hst', hplaced⟩ := h.placeUnary_east hz hm hused hport (hb rfl) hcolor hn
    exact ⟨st', _, _, _, hst', hplaced, opens_reachEast h.tidy hport⟩
  | south =>
    obtain ⟨st', hst', hplaced⟩ := h.placeUnary_south hz hm hused hport hcolor hn
    exact ⟨st', _, _, _, hst', hplaced, opens_reachSouth h.tidy hport⟩

theorem Opens.swap {y : ℕ} {s t : Tile} {p' : Plan} (h : Opens c [s, t] y p p') :
    Opens c [t, s] y p p' where
  keeps c' u hown hnot := h.keeps c' u hown fun hc hmem => hnot hc (by
    simp only [List.mem_cons, List.not_mem_nil, or_false] at hmem ⊢
    exact hmem.symm)
  columns := h.columns
  rows := h.rows
  last := h.last

/-- Both predecessors own a port in the direction of the gate, and the gate does not depend on
which of them comes first. -/
theorem Depicts.placePair (eastFirst : Bool) (fc : FaninContainer) (hz : D.z = 1)
    (h : Depicts D p st) (hcolor : ctn.color n = some c)
    (hfc : fc.faninNodes = [a, b]) (hmaj : ntk.isMaj n = fc.constantFanin.isSome)
    (hn : ntk.isFunction n = true)
    (hsymm : ∀ u v, (placedFunction ntk n fc.constantFanin).eval [u, v] =
      (placedFunction ntk n fc.constantFanin).eval [v, u]) (hne : st.node2pos a ≠ st.node2pos b)
    (hused_a : st.node2pos a ∈ st.canvas.used) (hown_a : Owns p c (st.node2pos a))
    (hused_b : st.node2pos b ∈ st.canvas.used) (hown_b : Owns p c (st.node2pos b))
    (hb : c = .east → p.columns < D.x) :
    ∃ st' p' x y ss, placeBinaryGate ntk ctn eastFirst st n fc = some st' ∧
      GatePlaced D p' st n x y (placedFunction ntk n fc.constantFanin) ss st' ∧
      Opens c [st.node2pos a, st.node2pos b] y p p' ∧
      (ss = [st.node2pos a, st.node2pos b] ∨ ss = [st.node2pos b, st.node2pos a]) := by
  obtain ⟨xa, ya, ha, hport_a⟩ := hown_a
  obtain ⟨xb, yb, hb', hport_b⟩ := hown_b
  rw [ha] at hused_a hne ⊢
  rw [hb'] at hused_b hne ⊢
  cases c with
  | east =>
    rcases Nat.lt_trichotomy ya yb with hlt | rfl | hlt
    · obtain ⟨st', hst', hplaced⟩ := h.placeBinaryGate_east eastFirst hz (.inl hfc)
        ha hused_a hb' hused_b hport_a hport_b hlt (hb rfl) hcolor hmaj hn
        hsymm
      exact ⟨st', _, _, _, _, hst', hplaced, opens_joinEast h.tidy hport_a hport_b, .inl rfl⟩
    · obtain rfl := Option.some.inj (hport_a.symm.trans hport_b)
      exact absurd rfl hne
    · obtain ⟨st', hst', hplaced⟩ := h.placeBinaryGate_east eastFirst hz (.inr hfc)
        hb' hused_b ha hused_a hport_b hport_a hlt (hb rfl) hcolor hmaj hn
        hsymm
      exact ⟨st', _, _, _, _, hst', hplaced, (opens_joinEast h.tidy hport_b hport_a).swap, .inr rfl⟩
  | south =>
    rcases Nat.lt_trichotomy xa xb with hlt | rfl | hlt
    · obtain ⟨st', hst', hplaced⟩ := h.placeBinaryGate_south eastFirst hz (.inr hfc)
        hb' hused_b ha hused_a hport_b hport_a hlt hcolor hmaj hn
        hsymm
      exact ⟨st', _, _, _, _, hst', hplaced, (opens_joinSouth h.tidy hport_b hport_a).swap, .inr rfl⟩
    · obtain rfl := Option.some.inj (hport_a.symm.trans hport_b)
      exact absurd rfl hne
    · obtain ⟨st', hst', hplaced⟩ := h.placeBinaryGate_south eastFirst hz (.inl hfc)
        ha hused_a hb' hused_b hport_a hport_b hlt hcolor hmaj hn
        hsymm
      exact ⟨st', _, _, _, _, hst', hplaced, opens_joinSouth h.tidy hport_a hport_b, .inl rfl⟩

theorem nodeValue_of_not_constant {node2pos : ℕ → Tile} {val : Tile → Bool}
    (hn : isConstant n = false) : nodeValue node2pos val n = val (node2pos n) := by
  rw [nodeValue, hn, if_neg Bool.false_ne_true]

theorem fanins_eq {k : List ℕ} {v : Option Bool} (hci : ntk.isCi n = false)
    (hcount : (ntk.node n).children.countP (isConstant ·) ≤ 1)
    (hfilter : (ntk.node n).children.filter (!isConstant ·) = k)
    (hfind : ((ntk.node n).children.find? (isConstant ·)).map (fun k => decide (k ≠ 0)) = v) :
    fanins ntk n = some ⟨k, v⟩ := by
  rw [fanins]
  simp only [hci, Bool.false_eq_true, if_false, if_pos hcount]
  rw [hfilter]
  exact congrArg (fun v => some (FaninContainer.mk k v)) hfind

/-- A majority with a constant is a conjunction or a disjunction. -/
theorem eval_placedFunction_maj {k : ℕ} (hk : isConstant k = true) (hmaj : ntk.isMaj n = true)
    (u v : Bool) :
    (placedFunction ntk n (some (decide (k ≠ 0)))).eval [u, v] =
        TruthTable.maj.eval [decide (k = 1), u, v] ∧
      (placedFunction ntk n (some (decide (k ≠ 0)))).eval [u, v] =
        TruthTable.maj.eval [u, decide (k = 1), v] ∧
      (placedFunction ntk n (some (decide (k ≠ 0)))).eval [u, v] =
        TruthTable.maj.eval [u, v, decide (k = 1)] := by
  rw [placedFunction, if_pos hmaj]
  have hle : k ≤ 1 := of_decide_eq_true hk
  obtain rfl | rfl : k = 0 ∨ k = 1 := by omega
  · revert u v
    decide
  · revert u v
    decide

/-- A gate is placed where the ports of its fan-ins lead. It reads all of them, and computes what it
computes in the network. -/
theorem Depicts.placeGate (eastFirst : Bool) (hz : D.z = 1) (h : Depicts D p st)
    (hsource : ¬ ntk.IsSource n)
    (hsupported : Supported ntk n) (hcolor : ctn.color n = some c)
    (hfanins : ∀ m ∈ (ntk.node n).children, isConstant m = false →
      st.node2pos m ∈ st.canvas.used ∧ Owns p c (st.node2pos m))
    (hinj : ∀ m ∈ (ntk.node n).children, ∀ m' ∈ (ntk.node n).children, isConstant m = false →
      isConstant m' = false → st.node2pos m = st.node2pos m' → m = m')
    (hb : c = .east → p.columns < D.x) :
    ∃ st' p' x y f ss, Orthogonal.placeGate ntk ctn eastFirst st n = some st' ∧
      GatePlaced D p' st n x y f ss st' ∧
      Opens c (((ntk.node n).children.filter (!isConstant ·)).map st.node2pos) y p p' ∧
      (∀ s, s ∈ ss ↔ s ∈ ((ntk.node n).children.filter (!isConstant ·)).map st.node2pos) ∧
      ∀ val, f.eval (ss.map val) =
        (ntk.node n).function.eval ((ntk.node n).children.map (nodeValue st.node2pos val)) := by
  have hci : ntk.isCi n = false := by
    rw [isCi, List.contains_eq_mem, decide_eq_false_iff_not]
    exact fun hin => hsource (.inr hin)
  have hfunction : ntk.isFunction n = true := by
    have hlt : 1 < n := not_le.mp fun hle => hsource (.inl hle)
    simp [isFunction, hci, hlt]
  cases hsupported with
  | @unary m hchildren hm hfn =>
    have hmem : m ∈ (ntk.node n).children := by rw [hchildren]; exact List.mem_singleton_self m
    obtain ⟨hused, hown⟩ := hfanins m hmem hm
    have hfc : fanins ntk n = some ⟨[m], none⟩ := by
      apply fanins_eq hci <;> simp [hchildren, hm]
    have hfilter : (ntk.node n).children.filter (!isConstant ·) = [m] := by simp [hchildren, hm]
    obtain ⟨st', p', x, y, hst', hplaced, hopens⟩ := h.placeSingle hz hcolor hfn hused hown hb
    rw [hfilter]
    refine ⟨st', p', x, y, _, _, ?_, hplaced, hopens, fun s => Iff.rfl, fun val => ?_⟩
    · rw [Orthogonal.placeGate, hfc]
      exact hst'
    · rw [hchildren, List.map_singleton, List.map_singleton, nodeValue_of_not_constant hm]
  | @binary a b hchildren ha hb' hab hmaj hsymm =>
    have hmem_a : a ∈ (ntk.node n).children := by simp [hchildren]
    have hmem_b : b ∈ (ntk.node n).children := by simp [hchildren]
    obtain ⟨hused_a, hown_a⟩ := hfanins a hmem_a ha
    obtain ⟨hused_b, hown_b⟩ := hfanins b hmem_b hb'
    have hfc : fanins ntk n = some ⟨[a, b], none⟩ := by
      apply fanins_eq hci <;> simp [hchildren, ha, hb']
    have hfilter : (ntk.node n).children.filter (!isConstant ·) = [a, b] := by
      simp [hchildren, ha, hb']
    have hne : st.node2pos a ≠ st.node2pos b := fun he =>
      hab (hinj a hmem_a b hmem_b ha hb' he)
    have hplacedFunction : placedFunction ntk n none = (ntk.node n).function := by
      rw [placedFunction, hmaj, if_neg Bool.false_ne_true]
    have hsymm' : ∀ u v, (placedFunction ntk n none).eval [u, v] =
        (placedFunction ntk n none).eval [v, u] := by
      rw [hplacedFunction]
      exact hsymm
    obtain ⟨st', p', x, y, ss, hst', hplaced, hopens, hss⟩ := h.placePair eastFirst ⟨[a, b], none⟩ hz
      hcolor rfl hmaj hfunction hsymm' hne hused_a hown_a hused_b hown_b hb
    rw [hfilter]
    refine ⟨st', p', x, y, _, ss, ?_, hplaced, hopens, fun s => ?_, fun val => ?_⟩
    · rw [Orthogonal.placeGate, hfc]
      exact hst'
    · rcases hss with rfl | rfl
      · rfl
      · simp [or_comm]
    · rw [hchildren, hplacedFunction]
      simp only [List.map_cons, List.map_nil, nodeValue_of_not_constant ha,
        nodeValue_of_not_constant hb']
      rcases hss with rfl | rfl
      · rfl
      · exact hsymm _ _
  | @maj k a b hchildren hk ha hb' hab hmaj =>
    have hmem_a : a ∈ (ntk.node n).children := by
      rcases hchildren with hl | hl | hl <;> simp [hl]
    have hmem_b : b ∈ (ntk.node n).children := by
      rcases hchildren with hl | hl | hl <;> simp [hl]
    obtain ⟨hused_a, hown_a⟩ := hfanins a hmem_a ha
    obtain ⟨hused_b, hown_b⟩ := hfanins b hmem_b hb'
    have hfilter : (ntk.node n).children.filter (!isConstant ·) = [a, b] := by
      rcases hchildren with hl | hl | hl <;> simp [hl, hk, ha, hb']
    have hfc : fanins ntk n = some ⟨[a, b], some (decide (k ≠ 0))⟩ := by
      apply fanins_eq hci _ hfilter
      · rcases hchildren with hl | hl | hl <;> simp [hl, hk, ha, hb']
      · rcases hchildren with hl | hl | hl <;> simp [hl, hk, ha, hb']
    have hne : st.node2pos a ≠ st.node2pos b := fun he =>
      hab (hinj a hmem_a b hmem_b ha hb' he)
    have hsymm : ∀ u v, (placedFunction ntk n (some (decide (k ≠ 0)))).eval [u, v] =
        (placedFunction ntk n (some (decide (k ≠ 0)))).eval [v, u] := by
      rw [placedFunction, if_pos hmaj]
      split_ifs <;> decide
    obtain ⟨st', p', x, y, ss, hst', hplaced, hopens, hss⟩ := h.placePair eastFirst
      ⟨[a, b], some (decide (k ≠ 0))⟩ hz hcolor rfl hmaj hfunction hsymm hne hused_a hown_a
      hused_b hown_b hb
    have hf : (ntk.node n).function = .maj := of_decide_eq_true hmaj
    have hconst : ∀ val, nodeValue st.node2pos val k = decide (k = 1) := fun val => by
      rw [nodeValue, if_pos hk]
    rw [hfilter]
    refine ⟨st', p', x, y, _, ss, ?_, hplaced, hopens, fun s => ?_, fun val => ?_⟩
    · rw [Orthogonal.placeGate, hfc]
      exact hst'
    · rcases hss with rfl | rfl
      · rfl
      · simp [or_comm]
    · have heval : (placedFunction ntk n (some (decide (k ≠ 0)))).eval (ss.map val) =
          (placedFunction ntk n (some (decide (k ≠ 0)))).eval
            [val (st.node2pos a), val (st.node2pos b)] := by
        rcases hss with rfl | rfl
        · rfl
        · exact hsymm _ _
      obtain ⟨h₁, h₂, h₃⟩ :=
        eval_placedFunction_maj hk hmaj (val (st.node2pos a)) (val (st.node2pos b))
      rw [heval, hf]
      rcases hchildren with hl | hl | hl
      · simpa only [hl, List.map_cons, List.map_nil, hconst, nodeValue_of_not_constant ha,
          nodeValue_of_not_constant hb'] using h₁
      · simpa only [hl, List.map_cons, List.map_nil, hconst, nodeValue_of_not_constant ha,
          nodeValue_of_not_constant hb'] using h₂
      · simpa only [hl, List.map_cons, List.map_nil, hconst, nodeValue_of_not_constant ha,
          nodeValue_of_not_constant hb'] using h₃

end Gates

end Fiction.Orthogonal
