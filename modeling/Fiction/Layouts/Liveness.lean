import Fiction.Layouts.ReferenceCounts

/-!
# Liveness of nodes

Nodes are meant to be dead exactly when they have no tile. A run keeps it that way if it creates and
moves nodes onto live tiles only and if no reference counter wraps around into the dead flag.
-/

namespace Fiction.GateLevelLayout

section Queries

variable (lyt : GateLevelLayout)

/-- `is_gate`: neither a constant function nor a primary input. -/
def isGate (n : ℕ) : Bool :=
  (lyt.node n).function ≠ .const0 ∧ (lyt.node n).function ≠ .const1 ∧ lyt.isPi n = false

def foreachNode : List ℕ := (List.range lyt.size).filter fun n => !lyt.isDead n

def foreachGate : List ℕ :=
  (List.range' 2 (lyt.size - 2)).filter fun n => lyt.isGate n && !lyt.isDead n

def foreachWire : List ℕ :=
  (List.range' 2 (lyt.size - 2)).filter fun n => lyt.isWire n && !lyt.isDead n

end Queries

/-- Non-constant nodes are dead exactly when they are not placed, so the enumerations list exactly
the placed nodes in the order of their creation. -/
structure Live (lyt : GateLevelLayout) : Prop where
  dead_iff : ∀ n, 2 ≤ n → n < lyt.size → (lyt.isDead n = true ↔ lyt.isPlaced n = false)
  nodes : lyt.foreachNode.filter (!isConstant ·) =
    (List.range' 2 (lyt.size - 2)).filter lyt.isPlaced
  gates : lyt.foreachGate =
    (List.range' 2 (lyt.size - 2)).filter fun n => lyt.isGate n && lyt.isPlaced n
  wires : lyt.foreachWire =
    (List.range' 2 (lyt.size - 2)).filter fun n => lyt.isWire n && lyt.isPlaced n

/-- The calls that neither leave a living node without a tile nor wrap the counter of a node. -/
def KeepsLiveness (lyt : GateLevelLayout) : Op → Prop
  | .createPi _ t | .createRo _ t => t.isDead = false
  | .createPo s _ t | .createRi s _ t =>
    t.isDead = false ∧ (s ≠ t → 2 ≤ lyt.getNode s → lyt.refCount (lyt.getNode s) + 1 < 2 ^ 31)
  | .createNode children _ t =>
    children = [] ∨ t.isDead = false ∧ ∀ m < lyt.size, 2 ≤ m →
      lyt.refCount m + children.countP (lyt.getNode · = m) < 2 ^ 31
  | .moveNode n t newChildren =>
    (t.isDead = false ∨ t = lyt.getTile n) ∧ ∀ m < lyt.size, 2 ≤ m →
      (lyt.node n).children.countP (lyt.getNode · = m) ≤ lyt.refCount m ∧
        lyt.refCount m - (lyt.node n).children.countP (lyt.getNode · = m) +
          newChildren.countP (lyt.getNodeAfter n t · = m) < 2 ^ 31

def liveSystem (clocked : ClockedLayout) (name : String) : TransitionSystem GateLevelLayout Op where
  init := empty clocked name
  enabled lyt op := lyt.Defined op ∧ lyt.KeepsLiveness op
  step := apply

variable {lyt lyt' : GateLevelLayout}

theorem filter_range_isConstant (m : ℕ) :
    (List.range m).filter (!isConstant ·) = List.range' 2 (m - 2) := by
  induction m with
  | zero => rfl
  | succ m ih =>
    rw [List.range_succ, List.filter_append, ih]
    by_cases hm : m ≤ 1
    · obtain rfl | rfl : m = 0 ∨ m = 1 := by omega
      all_goals rfl
    · have he : m + 1 - 2 = (m - 2) + 1 := by omega
      rw [he, List.range'_1_concat, show 2 + (m - 2) = m by omega]
      simp [isConstant, hm]

theorem Live.of_dead_iff
    (h : ∀ n, 2 ≤ n → n < lyt.size → (lyt.isDead n = true ↔ lyt.isPlaced n = false)) :
    Live lyt := by
  have hdead : ∀ n ∈ List.range' 2 (lyt.size - 2), (!lyt.isDead n) = lyt.isPlaced n := by
    intro n hn
    rw [List.mem_range'_1] at hn
    have hiff := h n hn.1 (by omega)
    cases hp : lyt.isPlaced n <;> cases hd : lyt.isDead n <;> simp [hp, hd] at hiff ⊢
  refine ⟨h, ?_, ?_, ?_⟩
  · rw [foreachNode, List.filter_filter]
    have hcomm : ((List.range lyt.size).filter fun n => !isConstant n && !lyt.isDead n) =
        ((List.range lyt.size).filter (!isConstant ·)).filter fun n => !lyt.isDead n := by
      rw [List.filter_filter]
      exact List.filter_congr fun n _ => Bool.and_comm _ _
    rw [hcomm, filter_range_isConstant]
    exact List.filter_congr hdead
  · exact List.filter_congr fun n hn => by rw [hdead n hn]
  · exact List.filter_congr fun n hn => by rw [hdead n hn]

theorem isDeadAfter_iff {n : ℕ} {t : Tile} (ht : t.isDead = false) {m : ℕ}
    (h : m ≠ n → (lyt.isDead m = true ↔ lyt.isPlaced m = false)) :
    lyt.isDeadAfter n t m = true ↔ lyt.isPlacedAfter n t m = false := by
  unfold isDeadAfter isPlacedAfter
  split_ifs with hm
  · simp [ht]
  · cases hp : lyt.isPlaced m with
    | false => simp [(h hm).mpr hp]
    | true =>
      have hd : lyt.isDead m = false := Bool.eq_false_iff.mpr fun hd => by
        have := (h hm).mp hd
        simp [hp] at this
      simp [hd]

section Steps

variable {t : Tile}

theorem Live.create (hl : Live lyt) {cs : List Signal} {res : Signal → ℕ}
    (hs : CreateSpec lyt t cs res lyt') (ht : t.isDead = false)
    (hlt : ∀ m ≤ lyt.size, 2 ≤ m → lyt.refCount m + cs.countP (res · = m) < 2 ^ 31) :
    Live lyt' := by
  refine .of_dead_iff fun m h2 hm => ?_
  rw [hs.size] at hm
  have hle : m ≤ lyt.size := by omega
  rw [(hs.word m hle (hlt m hle h2)).2, hs.isPlaced]
  exact isDeadAfter_iff ht fun hne => hl.dead_iff m h2 (by omega)

theorem Live.createInput (hl : Live lyt) {res : Signal → ℕ} (hs : CreateSpec lyt t [] res lyt')
    (ht : t.isDead = false) : Live lyt' :=
  hl.create hs ht fun m _ _ => by simpa using @refCount_lt lyt m

theorem Live.createOutput (hl : Live lyt) {s : Signal}
    (hs : CreateSpec lyt t [s] (lyt.getNodeCreated t) lyt') (ht : t.isDead = false)
    (hlt : s ≠ t → 2 ≤ lyt.getNode s → lyt.refCount (lyt.getNode s) + 1 < 2 ^ 31) : Live lyt' := by
  refine hl.create hs ht fun m _ h2 => ?_
  have hm : lyt.refCount m < 2 ^ 31 := refCount_lt m
  rw [List.countP_cons, List.countP_nil, Nat.zero_add]
  by_cases hst : s = t
  · have hg : lyt.getNodeCreated t s = lyt.size := if_pos ⟨ht, hst⟩
    rw [hg]
    by_cases hsz : lyt.size = m
    · rw [← hsz, refCount_size]
      simp
    · simpa [hsz] using hm
  · have hg : lyt.getNodeCreated t s = lyt.getNode s := if_neg fun h => hst h.2
    rw [hg]
    by_cases he : lyt.getNode s = m
    · have hlt' := hlt hst (he ▸ h2)
      rw [he] at hlt'
      simpa [he] using hlt'
    · simpa [he] using hm

theorem apply_live (hl : Live lyt) (hi : MapsInv lyt) (op : Op) (hd : lyt.Defined op)
    (hk : lyt.KeepsLiveness op) : Live (lyt.apply op) := by
  cases op with
  | createPi name t => exact hl.createInput (createPi_spec hi name t) hk
  | createRo name t => exact hl.createInput (createRo_spec hi name t) hk
  | createPo s name t => exact hl.createOutput (createPo_spec hi s name t) hk.1 hk.2
  | createRi s name t => exact hl.createOutput (createRi_spec hi s name t) hk.1 hk.2
  | createNode children function t =>
    by_cases hc : children = []
    · rw [hc]
      exact hl
    · obtain ⟨ht, hlt⟩ := hk.resolve_left hc
      refine hl.create (createNode_spec hi hc function t) ht fun m hle h2 => ?_
      rcases Nat.lt_or_eq_of_le hle with h | h
      · exact hlt m h h2
      · -- no child resolves to the node that is about to be created
        have hz : children.countP (lyt.getNode · = m) = 0 := by
          rw [List.countP_eq_zero]
          intro s _
          simpa [h] using (hi.getNode_lt s).ne
        rw [hz, h, refCount_size]
        decide
  | moveNode n t newChildren =>
    have hs := moveNode_spec hi hd t newChildren
    refine .of_dead_iff fun m h2 hm => ?_
    change m < (lyt.moveNode n t newChildren).1.size at hm
    rw [hs.size] at hm
    obtain ⟨hle, hlt⟩ := hk.2 m hm h2
    change (lyt.moveNode n t newChildren).1.isDead m = true ↔
      (lyt.moveNode n t newChildren).1.isPlaced m = false
    rw [(hs.word m hm hle hlt).2, hs.isPlaced]
    split_ifs with ht
    · rw [hl.dead_iff m h2 hm, isPlacedAfter]
      split_ifs with hmn
      · rw [hmn, isPlaced, ht]
      · cases hp : lyt.isPlaced m with
        | false => simp
        | true => simp [ht, hi.getTile_ne hmn hp]
    · exact isDeadAfter_iff (hk.1.resolve_right ht) fun _ => hl.dead_iff m h2 hm

theorem empty_live (clocked : ClockedLayout) (name : String) : Live (empty clocked name) :=
  .of_dead_iff fun n h2 hn => absurd (show n < 2 from hn) (by omega)

/-- After any run that creates and moves nodes onto live tiles and wraps no counter, exactly the
placed nodes are alive, and the enumerations list them. -/
theorem live_of_keepsLiveness {clocked : ClockedLayout} {name : String} {ops : List Op}
    (h : (liveSystem clocked name).Legal ops) : Live ((system clocked name).run ops) :=
  ((liveSystem clocked name).invariant_run (I := fun l => Live l ∧ PlacementInv l)
    ⟨empty_live clocked name, empty_placementInv clocked name⟩
    (fun _ op hi ho => ⟨apply_live hi.1 hi.2.toMapsInv op ho.1 ho.2,
      apply_placementInv hi.2 op ho.1⟩) h).1

end Steps

section Examples

instance (lyt : GateLevelLayout) (op : Op) : Decidable (lyt.KeepsLiveness op) :=
  match op with
  | .createPi .. | .createRo .. => inferInstanceAs (Decidable (_ = _))
  | .createPo .. | .createRi .. => inferInstanceAs (Decidable (_ ∧ (_ → _ → _)))
  | .createNode .. => inferInstanceAs (Decidable (_ ∨ _ ∧ ∀ m < lyt.size, _))
  | .moveNode .. => inferInstanceAs (Decidable (_ ∧ ∀ m < lyt.size, _))

instance (clocked : ClockedLayout) (name : String) (lyt : GateLevelLayout) (op : Op) :
    Decidable ((liveSystem clocked name).enabled lyt op) :=
  inferInstanceAs (Decidable (lyt.Defined op ∧ lyt.KeepsLiveness op))

/-- An overwritten input is moved to a free tile and lives again. -/
theorem live_of_keepsLiveness_overwritten :
    Live ((system smallLayout "").run [.createPi "" (.at2 0 0), .createRo "" (.at2 0 0),
      .moveNode 2 (.at2 1 0) [], .createPo (.at2 1 0) "" (.at2 2 0)]) :=
  live_of_keepsLiveness (by decide)

/-- An input that is created on the default tile is alive and has no tile, and so is a node that is
moved there. -/
theorem unplaced_not_live :
    (system smallLayout "").Legal [.createPi "" default] ∧
      ¬ Live ((system smallLayout "").run [.createPi "" default]) ∧
      (system smallLayout "").Legal [.createPi "" (.at2 0 0), .moveNode 2 default []] ∧
      ¬ Live ((system smallLayout "").run [.createPi "" (.at2 0 0), .moveNode 2 default []]) :=
  ⟨by decide, fun h => absurd (h.dead_iff 2 le_rfl (by decide)) (by decide), by decide,
    fun h => absurd (h.dead_iff 2 le_rfl (by decide)) (by decide)⟩

end Examples

end Fiction.GateLevelLayout
