import Fiction.PhysicalDesign.OrthogonalPorts
import Fiction.PhysicalDesign.OrthogonalSize

/-!
# Reserved inputs

The inputs are created before any tile is assigned to them. All of them are created on one tile, so
each one drives out the one before, and the last one is taken away at the end. The layout is empty
then, and has a node of its own for each input.
-/

namespace Fiction.Orthogonal

open GridDrawing GateLevelLayout TechnologyNetwork

/-- The inputs `done` have been created, the last of them being on the shared tile. -/
structure Reserving (D : ClockedLayout) (done : List ℕ) (lyt : GateLevelLayout)
    (piMap : ℕ → ℕ) : Prop where
  clocked : lyt.clocked = D
  placement : PlacementInv lyt
  getNode : ∀ s, s.isDead = false → s ≠ .at2 0 0 → lyt.getNode s = 0
  shared : lyt.getNode (.at2 0 0) = 0 ∧ done = [] ∨
    2 ≤ lyt.getNode (.at2 0 0) ∧ lyt.getNode (.at2 0 0) < lyt.size
  exists_node : ∀ n ∈ done, 2 ≤ piMap n ∧ piMap n < lyt.size
  inj : ∀ n ∈ done, ∀ m ∈ done, piMap n = piMap m → n = m
  nodes : ∀ k, 2 ≤ k → k < lyt.size → ∃ n ∈ done, piMap n = k
  function : ∀ k, 2 ≤ k → k < lyt.size → (lyt.node k).function = .identity
  childless : ∀ k < lyt.size, (lyt.node k).children = []
  counted : ∀ k < lyt.size, lyt.refCount k = 0
  inputs : lyt.inputs = done.map piMap
  numPis : lyt.numPis = done.length
  outputs : lyt.outputs = []
  numPos : lyt.numPos = 0

/-- The nodes of the inputs have been created and none of them has a tile. -/
structure Reserves (ntk : TechnologyNetwork) (D : ClockedLayout) (lyt : GateLevelLayout)
    (pi2node : ℕ → ℕ) : Prop where
  shown : Shows D Plan.blank.drawing ⟨lyt, []⟩
  reserved : ∀ n ∈ ntk.foreachPi, Reserved ⟨lyt, []⟩ (pi2node n)
  inj : ∀ n ∈ ntk.foreachPi, ∀ m ∈ ntk.foreachPi, pi2node n = pi2node m → n = m
  nodes : ∀ k, 2 ≤ k → k < lyt.size → ∃ n ∈ ntk.foreachPi, pi2node n = k
  inputs : lyt.foreachPi = ntk.foreachPi.map pi2node

section Reservation

variable {ntk : TechnologyNetwork} {D : ClockedLayout} {done : List ℕ}
  {lyt : GateLevelLayout} {piMap : ℕ → ℕ}

theorem Reserving.createPi (h : Reserving D done lyt piMap) {n : ℕ} (hn : n ∉ done) (name : String) :
    Reserving D (done ++ [n]) (lyt.createPi name (.at2 0 0)).1
      (Function.update piMap n ((lyt.createPi name (.at2 0 0)).1.getNode (.at2 0 0))) := by
  have hspec := createPi_spec h.placement.toMapsInv name (.at2 0 0)
  have hio := @createPi_sameIo lyt name (.at2 0 0)
  have hnode : (lyt.createPi name (.at2 0 0)).1.getNode (.at2 0 0) = lyt.size := by
    rw [hspec.getNode, getNodeCreated, if_pos ⟨rfl, rfl⟩]
  have hsize := h.placement.two_le_size
  have hold : ∀ m ∈ done, Function.update piMap n lyt.size m = piMap m := fun m hm =>
    Function.update_of_ne (by rintro rfl; exact hn hm) ..
  rw [hnode]
  constructor
  case clocked => exact (createPi_createdAt name _).clocked.trans h.clocked
  case placement => exact (createPi_createdAt name _).placementInv h.placement
  case getNode =>
    intro s hlive hs
    rw [hspec.getNode, getNodeCreated, if_neg fun he => hs he.2]
    exact h.getNode s hlive hs
  case shared =>
    right
    rw [hnode, hspec.size]
    omega
  case exists_node =>
    intro m hm
    rw [hspec.size]
    rcases List.mem_append.mp hm with hm | hm
    · rw [hold m hm]
      have := h.exists_node m hm
      omega
    · rw [List.mem_singleton.mp hm, Function.update_self]
      omega
  case inj =>
    intro i hi j hj he
    rcases List.mem_append.mp hi with hi | hi <;> rcases List.mem_append.mp hj with hj | hj
    · rw [hold i hi, hold j hj] at he
      exact h.inj i hi j hj he
    · rw [hold i hi, List.mem_singleton.mp hj, Function.update_self] at he
      have := h.exists_node i hi
      omega
    · rw [hold j hj, List.mem_singleton.mp hi, Function.update_self] at he
      have := h.exists_node j hj
      omega
    · rw [List.mem_singleton.mp hi, List.mem_singleton.mp hj]
  case nodes =>
    intro k hk hlt
    rw [hspec.size] at hlt
    rcases Nat.lt_succ_iff_lt_or_eq.mp hlt with hlt | rfl
    · obtain ⟨m, hm, he⟩ := h.nodes k hk hlt
      exact ⟨m, List.mem_append_left _ hm, (hold m hm).trans he⟩
    · exact ⟨n, List.mem_append_right _ (List.mem_singleton_self n), Function.update_self ..⟩
  case function =>
    intro k hk hlt
    rw [hspec.size] at hlt
    rw [function_createPi]
    split_ifs with he
    · rfl
    · exact h.function k hk (by omega)
  case childless =>
    intro k hlt
    rw [hspec.size] at hlt
    rw [hspec.children k (Nat.le_of_lt_succ hlt)]
    split_ifs with he
    · rfl
    · exact h.childless k (by omega)
  case counted =>
    intro k hlt
    rw [hspec.size] at hlt
    have hzero : lyt.refCount k = 0 := by
      rcases Nat.lt_succ_iff_lt_or_eq.mp hlt with hlt | rfl
      · exact h.counted k hlt
      · exact refCount_size
    have hword := hspec.word k (Nat.le_of_lt_succ hlt)
    rw [hzero, List.countP_nil] at hword
    exact (hword (by decide)).1
  case inputs =>
    rw [hio.inputs, h.inputs, List.map_append, List.map_singleton, Function.update_self]
    exact congrArg (· ++ [lyt.size]) (List.map_congr_left fun m hm => (hold m hm).symm)
  case numPis => rw [hio.numPis, h.numPis, List.length_append, List.length_singleton]
  case outputs => exact hio.outputs.trans h.outputs
  case numPos => exact hio.numPos.trans h.numPos

theorem Reserving.foldl (pis : List ℕ) (h : Reserving D done lyt piMap)
    (hnodup : (done ++ pis).Nodup) (name : ℕ → String) :
    let p := pis.foldl (fun p pi =>
      let (lyt, s) := p.1.createPi (name pi) (.at2 0 0)
      (lyt, Function.update p.2 pi (lyt.getNode s))) (lyt, piMap)
    Reserving D (done ++ pis) p.1 p.2 := by
  induction pis generalizing done lyt piMap with
  | nil => rwa [List.append_nil]
  | cons n pis ih =>
    have hn : n ∉ done := fun hmem =>
      (List.nodup_append.mp hnodup).2.2 n hmem n List.mem_cons_self rfl
    rw [List.append_cons] at hnodup ⊢
    exact ih (h.createPi hn (name n)) hnodup

/-- The last input is taken away from the shared tile. -/
theorem Reserving.reserves (h : Reserving D ntk.foreachPi lyt piMap) (hpos : ntk.foreachPi ≠ []) :
    Reserves ntk D (lyt.moveNode (lyt.getNode (.at2 0 0)) default []).1 piMap := by
  obtain hn := h.shared.resolve_left fun hnone => hpos hnone.2
  set n := lyt.getNode (.at2 0 0) with hn'
  have hspec := moveNode_spec h.placement.toMapsInv hn default []
  have htile : lyt.getTile n = .at2 0 0 := by
    apply getTile_eq_of_map
    apply h.placement.tile_of_node _ _ rfl
    apply tileNodeMap_getNode
    rw [isEmptyTile, decide_eq_false_iff_not]
    omega
  have hempty : ∀ s, s.isDead = false → (lyt.moveNode n default []).1.getNode s = 0 := by
    intro s hlive
    have hne : default ≠ lyt.getTile n := by
      rw [htile]
      exact fun he => Bool.noConfusion (congrArg Ucoord.isDead he)
    have hdead : (default : Tile).isDead = true := rfl
    rw [hspec.getNode, getNodeAfter, if_neg hne,
      if_neg fun he => Bool.noConfusion (hdead.symm.trans he.1), htile]
    split_ifs with hs
    · rfl
    · exact h.getNode s hlive hs
  have helement : ∀ t, (lyt.moveNode n default []).1.element t = none := by
    intro t
    cases ht : t.isDead with
    | true => exact element_dead ht
    | false => exact element_of_empty (decide_eq_true (hempty t ht))
  obtain ⟨l, hl, hmoved⟩ := Tracked.moveNode_sameIo lyt n default []
  have houtputs : (lyt.moveNode n default []).1.outputs = [] := by
    rw [Tracked.moveNode_outputs, h.outputs, if_pos Ucoord.isDead_default]
    rfl
  constructor
  case shown =>
    constructor
    case clocked => exact (moveNode_clocked n default []).trans h.clocked
    case placement => exact moveNode_placementInv h.placement hn default []
    case nodup => exact List.nodup_nil
    case mem_used =>
      intro t
      constructor
      · intro ht
        cases ht
      · rintro ⟨-, ⟨-, hne⟩ | ⟨-, hcrossing⟩⟩
        · exact absurd rfl hne
        · cases hcrossing
    case element =>
      intro t
      rw [helement t]
      constructor
      · intro he
        cases he
      · intro ht
        cases ht
    case wire =>
      intro t ht
      cases ht
    case precedes =>
      intro t cs f he
      rw [helement t] at he
      cases he
    case commutes =>
      intro t cs f he
      rw [helement t] at he
      cases he
    case sorted => trivial
    case alive =>
      intro t ht
      cases ht
    case counted =>
      intro k hlt
      change (lyt.moveNode n default []).1.refCount k = 0
      change k < (lyt.moveNode n default []).1.size at hlt
      rw [hspec.size] at hlt
      have hword := hspec.word k hlt
      rw [h.childless n hn.2, h.counted k hlt, List.countP_nil, List.countP_nil] at hword
      exact (hword le_rfl (by decide)).1
    case numPos => rw [Tracked.moveNode_numPos, houtputs, h.numPos]; rfl
    case outputs =>
      intro o ho
      rw [houtputs] at ho
      cases ho
    case numPis =>
      change (lyt.moveNode n default []).1.numPis = (lyt.moveNode n default []).1.inputs.length
      rw [hmoved]
      change l.numPis = l.inputs.length
      rw [hl.inputs, hl.numPis, h.inputs, h.numPis, List.length_map]
    case border =>
      intro o ho
      rw [houtputs] at ho
      cases ho
    case constants =>
      intro k hk
      have hlt : k < lyt.size := by
        have := h.placement.two_le_size
        omega
      change ((lyt.moveNode n default []).1.node k).children = []
      rw [hspec.children k hlt]
      split_ifs
      · rfl
      · exact h.childless k hlt
  case reserved =>
    intro m hm
    have hlt := h.exists_node m hm
    constructor
    case exists_node =>
      rw [hspec.size]
      exact hlt
    case unplaced =>
      intro t ht
      cases ht
    case function =>
      rw [function_moveNode]
      exact h.function _ hlt.1 hlt.2
    case children =>
      change ((lyt.moveNode n default []).1.node (piMap m)).children = []
      rw [hspec.children _ hlt.2]
      split_ifs
      · rfl
      · exact h.childless _ hlt.2
  case inj => exact h.inj
  case nodes =>
    intro k hk hlt
    rw [hspec.size] at hlt
    exact h.nodes k hk hlt
  case inputs =>
    rw [GateLevelLayout.foreachPi, hmoved]
    change l.inputs.take l.numPis = _
    rw [hl.inputs, hl.numPis, h.inputs, h.numPis, ← List.length_map (f := piMap), List.take_length]

theorem reserves_reserveInputNodes (ntk : TechnologyNetwork) (D : ClockedLayout)
    (hnodup : ntk.inputs.Nodup) (hpos : ntk.foreachPi ≠ []) :
    Reserves ntk D (reserveInputNodes ntk (.empty D "")).1
      (reserveInputNodes ntk (.empty D "")).2 := by
  have hnodup' : ntk.foreachPi.Nodup := hnodup.sublist (List.take_sublist _ _)
  have hstart : Reserving D [] (.empty D "") fun _ => 0 := by
    constructor
    case clocked => rfl
    case placement => exact empty_placementInv D ""
    case getNode =>
      intro s hlive _
      have hconst : ∀ t : Tile, t.isDead = true → s ≠ t := by
        rintro t ht rfl
        exact Bool.noConfusion (ht.symm.trans hlive)
      change (if s = const0 then some 0 else if s = const1 then some 1 else none).getD 0 = 0
      rw [if_neg (hconst const0 rfl), if_neg (hconst const1 rfl)]
      rfl
    case shared => exact .inl ⟨rfl, rfl⟩
    case exists_node => exact fun n hn => absurd hn List.not_mem_nil
    case inj => exact fun n hn => absurd hn List.not_mem_nil
    case function =>
      intro k hk hlt
      exact absurd hlt (not_lt.mpr hk)
    case nodes =>
      intro k hk hlt
      exact absurd hlt (not_lt.mpr hk)
    case childless =>
      intro k hlt
      obtain rfl | rfl : k = 0 ∨ k = 1 := Nat.le_one_iff_eq_zero_or_eq_one.mp (Nat.le_of_lt_succ hlt)
      · rfl
      · rfl
    case counted =>
      intro k hlt
      obtain rfl | rfl : k = 0 ∨ k = 1 := Nat.le_one_iff_eq_zero_or_eq_one.mp (Nat.le_of_lt_succ hlt)
      · rfl
      · rfl
    case inputs => rfl
    case numPis => rfl
    case outputs => rfl
    case numPos => rfl
  have hall := hstart.foldl ntk.foreachPi hnodup' fun pi => (ntk.signalNames pi).getD ""
  exact hall.reserves hpos

end Reservation

end Fiction.Orthogonal
