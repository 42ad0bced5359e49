import Fiction.Layouts.ReferenceCounts

/-!
# Counters equal references

A run keeps every reference counter equal to the number of child entries that resolve to its node
as long as no call redirects or drops a reference behind the back of its owner: a tile that changes
its occupant may not be named by a child entry of another node, and a node that loses its tile may
not have children.
-/

namespace Fiction.GateLevelLayout

/-- The counters equal the references and the constants are alive. -/
structure Counted (lyt : GateLevelLayout) : Prop where
  counts : ∀ m < lyt.size, lyt.refCount m = lyt.references m
  constants : ∀ m ≤ 1, lyt.isDead m = false

/-- No child entry of another placed node names `t`. -/
def Unnamed (lyt : GateLevelLayout) (n : ℕ) (t : Tile) : Prop :=
  ∀ k < lyt.size, k ≠ n → lyt.isPlaced k = true → t ∉ (lyt.node k).children

/-- `n` may take `t`: no other node names the tile, and its occupant has no children. -/
def Replaceable (lyt : GateLevelLayout) (n : ℕ) (t : Tile) : Prop :=
  lyt.Unnamed n t ∧ ∀ k < lyt.size, k ≠ n → lyt.isPlaced k = true → lyt.getTile k = t →
    (lyt.node k).children = []

/-- The calls that keep counters and references in step. The bounds keep the counters within their
31 bits. -/
def KeepsCounts (lyt : GateLevelLayout) : Op → Prop
  | .createPi _ t | .createRo _ t => t.isDead = true ∨ lyt.Replaceable lyt.size t
  | .createPo s _ t | .createRi s _ t =>
    t.isDead = false ∧ lyt.Replaceable lyt.size t ∧
      (s ≠ t → lyt.references (lyt.getNode s) + 1 < 2 ^ 31)
  | .createNode children _ t =>
    children = [] ∨ t.isDead = false ∧ lyt.Replaceable lyt.size t ∧ t ∉ children ∧
      ∀ m < lyt.size, lyt.references m + children.countP (lyt.getNode · = m) < 2 ^ 31
  | .moveNode n t newChildren =>
    (if t = lyt.getTile n then lyt.isPlaced n = true ∨ newChildren = []
      else (t.isDead = true → newChildren = []) ∧ (t.isDead = false → lyt.Replaceable n t) ∧
        (lyt.isPlaced n = true → lyt.Unnamed n (lyt.getTile n))) ∧
    ∀ m < lyt.size,
      lyt.otherReferences n m + newChildren.countP (lyt.getNodeAfter n t · = m) < 2 ^ 31

/-- All sequences of defined calls that keep counters and references in step. -/
def countingSystem (clocked : ClockedLayout) (name : String) :
    TransitionSystem GateLevelLayout Op where
  init := empty clocked name
  enabled lyt op := lyt.Defined op ∧ lyt.KeepsCounts op
  step := apply

/-- What every run of counting calls preserves: in addition, nodes without a tile have no children
and the default tile resolves to the first constant. -/
structure CountInv (lyt : GateLevelLayout) : Prop extends MapsInv lyt, Counted lyt where
  unplaced : ∀ n < lyt.size, lyt.isPlaced n = false → (lyt.node n).children = []
  default_node : lyt.getNode default = 0

variable {lyt lyt' : GateLevelLayout}

section Sums

theorem contribution_nil {k : ℕ} (h : (lyt.node k).children = []) (m : ℕ) :
    lyt.contribution k m = 0 := by
  simp [contribution, h]

theorem references_eq {n : ℕ} (hn : n < lyt.size) (m : ℕ) :
    lyt.references m = lyt.contribution n m + lyt.otherReferences n m :=
  (Finset.add_sum_erase _ _ (Finset.mem_range.mpr hn)).symm

theorem CountInv.contribution_eq (hi : CountInv lyt) {n : ℕ} (hn : n < lyt.size) (m : ℕ) :
    lyt.contribution n m = (lyt.node n).children.countP (lyt.getNode · = m) := by
  unfold contribution
  split_ifs with h
  · rfl
  · rw [hi.unplaced n hn (by simpa using h), List.countP_nil]

theorem CountInv.countP_le (hi : CountInv lyt) {n : ℕ} (hn : n < lyt.size) {m : ℕ}
    (hm : m < lyt.size) : (lyt.node n).children.countP (lyt.getNode · = m) ≤ lyt.refCount m := by
  rw [hi.counts m hm, references_eq hn, hi.contribution_eq hn]
  exact Nat.le_add_right _ _

theorem contribution_congr {k m : ℕ} (hp : lyt'.isPlaced k = lyt.isPlaced k)
    (hc : (lyt'.node k).children = (lyt.node k).children)
    (hg : lyt.isPlaced k = true → ∀ s ∈ (lyt.node k).children, lyt'.getNode s = lyt.getNode s) :
    lyt'.contribution k m = lyt.contribution k m := by
  unfold contribution
  rw [hp, hc]
  split_ifs with h
  · exact List.countP_congr fun s hs => by simp only [hg h s hs]
  · rfl

/-- The contribution of a node with a new occupant of `t` in the layout. -/
theorem contribution_after {n k m : ℕ} {t : Tile} (hkn : k ≠ n)
    (hp : lyt'.isPlaced k = lyt.isPlacedAfter n t k)
    (hc : (lyt'.node k).children = (lyt.node k).children)
    (ho : lyt.isPlaced k = true → lyt.getTile k = t → (lyt.node k).children = [])
    (hg : lyt.isPlaced k = true → ∀ s ∈ (lyt.node k).children, lyt'.getNode s = lyt.getNode s) :
    lyt'.contribution k m = lyt.contribution k m := by
  by_cases hnil : (lyt.node k).children = []
  · rw [contribution_nil hnil, contribution_nil (hc.trans hnil)]
  · refine contribution_congr ?_ hc hg
    rw [hp, isPlacedAfter, if_neg hkn]
    cases hpk : lyt.isPlaced k with
    | false => rfl
    | true => simpa using fun h => hnil (ho hpk h)

end Sums

section Creation

variable {t : Tile} {cs : List Signal} {res : Signal → ℕ}

theorem getNodeCreated_of_ne {s : Signal} (h : t.isDead = true ∨ s ≠ t) :
    lyt.getNodeCreated t s = lyt.getNode s := by
  unfold getNodeCreated
  rcases h with h | h <;> simp [h]

theorem CreateSpec.countInv (hs : CreateSpec lyt t cs res lyt') (hi : CountInv lyt)
    (hm : MapsInv lyt') (hd : t.isDead = true → cs = [])
    (hr : t.isDead = false → lyt.Replaceable lyt.size t)
    (hres : ∀ s ∈ cs, res s = lyt.getNodeCreated t s)
    (hlt : ∀ m ≤ lyt.size, lyt.refCount m + cs.countP (res · = m) < 2 ^ 31) : CountInv lyt' := by
  have hother : ∀ k < lyt.size, ∀ m, lyt'.contribution k m = lyt.contribution k m := by
    intro k hk m
    have hc : (lyt'.node k).children = (lyt.node k).children := by
      rw [hs.children k hk.le, if_neg hk.ne]
    cases htd : t.isDead with
    | true =>
      refine contribution_after hk.ne (hs.isPlaced k) hc
        (fun hp he => absurd he (getTile_ne_dead hp htd)) fun _ s _ => ?_
      rw [hs.getNode, getNodeCreated_of_ne (.inl htd)]
    | false =>
      refine contribution_after hk.ne (hs.isPlaced k) hc ((hr htd).2 k hk hk.ne)
        fun hp s hsk => ?_
      rw [hs.getNode, getNodeCreated_of_ne (.inr _)]
      rintro rfl
      exact (hr htd).1 k hk hk.ne hp hsk
  have hself : ∀ m, lyt'.contribution lyt.size m = cs.countP (res · = m) := by
    intro m
    unfold contribution
    rw [hs.children _ le_rfl, if_pos rfl, hs.isPlaced, isPlacedAfter, if_pos rfl]
    cases htd : t.isDead with
    | true => rw [hd htd]; rfl
    | false =>
      refine List.countP_congr fun s hsc => ?_
      rw [hs.getNode, hres s hsc]
  have hrefs : ∀ m, lyt'.references m = lyt.references m + cs.countP (res · = m) := by
    intro m
    rw [references, hs.size, Finset.sum_range_succ, hself, references]
    exact congrArg (· + _) (Finset.sum_congr rfl fun k hk => hother k (Finset.mem_range.mp hk) m)
  have hzero : lyt.refCount lyt.size = lyt.references lyt.size := by
    rw [refCount, node_size, references]
    symm
    refine Finset.sum_eq_zero fun k hk => ?_
    unfold contribution
    split_ifs
    · rw [List.countP_eq_zero]
      intro s _
      simpa using (hi.getNode_lt s).ne
    · rfl
  refine ⟨hm, ⟨fun m hlt' => ?_, fun m hm1 => ?_⟩, fun n hn hp => ?_, ?_⟩
  · rw [hs.size] at hlt'
    have hle : m ≤ lyt.size := by omega
    rw [(hs.word m hle (hlt m hle)).1, hrefs]
    rcases Nat.lt_or_eq_of_le hle with h | h
    · rw [hi.counts m h]
    · rw [h, hzero]
  · have h2 := hi.two_le_size
    have hle : m ≤ lyt.size := by omega
    rw [(hs.word m hle (hlt m hle)).2, isDeadAfter_size hi.toMapsInv, hi.constants m hm1]
    cases hp : lyt.isPlaced m with
    | false => rfl
    | true =>
      have := (hi.lt_size_of_placed hp).1
      omega
  · rw [hs.size] at hn
    rw [hs.isPlaced, isPlacedAfter] at hp
    rw [hs.children n (by omega)]
    split_ifs at hp ⊢ with h
    · exact hd (by simpa using hp)
    · have hlt' : n < lyt.size := by omega
      cases hpn : lyt.isPlaced n with
      | false => exact hi.unplaced n hlt' hpn
      | true =>
        rw [hpn] at hp
        have he : lyt.getTile n = t := by simpa using hp
        have htd : t.isDead = false := by
          rw [← he]
          exact live_of_isPlaced hpn
        exact (hr htd).2 n hlt' h hpn he
  · rw [hs.getNode, getNodeCreated, if_neg, hi.default_node]
    rintro ⟨htd, rfl⟩
    simp at htd

theorem CountInv.createInput (hi : CountInv lyt) (hs : CreateSpec lyt t [] res lyt')
    (hm : MapsInv lyt') (ht : t.isDead = true ∨ lyt.Replaceable lyt.size t) : CountInv lyt' := by
  refine hs.countInv hi hm (fun _ => rfl) (fun hd => ht.resolve_left (by simp [hd])) (by simp) ?_
  exact fun m _ => by simpa using @refCount_lt lyt m

theorem CountInv.createOutput (hi : CountInv lyt) {s : Signal}
    (hs : CreateSpec lyt t [s] (lyt.getNodeCreated t) lyt') (hm : MapsInv lyt')
    (hd : t.isDead = false) (hr : lyt.Replaceable lyt.size t)
    (hlt : s ≠ t → lyt.references (lyt.getNode s) + 1 < 2 ^ 31) : CountInv lyt' := by
  refine hs.countInv hi hm (fun h => by simp [hd] at h) (fun _ => hr) (fun _ _ => rfl)
    fun m hle => ?_
  have hm' : lyt.refCount m < 2 ^ 31 := refCount_lt m
  rw [List.countP_cons, List.countP_nil, Nat.zero_add]
  by_cases hst : s = t
  · have hg : lyt.getNodeCreated t s = lyt.size := if_pos ⟨hd, hst⟩
    rw [hg]
    by_cases hsz : lyt.size = m
    · rw [← hsz, refCount_size]
      simp
    · simpa [hsz] using hm'
  · rw [getNodeCreated_of_ne (.inr hst)]
    by_cases hg : lyt.getNode s = m
    · have hlt' := hlt hst
      rw [hg, ← hi.counts m (hg ▸ hi.getNode_lt s)] at hlt'
      simpa [hg] using hlt'
    · simpa [hg] using hm'

theorem CountInv.createNode (hi : CountInv lyt) (hs : CreateSpec lyt t cs lyt.getNode lyt')
    (hm : MapsInv lyt') (hd : t.isDead = false) (hr : lyt.Replaceable lyt.size t) (ht : t ∉ cs)
    (hlt : ∀ m < lyt.size, lyt.references m + cs.countP (lyt.getNode · = m) < 2 ^ 31) :
    CountInv lyt' := by
  refine hs.countInv hi hm (fun h => by simp [hd] at h) (fun _ => hr) (fun s hsc => ?_)
    fun m hle => ?_
  · exact (getNodeCreated_of_ne (.inr fun h => ht (by rwa [← h]))).symm
  · rcases Nat.lt_or_eq_of_le hle with h | h
    · rw [hi.counts m h]
      exact hlt m h
    · have hz : cs.countP (lyt.getNode · = m) = 0 := by
        rw [List.countP_eq_zero]
        intro s _
        simpa [h] using (hi.getNode_lt s).ne
      rw [hz, h, refCount_size]
      decide

end Creation

section Move

variable {n : ℕ} {t : Tile} {newChildren : List Signal}

theorem getNodeAfter_of_ne {s : Signal} (ht : t.isDead = true ∨ s ≠ t)
    (ho : s ≠ lyt.getTile n ∨ lyt.getNode (lyt.getTile n) = 0) :
    lyt.getNodeAfter n t s = lyt.getNode s := by
  unfold getNodeAfter
  split_ifs with h₁ h₂ h₃
  · rfl
  · rcases ht with ht | ht
    · simp [ht] at h₂
    · exact absurd h₂.2 ht
  · rcases ho with ho | ho
    · exact absurd h₃ ho
    · rw [h₃, ho]
  · rfl

theorem CountInv.getNode_unplaced (hi : CountInv lyt) (hn : 2 ≤ n)
    (hp : lyt.isPlaced n = false) : lyt.getNode (lyt.getTile n) = 0 := by
  rw [hi.getTile_of_not_placed hn hp, hi.default_node]

theorem CountInv.getNodeAfter_other (hi : CountInv lyt) (hn : 2 ≤ n)
    (hk : lyt.KeepsCounts (.moveNode n t newChildren)) {k : ℕ} (hks : k < lyt.size) (hkn : k ≠ n)
    (hp : lyt.isPlaced k = true) {s : Signal} (hs : s ∈ (lyt.node k).children) :
    lyt.getNodeAfter n t s = lyt.getNode s := by
  by_cases ht : t = lyt.getTile n
  · exact if_pos ht
  · have hk' := hk.1
    rw [if_neg ht] at hk'
    obtain ⟨-, hr, hu⟩ := hk'
    refine getNodeAfter_of_ne ?_ ?_
    · cases hd : t.isDead with
      | true => exact .inl rfl
      | false =>
        right
        rintro rfl
        exact (hr hd).1 k hks hkn hp hs
    · cases hpn : lyt.isPlaced n with
      | false => exact .inr (hi.getNode_unplaced hn hpn)
      | true =>
        left
        rintro rfl
        exact hu hpn k hks hkn hp hs

theorem CountInv.occupant_children (hi : CountInv lyt)
    (hk : lyt.KeepsCounts (.moveNode n t newChildren)) {k : ℕ} (hks : k < lyt.size) (hkn : k ≠ n)
    (hp : lyt.isPlaced k = true) (he : lyt.getTile k = t) : (lyt.node k).children = [] := by
  by_cases ht : t = lyt.getTile n
  · exact absurd (he.trans ht) (hi.getTile_ne hkn hp)
  · have hk' := hk.1
    rw [if_neg ht] at hk'
    have hd : t.isDead = false := by
      rw [← he]
      exact live_of_isPlaced hp
    exact (hk'.2.1 hd).2 k hks hkn hp he

theorem newChildren_nil
    (hk : lyt.KeepsCounts (.moveNode n t newChildren)) (hd : t.isDead = true) :
    newChildren = [] := by
  by_cases ht : t = lyt.getTile n
  · have hk' := hk.1
    rw [if_pos ht] at hk'
    refine hk'.resolve_left fun hp => ?_
    exact getTile_ne_dead hp hd ht.symm
  · have hk' := hk.1
    rw [if_neg ht] at hk'
    exact hk'.1 hd

theorem MoveSpec.countInv (hs : MoveSpec lyt n t newChildren lyt') (hi : CountInv lyt)
    (hm : MapsInv lyt') (hn : 2 ≤ n ∧ n < lyt.size)
    (hk : lyt.KeepsCounts (.moveNode n t newChildren)) : CountInv lyt' := by
  have hother : ∀ m, lyt'.otherReferences n m = lyt.otherReferences n m := by
    intro m
    rw [otherReferences, otherReferences, hs.size]
    refine Finset.sum_congr rfl fun k hkm => ?_
    rw [Finset.mem_erase, Finset.mem_range] at hkm
    refine contribution_after hkm.1 (hs.isPlaced k) ?_ (hi.occupant_children hk hkm.2 hkm.1)
      fun hp s hsk => ?_
    · rw [hs.children k hkm.2, if_neg hkm.1]
    · rw [hs.getNode, hi.getNodeAfter_other hn.1 hk hkm.2 hkm.1 hp hsk]
  have hself : ∀ m, lyt'.contribution n m =
      newChildren.countP (lyt.getNodeAfter n t · = m) := by
    intro m
    unfold contribution
    rw [hs.children n hn.2, if_pos rfl, hs.isPlaced, isPlacedAfter, if_pos rfl]
    cases hd : t.isDead with
    | true => rw [newChildren_nil hk hd]; rfl
    | false => exact List.countP_congr fun s _ => by rw [hs.getNode]
  -- every counter first loses the old children of `n`, which leaves the references of other nodes
  have hword : ∀ m < lyt.size, lyt'.refCount m = lyt'.references m ∧
      lyt'.isDead m = if t = lyt.getTile n then lyt.isDead m else lyt.isDeadAfter n t m := by
    intro m hlt
    have hle := hi.countP_le hn.2 hlt
    have hc : lyt.refCount m - (lyt.node n).children.countP (lyt.getNode · = m) =
        lyt.otherReferences n m := by
      rw [hi.counts m hlt, references_eq hn.2, hi.contribution_eq hn.2]
      omega
    obtain ⟨h₁, h₂⟩ := hs.word m hlt hle (by rw [hc]; exact hk.2 m hlt)
    refine ⟨?_, h₂⟩
    rw [h₁, hc, @references_eq lyt' n (hs.size ▸ hn.2), hself, hother, Nat.add_comm]
  refine ⟨hm, ⟨fun m hlt => (hword m (hs.size ▸ hlt)).1, fun m hm1 => ?_⟩, fun k hks hp => ?_, ?_⟩
  · have h2 := hi.two_le_size
    rw [(hword m (by omega)).2, isDeadAfter, if_neg (by omega : m ≠ n), hi.constants m hm1]
    have hp : lyt.isPlaced m = false := Bool.eq_false_iff.mpr fun hp => by
      have := (hi.lt_size_of_placed hp).1
      omega
    simp [hp]
  · rw [hs.size] at hks
    rw [hs.isPlaced, isPlacedAfter] at hp
    rw [hs.children k hks]
    split_ifs at hp ⊢ with h
    · exact newChildren_nil hk (by simpa using hp)
    · cases hpk : lyt.isPlaced k with
      | false => exact hi.unplaced k hks hpk
      | true =>
        rw [hpk] at hp
        exact hi.occupant_children hk hks h hpk (by simpa using hp)
  · have hd := hi.default_node
    rw [hs.getNode, getNodeAfter]
    split_ifs with h₁ h₂
    · exact hd
    · obtain ⟨htd, rfl⟩ := h₂
      simp at htd
    · rfl
    · exact hd

end Move

section Runs

variable {clocked : ClockedLayout} {name : String}

theorem apply_countInv (hi : CountInv lyt) (op : Op) (hd : lyt.Defined op)
    (hk : lyt.KeepsCounts op) (hp : PlacementInv lyt) : CountInv (lyt.apply op) := by
  have hm : MapsInv (lyt.apply op) := (apply_placementInv hp op hd).toMapsInv
  cases op with
  | createPi name t => exact hi.createInput (createPi_spec hi.toMapsInv name t) hm hk
  | createRo name t => exact hi.createInput (createRo_spec hi.toMapsInv name t) hm hk
  | createPo s name t =>
    exact hi.createOutput (createPo_spec hi.toMapsInv s name t) hm hk.1 hk.2.1 hk.2.2
  | createRi s name t =>
    exact hi.createOutput (createRi_spec hi.toMapsInv s name t) hm hk.1 hk.2.1 hk.2.2
  | createNode children function t =>
    by_cases hc : children = []
    · rw [hc]
      exact hi
    · obtain ⟨h₁, h₂, h₃, h₄⟩ := hk.resolve_left hc
      exact hi.createNode (createNode_spec hi.toMapsInv hc function t) hm h₁ h₂ h₃ h₄
  | moveNode n t newChildren =>
    exact (moveNode_spec hi.toMapsInv hd t newChildren).countInv hi hm hd hk

theorem empty_countInv (clocked : ClockedLayout) (name : String) :
    CountInv (empty clocked name) := by
  have hc : ∀ n < (empty clocked name).size, ((empty clocked name).node n).children = [] := by
    intro n hn
    have h2 : n < 2 := hn
    obtain rfl | rfl : n = 0 ∨ n = 1 := by omega
    all_goals rfl
  refine ⟨(empty_placementInv clocked name).toMapsInv, ⟨fun m hm => ?_, fun m hm => ?_⟩,
    fun n hn _ => hc n hn, rfl⟩
  · have h : (empty clocked name).references m = 0 :=
      Finset.sum_eq_zero fun k hk => contribution_nil (hc k (Finset.mem_range.mp hk)) m
    have h2 : m < 2 := hm
    rw [h]
    obtain rfl | rfl : m = 0 ∨ m = 1 := by omega
    all_goals rfl
  · obtain rfl | rfl : m = 0 ∨ m = 1 := by omega
    all_goals simp [isDead, node, empty]

theorem countingSystem_legal {ops : List Op} (h : (countingSystem clocked name).Legal ops) :
    CountInv ((system clocked name).run ops) ∧ PlacementInv ((system clocked name).run ops) :=
  (countingSystem clocked name).invariant_run (I := fun l => CountInv l ∧ PlacementInv l)
    ⟨empty_countInv clocked name, empty_placementInv clocked name⟩
    (fun _ op hi ho => ⟨apply_countInv hi.1 op ho.1 ho.2 hi.2, apply_placementInv hi.2 op ho.1⟩) h

/-- After any run of calls that redirect or drop no reference behind the back of its owner, the
counters equal the references, the constants are alive, and no decrement of a further move meets
an empty counter. -/
theorem refCounts_of_keepsCounts {ops : List Op} (h : (countingSystem clocked name).Legal ops) :
    let lyt := (system clocked name).run ops
    Counted lyt ∧ ∀ n < lyt.size, DecrementsSafe lyt (lyt.node n).children := by
  obtain ⟨hi, -⟩ := countingSystem_legal h
  exact ⟨hi.toCounted, fun n hn =>
    decrementsSafe_of_le (fun s _ => hi.getNode_lt s) fun m hm => hi.countP_le hn hm⟩

end Runs

section Examples

instance (lyt : GateLevelLayout) (n : ℕ) (t : Tile) : Decidable (lyt.Unnamed n t) :=
  inferInstanceAs (Decidable (∀ k < lyt.size, _))

instance (lyt : GateLevelLayout) (n : ℕ) (t : Tile) : Decidable (lyt.Replaceable n t) :=
  inferInstanceAs (Decidable (_ ∧ ∀ k < lyt.size, _))

instance (lyt : GateLevelLayout) (op : Op) : Decidable (lyt.KeepsCounts op) :=
  match op with
  | .createPi .. | .createRo .. => inferInstanceAs (Decidable (_ ∨ _))
  | .createPo .. | .createRi .. => inferInstanceAs (Decidable (_ ∧ _ ∧ (_ → _)))
  | .createNode .. => inferInstanceAs (Decidable (_ ∨ _ ∧ _ ∧ _ ∧ ∀ m < lyt.size, _))
  | .moveNode .. => inferInstanceAs (Decidable (ite _ _ _ ∧ ∀ m < lyt.size, _))

instance (clocked : ClockedLayout) (name : String) (lyt : GateLevelLayout) (op : Op) :
    Decidable ((countingSystem clocked name).enabled lyt op) :=
  inferInstanceAs (Decidable (lyt.Defined op ∧ lyt.KeepsCounts op))

/-- A wire is moved to another tile before it is connected to an output. -/
theorem refCounts_of_keepsCounts_moved :
    let ops : List Op := [.createPi "" (.at2 0 0), .createNode [.at2 0 0] .identity (.at2 1 0),
      .moveNode 3 (.at2 0 1) [.at2 0 0], .createPo (.at2 0 1) "" (.at2 0 2)]
    let lyt := (system smallLayout "").run ops
    Counted lyt ∧ ∀ n < lyt.size, DecrementsSafe lyt (lyt.node n).children :=
  refCounts_of_keepsCounts (by decide)

/-- An input is moved away from a wire that still names its old tile; connecting the wire to the new
tile then takes a reference from the first constant, which is reported as dead. -/
theorem moved_driver_not_counted :
    let ops : List Op := [.createPi "" (.at2 0 0), .createNode [.at2 0 0] .identity (.at2 1 0),
      .moveNode 2 (.at2 1 1) []]
    (system smallLayout "").Legal ops ∧ ¬ Counted ((system smallLayout "").run ops) ∧
      ¬ DecrementsSafe ((system smallLayout "").run ops)
        (((system smallLayout "").run ops).node 3).children ∧
      ((system smallLayout "").run (ops ++ [.moveNode 3 (.at2 1 0) [.at2 1 1]])).isDead 0 = true :=
  ⟨by decide, fun h => absurd (h.counts 2 (by decide)) (by decide),
    fun h => absurd h.1 (by decide), by decide⟩

end Examples

end Fiction.GateLevelLayout
