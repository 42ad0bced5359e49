import Fiction.Layouts.PlacementInvariant
import Fiction.Library.FlaggedCounter
import Mathlib.Algebra.BigOperators.Group.Finset.Basic
import Mathlib.Algebra.Order.BigOperators.Group.Finset

/-!
# Reference counts

The low 31 bits of the first data word of a node count references. This module follows the word of
every node through the helpers of a layout: only `incrRef` and `decrRef` change counters, and only
`killNode` and `reviveNode` change the dead flag as long as no counter wraps around.
-/

namespace Fiction.GateLevelLayout

open FlaggedCounter

def refCount (lyt : GateLevelLayout) (n : ℕ) : ℕ := value (w := 31) (lyt.node n).h1

/-- How many child entries of `k` resolve to `m`, if `k` is placed. -/
def contribution (lyt : GateLevelLayout) (k m : ℕ) : ℕ :=
  if lyt.isPlaced k then (lyt.node k).children.countP (lyt.getNode · = m) else 0

/-- Child entries of placed nodes whose signal currently resolves to `m`. -/
def references (lyt : GateLevelLayout) (m : ℕ) : ℕ :=
  ∑ k ∈ Finset.range lyt.size, lyt.contribution k m

/-- The references that do not stem from `n`. -/
def otherReferences (lyt : GateLevelLayout) (n m : ℕ) : ℕ :=
  ∑ k ∈ (Finset.range lyt.size).erase n, lyt.contribution k m

/-- None of the decrements that `move_node` executes for the children `ss` meets an empty counter. -/
def DecrementsSafe : GateLevelLayout → List Signal → Prop
  | _, [] => True
  | lyt, s :: ss => 0 < lyt.refCount (lyt.getNode s) ∧ DecrementsSafe (lyt.decrRef s) ss

variable {lyt lyt' lyt'' : GateLevelLayout}

theorem isDead_eq_flag (n : ℕ) : lyt.isDead n = flag (w := 31) (lyt.node n).h1 := rfl

theorem refCount_lt (n : ℕ) : lyt.refCount n < 2 ^ 31 := value_lt (w := 31) _

/-- `lyt'` has the nodes of `lyt` with the same children, counters and dead flags. -/
structure SameWords (lyt lyt' : GateLevelLayout) : Prop where
  size : lyt'.size = lyt.size
  children : ∀ n < lyt.size, (lyt'.node n).children = (lyt.node n).children
  refCount : ∀ n < lyt.size, lyt'.refCount n = lyt.refCount n
  isDead : ∀ n < lyt.size, lyt'.isDead n = lyt.isDead n

theorem SameWords.refl : SameWords lyt lyt := ⟨rfl, fun _ _ => rfl, fun _ _ => rfl, fun _ _ => rfl⟩

theorem SameWords.of_nodes (h : lyt'.nodes = lyt.nodes) : SameWords lyt lyt' := by
  refine ⟨?_, fun n _ => ?_, fun n _ => ?_, fun n _ => ?_⟩ <;>
    simp only [GateLevelLayout.size, GateLevelLayout.refCount, GateLevelLayout.isDead, node, h]

section Words

theorem incrRef_size (s : Signal) : (lyt.incrRef s).size = lyt.size := lyt.size_modifyNode _ _

theorem decrRef_size (s : Signal) : (lyt.decrRef s).size = lyt.size := lyt.size_modifyNode _ _

theorem incrRef_children (s : Signal) (n : ℕ) :
    ((lyt.incrRef s).node n).children = (lyt.node n).children := by
  rw [incrRef, node_modifyNode]
  split_ifs <;> rfl

theorem decrRef_children (s : Signal) (n : ℕ) :
    ((lyt.decrRef s).node n).children = (lyt.node n).children := by
  rw [decrRef, node_modifyNode]
  split_ifs <;> rfl

theorem incrRef_word {s : Signal} {n : ℕ} (hn : n < lyt.size)
    (h : lyt.getNode s = n → lyt.refCount n + 1 < 2 ^ 31) :
    (lyt.incrRef s).refCount n = lyt.refCount n + (if lyt.getNode s = n then 1 else 0) ∧
      (lyt.incrRef s).isDead n = lyt.isDead n := by
  rw [isDead_eq_flag, isDead_eq_flag, refCount, incrRef, node_modifyNode]
  by_cases hs : lyt.getNode s = n
  · rw [if_pos ⟨hs.symm, by rwa [hs]⟩, if_pos hs]
    exact add_spec (w := 31) (lyt.node n).h1 (h hs)
  · rw [if_neg fun he => hs he.1.symm, if_neg hs]
    exact ⟨rfl, rfl⟩

theorem decrRef_word {s : Signal} {n : ℕ} (hn : n < lyt.size)
    (h : lyt.getNode s = n → 1 ≤ lyt.refCount n) :
    (lyt.decrRef s).refCount n = lyt.refCount n - (if lyt.getNode s = n then 1 else 0) ∧
      (lyt.decrRef s).isDead n = lyt.isDead n := by
  rw [isDead_eq_flag, isDead_eq_flag, refCount, decrRef, node_modifyNode]
  by_cases hs : lyt.getNode s = n
  · rw [if_pos ⟨hs.symm, by rwa [hs]⟩, if_pos hs]
    exact sub_spec (w := 31) (lyt.node n).h1 (h hs)
  · rw [if_neg fun he => hs he.1.symm, if_neg hs]
    exact ⟨rfl, rfl⟩

theorem incrRef_getNode (s s' : Signal) : (lyt.incrRef s).getNode s' = lyt.getNode s' :=
  (incrRef_samePlacement s).getNode s'

theorem decrRef_getNode (s s' : Signal) : (lyt.decrRef s).getNode s' = lyt.getNode s' :=
  (decrRef_samePlacement s).getNode s'

theorem foldl_incrRef_size (ss : List Signal) : (ss.foldl incrRef lyt).size = lyt.size := by
  induction ss generalizing lyt with
  | nil => rfl
  | cons s ss ih => rw [List.foldl_cons, ih, incrRef_size]

theorem foldl_decrRef_size (ss : List Signal) : (ss.foldl decrRef lyt).size = lyt.size := by
  induction ss generalizing lyt with
  | nil => rfl
  | cons s ss ih => rw [List.foldl_cons, ih, decrRef_size]

theorem foldl_incrRef_children (ss : List Signal) (n : ℕ) :
    ((ss.foldl incrRef lyt).node n).children = (lyt.node n).children := by
  induction ss generalizing lyt with
  | nil => rfl
  | cons s ss ih => rw [List.foldl_cons, ih, incrRef_children]

theorem foldl_decrRef_children (ss : List Signal) (n : ℕ) :
    ((ss.foldl decrRef lyt).node n).children = (lyt.node n).children := by
  induction ss generalizing lyt with
  | nil => rfl
  | cons s ss ih => rw [List.foldl_cons, ih, decrRef_children]

theorem countP_cons_getNode (s : Signal) (ss : List Signal) (m : ℕ) :
    (s :: ss).countP (lyt.getNode · = m) =
      ss.countP (lyt.getNode · = m) + if lyt.getNode s = m then 1 else 0 := by
  rw [List.countP_cons]
  simp only [decide_eq_true_eq]

/-- Incrementing the counters of `ss` adds the number of entries that resolve to a node. -/
theorem foldl_incrRef_word {ss : List Signal} {m : ℕ} (hm : m < lyt.size)
    (h : lyt.refCount m + ss.countP (lyt.getNode · = m) < 2 ^ 31) :
    (ss.foldl incrRef lyt).refCount m = lyt.refCount m + ss.countP (lyt.getNode · = m) ∧
      (ss.foldl incrRef lyt).isDead m = lyt.isDead m := by
  induction ss generalizing lyt with
  | nil => exact ⟨rfl, rfl⟩
  | cons s ss ih =>
    rw [countP_cons_getNode] at h ⊢
    obtain ⟨hc, hd⟩ := incrRef_word (s := s) hm fun hs => by rw [if_pos hs] at h; omega
    have ih' := @ih (lyt.incrRef s) (by rwa [incrRef_size])
    simp only [incrRef_getNode, hc, hd] at ih'
    obtain ⟨hc', hd'⟩ := ih' (by omega)
    exact ⟨by rw [List.foldl_cons, hc']; omega, by rw [List.foldl_cons, hd']⟩

/-- Decrementing the counters of `ss` subtracts the number of entries that resolve to a node. -/
theorem foldl_decrRef_word {ss : List Signal} {m : ℕ} (hm : m < lyt.size)
    (h : ss.countP (lyt.getNode · = m) ≤ lyt.refCount m) :
    (ss.foldl decrRef lyt).refCount m = lyt.refCount m - ss.countP (lyt.getNode · = m) ∧
      (ss.foldl decrRef lyt).isDead m = lyt.isDead m := by
  induction ss generalizing lyt with
  | nil => exact ⟨rfl, rfl⟩
  | cons s ss ih =>
    rw [countP_cons_getNode] at h ⊢
    obtain ⟨hc, hd⟩ := decrRef_word (s := s) hm fun hs => by rw [if_pos hs] at h; omega
    have ih' := @ih (lyt.decrRef s) (by rwa [decrRef_size])
    simp only [decrRef_getNode, hc, hd] at ih'
    obtain ⟨hc', hd'⟩ := ih' (by omega)
    exact ⟨by rw [List.foldl_cons, hc']; omega, by rw [List.foldl_cons, hd']⟩

theorem decrementsSafe_of_le {ss : List Signal} (hs : ∀ s ∈ ss, lyt.getNode s < lyt.size)
    (h : ∀ m < lyt.size, ss.countP (lyt.getNode · = m) ≤ lyt.refCount m) :
    DecrementsSafe lyt ss := by
  induction ss generalizing lyt with
  | nil => trivial
  | cons s ss ih =>
    have hlt := hs s List.mem_cons_self
    have hpos := h _ hlt
    rw [countP_cons_getNode, if_pos rfl] at hpos
    refine ⟨by omega, ih (fun s' hs' => ?_) fun m hm => ?_⟩
    · rw [decrRef_getNode, decrRef_size]
      exact hs s' (List.mem_cons_of_mem s hs')
    · rw [decrRef_size] at hm
      have hle := h m hm
      rw [countP_cons_getNode] at hle
      rw [(decrRef_word hm fun he => by rw [if_pos he] at hle; omega).1]
      simp only [decrRef_getNode]
      omega

/-- What `kill_node`, `revive_node` and changes of the children do to a node. -/
structure FlagChange (lyt lyt' : GateLevelLayout) (f : ℕ → Bool → Bool) : Prop where
  size : lyt'.size = lyt.size
  children : ∀ n < lyt.size, (lyt'.node n).children = (lyt.node n).children
  refCount : ∀ n < lyt.size, lyt'.refCount n = lyt.refCount n
  isDead : ∀ n < lyt.size, lyt'.isDead n = f n (lyt.isDead n)

theorem FlagChange.trans {f g : ℕ → Bool → Bool} (h : FlagChange lyt lyt' f)
    (h' : FlagChange lyt' lyt'' g) : FlagChange lyt lyt'' fun n b => g n (f n b) := by
  refine ⟨h'.size.trans h.size, fun n hn => ?_, fun n hn => ?_, fun n hn => ?_⟩
  · rw [h'.children n (h.size ▸ hn), h.children n hn]
  · rw [h'.refCount n (h.size ▸ hn), h.refCount n hn]
  · rw [h'.isDead n (h.size ▸ hn), h.isDead n hn]

theorem SameWords.flagChange (h : SameWords lyt lyt') : FlagChange lyt lyt' fun _ b => b :=
  ⟨h.size, h.children, h.refCount, h.isDead⟩

theorem FlagChange.congr {f g : ℕ → Bool → Bool} (h : FlagChange lyt lyt' f)
    (hfg : ∀ n < lyt.size, f n (lyt.isDead n) = g n (lyt.isDead n)) : FlagChange lyt lyt' g :=
  ⟨h.size, h.children, h.refCount, fun n hn => (h.isDead n hn).trans (hfg n hn)⟩

theorem modifyNode_flagChange {n : ℕ} {f : LayoutNode → LayoutNode} {b : Bool}
    (hc : ∀ d, (f d).children = d.children)
    (hf : ∀ d, value (w := 31) (f d).h1 = value (w := 31) d.h1 ∧ flag (w := 31) (f d).h1 = b) :
    FlagChange lyt (lyt.modifyNode n f) fun m d => if m = n then b else d := by
  refine ⟨lyt.size_modifyNode n f, fun m _ => ?_, fun m _ => ?_, fun m hm => ?_⟩
  · rw [node_modifyNode]
    split_ifs <;> simp [hc]
  · rw [refCount, refCount, node_modifyNode]
    split_ifs
    · exact (hf _).1
    · rfl
  · rw [isDead_eq_flag, isDead_eq_flag, node_modifyNode]
    by_cases h : m = n
    · rw [if_pos ⟨h, h ▸ hm⟩, if_pos h]
      exact (hf _).2
    · rw [if_neg fun he => h he.1, if_neg h]

theorem killNode_flagChange (n : ℕ) :
    FlagChange lyt (lyt.killNode n) fun m d => if m = n ∧ 2 ≤ n then true else d := by
  unfold killNode isConstant
  split_ifs with h
  · refine SameWords.refl.flagChange.congr fun m _ => ?_
    rw [if_neg]
    simp only [decide_eq_true_eq] at h
    omega
  · refine (modifyNode_flagChange (f := fun d => { d with h1 := d.h1 ||| 0x80000000#32 })
      (b := true) (fun _ => rfl) fun d => ?_).congr fun m _ => ?_
    · exact ⟨value_or_mask (w := 31) d.h1, flag_or_mask (w := 31) d.h1⟩
    · simp only [decide_eq_true_eq, not_le] at h
      simp only [and_iff_left (show 2 ≤ n from h)]

theorem reviveNode_flagChange (n : ℕ) :
    FlagChange lyt (lyt.reviveNode n) fun m d => if m = n ∧ 2 ≤ n then false else d := by
  unfold reviveNode isConstant
  split_ifs with h
  · refine SameWords.refl.flagChange.congr fun m _ => ?_
    rw [if_neg]
    simp only [decide_eq_true_eq] at h
    omega
  · refine (modifyNode_flagChange (f := fun d => { d with h1 := d.h1 &&& ~~~0x80000000#32 })
      (b := false) (fun _ => rfl) fun d => ?_).congr fun m _ => ?_
    · exact ⟨value_and_not_mask (w := 31) d.h1, flag_and_not_mask (w := 31) d.h1⟩
    · simp only [decide_eq_true_eq, not_le] at h
      simp only [and_iff_left (show 2 ≤ n from h)]

theorem clearTile_flagChange (t : Tile) :
    FlagChange lyt (lyt.clearTile t)
      fun m d => if lyt.tileNodeMap t = some m ∧ 2 ≤ m then true else d := by
  cases ht : lyt.tileNodeMap t with
  | none =>
    rw [clearTile_none ht]
    refine SameWords.refl.flagChange.congr fun m _ => ?_
    rw [if_neg]
    simp
  | some n =>
    rw [clearTile_some ht]
    have hu : SameWords lyt (if t.isDead then lyt else lyt.uncount n) := by
      apply SameWords.of_nodes
      unfold uncount
      split_ifs <;> rfl
    have hp : ∀ l : GateLevelLayout, SameWords l (l.unplace t n) := fun l => .of_nodes rfl
    refine ((hu.flagChange.trans (killNode_flagChange n)).trans (hp _).flagChange).congr
      fun m _ => ?_
    simp only [Option.some.injEq, eq_comm (a := n)]
    refine if_congr (and_congr_right fun he => ?_) rfl rfl
    rw [he]

theorem assignNode_flagChange {t : Tile} (ht : t.isDead = false) (n : ℕ) :
    FlagChange lyt (lyt.assignNode t n)
      fun m d => if lyt.tileNodeMap t = some m ∧ 2 ≤ m then true else d := by
  rw [assignNode_live ht]
  refine ((clearTile_flagChange t).trans (SameWords.flagChange ?_))
  apply SameWords.of_nodes
  unfold count
  split_ifs <;> rfl

end Words

section Moves

/-- The node that `s` resolves to after `n` has been moved to `t`. -/
def getNodeAfter (lyt : GateLevelLayout) (n : ℕ) (t : Tile) (s : Signal) : ℕ :=
  if t = lyt.getTile n then lyt.getNode s
  else if t.isDead = false ∧ s = t then n
  else if s = lyt.getTile n then 0
  else lyt.getNode s

/-- `n` occupies `t` and has driven out the former occupant. -/
def isPlacedAfter (lyt : GateLevelLayout) (n : ℕ) (t : Tile) (m : ℕ) : Bool :=
  if m = n then !t.isDead else lyt.isPlaced m && decide (lyt.getTile m ≠ t)

/-- The occupant of `t` dies and `n` is revived. -/
def isDeadAfter (lyt : GateLevelLayout) (n : ℕ) (t : Tile) (m : ℕ) : Bool :=
  if m = n then false else lyt.isDead m || (lyt.isPlaced m && decide (lyt.getTile m = t))

variable {n : ℕ} {t : Tile}

theorem clearTile_getNode (t : Tile) (s : Signal) :
    (lyt.clearTile t).getNode s = if s = t then 0 else lyt.getNode s := by
  rw [getNode, clearTile_tileNodeMap]
  split_ifs <;> rfl

theorem assignNode_getNode (ht : t.isDead = false) (n : ℕ) (s : Signal) :
    (lyt.assignNode t n).getNode s = if s = t then n else lyt.getNode s := by
  rw [assignNode_live ht, (count_sameMaps n).getNode, getNode]
  simp only [place, Function.update_apply]
  split_ifs with h
  · rfl
  · exact (clearTile_getNode t s).trans (if_neg h)

theorem MapsInv.tileNodeMap_iff (hi : MapsInv lyt) (ht : t.isDead = false) {m : ℕ} :
    lyt.tileNodeMap t = some m ∧ 2 ≤ m ↔ lyt.isPlaced m = true ∧ lyt.getTile m = t := by
  rw [hi.getTile_eq_iff ht]
  constructor
  · rintro ⟨rfl, -⟩
    exact ⟨by simpa [isPlaced] using ht, rfl⟩
  · rintro ⟨hp, h⟩
    exact ⟨h, (hi.lt_size_of_placed hp).1⟩

theorem isPlaced_assignNode (hi : MapsInv lyt) (ht : t.isDead = false) (n m : ℕ) :
    (lyt.assignNode t n).isPlaced m = lyt.isPlacedAfter n t m := by
  rw [assignNode_live ht, (count_sameMaps n).isPlaced, isPlaced_place ht, isPlaced_clearTile,
    isPlacedAfter, ht]
  simp only [hi.getTile_eq_iff ht]
  by_cases hm : m = n <;> by_cases hm' : lyt.getTile m = t <;> simp [hm, hm']

theorem isDead_assignNode (hi : MapsInv lyt) (ht : t.isDead = false) {m : ℕ} (hm : m < lyt.size) :
    (lyt.assignNode t n).isDead m =
      (lyt.isDead m || (lyt.isPlaced m && decide (lyt.getTile m = t))) := by
  rw [(assignNode_flagChange ht n).isDead m hm]
  simp only [hi.tileNodeMap_iff ht]
  by_cases hp : lyt.isPlaced m = true <;> by_cases hm' : lyt.getTile m = t <;> simp [hp, hm']

theorem relocate_getNode (s : Signal) :
    (lyt.relocate n t (lyt.getTile n)).getNode s = lyt.getNodeAfter n t s := by
  unfold relocate getNodeAfter
  by_cases h : t = lyt.getTile n
  · rw [if_neg (not_not.mpr h), if_pos h]
  · rw [if_pos h, if_neg h, (reviveNode_samePlacement n).getNode]
    cases hd : t.isDead with
    | true =>
      simp only [assignNode_dead hd, clearTile_getNode, Bool.true_eq_false, false_and, if_false]
    | false =>
      rw [assignNode_getNode hd, clearTile_getNode]
      simp only [true_and]

theorem live_of_isPlaced {m : ℕ} (hp : lyt.isPlaced m = true) :
    (lyt.getTile m).isDead = false := by
  simpa [isPlaced] using hp

theorem MapsInv.getTile_ne (hi : MapsInv lyt) {m : ℕ} (hm : m ≠ n) (hp : lyt.isPlaced m = true) :
    lyt.getTile m ≠ lyt.getTile n := by
  intro he
  have hd := live_of_isPlaced hp
  exact hm (Option.some.inj (((hi.getTile_eq_iff hd).mpr rfl).symm.trans
    ((hi.getTile_eq_iff hd).mpr he.symm)))

/-- The tile of `n` hosts no other placed node. -/
theorem MapsInv.occupant_getTile (hi : MapsInv lyt) {m : ℕ} (hp : lyt.isPlaced m = true) :
    lyt.tileNodeMap (lyt.getTile n) = some m ↔ m = n := by
  constructor
  · intro h
    by_contra hm
    cases hd : (lyt.getTile n).isDead with
    | true =>
      have h₁ := hi.dead_tile _ m hd h
      have h₂ := (hi.lt_size_of_placed hp).1
      omega
    | false => exact hi.getTile_ne hm hp ((hi.getTile_eq_iff hd).mp h)
  · rintro rfl
    have hd := live_of_isPlaced hp
    exact (hi.getTile_eq_iff hd).mpr rfl

theorem MapsInv.isPlaced_clearTile_getTile (hi : MapsInv lyt) (n m : ℕ) :
    (lyt.clearTile (lyt.getTile n)).isPlaced m = if m = n then false else lyt.isPlaced m := by
  cases hp : lyt.isPlaced m with
  | false => rw [isPlaced_clearTile, hp]; simp
  | true =>
    rw [isPlaced_clearTile, hp]
    exact if_congr (hi.occupant_getTile hp) rfl rfl

theorem getTile_ne_dead {m : ℕ} (hp : lyt.isPlaced m = true) (hd : t.isDead = true) :
    lyt.getTile m ≠ t := by
  rintro rfl
  simp [isPlaced, hd] at hp

theorem isPlaced_relocate (hi : MapsInv lyt) (m : ℕ) :
    (lyt.relocate n t (lyt.getTile n)).isPlaced m = lyt.isPlacedAfter n t m := by
  unfold relocate
  split_ifs with h
  · rw [(reviveNode_samePlacement n).isPlaced]
    cases hd : t.isDead with
    | true =>
      rw [assignNode_dead hd, hi.isPlaced_clearTile_getTile, isPlacedAfter, hd]
      cases hp : lyt.isPlaced m with
      | false => simp
      | true => simp [getTile_ne_dead hp hd]
    | false =>
      rw [assignNode_live hd, (count_sameMaps n).isPlaced, isPlaced_place hd, isPlaced_clearTile,
        isPlacedAfter, hd, hi.isPlaced_clearTile_getTile, clearTile_tileNodeMap, if_neg h]
      simp only [hi.getTile_eq_iff hd]
      by_cases hm : m = n <;> by_cases hm' : lyt.getTile m = t <;> simp [hm, hm']
  · have h' : t = lyt.getTile n := not_not.mp h
    unfold isPlacedAfter
    split_ifs with hm
    · rw [hm, h', isPlaced]
    · cases hp : lyt.isPlaced m with
      | false => simp
      | true => simp [h', hi.getTile_ne hm hp]

theorem relocate_flagChange (hi : MapsInv lyt) (hn : 2 ≤ n) (ht : t ≠ lyt.getTile n) :
    FlagChange lyt (lyt.relocate n t (lyt.getTile n)) fun m _ => lyt.isDeadAfter n t m := by
  rw [relocate, if_pos ht]
  have hkill : ∀ m, lyt.tileNodeMap (lyt.getTile n) = some m ∧ 2 ≤ m → m = n := by
    rintro m ⟨h, hm⟩
    by_contra hmn
    cases hd : (lyt.getTile n).isDead with
    | true =>
      have := hi.dead_tile _ m hd h
      omega
    | false =>
      exact hmn (Option.some.inj (h.symm.trans ((hi.getTile_eq_iff hd).mpr rfl)))
  cases hd : t.isDead with
  | true =>
    rw [assignNode_dead hd]
    refine ((clearTile_flagChange _).trans (reviveNode_flagChange n)).congr fun m _ => ?_
    unfold isDeadAfter
    by_cases hm : m = n
    · rw [if_pos ⟨hm, hn⟩, if_pos hm]
    · rw [if_neg fun h => hm h.1, if_neg fun h => hm (hkill m h), if_neg hm]
      cases hp : lyt.isPlaced m with
      | false => simp
      | true => simp [getTile_ne_dead hp hd]
  | false =>
    refine (((clearTile_flagChange _).trans (assignNode_flagChange hd n)).trans
      (reviveNode_flagChange n)).congr fun m _ => ?_
    unfold isDeadAfter
    by_cases hm : m = n
    · rw [if_pos ⟨hm, hn⟩, if_pos hm]
    · rw [if_neg fun h => hm h.1, if_neg hm, clearTile_tileNodeMap, if_neg ht,
        if_neg fun h => hm (hkill m h)]
      simp only [hi.tileNodeMap_iff hd]
      by_cases hp : lyt.isPlaced m = true <;> by_cases hm' : lyt.getTile m = t <;> simp [hp, hm']

theorem relocate_flags (hi : MapsInv lyt) (hn : 2 ≤ n) (t : Tile) :
    FlagChange lyt (lyt.relocate n t (lyt.getTile n)) fun m d =>
      if t = lyt.getTile n then d else lyt.isDeadAfter n t m := by
  by_cases ht : t = lyt.getTile n
  · rw [relocate, if_neg (not_not.mpr ht)]
    exact SameWords.refl.flagChange.congr fun m _ => (if_pos ht).symm
  · exact (relocate_flagChange hi hn ht).congr fun m _ => (if_neg ht).symm

/-- What a call of `move_node` does to the children, counters and flags, provided that no counter
wraps around. -/
structure MoveSpec (lyt : GateLevelLayout) (n : ℕ) (t : Tile) (newChildren : List Signal)
    (lyt' : GateLevelLayout) : Prop where
  size : lyt'.size = lyt.size
  getNode : ∀ s, lyt'.getNode s = lyt.getNodeAfter n t s
  isPlaced : ∀ m, lyt'.isPlaced m = lyt.isPlacedAfter n t m
  children : ∀ m < lyt.size,
    (lyt'.node m).children = if m = n then newChildren else (lyt.node m).children
  word : ∀ m < lyt.size,
    (lyt.node n).children.countP (lyt.getNode · = m) ≤ lyt.refCount m →
    lyt.refCount m - (lyt.node n).children.countP (lyt.getNode · = m) +
      newChildren.countP (lyt.getNodeAfter n t · = m) < 2 ^ 31 →
    lyt'.refCount m = lyt.refCount m - (lyt.node n).children.countP (lyt.getNode · = m) +
      newChildren.countP (lyt.getNodeAfter n t · = m) ∧
    lyt'.isDead m = if t = lyt.getTile n then lyt.isDead m else lyt.isDeadAfter n t m

theorem setChildren_sameWords (cs : List Signal) :
    (lyt.modifyNode n fun d => { d with children := cs }).size = lyt.size ∧
    (∀ m < lyt.size, ((lyt.modifyNode n fun d => { d with children := cs }).node m).children =
      if m = n then cs else (lyt.node m).children) ∧
    (∀ m, (lyt.modifyNode n fun d => { d with children := cs }).refCount m = lyt.refCount m) ∧
    ∀ m, (lyt.modifyNode n fun d => { d with children := cs }).isDead m = lyt.isDead m := by
  refine ⟨lyt.size_modifyNode _ _, fun m hm => ?_, fun m => ?_, fun m => ?_⟩
  · rw [node_modifyNode]
    by_cases h : m = n
    · rw [if_pos ⟨h, h ▸ hm⟩, if_pos h]
    · rw [if_neg fun he => h he.1, if_neg h]
  · rw [refCount, refCount, node_modifyNode]
    split_ifs <;> rfl
  · rw [isDead_eq_flag, isDead_eq_flag, node_modifyNode]
    split_ifs <;> rfl

theorem moveNode_spec (hi : MapsInv lyt) (hn : 2 ≤ n ∧ n < lyt.size) (t : Tile)
    (newChildren : List Signal) :
    MoveSpec lyt n t newChildren (lyt.moveNode n t newChildren).1 := by
  have hdrop : SameMaps lyt (lyt.dropChildren n) := (dropChildren_samePlacement n).toSameMaps
  obtain ⟨hs₀, hc₀, hr₀, hf₀⟩ :=
    @setChildren_sameWords ((lyt.node n).children.foldl decrRef lyt) n []
  rw [foldl_decrRef_size] at hs₀ hc₀
  set l₁ := lyt.dropChildren n with hl₁
  have hi₁ : MapsInv l₁ := hdrop.mapsInv hi
  have ht₁ : l₁.getTile n = lyt.getTile n := hdrop.getTile n
  have hs₁ : l₁.size = lyt.size := hs₀
  have hfc := relocate_flags hi₁ hn.1 t
  simp only [ht₁] at hfc
  set l₂ := l₁.relocate n t (lyt.getTile n) with hl₂
  have hs₂ : l₂.size = lyt.size := hfc.size.trans hs₁
  have hg₂ : ∀ s, l₂.getNode s = lyt.getNodeAfter n t s := fun s => by
    rw [hl₂, ← ht₁, relocate_getNode]
    simp only [getNodeAfter, hdrop.getTile, hdrop.getNode]
  have hp₂ : ∀ m, l₂.isPlaced m = lyt.isPlacedAfter n t m := fun m => by
    rw [hl₂, ← ht₁, isPlaced_relocate hi₁]
    simp only [isPlacedAfter, hdrop.getTile, hdrop.isPlaced]
  obtain ⟨hs₃, hc₃, hr₃, hf₃⟩ := @setChildren_sameWords l₂ n newChildren
  rw [hs₂] at hs₃ hc₃
  set l₃ := l₂.modifyNode n fun d => { d with children := newChildren } with hl₃
  have hm₃ : SameMaps l₂ l₃ := (modifyNode_samePlacement
    (f := fun d => { d with children := newChildren }) n fun _ => rfl).toSameMaps
  have hm₄ : SameMaps l₃ (newChildren.foldl incrRef l₃) :=
    (foldl_incrRef_samePlacement newChildren).toSameMaps
  have hres : (lyt.moveNode n t newChildren).1 =
      (newChildren.foldl incrRef l₃).updateOutputs t (lyt.getTile n) := rfl
  have hw : SameWords (newChildren.foldl incrRef l₃) (lyt.moveNode n t newChildren).1 :=
    SameWords.of_nodes (by rw [hres]; rfl)
  have hu : SameMaps (newChildren.foldl incrRef l₃) (lyt.moveNode n t newChildren).1 := by
    rw [hres]
    exact (updateOutputs_samePlacement t _).toSameMaps
  have hs₄ : (newChildren.foldl incrRef l₃).size = lyt.size := by rw [foldl_incrRef_size, hs₃]
  refine ⟨hw.size.trans hs₄, fun s => ?_, fun m => ?_, fun m hm => ?_, fun m hm hle hlt => ?_⟩
  · rw [hu.getNode, hm₄.getNode, hm₃.getNode, hg₂]
  · rw [hu.isPlaced, hm₄.isPlaced, hm₃.isPlaced, hp₂]
  · rw [hw.children m (hs₄ ▸ hm), foldl_incrRef_children, hc₃ m hm]
    split_ifs with h
    · rfl
    · rw [hfc.children m (hs₁ ▸ hm)]
      have hc := hc₀ m hm
      rw [if_neg h, foldl_decrRef_children] at hc
      exact hc
  · obtain ⟨hd₁, hd₂⟩ := foldl_decrRef_word hm hle
    have hr₁ : l₁.refCount m = _ := (hr₀ m).trans hd₁
    have hb₁ : l₁.isDead m = lyt.isDead m := (hf₀ m).trans hd₂
    have hr₂ : l₃.refCount m = _ := (hr₃ m).trans ((hfc.refCount m (hs₁ ▸ hm)).trans hr₁)
    have hg₃ : ∀ s, l₃.getNode s = lyt.getNodeAfter n t s := fun s => by rw [hm₃.getNode, hg₂]
    have hword := @foldl_incrRef_word l₃ newChildren m (hs₃.symm ▸ hm)
      (by simp only [hg₃, hr₂]; exact hlt)
    simp only [hg₃, hr₂] at hword
    refine ⟨(hw.refCount m (hs₄ ▸ hm)).trans hword.1, ?_⟩
    rw [hw.isDead m (hs₄ ▸ hm), hword.2, hf₃, hfc.isDead m (hs₁ ▸ hm), hb₁]
    simp only [isDeadAfter, hb₁, hdrop.isPlaced, hdrop.getTile]

end Moves

section Creations

variable {t : Tile}

theorem node_size : lyt.node lyt.size = default := by
  rw [node, size, List.getD_eq_getElem?_getD, List.getElem?_eq_none le_rfl]
  rfl

theorem refCount_size : lyt.refCount lyt.size = 0 := by
  rw [refCount, node_size]
  rfl

theorem MapsInv.isPlaced_size (hi : MapsInv lyt) : lyt.isPlaced lyt.size = false :=
  Bool.eq_false_iff.mpr fun hp => (hi.lt_size_of_placed hp).2.false

theorem MapsInv.getNode_lt (hi : MapsInv lyt) (s : Signal) : lyt.getNode s < lyt.size := by
  have h2 := hi.two_le_size
  unfold getNode
  cases hm : lyt.tileNodeMap s with
  | none => exact Nat.lt_of_lt_of_le (by decide) h2
  | some m =>
    cases hd : s.isDead with
    | true =>
      have := hi.dead_tile s m hd hm
      simp only [Option.getD_some]
      omega
    | false => exact (hi.live_node s m hd hm).2

/-- `l` is `lyt` with one more node, which is not placed and not referenced yet. -/
structure Fresh (lyt : GateLevelLayout) (cs : List Signal) (l : GateLevelLayout) : Prop
    extends SameMaps lyt l where
  size_eq : l.size = lyt.size + 1
  children : ∀ m, (l.node m).children = if m = lyt.size then cs else (lyt.node m).children
  refCount : ∀ m, l.refCount m = lyt.refCount m
  isDead : ∀ m, l.isDead m = lyt.isDead m

theorem fresh_of_nodes {d : LayoutNode} {l : GateLevelLayout} (hd : d.h1 = 0)
    (hn : l.nodes = lyt.nodes ++ [d]) (hc : l.clocked = lyt.clocked)
    (ht : l.tileNodeMap = lyt.tileNodeMap) (hm : l.nodeTileMap = lyt.nodeTileMap) :
    Fresh lyt d.children l := by
  have hnode : ∀ m, l.node m = if m = lyt.size then d else lyt.node m := fun m => by
    rw [← node_emplaceNode]
    simp only [node, hn, emplaceNode]
  have hs : l.size = lyt.size + 1 := by simp [size, hn]
  refine ⟨⟨hc, ht, hm, by omega, fun m hlt => ?_⟩, hs, fun m => ?_, fun m => ?_, fun m => ?_⟩
  · rw [hnode, if_neg hlt.ne]
  · rw [hnode]
    split_ifs <;> rfl
  · rw [GateLevelLayout.refCount, hnode]
    split_ifs with h
    · rw [h, GateLevelLayout.refCount, node_size, hd]
      rfl
    · rfl
  · rw [isDead_eq_flag, hnode]
    split_ifs with h
    · rw [h, isDead_eq_flag, node_size, hd]
      rfl
    · rfl

theorem assignNode_flags (hi : MapsInv lyt) (t : Tile) (n : ℕ) :
    FlagChange lyt (lyt.assignNode t n)
      fun m d => d || (lyt.isPlaced m && decide (lyt.getTile m = t)) := by
  cases ht : t.isDead with
  | true =>
    rw [assignNode_dead ht]
    refine SameWords.refl.flagChange.congr fun m _ => ?_
    cases hp : lyt.isPlaced m with
    | false => simp
    | true => simp [getTile_ne_dead hp ht]
  | false =>
    refine (assignNode_flagChange ht n).congr fun m hm => ?_
    rw [← (assignNode_flagChange ht n).isDead m hm]
    exact isDead_assignNode hi ht hm

theorem isPlaced_assignNode_of_unplaced (hi : MapsInv lyt) {n : ℕ} (hn : lyt.isPlaced n = false)
    (t : Tile) (m : ℕ) : (lyt.assignNode t n).isPlaced m = lyt.isPlacedAfter n t m := by
  cases ht : t.isDead with
  | false => exact isPlaced_assignNode hi ht n m
  | true =>
    rw [assignNode_dead ht, isPlacedAfter, ht]
    by_cases hm : m = n
    · rw [if_pos hm, hm, hn]
      rfl
    · cases hp : lyt.isPlaced m with
      | false => simp [hm]
      | true => simp [hm, getTile_ne_dead hp ht]

/-- The node that `s` resolves to once the next node has been created on `t`. -/
def getNodeCreated (lyt : GateLevelLayout) (t : Tile) (s : Signal) : ℕ :=
  if t.isDead = false ∧ s = t then lyt.size else lyt.getNode s

theorem assignNode_getNode_size (l : GateLevelLayout) (t : Tile) (n : ℕ) (s : Signal) :
    (l.assignNode t n).getNode s = if t.isDead = false ∧ s = t then n else l.getNode s := by
  cases ht : t.isDead with
  | true => simp [assignNode_dead ht]
  | false => simp [assignNode_getNode ht]

/-- What a creation on `t` does to children, counters and flags if no counter wraps around. The
children are resolved by `res` when they are counted. -/
structure CreateSpec (lyt : GateLevelLayout) (t : Tile) (cs : List Signal) (res : Signal → ℕ)
    (lyt' : GateLevelLayout) : Prop where
  size : lyt'.size = lyt.size + 1
  getNode : ∀ s, lyt'.getNode s = lyt.getNodeCreated t s
  isPlaced : ∀ m, lyt'.isPlaced m = lyt.isPlacedAfter lyt.size t m
  children : ∀ m ≤ lyt.size,
    (lyt'.node m).children = if m = lyt.size then cs else (lyt.node m).children
  word : ∀ m ≤ lyt.size, lyt.refCount m + cs.countP (res · = m) < 2 ^ 31 →
    lyt'.refCount m = lyt.refCount m + cs.countP (res · = m) ∧
      lyt'.isDead m = lyt.isDeadAfter lyt.size t m

theorem isDead_size : lyt.isDead lyt.size = false := by
  rw [isDead, node_size]
  rfl

theorem isDeadAfter_size (hi : MapsInv lyt) (t : Tile) (m : ℕ) :
    lyt.isDeadAfter lyt.size t m =
      (lyt.isDead m || (lyt.isPlaced m && decide (lyt.getTile m = t))) := by
  unfold isDeadAfter
  split_ifs with h
  · rw [h, hi.isPlaced_size, isDead_size]
    rfl
  · rfl

theorem Fresh.assign {cs : List Signal} {l : GateLevelLayout} (hl : Fresh lyt cs l)
    (hi : MapsInv lyt) (t : Tile) :
    CreateSpec lyt t cs (fun _ => lyt.size + 1) (l.assignNode t lyt.size) := by
  have hil : MapsInv l := hl.toSameMaps.mapsInv hi
  have hf := assignNode_flags hil t lyt.size
  refine ⟨hf.size.trans hl.size_eq, fun s => ?_, fun m => ?_, fun m hm => ?_, fun m hm _ => ?_⟩
  · rw [assignNode_getNode_size, hl.toSameMaps.getNode, getNodeCreated]
  · rw [isPlaced_assignNode_of_unplaced hil (by rw [hl.toSameMaps.isPlaced, hi.isPlaced_size])]
    simp only [isPlacedAfter, hl.toSameMaps.isPlaced, hl.toSameMaps.getTile]
  · rw [hf.children m (by rw [hl.size_eq]; omega), hl.children]
  · have hz : cs.countP (fun _ => decide (lyt.size + 1 = m)) = 0 := by
      rw [List.countP_eq_zero]
      intro _ _
      simp only [decide_eq_true_eq]
      omega
    rw [hz, hf.refCount m (by rw [hl.size_eq]; omega), hf.isDead m (by rw [hl.size_eq]; omega),
      hl.refCount, hl.isDead, isDeadAfter_size hi, hl.toSameMaps.isPlaced, hl.toSameMaps.getTile]
    exact ⟨rfl, rfl⟩

theorem createPi_spec (hi : MapsInv lyt) (name : String) (t : Tile) :
    CreateSpec lyt t [] (fun _ => lyt.size + 1) (lyt.createPi name t).1 := by
  let l := { (lyt.emplaceNode ⟨[], 0, .identity⟩).2 with
    inputs := lyt.inputs ++ [lyt.size] }.setName lyt.size
      (if name.isEmpty then s!"pi{lyt.numPis}" else name)
  have hl : Fresh lyt [] l := fresh_of_nodes (d := ⟨[], 0, .identity⟩) rfl rfl rfl rfl rfl
  have h := hl.assign hi t
  exact ⟨h.size, h.getNode, h.isPlaced, h.children, h.word⟩

theorem createRo_spec (hi : MapsInv lyt) (name : String) (t : Tile) :
    CreateSpec lyt t [] (fun _ => lyt.size + 1) (lyt.createRo name t).1 := by
  let l := { (lyt.emplaceNode ⟨[], 0, .identity⟩).2 with
    inputs := lyt.inputs ++ [lyt.size], registers := lyt.registers + 1 }.setName lyt.size
      (if name.isEmpty then s!"ro{lyt.numPis}" else name)
  have hl : Fresh lyt [] l := fresh_of_nodes (d := ⟨[], 0, .identity⟩) rfl rfl rfl rfl rfl
  exact hl.assign hi t

theorem pushChild_spec (l : GateLevelLayout) (n : ℕ) (s : Signal) :
    (l.pushChild n s).size = l.size ∧
    (∀ m < l.size, ((l.pushChild n s).node m).children =
      if m = n then (l.node m).children ++ [s] else (l.node m).children) ∧
    ∀ m < l.size, (l.getNode s = m → l.refCount m + 1 < 2 ^ 31) →
      (l.pushChild n s).refCount m = l.refCount m + (if l.getNode s = m then 1 else 0) ∧
      (l.pushChild n s).isDead m = l.isDead m := by
  have hs : (l.pushChild n s).size = l.size := by
    rw [pushChild, size_modifyNode, incrRef_size]
  refine ⟨hs, fun m hm => ?_, fun m hm hlt => ?_⟩
  · rw [pushChild, node_modifyNode, incrRef_size]
    by_cases h : m = n
    · rw [if_pos ⟨h, h ▸ hm⟩, if_pos h, incrRef_children]
    · rw [if_neg fun he => h he.1, if_neg h, incrRef_children]
  · have hh : ((l.pushChild n s).node m).h1 = ((l.incrRef s).node m).h1 := by
      rw [pushChild, node_modifyNode]
      split_ifs <;> rfl
    rw [refCount, isDead_eq_flag, hh]
    exact incrRef_word hm hlt

theorem CreateSpec.pushChild {l : GateLevelLayout} {r : Signal → ℕ}
    (h : CreateSpec lyt t [] r l) (s : Signal) :
    CreateSpec lyt t [s] (lyt.getNodeCreated t) (l.pushChild lyt.size s) := by
  obtain ⟨hs, hc, hw⟩ := pushChild_spec l lyt.size s
  have hp : SameMaps l (l.pushChild lyt.size s) := (pushChild_samePlacement _ _).toSameMaps
  refine ⟨hs.trans h.size, fun s' => ?_, fun m => ?_, fun m hm => ?_, fun m hm hlt => ?_⟩
  · rw [hp.getNode, h.getNode]
  · rw [hp.isPlaced, h.isPlaced]
  · rw [hc m (by rw [h.size]; omega), h.children m hm]
    split_ifs <;> rfl
  · have hcount : [s].countP (lyt.getNodeCreated t · = m) =
        if l.getNode s = m then 1 else 0 := by
      rw [h.getNode, List.countP_cons, List.countP_nil, Nat.zero_add]
      simp only [decide_eq_true_eq]
    have hl : lyt.refCount m < 2 ^ 31 := refCount_lt m
    obtain ⟨h₁, h₂⟩ := h.word m hm (by simpa using hl)
    rw [List.countP_nil, Nat.add_zero] at h₁
    rw [hcount] at hlt ⊢
    obtain ⟨h₃, h₄⟩ := hw m (by rw [h.size]; omega) fun he => by rw [if_pos he] at hlt; omega
    exact ⟨by rw [h₃, h₁], by rw [h₄, h₂]⟩

theorem createPo_spec (hi : MapsInv lyt) (s : Signal) (name : String) (t : Tile) :
    CreateSpec lyt t [s] (lyt.getNodeCreated t) (lyt.createPo s name t).1 := by
  let l := { (lyt.emplaceNode ⟨[], 0, .identity⟩).2 with
    outputs := lyt.outputs.take lyt.numPos ++ t :: lyt.outputs.drop lyt.numPos }.setName lyt.size
      (if name.isEmpty then s!"po{lyt.numPos}" else name)
  have hl : Fresh lyt [] l := fresh_of_nodes (d := ⟨[], 0, .identity⟩) rfl rfl rfl rfl rfl
  have h := hl.assign hi t
  have h' : CreateSpec lyt t [] (fun _ => lyt.size + 1)
      { l.assignNode t lyt.size with numPos := (l.assignNode t lyt.size).numPos + 1 } :=
    ⟨h.size, h.getNode, h.isPlaced, h.children, h.word⟩
  exact h'.pushChild s

theorem createRi_spec (hi : MapsInv lyt) (s : Signal) (name : String) (t : Tile) :
    CreateSpec lyt t [s] (lyt.getNodeCreated t) (lyt.createRi s name t).1 := by
  let l := { (lyt.emplaceNode ⟨[], 0, .identity⟩).2 with
    outputs := lyt.outputs ++ [t] }.setName lyt.size
      (if name.isEmpty then s!"ri{lyt.numPos}" else name)
  have hl : Fresh lyt [] l := fresh_of_nodes (d := ⟨[], 0, .identity⟩) rfl rfl rfl rfl rfl
  exact (hl.assign hi t).pushChild s

/-- Gates and wires are connected to their fanins before they are assigned to their tile. -/
theorem createNode_spec (hi : MapsInv lyt) {cs : List Signal} (hcs : cs ≠ [])
    (function : TruthTable) (t : Tile) :
    CreateSpec lyt t cs lyt.getNode (lyt.createNode cs function t).1 := by
  rw [createNode, if_neg (by simpa using hcs)]
  let d : LayoutNode := ⟨cs, 0, function⟩
  have hl : Fresh lyt cs (lyt.emplaceNode d).2 := fresh_of_nodes (d := d) rfl rfl rfl rfl rfl
  set l := (lyt.emplaceNode d).2 with hdef
  have hm : SameMaps l (cs.foldl incrRef l) := (foldl_incrRef_samePlacement cs).toSameMaps
  have hml : SameMaps lyt (cs.foldl incrRef l) := hl.toSameMaps.trans hm
  have hil : MapsInv (cs.foldl incrRef l) := hml.mapsInv hi
  have hsz : (cs.foldl incrRef l).size = lyt.size + 1 := by rw [foldl_incrRef_size, hl.size_eq]
  have hres : (lyt.createNodeFromLiteral cs function t).1 =
      (cs.foldl incrRef l).assignNode t lyt.size := rfl
  rw [hres]
  have hf := assignNode_flags hil t lyt.size
  refine ⟨hf.size.trans hsz, fun s => ?_, fun m => ?_, fun m hm => ?_, fun m hm hlt => ?_⟩
  · rw [assignNode_getNode_size, hml.getNode, getNodeCreated]
  · rw [isPlaced_assignNode_of_unplaced hil (by rw [hml.isPlaced, hi.isPlaced_size])]
    simp only [isPlacedAfter, hml.isPlaced, hml.getTile]
  · rw [hf.children m (by rw [hsz]; omega), foldl_incrRef_children, hl.children]
  · have hw := @foldl_incrRef_word l cs m (by rw [hl.size_eq]; omega)
      (by simp only [hl.toSameMaps.getNode, hl.refCount]; exact hlt)
    simp only [hl.toSameMaps.getNode, hl.refCount, hl.isDead] at hw
    rw [hf.refCount m (by rw [hsz]; omega), hf.isDead m (by rw [hsz]; omega), hw.1, hw.2,
      isDeadAfter_size hi, hml.isPlaced, hml.getTile]
    exact ⟨rfl, rfl⟩

end Creations

end Fiction.GateLevelLayout
