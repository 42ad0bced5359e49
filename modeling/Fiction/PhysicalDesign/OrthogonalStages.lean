import Fiction.Layouts.LayoutOperations
import Fiction.Library.TransitionSystem
import Fiction.PhysicalDesign.OrthogonalPlacement

/-!
# Steps of the orthogonal placement

Each step of the placement loop draws on tiles of the layout only, and opens as many columns and
rows as the walk that computes the size counts for the node.
-/

namespace Fiction

namespace GateLevelLayout

variable {lyt lyt' : GateLevelLayout}

theorem clearTile_clocked (t : Tile) : (lyt.clearTile t).clocked = lyt.clocked := by
  unfold clearTile uncount killNode
  cases lyt.tileNodeMap t with
  | none => rfl
  | some n =>
    dsimp only
    split_ifs <;> rfl

theorem assignNode_clocked (t : Tile) (n : ℕ) : (lyt.assignNode t n).clocked = lyt.clocked := by
  unfold assignNode count
  split_ifs with hd
  · rfl
  · dsimp only
    split_ifs <;> exact clearTile_clocked t

theorem CreatedAt.clocked {t : Tile} (h : CreatedAt lyt t lyt') : lyt'.clocked = lyt.clocked := by
  obtain ⟨d, l, hl, hl'⟩ := h
  rw [hl'.clocked, assignNode_clocked, hl.clocked]
  rfl

theorem createNodeFromLiteral_clocked (children : List Signal) (function : TruthTable) (t : Tile) :
    (lyt.createNodeFromLiteral children function t).1.clocked = lyt.clocked :=
  (createNodeFromLiteral_createdAt children function t).clocked

theorem moveNode_clocked (n : ℕ) (t : Tile) (newChildren : List Signal) :
    (lyt.moveNode n t newChildren).1.clocked = lyt.clocked := by
  unfold moveNode
  rw [(updateOutputs_samePlacement t _).clocked, (assignChildren_samePlacement n newChildren).clocked]
  have hmoved : (((lyt.dropChildren n).clearTile (lyt.getTile n)).assignNode t n).clocked =
      lyt.clocked := by
    rw [assignNode_clocked, clearTile_clocked, (dropChildren_samePlacement n).clocked]
  unfold relocate reviveNode
  split_ifs
  · exact hmoved
  · exact hmoved
  · exact (dropChildren_samePlacement n).clocked

end GateLevelLayout

namespace Orthogonal

open TechnologyNetwork
open GateLevelLayout (createNodeFromLiteral_clocked moveNode_clocked createPo_createdAt)

section Size

variable (ntk : TechnologyNetwork) (V : FanoutView ntk) (T : ntk.TopoView)
  (ctn : ColoringContainer)

/-- The number of columns that a node opens. -/
def columns (n : ℕ) : ℕ :=
  if isConstant n then 0
  else (if ntk.isPi n then (V.fanouts n).countP fun fon => ctn.color fon = some .south
      else if ctn.color n = some .south then 0 else 1) +
    if ntk.isPo n ∧ isEasternPoOrientationAvailable ntk V ctn n then 1 else 0

/-- The number of rows that a node opens, not counting those of the inputs. -/
def rows (n : ℕ) : ℕ :=
  if isConstant n then 0
  else (if ntk.isPi n ∨ ctn.color n = some .east then 0 else 1) +
    if ntk.isPo n ∧ ¬ isEasternPoOrientationAvailable ntk V ctn n then 1 else 0

variable {ntk V T ctn}

theorem enlarge_eq (size : ℕ × ℕ) (n : ℕ) :
    enlarge ntk V ctn size n = (size.1 + columns ntk V ctn n, size.2 + rows ntk V ctn n) := by
  obtain ⟨x, y⟩ := size
  unfold enlarge columns rows
  cases isConstant n
  · cases ntk.isPi n <;> cases ntk.isPo n <;>
      cases isEasternPoOrientationAvailable ntk V ctn n <;>
      rcases ctn.color n with - | (- | -) <;> simp [Nat.add_assoc]
  · simp

theorem foldl_enlarge (ns : List ℕ) (size : ℕ × ℕ) :
    ns.foldl (enlarge ntk V ctn) size = (size.1 + (ns.map (columns ntk V ctn)).sum,
      size.2 + (ns.map (rows ntk V ctn)).sum) := by
  induction ns generalizing size with
  | nil => rfl
  | cons n ns ih =>
    rw [List.foldl_cons, enlarge_eq, ih]
    simp only [List.map_cons, List.sum_cons, Nat.add_assoc]

end Size

/-- The tiles of a canvas lie in the layout. -/
structure Drawn (D : ClockedLayout) (cv : Canvas) : Prop where
  clocked : cv.layout.clocked = D
  inside : ∀ t ∈ cv.used, D.Inside t

section Canvas

variable {D : ClockedLayout} {cv cv' : Canvas} {ntk : TechnologyNetwork} {t : Tile} {n : ℕ}
  {s : Signal}

theorem Drawn.put (h : Drawn D cv) {r : GateLevelLayout × Signal}
    (hr : r.1.clocked = cv.layout.clocked) (ht : D.Inside t) : Drawn D (cv.put t r).1 where
  clocked := hr.trans h.clocked
  inside t' ht' := by
    rcases List.mem_append.mp ht' with ht' | ht'
    · exact h.inside t' ht'
    · rwa [List.mem_singleton.mp ht']

theorem Drawn.createBuf (h : Drawn D cv) (a : Signal) (ht : D.Inside t) :
    Drawn D (cv.createBuf a t).1 :=
  h.put (createNodeFromLiteral_clocked [a] .identity t) ht

/-- Wires cross other tiles in the second layer. -/
theorem Drawn.extendWire {p : Canvas × Signal} (hz : D.z = 1) (h : Drawn D p.1) (ht : D.Inside t)
    (hground : t.z = 0) :
    Drawn D (Canvas.extendWire p t).1 ∧ D.Inside (Canvas.extendWire p t).2 := by
  have habove : D.Inside (if p.1.layout.isEmptyTile t then t else p.1.layout.clocked.above t) := by
    split_ifs
    · exact ht
    · rw [h.clocked, CoordinateLayout.above, hground, hz, if_neg (by omega), if_pos (by omega)]
      exact ⟨ht.live, ht.x_le, ht.y_le, hz.ge⟩
  exact ⟨h.createBuf _ habove, habove⟩

theorem Drawn.foldl_extendWire (hz : D.z = 1) {ts : List Tile}
    (hts : ∀ t ∈ ts, D.Inside t ∧ t.z = 0) {p : Canvas × Signal} (h : Drawn D p.1)
    (hp : D.Inside p.2) : Drawn D (ts.foldl Canvas.extendWire p).1 ∧
      D.Inside (ts.foldl Canvas.extendWire p).2 := by
  induction ts generalizing p with
  | nil => exact ⟨h, hp⟩
  | cons t ts ih =>
    obtain ⟨ht, hground⟩ := hts t List.mem_cons_self
    obtain ⟨hdrawn, hinside⟩ := h.extendWire hz ht hground
    exact ih (fun t' ht' => hts t' (List.mem_cons_of_mem t ht')) hdrawn hinside

theorem Drawn.wireEast (hz : D.z = 1) (h : Drawn D cv) {src dest : Tile} (hsrc : D.Inside src)
    (hdest : dest.x ≤ D.x + 1) :
    Drawn D (cv.wireEast src dest).1 ∧ D.Inside (cv.wireEast src dest).2 := by
  refine Drawn.foldl_extendWire hz (fun t ht => ?_) h hsrc
  obtain ⟨x, hx, rfl⟩ := List.mem_map.mp ht
  obtain ⟨hle, hlt⟩ := List.mem_range'_1.mp hx
  refine ⟨⟨rfl, ?_, hsrc.y_le, Nat.zero_le _⟩, rfl⟩
  change x ≤ D.x
  omega

theorem Drawn.wireSouth (hz : D.z = 1) (h : Drawn D cv) {src dest : Tile} (hsrc : D.Inside src)
    (hdest : dest.y ≤ D.y + 1) :
    Drawn D (cv.wireSouth src dest).1 ∧ D.Inside (cv.wireSouth src dest).2 := by
  refine Drawn.foldl_extendWire hz (fun t ht => ?_) h hsrc
  obtain ⟨y, hy, rfl⟩ := List.mem_map.mp ht
  obtain ⟨hle, hlt⟩ := List.mem_range'_1.mp hy
  refine ⟨⟨rfl, hsrc.x_le, ?_, Nat.zero_le _⟩, rfl⟩
  change y ≤ D.y
  omega

theorem Drawn.place (h : Drawn D cv) (ht : D.Inside t) (a : Signal)
    (hn : ntk.isInv n = true ∨ ntk.isBuf n = true) :
    ∃ cv', cv.place ntk t n a = some (cv', t) ∧ Drawn D cv' := by
  unfold Canvas.place
  split_ifs with hinv hbuf
  · exact ⟨_, rfl, h.put (createNodeFromLiteral_clocked [a] .not t) ht⟩
  · exact ⟨_, rfl, h.createBuf a ht⟩
  · exact absurd hn (by simp [hinv, hbuf])

theorem Drawn.placeBinary (h : Drawn D cv) (ht : D.Inside t) (a b : Signal) {c : Option Bool}
    (hmaj : ntk.isMaj n = true → c.isSome) (hn : ntk.isFunction n = true) :
    ∃ cv', cv.placeBinary ntk t n a b c = some (cv', t) ∧ Drawn D cv' := by
  have hlit : ∀ (children : List Signal) (function : TruthTable),
      Drawn D (cv.put t (cv.layout.createNodeFromLiteral children function t)).1 :=
    fun children function => h.put (createNodeFromLiteral_clocked children function t) ht
  rw [Canvas.placeBinary, if_pos hn]
  by_cases hand : ntk.isAnd n = true
  · exact ⟨_, if_pos hand, hlit [a, b] .and⟩
  rw [if_neg hand]
  by_cases hor : ntk.isOr n = true
  · exact ⟨_, if_pos hor, hlit [a, b] .or⟩
  rw [if_neg hor]
  by_cases hxor : ntk.isXor n = true
  · exact ⟨_, if_pos hxor, hlit [a, b] .xor⟩
  rw [if_neg hxor]
  by_cases hnand : ntk.isNand n = true
  · exact ⟨_, if_pos hnand, hlit [a, b] .nand⟩
  rw [if_neg hnand]
  by_cases hnor : ntk.isNor n = true
  · exact ⟨_, if_pos hnor, hlit [a, b] .nor⟩
  rw [if_neg hnor]
  by_cases hm : ntk.isMaj n = true
  · rw [if_pos hm]
    obtain ⟨v, rfl⟩ := Option.isSome_iff_exists.mp (hmaj hm)
    cases v
    · exact ⟨_, rfl, hlit [a, b] .and⟩
    · exact ⟨_, rfl, hlit [a, b] .or⟩
  · exact ⟨_, if_neg hm, hlit _ _⟩

theorem Drawn.connectAndPlace (hz : D.z = 1) (h : Drawn D cv) {pre : Tile} (ht : D.Inside t)
    (hpre : D.Inside pre) (hn : ntk.isInv n = true ∨ ntk.isBuf n = true)
    (hside : CoordinateLayout.isWestwardsOf t pre = true ∨
      CoordinateLayout.isNorthwardsOf t pre = true) :
    ∃ cv', cv.connectAndPlace ntk t n pre = some (cv', t) ∧ Drawn D cv' := by
  unfold Canvas.connectAndPlace
  split_ifs with hwest hnorth
  · exact (h.wireEast hz hpre (ht.x_le.trans (Nat.le_succ _))).1.place ht _ hn
  · exact (h.wireSouth hz hpre (ht.y_le.trans (Nat.le_succ _))).1.place ht _ hn
  · exact absurd hside (by simp [hwest, hnorth])

theorem Drawn.wireAndPlace (hz : D.z = 1) (h : Drawn D cv) {pre₁ pre₂ : Tile}
    (ht : D.Inside t) (h₁ : D.Inside pre₁) (h₂ : D.Inside pre₂) (eastFirst : Bool)
    {c : Option Bool} (hmaj : ntk.isMaj n = true → c.isSome) (hn : ntk.isFunction n = true) :
    ∃ cv', cv.wireAndPlace ntk eastFirst t n pre₁ pre₂ c = some (cv', t) ∧ Drawn D cv' := by
  have hx : t.x ≤ D.x + 1 := ht.x_le.trans (Nat.le_succ _)
  have hy : t.y ≤ D.y + 1 := ht.y_le.trans (Nat.le_succ _)
  rw [Canvas.wireAndPlace]
  cases eastFirst with
  | true =>
    obtain ⟨hb, -⟩ := h.wireEast hz h₂ hx
    generalize cv.wireEast pre₂ t = p at hb
    obtain ⟨ha, -⟩ := hb.wireSouth hz h₁ hy
    generalize hq : p.1.wireSouth pre₁ t = q at ha
    simp only [if_true, hq]
    exact ha.placeBinary ht _ _ hmaj hn
  | false =>
    obtain ⟨ha, -⟩ := h.wireSouth hz h₁ hy
    generalize cv.wireSouth pre₁ t = p at ha
    obtain ⟨hb, -⟩ := ha.wireEast hz h₂ hx
    generalize hq : p.1.wireEast pre₂ t = q at hb
    simp only [Bool.false_eq_true, if_false, hq]
    exact hb.placeBinary ht _ _ hmaj hn

theorem Drawn.connectAndPlaceBinary (hz : D.z = 1) (h : Drawn D cv) {pre₁ pre₂ : Tile}
    (ht : D.Inside t) (h₁ : D.Inside pre₁) (h₂ : D.Inside pre₂) (eastFirst : Bool)
    {c : Option Bool} (hmaj : ntk.isMaj n = true → c.isSome) (hn : ntk.isFunction n = true) :
    ∃ cv', cv.connectAndPlaceBinary ntk eastFirst t n pre₁ pre₂ c = some (cv', t) ∧
      Drawn D cv' := by
  rw [Canvas.connectAndPlaceBinary]
  split_ifs
  · exact h.wireAndPlace hz ht h₂ h₁ eastFirst hmaj hn
  · exact h.wireAndPlace hz ht h₁ h₂ eastFirst hmaj hn

theorem Drawn.connectToBorder (hz : D.z = 1) (h : Drawn D cv) (ht : D.Inside t) (s : Signal) :
    Drawn D (cv.connectToBorder s t).1 ∧ D.Inside (cv.connectToBorder s t).2.2 := by
  have hbuf := h.createBuf s ht
  have hborder : D.Inside ((cv.createBuf s t).1.layout.clocked.easternBorderOf t) := by
    rw [hbuf.clocked]
    exact ⟨rfl, le_rfl, ht.y_le, ht.z_le⟩
  unfold Canvas.connectToBorder
  split_ifs
  · exact ⟨h, ht⟩
  · exact ⟨(hbuf.wireEast hz ht (hborder.x_le.trans (Nat.le_succ _))).1, hborder⟩

end Canvas

/-- A ground tile in one of the first `x` columns and `y` rows. -/
structure Opened (x y : ℕ) (t : Tile) : Prop where
  live : t.isDead = false
  ground : t.z = 0
  x_lt : t.x < x
  y_lt : t.y < y

/-- `x` columns and `y` rows are open, and the placed nodes have found their tiles there. -/
structure Stage (D : ClockedLayout) (placed : ℕ → Prop) (x y : ℕ) (st : PlacementState) :
    Prop where
  drawn : Drawn D st.canvas
  latestPos : st.latestPos = .at2 x y
  pos : ∀ n, placed n → Opened x y (st.node2pos n)
  x_pos : 0 < x

section Steps

variable {D : ClockedLayout} {placed : ℕ → Prop} {x y x' y' : ℕ} {st : PlacementState}
  {ntk : TechnologyNetwork} {V : FanoutView ntk} {ctn : ColoringContainer} {n : ℕ} {t : Tile}

theorem Opened.mono (h : Opened x y t) (hx : x ≤ x') (hy : y ≤ y') : Opened x' y' t :=
  ⟨h.live, h.ground, h.x_lt.trans_le hx, h.y_lt.trans_le hy⟩

theorem Opened.inside (h : Opened x y t) (hx : x ≤ D.x + 1) (hy : y ≤ D.y + 1) : D.Inside t where
  live := h.live
  x_le := by have := h.x_lt; omega
  y_le := by have := h.y_lt; omega
  z_le := by rw [h.ground]; exact Nat.zero_le _

theorem Opened.east_inside (h : Opened x y t) (hx : x + 1 ≤ D.x + 1) (hy : y ≤ D.y + 1) :
    D.Inside (D.east t) := by
  have hlt := h.x_lt
  have ht := (h.inside (D := D) (by omega) hy)
  rw [CoordinateLayout.east, if_neg (by omega), if_pos (by omega)]
  exact ⟨ht.live, by change t.x + 1 ≤ D.x; omega, ht.y_le, ht.z_le⟩

theorem Opened.south_inside (h : Opened x y t) (hx : x ≤ D.x + 1) (hy : y + 1 ≤ D.y + 1) :
    D.Inside (D.south t) := by
  have hlt := h.y_lt
  have ht := (h.inside (D := D) hx (by omega))
  rw [CoordinateLayout.south, if_neg (by omega), if_pos (by omega)]
  exact ⟨ht.live, ht.x_le, by change t.y + 1 ≤ D.y; omega, ht.z_le⟩

theorem opened_at2 (hx : x < x') (hy : y < y') : Opened x' y' (.at2 x y) := ⟨rfl, rfl, hx, hy⟩

/-- A node gets a tile in the columns and rows that are open afterwards. -/
theorem Stage.place (h : Stage D placed x y st) {cv : Canvas} (hcv : Drawn D cv) (hx : x ≤ x')
    (hy : y ≤ y') (ht : Opened x' y' t) :
    Stage D (fun m => placed m ∨ m = n) x' y'
      { st with
        canvas := cv
        node2pos := Function.update st.node2pos n t
        latestPos := .at2 x' y' } where
  drawn := hcv
  latestPos := rfl
  pos m hm := by
    change Opened x' y' (Function.update st.node2pos n t m)
    by_cases hmn : m = n
    · rwa [hmn, Function.update_self]
    · rw [Function.update_of_ne hmn]
      exact (h.pos m (hm.resolve_right hmn)).mono hx hy
  x_pos := h.x_pos.trans_le hx

theorem Stage.placePi (hz : D.z = 1) (h : Stage D placed x y st) (pi2node : ℕ → ℕ)
    (hx : x + (if firstFanoutIs ntk V ctn .south n then 1 else 0) ≤ D.x + 1)
    (hy : y + 1 ≤ D.y + 1) :
    Stage D (fun m => placed m ∨ m = n) (x + if firstFanoutIs ntk V ctn .south n then 1 else 0)
      (y + 1) (placePi ntk V ctn pi2node st n) := by
  have hpi : D.Inside (.at2 0 y) := ⟨rfl, Nat.zero_le _, by change y ≤ D.y; omega, Nat.zero_le _⟩
  have hput := h.drawn.put (moveNode_clocked (pi2node n) (.at2 0 y) []) hpi
  unfold Orthogonal.placePi
  simp only [h.latestPos, Ucoord.at2]
  cases hsouth : firstFanoutIs ntk V ctn .south n with
  | false =>
    have ht : Opened x (y + 1) (.at2 0 y) := opened_at2 h.x_pos (Nat.lt_succ_self y)
    exact h.place hput (Nat.le_add_right x _) (Nat.le_succ y) ht
  | true =>
    rw [hsouth, if_pos rfl] at hx
    have hlatest : Opened (x + 1) (y + 1) (.at2 x y) :=
      opened_at2 (Nat.lt_succ_self x) (Nat.lt_succ_self y)
    obtain ⟨hwire, -⟩ := hput.wireEast hz hpi
      (show (Ucoord.at2 x y).x ≤ D.x + 1 by change x ≤ D.x + 1; omega)
    exact h.place (hwire.createBuf _ (hlatest.inside hx hy)) (Nat.le_succ x) (Nat.le_succ y) hlatest

theorem Stage.placeUnary (hz : D.z = 1) (h : Stage D placed x y st) {pre : ℕ} (hpre : placed pre)
    (hcolor : (ctn.color n).isSome) (hn : ntk.isInv n = true ∨ ntk.isBuf n = true)
    (hx : x + (if ctn.color n = some .south then 0 else 1) ≤ D.x + 1)
    (hy : y + (if ctn.color n = some .east then 0 else 1) ≤ D.y + 1) :
    ∃ st', placeUnary ntk ctn st n pre = some st' ∧
      Stage D (fun m => placed m ∨ m = n) (x + if ctn.color n = some .south then 0 else 1)
        (y + if ctn.color n = some .east then 0 else 1) st' := by
  have hp := h.pos pre hpre
  have hpx := hp.x_lt
  have hpy := hp.y_lt
  obtain ⟨c, hc⟩ := Option.isSome_iff_exists.mp hcolor
  simp only [hc, Orthogonal.placeUnary, h.latestPos, Ucoord.at2] at hx hy ⊢
  cases c with
  | east =>
    simp only [reduceCtorEq, if_false, if_true, Option.some.injEq] at hx hy ⊢
    have ht : Opened (x + 1) y (.at2 x (st.node2pos pre).y) :=
      opened_at2 (Nat.lt_succ_self x) hp.y_lt
    have hwest : CoordinateLayout.isWestwardsOf (.at2 x (st.node2pos pre).y) (st.node2pos pre) := by
      simp [CoordinateLayout.isWestwardsOf, Ucoord.at2, hp.ground, hpx]
    obtain ⟨cv, hcv, hdrawn⟩ := h.drawn.connectAndPlace hz (ht.inside hx hy)
      (hp.inside (by omega) hy) hn (.inl hwest)
    rw [Ucoord.at2] at hcv
    rw [hcv]
    exact ⟨_, rfl, h.place hdrawn (Nat.le_succ x) le_rfl ht⟩
  | south =>
    simp only [reduceCtorEq, if_false, if_true, Option.some.injEq] at hx hy ⊢
    have ht : Opened x (y + 1) (.at2 (st.node2pos pre).x y) :=
      opened_at2 hp.x_lt (Nat.lt_succ_self y)
    have hnorth :
        CoordinateLayout.isNorthwardsOf (.at2 (st.node2pos pre).x y) (st.node2pos pre) := by
      simp [CoordinateLayout.isNorthwardsOf, Ucoord.at2, hp.ground, hpy]
    obtain ⟨cv, hcv, hdrawn⟩ := h.drawn.connectAndPlace hz (ht.inside hx hy)
      (hp.inside hx (by omega)) hn (.inr hnorth)
    rw [Ucoord.at2] at hcv
    rw [hcv]
    exact ⟨_, rfl, h.place hdrawn le_rfl (Nat.le_succ y) ht⟩

theorem Stage.placeBinaryGate (hz : D.z = 1) (h : Stage D placed x y st) {fc : FaninContainer}
    {a b : ℕ} {rest : List ℕ} (hfc : fc.faninNodes = a :: b :: rest) (ha : placed a)
    (hb : placed b) (eastFirst : Bool) (hmaj : ntk.isMaj n = true → fc.constantFanin.isSome)
    (hn : ntk.isFunction n = true)
    (hx : x + (if ctn.color n = some .south then 0 else 1) ≤ D.x + 1)
    (hy : y + (if ctn.color n = some .east then 0 else 1) ≤ D.y + 1) :
    ∃ st', placeBinaryGate ntk ctn eastFirst st n fc = some st' ∧
      Stage D (fun m => placed m ∨ m = n) (x + if ctn.color n = some .south then 0 else 1)
        (y + if ctn.color n = some .east then 0 else 1) st' := by
  -- whichever predecessor comes first, both have found their tiles
  have hswap : ∀ (cond : Prop) [Decidable cond], ∃ p q,
      (if cond then (st.node2pos b, st.node2pos a) else (st.node2pos a, st.node2pos b)) = (p, q) ∧
        Opened x y p ∧ Opened x y q := by
    intro cond _
    split_ifs
    · exact ⟨_, _, rfl, h.pos b hb, h.pos a ha⟩
    · exact ⟨_, _, rfl, h.pos a ha, h.pos b hb⟩
  have hxle : x ≤ D.x + 1 := by omega
  have hyle : y ≤ D.y + 1 := by omega
  simp only [Orthogonal.placeBinaryGate, hfc, List.getElem?_cons_zero, List.getElem?_cons_succ,
    Option.bind_eq_bind, Option.bind_some, h.latestPos, Ucoord.at2]
  cases hc : ctn.color n with
  | none =>
    simp only [hc, reduceCtorEq, if_false] at hx hy ⊢
    obtain ⟨p, q, hpq, hp, hq⟩ := hswap
      ((!st.canvas.layout.isEmptyTile (st.canvas.layout.clocked.east (st.node2pos a)) ||
        !st.canvas.layout.isEmptyTile (st.canvas.layout.clocked.south (st.node2pos b))) = true)
    rw [hpq]
    have ht : Opened (x + 1) (y + 1) (.at2 x y) :=
      opened_at2 (Nat.lt_succ_self x) (Nat.lt_succ_self y)
    obtain ⟨he, hpe⟩ := h.drawn.wireEast hz (hp.inside hxle hyle)
      (show (Ucoord.at2 (x + 1) p.y).x ≤ D.x + 1 from hx)
    obtain ⟨hs, hqs⟩ := he.wireSouth hz (hq.inside hxle hyle)
      (show (Ucoord.at2 q.x (y + 1)).y ≤ D.y + 1 from hy)
    obtain ⟨cv, hcv, hdrawn⟩ :=
      hs.connectAndPlaceBinary hz (ht.inside hx hy) hpe hqs eastFirst hmaj hn
    simp only [Ucoord.at2] at hcv
    simp only [hcv, Option.bind_some]
    exact ⟨_, rfl, h.place hdrawn (Nat.le_succ x) (Nat.le_succ y) ht⟩
  | some c =>
    cases c with
    | east =>
      simp only [hc, reduceCtorEq, if_false, if_true, Option.some.injEq] at hx hy ⊢
      obtain ⟨p, q, hpq, hp, hq⟩ := hswap ((st.node2pos b).y < (st.node2pos a).y)
      rw [hpq]
      have ht : Opened (x + 1) y (.at2 x q.y) := opened_at2 (Nat.lt_succ_self x) hq.y_lt
      obtain ⟨he, hpe⟩ := h.drawn.wireEast hz (hp.inside hxle hyle)
        (show (Ucoord.at2 (x + 1) p.y).x ≤ D.x + 1 from hx)
      obtain ⟨cv, hcv, hdrawn⟩ := he.connectAndPlaceBinary hz (ht.inside hx hy) hpe
        (hq.inside hxle hyle) eastFirst hmaj hn
      simp only [Ucoord.at2] at hcv
      simp only [hcv, Option.bind_some]
      exact ⟨_, rfl, h.place hdrawn (Nat.le_succ x) le_rfl ht⟩
    | south =>
      simp only [hc, reduceCtorEq, if_false, if_true, Option.some.injEq] at hx hy ⊢
      obtain ⟨p, q, hpq, hp, hq⟩ := hswap ((st.node2pos b).x > (st.node2pos a).x)
      rw [hpq]
      have ht : Opened x (y + 1) (.at2 p.x y) := opened_at2 hp.x_lt (Nat.lt_succ_self y)
      obtain ⟨hs, hqs⟩ := h.drawn.wireSouth hz (hq.inside hxle hyle)
        (show (Ucoord.at2 q.x (y + 1)).y ≤ D.y + 1 from hy)
      obtain ⟨cv, hcv, hdrawn⟩ := hs.connectAndPlaceBinary hz (ht.inside hx hy)
        (hp.inside hxle hyle) hqs eastFirst hmaj hn
      simp only [Ucoord.at2] at hcv
      simp only [hcv, Option.bind_some]
      exact ⟨_, rfl, h.place hdrawn le_rfl (Nat.le_succ y) ht⟩

theorem Stage.placePo (hz : D.z = 1) (h : Stage D placed x y st) (hn : placed n)
    (hx : x + (if isEasternPoOrientationAvailable ntk V ctn n then 1 else 0) ≤ D.x + 1)
    (hy : y + (if isEasternPoOrientationAvailable ntk V ctn n then 0 else 1) ≤ D.y + 1) :
    Stage D placed (x + if isEasternPoOrientationAvailable ntk V ctn n then 1 else 0)
      (y + if isEasternPoOrientationAvailable ntk V ctn n then 0 else 1)
      (placePo ntk V ctn st n) := by
  have hpos : ∀ m, placed m → Opened
      (x + if isEasternPoOrientationAvailable ntk V ctn n then 1 else 0)
      (y + if isEasternPoOrientationAvailable ntk V ctn n then 0 else 1) (st.node2pos m) :=
    fun m hm => (h.pos m hm).mono (Nat.le_add_right x _) (Nat.le_add_right y _)
  have hput : ∀ {cv : Canvas} {po : Tile}, Drawn D cv → D.Inside po → ∀ a name,
      Drawn D (cv.put po (cv.layout.createPo a name po)).1 := fun hcv hpo a name =>
    hcv.put (createPo_createdAt a name _).clocked hpo
  have hclocked := h.drawn.clocked
  unfold Orthogonal.placePo
  cases heast : isEasternPoOrientationAvailable ntk V ctn n with
  | true =>
    simp only [heast, if_true, h.latestPos, hclocked] at hx hy hpos ⊢
    obtain ⟨hdrawn, hborder⟩ :=
      h.drawn.connectToBorder hz ((h.pos n hn).east_inside hx hy) (st.node2pos n)
    exact ⟨hput hdrawn hborder _ _, rfl, hpos, Nat.add_pos_left h.x_pos _⟩
  | false =>
    simp only [heast, Bool.false_eq_true, if_false, h.latestPos, hclocked] at hx hy hpos ⊢
    obtain ⟨hdrawn, hborder⟩ :=
      h.drawn.connectToBorder hz ((h.pos n hn).south_inside hx hy) (st.node2pos n)
    exact ⟨hput hdrawn hborder _ _, rfl, hpos, Nat.add_pos_left h.x_pos _⟩

end Steps

section Nodes

variable (ntk : TechnologyNetwork)

/-- No assertion fails and no missing fan-in is read when the gate is placed. -/
def isPlaceable (n : ℕ) : Bool :=
  match fanins ntk n with
  | none => false
  | some fc =>
    match fc.faninNodes with
    | [] => false
    | [_] => ntk.isInv n || ntk.isBuf n
    | _ => !ntk.isMaj n || fc.constantFanin.isSome

variable {ntk} {D : ClockedLayout} {placed : ℕ → Prop} {x y : ℕ} {st st' : PlacementState}
  {V : FanoutView ntk} {ctn : ColoringContainer} {n : ℕ} {eastFirst : Bool} {pi2node : ℕ → ℕ}

/-- Inputs have no more than one fan-out, so that it does not matter that only the first counts. -/
theorem countP_south_eq (h : (V.fanouts n).length ≤ 1) :
    ((V.fanouts n).countP fun fon => ctn.color fon = some .south) =
      if firstFanoutIs ntk V ctn .south n then 1 else 0 := by
  rw [firstFanoutIs]
  match hf : V.fanouts n, h with
  | [], _ => rfl
  | [fon], _ => exact List.countP_singleton

theorem mem_faninNodes {fc : FaninContainer} (h : fanins ntk n = some fc) {m : ℕ}
    (hm : m ∈ fc.faninNodes) :
    ntk.isCi n = false ∧ m ∈ (ntk.node n).children ∧ isConstant m = false := by
  cases hci : ntk.isCi n with
  | true =>
    simp only [fanins, hci, if_true, List.countP_nil, Nat.zero_le, Option.some.injEq] at h
    subst h
    cases hm
  | false =>
    simp only [fanins, hci, Bool.false_eq_true, if_false] at h
    split_ifs at h
    obtain rfl := Option.some.inj h
    obtain ⟨hmem, hc⟩ := List.mem_filter.mp hm
    exact ⟨rfl, hmem, by simpa using hc⟩

/-- A gate finds its tile in the columns and rows that its colour opens. -/
theorem Stage.placeGate (hz : D.z = 1) (h : Stage D placed x y st) (hc : isConstant n = false)
    (hgate : isPlaceable ntk n = true) (eastFirst : Bool)
    (hpre : ∀ m ∈ (ntk.node n).children, isConstant m = false → placed m)
    (hcolor : ∀ fc, fanins ntk n = some fc → fc.faninNodes.length = 1 → (ctn.color n).isSome)
    (hx : x + (if ctn.color n = some .south then 0 else 1) ≤ D.x + 1)
    (hy : y + (if ctn.color n = some .east then 0 else 1) ≤ D.y + 1) :
    ∃ st', Orthogonal.placeGate ntk ctn eastFirst st n = some st' ∧
      Stage D (fun m => placed m ∨ m = n) (x + if ctn.color n = some .south then 0 else 1)
        (y + if ctn.color n = some .east then 0 else 1) st' := by
  obtain ⟨fc, hfc⟩ : ∃ fc, fanins ntk n = some fc := by
    rw [isPlaceable] at hgate
    cases hf : fanins ntk n with
    | none => rw [hf] at hgate; cases hgate
    | some fc => exact ⟨fc, rfl⟩
  have hplaced : ∀ m ∈ fc.faninNodes, placed m := fun m hm =>
    hpre m (mem_faninNodes hfc hm).2.1 (mem_faninNodes hfc hm).2.2
  have hfunction : ∀ m ∈ fc.faninNodes, ntk.isFunction n = true := by
    intro m hm
    have hci := (mem_faninNodes hfc hm).1
    simp only [isConstant, decide_eq_false_iff_not, Nat.not_le] at hc
    simp [isFunction, hci, hc]
  simp only [isPlaceable, hfc] at hgate
  simp only [Orthogonal.placeGate, hfc, Option.bind_eq_bind, Option.bind_some]
  cases hl : fc.faninNodes with
  | nil => simp [hl] at hgate
  | cons a faninNodes =>
    cases faninNodes with
    | nil =>
      rw [hl] at hgate
      exact h.placeUnary hz (hplaced a (by simp [hl])) (hcolor fc hfc (by rw [hl]; rfl))
        (by simpa only [Bool.or_eq_true] using hgate) hx hy
    | cons b rest =>
      rw [hl] at hgate
      refine h.placeBinaryGate hz hl (hplaced a (by simp [hl])) (hplaced b (by simp [hl])) eastFirst
        (fun hmaj => ?_) (hfunction a (by simp [hl])) hx hy
      simpa [hmaj] using hgate

theorem Stage.placeNode (hz : D.z = 1) (h : Stage D placed x y st) (hc : isConstant n = false)
    (hpi : ntk.isPi n = true → (V.fanouts n).length ≤ 1)
    (hgate : ntk.isPi n = false → isPlaceable ntk n = true) (eastFirst : Bool) (pi2node : ℕ → ℕ)
    (hpre : ntk.isPi n = false → ∀ m ∈ (ntk.node n).children, isConstant m = false → placed m)
    (hcolor : ∀ fc, fanins ntk n = some fc → fc.faninNodes.length = 1 → (ctn.color n).isSome)
    (hx : x + columns ntk V ctn n ≤ D.x + 1)
    (hy : y + (rows ntk V ctn n + if ntk.isPi n then 1 else 0) ≤ D.y + 1) :
    ∃ st', Orthogonal.placeNode ntk V ctn eastFirst pi2node st n = some st' ∧
      Stage D (fun m => placed m ∨ m = n) (x + columns ntk V ctn n)
        (y + (rows ntk V ctn n + if ntk.isPi n then 1 else 0)) st' := by
  have hcolumns : columns ntk V ctn n =
      (if ntk.isPi n then (V.fanouts n).countP fun fon => ctn.color fon = some .south
        else if ctn.color n = some .south then 0 else 1) +
      if ntk.isPo n ∧ isEasternPoOrientationAvailable ntk V ctn n then 1 else 0 := by
    rw [columns, hc, if_neg Bool.false_ne_true]
  have hrows : rows ntk V ctn n = (if ntk.isPi n ∨ ctn.color n = some .east then 0 else 1) +
      if ntk.isPo n ∧ ¬ isEasternPoOrientationAvailable ntk V ctn n then 1 else 0 := by
    rw [rows, hc, if_neg Bool.false_ne_true]
  obtain ⟨a, b, st₁, hst₁, hstage, ha, hb⟩ : ∃ a b st₁,
      (if ntk.isPi n then some (Orthogonal.placePi ntk V ctn pi2node st n)
        else Orthogonal.placeGate ntk ctn eastFirst st n) = some st₁ ∧
      Stage D (fun m => placed m ∨ m = n) (x + a) (y + b) st₁ ∧
      columns ntk V ctn n =
        a + (if ntk.isPo n ∧ isEasternPoOrientationAvailable ntk V ctn n then 1 else 0) ∧
      rows ntk V ctn n + (if ntk.isPi n then 1 else 0) =
        b + if ntk.isPo n ∧ ¬ isEasternPoOrientationAvailable ntk V ctn n then 1 else 0 := by
    cases hp : ntk.isPi n with
    | true =>
      simp only [hp, if_true, true_or, countP_south_eq (hpi hp)] at hcolumns hrows hy ⊢
      exact ⟨_, _, _, rfl, h.placePi hz pi2node (by omega) (by omega), hcolumns, by omega⟩
    | false =>
      simp only [hp, Bool.false_eq_true, if_false, false_or] at hcolumns hrows hy ⊢
      obtain ⟨st₁, hst₁, hstage⟩ :=
        h.placeGate hz hc (hgate hp) eastFirst (hpre hp) hcolor (by omega) (by omega)
      exact ⟨_, _, st₁, hst₁, hstage, hcolumns, by omega⟩
  rw [Orthogonal.placeNode, hc, if_neg Bool.false_ne_true, hst₁, Option.map_some]
  rw [hb] at hy ⊢
  rw [ha] at hx ⊢
  cases hpo : ntk.isPo n with
  | false =>
    simp only [Bool.false_eq_true, false_and, if_false, Nat.add_zero]
    exact ⟨st₁, rfl, hstage⟩
  | true =>
    simp only [hpo, true_and, if_true, ite_not, ← Nat.add_assoc] at hx hy ⊢
    exact ⟨_, rfl, hstage.placePo hz (.inr rfl) hx hy⟩

end Nodes

section Failure

variable {ntk : TechnologyNetwork} {V : FanoutView ntk} {ctn : ColoringContainer} {n : ℕ}
  {st st' : PlacementState} {eastFirst : Bool} {pi2node : ℕ → ℕ}

theorem place_eq_none {cv : Canvas} {t : Tile} {a : Signal} (hinv : ntk.isInv n = false)
    (hbuf : ntk.isBuf n = false) : cv.place ntk t n a = none := by
  rw [Canvas.place, hinv, hbuf]
  rfl

theorem placeBinary_eq_none {cv : Canvas} {t : Tile} {a b : Signal} (hmaj : ntk.isMaj n = true) :
    cv.placeBinary ntk t n a b none = none := by
  have hfunction : (ntk.node n).function = .maj := by simpa [isMaj] using hmaj
  simp [Canvas.placeBinary, isAnd, isOr, isXor, isNand, isNor, isMaj, hfunction, TruthTable.and,
    TruthTable.or, TruthTable.xor, TruthTable.nand, TruthTable.nor, TruthTable.maj]

theorem wireAndPlace_eq_none {cv : Canvas} {t p q : Tile} (hmaj : ntk.isMaj n = true) :
    cv.wireAndPlace ntk eastFirst t n p q none = none := by
  cases eastFirst <;> exact placeBinary_eq_none hmaj

theorem connectAndPlaceBinary_eq_none {cv : Canvas} {t p q : Tile} (hmaj : ntk.isMaj n = true) :
    cv.connectAndPlaceBinary ntk eastFirst t n p q none = none := by
  rw [Canvas.connectAndPlaceBinary, wireAndPlace_eq_none hmaj, wireAndPlace_eq_none hmaj, ite_self]

theorem connectAndPlace_eq_none {cv : Canvas} {t p : Tile} (hinv : ntk.isInv n = false)
    (hbuf : ntk.isBuf n = false) : cv.connectAndPlace ntk t n p = none := by
  rw [Canvas.connectAndPlace]
  split_ifs
  · exact place_eq_none hinv hbuf
  · exact place_eq_none hinv hbuf
  · rfl

/-- A gate that is not placeable makes the loop fail. -/
theorem isPlaceable_of_placeGate (h : placeGate ntk ctn eastFirst st n = some st') :
    isPlaceable ntk n = true := by
  rw [← Bool.not_eq_false]
  intro hn
  cases hfc : fanins ntk n with
  | none =>
    rw [placeGate, hfc] at h
    cases h
  | some fc =>
    simp only [isPlaceable, hfc] at hn
    simp only [placeGate, hfc, Option.bind_eq_bind, Option.bind_some] at h
    match hl : fc.faninNodes with
    | [] =>
      rw [hl] at h
      simp [placeBinaryGate, hl] at h
    | [pre] =>
      simp only [hl, Bool.or_eq_false_iff] at hn h
      obtain ⟨hinv, hbuf⟩ := hn
      simp only [placeUnary] at h
      split at h <;> simp [connectAndPlace_eq_none hinv hbuf] at h
    | a :: b :: rest =>
      simp only [hl, Bool.or_eq_false_iff, Bool.not_eq_false', Option.isSome_eq_false_iff,
        Option.isNone_iff_eq_none] at hn h
      obtain ⟨hmaj, hnone⟩ := hn
      simp only [placeBinaryGate, hl, hnone, List.getElem?_cons_zero, List.getElem?_cons_succ,
        Option.bind_eq_bind, Option.bind_some] at h
      split at h <;> simp [connectAndPlaceBinary_eq_none hmaj] at h

theorem isPlaceable_of_placeNode (hc : isConstant n = false) (hpi : ntk.isPi n = false)
    (h : placeNode ntk V ctn eastFirst pi2node st n = some st') : isPlaceable ntk n = true := by
  rw [placeNode, hc, hpi, if_neg Bool.false_ne_true, if_neg Bool.false_ne_true,
    Option.map_eq_some_iff] at h
  obtain ⟨st₁, hst₁, -⟩ := h
  exact isPlaceable_of_placeGate hst₁

end Failure

end Orthogonal
end Fiction
