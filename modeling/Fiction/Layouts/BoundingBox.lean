import Fiction.Layouts.CellStorage
import Fiction.Layouts.GateLevelLayout
import Mathlib.Data.Int.Interval
import Mathlib.Data.Set.Finite.Lemmas

/-!
# Bounding boxes

`update_bounding_box` looks for the smallest and the largest column and row with an element. It only
looks at the ground layer and within the aspect ratio of the layout. The two searches that count
down run over unsigned 64-bit counters if the layout has offset coordinates, so that they start
again from the largest counter after zero; the fields of a coordinate then take the lowest 31 bits.
-/

namespace Fiction

/-- The coordinate types: unsigned fields of 31 bits, or signed 32-bit integers. -/
inductive CoordinateType where
  | offset | cube
  deriving DecidableEq, Repr

/-- The range of a field. The loops over a layout could not count beyond the last cube coordinate,
so that it is no dimension. -/
def CoordinateType.InRange : CoordinateType → ℤ → Prop
  | .offset, i => 0 ≤ i ∧ i < 2 ^ 31
  | .cube, i => -2 ^ 31 ≤ i ∧ i < 2 ^ 31 - 1

instance (ty : CoordinateType) (i : ℤ) : Decidable (ty.InRange i) :=
  match ty with
  | .offset => inferInstanceAs (Decidable (_ ∧ _))
  | .cube => inferInstanceAs (Decidable (_ ∧ _))

theorem CoordinateType.InRange.lt {ty : CoordinateType} {i : ℤ} (h : ty.InRange i) :
    i < 2 ^ 31 := by
  cases ty with
  | offset => exact h.2
  | cube => exact h.2.trans (by decide)

structure BoxedLayout where
  coordinateType : CoordinateType
  x : ℤ
  y : ℤ
  isEmpty : Bool
  isEmptyCoordinate : ℤ → ℤ → ℤ → Bool
  x_inRange : coordinateType.InRange x
  y_inRange : coordinateType.InRange y
  inRange : ∀ i j k, isEmptyCoordinate i j k = false →
    coordinateType.InRange i ∧ coordinateType.InRange j

def GateLevelLayout.boxed (lyt : GateLevelLayout) (hx : lyt.clocked.dimension.x < 2 ^ 31)
    (hy : lyt.clocked.dimension.y < 2 ^ 31)
    (h : ∀ t, lyt.isEmptyTile t = false → t.x < 2 ^ 31 ∧ t.y < 2 ^ 31) : BoxedLayout where
  coordinateType := .offset
  x := lyt.clocked.dimension.x
  y := lyt.clocked.dimension.y
  isEmpty := lyt.numGates + lyt.numWires = 0
  isEmptyCoordinate i j k :=
    i < 0 || j < 0 || k < 0 || lyt.isEmptyTile (.at3 i.toNat j.toNat k.toNat)
  x_inRange := ⟨by omega, by omega⟩
  y_inRange := ⟨by omega, by omega⟩
  inRange i j k he := by
    simp only [Bool.or_eq_false_iff, decide_eq_false_iff_not, not_lt] at he
    obtain ⟨⟨⟨hi, hj⟩, -⟩, he⟩ := he
    obtain ⟨hx, hy⟩ := h _ he
    simp only [Ucoord.at3] at hx hy
    exact ⟨⟨hi, by omega⟩, hj, by omega⟩

/-- A cell-level layout after some calls of `assign_cell_type`. It is empty if it has no cell. -/
def CellStorage.boxed {τ μ : Type} [DecidableEq τ] [Technology τ] [Inhabited μ]
    (coordinateType : CoordinateType) (x y : ℤ) (hx : coordinateType.InRange x)
    (hy : coordinateType.InRange y) (calls : List ((ℤ × ℤ × ℤ) × τ))
    (h : ∀ call ∈ calls, coordinateType.InRange call.1.1 ∧ coordinateType.InRange call.1.2.1) :
    BoxedLayout where
  coordinateType := coordinateType
  x := x
  y := y
  isEmpty := calls.all fun call =>
    (assignCellTypes calls : CellStorage (ℤ × ℤ × ℤ) τ μ).isEmptyCell call.1
  isEmptyCoordinate i j k :=
    (assignCellTypes calls : CellStorage (ℤ × ℤ × ℤ) τ μ).isEmptyCell (i, j, k)
  x_inRange := hx
  y_inRange := hy
  inRange i j k he := by
    obtain ⟨call, hcall, hc⟩ := exists_mem_of_not_isEmptyCell he
    have hrange := h call hcall
    rwa [hc] at hrange

structure BoundingBox where
  minX : ℤ
  minY : ℤ
  maxX : ℤ
  maxY : ℤ
  xSize : ℤ
  ySize : ℤ
  deriving DecidableEq

namespace BoundingBox

/-- The counters of a loop from zero up to `n`. -/
def upTo (n : ℤ) : List ℤ := (List.range (n + 1).toNat).map Nat.cast

/-- The counter is assigned in each iteration; the loop ends at the first element. -/
def scanUp (elemFound : ℤ → Bool) : List ℤ → ℤ → ℤ
  | [], last => last
  | i :: is, _ => if elemFound i then i else scanUp elemFound is i

/-- What a coordinate stores of a counter. -/
def toField : CoordinateType → ℕ → ℤ
  | .offset, i => (i % 2 ^ 31 : ℕ)
  | .cube, i => i

/-- An unsigned counter continues with the largest one after zero. -/
def decrement : CoordinateType → ℕ → Option ℕ
  | .offset, i => some ((i + (2 ^ 64 - 1)) % 2 ^ 64)
  | .cube, i => if i = 0 then none else some (i - 1)

/-- Without fuel, the loop has not come to an end. -/
def scanDown (ty : CoordinateType) (elemFound : ℤ → Bool) : ℕ → ℕ → Option ℤ
  | 0, _ => none
  | fuel + 1, i =>
    if elemFound (toField ty i) then some (toField ty i)
    else
      match decrement ty i with
      | none => some (toField ty i)
      | some i' => scanDown ty elemFound fuel i'

/-- The loop from `n` down to zero. -/
def scanDownFrom (ty : CoordinateType) (elemFound : ℤ → Bool) (fuel : ℕ) (n : ℤ) : Option ℤ :=
  if n < 0 then some 0 else scanDown ty elemFound fuel n.toNat

section Update

variable (lyt : BoxedLayout)

/-- An element of the ground layer in column `x`. -/
def inColumn (x : ℤ) : Bool := (upTo lyt.y).any fun y => !lyt.isEmptyCoordinate x y 0

/-- An element of the ground layer in row `y`. -/
def inRow (y : ℤ) : Bool := (upTo lyt.x).any fun x => !lyt.isEmptyCoordinate x y 0

def updateBoundingBox (fuel : ℕ) (box : BoundingBox) : Option BoundingBox :=
  if lyt.isEmpty then some { box with minX := 0, minY := 0, maxX := 0, maxY := 0 }
  else do
    let minX := scanUp (inColumn lyt) (upTo lyt.x) 0
    let minY := scanUp (inRow lyt) (upTo lyt.y) 0
    let maxX ← scanDownFrom lyt.coordinateType (inColumn lyt) fuel lyt.x
    let maxY ← scanDownFrom lyt.coordinateType (inRow lyt) fuel lyt.y
    some ⟨minX, minY, maxX, maxY, maxX - minX, maxY - minY⟩

def positions : Set (ℤ × ℤ) := {p | ∃ z, lyt.isEmptyCoordinate p.1 p.2 z = false}

def visited : Set (ℤ × ℤ) :=
  {p | 0 ≤ p.1 ∧ p.1 ≤ lyt.x ∧ 0 ≤ p.2 ∧ p.2 ≤ lyt.y ∧
    lyt.isEmptyCoordinate p.1 p.2 0 = false}

/-- The box is the smallest rectangle that contains the positions. -/
structure Smallest (S : Set (ℤ × ℤ)) (box : BoundingBox) : Prop where
  empty : S = ∅ → box.minX = 0 ∧ box.minY = 0 ∧ box.maxX = 0 ∧ box.maxY = 0
  minX : S.Nonempty → IsLeast (Prod.fst '' S) box.minX
  minY : S.Nonempty → IsLeast (Prod.snd '' S) box.minY
  maxX : S.Nonempty → IsGreatest (Prod.fst '' S) box.maxX
  maxY : S.Nonempty → IsGreatest (Prod.snd '' S) box.maxY

/-- The update ends with the smallest box and its sizes. -/
def Bounds (box : BoundingBox) : Prop :=
  ∃ fuel box', updateBoundingBox lyt fuel box = some box' ∧ Smallest (positions lyt) box' ∧
    box'.xSize = box'.maxX - box'.minX ∧ box'.ySize = box'.maxY - box'.minY

/-- All positions lie between positions of `G`. -/
def Spans (G S : Set (ℤ × ℤ)) : Prop :=
  ∀ p ∈ S, (∃ g ∈ G, g.1 ≤ p.1) ∧ (∃ g ∈ G, p.1 ≤ g.1) ∧ (∃ g ∈ G, g.2 ≤ p.2) ∧ ∃ g ∈ G, p.2 ≤ g.2

def Beyond : Prop :=
  ∃ a b, lyt.x < a ∧ lyt.y < b ∧ lyt.isEmptyCoordinate a lyt.y 0 = false ∧
    lyt.isEmptyCoordinate lyt.x b 0 = false ∧
    ∀ p ∈ positions lyt, lyt.x ≤ p.1 ∧ p.1 ≤ a ∧ lyt.y ≤ p.2 ∧ p.2 ≤ b

def Bounded (box : BoundingBox) : Prop :=
  (lyt.isEmpty = true ∧ positions lyt ⊆ {(0, 0)} ∧ box.xSize = 0 ∧ box.ySize = 0) ∨
    (lyt.isEmpty = false ∧ (visited lyt).Nonempty ∧ Spans (visited lyt) (positions lyt)) ∨
    (lyt.isEmpty = false ∧ visited lyt = ∅ ∧
      match lyt.coordinateType with
      | .offset => Beyond lyt
      | .cube => lyt.x ≤ 0 ∧ lyt.y ≤ 0 ∧ positions lyt ⊆ {(0, 0)})

end Update

section Scans

variable {elemFound : ℤ → Bool} {ty : CoordinateType} {n : ℤ}

theorem mem_upTo {i : ℤ} : i ∈ upTo n ↔ 0 ≤ i ∧ i ≤ n := by
  rw [upTo, List.mem_map]
  constructor
  · rintro ⟨k, hk, rfl⟩
    have := List.mem_range.mp hk
    omega
  · rintro ⟨h0, hn⟩
    exact ⟨i.toNat, List.mem_range.mpr (by omega), by omega⟩

theorem sorted_upTo : (upTo n).Pairwise (· < ·) :=
  List.pairwise_map.mpr (List.pairwise_lt_range.imp Nat.cast_lt.mpr)

theorem scanUp_of_not {is : List ℤ} (h : ∀ i ∈ is, elemFound i = false) (last : ℤ) :
    scanUp elemFound is last = is.getLastD last := by
  induction is generalizing last with
  | nil => rfl
  | cons i is ih =>
    rw [scanUp, h i List.mem_cons_self, if_neg Bool.false_ne_true,
      ih (fun j hj => h j (List.mem_cons_of_mem i hj)), List.getLastD_cons]

theorem isLeast_scanUp {is : List ℤ} (hs : is.Pairwise (· < ·))
    (h : ∃ i ∈ is, elemFound i = true) (last : ℤ) :
    IsLeast {i | i ∈ is ∧ elemFound i = true} (scanUp elemFound is last) := by
  induction is generalizing last with
  | nil =>
    obtain ⟨i, hi, -⟩ := h
    cases hi
  | cons i is ih =>
    obtain ⟨hlt, hs⟩ := List.pairwise_cons.mp hs
    rw [scanUp]
    cases hi : elemFound i with
    | true =>
      rw [if_pos rfl]
      refine ⟨⟨List.mem_cons_self, hi⟩, ?_⟩
      rintro j ⟨hj, -⟩
      rcases List.mem_cons.mp hj with rfl | hj
      · exact le_rfl
      · exact (hlt j hj).le
    | false =>
      rw [if_neg Bool.false_ne_true]
      obtain ⟨⟨hmem, hfound⟩, hleast⟩ := ih hs (by
        obtain ⟨j, hj, hfound⟩ := h
        rcases List.mem_cons.mp hj with rfl | hj
        · rw [hi] at hfound
          cases hfound
        · exact ⟨j, hj, hfound⟩) i
      refine ⟨⟨List.mem_cons_of_mem i hmem, hfound⟩, ?_⟩
      rintro j ⟨hj, hjfound⟩
      rcases List.mem_cons.mp hj with rfl | hj
      · rw [hi] at hjfound
        cases hjfound
      · exact hleast ⟨hj, hjfound⟩

theorem getLastD_upTo : (upTo n).getLastD 0 = max n 0 := by
  rcases lt_or_ge n 0 with hn | hn
  · have hnil : upTo n = [] := by
      rw [upTo, show (n + 1).toNat = 0 by omega]
      rfl
    rw [hnil, max_eq_right hn.le]
    rfl
  · have hsucc : (n + 1).toNat = n.toNat + 1 := by omega
    rw [upTo, hsucc, List.range_succ, List.map_append, List.map_singleton, List.getLastD_concat,
      max_eq_left hn]
    omega

theorem scanDown_of_true {fuel i : ℕ} (h : elemFound (toField ty i) = true) :
    scanDown ty elemFound (fuel + 1) i = some (toField ty i) := by
  rw [scanDown, if_pos h]

theorem scanDown_of_false {fuel i i' : ℕ} (h : elemFound (toField ty i) = false)
    (hi : decrement ty i = some i') :
    scanDown ty elemFound (fuel + 1) i = scanDown ty elemFound fuel i' := by
  rw [scanDown, h, if_neg Bool.false_ne_true, hi]

theorem decrement_succ {i : ℕ} (hi : i + 1 < 2 ^ 64) : decrement ty (i + 1) = some i := by
  cases ty with
  | offset => rw [decrement, show (i + 1 + (2 ^ 64 - 1)) % 2 ^ 64 = i by omega]
  | cube => rfl

theorem scanDown_mono {fuel fuel' i : ℕ} (hle : fuel ≤ fuel') {j : ℤ}
    (h : scanDown ty elemFound fuel i = some j) : scanDown ty elemFound fuel' i = some j := by
  induction fuel generalizing fuel' i with
  | zero => cases h
  | succ fuel ih =>
    obtain ⟨fuel', rfl⟩ : ∃ k, fuel' = k + 1 := ⟨fuel' - 1, by omega⟩
    rw [scanDown] at h ⊢
    split_ifs at h ⊢
    · exact h
    · cases hi : decrement ty i with
      | none => rwa [hi] at h
      | some i' =>
        rw [hi] at h
        exact ih (by omega) h

theorem exists_scanDown {i k : ℕ} (hk : elemFound (toField ty k) = true) (hle : k ≤ i)
    (hi : i < 2 ^ 64) (hnot : ∀ m, k < m → m ≤ i → elemFound (toField ty m) = false) :
    ∃ fuel, scanDown ty elemFound fuel i = some (toField ty k) := by
  induction i, hle using Nat.le_induction with
  | base => exact ⟨1, scanDown_of_true hk⟩
  | succ i hle ih =>
    obtain ⟨fuel, hrun⟩ := ih (by omega) fun m hm hmi => hnot m hm (by omega)
    refine ⟨fuel + 1, ?_⟩
    rw [scanDown_of_false (hnot (i + 1) (by omega) le_rfl) (decrement_succ hi), hrun]

theorem exists_scanDown_cube {i : ℕ} (hnot : ∀ m ≤ i, elemFound (toField .cube m) = false) :
    ∃ fuel, scanDown .cube elemFound fuel i = some 0 := by
  induction i with
  | zero =>
    refine ⟨1, ?_⟩
    rw [scanDown, hnot 0 le_rfl, if_neg Bool.false_ne_true]
    rfl
  | succ i ih =>
    obtain ⟨fuel, hrun⟩ := ih fun m hm => hnot m (by omega)
    exact ⟨fuel + 1, (scanDown_of_false (hnot (i + 1) le_rfl) rfl).trans hrun⟩

theorem scanDown_offset_wrap {i : ℕ} (hi : i < 2 ^ 64)
    (hnot : ∀ m ≤ i, elemFound (toField .offset m) = false) (fuel : ℕ) :
    scanDown .offset elemFound (fuel + (i + 1)) i =
      scanDown .offset elemFound fuel (2 ^ 64 - 1) := by
  induction i with
  | zero => exact scanDown_of_false (hnot 0 le_rfl) rfl
  | succ i ih =>
    rw [← Nat.add_assoc, scanDown_of_false (hnot (i + 1) le_rfl) (decrement_succ hi)]
    exact ih (by omega) fun m hm => hnot m (by omega)

theorem inRange_toField (i : ℕ) : CoordinateType.offset.InRange (toField .offset i) := by
  have hlt : i % 2 ^ 31 < 2 ^ 31 := Nat.mod_lt i (Nat.two_pow_pos 31)
  rw [toField]
  constructor <;> omega

theorem scanDown_offset_eq_none
    (h : ∀ j, CoordinateType.offset.InRange j → elemFound j = false) (fuel i : ℕ) :
    scanDown .offset elemFound fuel i = none := by
  induction fuel generalizing i with
  | zero => rfl
  | succ fuel ih => rw [scanDown_of_false (h _ (inRange_toField i)) rfl, ih]

theorem toField_of_inRange {i : ℕ} (h : ty.InRange n) (hi : (i : ℤ) ≤ n) : toField ty i = i := by
  cases ty with
  | offset =>
    have hlt := h.lt
    rw [toField, Nat.mod_eq_of_lt (by omega)]
  | cube => rfl

theorem exists_scanDownFrom (hn : ty.InRange n) {j : ℤ}
    (hj : IsGreatest {i | i ∈ upTo n ∧ elemFound i = true} j) :
    ∃ fuel, scanDownFrom ty elemFound fuel n = some j := by
  obtain ⟨⟨hmem, hfound⟩, hgreatest⟩ := hj
  obtain ⟨h0, hjn⟩ := mem_upTo.mp hmem
  have hlt := hn.lt
  have hcast : ((j.toNat : ℕ) : ℤ) = j := Int.toNat_of_nonneg h0
  have hfield : toField ty j.toNat = j := by rw [toField_of_inRange hn (by omega), hcast]
  obtain ⟨fuel, hrun⟩ := @exists_scanDown elemFound ty n.toNat j.toNat
    (by rw [hfield]; exact hfound) (by omega) (by omega) (by
      intro m hm hmi
      rw [toField_of_inRange hn (by omega)]
      by_contra hne
      have := hgreatest ⟨mem_upTo.mpr ⟨by omega, by omega⟩, Bool.eq_true_of_not_eq_false hne⟩
      omega)
  refine ⟨fuel, ?_⟩
  rw [scanDownFrom, if_neg (by omega), hrun, hfield]

theorem exists_scanDownFrom_cube
    (hnot : ∀ i ∈ upTo n, elemFound i = false) :
    ∃ fuel, scanDownFrom .cube elemFound fuel n = some 0 := by
  rcases lt_or_ge n 0 with hn | hn
  · exact ⟨0, if_pos hn⟩
  · obtain ⟨fuel, hrun⟩ := @exists_scanDown_cube elemFound n.toNat
      fun m hm => hnot m (mem_upTo.mpr ⟨by omega, by omega⟩)
    exact ⟨fuel, by rw [scanDownFrom, if_neg (by omega), hrun]⟩

theorem exists_scanDownFrom_offset (hn : CoordinateType.offset.InRange n)
    (hnot : ∀ i ∈ upTo n, elemFound i = false) {j : ℤ}
    (hj : IsGreatest {i | CoordinateType.offset.InRange i ∧ elemFound i = true} j) :
    ∃ fuel, scanDownFrom .offset elemFound fuel n = some j := by
  obtain ⟨⟨⟨h0, hlt⟩, hfound⟩, hgreatest⟩ := hj
  have hcast : ((j.toNat : ℕ) : ℤ) = j := Int.toNat_of_nonneg h0
  have hfield : toField .offset (2 ^ 64 - 2 ^ 31 + j.toNat) = j := by
    rw [toField]
    omega
  obtain ⟨fuel, hrun⟩ := exists_scanDown (i := 2 ^ 64 - 1) (k := 2 ^ 64 - 2 ^ 31 + j.toNat)
    (show elemFound (toField .offset _) = true by rw [hfield]; exact hfound) (by omega)
    (by omega) (by
      intro m hm hmi
      by_contra hne
      have hle := hgreatest ⟨inRange_toField m, Bool.eq_true_of_not_eq_false hne⟩
      rw [toField] at hle
      omega)
  refine ⟨fuel + (n.toNat + 1), ?_⟩
  have hwrap := @scanDown_offset_wrap elemFound n.toNat (by
    have := hn.2
    omega) (by
    intro m hm
    have hm' : (m : ℤ) ≤ n := by
      have := hn.1
      omega
    rw [toField_of_inRange hn hm']
    exact hnot m (mem_upTo.mpr ⟨by omega, hm'⟩)) fuel
  have := hn.1
  rw [scanDownFrom, if_neg (by omega), hwrap, hrun, hfield]

theorem scanDownFrom_unique {fuel fuel' : ℕ} {j j' : ℤ}
    (h : scanDownFrom ty elemFound fuel n = some j)
    (h' : scanDownFrom ty elemFound fuel' n = some j') : j = j' := by
  rw [scanDownFrom] at h h'
  split_ifs at h h'
  · exact Option.some.inj (h.symm.trans h')
  · have h₁ := scanDown_mono (le_max_left fuel fuel') h
    have h₂ := scanDown_mono (le_max_right fuel fuel') h'
    exact Option.some.inj (h₁.symm.trans h₂)

theorem scanDownFrom_mono {fuel fuel' : ℕ} {j : ℤ}
    (hle : fuel ≤ fuel') (h : scanDownFrom ty elemFound fuel n = some j) :
    scanDownFrom ty elemFound fuel' n = some j := by
  rw [scanDownFrom] at h ⊢
  split_ifs at h ⊢
  · exact h
  · exact scanDown_mono hle h

end Scans

section Correctness

variable {lyt : BoxedLayout} {box box' : BoundingBox} {S V : Set (ℤ × ℤ)}

theorem inColumn_iff {x : ℤ} :
    inColumn lyt x = true ↔ ∃ y, 0 ≤ y ∧ y ≤ lyt.y ∧ lyt.isEmptyCoordinate x y 0 = false := by
  simp only [inColumn, List.any_eq_true, mem_upTo, Bool.not_eq_true', and_assoc]

theorem inRow_iff {y : ℤ} :
    inRow lyt y = true ↔ ∃ x, 0 ≤ x ∧ x ≤ lyt.x ∧ lyt.isEmptyCoordinate x y 0 = false := by
  simp only [inRow, List.any_eq_true, mem_upTo, Bool.not_eq_true', and_assoc]

theorem columns_eq : {x | x ∈ upTo lyt.x ∧ inColumn lyt x = true} = Prod.fst '' visited lyt := by
  ext x
  simp only [Set.mem_ofPred_eq, mem_upTo, inColumn_iff, visited, Set.mem_image, Prod.exists,
    exists_and_right, exists_eq_right]
  constructor
  · rintro ⟨⟨h0, hx⟩, y, hy0, hy, he⟩
    exact ⟨y, h0, hx, hy0, hy, he⟩
  · rintro ⟨y, h0, hx, hy0, hy, he⟩
    exact ⟨⟨h0, hx⟩, y, hy0, hy, he⟩

theorem rows_eq : {y | y ∈ upTo lyt.y ∧ inRow lyt y = true} = Prod.snd '' visited lyt := by
  ext y
  simp only [Set.mem_ofPred_eq, mem_upTo, inRow_iff, visited, Set.mem_image, Prod.exists,
    exists_eq_right]
  constructor
  · rintro ⟨⟨h0, hy⟩, x, hx0, hx, he⟩
    exact ⟨x, hx0, hx, h0, hy, he⟩
  · rintro ⟨x, hx0, hx, h0, hy, he⟩
    exact ⟨⟨h0, hy⟩, x, hx0, hx, he⟩

theorem visited_subset : visited lyt ⊆ positions lyt := fun _ hp => ⟨0, hp.2.2.2.2⟩

theorem visited_finite : (visited lyt).Finite := by
  refine ((Set.finite_Icc 0 lyt.x).prod (Set.finite_Icc 0 lyt.y)).subset ?_
  rintro p ⟨hx0, hx, hy0, hy, -⟩
  exact ⟨⟨hx0, hx⟩, hy0, hy⟩

theorem exists_isGreatest {T : Set ℤ} (hT : T.Finite) (hne : T.Nonempty) :
    ∃ j, IsGreatest T j := by
  obtain ⟨j, hj, hmax⟩ := Set.exists_max_image T id hT hne
  exact ⟨j, hj, hmax⟩

theorem finite_inRange {f : ℤ → Bool} :
    {i | CoordinateType.offset.InRange i ∧ f i = true}.Finite :=
  (Set.finite_Ico 0 (2 ^ 31)).subset fun _ hi => hi.1

theorem isGreatest_of_scanDownFrom {f : ℤ → Bool} {n j : ℤ} {fuel : ℕ}
    (hn : CoordinateType.offset.InRange n) (hnot : ∀ i ∈ upTo n, f i = false)
    (h : scanDownFrom .offset f fuel n = some j) :
    IsGreatest {i | CoordinateType.offset.InRange i ∧ f i = true} j := by
  by_cases hne : {i | CoordinateType.offset.InRange i ∧ f i = true}.Nonempty
  · obtain ⟨k, hk⟩ := exists_isGreatest finite_inRange hne
    obtain ⟨fuel', hrun⟩ := exists_scanDownFrom_offset hn hnot hk
    rwa [scanDownFrom_unique h hrun]
  · have hnone : ∀ i, CoordinateType.offset.InRange i → f i = false := fun i hi => by
      by_contra hf
      exact hne ⟨i, hi, Bool.eq_true_of_not_eq_false hf⟩
    rw [scanDownFrom, if_neg (not_lt.mpr hn.1), scanDown_offset_eq_none hnone] at h
    cases h

theorem isLeast_iff (hsub : V ⊆ S) (f : ℤ × ℤ → ℤ) {m : ℤ} (hm : IsLeast (f '' V) m) :
    IsLeast (f '' S) m ↔ ∀ p ∈ S, ∃ g ∈ V, f g ≤ f p := by
  constructor
  · intro h p hp
    obtain ⟨g, hg, hgm⟩ := hm.1
    exact ⟨g, hg, hgm.le.trans (h.2 (Set.mem_image_of_mem f hp))⟩
  · intro h
    refine ⟨Set.image_mono hsub hm.1, ?_⟩
    rintro - ⟨p, hp, rfl⟩
    obtain ⟨g, hg, hle⟩ := h p hp
    exact (hm.2 (Set.mem_image_of_mem f hg)).trans hle

theorem isGreatest_iff (hsub : V ⊆ S) (f : ℤ × ℤ → ℤ) {m : ℤ} (hm : IsGreatest (f '' V) m) :
    IsGreatest (f '' S) m ↔ ∀ p ∈ S, ∃ g ∈ V, f p ≤ f g := by
  constructor
  · intro h p hp
    obtain ⟨g, hg, hgm⟩ := hm.1
    exact ⟨g, hg, (h.2 (Set.mem_image_of_mem f hp)).trans hgm.ge⟩
  · intro h
    refine ⟨Set.image_mono hsub hm.1, ?_⟩
    rintro - ⟨p, hp, rfl⟩
    obtain ⟨g, hg, hle⟩ := h p hp
    exact hle.trans (hm.2 (Set.mem_image_of_mem f hg))

theorem smallest_iff_spans (hsub : V ⊆ S) (hne : V.Nonempty) (hV : Smallest V box) :
    Smallest S box ↔ Spans V S := by
  have hS : S.Nonempty := hne.mono hsub
  constructor
  · intro h p hp
    exact ⟨(isLeast_iff hsub _ (hV.minX hne)).mp (h.minX hS) p hp,
      (isGreatest_iff hsub _ (hV.maxX hne)).mp (h.maxX hS) p hp,
      (isLeast_iff hsub _ (hV.minY hne)).mp (h.minY hS) p hp,
      (isGreatest_iff hsub _ (hV.maxY hne)).mp (h.maxY hS) p hp⟩
  · intro h
    refine ⟨fun h0 => absurd hS (by simp [h0]), fun _ => ?_, fun _ => ?_, fun _ => ?_, fun _ => ?_⟩
    · exact (isLeast_iff hsub _ (hV.minX hne)).mpr fun p hp => (h p hp).1
    · exact (isLeast_iff hsub _ (hV.minY hne)).mpr fun p hp => (h p hp).2.2.1
    · exact (isGreatest_iff hsub _ (hV.maxX hne)).mpr fun p hp => (h p hp).2.1
    · exact (isGreatest_iff hsub _ (hV.maxY hne)).mpr fun p hp => (h p hp).2.2.2

theorem smallest_zero_iff {box : BoundingBox} (hx : box.minX = 0) (hy : box.minY = 0)
    (hX : box.maxX = 0) (hY : box.maxY = 0) : Smallest S box ↔ S ⊆ {(0, 0)} := by
  constructor
  · intro h p hp
    have hx0 := (h.minX ⟨p, hp⟩).2 (Set.mem_image_of_mem _ hp)
    have hy0 := (h.minY ⟨p, hp⟩).2 (Set.mem_image_of_mem _ hp)
    have hx1 := (h.maxX ⟨p, hp⟩).2 (Set.mem_image_of_mem _ hp)
    have hy1 := (h.maxY ⟨p, hp⟩).2 (Set.mem_image_of_mem _ hp)
    exact Prod.ext (by omega) (by omega)
  · intro h
    rcases Set.subset_singleton_iff_eq.mp h with rfl | rfl
    · refine ⟨fun _ => ⟨hx, hy, hX, hY⟩, fun h => ?_, fun h => ?_, fun h => ?_, fun h => ?_⟩ <;>
        exact absurd h Set.not_nonempty_empty
    · refine ⟨fun h => absurd h (Set.singleton_ne_empty _), fun _ => ?_, fun _ => ?_, fun _ => ?_,
        fun _ => ?_⟩ <;>
        simp [hx, hy, hX, hY]

theorem updateBoundingBox_eq_some_iff (he : lyt.isEmpty = false) {fuel : ℕ} :
    updateBoundingBox lyt fuel box = some box' ↔
      ∃ a b, scanDownFrom lyt.coordinateType (inColumn lyt) fuel lyt.x = some a ∧
        scanDownFrom lyt.coordinateType (inRow lyt) fuel lyt.y = some b ∧
        box' = ⟨scanUp (inColumn lyt) (upTo lyt.x) 0, scanUp (inRow lyt) (upTo lyt.y) 0, a, b,
          a - scanUp (inColumn lyt) (upTo lyt.x) 0, b - scanUp (inRow lyt) (upTo lyt.y) 0⟩ := by
  rw [updateBoundingBox, he, if_neg Bool.false_ne_true]
  simp only [Option.bind_eq_bind, Option.bind_eq_some_iff, Option.some.injEq]
  constructor
  · rintro ⟨a, ha, b, hb, rfl⟩
    exact ⟨a, b, ha, hb, rfl⟩
  · rintro ⟨a, b, ha, hb, rfl⟩
    exact ⟨a, ha, b, hb, rfl⟩

theorem bounds_iff_smallest (he : lyt.isEmpty = false) {a b : ℤ}
    (ha : ∃ fuel, scanDownFrom lyt.coordinateType (inColumn lyt) fuel lyt.x = some a)
    (hb : ∃ fuel, scanDownFrom lyt.coordinateType (inRow lyt) fuel lyt.y = some b) :
    Bounds lyt box ↔ Smallest (positions lyt)
      ⟨scanUp (inColumn lyt) (upTo lyt.x) 0, scanUp (inRow lyt) (upTo lyt.y) 0, a, b,
        a - scanUp (inColumn lyt) (upTo lyt.x) 0, b - scanUp (inRow lyt) (upTo lyt.y) 0⟩ := by
  obtain ⟨fx, hfx⟩ := ha
  obtain ⟨fy, hfy⟩ := hb
  constructor
  · rintro ⟨fuel, box', hrun, hsmallest, -, -⟩
    obtain ⟨a', b', ha', hb', rfl⟩ := (updateBoundingBox_eq_some_iff he).mp hrun
    obtain rfl := scanDownFrom_unique hfx ha'
    obtain rfl := scanDownFrom_unique hfy hb'
    exact hsmallest
  · intro h
    exact ⟨max fx fy, _, (updateBoundingBox_eq_some_iff he).mpr
      ⟨a, b, scanDownFrom_mono (le_max_left _ _) hfx,
        scanDownFrom_mono (le_max_right _ _) hfy, rfl⟩,
      h, rfl, rfl⟩

theorem bounds_iff_of_isEmpty (he : lyt.isEmpty = true) :
    Bounds lyt box ↔ positions lyt ⊆ {(0, 0)} ∧ box.xSize = 0 ∧ box.ySize = 0 := by
  have hrun : ∀ fuel, updateBoundingBox lyt fuel box =
      some { box with minX := 0, minY := 0, maxX := 0, maxY := 0 } := fun _ => if_pos he
  constructor
  · rintro ⟨fuel, box', h, hsmallest, hxs, hys⟩
    obtain rfl := Option.some.inj ((hrun fuel).symm.trans h)
    exact ⟨(smallest_zero_iff rfl rfl rfl rfl).mp hsmallest, hxs, hys⟩
  · rintro ⟨hpos, hxs, hys⟩
    exact ⟨0, _, hrun 0, (smallest_zero_iff rfl rfl rfl rfl).mpr hpos, hxs, hys⟩

theorem bounds_iff_of_visited (he : lyt.isEmpty = false) (hne : (visited lyt).Nonempty) :
    Bounds lyt box ↔ Spans (visited lyt) (positions lyt) := by
  obtain ⟨a, ha⟩ := exists_isGreatest (visited_finite.image Prod.fst) (hne.image Prod.fst)
  obtain ⟨b, hb⟩ := exists_isGreatest (visited_finite.image Prod.snd) (hne.image Prod.snd)
  have hX := exists_scanDownFrom lyt.x_inRange (by rw [columns_eq]; exact ha)
  have hY := exists_scanDownFrom lyt.y_inRange (by rw [rows_eq]; exact hb)
  rw [bounds_iff_smallest he hX hY]
  refine smallest_iff_spans visited_subset hne ⟨fun h0 => absurd hne (by simp [h0]), fun _ => ?_,
    fun _ => ?_, fun _ => ha, fun _ => hb⟩
  · rw [← columns_eq]
    refine isLeast_scanUp sorted_upTo ?_ 0
    obtain ⟨x, hx⟩ := hne.image Prod.fst
    rw [← columns_eq] at hx
    exact ⟨x, hx⟩
  · rw [← rows_eq]
    refine isLeast_scanUp sorted_upTo ?_ 0
    obtain ⟨y, hy⟩ := hne.image Prod.snd
    rw [← rows_eq] at hy
    exact ⟨y, hy⟩

theorem inColumn_of_visited_empty (h0 : visited lyt = ∅) :
    ∀ x ∈ upTo lyt.x, inColumn lyt x = false := by
  intro x hx
  by_contra hne
  have hmem : x ∈ Prod.fst '' visited lyt := by
    rw [← columns_eq]
    exact ⟨hx, Bool.eq_true_of_not_eq_false hne⟩
  simp [h0] at hmem

theorem inRow_of_visited_empty (h0 : visited lyt = ∅) : ∀ y ∈ upTo lyt.y, inRow lyt y = false := by
  intro y hy
  by_contra hne
  have hmem : y ∈ Prod.snd '' visited lyt := by
    rw [← rows_eq]
    exact ⟨hy, Bool.eq_true_of_not_eq_false hne⟩
  simp [h0] at hmem

theorem bounds_iff_of_cube (he : lyt.isEmpty = false) (h0 : visited lyt = ∅)
    (hty : lyt.coordinateType = .cube) :
    Bounds lyt box ↔ lyt.x ≤ 0 ∧ lyt.y ≤ 0 ∧ positions lyt ⊆ {(0, 0)} := by
  have hX := exists_scanDownFrom_cube (inColumn_of_visited_empty h0)
  have hY := exists_scanDownFrom_cube (inRow_of_visited_empty h0)
  rw [← hty] at hX hY
  rw [bounds_iff_smallest he hX hY, scanUp_of_not (inColumn_of_visited_empty h0),
    scanUp_of_not (inRow_of_visited_empty h0), getLastD_upTo, getLastD_upTo]
  constructor
  · intro h
    have hle : lyt.x ≤ 0 ∧ lyt.y ≤ 0 := by
      rcases (positions lyt).eq_empty_or_nonempty with hS | ⟨p, hp⟩
      · obtain ⟨hx, hy, -, -⟩ := h.empty hS
        exact ⟨max_eq_right_iff.mp hx, max_eq_right_iff.mp hy⟩
      · have hx := (h.minX ⟨p, hp⟩).2 (Set.mem_image_of_mem _ hp)
        have hy := (h.minY ⟨p, hp⟩).2 (Set.mem_image_of_mem _ hp)
        have hx' := (h.maxX ⟨p, hp⟩).2 (Set.mem_image_of_mem _ hp)
        have hy' := (h.maxY ⟨p, hp⟩).2 (Set.mem_image_of_mem _ hp)
        exact ⟨(le_max_left _ _).trans (hx.trans hx'), (le_max_left _ _).trans (hy.trans hy')⟩
    exact ⟨hle.1, hle.2,
      (smallest_zero_iff (max_eq_right hle.1) (max_eq_right hle.2) rfl rfl).mp h⟩
  · rintro ⟨hx, hy, hpos⟩
    exact (smallest_zero_iff (max_eq_right hx) (max_eq_right hy) rfl rfl).mpr hpos

theorem bounds_iff_of_offset (he : lyt.isEmpty = false) (h0 : visited lyt = ∅)
    (hty : lyt.coordinateType = .offset) : Bounds lyt box ↔ Beyond lyt := by
  have hx : CoordinateType.offset.InRange lyt.x := by
    rw [← hty]
    exact lyt.x_inRange
  have hy : CoordinateType.offset.InRange lyt.y := by
    rw [← hty]
    exact lyt.y_inRange
  have hnotx := inColumn_of_visited_empty h0
  have hnoty := inRow_of_visited_empty h0
  have hminX : scanUp (inColumn lyt) (upTo lyt.x) 0 = lyt.x := by
    rw [scanUp_of_not hnotx, getLastD_upTo, max_eq_left hx.1]
  have hminY : scanUp (inRow lyt) (upTo lyt.y) 0 = lyt.y := by
    rw [scanUp_of_not hnoty, getLastD_upTo, max_eq_left hy.1]
  constructor
  · rintro ⟨fuel, box', hrun, hsmallest, -, -⟩
    obtain ⟨a, b, ha, hb, rfl⟩ := (updateBoundingBox_eq_some_iff he).mp hrun
    rw [hty] at ha hb
    obtain ⟨⟨har, hacol⟩, -⟩ := isGreatest_of_scanDownFrom hx hnotx ha
    obtain ⟨⟨hbr, hbrow⟩, -⟩ := isGreatest_of_scanDownFrom hy hnoty hb
    obtain ⟨y, hy0, hyY, hea⟩ := inColumn_iff.mp hacol
    obtain ⟨x, hx0, hxX, heb⟩ := inRow_iff.mp hbrow
    have hS : (positions lyt).Nonempty := ⟨(a, y), 0, hea⟩
    have hminx := (hsmallest.minX hS).2
    have hminy := (hsmallest.minY hS).2
    simp only [hminX, hminY] at hminx hminy
    have hleast : ∀ p ∈ positions lyt, lyt.x ≤ p.1 ∧ p.1 ≤ a ∧ lyt.y ≤ p.2 ∧ p.2 ≤ b := fun p hp =>
      ⟨hminx (Set.mem_image_of_mem _ hp), (hsmallest.maxX hS).2 (Set.mem_image_of_mem _ hp),
        hminy (Set.mem_image_of_mem _ hp), (hsmallest.maxY hS).2 (Set.mem_image_of_mem _ hp)⟩
    obtain rfl : y = lyt.y := le_antisymm hyY (hleast (a, y) ⟨0, hea⟩).2.2.1
    obtain rfl : x = lyt.x := le_antisymm hxX (hleast (x, b) ⟨0, heb⟩).1
    refine ⟨a, b, ?_, ?_, hea, heb, hleast⟩
    · by_contra hle
      exact absurd hacol (by simp [hnotx a (mem_upTo.mpr ⟨har.1, not_lt.mp hle⟩)])
    · by_contra hle
      exact absurd hbrow (by simp [hnoty b (mem_upTo.mpr ⟨hbr.1, not_lt.mp hle⟩)])
  · rintro ⟨a, b, hxa, hyb, hea, heb, hall⟩
    have hrange : ∀ {i j k}, lyt.isEmptyCoordinate i j k = false →
        CoordinateType.offset.InRange i ∧ CoordinateType.offset.InRange j := fun h => by
      rw [← hty]
      exact lyt.inRange _ _ _ h
    have ha : IsGreatest {i | CoordinateType.offset.InRange i ∧ inColumn lyt i = true} a := by
      refine ⟨⟨(hrange hea).1, inColumn_iff.mpr ⟨lyt.y, hy.1, le_rfl, hea⟩⟩, ?_⟩
      rintro i ⟨-, hi⟩
      obtain ⟨y, -, -, he⟩ := inColumn_iff.mp hi
      exact (hall (i, y) ⟨0, he⟩).2.1
    have hb : IsGreatest {j | CoordinateType.offset.InRange j ∧ inRow lyt j = true} b := by
      refine ⟨⟨(hrange heb).2, inRow_iff.mpr ⟨lyt.x, hx.1, le_rfl, heb⟩⟩, ?_⟩
      rintro j ⟨-, hj⟩
      obtain ⟨x, -, -, he⟩ := inRow_iff.mp hj
      exact (hall (x, j) ⟨0, he⟩).2.2.2
    have hX := exists_scanDownFrom_offset hx hnotx ha
    have hY := exists_scanDownFrom_offset hy hnoty hb
    rw [← hty] at hX hY
    rw [bounds_iff_smallest he hX hY, hminX, hminY]
    have hmem : (a, lyt.y) ∈ positions lyt := ⟨0, hea⟩
    have hmem' : (lyt.x, b) ∈ positions lyt := ⟨0, heb⟩
    refine ⟨fun h => absurd hmem (by simp [h]), fun _ => ⟨⟨_, hmem', rfl⟩, ?_⟩,
      fun _ => ⟨⟨_, hmem, rfl⟩, ?_⟩, fun _ => ⟨⟨_, hmem, rfl⟩, ?_⟩,
      fun _ => ⟨⟨_, hmem', rfl⟩, ?_⟩⟩ <;> rintro - ⟨p, hp, rfl⟩
    · exact (hall p hp).1
    · exact (hall p hp).2.2.1
    · exact (hall p hp).2.1
    · exact (hall p hp).2.2.2

/-- The bounding box is right iff the elements that the searches visit span the others, apart from
empty layouts and from layouts whose elements are all out of reach. -/
theorem bounds_iff (lyt : BoxedLayout) (box : BoundingBox) : Bounds lyt box ↔ Bounded lyt box := by
  rw [Bounded]
  cases he : lyt.isEmpty with
  | true => simp [bounds_iff_of_isEmpty he]
  | false =>
    rcases (visited lyt).eq_empty_or_nonempty with h0 | hne
    · cases hty : lyt.coordinateType with
      | offset => simp [bounds_iff_of_offset he h0 hty, h0]
      | cube => simp [bounds_iff_of_cube he h0 hty, h0]
    · simp [bounds_iff_of_visited he hne, hne, hne.ne_empty]

/-- With a single element, which is on the crossing layer, the update does not end. -/
theorem crossingElement_not_bounds :
    ¬ Bounds (CellStorage.boxed (τ := QcaCellType) (μ := QcaCellMode) .offset 0 0 (by decide)
      (by decide) [((0, 0, 1), .normal)] (by decide)) ⟨0, 0, 0, 0, 0, 0⟩ := by
  intro h
  have hground : ∀ i j : ℤ, (CellStorage.assignCellTypes [((0, 0, 1), QcaCellType.normal)] :
      CellStorage (ℤ × ℤ × ℤ) QcaCellType QcaCellMode).isEmptyCell (i, j, 0) = true := by
    intro i j
    by_contra hne
    obtain ⟨call, hcall, hc⟩ :=
      CellStorage.exists_mem_of_not_isEmptyCell (Bool.eq_false_of_not_eq_true hne)
    rw [List.mem_singleton.mp hcall] at hc
    simp at hc
  obtain ⟨a, b, -, -, hea, -⟩ := (bounds_iff_of_offset (by decide) (by
    refine Set.eq_empty_iff_forall_notMem.mpr ?_
    rintro p ⟨-, -, -, -, he⟩
    simp [CellStorage.boxed, hground] at he) rfl).mp h
  simp [CellStorage.boxed, hground] at hea

end Correctness

end BoundingBox

end Fiction
