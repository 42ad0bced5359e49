import Fiction.Layouts.BoundingBox
import Fiction.PhysicalDesign.AspectRatioIterator
import Mathlib.Data.List.Iterate

/-!
# The sequence of aspect ratios

The iterator lists the factorizations of one number after the other. What it hands to the
constructor of the coordinate type is stored in fields of 31 or of 32 bits, so that the coordinates
can be read back as long as no number of faces exceeds `2 ^ 31`. Divisors are looked for up to
`Nat.sqrt num`, which takes the place of `std::sqrt(num)` for fewer than `2 ^ 52` faces.
-/

namespace Fiction

namespace CoordinateType

/-- What a field of a coordinate stores of a number: 31 bits without or 32 bits with a sign. -/
def store : CoordinateType → ℕ → ℤ
  | .offset, i => (i : ℤ) % 2 ^ 31
  | .cube, i => ((i : ℤ) + 2 ^ 31) % 2 ^ 32 - 2 ^ 31

/-- The coordinates of an aspect ratio that is constructed from `ar.x` and `ar.y`. -/
def coordinates (ty : CoordinateType) (ar : AspectRatio) : ℤ × ℤ := (ty.store ar.x, ty.store ar.y)

theorem store_eq (ty : CoordinateType) {i : ℕ} (h : i < 2 ^ 31) : ty.store i = i := by
  cases ty with
  | offset =>
    simp only [store]
    omega
  | cube =>
    simp only [store]
    omega

theorem store_lt (ty : CoordinateType) (i : ℕ) : ty.store i < 2 ^ 31 := by
  cases ty with
  | offset =>
    simp only [store]
    omega
  | cube =>
    simp only [store]
    omega

end CoordinateType

namespace AspectRatioIterator

/-- The loop of `factorize` from the 32-bit counter `i` on, with `fuel` as the number of rounds that
it may take. There is no remainder modulo a counter that has wrapped around. -/
def factorizeFrom (num : ℕ) : ℕ → ℕ → Option (List AspectRatio)
  | 0, _ => none
  | fuel + 1, i =>
    if Nat.sqrt num < i then some []
    else if i = 0 then none
    else do
      let factors ← factorizeFrom num fuel ((i + 1) % 2 ^ 32)
      return (if num % i = 0 then withRotation ⟨i - 1, num / i - 1⟩ else []) ++ factors

def nextWithin : ℕ → ℕ → Option (ℕ × List AspectRatio)
  | 0, _ => none
  | fuel + 1, num => do
    let num := (num + 1) % 2 ^ 64
    let factors ← factorizeFrom num fuel 1
    if factors = [] then nextWithin fuel num else some (num, factors)

/-- `operator++` -/
def increment (fuel : ℕ) (it : AspectRatioIterator) : Option (ℕ × List AspectRatio) :=
  match it.factors with
  | _ :: f :: fs => some (it.num, f :: fs)
  | _ => nextWithin fuel it.num

/-- The aspect ratios that are read before each of the first `m` increments. -/
def visits (it : AspectRatioIterator) (m : ℕ) : List AspectRatio :=
  (List.iterate advance it m).map deref

/-- For one number of faces after the other, all pairs with so many faces are visited, each of them
once. The constructor and all increments on the way terminate. -/
structure Enumerates (coordinates : AspectRatio → ℤ × ℤ) (first last : ℕ) : Prop where
  constructs : ∃ fuel, nextWithin fuel (if first ≠ 0 then first - 1 else 0) =
    some ((start first).num, (start first).factors)
  terminates : ∀ it, (start first).Reaches it → it.num ≤ last →
    ∃ fuel, increment fuel it = some (it.advance.num, it.advance.factors)
  visits : ∃ (m : ℕ) (pairs : ℕ → List (ℤ × ℤ)),
    (∀ k, first ≤ k → k ≤ last → (pairs k).Nodup ∧
      ∀ x y, (x, y) ∈ pairs k ↔ 0 ≤ x ∧ 0 ≤ y ∧ (x + 1) * (y + 1) = k) ∧
    ((start first).visits m).map coordinates =
      (List.range' first (last + 1 - first)).flatMap pairs

section Termination

/-- The counter reaches the root of `num` before it wraps around. The induction is on the rounds
that are left. -/
theorem factorizeFrom_eq {num : ℕ} (hnum : Nat.sqrt num + 1 < 2 ^ 32) (count : ℕ) {i : ℕ}
    (hi : 1 ≤ i) (hcount : i + count = Nat.sqrt num + 1) :
    factorizeFrom num (count + 1) i = some ((List.range' i count).flatMap fun i =>
      if num % i = 0 then withRotation ⟨i - 1, num / i - 1⟩ else []) := by
  induction count generalizing i with
  | zero =>
    rw [factorizeFrom, if_pos (by omega)]
    rfl
  | succ count ih =>
    have hnext : (i + 1) % 2 ^ 32 = i + 1 := Nat.mod_eq_of_lt (by omega)
    rw [factorizeFrom, if_neg (by omega), if_neg (by omega), hnext,
      ih (Nat.succ_le_succ (Nat.zero_le i)) (by omega), List.range'_succ, List.flatMap_cons]
    rfl

theorem factorizeFrom_one {num : ℕ} (hnum : num ≤ 2 ^ 52) :
    factorizeFrom num (Nat.sqrt num + 1) 1 = some (factorize num) := by
  have hsqrt : Nat.sqrt num ≤ 2 ^ 26 := by
    have hroot : (2 ^ 52 : ℕ) = 2 ^ 26 * 2 ^ 26 := by decide
    rw [hroot] at hnum
    exact (Nat.sqrt_le_sqrt hnum).trans_eq (Nat.sqrt_eq _)
  exact factorizeFrom_eq (by omega) _ le_rfl (Nat.add_comm _ _)

theorem nextWithin_eq {num : ℕ} (hnum : num < 2 ^ 52) :
    nextWithin (Nat.sqrt (num + 1) + 2) num = some (num + 1, factorize (num + 1)) := by
  have hmod : (num + 1) % 2 ^ 64 = num + 1 := Nat.mod_eq_of_lt (by omega)
  rw [nextWithin, hmod, factorizeFrom_one hnum]
  exact if_neg (factorize_ne_nil (Nat.succ_pos num))

theorem exists_increment {it : AspectRatioIterator} (hnum : it.num < 2 ^ 52) :
    ∃ fuel, increment fuel it = some (it.advance.num, it.advance.factors) := by
  obtain ⟨num, _ | ⟨f₀, _ | ⟨f, fs⟩⟩, hne, hmem⟩ := it
  · exact absurd rfl hne
  · refine ⟨Nat.sqrt (num + 1) + 2, ?_⟩
    rw [increment]
    exact nextWithin_eq hnum
  · exact ⟨0, rfl⟩

end Termination

section Visits

theorem visits_add (it : AspectRatioIterator) (m m' : ℕ) :
    it.visits (m + m') = it.visits m ++ (advance^[m] it).visits m' := by
  rw [visits, List.iterate_add, List.map_append]
  rfl

theorem visits_factors {num : ℕ} {factors : List AspectRatio} (hne : factors ≠ [])
    (hmem : ∀ ar ∈ factors, ar.area = num) :
    visits ⟨num, factors, hne, hmem⟩ factors.length = factors ∧
      advance^[factors.length] ⟨num, factors, hne, hmem⟩ = next num := by
  induction factors with
  | nil => exact absurd rfl hne
  | cons f fs ih =>
    cases fs with
    | nil => exact ⟨rfl, rfl⟩
    | cons g fs =>
      obtain ⟨hvisits, hnext⟩ := ih (List.cons_ne_nil g fs)
        fun ar har => hmem ar (List.mem_cons_of_mem f har)
      exact ⟨congrArg (f :: ·) hvisits, hnext⟩

theorem visits_next (num count : ℕ) :
    (next num).visits ((List.range' (num + 1) count).flatMap factorize).length =
      (List.range' (num + 1) count).flatMap factorize := by
  induction count generalizing num with
  | zero => rfl
  | succ count ih =>
    obtain ⟨hvisits, hnext⟩ := visits_factors (next num).ne_nil (next num).mem
    rw [List.range'_succ, List.flatMap_cons, List.length_append, visits_add]
    change visits (next num) (factorize (num + 1)).length = _ at hvisits
    change advance^[(factorize (num + 1)).length] (next num) = _ at hnext
    rw [hvisits, hnext]
    exact congrArg _ (ih (num + 1))

theorem visits_start {first : ℕ} (hfirst : 1 ≤ first) (count : ℕ) :
    (start first).visits ((List.range' first count).flatMap factorize).length =
      (List.range' first count).flatMap factorize := by
  obtain ⟨num, rfl⟩ : ∃ num, first = num + 1 := ⟨first - 1, by omega⟩
  exact visits_next num count

end Visits

section Enumeration

variable {first last : ℕ} {coordinates : AspectRatio → ℤ × ℤ}

theorem mem_map_factorize {k : ℕ}
    (h : ∀ ar : AspectRatio, ar.area = k → coordinates ar = (↑ar.x, ↑ar.y)) (x y : ℤ) :
    (x, y) ∈ (factorize k).map coordinates ↔ 0 ≤ x ∧ 0 ≤ y ∧ (x + 1) * (y + 1) = k := by
  rw [List.mem_map]
  constructor
  · rintro ⟨ar, har, heq⟩
    have harea := mem_factorize.mp har
    rw [h ar harea] at heq
    obtain ⟨rfl, rfl⟩ := Prod.mk.inj heq
    exact ⟨Int.natCast_nonneg _, Int.natCast_nonneg _, by rw [← harea]; rfl⟩
  · rintro ⟨hx, hy, harea⟩
    obtain ⟨a, rfl⟩ := Int.eq_ofNat_of_zero_le hx
    obtain ⟨b, rfl⟩ := Int.eq_ofNat_of_zero_le hy
    have hk : (⟨a, b⟩ : AspectRatio).area = k := by exact_mod_cast harea
    exact ⟨⟨a, b⟩, mem_factorize.mpr hk, h _ hk⟩

theorem nodup_map_factorize {k : ℕ}
    (h : ∀ ar : AspectRatio, ar.area = k → coordinates ar = (↑ar.x, ↑ar.y)) :
    ((factorize k).map coordinates).Nodup := by
  refine (nodup_factorize k).map_on fun ar har ar' har' heq => ?_
  rw [h ar (mem_factorize.mp har), h ar' (mem_factorize.mp har')] at heq
  obtain ⟨hx, hy⟩ := Prod.mk.inj heq
  exact AspectRatio.ext (by exact_mod_cast hx) (by exact_mod_cast hy)

theorem enumerates_of_forall (hfirst : 1 ≤ first) (hle : first ≤ last) (hlast : last < 2 ^ 52)
    (h : ∀ ar : AspectRatio, ar.area ≤ last → coordinates ar = (↑ar.x, ↑ar.y)) :
    Enumerates coordinates first last where
  constructs := by
    have hnum : (if first ≠ 0 then first - 1 else 0) < 2 ^ 52 := by
      split_ifs <;> omega
    exact ⟨_, nextWithin_eq hnum⟩
  terminates it _ hit := exists_increment (hit.trans_lt hlast)
  visits := by
    refine ⟨_, fun k => (factorize k).map coordinates, fun k _ hk => ?_,
      (congrArg (List.map coordinates) (visits_start hfirst _)).trans List.map_flatMap⟩
    have hk' : ∀ ar : AspectRatio, ar.area = k → coordinates ar = (↑ar.x, ↑ar.y) :=
      fun ar har => h ar (har.trans_le hk)
    exact ⟨nodup_map_factorize hk', mem_map_factorize hk'⟩

theorem le_of_enumerates {ty : CoordinateType} (hle : first ≤ last)
    (h : Enumerates ty.coordinates first last) : last ≤ 2 ^ 31 := by
  obtain ⟨m, pairs, hpairs, hvisits⟩ := h.visits
  by_contra hlast
  have hrow : ((0 : ℤ), (last : ℤ) - 1) ∈ pairs last :=
    ((hpairs last hle le_rfl).2 _ _).mpr ⟨le_rfl, by omega, by omega⟩
  have hmem : ((0 : ℤ), (last : ℤ) - 1) ∈ (List.range' first (last + 1 - first)).flatMap pairs :=
    List.mem_flatMap.mpr ⟨last, List.mem_range'_1.mpr ⟨hle, by omega⟩, hrow⟩
  rw [← hvisits] at hmem
  obtain ⟨ar, -, heq⟩ := List.mem_map.mp hmem
  have hy := (Prod.mk.inj heq).2
  have hlt := ty.store_lt ar.y
  omega

theorem enumerates_of_le {ty : CoordinateType} (hfirst : 1 ≤ first) (hle : first ≤ last)
    (hlast : last ≤ 2 ^ 31) : Enumerates ty.coordinates first last := by
  refine enumerates_of_forall hfirst hle (hlast.trans_lt (by decide)) fun ar har => ?_
  rw [CoordinateType.coordinates, ty.store_eq (ar.x_lt_area.trans_le (har.trans hlast)),
    ty.store_eq (ar.y_lt_area.trans_le (har.trans hlast))]

/-- Below `2 ^ 52` faces, all pairs are handed to the constructor of the coordinate type, which has
room for those with up to `2 ^ 31` faces. -/
theorem enumerates_iff (hfirst : 1 ≤ first) (hle : first ≤ last) (hlast : last < 2 ^ 52) :
    Enumerates (fun ar => (ar.x, ar.y)) first last ∧
      ∀ ty : CoordinateType, Enumerates ty.coordinates first last ↔ last ≤ 2 ^ 31 :=
  ⟨enumerates_of_forall hfirst hle hlast fun _ _ => rfl,
    fun _ => ⟨le_of_enumerates hle, enumerates_of_le hfirst hle⟩⟩

theorem enumerates_iff_four :
    Enumerates (fun ar => (ar.x, ar.y)) 4 6 ∧
      ∀ ty : CoordinateType, Enumerates ty.coordinates 4 6 ↔ 6 ≤ 2 ^ 31 :=
  enumerates_iff (by decide) (by decide) (by decide)

/-- A row of `2 ^ 31 + 1` faces is stored as a single face. -/
theorem longRow_not_enumerated :
    ¬ Enumerates CoordinateType.offset.coordinates (2 ^ 31 + 1) (2 ^ 31 + 1) := fun h =>
  absurd (le_of_enumerates le_rfl h) (by decide)

end Enumeration

end AspectRatioIterator

end Fiction
