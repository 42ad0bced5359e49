import Mathlib.Data.List.Nodup
import Mathlib.Data.Nat.Sqrt
import Mathlib.Logic.Function.Iterate
import Mathlib.Order.Basic

/-!
# Iteration over aspect ratios

The iterator lists the factorizations of a number of faces and moves on to the next number when
they are exhausted. An aspect ratio holds the highest coordinates, each one less than a factor.
Starting from `n`, the iterator points to every aspect ratio with at least `n` faces once.
-/

namespace Fiction

@[ext] structure AspectRatio where
  x : ℕ
  y : ℕ
  deriving DecidableEq, Repr

namespace AspectRatio

def area (ar : AspectRatio) : ℕ := (ar.x + 1) * (ar.y + 1)

theorem area_pos (ar : AspectRatio) : 0 < ar.area := Nat.mul_pos (Nat.succ_pos _) (Nat.succ_pos _)

theorem x_lt_area (ar : AspectRatio) : ar.x < ar.area :=
  Nat.lt_of_succ_le (Nat.le_mul_of_pos_right _ (Nat.succ_pos _))

theorem y_lt_area (ar : AspectRatio) : ar.y < ar.area :=
  Nat.lt_of_succ_le (Nat.le_mul_of_pos_left _ (Nat.succ_pos _))

def rotate (ar : AspectRatio) : AspectRatio := ⟨ar.y, ar.x⟩

@[simp] theorem area_rotate (ar : AspectRatio) : ar.rotate.area = ar.area := Nat.mul_comm _ _

end AspectRatio

def withRotation (ar : AspectRatio) : List AspectRatio :=
  if ar.x ≠ ar.y then [ar, ar.rotate] else [ar]

def factorize (num : ℕ) : List AspectRatio :=
  (List.range' 1 (Nat.sqrt num)).flatMap fun i =>
    if num % i = 0 then withRotation ⟨i - 1, num / i - 1⟩ else []

theorem mem_withRotation {ar ar' : AspectRatio} :
    ar' ∈ withRotation ar ↔ ar' = ar ∨ ar' = ar.rotate := by
  unfold withRotation
  split_ifs with h
  · simp
  · have hrot : ar.rotate = ar := AspectRatio.ext (not_not.mp h).symm (not_not.mp h)
    rw [hrot, or_self, List.mem_singleton]

theorem area_of_dvd {num i : ℕ} (hi : 1 ≤ i) (hle : i ≤ num) (h : num % i = 0) :
    (⟨i - 1, num / i - 1⟩ : AspectRatio).area = num := by
  have hpos : 1 ≤ num / i := Nat.div_pos hle hi
  rw [AspectRatio.area, Nat.sub_add_cancel hi, Nat.sub_add_cancel hpos]
  exact Nat.mul_div_cancel' (Nat.dvd_of_mod_eq_zero h)

theorem mem_factorize_of_le {a b : ℕ} (h : a ≤ b) :
    ∃ i ∈ List.range' 1 (Nat.sqrt ((a + 1) * (b + 1))), ((a + 1) * (b + 1)) % i = 0 ∧
      (⟨i - 1, (a + 1) * (b + 1) / i - 1⟩ : AspectRatio) = ⟨a, b⟩ := by
  refine ⟨a + 1, List.mem_range'_1.mpr ⟨by omega, ?_⟩, Nat.mul_mod_right _ _, ?_⟩
  · have hs : a + 1 ≤ Nat.sqrt ((a + 1) * (b + 1)) :=
      Nat.le_sqrt.mpr (Nat.mul_le_mul_left _ (by omega))
    omega
  · rw [Nat.mul_div_cancel_left _ (Nat.succ_pos a)]
    rfl

theorem mem_factorize {num : ℕ} {ar : AspectRatio} : ar ∈ factorize num ↔ ar.area = num := by
  simp only [factorize, List.mem_flatMap]
  constructor
  · rintro ⟨i, hi, har⟩
    obtain ⟨h1, h2⟩ := List.mem_range'_1.mp hi
    split_ifs at har with hmod
    · have hle : i ≤ num := (Nat.le_of_lt_succ (by omega)).trans (Nat.sqrt_le_self num)
      rcases mem_withRotation.mp har with rfl | rfl
      · exact area_of_dvd h1 hle hmod
      · rw [AspectRatio.area_rotate, area_of_dvd h1 hle hmod]
    · exact absurd har List.not_mem_nil
  · rintro rfl
    rcases Nat.le_total ar.x ar.y with h | h
    · obtain ⟨i, hi, hmod, heq⟩ := mem_factorize_of_le h
      exact ⟨i, hi, by
        rw [AspectRatio.area, if_pos hmod, heq]
        exact mem_withRotation.mpr (.inl rfl)⟩
    · obtain ⟨i, hi, hmod, heq⟩ := mem_factorize_of_le h
      rw [Nat.mul_comm] at hi hmod heq
      exact ⟨i, hi, by
        rw [AspectRatio.area, if_pos hmod, heq]
        exact mem_withRotation.mpr (.inr rfl)⟩

theorem factorize_ne_nil {num : ℕ} (h : 0 < num) : factorize num ≠ [] := by
  obtain ⟨k, rfl⟩ := Nat.exists_eq_succ_of_ne_zero (Nat.ne_of_gt h)
  exact List.ne_nil_of_mem (a := ⟨0, k⟩) (mem_factorize.mpr (by simp [AspectRatio.area]))

theorem nodup_withRotation (ar : AspectRatio) : (withRotation ar).Nodup := by
  unfold withRotation
  split_ifs with h
  · refine List.nodup_cons.mpr ⟨fun hmem => h ?_, List.nodup_singleton _⟩
    exact congrArg AspectRatio.x (List.mem_singleton.mp hmem)
  · exact List.nodup_singleton ar

theorem min_of_mem_factors {num i : ℕ} {ar : AspectRatio} (hi : i ∈ List.range' 1 (Nat.sqrt num))
    (har : ar ∈ (if num % i = 0 then withRotation ⟨i - 1, num / i - 1⟩ else [])) :
    min ar.x ar.y + 1 = i := by
  obtain ⟨h1, h2⟩ := List.mem_range'_1.mp hi
  have hsq : i * i ≤ num := Nat.le_sqrt.mp (by omega)
  have hle : i ≤ num / i := (Nat.le_div_iff_mul_le h1).mpr hsq
  split_ifs at har
  · rcases mem_withRotation.mp har with rfl | rfl
    · change min (i - 1) (num / i - 1) + 1 = i
      omega
    · change min (num / i - 1) (i - 1) + 1 = i
      omega
  · cases har

theorem nodup_factorize (num : ℕ) : (factorize num).Nodup := by
  refine List.nodup_flatMap.mpr ⟨fun i _ => ?_, ?_⟩
  · split_ifs
    · exact nodup_withRotation _
    · exact List.nodup_nil
  · refine (List.nodup_range' 1 Nat.one_pos).pairwise_of_forall_ne ?_
    intro i hi j hj hne ar har har'
    refine hne ?_
    rw [← min_of_mem_factors hi har, min_of_mem_factors hj har']

/-- `factors` are the factorizations of `num` that the iterator has not passed yet. -/
structure AspectRatioIterator where
  num : ℕ
  factors : List AspectRatio
  ne_nil : factors ≠ []
  mem : ∀ ar ∈ factors, ar.area = num

namespace AspectRatioIterator

/-- `next`. Its loop ends after one round since no positive number lacks factorizations. -/
def next (num : ℕ) : AspectRatioIterator :=
  ⟨num + 1, factorize (num + 1), factorize_ne_nil (Nat.succ_pos num), fun _ => mem_factorize.mp⟩

def start (n : ℕ) : AspectRatioIterator := next (if n ≠ 0 then n - 1 else 0)

/-- `operator++` -/
def advance (it : AspectRatioIterator) : AspectRatioIterator :=
  match it with
  | ⟨num, _ :: f :: fs, _, mem⟩ =>
    ⟨num, f :: fs, List.cons_ne_nil f fs, fun ar har => mem ar (List.mem_cons_of_mem _ har)⟩
  | ⟨num, _, _, _⟩ => next num

/-- `operator*` -/
def deref (it : AspectRatioIterator) : AspectRatio := it.factors.head it.ne_nil

theorem area_deref (it : AspectRatioIterator) : it.deref.area = it.num :=
  it.mem _ (List.head_mem it.ne_nil)

theorem num_start (n : ℕ) : (start n).num = max n 1 := by
  unfold start next
  split_ifs with h
  · simp only
    omega
  · simp only
    omega

theorem num_le_num_advance (it : AspectRatioIterator) : it.num ≤ it.advance.num := by
  obtain ⟨num, _ | ⟨f₀, _ | ⟨f, fs⟩⟩, hne, hmem⟩ := it
  · exact absurd rfl hne
  · exact Nat.le_succ num
  · exact Nat.le_refl num

/-- Aspect ratios that the iterator has passed or that are too small for it. -/
def Passed (it : AspectRatioIterator) (ar : AspectRatio) : Prop :=
  ar.area < it.num ∨ ar.area = it.num ∧ ar ∉ it.factors

theorem passed_start {n : ℕ} {ar : AspectRatio} : (start n).Passed ar ↔ ar.area < n := by
  have hpos := ar.area_pos
  have hnum : (start n).factors = factorize (start n).num := rfl
  rw [Passed, hnum, mem_factorize, num_start]
  constructor
  · rintro (h | ⟨h, h'⟩)
    · omega
    · exact absurd h h'
  · intro h
    left
    omega

theorem passed_of_passed_advance {it : AspectRatioIterator} {ar : AspectRatio}
    (hp : it.advance.Passed ar) : it.Passed ar ∨ ar = it.deref := by
  obtain ⟨num, _ | ⟨f₀, _ | ⟨f, fs⟩⟩, hne, hmem⟩ := it
  · exact absurd rfl hne
  · rcases hp with hp | ⟨hp, hn⟩
    · rcases Nat.lt_or_eq_of_le (Nat.le_of_lt_succ hp) with hlt | heq
      · exact .inl (.inl hlt)
      · by_cases hf : ar = f₀
        · exact .inr hf
        · exact .inl (.inr ⟨heq, by simpa using hf⟩)
    · exact absurd (mem_factorize.mpr hp) hn
  · rcases hp with hp | ⟨hp, hn⟩
    · exact .inl (.inl hp)
    · by_cases hf : ar = f₀
      · exact .inr hf
      · exact .inl (.inr ⟨hp, fun hm => (List.mem_cons.mp hm).elim hf hn⟩)

theorem advance_lt (it : AspectRatioIterator) {bound : ℕ} (hb : it.num ≤ bound) :
    Prod.Lex (· < ·) (· < ·) (bound + 1 - it.advance.num, it.advance.factors.length)
      (bound + 1 - it.num, it.factors.length) := by
  obtain ⟨num, _ | ⟨f₀, _ | ⟨f, fs⟩⟩, hne, hmem⟩ := it
  · exact absurd rfl hne
  · exact .left _ _ (by simp only [advance, next] at hb ⊢; omega)
  · exact .right _ (by simp [advance])

theorem not_passed_deref (it : AspectRatioIterator) : ¬ it.Passed it.deref := by
  rintro (h | ⟨-, h⟩)
  · rw [it.area_deref] at h
    exact Nat.lt_irrefl _ h
  · exact h (List.head_mem it.ne_nil)

theorem passed_advance {it : AspectRatioIterator} {ar : AspectRatio} (hp : it.Passed ar) :
    it.advance.Passed ar := by
  obtain ⟨num, _ | ⟨f₀, _ | ⟨f, fs⟩⟩, hne, hmem⟩ := it
  · exact absurd rfl hne
  · left
    rcases hp with hp | hp
    · exact Nat.lt_succ_of_lt hp
    · exact Nat.lt_succ_of_le hp.1.le
  · rcases hp with hp | ⟨hp, hn⟩
    · exact .inl hp
    · exact .inr ⟨hp, fun hmem => hn (List.mem_cons_of_mem f₀ hmem)⟩

theorem passed_advance_deref {it : AspectRatioIterator} (h : it.factors.Nodup) :
    it.advance.Passed it.deref := by
  obtain ⟨num, _ | ⟨f₀, _ | ⟨f, fs⟩⟩, hne, hmem⟩ := it
  · exact absurd rfl hne
  · exact .inl (Nat.lt_succ_of_le (hmem f₀ List.mem_cons_self).le)
  · exact .inr ⟨hmem f₀ List.mem_cons_self, (List.nodup_cons.mp h).1⟩

/-- `it'` comes after `it`. -/
def Reaches (it it' : AspectRatioIterator) : Prop := ∃ k, advance^[k] it = it'

theorem Reaches.refl (it : AspectRatioIterator) : it.Reaches it := ⟨0, rfl⟩

theorem Reaches.advance {it it' : AspectRatioIterator} (h : it.Reaches it') :
    it.Reaches it'.advance := by
  obtain ⟨k, rfl⟩ := h
  exact ⟨k + 1, Function.iterate_succ_apply' _ _ _⟩

theorem Reaches.induct {P : AspectRatioIterator → Prop} {it it' : AspectRatioIterator}
    (h : it.Reaches it') (hit : P it) (hstep : ∀ it, P it → P it.advance) : P it' := by
  obtain ⟨k, rfl⟩ := h
  induction k with
  | zero => exact hit
  | succ k ih =>
    rw [Function.iterate_succ_apply']
    exact hstep _ ih

theorem Reaches.trans {it it' it'' : AspectRatioIterator} (h : it.Reaches it')
    (h' : it'.Reaches it'') : it.Reaches it'' :=
  h'.induct h fun _ => Reaches.advance

theorem Reaches.num_le {it it' : AspectRatioIterator} (h : it.Reaches it') : it.num ≤ it'.num :=
  h.induct (P := fun i => it.num ≤ i.num) le_rfl fun i hi => hi.trans i.num_le_num_advance

theorem deref_ne_of_reaches {n : ℕ} {it : AspectRatioIterator}
    (h : (start n).advance.Reaches it) : it.deref ≠ (start n).deref := by
  intro heq
  have hnd : (start n).factors.Nodup := nodup_factorize _
  have hp : it.Passed (start n).deref :=
    h.induct (P := fun i => i.Passed (start n).deref) (passed_advance_deref hnd)
      fun _ => passed_advance
  rw [← heq] at hp
  exact not_passed_deref it hp

end AspectRatioIterator
end Fiction
