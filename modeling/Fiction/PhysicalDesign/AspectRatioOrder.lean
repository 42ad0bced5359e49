import Fiction.Layouts.Coordinates
import Fiction.PhysicalDesign.AspectRatioEnumeration

/-!
# The order of aspect ratio iterators

Iterators compare their numbers of faces and then the coordinates they point to, by rows first. The
factorizations of one number are listed differently, though: a tall aspect ratio stands before its
rotation. Iterators that point to the same number of faces are therefore ordered as they are
reached only in some cases.
-/

namespace Fiction

namespace AspectRatioIterator

/-- `operator*` for offset coordinates, the fields of which have 31 bits. -/
def value (it : AspectRatioIterator) : Ucoord :=
  .at2 (it.deref.x % 2 ^ 31) (it.deref.y % 2 ^ 31)

/-- `operator==` -/
def eq (a b : AspectRatioIterator) : Bool := a.num = b.num ∧ a.value = b.value

/-- `operator<` -/
def lt (a b : AspectRatioIterator) : Bool := a.num < b.num ∨ a.num = b.num ∧ a.value.lt b.value

/-- `operator<=` -/
def le (a b : AspectRatioIterator) : Bool := a.num ≤ b.num ∨ a.num = b.num ∧ a.value.le b.value

structure Ordered (a b : AspectRatioIterator) : Prop where
  trichotomy : lt a b ∧ !eq a b ∧ !lt b a ∨ !lt a b ∧ eq a b ∧ !lt b a ∨
    !lt a b ∧ !eq a b ∧ lt b a
  le_iff : le a b ↔ lt a b ∨ eq a b
  lt_iff : lt a b ↔ ∃ k, 1 ≤ k ∧ advance^[k] a = b

/-- The place of factorizations of one number in their list: by the smaller factor, and by columns
for the two aspect ratios with the same factors. -/
def Before (ar ar' : AspectRatio) : Prop :=
  min ar.x ar.y < min ar'.x ar'.y ∨ ar' = ar.rotate ∧ ar.x < ar.y

section Listing

theorem Before.asymm {ar ar' : AspectRatio} (h : Before ar ar') : ¬ Before ar' ar := by
  rintro h'
  rcases h with h | ⟨rfl, h⟩ <;> rcases h' with h' | ⟨heq, h'⟩
  · exact Nat.lt_asymm h h'
  · rw [heq] at h
    exact Nat.lt_irrefl _ (h.trans_eq (min_comm _ _))
  · exact Nat.lt_irrefl _ (h'.trans_eq (min_comm _ _))
  · exact Nat.lt_asymm h h'

theorem pairwise_withRotation {ar : AspectRatio} (h : ar.x ≤ ar.y) :
    (withRotation ar).Pairwise Before := by
  unfold withRotation
  split_ifs with hne
  · exact List.pairwise_pair.mpr (.inr ⟨rfl, lt_of_le_of_ne h hne⟩)
  · exact List.pairwise_singleton _ _

theorem pairwise_factorize (num : ℕ) : (factorize num).Pairwise Before := by
  refine List.pairwise_flatMap.mpr ⟨fun i hi => ?_, ?_⟩
  · obtain ⟨h1, h2⟩ := List.mem_range'_1.mp hi
    split_ifs
    · have hsq : i * i ≤ num := Nat.le_sqrt.mp (by omega)
      have hle : i ≤ num / i := (Nat.le_div_iff_mul_le h1).mpr hsq
      exact pairwise_withRotation (Nat.sub_le_sub_right hle 1)
    · exact List.Pairwise.nil
  · refine (List.pairwise_lt_range' 1 Nat.one_pos).imp_of_mem ?_
    intro i j hi hj hlt ar har ar' har'
    left
    have h := min_of_mem_factors hi har
    have h' := min_of_mem_factors hj har'
    omega

end Listing

section Reached

variable {a b : AspectRatioIterator}

theorem ext_factors (hnum : a.num = b.num) (h : a.factors = b.factors) : a = b := by
  obtain ⟨num, factors, _, _⟩ := a
  obtain ⟨num', factors', _, _⟩ := b
  cases hnum
  cases h
  rfl

structure Valid (it : AspectRatioIterator) : Prop where
  pos : 0 < it.num
  suffix : it.factors <:+ factorize it.num

theorem valid_next (num : ℕ) : Valid (next num) := ⟨Nat.succ_pos num, List.suffix_rfl⟩

theorem Valid.advance {it : AspectRatioIterator} (h : Valid it) : Valid it.advance := by
  obtain ⟨num, _ | ⟨f₀, _ | ⟨f, fs⟩⟩, hne, hmem⟩ := it
  · exact absurd rfl hne
  · exact valid_next num
  · exact ⟨h.pos, (List.suffix_cons f₀ (f :: fs)).trans h.suffix⟩

theorem valid_of_reaches {n : ℕ} (h : (start n).Reaches a) : Valid a :=
  h.induct (valid_next _) fun _ => Valid.advance

theorem advance_of_ne_nil {num : ℕ} {f : AspectRatio} {fs : List AspectRatio}
    (hne : f :: fs ≠ []) (hmem : ∀ ar ∈ f :: fs, ar.area = num) (hfs : fs ≠ []) :
    advance ⟨num, f :: fs, hne, hmem⟩ =
      ⟨num, fs, hfs, fun ar har => hmem ar (List.mem_cons_of_mem f har)⟩ := by
  cases fs with
  | nil => exact absurd rfl hfs
  | cons g gs => rfl

theorem reaches_of_append {num : ℕ} {passed factors : List AspectRatio}
    (hne : passed ++ factors ≠ []) (hmem : ∀ ar ∈ passed ++ factors, ar.area = num)
    (hb : b.num = num) (hf : b.factors = factors) :
    advance^[passed.length] ⟨num, passed ++ factors, hne, hmem⟩ = b := by
  induction passed with
  | nil => exact ext_factors hb.symm hf.symm
  | cons f fs ih =>
    have hne' : fs ++ factors ≠ [] := by
      rw [← hf]
      exact List.append_ne_nil_of_right_ne_nil _ b.ne_nil
    rw [List.length_cons, Function.iterate_succ_apply]
    refine (congrArg advance^[fs.length] (advance_of_ne_nil hne hmem hne')).trans ?_
    exact ih hne' _

theorem reaches_of_suffix (hnum : a.num = b.num) (h : b.factors <:+ a.factors) : a.Reaches b := by
  obtain ⟨passed, hpassed⟩ := h
  obtain ⟨num, factors, hne, hmem⟩ := a
  simp only at hpassed
  subst hpassed
  exact ⟨passed.length, reaches_of_append hne hmem hnum.symm rfl⟩

theorem reaches_of_num_lt (hb : Valid b) (hlt : a.num < b.num) : a.Reaches b := by
  have hnext : ∀ count, a.Reaches (next (a.num + count)) := by
    intro count
    induction count with
    | zero => exact ⟨_, (visits_factors a.ne_nil a.mem).2⟩
    | succ count ih =>
      exact ih.trans ⟨_, (visits_factors (next _).ne_nil (next _).mem).2⟩
  have hnum : (next (a.num + (b.num - a.num - 1))).num = b.num := by
    change a.num + (b.num - a.num - 1) + 1 = b.num
    omega
  refine (hnext (b.num - a.num - 1)).trans (reaches_of_suffix hnum ?_)
  change b.factors <:+ factorize (next (a.num + (b.num - a.num - 1))).num
  rw [hnum]
  exact hb.suffix

theorem Reaches.suffix (h : a.Reaches b) :
    a.num < b.num ∨ a.num = b.num ∧ b.factors <:+ a.factors := by
  refine h.induct (P := fun it => a.num < it.num ∨ a.num = it.num ∧ it.factors <:+ a.factors)
    (.inr ⟨rfl, List.suffix_rfl⟩) fun it hit => ?_
  obtain ⟨num, _ | ⟨f₀, _ | ⟨f, fs⟩⟩, hne, hmem⟩ := it
  · exact absurd rfl hne
  · left
    rcases hit with hlt | ⟨heq, -⟩
    · exact Nat.lt_succ_of_lt hlt
    · exact Nat.lt_succ_of_le heq.le
  · rcases hit with hlt | ⟨heq, hsuf⟩
    · exact .inl hlt
    · exact .inr ⟨heq, (List.suffix_cons f₀ (f :: fs)).trans hsuf⟩

theorem exists_iterate_iff : (∃ k, 1 ≤ k ∧ advance^[k] a = b) ↔ a.advance.Reaches b := by
  constructor
  · rintro ⟨k, hk, rfl⟩
    obtain ⟨k, rfl⟩ : ∃ j, k = j + 1 := ⟨k - 1, by omega⟩
    exact ⟨k, rfl⟩
  · rintro ⟨k, rfl⟩
    exact ⟨k + 1, Nat.succ_pos k, rfl⟩

theorem before_of_reaches (ha : Valid a) (hnum : a.num = b.num) (h : a.advance.Reaches b) :
    Before a.deref b.deref := by
  have hpair := (pairwise_factorize a.num).sublist ha.suffix.sublist
  have hmem : b.deref ∈ b.factors := List.head_mem b.ne_nil
  obtain ⟨num, _ | ⟨f₀, _ | ⟨f, fs⟩⟩, hne, hmemA⟩ := a
  · exact absurd rfl hne
  · exact absurd (h.num_le.trans_eq hnum.symm) (Nat.not_succ_le_self num)
  · rcases h.suffix with hlt | ⟨-, hsuf⟩
    · exact absurd (hlt.trans_eq hnum.symm) (Nat.lt_irrefl num)
    · exact (List.pairwise_cons.mp hpair).1 _ (hsuf.subset hmem)

theorem reaches_advance_of_ne (h : a.Reaches b) (hne : a ≠ b) : a.advance.Reaches b := by
  obtain ⟨k, rfl⟩ := h
  cases k with
  | zero => exact absurd rfl hne
  | succ k => exact ⟨k, rfl⟩

theorem eq_or_reaches (ha : Valid a) (hb : Valid b) (hnum : a.num = b.num) :
    a = b ∨ a.advance.Reaches b ∨ b.advance.Reaches a := by
  by_cases heq : a = b
  · exact .inl heq
  · right
    have hsuffix := hb.suffix
    rw [← hnum] at hsuffix
    rcases List.suffix_or_suffix_of_suffix ha.suffix hsuffix with h | h
    · exact .inr (reaches_advance_of_ne (reaches_of_suffix hnum.symm h) (Ne.symm heq))
    · exact .inl (reaches_advance_of_ne (reaches_of_suffix hnum h) heq)

theorem reaches_iff_before (ha : Valid a) (hb : Valid b) (hnum : a.num = b.num) :
    a.advance.Reaches b ↔ Before a.deref b.deref := by
  refine ⟨before_of_reaches ha hnum, fun h => ?_⟩
  rcases eq_or_reaches ha hb hnum with rfl | h' | h'
  · exact absurd h h.asymm
  · exact h'
  · exact absurd h (before_of_reaches hb hnum.symm h').asymm

end Reached

section Comparison

variable {a b : AspectRatioIterator}

theorem trichotomous (a b : AspectRatioIterator) :
    lt a b ∧ !eq a b ∧ !lt b a ∨ !lt a b ∧ eq a b ∧ !lt b a ∨ !lt a b ∧ !eq a b ∧ lt b a := by
  rcases Nat.lt_trichotomy a.num b.num with h | h | h
  · have h₁ := h.ne'
    have h₂ := h.le
    simp [lt, eq, h, h₁, h₂, h.ne]
  · by_cases hab : a.value.lt b.value = true
    · have hba : b.value.lt a.value = false := by
        by_contra hba
        have hlt := Ucoord.lt_trans hab (Bool.eq_true_of_not_eq_false hba)
        rw [Ucoord.lt_irrefl] at hlt
        cases hlt
      have hne : a.value ≠ b.value := fun heq => by
        rw [heq, Ucoord.lt_irrefl] at hab
        cases hab
      simp [lt, eq, h, hab, hba, hne]
    · by_cases hba : b.value.lt a.value = true
      · have hne : a.value ≠ b.value := fun heq => by
          rw [heq, Ucoord.lt_irrefl] at hba
          cases hba
        simp [lt, eq, h, hab, hba, hne]
      · have heq : a.value = b.value :=
          Ucoord.eq_of_not_lt rfl (Bool.eq_false_iff.mpr hab) (Bool.eq_false_iff.mpr hba)
        simp [lt, eq, h, heq, Ucoord.lt_irrefl]
  · have h₁ := h.ne'
    have h₂ := h.le
    simp [lt, eq, h, h₁, h₂, h.ne]

theorem ordered_of_num_ne (hb : Valid b) (hnum : a.num ≠ b.num) : Ordered a b where
  trichotomy := trichotomous a b
  le_iff := by
    simp only [le, lt, eq, hnum, false_and, or_false, decide_eq_true_eq]
    omega
  lt_iff := by
    rw [exists_iterate_iff]
    simp only [lt, hnum, false_and, or_false, decide_eq_true_eq]
    constructor
    · exact fun h => reaches_advance_of_ne (reaches_of_num_lt hb h) fun heq => hnum (heq ▸ rfl)
    · intro h
      have hle := a.num_le_num_advance.trans h.num_le
      omega

/-- Iterators with one number of faces are compared by their coordinates only, and `operator<=`
holds for all of them. -/
theorem ordered_iff_of_num_eq (ha : Valid a) (hb : Valid b) (hnum : a.num = b.num) :
    Ordered a b ↔ (a.value.lt b.value = true ∨ a.value = b.value) ∧
      (a.value.lt b.value = true ↔ Before a.deref b.deref) := by
  have hle : le a b = true := by simp [le, hnum]
  have hlt : lt a b = true ↔ a.value.lt b.value = true := by simp [lt, hnum]
  have heq : eq a b = true ↔ a.value = b.value := by simp [eq, hnum]
  have hlater : (∃ k, 1 ≤ k ∧ advance^[k] a = b) ↔ Before a.deref b.deref :=
    exists_iterate_iff.trans (reaches_iff_before ha hb hnum)
  constructor
  · rintro ⟨-, hleIff, hltIff⟩
    rw [hlt, heq] at hleIff
    rw [hlt, hlater] at hltIff
    exact ⟨hleIff.mp hle, hltIff⟩
  · rintro ⟨h, hltIff⟩
    refine ⟨trichotomous a b, ?_, ?_⟩
    · rw [hlt, heq]
      exact iff_of_true hle h
    · rw [hlt, hlater]
      exact hltIff

theorem ordered_iff_before (ha : Valid a) (hb : Valid b) :
    Ordered a b ↔ a.num ≠ b.num ∨ a = b ∨
      Before a.deref b.deref ∧ a.value.lt b.value = true ∨
      Before b.deref a.deref ∧ a.value = b.value := by
  by_cases hnum : a.num = b.num
  · rw [ordered_iff_of_num_eq ha hb hnum]
    constructor
    · rintro ⟨hlt | heq, hiff⟩
      · exact .inr (.inr (.inl ⟨hiff.mp hlt, hlt⟩))
      · right
        rcases eq_or_reaches ha hb hnum with h | h | h
        · exact .inl h
        · have hlt := hiff.mpr (before_of_reaches ha hnum h)
          rw [heq, Ucoord.lt_irrefl] at hlt
          cases hlt
        · exact .inr (.inr ⟨before_of_reaches hb hnum.symm h, heq⟩)
    · rintro (h | rfl | ⟨hbefore, hlt⟩ | ⟨hbefore, heq⟩)
      · exact absurd hnum h
      · rw [Ucoord.lt_irrefl]
        exact ⟨.inr rfl, iff_of_false Bool.false_ne_true fun h => h.asymm h⟩
      · exact ⟨.inl hlt, iff_of_true hlt hbefore⟩
      · rw [heq, Ucoord.lt_irrefl]
        exact ⟨.inr rfl, iff_of_false Bool.false_ne_true hbefore.asymm⟩
  · exact iff_of_true (ordered_of_num_ne hb hnum) (.inl hnum)

theorem value_eq (hle : a.num ≤ 2 ^ 31) : a.value = .at2 a.deref.x a.deref.y := by
  have hbound : a.deref.area ≤ 2 ^ 31 := a.area_deref.trans_le hle
  rw [value, Nat.mod_eq_of_lt (a.deref.x_lt_area.trans_le hbound),
    Nat.mod_eq_of_lt (a.deref.y_lt_area.trans_le hbound)]

theorem before_and_lt_iff (hnum : a.num = b.num) (hle : a.num ≤ 2 ^ 31) :
    Before a.deref b.deref ∧ a.value.lt b.value = true ↔
      a.deref.y < a.deref.x ∧ a.deref.y < min b.deref.x b.deref.y := by
  have harea : a.deref.area = b.deref.area := a.area_deref.trans (hnum.trans b.area_deref.symm)
  have hlt : a.value.lt b.value = true ↔
      a.deref.y < b.deref.y ∨ a.deref.y = b.deref.y ∧ a.deref.x < b.deref.x := by
    rw [Ucoord.lt_iff, value_eq hle, value_eq (hnum ▸ hle)]
    simp only [Ucoord.at2, Nat.lt_irrefl, false_or, true_and]
  rw [hlt]
  generalize a.deref = p at *
  generalize b.deref = q at *
  constructor
  · rintro ⟨hmin | ⟨rfl, hxy⟩, hlt⟩
    · -- otherwise both factors of `q` would be larger
      have hyx : p.y < p.x := by
        by_contra hyx
        have hx : p.x + 1 < q.x + 1 := by omega
        have hy : p.y + 1 ≤ q.y + 1 := by omega
        exact absurd harea (Nat.mul_lt_mul_of_lt_of_le hx hy (Nat.succ_pos _)).ne
      exact ⟨hyx, by omega⟩
    · simp only [AspectRatio.rotate] at hlt
      omega
  · rintro ⟨hyx, hmin⟩
    exact ⟨.inl (by omega), .inl (by omega)⟩

theorem ordered_iff_wide (ha : Valid a) (hb : Valid b) (hle : a.num ≤ 2 ^ 31) :
    Ordered a b ↔ a.num ≠ b.num ∨ a = b ∨
      a.deref.y < a.deref.x ∧ a.deref.y < min b.deref.x b.deref.y := by
  rw [ordered_iff_before ha hb]
  by_cases hnum : a.num = b.num
  · rw [before_and_lt_iff hnum hle]
    constructor
    · rintro (h | h | h | ⟨hbefore, heq⟩)
      · exact .inl h
      · exact .inr (.inl h)
      · exact .inr (.inr h)
      · rw [value_eq hle, value_eq (hnum ▸ hle)] at heq
        obtain ⟨-, -, hy, hx⟩ := Ucoord.mk.inj heq
        have hderef : a.deref = b.deref := AspectRatio.ext hx hy
        rw [hderef] at hbefore
        exact absurd hbefore hbefore.asymm
    · rintro (h | h | h)
      · exact .inl h
      · exact .inr (.inl h)
      · exact .inr (.inr (.inl h))
  · exact iff_of_true (.inl hnum) (.inl hnum)

/-- Two iterators are ordered if they point to different numbers of faces or to the same place, or
if the later one has the larger coordinates. Coordinates with too many faces can also be equal;
otherwise the earlier aspect ratio is wider than high and has fewer rows than the later one has rows
or columns. -/
theorem ordered_iff (ha : ∃ n, (start n).Reaches a) (hb : ∃ n, (start n).Reaches b) :
    (Ordered a b ↔ a.num ≠ b.num ∨ a = b ∨
      Before a.deref b.deref ∧ a.value.lt b.value = true ∨
      Before b.deref a.deref ∧ a.value = b.value) ∧
    (a.num ≤ 2 ^ 31 → (Ordered a b ↔ a.num ≠ b.num ∨ a = b ∨
      a.deref.y < a.deref.x ∧ a.deref.y < min b.deref.x b.deref.y)) := by
  obtain ⟨n, ha⟩ := ha
  obtain ⟨m, hb⟩ := hb
  replace ha := valid_of_reaches ha
  replace hb := valid_of_reaches hb
  exact ⟨ordered_iff_before ha hb, ordered_iff_wide ha hb⟩

theorem ordered_iff_start :
    let a := (start 6).advance
    let b := a.advance
    (Ordered a b ↔ a.num ≠ b.num ∨ a = b ∨
      Before a.deref b.deref ∧ a.value.lt b.value = true ∨
      Before b.deref a.deref ∧ a.value = b.value) ∧
    (a.num ≤ 2 ^ 31 → (Ordered a b ↔ a.num ≠ b.num ∨ a = b ∨
      a.deref.y < a.deref.x ∧ a.deref.y < min b.deref.x b.deref.y)) :=
  ordered_iff ⟨6, (Reaches.refl _).advance⟩ ⟨6, (Reaches.refl _).advance.advance⟩

/-- The aspect ratios with one and four rows are compared as less than or equal both ways. -/
theorem rotatedRow_not_ordered : ¬ Ordered (start 4) (start 4).advance := by
  intro h
  rcases h.le_iff.mp (by decide +kernel) with hlt | heq
  · exact absurd hlt (by decide +kernel)
  · exact absurd heq (by decide +kernel)

end Comparison

end AspectRatioIterator

end Fiction
