import Mathlib.Algebra.BigOperators.Group.List.Basic
import Mathlib.Algebra.GroupWithZero.Nat
import Mathlib.Tactic.Common

/-!
# First-fit distribution

Batches of items are handed, one after another, to the first of several holders that is still below
its filling mark; a holder without a mark accepts everything. A batch is never split, so a holder
can end above its mark. Identifiers of holders and their loads may be kept elsewhere: `Loaded` says
that a list of holders describes them, and `pick` finds the identifier of the accepting holder.
-/

namespace Fiction.FirstFit

structure Holder where
  load : ℕ
  mark : Option ℕ
  limit : ℕ
  deriving DecidableEq, Repr

namespace Holder

def accepts (h : Holder) : Bool :=
  match h.mark with
  | none => true
  | some m => h.load < m

def add (h : Holder) (c : ℕ) : Holder := { h with load := h.load + c }

end Holder

/-- Hands a batch of `c` items to the first accepting holder; there may be none. -/
def give (c : ℕ) : List Holder → Option (List Holder)
  | [] => none
  | h :: hs => if h.accepts then some (h.add c :: hs) else (give c hs).map (h :: ·)

def distribute (hs : List Holder) (batches : List ℕ) : Option (List Holder) :=
  batches.foldlM (fun hs c => give c hs) hs

def totalLoad (hs : List Holder) : ℕ := (hs.map Holder.load).sum

def WithinLimits (hs : List Holder) : Prop := ∀ h ∈ hs, h.load ≤ h.limit

section Distribute

variable {hs hs' : List Holder} {c : ℕ}

theorem totalLoad_give (h : give c hs = some hs') : totalLoad hs' = totalLoad hs + c := by
  induction hs generalizing hs' with
  | nil => simp [give] at h
  | cons a hs ih =>
    simp only [give] at h
    split_ifs at h
    · obtain rfl := Option.some.inj h
      simp only [totalLoad, Holder.add, List.map_cons, List.sum_cons]
      omega
    · obtain ⟨l, hl, rfl⟩ := Option.map_eq_some_iff.mp h
      have := ih hl
      simp only [totalLoad, List.map_cons, List.sum_cons] at this ⊢
      omega

theorem give_eq_none_iff : give c hs = none ↔ ∀ h ∈ hs, h.accepts = false := by
  induction hs with
  | nil => simp [give]
  | cons a hs ih =>
    simp only [give, List.forall_mem_cons]
    split_ifs with ha
    · simp [ha]
    · simp [ha, ih]

theorem marks_give (h : give c hs = some hs') :
    hs'.map (fun h => (h.mark, h.limit)) = hs.map fun h => (h.mark, h.limit) := by
  induction hs generalizing hs' with
  | nil => simp [give] at h
  | cons a hs ih =>
    simp only [give] at h
    split_ifs at h
    · obtain rfl := Option.some.inj h
      rfl
    · obtain ⟨l, hl, rfl⟩ := Option.map_eq_some_iff.mp h
      rw [List.map_cons, List.map_cons, ih hl]

theorem distribute_concat (hs : List Holder) (batches : List ℕ) (c : ℕ) :
    distribute hs (batches ++ [c]) = (distribute hs batches).bind (give c) := by
  simp [distribute, List.foldlM_append]

theorem totalLoad_distribute {batches : List ℕ} (h : distribute hs batches = some hs') :
    totalLoad hs' = totalLoad hs + batches.sum := by
  induction batches generalizing hs with
  | nil =>
    obtain rfl := Option.some.inj h
    rfl
  | cons c batches ih =>
    obtain ⟨l, hl, hl'⟩ := Option.bind_eq_some_iff.mp h
    rw [ih hl', totalLoad_give hl, List.sum_cons, Nat.add_assoc]

theorem marks_distribute {batches : List ℕ} (h : distribute hs batches = some hs') :
    hs'.map (fun h => (h.mark, h.limit)) = hs.map fun h => (h.mark, h.limit) := by
  induction batches generalizing hs with
  | nil =>
    obtain rfl := Option.some.inj h
    rfl
  | cons c batches ih =>
    obtain ⟨l, hl, hl'⟩ := Option.bind_eq_some_iff.mp h
    rw [ih hl', marks_give hl]

end Distribute

section Loaded

variable {ι : Type*} {f f' : ι → ℕ} {ids : List ι} {hs hs' : List Holder} {c : ℕ}

/-- The holders have the loads that `f` gives to the identifiers. -/
def Loaded (f : ι → ℕ) (ids : List ι) (hs : List Holder) : Prop :=
  List.Forall₂ (fun x h => h.load = f x) ids hs

/-- The identifier of the first accepting holder. -/
def pick : List ι → List Holder → Option ι
  | x :: ids, h :: hs => if h.accepts then some x else pick ids hs
  | _, _ => none

theorem pick_mem {x : ι} (h : pick ids hs = some x) : x ∈ ids := by
  induction ids generalizing hs with
  | nil => simp [pick] at h
  | cons y ids ih =>
    cases hs with
    | nil => simp [pick] at h
    | cons a hs =>
      simp only [pick] at h
      split_ifs at h
      · exact Option.some.inj h ▸ List.mem_cons_self
      · exact List.mem_cons_of_mem y (ih h)

theorem Loaded.congr (hl : Loaded f ids hs) (h : ∀ x ∈ ids, f' x = f x) : Loaded f' ids hs := by
  induction hl with
  | nil => exact .nil
  | cons hx _ ih =>
    rw [List.forall_mem_cons] at h
    exact .cons (hx.trans h.1.symm) (ih h.2)

theorem Loaded.pick_isSome (hl : Loaded f ids hs) (h : give c hs = some hs') :
    ∃ x, pick ids hs = some x := by
  induction hl generalizing hs' with
  | nil => simp [give] at h
  | cons _ _ ih =>
    simp only [give] at h
    simp only [pick]
    split_ifs at h ⊢
    · exact ⟨_, rfl⟩
    · obtain ⟨l, hl, _⟩ := Option.map_eq_some_iff.mp h
      exact ih hl

/-- If the load of the picked identifier grows by `c` and no other load changes, the holders after
`give` describe the new loads. -/
theorem Loaded.give [DecidableEq ι] (hl : Loaded f ids hs) (hnd : ids.Nodup)
    (h : give c hs = some hs') {x : ι} (hx : pick ids hs = some x)
    (hf : ∀ y ∈ ids, f' y = f y + if y = x then c else 0) : Loaded f' ids hs' := by
  induction hl generalizing hs' with
  | nil => simp [FirstFit.give] at h
  | @cons y a ids hs hy hl ih =>
    obtain ⟨hny, hnd⟩ := List.nodup_cons.mp hnd
    rw [List.forall_mem_cons] at hf
    simp only [FirstFit.give] at h
    simp only [pick] at hx
    split_ifs at h hx
    · obtain rfl := Option.some.inj h
      obtain rfl := Option.some.inj hx
      refine .cons ?_ (Loaded.congr hl fun z hz => ?_)
      · rw [hf.1, if_pos rfl, Holder.add, hy]
      · rw [hf.2 z hz, if_neg (ne_of_mem_of_not_mem hz hny), Nat.add_zero]
    · obtain ⟨l, hl', rfl⟩ := Option.map_eq_some_iff.mp h
      refine .cons ?_ (ih hnd hl' hx hf.2)
      have hne : y ≠ x := fun he => hny (he ▸ pick_mem hx)
      rw [hf.1, if_neg hne, Nat.add_zero, hy]

theorem Loaded.pick_eq_find (hl : Loaded f ids hs) {m : ℕ} (hm : ∀ h ∈ hs, h.mark = some m) :
    pick ids hs = ids.find? fun x => decide (f x < m) := by
  induction hl with
  | nil => rfl
  | @cons x a ids hs hx _ ih =>
    rw [List.forall_mem_cons] at hm
    have ha : a.accepts = decide (f x < m) := by rw [Holder.accepts, hm.1, hx]
    simp only [pick, List.find?_cons, ha, ih hm.2]
    cases decide (f x < m) <;> rfl

theorem Loaded.withinLimits_iff (hl : Loaded f ids hs) {m : ℕ} (hm : ∀ h ∈ hs, h.limit = m) :
    WithinLimits hs ↔ ∀ x ∈ ids, f x ≤ m := by
  induction hl with
  | nil => simp [WithinLimits]
  | @cons x a ids hs hx _ ih =>
    rw [List.forall_mem_cons] at hm
    have htail := ih hm.2
    rw [WithinLimits] at htail ⊢
    rw [List.forall_mem_cons, List.forall_mem_cons, hx, hm.1, htail]

end Loaded

section PrefixSums

variable {xs ys : List ℕ} {p : ℕ}

/-- The batches can be cut where they amount to `p` items. -/
def IsPrefixSum (xs : List ℕ) (p : ℕ) : Prop := ∃ j, (xs.take j).sum = p

theorem isPrefixSum_zero (xs : List ℕ) : IsPrefixSum xs 0 := ⟨0, rfl⟩

theorem isPrefixSum_sum (xs : List ℕ) : IsPrefixSum xs xs.sum :=
  ⟨xs.length, by rw [List.take_length]⟩

theorem IsPrefixSum.le (h : IsPrefixSum xs p) : p ≤ xs.sum := by
  obtain ⟨j, rfl⟩ := h
  calc (xs.take j).sum ≤ (xs.take j).sum + (xs.drop j).sum := Nat.le_add_right _ _
    _ = xs.sum := by rw [← List.sum_append, List.take_append_drop]

theorem isPrefixSum_append_add : IsPrefixSum (xs ++ ys) (xs.sum + p) ↔ IsPrefixSum ys p := by
  constructor
  · rintro ⟨j, hj⟩
    rcases Nat.le_total j xs.length with hle | hle
    · rw [List.take_append_of_le_length hle] at hj
      have : (xs.take j).sum ≤ xs.sum := IsPrefixSum.le ⟨j, rfl⟩
      obtain rfl : p = 0 := by omega
      exact isPrefixSum_zero ys
    · obtain ⟨i, rfl⟩ := Nat.exists_eq_add_of_le hle
      rw [List.take_length_add_append, List.sum_append] at hj
      exact ⟨i, by omega⟩
  · rintro ⟨i, rfl⟩
    exact ⟨xs.length + i, by rw [List.take_length_add_append, List.sum_append]⟩

end PrefixSums

section Limits

variable {a : Holder} {hs hs' : List Holder} {batches : List ℕ}

/-- What the holders can still take within their limits. -/
def freeSpace (hs : List Holder) : ℕ := (hs.map fun h => h.limit - h.load).sum

theorem distribute_cons_of_full (ha : a.accepts = false) :
    distribute (a :: hs) batches = (distribute hs batches).map (a :: ·) := by
  induction batches generalizing hs with
  | nil => rfl
  | cons c batches ih =>
    have hg : give c (a :: hs) = (give c hs).map (a :: ·) := by
      rw [give, if_neg (by simp [ha])]
    simp only [distribute, List.foldlM_cons, hg] at ih ⊢
    cases give c hs with
    | none => rfl
    | some l => exact ih

theorem distribute_cons {m : ℕ} (hm : a.mark = some m)
    (h : distribute (a :: hs) batches = some hs') :
    ∃ xs ys hs₂, batches = xs ++ ys ∧ hs' = a.add xs.sum :: hs₂ ∧ distribute hs ys = some hs₂ ∧
      (ys = [] ∨ m ≤ a.load + xs.sum) ∧
      ∀ q, IsPrefixSum batches q → m ≤ a.load + q → xs.sum ≤ q := by
  induction batches generalizing a with
  | nil =>
    obtain rfl := Option.some.inj h
    exact ⟨[], [], hs, rfl, rfl, rfl, .inl rfl, fun q _ _ => Nat.zero_le q⟩
  | cons c batches ih =>
    cases ha : a.accepts with
    | false =>
      rw [distribute_cons_of_full ha] at h
      obtain ⟨hs₂, hs₂', rfl⟩ := Option.map_eq_some_iff.mp h
      have hle : m ≤ a.load := by simpa [Holder.accepts, hm] using ha
      exact ⟨[], c :: batches, hs₂, rfl, rfl, hs₂', .inr hle, fun q _ _ => Nat.zero_le q⟩
    | true =>
      have hg : give c (a :: hs) = some (a.add c :: hs) := by rw [give, if_pos ha]
      rw [distribute, List.foldlM_cons, hg] at h
      obtain ⟨xs, ys, hs₂, rfl, rfl, hd, hend, hmin⟩ := ih (a := a.add c) hm h
      have hadd : (a.add c).load = a.load + c := rfl
      refine ⟨c :: xs, ys, hs₂, rfl, ?_, hd, ?_, ?_⟩
      · simp only [Holder.add, List.sum_cons, Nat.add_assoc]
      · rw [List.sum_cons, ← Nat.add_assoc]
        exact hend
      · rintro q ⟨j, rfl⟩ hq
        rcases j with - | j
        · have hlt : a.load < m := by simpa [Holder.accepts, hm] using ha
          simp only [List.take_zero, List.sum_nil] at hq
          omega
        · rw [List.take_succ_cons, List.sum_cons] at hq ⊢
          rw [List.sum_cons]
          have := hmin _ ⟨j, rfl⟩ (by omega)
          omega

/-- Holders that accept up to their limits stay within them exactly if the batches can be cut
wherever a holder is full. -/
theorem withinLimits_distribute_iff (hm : ∀ h ∈ hs, h.mark = some h.limit ∧ h.load ≤ h.limit)
    (h : distribute hs batches = some hs') :
    WithinLimits hs' ↔ ∀ i ≤ hs.length, freeSpace (hs.take i) ≤ batches.sum →
      IsPrefixSum batches (freeSpace (hs.take i)) := by
  induction hs generalizing batches hs' with
  | nil =>
    have hnil : hs' = [] := by simpa using congrArg List.length (marks_distribute h)
    subst hnil
    refine ⟨fun _ i _ _ => ?_, fun _ => List.forall_mem_nil _⟩
    rw [List.take_nil]
    exact isPrefixSum_zero batches
  | cons a hs ih =>
    obtain ⟨⟨hmark, hload⟩, hrest⟩ := List.forall_mem_cons.mp hm
    obtain ⟨xs, ys, hs₂, rfl, rfl, hd, hend, hmin⟩ := distribute_cons hmark h
    have hfree : ∀ i, freeSpace ((a :: hs).take (i + 1)) =
        (a.limit - a.load) + freeSpace (hs.take i) := fun i => by
      rw [List.take_succ_cons, freeSpace, List.map_cons, List.sum_cons, freeSpace]
    have hcons : WithinLimits (a.add xs.sum :: hs₂) ↔
        a.load + xs.sum ≤ a.limit ∧ WithinLimits hs₂ := by
      rw [WithinLimits, List.forall_mem_cons]
      rfl
    rw [hcons, ih hrest hd]
    constructor
    · rintro ⟨hx, hy⟩ i hi hle
      rcases i with - | i
      · exact isPrefixSum_zero _
      rw [hfree, List.sum_append] at hle
      rw [List.length_cons] at hi
      rw [hfree]
      rcases hend with rfl | hend
      · rw [List.sum_nil] at hle
        have htotal : a.limit - a.load + freeSpace (hs.take i) = (xs ++ []).sum := by
          rw [List.append_nil]
          omega
        rw [htotal]
        exact isPrefixSum_sum _
      · have hx' : a.limit - a.load = xs.sum := by omega
        rw [hx', isPrefixSum_append_add]
        exact hy i (by omega) (by omega)
    · intro hcut
      have hx : a.load + xs.sum ≤ a.limit := by
        by_contra hgt
        have hone := hcut 1 (by simp)
        rw [hfree, List.take_zero, List.sum_append] at hone
        simp only [freeSpace, List.map_nil, List.sum_nil, Nat.add_zero] at hone
        have := hmin _ (hone (by omega)) (by omega)
        omega
      refine ⟨hx, fun i hi hle => ?_⟩
      rcases hend with rfl | hend
      · rw [List.sum_nil, Nat.le_zero] at hle
        rw [hle]
        exact isPrefixSum_zero _
      · have hx' : a.limit - a.load = xs.sum := by omega
        have hnext := hcut (i + 1) (by rw [List.length_cons]; omega)
        rw [hfree, hx', List.sum_append, isPrefixSum_append_add] at hnext
        exact hnext (by omega)

end Limits

end Fiction.FirstFit
