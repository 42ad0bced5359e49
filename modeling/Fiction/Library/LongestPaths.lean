import Mathlib.Data.Finset.Card
import Mathlib.Data.List.Fold
import Mathlib.Order.Bounds.Basic

/-!
# Longest paths to a sink

`succ` lists the successors of each vertex, and a sink has none. If every vertex of a closed set has
a level one above the largest level of its successors, then levels are the lengths of longest paths.
-/

namespace Fiction.LongestPaths

section Maximum

theorem le_foldr_max {l : List ℕ} {a : ℕ} (ha : a ∈ l) : a ≤ l.foldr max 0 := by
  induction l with
  | nil => cases ha
  | cons b l ih =>
    rcases List.mem_cons.mp ha with rfl | ha
    · exact le_max_left _ _
    · exact (ih ha).trans (le_max_right _ _)

theorem foldr_max_eq_zero_or_mem (l : List ℕ) : l.foldr max 0 = 0 ∨ l.foldr max 0 ∈ l := by
  induction l with
  | nil => exact .inl rfl
  | cons b l ih =>
    rw [List.foldr_cons]
    rcases max_cases b (l.foldr max 0) with ⟨hmax, -⟩ | ⟨hmax, -⟩
    · rw [hmax]
      exact .inr List.mem_cons_self
    · rw [hmax]
      exact ih.imp id (List.mem_cons_of_mem b)

theorem foldl_max_eq_foldr (l : List ℕ) : l.foldl max 0 = l.foldr max 0 := List.foldl_eq_foldr ..

theorem isGreatest_foldl_max (l : List ℕ) : IsGreatest (insert 0 {k | k ∈ l}) (l.foldl max 0) := by
  rw [foldl_max_eq_foldr]
  constructor
  · exact foldr_max_eq_zero_or_mem l
  · rintro k (rfl | hk)
    · exact Nat.zero_le _
    · exact le_foldr_max hk

end Maximum

section Paths

variable {α : Type*} (succ : α → List α)

/-- A path of `k` edges to a sink. -/
inductive PathToSink : α → ℕ → Prop
  | sink {a : α} (h : succ a = []) : PathToSink a 0
  | step {a b : α} {k : ℕ} (h : b ∈ succ a) (hpath : PathToSink b k) : PathToSink a (k + 1)

/-- One more than the largest level of a successor, zero for a sink. -/
def height (level : α → ℕ) (a : α) : ℕ :=
  if succ a = [] then 0 else ((succ a).map level).foldl max 0 + 1

variable {succ} {level level' : α → ℕ} {a : α}

theorem height_congr (h : ∀ b ∈ succ a, level b = level' b) :
    height succ level a = height succ level' a := by
  rw [height, height, List.map_congr_left h]

theorem lt_height {b : α} (hb : b ∈ succ a) : level b < height succ level a := by
  rw [height, if_neg (List.ne_nil_of_mem hb)]
  exact Nat.lt_succ_of_le ((isGreatest_foldl_max _).2 (.inr (List.mem_map_of_mem hb)))

theorem exists_height_eq (hne : succ a ≠ []) :
    ∃ b ∈ succ a, height succ level a = level b + 1 := by
  rw [height, if_neg hne]
  rcases (isGreatest_foldl_max ((succ a).map level)).1 with hzero | hmem
  · obtain ⟨b, hb⟩ := List.exists_mem_of_ne_nil _ hne
    have hle : level b ≤ 0 := hzero ▸ (isGreatest_foldl_max _).2 (.inr (List.mem_map_of_mem hb))
    exact ⟨b, hb, congrArg (· + 1) (hzero.trans (Nat.le_zero.1 hle).symm)⟩
  · obtain ⟨b, hb, heq⟩ := List.mem_map.1 hmem
    exact ⟨b, hb, congrArg (· + 1) heq.symm⟩

section Levels

variable {D : α → Prop} (hclosed : ∀ a, D a → ∀ b ∈ succ a, D b)
  (hlevel : ∀ a, D a → level a = height succ level a)

include hclosed hlevel

theorem le_level {k : ℕ} (h : PathToSink succ a k) (ha : D a) : k ≤ level a := by
  induction h with
  | sink => exact Nat.zero_le _
  | @step a b k hb hpath ih =>
    have hlt : level b < level a := by
      rw [hlevel a ha]
      exact lt_height hb
    exact (ih (hclosed a ha b hb)).trans_lt hlt

/-- The successor with the largest level begins the path, by induction on the level. -/
theorem pathToSink_level (ha : D a) : PathToSink succ a (level a) := by
  induction hk : level a generalizing a with
  | zero =>
    apply PathToSink.sink
    by_contra hne
    obtain ⟨b, hb⟩ := List.exists_mem_of_ne_nil _ hne
    have hlt : level b < height succ level a := lt_height hb
    rw [← hlevel a ha, hk] at hlt
    exact Nat.not_lt_zero _ hlt
  | succ k ih =>
    have hne : succ a ≠ [] := by
      intro hnil
      have hzero := hlevel a ha
      rw [height, if_pos hnil, hk] at hzero
      cases hzero
    obtain ⟨b, hb, heq⟩ : ∃ b ∈ succ a, height succ level a = level b + 1 := exists_height_eq hne
    rw [← hlevel a ha, hk, Nat.succ_inj] at heq
    exact .step hb (ih (hclosed a ha b hb) heq.symm)

theorem isGreatest_level (ha : D a) : IsGreatest {k | PathToSink succ a k} (level a) :=
  ⟨pathToSink_level hclosed hlevel ha, fun _ h => le_level hclosed hlevel h ha⟩

end Levels

theorem PathToSink.lt_card {k : ℕ} (h : PathToSink succ a k) {S : Finset α} {rank : α → ℕ}
    (hsucc : ∀ a, ∀ b ∈ succ a, b ∈ S ∧ rank a < rank b) (ha : a ∈ S) : k < S.card := by
  have hrun : k ≤ (S.filter fun b => rank a < rank b).card := by
    clear ha
    induction h with
    | sink => exact Nat.zero_le _
    | @step a b k hb _ ih =>
      obtain ⟨hbS, hlt⟩ := hsucc a b hb
      refine Nat.succ_le_of_lt (ih.trans_lt (Finset.card_lt_card ?_))
      refine (Finset.ssubset_iff_of_subset ?_).2 ⟨b, ?_, ?_⟩
      · exact Finset.monotone_filter_right S fun c _ hc => hlt.trans hc
      · exact Finset.mem_filter.2 ⟨hbS, hlt⟩
      · exact fun hmem => lt_irrefl _ (Finset.mem_filter.1 hmem).2
  refine hrun.trans_lt (Finset.card_lt_card ?_)
  refine (Finset.ssubset_iff_of_subset (Finset.filter_subset _ S)).2 ⟨a, ha, ?_⟩
  exact fun hmem => lt_irrefl _ (Finset.mem_filter.1 hmem).2

end Paths

end Fiction.LongestPaths
