import Mathlib.Data.List.Nodup
import Mathlib.Data.List.Count

/-!
# Initial segments of marked elements

A vector to which elements of two kinds are appended is split after as many elements as there are of
the first kind. The split separates the kinds exactly if no element of the first kind follows one of
the second kind.
-/

namespace Fiction.MarkedPrefix

variable {α β : Type*}

/-- The elements with property `p` form the initial segment of their number exactly if none of them
is preceded by an element without `p`. -/
theorem take_countP_eq_filter_iff (p : α → Bool) (l : List α) :
    l.take (l.countP p) = l.filter p ↔ l.Pairwise fun a b => p b = true → p a = true := by
  induction l with
  | nil => simp
  | cons a l ih =>
    by_cases ha : p a = true
    · simp [ha, ih]
    · rw [List.countP_cons_of_neg ha, List.filter_cons_of_neg ha, List.pairwise_cons, ← ih]
      cases hk : l.countP p with
      | zero =>
        have hnone : ∀ b ∈ l, p b = false := by simpa [List.countP_eq_zero] using hk
        have hf : l.filter p = [] := List.filter_eq_nil_iff.mpr (by simpa using hnone)
        simp only [List.take_zero, hf, true_iff, and_true]
        intro b hb h
        simp [hnone b hb] at h
      | succ k =>
        obtain ⟨b, hb, hpb⟩ := List.countP_pos_iff.mp (by omega : 0 < l.countP p)
        refine ⟨fun h => ?_, fun h => absurd (h.1 b hb hpb) ha⟩
        have hmem : a ∈ l.filter p := h ▸ List.mem_cons_self
        exact absurd (List.mem_filter.mp hmem).2 ha

theorem drop_countP_eq_filter {p : α → Bool} {l : List α} (h : l.take (l.countP p) = l.filter p) :
    l.drop (l.countP p) = l.filter fun a => !p a := by
  have hsplit : l.filter p ++ l.drop (l.countP p) = l := h ▸ List.take_append_drop _ _
  have hnone : (l.drop (l.countP p)).filter p = [] := by
    have hf := congrArg (List.filter p) hsplit
    rw [List.filter_append, List.filter_filter] at hf
    simpa using hf
  have hneg : (l.filter p).filter (fun a => !p a) = [] := by simp
  calc l.drop (l.countP p) = (l.drop (l.countP p)).filter fun a => !p a :=
        (List.filter_eq_self.mpr (by simpa [List.filter_eq_nil_iff] using hnone)).symm
    _ = (l.filter p ++ l.drop (l.countP p)).filter fun a => !p a := by
        rw [List.filter_append, hneg, List.nil_append]
    _ = l.filter fun a => !p a := by rw [hsplit]

theorem eq_of_map_eq {f : α → β} {l l₁ l₂ : List α} (hl : (l.map f).Nodup) (h₁ : l₁ ⊆ l)
    (h₂ : l₂ ⊆ l) (h : l₁.map f = l₂.map f) : l₁ = l₂ := by
  have hlen : l₁.length = l₂.length := by simpa using congrArg List.length h
  refine List.ext_getElem hlen fun i hi hi' => ?_
  refine List.inj_on_of_nodup_map hl (h₁ (List.getElem_mem hi)) (h₂ (List.getElem_mem hi')) ?_
  have := List.getElem_of_eq h (i := i) (by simpa using hi)
  simpa using this

/-- Distinct elements are separated exactly if the marked ones come first. -/
theorem split_iff_pairwise {l : List (α × Bool)} (hl : (l.map Prod.fst).Nodup) :
    (l.map Prod.fst).take (l.countP fun e => e.2) = (l.filter fun e => e.2).map Prod.fst ∧
        (l.map Prod.fst).drop (l.countP fun e => e.2) = (l.filter fun e => !e.2).map Prod.fst ↔
      l.Pairwise fun e e' => e'.2 = true → e.2 = true := by
  rw [← take_countP_eq_filter_iff fun e : α × Bool => e.2, ← List.map_take, ← List.map_drop]
  constructor
  · rintro ⟨ht, -⟩
    exact eq_of_map_eq hl (List.take_subset _ _) (List.filter_subset_self _) ht
  · intro ht
    exact ⟨congrArg _ ht, congrArg _ (drop_countP_eq_filter ht)⟩

end Fiction.MarkedPrefix
