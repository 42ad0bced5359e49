import Mathlib.Algebra.BigOperators.Ring.Finset
import Mathlib.Combinatorics.Enumerative.DoubleCounting

/-!
# Counting things in places

Things are spread over places. Counts of flags along lists without repetition become sums, so that
what leaves the places can be compared with what enters them, and the weights that the places carry
with the weights of the things.
-/

namespace Fiction.Counting

open Finset

variable {α β : Type*}

section Flags

variable [DecidableEq α] {l : List α} {T : Finset α} {f : α → Bool}

omit [DecidableEq α] in
theorem count_map_eq (l : List α) (f : α → Bool) :
    (l.map f).count true = (l.filter f).length := by
  have hcomp : (fun b => b == true) ∘ f = f := by
    funext c
    cases hc : f c <;> simp [hc]
  rw [List.count_eq_countP, List.countP_map, List.countP_eq_length_filter, hcomp]

theorem count_map_eq_sum (hl : l.Nodup) (hT : ∀ a ∈ l, a ∈ T) (f : α → Bool) :
    (l.map f).count true = ∑ a ∈ T, if a ∈ l ∧ f a = true then 1 else 0 := by
  have hfilter : T.filter (fun a => a ∈ l ∧ f a = true) = (l.filter f).toFinset := by
    ext a
    simp only [mem_filter, List.mem_toFinset, List.mem_filter]
    exact ⟨And.right, fun h => ⟨hT a h.1, h⟩⟩
  rw [count_map_eq, sum_boole, hfilter, List.toFinset_card_of_nodup (hl.filter f)]
  rfl

/-- What the places of `T` send to each other is what they receive. -/
theorem sum_count_comm {out into : α → List α} (ho : ∀ a ∈ T, (out a).Nodup)
    (hi : ∀ a ∈ T, (into a).Nodup) (hoT : ∀ a ∈ T, ∀ b ∈ out a, b ∈ T)
    (hiT : ∀ a ∈ T, ∀ b ∈ into a, b ∈ T)
    (h : ∀ a ∈ T, ∀ b ∈ T, a ∈ into b ↔ b ∈ out a) (r : α → α → Bool) :
    ∑ a ∈ T, ((out a).map (r a)).count true =
      ∑ b ∈ T, ((into b).map fun a => r a b).count true := by
  calc ∑ a ∈ T, ((out a).map (r a)).count true
      = ∑ a ∈ T, ∑ b ∈ T, if b ∈ out a ∧ r a b = true then 1 else 0 :=
        sum_congr rfl fun a ha => count_map_eq_sum (ho a ha) (hoT a ha) (r a)
    _ = ∑ b ∈ T, ∑ a ∈ T, if b ∈ out a ∧ r a b = true then 1 else 0 := sum_comm
    _ = ∑ b ∈ T, ∑ a ∈ T, if a ∈ into b ∧ r a b = true then 1 else 0 :=
        sum_congr rfl fun b hb => sum_congr rfl fun a ha => by simp only [h a ha b hb]
    _ = ∑ b ∈ T, ((into b).map fun a => r a b).count true :=
        sum_congr rfl fun b hb =>
          (count_map_eq_sum (hi b hb) (hiT b hb) fun a => r a b).symm

theorem eq_of_count_le_one {a b : α} (h : (l.map f).count true ≤ 1) (ha : a ∈ l) (hb : b ∈ l)
    (hfa : f a = true) (hfb : f b = true) : a = b := by
  by_contra hne
  have hsub : [a, b].Subperm (l.filter f) :=
    List.subperm_of_subset (by simpa using hne) fun c hc => by
      rcases List.mem_cons.mp hc with rfl | hc
      · exact List.mem_filter.mpr ⟨ha, hfa⟩
      · rw [List.mem_singleton.mp hc]
        exact List.mem_filter.mpr ⟨hb, hfb⟩
  have hlen := hsub.length_le
  rw [count_map_eq] at h
  simp only [List.length_cons, List.length_nil] at hlen
  omega

omit [DecidableEq α] in
theorem exists_of_count_pos (h : 1 ≤ (l.map f).count true) : ∃ a ∈ l, f a = true :=
  List.mem_map.mp (List.count_pos_iff.mp h)

omit [DecidableEq α] in
theorem count_map_eq_zero : (l.map f).count true = 0 ↔ ∀ a ∈ l, f a = false := by
  simp [List.count_eq_zero, List.mem_map]

omit [DecidableEq α] in
/-- Two flags that exclude each other are raised no more often than there are places. -/
theorem count_add_count_le {g : α → Bool} (h : ∀ a ∈ l, f a = true → g a = false) :
    (l.map f).count true + (l.map g).count true ≤ l.length := by
  induction l with
  | nil => exact le_rfl
  | cons a l ih =>
    have ih := ih fun b hb => h b (List.mem_cons_of_mem a hb)
    have ha := h a List.mem_cons_self
    rw [List.map_cons, List.map_cons, List.count_cons, List.count_cons, List.length_cons]
    cases hf : f a with
    | false =>
      simp only [beq_iff_eq, Bool.false_eq_true, if_false]
      split_ifs <;> omega
    | true =>
      rw [ha hf]
      simp only [beq_self_eq_true, if_true, beq_iff_eq, Bool.false_eq_true, if_false]
      omega

end Flags

section Places

variable {T : Finset α} {N : Finset β} {at' : α → β → Bool} {d : β → ℕ}

theorem sum_load (h : ∀ b ∈ N, #{a ∈ T | at' a b = true} = 1) :
    ∑ a ∈ T, ∑ b ∈ N, (if at' a b = true then d b else 0) = ∑ b ∈ N, d b := by
  rw [sum_comm]
  refine sum_congr rfl fun b hb => ?_
  rw [← sum_filter, sum_const, h b hb, one_nsmul]

theorem load_eq {a : α} {b : β} (hb : b ∈ N) (hab : at' a b = true)
    (h : ∀ c ∈ N, at' a c = true → c = b) :
    ∑ c ∈ N, (if at' a c = true then d c else 0) = d b := by
  rw [sum_eq_single_of_mem b hb fun c hc hne => if_neg fun hac => hne (h c hc hac), if_pos hab]

theorem load_eq_zero {a : α} (h : ∀ c ∈ N, at' a c = false) :
    ∑ c ∈ N, (if at' a c = true then d c else 0) = 0 :=
  sum_eq_zero fun c hc => by rw [h c hc, if_neg Bool.false_ne_true]

/-- Things that share no place are no more than the places. -/
theorem length_le_of_places {places : List α} {things : List β} (hn : things.Nodup)
    {R : α → β → Prop} (h : ∀ b ∈ things, ∃ a ∈ places, R a b)
    (hu : ∀ a ∈ places, ∀ b ∈ things, ∀ c ∈ things, R a b → R a c → b = c) :
    things.length ≤ places.length := by
  classical
  have hcard := card_le_card_of_forall_subsingleton (fun b a => R a b)
    (s := things.toFinset) (t := places.toFinset)
    (fun b hb => by simpa using h b (List.mem_toFinset.mp hb)) fun a ha b hb c hc =>
      hu a (List.mem_toFinset.mp ha) b (List.mem_toFinset.mp hb.1) c (List.mem_toFinset.mp hc.1)
        hb.2 hc.2
  rw [List.toFinset_card_of_nodup hn] at hcard
  exact hcard.trans places.toFinset_card_le

end Places

end Fiction.Counting
