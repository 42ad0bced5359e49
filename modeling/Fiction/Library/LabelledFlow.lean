import Mathlib.Algebra.BigOperators.Ring.Finset
import Mathlib.Combinatorics.Enumerative.DoubleCounting

/-!
# Labelled flow

Places pass labels on along connections. Every place has as many outgoing connections as labels to
send, and as many incoming ones as labels to receive, but a connection may carry any number of them.
If labels of one sender never meet again in one receiver, or if connections lead from rank to rank,
each label is passed on along one connection only.
-/

namespace Fiction

open Finset

variable {α ε : Type*}

/-- The connections between the places `T` match the numbers of labels that are sent and received,
and each label that is sent is received somewhere and vice versa. -/
structure LabelledFlow (T : Finset α) (E : Finset ε) (next : α → α → Prop)
    (sends receives : ε → α → Prop) [DecidableRel next] [DecidableRel sends]
    [DecidableRel receives] : Prop where
  card_sends : ∀ t ∈ T, #{u ∈ T | next t u} = #{e ∈ E | sends e t}
  card_receives : ∀ u ∈ T, #{t ∈ T | next t u} = #{e ∈ E | receives e u}
  forth : ∀ e ∈ E, ∀ t ∈ T, sends e t → ∃ u ∈ T, next t u ∧ receives e u
  back : ∀ e ∈ E, ∀ u ∈ T, receives e u → ∃ t ∈ T, next t u ∧ sends e t

namespace LabelledFlow

variable {T : Finset α} {E : Finset ε} {next : α → α → Prop} {sends receives : ε → α → Prop}
  [DecidableRel next] [DecidableRel sends] [DecidableRel receives]
  (h : LabelledFlow T E next sends receives)

/-- A label is passed on to one place only. -/
def PassedOn (T : Finset α) (next : α → α → Prop) (sends receives : ε → α → Prop) (e : ε) : Prop :=
  ∀ t ∈ T, sends e t → ∀ u ∈ T, ∀ u' ∈ T, next t u → receives e u → next t u' → receives e u' →
    u = u'

include h

/-- If no two labels of one place reach the same next place, each needs its own connection. -/
theorem passedOn_of_exclusive
    (hex : ∀ t ∈ T, ∀ u ∈ T, ∀ e ∈ E, ∀ e' ∈ E, next t u → sends e t → sends e' t →
      receives e u → receives e' u → e = e') {e : ε} (he : e ∈ E) :
    PassedOn T next sends receives e := by
  intro t ht hsend u hu u' hu' hnext hrec hnext' hrec'
  have hpos : ∀ e ∈ E.filter (sends · t), 1 ≤ #{u ∈ T.filter (next t) | receives e u} := by
    intro e he
    obtain ⟨he, hs⟩ := mem_filter.mp he
    obtain ⟨u, hu, hn, hr⟩ := h.forth e he t ht hs
    exact card_pos.mpr ⟨u, mem_filter.mpr ⟨mem_filter.mpr ⟨hu, hn⟩, hr⟩⟩
  have hle : ∀ u ∈ T.filter (next t), #{e ∈ E.filter (sends · t) | receives e u} ≤ 1 := by
    intro u hu
    obtain ⟨hu, hn⟩ := mem_filter.mp hu
    refine card_le_one.mpr fun e he e' he' => ?_
    obtain ⟨he, hr⟩ := mem_filter.mp he
    obtain ⟨he', hr'⟩ := mem_filter.mp he'
    obtain ⟨he, hs⟩ := mem_filter.mp he
    obtain ⟨he', hs'⟩ := mem_filter.mp he'
    exact hex t ht u hu e he e' he' hn hs hs' hr hr'
  have hsum : ∑ e ∈ E.filter (sends · t), #{u ∈ T.filter (next t) | receives e u} ≤
      ∑ _e ∈ E.filter (sends · t), 1 := by
    calc ∑ e ∈ E.filter (sends · t), #{u ∈ T.filter (next t) | receives e u}
        = ∑ u ∈ T.filter (next t), #{e ∈ E.filter (sends · t) | receives e u} :=
          sum_card_bipartiteAbove_eq_sum_card_bipartiteBelow receives
      _ ≤ ∑ _u ∈ T.filter (next t), 1 := sum_le_sum hle
      _ = ∑ _e ∈ E.filter (sends · t), 1 := by
          rw [sum_const, sum_const, h.card_sends t ht]
  have heq := (sum_eq_sum_iff_of_le hpos).mp (le_antisymm (sum_le_sum hpos) hsum) e
    (mem_filter.mpr ⟨he, hsend⟩)
  exact card_le_one.mp heq.ge u (mem_filter.mpr ⟨mem_filter.mpr ⟨hu, hnext⟩, hrec⟩) u'
    (mem_filter.mpr ⟨mem_filter.mpr ⟨hu', hnext'⟩, hrec'⟩)

section Ranks

variable {rank : α → ℕ} {src : ε → α}
  (hrank : ∀ t ∈ T, ∀ u ∈ T, next t u → rank u = rank t + 1)
  (hsrc : ∀ e ∈ E, ∀ t ∈ T, sends e t → ¬ receives e t → t = src e)
include hrank

/-- As many labels are received at one rank as have been sent at the rank before. -/
theorem sum_sends_eq (r : ℕ) :
    ∑ e ∈ E, #{t ∈ T.filter (rank · = r) | sends e t} =
      ∑ e ∈ E, #{u ∈ T.filter (rank · = r + 1) | receives e u} := by
  have hout : ∀ t ∈ T.filter (rank · = r),
      T.filter (next t) = (T.filter (rank · = r + 1)).filter (next t) := by
    intro t ht
    obtain ⟨ht, hr⟩ := mem_filter.mp ht
    ext u
    simp only [mem_filter]
    exact ⟨fun ⟨hu, hn⟩ => ⟨⟨hu, hr ▸ hrank t ht u hu hn⟩, hn⟩, fun ⟨hu, hn⟩ => ⟨hu.1, hn⟩⟩
  have hin : ∀ u ∈ T.filter (rank · = r + 1),
      T.filter (next · u) = (T.filter (rank · = r)).filter (next · u) := by
    intro u hu
    obtain ⟨hu, hr⟩ := mem_filter.mp hu
    ext t
    simp only [mem_filter]
    refine ⟨fun ⟨ht, hn⟩ => ⟨⟨ht, ?_⟩, hn⟩, fun ⟨ht, hn⟩ => ⟨ht.1, hn⟩⟩
    have := hrank t ht u hu hn
    omega
  calc ∑ e ∈ E, #{t ∈ T.filter (rank · = r) | sends e t}
      = ∑ t ∈ T.filter (rank · = r), #{e ∈ E | sends e t} :=
        sum_card_bipartiteAbove_eq_sum_card_bipartiteBelow sends
    _ = ∑ t ∈ T.filter (rank · = r), #{u ∈ T.filter (rank · = r + 1) | next t u} :=
        sum_congr rfl fun t ht => by
          rw [← h.card_sends t (mem_filter.mp ht).1, hout t ht]
    _ = ∑ u ∈ T.filter (rank · = r + 1), #{t ∈ T.filter (rank · = r) | next t u} :=
        sum_card_bipartiteAbove_eq_sum_card_bipartiteBelow next
    _ = ∑ u ∈ T.filter (rank · = r + 1), #{e ∈ E | receives e u} :=
        sum_congr rfl fun u hu => by
          rw [← h.card_receives u (mem_filter.mp hu).1, hin u hu]
    _ = ∑ e ∈ E, #{u ∈ T.filter (rank · = r + 1) | receives e u} :=
        (sum_card_bipartiteAbove_eq_sum_card_bipartiteBelow receives).symm

theorem card_receives_le {r : ℕ} (hone : ∀ e ∈ E, #{t ∈ T.filter (rank · = r) | sends e t} ≤ 1)
    {e : ε} (he : e ∈ E) : #{u ∈ T.filter (rank · = r + 1) | receives e u} ≤ 1 := by
  have hle : ∀ e ∈ E, #{t ∈ T.filter (rank · = r) | sends e t} ≤
      #{u ∈ T.filter (rank · = r + 1) | receives e u} := by
    intro e he
    rcases Nat.eq_zero_or_pos #{t ∈ T.filter (rank · = r) | sends e t} with hz | hpos
    · rw [hz]
      exact Nat.zero_le _
    · obtain ⟨t, ht⟩ := card_pos.mp hpos
      obtain ⟨ht, hs⟩ := mem_filter.mp ht
      obtain ⟨ht, hr⟩ := mem_filter.mp ht
      obtain ⟨u, hu, hn, hrec⟩ := h.forth e he t ht hs
      refine (hone e he).trans (card_pos.mpr ⟨u, mem_filter.mpr ⟨mem_filter.mpr ⟨hu, ?_⟩, hrec⟩⟩)
      rw [hrank t ht u hu hn, hr]
  rw [← (sum_eq_sum_iff_of_le hle).mp (h.sum_sends_eq hrank r) e he]
  exact hone e he

include hsrc

theorem card_sends_le (r : ℕ) : ∀ e ∈ E, #{t ∈ T.filter (rank · = r) | sends e t} ≤ 1 ∧
    ∀ t ∈ T, rank t = r → sends e t → rank (src e) ≤ r := by
  induction r with
  | zero =>
    have hstart : ∀ e ∈ E, ∀ t ∈ T, rank t = 0 → sends e t → t = src e := by
      intro e he t ht hr hs
      refine hsrc e he t ht hs fun hrec => ?_
      obtain ⟨t', ht', hn, -⟩ := h.back e he t ht hrec
      have := hrank t' ht' t ht hn
      omega
    intro e he
    refine ⟨card_le_one.mpr fun t ht t' ht' => ?_, fun t ht hr hs => ?_⟩
    · obtain ⟨ht, hs⟩ := mem_filter.mp ht
      obtain ⟨ht', hs'⟩ := mem_filter.mp ht'
      obtain ⟨ht, hr⟩ := mem_filter.mp ht
      obtain ⟨ht', hr'⟩ := mem_filter.mp ht'
      rw [hstart e he t ht hr hs, hstart e he t' ht' hr' hs']
    · rw [← hstart e he t ht hr hs, hr]
  | succ r ih =>
    intro e he
    have hrec := h.card_receives_le hrank (fun e he => (ih e he).1) he
    -- what has been received at this rank comes from the source before
    have hbefore : ∀ t ∈ T, rank t = r + 1 → receives e t → rank (src e) ≤ r := by
      intro t ht hr hrt
      obtain ⟨t', ht', hn, hs⟩ := h.back e he t ht hrt
      have := hrank t' ht' t ht hn
      exact (ih e he).2 t' ht' (by omega) hs
    refine ⟨card_le_one.mpr fun t ht t' ht' => ?_, fun t ht hr hs => ?_⟩
    · obtain ⟨ht, hs⟩ := mem_filter.mp ht
      obtain ⟨ht', hs'⟩ := mem_filter.mp ht'
      obtain ⟨ht, hr⟩ := mem_filter.mp ht
      obtain ⟨ht', hr'⟩ := mem_filter.mp ht'
      by_cases hrt : receives e t <;> by_cases hrt' : receives e t'
      · exact card_le_one.mp hrec t (mem_filter.mpr ⟨mem_filter.mpr ⟨ht, hr⟩, hrt⟩) t'
          (mem_filter.mpr ⟨mem_filter.mpr ⟨ht', hr'⟩, hrt'⟩)
      · have hle := hbefore t ht hr hrt
        rw [← hsrc e he t' ht' hs' hrt', hr'] at hle
        omega
      · have hle := hbefore t' ht' hr' hrt'
        rw [← hsrc e he t ht hs hrt, hr] at hle
        omega
      · rw [hsrc e he t ht hs hrt, hsrc e he t' ht' hs' hrt']
    · by_cases hrt : receives e t
      · exact (hbefore t ht hr hrt).trans (Nat.le_succ r)
      · rw [← hsrc e he t ht hs hrt, hr]

theorem passedOn_of_rank {e : ε} (he : e ∈ E) : PassedOn T next sends receives e := by
  intro t ht hs u hu u' hu' hn hrec hn' hrec'
  have hone := h.card_receives_le hrank (r := rank t)
    (fun e he => (h.card_sends_le hrank hsrc (rank t) e he).1) he
  exact card_le_one.mp hone u (mem_filter.mpr ⟨mem_filter.mpr ⟨hu, hrank t ht u hu hn⟩, hrec⟩) u'
    (mem_filter.mpr ⟨mem_filter.mpr ⟨hu', hrank t ht u' hu' hn'⟩, hrec'⟩)

end Ranks

/-- What holds behind the source of a label and is passed on with it holds wherever the label is
received. -/
theorem induction {height : α → ℕ} (hheight : ∀ t ∈ T, ∀ u ∈ T, next t u → height t < height u)
    {e : ε} (he : e ∈ E) {s : α} (hsrc : ∀ t ∈ T, sends e t → ¬ receives e t → t = s) {P : α → Prop}
    (hstart : ∀ u ∈ T, next s u → receives e u → P u)
    (hstep : ∀ t ∈ T, ∀ u ∈ T, P t → sends e t → next t u → receives e u → P u) {u : α}
    (hu : u ∈ T) (hrec : receives e u) : P u := by
  have hrun : ∀ k, ∀ u ∈ T, height u ≤ k → receives e u → P u := by
    intro k
    induction k with
    | zero =>
      intro u hu hk hrec
      obtain ⟨t, ht, hn, -⟩ := h.back e he u hu hrec
      have := hheight t ht u hu hn
      omega
    | succ k ih =>
      intro u hu hk hrec
      obtain ⟨t, ht, hn, hs⟩ := h.back e he u hu hrec
      have hlt := hheight t ht u hu hn
      by_cases hrt : receives e t
      · exact hstep t ht u hu (ih t ht (by omega) hrt) hs hn hrec
      · rw [hsrc t ht hs hrt] at hn
        exact hstart u hu hn hrec
  exact hrun _ u hu le_rfl hrec

end LabelledFlow
end Fiction
