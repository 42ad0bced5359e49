import Mathlib.Data.List.Basic
import Mathlib.Data.Set.Disjoint
import Mathlib.Data.Set.Lattice
import Mathlib.Order.BourbakiWitt
import Mathlib.Order.CompletePartialOrder

/-!
# Loops that write to disjoint regions

Each step of a loop changes a state only within a region of its own. A position outside of all
regions keeps its value, and a position in the region of one step is changed by this step alone.
-/

namespace Fiction.RegionWrites

variable {σ ι κ β : Type*} (get : σ → κ → β) {step : σ → ι → σ} (region : ι → Set κ)

theorem get_foldl_of_not_mem (hframe : ∀ s i k, k ∉ region i → get (step s i) k = get s k)
    {l : List ι} {k : κ} (h : ∀ i ∈ l, k ∉ region i) (s : σ) :
    get (l.foldl step s) k = get s k := by
  induction l generalizing s with
  | nil => rfl
  | cons i l ih =>
    rw [List.foldl_cons, ih (fun j hj => h j (List.mem_cons_of_mem i hj)),
      hframe s i k (h i List.mem_cons_self)]

theorem get_foldl_of_mem (hframe : ∀ s i k, k ∉ region i → get (step s i) k = get s k)
    {l : List ι} (hd : l.Pairwise fun i j => Disjoint (region i) (region j)) {i : ι} (hi : i ∈ l)
    {k : κ} (hk : k ∈ region i) {f : β → β} (hval : ∀ s, get (step s i) k = f (get s k)) (s : σ) :
    get (l.foldl step s) k = f (get s k) := by
  induction l generalizing s with
  | nil => simp at hi
  | cons j l ih =>
    obtain ⟨hj, hd⟩ := List.pairwise_cons.mp hd
    rw [List.foldl_cons]
    rcases List.mem_cons.mp hi with rfl | hi
    · have hout : ∀ j ∈ l, k ∉ region j := fun j hm hkj =>
        Set.disjoint_left.mp (hj j hm) hk hkj
      rw [get_foldl_of_not_mem get region hframe hout, hval]
    · have hkj : k ∉ region j := fun hkj => Set.disjoint_left.mp (hj i hi) hkj hk
      rw [ih hd hi, hframe s j k hkj]

/-- Where every step of a loop only adds marks, the loop leaves the marks of all its steps. The steps
may rely on an invariant. -/
theorem marked_foldl_iff_of_invariant (marked : σ → κ → Prop) (marks : ι → κ → Prop) (I : σ → Prop)
    (hI : ∀ s i, I s → I (step s i))
    (hstep : ∀ s i k, I s → (marked (step s i) k ↔ marked s k ∨ marks i k)) {l : List ι} {k : κ}
    {s : σ} (hs : I s) : marked (l.foldl step s) k ↔ marked s k ∨ ∃ i ∈ l, marks i k := by
  induction l generalizing s with
  | nil => simp
  | cons i l ih =>
    rw [List.foldl_cons, ih (hI s i hs), hstep s i k hs, or_assoc]
    simp only [List.mem_cons, exists_eq_or_imp]

theorem marked_foldl_iff (marked : σ → κ → Prop) (marks : ι → κ → Prop)
    (hstep : ∀ s i k, marked (step s i) k ↔ marked s k ∨ marks i k) {l : List ι} {k : κ} (s : σ) :
    marked (l.foldl step s) k ↔ marked s k ∨ ∃ i ∈ l, marks i k :=
  marked_foldl_iff_of_invariant marked marks (fun _ => True) (fun _ _ _ => trivial)
    (fun s i k _ => hstep s i k) trivial

end Fiction.RegionWrites
