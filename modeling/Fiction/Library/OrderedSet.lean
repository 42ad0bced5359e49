import Mathlib.Data.List.Sort

/-!
# Ordered sets as strictly increasing lists

A set that is ordered by a comparison `lt` keeps its elements in a strictly increasing list. `insert`
drops an element if an equivalent one is present, that is, one that is neither smaller nor greater.
Where equivalent elements are equal, `ofList` enumerates the given elements once each and in order.
-/

namespace Fiction.OrderedSet

variable {α : Type*} (lt : α → α → Bool)

def insert (a : α) : List α → List α
  | [] => [a]
  | b :: s => if lt a b then a :: b :: s else if lt b a then b :: insert a s else b :: s

def ofList (l : List α) : List α := l.foldl (fun s a => insert lt a s) []

variable {lt}

theorem mem_of_mem_insert {a x : α} {s : List α} (h : x ∈ insert lt a s) : x = a ∨ x ∈ s := by
  induction s with
  | nil => simpa [insert] using h
  | cons b s ih =>
    simp only [insert] at h
    split_ifs at h
    · exact List.mem_cons.mp h
    · rcases List.mem_cons.mp h with rfl | h
      · exact .inr List.mem_cons_self
      · exact (ih h).imp_right (List.mem_cons_of_mem b)
    · exact .inr h

theorem subset_insert (a : α) (s : List α) : s ⊆ insert lt a s := by
  induction s with
  | nil => exact List.nil_subset _
  | cons b s ih =>
    simp only [insert]
    split_ifs
    · exact List.subset_cons_self a _
    · exact List.cons_subset_cons b ih
    · exact List.Subset.refl _

theorem mem_insert_self {a : α} {s : List α}
    (hconn : ∀ b ∈ s, lt a b = false → lt b a = false → a = b) : a ∈ insert lt a s := by
  induction s with
  | nil => exact List.mem_singleton_self a
  | cons b s ih =>
    simp only [insert]
    split_ifs with hab hba
    · exact List.mem_cons_self
    · exact List.mem_cons_of_mem b (ih fun c hc => hconn c (List.mem_cons_of_mem b hc))
    · rw [hconn b List.mem_cons_self (by simpa using hab) (by simpa using hba)]
      exact List.mem_cons_self

theorem pairwise_insert (htrans : ∀ a b c, lt a b = true → lt b c = true → lt a c = true) (a : α)
    {s : List α} (hs : s.Pairwise fun b c => lt b c = true) :
    (insert lt a s).Pairwise fun b c => lt b c = true := by
  induction s with
  | nil => exact List.pairwise_singleton _ a
  | cons b s ih =>
    obtain ⟨hb, hs'⟩ := List.pairwise_cons.mp hs
    simp only [insert]
    split_ifs with hab hba
    · refine List.pairwise_cons.mpr ⟨fun c hc => ?_, hs⟩
      rcases List.mem_cons.mp hc with rfl | hc
      · exact hab
      · exact htrans a b c hab (hb c hc)
    · refine List.pairwise_cons.mpr ⟨fun c hc => ?_, ih hs'⟩
      rcases mem_of_mem_insert hc with rfl | hc
      · exact hba
      · exact hb c hc
    · exact hs

theorem pairwise_ofList (htrans : ∀ a b c, lt a b = true → lt b c = true → lt a c = true)
    (l : List α) : (ofList lt l).Pairwise fun b c => lt b c = true := by
  have hfold : ∀ s : List α, (s.Pairwise fun b c => lt b c = true) →
      (l.foldl (fun s a => insert lt a s) s).Pairwise fun b c => lt b c = true := by
    induction l with
    | nil => exact fun _ hs => hs
    | cons a l ih => exact fun s hs => ih _ (pairwise_insert htrans a hs)
  exact hfold [] .nil

theorem mem_of_mem_foldl {l s : List α} {x : α}
    (h : x ∈ l.foldl (fun s a => insert lt a s) s) : x ∈ s ∨ x ∈ l := by
  induction l generalizing s with
  | nil => exact .inl h
  | cons a l ih =>
    rcases ih h with hx | hx
    · rcases mem_of_mem_insert hx with rfl | hx
      · exact .inr List.mem_cons_self
      · exact .inl hx
    · exact .inr (List.mem_cons_of_mem a hx)

theorem mem_of_mem_ofList {l : List α} {x : α} (h : x ∈ ofList lt l) : x ∈ l := by
  simpa using mem_of_mem_foldl h

theorem subset_foldl (l s : List α) : s ⊆ l.foldl (fun s a => insert lt a s) s := by
  induction l generalizing s with
  | nil => exact List.Subset.refl s
  | cons a l ih => exact List.Subset.trans (subset_insert a s) (ih _)

/-- The first of several equivalent elements is kept. -/
theorem mem_ofList_of_first {l l' : List α} {a : α}
    (h : ∀ b ∈ l, lt a b = false → lt b a = false → a = b) : a ∈ ofList lt (l ++ a :: l') := by
  rw [ofList, List.foldl_append, List.foldl_cons]
  apply subset_foldl
  apply mem_insert_self
  intro b hb
  exact h b (mem_of_mem_ofList hb)

theorem mem_ofList {l : List α}
    (hconn : ∀ a ∈ l, ∀ b ∈ l, lt a b = false → lt b a = false → a = b) {x : α} :
    x ∈ ofList lt l ↔ x ∈ l := by
  have hfold : ∀ s : List α, (∀ a ∈ l, ∀ b ∈ s, lt a b = false → lt b a = false → a = b) →
      (x ∈ l.foldl (fun s a => insert lt a s) s ↔ x ∈ s ∨ x ∈ l) := by
    induction l with
    | nil => simp
    | cons a l ih =>
      intro s hs
      have hl : ∀ a ∈ l, ∀ b ∈ l, lt a b = false → lt b a = false → a = b := fun c hc d hd =>
        hconn c (List.mem_cons_of_mem a hc) d (List.mem_cons_of_mem a hd)
      have hs' : ∀ c ∈ l, ∀ b ∈ insert lt a s, lt c b = false → lt b c = false → c = b := by
        intro c hc b hb
        rcases mem_of_mem_insert hb with rfl | hb
        · exact hconn c (List.mem_cons_of_mem b hc) b List.mem_cons_self
        · exact hs c (List.mem_cons_of_mem a hc) b hb
      have ha : x ∈ insert lt a s ↔ x = a ∨ x ∈ s := by
        refine ⟨mem_of_mem_insert, fun h => ?_⟩
        rcases h with rfl | h
        · exact mem_insert_self fun b hb => hs x List.mem_cons_self b hb
        · exact subset_insert a s h
      rw [List.foldl_cons, ih hl _ hs', ha, List.mem_cons]
      tauto
  simpa [ofList] using hfold [] (by simp)

/-- An enumeration of the elements is the ordered set exactly if it is strictly increasing. -/
theorem ofList_eq_iff (htrans : ∀ a b c, lt a b = true → lt b c = true → lt a c = true)
    (hirrefl : ∀ a, lt a a = false) {l l' : List α}
    (hconn : ∀ a ∈ l, ∀ b ∈ l, lt a b = false → lt b a = false → a = b)
    (hmem : ∀ x, x ∈ l ↔ x ∈ l') :
    ofList lt l = l' ↔ l'.Pairwise fun b c => lt b c = true := by
  constructor
  · rintro rfl
    exact pairwise_ofList htrans l
  · intro h
    have : Std.Irrefl fun b c => lt b c = true := ⟨fun a => by simp [hirrefl]⟩
    have : Std.Antisymm fun b c => lt b c = true :=
      ⟨fun a b hab hba => by simpa [hirrefl] using htrans a b a hab hba⟩
    exact (pairwise_ofList htrans l).eq_of_mem_iff h fun x => (mem_ofList hconn).trans (hmem x)

end Fiction.OrderedSet
