import Fiction.Library.DagEvaluation

/-!
# Topological sorting by depth-first search

`visit` lists a node after the dependencies that have not been listed before. A node that is met
while its own dependencies are visited lies on a cycle, which makes the search fail. Where the
dependencies have a lower rank than the node this does not happen, and a fuel above the rank is
enough: the search appends a list that is sorted over the nodes listed before.
-/

namespace Fiction.DepthFirst

inductive Mark where
  | unmarked | temporary | permanent
  deriving DecidableEq, Repr

structure State (α : Type*) where
  order : List α
  mark : α → Mark

section Search

variable {α β : Type*} [DecidableEq α]

def State.setMark (s : State α) (n : α) (m : Mark) : State α :=
  { s with mark := Function.update s.mark n m }

def State.push (s : State α) (n : α) : State α := { s with order := s.order ++ [n] }

@[simp] theorem State.mark_setMark_self (s : State α) (n : α) (m : Mark) :
    (s.setMark n m).mark n = m :=
  Function.update_self ..

theorem State.mark_setMark_of_ne (s : State α) {n n' : α} (h : n' ≠ n) (m : Mark) :
    (s.setMark n m).mark n' = s.mark n' :=
  Function.update_of_ne h ..

variable (g : Graph α β)

def visit : ℕ → State α → α → Option (State α)
  | 0, _, _ => none
  | fuel + 1, s, n =>
    match s.mark n with
    | .permanent => some s
    | .temporary => none
    | .unmarked => do
      let s ← (g.deps n).foldlM (visit fuel) (s.setMark n .temporary)
      some ((s.setMark n .permanent).push n)

/-- The search has appended `new` and has left no temporary marks. -/
structure Extends (s s' : State α) (new : List α) : Prop where
  order : s'.order = s.order ++ new
  mark : ∀ n, s'.mark n = if n ∈ new then .permanent else s.mark n
  unmarked : ∀ n ∈ new, s.mark n = .unmarked
  sorted : g.Sorted (fun n => s.mark n = .permanent) new

variable {g} {s s' s'' : State α} {new new' : List α}

theorem Extends.refl (s : State α) : Extends g s s [] where
  order := (List.append_nil _).symm
  mark _ := (if_neg List.not_mem_nil).symm
  unmarked _ h := absurd h List.not_mem_nil
  sorted := trivial

theorem Extends.permanent_iff (h : Extends g s s' new) {n : α} :
    s'.mark n = .permanent ↔ s.mark n = .permanent ∨ n ∈ new := by
  rw [h.mark]
  split_ifs with hn
  · exact ⟨fun _ => .inr hn, fun _ => rfl⟩
  · exact ⟨.inl, fun h => h.resolve_right hn⟩

theorem Extends.temporary_iff (h : Extends g s s' new) {n : α} :
    s'.mark n = .temporary ↔ s.mark n = .temporary := by
  rw [h.mark]
  split_ifs with hn
  · rw [h.unmarked n hn]
    exact ⟨fun h => (nomatch h), fun h => (nomatch h)⟩
  · exact Iff.rfl

theorem Extends.trans (h : Extends g s s' new) (h' : Extends g s' s'' new') :
    Extends g s s'' (new ++ new') where
  order := by rw [h'.order, h.order, List.append_assoc]
  mark n := by
    rw [h'.mark, h.mark]
    by_cases hn : n ∈ new
    · rw [if_pos hn, if_pos (List.mem_append_left _ hn), ite_self]
    · by_cases hn' : n ∈ new'
      · rw [if_pos hn', if_pos (List.mem_append_right _ hn')]
      · rw [if_neg hn, if_neg hn', if_neg fun h => (List.mem_append.mp h).elim hn hn']
  unmarked n hn := by
    rcases List.mem_append.mp hn with hn | hn
    · exact h.unmarked n hn
    · have hmark := h'.unmarked n hn
      rw [h.mark] at hmark
      split_ifs at hmark
      exact hmark
  sorted := by
    rw [Graph.sorted_append]
    refine ⟨h.sorted, ?_⟩
    have hknown : (fun n => s'.mark n = .permanent) =
        fun n => s.mark n = .permanent ∨ n ∈ new :=
      funext fun n => propext h.permanent_iff
    exact hknown ▸ h'.sorted

/-- A node comes after its dependencies. -/
theorem Extends.node {n : α} (hn : s.mark n = .unmarked)
    (h : Extends g (s.setMark n .temporary) s' new)
    (hdeps : ∀ d ∈ g.deps n, s'.mark d = .permanent) (hself : n ∉ g.deps n) :
    Extends g s ((s'.setMark n .permanent).push n) (new ++ [n]) := by
  have hother : ∀ m, m ≠ n → (s.setMark n .temporary).mark m = s.mark m := fun m hm =>
    s.mark_setMark_of_ne hm _
  have hnew : n ∉ new := fun hmem => by
    have hmark := h.unmarked n hmem
    rw [State.mark_setMark_self] at hmark
    cases hmark
  have hne : ∀ m ∈ new, m ≠ n := fun m hm heq => hnew (heq ▸ hm)
  have hknown : (fun m => (s.setMark n .temporary).mark m = .permanent) =
      fun m => s.mark m = .permanent := by
    funext m
    by_cases hm : m = n
    · subst hm
      rw [State.mark_setMark_self, hn]
      exact propext ⟨fun h => (nomatch h), fun h => (nomatch h)⟩
    · rw [hother m hm]
  refine ⟨?_, fun m => ?_, fun m hm => ?_, ?_⟩
  · change s'.order ++ [n] = _
    rw [h.order, List.append_assoc]
    rfl
  · change (s'.setMark n .permanent).mark m = _
    by_cases hm : m = n
    · subst hm
      rw [State.mark_setMark_self, if_pos (List.mem_append_right _ (List.mem_singleton_self _))]
    · rw [s'.mark_setMark_of_ne hm, h.mark, hother m hm]
      simp only [List.mem_append, List.mem_singleton, hm, or_false]
  · rcases List.mem_append.mp hm with hm | hm
    · rw [← hother m (hne m hm)]
      exact h.unmarked m hm
    · rw [List.mem_singleton.mp hm]
      exact hn
  · rw [Graph.sorted_append, ← hknown]
    refine ⟨h.sorted, ?_, fun d hd => ?_, trivial⟩
    · rintro (hmark | hmem)
      · rw [hn] at hmark
        cases hmark
      · exact hnew hmem
    · have hd' := h.permanent_iff.mp (hdeps d hd)
      rwa [congrFun hknown d] at hd'

variable {rank : α → ℕ} {fuel : ℕ}

/-- What a visit of `n` does if the nodes under way have a higher rank. -/
def VisitsWell (g : Graph α β) (rank : α → ℕ) (fuel : ℕ) (n : α) : Prop :=
  ∀ s : State α, (∀ m, s.mark m = .temporary → rank n < rank m) →
    ∃ s' new, visit g fuel s n = some s' ∧ Extends g s s' new ∧ s'.mark n = .permanent ∧
      ∀ m ∈ new, m = n ∨ ∃ k ∈ new, m ∈ g.deps k

/-- All given nodes get listed, and any other new node is a dependency of a new one. -/
theorem exists_foldlM_visit {ns : List α} (hvisit : ∀ n ∈ ns, VisitsWell g rank fuel n)
    (s : State α) (htemp : ∀ n ∈ ns, ∀ m, s.mark m = .temporary → rank n < rank m) :
    ∃ s' new, ns.foldlM (visit g fuel) s = some s' ∧ Extends g s s' new ∧
      (∀ n ∈ ns, s'.mark n = .permanent) ∧ ∀ m ∈ new, m ∈ ns ∨ ∃ k ∈ new, m ∈ g.deps k := by
  induction ns generalizing s with
  | nil => exact ⟨s, [], rfl, .refl s, by simp, by simp⟩
  | cons n ns ih =>
    obtain ⟨s₁, new₁, hrun₁, hext₁, hmark₁, hneeded₁⟩ :=
      hvisit n List.mem_cons_self s (htemp n List.mem_cons_self)
    have htemp₁ : ∀ n' ∈ ns, ∀ m, s₁.mark m = .temporary → rank n' < rank m := fun n' hn' m hm =>
      htemp n' (List.mem_cons_of_mem _ hn') m (hext₁.temporary_iff.mp hm)
    obtain ⟨s₂, new₂, hrun₂, hext₂, hmark₂, hneeded₂⟩ :=
      ih (fun n' hn' => hvisit n' (List.mem_cons_of_mem _ hn')) s₁ htemp₁
    refine ⟨s₂, new₁ ++ new₂, ?_, hext₁.trans hext₂, ?_, ?_⟩
    · rw [List.foldlM_cons, hrun₁]
      exact hrun₂
    · intro n' hn'
      rcases List.mem_cons.mp hn' with rfl | hn'
      · exact hext₂.permanent_iff.mpr (.inl hmark₁)
      · exact hmark₂ n' hn'
    · intro m hm
      rcases List.mem_append.mp hm with hm | hm
      · rcases hneeded₁ m hm with rfl | ⟨k, hk, hmk⟩
        · exact .inl List.mem_cons_self
        · exact .inr ⟨k, List.mem_append_left _ hk, hmk⟩
      · rcases hneeded₂ m hm with hm | ⟨k, hk, hmk⟩
        · exact .inl (List.mem_cons_of_mem _ hm)
        · exact .inr ⟨k, List.mem_append_right _ hk, hmk⟩

/-- The search succeeds along dependencies of ever lower rank. -/
theorem visitsWell (hrank : ∀ m, ∀ d ∈ g.deps m, rank d < rank m) {n : α} (hfuel : rank n < fuel) :
    VisitsWell g rank fuel n := by
  induction fuel generalizing n with
  | zero => omega
  | succ fuel ih =>
    intro s htemp
    cases hmark : s.mark n with
    | permanent => exact ⟨s, [], by rw [visit, hmark], .refl s, hmark, by simp⟩
    | temporary => exact absurd (htemp n hmark) (Nat.lt_irrefl _)
    | unmarked =>
      have hdeps : ∀ d ∈ g.deps n, VisitsWell g rank fuel d := by
        intro d hd
        have hdn := hrank n d hd
        exact ih (by omega)
      have htemp' : ∀ d ∈ g.deps n, ∀ m, (s.setMark n .temporary).mark m = .temporary →
          rank d < rank m := by
        intro d hd m hm
        by_cases hmn : m = n
        · exact hmn ▸ hrank n d hd
        · rw [s.mark_setMark_of_ne hmn] at hm
          exact Nat.lt_trans (hrank n d hd) (htemp m hm)
      obtain ⟨s', new, hrun, hext, hall, hneeded⟩ := exists_foldlM_visit hdeps _ htemp'
      refine ⟨_, new ++ [n], ?_, hext.node hmark hall fun hself => ?_, ?_, ?_⟩
      · rw [visit, hmark, hrun]
        rfl
      · exact Nat.lt_irrefl _ (hrank n n hself)
      · exact s'.mark_setMark_self n _
      · intro m hm
        rcases List.mem_append.mp hm with hm | hm
        · rcases hneeded m hm with hd | ⟨k, hk, hmk⟩
          · exact .inr ⟨n, List.mem_append_right _ (List.mem_singleton_self n), hd⟩
          · exact .inr ⟨k, List.mem_append_left _ hk, hmk⟩
        · exact .inl (List.mem_singleton.mp hm)

end Search

end Fiction.DepthFirst
