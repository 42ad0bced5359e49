import Mathlib.Logic.Basic
import Mathlib.Data.List.Basic

/-!
# Deterministic transition systems with guarded labels

A system has one initial state, a total step function and a guard that says which labels a
caller may issue in which state. `Legal` lists the label sequences whose guards all hold, and
`run` replays them. `invariant_run` is the only induction over runs that safety proofs need.
-/

namespace Fiction

structure TransitionSystem (σ : Type*) (ι : Type*) where
  init : σ
  enabled : σ → ι → Prop
  step : σ → ι → σ

namespace TransitionSystem

variable {σ ι : Type*} (S : TransitionSystem σ ι)

def runFrom (s : σ) (ls : List ι) : σ := ls.foldl S.step s

def run (ls : List ι) : σ := S.runFrom S.init ls

def LegalFrom : σ → List ι → Prop
  | _, [] => True
  | s, l :: ls => S.enabled s l ∧ LegalFrom (S.step s l) ls

instance [∀ s l, Decidable (S.enabled s l)] (s : σ) (ls : List ι) : Decidable (S.LegalFrom s ls) := by
  induction ls generalizing s with
  | nil => exact isTrue trivial
  | cons l ls ih => exact inferInstanceAs (Decidable (_ ∧ _))

/-- Every label of the sequence is enabled in the state in which it is issued. -/
def Legal (ls : List ι) : Prop := S.LegalFrom S.init ls

instance [∀ s l, Decidable (S.enabled s l)] (ls : List ι) : Decidable (S.Legal ls) :=
  inferInstanceAs (Decidable (S.LegalFrom S.init ls))

@[simp] theorem runFrom_nil (s : σ) : S.runFrom s [] = s := rfl

@[simp] theorem runFrom_cons (s : σ) (l : ι) (ls : List ι) :
    S.runFrom s (l :: ls) = S.runFrom (S.step s l) ls := rfl

@[simp] theorem runFrom_append (s : σ) (ls ls' : List ι) :
    S.runFrom s (ls ++ ls') = S.runFrom (S.runFrom s ls) ls' := by
  simp [runFrom]

theorem run_concat (ls : List ι) (l : ι) : S.run (ls ++ [l]) = S.step (S.run ls) l := by
  simp [run]

theorem legalFrom_append (s : σ) (ls ls' : List ι) :
    S.LegalFrom s (ls ++ ls') ↔ S.LegalFrom s ls ∧ S.LegalFrom (S.runFrom s ls) ls' := by
  induction ls generalizing s with
  | nil => simp [LegalFrom]
  | cons l ls ih => simp only [List.cons_append, LegalFrom, ih, runFrom_cons, and_assoc]

theorem legal_concat (ls : List ι) (l : ι) :
    S.Legal (ls ++ [l]) ↔ S.Legal ls ∧ S.enabled (S.run ls) l := by
  simp [Legal, legalFrom_append, LegalFrom, run]

theorem invariant_runFrom {I : σ → Prop} (hstep : ∀ s l, I s → S.enabled s l → I (S.step s l))
    {s : σ} (hs : I s) {ls : List ι} (hl : S.LegalFrom s ls) : I (S.runFrom s ls) := by
  induction ls generalizing s with
  | nil => exact hs
  | cons l ls ih => exact ih (hstep s l hs hl.1) hl.2

theorem invariant_run {I : σ → Prop} (hinit : I S.init)
    (hstep : ∀ s l, I s → S.enabled s l → I (S.step s l)) {ls : List ι} (hl : S.Legal ls) :
    I (S.run ls) :=
  S.invariant_runFrom hstep hinit hl

section Termination

variable {α : Type*} {r : α → α → Prop} (hr : WellFounded r) (m : σ → α)
  (hstep : ∀ s l, S.enabled s l → r (m (S.step s l)) (m s))
include hr hstep

/-- If every enabled step lowers a measure, no sequence of labels stays legal forever. -/
theorem exists_not_legal (f : ℕ → ι) : ∃ k, ¬ S.Legal ((List.range k).map f) := by
  by_contra hall
  simp only [not_exists, not_not] at hall
  have hlegal : ∀ k, S.enabled (S.run ((List.range k).map f)) (f k) ∧
      S.run ((List.range (k + 1)).map f) = S.step (S.run ((List.range k).map f)) (f k) := by
    intro k
    have h := hall (k + 1)
    rw [List.range_succ, List.map_append, List.map_singleton] at h ⊢
    exact ⟨((S.legal_concat _ _).mp h).2, S.run_concat _ _⟩
  have hno : ∀ a k, m (S.run ((List.range k).map f)) = a → False := by
    intro a
    induction a using hr.induction with
    | _ a ih =>
      rintro k rfl
      have hlt := hstep _ _ (hlegal k).1
      rw [← (hlegal k).2] at hlt
      exact ih _ hlt (k + 1) rfl
  exact hno _ 0 rfl

theorem exists_final {ls : List ι} (hl : S.Legal ls) :
    ∃ ls', S.Legal (ls ++ ls') ∧ ∀ l, ¬ S.enabled (S.run (ls ++ ls')) l := by
  have hfrom : ∀ a ls, m (S.run ls) = a → S.Legal ls →
      ∃ ls', S.Legal (ls ++ ls') ∧ ∀ l, ¬ S.enabled (S.run (ls ++ ls')) l := by
    intro a
    induction a using hr.induction with
    | _ a ih =>
      rintro ls rfl hl
      by_cases hen : ∃ l, S.enabled (S.run ls) l
      · obtain ⟨l, hen⟩ := hen
        have hlt := hstep _ _ hen
        rw [← S.run_concat] at hlt
        obtain ⟨ls', hlegal, hfinal⟩ := ih _ hlt _ rfl ((S.legal_concat ls l).mpr ⟨hl, hen⟩)
        rw [← List.append_cons] at hlegal hfinal
        exact ⟨l :: ls', hlegal, hfinal⟩
      · refine ⟨[], ?_, fun l hl' => ?_⟩
        · rwa [List.append_nil]
        · rw [List.append_nil] at hl'
          exact hen ⟨l, hl'⟩
  exact hfrom _ ls rfl hl

end Termination

end TransitionSystem

/-- The rule for loops over a list whose body can fail: if the body succeeds and extends the
invariant of the processed prefix, then so does the loop. -/
theorem exists_foldlM {σ ι : Type*} {body : σ → ι → Option σ} {I : List ι → σ → Prop} {ls : List ι}
    (hstep : ∀ pre l suf s, ls = pre ++ l :: suf → I pre s →
      ∃ s', body s l = some s' ∧ I (pre ++ [l]) s') {s : σ} (hs : I [] s) :
    ∃ s', ls.foldlM body s = some s' ∧ I ls s' := by
  have hfrom : ∀ suf pre s, ls = pre ++ suf → I pre s →
      ∃ s', suf.foldlM body s = some s' ∧ I ls s' := by
    intro suf
    induction suf with
    | nil =>
      intro pre s hls hs
      rw [List.append_nil] at hls
      exact ⟨s, rfl, hls ▸ hs⟩
    | cons l suf ih =>
      intro pre s hls hs
      obtain ⟨s₁, hs₁, h₁⟩ := hstep pre l suf s hls hs
      obtain ⟨s₂, hs₂, h₂⟩ := ih (pre ++ [l]) s₁ (by rw [hls, List.append_assoc]; rfl) h₁
      exact ⟨s₂, by rw [List.foldlM_cons, hs₁]; exact hs₂, h₂⟩
  exact hfrom ls [] s rfl hs

theorem exists_foldlM_of_forall {σ ι : Type*} {body : σ → ι → Option σ} {ls : List ι}
    (h : ∀ l ∈ ls, ∀ s, ∃ s', body s l = some s') (s : σ) : ∃ s', ls.foldlM body s = some s' := by
  have hrun : ∃ s', ls.foldlM body s = some s' ∧ True := by
    refine exists_foldlM (I := fun _ _ => True) (fun pre l suf s hls _ => ?_) trivial
    obtain ⟨s', hs'⟩ := h l (hls ▸ List.mem_append_right pre List.mem_cons_self) s
    exact ⟨s', hs', trivial⟩
  obtain ⟨s', hs', -⟩ := hrun
  exact ⟨s', hs'⟩

/-- If such a loop succeeds, its result satisfies what every successful step preserves. -/
theorem invariant_foldlM {σ ι : Type*} {body : σ → ι → Option σ} {I : σ → Prop} {ls : List ι}
    (hstep : ∀ l ∈ ls, ∀ s s', I s → body s l = some s' → I s') {s s' : σ} (hs : I s)
    (h : ls.foldlM body s = some s') : I s' := by
  induction ls generalizing s with
  | nil => exact Option.some.inj h ▸ hs
  | cons l ls ih =>
    rw [List.foldlM_cons, Option.bind_eq_bind, Option.bind_eq_some_iff] at h
    obtain ⟨s₁, hs₁, h⟩ := h
    exact ih (fun l' hl' => hstep l' (List.mem_cons_of_mem l hl'))
      (hstep l List.mem_cons_self s s₁ hs hs₁) h

/-- What the body computes on some inputs, another body that agrees there computes as well. -/
theorem foldlM_mono {σ ι : Type*} {body body' : σ → ι → Option σ}
    (hbody : ∀ s l s', body s l = some s' → body' s l = some s') {ls : List ι} {s s' : σ}
    (h : ls.foldlM body s = some s') : ls.foldlM body' s = some s' := by
  induction ls generalizing s with
  | nil => exact h
  | cons l ls ih =>
    rw [List.foldlM_cons, Option.bind_eq_bind, Option.bind_eq_some_iff] at h ⊢
    obtain ⟨s₁, hs₁, h⟩ := h
    exact ⟨s₁, hbody s l s₁ hs₁, ih h⟩

theorem foldlM_eq_none {σ ι : Type*} {body : σ → ι → Option σ} {ls : List ι} {l : ι} (hl : l ∈ ls)
    (h : ∀ s, body s l = none) (s : σ) : ls.foldlM body s = none := by
  obtain ⟨pre, suf, rfl⟩ := List.append_of_mem hl
  rw [List.foldlM_append, Option.bind_eq_bind, Option.bind_eq_none_iff]
  intro s' _
  rw [List.foldlM_cons, h]
  rfl

/-- If the state does not matter for whether the body fails, only the elements do. -/
theorem exists_foldlM_iff {σ ι : Type*} {body : σ → ι → Option σ} {P : ι → Prop}
    (h : ∀ s l, (∃ s', body s l = some s') ↔ P l) {ls : List ι} {s : σ} :
    (∃ s', ls.foldlM body s = some s') ↔ ∀ l ∈ ls, P l := by
  induction ls generalizing s with
  | nil => exact iff_of_true ⟨s, rfl⟩ fun _ hl => absurd hl List.not_mem_nil
  | cons l ls ih =>
    rw [List.foldlM_cons, List.forall_mem_cons, ← h s l]
    constructor
    · rintro ⟨s', hs'⟩
      obtain ⟨s₁, hs₁, hs'⟩ := Option.bind_eq_some_iff.mp hs'
      exact ⟨⟨s₁, hs₁⟩, ih.mp ⟨s', hs'⟩⟩
    · rintro ⟨⟨s₁, hs₁⟩, hls⟩
      obtain ⟨s', hs'⟩ := (@ih s₁).mpr hls
      exact ⟨s', Option.bind_eq_some_iff.mpr ⟨s₁, hs₁, hs'⟩⟩

theorem foldlM_flatMap {σ ι κ : Type*} {body : σ → κ → Option σ} {f : ι → List κ} (ls : List ι)
    (s : σ) : ls.foldlM (fun s l => (f l).foldlM body s) s = (ls.flatMap f).foldlM body s := by
  induction ls generalizing s with
  | nil => rfl
  | cons l ls ih =>
    rw [List.foldlM_cons, List.flatMap_cons, List.foldlM_append]
    exact bind_congr ih

theorem mapM_eq_some_iff_map {α β : Type*} {f : α → Option β} {l : List α} {r : List β} :
    l.mapM f = some r ↔ l.map f = r.map some := by
  induction l generalizing r with
  | nil => cases r <;> simp
  | cons a l ih =>
    rw [List.mapM_cons, List.map_cons]
    cases hf : f a with
    | none => cases r <;> simp
    | some b =>
      cases hl : l.mapM f with
      | none =>
        have hne : ∀ r' : List β, l.map f ≠ r'.map some := fun r' h => by
          have hsome := ih.mpr h
          rw [hl] at hsome
          cases hsome
        cases r <;> simp [hne]
      | some r' =>
        have hr' := ih.mp hl
        have hinj : Function.Injective (List.map (some (α := β))) :=
          List.map_injective_iff.mpr fun _ _ h => Option.some.inj h
        cases r <;> simp [hr', hinj.eq_iff]

theorem mapM_mono {α β : Type*} {f g : α → Option β} {l : List α}
    (hfg : ∀ a ∈ l, ∀ b, f a = some b → g a = some b) {r : List β} (h : l.mapM f = some r) :
    l.mapM g = some r := by
  induction l generalizing r with
  | nil => exact h
  | cons a l ih =>
    rw [List.mapM_cons] at h ⊢
    obtain ⟨b, hb, h⟩ := Option.bind_eq_some_iff.mp h
    obtain ⟨r', hr', h⟩ := Option.bind_eq_some_iff.mp h
    rw [hfg a List.mem_cons_self b hb,
      ih (fun a' ha' => hfg a' (List.mem_cons_of_mem a ha')) hr']
    exact h

theorem exists_mapM {α β : Type*} {f : α → Option β} {l : List α}
    (h : ∀ a ∈ l, ∃ b, f a = some b) : ∃ r, l.mapM f = some r := by
  induction l with
  | nil => exact ⟨[], rfl⟩
  | cons a l ih =>
    obtain ⟨b, hb⟩ := h a List.mem_cons_self
    obtain ⟨r, hr⟩ := ih fun a' ha' => h a' (List.mem_cons_of_mem a ha')
    exact ⟨b :: r, by rw [List.mapM_cons, hb, hr]; rfl⟩

theorem exists_mapM_iff {α β : Type*} {f : α → Option β} {l : List α} :
    (∃ r, l.mapM f = some r) ↔ ∀ a ∈ l, ∃ b, f a = some b := by
  refine ⟨?_, exists_mapM⟩
  rintro ⟨r, hr⟩ a ha
  have hmem : f a ∈ r.map some := mapM_eq_some_iff_map.mp hr ▸ List.mem_map_of_mem ha
  obtain ⟨b, -, hb⟩ := List.mem_map.mp hmem
  exact ⟨b, hb.symm⟩

section CountedLoops

variable {σ : Type*} {body : σ → ℕ → Option σ} {n : ℕ} {s : σ}

theorem foldlM_range_succ_eq_some {s' : σ} : (List.range (n + 1)).foldlM body s = some s' ↔
    ∃ s₁, (List.range n).foldlM body s = some s₁ ∧ body s₁ n = some s' := by
  rw [List.range_succ, List.foldlM_append, Option.bind_eq_bind, Option.bind_eq_some_iff]
  simp

/-- The rule for loops that count up to `n`. -/
theorem invariant_foldlM_range {I : ℕ → σ → Prop}
    (hstep : ∀ k < n, ∀ s₁ s₂, (List.range k).foldlM body s = some s₁ → I k s₁ →
      body s₁ k = some s₂ → I (k + 1) s₂) (hs : I 0 s) :
    ∀ k ≤ n, ∀ s', (List.range k).foldlM body s = some s' → I k s' := by
  intro k
  induction k with
  | zero =>
    intro _ s' h
    cases h
    exact hs
  | succ k ih =>
    intro hk s' h
    obtain ⟨s₁, hs₁, h⟩ := foldlM_range_succ_eq_some.mp h
    exact hstep k hk s₁ s' hs₁ (ih (Nat.le_of_succ_le hk) s₁ hs₁) h

theorem exists_foldlM_range_iff : (∃ s', (List.range n).foldlM body s = some s') ↔
    ∀ k < n, ∀ s₁, (List.range k).foldlM body s = some s₁ → ∃ s₂, body s₁ k = some s₂ := by
  induction n with
  | zero => exact iff_of_true ⟨s, rfl⟩ fun _ hk => absurd hk (Nat.not_lt_zero _)
  | succ n ih =>
    simp only [foldlM_range_succ_eq_some]
    constructor
    · rintro ⟨s', s₁, hs₁, hs'⟩ k hk s₂ hs₂
      rcases Nat.lt_succ_iff_lt_or_eq.mp hk with hlt | rfl
      · exact ih.mp ⟨s₁, hs₁⟩ k hlt s₂ hs₂
      · rw [hs₁] at hs₂
        cases hs₂
        exact ⟨s', hs'⟩
    · intro h
      obtain ⟨s₁, hs₁⟩ := ih.mpr fun k hk => h k (Nat.lt_succ_of_lt hk)
      obtain ⟨s₂, hs₂⟩ := h n (Nat.lt_succ_self n) s₁ hs₁
      exact ⟨s₂, s₁, hs₁, hs₂⟩

end CountedLoops

end Fiction
