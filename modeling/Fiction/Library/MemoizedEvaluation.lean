import Fiction.Library.DagEvaluation
import Mathlib.Algebra.Order.BigOperators.Group.List
import Mathlib.Algebra.Order.Group.Nat
import Mathlib.Data.Fintype.Order

/-!
# Memoised evaluation of acyclic dependency graphs

The values of a graph are computed by recursion over its dependencies. A cache keeps some of them
and is handed on from one dependency to the next. Where the dependencies are well founded, the
recursion ends with a valuation that obeys the rules, whatever correct values the cache held
before. In the end, the cache has an entry for each stored node on which the evaluated one depends,
and for no other ones.
-/

namespace Fiction.Graph

variable {α β : Type*} (g : Graph α β)

/-- `s` is a dependency of `t`. -/
def Dep (s t : α) : Prop := s ∈ g.deps t

/-- `v` obeys the rules of all nodes. -/
def Obeys (v : α → β) : Prop := ∀ t, v t = g.rule t ((g.deps t).map v)

section Solution

variable {g}

theorem exists_obeys (hwf : WellFounded g.Dep) : ∃ v : α → β, g.Obeys v := by
  let v : α → β := hwf.fix fun t ih => g.rule t ((g.deps t).attach.map fun s => ih s.1 s.2)
  refine ⟨v, fun t => ?_⟩
  have h : v t = g.rule t ((g.deps t).attach.map fun s => v s.1) := hwf.fix_eq _ t
  rw [h, List.attach_map_val]

theorem wellFounded_of_acyclic (hfin : {t | g.deps t ≠ []}.Finite)
    (hacyc : ∀ t, ¬ Relation.TransGen g.Dep t t) : WellFounded g.Dep := by
  let S : Set α := {t | g.deps t ≠ []}
  have hleaf : ∀ t, t ∉ S → Acc g.Dep t := by
    intro t ht
    refine ⟨t, fun s hs => ?_⟩
    rw [Dep, not_not.mp ht] at hs
    exact absurd hs List.not_mem_nil
  -- the transitive closure on the finitely many inner nodes
  have hinner : WellFounded fun a b : S => Relation.TransGen g.Dep a b := by
    have : Finite S := hfin
    have : IsTrans S fun a b : S => Relation.TransGen g.Dep a b := ⟨fun _ _ _ => .trans⟩
    have : Std.Irrefl fun a b : S => Relation.TransGen g.Dep (a : α) b := ⟨fun a => hacyc a⟩
    exact Finite.wellFounded_of_trans_of_irrefl _
  have hacc : ∀ t : S, Acc g.Dep t := by
    intro t
    induction t using hinner.induction with
    | _ t ih =>
      refine ⟨_, fun s hs => ?_⟩
      by_cases hsS : s ∈ S
      · exact ih ⟨s, hsS⟩ (.single hs)
      · exact hleaf s hsS
  refine ⟨fun t => ?_⟩
  by_cases ht : t ∈ S
  · exact hacc ⟨t, ht⟩
  · exact hleaf t ht

theorem Obeys.rule_eq {v : α → β} (hv : g.Obeys v) {t : α} {bs : List β}
    (h : List.Forall₂ (fun s b => b = v s) (g.deps t) bs) : g.rule t bs = v t := by
  have hbs : bs = (g.deps t).map v := by
    generalize g.deps t = ds at h
    induction h with
    | nil => rfl
    | cons hb _ ih => rw [List.map_cons, hb, ih]
  rw [hv t, hbs]

theorem acc_rule {t : α} {bs : List β}
    (h : List.Forall₂ (fun s _ => Acc g.Dep s) (g.deps t) bs) : Acc g.Dep t := by
  refine ⟨t, fun s hs => ?_⟩
  rw [Dep] at hs
  generalize g.deps t = ds at h hs
  induction h with
  | nil => simp at hs
  | cons ha _ ih =>
    rcases List.mem_cons.mp hs with rfl | hs
    · exact ha
    · exact ih hs

end Solution

/-- Runs `f` over a list and hands its state on. -/
def traverse {σ : Type*} (f : σ → α → Option (β × σ)) : σ → List α → Option (List β × σ)
  | s, [] => some ([], s)
  | s, a :: as => do
    let (b, s) ← f s a
    let (bs, s) ← traverse f s as
    return (b :: bs, s)

theorem traverse_isSome {σ : Type*} {f : σ → α → Option (β × σ)} {as : List α}
    (hf : ∀ a ∈ as, ∀ s, (f s a).isSome) (s : σ) : (traverse f s as).isSome := by
  induction as generalizing s with
  | nil => rfl
  | cons a as ih =>
    obtain ⟨x, hx⟩ := Option.isSome_iff_exists.mp (hf a List.mem_cons_self s)
    obtain ⟨y, hy⟩ := Option.isSome_iff_exists.mp
      (ih (fun b hb => hf b (List.mem_cons_of_mem a hb)) x.2)
    simp only [traverse, hx, hy, Option.bind_eq_bind, Option.bind_some, Option.pure_def,
      Option.isSome_some]

theorem traverse_cons_eq_some {σ : Type*} {f : σ → α → Option (β × σ)} {a : α} {as : List α}
    {s s' : σ} {bs : List β} : traverse f s (a :: as) = some (bs, s') ↔
      ∃ b s₁ bs₁, f s a = some (b, s₁) ∧ traverse f s₁ as = some (bs₁, s') ∧ b :: bs₁ = bs := by
  simp only [traverse, Option.bind_eq_bind, Option.bind_eq_some_iff, Option.pure_def,
    Option.some.injEq, Prod.mk.injEq, Prod.exists]
  constructor
  · rintro ⟨b, s₁, hb, bs₁, s₂, hbs, hcons, rfl⟩
    exact ⟨b, s₁, bs₁, hb, hbs, hcons⟩
  · rintro ⟨b, s₁, bs₁, hb, hbs, hcons⟩
    exact ⟨b, s₁, hb, bs₁, s', hbs, hcons, rfl⟩

theorem traverse_spec {σ : Type*} {f : σ → α → Option (β × σ)} {I : σ → Prop}
    {P : α → β → Prop} {as : List α}
    (hf : ∀ s, ∀ a ∈ as, ∀ b s', I s → f s a = some (b, s') → P a b ∧ I s')
    {s s' : σ} {bs : List β} (hs : I s) (h : traverse f s as = some (bs, s')) :
    List.Forall₂ P as bs ∧ I s' := by
  induction as generalizing s bs with
  | nil =>
    obtain ⟨rfl, rfl⟩ := Prod.mk.inj (Option.some.inj h)
    exact ⟨.nil, hs⟩
  | cons a as ih =>
    obtain ⟨b, s₁, bs, hb, hbs, rfl⟩ := traverse_cons_eq_some.mp h
    obtain ⟨hP, hI⟩ := hf s a List.mem_cons_self b s₁ hs hb
    obtain ⟨hPs, hI'⟩ := ih (fun s c hc => hf s c (List.mem_cons_of_mem a hc)) hI hbs
    exact ⟨.cons hP hPs, hI'⟩

theorem traverse_mono {σ : Type*} {f f' : σ → α → Option (β × σ)}
    (h : ∀ s a r, f s a = some r → f' s a = some r) {as : List α} {s : σ} {r : List β × σ}
    (hr : traverse f s as = some r) : traverse f' s as = some r := by
  induction as generalizing s r with
  | nil => exact hr
  | cons a as ih =>
    obtain ⟨b, s₁, bs, hb, hbs, hcons⟩ := traverse_cons_eq_some.mp hr
    exact traverse_cons_eq_some.mpr ⟨b, s₁, bs, h _ _ _ hb, ih hbs, hcons⟩

theorem traverse_preserves {σ : Type*} {f : σ → α → Option (β × σ)} {I : σ → Prop}
    {R : σ → σ → Prop} {C : σ → α → Prop} (hrefl : ∀ s, R s s)
    (htrans : ∀ s s' s'', R s s' → R s' s'' → R s s'')
    (hkeep : ∀ s s' a, R s s' → C s a → C s' a)
    (hf : ∀ s a b s', I s → f s a = some (b, s') → I s' ∧ R s s' ∧ C s' a) {as : List α}
    {s s' : σ} {bs : List β} (hs : I s) (h : traverse f s as = some (bs, s')) :
    I s' ∧ R s s' ∧ ∀ a ∈ as, C s' a := by
  induction as generalizing s bs with
  | nil =>
    obtain ⟨rfl, rfl⟩ := Prod.mk.inj (Option.some.inj h)
    exact ⟨hs, hrefl s, nofun⟩
  | cons a as ih =>
    obtain ⟨b, s₁, bs, hb, hbs, rfl⟩ := traverse_cons_eq_some.mp h
    obtain ⟨hI, hR, hC⟩ := hf s a b s₁ hs hb
    obtain ⟨hI', hR', hCs⟩ := ih hI hbs
    exact ⟨hI', htrans _ _ _ hR hR', List.forall_mem_cons.mpr ⟨hkeep _ _ _ hR' hC, hCs⟩⟩

section Coverage

variable {g} {stored : α → Bool}

/-- All nodes that `t` depends on and whose values are stored have an entry. -/
def Covers (g : Graph α β) (stored : α → Bool) (cache : List (α × β)) (t : α) : Prop :=
  ∀ s, Relation.ReflTransGen g.Dep s t → stored s = true → g.deps s ≠ [] → ∃ b, (s, b) ∈ cache

def Closed (g : Graph α β) (stored : α → Bool) (cache : List (α × β)) : Prop :=
  ∀ p ∈ cache, g.Covers stored cache p.1

theorem Covers.mono {cache cache' : List (α × β)} {t : α} (hsub : cache ⊆ cache')
    (h : g.Covers stored cache t) : g.Covers stored cache' t := fun s hs hst hdeps =>
  (h s hs hst hdeps).imp fun _ hb => hsub hb

theorem covers_of_deps {cache : List (α × β)} {t : α}
    (hdeps : ∀ s ∈ g.deps t, g.Covers stored cache s)
    (hself : stored t = true → g.deps t ≠ [] → ∃ b, (t, b) ∈ cache) :
    g.Covers stored cache t := by
  intro s hs hst hne
  rcases Relation.ReflTransGen.cases_tail hs with rfl | ⟨s', hs', hdep⟩
  · exact hself hst hne
  · exact hdeps s' hdep s hs' hst hne

end Coverage

variable [DecidableEq α]

/-- Nodes without dependencies are not looked up, and only some values are stored. -/
def memoized (stored : α → Bool) : ℕ → List (α × β) → α → Option (β × List (α × β))
  | 0, _, _ => none
  | fuel + 1, cache, t =>
    if (g.deps t).isEmpty then some (g.rule t [], cache)
    else
      match cache.lookup t with
      | some b => some (b, cache)
      | none => do
        let (bs, cache) ← traverse (memoized stored fuel) cache (g.deps t)
        let b := g.rule t bs
        return (b, if stored t then (t, b) :: cache else cache)

/-- All entries of the cache have the property `P`. -/
def CacheAll (P : α → β → Prop) (cache : List (α × β)) : Prop := ∀ p ∈ cache, P p.1 p.2

variable {g} {stored : α → Bool}

theorem memoized_mono {fuel fuel' : ℕ} (hle : fuel ≤ fuel') {cache : List (α × β)} {t : α}
    {r : β × List (α × β)} (hr : g.memoized stored fuel cache t = some r) :
    g.memoized stored fuel' cache t = some r := by
  have hsucc : ∀ fuel cache t r, g.memoized stored fuel cache t = some r →
      g.memoized stored (fuel + 1) cache t = some r := by
    intro fuel
    induction fuel with
    | zero => intro cache t r h; contradiction
    | succ fuel ih =>
      intro cache t r h
      rw [memoized] at h ⊢
      by_cases hempty : (g.deps t).isEmpty = true
      · rw [if_pos hempty] at h ⊢
        exact h
      · rw [if_neg hempty] at h ⊢
        cases hl : cache.lookup t with
        | some b =>
          rw [hl] at h
          exact h
        | none =>
          rw [hl] at h
          simp only [Option.bind_eq_bind, Option.bind_eq_some_iff] at h ⊢
          obtain ⟨x, hx, h⟩ := h
          exact ⟨x, traverse_mono ih hx, h⟩
  induction hle with
  | refl => exact hr
  | step _ ih => exact hsucc _ _ _ _ ih

theorem memoized_isSome {t : α} (ht : Acc g.Dep t) :
    ∃ n, ∀ fuel ≥ n, ∀ cache, (g.memoized stored fuel cache t).isSome := by
  induction ht with
  | intro t _ ih =>
    choose! n hn using ih
    refine ⟨((g.deps t).map n).sum + 1, fun fuel hfuel cache => ?_⟩
    obtain ⟨fuel, rfl⟩ : ∃ k, fuel = k + 1 := ⟨fuel - 1, by omega⟩
    have hdeps : ∀ s ∈ g.deps t, ∀ cache, (g.memoized stored fuel cache s).isSome := by
      intro s hs
      have hle : n s ≤ ((g.deps t).map n).sum :=
        List.single_le_sum (fun _ _ => Nat.zero_le _) _ (List.mem_map_of_mem hs)
      exact hn s hs fuel (by omega)
    rw [memoized]
    by_cases hempty : (g.deps t).isEmpty = true
    · rw [if_pos hempty]
      rfl
    · rw [if_neg hempty]
      cases cache.lookup t with
      | some b => rfl
      | none =>
        obtain ⟨x, hx⟩ := Option.isSome_iff_exists.mp (traverse_isSome hdeps cache)
        simp only [hx, Option.bind_eq_bind, Option.bind_some, Option.pure_def, Option.isSome_some]

/-- A call does not need the cache, finds its value there, or computes it from the dependencies. -/
theorem memoized_cases {fuel : ℕ} {cache cache' : List (α × β)} {t : α} {b : β}
    (h : g.memoized stored (fuel + 1) cache t = some (b, cache')) :
    (g.deps t = [] ∧ b = g.rule t [] ∧ cache' = cache) ∨
    ((t, b) ∈ cache ∧ cache' = cache) ∨
    (g.deps t ≠ [] ∧ ∃ bs cache₁,
      traverse (g.memoized stored fuel) cache (g.deps t) = some (bs, cache₁) ∧
        b = g.rule t bs ∧ cache' = if stored t then (t, b) :: cache₁ else cache₁) := by
  rw [memoized] at h
  by_cases hempty : (g.deps t).isEmpty = true
  · rw [if_pos hempty] at h
    obtain ⟨rfl, rfl⟩ := Prod.mk.inj (Option.some.inj h)
    exact .inl ⟨List.isEmpty_iff.mp hempty, rfl, rfl⟩
  · rw [if_neg hempty] at h
    right
    cases hl : cache.lookup t with
    | some b' =>
      rw [hl] at h
      obtain ⟨rfl, rfl⟩ := Prod.mk.inj (Option.some.inj h)
      obtain ⟨l₁, l₂, rfl, -⟩ := List.lookup_eq_some_iff.mp hl
      exact .inl ⟨by simp, rfl⟩
    | none =>
      rw [hl] at h
      simp only [Option.bind_eq_bind, Option.bind_eq_some_iff, Option.pure_def,
        Option.some.injEq] at h
      obtain ⟨x, hx, he⟩ := h
      obtain ⟨rfl, rfl⟩ := Prod.mk.inj he
      exact .inr ⟨fun hnil => hempty (List.isEmpty_iff.mpr hnil), x.1, x.2, hx, rfl, rfl⟩

theorem memoized_spec {P : α → β → Prop}
    (hP : ∀ t bs, List.Forall₂ P (g.deps t) bs → P t (g.rule t bs)) {fuel : ℕ}
    {cache cache' : List (α × β)} {t : α} {b : β} (hcache : CacheAll P cache)
    (h : g.memoized stored fuel cache t = some (b, cache')) : P t b ∧ CacheAll P cache' := by
  induction fuel generalizing cache cache' t b with
  | zero => contradiction
  | succ fuel ih =>
    rcases memoized_cases h with ⟨hnil, rfl, rfl⟩ | ⟨hb, rfl⟩ | ⟨-, bs, cache₁, hbs, rfl, rfl⟩
    · exact ⟨hP t [] (hnil ▸ .nil), hcache⟩
    · exact ⟨hcache _ hb, hcache⟩
    · obtain ⟨hPs, hcache₁⟩ := traverse_spec (f := g.memoized stored fuel)
        (fun _ _ _ _ _ hs hf => ih hs hf) hcache hbs
      have hb : P t (g.rule t bs) := hP t bs hPs
      refine ⟨hb, ?_⟩
      split_ifs
      · exact List.forall_mem_cons.mpr ⟨hb, hcache₁⟩
      · exact hcache₁

theorem memoized_closed {fuel : ℕ} {cache cache' : List (α × β)} {t : α} {b : β}
    (hcache : g.Closed stored cache) (h : g.memoized stored fuel cache t = some (b, cache')) :
    g.Closed stored cache' ∧ cache ⊆ cache' ∧ g.Covers stored cache' t := by
  induction fuel generalizing cache cache' t b with
  | zero => contradiction
  | succ fuel ih =>
    rcases memoized_cases h with ⟨hnil, rfl, rfl⟩ | ⟨hb, rfl⟩ | ⟨-, bs, cache₁, hbs, rfl, rfl⟩
    · refine ⟨hcache, fun _ hp => hp, covers_of_deps ?_ fun _ hne => absurd hnil hne⟩
      rw [hnil]
      exact nofun
    · exact ⟨hcache, fun _ hp => hp, hcache _ hb⟩
    · obtain ⟨hclosed, hsub, hcovers⟩ := traverse_preserves
        (f := g.memoized stored fuel) (I := g.Closed stored) (R := fun c₁ c₂ => c₁ ⊆ c₂)
        (C := g.Covers stored) (fun _ _ hp => hp) (fun _ _ _ h₁ h₂ _ hp => h₂ (h₁ hp))
        (fun _ _ _ => Covers.mono) (fun _ _ _ _ hs hf => ih hs hf) hcache hbs
      split_ifs with hst
      · have hcons : cache₁ ⊆ (t, g.rule t bs) :: cache₁ := List.subset_cons_self _ _
        have ht : g.Covers stored ((t, g.rule t bs) :: cache₁) t :=
          covers_of_deps (fun s hs => (hcovers s hs).mono hcons) fun _ _ => ⟨_, List.mem_cons_self⟩
        exact ⟨List.forall_mem_cons.mpr ⟨ht, fun p hp => (hclosed p hp).mono hcons⟩,
          fun p hp => hcons (hsub hp), ht⟩
      · exact ⟨hclosed, hsub, covers_of_deps hcovers fun hst' => absurd hst' hst⟩

theorem memoized_keys {Q : α → Prop}
    (hQ : ∀ s t, g.Dep s t → Q t → Q s) {fuel : ℕ} {cache cache' : List (α × β)} {t : α} {b : β}
    (ht : Q t) (hcache : ∀ p ∈ cache, Q p.1 ∧ stored p.1 = true ∧ g.deps p.1 ≠ [])
    (h : g.memoized stored fuel cache t = some (b, cache')) :
    ∀ p ∈ cache', Q p.1 ∧ stored p.1 = true ∧ g.deps p.1 ≠ [] := by
  induction fuel generalizing cache cache' t b with
  | zero => contradiction
  | succ fuel ih =>
    rcases memoized_cases h with ⟨-, -, rfl⟩ | ⟨-, rfl⟩ | ⟨hne, bs, cache₁, hbs, -, rfl⟩
    · exact hcache
    · exact hcache
    · have hkeys := (traverse_spec (P := fun _ _ => True)
        (fun cache s hs b cache' hI hf => ⟨trivial, ih (hQ s t hs ht) hI hf⟩) hcache hbs).2
      split_ifs with hst
      · exact List.forall_mem_cons.mpr ⟨⟨ht, hst, hne⟩, hkeys⟩
      · exact hkeys

end Fiction.Graph
