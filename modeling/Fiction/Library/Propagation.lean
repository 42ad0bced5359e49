import Fiction.Library.TransitionSystem
import Mathlib.Data.Finset.Card

/-!
# Propagation of labels

Labelling an element passes labels on to related elements, which do the same in turn. A label is
never changed: where two ways lead to contradicting labels, the first one wins. An element may have
one mate that it addresses before all others, with the opposite label. Such a pair is never
contradicted, because nothing happens between the labelling of the two.
-/

namespace Fiction.Propagation

variable {α κ : Type*} [DecidableEq α]

/-- `next e c` lists what is passed on by `e` when it gets the label `c`. -/
def propagate (next : α → κ → List (α × κ)) : ℕ → (α → Option κ) → α × κ → Option (α → Option κ)
  | 0 => fun _ _ => none
  | fuel + 1 => fun s p =>
    if (s p.1).isSome then some s
    else (next p.1 p.2).foldlM (propagate next fuel) (Function.update s p.1 (some p.2))

def Extends (s s' : α → Option κ) : Prop := ∀ x c, s x = some c → s' x = some c

omit [DecidableEq α] in
theorem Extends.refl (s : α → Option κ) : Extends s s := fun _ _ h => h

omit [DecidableEq α] in
theorem Extends.trans {s s' s'' : α → Option κ} (h : Extends s s') (h' : Extends s' s'') :
    Extends s s'' := fun x c hx => h' x c (h x c hx)

omit [DecidableEq α] in
theorem Extends.isSome {s s' : α → Option κ} (h : Extends s s') {x : α} (hx : (s x).isSome) :
    (s' x).isSome := by
  obtain ⟨c, hc⟩ := Option.isSome_iff_exists.mp hx
  rw [h x c hc]
  rfl

omit [DecidableEq α] in
theorem Extends.eq_none {s s' : α → Option κ} (h : Extends s s') {x : α} (hx : s' x = none) :
    s x = none := by
  cases hs : s x with
  | none => rfl
  | some c => rw [h x c hs] at hx; cases hx

theorem extends_update {s : α → Option κ} {e : α} (he : s e = none) (c : κ) :
    Extends s (Function.update s e (some c)) := by
  intro x d hx
  have hne : x ≠ e := by
    rintro rfl
    rw [he] at hx
    cases hx
  rwa [Function.update_of_ne hne]

variable {next : α → κ → List (α × κ)} {fuel : ℕ} {s s' : α → Option κ}

theorem propagate_succ (p : α × κ) : propagate next (fuel + 1) s p =
    if (s p.1).isSome then some s
    else (next p.1 p.2).foldlM (propagate next fuel) (Function.update s p.1 (some p.2)) := rfl

theorem propagate_cases {p : α × κ} (h : propagate next fuel s p = some s') :
    (s p.1).isSome ∧ s' = s ∨ ∃ k, fuel = k + 1 ∧ s p.1 = none ∧
      (next p.1 p.2).foldlM (propagate next k) (Function.update s p.1 (some p.2)) = some s' := by
  cases fuel with
  | zero => cases h
  | succ k =>
    rw [propagate_succ] at h
    split_ifs at h with hs
    · exact .inl ⟨hs, (Option.some.inj h).symm⟩
    · exact .inr ⟨k, rfl, Option.not_isSome_iff_eq_none.mp hs, h⟩

theorem propagate_extends {p : α × κ} (h : propagate next fuel s p = some s') : Extends s s' := by
  induction fuel generalizing s s' p with
  | zero => cases h
  | succ fuel ih =>
    obtain ⟨-, rfl⟩ | ⟨k, hk, hs, hfold⟩ := propagate_cases h
    · exact Extends.refl s'
    · obtain rfl : fuel = k := by omega
      exact (extends_update hs p.2).trans (invariant_foldlM (I := Extends _)
        (fun l _ t t' ht hl => ht.trans (ih hl)) (Extends.refl _) hfold)

theorem foldlM_propagate_extends {ps : List (α × κ)}
    (h : ps.foldlM (propagate next fuel) s = some s') : Extends s s' :=
  invariant_foldlM (fun _ _ _ _ ht hl => ht.trans (propagate_extends hl)) (Extends.refl s) h

theorem propagate_isSome_label {p : α × κ} (h : propagate next fuel s p = some s') :
    (s' p.1).isSome := by
  obtain ⟨hs, rfl⟩ | ⟨k, -, -, hfold⟩ := propagate_cases h
  · exact hs
  · have hp : Function.update s p.1 (some p.2) p.1 = some p.2 := Function.update_self ..
    rw [foldlM_propagate_extends hfold _ _ hp]
    rfl

theorem propagate_mono {p : α × κ} {k : ℕ} (hk : fuel ≤ k)
    (h : propagate next fuel s p = some s') : propagate next k s p = some s' := by
  induction fuel generalizing s s' p k with
  | zero => cases h
  | succ fuel ih =>
    obtain ⟨k, rfl⟩ : ∃ j, k = j + 1 := ⟨k - 1, by omega⟩
    rw [propagate_succ] at h ⊢
    split_ifs at h ⊢ with hs
    · exact h
    · exact foldlM_mono (fun t q t' => ih (by omega)) h

section Termination

variable {U : Finset α}

/-- The unlabelled elements of a finite set. -/
def blank (U : Finset α) (s : α → Option κ) : Finset α := U.filter fun x => (s x).isNone

omit [DecidableEq α] in
theorem blank_subset (h : Extends s s') : blank U s' ⊆ blank U s := by
  intro x hx
  simp only [blank, Finset.mem_filter, Option.isNone_iff_eq_none] at hx ⊢
  exact ⟨hx.1, h.eq_none hx.2⟩

theorem card_blank_update {e : α} (he : e ∈ U) (hs : s e = none) (c : κ) :
    (blank U (Function.update s e (some c))).card < (blank U s).card := by
  refine Finset.card_lt_card ((Finset.ssubset_iff_of_subset
    (blank_subset (extends_update hs c))).mpr ⟨e, ?_, ?_⟩)
  · simp [blank, he, hs]
  · simp [blank]

theorem propagate_isSome (hU : ∀ e ∈ U, ∀ c, ∀ p ∈ next e c, p.1 ∈ U) {p : α × κ} (hp : p.1 ∈ U)
    (hfuel : (blank U s).card < fuel) : (propagate next fuel s p).isSome := by
  induction fuel generalizing s p with
  | zero => omega
  | succ fuel ih =>
    rw [propagate_succ]
    split_ifs with hs
    · rfl
    · have hnone : s p.1 = none := Option.not_isSome_iff_eq_none.mp hs
      have hcard := card_blank_update hp hnone p.2
      obtain ⟨t, ht, -⟩ := @exists_foldlM _ _ (propagate next fuel)
        (fun _ t => Extends (Function.update s p.1 (some p.2)) t) (next p.1 p.2)
        (fun pre q suf t hq ht => by
          have hsub := Finset.card_le_card (blank_subset (U := U) ht)
          have hqU : q.1 ∈ U := hU p.1 hp p.2 q (by rw [hq]; simp)
          obtain ⟨t', ht'⟩ := Option.isSome_iff_exists.mp (ih (s := t) hqU (by omega))
          exact ⟨t', ht', ht.trans (propagate_extends ht')⟩) _ (Extends.refl _)
      rw [ht]
      rfl

end Termination

section Mates

/-- Mates come in pairs, and each of the two addresses the other one first. -/
structure IsMating (next : α → κ → List (α × κ)) (opposite : κ → κ) (Mate : α → α → Prop) :
    Prop where
  symm : ∀ e e', Mate e e' → Mate e' e
  irrefl : ∀ e, ¬ Mate e e
  unique : ∀ e e' e'', Mate e e' → Mate e e'' → e' = e''
  opposite_opposite : ∀ c, opposite (opposite c) = c
  first : ∀ e e' c, Mate e e' → ∃ rest, next e c = (e', opposite c) :: rest

/-- The mate of a labelled element has the opposite label. -/
def Settled (opposite : κ → κ) (Mate : α → α → Prop) (s : α → Option κ) : Prop :=
  ∀ e e', Mate e e' → ∀ c, s e = some c → s e' = some (opposite c)

/-- This is so for all pairs that do not contain `x`. -/
def SettledOff (opposite : κ → κ) (Mate : α → α → Prop) (x : α) (s : α → Option κ) : Prop :=
  ∀ e e', Mate e e' → e ≠ x → e' ≠ x → ∀ c, s e = some c → s e' = some (opposite c)

variable {opposite : κ → κ} {Mate : α → α → Prop}

theorem IsMating.settled_update (h : IsMating next opposite Mate) {e : α} {c : κ}
    (hoff : SettledOff opposite Mate e s) (hmate : ∀ e', Mate e e' → s e' = some (opposite c)) :
    Settled opposite Mate (Function.update s e (some c)) := by
  intro a b hab d ha
  by_cases hae : a = e
  · subst hae
    have hba : b ≠ a := fun hba => h.irrefl a (hba ▸ hab)
    rw [Function.update_self] at ha
    obtain rfl := Option.some.inj ha
    rw [Function.update_of_ne hba, hmate b hab]
  by_cases hbe : b = e
  · subst hbe
    rw [Function.update_of_ne hae, hmate a (h.symm a b hab)] at ha
    obtain rfl := Option.some.inj ha
    rw [Function.update_self, h.opposite_opposite]
  · rw [Function.update_of_ne hae] at ha
    rw [Function.update_of_ne hbe]
    exact hoff a b hab hae hbe d ha

theorem IsMating.settledOff_update (h : IsMating next opposite Mate) {e e' : α} {c : κ}
    (he : Mate e e') (hoff : SettledOff opposite Mate e s) :
    SettledOff opposite Mate e' (Function.update s e (some c)) := by
  intro a b hab ha hb d hd
  have hae : a ≠ e := by
    rintro rfl
    exact hb (h.unique a b e' hab he)
  have hbe : b ≠ e := by
    rintro rfl
    exact ha (h.unique b a e' (h.symm a b hab) he)
  rw [Function.update_of_ne hae] at hd
  rw [Function.update_of_ne hbe]
  exact hoff a b hab hae hbe d hd

/-- A call settles the pair of its element and keeps all others settled. A labelled mate has the
label that agrees with the call. -/
theorem IsMating.settled_propagate (h : IsMating next opposite Mate) {p : α × κ}
    (hcall : propagate next fuel s p = some s')
    (hlabelled : (s p.1).isSome → Settled opposite Mate s)
    (hoff : SettledOff opposite Mate p.1 s)
    (hmate : ∀ e', Mate p.1 e' → ∀ d, s e' = some d → d = opposite p.2) :
    Settled opposite Mate s' := by
  induction fuel generalizing s s' p with
  | zero => cases hcall
  | succ fuel ih =>
    obtain ⟨hs, rfl⟩ | ⟨k, hk, hs, hfold⟩ := propagate_cases hcall
    · exact hlabelled hs
    obtain rfl : fuel = k := by omega
    have hnext : ∀ {t t' : α → Option κ} {q : α × κ}, Settled opposite Mate t →
        propagate next fuel t q = some t' → Settled opposite Mate t' := by
      intro t t' q ht hq
      rcases propagate_cases hq with ⟨-, rfl⟩ | ⟨-, -, hblank, -⟩
      · exact ht
      · refine ih hq (fun _ => ht) (fun a b hab _ _ => ht a b hab) fun e' he' d hd => ?_
        rw [ht e' q.1 (h.symm q.1 e' he') d hd] at hblank
        cases hblank
    by_cases hm : ∃ e', Mate p.1 e'
    · obtain ⟨e', he'⟩ := hm
      have hne : e' ≠ p.1 := fun he => h.irrefl p.1 (he ▸ he')
      obtain ⟨rest, hrest⟩ := h.first p.1 e' p.2 he'
      rw [hrest, List.foldlM_cons, Option.bind_eq_bind, Option.bind_eq_some_iff] at hfold
      obtain ⟨t, ht, hfold⟩ := hfold
      have hsettled : Settled opposite Mate t := by
        refine ih ht (fun hsome => ?_) (h.settledOff_update he' hoff) fun e'' he'' d hd => ?_
        · refine h.settled_update hoff fun x hx => ?_
          obtain rfl := h.unique p.1 x e' hx he'
          rw [Function.update_of_ne hne] at hsome
          obtain ⟨d, hd⟩ := Option.isSome_iff_exists.mp hsome
          rw [hd, hmate x hx d hd]
        · obtain rfl := h.unique e' e'' p.1 he'' (h.symm p.1 e' he')
          rw [Function.update_self] at hd
          rw [← Option.some.inj hd, h.opposite_opposite]
      exact invariant_foldlM (fun _ _ _ _ ht hq => hnext ht hq) hsettled hfold
    · have hsettled : Settled opposite Mate (Function.update s p.1 (some p.2)) :=
        h.settled_update hoff fun e' he' => (hm ⟨e', he'⟩).elim
      exact invariant_foldlM (fun _ _ _ _ ht hq => hnext ht hq) hsettled hfold

theorem IsMating.settled_call (h : IsMating next opposite Mate) {p : α × κ}
    (hs : Settled opposite Mate s) (hcall : propagate next fuel s p = some s') :
    Settled opposite Mate s' := by
  rcases propagate_cases hcall with ⟨-, rfl⟩ | ⟨-, -, hblank, -⟩
  · exact hs
  · refine h.settled_propagate hcall (fun _ => hs) (fun a b hab _ _ => hs a b hab)
      fun e' he' d hd => ?_
    rw [hs e' p.1 (h.symm p.1 e' he') d hd] at hblank
    cases hblank

end Mates

end Fiction.Propagation
