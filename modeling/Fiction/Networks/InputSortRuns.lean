import Fiction.NetworkTransformation.FanoutSubstitution
import Fiction.Networks.InputSortOrder

/-!
# When the inputs can be sorted

In a fan-out substituted network an input feeds one gate at most. If this is a fan-out node, the
inputs that its gates read besides are met in pairs. The first of a pair is queued behind the input
itself unless it has been visited before, and only then the second one finds the input in the second
to last place. So the loop fails exactly for inputs that meet two others of which the first has been
visited by an earlier input, and for those that meet four.
-/

namespace Fiction.TopoViewInputSort

open TechnologyNetwork

section Neighbours

variable {ntk : TechnologyNetwork} (V : FanoutView ntk)

/-- The fan-ins of all output nodes. -/
def inspected (fon : ℕ) : List ℕ := (outputNodes V fon).flatMap fun out => (ntk.node out).children

/-- The other nodes that are met behind the fan-out `fon` of `n`. -/
def neighbours (n fon : ℕ) : List ℕ :=
  ((inspected V fon).filterMap (ignoreInverter ntk)).filter fun x => x ≠ n

def neighbourCis (n fon : ℕ) : List ℕ := (neighbours V n fon).filter ntk.isCi

def isMajority (ntk : TechnologyNetwork) (fon : ℕ) : Bool :=
  ntk.isMaj fon && (faninNodes ntk fon).any fun fc => decide (fc.length > 2)

/-- The nodes that are visited when `n` meets `x`. -/
def touched (ntk : TechnologyNetwork) (n fon x : ℕ) : List ℕ :=
  if isMajority ntk fon then [n] else if ntk.isCi x then [n, x] else []

/-- The nodes that are visited along with `n`. -/
def queued (n : ℕ) : List ℕ :=
  (V.fanouts n).flatMap fun fon => (neighbours V n fon).flatMap (touched ntk n fon)

/-- No inverter in front of an output node inverts a constant, and the fan-out of `n` has not two
constant fan-ins. -/
def FaninsFound (n fon : ℕ) : Prop :=
  (∀ fi ∈ inspected V fon, (ignoreInverter ntk fi).isSome = true) ∧
    (neighbours V n fon = [] ∨ (faninNodes ntk fon).isSome = true)

/-- What the loop over the fan-ins needs if `n` has not been visited by one of the `earlier`
inputs. -/
structure Sortable (earlier : List ℕ) (n fon : ℕ) : Prop where
  found : FaninsFound V n fon
  pairs : ntk.isFanout (skipInverter V fon) = true → (neighbourCis V n fon).length ≤ 1 ∨
    (neighbourCis V n fon).length ≤ 3 ∧
      ∀ c ∈ (neighbourCis V n fon).head?, ∀ m ∈ earlier, c ∉ queued V m

variable {V} in
instance (n fon : ℕ) : Decidable (FaninsFound V n fon) := inferInstanceAs (Decidable (_ ∧ _))

variable {V} in
instance (earlier : List ℕ) (n fon : ℕ) : Decidable (Sortable V earlier n fon) :=
  decidable_of_iff (FaninsFound V n fon ∧ (ntk.isFanout (skipInverter V fon) = true →
    (neighbourCis V n fon).length ≤ 1 ∨ (neighbourCis V n fon).length ≤ 3 ∧
      ∀ c ∈ (neighbourCis V n fon).head?, ∀ m ∈ earlier, c ∉ queued V m))
    ⟨fun h => ⟨h.1, h.2⟩, fun h => ⟨h.found, h.pairs⟩⟩

/-- Every input that no earlier one visits can be sorted. -/
def InputsSortable : Prop :=
  ∀ i, (h : i < ntk.inputs.length) → (∀ m ∈ ntk.inputs.take i, ntk.inputs[i] ∉ queued V m) →
    ∀ fon ∈ V.fanouts ntk.inputs[i], Sortable V (ntk.inputs.take i) ntk.inputs[i] fon

end Neighbours

section Scan

variable {ntk : TechnologyNetwork} {V : FanoutView ntk} {n fon : ℕ} {p p' : WaitState × Bool}

/-- An input behind a fan-out node. -/
def meetInput (n : ℕ) (p : WaitState × Bool) (x : ℕ) : Option (WaitState × Bool) :=
  if p.2 then do
    let s ← p.1.promote n
    some (s.pushUnvisited x, false)
  else some ((p.1.queueWait n).queueWait x, true)

variable (V) in
def meet (n fon : ℕ) (p : WaitState × Bool) (x : ℕ) : Option (WaitState × Bool) :=
  if isMajority ntk fon then some (p.1.queueThird n, p.2)
  else if ntk.isCi x then
    if ntk.isFanout (skipInverter V fon) then meetInput n p x
    else some ((p.1.queueSecond n).queueSecond x, p.2)
  else some p

theorem sortFanin_eq_none {fi : ℕ} (h : ignoreInverter ntk fi = none) :
    sortFanin V n fon p fi = none := by
  rw [sortFanin, h]
  rfl

theorem sortFanin_self {fi : ℕ} (h : ignoreInverter ntk fi = some n) :
    sortFanin V n fon p fi = some p := by
  rw [sortFanin, h]
  exact if_pos rfl

theorem sortFanin_constants {fi x : ℕ} (h : ignoreInverter ntk fi = some x) (hx : x ≠ n)
    (hc : faninNodes ntk fon = none) : sortFanin V n fon p fi = none := by
  rw [sortFanin, h, hc]
  exact if_neg hx

theorem sortFanin_meet {fi x : ℕ} (h : ignoreInverter ntk fi = some x) (hx : x ≠ n)
    (hc : (faninNodes ntk fon).isSome = true) :
    sortFanin V n fon p fi = meet V n fon p x := by
  obtain ⟨fc, hfc⟩ := Option.isSome_iff_exists.mp hc
  have hmaj : isMajority ntk fon = true ↔ ntk.isMaj fon = true ∧ fc.length > 2 := by
    rw [isMajority, hfc, Option.any_some, Bool.and_eq_true, decide_eq_true_eq]
  rw [sortFanin, h, hfc, meet]
  change (if x = n then some p else if ntk.isMaj fon = true ∧ fc.length > 2 then _ else _) = _
  rw [if_neg hx]
  by_cases hm : ntk.isMaj fon = true ∧ fc.length > 2
  · rw [if_pos hm, if_pos (hmaj.mpr hm)]
  · rw [if_neg hm, if_neg (mt hmaj.mp hm)]
    rfl

theorem foldlM_sortFanin {l : List ℕ} (hinv : ∀ fi ∈ l, (ignoreInverter ntk fi).isSome = true)
    (hconst : (l.filterMap (ignoreInverter ntk)).filter (fun x => x ≠ n) = [] ∨
      (faninNodes ntk fon).isSome = true) (p : WaitState × Bool) :
    l.foldlM (sortFanin V n fon) p =
      ((l.filterMap (ignoreInverter ntk)).filter fun x => x ≠ n).foldlM (meet V n fon) p := by
  induction l generalizing p with
  | nil => rfl
  | cons fi l ih =>
    obtain ⟨x, hx⟩ := Option.isSome_iff_exists.mp (hinv fi List.mem_cons_self)
    have hinv' : ∀ fi ∈ l, (ignoreInverter ntk fi).isSome = true := fun fi hfi =>
      hinv fi (List.mem_cons_of_mem _ hfi)
    rw [List.filterMap_cons_some hx] at hconst ⊢
    rw [List.foldlM_cons]
    by_cases hxn : x = n
    · have hdrop : ((x :: l.filterMap (ignoreInverter ntk)).filter fun x => x ≠ n) =
          (l.filterMap (ignoreInverter ntk)).filter fun x => x ≠ n :=
        List.filter_cons_of_neg (by simp [hxn])
      rw [hdrop] at hconst ⊢
      rw [sortFanin_self (hxn ▸ hx)]
      exact ih hinv' hconst p
    · have hkeep : ((x :: l.filterMap (ignoreInverter ntk)).filter fun x => x ≠ n) =
          x :: (l.filterMap (ignoreInverter ntk)).filter fun x => x ≠ n :=
        List.filter_cons_of_pos (by simp [hxn])
      rw [hkeep] at hconst ⊢
      have hsome := hconst.resolve_left (List.cons_ne_nil _ _)
      rw [List.foldlM_cons, sortFanin_meet hx hxn hsome]
      exact bind_congr fun p => ih hinv' (.inr hsome) p

theorem sortFanout_eq (s : WaitState) : sortFanout V n s fon =
    ((inspected V fon).foldlM (sortFanin V n fon) (s, false)).map Prod.fst := by
  rw [sortFanout, foldlM_flatMap]
  exact Option.map_eq_bind.symm

theorem visited_of_meet {x m : ℕ} (h : meet V n fon p x = some p') :
    p'.1.visited m = true ↔ p.1.visited m = true ∨ m ∈ touched ntk n fon x := by
  unfold meet at h
  unfold touched
  split_ifs at h ⊢
  · obtain rfl := Option.some.inj h
    rw [WaitState.visited_queueThird, List.mem_singleton]
  · unfold meetInput at h
    rw [List.mem_cons, List.mem_singleton, ← or_assoc]
    split_ifs at h
    · rw [Option.bind_eq_bind, Option.bind_eq_some_iff] at h
      obtain ⟨s, hs, h⟩ := h
      obtain rfl := Option.some.inj h
      unfold WaitState.promote at hs
      split_ifs at hs
      obtain rfl := Option.some.inj hs
      rw [WaitState.visited_pushUnvisited, WaitState.visited_pushOrder]
      rfl
    · obtain rfl := Option.some.inj h
      rw [WaitState.visited_queueWait, WaitState.visited_queueWait]
  · obtain rfl := Option.some.inj h
    rw [WaitState.visited_queueSecond, WaitState.visited_queueSecond, List.mem_cons,
      List.mem_singleton, or_assoc]
  · obtain rfl := Option.some.inj h
    simp

theorem visited_of_foldlM_meet {xs : List ℕ} {m : ℕ} (h : xs.foldlM (meet V n fon) p = some p') :
    p'.1.visited m = true ↔ p.1.visited m = true ∨ m ∈ xs.flatMap (touched ntk n fon) := by
  induction xs generalizing p with
  | nil =>
    obtain rfl := Option.some.inj h
    simp
  | cons x xs ih =>
    rw [List.foldlM_cons, Option.bind_eq_bind, Option.bind_eq_some_iff] at h
    obtain ⟨p₁, h₁, h⟩ := h
    rw [ih h, visited_of_meet h₁, List.flatMap_cons, List.mem_append, or_assoc]

end Scan

section Pairs

variable {ntk : TechnologyNetwork} {V : FanoutView ntk} {s s' : WaitState} {n c : ℕ}

theorem promote_of_notMem (h : n ∉ s.wait) : s.promote n = none :=
  if_neg fun hcond => h (List.mem_of_getElem? hcond.2)

theorem promote_of_last {w : List ℕ} (hw : s.wait = w ++ [n]) (hn : n ∉ w) :
    s.promote n = none := by
  refine if_neg fun ⟨hlen, hget⟩ => ?_
  have hlength : s.wait.length = w.length + 1 := by rw [hw, List.length_append]; rfl
  rw [hw, List.getElem?_append_left (by rw [← hw]; omega)] at hget
  exact hn (List.mem_of_getElem? hget)

theorem promote_of_secondToLast {w : List ℕ} (hw : s.wait = w ++ [n, c]) :
    s.promote n = some ({ s with wait := w ++ [c] }.pushOrder n) := by
  have hlength : s.wait.length - 2 = w.length := by rw [hw, List.length_append]; rfl
  have hcond : 2 ≤ s.wait.length ∧ s.wait[s.wait.length - 2]? = some n := by
    refine ⟨by rw [hw, List.length_append]; exact Nat.le_add_left _ _, ?_⟩
    rw [hlength, hw, List.getElem?_append_right le_rfl, Nat.sub_self]
    rfl
  rw [WaitState.promote, if_pos hcond, hlength, hw, List.eraseIdx_append_of_length_le le_rfl,
    Nat.sub_self]
  rfl

theorem wait_queueWait (s : WaitState) (n : ℕ) :
    (s.queueWait n).wait = if s.visited n then s.wait else s.wait ++ [n] := by
  unfold WaitState.queueWait
  split_ifs <;> rfl

theorem wait_pushUnvisited (s : WaitState) (n : ℕ) : (s.pushUnvisited n).wait = s.wait := by
  unfold WaitState.pushUnvisited
  split_ifs <;> rfl

theorem promote_again {x : ℕ} (hs : s.visited n = true) (hn : n ∉ s.wait) (hx : x ≠ n) :
    ((s.queueWait n).queueWait x).promote n = none := by
  refine promote_of_notMem ?_
  rw [wait_queueWait, wait_queueWait, if_pos hs]
  split_ifs
  · exact hn
  · rw [List.mem_append, List.mem_singleton, not_or]
    exact ⟨hn, Ne.symm hx⟩

theorem foldlM_first (x : ℕ) (cs : List ℕ) (s : WaitState) :
    (x :: cs).foldlM (meetInput n) (s, false) =
      cs.foldlM (meetInput n) ((s.queueWait n).queueWait x, true) :=
  List.foldlM_cons

theorem foldlM_second (x : ℕ) (cs : List ℕ) (s : WaitState) :
    (x :: cs).foldlM (meetInput n) (s, true) =
      (s.promote n).bind fun s => cs.foldlM (meetInput n) (s.pushUnvisited x, false) := by
  rw [List.foldlM_cons]
  cases h : s.promote n with
  | none => simp [meetInput, h]
  | some s' => simp [meetInput, h]

theorem foldlM_meetInput_iff {cs : List ℕ} (hn : s.visited n = false) (hwait : n ∉ s.wait)
    (hcs : ∀ c ∈ cs, c ≠ n) : (∃ p, cs.foldlM (meetInput n) (s, false) = some p) ↔
      cs.length ≤ 1 ∨ cs.length ≤ 3 ∧ ∀ c ∈ cs.head?, s.visited c = false := by
  match cs, hcs with
  | [], _ => exact iff_of_true ⟨_, rfl⟩ (.inl (Nat.zero_le _))
  | [c₁], _ => exact iff_of_true ⟨_, rfl⟩ (.inl le_rfl)
  | c₁ :: c₂ :: cs, hcs =>
    have hc₁ : c₁ ≠ n := hcs c₁ (by simp)
    have hfirst : ((s.queueWait n).queueWait c₁).wait =
        if s.visited c₁ then s.wait ++ [n] else s.wait ++ [n, c₁] := by
      have hvisited : (s.queueWait n).visited c₁ = s.visited c₁ := by
        rw [Bool.eq_iff_iff, WaitState.visited_queueWait, or_iff_left hc₁]
      rw [wait_queueWait, wait_queueWait, hvisited, if_neg (Bool.eq_false_iff.mp hn)]
      split_ifs
      · rfl
      · rw [List.append_assoc]
        rfl
    rw [foldlM_first, foldlM_second]
    by_cases hv : s.visited c₁ = true
    · rw [if_pos hv] at hfirst
      rw [promote_of_last hfirst hwait]
      refine iff_of_false (fun ⟨_, h⟩ => nomatch h) ?_
      rintro (h | ⟨-, h⟩)
      · simp at h
      · exact Bool.false_ne_true ((h c₁ rfl).symm.trans hv)
    · rw [if_neg hv] at hfirst
      rw [promote_of_secondToLast hfirst, Option.bind_some]
      have hhead : ∀ c ∈ (c₁ :: c₂ :: cs).head?, s.visited c = false := by
        intro c hc
        obtain rfl := Option.some.inj hc
        exact Bool.eq_false_iff.mpr hv
      match cs, hcs with
      | [], _ => exact iff_of_true ⟨_, rfl⟩ (.inr ⟨by simp, hhead⟩)
      | [c₃], _ => exact iff_of_true ⟨_, rfl⟩ (.inr ⟨by simp, hhead⟩)
      | c₃ :: c₄ :: cs, hcs =>
        have hc₃ : c₃ ≠ n := hcs c₃ (by simp)
        -- the input has left the first list and is not found again
        rw [foldlM_first, foldlM_second, promote_again ?_ ?_ hc₃]
        · refine iff_of_false (fun ⟨_, h⟩ => nomatch h) ?_
          simp
        · rw [WaitState.visited_pushUnvisited, WaitState.visited_pushOrder]
          exact .inl (.inr rfl)
        · rw [wait_pushUnvisited]
          change n ∉ s.wait ++ [c₁]
          rw [List.mem_append, List.mem_singleton, not_or]
          exact ⟨hwait, Ne.symm hc₁⟩

end Pairs

section Fanout

variable {ntk : TechnologyNetwork} {V : FanoutView ntk} {s s' : WaitState} {n fon : ℕ}

theorem meet_eq_meetInput (hmaj : isMajority ntk fon = false)
    (hfo : ntk.isFanout (skipInverter V fon) = true) (xs : List ℕ) (p : WaitState × Bool) :
    xs.foldlM (meet V n fon) p = (xs.filter ntk.isCi).foldlM (meetInput n) p := by
  induction xs generalizing p with
  | nil => rfl
  | cons x xs ih =>
    rw [List.foldlM_cons, meet, hmaj, if_neg Bool.false_ne_true, hfo, if_pos rfl]
    by_cases hci : ntk.isCi x = true
    · rw [if_pos hci, List.filter_cons_of_pos hci, List.foldlM_cons]
      exact bind_congr ih
    · rw [if_neg hci, List.filter_cons_of_neg hci]
      exact ih p

theorem exists_foldlM_meet_iff (hn : s.visited n = false) (hwait : n ∉ s.wait)
    (hmaj : ntk.isFanout (skipInverter V fon) = true → isMajority ntk fon = false) :
    (∃ p, (neighbours V n fon).foldlM (meet V n fon) (s, false) = some p) ↔
      (ntk.isFanout (skipInverter V fon) = true → (neighbourCis V n fon).length ≤ 1 ∨
        (neighbourCis V n fon).length ≤ 3 ∧
          ∀ c ∈ (neighbourCis V n fon).head?, s.visited c = false) := by
  by_cases hfo : ntk.isFanout (skipInverter V fon) = true
  · rw [meet_eq_meetInput (hmaj hfo) hfo]
    refine (foldlM_meetInput_iff hn hwait fun c hc => ?_).trans ⟨fun h _ => h, fun h => h hfo⟩
    have hmem := List.mem_of_mem_filter hc
    exact of_decide_eq_true (List.mem_filter.mp hmem).2
  · refine iff_of_true ((exists_foldlM_iff (fun p x => iff_true_intro ?_)).mpr fun _ _ => trivial)
      fun h => absurd h hfo
    unfold meet
    split_ifs
    · exact ⟨_, rfl⟩
    · exact ⟨_, rfl⟩
    · exact ⟨_, rfl⟩

theorem sortFanout_eq_none (h : ¬ FaninsFound V n fon) (s : WaitState) :
    sortFanout V n s fon = none := by
  rw [sortFanout_eq, Option.map_eq_none_iff]
  by_cases hinv : ∀ fi ∈ inspected V fon, (ignoreInverter ntk fi).isSome = true
  · obtain ⟨hne, hnone⟩ := not_or.mp fun hconst => h ⟨hinv, hconst⟩
    obtain ⟨x, hx⟩ := List.exists_mem_of_ne_nil _ hne
    obtain ⟨hx, hxn⟩ := List.mem_filter.mp hx
    obtain ⟨fi, hfi, hx⟩ := List.mem_filterMap.mp hx
    exact foldlM_eq_none hfi (fun p => sortFanin_constants hx (of_decide_eq_true hxn)
      (Option.not_isSome_iff_eq_none.mp hnone)) _
  · simp only [not_forall] at hinv
    obtain ⟨fi, hfi, hnone⟩ := hinv
    exact foldlM_eq_none hfi (fun p => sortFanin_eq_none
      (Option.not_isSome_iff_eq_none.mp hnone)) _

theorem sortFanout_eq_meet (h : FaninsFound V n fon) (s : WaitState) : sortFanout V n s fon =
    ((neighbours V n fon).foldlM (meet V n fon) (s, false)).map Prod.fst := by
  rw [sortFanout_eq, foldlM_sortFanin h.1 h.2]
  rfl

theorem exists_sortFanout_iff (hn : s.visited n = false) (hwait : n ∉ s.wait)
    (hmaj : ntk.isFanout (skipInverter V fon) = true → isMajority ntk fon = false) :
    (∃ s', sortFanout V n s fon = some s') ↔ FaninsFound V n fon ∧
      (ntk.isFanout (skipInverter V fon) = true → (neighbourCis V n fon).length ≤ 1 ∨
        (neighbourCis V n fon).length ≤ 3 ∧
          ∀ c ∈ (neighbourCis V n fon).head?, s.visited c = false) := by
  by_cases h : FaninsFound V n fon
  · rw [and_iff_right h, ← exists_foldlM_meet_iff hn hwait hmaj]
    simp only [sortFanout_eq_meet h, Option.map_eq_some_iff]
    exact ⟨fun ⟨_, p, hp, _⟩ => ⟨p, hp⟩, fun ⟨p, hp⟩ => ⟨_, p, hp, rfl⟩⟩
  · refine iff_of_false ?_ fun h' => h h'.1
    rintro ⟨s', hs'⟩
    rw [sortFanout_eq_none h] at hs'
    cases hs'

theorem visited_of_sortFanout {m : ℕ} (hs : sortFanout V n s fon = some s') :
    s'.visited m = true ↔ s.visited m = true ∨
      m ∈ (neighbours V n fon).flatMap (touched ntk n fon) := by
  have h : FaninsFound V n fon := by
    by_contra h
    rw [sortFanout_eq_none h] at hs
    cases hs
  rw [sortFanout_eq_meet h, Option.map_eq_some_iff] at hs
  obtain ⟨p, hp, rfl⟩ := hs
  exact visited_of_foldlM_meet hp

end Fanout

section Uses

variable {ntk : TechnologyNetwork} {V : FanoutView ntk} {n m k g c fon out : ℕ}

/-- The creation functions store no fan-ins for constants and inputs. -/
def SourcesStored (ntk : TechnologyNetwork) : Prop :=
  ∀ n, ntk.IsSource n → (ntk.node n).children = [] ∧ ntk.isInv n = false

theorem sourcesStored_of_forall_lt (hw : ntk.WellFormed) (h : ∀ n < ntk.size, ntk.IsSource n →
    (ntk.node n).children = [] ∧ ntk.isInv n = false) : SourcesStored ntk := by
  intro n hn
  refine h n ?_ hn
  rcases hn with hn | hn
  · exact hn.trans_lt hw.two_le_size
  · exact (hw.input n hn).2

/-- Only fan-out nodes are used more than once. -/
structure SingleUses (ntk : TechnologyNetwork) : Prop where
  built : InverterBalancing.Built ntk
  sources : SourcesStored ntk
  uses : ∀ n, 2 ≤ n → n < ntk.size → ntk.isFanout n = false → ntk.fanoutSize n ≤ 1

theorem singleUses_of_isFanoutSubstituted {ps : FanoutSubstitution.FanoutSubstitutionParams}
    (hb : InverterBalancing.Built ntk) (hsrc : SourcesStored ntk) (hps : ps.threshold = 1)
    (hs : FanoutSubstitution.isFanoutSubstituted ntk ps = true) : SingleUses ntk where
  built := hb
  sources := hsrc
  uses n h2 hlt hfo := by
    have hn := List.all_eq_true.mp hs n (List.mem_range.mpr hlt)
    have hc : TechnologyNetwork.isConstant n = false := decide_eq_false (by omega)
    rw [FanoutSubstitution.isNodeSubstituted, hc, hfo, if_neg Bool.false_ne_true,
      if_neg Bool.false_ne_true, decide_eq_true_eq, hps] at hn
    exact hn

theorem fanouts_eq_singleton (h : ntk.fanoutSize n ≤ 1) (hg : g ∈ V.fanouts n) :
    V.fanouts n = [g] := by
  have hall : ∀ g' ∈ V.fanouts n, g' = g := by
    intro g' hg'
    by_contra hne
    have hlt : ∀ x ∈ [g, g'], x < ntk.size := by
      intro x hx
      rcases List.mem_pair.mp hx with rfl | rfl
      · exact (mem_creationOrder.mp (V.mem_fanouts_iff.mp hg).1).1
      · exact (mem_creationOrder.mp (V.mem_fanouts_iff.mp hg').1).1
    have hsum := sum_map_gates_le ntk (List.nodup_cons.mpr
      ⟨fun h => hne (List.mem_singleton.mp h).symm, List.nodup_singleton _⟩) hlt
      fun x => x.children.countP fun c => c = n
    have hpos : ∀ x ∈ V.fanouts n, 0 < (ntk.node x).children.countP fun c => c = n := by
      intro x hx
      exact List.countP_pos_iff.mpr ⟨n, (V.mem_fanouts_iff.mp hx).2, by simp⟩
    have h₁ := hpos g hg
    have h₂ := hpos g' hg'
    rw [TechnologyNetwork.fanoutSize, numUses] at h
    simp only [List.map_cons, List.map_nil, List.sum_cons, List.sum_nil] at hsum
    omega
  have hnd := V.nodup n
  cases hf : V.fanouts n with
  | nil => rw [hf] at hg; cases hg
  | cons x l =>
    cases l with
    | nil => rw [hall x (by rw [hf]; exact List.mem_singleton_self x)]
    | cons y l =>
      have hx := hall x (by rw [hf]; simp)
      have hy := hall y (by rw [hf]; simp)
      rw [hf, hx, hy] at hnd
      simp at hnd

theorem SingleUses.gate (h : SingleUses ntk) (hc : c ∈ (ntk.node g).children) :
    g ∈ ntk.creationOrder := by
  refine mem_creationOrder.mpr ⟨(child_lt h.built hc).2, fun hsrc => ?_⟩
  rw [(h.sources g hsrc).1] at hc
  cases hc

theorem SingleUses.length_children (h : SingleUses ntk) (hg : g ∈ ntk.creationOrder) :
    (ntk.node g).children.length = (ntk.node g).function.numVars := by
  obtain ⟨hlt, hns⟩ := mem_creationOrder.mp hg
  obtain ⟨h2, hni⟩ := not_or.mp hns
  exact h.built.functionsFit g (not_le.mp h2) hlt hni

theorem SingleUses.children_of_single (h : SingleUses ntk) (hg : g ∈ ntk.creationOrder)
    (hf : ntk.isInv g = true ∨ ntk.isFanout g = true) (hc : c ∈ (ntk.node g).children) :
    (ntk.node g).children = [c] := by
  have hone : (ntk.node g).function.numVars = 1 := by
    rcases hf with hf | hf
    · rw [show (ntk.node g).function = .not from of_decide_eq_true hf]
      rfl
    · have hbuf : ntk.isBuf g = true := (of_decide_eq_true hf).1
      rw [show (ntk.node g).function = .identity from (of_decide_eq_true hbuf).1]
      rfl
  obtain ⟨d, hd⟩ := List.length_eq_one_iff.mp ((h.length_children hg).trans hone)
  rw [hd, List.mem_singleton] at hc
  rw [hd, hc]

theorem not_isFanout_of_isInv (h : ntk.isInv n = true) : ntk.isFanout n = false := by
  refine decide_eq_false fun hfo => ?_
  have hbuf : ntk.isBuf n = true := hfo.1
  have hid := (of_decide_eq_true hbuf).1
  rw [show (ntk.node n).function = .not from of_decide_eq_true h] at hid
  cases hid

theorem not_isFanout_of_mem_inputs (h : n ∈ ntk.inputs) : ntk.isFanout n = false := by
  refine decide_eq_false fun hfo => ?_
  have hbuf : ntk.isBuf n = true := hfo.1
  exact (of_decide_eq_true hbuf).2 (List.contains_iff_mem.mpr h)

theorem SingleUses.fanouts_eq (h : SingleUses ntk) (hfo : ntk.isFanout n = false)
    (h2 : 2 ≤ n) (hg : g ∈ V.fanouts n) : V.fanouts n = [g] := by
  have hlt := child_lt h.built (V.mem_fanouts_iff.mp hg).2
  exact fanouts_eq_singleton (h.uses n h2 (hlt.1.trans hlt.2) hfo) hg

theorem skipInverter_of_isInv (hinv : ntk.isInv fon = true) (hf : V.fanouts fon = [g]) :
    skipInverter V fon = g := by
  rw [skipInverter, if_pos hinv, hf]
  rfl

theorem skipInverter_of_not_isInv (hinv : ntk.isInv fon = false) : skipInverter V fon = fon := by
  rw [skipInverter, hinv, if_neg Bool.false_ne_true]

theorem mem_foldl_cons (l l' : List ℕ) :
    out ∈ l.foldl (fun output g => g :: output) l' ↔ out ∈ l ∨ out ∈ l' := by
  rw [List.foldl_flip_cons_eq_append', List.mem_append, List.mem_reverse]

theorem mem_gatherOutputs (h : out ∈ gatherOutputs V n) :
    (out ∈ V.fanouts n ∧ ntk.isFanout out = false ∧ ntk.isInv out = false) ∨
      ∃ i ∈ V.fanouts n, ntk.isInv i = true ∧ out ∈ V.fanouts i := by
  refine List.foldlRecOn (motive := fun output => out ∈ output → _) (V.fanouts n) _
    (fun h => absurd h List.not_mem_nil) (fun output ih fon hfon h => ?_) h
  split_ifs at h with hfo hinv
  · exact ih h
  · rcases (mem_foldl_cons _ _).mp h with h | h
    · exact .inr ⟨fon, hfon, hinv, h⟩
    · exact ih h
  · rcases List.mem_append.mp h with h | h
    · exact ih h
    · obtain rfl := List.mem_singleton.mp h
      exact .inl ⟨hfon, Bool.eq_false_iff.mpr hfo, Bool.eq_false_iff.mpr hinv⟩

/-- Where an output node of the fan-out `fon` comes from. -/
inductive OutputOf (V : FanoutView ntk) (fon out : ℕ) : Prop
  | direct (hout : out = fon) (hfo : ntk.isFanout out = false) (hinv : ntk.isInv out = false)
  | unused (hout : out = fon) (hinv : ntk.isInv fon = true)
  | inverted (hinv : ntk.isInv fon = true) (hout : out ∈ V.fanouts fon)
    (hfo : ntk.isFanout out = false)
  | shared (n : ℕ) (hn : ntk.isFanout n = true) (hout : out ∈ V.fanouts n)
    (hfo : ntk.isFanout out = false) (hinv : ntk.isInv out = false)
  | sharedInverted (n i : ℕ) (hn : ntk.isFanout n = true) (hi : i ∈ V.fanouts n)
    (hinv : ntk.isInv i = true) (hout : out ∈ V.fanouts i)

theorem skipInverter_cases : skipInverter V fon = fon ∨
    ntk.isInv fon = true ∧ skipInverter V fon ∈ V.fanouts fon := by
  unfold skipInverter
  split_ifs with hinv
  · induction V.fanouts fon using List.reverseRecOn with
    | nil => exact .inl rfl
    | append_singleton l g _ =>
      rw [List.foldl_append]
      exact .inr ⟨hinv, List.mem_append_right _ (List.mem_singleton_self g)⟩
  · exact .inl rfl

theorem outputOf_of_mem (h : out ∈ outputNodes V fon) : OutputOf V fon out := by
  unfold outputNodes at h
  split_ifs at h with hfo
  · rcases mem_gatherOutputs h with ⟨hout, hfo', hinv⟩ | ⟨i, hi, hinv, hout⟩
    · exact .shared _ hfo hout hfo' hinv
    · exact .sharedInverted _ i hfo hi hinv hout
  · rw [Bool.not_eq_true] at hfo
    rw [List.mem_singleton] at h
    rw [← h] at hfo
    by_cases hinv : ntk.isInv fon = true
    · rcases @skipInverter_cases ntk V fon with heq | ⟨-, hmem⟩
      · exact .unused (h.trans heq) hinv
      · exact .inverted hinv (h ▸ hmem) hfo
    · rw [Bool.not_eq_true] at hinv
      rw [skipInverter_of_not_isInv hinv] at h
      exact .direct h hfo (h ▸ hinv)

theorem ignoreInverter_cases {fi x : ℕ} (h : ignoreInverter ntk fi = some x) :
    ntk.isInv fi = false ∧ fi = x ∨ ntk.isInv fi = true ∧ x ∈ (ntk.node fi).children := by
  unfold ignoreInverter at h
  split_ifs at h with hinv
  · rw [Option.bind_eq_bind, Option.bind_eq_some_iff] at h
    obtain ⟨fc, hfc, h⟩ := h
    unfold faninNodes at hfc
    dsimp only at hfc
    split_ifs at hfc
    obtain rfl := Option.some.inj hfc
    exact .inr ⟨hinv, List.mem_of_mem_filter (List.mem_of_getElem? h)⟩
  · exact .inl ⟨Bool.eq_false_iff.mpr hinv, Option.some.inj h⟩

/-- A gate that reads an input, perhaps through an inverter, is no fan-out node. -/
theorem SingleUses.not_isFanout_of_mem_outputNodes (h : SingleUses ntk) {fi : ℕ}
    (hout : OutputOf V fon out) (hfi : fi ∈ (ntk.node out).children)
    (hres : ignoreInverter ntk fi = some n) (hn : n ∈ ntk.inputs) : ntk.isFanout out = false := by
  cases hout with
  | direct _ hfo => exact hfo
  | unused heq hinv => exact not_isFanout_of_isInv (heq ▸ hinv)
  | inverted _ _ hfo => exact hfo
  | shared _ _ _ hfo => exact hfo
  | sharedInverted f i hf hi hinv hmem =>
    rw [← Bool.not_eq_true]
    intro hfo
    -- the buffer reads the inverter, which reads a fan-out node
    have hchildren := h.children_of_single (h.gate hfi) (.inr hfo) (V.mem_fanouts_iff.mp hmem).2
    rw [hchildren, List.mem_singleton] at hfi
    subst hfi
    rcases ignoreInverter_cases hres with ⟨hni, -⟩ | ⟨-, hchild⟩
    · exact Bool.false_ne_true (hni.symm.trans hinv)
    · have hsingle := h.children_of_single (h.gate hchild) (.inl hinv) (V.mem_fanouts_iff.mp hi).2
      rw [hsingle, List.mem_singleton] at hchild
      subst hchild
      exact Bool.false_ne_true ((not_isFanout_of_mem_inputs hn).symm.trans hf)

/-- A gate that reads an input that another one meets directly is no inverter. -/
theorem SingleUses.not_isInv_of_mem_outputNodes (h : SingleUses ntk) (hout : OutputOf V fon out)
    (hk : k ∈ (ntk.node fon).children) (hnk : n ≠ k) (hmem : n ∈ (ntk.node out).children)
    (hn : ntk.isInv n = false) : ntk.isInv out = false := by
  have hbehind : ∀ i, ntk.isInv i = true → out ∈ V.fanouts i → ntk.isInv out = false := by
    intro i hi hout
    rw [← Bool.not_eq_true]
    intro hinv
    have hchildren := h.children_of_single (h.gate hmem) (.inl hinv) (V.mem_fanouts_iff.mp hout).2
    rw [hchildren, List.mem_singleton] at hmem
    exact Bool.false_ne_true (hn.symm.trans (hmem ▸ hi))
  cases hout with
  | direct _ _ hinv => exact hinv
  | unused heq hinv =>
    rw [heq] at hmem
    rw [h.children_of_single (h.gate hk) (.inl hinv) hk, List.mem_singleton] at hmem
    exact absurd hmem hnk
  | inverted hinv hmem => exact hbehind fon hinv hmem
  | shared _ _ _ _ hinv => exact hinv
  | sharedInverted f i _ _ hinv hmem => exact hbehind i hinv hmem

/-- The gate where an input is met is behind the only fan-out of the input itself. -/
theorem SingleUses.fanouts_of_met (h : SingleUses ntk) {fi : ℕ} (hk : k ∈ (ntk.node fon).children)
    (hof : OutputOf V fon out) (hfi : fi ∈ (ntk.node out).children)
    (hres : ignoreInverter ntk fi = some n) (hn : n ∈ ntk.inputs) (hnk : n ≠ k) :
    ∃ fon', V.fanouts n = [fon'] ∧ skipInverter V fon' = out := by
  have h2 := (h.built.wellFormed.input n hn).1
  have hfon : out ∈ V.fanouts fi := V.mem_fanouts_iff.mpr ⟨h.gate hfi, hfi⟩
  rcases ignoreInverter_cases hres with ⟨hni, rfl⟩ | ⟨hinv, hchild⟩
  · refine ⟨out, h.fanouts_eq (not_isFanout_of_mem_inputs hn) h2 hfon, ?_⟩
    exact skipInverter_of_not_isInv (h.not_isInv_of_mem_outputNodes hof hk hnk hfi hni)
  · have hfi2 : 2 ≤ fi := h2.trans (child_lt h.built hchild).1.le
    have hsingle := h.fanouts_eq (not_isFanout_of_isInv hinv) hfi2 hfon
    exact ⟨fi, h.fanouts_eq (not_isFanout_of_mem_inputs hn) h2
      (V.mem_fanouts_iff.mpr ⟨h.gate hchild, hchild⟩), skipInverter_of_isInv hinv hsingle⟩

/-- The gate where an input is met is the only output node of the input itself. -/
theorem SingleUses.outputNodes_eq (h : SingleUses ntk) {fi : ℕ} (hk : k ∈ (ntk.node fon).children)
    (hout : out ∈ outputNodes V fon) (hfi : fi ∈ (ntk.node out).children)
    (hres : ignoreInverter ntk fi = some n) (hn : n ∈ ntk.inputs) (hnk : n ≠ k) :
    ∃ fon', V.fanouts n = [fon'] ∧ outputNodes V fon' = [out] := by
  have hof := outputOf_of_mem hout
  have hfo := h.not_isFanout_of_mem_outputNodes hof hfi hres hn
  obtain ⟨fon', hfon', hskip⟩ := h.fanouts_of_met hk hof hfi hres hn hnk
  refine ⟨fon', hfon', ?_⟩
  rw [outputNodes, hskip, hfo, if_neg Bool.false_ne_true]

theorem mem_inspected : c ∈ inspected V fon ↔
    ∃ out ∈ outputNodes V fon, c ∈ (ntk.node out).children := List.mem_flatMap

theorem mem_neighbours : c ∈ neighbours V n fon ↔
    (∃ fi ∈ inspected V fon, ignoreInverter ntk fi = some c) ∧ c ≠ n := by
  rw [neighbours, List.mem_filter, List.mem_filterMap, decide_eq_true_eq]

theorem mem_queued : m ∈ queued V n ↔
    ∃ fon ∈ V.fanouts n, ∃ x ∈ neighbours V n fon, m ∈ touched ntk n fon x := by
  simp only [queued, List.mem_flatMap]

theorem SingleUses.queued_subset (h : SingleUses ntk) (hn : n ∈ ntk.inputs) (hnk : n ≠ k)
    (hq : n ∈ queued V k) : ∀ m ∈ queued V n, m ∈ queued V k := by
  obtain ⟨fon, hfon, x, hx, htouched⟩ := mem_queued.mp hq
  have hkind : isMajority ntk fon = false ∧ ntk.isCi x = true ∧ n = x := by
    unfold touched at htouched
    split_ifs at htouched with hmaj hci
    · exact absurd (List.mem_singleton.mp htouched) hnk
    · exact ⟨Bool.eq_false_iff.mpr hmaj, hci,
        List.mem_singleton.mp ((List.mem_cons.mp htouched).resolve_left hnk)⟩
    · exact absurd htouched List.not_mem_nil
  obtain ⟨hmaj, hci, rfl⟩ := hkind
  obtain ⟨⟨fi, hfi, hres⟩, -⟩ := mem_neighbours.mp hx
  obtain ⟨out, hout, hfi⟩ := mem_inspected.mp hfi
  obtain ⟨fon', hfon', hout'⟩ :=
    h.outputNodes_eq (V.mem_fanouts_iff.mp hfon).2 hout hfi hres hn hnk
  have hk : k ∈ queued V k := by
    refine mem_queued.mpr ⟨fon, hfon, n, hx, ?_⟩
    rw [touched, hmaj, if_neg Bool.false_ne_true, if_pos hci]
    exact List.mem_cons_self
  intro m hm
  obtain ⟨fon'', hfon'', y, hy, htouched⟩ := mem_queued.mp hm
  rw [hfon', List.mem_singleton] at hfon''
  subst hfon''
  unfold touched at htouched
  split_ifs at htouched with hmaj' hci'
  · rw [List.mem_singleton.mp htouched]
    exact hq
  · rcases List.mem_cons.mp htouched with rfl | hmy
    · exact hq
    · obtain rfl := List.mem_singleton.mp hmy
      by_cases hmk : m = k
      · exact hmk ▸ hk
      · obtain ⟨⟨fi', hfi', hres'⟩, -⟩ := mem_neighbours.mp hy
        obtain ⟨out', hout'', hfi'⟩ := mem_inspected.mp hfi'
        rw [hout', List.mem_singleton] at hout''
        refine mem_queued.mpr ⟨fon, hfon, m, mem_neighbours.mpr
          ⟨⟨fi', mem_inspected.mpr ⟨out, hout, hout'' ▸ hfi'⟩, hres'⟩, hmk⟩, ?_⟩
        rw [touched, hmaj, if_neg Bool.false_ne_true, if_pos hci']
        exact List.mem_cons_of_mem _ (List.mem_singleton_self m)
  · exact absurd htouched List.not_mem_nil

end Uses

section Runs

variable {ntk : TechnologyNetwork} {V : FanoutView ntk} {s s' : WaitState} {n : ℕ} {pre : List ℕ}

/-- The inputs `pre` have been sorted. -/
structure Sorted (V : FanoutView ntk) (pre : List ℕ) (s : WaitState) : Prop where
  sorting : Sorting ntk s
  visited : ∀ m, s.visited m = true ↔ m ≤ 1 ∨ ∃ k ∈ pre, m ∈ queued V k

theorem sorted_nil : Sorted V [] initialState where
  sorting := sorting_initialState
  visited m := by
    rw [visited_initialState, mem_constants]
    exact ⟨.inl, fun h => h.elim id fun ⟨_, hk, _⟩ => absurd hk List.not_mem_nil⟩

theorem SingleUses.fanouts_cases (h : SingleUses ntk) (hn : n ∈ ntk.inputs) :
    V.fanouts n = [] ∨ ∃ fon, V.fanouts n = [fon] := by
  match hf : V.fanouts n with
  | [] => exact .inl rfl
  | g :: l =>
    have hg : g ∈ V.fanouts n := hf ▸ List.mem_cons_self
    have heq := h.fanouts_eq (not_isFanout_of_mem_inputs hn) (h.built.wellFormed.input n hn).1 hg
    exact .inr ⟨g, hf.symm.trans heq⟩

theorem inputSort_of_singleton {fon : ℕ} (hf : V.fanouts n = [fon]) (s : WaitState) :
    inputSort V s n = sortFanout V n s fon := by
  rw [inputSort, hf, List.foldlM_cons]
  exact bind_pure _

theorem Sorted.sortCi (hs : Sorted V pre s) (h : SingleUses ntk) (hn : n ∈ ntk.inputs)
    (hpre : n ∉ pre) (hrun : sortCi V s n = some s') : Sorted V (pre ++ [n]) s' where
  sorting := hs.sorting.sortCi hn hrun
  visited m := by
    have hlast : (∃ k ∈ pre ++ [n], m ∈ queued V k) ↔
        (∃ k ∈ pre, m ∈ queued V k) ∨ m ∈ queued V n := by
      simp only [List.mem_append, List.mem_singleton, or_and_right, exists_or, exists_eq_left]
    rw [hlast, ← or_assoc, ← hs.visited]
    unfold TopoViewInputSort.sortCi at hrun
    split_ifs at hrun with hv
    · -- an earlier input has visited whatever this one would
      obtain rfl := Option.some.inj hrun
      refine ⟨.inl, fun hm => hm.elim id fun hm => ?_⟩
      have h2 := (h.built.wellFormed.input n hn).1
      obtain ⟨k, hk, hq⟩ := ((hs.visited n).mp hv).resolve_left (by omega)
      have hnk : n ≠ k := fun heq => hpre (heq ▸ hk)
      exact (hs.visited m).mpr (.inr ⟨k, hk, h.queued_subset hn hnk hq m hm⟩)
    · rcases h.fanouts_cases hn with hf | ⟨fon, hf⟩
      · rw [inputSort, hf] at hrun
        obtain rfl := Option.some.inj hrun
        rw [queued, hf]
        exact ⟨.inl, fun hm => hm.elim id fun hm => absurd hm List.not_mem_nil⟩
      · rw [inputSort_of_singleton hf] at hrun
        rw [visited_of_sortFanout hrun, queued, hf, List.flatMap_singleton]

theorem isMajority_eq_false {fon : ℕ} (hfo : ntk.isFanout (skipInverter V fon) = true) :
    isMajority ntk fon = false := by
  have hmaj : ntk.isMaj fon = false := by
    rw [← Bool.not_eq_true]
    intro hmaj
    have hfun : (ntk.node fon).function = .maj := of_decide_eq_true hmaj
    rcases @skipInverter_cases ntk V fon with heq | ⟨hinv, -⟩
    · rw [heq] at hfo
      have hbuf : ntk.isBuf fon = true := (of_decide_eq_true hfo).1
      have hid := (of_decide_eq_true hbuf).1
      rw [hfun] at hid
      cases hid
    · rw [show (ntk.node fon).function = .not from of_decide_eq_true hinv] at hfun
      cases hfun
  rw [isMajority, hmaj, Bool.false_and]

theorem Sorted.exists_sortCi_iff (hs : Sorted V pre s) (h : SingleUses ntk)
    (hn : n ∈ ntk.inputs) : (∃ s', TopoViewInputSort.sortCi V s n = some s') ↔
      ((∀ m ∈ pre, n ∉ queued V m) → ∀ fon ∈ V.fanouts n, Sortable V pre n fon) := by
  have h2 := (h.built.wellFormed.input n hn).1
  have hvisited : ∀ c, s.visited c = false ↔ ¬ c ≤ 1 ∧ ∀ m ∈ pre, c ∉ queued V m := by
    intro c
    rw [← Bool.not_eq_true, hs.visited, not_or]
    simp only [not_exists, not_and]
  unfold TopoViewInputSort.sortCi
  by_cases hv : s.visited n = true
  · rw [if_pos hv]
    refine iff_of_true ⟨s, rfl⟩ fun hq => ?_
    have hnot := (hvisited n).mpr ⟨by omega, hq⟩
    exact absurd (hnot.symm.trans hv) Bool.false_ne_true
  · rw [if_neg hv]
    rw [Bool.not_eq_true] at hv
    have hwait : n ∉ s.wait := fun hmem => by
      have := (hs.sorting.visited n).mpr (List.mem_append_right _ (List.mem_append_left _ hmem))
      exact Bool.false_ne_true (hv.symm.trans this)
    rw [imp_iff_right ((hvisited n).mp hv).2]
    rcases h.fanouts_cases hn with hf | ⟨fon, hf⟩
    · rw [inputSort, hf]
      exact iff_of_true ⟨s, rfl⟩ fun fon hfon => absurd hfon List.not_mem_nil
    · rw [inputSort_of_singleton hf, hf, exists_sortFanout_iff hv hwait isMajority_eq_false]
      have hhead : (∀ c ∈ (neighbourCis V n fon).head?, s.visited c = false) ↔
          ∀ c ∈ (neighbourCis V n fon).head?, ∀ m ∈ pre, c ∉ queued V m := by
        refine forall₂_congr fun c hc => ?_
        rw [hvisited, and_iff_right]
        have hci := (List.mem_filter.mp (List.mem_of_mem_head? hc)).2
        have hc2 := (h.built.wellFormed.input c (List.contains_iff_mem.mp hci)).1
        omega
      rw [hhead]
      constructor
      · intro hok fon' hfon'
        obtain rfl := List.mem_singleton.mp hfon'
        exact ⟨hok.1, hok.2⟩
      · intro hok
        have := hok fon (List.mem_singleton_self fon)
        exact ⟨this.found, this.pairs⟩

theorem mem_of_inputs_eq {suf : List ℕ} (h : SingleUses ntk) (heq : ntk.inputs = pre ++ n :: suf) :
    n ∈ ntk.inputs ∧ n ∉ pre := by
  have hnd := h.built.wellFormed.inputs_nodup
  rw [heq, List.nodup_append] at hnd
  refine ⟨heq ▸ List.mem_append_right _ List.mem_cons_self, fun hmem => ?_⟩
  exact hnd.2.2 n hmem n List.mem_cons_self rfl

theorem sorted_of_foldlM (h : SingleUses ntk) {suf : List ℕ} (heq : ntk.inputs = pre ++ suf)
    (hs : pre.foldlM (sortCi V) initialState = some s) : Sorted V pre s := by
  induction pre using List.reverseRecOn generalizing suf s with
  | nil => exact Option.some.inj hs ▸ sorted_nil
  | append_singleton pre n ih =>
    rw [List.append_assoc] at heq
    rw [List.foldlM_append, Option.bind_eq_bind, Option.bind_eq_some_iff] at hs
    obtain ⟨s₁, hs₁, hs⟩ := hs
    rw [List.foldlM_cons, Option.bind_eq_bind, Option.bind_eq_some_iff] at hs
    obtain ⟨s₂, hs₂, hs⟩ := hs
    obtain rfl := Option.some.inj hs
    obtain ⟨hn, hpre⟩ := mem_of_inputs_eq h heq
    exact (ih heq hs₁).sortCi h hn hpre hs₂

theorem exists_foldlM_sortCi_iff (h : SingleUses ntk) :
    (∃ s, ntk.inputs.foldlM (sortCi V) initialState = some s) ↔ InputsSortable V := by
  constructor
  · rintro ⟨s, hs⟩ i hi
    have heq : ntk.inputs = ntk.inputs.take i ++ ntk.inputs[i] :: ntk.inputs.drop (i + 1) := by
      rw [List.getElem_cons_drop, List.take_append_drop]
    rw [heq, List.foldlM_append, Option.bind_eq_bind, Option.bind_eq_some_iff] at hs
    obtain ⟨s₁, hs₁, hs⟩ := hs
    rw [List.foldlM_cons, Option.bind_eq_bind, Option.bind_eq_some_iff] at hs
    obtain ⟨s₂, hs₂, -⟩ := hs
    have hn := (mem_of_inputs_eq h heq).1
    exact ((sorted_of_foldlM h heq hs₁).exists_sortCi_iff h hn).mp ⟨s₂, hs₂⟩
  · intro hall
    have hstep : ∀ pre n suf s, ntk.inputs = pre ++ n :: suf → Sorted V pre s →
        ∃ s', sortCi V s n = some s' ∧ Sorted V (pre ++ [n]) s' := by
      intro pre n suf s heq hs
      obtain ⟨hn, hpre⟩ := mem_of_inputs_eq h heq
      have hi : pre.length < ntk.inputs.length := by
        rw [heq, List.length_append]
        exact Nat.lt_add_of_pos_right (Nat.succ_pos _)
      have hget : ntk.inputs[pre.length] = n := by
        simp only [heq, List.getElem_append_right le_rfl, Nat.sub_self, List.getElem_cons_zero]
      have htake : ntk.inputs.take pre.length = pre := by rw [heq, List.take_left]
      have hok := hall pre.length hi
      rw [hget, htake] at hok
      obtain ⟨s', hs'⟩ := (hs.exists_sortCi_iff h hn).mpr hok
      exact ⟨s', hs', hs.sortCi h hn hpre hs'⟩
    obtain ⟨s, hs, -⟩ := exists_foldlM hstep sorted_nil
    exact ⟨s, hs⟩

/-- The order is computed, and as documented, iff every input can be sorted in its turn. -/
theorem updateTopo_iff (ntk : TechnologyNetwork) (hb : InverterBalancing.Built ntk)
    (hsrc : SourcesStored ntk) (ps : FanoutSubstitution.FanoutSubstitutionParams)
    (hps : ps.threshold = 1) (hs : FanoutSubstitution.isFanoutSubstituted ntk ps = true)
    (V : FanoutView ntk) :
    (∃ order, updateTopo V = some order ∧ ∃ cis gates, InputSorted ntk cis gates order) ↔
      InputsSortable V :=
  (exists_updateTopo_iff hb).trans
    (exists_foldlM_sortCi_iff (singleUses_of_isFanoutSubstituted hb hsrc hps hs))

/-- An input with a fan-out node in front of two gates that read another input each. -/
def sharedInput : TechnologyNetwork :=
  let (ntk, a) := empty.createPi
  let (ntk, b) := ntk.createPi
  let (ntk, c) := ntk.createPi
  let (ntk, f) := ntk.createBuf a
  let (ntk, g) := ntk.createAnd f b
  let (ntk, h) := ntk.createAnd f c
  (ntk.createPo g).createPo h

example : updateTopo sharedInput.fanoutView = some [0, 1, 2, 4, 3, 5, 6, 7] := by decide

theorem updateTopo_sharedInput : ∃ order, updateTopo sharedInput.fanoutView = some order ∧
    ∃ cis gates, InputSorted sharedInput cis gates order := by
  have hw : sharedInput.WellFormed :=
    wellFormed_of_forall_lt (by decide) (by decide) (by decide) (by decide) (by decide) (by decide)
      (by decide)
  have hb := InverterBalancing.built_of_forall_lt hw (by decide) (by decide) (by decide) (by decide)
  have hsrc := sourcesStored_of_forall_lt hw (by decide)
  apply (updateTopo_iff sharedInput hb hsrc {} rfl (by decide) _).mpr
  unfold InputsSortable
  decide

/-- An input with a fan-out node in front of two majority gates that read two other inputs each. -/
def sharedMajorities : TechnologyNetwork :=
  let (ntk, a) := empty.createPi
  let (ntk, b) := ntk.createPi
  let (ntk, c) := ntk.createPi
  let (ntk, d) := ntk.createPi
  let (ntk, e) := ntk.createPi
  let (ntk, f) := ntk.createBuf a
  let (ntk, g) := ntk.createMaj f b c
  let (ntk, h) := ntk.createMaj f d e
  (ntk.createPo g).createPo h

theorem updateTopo_sharedMajorities :
    FanoutSubstitution.isFanoutSubstituted sharedMajorities {} = true ∧
      updateTopo sharedMajorities.fanoutView = none := by
  constructor <;> decide

end Runs

end Fiction.TopoViewInputSort
