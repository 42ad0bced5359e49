import Fiction.Networks.InputSortView

/-!
# When the nodes are sorted

In a fan-out substituted network, the inputs that are listed in their turn are never queued. All
others are listed before the first gate iff an input in front of the gates queues them.
-/

namespace Fiction.InputSortView

open TechnologyNetwork TopoViewInputSort

section Turns

variable {ntk : TechnologyNetwork} {V : FanoutView ntk} {travId : UInt32} {s s' : SortState} {n : ℕ}

/-- What is looked at in the turn of an input is there. -/
def TurnFound (V : FanoutView ntk) (n : ℕ) : Prop :=
  ∀ fon ∈ V.fanouts n, ∀ fi ∈ inspected V fon, FaninFound ntk fi

theorem exists_turn_iff (s : SortState) :
    (∃ s', (V.fanouts n).foldlM (sortFanout V travId n) s = some s') ↔ TurnFound V n := by
  have hfon : ∀ s fon, (∃ s', sortFanout V travId n s fon = some s') ↔
      ∀ fi ∈ inspected V fon, FaninFound ntk fi := fun s fon => exists_sortFanout_iff s
  exact exists_foldlM_iff hfon

theorem queues_turn (h : SingleUses ntk) (hn : n ∈ ntk.inputs)
    (hrun : (V.fanouts n).foldlM (sortFanout V travId n) s = some s') :
    Queues travId
      { s with topoOrder := s.topoOrder ++ if isDirect V n then [n] else [] } s'
      (touches V n) := by
  rw [isDirect, touches]
  rcases h.fanouts_cases hn with hf | ⟨fon, hf⟩
  · rw [hf] at hrun ⊢
    obtain rfl := Option.some.inj hrun
    rw [List.any_nil, if_neg Bool.false_ne_true, List.append_nil]
    exact .refl
  · rw [hf, List.foldlM_cons] at hrun
    obtain ⟨s₁, h₁, hrun⟩ := Option.bind_eq_some_iff.mp hrun
    obtain rfl := Option.some.inj hrun
    have hturn := queues_sortFanout h₁
    rw [hf, List.any_cons, List.any_nil, Bool.or_false, List.flatMap_singleton]
    unfold pushDirect at hturn
    split_ifs at hturn ⊢
    · exact hturn
    · rw [List.append_nil]
      exact hturn

/-- The nodes that are listed in their turn. -/
def isListed (V : FanoutView ntk) (n : ℕ) : Bool :=
  isConstant n || !ntk.isCi n || isDirect V n

/-- The order before and after the first gate. -/
def Ordered (V : FanoutView ntk) (pre : List ℕ) (s : SortState) : Prop :=
  (s.pushedPis = false ∧ (∀ m ∈ pre, ntk.IsSource m) ∧ s.topoOrder = pre.filter (isListed V)) ∨
    s.pushedPis = true ∧ ∃ pre₁ g pre₂ wait, pre = pre₁ ++ g :: pre₂ ∧
      (∀ m ∈ pre₁, ntk.IsSource m) ∧ ¬ ntk.IsSource g ∧ wait.Nodup ∧
      (∀ x, x ∈ wait ↔ ∃ m ∈ pre₁, m ∈ ntk.inputs ∧ x ∈ touches V m) ∧
      s.topoOrder = pre₁.filter (isListed V) ++ (wait ++ (g :: pre₂).filter (isListed V))

/-- The nodes `pre` have had their turns, and no input had been visited before. -/
structure Reached (V : FanoutView ntk) (travId : UInt32) (pre : List ℕ) (s : SortState) :
    Prop where
  unvisited : ∀ x ∈ ntk.inputs, isUnvisited travId s x = true ↔
    ∀ m ∈ pre, m ∈ ntk.inputs → x ∉ touches V m
  nodup : s.wait.Nodup
  mem_wait : ∀ x, x ∈ s.wait ↔ ∃ m ∈ pre, m ∈ ntk.inputs ∧ x ∈ touches V m
  numC : s.numC = pre.countP isConstant
  ordered : Ordered V pre s

theorem reached_nil {visited : ℕ → UInt32}
    (h : ∀ x ∈ ntk.inputs, isUnvisited travId ⟨[], [], visited, 0, false⟩ x = true) :
    Reached V travId [] ⟨[], [], visited, 0, false⟩ where
  unvisited x hx := iff_of_true (h x hx) fun _ hm => absurd hm List.not_mem_nil
  nodup := List.nodup_nil
  mem_wait x := by simp
  numC := rfl
  ordered := .inl ⟨rfl, fun _ hm => absurd hm List.not_mem_nil, rfl⟩

/-- A node that is listed, or not, in its turn. -/
theorem Ordered.source {pre : List ℕ} (h : Ordered V pre s) (hn : ntk.IsSource n)
    (hp : s'.pushedPis = s.pushedPis)
    (ho : s'.topoOrder = s.topoOrder ++ if isListed V n then [n] else []) :
    Ordered V (pre ++ [n]) s' := by
  have hfilter : ∀ l : List ℕ, (l ++ [n]).filter (isListed V) =
      l.filter (isListed V) ++ if isListed V n then [n] else [] := by
    intro l
    rw [List.filter_append]
    cases hl : isListed V n <;> simp [hl]
  rcases h with ⟨hnot, hsource, horder⟩ |
    ⟨hpushed, pre₁, g, pre₂, wait, rfl, h₁, hg, hnd, hw, horder⟩
  · refine .inl ⟨hp.trans hnot, fun m hm => ?_, by rw [hfilter, ho, horder]⟩
    rcases List.mem_append.mp hm with hm | hm
    · exact hsource m hm
    · exact List.mem_singleton.mp hm ▸ hn
  · refine .inr ⟨hp.trans hpushed, pre₁, g, pre₂ ++ [n], wait, by simp, h₁, hg, hnd, hw, ?_⟩
    rw [ho, horder, ← List.cons_append, hfilter, List.append_assoc, List.append_assoc]

theorem isListed_of_not_isSource (hn : ¬ ntk.IsSource n) : isListed V n = true := by
  have hci : ntk.isCi n = false := by
    rw [isCi, ← Bool.not_eq_true, List.contains_iff_mem]
    exact fun hin => hn (.inr hin)
  rw [isListed, hci, Bool.not_false, Bool.or_true, Bool.true_or]

theorem forall_touches_concat {pre : List ℕ} (hn : n ∉ ntk.inputs) (x : ℕ) :
    (∀ m ∈ pre ++ [n], m ∈ ntk.inputs → x ∉ touches V m) ↔
      ∀ m ∈ pre, m ∈ ntk.inputs → x ∉ touches V m := by
  rw [List.forall_mem_append, List.forall_mem_singleton, and_iff_left fun hin => absurd hin hn]

theorem exists_touches_iff {pre : List ℕ} (x : ℕ) :
    (∃ m ∈ pre, m ∈ ntk.inputs ∧ x ∈ touches V m) ↔
      ¬ ∀ m ∈ pre, m ∈ ntk.inputs → x ∉ touches V m := by
  push Not
  rfl

/-- Nodes that are no inputs queue nothing. -/
theorem Reached.keep {pre : List ℕ} (h : Reached V travId pre s) (hn : n ∉ ntk.inputs)
    (hv : ∀ x ∈ ntk.inputs, isUnvisited travId s' x = isUnvisited travId s x)
    (hwait : s'.wait = s.wait) (hnum : s'.numC = s.numC + if isConstant n then 1 else 0)
    (ho : Ordered V (pre ++ [n]) s') : Reached V travId (pre ++ [n]) s' where
  unvisited x hx := by rw [hv x hx, h.unvisited x hx, forall_touches_concat hn]
  nodup := hwait ▸ h.nodup
  mem_wait x := by
    rw [hwait, h.mem_wait, exists_touches_iff, exists_touches_iff, forall_touches_concat hn]
  numC := by
    rw [hnum, h.numC, List.countP_append, List.countP_singleton]
  ordered := ho

theorem Reached.pushGate {pre : List ℕ} (h : Reached V travId pre s) (hn : ¬ ntk.IsSource n) :
    Reached V travId (pre ++ [n]) (pushGate s n) := by
  have hlisted := @isListed_of_not_isSource ntk V n hn
  have hconst : isConstant n = false := decide_eq_false fun hle => hn (.inl hle)
  have hnum : s.numC = s.numC + if isConstant n then 1 else 0 := by
    rw [hconst, if_neg Bool.false_ne_true, Nat.add_zero]
  rcases h.ordered with ⟨hnot, hsource, horder⟩ |
    ⟨hpushed, pre₁, g, pre₂, wait, heq, h₁, hg, hnd, hw, horder⟩
  · have hstate : InputSortView.pushGate s n =
        ⟨s.topoOrder ++ s.wait ++ [n], s.wait, s.visited, s.numC, true⟩ := by
      rw [InputSortView.pushGate, hnot, if_neg Bool.false_ne_true]
    rw [hstate]
    refine h.keep (fun hin => hn (.inr hin)) (fun _ _ => rfl) rfl hnum
      (.inr ⟨rfl, pre, n, [], s.wait, rfl, hsource, hn, h.nodup, h.mem_wait, ?_⟩)
    rw [horder, List.append_assoc]
    simp [hlisted]
  · have hstate : InputSortView.pushGate s n =
        ⟨s.topoOrder ++ [n], s.wait, s.visited, s.numC, s.pushedPis⟩ := by
      rw [InputSortView.pushGate, if_pos hpushed]
    rw [hstate]
    refine h.keep (fun hin => hn (.inr hin)) (fun _ _ => rfl) rfl hnum
      (.inr ⟨hpushed, pre₁, g, pre₂ ++ [n], wait, ?_, h₁, hg, hnd, hw, ?_⟩)
    · rw [heq, List.append_assoc, List.cons_append]
    · rw [horder, List.append_assoc, List.append_assoc, ← List.cons_append, List.filter_append]
      simp [hlisted]

theorem Reached.constant {pre : List ℕ} (hw : ntk.WellFormed) (h : Reached V travId pre s)
    (hn : isConstant n = true) : Reached V travId (pre ++ [n])
      (setVisited travId { s with topoOrder := s.topoOrder ++ [n], numC := s.numC + 1 } n) := by
  have hle : n ≤ 1 := of_decide_eq_true hn
  have hin : n ∉ ntk.inputs := fun hin => by
    have := (hw.input n hin).1
    omega
  have hlisted : isListed V n = true := by rw [isListed, hn, Bool.true_or, Bool.true_or]
  refine h.keep hin (fun x hx => ?_) rfl (by rw [hn, if_pos rfl]; rfl)
    (h.ordered.source (.inl hle) rfl (by rw [hlisted, if_pos rfl]; rfl))
  have hne : x ≠ n := fun he => hin (he ▸ hx)
  rw [Bool.eq_iff_iff, isUnvisited_setVisited, and_iff_left hne]
  rfl

/-- An input that has been queued before queues nothing, and one that has not queues all it can. -/
theorem Reached.input {pre : List ℕ} (hs : SingleUses ntk) (h : Reached V travId pre s)
    (hn : n ∈ ntk.inputs) (hrun : sortNode V travId s n = some s') :
    Reached V travId (pre ++ [n]) s' := by
  have h2 := (hs.built.wellFormed.input n hn).1
  have hconst : isConstant n = false := decide_eq_false (by omega)
  have hci : ntk.isCi n = true := List.contains_iff_mem.mpr hn
  have hlisted : isListed V n = isDirect V n := by
    rw [isListed, hconst, hci, Bool.not_true, Bool.or_false, Bool.false_or]
  have hconcat : ∀ x, (∀ m ∈ pre ++ [n], m ∈ ntk.inputs → x ∉ touches V m) ↔
      (∀ m ∈ pre, m ∈ ntk.inputs → x ∉ touches V m) ∧ x ∉ touches V n := by
    intro x
    rw [List.forall_mem_append, List.forall_mem_singleton, imp_iff_right hn]
  rw [sortNode, hconst, if_neg Bool.false_ne_true, if_pos hci] at hrun
  by_cases hv : isUnvisited travId s n = true
  · rw [if_pos hv] at hrun
    have hq := queues_turn hs hn hrun
    have hwait : ∀ x ∈ s.wait, isUnvisited travId s x = false := by
      intro x hx
      obtain ⟨m, hm, hmin, hx'⟩ := (h.mem_wait x).mp hx
      rw [← Bool.not_eq_true, h.unvisited x (mem_inputs_of_mem_touches hmin hx')]
      exact fun hall => hall m hm hmin hx'
    refine ⟨fun x hx => ?_, hq.nodup h.nodup hwait, fun x => ?_, ?_, ?_⟩
    · rw [hq.unvisited, hconcat, ← h.unvisited x hx]
      rfl
    · rw [hq.mem_wait, exists_touches_iff, hconcat]
      change x ∈ s.wait ∨ isUnvisited travId s x = true ∧ x ∈ touches V n ↔ _
      rw [h.mem_wait, exists_touches_iff]
      constructor
      · rintro (hx | ⟨-, hx⟩) hall
        · exact hx hall.1
        · exact hall.2 hx
      · intro hx
        by_cases hall : ∀ m ∈ pre, m ∈ ntk.inputs → x ∉ touches V m
        · have hmem : x ∈ touches V n := not_not.mp fun hnot => hx ⟨hall, hnot⟩
          exact .inr ⟨(h.unvisited x (mem_inputs_of_mem_touches hn hmem)).mpr hall, hmem⟩
        · exact .inl hall
    · rw [hq.numC, List.countP_append, List.countP_singleton, hconst, if_neg Bool.false_ne_true,
        Nat.add_zero]
      exact h.numC
    · refine h.ordered.source (.inr hn) hq.pushedPis ?_
      rw [hq.topoOrder, hlisted]
  · rw [if_neg hv] at hrun
    obtain rfl := Option.some.inj hrun
    rw [h.unvisited n hn] at hv
    push Not at hv
    obtain ⟨m, hm, hmin, hnm⟩ := hv
    have hsub : touches V n ⊆ touches V m := by
      by_cases hne : n = m
      · rw [hne]
        exact fun _ hx => hx
      · exact touches_subset hs hmin hnm hne
    have hsame : ∀ x, (∀ m ∈ pre ++ [n], m ∈ ntk.inputs → x ∉ touches V m) ↔
        ∀ m ∈ pre, m ∈ ntk.inputs → x ∉ touches V m := by
      intro x
      rw [hconcat]
      exact and_iff_left_of_imp fun hall hx => hall m hm hmin (hsub hx)
    refine ⟨fun x hx => ?_, h.nodup, fun x => ?_, ?_, ?_⟩
    · rw [hsame, h.unvisited x hx]
    · rw [exists_touches_iff, hsame, ← exists_touches_iff, h.mem_wait]
    · rw [h.numC, List.countP_append, List.countP_singleton, hconst, if_neg Bool.false_ne_true,
        Nat.add_zero]
    · refine h.ordered.source (.inr hn) rfl ?_
      rw [hlisted, if_neg (not_isDirect_of_mem_touches hs hmin hnm), List.append_nil]

theorem Reached.sortNode {pre : List ℕ} (hs : SingleUses ntk) (h : Reached V travId pre s)
    (hrun : sortNode V travId s n = some s') : Reached V travId (pre ++ [n]) s' := by
  by_cases hconst : isConstant n = true
  · rw [InputSortView.sortNode, if_pos hconst] at hrun
    obtain rfl := Option.some.inj hrun
    exact h.constant hs.built.wellFormed hconst
  · by_cases hin : n ∈ ntk.inputs
    · exact h.input hs hin hrun
    · have hci : ¬ ntk.isCi n = true := fun hci => hin (List.contains_iff_mem.mp hci)
      rw [InputSortView.sortNode, if_neg hconst, if_neg hci] at hrun
      obtain rfl := Option.some.inj hrun
      refine h.pushGate fun hsource => ?_
      exact hsource.elim (fun hle => hconst (decide_eq_true hle)) hin

theorem Reached.exists_sortNode_iff {pre : List ℕ} (h : Reached V travId pre s) :
    (∃ s', InputSortView.sortNode V travId s n = some s') ↔
      (n ∈ ntk.inputs → isConstant n = false → (∀ m ∈ pre, m ∈ ntk.inputs → n ∉ touches V m) →
        TurnFound V n) := by
  unfold InputSortView.sortNode
  split_ifs with hconst hci hv
  · exact iff_of_true ⟨_, rfl⟩ fun _ hc => absurd hconst (by rw [hc]; exact Bool.false_ne_true)
  · have hin : n ∈ ntk.inputs := List.contains_iff_mem.mp hci
    rw [exists_turn_iff, imp_iff_right hin,
      imp_iff_right (Bool.eq_false_of_not_eq_true hconst),
      imp_iff_right ((h.unvisited n hin).mp hv)]
  · have hin : n ∈ ntk.inputs := List.contains_iff_mem.mp hci
    exact iff_of_true ⟨_, rfl⟩ fun _ _ hall => absurd ((h.unvisited n hin).mpr hall) hv
  · exact iff_of_true ⟨_, rfl⟩ fun hin => absurd (List.contains_iff_mem.mpr hin) hci

end Turns

section Runs

variable {ntk : TechnologyNetwork} {V : FanoutView ntk} {travId : UInt32} {s : SortState}
  {pre : List ℕ}

theorem reached_of_foldlM (hs : SingleUses ntk) {l : List ℕ} {s' : SortState}
    (h : Reached V travId pre s) (hrun : l.foldlM (sortNode V travId) s = some s') :
    Reached V travId (pre ++ l) s' := by
  induction l generalizing pre s with
  | nil =>
    obtain rfl := Option.some.inj hrun
    rwa [List.append_nil]
  | cons n l ih =>
    rw [List.foldlM_cons] at hrun
    obtain ⟨s₁, h₁, hrun⟩ := Option.bind_eq_some_iff.mp hrun
    have hrest := ih (h.sortNode hs h₁) hrun
    rwa [List.append_assoc] at hrest

/-- Every input that no earlier one queues finds in its turn what it looks at. -/
def InputsFound (V : FanoutView ntk) : Prop :=
  ∀ n ∈ ntk.inputs, (∀ m ∈ ntk.inputs, m < n → n ∉ touches V m) → TurnFound V n

theorem eq_range_of_append_cons {k n : ℕ} {l l' : List ℕ} (h : List.range k = l ++ n :: l') :
    l = List.range n := by
  have hlen := congrArg List.length h
  rw [List.length_range, List.length_append, List.length_cons] at hlen
  have hn : (List.range k)[l.length]? = some n := by
    rw [h, List.getElem?_append_right le_rfl, Nat.sub_self, List.getElem?_cons_zero]
  rw [List.getElem?_range (by omega), Option.some.injEq] at hn
  have htake : (List.range k).take l.length = l := by rw [h, List.take_left]
  rw [List.take_range, hn, min_eq_left (by omega)] at htake
  exact htake.symm

theorem exists_copyAndSort_iff (hs : SingleUses ntk) {visited : ℕ → UInt32}
    (hv : ∀ x ∈ ntk.inputs, isUnvisited (travId + 1) ⟨[], [], visited, 0, false⟩ x = true) :
    (∃ s, copyAndSort V travId visited = some s ∧
      Reached V (travId + 1) (List.range ntk.size) s) ↔ InputsFound V := by
  have hinput := hs.built.wellFormed.input
  constructor
  · rintro ⟨s, hrun, -⟩ n hn hall
    obtain ⟨h2, hlt⟩ := hinput n hn
    obtain ⟨pre, suf, hsplit⟩ := List.append_of_mem (List.mem_range.mpr hlt)
    rw [copyAndSort, hsplit, List.foldlM_append] at hrun
    obtain ⟨s₁, h₁, hrun⟩ := Option.bind_eq_some_iff.mp hrun
    rw [List.foldlM_cons] at hrun
    obtain ⟨s₂, h₂, -⟩ := Option.bind_eq_some_iff.mp hrun
    have hreached := reached_of_foldlM hs (reached_nil hv) h₁
    refine hreached.exists_sortNode_iff.mp ⟨s₂, h₂⟩ hn (decide_eq_false (by omega))
      fun m hm hmin => hall m hmin ?_
    rwa [List.nil_append, eq_range_of_append_cons hsplit, List.mem_range] at hm
  · intro hall
    have hstep : ∀ pre n suf s, List.range ntk.size = pre ++ n :: suf →
        Reached V (travId + 1) pre s → ∃ s', sortNode V (travId + 1) s n = some s' ∧
          Reached V (travId + 1) (pre ++ [n]) s' := by
      intro pre n suf s hsplit hreached
      obtain ⟨s', hs'⟩ := (@Reached.exists_sortNode_iff ntk V (travId + 1) s n pre hreached).mpr
        fun hn _ hq => hall n hn fun m hm hlt => hq m (by
          rw [eq_range_of_append_cons hsplit]
          exact List.mem_range.mpr hlt) hm
      exact ⟨s', hs', hreached.sortNode hs hs'⟩
    exact exists_foldlM hstep (reached_nil hv)

theorem not_listed_of_visited (hs : SingleUses ntk) {n : ℕ} (hn : n ∈ ntk.inputs) {l : List ℕ}
    {s' : SortState} (hv : isUnvisited travId s n = false) (ho : n ∉ s.topoOrder) (hw : n ∉ s.wait)
    (hrun : l.foldlM (sortNode V travId) s = some s') : n ∉ s'.topoOrder := by
  have h : isUnvisited travId s' n = false ∧ n ∉ s'.topoOrder ∧ n ∉ s'.wait := by
    refine invariant_foldlM (I := fun s => isUnvisited travId s n = false ∧ n ∉ s.topoOrder ∧
      n ∉ s.wait) (fun m _ s s' h hm => ?_) ⟨hv, ho, hw⟩ hrun
    obtain ⟨hv, ho, hw⟩ := h
    have hne : ∀ m, isConstant m = true ∨ ¬ ntk.isCi m = true → n ≠ m := by
      rintro m hm rfl
      rcases hm with hm | hm
      · have hle : n ≤ 1 := of_decide_eq_true hm
        have := (hs.built.wellFormed.input n hn).1
        omega
      · exact hm (List.contains_iff_mem.mpr hn)
    unfold sortNode at hm
    split_ifs at hm with hconst hci hvm
    · obtain rfl := Option.some.inj hm
      have hnm := hne m (.inl hconst)
      refine ⟨?_, ?_, hw⟩
      · rw [← Bool.not_eq_true, isUnvisited_setVisited]
        exact fun hc => absurd hc.1 (by rw [← Bool.not_eq_true] at hv; exact hv)
      · change n ∉ s.topoOrder ++ [m]
        rw [List.mem_append, List.mem_singleton, not_or]
        exact ⟨ho, hnm⟩
    · have hq := queues_turn hs (List.contains_iff_mem.mp hci) hm
      have hnm : n ≠ m := by
        rintro rfl
        rw [hv] at hvm
        cases hvm
      refine ⟨?_, ?_, ?_⟩
      · rw [← Bool.not_eq_true, hq.unvisited]
        exact fun hc => absurd hc.1 (by rw [← Bool.not_eq_true] at hv; exact hv)
      · rw [hq.topoOrder, List.mem_append, not_or]
        refine ⟨ho, ?_⟩
        split_ifs
        · exact fun hc => hnm (List.mem_singleton.mp hc)
        · exact List.not_mem_nil
      · rw [hq.mem_wait, not_or]
        exact ⟨hw, fun hc => absurd hc.1 (by rw [← Bool.not_eq_true] at hv; exact hv)⟩
    · obtain rfl := Option.some.inj hm
      exact ⟨hv, ho, hw⟩
    · obtain rfl := Option.some.inj hm
      have hnm := hne m (.inr hci)
      refine ⟨?_, ?_, ?_⟩
      · unfold pushGate
        cases s.pushedPis <;> exact hv
      · unfold pushGate
        cases s.pushedPis <;> simp [ho, hw, hnm]
      · unfold pushGate
        cases s.pushedPis <;> exact hw
  exact h.2.1

end Runs

section Views

variable {ntk : TechnologyNetwork} {V : FanoutView ntk} {travId : UInt32} {visited : ℕ → UInt32}
  {s : SortState}

/-- Created before all gates. -/
def IsEarly (ntk : TechnologyNetwork) (n : ℕ) : Prop := ∀ g ∈ ntk.creationOrder, n < g

/-- What the order needs of the network, its traversal identifier and its marks. -/
structure Sortable (V : FanoutView ntk) (travId : UInt32) (visited : ℕ → UInt32) : Prop where
  combinational : ntk.numPis = ntk.inputs.length
  unvisited : ∀ n ∈ ntk.inputs, isUnvisited (travId + 1) ⟨[], [], visited, 0, false⟩ n = true
  found : InputsFound V
  listed : ∀ n ∈ ntk.inputs, (∃ m ∈ ntk.inputs, IsEarly ntk m ∧ n ∈ touches V m) ∨
    IsEarly ntk n ∧ isDirect V n = true

theorem isListed_of_mem_inputs (hw : ntk.WellFormed) {n : ℕ} (hn : n ∈ ntk.inputs) :
    isListed V n = isDirect V n := by
  have h2 := (hw.input n hn).1
  have hconst : isConstant n = false := decide_eq_false (by omega)
  have hci : ntk.isCi n = true := List.contains_iff_mem.mpr hn
  rw [isListed, hconst, hci, Bool.not_true, Bool.or_false, Bool.false_or]

theorem isEarly_iff {g : ℕ} {suf : List ℕ}
    (h : List.range ntk.size = List.range g ++ g :: suf) (hsource : ∀ m < g, ntk.IsSource m)
    (hg : ¬ ntk.IsSource g) {n : ℕ} : IsEarly ntk n ↔ n < g := by
  have hgmem : g ∈ ntk.creationOrder := by
    refine mem_creationOrder.mpr ⟨List.mem_range.mp ?_, hg⟩
    rw [h]
    simp
  refine ⟨fun hn => hn g hgmem, fun hn g' hg' => hn.trans_le ?_⟩
  by_contra hlt
  exact (mem_creationOrder.mp hg').2 (hsource g' (by omega))

theorem not_listed_of_forall_isSource (h : ∀ m ∈ List.range ntk.size, ntk.IsSource m) {n m : ℕ} :
    n ∉ touches V m ∧ isDirect V n ≠ true := by
  have hnil : ∀ n, V.fanouts n = [] := by
    intro n
    rw [List.eq_nil_iff_forall_not_mem]
    intro g hg
    obtain ⟨hlt, hns⟩ := mem_creationOrder.mp (V.mem_fanouts_iff.mp hg).1
    exact hns (h g (List.mem_range.mpr hlt))
  refine ⟨?_, ?_⟩
  · rw [touches, hnil]
    exact List.not_mem_nil
  · rw [isDirect, hnil]
    exact Bool.false_ne_true

/-- The order that has been computed is as expected only if each input has been listed in time. -/
theorem listed_of_inputSorted (hs : SingleUses ntk)
    (h : Reached V travId (List.range ntk.size) s) {v : View} (hv : v.topoOrder = s.topoOrder)
    (hsorted : InputSorted ntk v) {n : ℕ} (hn : n ∈ ntk.inputs) :
    (∃ m ∈ ntk.inputs, IsEarly ntk m ∧ n ∈ touches V m) ∨
      IsEarly ntk n ∧ isDirect V n = true := by
  have hw := hs.built.wellFormed
  have hmem : n ∈ s.topoOrder := hv ▸ (hsorted.mem n).mpr (hw.input n hn).2
  rcases h.ordered with ⟨-, hsource, horder⟩ |
    ⟨-, pre₁, g, pre₂, wait, hsplit, hsource, hg, -, hwait, horder⟩
  · rw [horder, List.mem_filter, isListed_of_mem_inputs hw hn] at hmem
    exact absurd hmem.2 (@not_listed_of_forall_isSource _ V hsource n n).2
  · obtain rfl := eq_range_of_append_cons hsplit
    have hearly : ∀ m, IsEarly ntk m ↔ m < g := fun m =>
      isEarly_iff hsplit (fun m hm => hsource m (List.mem_range.mpr hm)) hg
    rw [horder, List.mem_append, List.mem_append, List.mem_filter, List.mem_range,
      isListed_of_mem_inputs hw hn, hwait] at hmem
    rcases hmem with hmem | ⟨m, hm, hmin, hq⟩ | hmem
    · exact .inr ⟨(hearly n).mpr hmem.1, hmem.2⟩
    · exact .inl ⟨m, hmin, (hearly m).mpr (List.mem_range.mp hm), hq⟩
    · exfalso
      have hpair := hsorted.inputs
      rw [View.foreachNode, hv, horder, List.filter_cons_of_pos (isListed_of_not_isSource hg)]
        at hpair
      rw [List.filter_cons_of_pos (isListed_of_not_isSource hg), List.mem_cons] at hmem
      have hgmem : g ∈ ntk.creationOrder :=
        mem_creationOrder.mpr ⟨List.mem_range.mp (by rw [hsplit]; simp), hg⟩
      rcases hmem with rfl | hmem
      · exact hg (.inr hn)
      · have hrest := (List.pairwise_append.mp (List.pairwise_append.mp hpair).2.1).2.1
        exact (List.pairwise_cons.mp hrest).1 n hmem hgmem hn

theorem range_eq_constants {k : ℕ} (hk : 2 ≤ k) :
    List.range k = [0, 1] ++ (List.range (k - 2)).map (2 + ·) := by
  have hadd := @List.range_add 2 (k - 2)
  rwa [Nat.add_sub_cancel' hk] at hadd

theorem countP_isConstant {k : ℕ} (hk : 2 ≤ k) : (List.range k).countP isConstant = 2 := by
  have hzero : ((List.range (k - 2)).map (2 + ·)).countP isConstant = 0 := by
    refine List.countP_eq_zero.mpr fun n hn hc => ?_
    obtain ⟨m, -, rfl⟩ := List.mem_map.mp hn
    have hle : 2 + m ≤ 1 := of_decide_eq_true hc
    omega
  rw [range_eq_constants hk, List.countP_append, hzero]
  rfl

theorem inputSorted_of_topoOrder_eq (hs : SingleUses ntk) (hcomb : ntk.numPis = ntk.inputs.length)
    {cis : List ℕ} (hnd : cis.Nodup) (hmem : ∀ n, n ∈ cis ↔ n ∈ ntk.inputs) :
    InputSorted ntk ⟨[0, 1] ++ (cis ++ ntk.creationOrder), ntk.numPis, 2⟩ := by
  have hw := hs.built.wellFormed
  have hperm : cis.Perm ntk.inputs := (List.perm_ext_iff_of_nodup hnd hw.inputs_nodup).mpr hmem
  have hci : (View.foreachCi ⟨[0, 1] ++ (cis ++ ntk.creationOrder), ntk.numPis, 2⟩) = cis := by
    rw [View.foreachCi]
    change (cis ++ ntk.creationOrder).take ntk.numPis = cis
    rw [hcomb, ← hperm.length_eq, List.take_left]
  have hconst : ∀ n ∈ [0, 1], ntk.IsSource n := by
    intro n hn
    refine .inl ?_
    rcases List.mem_pair.mp hn with rfl | rfl <;> omega
  have hgate : ∀ n ∈ ntk.creationOrder, ¬ ntk.IsSource n := fun n hn => (mem_creationOrder.mp hn).2
  refine ⟨?_, fun n => ?_, ?_, ?_, by rw [hci]; exact hperm, ?_⟩
  · refine List.nodup_append.mpr ⟨by decide, List.nodup_append.mpr ⟨hnd, nodup_creationOrder,
      fun n hn m hm he => hgate m hm (he ▸ .inr ((hmem n).mp hn))⟩, fun n hn m hm he => ?_⟩
    subst he
    rcases List.mem_append.mp hm with hm | hm
    · have := (hw.input n ((hmem n).mp hm)).1
      rcases List.mem_pair.mp hn with rfl | rfl <;> omega
    · exact hgate n hm (hconst n hn)
  · change n ∈ [0, 1] ++ (cis ++ ntk.creationOrder) ↔ n < ntk.size
    rw [List.mem_append, List.mem_append, hmem, mem_creationOrder]
    constructor
    · rintro (hn | hn | hn)
      · have := hw.two_le_size
        rcases List.mem_pair.mp hn with rfl | rfl <;> omega
      · exact (hw.input n hn).2
      · exact hn.1
    · intro hlt
      by_cases hsource : ntk.IsSource n
      · rcases hsource with hle | hin
        · refine .inl (List.mem_pair.mpr ?_)
          omega
        · exact .inr (.inl hin)
      · exact .inr (.inr ⟨hlt, hsource⟩)
  · have hout : ∀ n ∈ ntk.creationOrder, n ∉ ntk.inputs := fun n hn hin => hgate n hn (.inr hin)
    refine List.pairwise_append.mpr ⟨?_, List.pairwise_append.mpr ⟨?_, ?_, ?_⟩, ?_⟩
    · exact List.pairwise_of_forall_mem_list fun n hn m _ hg => absurd (hconst n hn) (hgate n hg)
    · exact List.pairwise_of_forall_mem_list fun n hn m _ hg =>
        absurd (.inr ((hmem n).mp hn)) (hgate n hg)
    · exact List.pairwise_of_forall_mem_list fun n _ m hm _ => hout m hm
    · exact fun n _ m hm _ => hout m hm
    · exact fun n hn m _ hg => absurd (hconst n hn) (hgate n hg)
  · -- sources have no children, and gates are created after theirs
    have hsource : ∀ n m, ntk.IsSource n → m ∉ (ntk.node n).children := by
      intro n m hn
      rw [(hs.sources n hn).1]
      exact List.not_mem_nil
    refine List.pairwise_append.mpr ⟨?_, List.pairwise_append.mpr ⟨?_, ?_, ?_⟩, ?_⟩
    · exact List.pairwise_of_forall_mem_list fun n hn m _ => hsource n m (hconst n hn)
    · exact List.pairwise_of_forall_mem_list fun n hn m _ => hsource n m (.inr ((hmem n).mp hn))
    · refine List.Pairwise.imp (fun hlt hc => ?_) (List.pairwise_lt_range.filter _)
      exact absurd (child_lt hs.built hc).1 (Nat.lt_asymm hlt)
    · exact fun n hn m _ => hsource n m (.inr ((hmem n).mp hn))
    · exact fun n hn m _ => hsource n m (hconst n hn)
  · change (View.foreachCi ⟨[0, 1] ++ (cis ++ ntk.creationOrder), ntk.numPis, 2⟩).Perm _
    rw [hci, TechnologyNetwork.foreachPi, hcomb, List.take_length]
    exact hperm

/-- If each input is listed in time, the order is as expected. -/
theorem Reached.exists_topoOrder_eq (hs : SingleUses ntk)
    (h : Reached V travId (List.range ntk.size) s)
    (hlisted : ∀ n ∈ ntk.inputs, (∃ m ∈ ntk.inputs, IsEarly ntk m ∧ n ∈ touches V m) ∨
      IsEarly ntk n ∧ isDirect V n = true) :
    ∃ cis : List ℕ, cis.Nodup ∧ (∀ n, n ∈ cis ↔ n ∈ ntk.inputs) ∧
      s.topoOrder = [0, 1] ++ (cis ++ ntk.creationOrder) := by
  have hw := hs.built.wellFormed
  have h2 := hw.two_le_size
  rcases h.ordered with ⟨-, hsource, horder⟩ |
    ⟨-, pre₁, g, pre₂, wait, hsplit, hsource, hg, hnd, hwait, horder⟩
  · have hnil : ∀ n, n ∉ ntk.inputs := by
      intro n hn
      rcases hlisted n hn with ⟨m, -, -, hq⟩ | ⟨-, hd⟩
      · exact (not_listed_of_forall_isSource hsource).1 hq
      · exact (@not_listed_of_forall_isSource _ V hsource n n).2 hd
    have hsize : ntk.size = 2 := by
      by_contra hne
      rcases hsource 2 (List.mem_range.mpr (by omega)) with hle | hin
      · omega
      · exact hnil 2 hin
    have hgates : ntk.creationOrder = [] := by
      rw [List.eq_nil_iff_forall_not_mem]
      intro n hn
      obtain ⟨hlt, hns⟩ := mem_creationOrder.mp hn
      exact hns (hsource n (List.mem_range.mpr hlt))
    refine ⟨[], List.nodup_nil, fun n => iff_of_false List.not_mem_nil (hnil n), ?_⟩
    rw [horder, hgates, hsize]
    rfl
  · obtain rfl := eq_range_of_append_cons hsplit
    have hsource : ∀ m < g, ntk.IsSource m := fun m hm => hsource m (List.mem_range.mpr hm)
    have hearly : ∀ m, IsEarly ntk m ↔ m < g := fun m => isEarly_iff hsplit hsource hg
    have hg2 : 2 ≤ g := by
      by_contra hlt
      exact hg (.inl (by omega))
    have hconst : isListed V 0 = true ∧ isListed V 1 = true := ⟨rfl, rfl⟩
    have hfront : (List.range g).filter (isListed V) =
        [0, 1] ++ ((List.range (g - 2)).map (2 + ·)).filter (isListed V) := by
      rw [range_eq_constants hg2, List.filter_append, List.filter_cons_of_pos hconst.1,
        List.filter_cons_of_pos hconst.2, List.filter_nil]
    have hmemFront : ∀ n, n ∈ ((List.range (g - 2)).map (2 + ·)).filter (isListed V) ↔
        (n ∈ ntk.inputs ∧ n < g) ∧ isDirect V n = true := by
      intro n
      rw [List.mem_filter, List.mem_map]
      constructor
      · rintro ⟨⟨k, hk, rfl⟩, hl⟩
        rw [List.mem_range] at hk
        have hin := (hsource (2 + k) (by omega)).resolve_left (by omega)
        exact ⟨⟨hin, by omega⟩, isListed_of_mem_inputs hw hin ▸ hl⟩
      · rintro ⟨⟨hin, hlt⟩, hd⟩
        have := (hw.input n hin).1
        refine ⟨⟨n - 2, List.mem_range.mpr (by omega), by omega⟩, ?_⟩
        rw [isListed_of_mem_inputs hw hin, hd]
    have hback : (g :: pre₂).filter (isListed V) = ntk.creationOrder := by
      have hnone : (List.range g).filter (fun n => decide (¬ ntk.IsSource n)) = [] := by
        refine List.filter_eq_nil_iff.mpr fun n hn hc => ?_
        exact of_decide_eq_true hc (hsource n (List.mem_range.mp hn))
      rw [creationOrder, hsplit, List.filter_append, hnone, List.nil_append]
      refine List.filter_congr fun n hn => ?_
      have hle : g ≤ n := by
        have hsorted := @List.pairwise_lt_range ntk.size
        rw [hsplit] at hsorted
        rcases List.mem_cons.mp hn with rfl | hn
        · exact le_rfl
        · exact ((List.pairwise_cons.mp (List.pairwise_append.mp hsorted).2.1).1 n hn).le
      by_cases hsrc : ntk.IsSource n
      · have hin := hsrc.resolve_left (by omega)
        rw [decide_eq_false (not_not.mpr hsrc), isListed_of_mem_inputs hw hin, ← Bool.not_eq_true]
        intro hd
        rcases hlisted n hin with ⟨m, hm, -, hq⟩ | ⟨hlt, -⟩
        · exact not_isDirect_of_mem_touches hs hm hq hd
        · have := (hearly n).mp hlt
          omega
      · rw [decide_eq_true hsrc, isListed_of_not_isSource hsrc]
    refine ⟨((List.range (g - 2)).map (2 + ·)).filter (isListed V) ++ wait, ?_, fun n => ?_, ?_⟩
    · refine List.nodup_append.mpr ⟨?_, hnd, ?_⟩
      · exact (List.nodup_range.map fun a b hab => by simpa using hab).filter _
      · rintro n hn m hm rfl
        obtain ⟨k, -, hk, hq⟩ := (hwait n).mp hm
        exact not_isDirect_of_mem_touches hs hk hq ((hmemFront n).mp hn).2
    · rw [List.mem_append, hmemFront, hwait]
      constructor
      · rintro (hn | ⟨m, -, hm, hq⟩)
        · exact hn.1.1
        · exact mem_inputs_of_mem_touches hm hq
      · intro hn
        rcases hlisted n hn with ⟨m, hm, hlt, hq⟩ | ⟨hlt, hd⟩
        · exact .inr ⟨m, List.mem_range.mpr ((hearly m).mp hlt), hm, hq⟩
        · exact .inl ⟨⟨hn, (hearly n).mp hlt⟩, hd⟩
    · rw [horder, hfront, hback, List.append_assoc, List.append_assoc]

/-- The view is as documented iff the network is combinational, no input has been visited by the
next traversal, the fan-ins that are looked at are there, and every input is listed in time. -/
theorem inputSortView_iff (ntk : TechnologyNetwork) (hb : InverterBalancing.Built ntk)
    (hsrc : SourcesStored ntk) (ps : FanoutSubstitution.FanoutSubstitutionParams)
    (hps : ps.threshold = 1) (hsub : FanoutSubstitution.isFanoutSubstituted ntk ps = true)
    (V : FanoutView ntk) (travId : UInt32) (visited : ℕ → UInt32) :
    (∃ v, inputSortView V travId visited = some v ∧ InputSorted ntk v) ↔
      Sortable V travId visited := by
  have hs := singleUses_of_isFanoutSubstituted hb hsrc hps hsub
  have hw := hb.wellFormed
  constructor
  · rintro ⟨v, hv, hsorted⟩
    obtain ⟨s, hrun, hv⟩ := Option.bind_eq_some_iff.mp hv
    obtain rfl := Option.some.inj hv
    have hunvisited : ∀ n ∈ ntk.inputs,
        isUnvisited (travId + 1) ⟨[], [], visited, 0, false⟩ n = true := by
      intro n hn
      by_contra hnot
      refine not_listed_of_visited hs hn (Bool.eq_false_of_not_eq_true hnot) List.not_mem_nil
        List.not_mem_nil hrun ?_
      exact (hsorted.mem n).mpr (hw.input n hn).2
    have hreached := reached_of_foldlM hs (reached_nil hunvisited) hrun
    rw [List.nil_append] at hreached
    refine ⟨?_, hunvisited, (exists_copyAndSort_iff hs hunvisited).mp ⟨s, hrun, hreached⟩,
      fun n hn => listed_of_inputSorted hs hreached rfl hsorted hn⟩
    have hlen := hsorted.foreachCi.length_eq
    rw [View.foreachCi, List.length_take] at hlen
    have := hw.numPis_le
    simp only at hlen
    omega
  · intro h
    obtain ⟨s, hrun, hreached⟩ := (exists_copyAndSort_iff hs h.unvisited).mpr h.found
    obtain ⟨cis, hnd, hmem, horder⟩ := hreached.exists_topoOrder_eq hs h.listed
    refine ⟨_, Option.bind_eq_some_iff.mpr ⟨s, hrun, rfl⟩, ?_⟩
    rw [horder, hreached.numC, countP_isConstant hw.two_le_size]
    exact inputSorted_of_topoOrder_eq hs h.combinational hnd hmem

/-- An input behind which two others are met. -/
theorem inputSortView_sharedInput :
    ∃ v, inputSortView sharedInput.fanoutView 0 (fun _ => 0) = some v ∧
      InputSorted sharedInput v := by
  have hw : sharedInput.WellFormed :=
    wellFormed_of_forall_lt (by decide) (by decide) (by decide) (by decide) (by decide) (by decide)
      (by decide)
  have hb := InverterBalancing.built_of_forall_lt hw (by decide) (by decide) (by decide) (by decide)
  have hsrc := sourcesStored_of_forall_lt hw (by decide)
  refine (inputSortView_iff sharedInput hb hsrc {} rfl (by decide) _ 0 _).mpr
    ⟨rfl, by decide, ?_, ?_⟩
  · unfold InputsFound TurnFound
    decide
  · unfold IsEarly
    decide

/-- An input that feeds an output only. -/
def wire : TechnologyNetwork :=
  let (ntk, a) := empty.createPi
  ntk.createPo a

theorem wire_not_inputSorted : FanoutSubstitution.isFanoutSubstituted wire {} = true ∧
    ∃ v, inputSortView wire.fanoutView 0 (fun _ => 0) = some v ∧ ¬ InputSorted wire v := by
  refine ⟨by decide, ⟨[0, 1], 1, 2⟩, rfl, fun h => ?_⟩
  exact absurd ((h.mem 2).mpr (by decide)) (by decide)

end Views

end Fiction.InputSortView
