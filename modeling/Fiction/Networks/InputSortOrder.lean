import Fiction.Library.TransitionSystem
import Fiction.NetworkTransformation.InverterRounds
import Fiction.Networks.InputSort

/-!
# What the sorted view lists

While the inputs are sorted, each visited node is listed in the order or queued in one wait list,
and only there. So the order starts with the constants and the inputs, in some order, once the lists
have been flushed, and the depth-first search appends the gates of the cones.
-/

namespace Fiction.TopoViewInputSort

open DepthFirst TechnologyNetwork

namespace WaitState

variable {s : WaitState} {n m : ℕ}

def listed (s : WaitState) : List ℕ := s.topoOrder ++ (s.wait ++ (s.secondWait ++ s.thirdWait))

theorem visited_iff : s.visited n = true ↔ s.mark n = .permanent := decide_eq_true_iff

theorem mark_setVisited (s : WaitState) (n m : ℕ) :
    (s.setVisited n).mark m = if m = n then .permanent else s.mark m :=
  Function.update_apply ..

theorem visited_setVisited : (s.setVisited n).visited m = true ↔ s.visited m = true ∨ m = n := by
  rw [visited_iff, visited_iff, mark_setVisited]
  split_ifs with h
  · exact ⟨fun _ => .inr h, fun _ => rfl⟩
  · exact ⟨.inl, fun h' => h'.resolve_right h⟩

theorem visited_pushOrder : (s.pushOrder n).visited m = true ↔ s.visited m = true ∨ m = n :=
  visited_setVisited

theorem visited_pushUnvisited :
    (s.pushUnvisited n).visited m = true ↔ s.visited m = true ∨ m = n := by
  unfold pushUnvisited
  split_ifs with h
  · exact ⟨.inl, fun h' => h'.elim id fun heq => heq ▸ h⟩
  · exact visited_pushOrder

theorem visited_queueWait : (s.queueWait n).visited m = true ↔ s.visited m = true ∨ m = n := by
  unfold queueWait
  split_ifs with h
  · exact ⟨.inl, fun h' => h'.elim id fun heq => heq ▸ h⟩
  · exact visited_setVisited

theorem visited_queueSecond : (s.queueSecond n).visited m = true ↔ s.visited m = true ∨ m = n := by
  unfold queueSecond
  split_ifs with h
  · exact ⟨.inl, fun h' => h'.elim id fun heq => heq ▸ h⟩
  · exact visited_setVisited

theorem visited_queueThird : (s.queueThird n).visited m = true ↔ s.visited m = true ∨ m = n := by
  unfold queueThird
  split_ifs with h
  · exact ⟨.inl, fun h' => h'.elim id fun heq => heq ▸ h⟩
  · exact visited_setVisited

end WaitState

section Sorting

variable {ntk : TechnologyNetwork} {V : FanoutView ntk} {s s' : WaitState} {n m : ℕ}

/-- The visited nodes are those in the order and in the wait lists, each of them once. -/
structure Sorting (ntk : TechnologyNetwork) (s : WaitState) : Prop where
  constants : [0, 1] <+: s.topoOrder
  nodup : s.listed.Nodup
  visited : ∀ n, s.visited n = true ↔ n ∈ s.listed
  mark : ∀ n, s.mark n ≠ .temporary
  source : ∀ n ∈ s.listed, ntk.IsSource n

/-- A source that has not been visited is appended to one of the lists. -/
theorem Sorting.add (h : Sorting ntk s) (hn : ntk.IsSource n) (hnew : s.visited n = false)
    (horder : s.topoOrder <+: s'.topoOrder) (hlisted : s'.listed.Perm (n :: s.listed))
    (hmark : s'.mark = (s.setVisited n).mark) : Sorting ntk s' where
  constants := h.constants.trans horder
  nodup := by
    rw [hlisted.nodup_iff, List.nodup_cons, ← h.visited, hnew]
    exact ⟨Bool.false_ne_true, h.nodup⟩
  visited m := by
    have hvisited : s'.visited m = (s.setVisited n).visited m := by
      rw [WaitState.visited, WaitState.visited, hmark]
    rw [hvisited, WaitState.visited_setVisited, hlisted.mem_iff, List.mem_cons, h.visited, or_comm]
  mark m := by
    rw [hmark, s.mark_setVisited]
    split_ifs
    · exact fun h => nomatch h
    · exact h.mark m
  source m hm := by
    rcases List.mem_cons.mp (hlisted.mem_iff.mp hm) with rfl | hm
    · exact hn
    · exact h.source m hm

theorem Sorting.pushUnvisited (h : Sorting ntk s) (hn : ntk.IsSource n) :
    Sorting ntk (s.pushUnvisited n) := by
  unfold WaitState.pushUnvisited
  split_ifs with hv
  · exact h
  · refine h.add hn (Bool.eq_false_iff.mpr hv) (List.prefix_append _ _) ?_ rfl
    change ((s.topoOrder ++ [n]) ++ _).Perm _
    rw [List.append_assoc]
    exact List.perm_middle

theorem Sorting.queueWait (h : Sorting ntk s) (hn : ntk.IsSource n) :
    Sorting ntk (s.queueWait n) := by
  unfold WaitState.queueWait
  split_ifs with hv
  · exact h
  · refine h.add hn (Bool.eq_false_iff.mpr hv) (List.prefix_refl _) ?_ rfl
    change (s.topoOrder ++ ((s.wait ++ [n]) ++ _)).Perm _
    rw [List.append_assoc, ← List.append_assoc]
    refine List.perm_middle.trans ?_
    rw [List.append_assoc]
    rfl

theorem Sorting.queueSecond (h : Sorting ntk s) (hn : ntk.IsSource n) :
    Sorting ntk (s.queueSecond n) := by
  unfold WaitState.queueSecond
  split_ifs with hv
  · exact h
  · refine h.add hn (Bool.eq_false_iff.mpr hv) (List.prefix_refl _) ?_ rfl
    change (s.topoOrder ++ (s.wait ++ ((s.secondWait ++ [n]) ++ s.thirdWait))).Perm _
    have hsplit : s.topoOrder ++ (s.wait ++ ((s.secondWait ++ [n]) ++ s.thirdWait)) =
        (s.topoOrder ++ (s.wait ++ s.secondWait)) ++ n :: s.thirdWait := by
      simp only [List.append_assoc, List.singleton_append]
    rw [hsplit]
    refine List.perm_middle.trans ?_
    simp only [WaitState.listed, List.append_assoc, List.Perm.refl]

theorem Sorting.queueThird (h : Sorting ntk s) (hn : ntk.IsSource n) :
    Sorting ntk (s.queueThird n) := by
  unfold WaitState.queueThird
  split_ifs with hv
  · exact h
  · refine h.add hn (Bool.eq_false_iff.mpr hv) (List.prefix_refl _) ?_ rfl
    change (s.topoOrder ++ (s.wait ++ (s.secondWait ++ (s.thirdWait ++ [n])))).Perm _
    simp only [← List.append_assoc]
    refine (List.perm_append_singleton _ _).trans ?_
    simp only [WaitState.listed, List.append_assoc, List.Perm.refl]

/-- The node moves from the first wait list to the order. -/
theorem Sorting.promote (h : Sorting ntk s) (hp : s.promote n = some s') : Sorting ntk s' := by
  unfold WaitState.promote at hp
  split_ifs at hp with hcond
  obtain ⟨hlen, hget⟩ := hcond
  obtain rfl := Option.some.inj hp
  have hlt : s.wait.length - 2 < s.wait.length := by omega
  have hwait : s.wait.Perm (n :: s.wait.eraseIdx (s.wait.length - 2)) := by
    obtain ⟨_, heq⟩ := List.getElem?_eq_some_iff.mp hget
    rw [← heq]
    exact (List.getElem_cons_eraseIdx_perm hlt).symm
  have hlisted : (({ s with wait := s.wait.eraseIdx (s.wait.length - 2) } : WaitState).pushOrder
      n).listed.Perm s.listed := by
    change ((s.topoOrder ++ [n]) ++ (s.wait.eraseIdx _ ++ _)).Perm _
    rw [List.append_assoc]
    exact (hwait.symm.append_right _).append_left _
  have hn : s.mark n = .permanent := by
    rw [← WaitState.visited_iff, h.visited, ← hlisted.mem_iff]
    exact List.mem_append_left _ (List.mem_append_right _ (List.mem_singleton_self n))
  have hmark : ∀ m, (({ s with wait := s.wait.eraseIdx (s.wait.length - 2) } : WaitState).pushOrder
      n).mark m = s.mark m := by
    intro m
    refine (WaitState.mark_setVisited _ n m).trans ?_
    split_ifs with heq
    · rw [heq, hn]
    · rfl
  refine ⟨h.constants.trans (List.prefix_append _ _), hlisted.nodup_iff.mpr h.nodup, fun m => ?_,
    fun m => ?_, fun m hm => h.source m (hlisted.mem_iff.mp hm)⟩
  · rw [hlisted.mem_iff, ← h.visited, WaitState.visited_iff, WaitState.visited_iff, hmark]
  · rw [hmark]
    exact h.mark m

theorem visited_initialState : initialState.visited n = true ↔ n ∈ [0, 1] := by
  have hfirst : ((⟨[], [], [], [], fun _ => .unmarked⟩ : WaitState).pushOrder 0).visited n = true ↔
      n = 0 := by
    rw [WaitState.visited_pushOrder]
    exact ⟨fun h => h.resolve_left (by simp [WaitState.visited]), .inr⟩
  refine WaitState.visited_pushUnvisited.trans ?_
  rw [List.mem_cons, List.mem_singleton]
  exact or_congr hfirst Iff.rfl

theorem sorting_initialState : Sorting ntk initialState where
  constants := List.prefix_refl _
  nodup := by decide
  visited _ := visited_initialState
  mark n := by
    by_cases hn : initialState.visited n = true
    · rw [WaitState.visited_iff.mp hn]
      exact fun h => nomatch h
    · rw [visited_initialState, List.mem_cons, List.mem_singleton, not_or] at hn
      have hmark : initialState.mark n = .unmarked :=
        (Function.update_of_ne hn.2 _ _).trans (Function.update_of_ne hn.1 _ _)
      rw [hmark]
      exact fun h => nomatch h
  source n hn := by
    have hmem : n ∈ [0, 1] := hn
    rcases List.mem_cons.mp hmem with rfl | hmem
    · exact .inl (Nat.zero_le 1)
    · exact .inl (List.mem_singleton.mp hmem).le

/-- Only inputs are visited. -/
theorem Sorting.sortFanin {fon fi : ℕ} {p p' : WaitState × Bool} (h : Sorting ntk p.1)
    (hn : n ∈ ntk.inputs) (hp : sortFanin V n fon p fi = some p') : Sorting ntk p'.1 := by
  unfold TopoViewInputSort.sortFanin at hp
  simp only [Option.bind_eq_bind, Option.bind_eq_some_iff] at hp
  obtain ⟨finInp, -, hp⟩ := hp
  by_cases hself : finInp = n
  · rw [if_pos hself] at hp
    exact Option.some.inj hp ▸ h
  rw [if_neg hself, Option.bind_eq_some_iff] at hp
  obtain ⟨fc, -, hp⟩ := hp
  have hsource : ntk.isCi finInp = true → ntk.IsSource finInp := fun hci =>
    .inr (List.contains_iff_mem.mp hci)
  split_ifs at hp with hmaj hci hfo hone
  · exact Option.some.inj hp ▸ h.queueThird (.inr hn)
  · rw [Option.bind_eq_some_iff] at hp
    obtain ⟨s, hs, hp⟩ := hp
    exact Option.some.inj hp ▸ (h.promote hs).pushUnvisited (hsource hci)
  · exact Option.some.inj hp ▸ (h.queueWait (.inr hn)).queueWait (hsource hci)
  · exact Option.some.inj hp ▸ (h.queueSecond (.inr hn)).queueSecond (hsource hci)
  · exact Option.some.inj hp ▸ h

theorem Sorting.inputSort (h : Sorting ntk s) (hn : n ∈ ntk.inputs)
    (hs : inputSort V s n = some s') : Sorting ntk s' := by
  refine invariant_foldlM (fun fon _ s₁ s₂ h₁ h₂ => ?_) h hs
  obtain ⟨p, hp, rfl⟩ := Option.map_eq_some_iff.mp
    ((Option.map_eq_bind (f := Prod.fst)).trans h₂)
  refine @invariant_foldlM _ _ _ (fun p => Sorting ntk p.1) _
    (fun out _ p₁ p₂ h₁ h₂ => ?_) _ _ h₁ hp
  exact @invariant_foldlM _ _ _ (fun p => Sorting ntk p.1) _
    (fun fi _ p₃ p₄ h₃ h₄ => h₃.sortFanin hn h₄) _ _ h₁ h₂

theorem Sorting.sortCi (h : Sorting ntk s) (hn : n ∈ ntk.inputs)
    (hs : sortCi V s n = some s') : Sorting ntk s' := by
  unfold TopoViewInputSort.sortCi at hs
  split_ifs at hs
  · exact Option.some.inj hs ▸ h
  · exact h.inputSort hn hs

end Sorting

section Flush

variable {ntk : TechnologyNetwork} {s : WaitState} {n m : ℕ}

theorem foldl_pushOrder (l : List ℕ) (s : WaitState) : l.foldl WaitState.pushOrder s =
    { s with
      topoOrder := s.topoOrder ++ l
      mark := fun m => if m ∈ l then .permanent else s.mark m } := by
  induction l generalizing s with
  | nil => simp
  | cons n l ih =>
    rw [List.foldl_cons, ih]
    have hmark : (fun m => if m ∈ l then Mark.permanent else (s.pushOrder n).mark m) =
        fun m => if m ∈ n :: l then .permanent else s.mark m := by
      funext m
      rw [show (s.pushOrder n).mark m = _ from WaitState.mark_setVisited _ n m]
      by_cases hmn : m = n <;> by_cases hml : m ∈ l <;> simp [hmn, hml]
    rw [hmark]
    simp [WaitState.pushOrder, WaitState.setVisited]

/-- The order and the marks without the wait lists. -/
def WaitState.cleared (s : WaitState) : WaitState := ⟨s.topoOrder, [], [], [], s.mark⟩

theorem cleared_pushUnvisited (s : WaitState) (n : ℕ) :
    (s.pushUnvisited n).cleared = s.cleared.pushUnvisited n := by
  unfold WaitState.pushUnvisited
  change WaitState.cleared (if s.visited n then s else s.pushOrder n) =
    if s.visited n then s.cleared else s.cleared.pushOrder n
  split_ifs
  · rfl
  · rfl

theorem cleared_foldl_pushUnvisited (l : List ℕ) (s : WaitState) :
    (l.foldl WaitState.pushUnvisited s).cleared = l.foldl WaitState.pushUnvisited s.cleared := by
  induction l generalizing s with
  | nil => rfl
  | cons n l ih => rw [List.foldl_cons, List.foldl_cons, ih, cleared_pushUnvisited]

theorem Sorting.foldl_pushUnvisited (h : Sorting ntk s) {l : List ℕ}
    (hl : ∀ n ∈ l, ntk.IsSource n) : Sorting ntk (l.foldl WaitState.pushUnvisited s) ∧
      ∀ n ∈ l, (l.foldl WaitState.pushUnvisited s).visited n = true := by
  induction l using List.reverseRecOn with
  | nil => exact ⟨h, by simp⟩
  | append_singleton l n ih =>
    obtain ⟨hs, hv⟩ := ih fun m hm => hl m (List.mem_append_left _ hm)
    rw [List.foldl_append]
    refine ⟨hs.pushUnvisited (hl n (List.mem_append_right _ (List.mem_singleton_self n))), ?_⟩
    intro m hm
    refine WaitState.visited_pushUnvisited.mpr ?_
    exact (List.mem_append.mp hm).imp (hv m) List.mem_singleton.mp

/-- The lists one after the other are the order. -/
theorem Sorting.cleared_flush (h : Sorting ntk s) :
    (flush ntk s).cleared =
      ntk.inputs.foldl WaitState.pushUnvisited ⟨s.listed, [], [], [], s.mark⟩ := by
  unfold flush
  rw [cleared_foldl_pushUnvisited]
  congr 1
  simp only [foldl_pushOrder, WaitState.cleared, WaitState.listed, List.append_assoc]
  congr 1
  funext m
  split_ifs with h₃ h₂ h₁
  all_goals try rfl
  all_goals
    refine (WaitState.visited_iff.mp ((h.visited m).mpr ?_)).symm
    simp [WaitState.listed, *]

theorem Sorting.sorting_flush (h : Sorting ntk s) :
    Sorting ntk (flush ntk s).cleared ∧
      ∀ n ∈ ntk.inputs, (flush ntk s).cleared.visited n = true := by
  have hlisted : (⟨s.listed, [], [], [], s.mark⟩ : WaitState).listed = s.listed :=
    List.append_nil _
  have hstart : Sorting ntk ⟨s.listed, [], [], [], s.mark⟩ := by
    refine ⟨h.constants.trans (List.prefix_append _ _), ?_, fun n => ?_, h.mark, fun n hn => ?_⟩
    · rw [hlisted]
      exact h.nodup
    · rw [hlisted]
      exact h.visited n
    · rw [hlisted] at hn
      exact h.source n hn
  rw [h.cleared_flush]
  exact hstart.foldl_pushUnvisited fun n hn => Or.inr hn

theorem mem_constants : n ∈ [0, 1] ↔ n ≤ 1 := by
  rw [List.mem_cons, List.mem_singleton, Nat.le_one_iff_eq_zero_or_eq_one]

theorem listed_cleared (s : WaitState) : s.cleared.listed = s.topoOrder := List.append_nil _

theorem Sorting.mem_topoOrder_flush (h : Sorting ntk s) :
    n ∈ (flush ntk s).topoOrder ↔ ntk.IsSource n := by
  obtain ⟨hs, hall⟩ := h.sorting_flush
  rw [← listed_cleared]
  refine ⟨hs.source n, fun hn => ?_⟩
  rcases hn with hn | hn
  · rw [listed_cleared]
    exact hs.constants.subset (mem_constants.mpr hn)
  · exact (hs.visited n).mp (hall n hn)

/-- The constants come first, and the inputs follow in some order. -/
theorem Sorting.exists_topoOrder_flush (h : Sorting ntk s) (hw : ntk.WellFormed) :
    ∃ cis, (flush ntk s).topoOrder = [0, 1] ++ cis ∧ cis.Perm ntk.inputs := by
  obtain ⟨hs, -⟩ := h.sorting_flush
  obtain ⟨cis, hcis⟩ := hs.constants
  have horder : (flush ntk s).topoOrder = [0, 1] ++ cis := hcis.symm
  refine ⟨cis, horder, ?_⟩
  have hnd := hs.nodup
  rw [listed_cleared, horder, List.nodup_append] at hnd
  rw [List.perm_ext_iff_of_nodup hnd.2.1 hw.inputs_nodup]
  intro n
  have hmem : n ∈ [0, 1] ++ cis ↔ ntk.IsSource n := horder ▸ h.mem_topoOrder_flush
  rw [List.mem_append, mem_constants, TechnologyNetwork.IsSource] at hmem
  constructor
  · intro hn
    refine (hmem.mp (.inr hn)).resolve_left fun hle => ?_
    exact hnd.2.2 n (mem_constants.mpr hle) n hn rfl
  · intro hn
    have h2 := (hw.input n hn).1
    exact (hmem.mpr (.inr hn)).resolve_left (by omega)

theorem Sorting.mark_flush (h : Sorting ntk s) (n : ℕ) :
    (flush ntk s).mark n = if ntk.IsSource n then .permanent else .unmarked := by
  obtain ⟨hs, -⟩ := h.sorting_flush
  have hv := hs.visited n
  rw [listed_cleared, h.mem_topoOrder_flush, WaitState.visited_iff] at hv
  split_ifs with hn
  · exact hv.mpr hn
  · cases hmark : (flush ntk s).mark n with
    | unmarked => rfl
    | temporary => exact absurd hmark (hs.mark n)
    | permanent => exact absurd (hv.mp hmark) hn

end Flush

section Order

variable {ntk : TechnologyNetwork} {V : FanoutView ntk} {s : WaitState} {n : ℕ}

/-- Outputs depend on the nodes in their cones. -/
inductive InCone (ntk : TechnologyNetwork) : ℕ → Prop
  | output {o : ℕ} (ho : o ∈ ntk.outputs) : InCone ntk o
  | fanin {n c : ℕ} (hn : InCone ntk n) (hs : ¬ ntk.IsSource n) (hc : c ∈ (ntk.node n).children) :
    InCone ntk c

/-- Constants, inputs and the gates of the cones, each of them once, and gates after their
fan-ins. -/
structure InputSorted (ntk : TechnologyNetwork) (cis gates order : List ℕ) : Prop where
  eq : order = [0, 1] ++ cis ++ gates
  nodup : order.Nodup
  perm : cis.Perm ntk.inputs
  mem_gates : ∀ n, n ∈ gates ↔ InCone ntk n ∧ ¬ ntk.IsSource n
  sorted : ntk.graph.Sorted ntk.IsSource gates

theorem visitCo_eq (s : State ℕ) (f : ℕ) : visitCo ntk s f = createTopoRec ntk s f := by
  unfold visitCo createTopoRec
  split_ifs with h
  · rw [visit, h]
  · rfl

theorem child_lt (hb : InverterBalancing.Built ntk) {m d : ℕ} (hd : d ∈ (ntk.node m).children) :
    d < m ∧ m < ntk.size := by
  by_cases hm : m < ntk.size
  · exact ⟨hb.child_lt m hm d hd, hm⟩
  · rw [node, List.getD_eq_getElem?_getD, List.getElem?_eq_none (not_lt.mp hm)] at hd
    cases hd

/-- The search does not fail. -/
theorem exists_visitCos (hb : InverterBalancing.Built ntk) (hs : Sorting ntk s) :
    ∃ s' gates, ntk.outputs.foldlM (visitCo ntk) ⟨(flush ntk s).topoOrder, (flush ntk s).mark⟩ =
        some s' ∧ s'.order = (flush ntk s).topoOrder ++ gates ∧
      ntk.graph.Sorted ntk.IsSource gates ∧ (∀ o ∈ ntk.outputs, ntk.IsSource o ∨ o ∈ gates) ∧
      ∀ n ∈ gates, n ∈ ntk.outputs ∨ ∃ m ∈ gates, n ∈ (ntk.node m).children := by
  have hmark := hs.mark_flush
  generalize (flush ntk s).mark = mark at hmark
  have hvisit : ∀ o ∈ ntk.outputs, VisitsWell ntk.graph id (ntk.size + 1) o := fun o ho =>
    visitsWell (fun m d hd => (child_lt hb hd).1) (Nat.lt_succ_of_lt (hb.output_lt o ho))
  have htemp : ∀ o ∈ ntk.outputs, ∀ m, mark m = .temporary → o < m := by
    intro o _ m hm
    rw [hmark] at hm
    split_ifs at hm
  obtain ⟨s', gates, hrun, hext, hall, hneeded⟩ :=
    exists_foldlM_visit hvisit ⟨(flush ntk s).topoOrder, mark⟩ htemp
  have hknown : (fun n => mark n = .permanent) = ntk.IsSource := by
    funext n
    rw [hmark]
    split_ifs with hn
    · exact propext ⟨fun _ => hn, fun _ => rfl⟩
    · exact propext ⟨fun h => (nomatch h), fun h => absurd h hn⟩
  have hvisitCo : visitCo ntk = visit ntk.graph (ntk.size + 1) :=
    funext fun s => funext fun f => visitCo_eq s f
  rw [hvisitCo]
  refine ⟨s', gates, hrun, hext.order, hknown ▸ hext.sorted, fun o ho => ?_, hneeded⟩
  have hlisted := hext.permanent_iff.mp (hall o ho)
  rwa [congrFun hknown o] at hlisted

theorem mem_gates_iff (hb : InverterBalancing.Built ntk) {gates : List ℕ}
    (hsorted : ntk.graph.Sorted ntk.IsSource gates)
    (houtputs : ∀ o ∈ ntk.outputs, ntk.IsSource o ∨ o ∈ gates)
    (hneeded : ∀ n ∈ gates, n ∈ ntk.outputs ∨ ∃ m ∈ gates, n ∈ (ntk.node m).children) :
    n ∈ gates ↔ InCone ntk n ∧ ¬ ntk.IsSource n := by
  constructor
  · intro hn
    refine ⟨?_, hsorted.not_known n hn⟩
    -- on the way to an output the gates get newer
    have hnewer : ∀ k n, ntk.size ≤ n + k → n ∈ gates → InCone ntk n := by
      intro k
      induction k with
      | zero =>
        intro n hk hn
        rcases hneeded n hn with ho | ⟨m, -, hc⟩
        · exact .output ho
        · have hlt := child_lt hb hc
          omega
      | succ k ih =>
        intro n hk hn
        rcases hneeded n hn with ho | ⟨m, hm, hc⟩
        · exact .output ho
        · have hlt := child_lt hb hc
          exact .fanin (ih m (by omega) hm) (hsorted.not_known m hm) hc
    exact hnewer ntk.size n (Nat.le_add_left _ _) hn
  · rintro ⟨hcone, hns⟩
    have hmem : ntk.IsSource n ∨ n ∈ gates := by
      clear hns
      induction hcone with
      | output ho => exact houtputs _ ho
      | fanin _ hs hc ih => exact hsorted.deps (ih.resolve_left hs) hc
    exact hmem.resolve_left hns

theorem Sorting.exists_order (hb : InverterBalancing.Built ntk) (hs : Sorting ntk s) :
    ∃ s' cis gates,
      ntk.outputs.foldlM (visitCo ntk) ⟨(flush ntk s).topoOrder, (flush ntk s).mark⟩ = some s' ∧
      InputSorted ntk cis gates s'.order := by
  obtain ⟨s', gates, hrun, horder, hsorted, houtputs, hneeded⟩ := exists_visitCos hb hs
  obtain ⟨cis, hcis, hperm⟩ := hs.exists_topoOrder_flush hb.wellFormed
  refine ⟨s', cis, gates, hrun, by rw [horder, hcis], ?_, hperm,
    fun n => mem_gates_iff hb hsorted houtputs hneeded, hsorted⟩
  rw [horder, List.nodup_append]
  refine ⟨?_, hsorted.nodup, fun n hn m hm heq => ?_⟩
  · rw [← listed_cleared]
    exact hs.sorting_flush.1.nodup
  · exact hsorted.not_known m hm (heq ▸ hs.mem_topoOrder_flush.mp hn)

/-- Once the inputs have been sorted, the order is found. -/
theorem exists_updateTopo_iff (hb : InverterBalancing.Built ntk) :
    (∃ order, updateTopo V = some order ∧ ∃ cis gates, InputSorted ntk cis gates order) ↔
      ∃ s, ntk.inputs.foldlM (sortCi V) initialState = some s := by
  constructor
  · rintro ⟨order, h, -⟩
    rw [updateTopo, Option.bind_eq_bind, Option.bind_eq_some_iff] at h
    obtain ⟨s, hs, -⟩ := h
    exact ⟨s, hs⟩
  · rintro ⟨s, hs⟩
    have hsorting : Sorting ntk s :=
      invariant_foldlM (fun n hn _ _ h h' => h.sortCi hn h') sorting_initialState hs
    obtain ⟨s', cis, gates, hrun, horder⟩ := hsorting.exists_order hb
    refine ⟨s'.order, ?_, cis, gates, horder⟩
    rw [updateTopo, hs]
    change (ntk.outputs.foldlM (visitCo ntk) ⟨(flush ntk s).topoOrder, (flush ntk s).mark⟩).bind
      (fun s => some s.order) = some s'.order
    rw [hrun]
    rfl

theorem inputSorted_of_updateTopo (hb : InverterBalancing.Built ntk) {order : List ℕ}
    (h : updateTopo V = some order) : ∃ cis gates, InputSorted ntk cis gates order := by
  have hrun := h
  rw [updateTopo, Option.bind_eq_bind, Option.bind_eq_some_iff] at hrun
  obtain ⟨s, hs, -⟩ := hrun
  obtain ⟨order', h', hsorted⟩ := (exists_updateTopo_iff hb).mpr ⟨s, hs⟩
  obtain rfl := Option.some.inj (h.symm.trans h')
  exact hsorted

end Order

end Fiction.TopoViewInputSort
