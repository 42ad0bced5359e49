import Mathlib.Data.List.Induction
import Mathlib.Logic.Function.Basic
import Mathlib.Tactic.Common

/-!
# Evaluation of acyclic dependency graphs

Each node of a `Graph` depends on a list of nodes and computes its value from theirs. Along a list
of nodes that is `Sorted` over a set of known nodes, `evaluate` computes the only valuation that
extends the known values. A map from another graph pulls this valuation back to a solution there if
the values at the images follow the rules of the other graph.
-/

namespace Fiction

structure Graph (α β : Type*) where
  deps : α → List α
  rule : α → List β → β

namespace Graph

variable {α β : Type*} (g : Graph α β)

/-- Every node of the list is new and depends on known and on earlier nodes only. -/
def Sorted : (α → Prop) → List α → Prop
  | _, [] => True
  | known, n :: ns =>
    ¬ known n ∧ (∀ d ∈ g.deps n, known d) ∧ Sorted (fun m => known m ∨ m = n) ns

/-- `v` extends the values of the known nodes and obeys the rules of the listed nodes. -/
structure Solves (known : α → Prop) (ns : List α) (base v : α → β) : Prop where
  base : ∀ n, known n → v n = base n
  rule : ∀ n ∈ ns, v n = g.rule n ((g.deps n).map v)

def evaluate [DecidableEq α] (ns : List α) (base : α → β) : α → β :=
  ns.foldl (fun v n => Function.update v n (g.rule n ((g.deps n).map v))) base

variable {g}

theorem Sorted.not_known {known : α → Prop} {ns : List α} (h : g.Sorted known ns) :
    ∀ n ∈ ns, ¬ known n := by
  induction ns generalizing known with
  | nil => simp
  | cons n ns ih =>
    intro m hm
    rcases List.mem_cons.mp hm with rfl | hm
    · exact h.1
    · exact fun hk => ih h.2.2 m hm (.inl hk)

theorem Sorted.congr {γ : Type*} {g' : Graph α γ} (hd : ∀ n, g'.deps n = g.deps n)
    {known : α → Prop} {ns : List α} (h : g.Sorted known ns) : g'.Sorted known ns := by
  induction ns generalizing known with
  | nil => trivial
  | cons n ns ih =>
    obtain ⟨hn, hdeps, hrest⟩ := h
    exact ⟨hn, fun d hmem => hdeps d (hd n ▸ hmem), ih hrest⟩

theorem Sorted.congr_of_mem {γ : Type*} {g' : Graph α γ} {known : α → Prop} {ns : List α}
    (hd : ∀ n ∈ ns, g'.deps n = g.deps n) (h : g.Sorted known ns) : g'.Sorted known ns := by
  induction ns generalizing known with
  | nil => trivial
  | cons n ns ih =>
    obtain ⟨hn, hdeps, hrest⟩ := h
    refine ⟨hn, fun d hmem => hdeps d ?_, ih (fun m hm => hd m (List.mem_cons_of_mem n hm)) hrest⟩
    rwa [← hd n List.mem_cons_self]

theorem Sorted.nodup {known : α → Prop} {ns : List α} (h : g.Sorted known ns) : ns.Nodup := by
  induction ns generalizing known with
  | nil => exact .nil
  | cons n ns ih =>
    exact List.nodup_cons.mpr ⟨fun hm => h.2.2.not_known n hm (.inr rfl), ih h.2.2⟩

theorem sorted_append {known : α → Prop} {ns ns' : List α} :
    g.Sorted known (ns ++ ns') ↔
      g.Sorted known ns ∧ g.Sorted (fun m => known m ∨ m ∈ ns) ns' := by
  induction ns generalizing known with
  | nil => simp [Sorted]
  | cons n ns ih =>
    have hk : (fun m => (known m ∨ m = n) ∨ m ∈ ns) = fun m => known m ∨ m ∈ n :: ns := by
      funext m
      simp only [List.mem_cons, or_assoc]
    simp only [List.cons_append, Sorted, ih, hk, and_assoc]

theorem Sorted.next {known : α → Prop} {ns pre suf : List α} {n : α} (h : g.Sorted known ns)
    (hns : ns = pre ++ n :: suf) :
    n ∈ ns ∧ ¬ (known n ∨ n ∈ pre) ∧ ∀ d ∈ g.deps n, known d ∨ d ∈ pre := by
  subst hns
  obtain ⟨-, hnew, hdeps, -⟩ := sorted_append.mp h
  exact ⟨List.mem_append_right _ List.mem_cons_self, hnew, hdeps⟩

theorem Sorted.deps {known : α → Prop} {ns : List α} (h : g.Sorted known ns) {n : α} (hn : n ∈ ns)
    {d : α} (hd : d ∈ g.deps n) : known d ∨ d ∈ ns := by
  obtain ⟨l, l', rfl⟩ := List.append_of_mem hn
  obtain ⟨-, -, hdeps⟩ := h.next rfl
  exact (hdeps d hd).imp_right (List.mem_append_left _)

/-- Nodes that only depend on known ones can be listed in any order. -/
theorem sorted_of_known {known : α → Prop} {ns : List α} (hnd : ns.Nodup)
    (hn : ∀ n ∈ ns, ¬ known n) (hdeps : ∀ n ∈ ns, ∀ d ∈ g.deps n, known d) :
    g.Sorted known ns := by
  induction ns generalizing known with
  | nil => trivial
  | cons n ns ih =>
    obtain ⟨hnotMem, hnd⟩ := List.nodup_cons.mp hnd
    refine ⟨hn n List.mem_cons_self, hdeps n List.mem_cons_self, ih hnd ?_ ?_⟩
    · rintro m hm (hk | rfl)
      · exact hn m (List.mem_cons_of_mem n hm) hk
      · exact hnotMem hm
    · exact fun m hm d hd => .inl (hdeps m (List.mem_cons_of_mem n hm) d hd)

theorem Sorted.induction {known : α → Prop} {ns : List α} (hs : g.Sorted known ns) {P : α → Prop}
    (hbase : ∀ n, known n → P n) (hrule : ∀ n ∈ ns, (∀ d ∈ g.deps n, P d) → P n) {n : α}
    (hn : known n ∨ n ∈ ns) : P n := by
  induction ns generalizing known with
  | nil => exact hbase n (hn.resolve_right List.not_mem_nil)
  | cons m ns ih =>
    obtain ⟨-, hdeps, hrest⟩ := hs
    have hm : P m := hrule m List.mem_cons_self fun d hd => hbase d (hdeps d hd)
    refine ih hrest (fun k hk => ?_) (fun k hk => hrule k (List.mem_cons_of_mem m hk)) ?_
    · rcases hk with hk | rfl
      · exact hbase k hk
      · exact hm
    · rcases hn with hn | hn
      · exact .inl (.inl hn)
      · exact (List.mem_cons.mp hn).imp .inr id

theorem Sorted.weaken {γ : Type*} {g' : Graph α γ} {known known' : α → Prop} {ns : List α}
    (h : g.Sorted known ns) (hk : ∀ n, known n → known' n) (hn : ∀ n ∈ ns, ¬ known' n)
    (hd : ∀ n ∈ ns, ∀ d ∈ g'.deps n, d ∈ g.deps n) : g'.Sorted known' ns := by
  induction ns generalizing known known' with
  | nil => trivial
  | cons n ns ih =>
    obtain ⟨hnew, hdeps, hrest⟩ := h
    refine ⟨hn n List.mem_cons_self, fun d hmem => hk d (hdeps d (hd n List.mem_cons_self d hmem)),
      ih hrest (fun m hm => hm.imp_left (hk m)) ?_ fun m hm => hd m (List.mem_cons_of_mem n hm)⟩
    rintro m hm (hkm | rfl)
    · exact hn m (List.mem_cons_of_mem n hm) hkm
    · exact hrest.not_known m hm (.inr rfl)

/-- Listed nodes may be taken for known ones instead. -/
theorem Sorted.filter {known : α → Prop} {ns : List α} (h : g.Sorted known ns) (p : α → Bool) :
    g.Sorted (fun n => known n ∨ n ∈ ns ∧ p n = false) (ns.filter p) := by
  induction ns generalizing known with
  | nil => trivial
  | cons n ns ih =>
    obtain ⟨hnew, hdeps, hrest⟩ := h
    have hnot := hrest.not_known
    cases hp : p n with
    | true =>
      rw [List.filter_cons_of_pos hp]
      refine ⟨?_, fun d hd => .inl (hdeps d hd), ?_⟩
      · rintro (hk | ⟨-, hp'⟩)
        · exact hnew hk
        · exact Bool.noConfusion (hp.symm.trans hp')
      · apply (ih hrest).weaken
        · rintro m ((hk | rfl) | ⟨hm, hpm⟩)
          · exact .inl (.inl hk)
          · exact .inr rfl
          · exact .inl (.inr ⟨List.mem_cons_of_mem n hm, hpm⟩)
        · rintro m hm ((hk | ⟨-, hpm⟩) | rfl)
          · exact hnot m (List.mem_filter.mp hm).1 (.inl hk)
          · exact Bool.noConfusion ((List.mem_filter.mp hm).2.symm.trans hpm)
          · exact hnot m (List.mem_filter.mp hm).1 (.inr rfl)
        · exact fun _ _ _ hd => hd
    | false =>
      rw [List.filter_cons_of_neg (by rw [hp]; exact Bool.false_ne_true)]
      apply (ih hrest).weaken
      · rintro m ((hk | rfl) | ⟨hm, hpm⟩)
        · exact .inl hk
        · exact .inr ⟨List.mem_cons_self, hp⟩
        · exact .inr ⟨List.mem_cons_of_mem n hm, hpm⟩
      · rintro m hm (hk | ⟨-, hpm⟩)
        · exact hnot m (List.mem_filter.mp hm).1 (.inl hk)
        · exact Bool.noConfusion ((List.mem_filter.mp hm).2.symm.trans hpm)
      · exact fun _ _ _ hd => hd

/-- Solutions along two sorted lists agree on the nodes that both list. -/
theorem Solves.eq_of_mem {known : α → Prop} {ns ns' : List α} {base v w : α → β}
    (hs : g.Sorted known ns) (hs' : g.Sorted known ns') (hv : g.Solves known ns base v)
    (hw : g.Solves known ns' base w) {n : α} (hn : known n ∨ n ∈ ns) (hn' : known n ∨ n ∈ ns') :
    v n = w n := by
  refine hs.induction (P := fun n => known n ∨ n ∈ ns' → v n = w n) ?_ ?_ hn hn'
  · intro n hk _
    rw [hv.base n hk, hw.base n hk]
  · intro n hn hdeps hmem
    have hlisted := hmem.resolve_left (hs.not_known n hn)
    rw [hv.rule n hn, hw.rule n hlisted]
    exact congrArg _ (List.map_congr_left fun d hd => hdeps d hd (hs'.deps hlisted hd))

theorem Solves.unique {known : α → Prop} {ns : List α} {base v w : α → β}
    (hs : g.Sorted known ns) (hv : g.Solves known ns base v) (hw : g.Solves known ns base w) {n : α}
    (hn : known n ∨ n ∈ ns) : v n = w n := by
  refine hs.induction (P := fun n => v n = w n) (fun n hk => ?_) (fun n hn hdeps => ?_) hn
  · rw [hv.base n hk, hw.base n hk]
  · rw [hv.rule n hn, hw.rule n hn]
    exact congrArg _ (List.map_congr_left hdeps)

section Evaluate

variable [DecidableEq α]

theorem evaluate_of_notMem {ns : List α} {base : α → β} {n : α} (hn : n ∉ ns) :
    g.evaluate ns base n = base n := by
  induction ns generalizing base with
  | nil => rfl
  | cons m ns ih =>
    have hm : n ≠ m := fun h => hn (h ▸ List.mem_cons_self)
    have h : g.evaluate ns (Function.update base m (g.rule m ((g.deps m).map base))) n =
        Function.update base m (g.rule m ((g.deps m).map base)) n :=
      ih fun h => hn (List.mem_cons_of_mem m h)
    rw [Function.update_of_ne hm] at h
    exact h

theorem evaluate_append (ns ns' : List α) (base : α → β) :
    g.evaluate (ns ++ ns') base = g.evaluate ns' (g.evaluate ns base) := by
  simp only [evaluate, List.foldl_append]

theorem evaluate_solves {known : α → Prop} {ns : List α} (hs : g.Sorted known ns) (base : α → β) :
    g.Solves known ns base (g.evaluate ns base) := by
  refine ⟨fun n hn => evaluate_of_notMem fun h => hs.not_known n h hn, ?_⟩
  induction ns using List.reverseRecOn with
  | nil => simp
  | append_singleton ns m ih =>
    obtain ⟨hs₁, hs₂⟩ := sorted_append.mp hs
    have hlast : g.evaluate (ns ++ [m]) base = Function.update (g.evaluate ns base) m
        (g.rule m ((g.deps m).map (g.evaluate ns base))) := evaluate_append ns [m] base
    have hm : ∀ k, known k ∨ k ∈ ns → k ≠ m := fun k hk he => hs₂.1 (he ▸ hk)
    have hdeps : ∀ k, (∀ d ∈ g.deps k, known d ∨ d ∈ ns) →
        (g.deps k).map (g.evaluate (ns ++ [m]) base) = (g.deps k).map (g.evaluate ns base) := by
      refine fun k hk => List.map_congr_left fun d hd => ?_
      rw [hlast, Function.update_of_ne (hm d (hk d hd))]
    intro n hn
    rcases List.mem_append.mp hn with hn | hn
    · rw [hdeps n fun d hd => hs₁.deps hn hd, hlast, Function.update_of_ne (hm n (.inr hn)),
        ih hs₁ n hn]
    · obtain rfl := List.mem_singleton.mp hn
      rw [hdeps n hs₂.2.1, hlast, Function.update_self]

end Evaluate

section Pullback

variable {α' : Type*} {g' : Graph α' β} {f : α' → α}

/-- If each node follows from the solution at the images of its dependencies, the solution can be
pulled back. -/
theorem Solves.pullback {known : α → Prop} {ns : List α} {base v : α → β}
    {known' : α' → Prop} {ns' : List α'} {base' : α' → β} (hv : g.Solves known ns base v)
    (hk : ∀ n, known' n → known (f n) ∧ base' n = base (f n))
    (hns : ∀ n ∈ ns', v (f n) = g'.rule n ((g'.deps n).map (v ∘ f))) :
    g'.Solves known' ns' base' (v ∘ f) where
  base n hn := by rw [Function.comp_apply, hv.base _ (hk n hn).1, (hk n hn).2]
  rule := hns

end Pullback

end Graph
end Fiction
