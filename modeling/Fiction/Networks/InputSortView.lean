import Fiction.Networks.InputSortRuns

/-!
# The view that sorts inputs along the nodes

`input_sort_view` goes over all nodes in the order of their creation. Constants and gates are listed
when they are met. An input is listed at once for each of its fan-outs that leads to a fan-out node,
and is queued otherwise if the gate behind its fan-out reads another input. Before the first gate,
the queue is listed. Whether a node is unvisited is decided by a comparison of a truth value with
the traversal identifier. Reading outside of a vector and failed assertions are `none`.
-/

namespace Fiction.InputSortView

open TechnologyNetwork TopoViewInputSort

structure SortState where
  topoOrder : List ℕ
  wait : List ℕ
  visited : ℕ → UInt32
  numC : ℕ
  pushedPis : Bool

section View

variable {ntk : TechnologyNetwork} (V : FanoutView ntk) (travId : UInt32)

/-- `!visited(n) == trav_id()` -/
def isUnvisited (s : SortState) (n : ℕ) : Bool := (if s.visited n = 0 then 1 else 0) = travId

def setVisited (s : SortState) (n : ℕ) : SortState :=
  { s with visited := Function.update s.visited n travId }

def waitFront (s : SortState) (n : ℕ) : SortState :=
  if isUnvisited travId s n then setVisited travId { s with wait := n :: s.wait } n else s

def waitBack (s : SortState) (n : ℕ) : SortState :=
  if isUnvisited travId s n then setVisited travId { s with wait := s.wait ++ [n] } n else s

def gatherOutputs (n : ℕ) : List ℕ :=
  (V.fanouts n).foldl (fun output fon =>
    if ntk.isInv fon then
      (V.fanouts fon).foldl (fun output fonInv => fonInv :: output) output
    else output ++ [fon]) []

/-- The vector `output_node` for a fan-out. -/
def outputNodes (fon : ℕ) : List ℕ :=
  if ntk.isFanout (skipInverter V fon) then gatherOutputs V (skipInverter V fon)
  else [skipInverter V fon]

variable (ntk) in
/-- One fan-in of an output node. Behind a node that is used twice, inputs are only looked for. -/
def sortFanin (n : ℕ) (isFanOut : Bool) (s : SortState) (fi : ℕ) : Option SortState := do
  let finInp ← ignoreInverter ntk fi
  if ntk.fanoutSize finInp ≥ 2 then
    let _ ← (ntk.node finInp).children.mapM (ignoreInverter ntk)
    some s
  else if ntk.isCi finInp ∧ finInp ≠ n then
    if isFanOut then some (waitFront travId s finInp)
    else some (waitBack travId (waitBack travId s n) finInp)
  else some s

def sortFanout (n : ℕ) (s : SortState) (fon : ℕ) : Option SortState :=
  let isFanOut := ntk.isFanout (skipInverter V fon)
  let s := if isFanOut then { s with topoOrder := s.topoOrder ++ [n] } else s
  (outputNodes V fon).foldlM
    (fun s out => (ntk.node out).children.foldlM (sortFanin ntk travId n isFanOut) s) s

def pushGate (s : SortState) (n : ℕ) : SortState :=
  let s := if s.pushedPis then s else
    { s with topoOrder := s.topoOrder ++ s.wait, pushedPis := true }
  { s with topoOrder := s.topoOrder ++ [n] }

def sortNode (s : SortState) (n : ℕ) : Option SortState :=
  if isConstant n then
    some (setVisited travId { s with topoOrder := s.topoOrder ++ [n], numC := s.numC + 1 } n)
  else if ntk.isCi n then
    if isUnvisited travId s n then (V.fanouts n).foldlM (sortFanout V travId n) s else some s
  else some (pushGate s n)

end View

/-- The traversal identifier and the marks of the network are those that earlier traversals left. -/
def copyAndSort {ntk : TechnologyNetwork} (V : FanoutView ntk) (travId : UInt32)
    (visited : ℕ → UInt32) : Option SortState :=
  (List.range ntk.size).foldlM (sortNode V (travId + 1)) ⟨[], [], visited, 0, false⟩

/-- The members that the iterations read. -/
structure View where
  topoOrder : List ℕ
  numP : ℕ
  numC : ℕ

def inputSortView {ntk : TechnologyNetwork} (V : FanoutView ntk) (travId : UInt32)
    (visited : ℕ → UInt32) : Option View := do
  let s ← copyAndSort V travId visited
  some ⟨s.topoOrder, ntk.numPis, s.numC⟩

namespace View

def foreachNode (v : View) : List ℕ := v.topoOrder

def foreachCi (v : View) : List ℕ := (v.topoOrder.drop v.numC).take v.numP

def foreachPi (v : View) : List ℕ := (v.topoOrder.drop v.numC).take v.numP

end View

/-- Every node once, the inputs before the gates, gates after their fan-ins, and the iterations over
inputs. -/
structure InputSorted (ntk : TechnologyNetwork) (v : View) : Prop where
  nodup : v.foreachNode.Nodup
  mem : ∀ n, n ∈ v.foreachNode ↔ n < ntk.size
  inputs : v.foreachNode.Pairwise fun n m => n ∈ ntk.creationOrder → m ∉ ntk.inputs
  fanins : v.foreachNode.Pairwise fun n m => m ∉ (ntk.node n).children
  foreachCi : v.foreachCi.Perm ntk.inputs
  foreachPi : v.foreachPi.Perm ntk.foreachPi

section Steps

variable {ntk : TechnologyNetwork} {travId : UInt32} {s s' s'' : SortState} {n m : ℕ}
  {xs ys : List ℕ}

theorem visited_setVisited (s : SortState) (n m : ℕ) :
    (setVisited travId s n).visited m = if m = n then travId else s.visited m :=
  Function.update_apply ..

theorem isUnvisited_setVisited : isUnvisited travId (setVisited travId s n) m = true ↔
    isUnvisited travId s m = true ∧ m ≠ n := by
  rw [isUnvisited, isUnvisited, visited_setVisited]
  by_cases hm : m = n
  · rw [if_pos hm]
    refine iff_of_false (fun h => ?_) fun h => h.2 hm
    have h := of_decide_eq_true h
    split_ifs at h with h0
    · rw [h0] at h
      cases h
    · exact h0 h.symm
  · rw [if_neg hm]
    exact (and_iff_left hm).symm

/-- `s'` has the unvisited ones of `xs` in its queue in addition to `s`, and as visited. -/
structure Queues (travId : UInt32) (s s' : SortState) (xs : List ℕ) : Prop where
  topoOrder : s'.topoOrder = s.topoOrder
  numC : s'.numC = s.numC
  pushedPis : s'.pushedPis = s.pushedPis
  unvisited : ∀ x, isUnvisited travId s' x = true ↔ isUnvisited travId s x = true ∧ x ∉ xs
  mem_wait : ∀ x, x ∈ s'.wait ↔ x ∈ s.wait ∨ isUnvisited travId s x = true ∧ x ∈ xs
  nodup : s.wait.Nodup → (∀ x ∈ s.wait, isUnvisited travId s x = false) → s'.wait.Nodup

theorem Queues.refl : Queues travId s s [] :=
  ⟨rfl, rfl, rfl, by simp, by simp, fun h _ => h⟩

theorem Queues.trans (h : Queues travId s s' xs) (h' : Queues travId s' s'' ys) :
    Queues travId s s'' (xs ++ ys) where
  topoOrder := h'.topoOrder.trans h.topoOrder
  numC := h'.numC.trans h.numC
  pushedPis := h'.pushedPis.trans h.pushedPis
  unvisited x := by rw [h'.unvisited, h.unvisited, List.mem_append, not_or, and_assoc]
  mem_wait x := by
    rw [h'.mem_wait, h.mem_wait, h.unvisited, List.mem_append]
    tauto
  nodup hnd hv := by
    refine h'.nodup (h.nodup hnd hv) fun x hx => ?_
    rw [Bool.eq_false_iff, Ne, h.unvisited]
    rcases (h.mem_wait x).mp hx with hx | hx
    · rw [hv x hx]
      simp
    · exact fun hc => hc.2 hx.2

theorem queues_waitFront : Queues travId s (waitFront travId s n) [n] := by
  unfold waitFront
  split_ifs with hn
  · refine ⟨rfl, rfl, rfl, fun x => ?_, fun x => ?_, fun hnd hv => ?_⟩
    · rw [isUnvisited_setVisited, List.mem_singleton]
      rfl
    · change x ∈ n :: s.wait ↔ _
      rw [List.mem_cons, List.mem_singleton, or_comm]
      exact or_congr_right ⟨fun hx => ⟨hx ▸ hn, hx⟩, And.right⟩
    · refine List.nodup_cons.mpr ⟨fun hmem => ?_, hnd⟩
      rw [hv n hmem] at hn
      cases hn
  · refine ⟨rfl, rfl, rfl, fun x => ?_, fun x => ?_, fun hnd _ => hnd⟩
    · rw [List.mem_singleton]
      exact ⟨fun hx => ⟨hx, fun he => hn (he ▸ hx)⟩, And.left⟩
    · rw [List.mem_singleton]
      exact ⟨.inl, fun hx => hx.resolve_right fun hx => hn (hx.2 ▸ hx.1)⟩

theorem queues_waitBack : Queues travId s (waitBack travId s n) [n] := by
  have h := @queues_waitFront travId s n
  unfold waitFront at h
  unfold waitBack
  split_ifs at h ⊢ with hn
  · refine ⟨rfl, rfl, rfl, h.unvisited, fun x => ?_, fun hnd hv => ?_⟩
    · rw [← h.mem_wait]
      exact (List.perm_append_singleton n s.wait).mem_iff
    · exact (List.perm_append_singleton n s.wait).nodup_iff.mpr (h.nodup hnd hv)
  · exact h

end Steps

section Fanins

variable {ntk : TechnologyNetwork} (V : FanoutView ntk) {travId : UInt32} {s s' : SortState}
  {n m fon : ℕ} {isFanOut : Bool}

def inspected (fon : ℕ) : List ℕ := (outputNodes V fon).flatMap fun out => (ntk.node out).children

def faninTouches (ntk : TechnologyNetwork) (n : ℕ) (isFanOut : Bool) (fi : ℕ) : List ℕ :=
  match ignoreInverter ntk fi with
  | none => []
  | some x =>
    if ntk.fanoutSize x < 2 ∧ ntk.isCi x ∧ x ≠ n then if isFanOut then [x] else [n, x] else []

def fanoutTouches (n fon : ℕ) : List ℕ :=
  (inspected V fon).flatMap (faninTouches ntk n (ntk.isFanout (skipInverter V fon)))

/-- The inputs that are queued in the turn of input `n`, if they are unvisited. -/
def touches (n : ℕ) : List ℕ := (V.fanouts n).flatMap (fanoutTouches V n)

def FaninFound (ntk : TechnologyNetwork) (fi : ℕ) : Prop :=
  ∃ x, ignoreInverter ntk fi = some x ∧
    (2 ≤ ntk.fanoutSize x → ∀ fin ∈ (ntk.node x).children, ∃ y, ignoreInverter ntk fin = some y)

variable {V}

instance (fi : ℕ) : Decidable (FaninFound ntk fi) :=
  decidable_of_iff ((ignoreInverter ntk fi).any (fun x => decide (2 ≤ ntk.fanoutSize x →
    ∀ fin ∈ (ntk.node x).children, (ignoreInverter ntk fin).isSome = true)) = true) <| by
      simp only [FaninFound, Option.any_eq_true, decide_eq_true_eq, Option.isSome_iff_exists]

theorem exists_sortFanin_iff (s : SortState) (fi : ℕ) :
    (∃ s', sortFanin ntk travId n isFanOut s fi = some s') ↔ FaninFound ntk fi := by
  cases hx : ignoreInverter ntk fi with
  | none =>
    refine iff_of_false ?_ ?_
    · rintro ⟨s', h⟩
      rw [sortFanin, hx] at h
      cases h
    · rintro ⟨x, hx', -⟩
      rw [hx] at hx'
      cases hx'
  | some x =>
    have hfound : FaninFound ntk fi ↔ (2 ≤ ntk.fanoutSize x →
        ∀ fin ∈ (ntk.node x).children, ∃ y, ignoreInverter ntk fin = some y) := by
      rw [FaninFound, hx]
      simp only [Option.some.injEq, exists_eq_left']
    rw [hfound, sortFanin, hx]
    simp only [Option.bind_eq_bind, Option.bind_some]
    split_ifs with hsize hci hfan
    · rw [imp_iff_right hsize, ← exists_mapM_iff]
      constructor
      · rintro ⟨s', h⟩
        obtain ⟨ys, hys, -⟩ := Option.bind_eq_some_iff.mp h
        exact ⟨ys, hys⟩
      · rintro ⟨ys, hys⟩
        exact ⟨s, by rw [hys]; rfl⟩
    all_goals exact iff_of_true ⟨_, rfl⟩ fun hc => absurd hc hsize

theorem queues_sortFanin {fi : ℕ} (h : sortFanin ntk travId n isFanOut s fi = some s') :
    Queues travId s s' (faninTouches ntk n isFanOut fi) := by
  obtain ⟨x, hx, h⟩ := Option.bind_eq_some_iff.mp h
  rw [faninTouches, hx]
  simp only
  split_ifs at h with hsize hci hfan
  · obtain ⟨ys, -, h⟩ := Option.bind_eq_some_iff.mp h
    obtain rfl := Option.some.inj h
    rw [if_neg fun hc => by omega]
    exact .refl
  · obtain rfl := Option.some.inj h
    rw [if_pos ⟨by omega, hci⟩, if_pos hfan]
    exact queues_waitFront
  · obtain rfl := Option.some.inj h
    rw [if_pos ⟨by omega, hci⟩, if_neg hfan]
    exact queues_waitBack.trans queues_waitBack
  · obtain rfl := Option.some.inj h
    rw [if_neg fun hc => hci hc.2]
    exact .refl

theorem queues_foldlM {ι : Type*} {body : SortState → ι → Option SortState} {f : ι → List ℕ}
    (hbody : ∀ s l s', body s l = some s' → Queues travId s s' (f l)) {ls : List ι}
    (h : ls.foldlM body s = some s') : Queues travId s s' (ls.flatMap f) := by
  induction ls generalizing s with
  | nil =>
    obtain rfl := Option.some.inj h
    exact .refl
  | cons l ls ih =>
    rw [List.foldlM_cons] at h
    obtain ⟨s₁, h₁, h⟩ := Option.bind_eq_some_iff.mp h
    exact (hbody _ _ _ h₁).trans (ih h)

/-- The state in which the fan-ins behind a fan-out are looked at. -/
def pushDirect (V : FanoutView ntk) (n fon : ℕ) (s : SortState) : SortState :=
  if ntk.isFanout (skipInverter V fon) then { s with topoOrder := s.topoOrder ++ [n] } else s

theorem sortFanout_eq (s : SortState) : sortFanout V travId n s fon =
    (inspected V fon).foldlM (sortFanin ntk travId n (ntk.isFanout (skipInverter V fon)))
      (pushDirect V n fon s) := foldlM_flatMap _ _

theorem exists_sortFanout_iff (s : SortState) : (∃ s', sortFanout V travId n s fon = some s') ↔
    ∀ fi ∈ inspected V fon, FaninFound ntk fi := by
  rw [sortFanout_eq]
  exact exists_foldlM_iff exists_sortFanin_iff

theorem queues_sortFanout (h : sortFanout V travId n s fon = some s') :
    Queues travId (pushDirect V n fon s) s' (fanoutTouches V n fon) := by
  rw [sortFanout_eq] at h
  exact @queues_foldlM _ _ _ _ (sortFanin ntk travId n _) _ (fun _ _ _ => queues_sortFanin) _ h

end Fanins

section Meetings

variable {ntk : TechnologyNetwork} {V : FanoutView ntk} {n m k x fon out : ℕ}

/-- Input `n` meets input `x` at the gate `out` behind the fan-out `fon`. -/
structure Meets (V : FanoutView ntk) (n fon out x : ℕ) : Prop where
  fanout : fon ∈ V.fanouts n
  output : out ∈ outputNodes V fon
  fanin : ∃ fi ∈ (ntk.node out).children, ignoreInverter ntk fi = some x
  fanoutSize_lt : ntk.fanoutSize x < 2
  input : x ∈ ntk.inputs
  ne : x ≠ n

theorem mem_touches : x ∈ touches V n ↔ ∃ fon out m, Meets V n fon out m ∧
    (x = m ∨ x = n ∧ ntk.isFanout (skipInverter V fon) = false) := by
  constructor
  · intro h
    obtain ⟨fon, hfon, h⟩ := List.mem_flatMap.mp h
    obtain ⟨fi, hfi, h⟩ := List.mem_flatMap.mp h
    obtain ⟨out, hout, hfi⟩ := List.mem_flatMap.mp hfi
    unfold faninTouches at h
    cases hm : ignoreInverter ntk fi with
    | none =>
      rw [hm] at h
      cases h
    | some m =>
      rw [hm] at h
      simp only at h
      split_ifs at h with hmeet hfan
      · refine ⟨fon, out, m, ⟨hfon, hout, ⟨fi, hfi, hm⟩, hmeet.1,
          List.contains_iff_mem.mp hmeet.2.1, hmeet.2.2⟩, .inl (List.mem_singleton.mp h)⟩
      · refine ⟨fon, out, m, ⟨hfon, hout, ⟨fi, hfi, hm⟩, hmeet.1,
          List.contains_iff_mem.mp hmeet.2.1, hmeet.2.2⟩, ?_⟩
        rw [List.mem_pair] at h
        exact h.symm.imp_right fun hx => ⟨hx, Bool.eq_false_of_not_eq_true hfan⟩
      · cases h
  · rintro ⟨fon, out, m, hmeet, hx⟩
    obtain ⟨fi, hfi, hm⟩ := hmeet.fanin
    refine List.mem_flatMap.mpr ⟨fon, hmeet.fanout, List.mem_flatMap.mpr
      ⟨fi, List.mem_flatMap.mpr ⟨out, hmeet.output, hfi⟩, ?_⟩⟩
    rw [faninTouches, hm]
    simp only
    rw [if_pos ⟨hmeet.fanoutSize_lt, List.contains_iff_mem.mpr hmeet.input, hmeet.ne⟩]
    split_ifs with hfan
    · rcases hx with rfl | ⟨-, hx⟩
      · exact List.mem_singleton_self x
      · rw [hx] at hfan
        cases hfan
    · exact List.mem_pair.mpr (hx.symm.imp_left And.left)

theorem mem_inputs_of_mem_touches (hn : n ∈ ntk.inputs) (hx : x ∈ touches V n) :
    x ∈ ntk.inputs := by
  obtain ⟨fon, out, m, hmeet, hx⟩ := mem_touches.mp hx
  rcases hx with rfl | ⟨rfl, -⟩
  · exact hmeet.input
  · exact hn

theorem mem_gatherOutputs (h : out ∈ gatherOutputs V n) :
    (out ∈ V.fanouts n ∧ ntk.isInv out = false) ∨
      ∃ i ∈ V.fanouts n, ntk.isInv i = true ∧ out ∈ V.fanouts i := by
  refine List.foldlRecOn (motive := fun output => out ∈ output → _) (V.fanouts n) _
    (fun h => absurd h List.not_mem_nil) (fun output ih fon hfon h => ?_) h
  split_ifs at h with hinv
  · rcases (mem_foldl_cons _ _).mp h with h | h
    · exact .inr ⟨fon, hfon, hinv, h⟩
    · exact ih h
  · rcases List.mem_append.mp h with h | h
    · exact ih h
    · obtain rfl := List.mem_singleton.mp h
      exact .inl ⟨hfon, Bool.eq_false_iff.mpr hinv⟩

theorem Meets.isFanout_eq_false (h : SingleUses ntk) (hm : Meets V n fon out x) :
    ntk.isFanout out = false := by
  obtain ⟨fi, hfi, hres⟩ := hm.fanin
  have hout := hm.output
  unfold outputNodes at hout
  split_ifs at hout with hfan
  · rw [← Bool.not_eq_true]
    intro hfo
    -- the fan-out node `out` has one child only, and there is another fan-out node behind that
    have hbehind : ∀ f, ntk.isFanout f = true → x ≠ f := by
      rintro f hf rfl
      exact Bool.false_ne_true ((not_isFanout_of_mem_inputs hm.input).symm.trans hf)
    have hone : ∀ d ∈ (ntk.node out).children, fi = d := by
      intro d hd
      have hchildren := h.children_of_single (h.gate hfi) (.inr hfo) hd
      rwa [hchildren, List.mem_singleton] at hfi
    rcases mem_gatherOutputs hout with ⟨hmem, -⟩ | ⟨i, hi, hinv, hmem⟩
    · obtain rfl := hone _ (V.mem_fanouts_iff.mp hmem).2
      rcases ignoreInverter_cases hres with ⟨-, heq⟩ | ⟨hinv, -⟩
      · exact hbehind _ hfan heq.symm
      · rw [not_isFanout_of_isInv hinv] at hfan
        cases hfan
    · obtain rfl := hone _ (V.mem_fanouts_iff.mp hmem).2
      rcases ignoreInverter_cases hres with ⟨hni, -⟩ | ⟨-, hchild⟩
      · exact Bool.false_ne_true (hni.symm.trans hinv)
      · have hsingle := h.children_of_single (h.gate hchild) (.inl hinv) (V.mem_fanouts_iff.mp hi).2
        rw [hsingle, List.mem_singleton] at hchild
        exact hbehind _ hfan hchild
  · rw [List.mem_singleton.mp hout]
    exact Bool.eq_false_of_not_eq_true hfan

theorem Meets.outputOf (h : SingleUses ntk) (hm : Meets V n fon out x) :
    OutputOf V fon out := by
  have hfo := hm.isFanout_eq_false h
  have hout := hm.output
  unfold outputNodes at hout
  split_ifs at hout with hfan
  · rcases mem_gatherOutputs hout with ⟨hmem, hinv⟩ | ⟨i, hi, hinv, hmem⟩
    · exact .shared _ hfan hmem hfo hinv
    · exact .sharedInverted _ i hfan hi hinv hmem
  · refine outputOf_of_mem ?_
    rw [TopoViewInputSort.outputNodes, if_neg hfan]
    exact hout

theorem Meets.fanouts_eq (h : SingleUses ntk) (hm : Meets V n fon out x) :
    ∃ fon', V.fanouts x = [fon'] ∧ skipInverter V fon' = out := by
  obtain ⟨fi, hfi, hres⟩ := hm.fanin
  exact h.fanouts_of_met (V.mem_fanouts_iff.mp hm.fanout).2 (hm.outputOf h) hfi hres hm.input hm.ne

/-- The input is listed in its turn. -/
def isDirect (V : FanoutView ntk) (n : ℕ) : Bool :=
  (V.fanouts n).any fun fon => ntk.isFanout (skipInverter V fon)

theorem isDirect_iff : isDirect V n = true ↔
    ∃ fon ∈ V.fanouts n, ntk.isFanout (skipInverter V fon) = true := List.any_eq_true

theorem not_isDirect_of_mem_touches (h : SingleUses ntk) (hn : n ∈ ntk.inputs)
    (hx : x ∈ touches V n) : ¬ isDirect V x = true := by
  obtain ⟨fon, out, m, hmeet, hx⟩ := mem_touches.mp hx
  rw [isDirect_iff]
  rintro ⟨fon', hfon', hfan⟩
  rcases hx with rfl | ⟨rfl, hnfan⟩
  · obtain ⟨fon'', hsingle, hskip⟩ := hmeet.fanouts_eq h
    rw [hsingle, List.mem_singleton] at hfon'
    rw [hfon', hskip, hmeet.isFanout_eq_false h] at hfan
    cases hfan
  · have hsingle := h.fanouts_eq (not_isFanout_of_mem_inputs hn)
      (h.built.wellFormed.input x hn).1 hmeet.fanout
    rw [hsingle, List.mem_singleton] at hfon'
    rw [hfon', hnfan] at hfan
    cases hfan

theorem touches_subset (h : SingleUses ntk) (hk : k ∈ ntk.inputs) (hn : n ∈ touches V k)
    (hnk : n ≠ k) : touches V n ⊆ touches V k := by
  have hnin := mem_inputs_of_mem_touches hk hn
  obtain ⟨fon, out, y, hmeet, hy⟩ := mem_touches.mp hn
  obtain rfl : n = y := hy.resolve_right fun hy => hnk hy.1
  obtain ⟨fon', hsingle, hskip⟩ := hmeet.fanouts_eq h
  intro m hm
  obtain ⟨fon'', out', x, hmeet', hx⟩ := mem_touches.mp hm
  have hfon := hmeet'.fanout
  rw [hsingle, List.mem_singleton] at hfon
  subst hfon
  have hout := hmeet'.output
  rw [outputNodes, hskip, hmeet.isFanout_eq_false h, if_neg Bool.false_ne_true,
    List.mem_singleton] at hout
  subst hout
  rcases hx with rfl | ⟨rfl, -⟩
  · by_cases hmk : m = k
    · subst hmk
      have hnot := not_isDirect_of_mem_touches h hnin hm
      refine mem_touches.mpr ⟨fon, out', n, hmeet, .inr ⟨rfl, ?_⟩⟩
      exact Bool.eq_false_of_not_eq_true fun hfan =>
        hnot (isDirect_iff.mpr ⟨fon, hmeet.fanout, hfan⟩)
    · exact mem_touches.mpr ⟨fon, out', m, ⟨hmeet.fanout, hmeet.output, hmeet'.fanin,
        hmeet'.fanoutSize_lt, hmeet'.input, hmk⟩, .inl rfl⟩
  · exact hn

end Meetings

end Fiction.InputSortView
