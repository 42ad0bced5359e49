import Fiction.Library.TransitionSystem
import Fiction.NetworkTransformation.InverterBalancing

/-!
# When inverter balancing preserves the functions of the outputs

The image of a balanced fan-out node is the complement of the node. All its fan-outs have to be
adapted to this, and the algorithm does so for the first two inverters and their uses by gates. It
does not do so for outputs and for further inverters.
-/

namespace Fiction.InverterBalancing

open TechnologyNetwork

variable (ntk : TechnologyNetwork) (gates : List ℕ)

/-- The function of each gate has as many variables as the gate has children. -/
def FunctionsFit : Prop :=
  ∀ n, 2 ≤ n → n < ntk.size → n ∉ ntk.inputs →
    (ntk.node n).children.length = (ntk.node n).function.numVars

/-- Fan-out nodes that the algorithm turns into inverters. -/
def isBalanced (n : ℕ) : Bool :=
  ntk.isFanout n ∧ (fanoutsIn ntk gates n).all ntk.isInv ∧ 1 < (fanoutsIn ntk gates n).length

def inv₀ (n : ℕ) : ℕ := (fanoutsIn ntk gates n).getD 0 0
def inv₁ (n : ℕ) : ℕ := (fanoutsIn ntk gates n).getD 1 0

/-- The gates that use a balanced fan-out node are its two inverters. -/
def TwoInverters : Prop :=
  ∀ n ∈ gates, isBalanced ntk gates n = true → (fanoutsIn ntk gates n).length = 2

/-- No output uses a balanced fan-out node, and none its second inverter unless that has the value
of the missing image. -/
def OutputsAvoid : Prop :=
  ∀ n ∈ gates, isBalanced ntk gates n = true → n ∉ ntk.outputs ∧
    (inv₁ ntk gates n ∈ ntk.outputs → ∀ a, ntk.simulate gates a (inv₁ ntk gates n) = false)

/-- The deleted inverters. -/
def IsDeleted (n : ℕ) : Prop := ∃ b ∈ gates, isBalanced ntk gates b = true ∧ inv₁ ntk gates b = n

variable {ntk gates}

section Fanouts

theorem isBalanced_iff {n : ℕ} : isBalanced ntk gates n = true ↔
    ntk.isFanout n = true ∧ (∀ g ∈ fanoutsIn ntk gates n, ntk.isInv g = true) ∧
      1 < (fanoutsIn ntk gates n).length := by
  simp only [isBalanced, decide_eq_true_eq, List.all_eq_true]

theorem inv₀_eq {n : ℕ} (h : 1 < (fanoutsIn ntk gates n).length) :
    inv₀ ntk gates n = (fanoutsIn ntk gates n)[0] := by
  rw [inv₀, List.getD_eq_getElem?_getD, List.getElem?_eq_getElem (by omega), Option.getD_some]

theorem inv₁_eq {n : ℕ} (h : 1 < (fanoutsIn ntk gates n).length) :
    inv₁ ntk gates n = (fanoutsIn ntk gates n)[1] := by
  rw [inv₁, List.getD_eq_getElem?_getD, List.getElem?_eq_getElem h, Option.getD_some]

variable {b : ℕ}

theorem inv₀_mem (h : isBalanced ntk gates b = true) :
    inv₀ ntk gates b ∈ fanoutsIn ntk gates b := by
  rw [inv₀_eq (isBalanced_iff.mp h).2.2]
  exact List.getElem_mem _

theorem inv₁_mem (h : isBalanced ntk gates b = true) :
    inv₁ ntk gates b ∈ fanoutsIn ntk gates b := by
  rw [inv₁_eq (isBalanced_iff.mp h).2.2]
  exact List.getElem_mem _

theorem inv₀_ne_inv₁ (hnd : gates.Nodup) (h : isBalanced ntk gates b = true) :
    inv₀ ntk gates b ≠ inv₁ ntk gates b := by
  have hlen := (isBalanced_iff.mp h).2.2
  have hnd' : (fanoutsIn ntk gates b).Nodup := hnd.filter _
  rw [inv₀_eq hlen, inv₁_eq hlen, Ne, hnd'.getElem_inj_iff]
  exact Nat.zero_ne_one

theorem inv₀_mem_of_inv₁_mem (hnd : gates.Nodup) (h : isBalanced ntk gates b = true)
    {pre suf : List ℕ} (hg : gates = pre ++ suf) (hpre : inv₁ ntk gates b ∈ pre) :
    inv₀ ntk gates b ∈ pre := by
  have hlen := (isBalanced_iff.mp h).2.2
  have hsplit : fanoutsIn ntk gates b = fanoutsIn ntk pre b ++ fanoutsIn ntk suf b := by
    rw [fanoutsIn, hg, List.filter_append]
    rfl
  have hdisj := (List.nodup_append.mp (hg ▸ hnd)).2.2
  have htwo : 1 < (fanoutsIn ntk pre b).length := by
    by_contra hle
    have hsuf : inv₁ ntk gates b ∈ fanoutsIn ntk suf b := by
      rw [inv₁_eq hlen]
      simp only [hsplit]
      rw [List.getElem_append_right (by omega)]
      exact List.getElem_mem _
    exact hdisj _ hpre _ (mem_fanoutsIn.mp hsuf).1 rfl
  have hmem : inv₀ ntk gates b ∈ fanoutsIn ntk pre b := by
    rw [inv₀_eq hlen]
    simp only [hsplit]
    rw [List.getElem_append_left (by omega)]
    exact List.getElem_mem _
  exact (mem_fanoutsIn.mp hmem).1

theorem children_of_isInv (hf : FunctionsFit ntk) {g c : ℕ} (h2 : 2 ≤ g) (hlt : g < ntk.size)
    (hi : g ∉ ntk.inputs) (hinv : ntk.isInv g = true) (hc : c ∈ (ntk.node g).children) :
    (ntk.node g).children = [c] := by
  have hlen := hf g h2 hlt hi
  rw [of_decide_eq_true hinv] at hlen
  obtain ⟨d, hd⟩ := List.length_eq_one_iff.mp hlen
  rw [hd] at hc ⊢
  rw [List.mem_singleton.mp hc]

end Fanouts

section Vectors

theorem recordBalance_eq (s : State) (n : ℕ) :
    recordBalance ntk gates s n =
      if isBalanced ntk gates n then { s with
        delInv := s.delInv ++ [inv₁ ntk gates n]
        newInv := s.newInv ++ [inv₀ ntk gates n]
        blcFos := s.blcFos ++ [n] }
      else s := by
  rw [recordBalance, isBalanced, inv₀, inv₁]
  cases hf : ntk.isFanout n with
  | false => simp
  | true =>
    cases fanoutsIn ntk gates n with
    | nil => simp
    | cons i₀ fs =>
      cases fs with
      | nil => simp
      | cons i₁ fs => simp

/-- The contents of the three vectors once the gates `pre` have been visited. -/
structure Recorded (ntk : TechnologyNetwork) (gates pre : List ℕ) (s : State) : Prop where
  blcFos : s.blcFos = pre.filter (isBalanced ntk gates)
  newInv : s.newInv = (pre.filter (isBalanced ntk gates)).map (inv₀ ntk gates)
  delInv : s.delInv = (pre.filter (isBalanced ntk gates)).map (inv₁ ntk gates)

theorem Recorded.recordBalance {pre : List ℕ} {s : State} (h : Recorded ntk gates pre s) (n : ℕ) :
    Recorded ntk gates (pre ++ [n]) (recordBalance ntk gates s n) := by
  rw [recordBalance_eq]
  cases hb : isBalanced ntk gates n <;>
    exact ⟨by simp [h.blcFos, hb], by simp [h.newInv, hb], by simp [h.delInv, hb]⟩

theorem foldl_replace {bs : List ℕ} {del new : ℕ → ℕ} {fn x : ℕ}
    (hx : ∀ b ∈ bs, del b = fn → new b = x) (hdel : x ∉ bs.map del) :
    ((bs.map del).zip (bs.map new)).foldl (fun fn p => if p.1 = fn then p.2 else fn) fn =
      if fn ∈ bs.map del then x else fn := by
  induction bs generalizing fn with
  | nil => rfl
  | cons b bs ih =>
    obtain ⟨hb, hbs⟩ := List.forall_mem_cons.mp hx
    rw [List.map_cons, List.mem_cons, not_or] at hdel
    simp only [List.map_cons, List.zip_cons_cons, List.foldl_cons]
    by_cases hfn : del b = fn
    · rw [if_pos hfn, hb hfn, ih (fun c hc hd => ?_) hdel.2, if_neg hdel.2,
        if_pos (hfn ▸ List.mem_cons_self)]
      exact absurd (hd ▸ List.mem_map_of_mem hc) hdel.2
    · rw [if_neg hfn, ih hbs hdel.2]
      simp [Ne.symm hfn]

end Vectors

section Values

variable {V : ntk.TopoView} {b g : ℕ}

theorem gate_bounds (hg : g ∈ V.gates) : 2 ≤ g ∧ g < ntk.size ∧ g ∉ ntk.inputs := by
  obtain ⟨h1, hi⟩ := not_or.mp (V.sorted.not_known g hg)
  exact ⟨by omega, V.gates_lt g hg, hi⟩

theorem children_of_mem_fanouts (hf : FunctionsFit ntk) (hb : isBalanced ntk V.gates b = true)
    (hg : g ∈ fanoutsIn ntk V.gates b) : (ntk.node g).children = [b] := by
  obtain ⟨hmem, hc⟩ := mem_fanoutsIn.mp hg
  obtain ⟨h2, hlt, hi⟩ := gate_bounds hmem
  exact children_of_isInv hf h2 hlt hi ((isBalanced_iff.mp hb).2.1 g hg) hc

theorem isBuf_of_isBalanced {gates : List ℕ} (hb : isBalanced ntk gates b = true) :
    ntk.isBuf b = true :=
  (of_decide_eq_true (isBalanced_iff.mp hb).1).1

theorem not_isInv_of_isBuf (hb : ntk.isBuf b = true) : ¬ ntk.isInv b = true := by
  intro hi
  have h₁ := (of_decide_eq_true hb).1
  have h₂ := of_decide_eq_true hi
  exact TruthTable.identity_ne_not (h₁.symm.trans h₂)

theorem inv₀_not_isDeleted (hf : FunctionsFit ntk) (hb : isBalanced ntk V.gates b = true) :
    ¬ IsDeleted ntk V.gates (inv₀ ntk V.gates b) := by
  rintro ⟨b', -, hb', heq⟩
  have h₀ := children_of_mem_fanouts hf hb (inv₀_mem hb)
  have h₁ := children_of_mem_fanouts hf hb' (inv₁_mem hb')
  rw [heq, h₀] at h₁
  obtain rfl := (List.cons.inj h₁).1
  exact inv₀_ne_inv₁ V.sorted.nodup hb heq.symm

theorem value_of_mem_fanouts (hf : FunctionsFit ntk) (hb : isBalanced ntk V.gates b = true)
    (hg : g ∈ fanoutsIn ntk V.gates b) {base v : ℕ → Bool}
    (hv : ntk.graph.Solves ntk.IsSource V.gates base v) : v g = !v b := by
  have hrule := hv.rule g (mem_fanoutsIn.mp hg).1
  have hinv := of_decide_eq_true ((isBalanced_iff.mp hb).2.1 g hg)
  simp only [graph, children_of_mem_fanouts hf hb hg, hinv, List.map_singleton,
    TruthTable.eval_not] at hrule
  exact hrule

end Values

/-- The invariant between two gates. -/
structure Invariant (ntk : TechnologyNetwork) (V : ntk.TopoView) (pre : List ℕ) (s : State)
    (owner : ℕ → ℕ) : Prop where
  copy : PartialCopy ntk V.gates s.ntkDest owner
  recorded : Recorded ntk V.gates pre s
  outputs : s.ntkDest.outputs = []
  numPos : s.ntkDest.numPos = 0
  image_lt : ∀ n, s.old2new n < s.ntkDest.size
  image : ∀ n, (ntk.IsSource n ∨ n ∈ pre) → ¬ IsDeleted ntk V.gates n →
    ¬ (n ∈ V.gates ∧ isBalanced ntk V.gates n = true) → owner (s.old2new n) = n
  flipped : ∀ n ∈ pre, isBalanced ntk V.gates n = true → ∀ a v,
    ntk.graph.Solves ntk.IsSource V.gates (ntk.sourceValues a) v →
      v (owner (s.old2new n)) = !v n
  deleted : ∀ n, IsDeleted ntk V.gates n → s.old2new n = 0

section Step

variable {V : ntk.TopoView} {pre suf : List ℕ} {s : State} {owner : ℕ → ℕ} {g : ℕ}

theorem initialState_invariant [CopyInitializer] (hw : ntk.WellFormed) :
    Invariant ntk V [] (initialState ntk) ntk.inputOwner := by
  have hc : FreshCopy ntk (initialState ntk).ntkDest (initialState ntk).old2new :=
    initializeCopyNetwork_freshCopy hw
  refine ⟨hc.partialCopy _, ⟨rfl, rfl, rfl⟩, hc.outputs, hc.numPos, hc.image_lt, ?_, ?_, ?_⟩
  · intro n hn _ _
    rcases hn with (h1 | hi) | hn
    · rw [hc.constant n h1]
      exact if_pos h1
    · exact (hc.image hi).2.2
    · cases hn
  · intro n hn
    cases hn
  · rintro n ⟨b, -, hbal, rfl⟩
    obtain ⟨h2, -, hi⟩ := gate_bounds (mem_fanoutsIn.mp (inv₁_mem hbal)).1
    exact hc.other _ h2 hi

theorem recordBalance_frame (s : State) (n : ℕ) :
    (recordBalance ntk V.gates s n).ntkDest = s.ntkDest ∧
      (recordBalance ntk V.gates s n).old2new = s.old2new := by
  rw [recordBalance_eq]
  split_ifs <;> exact ⟨rfl, rfl⟩

/-- The image of `g` becomes the signal `y`, whose node belongs to `x`. -/
theorem Invariant.define (h : Invariant ntk V pre s owner) (hV : V.gates = pre ++ g :: suf)
    {ntk' : TechnologyNetwork} {owner' : ℕ → ℕ} {y x : ℕ}
    (hcopy : PartialCopy ntk V.gates ntk' owner')
    (hold : ∀ m < s.ntkDest.size, owner' m = owner m) (hsize : s.ntkDest.size ≤ ntk'.size)
    (houtputs : ntk'.outputs = s.ntkDest.outputs) (hpos : ntk'.numPos = s.ntkDest.numPos)
    (hy : y < ntk'.size) (hx : owner' y = x) (hkept : ¬ IsDeleted ntk V.gates g)
    (hval : isBalanced ntk V.gates g = false → x = g)
    (hflip : isBalanced ntk V.gates g = true → ∀ a v,
      ntk.graph.Solves ntk.IsSource V.gates (ntk.sourceValues a) v → v x = !v g) :
    Invariant ntk V (pre ++ [g]) ((recordBalance ntk V.gates s g).define g (ntk', y)) owner' := by
  obtain ⟨hdest, hmap⟩ := @recordBalance_frame ntk V s g
  obtain ⟨hg, hnew, -⟩ := V.sorted.next hV
  have hne : ∀ n, (ntk.IsSource n ∨ n ∈ pre) → n ≠ g := fun n hn he => hnew (he ▸ hn)
  have hupdate : ((recordBalance ntk V.gates s g).define g (ntk', y)).old2new =
      Function.update s.old2new g y := by
    simp only [State.define, hmap]
  have hrec := h.recorded.recordBalance g
  constructor
  · exact hcopy
  · exact ⟨hrec.blcFos, hrec.newInv, hrec.delInv⟩
  · exact houtputs.trans h.outputs
  · exact hpos.trans h.numPos
  · intro n
    rw [hupdate]
    by_cases hn : n = g
    · rw [hn, Function.update_self]
      exact hy
    · rw [Function.update_of_ne hn]
      exact (h.image_lt n).trans_le hsize
  · intro n hn hdel hbal
    rw [hupdate]
    by_cases hng : n = g
    · subst hng
      rw [Function.update_self, hx]
      exact hval (by simpa [hg] using hbal)
    · have hn' : ntk.IsSource n ∨ n ∈ pre := by simpa [hng] using hn
      rw [Function.update_of_ne hng, hold _ (h.image_lt n)]
      exact h.image n hn' hdel hbal
  · intro n hn hbal a v hv
    rw [hupdate]
    by_cases hng : n = g
    · subst hng
      rw [Function.update_self, hx]
      exact hflip hbal a v hv
    · have hn' : n ∈ pre := by simpa [hng] using hn
      rw [Function.update_of_ne hng, hold _ (h.image_lt n)]
      exact h.flipped n hn' hbal a v hv
  · intro n hn
    have hng : n ≠ g := fun he => hkept (he ▸ hn)
    rw [hupdate, Function.update_of_ne hng]
    exact h.deleted n hn

/-- The image of `g` is a new node that belongs to `x`. -/
theorem Invariant.definePush (h : Invariant ntk V pre s owner) (hV : V.gates = pre ++ g :: suf)
    {children : List ℕ} {function : TruthTable} {x : ℕ}
    (hc : ∀ c ∈ children, c < s.ntkDest.size)
    (hx : ∀ a v, ntk.graph.Solves ntk.IsSource V.gates (ntk.sourceValues a) v →
      v x = function.eval (children.map (v ∘ owner)))
    (hkept : ¬ IsDeleted ntk V.gates g)
    (hval : isBalanced ntk V.gates g = false → x = g)
    (hflip : isBalanced ntk V.gates g = true → ∀ a v,
      ntk.graph.Solves ntk.IsSource V.gates (ntk.sourceValues a) v → v x = !v g) :
    Invariant ntk V (pre ++ [g])
      ((recordBalance ntk V.gates s g).define g (s.ntkDest.pushNode children function))
      (assignOwner s.ntkDest.size owner x) := by
  have hlt : s.ntkDest.size < (s.ntkDest.pushNode children function).1.size := by
    rw [size_pushNode]
    exact Nat.lt_succ_self _
  exact h.define hV (h.copy.pushNode hc hx) (fun m hm => assignOwner_of_lt hm) hlt.le rfl rfl hlt
    (assignOwner_of_le le_rfl) hkept hval hflip

theorem known_of_mem_children (hV : V.gates = pre ++ g :: suf) {c : ℕ}
    (hc : c ∈ (ntk.node g).children) : ntk.IsSource c ∨ c ∈ pre := by
  obtain ⟨-, -, hdeps⟩ := V.sorted.next hV
  exact hdeps c hc

theorem mem_of_eq_append (hV : V.gates = pre ++ g :: suf) : g ∈ V.gates := by
  rw [hV]
  exact List.mem_append_right _ List.mem_cons_self

theorem recorded_mem (hV : V.gates = pre ++ g :: suf) {b : ℕ}
    (hb : b ∈ (pre ++ [g]).filter (isBalanced ntk V.gates)) :
    b ∈ V.gates ∧ isBalanced ntk V.gates b = true := by
  obtain ⟨hmem, hbal⟩ := List.mem_filter.mp hb
  refine ⟨?_, hbal⟩
  rcases List.mem_append.mp hmem with hmem | hmem
  · rw [hV]
    exact List.mem_append_left _ hmem
  · rw [List.mem_singleton.mp hmem]
    exact mem_of_eq_append hV

/-- The signal that a gate gets for a child has the value of the child, or its complement if the
child is balanced. -/
theorem Invariant.child (h : Invariant ntk V pre s owner) (hV : V.gates = pre ++ g :: suf)
    (hf : FunctionsFit ntk) {c : ℕ} (hc : c ∈ (ntk.node g).children) {a v : ℕ → Bool}
    (hv : ntk.graph.Solves ntk.IsSource V.gates (ntk.sourceValues a) v) :
    v (owner (s.old2new (replaceDeleted (recordBalance ntk V.gates s g) c))) =
      if c ∈ V.gates ∧ isBalanced ntk V.gates c = true then !v c else v c := by
  have hrec := h.recorded.recordBalance g
  have hknown := known_of_mem_children hV hc
  have hbs : ∀ b ∈ (pre ++ [g]).filter (isBalanced ntk V.gates),
      b ∈ V.gates ∧ isBalanced ntk V.gates b = true := fun b hb => recorded_mem hV hb
  rw [replaceDeleted, hrec.delInv, hrec.newInv]
  by_cases hdel : IsDeleted ntk V.gates c
  · obtain ⟨b, hb, hbal, rfl⟩ := hdel
    obtain ⟨hmem, hchild⟩ := mem_fanoutsIn.mp (inv₁_mem hbal)
    have hcpre := hknown.resolve_left (V.sorted.not_known _ hmem)
    have hbpre : b ∈ pre := by
      have hsort := V.sorted
      rw [hV, Graph.sorted_append] at hsort
      exact (hsort.1.deps hcpre hchild).resolve_left (V.sorted.not_known b hb)
    have hbmem : b ∈ (pre ++ [g]).filter (isBalanced ntk V.gates) :=
      List.mem_filter.mpr ⟨List.mem_append_left _ hbpre, hbal⟩
    have hinv := (isBalanced_iff.mp hbal).2.1
    rw [foldl_replace (x := inv₀ ntk V.gates b), if_pos (List.mem_map_of_mem hbmem)]
    · rw [h.image _ (.inr (inv₀_mem_of_inv₁_mem V.sorted.nodup hbal hV hcpre))
        (inv₀_not_isDeleted hf hbal)
        (fun hq => not_isInv_of_isBuf (isBuf_of_isBalanced hq.2) (hinv _ (inv₀_mem hbal))),
        if_neg (fun hq => not_isInv_of_isBuf (isBuf_of_isBalanced hq.2) (hinv _ (inv₁_mem hbal))),
        value_of_mem_fanouts hf hbal (inv₀_mem hbal) hv,
        value_of_mem_fanouts hf hbal (inv₁_mem hbal) hv]
    · intro b' hb' heq
      have hbal' := (hbs b' hb').2
      have h₁ := children_of_mem_fanouts hf hbal' (inv₁_mem hbal')
      rw [heq, children_of_mem_fanouts hf hbal (inv₁_mem hbal)] at h₁
      rw [(List.cons.inj h₁).1]
    · intro hm
      obtain ⟨b', hb', heq⟩ := List.mem_map.mp hm
      exact inv₀_not_isDeleted hf hbal ⟨b', (hbs b' hb').1, (hbs b' hb').2, heq⟩
  · have hnot : c ∉ ((pre ++ [g]).filter (isBalanced ntk V.gates)).map (inv₁ ntk V.gates) := by
      intro hm
      obtain ⟨b, hb, heq⟩ := List.mem_map.mp hm
      exact hdel ⟨b, (hbs b hb).1, (hbs b hb).2, heq⟩
    have hkeep : ∀ b ∈ (pre ++ [g]).filter (isBalanced ntk V.gates),
        inv₁ ntk V.gates b = c → inv₀ ntk V.gates b = c := fun b hb heq =>
      absurd ⟨b, (hbs b hb).1, (hbs b hb).2, heq⟩ hdel
    rw [foldl_replace hkeep hnot, if_neg hnot]
    split_ifs with hbal
    · exact h.flipped c (hknown.resolve_left (V.sorted.not_known c hbal.1)) hbal.2 a v hv
    · rw [h.image c hknown hdel hbal]

theorem Invariant.firstInverter (h : Invariant ntk V pre s owner) (hV : V.gates = pre ++ g :: suf)
    (hf : FunctionsFit ntk) (hinv : ntk.isInv g = true)
    (hnew : g ∈ (recordBalance ntk V.gates s g).newInv) :
    ∃ s' owner', balanceGate ntk V.gates s g = some s' ∧ Invariant ntk V (pre ++ [g]) s' owner' := by
  have hrec := h.recorded.recordBalance g
  obtain ⟨hdest, hmap⟩ := @recordBalance_frame ntk V s g
  have hmem := hnew
  rw [hrec.newInv] at hmem
  obtain ⟨b, hb, hbg⟩ := List.mem_map.mp hmem
  have hbal := (List.mem_filter.mp hb).2
  have hfan : g ∈ fanoutsIn ntk V.gates b := hbg ▸ inv₀_mem hbal
  have hchild := children_of_mem_fanouts hf hbal hfan
  have hbmem := (recorded_mem hV hb).1
  have hc : b ∈ (ntk.node g).children := hchild ▸ List.mem_singleton_self b
  refine ⟨(recordBalance ntk V.gates s g).define g (s.ntkDest.createBuf
    (s.old2new (replaceDeleted (recordBalance ntk V.gates s g) b))),
    assignOwner s.ntkDest.size owner g, ?_, ?_⟩
  · simp only [InverterBalancing.balanceGate, hinv, hnew, true_and, if_true, gatherFaninSignals,
      hchild, hmap, hdest]
    rfl
  · refine h.definePush hV (by simpa using h.image_lt _) (fun a v hv => ?_)
      (hbg ▸ inv₀_not_isDeleted hf hbal) (fun _ => rfl) fun hq => ?_
    · rw [List.map_singleton, TruthTable.eval_identity, Function.comp_apply, h.child hV hf hc hv,
        if_pos ⟨hbmem, hbal⟩, value_of_mem_fanouts hf hbal hfan hv]
    · exact absurd hinv (not_isInv_of_isBuf (isBuf_of_isBalanced hq))

theorem Invariant.secondInverter (h : Invariant ntk V pre s owner) (hV : V.gates = pre ++ g :: suf)
    (hinv : ntk.isInv g = true) (hnew : g ∉ (recordBalance ntk V.gates s g).newInv)
    (hdel : g ∈ (recordBalance ntk V.gates s g).delInv) :
    ∃ s', balanceGate ntk V.gates s g = some s' ∧ Invariant ntk V (pre ++ [g]) s' owner := by
  have hrec := h.recorded.recordBalance g
  obtain ⟨hdest, hmap⟩ := @recordBalance_frame ntk V s g
  refine ⟨recordBalance ntk V.gates s g, ?_, ?_⟩
  · simp only [InverterBalancing.balanceGate, hinv, hnew, hdel, true_and, and_false, if_false,
      if_true]
  have hmem := hdel
  rw [hrec.delInv] at hmem
  obtain ⟨b, hb, hbg⟩ := List.mem_map.mp hmem
  have hbmem := (recorded_mem hV hb).1
  have hdeleted : IsDeleted ntk V.gates g := ⟨b, hbmem, (List.mem_filter.mp hb).2, hbg⟩
  refine ⟨?_, hrec, ?_, ?_, ?_, ?_, ?_, ?_⟩
  · rw [hdest]
    exact h.copy
  · rw [hdest]
    exact h.outputs
  · rw [hdest]
    exact h.numPos
  · rw [hdest, hmap]
    exact h.image_lt
  · intro n hn hndel hbal
    have hng : n ≠ g := fun he => hndel (he ▸ hdeleted)
    rw [hmap]
    exact h.image n (by simpa [hng] using hn) hndel hbal
  · intro n hn hbal a v hv
    have hng : n ≠ g := fun he =>
      not_isInv_of_isBuf (isBuf_of_isBalanced (he ▸ hbal)) hinv
    rw [hmap]
    exact h.flipped n (by simpa [hng] using hn) hbal a v hv
  · rw [hmap]
    exact h.deleted

theorem Invariant.balancedNode (h : Invariant ntk V pre s owner) (hV : V.gates = pre ++ g :: suf)
    (hf : FunctionsFit ntk) (hbal : isBalanced ntk V.gates g = true) :
    ∃ s' owner', balanceGate ntk V.gates s g = some s' ∧ Invariant ntk V (pre ++ [g]) s' owner' := by
  have hrec := h.recorded.recordBalance g
  obtain ⟨hdest, hmap⟩ := @recordBalance_frame ntk V s g
  have hg := mem_of_eq_append hV
  have hbuf := isBuf_of_isBalanced hbal
  have hinv := not_isInv_of_isBuf hbuf
  have hfun : (ntk.node g).function = .identity := (of_decide_eq_true hbuf).1
  have hblc : g ∈ (recordBalance ntk V.gates s g).blcFos := by
    rw [hrec.blcFos]
    exact List.mem_filter.mpr ⟨List.mem_append_right _ (List.mem_singleton_self g), hbal⟩
  obtain ⟨h2, hlt, hi⟩ := gate_bounds hg
  obtain ⟨c, hchild⟩ : ∃ c, (ntk.node g).children = [c] := by
    have hlen := hf g h2 hlt hi
    rw [hfun] at hlen
    exact List.length_eq_one_iff.mp hlen
  have hc : c ∈ (ntk.node g).children := hchild ▸ List.mem_singleton_self c
  have hkept : ¬ IsDeleted ntk V.gates g := by
    rintro ⟨b, -, hb, rfl⟩
    exact hinv ((isBalanced_iff.mp hb).2.1 _ (inv₁_mem hb))
  have hcbal : ¬ (c ∈ V.gates ∧ isBalanced ntk V.gates c = true) := fun hq =>
    hinv ((isBalanced_iff.mp hq.2).2.1 g (mem_fanoutsIn.mpr ⟨hg, hc⟩))
  let y := s.old2new (replaceDeleted (recordBalance ntk V.gates s g) c)
  have hvalue : ∀ a v, ntk.graph.Solves ntk.IsSource V.gates (ntk.sourceValues a) v →
      v (owner y) = v g := by
    intro a v hv
    have hrule := hv.rule g hg
    simp only [graph, hchild, hfun, List.map_singleton, TruthTable.eval_identity] at hrule
    rw [hrule]
    exact (h.child hV hf hc hv).trans (if_neg hcbal)
  have hrun : balanceGate ntk V.gates s g =
      some ((recordBalance ntk V.gates s g).define g (s.ntkDest.createNot y)) := by
    simp only [InverterBalancing.balanceGate, hinv, hbuf, hblc, gatherFaninSignals, hchild, hmap,
      hdest, and_self, if_true, Bool.false_eq_true, false_and, if_false]
    rfl
  by_cases hy : y ≤ 1
  · have hnot : s.ntkDest.createNot y = (s.ntkDest, getConstant (y = 0)) := by
      rw [createNot, isConstant, if_pos (by simpa using hy)]
    have hylt : getConstant (y = 0) < s.ntkDest.size := by
      have := h.copy.two_le_size
      rw [getConstant]
      split_ifs <;> omega
    have howner : owner (getConstant (y = 0)) = getConstant (y = 0) := by
      refine h.copy.constant _ ?_
      rw [getConstant]
      split_ifs <;> omega
    refine ⟨_, owner, hrun, ?_⟩
    rw [hnot]
    refine h.define hV h.copy (fun _ _ => rfl) le_rfl rfl rfl hylt howner hkept
      (fun hq => absurd hbal (by simp [hq])) fun _ a v hv => ?_
    have hy' := hvalue a v hv
    rw [h.copy.constant y hy] at hy'
    rw [← hy']
    have h0 : v 0 = false := hv.base 0 (.inl (by omega))
    have h1 : v 1 = true := hv.base 1 (.inl le_rfl)
    rcases Nat.le_one_iff_eq_zero_or_eq_one.mp hy with hz | hz <;>
      simp [hz, getConstant, h0, h1]
  · have hnot : s.ntkDest.createNot y = s.ntkDest.pushNode [y] .not := by
      rw [createNot, isConstant, if_neg (by simpa using hy)]
    refine ⟨_, assignOwner s.ntkDest.size owner (inv₀ ntk V.gates g), hrun, ?_⟩
    rw [hnot]
    refine h.definePush hV (by simpa using h.image_lt _) (fun a v hv => ?_) hkept
      (fun hq => absurd hbal (by simp [hq])) fun _ a v hv =>
        value_of_mem_fanouts hf hbal (inv₀_mem hbal) hv
    rw [List.map_singleton, TruthTable.eval_not, Function.comp_apply, hvalue a v hv,
      value_of_mem_fanouts hf hbal (inv₀_mem hbal) hv]

theorem copyGate_eq {children : List ℕ} (hlen : children.length = (ntk.node g).function.numVars)
    (hne : children ≠ []) (s : State) :
    copyGate ntk s g children =
      some (s.define g (s.ntkDest.pushNode children (ntk.node g).function)) := by
  have htwo : children.length = 2 → ∃ a b, children = [a, b] := List.length_eq_two.mp
  have hthree : children.length = 3 → ∃ a b c, children = [a, b, c] := List.length_eq_three.mp
  rw [copyGate]
  by_cases hand : ntk.isAnd g
  · have hfun : (ntk.node g).function = .and := of_decide_eq_true hand
    rw [hfun] at hlen
    obtain ⟨a, b, rfl⟩ := htwo hlen
    simp [hand, hfun, createAnd]
  by_cases hor : ntk.isOr g
  · have hfun : (ntk.node g).function = .or := of_decide_eq_true hor
    rw [hfun] at hlen
    obtain ⟨a, b, rfl⟩ := htwo hlen
    simp [hand, hor, hfun, createOr]
  by_cases hxor : ntk.isXor g
  · have hfun : (ntk.node g).function = .xor := of_decide_eq_true hxor
    rw [hfun] at hlen
    obtain ⟨a, b, rfl⟩ := htwo hlen
    simp [hand, hor, hxor, hfun, createXor]
  by_cases hmaj : ntk.isMaj g
  · have hfun : (ntk.node g).function = .maj := of_decide_eq_true hmaj
    rw [hfun] at hlen
    obtain ⟨a, b, c, rfl⟩ := hthree hlen
    simp [hand, hor, hxor, hmaj, hfun, createMaj]
  · simp [hand, hor, hxor, hmaj, createNode, hne]

/-- Other gates are copied. -/
theorem Invariant.copyGate (h : Invariant ntk V pre s owner) (hV : V.gates = pre ++ g :: suf)
    (hw : ntk.WellFormed) (hf : FunctionsFit ntk) (hbal : isBalanced ntk V.gates g = false)
    (hkept : ¬ IsDeleted ntk V.gates g)
    (hchild : ∀ c ∈ (ntk.node g).children, ¬ (c ∈ V.gates ∧ isBalanced ntk V.gates c = true)) :
    ∃ s' owner', copyGate ntk (recordBalance ntk V.gates s g) g
      (gatherFaninSignals ntk (recordBalance ntk V.gates s g) g) = some s' ∧
        Invariant ntk V (pre ++ [g]) s' owner' := by
  obtain ⟨hdest, hmap⟩ := @recordBalance_frame ntk V s g
  have hg := mem_of_eq_append hV
  obtain ⟨h2, hlt, hi⟩ := gate_bounds hg
  have hne := hw.children_ne_nil g h2 hlt hi
  have hcopy := @copyGate_eq ntk g
    (gatherFaninSignals ntk (recordBalance ntk V.gates s g) g)
    (by rw [gatherFaninSignals, List.length_map]; exact hf g h2 hlt hi)
    (by simpa [gatherFaninSignals] using hne) (recordBalance ntk V.gates s g)
  rw [hdest] at hcopy
  refine ⟨_, _, hcopy, h.definePush hV (fun y hy => ?_) (fun a v hv => ?_) hkept (fun _ => rfl)
    fun hq => absurd hq (by simp [hbal])⟩
  · obtain ⟨c, -, rfl⟩ := List.mem_map.mp hy
    rw [hmap]
    exact h.image_lt _
  · have hrule := hv.rule g hg
    rw [hrule, gatherFaninSignals, List.map_map, hmap]
    refine congrArg _ (List.map_congr_left fun c hc => ?_)
    exact ((h.child hV hf hc hv).trans (if_neg (hchild c hc))).symm

theorem Invariant.balanceGate (h : Invariant ntk V pre s owner) (hV : V.gates = pre ++ g :: suf)
    (hw : ntk.WellFormed) (hf : FunctionsFit ntk) (htwo : TwoInverters ntk V.gates) :
    ∃ s' owner', balanceGate ntk V.gates s g = some s' ∧ Invariant ntk V (pre ++ [g]) s' owner' := by
  have hg := mem_of_eq_append hV
  have hrec := h.recorded.recordBalance g
  by_cases hbal : isBalanced ntk V.gates g = true
  · exact h.balancedNode hV hf hbal
  by_cases hnew : ntk.isInv g = true ∧ g ∈ (recordBalance ntk V.gates s g).newInv
  · exact h.firstInverter hV hf hnew.1 hnew.2
  by_cases hdel : ntk.isInv g = true ∧ g ∈ (recordBalance ntk V.gates s g).delInv
  · have hnot : g ∉ (recordBalance ntk V.gates s g).newInv := fun hm => hnew ⟨hdel.1, hm⟩
    obtain ⟨s', hs', h'⟩ := h.secondInverter hV hdel.1 hnot hdel.2
    exact ⟨s', owner, hs', h'⟩
  have hblc : g ∉ (recordBalance ntk V.gates s g).blcFos := by
    rw [hrec.blcFos]
    exact fun hm => hbal (List.mem_filter.mp hm).2
  have hrun : InverterBalancing.balanceGate ntk V.gates s g =
      InverterBalancing.copyGate ntk (recordBalance ntk V.gates s g) g
        (gatherFaninSignals ntk (recordBalance ntk V.gates s g) g) := by
    simp only [InverterBalancing.balanceGate, hnew, hdel, hblc, and_false, if_false]
  have hchild : ∀ c ∈ (ntk.node g).children, c ∈ V.gates → isBalanced ntk V.gates c = true →
      inv₀ ntk V.gates c ≠ g ∧ inv₁ ntk V.gates c ≠ g := by
    intro c hc hcg hcbal
    have hcpre := (known_of_mem_children hV hc).resolve_left (V.sorted.not_known c hcg)
    have hmem : c ∈ (pre ++ [g]).filter (isBalanced ntk V.gates) :=
      List.mem_filter.mpr ⟨List.mem_append_left _ hcpre, hcbal⟩
    have hinv := (isBalanced_iff.mp hcbal).2.1 g (mem_fanoutsIn.mpr ⟨hg, hc⟩)
    refine ⟨fun heq => hnew ⟨hinv, ?_⟩, fun heq => hdel ⟨hinv, ?_⟩⟩
    · rw [hrec.newInv]
      exact List.mem_map.mpr ⟨c, hmem, heq⟩
    · rw [hrec.delInv]
      exact List.mem_map.mpr ⟨c, hmem, heq⟩
  rw [hrun]
  refine h.copyGate hV hw hf (by simpa using hbal) ?_ fun c hc hq => ?_
  · rintro ⟨b, hb, hbbal, heq⟩
    exact (hchild b (heq ▸ (mem_fanoutsIn.mp (inv₁_mem hbbal)).2) hb hbbal).2 heq
  · obtain ⟨i₀, i₁, hlist⟩ := List.length_eq_two.mp (htwo c hq.1 hq.2)
    have h₀ : inv₀ ntk V.gates c = i₀ := by rw [inv₀, hlist]; rfl
    have h₁ : inv₁ ntk V.gates c = i₁ := by rw [inv₁, hlist]; rfl
    have hfan : g ∈ fanoutsIn ntk V.gates c := mem_fanoutsIn.mpr ⟨hg, hc⟩
    rw [hlist, List.mem_cons, List.mem_singleton] at hfan
    rcases hfan with heq | heq
    · exact (hchild c hc hq.1 hq.2).1 (h₀.trans heq.symm)
    · exact (hchild c hc hq.1 hq.2).2 (h₁.trans heq.symm)

end Step

section Run

variable {V : ntk.TopoView} {s : State} {owner : ℕ → ℕ}

theorem foldl_balancePo (pos : List ℕ) (s : State) :
    pos.foldl balancePo s = { s with ntkDest := { s.ntkDest with
      outputs := s.ntkDest.outputs ++ pos.map s.old2new
      numPos := s.ntkDest.numPos + pos.length } } := by
  induction pos generalizing s with
  | nil => simp
  | cons po pos ih =>
    rw [List.foldl_cons, ih]
    simp [balancePo, createPo, Nat.add_comm 1, Nat.add_assoc]

theorem foldl_balanceRi (ris : List ℕ) (s : State) :
    ris.foldl balanceRi s = { s with ntkDest := { s.ntkDest with
      outputs := s.ntkDest.outputs ++ ris.map s.old2new } } := by
  induction ris generalizing s with
  | nil => simp
  | cons ri ris ih =>
    rw [List.foldl_cons, ih]
    simp [balanceRi, createRi]

/-- The network after the outputs. -/
def finish (ntk : TechnologyNetwork) (s : State) : TechnologyNetwork :=
  { s.ntkDest with
    outputs := ntk.outputs.map s.old2new
    numPos := ntk.numPos }

theorem run_eq_of_foldlM [CopyInitializer] (hw : ntk.WellFormed) {gates : List ℕ}
    (hs : gates.foldlM (InverterBalancing.balanceGate ntk gates) (initialState ntk) = some s)
    (houtputs : s.ntkDest.outputs = []) (hpos : s.ntkDest.numPos = 0) :
    run ntk gates = some (ntk.restoreNames (finish ntk s) gates s.old2new) := by
  have hlen : ntk.foreachPo.length = ntk.numPos := List.length_take_of_le hw.numPos_le
  simp only [run, hs, Option.bind_eq_bind, Option.bind_some, foldl_balancePo, foldl_balanceRi,
    houtputs, hpos, hlen, List.nil_append, Nat.zero_add]
  rw [← List.map_append, foreachPo, foreachRi, List.take_append_drop, finish]

theorem run_invariant [CopyInitializer] (hw : ntk.WellFormed) (hf : FunctionsFit ntk)
    (htwo : TwoInverters ntk V.gates) :
    ∃ s owner, run ntk V.gates = some (ntk.restoreNames (finish ntk s) V.gates s.old2new) ∧
      Invariant ntk V V.gates s owner := by
  let I (pre : List ℕ) (s : State) : Prop := ∃ owner, Invariant ntk V pre s owner
  have hstep : ∀ pre g suf s, V.gates = pre ++ g :: suf → I pre s →
      ∃ s', InverterBalancing.balanceGate ntk V.gates s g = some s' ∧ I (pre ++ [g]) s' := by
    rintro pre g suf s hV ⟨owner, h⟩
    obtain ⟨s', owner', hs', h'⟩ := h.balanceGate hV hw hf htwo
    exact ⟨s', hs', owner', h'⟩
  obtain ⟨s, hs, owner, h⟩ := exists_foldlM hstep ⟨_, initialState_invariant hw⟩
  exact ⟨s, owner, run_eq_of_foldlM hw hs h.outputs h.numPos, h⟩

theorem Invariant.output_value (h : Invariant ntk V V.gates s owner) {o : ℕ}
    (ho : o ∈ ntk.outputs) {a v : ℕ → Bool}
    (hv : ntk.graph.Solves ntk.IsSource V.gates (ntk.sourceValues a) v) :
    (o ∈ V.gates ∧ isBalanced ntk V.gates o = true → v (owner (s.old2new o)) = !v o) ∧
    (IsDeleted ntk V.gates o → v (owner (s.old2new o)) = false) ∧
    (¬ (o ∈ V.gates ∧ isBalanced ntk V.gates o = true) → ¬ IsDeleted ntk V.gates o →
      v (owner (s.old2new o)) = v o) := by
  refine ⟨fun hq => h.flipped o hq.1 hq.2 a v hv, fun hdel => ?_, fun hq hdel => ?_⟩
  · rw [h.deleted o hdel, h.copy.constant 0 (Nat.zero_le 1)]
    exact hv.base 0 (.inl (Nat.zero_le 1))
  · rw [h.image o (V.outputs_mem o ho) hdel hq]

/-- One run succeeds and preserves the functions of the outputs. -/
def Preserved [CopyInitializer] (ntk : TechnologyNetwork) (V : ntk.TopoView) : Prop :=
  ∃ ntk', run ntk V.gates = some ntk' ∧ Nonempty ntk'.TopoView ∧
    ∀ V' : ntk'.TopoView, Equivalent V V'

/-- If balanced fan-out nodes have exactly two inverters, only outputs can go wrong. -/
theorem preserved_iff_outputsAvoid [CopyInitializer] (ntk : TechnologyNetwork)
    (hw : ntk.WellFormed) (hf : FunctionsFit ntk) (V : ntk.TopoView)
    (htwo : TwoInverters ntk V.gates) :
    Preserved ntk V ↔ OutputsAvoid ntk V.gates := by
  obtain ⟨s, owner, hrun, h⟩ := @run_invariant ntk V _ hw hf htwo
  have hsame := ntk.restoreNames_sameLogic (finish ntk s) V.gates s.old2new
  have hcopy : PartialCopy ntk V.gates (finish ntk s) owner :=
    h.copy.congr rfl rfl rfl fun _ _ => rfl
  have hlt : ∀ m ∈ (finish ntk s).outputs, m < (finish ntk s).size := by
    intro m hm
    obtain ⟨o, -, rfl⟩ := List.mem_map.mp hm
    exact h.image_lt o
  have hview := hsame.nonempty_topoView (hcopy.nonempty_topoView hlt)
  have hequiv : ∀ V' : (ntk.restoreNames (finish ntk s) V.gates s.old2new).TopoView,
      Equivalent V V' ↔ ∀ a, ∀ o ∈ ntk.outputs,
        ntk.simulate V.gates a (owner (s.old2new o)) = ntk.simulate V.gates a o := by
    intro V'
    have hlen : (finish ntk s).outputs.length = ntk.outputs.length := List.length_map _
    rw [(hsame.simulation hcopy.simulation).equivalent_iff hw (hsame.numPis.trans hcopy.numPis)
      hsame.numPos (hsame.outputs ▸ hlen) V']
    refine forall_congr' fun a => ?_
    rw [hsame.outputs, finish, List.map_map, List.map_inj_left]
    rfl
  constructor
  · rintro ⟨ntk', hrun', -, hV'⟩ n hn hbal
    obtain rfl := Option.some.inj (hrun.symm.trans hrun')
    obtain ⟨V'⟩ := hview
    have hvalue := (hequiv V').mp (hV' V')
    refine ⟨fun ho => ?_, fun ho a => ?_⟩
    · have hflip := (h.output_value ho (V.simulate_solves fun _ => false)).1 ⟨hn, hbal⟩
      rw [hvalue _ n ho] at hflip
      exact (Bool.eq_not_self _).mp hflip
    · rw [← hvalue a _ ho]
      exact (h.output_value ho (V.simulate_solves a)).2.1 ⟨n, hn, hbal, rfl⟩
  · intro havoid
    refine ⟨_, hrun, hview, fun V' => (hequiv V').mpr fun a o ho => ?_⟩
    obtain ⟨-, hdel, hother⟩ := h.output_value ho (V.simulate_solves a)
    by_cases hd : IsDeleted ntk V.gates o
    · rw [hdel hd]
      obtain ⟨b, hb, hbal, rfl⟩ := hd
      exact ((havoid b hb hbal).2 ho a).symm
    · exact hother (fun hq => (havoid o hq.1 hq.2).1 ho) hd

/-- A fan-out node with two inverters, whose conjunction is the only output. -/
def invertedFanouts : TechnologyNetwork :=
  let (ntk, a) := empty.createPi
  let (ntk, b) := ntk.createBuf a
  let (ntk, c) := ntk.createNot b
  let (ntk, d) := ntk.createNot b
  let (ntk, e) := ntk.createAnd c d
  ntk.createPo e

theorem preserved_iff_outputsAvoid_invertedFanouts :
    ∃ V : invertedFanouts.TopoView, isBalanced invertedFanouts V.gates 3 = true ∧
      (Preserved invertedFanouts V ↔ OutputsAvoid invertedFanouts V.gates) := by
  have hw : invertedFanouts.WellFormed :=
    wellFormed_of_forall_lt (by decide) (by decide) (by decide) (by decide) (by decide)
      (by decide) (by decide)
  have hf : ∀ n < invertedFanouts.size, 2 ≤ n → n ∉ invertedFanouts.inputs →
      (invertedFanouts.node n).children.length =
        (invertedFanouts.node n).function.numVars := by decide
  have htwo : ∀ n ∈ invertedFanouts.creationOrder,
      isBalanced invertedFanouts invertedFanouts.creationOrder n = true →
        (fanoutsIn invertedFanouts invertedFanouts.creationOrder n).length = 2 := by decide
  exact ⟨creationView (by decide) (by decide), by decide,
    preserved_iff_outputsAvoid invertedFanouts hw (fun n h2 hlt => hf n hlt h2)
      (creationView (by decide) (by decide)) htwo⟩

/-- Both inverters drive an output. -/
def invertedOutputs : TechnologyNetwork :=
  let (ntk, a) := empty.createPi
  let (ntk, b) := ntk.createBuf a
  let (ntk, c) := ntk.createNot b
  let (ntk, d) := ntk.createNot b
  (ntk.createPo c).createPo d

/-- The output of the deleted inverter becomes constant. -/
theorem invertedOutputs_not_preserved :
    ¬ ∀ (ntk : TechnologyNetwork) (_ : ntk.WellFormed) (_ : FunctionsFit ntk) (V : ntk.TopoView),
      Preserved ntk V := by
  intro h
  have hw : invertedOutputs.WellFormed :=
    wellFormed_of_forall_lt (by decide) (by decide) (by decide) (by decide) (by decide)
      (by decide) (by decide)
  have hf : ∀ n < invertedOutputs.size, 2 ≤ n → n ∉ invertedOutputs.inputs →
      (invertedOutputs.node n).children.length =
        (invertedOutputs.node n).function.numVars := by decide
  obtain ⟨ntk', hrun, -, hequiv⟩ := h invertedOutputs hw (fun n h2 hlt => hf n hlt h2)
    (creationView (by decide) (by decide))
  have hrun' : run invertedOutputs invertedOutputs.creationOrder = some ntk' := hrun
  have hview : (run invertedOutputs invertedOutputs.creationOrder).all (fun ntk' => decide
      ((∀ n < ntk'.size, ¬ ntk'.IsSource n → ∀ c ∈ (ntk'.node n).children, c < n) ∧
        ∀ o ∈ ntk'.outputs, o < ntk'.size)) = true := by decide
  have hvalues : (run invertedOutputs invertedOutputs.creationOrder).map (fun ntk' =>
      ntk'.outputValues ntk'.creationOrder fun _ => false) = some [true, false] := by decide
  rw [hrun', Option.map_some, Option.some_inj] at hvalues
  rw [hrun', Option.all_some, decide_eq_true_eq] at hview
  have heq := (hequiv (creationView hview.1 hview.2)).values fun _ => false
  have hsource : invertedOutputs.outputValues invertedOutputs.creationOrder (fun _ => false) =
      [true, true] := by decide
  exact absurd (hvalues.symm.trans (heq.trans hsource)) (by decide)

end Run

end Fiction.InverterBalancing
