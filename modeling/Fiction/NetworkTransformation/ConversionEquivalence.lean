import Fiction.Networks.Labellings
import Fiction.NetworkTransformation.NetworkConversion

/-!
# Conversion preserves the functions of the outputs

Along the run, the values of the new network extend to each created node, and the image of each
processed node has the value of that node in the source.
-/

namespace Fiction

namespace NetworkConversion

open TechnologyNetwork LogicNetwork

section Creation

variable {base : ℕ → Bool} {ntk : TechnologyNetwork} {w : ℕ → Bool}

theorem yields_createNot (hb : ∀ n ≤ 1, base n = decide (n = 1))
    (h : Labelled valueRule base ntk w) {n : ℕ} (hn : n < ntk.size) :
    Yields valueRule base ntk w (ntk.createNot n) (!w n) := by
  unfold createNot
  split_ifs with hc
  · have hle : n ≤ 1 := of_decide_eq_true hc
    have hconst : ∀ m ≤ 1, w m = decide (m = 1) := fun m hm =>
      (h.source m (.inl hm)).trans (hb m hm)
    have hvalue : (!w n) = w (getConstant (n = 0)) := by
      rcases Nat.le_one_iff_eq_zero_or_eq_one.mp hle with rfl | rfl
      · rw [hconst 0 hle]
        exact (hconst 1 le_rfl).symm
      · rw [hconst 1 hle]
        exact (hconst 0 (Nat.zero_le _)).symm
    rw [hvalue]
    refine h.yields ?_
    have := h.two_le_size
    unfold getConstant
    split_ifs <;> omega
  · have hyields := @Labelled.yields_pushNode _ _ _ _ _ h [n] .not (by simpa using hn)
    rwa [valueRule, List.map_singleton, TruthTable.eval_not] at hyields

theorem yields_createBinary {function : TruthTable} {op : Bool → Bool → Bool}
    (hf : ∀ a b, function.eval [a, b] = op a b) (h : Labelled valueRule base ntk w) {m n : ℕ}
    (hm : m < ntk.size) (hn : n < ntk.size) :
    Yields valueRule base ntk w (ntk.pushNode [m, n] function) (op (w m) (w n)) := by
  have hyields := @Labelled.yields_pushNode _ _ _ _ _ h [m, n] function (by simp [hm, hn])
  rwa [valueRule, List.map_cons, List.map_singleton, hf] at hyields

/-- A function of no variables is constant. -/
theorem eval_nil {function : TruthTable} (h : function.numVars = 0) :
    function.eval [] = decide (function ≠ .const0) := by
  obtain ⟨k, bits⟩ := function
  obtain rfl : k = 0 := h
  revert bits
  decide

theorem yields_createNode (hb : ∀ n ≤ 1, base n = decide (n = 1))
    (h : Labelled valueRule base ntk w) {children : List ℕ} {function : TruthTable}
    (hc : ∀ c ∈ children, c < ntk.size) (hnil : children = [] → function.numVars = 0) :
    Yields valueRule base ntk w (ntk.createNode children function)
      (function.eval (children.map w)) := by
  unfold createNode
  split_ifs with hempty
  · have hchildren := List.isEmpty_iff.mp hempty
    have hle : getConstant (function ≠ .const0) ≤ 1 := by
      unfold getConstant
      split_ifs <;> omega
    have hvalue : function.eval (children.map w) = w (getConstant (function ≠ .const0)) := by
      rw [hchildren, List.map_nil, eval_nil (hnil hchildren), h.source _ (.inl hle), hb _ hle]
      unfold getConstant
      by_cases h0 : function = .const0 <;> simp [h0]
    rw [hvalue]
    exact h.yields (hle.trans_lt h.two_le_size)
  · exact h.yields_pushNode hc

/-- A tree of an associative operation has the value of the operation along the list. -/
theorem yields_treeReduce (r : TreeReduction) {function : TruthTable} {op : Bool → Bool → Bool}
    {e : Bool} (hf : ∀ a b, function.eval [a, b] = op a b)
    (hassoc : ∀ a b c, op (op a b) c = op a (op b c)) (hleft : ∀ a, op e a = a)
    (hright : ∀ a, op a e = a) {init : ℕ} (hinit : init ≤ 1) (hbase : base init = e)
    (h : Labelled valueRule base ntk w) {children : List ℕ} (hc : ∀ c ∈ children, c < ntk.size) :
    Yields valueRule base ntk w
      (treeReduce r (fun ntk a b => ntk.pushNode [a, b] function) init ntk children)
      ((children.map w).foldr op e) := by
  have happend : ∀ l l' : List Bool, (l ++ l').foldr op e = op (l.foldr op e) (l'.foldr op e) := by
    intro l l'
    induction l with
    | nil => exact (hleft _).symm
    | cons b l ih => rw [List.cons_append, List.foldr_cons, List.foldr_cons, ih, hassoc]
  induction children using r.induct generalizing ntk w with
  | nil =>
    rw [treeReduce, List.map_nil, List.foldr_nil, ← hbase, ← h.source init (.inl hinit)]
    exact h.yields ((Nat.lt_succ_of_le hinit).trans_le h.two_le_size)
  | single f =>
    rw [treeReduce, List.map_singleton, List.foldr_cons, List.foldr_nil, hright]
    exact h.yields (hc f List.mem_cons_self)
  | split l htwo ihleft ihright =>
    rw [treeReduce_of_two_le r ntk htwo]
    generalize r.split l.length = i at ihleft ihright ⊢
    obtain ⟨w₁, h₁, hgrow₁, hlt₁, hval₁⟩ :=
      ihleft h fun c hcl => hc c (List.mem_of_mem_take hcl)
    have hdrop : ∀ c ∈ l.drop i, c < ntk.size := fun c hcl => hc c (List.mem_of_mem_drop hcl)
    obtain ⟨w₂, h₂, hgrow₂, hlt₂, hval₂⟩ :=
      ihright h₁ fun c hcl => (hdrop c hcl).trans_le hgrow₁.size_le
    obtain ⟨w₃, h₃, hgrow₃, hlt₃, hval₃⟩ :=
      yields_createBinary hf h₂ (hlt₁.trans_le hgrow₂.size_le) hlt₂
    refine ⟨w₃, h₃, (hgrow₁.trans hgrow₂).trans hgrow₃, hlt₃, ?_⟩
    rw [hval₃, hgrow₂.label _ hlt₁, hval₁, hval₂, hgrow₁.map_label hdrop, ← happend,
      ← List.map_append, List.take_append_drop]

/-- Each gate is created with the function that it has in the source. -/
theorem yields_createGate (r : TreeReduction) (hb : ∀ n ≤ 1, base n = decide (n = 1))
    (h : Labelled valueRule base ntk w) {g : LogicGate} (hg : g.Fits) {children : List ℕ}
    (hlen : children.length = g.fanins.length) (hc : ∀ c ∈ children, c < ntk.size) :
    Yields valueRule base ntk w (createGate r ntk g children)
      (g.nodeFunction.eval (children.map w)) := by
  have hlenMap : (children.map w).length = g.fanins.length := by rw [List.length_map, hlen]
  have hbinary : g.fanins.length = 2 → ∃ a b, children = [a, b] := fun h2 =>
    List.length_eq_two.mp (hlen.trans h2)
  rw [createGate]
  by_cases hand : g.isAnd = true
  · rw [if_pos hand]
    obtain ⟨hfun, h2⟩ := hg.and hand
    obtain ⟨a, b, rfl⟩ := hbinary h2
    rw [hfun]
    exact h.yields_pushNode hc
  rw [if_neg hand]
  by_cases hor : g.isOr = true
  · rw [if_pos hor]
    obtain ⟨hfun, h2⟩ := hg.or hor
    obtain ⟨a, b, rfl⟩ := hbinary h2
    rw [hfun]
    exact h.yields_pushNode hc
  rw [if_neg hor]
  by_cases hxor : g.isXor = true
  · rw [if_pos hxor]
    obtain ⟨hfun, h2⟩ := hg.xor hxor
    obtain ⟨a, b, rfl⟩ := hbinary h2
    rw [hfun]
    exact h.yields_pushNode hc
  rw [if_neg hxor]
  by_cases hmaj : g.isMaj = true
  · rw [if_pos hmaj]
    obtain ⟨hfun, h3⟩ := hg.maj hmaj
    obtain ⟨a, b, c, rfl⟩ := List.length_eq_three.mp (hlen.trans h3)
    rw [hfun]
    exact h.yields_pushNode hc
  rw [if_neg hmaj]
  by_cases hnand : g.isNaryAnd = true
  · rw [if_pos hnand]
    have hall : ∀ l : List Bool, l.all id = l.foldr and true := fun l => by
      induction l with
      | nil => rfl
      | cons b l ih => rw [List.all_cons, List.foldr_cons, ih, id]
    rw [hg.naryAnd hnand _ hlenMap, hall]
    exact yields_treeReduce r TruthTable.eval_and Bool.and_assoc Bool.true_and Bool.and_true le_rfl
      (hb 1 le_rfl) h hc
  rw [if_neg hnand]
  by_cases hnor : g.isNaryOr = true
  · rw [if_pos hnor]
    have hany : ∀ l : List Bool, l.any id = l.foldr or false := fun l => by
      induction l with
      | nil => rfl
      | cons b l ih => rw [List.any_cons, List.foldr_cons, ih, id]
    rw [hg.naryOr hnor _ hlenMap, hany]
    exact yields_treeReduce r TruthTable.eval_or Bool.or_assoc Bool.false_or Bool.or_false
      (Nat.zero_le _) (hb 0 (Nat.zero_le _)) h hc
  rw [if_neg hnor]
  by_cases hnxor : g.isNaryXor = true
  · rw [if_pos hnxor, hg.naryXor hnxor _ hlenMap]
    exact yields_treeReduce r TruthTable.eval_xor Bool.xor_assoc Bool.false_xor Bool.xor_false
      (Nat.zero_le _) (hb 0 (Nat.zero_le _)) h hc
  rw [if_neg hnxor]
  by_cases hbuf : g.isBuf = true
  · rw [if_pos hbuf]
    obtain ⟨hfun, h1⟩ := hg.buf hbuf
    obtain ⟨a, rfl⟩ := List.length_eq_one_iff.mp (hlen.trans h1)
    rw [hfun]
    exact h.yields_pushNode hc
  rw [if_neg hbuf]
  refine yields_createNode hb h hc fun hnil => hg.numVars ?_
  rwa [← List.length_eq_zero_iff, ← hlen, List.length_eq_zero_iff]

end Creation

section Edges

variable {base : ℕ → Bool} {dest : TechnologyNetwork} {w : ℕ → Bool} {old2new : ℕ → ℕ}

theorem yields_translate (hb : ∀ n ≤ 1, base n = decide (n = 1))
    (h : Labelled valueRule base dest w) {f : LogicSignal} (hf : old2new f.node < dest.size) :
    Yields valueRule base dest w (translate dest old2new f) (signalValue (w ∘ old2new) f) := by
  unfold translate signalValue
  split_ifs with hneg
  · rw [hneg, Bool.true_xor]
    exact yields_createNot hb h hf
  · rw [Bool.eq_false_of_not_eq_true hneg, Bool.false_xor]
    exact h.yields hf

theorem numPos_translate (dest : TechnologyNetwork) (old2new : ℕ → ℕ) (f : LogicSignal) :
    (translate dest old2new f).1.numPos = dest.numPos := by
  unfold translate createNot
  split_ifs <;> rfl

/-- The children of a gate have the values of the signals at its edges. -/
theorem gatherFaninSignals_spec (hb : ∀ n ≤ 1, base n = decide (n = 1))
    (h : Labelled valueRule base dest w) {fanins : List LogicSignal}
    (hf : ∀ f ∈ fanins, old2new f.node < dest.size) :
    ∃ w', Labelled valueRule base (gatherFaninSignals dest old2new fanins).1 w' ∧
      Grows dest w (gatherFaninSignals dest old2new fanins).1 w' ∧
      (∀ c ∈ (gatherFaninSignals dest old2new fanins).2,
        c < (gatherFaninSignals dest old2new fanins).1.size) ∧
      (gatherFaninSignals dest old2new fanins).2.map w' =
        fanins.map (signalValue (w ∘ old2new)) := by
  induction fanins generalizing dest w with
  | nil => exact ⟨w, h, .refl, by simp [gatherFaninSignals], rfl⟩
  | cons f fs ih =>
    obtain ⟨w₁, h₁, hgrow₁, hlt₁, hval₁⟩ := yields_translate hb h (hf f List.mem_cons_self)
    have hfs : ∀ g ∈ fs, old2new g.node < dest.size := fun g hg => hf g (List.mem_cons_of_mem f hg)
    obtain ⟨w₂, h₂, hgrow₂, hlt₂, hval₂⟩ :=
      ih h₁ fun g hg => (hfs g hg).trans_le hgrow₁.size_le
    refine ⟨w₂, h₂, hgrow₁.trans hgrow₂, ?_, ?_⟩
    · intro c hc
      rcases List.mem_cons.mp hc with rfl | hc
      · exact hlt₁.trans_le hgrow₂.size_le
      · exact hlt₂ c hc
    · have hcons : (gatherFaninSignals dest old2new (f :: fs)).2 =
          (translate dest old2new f).2 ::
            (gatherFaninSignals (translate dest old2new f).1 old2new fs).2 := rfl
      rw [hcons, List.map_cons, hval₂, hgrow₂.label _ hlt₁, hval₁, List.map_cons]
      refine congrArg _ (List.map_congr_left fun g hg => ?_)
      rw [signalValue, signalValue, Function.comp_apply, hgrow₁.label _ (hfs g hg)]
      rfl

end Edges

section Start

variable {ntk : LogicNetwork}

/-- The network that the run starts from. -/
abbrev Start (ntk : LogicNetwork) (s : TechnologyNetwork × (ℕ → ℕ)) : Prop :=
  Copies (fun n => if n = 1 ∧ ntk.twoConstants = true then 1 else 0) ntk.numPis ntk.inputs s

theorem initializeCopyNetwork_start [CopyInitializer] (hw : ntk.WellFormed) :
    Start ntk (initializeCopyNetwork ntk) :=
  copies_copyInputs _ hw.inputs_nodup hw.numPis_le

/-- Without gates, the values of the sources are all values. -/
theorem Start.labelled {β : Type*} {rule : NetworkNode → List β → β}
    {s : TechnologyNetwork × (ℕ → ℕ)} (h : Start ntk s) (base : ℕ → β) :
    Labelled rule base s.1 base := by
  refine labelled_of_isSource ?_ (fun n hn => ?_) h.children (fun n hn => ?_) base
  · rw [h.size_eq]
    exact Nat.le_add_right 2 _
  · rw [h.inputs, List.mem_range'_1] at hn
    rw [h.size_eq]
    exact hn.2
  · rw [h.size_eq] at hn
    rw [TechnologyNetwork.IsSource, h.inputs, List.mem_range'_1]
    omega

theorem Start.image_lt {s : TechnologyNetwork × (ℕ → ℕ)} (h : Start ntk s) (n : ℕ) :
    s.2 n < s.1.size :=
  Copies.image_lt h (fun n => by split_ifs <;> omega) n

/-- The images of the sources have their values. -/
theorem Start.sourceValues {s : TechnologyNetwork × (ℕ → ℕ)} (h : Start ntk s)
    (hw : ntk.WellFormed) (a : ℕ → Bool) {n : ℕ} (hn : ntk.IsSource n) :
    s.1.sourceValues a (s.2 n) = ntk.sourceValues a n := by
  by_cases hc : ntk.IsConstant n
  · rw [h.other fun hm => hw.input n hm hc, LogicNetwork.sourceValues, if_pos hc]
    rcases hc with rfl | ⟨rfl, htwo⟩
    · rfl
    · rw [if_pos ⟨rfl, htwo⟩]
      rfl
  · have hm := hn.resolve_left hc
    have hlt := List.idxOf_lt_length_of_mem hm
    rw [h.input hm, LogicNetwork.sourceValues, if_neg hc, TechnologyNetwork.sourceValues,
      if_neg (by omega), h.inputs]
    have hrange : ntk.inputs.idxOf n < (List.range' 2 ntk.inputs.length).length := by
      rw [List.length_range']
      exact hlt
    have hget : (List.range' 2 ntk.inputs.length)[ntk.inputs.idxOf n] =
        2 + ntk.inputs.idxOf n := by
      rw [List.getElem_range', Nat.one_mul]
    have hnd : (List.range' 2 ntk.inputs.length).Nodup := List.nodup_range' ..
    rw [← hget, hnd.idxOf_getElem]

end Start

section Run

variable {r : TreeReduction} {ntk : LogicNetwork} {a : ℕ → Bool}

/-- After the gates `pre` and the outputs `outs`, the images have the values of their nodes. -/
structure Reached (ntk : LogicNetwork) (V : ntk.TopoView) (a : ℕ → Bool) (pre : List ℕ)
    (outs : List LogicSignal) (numPos : ℕ) (s : TechnologyNetwork × (ℕ → ℕ)) (w : ℕ → Bool) :
    Prop where
  labelled : Labelled valueRule (s.1.sourceValues a) s.1 w
  inputs : s.1.inputs = List.range' 2 ntk.inputs.length
  numPis : s.1.numPis = ntk.numPis
  numPos : s.1.numPos = numPos
  image_lt : ∀ n, s.2 n < s.1.size
  value : ∀ n, ntk.IsSource n ∨ n ∈ pre → w (s.2 n) = ntk.simulate V.gates a n
  output_lt : ∀ o ∈ s.1.outputs, o < s.1.size
  outputs : s.1.outputs.map w = outs.map (signalValue (ntk.simulate V.gates a))

variable {V : ntk.TopoView} {pre : List ℕ} {outs : List LogicSignal} {numPos : ℕ}
  {s : TechnologyNetwork × (ℕ → ℕ)} {w : ℕ → Bool}

theorem reached_start [CopyInitializer] (hw : ntk.WellFormed) (V : ntk.TopoView) (a : ℕ → Bool) :
    ∃ w, Reached ntk V a [] [] 0 (initializeCopyNetwork ntk) w := by
  have h := initializeCopyNetwork_start hw
  refine ⟨_, h.labelled _, h.inputs, h.numPis, h.numPos, h.image_lt, ?_, ?_, ?_⟩
  · intro n hn
    have hs := hn.resolve_right List.not_mem_nil
    rw [h.sourceValues hw a hs, V.simulate_source a hs]
  · rw [h.outputs]
    exact fun o ho => absurd ho List.not_mem_nil
  · rw [h.outputs]
    rfl

/-- New nodes do not disturb anything. -/
theorem Reached.grow (h : Reached ntk V a pre outs numPos s w) {dest : TechnologyNetwork}
    {w' : ℕ → Bool} (hl : Labelled valueRule (s.1.sourceValues a) dest w')
    (hg : Grows s.1 w dest w') : Reached ntk V a pre outs numPos (dest, s.2) w' where
  labelled := by
    have hbase : dest.sourceValues a = s.1.sourceValues a := by
      funext n
      rw [TechnologyNetwork.sourceValues, TechnologyNetwork.sourceValues, hg.inputs]
    exact hbase ▸ hl
  inputs := hg.inputs.trans h.inputs
  numPis := hg.numPis.trans h.numPis
  numPos := hg.numPos.trans h.numPos
  image_lt n := (h.image_lt n).trans_le hg.size_le
  value n hn := (hg.label _ (h.image_lt n)).trans (h.value n hn)
  output_lt o ho := (h.output_lt o (hg.outputs ▸ ho)).trans_le hg.size_le
  outputs := by
    rw [hg.outputs, hg.map_label h.output_lt]
    exact h.outputs

theorem Reached.signalValue_eq (h : Reached ntk V a pre outs numPos s w) {f : LogicSignal}
    (hf : ntk.IsSource f.node ∨ f.node ∈ pre) :
    signalValue (w ∘ s.2) f = signalValue (ntk.simulate V.gates a) f := by
  rw [signalValue, signalValue, Function.comp_apply, h.value _ hf]

theorem Reached.base_eq (s : TechnologyNetwork × (ℕ → ℕ)) (a : ℕ → Bool) :
    ∀ n ≤ 1, s.1.sourceValues a n = decide (n = 1) := fun _ hn => if_pos hn

theorem Reached.convertGate (hw : ntk.WellFormed) (h : Reached ntk V a pre [] 0 s w) {n : ℕ}
    {suf : List ℕ} (hV : V.gates = pre ++ n :: suf) :
    ∃ w', Reached ntk V a (pre ++ [n]) [] 0 (convertGate r ntk s n) w' := by
  obtain ⟨hn, hnew, hdeps⟩ := V.sorted.next hV
  obtain ⟨hns, hpre⟩ := not_or.mp hnew
  obtain ⟨hc, hi⟩ := not_or.mp hns
  obtain ⟨w₁, h₁, hgrow₁, hlt₁, hval₁⟩ := gatherFaninSignals_spec (Reached.base_eq s a) h.labelled
    fun f (_ : f ∈ (ntk.gate n).fanins) => h.image_lt f.node
  have hlen : (gatherFaninSignals s.1 s.2 (ntk.gate n).fanins).2.length =
      (ntk.gate n).fanins.length := by
    have := congrArg List.length hval₁
    rwa [List.length_map, List.length_map] at this
  obtain ⟨w₂, h₂, hgrow₂, hlt₂, hval₂⟩ := yields_createGate r (Reached.base_eq s a) h₁
    (hw.fits n hc hi) hlen hlt₁
  have hstep := h.grow h₂ (hgrow₁.trans hgrow₂)
  rw [convertGate_eq]
  refine ⟨w₂, hstep.labelled, hstep.inputs, hstep.numPis, hstep.numPos, ?_, ?_, hstep.output_lt,
    hstep.outputs⟩
  · intro m
    change Function.update s.2 n (createGate r _ _ _).2 m < (createGate r _ _ _).1.size
    by_cases hm : m = n
    · rw [hm, Function.update_self]
      exact hlt₂
    · rw [Function.update_of_ne hm]
      exact hstep.image_lt m
  · intro m hm
    change w₂ (Function.update s.2 n (createGate r _ _ _).2 m) = _
    by_cases hmn : m = n
    · rw [hmn, Function.update_self, hval₂, hval₁, V.simulate_gate a hn]
      refine congrArg _ (List.map_congr_left fun f hf => h.signalValue_eq ?_)
      exact hdeps _ (List.mem_map_of_mem hf)
    · rw [Function.update_of_ne hmn]
      refine hstep.value m (hm.imp_right fun hm => ?_)
      exact (List.mem_append.mp hm).resolve_right fun hm => hmn (List.mem_singleton.mp hm)

theorem reached_gates [CopyInitializer] (hw : ntk.WellFormed) (V : ntk.TopoView) (a : ℕ → Bool) :
    ∃ w, Reached ntk V a V.gates [] 0
      (V.gates.foldl (NetworkConversion.convertGate r ntk) (initializeCopyNetwork ntk)) w := by
  have hpre : ∀ pre suf, V.gates = pre ++ suf → ∃ w, Reached ntk V a pre [] 0
      (pre.foldl (NetworkConversion.convertGate r ntk) (initializeCopyNetwork ntk)) w := by
    intro pre
    induction pre using List.reverseRecOn with
    | nil => exact fun _ _ => reached_start hw V a
    | append_singleton pre n ih =>
      intro suf hV
      rw [List.append_assoc] at hV
      obtain ⟨w, h⟩ := ih _ hV
      rw [List.foldl_append]
      exact h.convertGate hw hV
  exact hpre _ [] (List.append_nil _).symm

/-- An output is created for the image of its signal. -/
theorem Reached.createOutput (h : Reached ntk V a V.gates outs numPos s w) {o : LogicSignal}
    (ho : o ∈ ntk.outputs) : ∃ w', ∀ dest numPos', dest.nodes = (translate s.1 s.2 o).1.nodes →
      dest.inputs = (translate s.1 s.2 o).1.inputs → dest.numPis = (translate s.1 s.2 o).1.numPis →
      dest.outputs = (translate s.1 s.2 o).1.outputs ++ [(translate s.1 s.2 o).2] →
      dest.numPos = numPos' → Reached ntk V a V.gates (outs ++ [o]) numPos' (dest, s.2) w' := by
  obtain ⟨w₁, h₁, hgrow₁, hlt₁, hval₁⟩ :=
    yields_translate (Reached.base_eq s a) h.labelled (h.image_lt o.node)
  have hstep := h.grow h₁ hgrow₁
  refine ⟨w₁, fun dest numPos' hn hi hpi hout hpo => ?_⟩
  have hsize : dest.size = (translate s.1 s.2 o).1.size := congrArg List.length hn
  have hbase : dest.sourceValues a = (translate s.1 s.2 o).1.sourceValues a := by
    funext n
    rw [TechnologyNetwork.sourceValues, TechnologyNetwork.sourceValues, hi]
  constructor
  · change Labelled valueRule (dest.sourceValues a) dest w₁
    rw [hbase]
    exact hstep.labelled.congr hn hi
  · exact hi.trans hstep.inputs
  · exact hpi.trans hstep.numPis
  · exact hpo
  · intro n
    change s.2 n < dest.size
    rw [hsize]
    exact hstep.image_lt n
  · exact hstep.value
  · intro m hm
    change m < dest.size
    rw [hsize]
    rcases List.mem_append.mp (hout ▸ hm) with hm | hm
    · exact hstep.output_lt m hm
    · rw [List.mem_singleton.mp hm]
      exact hlt₁
  · change dest.outputs.map w₁ = _
    rw [hout, List.map_append, List.map_append, hstep.outputs, List.map_singleton,
      List.map_singleton, hval₁, h.signalValue_eq (V.outputs_mem o ho)]

theorem Reached.convertPos (h : Reached ntk V a V.gates [] 0 s w) :
    ∀ outs ⊆ ntk.outputs, ∃ w', Reached ntk V a V.gates outs outs.length
      (outs.foldl (convertPo s.2) s.1, s.2) w' := by
  intro outs
  induction outs using List.reverseRecOn with
  | nil => exact fun _ => ⟨w, h⟩
  | append_singleton outs o ih =>
    intro hsub
    obtain ⟨w₁, h₁⟩ := ih fun m hm => hsub (List.mem_append_left _ hm)
    have ho : o ∈ ntk.outputs := hsub (List.mem_append_right _ (List.mem_singleton_self o))
    obtain ⟨w₂, h₂⟩ := h₁.createOutput ho
    rw [List.foldl_append, List.length_append]
    have hpos : (translate (outs.foldl (convertPo s.2) s.1) s.2 o).1.numPos = outs.length := by
      rw [numPos_translate]
      exact h₁.numPos
    exact ⟨w₂, h₂ _ _ rfl rfl rfl rfl (congrArg (· + 1) hpos)⟩

theorem Reached.convertRis (h : Reached ntk V a V.gates outs numPos s w) :
    ∀ ris ⊆ ntk.outputs, ∃ w', Reached ntk V a V.gates (outs ++ ris) numPos
      (ris.foldl (convertRi s.2) s.1, s.2) w' := by
  intro ris
  induction ris using List.reverseRecOn with
  | nil => exact fun _ => ⟨w, by rwa [List.append_nil]⟩
  | append_singleton ris o ih =>
    intro hsub
    obtain ⟨w₁, h₁⟩ := ih fun m hm => hsub (List.mem_append_left _ hm)
    have ho : o ∈ ntk.outputs := hsub (List.mem_append_right _ (List.mem_singleton_self o))
    obtain ⟨w₂, h₂⟩ := h₁.createOutput ho
    rw [List.foldl_append, ← List.append_assoc]
    have hpos : (translate (ris.foldl (convertRi s.2) s.1) s.2 o).1.numPos = numPos := by
      rw [numPos_translate]
      exact h₁.numPos
    exact ⟨w₂, h₂ _ _ rfl rfl rfl rfl hpos⟩

theorem restoreNames_sameLogic (dest : TechnologyNetwork) (gates : List ℕ) (old2new : ℕ → ℕ) :
    SameLogic dest (restoreNames ntk dest gates old2new) := by
  have hs : SameLogic dest { dest with networkName := ntk.networkName } := ⟨rfl, rfl, rfl, rfl, rfl⟩
  refine (hs.trans (foldl_sameLogic (fun d f => ?_) _)).trans (foldl_sameLogic (fun d i => ?_) _)
  · unfold restoreSignalName
    cases ntk.signalNames f <;> exact ⟨rfl, rfl, rfl, rfl, rfl⟩
  · unfold restoreOutputName
    cases ntk.outputNames i <;> exact ⟨rfl, rfl, rfl, rfl, rfl⟩

/-- The result of the run computes what the outputs of the source compute. -/
theorem run_reached [CopyInitializer] (r : TreeReduction) (hw : ntk.WellFormed) (V : ntk.TopoView)
    (a : ℕ → Bool) : ∃ old2new w,
      Reached ntk V a V.gates ntk.outputs ntk.numPos (run r ntk V.gates, old2new) w := by
  obtain ⟨w₁, h₁⟩ := @reached_gates r ntk _ hw V a
  have hrun : run r ntk V.gates = restoreNames ntk (ntk.foreachRi.foldl (convertRi _)
      (ntk.foreachPo.foldl (convertPo _)
        (V.gates.foldl (NetworkConversion.convertGate r ntk) (initializeCopyNetwork ntk)).1)) V.gates
      (V.gates.foldl (NetworkConversion.convertGate r ntk) (initializeCopyNetwork ntk)).2 := rfl
  rw [hrun]
  generalize V.gates.foldl (NetworkConversion.convertGate r ntk) (initializeCopyNetwork ntk) = s at *
  obtain ⟨w₂, h₂⟩ := h₁.convertPos ntk.foreachPo (List.take_subset _ _)
  obtain ⟨w₃, h₃⟩ := h₂.convertRis ntk.foreachRi (List.drop_subset _ _)
  have hlen : ntk.foreachPo.length = ntk.numPos := List.length_take_of_le hw.numPos_le
  have houts : ntk.foreachPo ++ ntk.foreachRi = ntk.outputs := List.take_append_drop _ _
  rw [hlen, houts] at h₃
  refine ⟨s.2, w₃, ?_⟩
  rw [(restoreNames_sameLogic _ _ _).eq]
  exact ⟨h₃.labelled.congr rfl rfl, h₃.inputs, h₃.numPis, h₃.numPos, h₃.image_lt, h₃.value,
    h₃.output_lt, h₃.outputs⟩

end Run

end NetworkConversion

/-- What can be observed of a network: its inputs, its outputs, and their functions. -/
structure Behaviour where
  inputs : ℕ
  numPis : ℕ
  outputs : ℕ
  numPos : ℕ
  values : (ℕ → Bool) → List Bool

def TechnologyNetwork.TopoView.behaviour {ntk : TechnologyNetwork} (V : ntk.TopoView) :
    Behaviour where
  inputs := ntk.inputs.length
  numPis := ntk.numPis
  outputs := ntk.outputs.length
  numPos := ntk.numPos
  values := ntk.outputValues V.gates

theorem TechnologyNetwork.Equivalent.behaviour_eq {ntk ntk' : TechnologyNetwork}
    {V : ntk.TopoView} {V' : ntk'.TopoView} (h : Equivalent V V') : V'.behaviour = V.behaviour := by
  rw [TopoView.behaviour, h.inputs, h.numPis, h.outputs, h.numPos, funext h.values]
  rfl

def LogicNetwork.TopoView.behaviour {ntk : LogicNetwork} (V : ntk.TopoView) : Behaviour where
  inputs := ntk.inputs.length
  numPis := ntk.numPis
  outputs := ntk.outputs.length
  numPos := ntk.numPos
  values := ntk.outputValues V.gates

namespace SourceNetwork

def behaviour : SourceNetwork → Behaviour
  | technology _ V => V.behaviour
  | other _ V => V.behaviour

def WellFormed : SourceNetwork → Prop
  | technology _ _ => True
  | other ntk _ => ntk.WellFormed

section Equivalence

variable [CopyInitializer]

theorem nonempty_topoView_convertNetwork (r : TreeReduction) {src : SourceNetwork}
    (hw : src.WellFormed) : Nonempty (convertNetwork r src).TopoView := by
  cases src with
  | technology ntk V => exact ⟨V⟩
  | other ntk V =>
    obtain ⟨_, w, h⟩ := NetworkConversion.run_reached r hw V fun _ => false
    exact h.labelled.nonempty_topoView h.output_lt

theorem behaviour_convertNetwork (r : TreeReduction) {src : SourceNetwork} (hw : src.WellFormed)
    (V : (convertNetwork r src).TopoView) : V.behaviour = src.behaviour := by
  cases src with
  | technology ntk V₀ =>
    rw [behaviour, TechnologyNetwork.TopoView.behaviour, TechnologyNetwork.TopoView.behaviour]
    congr 1
    exact funext fun a => V₀.outputValues_congr V a
  | other ntk V₀ =>
    have hrun := NetworkConversion.run_reached r hw V₀
    obtain ⟨_, w, h⟩ := hrun fun _ => false
    rw [behaviour, TechnologyNetwork.TopoView.behaviour, LogicNetwork.TopoView.behaviour]
    congr 1
    · exact (congrArg List.length h.inputs).trans List.length_range'
    · exact h.numPis
    · have := congrArg List.length h.outputs
      rwa [List.length_map, List.length_map] at this
    · exact h.numPos
    · funext a
      obtain ⟨_, w', h'⟩ := hrun a
      exact (h'.labelled.outputValues V).trans h'.outputs

/-- Conversion keeps the primary inputs and outputs, the register outputs and inputs, their order,
and the functions that the outputs and register inputs compute. -/
theorem convertNetwork_equivalent (r : TreeReduction) (src : SourceNetwork) (hw : src.WellFormed) :
    Nonempty (convertNetwork r src).TopoView ∧
      ∀ V : (convertNetwork r src).TopoView, V.behaviour = src.behaviour :=
  ⟨nonempty_topoView_convertNetwork r hw, behaviour_convertNetwork r hw⟩

end Equivalence

/-- Two inputs, a register, and two AND gates with complemented edges. The outputs are a
complemented gate and the constant `true`. -/
def sequentialAig : LogicNetwork where
  nodes := [default, default, default, default,
    { fanins := [⟨1, true⟩, ⟨2, false⟩], nodeFunction := .and, isAnd := true },
    { fanins := [⟨4, true⟩, ⟨3, true⟩], nodeFunction := .and, isAnd := true }]
  twoConstants := false
  inputs := [1, 2, 3]
  numPis := 2
  outputs := [⟨5, true⟩, ⟨0, true⟩, ⟨4, true⟩]
  numPos := 2
  networkName := ""
  signalNames _ := none
  outputNames _ := none

def sequentialAigView : sequentialAig.TopoView where
  gates := [4, 5]
  sorted := ⟨by decide, by decide, ⟨by decide, by decide, trivial⟩⟩
  outputs_mem := by decide

theorem sequentialAig_wellFormed : sequentialAig.WellFormed where
  inputs_nodup := by decide
  input := by decide
  numPis_le := by decide
  numPos_le := by decide
  fits n _ _ := by
    refine LogicNetwork.fits_gate (fun g hg => ?_) n
    have hand : ∀ f f' : LogicSignal,
        LogicGate.Fits { fanins := [f, f'], nodeFunction := .and, isAnd := true } := fun f f' =>
      ⟨fun _ => ⟨rfl, rfl⟩, nofun, nofun, nofun, nofun, nofun, nofun, nofun, nofun⟩
    simp only [sequentialAig, List.mem_cons, List.not_mem_nil, or_false] at hg
    rcases hg with rfl | rfl | rfl | rfl | rfl | rfl
    · exact LogicGate.default_fits
    · exact LogicGate.default_fits
    · exact LogicGate.default_fits
    · exact LogicGate.default_fits
    · exact hand _ _
    · exact hand _ _

def halves : TreeReduction where
  split n := n / 2
  split_pos n hn := by omega
  split_lt n hn := by omega

theorem convertNetwork_equivalent_aig :
    Nonempty (convertNetwork halves (.other sequentialAig sequentialAigView)).TopoView ∧
      ∀ V : (convertNetwork halves (.other sequentialAig sequentialAigView)).TopoView,
        V.behaviour = (other sequentialAig sequentialAigView).behaviour :=
  convertNetwork_equivalent halves _ sequentialAig_wellFormed

end SourceNetwork

end Fiction
