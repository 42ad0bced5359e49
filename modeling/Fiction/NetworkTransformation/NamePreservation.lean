import Fiction.NetworkTransformation.NameRestoration

/-!
# Which names survive

In a conversion, gates of one kind can collapse into a constant or into the node of their only
child. A primary input or a gate keeps its name if the last name on an edge from a node that
collapses into the same one is its name. The names of edges that are complemented are those of
other signals.
-/

namespace Fiction

namespace NetworkConversion

open TechnologyNetwork LogicNetwork

section Representatives

/-- What the image of gate `n` is an image of, too. -/
def gateRep (ntk : LogicNetwork) (rep : ℕ → Bool ⊕ ℕ) (n : ℕ) : Bool ⊕ ℕ :=
  let g := ntk.gate n
  if g.isAnd ∨ g.isOr ∨ g.isXor ∨ g.isMaj then .inr n
  else if g.isNaryAnd ∨ g.isNaryOr ∨ g.isNaryXor then
    match g.fanins with
    | [] => .inl g.isNaryAnd
    | [f] =>
      match f.complement, rep f.node with
      | false, m => m
      | true, .inl c => .inl !c
      | true, .inr _ => .inr n
    | _ => .inr n
  else if g.isBuf ∨ g.fanins ≠ [] then .inr n
  else .inl (g.nodeFunction ≠ .const0)

/-- Constants stand for their value, and all inputs for themselves. -/
def sourceRep (ntk : LogicNetwork) (n : ℕ) : Bool ⊕ ℕ :=
  if ntk.IsConstant n then .inl (n = 1) else .inr n

/-- Gates that collapse into the same node have the same representative. -/
def representative (ntk : LogicNetwork) (gates : List ℕ) : ℕ → Bool ⊕ ℕ :=
  gates.foldl (fun rep n => Function.update rep n (gateRep ntk rep n)) (sourceRep ntk)

end Representatives

section Creation

variable {r : TreeReduction} {dest : TechnologyNetwork}

structure Creates (dest : TechnologyNetwork) (created : TechnologyNetwork × ℕ) : Prop where
  keepsNames : KeepsNames 0 dest created.1
  size_le : dest.size ≤ created.2
  lt_size : created.2 < created.1.size

theorem pushNode_creates (children : List ℕ) (function : TruthTable) :
    Creates dest (dest.pushNode children function) :=
  ⟨pushNode_keepsNames _ _, le_rfl, by rw [size_pushNode]; exact Nat.lt_succ_self _⟩

theorem Creates.after {dest' : TechnologyNetwork} {created : TechnologyNetwork × ℕ}
    (h : Creates dest' created) (hk : KeepsNames 0 dest dest') : Creates dest created :=
  ⟨hk.append h.keepsNames, hk.size_le.trans h.size_le, h.lt_size⟩

theorem treeReduce_keepsNames {function : TruthTable} {init : ℕ} (children : List ℕ) :
    KeepsNames 0 dest
      (treeReduce r (fun ntk a b => ntk.pushNode [a, b] function) init dest children).1 := by
  induction children using r.induct generalizing dest with
  | nil =>
    rw [treeReduce]
    exact .refl
  | single f =>
    rw [treeReduce]
    exact .refl
  | split children htwo hleft hright =>
    rw [treeReduce_of_two_le r dest htwo]
    exact (hleft.append hright).append (pushNode_keepsNames _ _)

theorem treeReduce_creates {function : TruthTable} {init : ℕ} {children : List ℕ}
    (h : 2 ≤ children.length) : Creates dest
      (treeReduce r (fun ntk a b => ntk.pushNode [a, b] function) init dest children) := by
  rw [treeReduce_of_two_le r dest h]
  exact (pushNode_creates _ _).after ((treeReduce_keepsNames _).append (treeReduce_keepsNames _))

theorem translate_keepsNames (old2new : ℕ → ℕ) (f : LogicSignal) :
    KeepsNames 0 dest (translate dest old2new f).1 := by
  unfold translate
  split_ifs
  · exact createNot_keepsNames _
  · exact .refl

theorem gatherFaninSignals_keepsNames (old2new : ℕ → ℕ) (fanins : List LogicSignal) :
    KeepsNames 0 dest (gatherFaninSignals dest old2new fanins).1 ∧
      (gatherFaninSignals dest old2new fanins).2.length = fanins.length := by
  induction fanins generalizing dest with
  | nil => exact ⟨.refl, rfl⟩
  | cons f fs ih => exact ⟨(translate_keepsNames old2new f).append ih.1, congrArg (· + 1) ih.2⟩

variable {g : LogicGate} {children : List ℕ}

theorem createGate_creates (h : g.isAnd ∨ g.isOr ∨ g.isXor ∨ g.isMaj) :
    Creates dest (createGate r dest g children) := by
  rw [createGate]
  by_cases ha : g.isAnd = true
  · rw [if_pos ha]
    exact pushNode_creates _ _
  by_cases ho : g.isOr = true
  · rw [if_neg ha, if_pos ho]
    exact pushNode_creates _ _
  by_cases hx : g.isXor = true
  · rw [if_neg ha, if_neg ho, if_pos hx]
    exact pushNode_creates _ _
  · rw [if_neg ha, if_neg ho, if_neg hx,
      if_pos (((h.resolve_left ha).resolve_left ho).resolve_left hx)]
    exact pushNode_creates _ _

theorem createGate_eq_treeReduce (h : ¬ (g.isAnd ∨ g.isOr ∨ g.isXor ∨ g.isMaj))
    (hn : g.isNaryAnd ∨ g.isNaryOr ∨ g.isNaryXor) : ∃ function, createGate r dest g children =
      treeReduce r (fun ntk a b => ntk.pushNode [a, b] function) (getConstant g.isNaryAnd) dest
        children := by
  simp only [not_or] at h
  rw [createGate, if_neg h.1, if_neg h.2.1, if_neg h.2.2.1, if_neg h.2.2.2]
  by_cases ha : g.isNaryAnd = true
  · rw [if_pos ha, ha]
    exact ⟨_, rfl⟩
  · rw [if_neg ha, Bool.eq_false_of_not_eq_true ha]
    by_cases ho : g.isNaryOr = true
    · rw [if_pos ho]
      exact ⟨_, rfl⟩
    · rw [if_neg ho, if_pos ((hn.resolve_left ha).resolve_left ho)]
      exact ⟨_, rfl⟩

theorem createGate_eq_createNode (h : ¬ (g.isAnd ∨ g.isOr ∨ g.isXor ∨ g.isMaj))
    (hn : ¬ (g.isNaryAnd ∨ g.isNaryOr ∨ g.isNaryXor)) : createGate r dest g children =
      if g.isBuf then dest.createBuf (children.getD 0 0)
      else dest.createNode children g.nodeFunction := by
  simp only [not_or] at h hn
  rw [createGate, if_neg h.1, if_neg h.2.1, if_neg h.2.2.1, if_neg h.2.2.2, if_neg hn.1,
    if_neg hn.2.1, if_neg hn.2.2]

end Creation

section Conversion

variable {r : TreeReduction} {ntk : LogicNetwork} {pre : List ℕ} {n k : ℕ}
  {rep : ℕ → Bool ⊕ ℕ} {s : TechnologyNetwork × (ℕ → ℕ)}

def Converted (ntk : LogicNetwork) (pre : List ℕ) (n : ℕ) : Prop := ntk.IsSource n ∨ n ∈ pre

theorem converted_concat : (fun m => Converted ntk pre m ∨ m = n) = Converted ntk (pre ++ [n]) := by
  funext m
  simp [Converted, or_assoc]

/-- What is created for gate `n`, and what this stands for. -/
inductive Collapses (ntk : LogicNetwork) (rep : ℕ → Bool ⊕ ℕ) (s : TechnologyNetwork × (ℕ → ℕ))
    (n : ℕ) (created : TechnologyNetwork × ℕ) : Bool ⊕ ℕ → Prop
  | fresh (h : Creates s.1 created) : Collapses ntk rep s n created (.inr n)
  | constant (c : Bool) (hk : KeepsNames 0 s.1 created.1) (h : created.2 = getConstant c) :
      Collapses ntk rep s n created (.inl c)
  | same (f : LogicSignal) (hf : f ∈ (ntk.gate n).fanins) (hk : KeepsNames 0 s.1 created.1)
      (h : created.2 = s.2 f.node) : Collapses ntk rep s n created (rep f.node)

theorem collapses_translate {f : LogicSignal} (hf : f ∈ (ntk.gate n).fanins)
    (hrep : ∀ c, s.2 f.node = getConstant c ↔ rep f.node = .inl c) :
    Collapses ntk rep s n (translate s.1 s.2 f)
      (match f.complement, rep f.node with
        | false, m => m
        | true, .inl c => .inl !c
        | true, .inr _ => .inr n) := by
  cases hneg : f.complement with
  | false =>
    refine .same f hf (translate_keepsNames _ _) ?_
    rw [translate, hneg, if_neg Bool.false_ne_true]
  | true =>
    rw [translate, hneg, if_pos rfl]
    cases hm : rep f.node with
    | inl c =>
      have himage := (hrep c).mpr hm
      refine .constant (!c) (createNot_keepsNames _) ?_
      rw [himage]
      cases c <;> rfl
    | inr m =>
      have hne : ¬ isConstant (s.2 f.node) = true := by
        intro hc
        have hle : s.2 f.node ≤ 1 := of_decide_eq_true hc
        have himage : s.2 f.node = getConstant (s.2 f.node = 1) := by
          rcases Nat.le_one_iff_eq_zero_or_eq_one.mp hle with h0 | h0 <;> rw [h0] <;> rfl
        rw [(hrep _).mp himage] at hm
        cases hm
      refine .fresh ?_
      rw [createNot, if_neg hne]
      exact pushNode_creates _ _

theorem collapses_createGate
    (hrep : ∀ f ∈ (ntk.gate n).fanins, ∀ c, s.2 f.node = getConstant c ↔ rep f.node = .inl c) :
    Collapses ntk rep s n
      (createGate r (gatherFaninSignals s.1 s.2 (ntk.gate n).fanins).1 (ntk.gate n)
        (gatherFaninSignals s.1 s.2 (ntk.gate n).fanins).2) (gateRep ntk rep n) := by
  obtain ⟨hk, hlen⟩ := @gatherFaninSignals_keepsNames s.1 s.2 (ntk.gate n).fanins
  unfold gateRep
  simp only
  by_cases hplain : (ntk.gate n).isAnd ∨ (ntk.gate n).isOr ∨ (ntk.gate n).isXor ∨ (ntk.gate n).isMaj
  · rw [if_pos hplain]
    exact .fresh ((createGate_creates hplain).after hk)
  rw [if_neg hplain]
  by_cases hnary : (ntk.gate n).isNaryAnd ∨ (ntk.gate n).isNaryOr ∨ (ntk.gate n).isNaryXor
  · obtain ⟨function, htree⟩ := @createGate_eq_treeReduce r
      (gatherFaninSignals s.1 s.2 (ntk.gate n).fanins).1 (ntk.gate n)
      (gatherFaninSignals s.1 s.2 (ntk.gate n).fanins).2 hplain hnary
    rw [if_pos hnary, htree]
    match hfanins : (ntk.gate n).fanins with
    | [] =>
      simp only [gatherFaninSignals, treeReduce]
      exact .constant _ .refl rfl
    | [f] =>
      have hf : f ∈ (ntk.gate n).fanins := by simp [hfanins]
      simp only [gatherFaninSignals, treeReduce]
      exact collapses_translate hf (hrep f hf)
    | f :: g :: fs =>
      rw [hfanins] at hk hlen
      refine .fresh ((treeReduce_creates ?_).after hk)
      rw [hlen]
      simp
  · rw [if_neg hnary, createGate_eq_createNode hplain hnary]
    by_cases hbuf : (ntk.gate n).isBuf = true
    · rw [if_pos hbuf, if_pos (.inl hbuf)]
      exact .fresh ((pushNode_creates _ _).after hk)
    rw [if_neg hbuf, createNode]
    by_cases hfanins : (ntk.gate n).fanins = []
    · rw [hfanins, if_neg (not_or.mpr ⟨hbuf, not_not.mpr rfl⟩)]
      exact .constant _ .refl rfl
    · have hne : (gatherFaninSignals s.1 s.2 (ntk.gate n).fanins).2.isEmpty ≠ true := by
        intro hempty
        rw [List.isEmpty_iff.mp hempty] at hlen
        exact hfanins (List.length_eq_zero_iff.mp hlen.symm)
      rw [if_neg hne, if_pos (.inr hfanins)]
      exact .fresh ((pushNode_creates _ _).after hk)

theorem copying_convertGate (hn : ¬ Converted ntk pre n)
    (hdeps : ∀ f ∈ (ntk.gate n).fanins, Converted ntk pre f.node)
    (h : Copying ntk.inputs ntk.numPis k (Converted ntk pre) rep s.1 s.2) :
    Copying ntk.inputs ntk.numPis k (Converted ntk (pre ++ [n]))
      (Function.update rep n (gateRep ntk rep n)) (convertGate r ntk s n).1
      (convertGate r ntk s n).2 := by
  have hin : n ∉ ntk.inputs := fun hin => hn (.inl (.inr hin))
  rw [convertGate_eq, ← converted_concat]
  have hcollapse := @collapses_createGate r ntk n rep s fun f hf =>
    h.represents.constant _ (hdeps f hf)
  simp only
  generalize createGate r (gatherFaninSignals s.1 s.2 (ntk.gate n).fanins).1 (ntk.gate n)
    (gatherFaninSignals s.1 s.2 (ntk.gate n).fanins).2 = created at hcollapse ⊢
  generalize gateRep ntk rep n = m at hcollapse ⊢
  cases hcollapse with
  | fresh hc =>
    exact h.update hc.keepsNames hin (h.represents.update_fresh hn hc.size_le hc.lt_size)
  | constant c hk hc =>
    rw [hc]
    exact h.update hk hin ((h.represents.mono hk.size_le).update_constant hn c)
  | same f hf hk hc =>
    rw [hc]
    exact h.update hk hin ((h.represents.mono hk.size_le).update_same hn (hdeps f hf))

theorem copying_start [CopyInitializer] (hw : ntk.WellFormed) :
    Copying ntk.inputs ntk.numPis 0 (Converted ntk []) (sourceRep ntk)
      (initializeCopyNetwork ntk).1 (initializeCopyNetwork ntk).2 := by
  have h := initializeCopyNetwork_start hw
  have himage : ∀ n, Converted ntk [] n →
      (ntk.IsConstant n ∧ sourceRep ntk n = .inl (decide (n = 1)) ∧
        (initializeCopyNetwork ntk).2 n = getConstant (n = 1)) ∨
      (n ∈ ntk.inputs ∧ sourceRep ntk n = .inr n ∧
        (initializeCopyNetwork ntk).2 n = 2 + ntk.inputs.idxOf n) := by
    intro n hn
    by_cases hc : ntk.IsConstant n
    · refine .inl ⟨hc, if_pos hc, ?_⟩
      rw [h.other fun hin => hw.input n hin hc]
      rcases hc with rfl | ⟨rfl, htwo⟩
      · rfl
      · rw [if_pos ⟨rfl, htwo⟩]
        rfl
    · have hin := (hn.resolve_right List.not_mem_nil).resolve_left hc
      exact .inr ⟨hin, if_neg hc, h.input hin⟩
  refine ⟨⟨?_, fun n _ => h.image_lt n, fun n hn c => ?_, fun n m hn hm => ?_, fun n hn m he => ?_⟩,
    h.signalNames, h.outputNames, ?_, h.numPis, h.numPos⟩
  · rw [h.size_eq]
    exact Nat.le_add_right 2 _
  · have := getConstant_le_one c
    rcases himage n hn with ⟨-, hr, hi⟩ | ⟨-, hr, hi⟩
    · rw [hi, hr, Sum.inl.injEq]
      exact ⟨fun he => getConstant_injective he, congrArg _⟩
    · rw [hi, hr]
      exact iff_of_false (by omega) (by simp)
  · rcases himage n hn with ⟨hc, hr, hi⟩ | ⟨hin, hr, hi⟩ <;>
      rcases himage m hm with ⟨hc', hr', hi'⟩ | ⟨hin', hr', hi'⟩ <;> rw [hi, hr, hi', hr']
    · rw [Sum.inl.injEq]
      exact ⟨fun he => getConstant_injective he, congrArg _⟩
    · have := getConstant_le_one (decide (n = 1))
      exact iff_of_false (by omega) (by simp)
    · have := getConstant_le_one (decide (m = 1))
      exact iff_of_false (by omega) (by simp)
    · rw [Sum.inr.injEq, Nat.add_left_cancel_iff]
      exact List.idxOf_inj hin
  · rcases himage n hn with ⟨-, hr, -⟩ | ⟨-, hr, -⟩
    · rw [hr] at he
      cases he
    · rw [hr] at he
      exact Sum.inr.inj he ▸ hn
  · rw [h.inputs]
    refine List.ext_getElem (by simp) fun i hi hi' => ?_
    rw [List.length_map] at hi'
    rw [List.getElem_range', List.getElem_map, h.input (List.getElem_mem hi'),
      hw.inputs_nodup.idxOf_getElem, Nat.one_mul]

theorem representative_append (pre ns : List ℕ) : representative ntk (pre ++ ns) =
    ns.foldl (fun rep n => Function.update rep n (gateRep ntk rep n)) (representative ntk pre) :=
  List.foldl_append

theorem copying_foldl_gates (V : ntk.TopoView) {ns : List ℕ} (hV : V.gates = pre ++ ns)
    (h : Copying ntk.inputs ntk.numPis k (Converted ntk pre) (representative ntk pre) s.1 s.2) :
    Copying ntk.inputs ntk.numPis k (Converted ntk V.gates) (representative ntk V.gates)
      (ns.foldl (convertGate r ntk) s).1 (ns.foldl (convertGate r ntk) s).2 := by
  induction ns generalizing pre s with
  | nil => rwa [hV, List.append_nil]
  | cons n ns ih =>
    obtain ⟨-, hnew, hdeps⟩ := V.sorted.next hV
    rw [List.foldl_cons]
    refine @ih (pre ++ [n]) _ (by rw [hV, List.append_assoc]; rfl) ?_
    rw [representative_append]
    exact copying_convertGate hnew (fun f hf => hdeps f.node (List.mem_map_of_mem hf)) h

theorem convertPo_keepsNames (old2new : ℕ → ℕ) (dest : TechnologyNetwork) (po : LogicSignal) :
    KeepsNames 1 dest (convertPo old2new dest po) := by
  have h := (@translate_keepsNames dest old2new po).trans
    (createPo_keepsNames (translate dest old2new po).2)
  rwa [Nat.zero_add] at h

theorem convertRi_keepsNames (old2new : ℕ → ℕ) (dest : TechnologyNetwork) (ri : LogicSignal) :
    KeepsNames 0 dest (convertRi old2new dest ri) :=
  (translate_keepsNames old2new ri).append (createRi_keepsNames _)

/-- The run before the names are restored. -/
def convert [CopyInitializer] (r : TreeReduction) (ntk : LogicNetwork) (gates : List ℕ) :
    TechnologyNetwork × (ℕ → ℕ) :=
  let (dest, old2new) := gates.foldl (convertGate r ntk) (initializeCopyNetwork ntk)
  let dest := ntk.foreachPo.foldl (convertPo old2new) dest
  let dest := ntk.foreachRi.foldl (convertRi old2new) dest
  (dest, old2new)

theorem run_eq [CopyInitializer] (gates : List ℕ) : run r ntk gates =
    restoreNames ntk (convert r ntk gates).1 gates (convert r ntk gates).2 := rfl

theorem convert_copying [CopyInitializer] (hw : ntk.WellFormed) (V : ntk.TopoView) :
    Copying ntk.inputs ntk.numPis ntk.numPos (Converted ntk V.gates) (representative ntk V.gates)
      (convert r ntk V.gates).1 (convert r ntk V.gates).2 := by
  have hgates := @copying_foldl_gates r _ _ _ _ V _ rfl (copying_start hw)
  have hpos := hgates.foldl_outputs convertPo_keepsNames ntk.foreachPo
  have hris := hpos.foldl_outputs convertRi_keepsNames ntk.foreachRi
  have hlen : ntk.foreachPo.length = ntk.numPos := List.length_take_of_le hw.numPos_le
  rwa [hlen, Nat.zero_mul, Nat.zero_add, Nat.one_mul] at hris

end Conversion

end NetworkConversion

namespace SourceNetwork

open TechnologyNetwork NetworkConversion

def pis : SourceNetwork → List ℕ
  | technology ntk _ => ntk.foreachPi
  | other ntk _ => ntk.foreachPi

def gates : SourceNetwork → List ℕ
  | technology _ V => V.gates
  | other _ V => V.gates

def numPos : SourceNetwork → ℕ
  | technology ntk _ => ntk.numPos
  | other ntk _ => ntk.numPos

/-- The name of the signal of a node without a complement. -/
def name : SourceNetwork → ℕ → Option String
  | technology ntk _, n => ntk.signalNames n
  | other ntk _, n => ntk.signalNames ⟨n, false⟩

def outputNames : SourceNetwork → ℕ → Option String
  | technology ntk _ => ntk.outputNames
  | other ntk _ => ntk.outputNames

/-- The nodes that the conversion maps to. -/
def image [CopyInitializer] (r : TreeReduction) : SourceNetwork → ℕ → ℕ
  | technology _ _ => id
  | other ntk V => (convert r ntk V.gates).2

def lastEdgeName : SourceNetwork → ℕ → Option String
  | technology ntk _, n => ntk.signalNames n
  | other ntk V, n => lastName ntk.signalNames (fun f => representative ntk V.gates f.node)
      (V.gates.flatMap fun n => (ntk.gate n).fanins) (representative ntk V.gates n)

/-- The inputs and outputs of the result have the names of those of the source, and so do the images
of the gates that are mapped. -/
structure NamesKept (src : SourceNetwork) (mapped : ℕ → Prop) (result : TechnologyNetwork)
    (image : ℕ → ℕ) : Prop where
  pis : result.foreachPi.map result.signalNames = src.pis.map src.name
  numPos : result.numPos = src.numPos
  pos : ∀ i < src.numPos, result.outputNames i = src.outputNames i
  gates : ∀ n ∈ src.gates, mapped n → ∀ str, src.name n = some str →
    result.signalNames (image n) = some str

structure NamesRead (src : SourceNetwork) (mapped read : ℕ → Prop) : Prop where
  pis : ∀ n ∈ src.pis, ∀ str, read n ∧ src.lastEdgeName n = some str ↔ src.name n = some str
  gates : ∀ n ∈ src.gates, mapped n → ∀ str, src.name n = some str →
    read n ∧ src.lastEdgeName n = some str

variable {src : SourceNetwork} {r : TreeReduction}

theorem namesKept_iff_namesRead {mapped read : ℕ → Prop} {result : TechnologyNetwork}
    {image : ℕ → ℕ} (hpis : result.foreachPi = src.pis.map image)
    (hpos : result.numPos = src.numPos)
    (hout : ∀ i < src.numPos, result.outputNames i = src.outputNames i)
    (hname : ∀ n, n ∈ src.pis ∨ n ∈ src.gates ∧ mapped n → ∀ str,
      result.signalNames (image n) = some str ↔ read n ∧ src.lastEdgeName n = some str) :
    src.NamesKept mapped result image ↔ src.NamesRead mapped read := by
  have hlist : result.foreachPi.map result.signalNames = src.pis.map src.name ↔
      ∀ n ∈ src.pis, ∀ str, read n ∧ src.lastEdgeName n = some str ↔ src.name n = some str := by
    rw [hpis, List.map_map, List.map_inj_left]
    refine forall₂_congr fun n hn => ?_
    rw [Option.ext_iff]
    exact forall_congr' fun str => by rw [Function.comp_apply, hname n (.inl hn) str]
  constructor
  · intro h
    exact ⟨hlist.mp h.pis, fun n hn hm str hs =>
      (hname n (.inr ⟨hn, hm⟩) str).mp (h.gates n hn hm str hs)⟩
  · intro h
    exact ⟨hlist.mpr h.pis, hpos, hout, fun n hn hm str hs =>
      (hname n (.inr ⟨hn, hm⟩) str).mpr (h.gates n hn hm str hs)⟩

/-- What the conversion does with the names. -/
structure Converts (src : SourceNetwork) (ntk : TechnologyNetwork) (image : ℕ → ℕ) : Prop where
  pis : ntk.foreachPi = src.pis.map image
  numPos : ntk.numPos = src.numPos
  outputNames : ∀ i < src.numPos, ntk.outputNames i = src.outputNames i
  signalNames : ∀ n, n ∈ src.pis ∨ n ∈ src.gates → ntk.signalNames (image n) = src.lastEdgeName n

theorem convertNetwork_converts [CopyInitializer] (hs : src.WellFormed) :
    Converts src (convertNetwork r src) (src.image r) := by
  cases src with
  | technology ntk V => exact ⟨(List.map_id _).symm, rfl, fun _ _ => rfl, fun _ _ => rfl⟩
  | other ntk V =>
    have h := @convert_copying r ntk _ hs V
    obtain ⟨hnames, houts⟩ := h.restored ntk.signalNames
      (fun f => (convert r ntk V.gates).2 f.node) (V.gates.flatMap fun n => (ntk.gate n).fanins)
      ntk.outputNames ntk.numPos ntk.networkName (run_eq V.gates)
    have hlogic := @NetworkConversion.restoreNames_sameLogic ntk (convert r ntk V.gates).1 V.gates
      (convert r ntk V.gates).2
    refine ⟨?_, hlogic.numPos.trans h.numPos, houts, fun n hn => ?_⟩
    · refine (congrArg₂ List.take (hlogic.numPis.trans h.numPis)
        (hlogic.inputs.trans h.inputs)).trans ?_
      rw [← List.map_take]
      rfl
    · have hknown : Converted ntk V.gates n :=
        hn.imp (fun hn => .inr (List.take_subset _ _ hn)) id
      refine (hnames _).trans (lastName_congr fun f hf => ?_)
      obtain ⟨m, hm, hf⟩ := List.mem_flatMap.mp hf
      exact h.represents.image _ _ (V.sorted.deps hm (List.mem_map_of_mem hf)) hknown

section SecondStep

variable {ntk : TechnologyNetwork} {image : ℕ → ℕ}

/-- The node is a child of a listed gate. -/
def IsRead (V : ntk.TopoView) (n : ℕ) : Prop := ∃ g ∈ V.gates, n ∈ (ntk.node g).children

theorem namesKept_restoreNames_iff (hc : Converts src ntk image) (V : ntk.TopoView)
    {dest : TechnologyNetwork} {old2new : ℕ → ℕ}
    (h : Copying ntk.inputs ntk.numPis ntk.numPos (ntk.Known V.gates) ownRep dest old2new) :
    src.NamesKept (fun n => ntk.Known V.gates (image n))
        (ntk.restoreNames dest V.gates old2new) (old2new ∘ image) ↔
      src.NamesRead (fun n => ntk.Known V.gates (image n)) (fun n => IsRead V (image n)) := by
  have hresult : ntk.restoreNames dest V.gates old2new = _ := rfl
  obtain ⟨hnames, houts⟩ := h.restored ntk.signalNames old2new
    (V.gates.flatMap fun n => (ntk.node n).children) ntk.outputNames ntk.numPos ntk.networkName
    hresult
  have hlogic := ntk.restoreNames_sameLogic dest V.gates old2new
  refine namesKept_iff_namesRead ?_ ((hlogic.numPos.trans h.numPos).trans hc.numPos)
    (fun i hi => (houts i (hc.numPos ▸ hi)).trans (hc.outputNames i hi)) fun n hn str => ?_
  · rw [foreachPi, hlogic.numPis, hlogic.inputs, h.numPis, h.inputs, ← List.map_take,
      ← List.map_map, ← hc.pis]
    rfl
  · have hknown : ntk.Known V.gates (image n) := by
      rcases hn with hn | hn
      · have hmem : image n ∈ ntk.foreachPi := hc.pis ▸ List.mem_map_of_mem hn
        exact .inl (.inr (List.take_subset _ _ hmem))
      · exact hn.2
    rw [Function.comp_apply, hnames, lastName_eq_some fun f hf => ?_, List.mem_flatMap,
      hc.signalNames n (hn.imp_right And.left)]
    · rfl
    · obtain ⟨m, hm, hf⟩ := List.mem_flatMap.mp hf
      rw [h.represents.image _ _ (V.sorted.deps hm hf) hknown, ownRep_injective.eq_iff]

end SecondStep

section Transformations

variable [CopyInitializer] (r : TreeReduction) (src : SourceNetwork)

/-- The names are kept by the conversion and a copy `dest` together, the images of which are given
by `old2new`. Gates of the source whose images are not listed have no image in the copy. -/
def NamesKeptAlong (V : (convertNetwork r src).TopoView) (dest : TechnologyNetwork)
    (old2new : ℕ → ℕ) : Prop :=
  src.NamesKept (fun n => (convertNetwork r src).Known V.gates (src.image r n))
    ((convertNetwork r src).restoreNames dest V.gates old2new) (old2new ∘ src.image r)

def NamesReadAlong (V : (convertNetwork r src).TopoView) : Prop :=
  src.NamesRead (fun n => (convertNetwork r src).Known V.gates (src.image r n))
    fun n => IsRead V (src.image r n)

/-- When names survive a conversion, a fan-out substitution, and a balancing. -/
theorem namesKept_iff (hs : src.WellFormed) :
    (src.NamesKept (fun _ => True) (convertNetwork r src) (src.image r) ↔
      src.NamesRead (fun _ => True) fun _ => True) ∧
    ∀ (_ : (convertNetwork r src).WellFormed) (V : (convertNetwork r src).TopoView),
      (∀ ps s, FanoutSubstitution.substitute (convertNetwork r src) ps V.gates = some s →
        FanoutSubstitution.run (convertNetwork r src) ps V.gates =
            some ((convertNetwork r src).restoreNames s.substituted V.gates s.old2new) ∧
          (NamesKeptAlong r src V s.substituted s.old2new ↔ NamesReadAlong r src V)) ∧
      (∀ level ps s, NetworkBalancing.balance (convertNetwork r src) level ps V.gates = some s →
        NetworkBalancing.run (convertNetwork r src) level ps V.gates =
            some ((convertNetwork r src).restoreNames s.1 V.gates s.2) ∧
          (NamesKeptAlong r src V s.1 s.2 ↔ NamesReadAlong r src V)) ∧
      (∀ ps : FanoutSubstitution.FanoutSubstitutionParams, 2 ≤ ps.degree.toNat →
        ∃ s, FanoutSubstitution.substitute (convertNetwork r src) ps V.gates = some s) ∧
      (0 < src.numPos → ∀ level ps,
        ∃ s, NetworkBalancing.balance (convertNetwork r src) level ps V.gates = some s) := by
  have hc := @convertNetwork_converts src r _ hs
  refine ⟨namesKept_iff_namesRead hc.pis hc.numPos hc.outputNames fun n hn str => ?_,
    fun hw V => ⟨fun ps s hrun => ⟨?_, ?_⟩, fun level ps s hrun => ⟨?_, ?_⟩, fun ps hd => ?_,
      fun hpos level ps => ?_⟩⟩
  · rw [hc.signalNames n (hn.imp_right And.left), true_and]
  · rw [FanoutSubstitution.run_eq_map, hrun, Option.map_some]
  · exact namesKept_restoreNames_iff hc V (FanoutSubstitution.substitute_substituting hw V hrun)
  · rw [NetworkBalancing.run_eq_map, hrun, Option.map_some]
  · exact namesKept_restoreNames_iff hc V (NetworkBalancing.balance_copying hw V hrun)
  · obtain ⟨s, hrun, -⟩ := FanoutSubstitution.run_reached hw V hd
    rw [FanoutSubstitution.run_eq_map] at hrun
    obtain ⟨s, hs, -⟩ := Option.map_eq_some_iff.mp hrun
    exact ⟨s, hs⟩
  · exact NetworkBalancing.exists_balance hw level ps V.gates (hc.numPos ▸ hpos)

end Transformations

def namedChain : TechnologyNetwork :=
  let (ntk, a) := empty.createPi
  let (ntk, b) := ntk.createPi
  let (ntk, c) := ntk.createAnd a b
  let (ntk, d) := ntk.createBuf c
  ((((ntk.createPo d).setName a "a").setName b "b").setName c "c").setOutputName 0 "f"

theorem namedChain_wellFormed : namedChain.WellFormed :=
  wellFormed_of_forall_lt (by decide) (by decide) (by decide) (by decide) (by decide) (by decide)
    (by decide)

def namedChainView : namedChain.TopoView := creationView (by decide) (by decide)

theorem namedChain_namesReadAlong :
    NamesReadAlong halves (.technology namedChain namedChainView) namedChainView := by
  have hread : ∀ n, IsRead namedChainView n ↔ n = 2 ∨ n = 3 ∨ n = 4 := by
    intro n
    have hgates : namedChainView.gates = [4, 5] := by decide
    have h4 : (namedChain.node 4).children = [2, 3] := rfl
    have h5 : (namedChain.node 5).children = [4] := rfl
    simp [IsRead, hgates, h4, h5, or_assoc]
  constructor
  · intro n hn str
    have hn : n ∈ [2, 3] := hn
    have hread : IsRead namedChainView n := by
      rw [hread]
      simp at hn
      omega
    exact and_iff_right hread
  · intro n hn _ str hname
    have hn : n ∈ [4, 5] := hn
    refine ⟨(hread n).mpr ?_, hname⟩
    simp at hn
    rcases hn with rfl | rfl
    · omega
    · cases hname

theorem namesKept_iff_namedChain :
    ∃ s, FanoutSubstitution.substitute namedChain {} namedChainView.gates = some s ∧
      NamesKeptAlong halves (.technology namedChain namedChainView) namedChainView s.substituted
        s.old2new := by
  obtain ⟨hsubstitution, -, hexists, -⟩ := (namesKept_iff halves
    (.technology namedChain namedChainView) trivial).2 namedChain_wellFormed namedChainView
  obtain ⟨s, hs⟩ := hexists {} (by decide)
  exact ⟨s, hs, (hsubstitution {} s hs).2.mpr namedChain_namesReadAlong⟩

/-- A named input that feeds a named output only. -/
def wire : TechnologyNetwork :=
  let (ntk, a) := empty.createPi
  ((ntk.createPo a).setName a "a").setOutputName 0 "f"

def wireView : wire.TopoView := creationView (by decide) (by decide)

/-- The same as an and-inverter graph. -/
def wireAig : LogicNetwork where
  nodes := [default, default]
  twoConstants := false
  inputs := [1]
  numPis := 1
  outputs := [⟨1, false⟩]
  numPos := 1
  networkName := ""
  signalNames f := if f = ⟨1, false⟩ then some "a" else none
  outputNames i := if i = 0 then some "f" else none

def wireAigView : wireAig.TopoView where
  gates := []
  sorted := trivial
  outputs_mem := by decide

/-- The input loses its name in each transformation. -/
theorem wire_not_namesKept :
    (¬ (other wireAig wireAigView).NamesKept (fun _ => True)
      (convertNetwork halves (.other wireAig wireAigView))
      ((other wireAig wireAigView).image halves)) ∧
    (∃ s, FanoutSubstitution.substitute wire {} wireView.gates = some s ∧
      ¬ NamesKeptAlong halves (.technology wire wireView) wireView s.substituted s.old2new) ∧
    ∃ s, NetworkBalancing.balance wire (fun _ => 0) {} wireView.gates = some s ∧
      ¬ NamesKeptAlong halves (.technology wire wireView) wireView s.1 s.2 := by
  refine ⟨fun h => absurd h.pis (by decide), ⟨_, rfl, fun h => absurd h.pis (by decide)⟩,
    ⟨_, rfl, fun h => absurd h.pis (by decide)⟩⟩

end SourceNetwork

end Fiction
