import Fiction.Networks.TopoView
import Mathlib.Data.List.Range

/-!
# Copies of a network without its gates

Transformations start from a network with copies of the constants and of the combinational inputs,
together with a map from old nodes to new signals, and finally restore the names. The copies are
made by a function of the network library, of which only the result is known.
-/

namespace Fiction

/-- Copies of `cis` without names, and the map from old nodes to new signals. -/
structure TechnologyNetwork.Copies (constants : ℕ → ℕ) (pis : ℕ) (cis : List ℕ)
    (s : TechnologyNetwork × (ℕ → ℕ)) : Prop where
  nodes : s.1.nodes = empty.nodes ++ List.replicate cis.length ⟨[], .identity⟩
  inputs : s.1.inputs = List.range' 2 cis.length
  numPis : s.1.numPis = pis
  outputs : s.1.outputs = []
  numPos : s.1.numPos = 0
  signalNames : s.1.signalNames = fun _ => none
  outputNames : s.1.outputNames = fun _ => none
  old2new : ∀ n, s.2 n = if n ∈ cis then 2 + cis.idxOf n else constants n

/-- `initialize_copy_network`, with the images of the constants. -/
class CopyInitializer where
  copyInputs : (ℕ → ℕ) → List ℕ → List ℕ → TechnologyNetwork × (ℕ → ℕ)
  copies : ∀ constants {pis ros : List ℕ}, (pis ++ ros).Nodup →
    TechnologyNetwork.Copies constants pis.length (pis ++ ros) (copyInputs constants pis ros)

namespace TechnologyNetwork

def initializeCopyNetwork [CopyInitializer] (ntk : TechnologyNetwork) :
    TechnologyNetwork × (ℕ → ℕ) :=
  CopyInitializer.copyInputs (fun n => if n = 1 then 1 else 0) ntk.foreachPi ntk.foreachRo

def restoreOutputNames (src dest : TechnologyNetwork) : TechnologyNetwork :=
  (List.range src.numPos).foldl (fun dest i =>
    match src.outputNames i with
    | some name => dest.setOutputName i name
    | none => dest) dest

/-- Names of children of listed gates are given to the images of these children. -/
def restoreSignalNames (src dest : TechnologyNetwork) (gates : List ℕ) (old2new : ℕ → ℕ) :
    TechnologyNetwork :=
  (gates.flatMap fun n => (src.node n).children).foldl (fun dest f =>
    match src.signalNames f with
    | some name => dest.setName (old2new f) name
    | none => dest) dest

def restoreNames (src dest : TechnologyNetwork) (gates : List ℕ) (old2new : ℕ → ℕ) :
    TechnologyNetwork :=
  restoreOutputNames src
    (restoreSignalNames src { dest with networkName := src.networkName } gates old2new)

/-- `ntk'` differs from `ntk` in its names at most. -/
structure SameLogic (ntk ntk' : TechnologyNetwork) : Prop where
  nodes : ntk'.nodes = ntk.nodes
  inputs : ntk'.inputs = ntk.inputs
  numPis : ntk'.numPis = ntk.numPis
  outputs : ntk'.outputs = ntk.outputs
  numPos : ntk'.numPos = ntk.numPos

section Names

variable {ntk ntk' ntk'' : TechnologyNetwork}

theorem SameLogic.refl : SameLogic ntk ntk := ⟨rfl, rfl, rfl, rfl, rfl⟩

theorem SameLogic.trans (h : SameLogic ntk ntk') (h' : SameLogic ntk' ntk'') :
    SameLogic ntk ntk'' :=
  ⟨h'.nodes.trans h.nodes, h'.inputs.trans h.inputs, h'.numPis.trans h.numPis,
    h'.outputs.trans h.outputs, h'.numPos.trans h.numPos⟩

theorem foldl_sameLogic {ι : Type*} {f : TechnologyNetwork → ι → TechnologyNetwork}
    (hf : ∀ ntk i, SameLogic ntk (f ntk i)) (is : List ι) : SameLogic ntk (is.foldl f ntk) := by
  induction is generalizing ntk with
  | nil => exact .refl
  | cons i is ih => exact (hf ntk i).trans ih

theorem restoreNames_sameLogic (src dest : TechnologyNetwork) (gates : List ℕ) (old2new : ℕ → ℕ) :
    SameLogic dest (restoreNames src dest gates old2new) := by
  have hs : SameLogic dest { dest with networkName := src.networkName } := ⟨rfl, rfl, rfl, rfl, rfl⟩
  refine (hs.trans (foldl_sameLogic (fun d f => ?_) _)).trans (foldl_sameLogic (fun d i => ?_) _)
  · cases src.signalNames f <;> exact ⟨rfl, rfl, rfl, rfl, rfl⟩
  · cases src.outputNames i <;> exact ⟨rfl, rfl, rfl, rfl, rfl⟩

theorem SameLogic.eq (h : SameLogic ntk ntk') : ntk' = { ntk with
    networkName := ntk'.networkName
    signalNames := ntk'.signalNames
    outputNames := ntk'.outputNames } := by
  obtain ⟨nodes, inputs, numPis, outputs, numPos, _, _, _⟩ := ntk'
  obtain ⟨rfl, rfl, rfl, rfl, rfl⟩ := h
  rfl

theorem SameLogic.simulation (h : SameLogic ntk' ntk'') {gates : List ℕ} {f : ℕ → ℕ}
    (hs : Simulation ntk ntk' gates f) : Simulation ntk ntk'' gates f := by
  rw [h.eq]
  exact ⟨hs.constant, hs.inputs, hs.follows⟩

theorem SameLogic.nonempty_topoView (h : SameLogic ntk ntk') (hV : Nonempty ntk.TopoView) :
    Nonempty ntk'.TopoView := by
  obtain ⟨gates, hsort, hlt, hout⟩ := hV
  rw [h.eq]
  exact ⟨⟨gates, hsort, hlt, hout⟩⟩

end Names

section Inputs

def copyInput (create : TechnologyNetwork → TechnologyNetwork × ℕ)
    (s : TechnologyNetwork × (ℕ → ℕ)) (n : ℕ) : TechnologyNetwork × (ℕ → ℕ) :=
  ((create s.1).1, Function.update s.2 n (create s.1).2)

/-- What a creation function for combinational inputs does. -/
structure CreatesInput (create : TechnologyNetwork → TechnologyNetwork × ℕ) (pis : ℕ) : Prop where
  created : ∀ ntk, (create ntk).2 = ntk.size
  nodes : ∀ ntk, (create ntk).1.nodes = ntk.nodes ++ [⟨[], .identity⟩]
  inputs : ∀ ntk, (create ntk).1.inputs = ntk.inputs ++ [ntk.size]
  outputs : ∀ ntk, (create ntk).1.outputs = ntk.outputs
  numPis : ∀ ntk, (create ntk).1.numPis = ntk.numPis + pis
  numPos : ∀ ntk, (create ntk).1.numPos = ntk.numPos
  signalNames : ∀ ntk, (create ntk).1.signalNames = ntk.signalNames
  outputNames : ∀ ntk, (create ntk).1.outputNames = ntk.outputNames

theorem createPi_createsInput : CreatesInput createPi 1 := by
  constructor <;> exact fun _ => rfl

theorem createRo_createsInput : CreatesInput createRo 0 := by
  constructor <;> exact fun _ => rfl

/-- `s'` has copies of the inputs `l` in addition to `s`. -/
structure InputsCopied (pis : ℕ) (l : List ℕ) (s s' : TechnologyNetwork × (ℕ → ℕ)) : Prop where
  nodes : s'.1.nodes = s.1.nodes ++ List.replicate l.length ⟨[], .identity⟩
  inputs : s'.1.inputs = s.1.inputs ++ List.range' s.1.size l.length
  outputs : s'.1.outputs = s.1.outputs
  numPis : s'.1.numPis = s.1.numPis + pis * l.length
  numPos : s'.1.numPos = s.1.numPos
  signalNames : s'.1.signalNames = s.1.signalNames
  outputNames : s'.1.outputNames = s.1.outputNames
  old2new : ∀ n, s'.2 n = if n ∈ l then s.1.size + l.idxOf n else s.2 n

theorem foldl_copyInput {create : TechnologyNetwork → TechnologyNetwork × ℕ} {pis : ℕ}
    (hc : CreatesInput create pis) {l : List ℕ} (hl : l.Nodup) (s : TechnologyNetwork × (ℕ → ℕ)) :
    InputsCopied pis l s (l.foldl (copyInput create) s) := by
  induction l generalizing s with
  | nil =>
    refine ⟨?_, ?_, rfl, rfl, rfl, rfl, rfl, fun _ => rfl⟩
    · exact (List.append_nil _).symm
    · exact (List.append_nil _).symm
  | cons m l ih =>
    obtain ⟨hm, hnd⟩ := List.nodup_cons.mp hl
    have h := ih hnd (copyInput create s m)
    have hsize : (copyInput create s m).1.size = s.1.size + 1 := by
      rw [size, copyInput, hc.nodes, List.length_append]
      rfl
    constructor
    · rw [List.foldl_cons, h.nodes, copyInput, hc.nodes, List.append_assoc]
      rfl
    · rw [List.foldl_cons, h.inputs, hsize, copyInput, hc.inputs, List.append_assoc]
      rfl
    · exact h.outputs.trans (hc.outputs _)
    · rw [List.foldl_cons, h.numPis, copyInput, hc.numPis, List.length_cons, Nat.mul_succ]
      omega
    · exact h.numPos.trans (hc.numPos _)
    · exact h.signalNames.trans (hc.signalNames _)
    · exact h.outputNames.trans (hc.outputNames _)
    · intro n
      rw [List.foldl_cons, h.old2new, hsize]
      change (if n ∈ l then _ else Function.update s.2 m (create s.1).2 n) = _
      rw [hc.created]
      by_cases hn : n = m
      · subst hn
        rw [if_neg hm, if_pos List.mem_cons_self, List.idxOf_cons_self, Function.update_self]
        rfl
      · rw [Function.update_of_ne hn, List.idxOf_cons_ne _ (Ne.symm hn)]
        simp only [List.mem_cons, hn, false_or]
        split_ifs <;> omega

/-- The inputs are created one after the other. -/
def serialCopy (constants : ℕ → ℕ) (pis ros : List ℕ) : TechnologyNetwork × (ℕ → ℕ) :=
  ros.foldl (copyInput createRo) (pis.foldl (copyInput createPi) (empty, constants))

theorem serialCopy_copies (constants : ℕ → ℕ) {pis ros : List ℕ} (hnd : (pis ++ ros).Nodup) :
    Copies constants pis.length (pis ++ ros) (serialCopy constants pis ros) := by
  obtain ⟨hndPi, hndRo, hdisjoint⟩ := List.nodup_append.mp hnd
  rw [serialCopy]
  have hpi := foldl_copyInput createPi_createsInput hndPi (empty, constants)
  generalize pis.foldl (copyInput createPi) (empty, constants) = s at hpi
  have hro := foldl_copyInput createRo_createsInput hndRo s
  have hsize : s.1.size = 2 + pis.length := by
    rw [size, hpi.nodes, List.length_append, List.length_replicate]
    rfl
  constructor
  · rw [hro.nodes, hpi.nodes, List.append_assoc, List.replicate_append_replicate,
      List.length_append]
  · rw [hro.inputs, hpi.inputs, hsize, List.length_append]
    exact List.range'_append_1
  · rw [hro.numPis, hpi.numPis, Nat.zero_mul, Nat.one_mul]
    exact Nat.zero_add _
  · exact hro.outputs.trans hpi.outputs
  · exact hro.numPos.trans hpi.numPos
  · exact hro.signalNames.trans hpi.signalNames
  · exact hro.outputNames.trans hpi.outputNames
  · intro n
    rw [hro.old2new, hpi.old2new, hsize]
    by_cases hn : n ∈ pis
    · have hnr : n ∉ ros := fun hnr => hdisjoint n hn n hnr rfl
      rw [if_neg hnr, if_pos hn, if_pos (List.mem_append_left _ hn), List.idxOf_append_of_mem hn]
      rfl
    · by_cases hnr : n ∈ ros
      · rw [if_pos hnr, if_pos (List.mem_append_right _ hnr), List.idxOf_append_of_notMem hn,
          Nat.add_assoc]
      · rw [if_neg hnr, if_neg hn, if_neg (by simp [hn, hnr])]

instance : CopyInitializer := ⟨serialCopy, serialCopy_copies⟩

end Inputs

section InitializeCopy

variable {constants : ℕ → ℕ} {pis : ℕ} {cis : List ℕ} {s : TechnologyNetwork × (ℕ → ℕ)} {n : ℕ}

theorem Copies.size_eq (h : Copies constants pis cis s) : s.1.size = 2 + cis.length := by
  rw [size, h.nodes, List.length_append, List.length_replicate]
  rfl

theorem Copies.children_of_mem (h : Copies constants pis cis s) {x : NetworkNode}
    (hx : x ∈ s.1.nodes) : x.children = [] := by
  rw [h.nodes, List.mem_append, List.mem_replicate] at hx
  rcases hx with hx | ⟨-, rfl⟩
  · simp only [empty, List.mem_cons, List.not_mem_nil, or_false] at hx
    rcases hx with rfl | rfl <;> rfl
  · rfl

theorem Copies.children (h : Copies constants pis cis s) (m : ℕ) : (s.1.node m).children = [] := by
  rw [node, List.getD_eq_getElem?_getD]
  cases hx : s.1.nodes[m]? with
  | none => rfl
  | some x => exact h.children_of_mem (List.mem_of_getElem? hx)

theorem Copies.input (h : Copies constants pis cis s) (hn : n ∈ cis) :
    s.2 n = 2 + cis.idxOf n := (h.old2new n).trans (if_pos hn)

theorem Copies.other (h : Copies constants pis cis s) (hn : n ∉ cis) : s.2 n = constants n :=
  (h.old2new n).trans (if_neg hn)

theorem Copies.image_lt (h : Copies constants pis cis s) (hc : ∀ n, constants n < 2) (n : ℕ) :
    s.2 n < s.1.size := by
  rw [h.size_eq]
  by_cases hn : n ∈ cis
  · rw [h.input hn]
    exact Nat.add_lt_add_left (List.idxOf_lt_length_of_mem hn) 2
  · rw [h.other hn]
    exact (hc n).trans_le (Nat.le_add_right 2 _)

variable [CopyInitializer]

theorem copies_copyInputs (constants : ℕ → ℕ) (hnd : cis.Nodup) (hle : pis ≤ cis.length) :
    Copies constants pis cis
      (CopyInitializer.copyInputs constants (cis.take pis) (cis.drop pis)) := by
  have hsplit : cis.take pis ++ cis.drop pis = cis := List.take_append_drop _ _
  have h := CopyInitializer.copies constants (hsplit.symm ▸ hnd)
  rwa [hsplit, List.length_take_of_le hle] at h

theorem initializeCopyNetwork_copies {ntk : TechnologyNetwork} (hw : ntk.WellFormed) :
    Copies (fun n => if n = 1 then 1 else 0) ntk.numPis ntk.inputs (initializeCopyNetwork ntk) :=
  copies_copyInputs _ hw.inputs_nodup hw.numPis_le

end InitializeCopy

end TechnologyNetwork

end Fiction
