import Fiction.Library.TransitionSystem
import Fiction.Networks.TechnologyNetwork

/-!
# Registers of sequential networks

Register `i` consists of the register output with index `i` and of the register input with index
`i`. The network finds the index of a signal by a search through its inputs or outputs, so that
register inputs with the same driver cannot be told apart. `ro_to_ri` subtracts the number of
primary inputs although `ro_index` does so already.
-/

namespace Fiction.TechnologyNetwork

section Accesses

variable (ntk : TechnologyNetwork)

/-- The first index of `x`, or `-1` as a `uint32_t`. -/
def searchIndex (l : List ℕ) (x : ℕ) : ℕ := (l.findIdx? fun y => y = x).getD (2 ^ 32 - 1)

def piIndex (n : ℕ) : ℕ := searchIndex ntk.inputs n

def riIndex (s : ℕ) : ℕ := searchIndex ntk.foreachRi s

/-- The difference is a `uint32_t`. -/
def roIndex (n : ℕ) : ℕ := (ntk.piIndex n + 2 ^ 32 - ntk.numPis) % 2 ^ 32

/-- `none` stands for an access outside of the vector. -/
def riToRo (s : ℕ) : Option ℕ := ntk.inputs[ntk.numPis + ntk.riIndex s]?

def roToRi (n : ℕ) : Option ℕ :=
  if ntk.numPis ≤ ntk.numPos + ntk.roIndex n then
    ntk.outputs[ntk.numPos + ntk.roIndex n - ntk.numPis]?
  else none

def roAt (i : ℕ) : Option ℕ := ntk.inputs[ntk.numPis + i]?

def riAt (i : ℕ) : Option ℕ := ntk.outputs[ntk.numPos + i]?

def numRegisters : ℕ := ntk.inputs.length - ntk.numPis

def RegisterMapped (i : ℕ) : Prop :=
  ∃ ro ri, ntk.roAt i = some ro ∧ ntk.riAt i = some ri ∧ ntk.riToRo ri = some ro ∧
    ntk.roToRi ro = some ri ∧ ntk.roIndex ro = i ∧ ntk.riIndex ri = i

end Accesses

/-- The calls that build a network. All creation functions of gates without a rule of their own push
a node. -/
inductive Call
  | createPi
  | createRo
  | createPo (f : ℕ)
  | createRi (f : ℕ)
  | createNot (a : ℕ)
  | createNode (children : List ℕ) (function : TruthTable)
  | pushNode (children : List ℕ) (function : TruthTable)

def Call.apply (ntk : TechnologyNetwork) : Call → TechnologyNetwork
  | createPi => ntk.createPi.1
  | createRo => ntk.createRo.1
  | createPo f => ntk.createPo f
  | createRi f => ntk.createRi f
  | createNot a => (ntk.createNot a).1
  | createNode children function => (ntk.createNode children function).1
  | pushNode children function => (ntk.pushNode children function).1

def construction : TransitionSystem TechnologyNetwork Call where
  init := empty
  enabled _ _ := True
  step := Call.apply

def build (calls : List Call) : TechnologyNetwork := construction.run calls

structure Constructed (ntk : TechnologyNetwork) : Prop where
  inputs_nodup : ntk.inputs.Nodup
  input_lt : ∀ n ∈ ntk.inputs, n < ntk.size
  numPis_le : ntk.numPis ≤ ntk.inputs.length
  numPos_le : ntk.numPos ≤ ntk.outputs.length

variable {ntk ntk' : TechnologyNetwork}

theorem Constructed.of_size_le (h : ntk.Constructed) (hs : ntk.size ≤ ntk'.size)
    (hi : ntk'.inputs = ntk.inputs) (hpi : ntk'.numPis = ntk.numPis)
    (ho : ntk'.outputs = ntk.outputs) (hpo : ntk'.numPos = ntk.numPos) : ntk'.Constructed where
  inputs_nodup := hi ▸ h.inputs_nodup
  input_lt n hn := (h.input_lt n (hi ▸ hn)).trans_le hs
  numPis_le := by
    rw [hi, hpi]
    exact h.numPis_le
  numPos_le := by
    rw [ho, hpo]
    exact h.numPos_le

theorem Constructed.pushNode (h : ntk.Constructed) (children : List ℕ) (function : TruthTable) :
    (ntk.pushNode children function).1.Constructed := by
  refine h.of_size_le ?_ rfl rfl rfl rfl
  rw [size_pushNode]
  exact Nat.le_succ _

theorem Constructed.pushInput (h : ntk.Constructed) {numPis : ℕ}
    (hle : numPis ≤ ntk.inputs.length + 1) :
    Constructed { (ntk.pushNode [] .identity).1 with
      inputs := ntk.inputs ++ [ntk.size], numPis := numPis } where
  inputs_nodup := by
    refine List.nodup_append.mpr ⟨h.inputs_nodup, List.nodup_singleton _, ?_⟩
    intro n hn m hm
    rw [List.mem_singleton.mp hm]
    exact (h.input_lt n hn).ne
  input_lt n hn := by
    change n < (ntk.pushNode [] .identity).1.size
    rw [size_pushNode]
    rcases List.mem_append.mp hn with hn | hn
    · exact (h.input_lt n hn).trans (Nat.lt_succ_self _)
    · rw [List.mem_singleton.mp hn]
      exact Nat.lt_succ_self _
  numPis_le := by
    rw [List.length_append]
    exact hle
  numPos_le := h.numPos_le

theorem Constructed.apply (h : ntk.Constructed) (call : Call) :
    (call.apply ntk).Constructed := by
  cases call with
  | createPi => exact h.pushInput (Nat.succ_le_succ h.numPis_le)
  | createRo => exact h.pushInput (h.numPis_le.trans (Nat.le_succ _))
  | createPo f =>
    refine ⟨h.inputs_nodup, h.input_lt, h.numPis_le, ?_⟩
    change ntk.numPos + 1 ≤ (ntk.outputs ++ [f]).length
    rw [List.length_append]
    exact Nat.succ_le_succ h.numPos_le
  | createRi f =>
    refine ⟨h.inputs_nodup, h.input_lt, h.numPis_le, ?_⟩
    change ntk.numPos ≤ (ntk.outputs ++ [f]).length
    rw [List.length_append]
    exact h.numPos_le.trans (Nat.le_add_right _ _)
  | createNot a =>
    change (ntk.createNot a).1.Constructed
    unfold TechnologyNetwork.createNot
    split_ifs
    · exact h
    · exact h.pushNode _ _
  | createNode children function =>
    change (ntk.createNode children function).1.Constructed
    unfold TechnologyNetwork.createNode
    split_ifs
    · exact h
    · exact h.pushNode _ _
  | pushNode children function => exact h.pushNode children function

theorem constructed_build (calls : List Call) : (build calls).Constructed := by
  have hlegal : ∀ ntk : TechnologyNetwork, construction.LegalFrom ntk calls := by
    induction calls with
    | nil => exact fun _ => trivial
    | cons call calls ih => exact fun _ => ⟨trivial, ih _⟩
  refine construction.invariant_run ⟨List.nodup_nil, ?_, Nat.le_refl _, Nat.le_refl _⟩
    (fun _ call h _ => h.apply call) (hlegal _)
  intro n hn
  cases hn

section Search

variable {l : List ℕ} {i : ℕ}

theorem searchIndex_eq (hl : l.Nodup) (hi : i < l.length) : searchIndex l l[i] = i := by
  have hfind : l.findIdx? (fun y => y = l[i]) = some i := by
    rw [List.findIdx?_eq_some_iff_getElem]
    refine ⟨hi, decide_eq_true rfl, fun j hj => ?_⟩
    rw [decide_eq_true_eq, hl.getElem_inj_iff]
    exact hj.ne
  rw [searchIndex, hfind, Option.getD_some]

theorem nodup_of_searchIndex (h : ∀ i (hi : i < l.length), searchIndex l l[i] = i) : l.Nodup := by
  rw [List.nodup_iff_injective_get]
  intro i j hij
  have hi := h i i.isLt
  have hj := h j j.isLt
  rw [List.get_eq_getElem, List.get_eq_getElem] at hij
  rw [hij, hj] at hi
  exact Fin.ext hi.symm

end Search

section Mapping

variable {i : ℕ}

theorem riAt_eq (i : ℕ) : ntk.riAt i = ntk.foreachRi[i]? := List.getElem?_drop.symm

theorem roIndex_eq (h : ntk.Constructed) (hfit : ntk.inputs.length < 2 ^ 32)
    (hi : ntk.numPis + i < ntk.inputs.length) : ntk.roIndex ntk.inputs[ntk.numPis + i] = i := by
  rw [roIndex, piIndex, searchIndex_eq h.inputs_nodup hi]
  omega

theorem registerMapped_iff (h : ntk.Constructed) (hfit : ntk.inputs.length < 2 ^ 32)
    (hi : ntk.numPis + i < ntk.inputs.length) (hri : i < ntk.foreachRi.length) :
    ntk.RegisterMapped i ↔ ntk.riIndex ntk.foreachRi[i] = i ∧ ntk.numPis ≤ ntk.numPos + i ∧
      ntk.outputs[ntk.numPos + i - ntk.numPis]? = some ntk.foreachRi[i] := by
  have hroAt : ntk.roAt i = some ntk.inputs[ntk.numPis + i] := List.getElem?_eq_getElem hi
  have hriAt : ntk.riAt i = some ntk.foreachRi[i] :=
    (riAt_eq i).trans (List.getElem?_eq_getElem hri)
  have hidx := roIndex_eq h hfit hi
  constructor
  · rintro ⟨ro, ri, hro, hri', -, hto, -, hriIdx⟩
    obtain rfl := Option.some.inj (hro.symm.trans hroAt)
    obtain rfl := Option.some.inj (hri'.symm.trans hriAt)
    rw [roToRi, hidx] at hto
    split_ifs at hto with hle
    exact ⟨hriIdx, hle, hto⟩
  · rintro ⟨hriIdx, hle, hto⟩
    refine ⟨_, _, hroAt, hriAt, ?_, ?_, hidx, hriIdx⟩
    · rw [riToRo, hriIdx]
      exact hroAt
    · rw [roToRi, hidx, if_pos hle]
      exact hto

/-- Register inputs that differ from each other and, in networks with primary inputs, agree with the
outputs that `ro_to_ri` reads in their place. -/
def RegistersReadable (ntk : TechnologyNetwork) : Prop :=
  ntk.foreachRi.Nodup ∧ (ntk.numPis = 0 ∨ ntk.foreachRi = [] ∨
    ntk.numPis ≤ ntk.numPos ∧ ntk.foreachRi <+: ntk.foreachPo.drop (ntk.numPos - ntk.numPis))

instance (ntk : TechnologyNetwork) : Decidable ntk.RegistersReadable :=
  inferInstanceAs (Decidable (_ ∧ _))

theorem getElem?_foreachPo_drop (hle : ntk.numPis ≤ ntk.numPos) (hi : i < ntk.numPis) :
    (ntk.foreachPo.drop (ntk.numPos - ntk.numPis))[i]? =
      ntk.outputs[ntk.numPos + i - ntk.numPis]? := by
  rw [List.getElem?_drop, foreachPo, List.getElem?_take_of_lt (by omega)]
  congr 1
  omega

/-- The mapping of the registers is right iff the register inputs differ and either nothing is
subtracted twice or the wrong output has the right driver. -/
theorem registersMapped_iff (calls : List Call) {k : ℕ} (hk : (build calls).numRegisters = k)
    (hri : (build calls).foreachRi.length = k) (hfit : (build calls).inputs.length < 2 ^ 32) :
    (∀ i < k, (build calls).RegisterMapped i) ↔ (build calls).RegistersReadable := by
  have h := constructed_build calls
  generalize build calls = ntk at *
  have hin : ∀ i < k, ntk.numPis + i < ntk.inputs.length := by
    intro i hi
    rw [← hk, numRegisters] at hi
    omega
  have hlen : ntk.outputs.length = ntk.numPos + k := by
    have := h.numPos_le
    rw [← hri, foreachRi, List.length_drop]
    omega
  constructor
  · intro hall
    have hmapped : ∀ i (hi : i < ntk.foreachRi.length), ntk.riIndex ntk.foreachRi[i] = i ∧
        ntk.numPis ≤ ntk.numPos + i ∧
        ntk.outputs[ntk.numPos + i - ntk.numPis]? = some ntk.foreachRi[i] := fun i hi =>
      (registerMapped_iff h hfit (hin i (hri ▸ hi)) hi).mp (hall i (hri ▸ hi))
    have hnodup : ntk.foreachRi.Nodup := nodup_of_searchIndex fun i hi => (hmapped i hi).1
    refine ⟨hnodup, ?_⟩
    by_cases hpis : ntk.numPis = 0
    · exact .inl hpis
    by_cases hk0 : ntk.foreachRi = []
    · exact .inr (.inl hk0)
    refine .inr (.inr ⟨?_, ?_⟩)
    · exact (hmapped 0 (List.length_pos_iff.mpr hk0)).2.1
    -- a register input cannot be read in place of a later one, since they differ
    · have hfew : k ≤ ntk.numPis := by
        by_contra hmany
        have hlt : ntk.numPis < ntk.foreachRi.length := by omega
        have hread := (hmapped ntk.numPis hlt).2.2
        have hfirst : ntk.outputs[ntk.numPos + ntk.numPis - ntk.numPis]? = ntk.foreachRi[0]? := by
          rw [Nat.add_sub_cancel, ← riAt_eq, riAt, Nat.add_zero]
        rw [hfirst, List.getElem?_eq_getElem (by omega), Option.some.injEq,
          hnodup.getElem_inj_iff] at hread
        exact hpis hread.symm
      have hle := (hmapped 0 (List.length_pos_iff.mpr hk0)).2.1
      rw [List.prefix_iff_getElem?]
      intro i hi
      rw [getElem?_foreachPo_drop hle (by omega)]
      exact (hmapped i hi).2.2
  · rintro ⟨hnodup, hread⟩ i hi
    have hi' : i < ntk.foreachRi.length := hri ▸ hi
    refine (registerMapped_iff h hfit (hin i hi) hi').mpr ⟨searchIndex_eq hnodup hi', ?_⟩
    rcases hread with hpis | hnil | ⟨hle, hprefix⟩
    · rw [hpis, Nat.sub_zero]
      exact ⟨Nat.zero_le _, (riAt_eq i).trans (List.getElem?_eq_getElem hi')⟩
    · rw [hnil] at hi'
      exact absurd hi' (Nat.not_lt_zero i)
    · have hget := List.prefix_iff_getElem?.mp hprefix i hi'
      have hlt : i < ntk.numPis := by
        have hlen := hprefix.length_le
        rw [List.length_drop, foreachPo, List.length_take] at hlen
        omega
      rw [getElem?_foreachPo_drop hle hlt] at hget
      exact ⟨by omega, hget⟩

def toggle : List Call :=
  [.createRo, .createRo, .createNot 2, .createPo 3, .createRi 4, .createRi 2]

theorem registersMapped_toggle :
    (build toggle).RegisterMapped 0 ∧ (build toggle).RegisterMapped 1 := by
  have hall : ∀ i < 2, (build toggle).RegisterMapped i := by
    apply (registersMapped_iff toggle rfl rfl (by decide)).mpr
    decide
  exact ⟨hall 0 (by omega), hall 1 (by omega)⟩

/-- A register next to a primary input, and two registers with the same driver. -/
theorem registers_not_mapped :
    ¬ (build [.createPi, .createRo, .createRi 2]).RegisterMapped 0 ∧
      ¬ (build [.createRo, .createRo, .createRi 2, .createRi 2]).RegisterMapped 1 := by
  constructor
  · rw [registerMapped_iff (constructed_build _) (by decide) (by decide) (by decide)]
    decide
  · rw [registerMapped_iff (constructed_build _) (by decide) (by decide) (by decide)]
    decide

end Mapping

end Fiction.TechnologyNetwork
