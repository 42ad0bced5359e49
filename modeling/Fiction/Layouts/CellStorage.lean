import Fiction.Layouts.Coordinates
import Fiction.Technology.CellTechnologies
import Mathlib.Data.Finset.Card
import Mathlib.Data.Set.Card
import Mathlib.Data.Set.Finite.List

/-!
# Inputs and outputs of cell-level layouts

The storage of a cell-level layout has maps of cell types, modes and names, and the sets of its
inputs and outputs. A map without an entry yields the empty type, the default mode or the empty
name. Assigning a type adds a position to one of the sets, but only the empty type removes it.
-/

namespace Fiction

structure CellStorage (C τ μ : Type) where
  cellTypeMap : C → τ
  cellModeMap : C → μ
  cellNameMap : C → List Char
  inputs : Finset C
  outputs : Finset C

namespace CellStorage

open Technology

variable {C τ μ : Type} [DecidableEq C] [DecidableEq τ] [Technology τ] [Inhabited μ]

def new : CellStorage C τ μ where
  cellTypeMap _ := empty
  cellModeMap _ := default
  cellNameMap _ := []
  inputs := ∅
  outputs := ∅

section Operations

variable (strg : CellStorage C τ μ) (c : C)

def assignCellType (ct : τ) : CellStorage C τ μ :=
  if isEmptyCell ct then
    { strg with
      cellTypeMap := Function.update strg.cellTypeMap c empty
      cellModeMap := Function.update strg.cellModeMap c default
      inputs := strg.inputs.erase c
      outputs := strg.outputs.erase c }
  else
    { strg with
      inputs := if isInputCell ct then insert c strg.inputs else strg.inputs
      outputs := if isInputCell ct then strg.outputs
        else if isOutputCell ct then insert c strg.outputs else strg.outputs
      cellTypeMap := Function.update strg.cellTypeMap c ct }

def assignCellMode (m : μ) : CellStorage C τ μ :=
  { strg with cellModeMap := Function.update strg.cellModeMap c m }

def assignCellName (n : List Char) : CellStorage C τ μ :=
  { strg with cellNameMap := Function.update strg.cellNameMap c n }

def getCellType : τ := strg.cellTypeMap c

def getCellMode : μ := strg.cellModeMap c

def getCellName : List Char := strg.cellNameMap c

def isEmptyCell : Bool := Technology.isEmptyCell (strg.getCellType c)

def isPi : Bool := c ∈ strg.inputs

def isPo : Bool := c ∈ strg.outputs

def numPis : ℕ := strg.inputs.card % 2 ^ 32

def numPos : ℕ := strg.outputs.card % 2 ^ 32

/-- The order of the enumeration is not specified. -/
def foreachPi : Finset C := strg.inputs

def foreachPo : Finset C := strg.outputs

end Operations

/-- A sequence of calls of `assign_cell_type`. -/
def assignCellTypes (calls : List (C × τ)) : CellStorage C τ μ :=
  calls.foldl (fun strg call => strg.assignCellType call.1 call.2) new

/-- Inputs and outputs are the cells with an input or output type. -/
structure Classified (strg : CellStorage C τ μ) : Prop where
  isPi : ∀ c, strg.isPi c = true ↔ isInputCell (strg.getCellType c) = true
  isPo : ∀ c, strg.isPo c = true ↔ isOutputCell (strg.getCellType c) = true
  numPis : strg.numPis = {c | isInputCell (strg.getCellType c) = true}.ncard
  numPos : strg.numPos = {c | isOutputCell (strg.getCellType c) = true}.ncard
  foreachPi : ∀ c, c ∈ strg.foreachPi ↔ isInputCell (strg.getCellType c) = true
  foreachPo : ∀ c, c ∈ strg.foreachPo ↔ isOutputCell (strg.getCellType c) = true
  disjoint : ∀ c, ¬ (strg.isPi c = true ∧ strg.isPo c = true)

/-- The types that have been assigned to `c` since it was empty, the latest one first. -/
def recent (calls : List (C × τ)) (c : C) : List τ :=
  ((calls.reverse.filter (·.1 = c)).map (·.2)).takeWhile (!Technology.isEmptyCell ·)

/-- The cells whose latest type is `t`. -/
def latest (calls : List (C × τ)) (t : τ) : Set C := {c | (recent calls c).head? = some t}

/-- A cell that has been an input or an output is one in the end, unless it was emptied. -/
def Kept (calls : List (C × τ)) (c : C) : Prop :=
  ∀ t ∈ [(input : τ), output], t ∈ recent calls c → (recent calls c).head? = some t

section Calls

variable {calls : List (C × τ)} {call : C × τ} {c : C}

theorem assignCellTypes_concat : (assignCellTypes (calls ++ [call]) : CellStorage C τ μ) =
    (assignCellTypes calls).assignCellType call.1 call.2 := by
  rw [assignCellTypes, List.foldl_append]
  rfl

theorem recent_concat : recent (calls ++ [call]) c =
    if call.1 = c then
      if call.2 = empty then [] else call.2 :: recent calls c
    else recent calls c := by
  rw [recent, List.reverse_append, List.reverse_singleton, List.singleton_append, List.filter_cons]
  by_cases hc : call.1 = c
  · by_cases ht : call.2 = empty
    · simp [hc, ht]
    · rw [if_pos hc, if_neg ht, if_pos (decide_eq_true hc), List.map_cons, List.takeWhile_cons,
        if_pos (by simp [Technology.isEmptyCell, ht])]
      rfl
  · simp [hc, recent]

theorem getCellType_assignCellType (strg : CellStorage C τ μ) (c' : C) (ct : τ) :
    (strg.assignCellType c' ct).getCellType c = if c' = c then ct else strg.getCellType c := by
  by_cases hc : c' = c
  · subst hc
    by_cases ht : ct = empty <;> simp [assignCellType, getCellType, ht]
  · by_cases ht : ct = empty <;>
      simp [assignCellType, getCellType, ht, hc, Function.update_of_ne (Ne.symm hc)]

omit [DecidableEq τ] [Technology τ] [Inhabited μ] in
theorem getCellType_assignCellMode (strg : CellStorage C τ μ) (c' : C) (m : μ) :
    (strg.assignCellMode c' m).getCellType c = strg.getCellType c := rfl

omit [DecidableEq τ] [Technology τ] [Inhabited μ] in
theorem getCellType_assignCellName (strg : CellStorage C τ μ) (c' : C) (n : List Char) :
    (strg.assignCellName c' n).getCellType c = strg.getCellType c := rfl

theorem getCellName_assignCellType (strg : CellStorage C τ μ) (c' : C) (ct : τ) :
    (strg.assignCellType c' ct).getCellName c = strg.getCellName c := by
  rw [assignCellType]
  split_ifs <;> rfl

omit [DecidableEq τ] [Technology τ] [Inhabited μ] in
theorem getCellName_assignCellMode (strg : CellStorage C τ μ) (c' : C) (m : μ) :
    (strg.assignCellMode c' m).getCellName c = strg.getCellName c := rfl

omit [DecidableEq τ] [Technology τ] [Inhabited μ] in
theorem getCellName_assignCellName (strg : CellStorage C τ μ) (c' : C) (n : List Char) :
    (strg.assignCellName c' n).getCellName c = if c = c' then n else strg.getCellName c :=
  Function.update_apply strg.cellNameMap c' n c

theorem mem_inputs_assignCellType (strg : CellStorage C τ μ) (c' : C) (ct : τ) :
    c ∈ (strg.assignCellType c' ct).inputs ↔
      (c' = c ∧ ct = input) ∨ (c ∈ strg.inputs ∧ ¬ (c' = c ∧ ct = empty)) := by
  have hie : (input : τ) ≠ empty := Technology.input_ne_empty
  by_cases hc : c' = c
  · subst hc
    by_cases ht : ct = empty
    · simp [assignCellType, ht, hie.symm]
    · by_cases hi : ct = input <;> simp [assignCellType, ht, hi, hie]
  · by_cases ht : ct = empty
    · simp [assignCellType, ht, hc, Ne.symm hc]
    · by_cases hi : ct = input <;> simp [assignCellType, ht, hi, hie, hc, Ne.symm hc]

theorem mem_outputs_assignCellType (strg : CellStorage C τ μ) (c' : C) (ct : τ) :
    c ∈ (strg.assignCellType c' ct).outputs ↔
      (c' = c ∧ ct = output) ∨ (c ∈ strg.outputs ∧ ¬ (c' = c ∧ ct = empty)) := by
  have hie : (input : τ) ≠ empty := Technology.input_ne_empty
  have hoe : (output : τ) ≠ empty := Technology.output_ne_empty
  have hio : (input : τ) ≠ output := Technology.input_ne_output
  by_cases hc : c' = c
  · subst hc
    by_cases ht : ct = empty
    · simp [assignCellType, ht, hoe.symm]
    · by_cases hi : ct = input
      · simp [assignCellType, hi, hie, hio]
      · by_cases ho : ct = output <;> simp [assignCellType, ht, hi, ho, hoe, hio.symm]
  · by_cases ht : ct = empty
    · simp [assignCellType, ht, hc, Ne.symm hc]
    · by_cases hi : ct = input
      · simp [assignCellType, hi, hie, hc]
      · by_cases ho : ct = output <;>
          simp [assignCellType, ht, hi, ho, hoe, hio.symm, hc, Ne.symm hc]

theorem mem_recent_concat {t : τ} (ht : t ≠ empty) : t ∈ recent (calls ++ [call]) c ↔
    (call.1 = c ∧ call.2 = t) ∨ (t ∈ recent calls c ∧ ¬ (call.1 = c ∧ call.2 = empty)) := by
  rw [recent_concat]
  by_cases hc : call.1 = c
  · by_cases he : call.2 = empty
    · simp [hc, he, ht.symm]
    · simp [hc, he, eq_comm]
  · simp [hc]

theorem getCellType_assignCellTypes (calls : List (C × τ)) (c : C) :
    (assignCellTypes calls : CellStorage C τ μ).getCellType c =
      (recent calls c).head?.getD empty := by
  induction calls using List.reverseRecOn with
  | nil => rfl
  | append_singleton calls call ih =>
    rw [assignCellTypes_concat, getCellType_assignCellType, recent_concat, ih]
    by_cases hc : call.1 = c
    · by_cases he : call.2 = empty <;> simp [hc, he]
    · simp [hc]

theorem exists_mem_of_not_isEmptyCell
    (h : (assignCellTypes calls : CellStorage C τ μ).isEmptyCell c = false) :
    ∃ call ∈ calls, call.1 = c := by
  by_contra hnone
  have hrecent : recent calls c = [] := by
    have hfilter : calls.reverse.filter (·.1 = c) = [] :=
      List.filter_eq_nil_iff.mpr fun call hcall hc =>
        hnone ⟨call, List.mem_reverse.mp hcall, of_decide_eq_true hc⟩
    rw [recent, hfilter]
    rfl
  rw [isEmptyCell, getCellType_assignCellTypes, hrecent] at h
  simp [Technology.isEmptyCell] at h

theorem finite_assignCellTypes (calls : List (C × τ)) :
    {c | (assignCellTypes calls : CellStorage C τ μ).isEmptyCell c = false}.Finite := by
  refine (List.finite_toSet (calls.map (·.1))).subset fun c hc => ?_
  exact List.mem_map.mpr (exists_mem_of_not_isEmptyCell hc)

theorem mem_inputs_assignCellTypes (calls : List (C × τ)) (c : C) :
    c ∈ (assignCellTypes calls : CellStorage C τ μ).inputs ↔ input ∈ recent calls c := by
  induction calls using List.reverseRecOn with
  | nil => simp [assignCellTypes, new, recent]
  | append_singleton calls call ih =>
    rw [assignCellTypes_concat, mem_inputs_assignCellType, ih,
      mem_recent_concat Technology.input_ne_empty]

theorem mem_outputs_assignCellTypes (calls : List (C × τ)) (c : C) :
    c ∈ (assignCellTypes calls : CellStorage C τ μ).outputs ↔ output ∈ recent calls c := by
  induction calls using List.reverseRecOn with
  | nil => simp [assignCellTypes, new, recent]
  | append_singleton calls call ih =>
    rw [assignCellTypes_concat, mem_outputs_assignCellType, ih,
      mem_recent_concat Technology.output_ne_empty]

theorem getCellType_eq_iff {t : τ} (ht : t ≠ empty) :
    (assignCellTypes calls : CellStorage C τ μ).getCellType c = t ↔ c ∈ latest calls t := by
  rw [getCellType_assignCellTypes, latest, Set.mem_ofPred_eq]
  cases h : (recent calls c).head? with
  | none => simp [ht.symm]
  | some t' => simp

theorem recent_of_latest {t : τ} (h : c ∈ latest calls t) : t ∈ recent calls c :=
  List.mem_of_head? h

/-- The sets agree with the types iff every input and output is kept until it is emptied, and their
numbers fit into 32 bits. -/
theorem assignCellTypes_classified_iff (calls : List (C × τ)) :
    Classified (assignCellTypes calls : CellStorage C τ μ) ↔
      (∀ c, Kept calls c) ∧ (latest calls (input : τ)).ncard < 2 ^ 32 ∧
        (latest calls (output : τ)).ncard < 2 ^ 32 := by
  have hin : ∀ c, isInputCell ((assignCellTypes calls : CellStorage C τ μ).getCellType c) = true ↔
      c ∈ latest calls input := fun c =>
    isInputCell_iff.trans (getCellType_eq_iff Technology.input_ne_empty)
  have hout : ∀ c,
      isOutputCell ((assignCellTypes calls : CellStorage C τ μ).getCellType c) = true ↔
        c ∈ latest calls output := fun c =>
    isOutputCell_iff.trans (getCellType_eq_iff Technology.output_ne_empty)
  have hpi : ∀ c, (assignCellTypes calls : CellStorage C τ μ).isPi c = true ↔
      input ∈ recent calls c := fun c =>
    decide_eq_true_iff.trans (mem_inputs_assignCellTypes calls c)
  have hpo : ∀ c, (assignCellTypes calls : CellStorage C τ μ).isPo c = true ↔
      output ∈ recent calls c := fun c =>
    decide_eq_true_iff.trans (mem_outputs_assignCellTypes calls c)
  constructor
  · intro h
    have hi : ((assignCellTypes calls : CellStorage C τ μ).inputs : Set C) =
        latest calls input := by
      ext c
      exact (h.foreachPi c).trans (hin c)
    have ho : ((assignCellTypes calls : CellStorage C τ μ).outputs : Set C) =
        latest calls output := by
      ext c
      exact (h.foreachPo c).trans (hout c)
    refine ⟨fun c t ht hmem => ?_, ?_, ?_⟩
    · rcases List.mem_pair.mp ht with rfl | rfl
      · exact (hin c).mp ((h.isPi c).mp ((hpi c).mpr hmem))
      · exact (hout c).mp ((h.isPo c).mp ((hpo c).mpr hmem))
    · have hcard := h.numPis
      simp only [hin, Set.ofPred_mem_eq] at hcard
      rw [← hcard]
      exact Nat.mod_lt _ (Nat.two_pow_pos 32)
    · have hcard := h.numPos
      simp only [hout, Set.ofPred_mem_eq] at hcard
      rw [← hcard]
      exact Nat.mod_lt _ (Nat.two_pow_pos 32)
  · rintro ⟨hkept, hicard, hocard⟩
    have hisPi : ∀ c, (assignCellTypes calls : CellStorage C τ μ).isPi c = true ↔
        c ∈ latest calls input := fun c =>
      (hpi c).trans ⟨hkept c _ (by simp), recent_of_latest⟩
    have hisPo : ∀ c, (assignCellTypes calls : CellStorage C τ μ).isPo c = true ↔
        c ∈ latest calls output := fun c =>
      (hpo c).trans ⟨hkept c _ (by simp), recent_of_latest⟩
    have hi : latest calls (input : τ) = (assignCellTypes calls : CellStorage C τ μ).inputs := by
      ext c
      exact (hisPi c).symm.trans decide_eq_true_iff
    have ho : latest calls (output : τ) =
        (assignCellTypes calls : CellStorage C τ μ).outputs := by
      ext c
      exact (hisPo c).symm.trans decide_eq_true_iff
    refine ⟨fun c => (hisPi c).trans (hin c).symm, fun c => (hisPo c).trans (hout c).symm, ?_, ?_,
      fun c => ?_, fun c => ?_, fun c => ?_⟩
    · simp only [hin, Set.ofPred_mem_eq]
      rw [hi, Set.ncard_coe_finset] at hicard ⊢
      exact Nat.mod_eq_of_lt hicard
    · simp only [hout, Set.ofPred_mem_eq]
      rw [ho, Set.ncard_coe_finset] at hocard ⊢
      exact Nat.mod_eq_of_lt hocard
    · exact decide_eq_true_iff.symm.trans ((hisPi c).trans (hin c).symm)
    · exact decide_eq_true_iff.symm.trans ((hisPo c).trans (hout c).symm)
    · rw [hisPi, hisPo]
      rintro ⟨h₁, h₂⟩
      exact Technology.input_ne_output (Option.some.inj (h₁.symm.trans h₂))

/-- An input that is overwritten by a normal cell stays a primary input. -/
theorem overwrittenInput_not_classified :
    ¬ Classified (assignCellTypes [(.at2 0 0, .input), (.at2 0 0, .normal)] :
      CellStorage Ucoord QcaCellType QcaCellMode) := by
  intro h
  have hpi := (h.isPi (.at2 0 0)).mp (by decide)
  exact absurd hpi (by decide)

end Calls

end CellStorage

end Fiction
