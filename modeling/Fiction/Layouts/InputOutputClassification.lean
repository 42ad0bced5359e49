import Fiction.Layouts.OutputBookkeeping
import Fiction.Library.MarkedPrefix

/-!
# Classification of inputs and outputs

While no node moves, the storage records every input and output in the order of its creation.
Primary inputs and register outputs share one vector, to which both creations append, and the first
`num_pis` entries count as primary inputs. The split is therefore right exactly if all primary
inputs were created before the first register output. `create_po` inserts in front of the register
inputs instead, so outputs are always told apart.
-/

namespace Fiction.GateLevelLayout

/-- `create_pi` and `create_ro` create inputs. -/
def Op.inputKind : Op → Option Bool
  | .createPi .. => some true
  | .createRo .. => some false
  | _ => none

def Op.poTile : Op → Option Tile
  | .createPo _ _ t => some t
  | _ => none

def Op.riTile : Op → Option Tile
  | .createRi _ _ t => some t
  | _ => none

def Op.isMove : Op → Bool
  | .moveNode .. => true
  | _ => false

/-- The inputs that `ops` create, in order; primary inputs are marked. -/
def inputLog (lyt : GateLevelLayout) : List Op → List (ℕ × Bool)
  | [] => []
  | op :: ops => (op.inputKind.toList.map fun b => (lyt.size, b)) ++ (lyt.apply op).inputLog ops

def createdPis (lyt : GateLevelLayout) (ops : List Op) : List ℕ :=
  ((lyt.inputLog ops).filter fun e => e.2).map Prod.fst

def createdRos (lyt : GateLevelLayout) (ops : List Op) : List ℕ :=
  ((lyt.inputLog ops).filter fun e => !e.2).map Prod.fst

/-- The layout tells the created inputs and outputs apart and lists each kind in order. -/
structure Classified (lyt : GateLevelLayout) (pis ros : List ℕ) (pos ris : List Signal) : Prop where
  isPi : ∀ n, lyt.isPi n = true ↔ n ∈ pis
  isRo : ∀ n, lyt.isRo n = true ↔ n ∈ ros
  foreachPi : lyt.foreachPi = pis
  foreachRo : lyt.foreachRo = ros
  foreachPo : lyt.foreachPo = pos
  foreachRi : lyt.foreachRi = ris
  nodup : (pis ++ ros).Nodup

/-- The input and output vectors of a layout on which nothing was moved. -/
structure Recorded (lyt : GateLevelLayout) (ins : List (ℕ × Bool)) (pos ris : List Signal) :
    Prop where
  inputs : lyt.inputs = ins.map Prod.fst
  numPis : lyt.numPis = ins.countP fun e => e.2
  registers : lyt.registers = ins.countP fun e => !e.2
  outputs : lyt.outputs = pos ++ ris
  numPos : lyt.numPos = pos.length
  nodup : (ins.map Prod.fst).Nodup
  exist : ∀ e ∈ ins, e.1 < lyt.size

variable {lyt lyt' : GateLevelLayout} {ins : List (ℕ × Bool)} {pos ris : List Signal}

theorem Recorded.of_sameIo (h : Recorded lyt ins pos ris) (hs : SameIo lyt lyt')
    (hle : lyt.size ≤ lyt'.size) : Recorded lyt' ins pos ris where
  inputs := hs.inputs.trans h.inputs
  numPis := hs.numPis.trans h.numPis
  registers := hs.registers.trans h.registers
  outputs := hs.outputs.trans h.outputs
  numPos := hs.numPos.trans h.numPos
  nodup := h.nodup
  exist e he := (h.exist e he).trans_le hle

theorem Recorded.nodup_concat (h : Recorded lyt ins pos ris) (b : Bool) :
    ((ins ++ [(lyt.size, b)]).map Prod.fst).Nodup := by
  rw [List.map_append, List.map_singleton, ← List.concat_eq_append]
  refine h.nodup.concat fun hm => ?_
  obtain ⟨e, he, heq⟩ := List.mem_map.mp hm
  exact (h.exist e he).ne heq

theorem Recorded.exist_concat (h : Recorded lyt ins pos ris) (hlt : lyt.size < lyt'.size) (b : Bool)
    (e : ℕ × Bool) (he : e ∈ ins ++ [(lyt.size, b)]) : e.1 < lyt'.size := by
  rcases List.mem_append.mp he with he | he
  · exact (h.exist e he).trans hlt
  · rwa [List.mem_singleton.mp he]

theorem Recorded.createPi (h : Recorded lyt ins pos ris) (name : String) (t : Tile) :
    Recorded (lyt.createPi name t).1 (ins ++ [(lyt.size, true)]) pos ris where
  inputs := by rw [(createPi_sameIo name t).inputs, h.inputs, List.map_append, List.map_singleton]
  numPis := by rw [(createPi_sameIo name t).numPis, h.numPis]; simp
  registers := by rw [(createPi_sameIo name t).registers, h.registers]; simp
  outputs := (createPi_sameIo name t).outputs.trans h.outputs
  numPos := (createPi_sameIo name t).numPos.trans h.numPos
  nodup := h.nodup_concat true
  exist := h.exist_concat (createPi_createdAt name t).size_lt true

theorem Recorded.createRo (h : Recorded lyt ins pos ris) (name : String) (t : Tile) :
    Recorded (lyt.createRo name t).1 (ins ++ [(lyt.size, false)]) pos ris where
  inputs := by rw [(createRo_sameIo name t).inputs, h.inputs, List.map_append, List.map_singleton]
  numPis := by rw [(createRo_sameIo name t).numPis, h.numPis]; simp
  registers := by rw [(createRo_sameIo name t).registers, h.registers]; simp
  outputs := (createRo_sameIo name t).outputs.trans h.outputs
  numPos := (createRo_sameIo name t).numPos.trans h.numPos
  nodup := h.nodup_concat false
  exist := h.exist_concat (createRo_createdAt name t).size_lt false

theorem Recorded.createPo (h : Recorded lyt ins pos ris) (s : Signal) (name : String) (t : Tile) :
    Recorded (lyt.createPo s name t).1 ins (pos ++ [t]) ris where
  inputs := (createPo_sameIo s name t).inputs.trans h.inputs
  numPis := (createPo_sameIo s name t).numPis.trans h.numPis
  registers := (createPo_sameIo s name t).registers.trans h.registers
  outputs := by
    rw [(createPo_sameIo s name t).outputs, h.outputs, h.numPos, List.take_left, List.drop_left,
      List.append_assoc, List.singleton_append]
  numPos := by rw [(createPo_sameIo s name t).numPos, h.numPos]; simp
  nodup := h.nodup
  exist e he := (h.exist e he).trans (createPo_createdAt s name t).size_lt

theorem Recorded.createRi (h : Recorded lyt ins pos ris) (s : Signal) (name : String) (t : Tile) :
    Recorded (lyt.createRi s name t).1 ins pos (ris ++ [t]) where
  inputs := (createRi_sameIo s name t).inputs.trans h.inputs
  numPis := (createRi_sameIo s name t).numPis.trans h.numPis
  registers := (createRi_sameIo s name t).registers.trans h.registers
  outputs := by rw [(createRi_sameIo s name t).outputs, h.outputs, List.append_assoc]
  numPos := (createRi_sameIo s name t).numPos.trans h.numPos
  nodup := h.nodup
  exist e he := (h.exist e he).trans (createRi_createdAt s name t).size_lt

theorem Recorded.createNode (h : Recorded lyt ins pos ris) (children : List Signal)
    (function : TruthTable) (t : Tile) :
    Recorded (lyt.createNode children function t).1 ins pos ris := by
  refine h.of_sameIo (createNode_sameIo children function t) ?_
  by_cases hc : children = []
  · rw [hc, createNode_nil]
  · exact (createNode_createdAt hc function t).size_lt.le

theorem Recorded.step (h : Recorded lyt ins pos ris) (op : Op) (hop : op.isMove = false) :
    Recorded (lyt.apply op) (ins ++ op.inputKind.toList.map fun b => (lyt.size, b))
      (pos ++ op.poTile.toList) (ris ++ op.riTile.toList) := by
  cases op with
  | createPi name t => simpa [Op.inputKind, Op.poTile, Op.riTile, apply] using h.createPi name t
  | createRo name t => simpa [Op.inputKind, Op.poTile, Op.riTile, apply] using h.createRo name t
  | createPo s name t => simpa [Op.inputKind, Op.poTile, Op.riTile, apply] using h.createPo s name t
  | createRi s name t => simpa [Op.inputKind, Op.poTile, Op.riTile, apply] using h.createRi s name t
  | createNode children function t =>
    simpa [Op.inputKind, Op.poTile, Op.riTile, apply] using h.createNode children function t
  | moveNode n t newChildren => exact Bool.noConfusion hop

theorem Recorded.run (h : Recorded lyt ins pos ris) {ops : List Op}
    (hops : ∀ op ∈ ops, op.isMove = false) :
    Recorded (ops.foldl apply lyt) (ins ++ lyt.inputLog ops) (pos ++ ops.filterMap Op.poTile)
      (ris ++ ops.filterMap Op.riTile) := by
  induction ops generalizing lyt ins pos ris with
  | nil => simpa [inputLog] using h
  | cons op ops ih =>
    have hs := ih (h.step op (hops op List.mem_cons_self))
      fun op' hop' => hops op' (List.mem_cons_of_mem _ hop')
    simp only [List.append_assoc] at hs
    have hf : ∀ f : Op → Option Tile, (op :: ops).filterMap f = (f op).toList ++ ops.filterMap f :=
      fun f => by cases h : f op <;> simp [h]
    rw [hf, hf]
    exact hs

theorem empty_recorded (clocked : ClockedLayout) (name : String) :
    Recorded (empty clocked name) [] [] [] :=
  ⟨rfl, rfl, rfl, rfl, rfl, .nil, by simp⟩

theorem Recorded.classified_iff (h : Recorded lyt ins pos ris) :
    Classified lyt ((ins.filter fun e => e.2).map Prod.fst)
        ((ins.filter fun e => !e.2).map Prod.fst) pos ris ↔
      ins.Pairwise fun e e' => e'.2 = true → e.2 = true := by
  rw [← MarkedPrefix.split_iff_pairwise h.nodup, ← h.inputs, ← h.numPis]
  constructor
  · exact fun hc => ⟨hc.foreachPi, hc.foreachRo⟩
  · rintro ⟨hpi, hro⟩
    have hlen : (lyt.inputs.drop lyt.numPis).length = lyt.registers := by
      rw [hro, List.length_map, h.registers, List.countP_eq_length_filter]
    refine ⟨fun n => ?_, fun n => ?_, hpi, hro, ?_, ?_, ?_⟩
    · rw [← hpi, isPi, List.contains_iff_mem]
    · rw [← hro, isRo, numRos, List.take_of_length_le hlen.le, List.contains_iff_mem]
    · rw [foreachPo, h.outputs, h.numPos, List.take_left]
    · rw [foreachRi, h.outputs, h.numPos, List.drop_left]
    · rw [← List.map_append]
      exact ((List.filter_append_perm _ ins).map Prod.fst).nodup_iff.mpr h.nodup

theorem map_snd_inputLog (lyt : GateLevelLayout) (ops : List Op) :
    (lyt.inputLog ops).map Prod.snd = ops.filterMap Op.inputKind := by
  induction ops generalizing lyt with
  | nil => rfl
  | cons op ops ih =>
    rw [inputLog, List.map_append, ih]
    cases h : op.inputKind <;> simp [h]

theorem pairwise_inputLog_iff (lyt : GateLevelLayout) (ops : List Op) :
    ((lyt.inputLog ops).Pairwise fun e e' => e'.2 = true → e.2 = true) ↔
      ops.Pairwise fun op op' => ¬ (op.inputKind = some false ∧ op'.inputKind = some true) := by
  have hmap := List.pairwise_map (f := Prod.snd) (l := lyt.inputLog ops)
    (R := fun b b' => b' = true → b = true)
  rw [← hmap, map_snd_inputLog, List.pairwise_filterMap]
  refine iff_of_eq (congrArg (fun R => ops.Pairwise R) (funext₂ fun op op' => propext ?_))
  cases op.inputKind with
  | none => simp
  | some b => cases op'.inputKind <;> cases b <;> simp

/-- Without moves, the created inputs and outputs are told apart exactly if no primary input is
created after a register output. -/
theorem classified_iff_pis_first {clocked : ClockedLayout} {name : String} {ops : List Op}
    (hops : ∀ op ∈ ops, op.isMove = false) :
    Classified ((system clocked name).run ops) ((empty clocked name).createdPis ops)
        ((empty clocked name).createdRos ops) (ops.filterMap Op.poTile)
        (ops.filterMap Op.riTile) ↔
      ops.Pairwise fun op op' => ¬ (op.inputKind = some false ∧ op'.inputKind = some true) := by
  rw [← pairwise_inputLog_iff (empty clocked name)]
  exact ((empty_recorded clocked name).run hops).classified_iff

section Examples

def mixedInputs : List Op :=
  [.createPi "" (.at2 0 0), .createPo (.at2 0 0) "" (.at2 1 0), .createRo "" (.at2 0 1),
    .createRi (.at2 0 0) "" (.at2 0 2), .createPo (.at2 0 1) "" (.at2 1 1)]

theorem classified_iff_pis_first_mixed :
    Classified ((system smallLayout "").run mixedInputs)
        ((empty smallLayout "").createdPis mixedInputs)
        ((empty smallLayout "").createdRos mixedInputs) (mixedInputs.filterMap Op.poTile)
        (mixedInputs.filterMap Op.riTile) ↔
      mixedInputs.Pairwise fun op op' =>
        ¬ (op.inputKind = some false ∧ op'.inputKind = some true) :=
  classified_iff_pis_first (by decide)

/-- A primary input created after a register output is taken for a register output. -/
theorem late_pi_not_classified :
    let ops : List Op := [.createRo "" (.at2 0 0), .createPi "" (.at2 0 1)]
    ¬ Classified ((system smallLayout "").run ops) ((empty smallLayout "").createdPis ops)
      ((empty smallLayout "").createdRos ops) (ops.filterMap Op.poTile)
      (ops.filterMap Op.riTile) :=
  fun h => absurd h.foreachPi (by decide)

end Examples

end Fiction.GateLevelLayout
