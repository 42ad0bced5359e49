import Fiction.Library.MarkedPrefix
import Fiction.Networks.Registers

/-!
# Classification of inputs and outputs in sequential networks

Primary inputs and register outputs are appended to one vector, primary outputs and register inputs
to another, and two counters split them. The classification is right exactly if no primary input is
created after a register output and the drivers of the outputs come in the order of the split.
-/

namespace Fiction.TechnologyNetwork

section Accesses

variable (ntk : TechnologyNetwork)

def isRo (n : ℕ) : Bool := (ntk.inputs.drop ntk.numPis).contains n

def isRi (n : ℕ) : Bool := (ntk.outputs.drop ntk.numPos).contains n

end Accesses

/-- `create_pi` and `create_ro` create inputs, of which the former are marked. -/
def Call.inputKind : Call → Option Bool
  | createPi => some true
  | createRo => some false
  | _ => none

def Call.poDriver : Call → Option ℕ
  | createPo f => some f
  | _ => none

def Call.riDriver : Call → Option ℕ
  | createRi f => some f
  | _ => none

def Call.coDriver : Call → Option ℕ
  | createPo f => some f
  | createRi f => some f
  | _ => none

/-- The nodes that `create_pi` and `create_ro` return, in the order of the calls. -/
def inputLog (ntk : TechnologyNetwork) : List Call → List (ℕ × Bool)
  | [] => []
  | call :: calls =>
    (call.inputKind.toList.map fun b => (ntk.size, b)) ++ (call.apply ntk).inputLog calls

def createdPis (calls : List Call) : List ℕ :=
  ((empty.inputLog calls).filter fun e => e.2).map Prod.fst

def createdRos (calls : List Call) : List ℕ :=
  ((empty.inputLog calls).filter fun e => !e.2).map Prod.fst

/-- The network tells the inputs and outputs apart and lists each kind in order. -/
structure Classified (ntk : TechnologyNetwork) (pis ros pos ris : List ℕ) : Prop where
  isPi : ∀ n, ntk.isPi n = true ↔ n ∈ pis
  isRo : ∀ n, ntk.isRo n = true ↔ n ∈ ros
  isPo : ∀ n, ntk.isPo n = true ↔ n ∈ pos
  isRi : ∀ n, ntk.isRi n = true ↔ n ∈ ris
  foreachPi : ntk.foreachPi = pis
  foreachRo : ntk.foreachRo = ros
  foreachPo : ntk.foreachPo = pos
  foreachRi : ntk.foreachRi = ris

theorem classified_iff_lists {ntk : TechnologyNetwork} {pis ros pos ris : List ℕ} :
    ntk.Classified pis ros pos ris ↔ (ntk.foreachPi = pis ∧ ntk.foreachRo = ros) ∧
      ntk.foreachPo = pos ∧ ntk.foreachRi = ris := by
  constructor
  · exact fun h => ⟨⟨h.foreachPi, h.foreachRo⟩, h.foreachPo, h.foreachRi⟩
  · rintro ⟨⟨rfl, rfl⟩, rfl, rfl⟩
    refine ⟨fun n => ?_, fun n => ?_, fun n => ?_, fun n => ?_, rfl, rfl, rfl, rfl⟩
    all_goals exact List.contains_iff_mem

structure Recorded (ntk : TechnologyNetwork) (ins : List (ℕ × Bool)) (cos : List ℕ) (k : ℕ) :
    Prop where
  inputs : ntk.inputs = ins.map Prod.fst
  numPis : ntk.numPis = ins.countP fun e => e.2
  outputs : ntk.outputs = cos
  numPos : ntk.numPos = k

variable {ntk : TechnologyNetwork} {ins : List (ℕ × Bool)} {cos : List ℕ} {k : ℕ}

theorem Recorded.apply (h : ntk.Recorded ins cos k) (call : Call) :
    (call.apply ntk).Recorded (ins ++ call.inputKind.toList.map fun b => (ntk.size, b))
      (cos ++ call.coDriver.toList) (k + call.poDriver.toList.length) := by
  obtain ⟨hi, hpi, ho, hpo⟩ := h
  cases call with
  | createPi =>
    refine ⟨?_, ?_, ?_, hpo⟩
    · simp [Call.apply, Call.inputKind, createPi, pushNode, hi, size]
    · simp [Call.apply, Call.inputKind, createPi, pushNode, hpi]
    · simp [Call.apply, Call.coDriver, createPi, pushNode, ho]
  | createRo =>
    refine ⟨?_, ?_, ?_, hpo⟩
    · simp [Call.apply, Call.inputKind, createRo, pushNode, hi, size]
    · simp [Call.apply, Call.inputKind, createRo, pushNode, hpi]
    · simp [Call.apply, Call.coDriver, createRo, pushNode, ho]
  | createPo f =>
    refine ⟨?_, ?_, ?_, ?_⟩
    · simp [Call.apply, Call.inputKind, createPo, hi]
    · simp [Call.apply, Call.inputKind, createPo, hpi]
    · simp [Call.apply, Call.coDriver, createPo, ho]
    · simp [Call.apply, Call.poDriver, createPo, hpo]
  | createRi f =>
    refine ⟨?_, ?_, ?_, hpo⟩
    · simp [Call.apply, Call.inputKind, createRi, hi]
    · simp [Call.apply, Call.inputKind, createRi, hpi]
    · simp [Call.apply, Call.coDriver, createRi, ho]
  | createNot a =>
    have hsame : (ntk.createNot a).1.Recorded ins cos k := by
      unfold TechnologyNetwork.createNot
      split_ifs
      · exact ⟨hi, hpi, ho, hpo⟩
      · exact ⟨hi, hpi, ho, hpo⟩
    simpa [Call.apply, Call.inputKind, Call.coDriver, Call.poDriver] using hsame
  | createNode children function =>
    have hsame : (ntk.createNode children function).1.Recorded ins cos k := by
      unfold TechnologyNetwork.createNode
      split_ifs
      · exact ⟨hi, hpi, ho, hpo⟩
      · exact ⟨hi, hpi, ho, hpo⟩
    simpa [Call.apply, Call.inputKind, Call.coDriver, Call.poDriver] using hsame
  | pushNode children function =>
    have hsame : (ntk.pushNode children function).1.Recorded ins cos k := ⟨hi, hpi, ho, hpo⟩
    simpa [Call.apply, Call.inputKind, Call.coDriver, Call.poDriver] using hsame

theorem Recorded.run (h : ntk.Recorded ins cos k) (calls : List Call) :
    (calls.foldl Call.apply ntk).Recorded (ins ++ ntk.inputLog calls)
      (cos ++ calls.filterMap Call.coDriver) (k + (calls.filterMap Call.poDriver).length) := by
  induction calls generalizing ntk ins cos k with
  | nil => simpa [inputLog] using h
  | cons call calls ih =>
    have hcons : ∀ f : Call → Option ℕ,
        (call :: calls).filterMap f = (f call).toList ++ calls.filterMap f := by
      intro f
      cases hf : f call <;> simp [hf]
    have hs := ih (h.apply call)
    rw [List.append_assoc, List.append_assoc, add_assoc, ← List.length_append] at hs
    rw [hcons, hcons]
    exact hs

theorem recorded_build (calls : List Call) :
    (build calls).Recorded (empty.inputLog calls) (calls.filterMap Call.coDriver)
      (calls.filterMap Call.poDriver).length := by
  have hempty : empty.Recorded [] [] 0 := ⟨rfl, rfl, rfl, rfl⟩
  have h := hempty.run calls
  rw [List.nil_append, List.nil_append, Nat.zero_add] at h
  exact h

theorem map_snd_inputLog (ntk : TechnologyNetwork) (calls : List Call) :
    (ntk.inputLog calls).map Prod.snd = calls.filterMap Call.inputKind := by
  induction calls generalizing ntk with
  | nil => rfl
  | cons call calls ih =>
    rw [inputLog, List.map_append, ih]
    cases h : call.inputKind <;> simp [h]

theorem pairwise_inputLog_iff (ntk : TechnologyNetwork) (calls : List Call) :
    ((ntk.inputLog calls).Pairwise fun e e' => e'.2 = true → e.2 = true) ↔
      calls.Pairwise fun c c' => ¬ (c.inputKind = some false ∧ c'.inputKind = some true) := by
  have hmap := List.pairwise_map (f := Prod.snd) (l := ntk.inputLog calls)
    (R := fun b b' => b' = true → b = true)
  rw [← hmap, map_snd_inputLog, List.pairwise_filterMap]
  apply iff_of_eq
  apply congrArg fun R => calls.Pairwise R
  funext c c'
  apply propext
  cases c.inputKind with
  | none => simp
  | some b => cases c'.inputKind <;> cases b <;> simp

theorem Recorded.outputs_iff (h : ntk.Recorded ins cos k) {pos ris : List ℕ} (hk : k = pos.length) :
    ntk.foreachPo = pos ∧ ntk.foreachRi = ris ↔ cos = pos ++ ris := by
  rw [foreachPo, foreachRi, h.outputs, h.numPos]
  constructor
  · rintro ⟨hpo, hri⟩
    rw [← hpo, ← hri, List.take_append_drop]
  · rintro rfl
    rw [hk]
    exact ⟨List.take_left, List.drop_left⟩

/-- The network classifies its inputs and outputs correctly exactly if no primary input is created
after a register output and the drivers passed to `create_po` and `create_ri` form the same sequence
as those passed to `create_po` followed by those passed to `create_ri`. -/
theorem classified_iff_splits (calls : List Call) :
    (build calls).Classified (createdPis calls) (createdRos calls)
        (calls.filterMap Call.poDriver) (calls.filterMap Call.riDriver) ↔
      (calls.Pairwise fun c c' => ¬ (c.inputKind = some false ∧ c'.inputKind = some true)) ∧
        calls.filterMap Call.coDriver =
          calls.filterMap Call.poDriver ++ calls.filterMap Call.riDriver := by
  have hr := recorded_build calls
  have hnodup : ((empty.inputLog calls).map Prod.fst).Nodup := by
    rw [← hr.inputs]
    exact (constructed_build calls).inputs_nodup
  rw [classified_iff_lists, ← pairwise_inputLog_iff empty, ← MarkedPrefix.split_iff_pairwise hnodup,
    ← hr.inputs, ← hr.numPis]
  exact and_congr_right fun _ => hr.outputs_iff rfl

/-- The order in which a register is usually closed. -/
example : (build [.createPi, .createRo, .createNot 3, .createPo 4, .createRi 2]).foreachRi = [2] := by
  rfl

/-- A primary input is taken for a register output, and the driver of a register input for that of a
primary output. -/
theorem late_calls_not_classified :
    (¬ (build [.createRo, .createPi]).Classified (createdPis [.createRo, .createPi])
      (createdRos [.createRo, .createPi]) [] []) ∧
    ¬ (build [.createPi, .createNot 2, .createRi 3, .createPo 2]).Classified
      (createdPis [.createPi, .createNot 2, .createRi 3, .createPo 2])
      (createdRos [.createPi, .createNot 2, .createRi 3, .createPo 2]) [2] [3] :=
  ⟨fun h => absurd h.foreachPi (by decide), fun h => absurd h.foreachPo (by decide)⟩

end Fiction.TechnologyNetwork
