import Fiction.Layouts.ReferenceCounts
import Fiction.PhysicalDesign.OrthogonalPlacement

/-!
# Placing gates

`place` puts a gate of a network onto a tile. The constant among the fan-ins of the gate is passed
apart from the others, so that its position is lost. Failed assertions are `none`.
-/

namespace Fiction

namespace GateLevelLayout

section Creation

variable {lyt lyt' : GateLevelLayout}

def SameGates (lyt lyt' : GateLevelLayout) : Prop :=
  ∀ m, (lyt'.node m).function = (lyt.node m).function ∧
    (lyt'.node m).children = (lyt.node m).children

theorem SameGates.trans {lyt'' : GateLevelLayout} (h : SameGates lyt lyt')
    (h' : SameGates lyt' lyt'') : SameGates lyt lyt'' := fun m =>
  ⟨(h' m).1.trans (h m).1, (h' m).2.trans (h m).2⟩

theorem SameGates.of_nodes (h : lyt'.nodes = lyt.nodes) : SameGates lyt lyt' := fun m => by
  simp only [node, h, and_self]

theorem modifyNode_sameGates (n : ℕ) {f : LayoutNode → LayoutNode}
    (hf : ∀ data, (f data).function = data.function ∧ (f data).children = data.children) :
    SameGates lyt (lyt.modifyNode n f) := fun m => by
  rw [node_modifyNode]
  split_ifs
  · exact hf _
  · exact ⟨rfl, rfl⟩

theorem killNode_sameGates (n : ℕ) : SameGates lyt (lyt.killNode n) := by
  rw [killNode]
  split_ifs
  · exact .of_nodes rfl
  · exact modifyNode_sameGates n fun _ => ⟨rfl, rfl⟩

theorem count_sameGates (n : ℕ) : SameGates lyt (lyt.count n) := by
  rw [count]
  split_ifs <;> exact .of_nodes rfl

theorem uncount_sameGates (n : ℕ) : SameGates lyt (lyt.uncount n) := by
  rw [uncount]
  split_ifs <;> exact .of_nodes rfl

theorem clearTile_sameGates (t : Tile) : SameGates lyt (lyt.clearTile t) := by
  cases ht : lyt.tileNodeMap t with
  | none =>
    rw [clearTile_none ht]
    exact .of_nodes rfl
  | some n =>
    rw [clearTile_some ht]
    refine .trans ?_ (SameGates.trans (killNode_sameGates n) (.of_nodes rfl))
    split_ifs
    · exact .of_nodes rfl
    · exact uncount_sameGates n

theorem foldl_incrRef_sameGates (ss : List Signal) : SameGates lyt (ss.foldl incrRef lyt) := by
  induction ss generalizing lyt with
  | nil => exact .of_nodes rfl
  | cons s ss ih =>
    have hs : SameGates lyt (lyt.incrRef s) := modifyNode_sameGates _ fun _ => ⟨rfl, rfl⟩
    exact hs.trans ih

theorem node_createNodeFromLiteral (children : List Signal) (function : TruthTable) {t : Tile}
    (ht : t.isDead = false) :
    ((lyt.createNodeFromLiteral children function t).1.node
        ((lyt.createNodeFromLiteral children function t).1.getNode t)).function = function ∧
      ((lyt.createNodeFromLiteral children function t).1.node
        ((lyt.createNodeFromLiteral children function t).1.getNode t)).children = children := by
  have hgates : SameGates (lyt.emplaceNode ⟨children, 0, function⟩).2
      (lyt.createNodeFromLiteral children function t).1 := by
    refine (foldl_incrRef_sameGates children).trans ?_
    change SameGates _ (assignNode _ t _)
    rw [assignNode_live ht]
    exact ((clearTile_sameGates t).trans (.of_nodes rfl)).trans (count_sameGates _)
  have hnode : (lyt.createNodeFromLiteral children function t).1.getNode t = lyt.size := by
    change (assignNode _ t lyt.size).getNode t = _
    rw [assignNode_getNode ht, if_pos rfl]
  have hdata := hgates lyt.size
  rw [node_emplaceNode, if_pos rfl] at hdata
  rw [hnode]
  exact hdata

end Creation

end GateLevelLayout

namespace PlacementUtils

open TechnologyNetwork Orthogonal

section Definitions

variable (lyt : GateLevelLayout) (t : Tile) (ntk : TechnologyNetwork) (n : ℕ)

/-- `place` for gates without fan-ins -/
def placeNullary : Option (GateLevelLayout × Signal) :=
  if ntk.isPi n then some (lyt.createPi ((ntk.signalNames n).getD "") t) else none

/-- `place` for gates with one fan-in -/
def placeUnary (a : Signal) : Option (GateLevelLayout × Signal) :=
  if ntk.isInv n then some (lyt.createNot a t)
  else if ntk.isBuf n then some (lyt.createBuf a t)
  else none

/-- A truth value that is taken for a signal is one of the first two tiles. -/
def signalOfBool (c : Bool) : Signal := .at2 (if c then 1 else 0) 0

/-- `place` for gates with two fan-ins and perhaps a constant -/
def placeBinary (a b : Signal) (c : Option Bool) : Option (GateLevelLayout × Signal) :=
  if ntk.isAnd n then some (lyt.createAnd a b t)
  else if ntk.isOr n then some (lyt.createOr a b t)
  else if ntk.isXor n then some (lyt.createXor a b t)
  else if ntk.isNand n then some (lyt.createNand a b t)
  else if ntk.isNor n then some (lyt.createNor a b t)
  else if ntk.isMaj n then
    c.map fun c => if c then lyt.createOr a b t else lyt.createAnd a b t
  else if ntk.isFunction n then
    match c with
    | some c => some (lyt.createNode [a, b, signalOfBool c] (ntk.node n).function t)
    | none => some (lyt.createNode [a, b] (ntk.node n).function t)
  else none

/-- `place` for gates with three fan-ins -/
def placeTernary (a b c : Signal) : Option (GateLevelLayout × Signal) :=
  if ntk.isMaj n then some (lyt.createMaj a b c t)
  else if ntk.isFunction n then some (lyt.createNode [a, b, c] (ntk.node n).function t)
  else none

def place (node2pos : ℕ → Signal) : Option (GateLevelLayout × Signal) := do
  let fc ← fanins ntk n
  match fc.faninNodes with
  | [] => placeNullary lyt t ntk n
  | [a] => placeUnary lyt t ntk n (node2pos a)
  | [a, b] => placeBinary lyt t ntk n (node2pos a) (node2pos b) fc.constantFanin
  | [a, b, c] => placeTernary lyt t ntk n (node2pos a) (node2pos b) (node2pos c)
  | _ => none

/-- A gate with one to three operands, at most one of which is constant. -/
structure IsGate : Prop where
  isCi : ntk.isCi n = false
  one_lt : 1 < n
  children : 1 ≤ (ntk.node n).children.length ∧ (ntk.node n).children.length ≤ 3
  constant : (ntk.node n).children.countP (isConstant ·) ≤ 1
  numVars : (ntk.node n).function.numVars = (ntk.node n).children.length

/-- Values of the signals, the constants having theirs. -/
def IsValuation (val : Signal → Bool) : Prop := ∀ c, val (GateLevelLayout.getConstant c) = c

variable (node2pos : ℕ → Signal)

def operandValue (val : Signal → Bool) (m : ℕ) : Bool :=
  if isConstant m then decide (m ≠ 0) else val (node2pos m)

/-- A node on `t` computes of its children what the gate computes of its operands. -/
def Placed : Prop :=
  ∃ lyt', place lyt t ntk n node2pos = some (lyt', t) ∧
    ∀ val, IsValuation val →
      (lyt'.node (lyt'.getNode t)).function.eval ((lyt'.node (lyt'.getNode t)).children.map val) =
        (ntk.node n).function.eval ((ntk.node n).children.map (operandValue node2pos val))

/-- With the value `z` of the tile that the constant `c` is taken for as its last operand, the gate
computes the same as with the constant in its place. Values on one tile are equal. -/
def IgnoresConstant (c : Bool) (a b : ℕ) : Prop :=
  ∀ x y z : Bool, (node2pos a = node2pos b → x = y) → (signalOfBool c = node2pos a → z = x) →
    (signalOfBool c = node2pos b → z = y) →
    (ntk.node n).function.eval [x, y, z] = (ntk.node n).function.eval
      ((ntk.node n).children.map fun m => if isConstant m then c else if m = a then x else y)

def Placeable : Prop :=
  match (ntk.node n).children.filter (!isConstant ·),
    ((ntk.node n).children.find? (isConstant ·)).map fun c => decide (c ≠ 0) with
  | [_], none => ntk.isInv n ∨ ntk.isBuf n
  | [_, _], none => True
  | [a, b], some c => ntk.isMaj n ∨ IgnoresConstant ntk n node2pos c a b
  | [_, _, _], none => True
  | _, _ => False

end Definitions

section Placing

variable {lyt : GateLevelLayout} {t : Tile} {ntk : TechnologyNetwork} {n : ℕ}
  {node2pos : ℕ → Signal}

theorem IsGate.isFunction (hn : IsGate ntk n) : ntk.isFunction n = true :=
  decide_eq_true ⟨hn.one_lt, by simp [hn.isCi]⟩

theorem IsGate.fanins (hn : IsGate ntk n) : fanins ntk n =
    some ⟨(ntk.node n).children.filter (!isConstant ·),
      ((ntk.node n).children.find? (isConstant ·)).map (· ≠ 0)⟩ := by
  simp only [Orthogonal.fanins, hn.isCi, Bool.false_eq_true, if_false, if_pos hn.constant]

theorem placed_iff_of_create (ht : t.isDead = false) {children : List Signal}
    {function : TruthTable} (h : place lyt t ntk n node2pos =
      some (lyt.createNodeFromLiteral children function t)) :
    Placed lyt t ntk n node2pos ↔ ∀ val, IsValuation val → function.eval (children.map val) =
      (ntk.node n).function.eval ((ntk.node n).children.map (operandValue node2pos val)) := by
  obtain ⟨hf, hc⟩ := lyt.node_createNodeFromLiteral children function ht
  constructor
  · rintro ⟨lyt', hplace, heval⟩
    have hlyt : (lyt.createNodeFromLiteral children function t).1 = lyt' :=
      congrArg Prod.fst (Option.some.inj (h.symm.trans hplace))
    intro val hval
    have hval := heval val hval
    rwa [← hlyt, hf, hc] at hval
  · intro heval
    refine ⟨(lyt.createNodeFromLiteral children function t).1, h, fun val hval => ?_⟩
    rw [hf, hc]
    exact heval val hval

theorem not_placed_of_none (h : place lyt t ntk n node2pos = none) :
    ¬ Placed lyt t ntk n node2pos := by
  rintro ⟨lyt', hplace, -⟩
  rw [h] at hplace
  cases hplace

theorem placeBinary_none (hn : IsGate ntk n) (h2 : (ntk.node n).function.numVars = 2)
    (a b : Signal) : placeBinary lyt t ntk n a b none =
      some (lyt.createNodeFromLiteral [a, b] (ntk.node n).function t) := by
  have hmaj : ntk.isMaj n = false := by
    refine decide_eq_false fun h => ?_
    rw [h] at h2
    exact absurd h2 (by decide)
  rw [placeBinary, hmaj, hn.isFunction, if_neg Bool.false_ne_true, if_pos rfl]
  by_cases hand : ntk.isAnd n = true
  · rw [if_pos hand, of_decide_eq_true hand]
    rfl
  by_cases hor : ntk.isOr n = true
  · rw [if_neg hand, if_pos hor, of_decide_eq_true hor]
    rfl
  by_cases hxor : ntk.isXor n = true
  · rw [if_neg hand, if_neg hor, if_pos hxor, of_decide_eq_true hxor]
    rfl
  by_cases hnand : ntk.isNand n = true
  · rw [if_neg hand, if_neg hor, if_neg hxor, if_pos hnand, of_decide_eq_true hnand]
    rfl
  by_cases hnor : ntk.isNor n = true
  · rw [if_neg hand, if_neg hor, if_neg hxor, if_neg hnand, if_pos hnor, of_decide_eq_true hnor]
    rfl
  · rw [if_neg hand, if_neg hor, if_neg hxor, if_neg hnand, if_neg hnor]
    rfl

theorem placeBinary_some (hn : IsGate ntk n) (h3 : (ntk.node n).function.numVars = 3)
    (a b : Signal) (c : Bool) : placeBinary lyt t ntk n a b (some c) =
      some (if ntk.isMaj n then lyt.createNodeFromLiteral [a, b] (if c then .or else .and) t
        else lyt.createNodeFromLiteral [a, b, signalOfBool c] (ntk.node n).function t) := by
  have hne : ∀ f : TruthTable, f.numVars = 2 → (ntk.node n).function ≠ f := by
    rintro f hf rfl
    omega
  rw [placeBinary, isAnd, decide_eq_false (hne _ rfl), isOr, decide_eq_false (hne _ rfl), isXor,
    decide_eq_false (hne _ rfl), isNand, decide_eq_false (hne _ rfl), isNor,
    decide_eq_false (hne _ rfl), hn.isFunction]
  cases hm : ntk.isMaj n <;> cases c <;> rfl

theorem placeTernary_eq (hn : IsGate ntk n) (a b c : Signal) :
    placeTernary lyt t ntk n a b c =
      some (lyt.createNodeFromLiteral [a, b, c] (ntk.node n).function t) := by
  rw [placeTernary, hn.isFunction, if_pos rfl]
  by_cases h : ntk.isMaj n = true
  · rw [if_pos h, of_decide_eq_true h]
    rfl
  · rw [if_neg h]
    rfl

theorem placeUnary_eq (a : Signal) : placeUnary lyt t ntk n a =
    if ntk.isInv n ∨ ntk.isBuf n then
      some (lyt.createNodeFromLiteral [a] (ntk.node n).function t)
    else none := by
  rw [placeUnary]
  by_cases hinv : ntk.isInv n = true
  · rw [if_pos hinv, if_pos (.inl hinv), of_decide_eq_true hinv]
    rfl
  by_cases hbuf : ntk.isBuf n = true
  · rw [if_neg hinv, if_pos hbuf, if_pos (.inr hbuf), (of_decide_eq_true hbuf).1]
    rfl
  · rw [if_neg hinv, if_neg hbuf, if_neg (not_or.mpr ⟨hinv, hbuf⟩)]

theorem children_cases (hn : IsGate ntk n) {a b : ℕ} {c : Bool}
    (hfil : (ntk.node n).children.filter (!isConstant ·) = [a, b])
    (hconst : ((ntk.node n).children.find? (isConstant ·)).map (fun k => decide (k ≠ 0)) = some c) :
    (isConstant a = false ∧ isConstant b = false) ∧ ∃ k, isConstant k = true ∧ decide (k ≠ 0) = c ∧
      ((ntk.node n).children = [k, a, b] ∨ (ntk.node n).children = [a, k, b] ∨
        (ntk.node n).children = [a, b, k]) := by
  obtain ⟨k, hk, rfl⟩ := Option.map_eq_some_iff.mp hconst
  have hkc : isConstant k = true := List.find?_some hk
  obtain ⟨l, l', hl⟩ := List.append_of_mem (List.mem_of_find?_eq_some hk)
  have hcount := hn.constant
  rw [hl, List.countP_append, List.countP_cons_of_pos (p := (isConstant ·)) hkc] at hcount
  have hfilter : ∀ l : List ℕ, l.countP (isConstant ·) = 0 → l.filter (!isConstant ·) = l := by
    intro l h0
    refine List.filter_eq_self.mpr fun m hm => ?_
    simpa using List.countP_eq_zero.mp h0 m hm
  have hab : l ++ l' = [a, b] := by
    rw [← hfil, hl, List.filter_append, List.filter_cons_of_neg (by simp [hkc]),
      hfilter l (by omega), hfilter l' (by omega)]
  have hmem : ∀ m ∈ [a, b], isConstant m = false := fun m hm => by
    rw [← hfil] at hm
    simpa using (List.mem_filter.mp hm).2
  refine ⟨⟨hmem a (by simp), hmem b (by simp)⟩, k, hkc, rfl, ?_⟩
  rw [hl]
  rcases List.append_eq_cons_iff.mp hab with ⟨rfl, rfl⟩ | ⟨l₁, rfl, hl₁⟩
  · exact .inl rfl
  · rcases List.append_eq_cons_iff.mp hl₁.symm with ⟨rfl, rfl⟩ | ⟨l₂, rfl, hl₂⟩
    · exact .inr (.inl rfl)
    · obtain ⟨rfl, rfl⟩ := List.append_eq_nil_iff.mp hl₂.symm
      exact .inr (.inr rfl)

theorem exists_isValuation {A B K : Signal} (hA : A.isDead = false) (hB : B.isDead = false)
    (hK : K.isDead = false) {x y z : Bool} (hxy : A = B → x = y) (hzx : K = A → z = x)
    (hzy : K = B → z = y) :
    ∃ val, IsValuation val ∧ val A = x ∧ val B = y ∧ val K = z := by
  have hne : ∀ {s : Signal} (c : Bool), s.isDead = false → GateLevelLayout.getConstant c ≠ s := by
    rintro s c hs rfl
    cases c <;> cases hs
  refine ⟨fun s => if s = A then x else if s = B then y else if s = K then z
    else decide (s = GateLevelLayout.getConstant true), fun c => ?_, if_pos rfl, ?_, ?_⟩
  · simp only [if_neg (hne c hA), if_neg (hne c hB), if_neg (hne c hK)]
    cases c <;> decide
  · simp only [if_true]
    split_ifs with hBA
    · exact hxy hBA.symm
    · rfl
  · simp only [if_true]
    split_ifs with hKA hKB
    · exact (hzx hKA).symm
    · exact (hzy hKB).symm
    · rfl

theorem children_eq_of_none {l : List ℕ} (hfil : (ntk.node n).children.filter (!isConstant ·) = l)
    (hconst : ((ntk.node n).children.find? (isConstant ·)).map (fun k => decide (k ≠ 0)) = none) :
    (ntk.node n).children = l ∧ ∀ m ∈ l, isConstant m = false := by
  have hnone : ∀ m ∈ (ntk.node n).children, isConstant m = false := fun m hm => by
    simpa using List.find?_eq_none.mp (Option.map_eq_none_iff.mp hconst) m hm
  have heq : (ntk.node n).children = l := by
    rw [← hfil]
    exact (List.filter_eq_self.mpr fun m hm => by simp [hnone m hm]).symm
  exact ⟨heq, heq ▸ hnone⟩

theorem map_operandValue {l : List ℕ} (h : ∀ m ∈ l, isConstant m = false) (val : Signal → Bool) :
    l.map (operandValue node2pos val) = (l.map node2pos).map val := by
  rw [List.map_map]
  exact List.map_congr_left fun m hm => by simp [operandValue, h m hm]

theorem length_children (ntk : TechnologyNetwork) (n : ℕ) : (ntk.node n).children.length =
    (ntk.node n).children.countP (isConstant ·) +
      ((ntk.node n).children.filter (!isConstant ·)).length := by
  rw [List.length_eq_countP_add_countP (isConstant ·), ← List.countP_eq_length_filter]
  simp only [Bool.not_eq_true, Bool.decide_eq_false]

theorem placed_of_create (ht : t.isDead = false) {l : List ℕ} (hl : (ntk.node n).children = l)
    (hnone : ∀ m ∈ l, isConstant m = false) (h : place lyt t ntk n node2pos =
      some (lyt.createNodeFromLiteral (l.map node2pos) (ntk.node n).function t)) :
    Placed lyt t ntk n node2pos := by
  refine (placed_iff_of_create ht h).mpr fun val _ => ?_
  rw [hl, map_operandValue hnone]

theorem eval_maj_constant (x y c : Bool) : (if c then TruthTable.or else .and).eval [x, y] =
      TruthTable.maj.eval [c, x, y] ∧
    (if c then TruthTable.or else .and).eval [x, y] = TruthTable.maj.eval [x, c, y] ∧
      (if c then TruthTable.or else .and).eval [x, y] = TruthTable.maj.eval [x, y, c] := by
  revert x y c
  decide

theorem eval_maj_operands {a b k : ℕ} {c : Bool} (ha : isConstant a = false)
    (hb : isConstant b = false) (hk : isConstant k = true) (hc : decide (k ≠ 0) = c)
    {l : List ℕ} (hl : l = [k, a, b] ∨ l = [a, k, b] ∨ l = [a, b, k]) (val : Signal → Bool) :
    (if c then TruthTable.or else .and).eval [val (node2pos a), val (node2pos b)] =
      TruthTable.maj.eval (l.map (operandValue node2pos val)) := by
  have hva : operandValue node2pos val a = val (node2pos a) := by simp [operandValue, ha]
  have hvb : operandValue node2pos val b = val (node2pos b) := by simp [operandValue, hb]
  have hvk : operandValue node2pos val k = c := by
    rw [operandValue, if_pos hk, hc]
  obtain ⟨h₁, h₂, h₃⟩ := eval_maj_constant (val (node2pos a)) (val (node2pos b)) c
  rcases hl with rfl | rfl | rfl <;> simp only [List.map_cons, List.map_nil, hva, hvb, hvk]
  · exact h₁
  · exact h₂
  · exact h₃

theorem placed_iff_ignoresConstant (ht : t.isDead = false) {a b k : ℕ} {c : Bool}
    (ha : isConstant a = false) (hb : isConstant b = false) (hA : (node2pos a).isDead = false)
    (hB : (node2pos b).isDead = false) (hk : isConstant k = true) (hc : decide (k ≠ 0) = c)
    (hl : (ntk.node n).children = [k, a, b] ∨ (ntk.node n).children = [a, k, b] ∨
      (ntk.node n).children = [a, b, k])
    (h : place lyt t ntk n node2pos = some (lyt.createNodeFromLiteral
      [node2pos a, node2pos b, signalOfBool c] (ntk.node n).function t)) :
    Placed lyt t ntk n node2pos ↔ IgnoresConstant ntk n node2pos c a b := by
  have hoperands : ∀ val : Signal → Bool, (ntk.node n).children.map (operandValue node2pos val) =
      (ntk.node n).children.map fun m => if isConstant m then c
        else if m = a then val (node2pos a) else val (node2pos b) := by
    intro val
    refine List.map_congr_left fun m hm => ?_
    have hm' : m = k ∨ m = a ∨ m = b := by
      rcases hl with hl | hl | hl <;> rw [hl] at hm <;> simp only [List.mem_cons,
        List.not_mem_nil, or_false] at hm <;> tauto
    rcases hm' with rfl | rfl | rfl
    · rw [operandValue, if_pos hk, if_pos hk, hc]
    · simp [operandValue, ha]
    · simp only [operandValue, hb, Bool.false_eq_true, if_false]
      split_ifs with hm
      · rw [hm]
      · rfl
  rw [placed_iff_of_create ht h]
  constructor
  · intro heval x y z hxy hzx hzy
    obtain ⟨val, hval, rfl, rfl, rfl⟩ := exists_isValuation hA hB
      (show (signalOfBool c).isDead = false from rfl) hxy hzx hzy
    rw [← hoperands]
    exact heval val hval
  · intro hign val hval
    rw [hoperands]
    exact hign _ _ _ (congrArg val) (congrArg val) (congrArg val)

/-- A gate is placed with its function unless it has one operand that is not constant and is neither
an inverter nor a buffer, or has a constant among three operands that its function does not
ignore. -/
theorem placed_iff_of_isGate (ht : t.isDead = false) (hn : IsGate ntk n)
    (hlive : ∀ m ∈ (ntk.node n).children, isConstant m = false → (node2pos m).isDead = false) :
    Placed lyt t ntk n node2pos ↔ Placeable ntk n node2pos := by
  have hplace : place lyt t ntk n node2pos = _ := congrArg (· >>= _) hn.fanins
  simp only [Option.bind_eq_bind, Option.bind_some] at hplace
  have hlen := hn.children
  have hvars := hn.numVars
  rw [Placeable]
  cases hcst : ((ntk.node n).children.find? (isConstant ·)).map fun k => decide (k ≠ 0) with
  | none =>
    match hfil : (ntk.node n).children.filter (!isConstant ·) with
    | [] =>
      rw [(children_eq_of_none hfil hcst).1] at hlen
      exact absurd hlen.1 (by decide)
    | [a] =>
      obtain ⟨hl, hnone⟩ := children_eq_of_none hfil hcst
      simp only [hfil, placeUnary_eq] at hplace
      by_cases hg : ntk.isInv n = true ∨ ntk.isBuf n = true
      · rw [if_pos hg] at hplace
        exact iff_of_true (placed_of_create ht hl hnone hplace) hg
      · rw [if_neg hg] at hplace
        exact iff_of_false (not_placed_of_none hplace) hg
    | [a, b] =>
      obtain ⟨hl, hnone⟩ := children_eq_of_none hfil hcst
      rw [hl] at hvars
      simp only [hfil, hcst, placeBinary_none hn hvars] at hplace
      exact iff_of_true (placed_of_create ht hl hnone hplace) trivial
    | [a, b, c] =>
      obtain ⟨hl, hnone⟩ := children_eq_of_none hfil hcst
      simp only [hfil, placeTernary_eq hn] at hplace
      exact iff_of_true (placed_of_create ht hl hnone hplace) trivial
    | a :: b :: c :: d :: l =>
      rw [(children_eq_of_none hfil hcst).1] at hlen
      simp only [List.length_cons] at hlen
      omega
  | some c =>
    have hlength := length_children ntk n
    have hone : (ntk.node n).children.countP (isConstant ·) = 1 := by
      obtain ⟨k, hk, -⟩ := Option.map_eq_some_iff.mp hcst
      exact le_antisymm hn.constant
        (List.countP_pos_iff.mpr ⟨k, List.mem_of_find?_eq_some hk, List.find?_some hk⟩)
    rw [hone] at hlength
    match hfil : (ntk.node n).children.filter (!isConstant ·) with
    | [] =>
      have hpi : ntk.isPi n = false := by
        refine Bool.eq_false_of_not_eq_true fun h => ?_
        have hmem := List.mem_of_mem_take (List.contains_iff_mem.mp h)
        exact absurd (List.contains_iff_mem.mpr hmem) (by
          rw [show ntk.inputs.contains n = false from hn.isCi]
          exact Bool.false_ne_true)
      simp only [hfil, placeNullary, hpi, Bool.false_eq_true, if_false] at hplace
      exact iff_of_false (not_placed_of_none hplace) id
    | [a] =>
      rw [hfil] at hlength
      have h2 : (ntk.node n).function.numVars = 2 := hvars.trans hlength
      have hne : ¬ (ntk.isInv n = true ∨ ntk.isBuf n = true) := by
        rintro (h | h)
        · rw [of_decide_eq_true h] at h2
          exact absurd h2 (by decide)
        · rw [(of_decide_eq_true h).1] at h2
          exact absurd h2 (by decide)
      simp only [hfil, placeUnary_eq, if_neg hne] at hplace
      exact iff_of_false (not_placed_of_none hplace) id
    | [a, b] =>
      rw [hfil] at hlength
      obtain ⟨⟨ha, hb⟩, k, hk, hc, hl⟩ := children_cases hn hfil hcst
      simp only [hfil, hcst, placeBinary_some hn (hvars.trans hlength)] at hplace
      have hmem : a ∈ (ntk.node n).children ∧ b ∈ (ntk.node n).children := by
        rcases hl with hl | hl | hl <;> simp [hl]
      by_cases hm : ntk.isMaj n = true
      · rw [if_pos hm] at hplace
        refine iff_of_true ((placed_iff_of_create ht hplace).mpr fun val _ => ?_) (.inl hm)
        rw [of_decide_eq_true hm]
        exact eval_maj_operands ha hb hk hc hl val
      · rw [if_neg hm] at hplace
        rw [placed_iff_ignoresConstant ht ha hb (hlive a hmem.1 ha) (hlive b hmem.2 hb) hk hc hl
          hplace]
        exact ⟨.inr, fun h => h.resolve_left hm⟩
    | a :: b :: c :: l =>
      rw [hfil] at hlength
      simp only [List.length_cons] at hlength
      omega

section Constants

variable {a b k : ℕ} (ha : isConstant a = false) (hb : isConstant b = false)
  (hk : isConstant k = true) (hab : node2pos a ≠ node2pos b)
include ha hb hk hab

theorem ignoresConstant_iff {c : Bool} (hca : signalOfBool c ≠ node2pos a)
    (hcb : signalOfBool c ≠ node2pos b) :
    ((ntk.node n).children = [a, b, k] → (IgnoresConstant ntk n node2pos c a b ↔ ∀ x y z,
      (ntk.node n).function.eval [x, y, z] = (ntk.node n).function.eval [x, y, c])) ∧
    ((ntk.node n).children = [a, k, b] → (IgnoresConstant ntk n node2pos c a b ↔ ∀ x y z,
      (ntk.node n).function.eval [x, y, z] = (ntk.node n).function.eval [x, c, c])) ∧
    ((ntk.node n).children = [k, a, b] → (IgnoresConstant ntk n node2pos c a b ↔ ∀ x y z,
      (ntk.node n).function.eval [x, y, z] = (ntk.node n).function.eval [c, c, c])) := by
  have hba : b ≠ a := fun h => hab (congrArg node2pos h.symm)
  refine ⟨fun hl => ?_, fun hl => ?_, fun hl => ?_⟩ <;>
    simp only [IgnoresConstant, hl, List.map_cons, List.map_nil, ha, hb, hk, hba, hab, hca, hcb,
      Bool.false_eq_true, if_true, if_false, false_implies, true_implies]
  · constructor
    · intro h x y z
      rw [h x y z, h x c y]
    · intro h x y z
      rw [h x y z, h x c y]
  · constructor
    · intro h x y z
      rw [h x y z, h c x y, h c c x]
    · intro h x y z
      rw [h x y z, h c x y]

omit hab in
theorem placeable_iff_ignoresConstant (hl : (ntk.node n).children = [a, b, k] ∨
      (ntk.node n).children = [a, k, b] ∨ (ntk.node n).children = [k, a, b]) :
    Placeable ntk n node2pos ↔
      ntk.isMaj n = true ∨ IgnoresConstant ntk n node2pos (decide (k ≠ 0)) a b := by
  have hfil : (ntk.node n).children.filter (!isConstant ·) = [a, b] := by
    rcases hl with hl | hl | hl <;> simp [hl, ha, hb, hk]
  have hcst : ((ntk.node n).children.find? (isConstant ·)).map (fun c => decide (c ≠ 0)) =
      some (decide (k ≠ 0)) := by
    rcases hl with hl | hl | hl <;> simp [hl, ha, hb, hk]
  simp only [Placeable, hfil, hcst]

end Constants

/-- The gate is placed if and only if it is placeable. With a constant, and on different tiles, that
means that it is a majority or that its function ignores the constant and what follows it. -/
theorem placed_iff_placeable (ht : t.isDead = false) (hn : IsGate ntk n)
    (hlive : ∀ m ∈ (ntk.node n).children, isConstant m = false → (node2pos m).isDead = false) :
    (Placed lyt t ntk n node2pos ↔ Placeable ntk n node2pos) ∧
      ∀ a b k, isConstant a = false → isConstant b = false → isConstant k = true →
        node2pos a ≠ node2pos b → signalOfBool (decide (k ≠ 0)) ≠ node2pos a →
        signalOfBool (decide (k ≠ 0)) ≠ node2pos b →
        ((ntk.node n).children = [a, b, k] → (Placeable ntk n node2pos ↔ ntk.isMaj n = true ∨
          ∀ x y z, (ntk.node n).function.eval [x, y, z] =
            (ntk.node n).function.eval [x, y, decide (k ≠ 0)])) ∧
        ((ntk.node n).children = [a, k, b] → (Placeable ntk n node2pos ↔ ntk.isMaj n = true ∨
          ∀ x y z, (ntk.node n).function.eval [x, y, z] =
            (ntk.node n).function.eval [x, decide (k ≠ 0), decide (k ≠ 0)])) ∧
        ((ntk.node n).children = [k, a, b] → (Placeable ntk n node2pos ↔ ntk.isMaj n = true ∨
          ∀ x y z, (ntk.node n).function.eval [x, y, z] =
            (ntk.node n).function.eval [decide (k ≠ 0), decide (k ≠ 0), decide (k ≠ 0)])) := by
  refine ⟨placed_iff_of_isGate ht hn hlive, fun a b k ha hb hk hab hca hcb => ?_⟩
  obtain ⟨hlast, hmiddle, hfirst⟩ := @ignoresConstant_iff ntk n _ _ _ _ ha hb hk hab _ hca hcb
  refine ⟨fun hl => ?_, fun hl => ?_, fun hl => ?_⟩
  · rw [placeable_iff_ignoresConstant ha hb hk (.inl hl), hlast hl]
  · rw [placeable_iff_ignoresConstant ha hb hk (.inr (.inl hl)), hmiddle hl]
  · rw [placeable_iff_ignoresConstant ha hb hk (.inr (.inr hl)), hfirst hl]

end Placing

section Examples

def gateWithConstant (c : ℕ) (function : TruthTable) : TechnologyNetwork :=
  let (ntk, x) := TechnologyNetwork.empty.createPi
  let (ntk, y) := ntk.createPi
  (ntk.createNode [x, y, c] function).1

/-- Both inputs have been placed in the second row. -/
def inputLayout : GateLevelLayout :=
  (((GateLevelLayout.empty ⟨⟨.at3 4 4 1, .cartesian⟩, .twoddwaveClocking 4⟩ "").createPi "x"
    (.at2 2 1)).1.createPi "y" (.at2 3 1)).1

/-- The conjunction of two inputs and the constant one reads the tile `(1, 0)`. -/
theorem constantConjunction_not_placed :
    ¬ Placed inputLayout (.at2 3 3) (gateWithConstant 1 ⟨3, 0x80#8⟩) 4 fun m => .at2 m 1 := by
  intro h
  have hval := (@placed_iff_of_create _ _ _ _ _ rfl [.at2 2 1, .at2 3 1, .at2 1 0]
    ⟨3, 0x80#8⟩ rfl).mp h (fun s => decide (s ≠ .at2 1 0 ∧ s ≠ GateLevelLayout.getConstant false))
    (fun c => by cases c <;> decide)
  exact absurd hval (by decide)

theorem placed_iff_placeable_majority :
    Placed inputLayout (.at2 3 3) (gateWithConstant 1 .maj) 4 (fun m => .at2 m 1) ↔
      Placeable (gateWithConstant 1 .maj) 4 fun m => .at2 m 1 :=
  (placed_iff_placeable rfl ⟨by decide, by decide, by decide, by decide, by decide⟩
    (by decide)).1

end Examples

end PlacementUtils

end Fiction
