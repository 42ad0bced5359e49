import Mathlib.Data.BitVec
import Mathlib.Tactic.Common

/-!
# Truth tables

A function of `numVars` variables is stored by its `2 ^ numVars` output bits; the bit with index
`i` is the value under the assignment that gives variable `j` bit `j` of `i`. Layouts and networks
store functions through a cache that maps each table to one literal and back, so a node is
modelled as carrying the table itself: its literal is `2` exactly when the table is `identity`.
-/

namespace Fiction

structure TruthTable where
  numVars : ℕ
  bits : BitVec (2 ^ numVars)
  deriving DecidableEq

namespace TruthTable

def getBit (tt : TruthTable) (i : ℕ) : Bool := tt.bits.getLsbD i

/-- The index that the operand values select, the first operand being the lowest bit. -/
def pattern : List Bool → ℕ
  | [] => 0
  | b :: bs => b.toNat + 2 * pattern bs

def eval (tt : TruthTable) (operands : List Bool) : Bool := tt.getBit (pattern operands)

def const0 : TruthTable := ⟨0, 0x0#1⟩
def const1 : TruthTable := ⟨0, 0x1#1⟩
def identity : TruthTable := ⟨1, 0x2#2⟩
def not : TruthTable := ⟨1, 0x1#2⟩
def and : TruthTable := ⟨2, 0x8#4⟩
def nand : TruthTable := ⟨2, 0x7#4⟩
def or : TruthTable := ⟨2, 0xe#4⟩
def nor : TruthTable := ⟨2, 0x1#4⟩
def xor : TruthTable := ⟨2, 0x6#4⟩
def xnor : TruthTable := ⟨2, 0x9#4⟩
def maj : TruthTable := ⟨3, 0xe8#8⟩

@[simp] theorem eval_identity (b : Bool) : identity.eval [b] = b := by
  cases b <;> rfl

@[simp] theorem eval_not (b : Bool) : not.eval [b] = !b := by
  cases b <;> rfl

@[simp] theorem eval_and (a b : Bool) : and.eval [a, b] = (a && b) := by
  cases a <;> cases b <;> rfl

@[simp] theorem eval_or (a b : Bool) : or.eval [a, b] = (a || b) := by
  cases a <;> cases b <;> rfl

@[simp] theorem eval_xor (a b : Bool) : xor.eval [a, b] = (a ^^ b) := by
  cases a <;> cases b <;> rfl

theorem identity_ne_not : identity ≠ not := by decide

end TruthTable
end Fiction
