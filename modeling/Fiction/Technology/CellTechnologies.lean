import Mathlib.Tactic.Common

/-!
# Cell technologies

The technologies differ in their cell types and modes. All of them have the empty type and marks for
inputs and outputs. The cells of in-plane nanomagnet logic and of silicon dangling bonds do not have
modes, so that their only mode is the normal one.
-/

namespace Fiction

/-- The cell types that a layout treats in a special way. -/
class Technology (τ : Type) where
  empty : τ
  input : τ
  output : τ
  input_ne_empty : input ≠ empty
  output_ne_empty : output ≠ empty
  input_ne_output : input ≠ output

namespace Technology

variable {τ : Type} [DecidableEq τ] [Technology τ]

def isEmptyCell (c : τ) : Bool := c = empty

def isInputCell (c : τ) : Bool := c = input

def isOutputCell (c : τ) : Bool := c = output

@[simp] theorem isEmptyCell_iff {c : τ} : isEmptyCell c = true ↔ c = empty := decide_eq_true_iff

@[simp] theorem isInputCell_iff {c : τ} : isInputCell c = true ↔ c = input := decide_eq_true_iff

@[simp] theorem isOutputCell_iff {c : τ} : isOutputCell c = true ↔ c = output :=
  decide_eq_true_iff

end Technology

inductive QcaCellType where
  | empty | normal | input | output | const0 | const1
  deriving DecidableEq, Repr

inductive QcaCellMode where
  | normal | rotated | vertical | crossover
  deriving DecidableEq, Repr

instance : Technology QcaCellType where
  empty := .empty
  input := .input
  output := .output
  input_ne_empty := nofun
  output_ne_empty := nofun
  input_ne_output := nofun

instance : Inhabited QcaCellMode := ⟨.normal⟩

inductive InmlCellType where
  | empty | normal | input | output | slantedEdgeUpMagnet | slantedEdgeDownMagnet | inverterMagnet
  | crosswireMagnet | fanoutCouplerMagnet
  deriving DecidableEq, Repr

instance : Technology InmlCellType where
  empty := .empty
  input := .input
  output := .output
  input_ne_empty := nofun
  output_ne_empty := nofun
  input_ne_output := nofun

/-- The types of silicon dangling bonds. -/
inductive SidbCellType where
  | empty | normal | input | output
  deriving DecidableEq, Repr

instance : Technology SidbCellType where
  empty := .empty
  input := .input
  output := .output
  input_ne_empty := nofun
  output_ne_empty := nofun
  input_ne_output := nofun

end Fiction
