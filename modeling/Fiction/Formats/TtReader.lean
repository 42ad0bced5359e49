import Fiction.Formats.FqcaLayout
import Mathlib.Data.List.Induction
import Mathlib.Tactic.NormNum
import Mathlib.Tactic.Ring

/-!
# Reading truth tables

Each line of the text is a truth table in hexadecimal form and a Boolean expression. The reader
keeps all words of the text and advances by two of them with each call of `next`. It compares its
position to the number of words minus one, an unsigned number.
-/

namespace Fiction

open Fqca (isSpace)

def isHexDigit (c : Char) : Bool :=
  48 ≤ c.toNat ∧ c.toNat ≤ 57 ∨ 65 ≤ c.toNat ∧ c.toNat ≤ 70 ∨ 97 ≤ c.toNat ∧ c.toNat ≤ 102

def hexDigitValue (c : Char) : ℕ :=
  if c.toNat ≤ 57 then c.toNat - 48 else if c.toNat ≤ 70 then c.toNat - 55 else c.toNat - 87

def hexValue (digits : List Char) : ℕ :=
  digits.foldl (fun value c => 16 * value + hexDigitValue c) 0

structure TruthTableType (TT : Type) where
  create : ℕ → TT
  numVars : TT → ℕ
  getBit : TT → ℕ → Bool
  createFromHexString : TT → List Char → TT

/-- `create_from_hex_string` sets the bits of a table to those of a number with as many digits. -/
structure TruthTableType.Decodes {TT : Type} (kitty : TruthTableType TT) : Prop where
  numVars_create : ∀ n, kitty.numVars (kitty.create n) = n
  numVars_createFromHexString : ∀ tt digits,
    kitty.numVars (kitty.createFromHexString tt digits) = kitty.numVars tt
  getBit_createFromHexString : ∀ tt digits, (∀ c ∈ digits, isHexDigit c = true) →
    4 * digits.length = 2 ^ kitty.numVars tt → ∀ i < 2 ^ kitty.numVars tt,
      kitty.getBit (kitty.createFromHexString tt digits) i = (hexValue digits).testBit i

structure TruthTableLine where
  k : ℕ
  table : List Char
  expression : List Char
  length_table : table.length = 2 ^ k
  isHexDigit_of_mem : ∀ c ∈ table, isHexDigit c = true
  expression_ne_nil : expression ≠ []
  not_isSpace_of_mem : ∀ c ∈ expression, isSpace c = false

namespace TruthTableLine

def prefixed (line : TruthTableLine) : List Char := '0' :: 'x' :: line.table

def text (line : TruthTableLine) : List Char := line.prefixed ++ ' ' :: line.expression

def stream (lines : List TruthTableLine) (terminated : Bool) : List Char :=
  if terminated then Lines.joinLines '\n' (lines.map text)
  else (Lines.joinLines '\n' (lines.map text)).dropLast

end TruthTableLine

structure TtReader where
  elements : List (List Char)
  pos : ℕ
  deriving DecidableEq

namespace TtReader

/-- An access behind the end of the vector is undefined, `substr` throws. -/
inductive Failure where
  | outOfBounds | outOfRange
  deriving DecidableEq

def ofStream (stream : List Char) : TtReader := ⟨Lines.words isSpace stream, 0⟩

def ofFile : Option (List Char) → TtReader
  | some stream => ofStream stream
  | none => ⟨[], 0⟩

/-- The difference `elements.size() - 1` of numbers with 64 bits. -/
def sizeMinusOne (r : TtReader) : ℕ :=
  if r.elements.length = 0 then 2 ^ 64 - 1 else r.elements.length - 1

section Next

variable {TT : Type} (kitty : TruthTableType TT)

/-- The number of variables is the logarithm of `table.size() << 2`, a number with 64 bits. -/
def parseTable (element : List Char) : Except Failure TT :=
  if element.length < 2 then .error .outOfRange
  else
    let table := element.drop 2
    let numVars := Nat.log2 (4 * table.length % 2 ^ 64)
    .ok (kitty.createFromHexString (kitty.create numVars) table)

def next (r : TtReader) : Except Failure (Option TT × TtReader) :=
  if r.sizeMinusOne ≤ r.pos then .ok (none, r)
  else match r.elements[r.pos]? with
    | none => .error .outOfBounds
    | some element => do
      let tt ← parseTable kitty element
      .ok (some tt, { r with pos := r.pos + 2 })

/-- A number of calls of `next`. -/
def nexts : ℕ → TtReader → Except Failure (List (Option TT) × TtReader)
  | 0, r => .ok ([], r)
  | m + 1, r => do
    let (tt, r) ← next kitty r
    let (tts, r) ← nexts m r
    .ok (tt :: tts, r)

def IsResult : Option TruthTableLine → Option TT → Prop
  | some line, some tt => kitty.numVars tt = line.k + 2 ∧
      ∀ i < 2 ^ (line.k + 2), kitty.getBit tt i = (hexValue line.table).testBit i
  | none, none => True
  | _, _ => False

/-- However often `next` is called, no call fails, and the calls return the tables in order. -/
def ReadsTables (lines : List TruthTableLine) (terminated : Bool) : Prop :=
  ∀ m, ∃ (tts : List (Option TT)) (r : TtReader),
    nexts kitty m (ofStream (TruthTableLine.stream lines terminated)) =
      .ok (tts, r) ∧
    tts.length = m ∧ ∀ (i : ℕ) tt, tts[i]? = some tt → IsResult kitty lines[i]? tt

end Next

section Words

open TruthTableLine

theorem isSpace_of_isHexDigit {c : Char} (h : isHexDigit c = true) : isSpace c = false := by
  have hne : c ≠ ' ' := by
    rintro rfl
    exact absurd h (by decide)
  simp only [isHexDigit, isSpace, hne, false_or, decide_eq_true_eq, decide_eq_false_iff_not] at h ⊢
  omega

theorem isSpace_prefixed (line : TruthTableLine) : ∀ c ∈ line.prefixed, isSpace c = false := by
  intro c hc
  rw [prefixed, List.mem_cons, List.mem_cons] at hc
  rcases hc with rfl | rfl | hc
  · decide
  · decide
  · exact isSpace_of_isHexDigit (line.isHexDigit_of_mem c hc)

theorem words_joinLines (lines : List TruthTableLine) :
    Lines.words isSpace (Lines.joinLines '\n' (lines.map text)) =
      lines.flatMap fun line => [line.prefixed, line.expression] := by
  induction lines with
  | nil => rfl
  | cons line lines ih =>
    have htext : Lines.joinLines '\n' ((line :: lines).map text) =
        line.prefixed ++ ' ' :: (line.expression ++ '\n' ::
          Lines.joinLines '\n' (lines.map text)) := by
      simp [Lines.joinLines, text]
    have hblank : isSpace ' ' = true := by decide
    have hnewline : isSpace '\n' = true := by decide
    have hne : line.prefixed ≠ [] := List.cons_ne_nil _ _
    rw [htext, Lines.words_append_cons hne (isSpace_prefixed line) hblank,
      Lines.words_append_cons line.expression_ne_nil line.not_isSpace_of_mem hnewline, ih]
    rfl

theorem words_stream (lines : List TruthTableLine) (terminated : Bool) :
    Lines.words isSpace (stream lines terminated) =
      lines.flatMap fun line => [line.prefixed, line.expression] := by
  rw [← words_joinLines, stream]
  cases terminated with
  | true => rfl
  | false =>
    cases lines using List.reverseRecOn with
    | nil => rfl
    | append_singleton lines line =>
      have htext : Lines.joinLines '\n' ((lines ++ [line]).map text) =
          (Lines.joinLines '\n' (lines.map text) ++ line.text) ++ ['\n'] := by
        simp [Lines.joinLines]
      rw [htext, if_neg Bool.false_ne_true, List.dropLast_concat, Lines.words_concat _ (by decide)]

theorem getElem?_flatMap_pair {α β : Type*} (f g : α → β) (l : List α) (i : ℕ) :
    (l.flatMap fun a => [f a, g a])[2 * i]? = l[i]?.map f := by
  induction l generalizing i with
  | nil => simp
  | cons a l ih =>
    cases i with
    | zero => rfl
    | succ i => exact ih i

end Words

section Runs

variable {TT : Type} {kitty : TruthTableType TT} {lines : List TruthTableLine}

def atLine (lines : List TruthTableLine) (i : ℕ) : TtReader :=
  ⟨lines.flatMap fun line => [line.prefixed, line.expression], 2 * i⟩

theorem length_elements_atLine (i : ℕ) : (atLine lines i).elements.length = 2 * lines.length := by
  simp [atLine, List.length_flatMap, Nat.mul_comm, List.map_const']

theorem ofStream_stream (terminated : Bool) :
    ofStream (TruthTableLine.stream lines terminated) = atLine lines 0 :=
  congrArg (TtReader.mk · 0) (words_stream lines terminated)

theorem sizeMinusOne_atLine (hne : lines ≠ []) (i : ℕ) :
    (atLine lines i).sizeMinusOne = 2 * lines.length - 1 := by
  have hpos := List.length_pos_iff.2 hne
  rw [sizeMinusOne, length_elements_atLine, if_neg (by omega)]

theorem log2_digits {k : ℕ} (hk : k < 62) : Nat.log2 (4 * 2 ^ k % 2 ^ 64) = k + 2 := by
  have hlt : 2 ^ k < 2 ^ 62 := Nat.pow_lt_pow_right (by norm_num) hk
  have h : 4 * 2 ^ k = 2 ^ (k + 2) := by ring
  rw [Nat.mod_eq_of_lt (by omega), h, Nat.log2_two_pow]

theorem log2_manyDigits {k : ℕ} (hk : 62 ≤ k) : Nat.log2 (4 * 2 ^ k % 2 ^ 64) = 0 := by
  obtain ⟨j, rfl⟩ := Nat.exists_eq_add_of_le hk
  have h : 4 * 2 ^ (62 + j) = 2 ^ 64 * 2 ^ j := by ring
  rw [h, Nat.mul_mod_right, Nat.log2_zero]

def lineTable (kitty : TruthTableType TT) (line : TruthTableLine) : TT :=
  kitty.createFromHexString (kitty.create (Nat.log2 (4 * 2 ^ line.k % 2 ^ 64))) line.table

theorem parseTable_prefixed (line : TruthTableLine) :
    parseTable kitty line.prefixed = .ok (lineTable kitty line) := by
  rw [lineTable, ← line.length_table]
  exact if_neg (by simp [TruthTableLine.prefixed])

theorem isResult_lineTable (hk : kitty.Decodes) {line : TruthTableLine} (hline : line.k < 62) :
    IsResult kitty (some line) (some (lineTable kitty line)) := by
  rw [lineTable, log2_digits hline]
  have hvars := hk.numVars_create (line.k + 2)
  constructor
  · rw [hk.numVars_createFromHexString, hvars]
  · have hbits := hk.getBit_createFromHexString (kitty.create (line.k + 2)) line.table
      line.isHexDigit_of_mem
    rw [hvars, line.length_table] at hbits
    exact hbits (by ring)

theorem not_isResult_lineTable (hk : kitty.Decodes) {line : TruthTableLine} (hline : 62 ≤ line.k) :
    ¬ IsResult kitty (some line) (some (lineTable kitty line)) := by
  rintro ⟨hvars, -⟩
  rw [lineTable, log2_manyDigits hline, hk.numVars_createFromHexString, hk.numVars_create] at hvars
  omega

theorem next_of_lt {i : ℕ} (h : i < lines.length) :
    next kitty (atLine lines i) = .ok (some (lineTable kitty lines[i]), atLine lines (i + 1)) := by
  have hpos : ¬ (atLine lines i).sizeMinusOne ≤ (atLine lines i).pos := by
    have hle : ¬ 2 * lines.length - 1 ≤ 2 * i := by omega
    rwa [sizeMinusOne_atLine (List.ne_nil_of_length_pos (by omega))]
  have helement : (atLine lines i).elements[(atLine lines i).pos]? = some lines[i].prefixed := by
    rw [atLine, getElem?_flatMap_pair, List.getElem?_eq_getElem h]
    rfl
  rw [next, if_neg hpos, helement]
  simp only [parseTable_prefixed]
  rfl

theorem next_length (hne : lines ≠ []) :
    next kitty (atLine lines lines.length) = .ok (none, atLine lines lines.length) := by
  rw [next, if_pos]
  rw [sizeMinusOne_atLine hne]
  exact Nat.sub_le _ 1

theorem next_nil : next kitty (atLine [] 0) = .error .outOfBounds := rfl

theorem exists_nexts (kitty : TruthTableType TT) (hne : lines ≠ []) (m : ℕ) {i : ℕ}
    (hi : i ≤ lines.length) :
    ∃ r, nexts kitty m (atLine lines i) =
      .ok ((List.range m).map fun j => lines[i + j]?.map (lineTable kitty), r) := by
  induction m generalizing i with
  | zero => exact ⟨_, rfl⟩
  | succ m ih =>
    rcases hi.lt_or_eq with hi | rfl
    · obtain ⟨r, hrun⟩ := ih (i := i + 1) hi
      use r
      rw [nexts, next_of_lt hi]
      simp only [bind, Except.bind, hrun, List.range_succ_eq_map, List.map_cons, List.map_map,
        Nat.add_zero, List.getElem?_eq_getElem hi, Option.map_some, Function.comp_def,
        Nat.succ_add_eq_add_succ]
    · obtain ⟨r, hrun⟩ := ih le_rfl
      have hend : ∀ j, lines[lines.length + j]? = none := fun j =>
        List.getElem?_eq_none (Nat.le_add_right _ j)
      use r
      rw [nexts, next_length hne]
      simp only [bind, Except.bind, hrun, List.range_succ_eq_map, List.map_cons, List.map_map, hend,
        Option.map_none, Function.comp_def]

/-- The calls return the tables in order if and only if there is a line, and no table has so many
digits that four times their number is none of 64 bits. -/
theorem readsTables_iff (hk : kitty.Decodes) (terminated : Bool) :
    ReadsTables kitty lines terminated ↔ lines ≠ [] ∧ ∀ line ∈ lines, line.k < 62 := by
  rw [ReadsTables, ofStream_stream]
  constructor
  · intro h
    have hne : lines ≠ [] := by
      rintro rfl
      obtain ⟨tts, r, hrun, -⟩ := h 1
      rw [nexts, next_nil] at hrun
      cases hrun
    refine ⟨hne, fun line hline => ?_⟩
    by_contra hdigits
    obtain ⟨i, hi, rfl⟩ := List.mem_iff_getElem.1 hline
    obtain ⟨tts, r, hrun, -, hresults⟩ := h (i + 1)
    obtain ⟨r', hrun'⟩ := exists_nexts kitty hne (i + 1) (Nat.zero_le lines.length)
    rw [hrun] at hrun'
    cases hrun'
    have hresult := hresults i (some (lineTable kitty lines[i])) (by simp [hi])
    rw [List.getElem?_eq_getElem hi] at hresult
    exact not_isResult_lineTable hk (not_lt.1 hdigits) hresult
  · rintro ⟨hne, hlines⟩ m
    obtain ⟨r, hrun⟩ := exists_nexts kitty hne m (Nat.zero_le lines.length)
    refine ⟨_, r, hrun, by simp, fun i tt htt => ?_⟩
    rw [List.getElem?_map, Option.map_eq_some_iff] at htt
    obtain ⟨j, hj, rfl⟩ := htt
    obtain ⟨-, rfl⟩ := List.getElem?_eq_some_iff.1 hj
    rw [List.getElem_range, Nat.zero_add]
    cases hline : lines[i]? with
    | none => trivial
    | some line => exact isResult_lineTable hk (hlines line (List.mem_of_getElem? hline))

end Runs

section HexTables

def hexTables : TruthTableType (ℕ × ℕ) where
  create n := (n, 0)
  numVars := Prod.fst
  getBit tt i := tt.2.testBit i
  createFromHexString tt digits := (tt.1, hexValue digits)

theorem decodes_hexTables : hexTables.Decodes where
  numVars_create _ := rfl
  numVars_createFromHexString _ _ := rfl
  getBit_createFromHexString _ _ _ _ _ _ := rfl

def variableLine : TruthTableLine where
  k := 0
  table := ['c']
  expression := ['b']
  length_table := rfl
  isHexDigit_of_mem := List.forall_mem_singleton.2 rfl
  expression_ne_nil := List.cons_ne_nil _ _
  not_isSpace_of_mem := List.forall_mem_singleton.2 rfl

theorem readsTables_variableLine :
    hexTables.Decodes ∧ ReadsTables hexTables [variableLine, variableLine] false :=
  ⟨decodes_hexTables, (readsTables_iff decodes_hexTables false).2
    ⟨List.cons_ne_nil _ _, by decide⟩⟩

/-- The first call reads the first word of an empty text, or of a file that is not open. -/
theorem emptyStream_not_readsTables : hexTables.Decodes ∧
    next hexTables (ofStream (TruthTableLine.stream [] true)) = .error .outOfBounds ∧
      next hexTables (ofFile none) = .error .outOfBounds ∧ ¬ ReadsTables hexTables [] true := by
  refine ⟨decodes_hexTables, rfl, rfl, fun h => ?_⟩
  obtain ⟨tts, r, hrun, -⟩ := h 1
  cases hrun

end HexTables

end TtReader

end Fiction
