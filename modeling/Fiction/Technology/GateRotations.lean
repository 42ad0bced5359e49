import Fiction.Library.TransitionSystem
import Fiction.Technology.FcnGateLibrary
import Mathlib.Data.List.Nodup
import Mathlib.Data.List.ProdSigma

/-!
# Rotations and merges of gates

The array of a gate has a row of `GateSizeX` cells for each of `GateSizeY` positions. The loops of
`transpose` and `merge` read `g[x][y]` for `x < GateSizeX` and `y < GateSizeY`. Here each access is
checked against the sizes of the arrays.
-/

namespace Fiction

/-- `std::array<std::array<T, GateSizeX>, GateSizeY>` -/
abbrev GateArray (CellType : Type) (gateSizeX gateSizeY : ℕ) :=
  Vector (Vector CellType gateSizeX) gateSizeY

namespace GateArray

variable {CellType : Type} {gateSizeX gateSizeY : ℕ}

section Accesses

/-- `g[i][j]`, undefined outside of the arrays. -/
def cell? (g : GateArray CellType gateSizeX gateSizeY) (i j : ℕ) : Option CellType :=
  g[i]?.bind fun row => row[j]?

/-- `g[i][j] = c` -/
def set? (g : GateArray CellType gateSizeX gateSizeY) (i j : ℕ) (c : CellType) :
    Option (GateArray CellType gateSizeX gateSizeY) :=
  if hi : i < gateSizeY then
    if hj : j < gateSizeX then some (g.set i (g[i].set j c)) else none
  else none

def positions (gateSizeX gateSizeY : ℕ) : List (ℕ × ℕ) :=
  List.range gateSizeX ×ˢ List.range gateSizeY

end Accesses

section Operations

variable [Inhabited CellType]

def emptyGate (CellType : Type) [Inhabited CellType] (gateSizeX gateSizeY : ℕ) :
    GateArray CellType gateSizeX gateSizeY :=
  Vector.replicate gateSizeY (Vector.replicate gateSizeX default)

def transposeCell (g trans : GateArray CellType gateSizeX gateSizeY) (p : ℕ × ℕ) :
    Option (GateArray CellType gateSizeX gateSizeY) := do
  let c ← g.cell? p.1 p.2
  trans.set? p.2 p.1 c

def transpose (g : GateArray CellType gateSizeX gateSizeY) :
    Option (GateArray CellType gateSizeX gateSizeY) :=
  (positions gateSizeX gateSizeY).foldlM (transposeCell g) (emptyGate CellType _ _)

def reverseColumns (g : GateArray CellType gateSizeX gateSizeY) :
    GateArray CellType gateSizeX gateSizeY := g.map Vector.reverse

def reverseRows (g : GateArray CellType gateSizeX gateSizeY) :
    GateArray CellType gateSizeX gateSizeY := Vector.reverse g

def rotate90 (g : GateArray CellType gateSizeX gateSizeY) :
    Option (GateArray CellType gateSizeX gateSizeY) := (transpose g).map reverseColumns

def rotate180 (g : GateArray CellType gateSizeX gateSizeY) :
    GateArray CellType gateSizeX gateSizeY := reverseColumns (reverseRows g)

def rotate270 (g : GateArray CellType gateSizeX gateSizeY) :
    Option (GateArray CellType gateSizeX gateSizeY) := transpose (reverseColumns g)

variable [DecidableEq CellType]

/-- `merged[x][y] = g[x][y]` unless this cell is empty. -/
def mergeGate (p : ℕ × ℕ) (merged g : GateArray CellType gateSizeX gateSizeY) :
    Option (GateArray CellType gateSizeX gateSizeY) := do
  let c ← g.cell? p.1 p.2
  if c = default then some merged else merged.set? p.1 p.2 c

def mergeCell (gates : List (GateArray CellType gateSizeX gateSizeY))
    (merged : GateArray CellType gateSizeX gateSizeY) (p : ℕ × ℕ) :
    Option (GateArray CellType gateSizeX gateSizeY) :=
  gates.foldlM (mergeGate p) merged

def merge (gates : List (GateArray CellType gateSizeX gateSizeY)) :
    Option (GateArray CellType gateSizeX gateSizeY) :=
  (positions gateSizeX gateSizeY).foldlM (mergeCell gates) (emptyGate CellType _ _)

/-- No position has a cell in both gates. -/
def CellsDisjoint (g g' : GateArray CellType gateSizeX gateSizeY) : Prop :=
  ∀ i j c c', g.cell? i j = some c → g'.cell? i j = some c' → c = default ∨ c' = default

/-- The laws of rotations and merges of gates of some size; no operation fails. -/
structure Lawful (CellType : Type) [Inhabited CellType] [DecidableEq CellType]
    (gateSizeX gateSizeY : ℕ) : Prop where
  rotate90 : ∀ g : GateArray CellType gateSizeX gateSizeY,
    (rotate90 g >>= rotate90 >>= rotate90 >>= rotate90) = some g
  rotate270 : ∀ g : GateArray CellType gateSizeX gateSizeY,
    (GateArray.rotate90 g >>= GateArray.rotate270) = some g ∧ (GateArray.rotate270 g).isSome
  rotate180 : ∀ g : GateArray CellType gateSizeX gateSizeY,
    (GateArray.rotate90 g >>= GateArray.rotate90) = some (rotate180 g)
  merge : ∀ gates : List (GateArray CellType gateSizeX gateSizeY),
    (merge gates).isSome
  merge_union : ∀ gates : List (GateArray CellType gateSizeX gateSizeY),
    gates.Pairwise CellsDisjoint → ∀ merged, GateArray.merge gates = some merged →
      ∀ i j c, c ≠ default → (merged.cell? i j = some c ↔ ∃ g ∈ gates, g.cell? i j = some c)
  merge_perm : ∀ gates gates' : List (GateArray CellType gateSizeX gateSizeY),
    gates.Pairwise CellsDisjoint → gates.Perm gates' →
      GateArray.merge gates' = GateArray.merge gates

end Operations

section Cells

variable {g g' : GateArray CellType gateSizeX gateSizeY} {i j : ℕ} {c : CellType}

theorem cell?_of_lt (g : GateArray CellType gateSizeX gateSizeY) (hi : i < gateSizeY)
    (hj : j < gateSizeX) : g.cell? i j = some g[i][j] := by
  rw [cell?, Vector.getElem?_eq_getElem hi, Option.bind_some, Vector.getElem?_eq_getElem hj]

theorem lt_of_cell?_eq_some (h : g.cell? i j = some c) : i < gateSizeY ∧ j < gateSizeX := by
  obtain ⟨row, hrow, hc⟩ := Option.bind_eq_some_iff.1 h
  exact ⟨(Vector.getElem?_eq_some_iff.1 hrow).1, (Vector.getElem?_eq_some_iff.1 hc).1⟩

theorem cell?_eq_none (h : ¬ (i < gateSizeY ∧ j < gateSizeX)) : g.cell? i j = none := by
  rw [Option.eq_none_iff_forall_ne_some]
  exact fun c hc => h (lt_of_cell?_eq_some hc)

theorem ext_cell? (h : ∀ i j, g.cell? i j = g'.cell? i j) : g = g' := by
  apply Vector.ext
  intro i hi
  apply Vector.ext
  intro j hj
  have hcell := h i j
  rwa [cell?_of_lt g hi hj, cell?_of_lt g' hi hj, Option.some_inj] at hcell

/-- The array `g'` differs from `g` in the cell `c` at `q` only. -/
structure Writes (g g' : GateArray CellType gateSizeX gateSizeY) (q : ℕ × ℕ) (c : CellType) :
    Prop where
  self : g'.cell? q.1 q.2 = some c
  other : ∀ q', q' ≠ q → g'.cell? q'.1 q'.2 = g.cell? q'.1 q'.2

theorem exists_set? (g : GateArray CellType gateSizeX gateSizeY) (c : CellType)
    (hi : i < gateSizeY) (hj : j < gateSizeX) :
    ∃ g', g.set? i j c = some g' ∧ Writes g g' (i, j) c := by
  refine ⟨g.set i (g[i].set j c), ?_, ?_, ?_⟩
  · rw [set?, dif_pos hi, dif_pos hj]
  · rw [cell?_of_lt _ hi hj, Vector.getElem_set_self, Vector.getElem_set_self]
  · rintro ⟨i', j'⟩ hne
    by_cases hi' : i = i'
    · subst hi'
      have hj' : j ≠ j' := fun h => hne (congrArg (Prod.mk i) h.symm)
      simp only [cell?, Vector.getElem?_set_self hi, Option.bind_some,
        Vector.getElem?_eq_getElem hi, Vector.getElem?_set_ne hj hj']
    · simp only [cell?, Vector.getElem?_set_ne hi hi']

theorem Writes.trans {g'' : GateArray CellType gateSizeX gateSizeY} {q : ℕ × ℕ} {c' : CellType}
    (h : Writes g g' q c) (h' : Writes g' g'' q c') : Writes g g'' q c' :=
  ⟨h'.self, fun q' hq' => (h'.other q' hq').trans (h.other q' hq')⟩

theorem Writes.refl {q : ℕ × ℕ} (h : g.cell? q.1 q.2 = some c) : Writes g g q c :=
  ⟨h, fun _ _ => rfl⟩

end Cells

section Loops

variable {ι : Type*} {step : GateArray CellType gateSizeX gateSizeY → ι →
    Option (GateArray CellType gateSizeX gateSizeY)}

/-- What `g'` has in common with `g` after some rounds that write one cell each. -/
structure Filled (place : ι → ℕ × ℕ) (value : ι → CellType)
    (g : GateArray CellType gateSizeX gateSizeY) (ps : List ι)
    (g' : GateArray CellType gateSizeX gateSizeY) : Prop where
  self : ∀ p ∈ ps, g'.cell? (place p).1 (place p).2 = some (value p)
  other : ∀ q ∉ ps.map place, g'.cell? q.1 q.2 = g.cell? q.1 q.2

theorem Filled.concat {place : ι → ℕ × ℕ} {value : ι → CellType}
    {g g₁ g₂ : GateArray CellType gateSizeX gateSizeY} {ps : List ι} {p : ι}
    (h : Filled place value g ps g₁) (hp : place p ∉ ps.map place)
    (hwrites : Writes g₁ g₂ (place p) (value p)) : Filled place value g (ps ++ [p]) g₂ where
  self p' hp' := by
    rcases List.mem_append.1 hp' with hp' | hp'
    · rw [hwrites.other _ fun heq => hp (heq ▸ List.mem_map_of_mem hp')]
      exact h.self p' hp'
    · rw [List.mem_singleton.1 hp']
      exact hwrites.self
  other q hq := by
    rw [List.map_append, List.mem_append, not_or] at hq
    rw [hwrites.other q fun heq => hq.2 (List.mem_singleton.2 heq), h.other q hq.1]

theorem exists_foldlM_filled (place : ι → ℕ × ℕ) (old value : ι → CellType) {ps : List ι}
    (hnodup : (ps.map place).Nodup)
    (hstep : ∀ p ∈ ps, ∀ g, g.cell? (place p).1 (place p).2 = some (old p) →
      ∃ g', step g p = some g' ∧ Writes g g' (place p) (value p))
    (g : GateArray CellType gateSizeX gateSizeY)
    (hg : ∀ p ∈ ps, g.cell? (place p).1 (place p).2 = some (old p)) :
    ∃ g', ps.foldlM step g = some g' ∧ Filled place value g ps g' := by
  apply exists_foldlM
  · rintro pre p suf g₁ rfl hfilled
    have hmem : p ∈ pre ++ p :: suf := List.mem_append_right pre List.mem_cons_self
    have hp : place p ∉ pre.map place := by
      rw [List.map_append, List.map_cons] at hnodup
      exact fun hmem => (List.disjoint_of_nodup_append hnodup) hmem List.mem_cons_self
    obtain ⟨g₂, hg₂, hwrites⟩ := hstep p hmem g₁ (by rw [hfilled.other _ hp, hg p hmem])
    exact ⟨g₂, hg₂, hfilled.concat hp hwrites⟩
  · exact ⟨fun p hp => absurd hp List.not_mem_nil, fun _ _ => rfl⟩

theorem mem_positions {p : ℕ × ℕ} :
    p ∈ positions gateSizeX gateSizeY ↔ p.1 < gateSizeX ∧ p.2 < gateSizeY :=
  List.mem_product.trans (and_congr List.mem_range List.mem_range)

theorem nodup_positions : (positions gateSizeX gateSizeY).Nodup :=
  List.nodup_range.product List.nodup_range

end Loops

section Rotations

variable {g : GateArray CellType gateSizeX gateSizeY} {i j : ℕ}

theorem ext_of_lt {g' : GateArray CellType gateSizeX gateSizeY}
    (h : ∀ i j, i < gateSizeY → j < gateSizeX → g.cell? i j = g'.cell? i j) : g = g' := by
  apply ext_cell?
  intro i j
  by_cases hlt : i < gateSizeY ∧ j < gateSizeX
  · exact h i j hlt.1 hlt.2
  · rw [cell?_eq_none hlt, cell?_eq_none hlt]

theorem cell?_reverseColumns (hj : j < gateSizeX) :
    (reverseColumns g).cell? i j = g.cell? i (gateSizeX - 1 - j) := by
  rw [cell?, reverseColumns, Vector.getElem?_map, cell?]
  cases g[i]? with
  | none => rfl
  | some row => exact Vector.getElem?_reverse hj

theorem cell?_reverseRows (hi : i < gateSizeY) :
    (reverseRows g).cell? i j = g.cell? (gateSizeY - 1 - i) j := by
  rw [cell?, reverseRows, Vector.getElem?_reverse hi, cell?]

theorem cell?_rotate180 (hi : i < gateSizeY) (hj : j < gateSizeX) :
    (rotate180 g).cell? i j = g.cell? (gateSizeY - 1 - i) (gateSizeX - 1 - j) := by
  rw [rotate180, cell?_reverseColumns hj, cell?_reverseRows hi]

theorem rotate180_rotate180 (g : GateArray CellType gateSizeX gateSizeY) :
    rotate180 (rotate180 g) = g := by
  apply ext_of_lt
  intro i j hi hj
  rw [cell?_rotate180 hi hj, cell?_rotate180 (by omega) (by omega)]
  congr 1 <;> omega

/-- The loops stay within the arrays: the gate is a square, or it has no cells. -/
def Fits (gateSizeX gateSizeY : ℕ) : Prop :=
  gateSizeX = gateSizeY ∨ gateSizeX = 0 ∨ gateSizeY = 0

theorem Fits.lt_iff (h : Fits gateSizeX gateSizeY) :
    i < gateSizeX ∧ j < gateSizeY ↔ i < gateSizeY ∧ j < gateSizeX := by
  unfold Fits at h
  omega

theorem exists_outside (h : ¬ Fits gateSizeX gateSizeY) :
    ∃ p ∈ positions gateSizeX gateSizeY, ¬ (p.1 < gateSizeY ∧ p.2 < gateSizeX) := by
  unfold Fits at h
  rcases lt_or_gt_of_ne fun heq => h (Or.inl heq) with hlt | hlt
  · exact ⟨(0, gateSizeX), mem_positions.2 (by omega), by omega⟩
  · exact ⟨(gateSizeY, 0), mem_positions.2 (by omega), by omega⟩

variable [Inhabited CellType]

theorem cell?_emptyGate (hi : i < gateSizeY) (hj : j < gateSizeX) :
    (emptyGate CellType gateSizeX gateSizeY).cell? i j = some default := by
  rw [cell?_of_lt _ hi hj, emptyGate, Vector.getElem_replicate, Vector.getElem_replicate]

theorem exists_transposeCell (h : Fits gateSizeX gateSizeY)
    (g trans : GateArray CellType gateSizeX gateSizeY) {p : ℕ × ℕ}
    (hp : p ∈ positions gateSizeX gateSizeY) :
    ∃ trans', transposeCell g trans p = some trans' ∧
      Writes trans trans' p.swap ((g.cell? p.1 p.2).getD default) := by
  have hlt := mem_positions.1 hp
  have hlt' := h.lt_iff.1 hlt
  rw [transposeCell, cell?_of_lt g hlt'.1 hlt'.2]
  exact exists_set? trans _ hlt.2 hlt.1

theorem exists_transpose (h : Fits gateSizeX gateSizeY)
    (g : GateArray CellType gateSizeX gateSizeY) :
    ∃ t, transpose g = some t ∧ ∀ i j, t.cell? i j = g.cell? j i := by
  obtain ⟨t, ht, hcells⟩ := exists_foldlM_filled Prod.swap (fun _ => default) _
    (nodup_positions.map Prod.swap_injective) (fun p hp g' _ => exists_transposeCell h g g' hp)
    (emptyGate CellType _ _) fun p hp =>
      cell?_emptyGate (mem_positions.1 hp).2 (mem_positions.1 hp).1
  refine ⟨t, ht, fun i j => ?_⟩
  by_cases hlt : i < gateSizeY ∧ j < gateSizeX
  · have hlt' := h.lt_iff.2 hlt
    have hcell : t.cell? i j = _ := hcells.self (j, i) (mem_positions.2 hlt.symm)
    rw [hcell, cell?_of_lt g hlt'.2 hlt'.1]
    rfl
  · rw [cell?_eq_none hlt, cell?_eq_none fun hlt' => hlt (h.lt_iff.1 hlt'.symm)]

theorem transpose_eq_none (h : ¬ Fits gateSizeX gateSizeY)
    (g : GateArray CellType gateSizeX gateSizeY) : transpose g = none := by
  obtain ⟨p, hp, hout⟩ := exists_outside h
  apply foldlM_eq_none hp
  intro trans
  rw [transposeCell, cell?_eq_none hout]
  rfl

theorem exists_rotate90 (h : Fits gateSizeX gateSizeY)
    (g : GateArray CellType gateSizeX gateSizeY) :
    ∃ r, rotate90 g = some r ∧
      ∀ i j, j < gateSizeX → r.cell? i j = g.cell? (gateSizeX - 1 - j) i := by
  obtain ⟨t, ht, hcells⟩ := exists_transpose h g
  refine ⟨reverseColumns t, ?_, fun i j hj => ?_⟩
  · rw [rotate90, ht]
    rfl
  · rw [cell?_reverseColumns hj, hcells]

theorem exists_rotate270 (h : Fits gateSizeX gateSizeY)
    (g : GateArray CellType gateSizeX gateSizeY) :
    ∃ r, rotate270 g = some r ∧
      ∀ i j, i < gateSizeX → r.cell? i j = g.cell? j (gateSizeX - 1 - i) := by
  obtain ⟨t, ht, hcells⟩ := exists_transpose h (reverseColumns g)
  refine ⟨t, ht, fun i j hi => ?_⟩
  rw [hcells, cell?_reverseColumns hi]

theorem rotate90_rotate90 (h : Fits gateSizeX gateSizeY)
    (g : GateArray CellType gateSizeX gateSizeY) :
    (rotate90 g >>= rotate90) = some (rotate180 g) := by
  obtain ⟨r, hr, hcells⟩ := exists_rotate90 h g
  obtain ⟨r', hr', hcells'⟩ := exists_rotate90 h r
  rw [hr]
  refine hr'.trans (congrArg some (ext_of_lt fun i j hi hj => ?_))
  have hlt := h.lt_iff.2 ⟨hi, hj⟩
  have hsize : gateSizeX - 1 - i = gateSizeY - 1 - i := by
    unfold Fits at h
    omega
  rw [hcells' i j hj, hcells _ i hlt.1, cell?_rotate180 hi hj, hsize]

theorem rotate90_rotate270 (h : Fits gateSizeX gateSizeY)
    (g : GateArray CellType gateSizeX gateSizeY) : (rotate90 g >>= rotate270) = some g := by
  obtain ⟨r, hr, hcells⟩ := exists_rotate90 h g
  obtain ⟨r', hr', hcells'⟩ := exists_rotate270 h r
  rw [hr]
  refine hr'.trans (congrArg some (ext_of_lt fun i j hi hj => ?_))
  have hlt := h.lt_iff.2 ⟨hi, hj⟩
  rw [hcells' i j hlt.1, hcells _ _ (by omega)]
  congr 1
  omega

end Rotations

section Merges

variable [Inhabited CellType] {gates gates' : List (GateArray CellType gateSizeX gateSizeY)}
  {i j : ℕ} {c : CellType}

def cellsAt (gates : List (GateArray CellType gateSizeX gateSizeY)) (i j : ℕ) : List CellType :=
  gates.map fun g => (g.cell? i j).getD default

theorem CellsDisjoint.symm {g g' : GateArray CellType gateSizeX gateSizeY}
    (h : CellsDisjoint g g') : CellsDisjoint g' g :=
  fun i j c c' hc hc' => (h i j c' c hc' hc).symm

theorem pairwise_cellsAt (h : gates.Pairwise CellsDisjoint) (hi : i < gateSizeY)
    (hj : j < gateSizeX) :
    (default :: cellsAt gates i j).Pairwise fun d d' => d = default ∨ d' = default := by
  refine List.pairwise_cons.2 ⟨fun _ _ => Or.inl rfl, ?_⟩
  rw [cellsAt, List.pairwise_map]
  apply h.imp
  intro g g' hdisjoint
  rw [cell?_of_lt g hi hj, cell?_of_lt g' hi hj]
  exact hdisjoint i j _ _ (cell?_of_lt g hi hj) (cell?_of_lt g' hi hj)

theorem mem_cellsAt (hi : i < gateSizeY) (hj : j < gateSizeX) :
    c ∈ cellsAt gates i j ↔ ∃ g ∈ gates, g.cell? i j = some c := by
  rw [cellsAt, List.mem_map]
  apply exists_congr
  intro g
  rw [cell?_of_lt g hi hj, Option.getD_some, Option.some_inj]

variable [DecidableEq CellType]

/-- The last of some cells that is not empty. -/
def overlay (c : CellType) (cs : List CellType) : CellType :=
  cs.foldl (fun c d => if d = default then c else d) c

theorem overlay_eq_iff {a : CellType} {cs : List CellType}
    (h : (a :: cs).Pairwise fun d d' => d = default ∨ d' = default) (hc : c ≠ default) :
    overlay a cs = c ↔ c ∈ a :: cs := by
  induction cs generalizing a with
  | nil => rw [List.mem_singleton, eq_comm, overlay, List.foldl_nil]
  | cons d cs ih =>
    rw [List.pairwise_cons] at h
    rw [overlay, List.foldl_cons]
    split_ifs with hd
    · have hpair : (a :: cs).Pairwise fun d d' => d = default ∨ d' = default :=
        List.pairwise_cons.2
          ⟨fun d' hd' => h.1 d' (List.mem_cons_of_mem d hd'), (List.pairwise_cons.1 h.2).2⟩
      have hcd : c ≠ d := hd ▸ hc
      rw [← overlay, ih hpair, List.mem_cons, List.mem_cons, List.mem_cons, or_iff_right hcd]
    · have hca : c ≠ a := by
        rintro rfl
        exact (h.1 d List.mem_cons_self).elim hc hd
      rw [← overlay, ih h.2, List.mem_cons (a := c) (b := a), or_iff_right hca]

theorem mergeCell_cons (g : GateArray CellType gateSizeX gateSizeY)
    (merged : GateArray CellType gateSizeX gateSizeY) (hi : i < gateSizeY) (hj : j < gateSizeX) :
    mergeCell (g :: gates) merged (i, j) =
      (if g[i][j] = default then some merged else merged.set? i j g[i][j]) >>= fun merged' =>
        mergeCell gates merged' (i, j) := by
  rw [mergeCell, List.foldlM_cons, mergeGate, cell?_of_lt g hi hj]
  rfl

theorem exists_mergeCell (gates : List (GateArray CellType gateSizeX gateSizeY))
    {merged : GateArray CellType gateSizeX gateSizeY} (hi : i < gateSizeY) (hj : j < gateSizeX)
    (hc : merged.cell? i j = some c) :
    ∃ merged', mergeCell gates merged (i, j) = some merged' ∧
      Writes merged merged' (i, j) (overlay c (cellsAt gates i j)) := by
  induction gates generalizing merged c with
  | nil => exact ⟨merged, rfl, Writes.refl hc⟩
  | cons g gates ih =>
    rw [mergeCell_cons g merged hi hj, cellsAt, List.map_cons, overlay, List.foldl_cons,
      cell?_of_lt g hi hj, Option.getD_some]
    by_cases hd : g[i][j] = default
    · rw [if_pos hd, if_pos hd]
      exact ih hc
    · rw [if_neg hd, if_neg hd]
      obtain ⟨merged₁, hmerged₁, hwrites₁⟩ := exists_set? merged g[i][j] hi hj
      obtain ⟨merged', hmerged', hwrites⟩ := ih hwrites₁.self
      rw [hmerged₁]
      exact ⟨merged', hmerged', hwrites₁.trans hwrites⟩

theorem exists_merge (h : Fits gateSizeX gateSizeY)
    (gates : List (GateArray CellType gateSizeX gateSizeY)) :
    ∃ merged, merge gates = some merged ∧ ∀ i j, i < gateSizeY → j < gateSizeX →
      merged.cell? i j = some (overlay default (cellsAt gates i j)) := by
  have hlt : ∀ p ∈ positions gateSizeX gateSizeY, p.1 < gateSizeY ∧ p.2 < gateSizeX :=
    fun p hp => h.lt_iff.1 (mem_positions.1 hp)
  obtain ⟨merged, hmerged, hcells⟩ := exists_foldlM_filled id (fun _ => default) _
    (nodup_positions.map Function.injective_id)
    (fun p hp g' hg' => exists_mergeCell gates (hlt p hp).1 (hlt p hp).2 hg')
    (emptyGate CellType gateSizeX gateSizeY) fun p hp => cell?_emptyGate (hlt p hp).1 (hlt p hp).2
  exact ⟨merged, hmerged, fun i j hi hj =>
    hcells.self (i, j) (mem_positions.2 (h.lt_iff.2 ⟨hi, hj⟩))⟩

theorem merge_nil : merge ([] : List (GateArray CellType gateSizeX gateSizeY)) =
    some (emptyGate CellType gateSizeX gateSizeY) := by
  rw [merge]
  induction positions gateSizeX gateSizeY with
  | nil => rfl
  | cons p ps ih => exact ih

theorem merge_eq_none (h : ¬ Fits gateSizeX gateSizeY) (hne : gates ≠ []) : merge gates = none := by
  obtain ⟨p, hp, hout⟩ := exists_outside h
  apply foldlM_eq_none hp
  intro merged
  cases gates with
  | nil => exact absurd rfl hne
  | cons g gates =>
    rw [mergeCell, List.foldlM_cons, mergeGate, cell?_eq_none hout]
    rfl

theorem cell?_merge_eq_some_iff (h : gates.Pairwise CellsDisjoint)
    {merged : GateArray CellType gateSizeX gateSizeY}
    (hmerged : ∀ i j, i < gateSizeY → j < gateSizeX →
      merged.cell? i j = some (overlay default (cellsAt gates i j))) (hc : c ≠ default) :
    merged.cell? i j = some c ↔ ∃ g ∈ gates, g.cell? i j = some c := by
  by_cases hlt : i < gateSizeY ∧ j < gateSizeX
  · rw [hmerged i j hlt.1 hlt.2, Option.some_inj,
      overlay_eq_iff (pairwise_cellsAt h hlt.1 hlt.2) hc, List.mem_cons, or_iff_right hc,
      mem_cellsAt hlt.1 hlt.2]
  · rw [cell?_eq_none hlt]
    constructor
    · rintro ⟨⟩
    · rintro ⟨g, -, hg⟩
      exact absurd (lt_of_cell?_eq_some hg) hlt

theorem eq_of_forall_ne_default {a b : CellType}
    (h : ∀ c, c ≠ default → (a = c ↔ b = c)) : a = b := by
  by_cases ha : a = default
  · by_contra hne
    exact hne ((h b fun hb => hne (ha.trans hb.symm)).2 rfl)
  · exact ((h a ha).1 rfl).symm

theorem merge_perm (hfits : Fits gateSizeX gateSizeY) (h : gates.Pairwise CellsDisjoint)
    (hperm : gates.Perm gates') : merge gates' = merge gates := by
  obtain ⟨merged, hmerged, hcells⟩ := exists_merge hfits gates
  obtain ⟨merged', hmerged', hcells'⟩ := exists_merge hfits gates'
  have h' : gates'.Pairwise CellsDisjoint := h.perm hperm CellsDisjoint.symm
  rw [hmerged, hmerged', Option.some_inj]
  apply ext_of_lt
  intro i j hi hj
  rw [hcells i j hi hj, hcells' i j hi hj, Option.some_inj]
  apply eq_of_forall_ne_default
  intro c hc
  rw [overlay_eq_iff (pairwise_cellsAt h hi hj) hc, overlay_eq_iff (pairwise_cellsAt h' hi hj) hc,
    List.mem_cons, List.mem_cons, mem_cellsAt hi hj, mem_cellsAt hi hj]
  simp only [hperm.mem_iff]

end Merges

section Laws

variable [Inhabited CellType] [DecidableEq CellType]

theorem isSome_merge_iff {gates : List (GateArray CellType gateSizeX gateSizeY)} :
    (merge gates).isSome ↔ Fits gateSizeX gateSizeY ∨ gates = [] := by
  by_cases h : Fits gateSizeX gateSizeY
  · obtain ⟨merged, hmerged, -⟩ := exists_merge h gates
    simp [hmerged, h]
  · by_cases hne : gates = []
    · subst hne
      simp [merge_nil]
    · simp [merge_eq_none h hne, h, hne]

/-- The operations are lawful if and only if the gates are squares or have no cells. -/
theorem lawful_iff :
    Lawful CellType gateSizeX gateSizeY ↔
      gateSizeX = gateSizeY ∨ gateSizeX = 0 ∨ gateSizeY = 0 := by
  constructor
  · intro h
    by_contra hfits
    have hrotate := h.rotate180 (emptyGate CellType gateSizeX gateSizeY)
    rw [rotate90, transpose_eq_none hfits] at hrotate
    cases hrotate
  · intro hfits
    have htwice : ∀ g : GateArray CellType gateSizeX gateSizeY,
        (rotate90 g >>= rotate90) = some (rotate180 g) := rotate90_rotate90 hfits
    constructor
    · intro g
      rw [htwice, Option.bind_eq_bind, Option.bind_some]
      exact (htwice (rotate180 g)).trans (congrArg some (rotate180_rotate180 g))
    · intro g
      obtain ⟨r, hr, -⟩ := exists_rotate270 hfits g
      exact ⟨rotate90_rotate270 hfits g, Option.isSome_of_eq_some hr⟩
    · exact htwice
    · exact fun gates => isSome_merge_iff.2 (Or.inl hfits)
    · intro gates hdisjoint merged hmerged i j c hc
      obtain ⟨merged', hmerged', hcells⟩ := exists_merge hfits gates
      cases hmerged.symm.trans hmerged'
      exact cell?_merge_eq_some_iff hdisjoint hcells hc
    · exact fun gates gates' hdisjoint hperm => merge_perm hfits hdisjoint hperm

/-- Gates with two columns and three rows can neither be rotated nor merged. -/
theorem twoColumns_not_lawful :
    rotate90 (emptyGate QcaCellType 2 3) = none ∧ merge [emptyGate QcaCellType 2 3] = none ∧
      ¬ Lawful QcaCellType 2 3 := by
  refine ⟨rfl, rfl, fun h => ?_⟩
  cases h.rotate180 (emptyGate QcaCellType 2 3)

end Laws

end GateArray

end Fiction
