import Fiction.PhysicalDesign.Minimality
import Fiction.PhysicalDesign.PathDelays

/-!
# Global synchronization

In general, the length constraints equate what they count for the paths to an output: the clock
number of an input and all tiles to which edges are assigned. They are left out for linear schemes
with border I/Os, where the ranks between the first and the last tile of a path determine how many
tiles it traverses: paths that enter in the first column or row enter in the first clock cycle, but
2DDWave clocking also admits inputs at other borders, several cycles in.
-/

namespace Fiction.Exact

variable {S : SpecificationNetwork} {p : ExactParams} {ar : AspectRatio} {v : Assignment}
  {ed : Edge} {t u : Tile} {n : ℕ} {path path' : List Edge}

section Definitions

variable (S p ar v)

/-- The clock cycle in which information passes the tile of `n` on its way from rank zero. -/
def clockCycle (n : ℕ) : ℕ := flowRank p (tileOf ar v n) / (p.layout ar).numClocks

/-- The clock cycle in which a path enters the layout. -/
def entryCycle (n : ℕ) (path : List Edge) : ℕ :=
  (placedOn S p n path).head?.elim 0 (clockCycle p ar v)

def EntersInOneCycle : Prop :=
  ∀ po ∈ S.ntk.foreachPo, ∀ path ∈ S.allIncomingEdgePaths po, ∀ path' ∈ S.allIncomingEdgePaths po,
    S.ntk.isPi (pathStart po path) = true → S.ntk.isPi (pathStart po path') = true →
      entryCycle S p ar v po path = entryCycle S p ar v po path'
  deriving Decidable

def firstRank (n : ℕ) (path : List Edge) : ℤ :=
  (placedOn S p n path).head?.elim 0 fun m => flowRank p (tileOf ar v m)

/-- The rank after the last tile of a path. -/
def endRank (n : ℕ) (path : List Edge) : ℤ :=
  (placedOn S p n path).getLast?.elim 0 fun m => flowRank p (tileOf ar v m) + 1

/-- How many more tiles than ranks a path traverses. -/
def detour (n : ℕ) (path : List Edge) : ℤ :=
  ((placedOn S p n path).length + numWires S p ar v path : ℕ) -
    (endRank S p ar v n path - firstRank S p ar v n path)

/-- The edges of a path that the length constraints count. Outputs without tiles are left out. -/
def countedEdges (path : List Edge) : List Edge := if p.ioPins then path else path.dropLast

/-- The tiles to which an edge is assigned although it is not routed through them. -/
def strayTiles (ed : Edge) : ℤ :=
  tileIteCounters p (freshCheckPoint ar) v ed - numSegments S p ar v ed

def countedClock (ed : Edge) : ℤ :=
  if p.ioPins && S.ntk.isPi ed.source || !p.ioPins && S.hasIncomingPrimaryInput ed.source then
    nclToReal p (freshCheckPoint ar) v ed.source else 0

/-- What the length constraints count for a path beyond its delay: stray tiles, clock numbers other
than that of the entry, and nodes that have no tile or are not counted. -/
def miscount (n : ℕ) (path : List Edge) : ℤ :=
  ((countedEdges p path).map (strayTiles S p ar v)).sum +
    (((countedEdges p path).map (countedClock S p ar v)).sum - entryClock S p ar v n path) +
      ((countedEdges p path).length - (placedOn S p n path).length)

/-- By how much the delay of a path misses what the constraints fix for its output. -/
def offset (n : ℕ) (path : List Edge) : ℤ :=
  if p.borderIo && p.scheme.isLinearScheme then
    (p.layout ar).numClocks * entryCycle S p ar v n path - detour S p ar v n path
  else miscount S p ar v n path

/-- Any two paths from primary inputs to the same primary output have the same offset. -/
def InStep : Prop :=
  ∀ po ∈ S.ntk.foreachPo, ∀ path ∈ S.allIncomingEdgePaths po, ∀ path' ∈ S.allIncomingEdgePaths po,
    S.ntk.isPi (pathStart po path) = true → S.ntk.isPi (pathStart po path') = true →
      offset S p ar v po path = offset S p ar v po path'
  deriving Decidable

/-- What the constraints rest on: no gate reads one without a tile, a linear scheme numbers its
ranks, and where wires are counted, inputs have tiles, no gate reads a node twice and no edge is
passed on to two tiles. -/
structure LengthsFit (S : SpecificationNetwork) (p : ExactParams) : Prop where
  placed : ∀ n ∈ S.topo.gates, ∀ c ∈ S.foreachFanin n, c ∈ S.topo.gates →
    skipConstOrIoNode S p c = false
  ranked : p.scheme.Ranked p.arrangement
  ioPins : (p.borderIo && p.scheme.isLinearScheme) = false → p.ioPins = true
  distinctFanins : (p.borderIo && p.scheme.isLinearScheme) = false → DistinctFanins S
  crossings : p.scheme.isLinearScheme = false → p.crossings = false

end Definitions

section Paths

theorem two_le_of_mem_gates (hn : n ∈ S.topo.gates) : 2 ≤ n := by
  have hs := S.topo.sorted.not_known n hn
  simp only [TechnologyNetwork.IsSource, not_or] at hs
  omega

theorem two_le_of_isConstant_eq_false (h : TechnologyNetwork.isConstant n = false) : 2 ≤ n := by
  have := of_decide_eq_false h
  omega

theorem two_le_of_mem_pathNodes (hpath : path ∈ S.allIncomingEdgePaths n) (hn : 2 ≤ n) :
    ∀ m ∈ pathNodes n path, 2 ≤ m := by
  refine SpecificationNetwork.path_induction
    (P := fun n path => 2 ≤ n → ∀ m ∈ pathNodes n path, 2 ≤ m)
    (fun n _ hn m hm => ?_) (fun n _ c _ hconst path _ ih hn m hm => ?_) hpath hn
  · rwa [List.mem_singleton.mp hm]
  · rw [pathNodes_concat] at hm
    rcases List.mem_append.mp hm with hm | hm
    · exact ih (two_le_of_isConstant_eq_false hconst) m hm
    · rwa [List.mem_singleton.mp hm]

theorem mem_foreachNode_of_mem_gates (hn : n ∈ S.topo.gates) : n ∈ S.foreachNode :=
  SpecificationNetwork.mem_foreachNode.mpr (.inr hn)

theorem mem_placedEdges_of_skip {c : ℕ} (hn : n ∈ S.topo.gates) (hc : c ∈ S.foreachFanin n)
    (hskip : skipConstOrIoNode S p n = false) (hskipc : skipConstOrIoNode S p c = false) :
    (⟨c, n⟩ : Edge) ∈ placedEdges S p :=
  mem_placedEdges_of_mem_foreachFanin
    (mem_placedNodes.mpr ⟨mem_foreachNode_of_mem_gates hn, hskip⟩) hc hskipc

theorem mem_placedEdges_of_mem_path (hio : p.ioPins = true)
    (hpath : path ∈ S.allIncomingEdgePaths n) : ∀ ed ∈ path, ed ∈ placedEdges S p := by
  have hskip : ∀ m, 2 ≤ m → skipConstOrIoNode S p m = false := fun m hm =>
    skipConstOrIoNode_eq_false hio hm
  refine SpecificationNetwork.path_induction
    (P := fun _ path => ∀ ed ∈ path, ed ∈ placedEdges S p)
    (fun _ _ ed hed => absurd hed List.not_mem_nil)
    (fun n hn c hc hconst path _ ih ed hed => ?_) hpath
  rcases List.mem_append.mp hed with hed | hed
  · exact ih ed hed
  · rw [List.mem_singleton.mp hed]
    exact mem_placedEdges_of_skip hn hc (hskip n (two_le_of_mem_gates hn))
      (hskip c (two_le_of_isConstant_eq_false hconst))

theorem placedOn_of_ioPins (hio : p.ioPins = true) (hn : 2 ≤ n)
    (hpath : path ∈ S.allIncomingEdgePaths n) : placedOn S p n path = pathNodes n path := by
  apply List.filter_eq_self.mpr
  intro m hm
  rw [Bool.not_eq_true']
  exact skipConstOrIoNode_eq_false hio (two_le_of_mem_pathNodes hpath hn m hm)

theorem head?_pathNodes (n : ℕ) (path : List Edge) :
    (pathNodes n path).head? = some (pathStart n path) := by
  cases path <;> rfl

end Paths

section Ranks

variable (hp : NamedScheme.Predefined p.arrangement p.scheme) (hl : p.scheme.isLinearScheme = true)

variable (S ar v) in
include hp hl in
theorem entryClock_add (n : ℕ) (path : List Edge) :
    (entryClock S p ar v n path : ℤ) + (p.layout ar).numClocks * entryCycle S p ar v n path =
      firstRank S p ar v n path := by
  rw [entryClock, entryCycle, firstRank]
  cases (placedOn S p n path).head? with
  | none => simp
  | some m =>
    have hclk : (p.layout ar).getClockNumber (tileOf ar v m) =
        flowRank p (tileOf ar v m) % (p.layout ar).numClocks := hp.clockNumber_eq hl _
    simp only [Option.elim_some, hclk, clockCycle]
    exact_mod_cast Nat.mod_add_div _ _

variable (S ar v) in
include hp hl in
theorem delay_add_eq (n : ℕ) (path : List Edge) :
    (delay S p ar v n path : ℤ) + ((p.layout ar).numClocks * entryCycle S p ar v n path -
      detour S p ar v n path) = endRank S p ar v n path := by
  have hentry := entryClock_add S ar v hp hl n path
  rw [delay, detour]
  push_cast
  omega

theorem skip_of_mem_gates (hn : n ∈ S.topo.gates) (hskip : skipConstOrIoNode S p n = true) :
    p.ioPins = false ∧ n ∈ S.ntk.foreachPo := by
  have hconst : TechnologyNetwork.isConstant n = false :=
    decide_eq_false (by have := two_le_of_mem_gates hn; omega)
  rw [skipConstOrIoNode, hconst, isPi_eq_false_of_mem_gates hn, Bool.false_or, Bool.false_or,
    Bool.and_eq_true, Bool.not_eq_true'] at hskip
  exact ⟨hskip.2, List.contains_iff_mem.mp hskip.1⟩

variable (hbuf : p.ioPins = false → ∀ po ∈ S.ntk.foreachPo, ∃ c, S.foreachFanin po = [c])
include hbuf

theorem getLast?_placedOn (hpath : path ∈ S.allIncomingEdgePaths n)
    (hpath' : path' ∈ S.allIncomingEdgePaths n) :
    (placedOn S p n path).getLast? = (placedOn S p n path').getLast? := by
  refine SpecificationNetwork.path_induction
    (P := fun n path => ∀ path' ∈ S.allIncomingEdgePaths n,
      (placedOn S p n path).getLast? = (placedOn S p n path').getLast?)
    (fun n hn path' hpath' => ?_) (fun n hn c hc _ path _ ih path' hpath' => ?_) hpath path' hpath'
  · rw [SpecificationNetwork.allIncomingEdgePaths_of_notMem hn, List.mem_singleton] at hpath'
    rw [hpath']
  · obtain ⟨c', hc', -, q, hq, rfl⟩ :=
      (SpecificationNetwork.mem_allIncomingEdgePaths hn).mp hpath'
    rw [placedOn_concat, placedOn_concat]
    cases hskip : skipConstOrIoNode S p n with
    | false => simp
    | true =>
      obtain ⟨hio, hpo⟩ := skip_of_mem_gates hn hskip
      obtain ⟨o, ho⟩ := hbuf hio n hpo
      rw [ho, List.mem_singleton] at hc hc'
      subst hc hc'
      simp only [if_true, List.append_nil]
      exact ih q hq

include hp hl in
theorem delay_eq_iff_of_linear (hpath : path ∈ S.allIncomingEdgePaths n)
    (hpath' : path' ∈ S.allIncomingEdgePaths n) :
    delay S p ar v n path = delay S p ar v n path' ↔
      (p.layout ar).numClocks * entryCycle S p ar v n path - detour S p ar v n path =
        (p.layout ar).numClocks * entryCycle S p ar v n path' - detour S p ar v n path' := by
  have h₁ := delay_add_eq S ar v hp hl n path
  have h₂ := delay_add_eq S ar v hp hl n path'
  have hend : endRank S p ar v n path = endRank S p ar v n path' := by
    rw [endRank, endRank, getLast?_placedOn hbuf hpath hpath']
  omega

end Ranks

section Detours

variable (h : CoreModel S p ar v) (hS : (p.layout ar).Small)
  (hp : NamedScheme.Predefined p.arrangement p.scheme) (hl : p.scheme.isLinearScheme = true)
  (hfit : LengthsFit S p)
include h hS hp hl hfit

omit h in
theorem flowRank_getLast (segments : List Tile) (ht : t ∈ allTiles ar)
    (hc : (t :: segments).IsChain (Connected p ar v)) :
    flowRank p ((t :: segments).getLast (List.cons_ne_nil _ _)) =
      flowRank p t + segments.length := by
  induction segments generalizing t with
  | nil => rfl
  | cons u segments ih =>
    obtain ⟨htu, hrest⟩ := List.isChain_cons_cons.mp hc
    have hu := mem_allTiles_of_mem_outgoingClockedZones ht htu.1
    rw [List.getLast_cons (List.cons_ne_nil _ _), ih hu hrest,
      flowRank_eq_succ hp hS hl hfit.ranked ht htu.1, List.length_cons]
    omega

theorem CoreModel.flowRank_target (hed : ed ∈ placedEdges S p) :
    flowRank p (tileOf ar v ed.target) =
      flowRank p (tileOf ar v ed.source) + ((wires p ar v ed).length + 1) := by
  have hr := hp.regular_of_isLinearScheme hl
  have hh : ∀ t ∈ allTiles ar, ∀ u ∈ allTiles ar, Connected p ar v t u →
      flowRank p t < flowRank p u := by
    intro t ht u _ hc
    rw [flowRank_eq_succ hp hS hl hfit.ranked ht hc.1]
    exact Nat.lt_succ_self _
  have hsrc := (h.tileOf_spec (mem_placedNodes_of_mem_placedEdges hed).1).1
  have hchain := (h.routed_wires hh hed).connected
  have hlast := h.connected_target hh hed hS hr (hp.proceeds hr)
  have hmem : (tileOf ar v ed.source :: wires p ar v ed).getLast (List.cons_ne_nil _ _) ∈
      allTiles ar := by
    rcases List.mem_cons.mp (List.getLast_mem (List.cons_ne_nil (tileOf ar v ed.source)
      (wires p ar v ed))) with heq | hmem
    · rw [heq]
      exact hsrc
    · exact ((h.routed_wires hh hed).mem _ hmem).1
  rw [flowRank_eq_succ hp hS hl hfit.ranked hmem hlast.1,
    flowRank_getLast hS hp hl hfit _ hsrc hchain]
  omega

/-- Paths traverse one tile for each rank. The induction follows the path. -/
theorem CoreModel.detour_eq_zero (hpath : path ∈ S.allIncomingEdgePaths n) :
    detour S p ar v n path = 0 := by
  refine SpecificationNetwork.path_induction (P := fun n path => detour S p ar v n path = 0)
    (fun n _ => ?_) (fun n hn c hc _ path hpath ih => ?_) hpath
  · rw [detour, endRank, firstRank, placedOn_nil]
    cases skipConstOrIoNode S p n <;> simp [numWires]
  · cases hskip : skipConstOrIoNode S p n with
    | true =>
      have hedge : skipConstOrIoEdge S p ⟨c, n⟩ = true := by
        rw [skipConstOrIoEdge, hskip, Bool.or_true]
      have hon : placedOn S p n (path ++ [⟨c, n⟩]) = placedOn S p c path := by
        rw [placedOn_concat, hskip, if_pos rfl, List.append_nil]
      rw [← ih, detour, endRank, firstRank, hon, numWires_concat, numSegments_of_skip hedge]
      rfl
    | false =>
      have hon : placedOn S p n (path ++ [⟨c, n⟩]) = placedOn S p c path ++ [n] := by
        rw [placedOn_concat, hskip, if_neg Bool.false_ne_true]
      cases hskipc : skipConstOrIoNode S p c with
      | true =>
        -- the path starts at an input without a tile
        have hnil : path = [] := by
          by_contra hne
          have hcg := (ne_nil_iff_mem_gates hpath).mp hne
          rw [hfit.placed n hn c hc hcg] at hskipc
          cases hskipc
        have hedge : skipConstOrIoEdge S p ⟨c, n⟩ = true := by
          rw [skipConstOrIoEdge, hskipc, Bool.true_or]
        subst hnil
        rw [placedOn_nil, hskipc, if_pos rfl] at hon
        rw [detour, endRank, firstRank, hon, numWires_concat, numSegments_of_skip hedge]
        simp [numWires]
      | false =>
        have hrank := h.flowRank_target hS hp hl hfit (mem_placedEdges_of_skip hn hc hskip hskipc)
        have hedge : skipConstOrIoEdge S p ⟨c, n⟩ = false := by
          rw [skipConstOrIoEdge, hskip, hskipc, Bool.or_false]
        have hlast : (placedOn S p c path).getLast? = some c := by
          rw [placedOn, pathNodes, List.filter_append, List.filter_singleton, hskipc]
          simp
        have hhead : (placedOn S p c path ++ [n]).head? = (placedOn S p c path).head? :=
          List.head?_append_of_ne_nil _ (placedOn_ne_nil hskipc)
        rw [detour, endRank, firstRank, hlast] at ih
        rw [detour, endRank, firstRank, hon, hhead, numWires_concat, numSegments_of_placed hedge,
          List.getLast?_concat, List.length_append, List.length_singleton]
        simp only [Option.elim_some] at ih ⊢
        rw [hrank]
        push_cast at ih ⊢
        omega

end Detours

section Border

variable (h : CoreModel S p ar v)
  (hb : p.borderIo = true)
  (hc : p.isClockingScheme .columnar = true ∨ p.isClockingScheme .row = true)
include h hb hc

omit hb in
theorem CoreModel.clockCycle_eq_zero (hn : n ∈ placedNodes S p)
    (hin : assignInputBorder p (freshCheckPoint ar) v n) : clockCycle p ar v n = 0 := by
  obtain ⟨ht, hv⟩ := h.tileOf_spec hn
  have hzero : flowRank p (tileOf ar v n) = 0 := by
    by_contra hne
    rw [flowRank, NamedScheme.flowRank] at hne
    rcases hc with hcol | hrow
    · rw [of_decide_eq_true hcol] at hne
      rw [assignInputBorder, if_pos hcol] at hin
      rw [hin _ ht (decide_eq_false hne)] at hv
      exact absurd hv Bool.false_ne_true
    · have hcol : ¬ p.isClockingScheme .columnar = true := by
        intro hcol
        exact absurd ((of_decide_eq_true hcol).symm.trans (of_decide_eq_true hrow)) (by decide)
      rw [of_decide_eq_true hrow] at hne
      rw [assignInputBorder, if_neg hcol, if_pos hrow] at hin
      rw [hin _ ht (decide_eq_false hne)] at hv
      exact absurd hv Bool.false_ne_true
  rw [clockCycle, hzero, Nat.zero_div]

theorem CoreModel.entryCycle_eq_zero (hfit : LengthsFit S p)
    (hpath : path ∈ S.allIncomingEdgePaths n) (hpi : S.ntk.isPi (pathStart n path) = true) :
    entryCycle S p ar v n path = 0 := by
  have hborder := h.generated.enforceBorderIo hb
  have hhead : ∀ m ∈ (placedOn S p n path).head?, clockCycle p ar v m = 0 := by
    refine SpecificationNetwork.path_induction
      (P := fun n path => S.ntk.isPi (pathStart n path) = true →
        ∀ m ∈ (placedOn S p n path).head?, clockCycle p ar v m = 0)
      (fun n _ hpi m hm => ?_) (fun n hn c hfan _ path hpath ih hpi m hm => ?_) hpath hpi
    · rw [placedOn_nil] at hm
      split_ifs at hm with hskip
      · cases hm
      · obtain rfl : n = m := Option.some.inj hm
        have hpi' : S.ntk.isPi n = true := hpi
        have hio : p.ioPins = true := by
          by_contra hio
          rw [Bool.not_eq_true] at hio
          simp [skipConstOrIoNode, hpi', hio] at hskip
        rw [enforceBorderIo, if_pos hio] at hborder
        have hmem := List.contains_iff_mem.mp hpi'
        refine h.clockCycle_eq_zero hc (mem_placedNodes.mpr ⟨?_, by simpa using hskip⟩)
          (hborder.1 n hmem)
        exact SpecificationNetwork.mem_foreachNode.mpr (.inl (.inr (List.mem_of_mem_take hmem)))
    · rw [pathStart_concat] at hpi
      rw [placedOn_concat] at hm
      by_cases hnil : placedOn S p c path = []
      · rw [hnil, List.nil_append] at hm
        split_ifs at hm with hskip
        · cases hm
        · obtain rfl : n = m := Option.some.inj hm
          rw [Bool.not_eq_true] at hskip
          have hskipc : skipConstOrIoNode S p c = true := by
            by_contra hskipc
            exact placedOn_ne_nil (by simpa using hskipc) hnil
          have hpath' : path = [] := by
            by_contra hne
            have hcg := (ne_nil_iff_mem_gates hpath).mp hne
            rw [hfit.placed n hn c hfan hcg] at hskipc
            cases hskipc
          rw [hpath'] at hpi
          have hpi' : S.ntk.isPi c = true := hpi
          have hmem := List.contains_iff_mem.mp hpi'
          have hio : ¬ p.ioPins = true := by
            intro hio
            rw [skipConstOrIoNode_eq_false hio
              (S.wellFormed.input c (List.mem_of_mem_take hmem)).1] at hskipc
            cases hskipc
          rw [enforceBorderIo, if_neg hio] at hborder
          have hnode := mem_foreachNode_of_mem_gates hn
          exact h.clockCycle_eq_zero hc (mem_placedNodes.mpr ⟨hnode, hskip⟩)
            (hborder.1 c hmem n (S.mem_fanouts_of_mem_foreachFanin hnode hfan) hskip)
      · rw [List.head?_append_of_ne_nil _ hnil] at hm
        exact ih hpi m hm
  rw [entryCycle]
  cases hm : (placedOn S p n path).head? with
  | none => rfl
  | some m => exact hhead m hm

end Border

section Lengths

variable (h : CoreModel S p ar v) (hde : p.desynchronize = false)
  (hgen : (p.borderIo && p.scheme.isLinearScheme) = false)

section Counts

variable (hbuf : p.ioPins = false → ∀ po ∈ S.ntk.foreachPo, ∃ c, S.foreachFanin po = [c])
  {po : ℕ} (hpo : po ∈ S.ntk.foreachPo)

/-- What the length constraints add up for a path. -/
def counted (S : SpecificationNetwork) (p : ExactParams) (ar : AspectRatio) (v : Assignment)
    (path : List Edge) : ℤ :=
  (countedEdges p path).length +
    ((countedEdges p path).map (edgeLength S p (freshCheckPoint ar) v)).sum

include h hde hgen in
theorem CoreModel.defineLengths :
    if p.ioPins then ∀ po ∈ S.ntk.foreachPo, defineLength S p (freshCheckPoint ar) v true true po
    else ∀ po ∈ S.ntk.foreachPo, ∀ fi ∈ S.foreachFanin po,
      defineLength S p (freshCheckPoint ar) v true true fi := by
  have hlinear : ∀ name, name ∈ [ClockName.columnar, .row, .twoddwave, .twoddwaveHex] →
      (p.borderIo && p.isClockingScheme name) = false := by
    intro name hname
    cases hb : p.borderIo with
    | false => rfl
    | true =>
      rw [hb, Bool.true_and] at hgen
      refine decide_eq_false fun heq => ?_
      exact absurd (decide_eq_true (heq ▸ hname)) (Bool.eq_false_iff.mp hgen)
  have hglobal := h.generated.globalSynchronization hde
  rwa [globalSynchronization, Bool.and_or_distrib_left, hlinear .twoddwave (by decide),
    hlinear .twoddwaveHex (by decide), Bool.or_self, if_neg Bool.false_ne_true,
    Bool.and_or_distrib_left, hlinear .columnar (by decide), hlinear .row (by decide), Bool.or_self,
    if_neg Bool.false_ne_true] at hglobal

theorem pathLength_eq_of_defineLength (hdef : defineLength S p (freshCheckPoint ar) v true true n)
    (hpath : path ∈ S.allIncomingEdgePaths n) (hpath' : path' ∈ S.allIncomingEdgePaths n) :
    (path.length : ℤ) + (path.map (edgeLength S p (freshCheckPoint ar) v)).sum =
      path'.length + (path'.map (edgeLength S p (freshCheckPoint ar) v)).sum := by
  have hpair := (List.isChain_iff_pairwise.mp (hdef ⟨rfl, rfl⟩)).forall_of_forall
    (fun _ _ => rfl) (List.mem_map_of_mem hpath) (List.mem_map_of_mem hpath')
  rw [pathLength, pathLength] at hpair
  omega

include h hde hgen hbuf hpo in
theorem CoreModel.counted_eq (hpath : path ∈ S.allIncomingEdgePaths po)
    (hpath' : path' ∈ S.allIncomingEdgePaths po) :
    counted S p ar v path = counted S p ar v path' := by
  have hdef := h.defineLengths hde hgen
  rw [counted, counted, countedEdges, countedEdges]
  cases hio : p.ioPins with
  | true =>
    rw [hio, if_pos rfl] at hdef
    exact pathLength_eq_of_defineLength (hdef po hpo) hpath hpath'
  | false =>
    rw [hio, if_neg Bool.false_ne_true] at hdef
    have hg := mem_gates_of_mem_foreachPo hpo
    obtain ⟨o, ho⟩ := hbuf hio po hpo
    obtain ⟨c, hc, -, q, hq, rfl⟩ := (SpecificationNetwork.mem_allIncomingEdgePaths hg).mp hpath
    obtain ⟨c', hc', -, q', hq', rfl⟩ :=
      (SpecificationNetwork.mem_allIncomingEdgePaths hg).mp hpath'
    have hmem := hc
    rw [ho, List.mem_singleton] at hc hc'
    subst hc hc'
    rw [if_neg Bool.false_ne_true, if_neg Bool.false_ne_true, List.dropLast_concat,
      List.dropLast_concat]
    exact pathLength_eq_of_defineLength (hdef po hpo _ hmem) hq hq'

include hpo in
theorem numWires_countedEdges (hpath : path ∈ S.allIncomingEdgePaths po) :
    numWires S p ar v (countedEdges p path) = numWires S p ar v path := by
  rw [countedEdges]
  split_ifs with hio
  · rfl
  · obtain ⟨c, -, -, q, -, rfl⟩ := (SpecificationNetwork.mem_allIncomingEdgePaths
      (mem_gates_of_mem_foreachPo hpo)).mp hpath
    have hskip : skipConstOrIoEdge S p ⟨c, po⟩ = true := by
      have hpo' : S.ntk.isPo po = true := List.contains_iff_mem.mpr hpo
      simp [skipConstOrIoEdge, skipConstOrIoNode, hpo', hio]
    rw [List.dropLast_concat, numWires_concat, numSegments_of_skip hskip, Nat.add_zero]

include hpo in
theorem counted_eq_delay_add (hpath : path ∈ S.allIncomingEdgePaths po) :
    counted S p ar v path = delay S p ar v po path + miscount S p ar v po path := by
  have hsplit : ∀ edges : List Edge, (edges.map (edgeLength S p (freshCheckPoint ar) v)).sum =
      (edges.map (countedClock S p ar v)).sum + ((edges.map (strayTiles S p ar v)).sum +
        (numWires S p ar v edges : ℤ)) := by
    intro edges
    rw [numWires, Nat.cast_list_sum, List.map_map, ← List.sum_map_add, ← List.sum_map_add]
    congr 1
    apply List.map_congr_left
    intro ed _
    rw [edgeLength, countedClock, strayTiles, Function.comp_apply, sub_add_cancel]
  rw [counted, hsplit, numWires_countedEdges hpo hpath, delay, miscount]
  push_cast
  omega

include h hde hgen hbuf hpo in
theorem CoreModel.delay_eq_iff_of_counted (hpath : path ∈ S.allIncomingEdgePaths po)
    (hpath' : path' ∈ S.allIncomingEdgePaths po) :
    delay S p ar v po path = delay S p ar v po path' ↔
      miscount S p ar v po path = miscount S p ar v po path' := by
  have heq := h.counted_eq hde hgen hbuf hpo hpath hpath'
  rw [counted_eq_delay_add hpo hpath, counted_eq_delay_add hpo hpath'] at heq
  omega

end Counts

variable (hS : (p.layout ar).Small) (hp : NamedScheme.Predefined p.arrangement p.scheme)
  (hr : p.isRegularlyClocked = true) (hio : p.ioPins = true)
include h hde hgen hp hr hio

theorem CoreModel.nclToReal_eq {pi : ℕ} (hpi : pi ∈ S.ntk.foreachPi)
    (hn : pi ∈ placedNodes S p) : nclToReal p (freshCheckPoint ar) v pi =
      ((p.layout ar).getClockNumber (tileOf ar v pi) : ℤ) := by
  obtain ⟨ht, hv⟩ := h.tileOf_spec hn
  obtain ⟨hone, hassign⟩ := h.generated.assignPiClockings hde hgen
  rw [if_pos hio] at hassign
  have hclk := hassign pi hpi (tileOf ar v pi) ht
  rw [if_pos hr] at hclk
  have hncl := hclk hv
  have hlt : (p.layout ar).getClockNumber (tileOf ar v pi) < (p.layout ar).numClocks :=
    hp.clockNumber_lt _
  have hmem := List.mem_range.mpr hlt
  obtain ⟨i, hfind⟩ := Option.isSome_iff_exists.mp (List.find?_isSome.mpr ⟨_, hmem, hncl⟩ :
    ((List.range (p.layout ar).numClocks).find? (v.ncl pi)).isSome = true)
  have heq : i = (p.layout ar).getClockNumber (tileOf ar v pi) :=
    Counting.eq_of_count_le_one (hone pi (mem_placedNodes.mp hn).1).2
      (List.mem_of_find?_eq_some hfind) hmem (List.find?_some hfind) hncl
  rw [nclToReal]
  change (((List.range (p.layout ar).numClocks).find? (v.ncl pi)).getD _ : ℤ) = _
  rw [hfind, Option.getD_some, heq]

theorem CoreModel.sum_countedClock (hpath : path ∈ S.allIncomingEdgePaths n) :
    (path.map (countedClock S p ar v)).sum =
      if path ≠ [] ∧ S.ntk.isPi (pathStart n path) = true then
        ((p.layout ar).getClockNumber (tileOf ar v (pathStart n path)) : ℤ) else 0 := by
  have hplaced := mem_placedEdges_of_mem_path hio hpath
  refine SpecificationNetwork.path_induction
    (P := fun n path => (∀ ed ∈ path, ed ∈ placedEdges S p) →
      (path.map (countedClock S p ar v)).sum =
        if path ≠ [] ∧ S.ntk.isPi (pathStart n path) = true then
          ((p.layout ar).getClockNumber (tileOf ar v (pathStart n path)) : ℤ) else 0)
    (fun n _ _ => ?_) (fun n _ c _ _ path hc ih hplaced => ?_) hpath hplaced
  · rw [if_neg fun hne => hne.1 rfl]
    rfl
  · have hed : (⟨c, n⟩ : Edge) ∈ placedEdges S p :=
      hplaced _ (List.mem_append_right _ (List.mem_singleton_self _))
    have hedge : countedClock S p ar v ⟨c, n⟩ =
        if S.ntk.isPi c = true then ((p.layout ar).getClockNumber (tileOf ar v c) : ℤ) else 0 := by
      rw [countedClock, hio]
      cases hpi : S.ntk.isPi c with
      | true =>
        rw [← h.nclToReal_eq hde hgen hp hr hio (List.contains_iff_mem.mp hpi)
          (mem_placedNodes_of_mem_placedEdges hed).1]
        rfl
      | false => rfl
    have hne : path ++ [(⟨c, n⟩ : Edge)] ≠ [] := by simp
    rw [List.map_append, List.sum_append, ih fun ed hed => hplaced ed (List.mem_append_left _ hed),
      List.map_singleton, List.sum_singleton, hedge, pathStart_concat]
    -- the child is an input, or a path with edges leads into it
    by_cases hnil : path = []
    · subst hnil
      simp [pathStart]
    · have hpi := isPi_eq_false_of_mem_gates ((ne_nil_iff_mem_gates hc).mp hnil)
      simp [hnil, hpi]

include hS in
theorem CoreModel.miscount_eq (hfit : LengthsFit S p)
    (hse : (p.hasSynchronizationElements && p.synchronizationElements && !p.desynchronize) = false)
    (hpath : path ∈ S.allIncomingEdgePaths n) (hn : n ∈ S.topo.gates)
    (hpi : S.ntk.isPi (pathStart n path) = true) : miscount S p ar v n path = -1 := by
  have hon := placedOn_of_ioPins hio (two_le_of_mem_gates hn) hpath
  have hstray : (path.map (strayTiles S p ar v)).sum = 0 := by
    apply List.sum_eq_zero
    intro k hk
    obtain ⟨ed, hed, rfl⟩ := List.mem_map.mp hk
    have hplaced := mem_placedEdges_of_mem_path hio hpath ed hed
    have hcount := h.tileIteCounters_eq hS hp hr hfit.ranked (hfit.distinctFanins hgen)
      hfit.crossings hplaced hse
    rw [strayTiles, hcount, numSegments_of_placed (mem_placedEdges.mp hplaced).2, sub_self]
  have hclock := h.sum_countedClock hde hgen hp hr hio hpath
  rw [if_pos ⟨(ne_nil_iff_mem_gates hpath).mpr hn, hpi⟩] at hclock
  rw [miscount, countedEdges, if_pos hio, hstray, hclock, entryClock, hon, head?_pathNodes,
    Option.elim_some, pathNodes, List.length_append, List.length_map, List.length_singleton]
  push_cast
  omega

end Lengths

section Offsets

variable (h : CoreModel S p ar v) (hp : NamedScheme.Predefined p.arrangement p.scheme)
  (hr : p.isRegularlyClocked = true) (hde : p.desynchronize = false)
include h hp hde

theorem CoreModel.synchronized_iff_inStep
    (hbuf : p.ioPins = false → ∀ po ∈ S.ntk.foreachPo, ∃ c, S.foreachFanin po = [c]) :
    Synchronized S p ar v ↔ InStep S p ar v := by
  apply forall₂_congr
  intro po hpo
  apply forall₂_congr
  intro path hpath
  apply forall₂_congr
  intro path' hpath'
  apply forall₂_congr
  intro _ _
  rw [offset, offset]
  cases hgen : p.borderIo && p.scheme.isLinearScheme with
  | true =>
    exact delay_eq_iff_of_linear hp (Bool.and_eq_true_iff.mp hgen).2 hbuf hpath hpath'
  | false => exact h.delay_eq_iff_of_counted hde hgen hbuf hpo hpath hpath'

include hr in
theorem CoreModel.inStep_iff (hS : (p.layout ar).Small) (hfit : LengthsFit S p)
    (hse : (p.hasSynchronizationElements && p.synchronizationElements && !p.desynchronize) =
      false) :
    InStep S p ar v ↔ (p.borderIo = true → p.isClockingScheme .twoddwave = true ∨
      p.isClockingScheme .twoddwaveHex = true → EntersInOneCycle S p ar v) := by
  cases hgen : p.borderIo && p.scheme.isLinearScheme with
  | false =>
    refine iff_of_true ?_ fun hb hc => ?_
    · intro po hpo path hpath path' hpath' hpi hpi'
      have hg := mem_gates_of_mem_foreachPo hpo
      have hio := hfit.ioPins hgen
      rw [offset, offset, hgen, if_neg Bool.false_ne_true, if_neg Bool.false_ne_true,
        h.miscount_eq hde hgen hS hp hr hio hfit hse hpath hg hpi,
        h.miscount_eq hde hgen hS hp hr hio hfit hse hpath' hg hpi']
    · have hname : p.scheme.name = .twoddwave ∨ p.scheme.name = .twoddwaveHex :=
        hc.imp of_decide_eq_true of_decide_eq_true
      rw [hb, Bool.true_and, NamedScheme.isLinearScheme] at hgen
      rcases hname with hn | hn <;>
      · rw [hn] at hgen
        exact absurd hgen (by decide)
  | true =>
    obtain ⟨hb, hl⟩ := Bool.and_eq_true_iff.mp hgen
    have hpos : 0 < (p.layout ar).numClocks := by
      have hnum : (p.layout ar).numClocks = 3 ∨ (p.layout ar).numClocks = 4 := hp.numClocks
      omega
    have hiff : InStep S p ar v ↔ EntersInOneCycle S p ar v := by
      apply forall₂_congr
      intro po _
      apply forall₂_congr
      intro path hpath
      apply forall₂_congr
      intro path' hpath'
      apply forall₂_congr
      intro _ _
      rw [offset, offset, hgen, if_pos rfl, if_pos rfl, h.detour_eq_zero hS hp hl hfit hpath,
        h.detour_eq_zero hS hp hl hfit hpath', sub_zero, sub_zero]
      constructor
      · intro heq
        exact Nat.eq_of_mul_eq_mul_left hpos (by exact_mod_cast heq)
      · intro heq
        rw [heq]
    rw [hiff]
    refine ⟨fun hin _ _ => hin, fun hin => ?_⟩
    by_cases hwave : p.isClockingScheme .twoddwave = true ∨ p.isClockingScheme .twoddwaveHex = true
    · exact hin hb hwave
    · have hc : p.isClockingScheme .columnar = true ∨ p.isClockingScheme .row = true := by
        have hmem := of_decide_eq_true hl
        simp only [List.mem_cons, List.not_mem_nil, or_false] at hmem
        simp only [ExactParams.isClockingScheme, decide_eq_true_eq] at hwave ⊢
        tauto
      intro po _ path hpath path' hpath' hpi hpi'
      rw [h.entryCycle_eq_zero hb hc hfit hpath hpi, h.entryCycle_eq_zero hb hc hfit hpath' hpi']

end Offsets

section Conjunction

def conjunction : TechnologyNetwork :=
  let (ntk, a) := TechnologyNetwork.empty.createPi
  let (ntk, b) := ntk.createPi
  let (ntk, f) := ntk.createAnd a b
  let (ntk, o) := ntk.createBuf f
  ntk.createPo o

theorem conjunction_wellFormed : conjunction.WellFormed :=
  TechnologyNetwork.wellFormed_of_forall_lt (by decide) (by decide) (by decide) (by decide)
    (by decide) (by decide) (by decide)

theorem conjunction_placeable : SpecificationNetwork.Placeable conjunction :=
  ⟨by decide, by decide, SpecificationNetwork.children_eq_nil_of_isSource (by decide), by decide,
    by decide⟩

def conjunctionSpecification : SpecificationNetwork :=
  .ofView conjunction
    (TechnologyNetwork.creationView conjunction_placeable.children_lt
      conjunction_placeable.outputs_lt)
    conjunction_wellFormed conjunction_placeable.children_source
    conjunction_placeable.outputs_substituted conjunction_placeable.cone

/-- 2DDWave clocking with four phases on a Cartesian layout. -/
def waveParams (borderIo : Bool) : ExactParams :=
  { columnarParams borderIo with scheme := .twoddwaveClocking .four }

/-- One input has a wire to the gate, and the other one starts a phase later next to it. -/
def laterEntry : Assignment where
  tn t n := t = .at2 0 0 ∧ n = 2 ∨ t = .at2 0 1 ∧ n = 3 ∨ t = .at2 1 1 ∧ n = 4 ∨
    t = .at2 2 1 ∧ n = 5
  te t ed := t = .at2 1 0 ∧ ed = ⟨2, 4⟩
  tc t u := t = .at2 0 0 ∧ u = .at2 1 0 ∨ t = .at2 1 0 ∧ u = .at2 1 1 ∨
    t = .at2 0 1 ∧ u = .at2 1 1 ∨ t = .at2 1 1 ∧ u = .at2 2 1
  tp _ _ := false
  ncl n i := i = if n = 3 then 1 else 0
  tcl _ _ := false
  tse _ := 0

theorem freshModel_laterEntry :
    FreshModel conjunctionSpecification (waveParams false) ⟨2, 1⟩ laterEntry where
  generated := {
    restrictTileElements := by decide
    restrictVertices := by decide
    defineGateFanoutTiles := by decide
    defineGateFaninTiles := by decide
    defineWireFanoutTiles := by decide
    defineWireFaninTiles := by decide
    assignPiClockings := by decide
    globalSynchronization := by decide
    restrictClocks := by decide
    establishSubPaths := by decide
    establishTransitivePaths := fun h => absurd h (by decide)
    eliminateCycles := by decide
    enforceBorderIo := by decide
    enforceStraightInverters := by decide
    restrictSynchronizationElements := by decide
    technologySpecificConstraints := fun h => absurd h (by decide)
    preventInsufficiencies := by decide
    defineNumberOfConnections := by decide
    utilizeHierarchicalInformation :=
      ⟨fun h => absurd h (by decide), fun h => absurd h (by decide),
        fun _ _ h => absurd h (by decide)⟩ }
  assumed := {
    technologySpecificConstraints := fun h => absurd h (by decide)
    preventInsufficiencies := by decide
    utilizeHierarchicalInformation :=
      ⟨fun h => absurd h (by decide), fun h => absurd h (by decide),
        fun _ _ h => absurd h (by decide)⟩ }

/-- One input enters at the eastern border, in the second clock cycle, and the other one at the
western border, in the first. -/
def easternEntry : Assignment where
  tn t n := t = .at2 3 1 ∧ n = 2 ∨ t = .at2 0 2 ∧ n = 3 ∨ t = .at2 3 2 ∧ n = 4 ∨
    t = .at2 3 3 ∧ n = 5
  te t ed := (t = .at2 1 2 ∨ t = .at2 2 2) ∧ ed = ⟨3, 4⟩
  tc t u := t = .at2 3 1 ∧ u = .at2 3 2 ∨ t = .at2 0 2 ∧ u = .at2 1 2 ∨
    t = .at2 1 2 ∧ u = .at2 2 2 ∨ t = .at2 2 2 ∧ u = .at2 3 2 ∨ t = .at2 3 2 ∧ u = .at2 3 3
  tp _ _ := false
  ncl _ _ := false
  tcl _ _ := false
  tse _ := 0

theorem freshModel_easternEntry :
    FreshModel conjunctionSpecification (waveParams true) ⟨3, 3⟩ easternEntry where
  generated := {
    restrictTileElements := by decide
    restrictVertices := by decide
    defineGateFanoutTiles := by decide
    defineGateFaninTiles := by decide
    defineWireFanoutTiles := by decide
    defineWireFaninTiles := by decide
    assignPiClockings := by decide
    globalSynchronization := by decide
    restrictClocks := by decide
    establishSubPaths := by decide
    establishTransitivePaths := fun h => absurd h (by decide)
    eliminateCycles := by decide
    enforceBorderIo := by decide
    enforceStraightInverters := by decide
    restrictSynchronizationElements := by decide
    technologySpecificConstraints := fun h => absurd h (by decide)
    preventInsufficiencies := by decide
    defineNumberOfConnections := by decide
    utilizeHierarchicalInformation := by
      refine ⟨fun h => absurd h (by decide), fun h => absurd h (by decide), fun _ _ _ => ?_⟩
      unfold prohibit
      decide }
  assumed := {
    technologySpecificConstraints := fun h => absurd h (by decide)
    preventInsufficiencies := by decide
    utilizeHierarchicalInformation := by
      refine ⟨fun h => absurd h (by decide), fun h => absurd h (by decide), fun _ _ _ => ?_⟩
      unfold prohibit
      decide }

end Conjunction

end Fiction.Exact
