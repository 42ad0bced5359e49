import Fiction.Library.Propagation
import Fiction.Networks.FanoutViews
import Mathlib.Data.Finset.Union

/-!
# Edge colourings for orthogonal placement

`orthogonal` colours the edges of a network east or south before it places any node. An edge passes
the opposite colour on to its siblings, which leave the same node, and its own colour to its
spouses, which enter the same node. Where the two demands contradict each other, only that of the
spouses is given up.
-/

namespace Fiction

namespace Orthogonal

open Propagation TechnologyNetwork

/-- An edge or a node without a colour has `color_null`. -/
inductive Color where
  | east
  | south
  deriving DecidableEq, Repr

structure ColoringContainer where
  edgeColor : Edge → Option Color
  color : ℕ → Option Color

def oppositeColor (c : Color) : Color := if c = .east then .south else .east

section Coloring

variable (ntk : TechnologyNetwork) (V : FanoutView ntk) (T : ntk.TopoView)

def foreachOutgoingEdge (n : ℕ) : List Edge := (V.fanouts n).map fun fon => ⟨n, fon⟩

def foreachIncomingEdge (n : ℕ) : List Edge := (ntk.node n).children.map fun fi => ⟨fi, n⟩

def faninEdges (n : ℕ) : List Edge :=
  (foreachIncomingEdge ntk n).filter fun fe => !isConstant fe.source

def relatedEdges (e : Edge) (c : Color) : List (Edge × Color) :=
  ((foreachOutgoingEdge ntk V e.source).filter (· ≠ e)).map (·, oppositeColor c) ++
    ((foreachIncomingEdge ntk e.target).filter (· ≠ e)).map (·, c)

def recursivelyPaintEdges (fuel : ℕ) (edgeColor : Edge → Option Color) (e : Edge) (c : Color) :
    Option (Edge → Option Color) :=
  propagate (relatedEdges ntk V) fuel edgeColor (e, c)

def sharedColor (edgeColor : Edge → Option Color) (n : ℕ) : Option Color :=
  if (faninEdges ntk n).all fun fe => edgeColor fe = some .east then some .east
  else if (faninEdges ntk n).all fun fe => edgeColor fe = some .south then some .south
  else none

def colorGate (fuel : ℕ) (ctn : ColoringContainer) (n : ℕ) : Option ColoringContainer := do
  let color : Color :=
    if (faninEdges ntk n).any fun fe => ctn.edgeColor fe = some .east then .east else .south
  let edgeColor ← (faninEdges ntk n).foldlM
    (fun s fe => recursivelyPaintEdges ntk V fuel s fe color) ctn.edgeColor
  match sharedColor ntk edgeColor n with
  | some c => some ⟨edgeColor, Function.update ctn.color n (some c)⟩
  | none => some ⟨edgeColor, ctn.color⟩

def eastSouthEdgeColoring (fuel : ℕ) : Option ColoringContainer :=
  T.gates.reverse.foldlM (colorGate ntk V fuel) ⟨fun _ => none, fun _ => none⟩

end Coloring

section Cones

variable (ntk : TechnologyNetwork)

/-- `n` lies in the cone of a primary output. -/
inductive InPoCone : ℕ → Prop
  | po {o : ℕ} (ho : o ∈ ntk.foreachPo) : InPoCone o
  | fanin {n c : ℕ} (hn : InPoCone n) (hs : ¬ ntk.IsSource n) (hc : c ∈ (ntk.node n).children) :
    InPoCone c

variable {ntk}

theorem InPoCone.mem_gates {T : ntk.TopoView} {n : ℕ} (h : InPoCone ntk n) :
    ntk.IsSource n ∨ n ∈ T.gates := by
  induction h with
  | po ho => exact T.outputs_mem _ (List.mem_of_mem_take ho)
  | fanin _ hs hc ih => exact T.sorted.deps (ih.resolve_left hs) hc

end Cones

section Edges

variable {ntk : TechnologyNetwork} {V : FanoutView ntk}

def edges (ntk : TechnologyNetwork) : Finset Edge :=
  (Finset.range ntk.size).biUnion fun m => (foreachIncomingEdge ntk m).toFinset

theorem mem_edges {e : Edge} :
    e ∈ edges ntk ↔ e.target < ntk.size ∧ e.source ∈ (ntk.node e.target).children := by
  simp only [edges, foreachIncomingEdge, Finset.mem_biUnion, Finset.mem_range, List.mem_toFinset,
    List.mem_map]
  constructor
  · rintro ⟨m, hm, fi, hfi, rfl⟩
    exact ⟨hm, hfi⟩
  · rintro ⟨hm, hfi⟩
    exact ⟨e.target, hm, e.source, hfi, rfl⟩

theorem mem_edges_of_relatedEdges {e : Edge} (he : e ∈ edges ntk) {c : Color} {p : Edge × Color}
    (hp : p ∈ relatedEdges ntk V e c) : p.1 ∈ edges ntk := by
  rw [relatedEdges, List.mem_append] at hp
  rw [mem_edges] at he ⊢
  simp only [foreachOutgoingEdge, foreachIncomingEdge, List.mem_map, List.mem_filter] at hp
  rcases hp with ⟨_, ⟨⟨fon, hfon, rfl⟩, -⟩, rfl⟩ | ⟨_, ⟨⟨fi, hfi, rfl⟩, -⟩, rfl⟩
  · obtain ⟨hgate, hchild⟩ := (V.mem_fanouts e.source fon).mp hfon
    exact ⟨hgate.1, hchild⟩
  · exact ⟨he.1, hfi⟩

theorem mem_faninEdges {n : ℕ} {e : Edge} :
    e ∈ faninEdges ntk n ↔ e.target = n ∧ e.source ∈ (ntk.node n).children ∧
      isConstant e.source = false := by
  simp only [faninEdges, foreachIncomingEdge, List.mem_filter, List.mem_map, Bool.not_eq_true']
  constructor
  · rintro ⟨⟨fi, hfi, rfl⟩, hc⟩
    exact ⟨rfl, hfi, hc⟩
  · rintro ⟨rfl, hfi, hc⟩
    exact ⟨⟨e.source, hfi, rfl⟩, hc⟩

theorem faninEdges_mem_edges {n : ℕ} (hn : n < ntk.size) {e : Edge} (he : e ∈ faninEdges ntk n) :
    e ∈ edges ntk := by
  obtain ⟨rfl, hfi, -⟩ := mem_faninEdges.mp he
  exact mem_edges.mpr ⟨hn, hfi⟩

def Siblings (V : FanoutView ntk) (e e' : Edge) : Prop :=
  isConstant e.source = false ∧ e.source = e'.source ∧ e.target ≠ e'.target ∧
    e.target ∈ V.fanouts e.source ∧ e'.target ∈ V.fanouts e.source

def AtMostTwoFanouts (V : FanoutView ntk) : Prop :=
  ∀ n, isConstant n = false → (V.fanouts n).toFinset.card ≤ 2

theorem AtMostTwoFanouts.eq_of_ne (h : AtMostTwoFanouts V) {n a b c : ℕ}
    (hn : isConstant n = false) (ha : a ∈ V.fanouts n) (hb : b ∈ V.fanouts n)
    (hc : c ∈ V.fanouts n) (hab : a ≠ b) (hac : a ≠ c) : b = c := by
  by_contra hbc
  have hcard : 2 < (V.fanouts n).toFinset.card := by
    rw [Finset.two_lt_card]
    exact ⟨a, List.mem_toFinset.mpr ha, b, List.mem_toFinset.mpr hb, c,
      List.mem_toFinset.mpr hc, hab, hac, hbc⟩
  exact absurd (h n hn) hcard.not_ge

theorem AtMostTwoFanouts.isMating (h : AtMostTwoFanouts V) :
    IsMating (relatedEdges ntk V) oppositeColor (Siblings V) where
  symm := by
    rintro ⟨n, m⟩ ⟨n', m'⟩ ⟨hn, rfl, hne, hm, hm'⟩
    exact ⟨hn, rfl, hne.symm, hm', hm⟩
  irrefl e he := he.2.2.1 rfl
  unique := by
    rintro ⟨n, m⟩ ⟨n', m'⟩ ⟨n'', m''⟩ ⟨hn, rfl, hne, hm, hm'⟩ ⟨-, rfl, hne', -, hm''⟩
    obtain rfl := h.eq_of_ne hn hm hm' hm'' hne hne'
    rfl
  opposite_opposite c := by cases c <;> rfl
  first := by
    rintro ⟨n, m⟩ ⟨n', m'⟩ c ⟨hn, rfl, hne, hm, hm'⟩
    have hmem : (⟨n, m'⟩ : Edge) ∈ (foreachOutgoingEdge ntk V n).filter (· ≠ ⟨n, m⟩) := by
      simp only [foreachOutgoingEdge, List.mem_filter, List.mem_map, decide_eq_true_eq]
      exact ⟨⟨m', hm', rfl⟩, fun he => hne (Edge.mk.inj he).2.symm⟩
    cases hl : (foreachOutgoingEdge ntk V n).filter (· ≠ ⟨n, m⟩) with
    | nil =>
      rw [hl] at hmem
      cases hmem
    | cons e es =>
      have he : e ∈ (foreachOutgoingEdge ntk V n).filter (· ≠ ⟨n, m⟩) := by
        rw [hl]
        exact List.mem_cons_self
      simp only [foreachOutgoingEdge, List.mem_filter, List.mem_map, decide_eq_true_eq] at he
      obtain ⟨⟨k, hk, rfl⟩, hke⟩ := he
      obtain rfl : k = m' := h.eq_of_ne hn hm hk hm' 
        (fun hmk => hke (congrArg (Edge.mk n) hmk.symm)) hne
      simp only [relatedEdges, hl, List.map_cons, List.cons_append]
      exact ⟨_, rfl⟩

end Edges

section Run

variable {ntk : TechnologyNetwork} {V : FanoutView ntk} {T : ntk.TopoView} {fuel : ℕ}

structure Colored (ntk : TechnologyNetwork) (done : List ℕ) (ctn : ColoringContainer) :
    Prop where
  painted : ∀ n ∈ done, ∀ fe ∈ faninEdges ntk n, (ctn.edgeColor fe).isSome
  color : ∀ n ∈ done, ctn.color n = sharedColor ntk ctn.edgeColor n
  color_of_notMem : ∀ n, n ∉ done → ctn.color n = none

theorem sharedColor_congr {s s' : Edge → Option Color} (h : Extends s s') {n : ℕ}
    (hn : ∀ fe ∈ faninEdges ntk n, (s fe).isSome) :
    sharedColor ntk s' n = sharedColor ntk s n := by
  have heq : ∀ fe ∈ faninEdges ntk n, s' fe = s fe := by
    intro fe hfe
    obtain ⟨c, hc⟩ := Option.isSome_iff_exists.mp (hn fe hfe)
    rw [hc, h fe c hc]
  have hall : ∀ c : Color, ((faninEdges ntk n).all fun fe => s' fe = some c) =
      (faninEdges ntk n).all fun fe => s fe = some c := by
    intro c
    rw [Bool.eq_iff_iff, List.all_eq_true, List.all_eq_true]
    exact forall₂_congr fun fe hfe => by rw [heq fe hfe]
  rw [sharedColor, sharedColor, hall, hall]

theorem Colored.colorGate {done : List ℕ} {ctn : ColoringContainer} (h : Colored ntk done ctn)
    {n : ℕ} (hn : n ∉ done) (hlt : n < ntk.size) (hfuel : (edges ntk).card < fuel) :
    ∃ ctn', Orthogonal.colorGate ntk V fuel ctn n = some ctn' ∧
      Colored ntk (done ++ [n]) ctn' := by
  obtain ⟨color, hcolor⟩ : ∃ color : Color, color = if (faninEdges ntk n).any fun fe =>
    ctn.edgeColor fe = some .east then .east else .south := ⟨_, rfl⟩
  obtain ⟨s, hs, hext, hpainted⟩ := @exists_foldlM _ _
    (fun s fe => recursivelyPaintEdges ntk V fuel s fe color)
    (fun pre s => Extends ctn.edgeColor s ∧ ∀ fe ∈ pre, (s fe).isSome) (faninEdges ntk n)
    (fun pre fe suf s hfe ⟨hext, hpainted⟩ => by
      have hmem : fe ∈ edges ntk := faninEdges_mem_edges hlt (by rw [hfe]; simp)
      obtain ⟨s', hs'⟩ := Option.isSome_iff_exists.mp <|
        propagate_isSome (s := s) (p := (fe, color))
          (fun e he c p hp => mem_edges_of_relatedEdges (V := V) he hp) hmem
          ((Finset.card_filter_le _ _).trans_lt hfuel)
      refine ⟨s', hs', hext.trans (propagate_extends hs'), fun e he => ?_⟩
      rcases List.mem_append.mp he with he | he
      · exact (propagate_extends hs').isSome (hpainted e he)
      · obtain rfl := List.mem_singleton.mp he
        exact propagate_isSome_label hs')
    _ ⟨Extends.refl _, by simp⟩
  have hdone : ∀ m ∈ done ++ [n], ∀ fe ∈ faninEdges ntk m, (s fe).isSome := by
    intro m hm fe hfe
    rcases List.mem_append.mp hm with hm | hm
    · exact hext.isSome (h.painted m hm fe hfe)
    · obtain rfl := List.mem_singleton.mp hm
      exact hpainted fe hfe
  have hold : ∀ m ∈ done, ctn.color m = sharedColor ntk s m := fun m hm => by
    rw [h.color m hm, sharedColor_congr hext (h.painted m hm)]
  have hrun : Orthogonal.colorGate ntk V fuel ctn n = match sharedColor ntk s n with
      | some c => some ⟨s, Function.update ctn.color n (some c)⟩
      | none => some ⟨s, ctn.color⟩ := by
    simp only [Orthogonal.colorGate, ← hcolor, hs, Option.bind_eq_bind, Option.bind_some]
  have hnew : ctn.color n = none := h.color_of_notMem n hn
  cases hshared : sharedColor ntk s n with
  | none =>
    rw [hshared] at hrun
    refine ⟨_, hrun, hdone, fun m hm => ?_, fun m hm => ?_⟩
    · rcases List.mem_append.mp hm with hm | hm
      · exact hold m hm
      · obtain rfl := List.mem_singleton.mp hm
        rw [hnew, hshared]
    · exact h.color_of_notMem m fun hd => hm (List.mem_append_left _ hd)
  | some c =>
    rw [hshared] at hrun
    refine ⟨_, hrun, hdone, fun m hm => ?_, fun m hm => ?_⟩
    · by_cases hmn : m = n
      · subst hmn
        exact (Function.update_self ..).trans hshared.symm
      · have hmem := (List.mem_append.mp hm).resolve_right fun h => hmn (List.mem_singleton.mp h)
        exact (Function.update_of_ne hmn ..).trans (hold m hmem)
    · have hmn : m ≠ n := fun hmn => hm (by simp [hmn])
      have hnone := h.color_of_notMem m fun hd => hm (List.mem_append_left _ hd)
      exact (Function.update_of_ne hmn ..).trans hnone

theorem colorGate_mono {k : ℕ} (hk : fuel ≤ k) {ctn ctn' : ColoringContainer} {n : ℕ}
    (h : Orthogonal.colorGate ntk V fuel ctn n = some ctn') :
    Orthogonal.colorGate ntk V k ctn n = some ctn' := by
  simp only [Orthogonal.colorGate, Option.bind_eq_bind, Option.bind_eq_some_iff] at h ⊢
  obtain ⟨s, hs, h⟩ := h
  exact ⟨s, foldlM_mono (fun _ _ _ => propagate_mono hk) hs, h⟩

theorem exists_coloring (V : FanoutView ntk) (T : ntk.TopoView) :
    ∃ ctn, (∀ fuel > (edges ntk).card, eastSouthEdgeColoring ntk V T fuel = some ctn) ∧
      Colored ntk T.gates.reverse ctn := by
  have hnodup : T.gates.reverse.Nodup := List.nodup_reverse.mpr T.sorted.nodup
  obtain ⟨ctn, hrun, hcolored⟩ := @exists_foldlM _ _
    (Orthogonal.colorGate ntk V ((edges ntk).card + 1)) (Colored ntk) T.gates.reverse
    (fun pre n suf ctn hl h => by
      have hn : n ∉ pre := by
        intro hmem
        rw [hl] at hnodup
        exact (List.nodup_append.mp hnodup).2.2 n hmem n List.mem_cons_self rfl
      have hlt : n < ntk.size := T.gates_lt n (List.mem_reverse.mp (by rw [hl]; simp))
      exact h.colorGate hn hlt (Nat.lt_succ_self _))
    ⟨fun _ => none, fun _ => none⟩ ⟨by simp, by simp, by simp⟩
  exact ⟨ctn, fun fuel hfuel => foldlM_mono (fun _ _ _ => colorGate_mono hfuel) hrun, hcolored⟩

theorem settled_colorGate (hfan : AtMostTwoFanouts V) {ctn ctn' : ColoringContainer} {n : ℕ}
    (h : Settled oppositeColor (Siblings V) ctn.edgeColor)
    (hrun : Orthogonal.colorGate ntk V fuel ctn n = some ctn') :
    Settled oppositeColor (Siblings V) ctn'.edgeColor := by
  simp only [Orthogonal.colorGate, Option.bind_eq_bind, Option.bind_eq_some_iff] at hrun
  obtain ⟨s, hs, hrun⟩ := hrun
  have hsettled := invariant_foldlM (fun _ _ _ _ ht hl => hfan.isMating.settled_call ht hl) h hs
  split at hrun <;> obtain rfl := Option.some.inj hrun <;> exact hsettled

theorem settled_coloring (hfan : AtMostTwoFanouts V) {ctn : ColoringContainer}
    (h : eastSouthEdgeColoring ntk V T fuel = some ctn) :
    Settled oppositeColor (Siblings V) ctn.edgeColor :=
  invariant_foldlM (I := fun ctn => Settled oppositeColor (Siblings V) ctn.edgeColor)
    (fun _ _ _ _ => settled_colorGate hfan) (fun _ _ _ _ hc => by cases hc) h

structure EdgeColoringLaw (V : FanoutView ntk) (ctn : ColoringContainer) : Prop where
  /-- Every edge from a non-constant node into a gate is east or south. -/
  painted : ∀ n, ntk.IsGate n → ∀ fi ∈ (ntk.node n).children, isConstant fi = false →
    (ctn.edgeColor ⟨fi, n⟩).isSome
  /-- Two edges from one node to different targets have opposite colours. -/
  siblings : ∀ n, isConstant n = false → ∀ m ∈ V.fanouts n, ∀ m' ∈ V.fanouts n, m ≠ m' →
    ∃ c, ctn.edgeColor ⟨n, m⟩ = some c ∧ ctn.edgeColor ⟨n, m'⟩ = some (oppositeColor c)
  /-- A node with a single non-constant fan-in is east or south. -/
  single : ∀ n, ntk.IsGate n → ((ntk.node n).children.filter (!isConstant ·)).length = 1 →
    (ctn.color n).isSome
  /-- The two fan-in edges of an uncoloured gate differ. -/
  uncolored : ∀ n, ntk.IsGate n → ctn.color n = none →
    ∃ a b, (ntk.node n).children.filter (!isConstant ·) = [a, b] ∧
      ctn.edgeColor ⟨a, n⟩ ≠ ctn.edgeColor ⟨b, n⟩

theorem faninEdges_eq (n : ℕ) :
    faninEdges ntk n = ((ntk.node n).children.filter (!isConstant ·)).map fun fi => ⟨fi, n⟩ := by
  rw [faninEdges, foreachIncomingEdge, List.filter_map]
  rfl

theorem sharedColor_isSome {s : Edge → Option Color} {n : ℕ} {c : Color}
    (h : ∀ fe ∈ faninEdges ntk n, s fe = some c) : (sharedColor ntk s n).isSome := by
  have hall : ((faninEdges ntk n).all fun fe => s fe = some c) = true :=
    List.all_eq_true.mpr fun fe hfe => decide_eq_true (h fe hfe)
  cases c with
  | east =>
    rw [sharedColor, if_pos hall]
    rfl
  | south =>
    rw [sharedColor, if_pos hall]
    split_ifs <;> rfl

structure Colorable (V : FanoutView ntk) : Prop where
  fanouts : AtMostTwoFanouts V
  fanins : ∀ n, ntk.IsGate n → ((ntk.node n).children.filter (!isConstant ·)).length = 1 ∨
    ((ntk.node n).children.filter (!isConstant ·)).length = 2
  cone : ∀ n, ntk.IsGate n → InPoCone ntk n

theorem Colored.color_isSome {done : List ℕ} {ctn : ColoringContainer} (h : Colored ntk done ctn)
    {n : ℕ} (hn : n ∈ done)
    (hlen : ((ntk.node n).children.filter (!isConstant ·)).length = 1) : (ctn.color n).isSome := by
  obtain ⟨a, ha⟩ := List.length_eq_one_iff.mp hlen
  have hedges : faninEdges ntk n = [⟨a, n⟩] := by rw [faninEdges_eq, ha]; rfl
  have hsome := h.painted n hn ⟨a, n⟩ (by rw [hedges]; simp)
  obtain ⟨c, hc⟩ := Option.isSome_iff_exists.mp hsome
  rw [h.color n hn]
  refine sharedColor_isSome (c := c) fun fe hfe => ?_
  rw [hedges, List.mem_singleton] at hfe
  rw [hfe, hc]

theorem Colored.law {ctn : ColoringContainer} (hv : Colorable V)
    (h : Colored ntk T.gates.reverse ctn)
    (hsettled : Settled oppositeColor (Siblings V) ctn.edgeColor) : EdgeColoringLaw V ctn := by
  have hgate : ∀ n, ntk.IsGate n → n ∈ T.gates.reverse := fun n hn =>
    List.mem_reverse.mpr ((hv.cone n hn).mem_gates.resolve_left hn.2)
  have hpainted : ∀ n, ntk.IsGate n → ∀ fi ∈ (ntk.node n).children, isConstant fi = false →
      (ctn.edgeColor ⟨fi, n⟩).isSome := fun n hn fi hfi hc =>
    h.painted n (hgate n hn) ⟨fi, n⟩ (mem_faninEdges.mpr ⟨rfl, hfi, hc⟩)
  have hsingle : ∀ n, ntk.IsGate n →
      ((ntk.node n).children.filter (!isConstant ·)).length = 1 → (ctn.color n).isSome :=
    fun n hn => h.color_isSome (hgate n hn)
  refine ⟨hpainted, fun n hc m hm m' hm' hne => ?_, hsingle, fun n hn hnone => ?_⟩
  · obtain ⟨hgate_m, hchild⟩ := (V.mem_fanouts n m).mp hm
    obtain ⟨c, hcolor⟩ := Option.isSome_iff_exists.mp (hpainted m hgate_m n hchild hc)
    exact ⟨c, hcolor, hsettled ⟨n, m⟩ ⟨n, m'⟩ ⟨hc, rfl, hne, hm, hm'⟩ c hcolor⟩
  · have hlen := (hv.fanins n hn).resolve_left fun hlen => by
      have hsome := hsingle n hn hlen
      rw [hnone] at hsome
      cases hsome
    obtain ⟨a, b, hab⟩ := List.length_eq_two.mp hlen
    refine ⟨a, b, hab, fun heq => ?_⟩
    have hedges : faninEdges ntk n = [⟨a, n⟩, ⟨b, n⟩] := by rw [faninEdges_eq, hab]; rfl
    have hsome := h.painted n (hgate n hn) ⟨a, n⟩ (by rw [hedges]; simp)
    obtain ⟨c, hc⟩ := Option.isSome_iff_exists.mp hsome
    have hcolored : (sharedColor ntk ctn.edgeColor n).isSome := by
      refine sharedColor_isSome (c := c) fun fe hfe => ?_
      rw [hedges, List.mem_cons, List.mem_singleton] at hfe
      rcases hfe with rfl | rfl
      · exact hc
      · rw [← heq, hc]
    rw [← h.color n (hgate n hn), hnone] at hcolored
    cases hcolored

/-- The colouring terminates and obeys its law. -/
theorem eastSouthEdgeColoring_law (ntk : TechnologyNetwork) (V : FanoutView ntk)
    (T : ntk.TopoView) (hv : Colorable V) :
    ∃ ctn, (∀ fuel > (edges ntk).card, eastSouthEdgeColoring ntk V T fuel = some ctn) ∧
      EdgeColoringLaw V ctn := by
  obtain ⟨ctn, hrun, hcolored⟩ := exists_coloring V T
  exact ⟨ctn, hrun, hcolored.law hv (settled_coloring hv.fanouts (hrun _ (Nat.lt_succ_self _)))⟩

/-- Three gates read three inputs in a circle, so that no colouring meets all demands. -/
def circle : TechnologyNetwork :=
  let (ntk, a) := empty.createPi
  let (ntk, b) := ntk.createPi
  let (ntk, c) := ntk.createPi
  let (ntk, x) := ntk.createAnd a b
  let (ntk, y) := ntk.createAnd b c
  let (ntk, z) := ntk.createAnd c a
  ((ntk.createPo x).createPo y).createPo z

def circleView : circle.TopoView := creationView (by decide) (by decide)

theorem circle_colorable : Colorable circle.fanoutView where
  fanouts n _ := by
    by_cases hn : n < 8
    · have h : ∀ m < 8, (circle.fanoutView.fanouts m).toFinset.card ≤ 2 := by decide
      exact h n hn
    · have hnone : circle.fanoutView.fanouts n = [] := by
        refine List.filter_eq_nil_iff.mpr fun m hm => ?_
        have hchildren : ∀ m < 8, ∀ c ∈ (circle.node m).children, c < 8 := by decide
        rw [List.contains_iff_mem]
        exact fun hc => hn (hchildren m (mem_creationOrder.mp hm).1 n hc)
      rw [hnone]
      exact Nat.zero_le 2
  fanins n hn := by
    have h : ∀ m < 8, circle.IsGate m →
        ((circle.node m).children.filter (!isConstant ·)).length = 2 := by decide
    exact .inr (h n hn.1 hn)
  cone n hn := by
    have h : ∀ m < 8, circle.IsGate m → m ∈ circle.foreachPo := by decide
    exact .po (h n hn.1 hn)

/-- One gate of the circle has incoming edges of both colours. -/
example : (eastSouthEdgeColoring circle circle.fanoutView circleView 10).map (·.color 7) =
    some none := by decide +kernel

theorem eastSouthEdgeColoring_law_circle :
    ∃ ctn, (∀ fuel > (edges circle).card,
      eastSouthEdgeColoring circle circle.fanoutView circleView fuel = some ctn) ∧
        EdgeColoringLaw circle.fanoutView ctn :=
  eastSouthEdgeColoring_law circle circle.fanoutView circleView circle_colorable

end Run
end Orthogonal
end Fiction
