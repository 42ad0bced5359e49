import Fiction.Layouts.Elements
import Fiction.Library.GridDrawing
import Fiction.PhysicalDesign.OrthogonalStages

/-!
# Canvases show drawings

A canvas shows a drawing if its tiles in use are the positions that are not blank, a crossing taking
both layers, and if no tile has been used twice. The wires of the placement extend the drawing that
a canvas shows by runs, provided that these runs are admitted.
-/

namespace Fiction.Orthogonal

open GridDrawing GateLevelLayout

/-- A crossing also takes the second layer. -/
def Occupies (d : Drawing) (t : Tile) : Prop :=
  t.isDead = false ∧ (t.z = 0 ∧ d t.x t.y ≠ .blank ∨ t.z = 1 ∧ d t.x t.y = .crossing)

/-- `c` lies directly in front of `t`, in the west or in the north. -/
def Precedes (c t : Tile) : Prop := c.x + 1 = t.x ∧ c.y = t.y ∨ c.x = t.x ∧ c.y + 1 = t.y

/-- The signals differ, and their order does not matter for the value of the function. -/
structure Commutes (cs : List Signal) (f : TruthTable) : Prop where
  nodup : cs.Nodup
  eval_perm : ∀ l : List Signal, l.Perm cs → ∀ val : Tile → Bool,
    f.eval (l.map val) = f.eval (cs.map val)

/-- How often the tiles in use read the node `m`. -/
def readings (cv : Canvas) (m : ℕ) : ℕ :=
  (cv.used.map fun r => (cv.layout.reads r).countP (cv.layout.getNode · = m)).sum

structure Shows (D : ClockedLayout) (d : Drawing) (cv : Canvas) : Prop where
  clocked : cv.layout.clocked = D
  placement : PlacementInv cv.layout
  nodup : cv.used.Nodup
  mem_used : ∀ t, t ∈ cv.used ↔ Occupies d t
  element : ∀ t, (cv.layout.element t).isSome ↔ t ∈ cv.used
  /-- only vertices are not wires -/
  wire : ∀ t ∈ cv.used, d t.x t.y ≠ .vertex →
    ∃ s, cv.layout.element t = some ([s], .identity)
  precedes : ∀ t cs f, cv.layout.element t = some (cs, f) → ∀ c ∈ cs, Precedes c t
  commutes : ∀ t cs f, cv.layout.element t = some (cs, f) → Commutes cs f
  /-- tiles are used after the tiles that they read -/
  sorted : cv.layout.elementGraph.Sorted (fun _ => False) cv.used
  alive : ∀ t ∈ cv.used, cv.layout.isDead (cv.layout.getNode t) = false
  counted : ∀ m < cv.layout.size, cv.layout.refCount m = readings cv m
  numPos : cv.layout.numPos = cv.layout.outputs.length
  numPis : cv.layout.numPis = cv.layout.inputs.length
  outputs : ∀ o ∈ cv.layout.outputs, o ∈ cv.used
  border : ∀ o ∈ cv.layout.outputs, o.x = D.x ∧ ∃ s, cv.layout.element o = some ([s], .identity)
  constants : ∀ k ≤ 1, (cv.layout.node k).children = []

section Shown

variable {D : ClockedLayout} {d : Drawing} {cv : Canvas} {t : Tile} {cs : List Signal} {m : ℕ}

theorem Shows.live (h : Shows D d cv) (ht : t ∈ cv.used) : t.isDead = false :=
  ((h.mem_used t).mp ht).1

theorem Shows.z_le (h : Shows D d cv) (ht : t ∈ cv.used) : t.z ≤ 1 := by
  obtain ⟨-, ⟨hz, -⟩ | ⟨hz, -⟩⟩ := (h.mem_used t).mp ht <;> omega

theorem Shows.isEmptyTile_eq_false (h : Shows D d cv) (ht : t ∈ cv.used) :
    cv.layout.isEmptyTile t = false := by
  have hsome := (h.element t).mpr ht
  rw [← Bool.not_eq_true, ← element_eq_none_iff (h.live ht)]
  intro hnone
  rw [hnone] at hsome
  cases hsome

theorem Shows.isEmptyTile_eq_true (h : Shows D d cv) (hlive : t.isDead = false)
    (ht : t ∉ cv.used) : cv.layout.isEmptyTile t = true := by
  rw [← element_eq_none_iff hlive, ← Option.not_isSome_iff_eq_none, h.element]
  exact ht

theorem Shows.eq_of_getNode_eq (h : Shows D d cv) {t' : Tile} (ht : t ∈ cv.used)
    (ht' : t' ∈ cv.used) (he : cv.layout.getNode t = cv.layout.getNode t') : t = t' := by
  have hmap : ∀ s ∈ cv.used, cv.layout.nodeTileMap (cv.layout.getNode s) = some s := fun s hs =>
    h.placement.tile_of_node s _ (h.live hs)
      (GateLevelLayout.tileNodeMap_getNode (h.isEmptyTile_eq_false hs))
  have heq := hmap t ht
  rw [he, hmap t' ht'] at heq
  exact (Option.some.inj heq).symm

theorem Shows.mem_of_mem_reads (h : Shows D d cv) (ht : t ∈ cv.used) {c : Tile}
    (hc : c ∈ cv.layout.reads t) : c ∈ cv.used :=
  (h.sorted.deps ht hc).resolve_left id

/-- Different signals are different nodes. -/
theorem Shows.countP_le_one (h : Shows D d cv) (hcs : ∀ c ∈ cs, c ∈ cv.used) (hnd : cs.Nodup)
    (m : ℕ) : cs.countP (cv.layout.getNode · = m) ≤ 1 := by
  by_cases hm : ∃ c ∈ cs, cv.layout.getNode c = m
  · obtain ⟨c, hc, rfl⟩ := hm
    calc cs.countP (fun c' => decide (cv.layout.getNode c' = cv.layout.getNode c))
        = cs.count c := List.countP_congr fun c' hc' => by
          rw [decide_eq_true_iff, beq_iff_eq]
          exact ⟨h.eq_of_getNode_eq (hcs c' hc') (hcs c hc), congrArg _⟩
      _ ≤ 1 := List.nodup_iff_count_le_one.mp hnd c
  · apply le_of_eq_of_le _ (Nat.zero_le 1)
    rw [List.countP_eq_zero]
    exact fun c hc he => hm ⟨c, hc, of_decide_eq_true he⟩

theorem sum_map_le_length_filter {l : List Tile} {f : Tile → ℕ} {p : Tile → Bool}
    (h : ∀ a ∈ l, f a ≤ if p a then 1 else 0) : (l.map f).sum ≤ (l.filter p).length := by
  induction l with
  | nil => exact le_rfl
  | cons a l ih =>
    have ha := h a List.mem_cons_self
    have hl := ih fun b hb => h b (List.mem_cons_of_mem a hb)
    rw [List.map_cons, List.sum_cons, List.filter_cons]
    split_ifs at ha ⊢
    · rw [List.length_cons]
      omega
    · omega

theorem Shows.readings_le (h : Shows D d cv) (m : ℕ) : readings cv m ≤ 4 := by
  have hnd : ∀ r ∈ cv.used, (cv.layout.reads r).Nodup := by
    intro r hr
    obtain ⟨e, he⟩ := Option.isSome_iff_exists.mp ((h.element r).mpr hr)
    rw [reads, he]
    exact (h.commutes r e.1 e.2 he).nodup
  have hle := sum_map_le_length_filter (l := cv.used)
    (f := fun r => (cv.layout.reads r).countP (cv.layout.getNode · = m))
    (p := fun r => (cv.layout.reads r).any (cv.layout.getNode · = m)) fun r hr => by
      split_ifs with hany
      · exact h.countP_le_one (fun c hc => h.mem_of_mem_reads hr hc) (hnd r hr) m
      · rw [Nat.le_zero, List.countP_eq_zero]
        exact fun c hc he => hany (List.any_eq_true.mpr ⟨c, hc, he⟩)
  refine hle.trans ?_
  by_cases hm : ∃ t ∈ cv.used, cv.layout.getNode t = m
  · obtain ⟨t, ht, rfl⟩ := hm
    have hsub : (cv.used.filter fun r => (cv.layout.reads r).any
        (cv.layout.getNode · = cv.layout.getNode t)) ⊆
        [.at3 (t.x + 1) t.y 0, .at3 (t.x + 1) t.y 1, .at3 t.x (t.y + 1) 0, .at3 t.x (t.y + 1) 1] := by
      intro r hfilter
      obtain ⟨hr, hany⟩ := List.mem_filter.mp hfilter
      obtain ⟨c, hc, he⟩ := List.any_eq_true.mp hany
      obtain rfl := h.eq_of_getNode_eq (h.mem_of_mem_reads hr hc) ht (of_decide_eq_true he)
      obtain ⟨e, he⟩ := Option.isSome_iff_exists.mp ((h.element r).mpr hr)
      have hp := h.precedes r e.1 e.2 he c (by rwa [reads, he] at hc)
      have hlive := h.live hr
      have hz := h.z_le hr
      clear hfilter hany hr he hc
      obtain ⟨dr, zr, yr, xr⟩ := r
      simp only [Precedes, Ucoord.isDead] at hp hlive hz
      simp only [List.mem_cons, List.not_mem_nil, or_false, Ucoord.at3, Ucoord.mk.injEq, hlive,
        true_and]
      omega
    exact ((h.nodup.filter _).subperm hsub).length_le
  · rw [List.filter_eq_nil_iff.mpr fun r hr hany => ?_]
    · exact Nat.zero_le 4
    · obtain ⟨c, hc, he⟩ := List.any_eq_true.mp hany
      exact hm ⟨c, h.mem_of_mem_reads hr hc, of_decide_eq_true he⟩

theorem Shows.refCount_eq (h : Shows D d cv) (m : ℕ) : cv.layout.refCount m = readings cv m := by
  by_cases hm : m < cv.layout.size
  · exact h.counted m hm
  · have hnode : cv.layout.node m = default := by
      rw [node, List.getD_eq_getElem?_getD, List.getElem?_eq_none (not_lt.mp hm)]
      rfl
    have hzero : readings cv m = 0 := by
      rw [readings, List.sum_eq_zero]
      intro k hk
      obtain ⟨r, -, rfl⟩ := List.mem_map.mp hk
      rw [List.countP_eq_zero]
      intro c _ he
      exact hm (of_decide_eq_true he ▸ h.placement.toMapsInv.getNode_lt c)
    rw [hzero, refCount, hnode]
    rfl

end Shown

/-- `cv'` has further tiles. The nodes on them are new ones that read some signals or belong to
`moved`, and `pos` lists the outputs among them. -/
structure Extends (moved : List ℕ) (pos : List Tile) (cv cv' : Canvas) : Prop where
  mem : ∀ t ∈ cv.used, t ∈ cv'.used
  element : ∀ t ∈ cv.used, cv'.layout.element t = cv.layout.element t
  getNode : ∀ t ∈ cv.used, cv'.layout.getNode t = cv.layout.getNode t
  new : ∀ t ∈ cv'.used, t ∉ cv.used →
    cv.layout.size ≤ cv'.layout.getNode t ∧ cv'.layout.reads t ≠ [] ∨
      cv'.layout.getNode t ∈ moved
  size : cv.layout.size ≤ cv'.layout.size
  nodes : ∀ m, cv.layout.size ≤ m → m < cv'.layout.size →
    ∃ t ∈ cv'.used, cv'.layout.getNode t = m
  settles : ∀ m ∈ moved, ∃ t ∈ cv'.used, cv'.layout.getNode t = m
  function : ∀ m < cv.layout.size, (cv'.layout.node m).function = (cv.layout.node m).function
  children : ∀ m < cv.layout.size, m ∉ moved →
    (cv'.layout.node m).children = (cv.layout.node m).children
  outputs : cv'.layout.outputs = cv.layout.outputs ++ pos
  inputs : cv'.layout.foreachPi = cv.layout.foreachPi

/-- Some tile in use reads `t`. -/
def IsRead (cv : Canvas) (t : Tile) : Prop := ∃ r ∈ cv.used, t ∈ cv.layout.reads r

/-- Where `cv'` goes on from the tiles `ss`, all tiles that it has beyond `cv` are read but `t`, and
of the tiles of `cv` only `ss` are read in addition. -/
structure Links (ss : List Tile) (t : Tile) (cv cv' : Canvas) : Prop where
  mem : ∀ s ∈ ss, s ∈ cv.used
  fresh : t ∈ ss ∧ (∀ s ∈ ss, s = t) ∨ t ∉ cv.used
  isRead_iff : ∀ s, IsRead cv' s ↔
    IsRead cv s ∨ s ≠ t ∧ (s ∈ ss ∨ s ∈ cv'.used ∧ s ∉ cv.used)

section Extends

variable {moved moved' : List ℕ} {pos pos' : List Tile} {cv cv' cv'' : Canvas}

theorem Extends.refl : Extends [] [] cv cv where
  mem _ h := h
  element _ _ := rfl
  getNode _ _ := rfl
  new _ h h' := absurd h h'
  size := le_rfl
  nodes _ h h' := absurd h' (not_lt.mpr h)
  settles _ h := absurd h List.not_mem_nil
  function _ _ := rfl
  children _ _ _ := rfl
  outputs := (List.append_nil _).symm
  inputs := rfl

theorem Extends.trans (h : Extends moved pos cv cv') (h' : Extends moved' pos' cv' cv'') :
    Extends (moved ++ moved') (pos ++ pos') cv cv'' where
  mem t ht := h'.mem t (h.mem t ht)
  element t ht := (h'.element t (h.mem t ht)).trans (h.element t ht)
  getNode t ht := (h'.getNode t (h.mem t ht)).trans (h.getNode t ht)
  new t ht hnew := by
    by_cases hmid : t ∈ cv'.used
    · rw [h'.getNode t hmid, reads, h'.element t hmid]
      exact (h.new t hmid hnew).imp_right (List.mem_append_left _)
    · exact (h'.new t ht hmid).imp (And.imp_left h.size.trans) (List.mem_append_right _)
  size := h.size.trans h'.size
  nodes m hm hlt := by
    by_cases hmid : m < cv'.layout.size
    · obtain ⟨t, ht, he⟩ := h.nodes m hm hmid
      exact ⟨t, h'.mem t ht, (h'.getNode t ht).trans he⟩
    · exact h'.nodes m (not_lt.mp hmid) hlt
  settles m hm := by
    rcases List.mem_append.mp hm with hm | hm
    · obtain ⟨t, ht, he⟩ := h.settles m hm
      exact ⟨t, h'.mem t ht, (h'.getNode t ht).trans he⟩
    · exact h'.settles m hm
  function m hm := (h'.function m (hm.trans_le h.size)).trans (h.function m hm)
  children m hm hnot := by
    rw [List.mem_append, not_or] at hnot
    exact (h'.children m (hm.trans_le h.size) hnot.2).trans (h.children m hm hnot.1)
  outputs := by rw [h'.outputs, h.outputs, List.append_assoc]
  inputs := h'.inputs.trans h.inputs

theorem Extends.steady {D : ClockedLayout} {d : Drawing} (h : Extends moved pos cv cv')
    (hs : Shows D d cv) {val : Tile → Bool} (hval : cv'.layout.Steady val) :
    cv.layout.Steady val := by
  intro t cs f he hcs
  have ht : t ∈ cv.used := (hs.element t).mp (by rw [he]; rfl)
  exact hval t cs f ((h.element t ht).trans he) hcs

/-- What is led to `mid` is read there, or nothing was led at all. -/
theorem Links.trans {ss₀ ss ss' : List Tile} {mid t : Tile} (h : Links ss₀ mid cv cv')
    (hext : Extends moved pos cv cv') (hext' : Extends moved' pos' cv' cv'')
    (h' : Links ss t cv' cv'') (hmid : mid ∈ ss) (hmem : ∀ s ∈ ss', s ∈ cv.used)
    (hstart : ∀ s ∈ ss₀, s ∈ ss') (hss : ∀ s ∈ ss, s = mid ∨ s ∈ ss')
    (hss' : ∀ s ∈ ss', s ∈ ss₀ ∨ s ∈ ss) : Links ss' t cv cv'' where
  mem := hmem
  fresh := by
    rcases h'.fresh with ⟨ht, hall⟩ | ht
    · obtain rfl := hall mid hmid
      rcases h.fresh with ⟨hmid', hall'⟩ | hnew
      · exact .inl ⟨hstart mid hmid', fun s hs => (hss' s hs).elim (hall' s) (hall s)⟩
      · exact .inr hnew
    · exact .inr fun hused => ht (hext.mem t hused)
  isRead_iff s := by
    have hend : t = mid ∨ t ∉ cv'.used := h'.fresh.imp_left fun ht => (ht.2 mid hmid).symm
    have hnew : mid ∈ ss' ∨ mid ∉ cv.used := h.fresh.imp_left fun hmid' => hstart mid hmid'.1
    have hmid' : mid ∈ cv''.used := hext'.mem mid (h'.mem mid hmid)
    rw [h'.isRead_iff, h.isRead_iff]
    constructor
    · rintro ((hread | ⟨hne, hs | ⟨hs, hnot⟩⟩) | ⟨hne, hs | ⟨hs, hnot⟩⟩)
      · exact .inl hread
      · have hused : s ∈ cv'.used := hext.mem s (h.mem s hs)
        refine .inr ⟨?_, .inl (hstart s hs)⟩
        rintro rfl
        exact hend.elim hne fun ht => ht hused
      · refine .inr ⟨?_, .inr ⟨hext'.mem s hs, hnot⟩⟩
        rintro rfl
        exact hend.elim hne fun ht => ht hs
      · rcases hss s hs with rfl | hs
        · exact .inr ⟨hne, hnew.imp_right fun hnot => ⟨hmid', hnot⟩⟩
        · exact .inr ⟨hne, .inl hs⟩
      · exact .inr ⟨hne, .inr ⟨hs, fun hused => hnot (hext.mem s hused)⟩⟩
    · rintro (hread | ⟨hne, hs⟩)
      · exact .inl (.inl hread)
      by_cases heq : s = mid
      · exact .inr ⟨hne, .inl (heq ▸ hmid)⟩
      rcases hs with hs | ⟨hs, hnot⟩
      · rcases hss' s hs with hs | hs
        · exact .inl (.inr ⟨heq, .inl hs⟩)
        · exact .inr ⟨hne, .inl hs⟩
      · by_cases hold : s ∈ cv'.used
        · exact .inl (.inr ⟨heq, .inr ⟨hold, hnot⟩⟩)
        · exact .inr ⟨hne, .inr ⟨hs, hold⟩⟩

section Wire

variable {src mid a b t : Tile}

theorem Links.refl (ht : t ∈ cv.used) : Links [t] t cv cv where
  mem s hs := by rwa [List.mem_singleton.mp hs]
  fresh := .inl ⟨List.mem_singleton_self t, fun _ hs => List.mem_singleton.mp hs⟩
  isRead_iff s := by
    constructor
    · exact .inl
    · rintro (hread | ⟨hne, hs | ⟨hs, hnot⟩⟩)
      · exact hread
      · exact absurd (List.mem_singleton.mp hs) hne
      · exact absurd hs hnot

theorem Links.trans_single (h : Links [src] mid cv cv') (hext : Extends moved pos cv cv')
    (hext' : Extends moved' pos' cv' cv'') (h' : Links [mid] t cv' cv'') :
    Links [src] t cv cv'' := by
  apply h.trans hext hext' h' (List.mem_singleton_self mid) h.mem
  · exact fun s hs => hs
  · exact fun s hs => .inl (List.mem_singleton.mp hs)
  · exact fun s hs => .inl hs

theorem Links.trans_left (h : Links [src] mid cv cv') (hext : Extends moved pos cv cv')
    (hext' : Extends moved' pos' cv' cv'') (h' : Links [mid, b] t cv' cv'') (hb : b ∈ cv.used) :
    Links [src, b] t cv cv'' := by
  have hsrc := h.mem src (List.mem_singleton_self src)
  apply h.trans hext hext' h' List.mem_cons_self
  · simp [hsrc, hb]
  · simp
  · simp
  · simp

theorem Links.trans_right (h : Links [src] mid cv cv') (hext : Extends moved pos cv cv')
    (hext' : Extends moved' pos' cv' cv'') (h' : Links [a, mid] t cv' cv'') (ha : a ∈ cv.used) :
    Links [a, src] t cv cv'' := by
  have hsrc := h.mem src (List.mem_singleton_self src)
  apply h.trans hext hext' h' (List.mem_cons_of_mem a (List.mem_singleton_self mid))
  · simp [hsrc, ha]
  · simp
  · simp
  · simp [or_comm]

end Wire

end Extends

section Commutes

variable {f : TruthTable} {a b : Signal}

theorem commutes_nil : Commutes [] f := by
  refine ⟨List.nodup_nil, fun l hl val => ?_⟩
  rw [List.perm_nil.mp hl]

theorem commutes_singleton : Commutes [a] f := by
  refine ⟨List.nodup_singleton a, fun l hl val => ?_⟩
  rw [List.perm_singleton.mp hl]

theorem commutes_pair (hab : a ≠ b) (hf : ∀ u v, f.eval [u, v] = f.eval [v, u]) :
    Commutes [a, b] f := by
  refine ⟨List.nodup_cons.mpr ⟨by simpa using hab, List.nodup_singleton b⟩, fun l hl val => ?_⟩
  match l, hl.length_eq with
  | [c, d], _ =>
    have hcase : c = a ∧ d = b ∨ c = b ∧ d = a := by
      rcases List.mem_cons.mp (hl.mem_iff.mp (List.mem_cons_self (a := c) (l := [d]))) with rfl | hc
      · exact .inl ⟨rfl, by simpa using (List.perm_cons c).mp hl⟩
      · obtain rfl := List.mem_singleton.mp hc
        exact .inr ⟨rfl, by simpa using (List.perm_cons c).mp (hl.trans (List.Perm.swap c a []))⟩
    rcases hcase with ⟨rfl, rfl⟩ | ⟨rfl, rfl⟩
    · rfl
    · exact hf (val c) (val d)

end Commutes

/-- In every steady state, the same value is on both tiles. -/
def Conducts (cv : Canvas) (s t : Tile) : Prop :=
  ∀ val, cv.layout.Steady val → val t = val s

section Put

variable {D : ClockedLayout} {d d' : Drawing} {cv : Canvas} {t : Tile} {cs : List Signal}
  {f : TruthTable} {moved : List ℕ} {pos : List Tile} {r : GateLevelLayout × Signal} {s : Signal}

theorem Shows.conducts {t s : Tile} (h : cv.layout.element t = some ([s], .identity)) :
    Conducts cv s t := by
  intro val hval
  rw [hval t [s] .identity h (List.cons_ne_nil _ _)]
  exact TruthTable.eval_identity _

/-- The position of `t` is blank, or `t` is the tile above a run. -/
structure Adds (d : Drawing) (t : Tile) (d' : Drawing) : Prop where
  live : t.isDead = false
  same : ∀ i j, i ≠ t.x ∨ j ≠ t.y → d' i j = d i j
  here : t.z = 0 ∧ d t.x t.y = .blank ∧ d' t.x t.y ≠ .blank ∧ d' t.x t.y ≠ .crossing ∨
    t.z = 1 ∧ (d t.x t.y = .horizontal ∨ d t.x t.y = .vertical) ∧ d' t.x t.y = .crossing

theorem Adds.occupies_iff (h : Adds d t d') (s : Tile) : Occupies d' s ↔ Occupies d s ∨ s = t := by
  have heq : s = t ↔ s.isDead = false ∧ s.z = t.z ∧ s.x = t.x ∧ s.y = t.y := by
    have hlive := h.live
    obtain ⟨ds, zs, ys, xs⟩ := s
    obtain ⟨dt, zt, yt, xt⟩ := t
    simp only [Ucoord.isDead] at hlive ⊢
    rw [Ucoord.mk.injEq, hlive]
    tauto
  by_cases hpos : s.x = t.x ∧ s.y = t.y
  · obtain ⟨hx, hy⟩ := hpos
    rw [heq, Occupies, Occupies, hx, hy]
    rcases h.here with ⟨hz, hd, hblank, hcrossing⟩ | ⟨hz, hd, hcrossing⟩
    · simp only [hd, hz, ne_eq, not_true, and_false, reduceCtorEq, or_self, false_or, hblank,
        hcrossing, not_false_eq_true, and_true, or_false]
    · rcases hd with hd | hd <;>
        simp only [hd, hz, hcrossing, ne_eq, reduceCtorEq, not_false_eq_true, and_true, and_false,
          or_false, ← and_or_left]
  · have hsame := h.same s.x s.y (by omega)
    rw [heq, Occupies, Occupies, hsame]
    tauto

theorem Adds.not_occupies (h : Adds d t d') : ¬ Occupies d t := by
  rintro ⟨-, hocc⟩
  rcases h.here with ⟨hz, hd, -⟩ | ⟨hz, hd, -⟩
  · rcases hocc with ⟨-, hne⟩ | ⟨hz', -⟩
    · exact hne hd
    · omega
  · rcases hocc with ⟨hz', -⟩ | ⟨-, hcrossing⟩
    · omega
    · rcases hd with hd | hd <;> rw [hd] at hcrossing <;> cases hcrossing

/-- Something that reads tiles in front of it is put on a free tile. -/
theorem Shows.put (h : Shows D d cv) (hadds : Adds d t d')
    (hr : Appears cv.layout t (cs, f) moved pos r.1) (hclocked : r.1.clocked = cv.layout.clocked)
    (hcs : ∀ c ∈ cs, c ∈ cv.used ∧ Precedes c t) (hcommutes : Commutes cs f)
    (hwire : d' t.x t.y ≠ .vertex → ∃ s, cs = [s] ∧ f = .identity)
    (hcounts : cv.layout.isEmptyTile t = true → Counts cv.layout t cs r.1)
    (hpos : ∀ o ∈ pos, o = t ∧ t.x = D.x ∧ ∃ s, cs = [s] ∧ f = .identity) :
    Shows D d' (cv.put t r).1 ∧ Extends moved pos cv (cv.put t r).1 ∧
      Links cs t cv (cv.put t r).1 := by
  have hnew : t ∉ cv.used := fun ht => hadds.not_occupies ((h.mem_used t).mp ht)
  have hne : ∀ {s}, s ∈ cv.used → s ≠ t := by
    rintro s hs rfl
    exact hnew hs
  have hold : ∀ s ∈ cv.used, r.1.element s = cv.layout.element s := by
    intro s hs
    rw [hr.element, Function.update_of_ne (hne hs)]
  have hhere : r.1.element t = some (cs, f) := by rw [hr.element, Function.update_self]
  have hmem : ∀ s, s ∈ cv.used ++ [t] ↔ s ∈ cv.used ∨ s = t := by simp
  have hlive : ∀ s ∈ cv.used, s.isDead = false := fun s hs => h.live hs
  have hword : ∀ m < r.1.size, r.1.refCount m =
      cv.layout.refCount m + cs.countP (cv.layout.getNode · = m) ∧
        (r.1.isDead m = true ↔ cv.layout.isDead m = true ∧ m ≠ r.1.getNode t) := by
    intro m hm
    apply hcounts (h.isEmptyTile_eq_true hadds.live hnew) m hm
    have hle := h.readings_le m
    have hone := h.countP_le_one (fun c hc => (hcs c hc).1) hcommutes.nodup m
    rw [h.refCount_eq]
    omega
  have hnode : ∀ s ∈ cv.used, r.1.getNode s = cv.layout.getNode s := fun s hs =>
    hr.getNode s (hlive s hs) (hne hs)
  have hself : t ∈ (cv.put t r).1.used := (hmem t).mpr (.inr rfl)
  refine ⟨?_, ?_, ?_⟩
  · constructor
    case clocked => exact hclocked.trans h.clocked
    case placement => exact hr.placement
    case nodup =>
      apply List.nodup_append.mpr
      refine ⟨h.nodup, List.nodup_singleton t, ?_⟩
      rintro s hs _ ht rfl
      exact hne hs (List.mem_singleton.mp ht)
    case mem_used =>
      intro s
      change s ∈ cv.used ++ [t] ↔ _
      rw [hmem, hadds.occupies_iff, h.mem_used]
    case element =>
      intro s
      change (r.1.element s).isSome ↔ s ∈ cv.used ++ [t]
      by_cases hs : s = t
      · subst hs
        simp [hhere]
      · rw [hr.element, Function.update_of_ne hs, h.element, hmem]
        simp only [hs, or_false]
    case wire =>
      intro s hs hvertex
      rcases (hmem s).mp hs with hs | rfl
      · have hvertex' : d s.x s.y ≠ .vertex := by
          by_cases hpos : s.x = t.x ∧ s.y = t.y
          · obtain ⟨hx, hy⟩ := hpos
            rw [hx, hy]
            rcases hadds.here with ⟨-, hd, -⟩ | ⟨-, hd | hd, -⟩ <;> rw [hd] <;> intro he <;> cases he
          · rwa [← hadds.same s.x s.y (by omega)]
        obtain ⟨c, hc⟩ := h.wire s hs hvertex'
        exact ⟨c, (hold s hs).trans hc⟩
      · obtain ⟨c, rfl, rfl⟩ := hwire hvertex
        exact ⟨c, hhere⟩
    case precedes =>
      intro s cs' f' he c hc
      by_cases hs : s = t
      · subst hs
        obtain ⟨rfl, rfl⟩ := Prod.mk.inj (Option.some.inj (hhere.symm.trans he))
        exact (hcs c hc).2
      · have he' : cv.layout.element s = some (cs', f') := by
          rw [← he]
          exact ((congrFun hr.element s).trans (Function.update_of_ne hs ..)).symm
        exact h.precedes s cs' f' he' c hc
    case commutes =>
      intro s cs' f' he
      by_cases hs : s = t
      · subst hs
        obtain ⟨rfl, rfl⟩ := Prod.mk.inj (Option.some.inj (hhere.symm.trans he))
        exact hcommutes
      · have he' : cv.layout.element s = some (cs', f') := by
          rw [← he]
          exact ((congrFun hr.element s).trans (Function.update_of_ne hs ..)).symm
        exact h.commutes s cs' f' he'
    case sorted =>
      apply Graph.sorted_append.mpr
      constructor
      · apply h.sorted.congr_of_mem
        intro s hs
        change r.1.reads s = cv.layout.reads s
        rw [reads, reads, hold s hs]
      · refine ⟨fun hk => hnew (hk.resolve_left id), ?_, trivial⟩
        intro c hc
        have hreads : r.1.reads t = cs := by rw [reads, hhere]; rfl
        exact .inr (hcs c (hreads ▸ hc)).1
    case alive =>
      intro s hs
      change r.1.isDead (r.1.getNode s) = false
      rw [← Bool.not_eq_true, (hword _ (hr.placement.toMapsInv.getNode_lt s)).2]
      rcases (hmem s).mp hs with hs | rfl
      · rw [hnode s hs, h.alive s hs]
        exact fun he => Bool.false_ne_true he.1
      · exact fun he => he.2 rfl
    case counted =>
      intro m hm
      change r.1.refCount m = ((cv.used ++ [t]).map fun s =>
        (r.1.reads s).countP (r.1.getNode · = m)).sum
      have hreads : r.1.reads t = cs := by rw [reads, hhere]; rfl
      have hsame : ∀ s ∈ cv.used, (r.1.reads s).countP (r.1.getNode · = m) =
          (cv.layout.reads s).countP (cv.layout.getNode · = m) := by
        intro s hs
        rw [reads, hold s hs]
        apply List.countP_congr
        intro c hc
        rw [hnode c (h.mem_of_mem_reads hs hc)]
      have hcount : cs.countP (r.1.getNode · = m) = cs.countP (cv.layout.getNode · = m) := by
        apply List.countP_congr
        intro c hc
        rw [hnode c (hcs c hc).1]
      rw [(hword m hm).1, h.refCount_eq, readings, List.map_append, List.sum_append,
        List.map_congr_left hsame, List.map_singleton, List.sum_singleton, hreads, hcount]
    case numPos =>
      change r.1.numPos = r.1.outputs.length
      rw [hr.numPos, hr.outputs, List.length_append, h.numPos]
    case outputs =>
      intro o ho
      apply (hmem o).mpr
      rcases List.mem_append.mp (hr.outputs ▸ ho) with ho | ho
      · exact .inl (h.outputs o ho)
      · exact .inr (hpos o ho).1
    case numPis =>
      change r.1.numPis = r.1.inputs.length
      rw [hr.numPis, hr.inputs, h.numPis]
    case border =>
      intro o ho
      rcases List.mem_append.mp (hr.outputs ▸ ho) with ho | ho
      · obtain ⟨hx, s, hs⟩ := h.border o ho
        exact ⟨hx, s, (hold o (h.outputs o ho)).trans hs⟩
      · obtain ⟨rfl, hx, s, rfl, rfl⟩ := hpos o ho
        exact ⟨hx, s, hhere⟩
    case constants =>
      intro k hk
      have hocc : r.1.isEmptyTile t = false := by
        rw [← Bool.not_eq_true, ← element_eq_none_iff hadds.live, hhere]
        intro he
        cases he
      have htwo := hr.placement.live_node t _ hadds.live (tileNodeMap_getNode hocc)
      have hsize := h.placement.two_le_size
      refine (hr.children k (by omega) fun hmoved => ?_).trans (h.constants k hk)
      have := hr.settles k hmoved
      omega
  · constructor
    case mem => exact fun s hs => (hmem s).mpr (.inl hs)
    case element => exact hold
    case getNode => exact hnode
    case new =>
      intro s hs hnot
      obtain rfl := ((hmem s).mp hs).resolve_left hnot
      have hreads : r.1.reads s = cs := by rw [reads, hhere]; rfl
      change _ ∧ r.1.reads s ≠ [] ∨ _
      rw [hreads]
      exact hr.new
    case size => exact hr.size
    case nodes => exact fun m hm hlt => ⟨t, hself, hr.nodes m hm hlt⟩
    case settles => exact fun m hm => ⟨t, hself, hr.settles m hm⟩
    case function => exact hr.function
    case children => exact hr.children
    case outputs => exact hr.outputs
    case inputs =>
      change r.1.inputs.take r.1.numPis = _
      rw [hr.inputs, hr.numPis]
      rfl
  · constructor
    case mem => exact fun s hs => (hcs s hs).1
    case fresh => exact .inr hnew
    case isRead_iff =>
      intro s
      have hreads : r.1.reads t = cs := by rw [reads, hhere]; rfl
      constructor
      · rintro ⟨u, hu, hread⟩
        rcases (hmem u).mp hu with hu | rfl
        · left
          refine ⟨u, hu, ?_⟩
          rwa [reads, ← hold u hu]
        · change s ∈ r.1.reads u at hread
          rw [hreads] at hread
          exact .inr ⟨hne (hcs s hread).1, .inl hread⟩
      · rintro (⟨u, hu, hread⟩ | ⟨hs, hread | ⟨hmem', hnot⟩⟩)
        · refine ⟨u, (hmem u).mpr (.inl hu), ?_⟩
          change s ∈ r.1.reads u
          rwa [reads, hold u hu]
        · refine ⟨t, hself, ?_⟩
          change s ∈ r.1.reads t
          rwa [hreads]
        · exact absurd (((hmem s).mp hmem').resolve_left hnot) hs

end Put

/-- A signal is led from `src` on, and nothing else happens. -/
structure Leads (D : ClockedLayout) (d' : Drawing) (cv : Canvas) (src : Tile)
    (res : Canvas × Signal) : Prop where
  shown : Shows D d' res.1
  extension : Extends [] [] cv res.1
  mem : res.2 ∈ res.1.used
  links : Links [src] res.2 cv res.1
  conducts : Conducts res.1 src res.2

section Wires

variable {D : ClockedLayout} {d d' : Drawing} {cv : Canvas} {s src t : Tile} {x y k : ℕ}

theorem Shows.leads (h : Shows D d cv) (hs : s ∈ cv.used) : Leads D d cv s (cv, s) :=
  ⟨h, .refl, hs, .refl hs, fun _ _ => rfl⟩

theorem Leads.trans {res res' : Canvas × Signal} (h : Leads D d cv src res)
    (h' : Leads D d' res.1 res.2 res') : Leads D d' cv src res' where
  shown := h'.shown
  extension := h.extension.trans h'.extension
  mem := h'.mem
  links := h.links.trans_single h.extension h'.extension h'.links
  conducts val hval := (h'.conducts val hval).trans
    (h.conducts val (h'.extension.steady h.shown hval))

theorem Shows.createBuf (h : Shows D d cv) (hadds : Adds d t d') (hs : s ∈ cv.used)
    (hp : Precedes s t) : Leads D d' cv s (cv.createBuf s t) := by
  have happears := appears_createNodeFromLiteral h.placement hadds.live (List.cons_ne_nil s [])
    .identity
  obtain ⟨hshown, hext, hlinks⟩ := h.put hadds happears
    (createNodeFromLiteral_clocked [s] .identity t)
    (fun c hc => by rw [List.mem_singleton.mp hc]; exact ⟨hs, hp⟩) commutes_singleton
    (fun _ => ⟨s, rfl, rfl⟩)
    (fun hempty => counts_createNodeFromLiteral h.placement.toMapsInv hadds.live hempty
      (List.cons_ne_nil s []) .identity)
    (fun _ ho => by cases ho)
  refine ⟨hshown, hext, List.mem_append_right _ (List.mem_singleton_self t), hlinks, ?_⟩
  apply Shows.conducts
  exact (congrFun happears.element t).trans (Function.update_self ..)

/-- A run is extended by one position. -/
theorem Shows.extendWire (hz : D.z = 1) (h : Shows D d cv) (hs : s ∈ cv.used)
    (hp : Precedes s (.at2 x y)) (hsame : ∀ i j, i ≠ x ∨ j ≠ y → d' i j = d i j)
    (hhere : d x y = .blank ∧ (d' x y = .horizontal ∨ d' x y = .vertical) ∨
      (d x y = .horizontal ∨ d x y = .vertical) ∧ d' x y = .crossing) :
    Leads D d' cv s (Canvas.extendWire (cv, s) (.at2 x y)) ∧
      (Canvas.extendWire (cv, s) (.at2 x y)).2.x = x ∧
      (Canvas.extendWire (cv, s) (.at2 x y)).2.y = y ∧
      (d x y = .blank → (Canvas.extendWire (cv, s) (.at2 x y)).2 = .at2 x y) := by
  have hempty : cv.layout.isEmptyTile (.at2 x y) = true ↔ d x y = .blank := by
    rw [← element_eq_none_iff rfl, ← Option.not_isSome_iff_eq_none, h.element, h.mem_used]
    simp [Occupies, Ucoord.at2, Ucoord.isDead]
  rcases hhere with ⟨hblank, hnew⟩ | ⟨hrun, hnew⟩
  · have hext : Canvas.extendWire (cv, s) (.at2 x y) = cv.createBuf s (.at2 x y) := by
      rw [Canvas.extendWire, if_pos (hempty.mpr hblank)]
    rw [hext]
    refine ⟨h.createBuf ⟨rfl, hsame, .inl ⟨rfl, hblank, ?_, ?_⟩⟩ hs hp, rfl, rfl, fun _ => rfl⟩
    · change d' x y ≠ .blank
      rcases hnew with hnew | hnew <;> rw [hnew] <;> intro he <;> cases he
    · change d' x y ≠ .crossing
      rcases hnew with hnew | hnew <;> rw [hnew] <;> intro he <;> cases he
  · have hnot : d x y ≠ .blank := by
      rcases hrun with hrun | hrun <;> rw [hrun] <;> intro he <;> cases he
    have habove : cv.layout.clocked.above (.at2 x y) = .at3 x y 1 := by
      rw [h.clocked, CoordinateLayout.above, hz,
        if_neg (show ¬ (Ucoord.at2 x y).z > 1 from Nat.not_lt_zero 1),
        if_pos (show (Ucoord.at2 x y).z < 1 from Nat.zero_lt_one)]
      rfl
    have hext : Canvas.extendWire (cv, s) (.at2 x y) = cv.createBuf s (.at3 x y 1) := by
      rw [Canvas.extendWire, if_neg (fun he => hnot (hempty.mp he)), habove]
    rw [hext]
    exact ⟨h.createBuf ⟨rfl, hsame, .inr ⟨rfl, hrun, hnew⟩⟩ hs hp, rfl, rfl,
      fun hblank => absurd hblank hnot⟩

theorem Content.addRow_cases {c : Content} (h : c.AdmitsRow) :
    c = .blank ∧ (c.addRow = .horizontal ∨ c.addRow = .vertical) ∨
      (c = .horizontal ∨ c = .vertical) ∧ c.addRow = .crossing := by
  rcases h with rfl | rfl
  · exact .inl ⟨rfl, .inl rfl⟩
  · exact .inr ⟨.inr rfl, rfl⟩

theorem Content.addColumn_cases {c : Content} (h : c.AdmitsColumn) :
    c = .blank ∧ (c.addColumn = .horizontal ∨ c.addColumn = .vertical) ∨
      (c = .horizontal ∨ c = .vertical) ∧ c.addColumn = .crossing := by
  rcases h with rfl | rfl
  · exact .inl ⟨rfl, .inr rfl⟩
  · exact .inr ⟨.inl rfl, rfl⟩

theorem Shows.foldl_east (hz : D.z = 1) (h : Shows D d cv) (hs : src ∈ cv.used)
    (hrow : ∀ i, src.x < i → i < src.x + 1 + k → (d i src.y).AdmitsRow) :
    let res := ((List.range' (src.x + 1) k).map fun x => Ucoord.at2 x src.y).foldl
      Canvas.extendWire (cv, src)
    Leads D (d.drawEast src.y src.x (src.x + 1 + k)) cv src res ∧ res.2.x = src.x + k ∧
      res.2.y = src.y ∧
      (0 < k → d (src.x + k) src.y = .blank → res.2 = .at2 (src.x + k) src.y) := by
  induction k with
  | zero =>
    have hnone : d.drawEast src.y src.x (src.x + 1 + 0) = d := by
      funext i j
      exact Drawing.drawEast_of_ne (by omega)
    rw [hnone]
    exact ⟨h.leads hs, rfl, rfl, fun hk => absurd hk (lt_irrefl 0)⟩
  | succ k ih =>
    obtain ⟨hleads, hx, hy, -⟩ := ih fun i hi hlt => hrow i hi (by omega)
    rw [List.range'_1_concat, List.map_append, List.foldl_append]
    set res := ((List.range' (src.x + 1) k).map fun x => Ucoord.at2 x src.y).foldl
      Canvas.extendWire (cv, src) with hres
    have hcell : d.drawEast src.y src.x (src.x + 1 + k) (src.x + 1 + k) src.y =
        d (src.x + 1 + k) src.y := Drawing.drawEast_of_ne (by omega)
    have hnext : d.drawEast src.y src.x (src.x + 1 + (k + 1)) (src.x + 1 + k) src.y =
        (d (src.x + 1 + k) src.y).addRow := if_pos ⟨rfl, by omega, by omega⟩
    have hsame : ∀ i j, i ≠ src.x + 1 + k ∨ j ≠ src.y →
        d.drawEast src.y src.x (src.x + 1 + (k + 1)) i j =
          d.drawEast src.y src.x (src.x + 1 + k) i j := by
      intro i j hne
      exact if_congr (by omega) rfl rfl
    have hprecedes : Precedes res.2 (.at2 (src.x + 1 + k) src.y) :=
      .inl ⟨by rw [hx]; exact Nat.add_right_comm _ _ _, hy⟩
    obtain ⟨hleads', hx', hy', hground⟩ :=
      hleads.shown.extendWire hz hleads.mem hprecedes hsame
        (by
          rw [hcell, hnext]
          exact Content.addRow_cases (hrow _ (by omega) (by omega)))
    refine ⟨hleads.trans hleads', ?_, hy', fun _ hblank => ?_⟩
    · rw [show src.x + (k + 1) = src.x + 1 + k by omega]
      exact hx'
    · rw [show src.x + (k + 1) = src.x + 1 + k by omega] at hblank ⊢
      exact hground (hcell.trans hblank)

theorem Shows.foldl_south (hz : D.z = 1) (h : Shows D d cv) (hs : src ∈ cv.used)
    (hcolumn : ∀ j, src.y < j → j < src.y + 1 + k → (d src.x j).AdmitsColumn) :
    let res := ((List.range' (src.y + 1) k).map fun y => Ucoord.at2 src.x y).foldl
      Canvas.extendWire (cv, src)
    Leads D (d.drawSouth src.x src.y (src.y + 1 + k)) cv src res ∧ res.2.x = src.x ∧
      res.2.y = src.y + k ∧
      (0 < k → d src.x (src.y + k) = .blank → res.2 = .at2 src.x (src.y + k)) := by
  induction k with
  | zero =>
    have hnone : d.drawSouth src.x src.y (src.y + 1 + 0) = d := by
      funext i j
      exact Drawing.drawSouth_of_ne (by omega)
    rw [hnone]
    exact ⟨h.leads hs, rfl, rfl, fun hk => absurd hk (lt_irrefl 0)⟩
  | succ k ih =>
    obtain ⟨hleads, hx, hy, -⟩ := ih fun j hj hlt => hcolumn j hj (by omega)
    rw [List.range'_1_concat, List.map_append, List.foldl_append]
    set res := ((List.range' (src.y + 1) k).map fun y => Ucoord.at2 src.x y).foldl
      Canvas.extendWire (cv, src) with hres
    have hcell : d.drawSouth src.x src.y (src.y + 1 + k) src.x (src.y + 1 + k) =
        d src.x (src.y + 1 + k) := Drawing.drawSouth_of_ne (by omega)
    have hnext : d.drawSouth src.x src.y (src.y + 1 + (k + 1)) src.x (src.y + 1 + k) =
        (d src.x (src.y + 1 + k)).addColumn := if_pos ⟨rfl, by omega, by omega⟩
    have hsame : ∀ i j, i ≠ src.x ∨ j ≠ src.y + 1 + k →
        d.drawSouth src.x src.y (src.y + 1 + (k + 1)) i j =
          d.drawSouth src.x src.y (src.y + 1 + k) i j := by
      intro i j hne
      exact if_congr (by omega) rfl rfl
    have hprecedes : Precedes res.2 (.at2 src.x (src.y + 1 + k)) :=
      .inr ⟨hx, by rw [hy]; exact Nat.add_right_comm _ _ _⟩
    obtain ⟨hleads', hx', hy', hground⟩ :=
      hleads.shown.extendWire hz hleads.mem hprecedes hsame
        (by
          rw [hcell, hnext]
          exact Content.addColumn_cases (hcolumn _ (by omega) (by omega)))
    refine ⟨hleads.trans hleads', hx', ?_, fun _ hblank => ?_⟩
    · rw [show src.y + (k + 1) = src.y + 1 + k by omega]
      exact hy'
    · rw [show src.y + (k + 1) = src.y + 1 + k by omega] at hblank ⊢
      exact hground (hcell.trans hblank)

/-- A wire that is drawn eastwards shows as a run, and ends in front of its destination. -/
theorem Shows.wireEast (dest : Tile) (hz : D.z = 1) (h : Shows D d cv) (hs : src ∈ cv.used)
    (hlt : src.x < dest.x) (hrow : ∀ i, src.x < i → i < dest.x → (d i src.y).AdmitsRow) :
    Leads D (d.drawEast src.y src.x dest.x) cv src (cv.wireEast src dest) ∧
      (cv.wireEast src dest).2.x + 1 = dest.x ∧ (cv.wireEast src dest).2.y = src.y ∧
      (src.x + 1 < dest.x → d (dest.x - 1) src.y = .blank →
        (cv.wireEast src dest).2 = .at2 (dest.x - 1) src.y) := by
  have hdest : src.x + 1 + (dest.x - (src.x + 1)) = dest.x := by omega
  have hlast : src.x + (dest.x - (src.x + 1)) = dest.x - 1 := by omega
  obtain ⟨hleads, hx, hy, hground⟩ :=
    h.foldl_east (k := dest.x - (src.x + 1)) hz hs fun i hi hi' => hrow i hi (by omega)
  rw [hdest] at hleads
  rw [hlast] at hx hground
  refine ⟨hleads, ?_, hy, fun hk hblank => hground (by omega) hblank⟩
  rw [Canvas.wireEast, hx]
  omega

theorem Shows.wireSouth (dest : Tile) (hz : D.z = 1) (h : Shows D d cv) (hs : src ∈ cv.used)
    (hlt : src.y < dest.y) (hcolumn : ∀ j, src.y < j → j < dest.y → (d src.x j).AdmitsColumn) :
    Leads D (d.drawSouth src.x src.y dest.y) cv src (cv.wireSouth src dest) ∧
      (cv.wireSouth src dest).2.x = src.x ∧ (cv.wireSouth src dest).2.y + 1 = dest.y ∧
      (src.y + 1 < dest.y → d src.x (dest.y - 1) = .blank →
        (cv.wireSouth src dest).2 = .at2 src.x (dest.y - 1)) := by
  have hdest : src.y + 1 + (dest.y - (src.y + 1)) = dest.y := by omega
  have hlast : src.y + (dest.y - (src.y + 1)) = dest.y - 1 := by omega
  obtain ⟨hleads, hx, hy, hground⟩ :=
    h.foldl_south (k := dest.y - (src.y + 1)) hz hs fun j hj hj' => hcolumn j hj (by omega)
  rw [hdest] at hleads
  rw [hlast] at hy hground
  refine ⟨hleads, hx, ?_, fun hk hblank => hground (by omega) hblank⟩
  rw [Canvas.wireSouth, hy]
  omega

/-- Where one tile is in use, a vertex may be assumed instead of a wire. -/
theorem Shows.coarsen (h : Shows D d cv) (hused : d x y = .horizontal ∨ d x y = .vertical) :
    Shows D (d.put x y) cv where
  clocked := h.clocked
  placement := h.placement
  nodup := h.nodup
  mem_used t := by
    rw [h.mem_used, Occupies, Occupies]
    by_cases hpos : t.x = x ∧ t.y = y
    · obtain ⟨hx, hy⟩ := hpos
      rw [hx, hy, Drawing.put_self]
      rcases hused with hused | hused <;> simp [hused]
    · rw [Drawing.put_of_ne (by omega)]
  element := h.element
  wire t ht hvertex := by
    by_cases hpos : t.x = x ∧ t.y = y
    · rw [hpos.1, hpos.2, Drawing.put_self] at hvertex
      exact absurd rfl hvertex
    · rw [Drawing.put_of_ne (by omega)] at hvertex
      exact h.wire t ht hvertex
  precedes := h.precedes
  commutes := h.commutes
  sorted := h.sorted
  alive := h.alive
  counted := h.counted
  numPos := h.numPos
  numPis := h.numPis
  outputs := h.outputs
  border := h.border
  constants := h.constants

end Wires

end Fiction.Orthogonal
