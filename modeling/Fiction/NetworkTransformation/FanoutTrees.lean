import Fiction.NetworkTransformation.FanoutSubstitution

/-!
# The shape of fan-out trees

Both strategies append the same kind of tree: the first buffer is a child of the root, and each
buffer is the parent of the next `w` buffers that have none yet, where `w` is `1` or the degree.
Of the queue only its first buffer below the degree matters, and this is the first such buffer of
the tree.
-/

namespace Fiction

namespace TechnologyNetwork

variable (w root base k : ℕ)

/-- The parent of the buffer with index `j`. -/
def treeParent (j : ℕ) : ℕ := if j = 0 then root else base + (j - 1) / w

/-- The number of children of the buffer with index `i`, in a tree of `k` buffers. -/
def treeLoad (i : ℕ) : ℕ := min w (k - 1 - i * w)

def bufferTree (ntk : TechnologyNetwork) : TechnologyNetwork :=
  { ntk with
    nodes := ntk.nodes ++
      (List.range k).map fun j => ⟨[treeParent w root ntk.size j], .identity⟩ }

section Shape

variable {w root base k} {ntk : TechnologyNetwork}

@[simp] theorem bufferTree_zero : ntk.bufferTree w root 0 = ntk := by
  simp [bufferTree]

@[simp] theorem size_bufferTree : (ntk.bufferTree w root k).size = ntk.size + k := by
  simp [size, bufferTree]

theorem createBuf_bufferTree :
    (ntk.bufferTree w root k).createBuf (treeParent w root ntk.size k) =
      (ntk.bufferTree w root (k + 1), ntk.size + k) := by
  rw [createBuf, pushNode, ← size, size_bufferTree]
  simp [bufferTree, List.range_succ]

theorem node_bufferTree_of_lt {n : ℕ} (hn : n < ntk.size) :
    (ntk.bufferTree w root k).node n = ntk.node n := by
  simp only [node, bufferTree, List.getD_eq_getElem?_getD]
  rw [List.getElem?_append_left hn]

theorem node_bufferTree_add {j : ℕ} (hj : j < k) :
    (ntk.bufferTree w root k).node (ntk.size + j) =
      ⟨[treeParent w root ntk.size j], .identity⟩ := by
  simp [node, bufferTree, size, hj]

theorem treeParent_lt (hr : root < base) (j : ℕ) : treeParent w root base j < base + j := by
  rw [treeParent]
  split_ifs with hj
  · omega
  · have := Nat.div_le_self (j - 1) w
    omega

theorem treeParent_succ (j : ℕ) : treeParent w root base (j + 1) = base + j / w := by
  simp [treeParent]

/-- The next buffer is a child of the first buffer that has less than `w` children. -/
theorem treeLoad_succ (hw : 0 < w) (i : ℕ) :
    treeLoad w (k + 2) i = treeLoad w (k + 1) i + if i = k / w then 1 else 0 := by
  simp only [treeLoad, Nat.add_sub_cancel, show k + 2 - 1 = k + 1 from rfl]
  rcases Nat.lt_trichotomy i (k / w) with hi | rfl | hi
  · have hle : (i + 1) * w ≤ k := (Nat.le_div_iff_mul_le hw).mp hi
    rw [Nat.succ_mul] at hle
    rw [if_neg hi.ne]
    omega
  · have hle : k / w * w ≤ k := Nat.div_mul_le_self k w
    have hlt : k < (k / w + 1) * w := Nat.lt_mul_of_div_lt (Nat.lt_succ_self _) hw
    rw [Nat.succ_mul] at hlt
    rw [if_pos rfl]
    omega
  · have hle : k < i * w := Nat.lt_mul_of_div_lt hi hw
    rw [if_neg hi.ne']
    omega

theorem fanoutSize_bufferTree (hw : 0 < w) (hr : root < ntk.size) (m : ℕ) :
    (ntk.bufferTree w root k).fanoutSize m =
      ntk.fanoutSize m + (if m = root ∧ 0 < k then 1 else 0) +
        if ntk.size ≤ m then treeLoad w k (m - ntk.size) else 0 := by
  induction k with
  | zero => simp [treeLoad]
  | succ k ih =>
    have hpush : (ntk.bufferTree w root (k + 1)).fanoutSize m =
        (ntk.bufferTree w root k).fanoutSize m + [treeParent w root ntk.size k].count m := by
      rw [← fanoutSize_pushNode _ _ .identity]
      exact congrArg (fun x => (Prod.fst x).fanoutSize m) createBuf_bufferTree.symm
    rw [hpush, ih, List.count_singleton']
    rcases k with - | k
    · simp only [treeParent, treeLoad]
      by_cases hm : m = root
      · simp [hm]
      · simp [hm, Ne.symm hm]
    · rw [treeParent_succ, treeLoad_succ hw]
      by_cases hm : ntk.size ≤ m
      · have hiff : ntk.size + k / w = m ↔ m - ntk.size = k / w := by omega
        have hne : m ≠ root := (hr.trans_le hm).ne'
        simp only [hm, hne, hiff, if_true, false_and, if_false, Nat.add_zero, Nat.add_assoc]
      · have hne : ntk.size + k / w ≠ m := fun h => hm (h ▸ Nat.le_add_right _ _)
        simp [hm, hne]

theorem PartialCopy.bufferTree {ntk ntk' : TechnologyNetwork} {gates : List ℕ} {owner : ℕ → ℕ}
    {n : ℕ} (h : PartialCopy ntk gates ntk' owner) (hr : root < ntk'.size) (ho : owner root = n)
    (k : ℕ) :
    PartialCopy ntk gates (ntk'.bufferTree w root k) (assignOwner ntk'.size owner n) := by
  induction k with
  | zero =>
    rw [bufferTree_zero]
    exact h.congr rfl rfl rfl fun m hm => assignOwner_of_lt hm
  | succ k ih =>
    have hparent := treeParent_lt hr k (w := w)
    have howner : assignOwner ntk'.size owner n (treeParent w root ntk'.size k) = n := by
      rw [treeParent]
      split_ifs
      · exact (assignOwner_of_lt hr).trans ho
      · exact assignOwner_of_le (Nat.le_add_right _ _)
    have hpush := @PartialCopy.pushNode _ _ _ _ n ih [treeParent w root ntk'.size k] .identity
      (by simpa using hparent) fun a v _ => by
        rw [List.map_singleton, Function.comp_apply, howner, TruthTable.eval_identity]
    have hnext := congrArg Prod.fst (@createBuf_bufferTree w root k ntk')
    rw [createBuf] at hnext
    rw [hnext] at hpush
    refine hpush.congr rfl rfl rfl fun m _ => ?_
    rw [size_bufferTree]
    rcases Nat.lt_or_ge m (ntk'.size + k) with hlt | hge
    · rw [assignOwner_of_lt hlt]
    · rw [assignOwner_of_le hge, assignOwner_of_le (by omega)]

end Shape

end TechnologyNetwork

namespace FanoutSubstitution

open TechnologyNetwork

/-- The slots that `k` buffers of a breadth-first tree leave open. -/
def slots (degree root base k : ℕ) : List ℕ :=
  (List.range' k (k * degree + 1 - k)).map (treeParent degree root base)

section Trees

variable {ntk : TechnologyNetwork} {root : ℕ}

theorem depthTree_eq (k j : ℕ) :
    depthTree k (ntk.bufferTree 1 root j) (treeParent 1 root ntk.size j)
        (List.range' ntk.size j) =
      (ntk.bufferTree 1 root (j + k), List.range' ntk.size (j + k)) := by
  induction k generalizing j with
  | zero => rfl
  | succ k ih =>
    have hq : List.range' ntk.size j ++ [ntk.size + j] = List.range' ntk.size (j + 1) := by
      rw [List.range'_concat, Nat.one_mul]
    have hchild : ntk.size + j = treeParent 1 root ntk.size (j + 1) := by
      rw [treeParent_succ, Nat.div_one]
    rw [depthTree, createBuf_bufferTree]
    change depthTree k _ (ntk.size + j) (List.range' ntk.size j ++ [ntk.size + j]) = _
    rw [hq, hchild, ih, Nat.add_right_comm, Nat.add_assoc]

theorem slots_eq_cons {degree base k : ℕ} (hd : 0 < degree) :
    slots degree root base k = treeParent degree root base k ::
      (List.range' (k + 1) (k * degree - k)).map (treeParent degree root base) := by
  have hle : k ≤ k * degree := Nat.le_mul_of_pos_right k hd
  have hlen : k * degree + 1 - k = (k * degree - k) + 1 := by omega
  rw [slots, hlen, List.range'_succ, List.map_cons]

theorem slots_succ {degree base k : ℕ} (hd : 0 < degree) :
    slots degree root base (k + 1) =
      (List.range' (k + 1) (k * degree - k)).map (treeParent degree root base) ++
        List.replicate degree (base + k) := by
  have hle : k ≤ k * degree := Nat.le_mul_of_pos_right k hd
  have hlen : (k + 1) * degree + 1 - (k + 1) = (k * degree - k) + degree := by
    rw [Nat.succ_mul]
    omega
  have hstart : k + 1 + 1 * (k * degree - k) = k * degree + 1 := by omega
  rw [slots, hlen, ← List.range'_append, List.map_append, hstart]
  refine congrArg _ (List.eq_replicate_iff.mpr ⟨by simp, fun b hb => ?_⟩)
  obtain ⟨x, hx, rfl⟩ := List.mem_map.mp hb
  obtain ⟨hx₁, hx₂⟩ := List.mem_range'_1.mp hx
  obtain ⟨y, rfl⟩ := Nat.exists_eq_add_of_le' (Nat.one_le_of_lt hx₁)
  have hlo : k * degree ≤ y := by omega
  have hhi : y < (k + 1) * degree := by
    rw [Nat.succ_mul]
    omega
  rw [treeParent_succ, Nat.div_eq_of_lt_le hlo hhi]

theorem breadthTree_eq {degree : ℕ} (hd : 0 < degree) (k j : ℕ) :
    breadthTree degree k (ntk.bufferTree degree root j) (slots degree root ntk.size j) =
      some (ntk.bufferTree degree root (j + k), slots degree root ntk.size (j + k)) := by
  induction k generalizing j with
  | zero => rfl
  | succ k ih =>
    rw [slots_eq_cons hd, breadthTree, createBuf_bufferTree]
    change breadthTree degree k _ (_ ++ List.replicate degree (ntk.size + j)) = _
    rw [← slots_succ hd, ih, Nat.add_right_comm, Nat.add_assoc]

end Trees

section Queue

variable {p : ℕ → Bool} {degree root base k : ℕ}

theorem find_slots_from (hd : 0 < degree) (m a : ℕ) (h : a + m = k * degree) :
    ((List.range' (a + 1) m).map (treeParent degree root base)).find? p =
      (List.range' (base + a / degree) (k - a / degree)).find? p := by
  induction m generalizing a with
  | zero =>
    have : a / degree = k := by rw [← Nat.add_zero a, h, Nat.mul_div_cancel k hd]
    simp [this]
  | succ m ih =>
    have hlt : a / degree < k := Nat.div_lt_of_lt_mul (by rw [Nat.mul_comm]; omega)
    obtain ⟨l, hl⟩ := Nat.exists_eq_add_of_lt hlt
    have hlen : k - a / degree = l + 1 := by omega
    have hih := ih (a + 1) (by omega)
    rw [List.range'_succ, List.map_cons, treeParent_succ, hlen, List.range'_succ,
      List.find?_cons, List.find?_cons, hih, Nat.succ_div]
    cases hp : p (base + a / degree)
    · split_ifs
      · have : k - (a / degree + 1) = l := by omega
        rw [this, Nat.add_assoc]
      · rw [Nat.add_zero, hlen, List.range'_succ, List.find?_cons, hp]
    · rfl

/-- Buffers without an open slot are full. -/
theorem find_slots (hd : 0 < degree) (hk : 0 < k)
    (hp : ∀ i < k, p (base + i) = true → treeLoad degree k i < degree) :
    (slots degree root base k).find? p = (List.range' base k).find? p := by
  obtain ⟨k, rfl⟩ := Nat.exists_eq_add_of_le' hk
  have hle : k + 1 ≤ (k + 1) * degree := Nat.le_mul_of_pos_right _ hd
  have hi : k / degree ≤ k := Nat.div_le_self k degree
  have hsplit : List.range' base (k + 1) =
      List.range' base (k / degree) ++
        List.range' (base + k / degree) (k + 1 - k / degree) := by
    have := @List.range'_append base (k / degree) (k + 1 - k / degree) 1
    rw [Nat.one_mul] at this
    rw [this]
    congr 1
    omega
  have hfull : (List.range' base (k / degree)).find? p = none := by
    rw [List.find?_eq_none]
    intro b hb hpb
    obtain ⟨h₁, h₂⟩ := List.mem_range'_1.mp hb
    obtain ⟨i, rfl⟩ := Nat.exists_eq_add_of_le h₁
    have hmul : (i + 1) * degree ≤ k := (Nat.le_div_iff_mul_le hd).mp (by omega)
    have hload := hp i (by omega) hpb
    rw [Nat.succ_mul] at hmul
    rw [treeLoad] at hload
    omega
  have hlen : k + ((k + 1) * degree + 1 - (k + 1)) = (k + 1) * degree := by omega
  rw [hsplit, List.find?_append, hfull, Option.none_or]
  exact find_slots_from hd _ k hlen

end Queue

section Generate

variable (ntk : TechnologyNetwork) (ps : FanoutSubstitutionParams)

/-- The number of buffers that `generateFanoutTree` creates for a node. -/
def treeSize (n : ℕ) : ℕ :=
  if isProperFanout ntk ps n then 0 else numFanouts ps (ntk.fanoutSize n)

/-- The number of tree buffers that a buffer of a tree can have as children. -/
def treeWidth : ℕ :=
  match ps.strategy with
  | .depth => 1
  | .breadth => ps.degree.toNat

def treeQueue (root base k : ℕ) : List ℕ :=
  match ps.strategy with
  | .depth => List.range' base k
  | .breadth => slots ps.degree.toNat root base k

variable {ntk ps}

theorem treeWidth_pos (hd : 2 ≤ ps.degree.toNat) : 0 < treeWidth ps := by
  rw [treeWidth]
  cases ps.strategy <;> simp only <;> omega

theorem treeWidth_le (hd : 2 ≤ ps.degree.toNat) : treeWidth ps ≤ ps.degree.toNat := by
  rw [treeWidth]
  cases ps.strategy <;> simp only <;> omega

theorem growTree_eq (hd : 2 ≤ ps.degree.toNat) (s : State) (n : ℕ) {k : ℕ} (hk : 0 < k) :
    growTree ps s n k = some { s with
      substituted := s.substituted.bufferTree (treeWidth ps) (s.old2new n) k
      availableFanouts := Function.update s.availableFanouts n
        (treeQueue ps (s.old2new n) s.substituted.size k) } := by
  simp only [growTree, hk.ne', if_false, treeWidth, treeQueue]
  cases ps.strategy with
  | depth =>
    have h := @depthTree_eq s.substituted (s.old2new n) k 0
    have hroot : treeParent 1 (s.old2new n) s.substituted.size 0 = s.old2new n := rfl
    rw [bufferTree_zero, Nat.zero_add, hroot, List.range'_zero] at h
    simp only [h]
  | breadth =>
    have h := @breadthTree_eq s.substituted (s.old2new n) _ (Nat.zero_lt_of_lt hd) k 0
    have hroot : slots ps.degree.toNat (s.old2new n) s.substituted.size 0 =
        [s.old2new n] := by simp [slots, treeParent]
    rw [bufferTree_zero, Nat.zero_add, hroot] at h
    simp only [h, Option.bind_eq_bind, Option.bind_some]

theorem generateFanoutTree_eq (s : State) (n : ℕ) :
    generateFanoutTree ntk ps s n = growTree ps s n (treeSize ntk ps n) := by
  rw [generateFanoutTree, treeSize]
  split_ifs <;> rfl

theorem treeQueue_ne_nil (hd : 2 ≤ ps.degree.toNat) {root base k : ℕ} (hk : 0 < k) :
    treeQueue ps root base k ≠ [] := by
  rw [treeQueue]
  cases ps.strategy with
  | depth => simpa using hk.ne'
  | breadth => simp [slots_eq_cons (Nat.zero_lt_of_lt hd)]

theorem find_treeQueue (hd : 2 ≤ ps.degree.toNat) {p : ℕ → Bool} {root base k : ℕ} (hk : 0 < k)
    (hp : ∀ i < k, p (base + i) = true → treeLoad (treeWidth ps) k i < ps.degree.toNat) :
    (treeQueue ps root base k).find? p = (List.range' base k).find? p := by
  rw [treeQueue]
  rw [treeWidth] at hp
  cases hs : ps.strategy with
  | depth => rfl
  | breadth =>
    simp only [hs] at hp
    exact find_slots (Nat.zero_lt_of_lt hd) hk hp

end Generate

section NumFanouts

variable {ps : FanoutSubstitutionParams} {fanoutSize : ℕ}

theorem toInt32_of_lt {n : ℕ} (hn : n < 2 ^ 31) : toInt32 n = n := by
  rw [toInt32, Int.bmod_def]
  omega

theorem le_ceil_mul {excess gain : ℤ} (hg : 1 ≤ gain) :
    excess ≤ ((excess + gain - 1) / gain).toNat * gain := by
  have hlt : excess + gain - 1 < ((excess + gain - 1) / gain + 1) * gain :=
    Int.lt_ediv_add_one_mul_self _ (by omega)
  have hle : (excess + gain - 1) / gain * gain ≤ ((excess + gain - 1) / gain).toNat * gain :=
    Int.mul_le_mul_of_nonneg_right (Int.self_le_toNat _) (by omega)
  rw [Int.add_mul, Int.one_mul] at hlt
  omega

/-- The root up to its threshold and the buffers up to the degree have room for all uses. The edges
of the tree take one slot for each buffer. -/
theorem fanoutSize_le_capacity (hd : 2 ≤ ps.degree.toNat) (hf : fanoutSize < 2 ^ 31) :
    fanoutSize ≤ ps.threshold.toNat + numFanouts ps fanoutSize * (ps.degree.toNat - 1) := by
  have hd' := ps.degree.toNat_lt
  have ht' := ps.threshold.toNat_lt
  have hexcess : (fanoutSize : ℤ) - ps.threshold.toNat ≤
      max (toInt32 (toInt32 fanoutSize - toInt32 ps.threshold.toNat)) 0 := by
    rw [toInt32_of_lt hf]
    simp only [toInt32, Int.bmod_def]
    omega
  have hgain : max (toInt32 (toInt32 ps.degree.toNat - 1)) 1 ≤ (ps.degree.toNat : ℤ) - 1 := by
    simp only [toInt32, Int.bmod_def]
    omega
  have hceil := (hexcess.trans (le_ceil_mul (le_max_right _ _))).trans
    (Int.mul_le_mul_of_nonneg_left hgain (Int.natCast_nonneg _))
  change _ ≤ (numFanouts ps fanoutSize : ℤ) * _ at hceil
  have hsub : ((ps.degree.toNat - 1 : ℕ) : ℤ) = (ps.degree.toNat : ℤ) - 1 := by omega
  rw [← hsub, ← Int.natCast_mul] at hceil
  omega

end NumFanouts

end FanoutSubstitution

end Fiction
