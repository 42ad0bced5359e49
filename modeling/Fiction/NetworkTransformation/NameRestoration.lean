import Fiction.NetworkTransformation.FanoutEquivalence
import Fiction.NetworkTransformation.NetworkBalancing

/-!
# Names after a transformation

Names of signals are restored by a walk over the edges of the listed gates. A name is only found on
an edge, so that nodes without an edge to a listed gate lose theirs. Nodes of the source that have
the same image share one name, which is the last one that the walk finds.
-/

namespace Fiction

namespace TechnologyNetwork

variable {ntk ntk' ntk'' : TechnologyNetwork}

/-- `ntk'` has further nodes and `k` further outputs, and the same names. -/
structure KeepsNames (k : ℕ) (ntk ntk' : TechnologyNetwork) : Prop where
  signalNames : ntk'.signalNames = ntk.signalNames
  outputNames : ntk'.outputNames = ntk.outputNames
  inputs : ntk'.inputs = ntk.inputs
  numPis : ntk'.numPis = ntk.numPis
  numPos : ntk'.numPos = ntk.numPos + k
  size_le : ntk.size ≤ ntk'.size

theorem KeepsNames.refl : KeepsNames 0 ntk ntk := ⟨rfl, rfl, rfl, rfl, rfl, le_rfl⟩

theorem KeepsNames.trans {k k' : ℕ} (h : KeepsNames k ntk ntk') (h' : KeepsNames k' ntk' ntk'') :
    KeepsNames (k + k') ntk ntk'' where
  signalNames := h'.signalNames.trans h.signalNames
  outputNames := h'.outputNames.trans h.outputNames
  inputs := h'.inputs.trans h.inputs
  numPis := h'.numPis.trans h.numPis
  numPos := by rw [h'.numPos, h.numPos, Nat.add_assoc]
  size_le := h.size_le.trans h'.size_le

/-- Steps that add no outputs. -/
theorem KeepsNames.append {k : ℕ} (h : KeepsNames k ntk ntk') (h' : KeepsNames 0 ntk' ntk'') :
    KeepsNames k ntk ntk'' := h.trans h'

theorem pushNode_keepsNames (children : List ℕ) (function : TruthTable) :
    KeepsNames 0 ntk (ntk.pushNode children function).1 :=
  ⟨rfl, rfl, rfl, rfl, rfl, (Nat.le_succ _).trans (ntk.size_pushNode _ _).ge⟩

theorem createNot_keepsNames (a : ℕ) : KeepsNames 0 ntk (ntk.createNot a).1 := by
  rw [createNot]
  split_ifs
  · exact .refl
  · exact pushNode_keepsNames _ _

theorem createPo_keepsNames (f : ℕ) : KeepsNames 1 ntk (ntk.createPo f) :=
  ⟨rfl, rfl, rfl, rfl, rfl, le_rfl⟩

theorem createRi_keepsNames (f : ℕ) : KeepsNames 0 ntk (ntk.createRi f) :=
  ⟨rfl, rfl, rfl, rfl, rfl, le_rfl⟩

section Restoration

variable {ι κ : Type*} [DecidableEq κ] (name : ι → Option String)

/-- The last name that is written to `s`. -/
def lastName (target : ι → κ) (l : List ι) (s : κ) : Option String :=
  (l.filterMap fun f => if target f = s then name f else none).getLast?

variable {name} in
theorem lastName_congr {κ' : Type*} [DecidableEq κ'] {target : ι → κ} {target' : ι → κ'}
    {l : List ι} {s : κ} {s' : κ'} (h : ∀ f ∈ l, target f = s ↔ target' f = s') :
    lastName name target l s = lastName name target' l s' := by
  rw [lastName, lastName, List.filterMap_congr fun f hf => by rw [if_congr (h f hf) rfl rfl]]

variable (target : ι → ℕ)

def nameSignal (dest : TechnologyNetwork) (f : ι) : TechnologyNetwork :=
  match name f with
  | some str => dest.setName (target f) str
  | none => dest

def nameOutput (outputName : ℕ → Option String) (dest : TechnologyNetwork) (i : ℕ) :
    TechnologyNetwork :=
  match outputName i with
  | some str => dest.setOutputName i str
  | none => dest

theorem lastName_concat (l : List ι) (f : ι) (s : ℕ) :
    lastName name target (l ++ [f]) s =
      (if target f = s then name f else none).or (lastName name target l s) := by
  rw [lastName, List.filterMap_append]
  cases h : if target f = s then name f else none with
  | none => simp [h, lastName]
  | some str => simp [h]

theorem signalNames_foldl (l : List ι) (dest : TechnologyNetwork) (s : ℕ) :
    (l.foldl (nameSignal name target) dest).signalNames s =
      (lastName name target l s).or (dest.signalNames s) := by
  induction l using List.reverseRecOn with
  | nil => rfl
  | append_singleton l f ih =>
    rw [List.foldl_append, List.foldl_cons, List.foldl_nil, lastName_concat, Option.or_assoc, ← ih,
      nameSignal]
    cases hf : name f with
    | none => simp
    | some str =>
      by_cases hs : target f = s
      · subst hs
        simp [setName]
      · simp [setName, hs, Function.update_of_ne (Ne.symm hs)]

theorem outputNames_foldl (outputName : ℕ → Option String) (k : ℕ) (dest : TechnologyNetwork)
    (i : ℕ) : ((List.range k).foldl (nameOutput outputName) dest).outputNames i =
      if i < k then (outputName i).or (dest.outputNames i) else dest.outputNames i := by
  induction k with
  | zero => rfl
  | succ k ih =>
    rw [List.range_succ, List.foldl_append, List.foldl_cons, List.foldl_nil, nameOutput]
    cases hk : outputName k with
    | none =>
      rw [ih]
      by_cases hi : i = k
      · subst hi
        simp [hk]
      · simp [show i < k + 1 ↔ i < k by omega]
    | some str =>
      by_cases hi : i = k
      · subst hi
        simp [setOutputName, hk]
      · change Function.update _ k _ i = _
        rw [Function.update_of_ne hi, ih]
        simp [show i < k + 1 ↔ i < k by omega]

theorem outputNames_foldl_setName (l : List ι) (dest : TechnologyNetwork) :
    (l.foldl (nameSignal name target) dest).outputNames = dest.outputNames := by
  induction l generalizing dest with
  | nil => rfl
  | cons f l ih =>
    rw [List.foldl_cons, ih, nameSignal]
    cases name f <;> rfl

theorem signalNames_foldl_setOutputName (l : List ℕ) (outputName : ℕ → Option String)
    (dest : TechnologyNetwork) :
    (l.foldl (nameOutput outputName) dest).signalNames = dest.signalNames := by
  induction l generalizing dest with
  | nil => rfl
  | cons i l ih =>
    rw [List.foldl_cons, ih, nameOutput]
    cases outputName i <;> rfl

/-- The only name on the edges from a node is its own. -/
theorem lastName_eq_some {name : ℕ → Option String} {target : ℕ → ℕ} {l : List ℕ} {n : ℕ}
    (h : ∀ f ∈ l, target f = target n ↔ f = n) {str : String} :
    lastName name target l (target n) = some str ↔ n ∈ l ∧ name n = some str := by
  rw [lastName]
  constructor
  · intro hlast
    obtain ⟨f, hf, heq⟩ := List.mem_filterMap.mp (List.mem_of_getLast? hlast)
    split_ifs at heq with hn
    obtain rfl := (h f hf).mp hn
    exact ⟨hf, heq⟩
  · rintro ⟨hmem, hname⟩
    have hne : (l.filterMap fun f => if target f = target n then name f else none) ≠ [] :=
      List.ne_nil_of_mem (List.mem_filterMap.mpr ⟨n, hmem, by rw [if_pos rfl]; exact hname⟩)
    rw [List.getLast?_eq_some_getLast hne, Option.some.injEq]
    obtain ⟨f, hf, heq⟩ := List.mem_filterMap.mp (List.getLast_mem hne)
    split_ifs at heq with hn
    obtain rfl := (h f hf).mp hn
    exact Option.some.inj (heq.symm.trans hname)

end Restoration

section Images

variable {size size' n m : ℕ} {old2new : ℕ → ℕ} {known : ℕ → Prop} {rep : ℕ → Bool ⊕ ℕ}

/-- Each known node stands for a constant or for a known node, and has an image of its own unless it
stands for the same. -/
structure Represents (size : ℕ) (old2new : ℕ → ℕ) (known : ℕ → Prop) (rep : ℕ → Bool ⊕ ℕ) :
    Prop where
  two_le_size : 2 ≤ size
  image_lt : ∀ n, known n → old2new n < size
  constant : ∀ n, known n → ∀ c, old2new n = getConstant c ↔ rep n = .inl c
  image : ∀ n m, known n → known m → (old2new n = old2new m ↔ rep n = rep m)
  node : ∀ n, known n → ∀ m, rep n = .inr m → known m

theorem Represents.mono (h : Represents size old2new known rep) (hle : size ≤ size') :
    Represents size' old2new known rep :=
  ⟨h.two_le_size.trans hle, fun n hn => (h.image_lt n hn).trans_le hle, h.constant, h.image, h.node⟩

theorem getConstant_le_one (c : Bool) : getConstant c ≤ 1 := by cases c <;> decide

theorem getConstant_injective : Function.Injective getConstant := by decide

theorem Represents.update_fresh (h : Represents size old2new known rep) (hn : ¬ known n) {i : ℕ}
    (hi : size ≤ i) (hlt : i < size') : Represents size' (Function.update old2new n i)
      (fun k => known k ∨ k = n) (Function.update rep n (.inr n)) := by
  have hne : ∀ k, known k → k ≠ n := fun k hk he => hn (he ▸ hk)
  have hold : ∀ k, known k → Function.update old2new n i k = old2new k ∧
      Function.update rep n (.inr n) k = rep k := fun k hk =>
    ⟨Function.update_of_ne (hne k hk) .., Function.update_of_ne (hne k hk) ..⟩
  have hrep : ∀ k, known k → rep k ≠ .inr n := fun k hk he => hn (h.node k hk n he)
  refine ⟨h.two_le_size.trans (hi.trans hlt.le), ?_, ?_, ?_, ?_⟩
  · rintro k (hk | rfl)
    · rw [(hold k hk).1]
      have := h.image_lt k hk
      omega
    · rwa [Function.update_self]
  · rintro k (hk | rfl) c
    · rw [(hold k hk).1, (hold k hk).2, h.constant k hk]
    · rw [Function.update_self, Function.update_self]
      have := getConstant_le_one c
      have := h.two_le_size
      exact iff_of_false (by omega) (by simp)
  · rintro k l (hk | rfl) (hl | rfl)
    · rw [(hold k hk).1, (hold k hk).2, (hold l hl).1, (hold l hl).2, h.image k l hk hl]
    · rw [(hold k hk).1, (hold k hk).2, Function.update_self, Function.update_self]
      have := h.image_lt k hk
      exact iff_of_false (by omega) (hrep k hk)
    · rw [(hold l hl).1, (hold l hl).2, Function.update_self, Function.update_self]
      have := h.image_lt l hl
      exact iff_of_false (by omega) fun he => hrep l hl he.symm
    · exact iff_of_true rfl rfl
  · rintro k (hk | rfl) l hl
    · rw [(hold k hk).2] at hl
      exact .inl (h.node k hk l hl)
    · rw [Function.update_self] at hl
      exact .inr (Sum.inr.inj hl).symm

theorem Represents.update_same (h : Represents size old2new known rep) (hn : ¬ known n)
    (hm : known m) : Represents size (Function.update old2new n (old2new m))
      (fun k => known k ∨ k = n) (Function.update rep n (rep m)) := by
  have hne : ∀ k, known k → k ≠ n := fun k hk he => hn (he ▸ hk)
  have hlike : ∀ k, known k ∨ k = n → ∃ l, known l ∧
      Function.update old2new n (old2new m) k = old2new l ∧
      Function.update rep n (rep m) k = rep l := by
    rintro k (hk | rfl)
    · exact ⟨k, hk, Function.update_of_ne (hne k hk) .., Function.update_of_ne (hne k hk) ..⟩
    · exact ⟨m, hm, Function.update_self .., Function.update_self ..⟩
  refine ⟨h.two_le_size, fun k hk => ?_, fun k hk c => ?_, fun k l hk hl => ?_, fun k hk l hl => ?_⟩
  · obtain ⟨j, hj, hi, -⟩ := hlike k hk
    exact hi ▸ h.image_lt j hj
  · obtain ⟨j, hj, hi, hr⟩ := hlike k hk
    rw [hi, hr, h.constant j hj]
  · obtain ⟨j, hj, hi, hr⟩ := hlike k hk
    obtain ⟨j', hj', hi', hr'⟩ := hlike l hl
    rw [hi, hr, hi', hr', h.image j j' hj hj']
  · obtain ⟨j, hj, -, hr⟩ := hlike k hk
    rw [hr] at hl
    exact .inl (h.node j hj l hl)

theorem Represents.update_constant (h : Represents size old2new known rep) (hn : ¬ known n)
    (c : Bool) : Represents size (Function.update old2new n (getConstant c))
      (fun k => known k ∨ k = n) (Function.update rep n (.inl c)) := by
  have hne : ∀ k, known k → k ≠ n := fun k hk he => hn (he ▸ hk)
  have hold : ∀ k, known k → Function.update old2new n (getConstant c) k = old2new k ∧
      Function.update rep n (.inl c) k = rep k := fun k hk =>
    ⟨Function.update_of_ne (hne k hk) .., Function.update_of_ne (hne k hk) ..⟩
  have hinj : ∀ d, getConstant c = getConstant d ↔ (.inl c : Bool ⊕ ℕ) = .inl d := by
    intro d
    cases c <;> cases d <;> simp [getConstant]
  refine ⟨h.two_le_size, ?_, ?_, ?_, ?_⟩
  · rintro k (hk | rfl)
    · rw [(hold k hk).1]
      exact h.image_lt k hk
    · rw [Function.update_self]
      exact (Nat.lt_succ_of_le (getConstant_le_one c)).trans_le h.two_le_size
  · rintro k (hk | rfl) d
    · rw [(hold k hk).1, (hold k hk).2, h.constant k hk]
    · rw [Function.update_self, Function.update_self]
      exact hinj d
  · rintro k l (hk | rfl) (hl | rfl)
    · rw [(hold k hk).1, (hold k hk).2, (hold l hl).1, (hold l hl).2, h.image k l hk hl]
    · rw [(hold k hk).1, (hold k hk).2, Function.update_self, Function.update_self]
      exact h.constant k hk c
    · rw [(hold l hl).1, (hold l hl).2, Function.update_self, Function.update_self, eq_comm,
        h.constant l hl c, eq_comm]
    · exact iff_of_true rfl rfl
  · rintro k (hk | rfl) l hl
    · rw [(hold k hk).2] at hl
      exact .inl (h.node k hk l hl)
    · rw [Function.update_self] at hl
      cases hl

/-- A copy in progress: it has `k` outputs, no names yet, and the images of the inputs. -/
structure Copying (inputs : List ℕ) (numPis k : ℕ) (known : ℕ → Prop) (rep : ℕ → Bool ⊕ ℕ)
    (dest : TechnologyNetwork) (old2new : ℕ → ℕ) : Prop where
  represents : Represents dest.size old2new known rep
  signalNames : dest.signalNames = fun _ => none
  outputNames : dest.outputNames = fun _ => none
  inputs : dest.inputs = inputs.map old2new
  numPis : dest.numPis = numPis
  numPos : dest.numPos = k

variable {inputs : List ℕ} {numPis k j : ℕ} {dest dest' : TechnologyNetwork}

theorem Copying.keepsNames (h : Copying inputs numPis k known rep dest old2new)
    (hk : KeepsNames j dest dest') : Copying inputs numPis (k + j) known rep dest' old2new where
  represents := h.represents.mono hk.size_le
  signalNames := hk.signalNames.trans h.signalNames
  outputNames := hk.outputNames.trans h.outputNames
  inputs := hk.inputs.trans h.inputs
  numPis := hk.numPis.trans h.numPis
  numPos := by rw [hk.numPos, h.numPos]

/-- Each output is created by a step that adds `j` outputs. -/
theorem Copying.foldl_outputs {ι : Type*}
    {create : (ℕ → ℕ) → TechnologyNetwork → ι → TechnologyNetwork}
    (hc : ∀ old2new dest o, KeepsNames j dest (create old2new dest o)) (outs : List ι)
    (h : Copying inputs numPis k known rep dest old2new) :
    Copying inputs numPis (k + j * outs.length) known rep (outs.foldl (create old2new) dest)
      old2new := by
  induction outs generalizing dest k with
  | nil => exact h
  | cons o outs ih =>
    have hrest := ih (h.keepsNames (hc old2new dest o))
    rwa [Nat.add_assoc, Nat.add_comm j, ← Nat.mul_succ] at hrest

/-- The image of a node that is no input can be set. -/
theorem Copying.update (h : Copying inputs numPis k known rep dest old2new)
    (hk : KeepsNames 0 dest dest') (hn : n ∉ inputs) {i : ℕ} {known' : ℕ → Prop}
    {rep' : ℕ → Bool ⊕ ℕ}
    (hr : Represents dest'.size (Function.update old2new n i) known' rep') :
    Copying inputs numPis k known' rep' dest' (Function.update old2new n i) where
  represents := hr
  signalNames := hk.signalNames.trans h.signalNames
  outputNames := hk.outputNames.trans h.outputNames
  inputs := by
    rw [hk.inputs, h.inputs]
    exact List.map_congr_left fun m hm =>
      (Function.update_of_ne (fun he : m = n => hn (he ▸ hm)) _ _).symm
  numPis := hk.numPis.trans h.numPis
  numPos := hk.numPos.trans h.numPos

/-- The names that a copy gets from edges `l` and from outputs. -/
theorem Copying.restored {ι : Type*} (h : Copying inputs numPis k known rep dest old2new)
    (name : ι → Option String) (target : ι → ℕ) (l : List ι) (outputName : ℕ → Option String)
    (m : ℕ) (networkName : String) {result : TechnologyNetwork}
    (hresult : result = (List.range m).foldl (nameOutput outputName)
      (l.foldl (nameSignal name target) { dest with networkName })) :
    (∀ s, result.signalNames s = lastName name target l s) ∧
      ∀ i < m, result.outputNames i = outputName i := by
  subst hresult
  constructor
  · intro s
    rw [signalNames_foldl_setOutputName, signalNames_foldl]
    change (lastName _ _ _ s).or (dest.signalNames s) = _
    rw [h.signalNames, Option.or_none]
  · intro i hi
    rw [outputNames_foldl, if_pos hi, outputNames_foldl_setName]
    change (outputName i).or (dest.outputNames i) = _
    rw [h.outputNames, Option.or_none]

end Images

section Clones

/-- In a copy of a technology network, no node stands for another one. -/
def ownRep (n : ℕ) : Bool ⊕ ℕ := if n ≤ 1 then .inl (n = 1) else .inr n

theorem ownRep_injective : Function.Injective ownRep := by
  intro n m h
  unfold ownRep at h
  split_ifs at h with hn hm hm
  · have := Sum.inl.inj h
    simp only [decide_eq_decide] at this
    omega
  · exact Sum.inr.inj h

/-- The nodes that have been cloned. -/
def Known (ntk : TechnologyNetwork) (pre : List ℕ) (n : ℕ) : Prop := ntk.IsSource n ∨ n ∈ pre

theorem initializeCopyNetwork_copying [CopyInitializer] (hw : ntk.WellFormed) :
    Copying ntk.inputs ntk.numPis 0 (ntk.Known []) ownRep ntk.initializeCopyNetwork.1
      ntk.initializeCopyNetwork.2 := by
  have h := initializeCopyNetwork_freshCopy hw
  have hcopies := initializeCopyNetwork_copies hw
  have himage : ∀ n, ntk.Known [] n → (n ≤ 1 ∧ ntk.initializeCopyNetwork.2 n = n) ∨
      (2 ≤ n ∧ n ∈ ntk.inputs ∧ 2 ≤ ntk.initializeCopyNetwork.2 n) := by
    intro n hn
    rcases hn.resolve_right List.not_mem_nil with hn | hn
    · exact .inl ⟨hn, h.constant n hn⟩
    · exact .inr ⟨(hw.input n hn).1, hn, (h.image hn).1⟩
  refine ⟨⟨?_, fun n _ => h.image_lt n, fun n hn c => ?_, fun n m hn hm => ?_, fun n hn m he => ?_⟩,
    hcopies.signalNames, hcopies.outputNames, h.inputs, h.numPis, h.numPos⟩
  · rw [h.size]
    omega
  · rw [ownRep]
    have := getConstant_le_one c
    rcases himage n hn with ⟨hle, heq⟩ | ⟨hle, -, h2⟩
    · rw [heq, if_pos hle]
      rcases Nat.le_one_iff_eq_zero_or_eq_one.mp hle with rfl | rfl <;> cases c <;> decide
    · rw [if_neg (by omega)]
      exact iff_of_false (by omega) (by simp)
  · rw [ownRep_injective.eq_iff]
    refine ⟨fun he => ?_, congrArg _⟩
    rcases himage n hn with ⟨hle, heq⟩ | ⟨hle, hmem, h2⟩ <;>
      rcases himage m hm with ⟨hle', heq'⟩ | ⟨hle', hmem', h2'⟩
    · omega
    · omega
    · omega
    · rw [← (h.image hmem).2.2, ← (h.image hmem').2.2, he]
  · rw [ownRep] at he
    split_ifs at he
    exact Sum.inr.inj he ▸ hn

variable {pre : List ℕ} {n k : ℕ} {dest dest' : TechnologyNetwork} {old2new : ℕ → ℕ}

theorem Copying.cloneNode (h : Copying ntk.inputs ntk.numPis k (ntk.Known pre) ownRep dest old2new)
    (hk : KeepsNames 0 dest dest') (hn : ¬ ntk.Known pre n) {children : List ℕ}
    (hc : children ≠ []) : Copying ntk.inputs ntk.numPis k (ntk.Known (pre ++ [n])) ownRep
      (dest'.cloneNode ntk n children).1
      (Function.update old2new n (dest'.cloneNode ntk n children).2) := by
  have hclone : dest'.cloneNode ntk n children =
      dest'.pushNode children (ntk.node n).function := by
    rw [TechnologyNetwork.cloneNode, createNode, if_neg (by simpa using hc)]
  have hn1 : ¬ n ≤ 1 := fun hle => hn (.inl (.inl hle))
  have hrep : Function.update ownRep n (.inr n) = ownRep := by
    rw [Function.update_eq_self_iff, ownRep, if_neg hn1]
  have hknown : (fun m => ntk.Known pre m ∨ m = n) = ntk.Known (pre ++ [n]) := by
    funext m
    simp [Known, or_assoc]
  have hfresh := h.represents.update_fresh hn hk.size_le (Nat.lt_succ_self dest'.size)
  rw [hrep, hknown] at hfresh
  rw [hclone]
  refine h.update (hk.append (pushNode_keepsNames _ _)) (fun hin => hn (.inl (.inr hin))) ?_
  rw [size_pushNode]
  exact hfresh

theorem TopoView.next (hw : ntk.WellFormed) (V : ntk.TopoView) {suf : List ℕ}
    (hV : V.gates = pre ++ n :: suf) : ¬ ntk.Known pre n ∧ (ntk.node n).children ≠ [] := by
  obtain ⟨hmem, hn, -⟩ := V.sorted.next hV
  refine ⟨hn, hw.children_ne_nil n ?_ (V.gates_lt n hmem) fun hin => hn (.inl (.inr hin))⟩
  by_contra hle
  exact hn (.inl (.inl (by omega)))

end Clones

end TechnologyNetwork

namespace FanoutSubstitution

open TechnologyNetwork

variable {ntk : TechnologyNetwork} {ps : FanoutSubstitutionParams} {pre : List ℕ} {n k : ℕ}
  {s s' : State}

/-- The run before the names are restored. -/
def substitute [CopyInitializer] (ntk : TechnologyNetwork) (ps : FanoutSubstitutionParams)
    (gates : List ℕ) : Option State := do
  let s ← ntk.inputs.foldlM (generateFanoutTree ntk ps) (initialState ntk)
  let s ← gates.foldlM (substituteGate ntk ps) s
  let s ← ntk.foreachPo.foldlM (substitutePo ps) s
  ntk.foreachRi.foldlM (substituteRi ps) s

theorem run_eq_map [CopyInitializer] (gates : List ℕ) : run ntk ps gates =
    (substitute ntk ps gates).map fun s => ntk.restoreNames s.substituted gates s.old2new := by
  simp only [run, substitute, Option.bind_eq_bind, Option.map_bind, Function.comp_def]
  simp only [Option.map_eq_bind, Function.comp_def]

theorem depthTree_keepsNames (num : ℕ) (substituted : TechnologyNetwork) (child : ℕ)
    (q : List ℕ) : KeepsNames 0 substituted (depthTree num substituted child q).1 := by
  induction num generalizing substituted child q with
  | zero => exact .refl
  | succ num ih =>
    exact (pushNode_keepsNames [child] .identity).append (ih _ _ _)

theorem breadthTree_keepsNames {degree num : ℕ} {substituted substituted' : TechnologyNetwork}
    {q q' : List ℕ} (h : breadthTree degree num substituted q = some (substituted', q')) :
    KeepsNames 0 substituted substituted' := by
  induction num generalizing substituted q with
  | zero =>
    obtain ⟨rfl, -⟩ := Prod.mk.inj (Option.some.inj h)
    exact .refl
  | succ num ih =>
    cases q with
    | nil => cases h
    | cons front q => exact (pushNode_keepsNames [front] .identity).append (ih h)

theorem growTree_keepsNames {num : ℕ} (h : growTree ps s n num = some s') :
    KeepsNames 0 s.substituted s'.substituted ∧ s'.old2new = s.old2new := by
  unfold growTree at h
  split_ifs at h
  · obtain rfl := Option.some.inj h
    exact ⟨.refl, rfl⟩
  · cases hs : ps.strategy with
    | depth =>
      rw [hs] at h
      obtain rfl := Option.some.inj h
      exact ⟨depthTree_keepsNames _ _ _ _, rfl⟩
    | breadth =>
      rw [hs] at h
      obtain ⟨⟨substituted, q⟩, hq, h⟩ := Option.bind_eq_some_iff.mp h
      obtain rfl := Option.some.inj h
      exact ⟨breadthTree_keepsNames hq, rfl⟩

theorem generateFanoutTree_keepsNames (h : generateFanoutTree ntk ps s n = some s') :
    KeepsNames 0 s.substituted s'.substituted ∧ s'.old2new = s.old2new := by
  by_cases hp : isProperFanout ntk ps n = true
  · rw [generateFanoutTree, if_pos hp] at h
    obtain rfl := Option.some.inj h
    exact ⟨.refl, rfl⟩
  · rw [generateFanoutTree, if_neg hp] at h
    exact growTree_keepsNames h

/-- The state is a copy in progress. -/
def Substituting (ntk : TechnologyNetwork) (pre : List ℕ) (k : ℕ) (s : State) : Prop :=
  Copying ntk.inputs ntk.numPis k (ntk.Known pre) ownRep s.substituted s.old2new

theorem Substituting.generateFanoutTree (hs : Substituting ntk pre k s)
    (h : generateFanoutTree ntk ps s n = some s') : Substituting ntk pre k s' := by
  obtain ⟨hk, hmap⟩ := generateFanoutTree_keepsNames h
  rw [Substituting, hmap]
  exact Copying.keepsNames hs hk

theorem Substituting.substituteGate (hw : ntk.WellFormed) (V : ntk.TopoView) {suf : List ℕ}
    (hV : V.gates = pre ++ n :: suf) (hs : Substituting ntk pre k s)
    (h : substituteGate ntk ps s n = some s') : Substituting ntk (pre ++ [n]) k s' := by
  obtain ⟨hn, hc⟩ := V.next hw hV
  obtain ⟨t, ht, htree⟩ := Option.bind_eq_some_iff.mp h
  obtain ⟨children, hchildren, ht⟩ := Option.bind_eq_some_iff.mp ht
  obtain rfl := Option.some.inj ht
  have hne : children ≠ [] := by
    rw [mapM_eq_some_iff_map] at hchildren
    rintro rfl
    exact hc (List.map_eq_nil_iff.mp hchildren)
  have hclone : Substituting ntk (pre ++ [n]) k ⟨(s.substituted.cloneNode ntk n children).1,
      Function.update s.old2new n (s.substituted.cloneNode ntk n children).2,
      s.availableFanouts⟩ := Copying.cloneNode hs .refl hn hne
  exact hclone.generateFanoutTree htree

theorem Substituting.foldlM_gates (hw : ntk.WellFormed) (V : ntk.TopoView) {ns : List ℕ}
    (hV : V.gates = pre ++ ns) (hs : Substituting ntk pre k s)
    (h : ns.foldlM (FanoutSubstitution.substituteGate ntk ps) s = some s') :
    Substituting ntk V.gates k s' := by
  induction ns generalizing pre s with
  | nil =>
    obtain rfl := Option.some.inj h
    rwa [hV, List.append_nil]
  | cons n ns ih =>
    rw [List.foldlM_cons] at h
    obtain ⟨t, ht, h⟩ := Option.bind_eq_some_iff.mp h
    exact ih (by rw [hV, List.append_assoc]; rfl) (hs.substituteGate hw V hV ht) h

theorem Substituting.foldlM_outputs {f : State → ℕ → Option State} {j : ℕ}
    (hf : ∀ s n s', f s n = some s' →
      KeepsNames j s.substituted s'.substituted ∧ s'.old2new = s.old2new) {pos : List ℕ}
    (hs : Substituting ntk pre k s) (h : pos.foldlM f s = some s') :
    Substituting ntk pre (k + j * pos.length) s' := by
  induction pos generalizing s k with
  | nil =>
    obtain rfl := Option.some.inj h
    exact hs
  | cons po pos ih =>
    rw [List.foldlM_cons] at h
    obtain ⟨t, ht, h⟩ := Option.bind_eq_some_iff.mp h
    obtain ⟨hk, hmap⟩ := hf _ _ _ ht
    have ht : Substituting ntk pre (k + j) t := by
      rw [Substituting, hmap]
      exact Copying.keepsNames hs hk
    have hrest := ih ht h
    rwa [Nat.add_assoc, Nat.add_comm j, ← Nat.mul_succ] at hrest

theorem substitute_substituting [CopyInitializer] (hw : ntk.WellFormed) (V : ntk.TopoView)
    (h : substitute ntk ps V.gates = some s) : Substituting ntk V.gates ntk.numPos s := by
  obtain ⟨s₁, h₁, h⟩ := Option.bind_eq_some_iff.mp h
  obtain ⟨s₂, h₂, h⟩ := Option.bind_eq_some_iff.mp h
  obtain ⟨s₃, h₃, h₄⟩ := Option.bind_eq_some_iff.mp h
  have hs₀ : Substituting ntk [] 0 (initialState ntk) := initializeCopyNetwork_copying hw
  have hs₁ : Substituting ntk [] 0 s₁ :=
    invariant_foldlM (fun n _ s s' hs hrun => Substituting.generateFanoutTree hs hrun) hs₀ h₁
  have hs₂ : Substituting ntk V.gates 0 s₂ := hs₁.foldlM_gates hw V rfl h₂
  have hs₃ := hs₂.foldlM_outputs (j := 1) (fun s n s' hrun => by
    obtain ⟨f, -, hrun⟩ := Option.bind_eq_some_iff.mp hrun
    obtain rfl := Option.some.inj hrun
    exact ⟨createPo_keepsNames f, rfl⟩) h₃
  have hs₄ := hs₃.foldlM_outputs (j := 0) (fun s n s' hrun => by
    obtain ⟨f, -, hrun⟩ := Option.bind_eq_some_iff.mp hrun
    obtain rfl := Option.some.inj hrun
    exact ⟨createRi_keepsNames f, rfl⟩) h₄
  have hlen : ntk.foreachPo.length = ntk.numPos := List.length_take_of_le hw.numPos_le
  rwa [hlen, Nat.zero_mul, Nat.zero_add, Nat.one_mul] at hs₄

end FanoutSubstitution

namespace NetworkBalancing

open TechnologyNetwork

variable {ntk balanced : TechnologyNetwork} {level : ℕ → UInt32} {ps : NetworkBalancingParams}
  {pre : List ℕ} {n k : ℕ} {s : TechnologyNetwork × (ℕ → ℕ)}

/-- The run before the names are restored. -/
def balance [CopyInitializer] (ntk : TechnologyNetwork) (level : ℕ → UInt32)
    (ps : NetworkBalancingParams) (gates : List ℕ) : Option (TechnologyNetwork × (ℕ → ℕ)) := do
  let (balanced, old2new) := gates.foldl (balanceGate ntk level) ntk.initializeCopyNetwork
  let maxPoLevel ← maxElement (getPoLevels ntk level)
  some (ntk.foreachPo.foldl (balancePo level ps old2new maxPoLevel) balanced, old2new)

theorem run_eq_map [CopyInitializer] (gates : List ℕ) : run ntk level ps gates =
    (balance ntk level ps gates).map fun s => ntk.restoreNames s.1 gates s.2 := by
  simp only [run, balance, Option.bind_eq_bind, Option.map_bind, Function.comp_def, Option.map_some]

theorem exists_balance [CopyInitializer] (hw : ntk.WellFormed) (level : ℕ → UInt32)
    (ps : NetworkBalancingParams) (gates : List ℕ) (hpo : 0 < ntk.numPos) :
    ∃ s, balance ntk level ps gates = some s := by
  have hne : getPoLevels ntk level ≠ [] := by
    rw [← List.length_pos_iff, getPoLevels, List.length_map, foreachPo,
      List.length_take_of_le hw.numPos_le]
    exact hpo
  obtain ⟨maxPoLevel, hmax, -⟩ := exists_maxElement hne
  rw [balance, hmax]
  exact ⟨_, rfl⟩

theorem insertBufChain_keepsNames (num child : ℕ) :
    KeepsNames 0 balanced (insertBufChain num balanced child).1 := by
  induction num generalizing balanced child with
  | zero => exact .refl
  | succ num ih => exact (pushNode_keepsNames [child] .identity).append (ih _)

theorem gatherChild_keepsNames (old2new : ℕ → ℕ) (n fn : ℕ) :
    KeepsNames 0 balanced (gatherChild level old2new n balanced fn).1 := by
  rw [gatherChild]
  split_ifs
  · exact .refl
  · exact insertBufChain_keepsNames _ _

theorem gatherChildren_keepsNames (old2new : ℕ → ℕ) (n : ℕ) (fns : List ℕ) :
    KeepsNames 0 balanced (gatherChildren level old2new n balanced fns).1 ∧
      (gatherChildren level old2new n balanced fns).2.length = fns.length := by
  induction fns generalizing balanced with
  | nil => exact ⟨.refl, rfl⟩
  | cons fn fns ih =>
    exact ⟨(gatherChild_keepsNames old2new n fn).append ih.1, congrArg (· + 1) ih.2⟩

theorem balancePo_keepsNames (old2new : ℕ → ℕ) (maxPoLevel : UInt32) (po : ℕ) :
    KeepsNames 1 balanced (balancePo level ps old2new maxPoLevel balanced po) := by
  cases hu : ps.unifyOutputs with
  | true =>
    simp only [balancePo, hu, if_true]
    exact (insertBufChain_keepsNames _ _).trans (createPo_keepsNames _)
  | false =>
    simp only [balancePo, hu, Bool.false_eq_true, if_false]
    exact createPo_keepsNames _

theorem copying_balanceGate (hw : ntk.WellFormed) (V : ntk.TopoView) {suf : List ℕ}
    (hV : V.gates = pre ++ n :: suf)
    (hs : Copying ntk.inputs ntk.numPis 0 (ntk.Known pre) ownRep s.1 s.2) :
    Copying ntk.inputs ntk.numPis 0 (ntk.Known (pre ++ [n])) ownRep
      (balanceGate ntk level s n).1 (balanceGate ntk level s n).2 := by
  obtain ⟨hn, hc⟩ := V.next hw hV
  obtain ⟨hk, hlen⟩ := @gatherChildren_keepsNames s.1 level s.2 n (ntk.node n).children
  refine hs.cloneNode hk hn fun hnil => hc ?_
  rw [← List.length_eq_zero_iff, ← hlen, hnil]
  rfl

theorem copying_foldl_gates (hw : ntk.WellFormed) (V : ntk.TopoView) {ns : List ℕ}
    (hV : V.gates = pre ++ ns)
    (hs : Copying ntk.inputs ntk.numPis 0 (ntk.Known pre) ownRep s.1 s.2) :
    Copying ntk.inputs ntk.numPis 0 (ntk.Known V.gates) ownRep
      (ns.foldl (balanceGate ntk level) s).1 (ns.foldl (balanceGate ntk level) s).2 := by
  induction ns generalizing pre s with
  | nil => rwa [hV, List.append_nil]
  | cons n ns ih =>
    exact ih (by rw [hV, List.append_assoc]; rfl) (copying_balanceGate hw V hV hs)

theorem balance_copying [CopyInitializer] (hw : ntk.WellFormed) (V : ntk.TopoView)
    (h : balance ntk level ps V.gates = some s) :
    Copying ntk.inputs ntk.numPis ntk.numPos (ntk.Known V.gates) ownRep s.1 s.2 := by
  obtain ⟨maxPoLevel, -, h⟩ := Option.bind_eq_some_iff.mp h
  obtain rfl := Option.some.inj h
  have hgates := @copying_foldl_gates _ level _ _ hw V _ rfl (initializeCopyNetwork_copying hw)
  have hpos := hgates.foldl_outputs (fun old2new dest po =>
    @balancePo_keepsNames dest level ps old2new maxPoLevel po) ntk.foreachPo
  have hlen : ntk.foreachPo.length = ntk.numPos := List.length_take_of_le hw.numPos_le
  rwa [hlen, Nat.zero_add, Nat.one_mul] at hpos

end NetworkBalancing

end Fiction
