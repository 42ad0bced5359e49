import Mathlib.Data.Finset.Card
import Mathlib.Data.List.Dedup
import Mathlib.Data.List.TakeWhile

/-!
# Branching signals

A `branching_signal_container` is an array of slots, one for each branch. The slots are filled from
the front. An update for a node without a slot is lost when no slot is left.
-/

namespace Fiction

structure BranchingSignal (ν σ : Type*) where
  ntkNode : ν
  lytSignal : σ
  deriving DecidableEq

structure BranchingSignalContainer (ν σ : Type*) (fanoutSize : ℕ) where
  branches : List (Option (BranchingSignal ν σ))
  length_branches : branches.length = fanoutSize

namespace BranchingSignalContainer

variable {ν σ : Type*} {fanoutSize : ℕ}

def empty (ν σ : Type*) (fanoutSize : ℕ) : BranchingSignalContainer ν σ fanoutSize :=
  ⟨List.replicate fanoutSize none, List.length_replicate⟩

section Definitions

variable [DecidableEq ν]

def isBranchOf (n : ν) : Option (BranchingSignal ν σ) → Bool
  | some b => b.ntkNode = n
  | none => false

/-- `operator[]` -/
def get [Inhabited σ] (c : BranchingSignalContainer ν σ fanoutSize) (n : ν) : σ :=
  match c.branches.find? (isBranchOf n) with
  | some (some b) => b.lytSignal
  | _ => default

/-- The loop of `update_branch` from some slot on. -/
def updateFrom (n : ν) (s : σ) : List (Option (BranchingSignal ν σ)) →
    List (Option (BranchingSignal ν σ))
  | [] => []
  | some b :: bs =>
    if b.ntkNode = n then some { b with lytSignal := s } :: bs else some b :: updateFrom n s bs
  | none :: bs => some ⟨n, s⟩ :: bs

theorem length_updateFrom (n : ν) (s : σ) (bs : List (Option (BranchingSignal ν σ))) :
    (updateFrom n s bs).length = bs.length := by
  induction bs with
  | nil => rfl
  | cons b bs ih =>
    cases b with
    | none => rfl
    | some b =>
      rw [updateFrom]
      split_ifs
      · rfl
      · exact congrArg (· + 1) ih

def updateBranch (c : BranchingSignalContainer ν σ fanoutSize) (n : ν) (s : σ) :
    BranchingSignalContainer ν σ fanoutSize :=
  ⟨updateFrom n s c.branches, (length_updateFrom n s c.branches).trans c.length_branches⟩

/-- A sequence of calls of `update_branch` on a new container. -/
def run (fanoutSize : ℕ) (calls : List (ν × σ)) : BranchingSignalContainer ν σ fanoutSize :=
  calls.foldl (fun c call => c.updateBranch call.1 call.2) (empty ν σ fanoutSize)

def updated (calls : List (ν × σ)) : Finset ν := (calls.map Prod.fst).toFinset

def lastSignal [Inhabited σ] (calls : List (ν × σ)) (n : ν) : σ :=
  (calls.reverse.lookup n).getD default

/-- The nodes that are updated before `n` is for the first time. -/
def updatedBefore (calls : List (ν × σ)) (n : ν) : Finset ν :=
  updated (calls.takeWhile fun call => call.1 ≠ n)

/-- A container that has slots for all nodes is a map, and no update is lost. -/
structure MapLike [Inhabited σ] (fanoutSize : ℕ) (calls : List (ν × σ)) : Prop where
  lookup : (updated calls).card ≤ fanoutSize →
    ∀ n, (run fanoutSize calls).get n = lastSignal calls n
  kept : ∀ pre n s post, calls = pre ++ (n, s) :: post →
    (run fanoutSize (pre ++ [(n, s)])).get n = s

end Definitions

section Updates

variable [DecidableEq ν] {n m : ν} {s : σ} {bs : List (Option (BranchingSignal ν σ))}

theorem find?_updateFrom_of_ne (hne : m ≠ n) :
    (updateFrom n s bs).find? (isBranchOf m) = bs.find? (isBranchOf m) := by
  induction bs with
  | nil => rfl
  | cons b bs ih =>
    cases b with
    | none =>
      rw [updateFrom, List.find?_cons_of_neg (by simpa [isBranchOf] using hne.symm),
        List.find?_cons_of_neg (by simp [isBranchOf])]
    | some b =>
      rw [updateFrom]
      split_ifs with hb
      · have hm : ¬ b.ntkNode = m := fun h => hne (h.symm.trans hb)
        rw [List.find?_cons_of_neg (by simpa [isBranchOf] using hm),
          List.find?_cons_of_neg (by simpa [isBranchOf] using hm)]
      · rw [List.find?_cons, List.find?_cons, ih]

/-- There is a slot for `n`, its own one or an empty one. -/
def hasSlot (n : ν) (bs : List (Option (BranchingSignal ν σ))) : Bool :=
  bs.any fun b => b.isNone || isBranchOf n b

theorem find?_updateFrom_self : (updateFrom n s bs).find? (isBranchOf n) =
    if hasSlot n bs then some (some ⟨n, s⟩) else none := by
  induction bs with
  | nil => rfl
  | cons b bs ih =>
    cases b with
    | none =>
      rw [updateFrom, List.find?_cons_of_pos (by simp [isBranchOf])]
      rfl
    | some b =>
      rw [updateFrom]
      split_ifs with hb hslot hslot
      · rw [List.find?_cons_of_pos (by simpa [isBranchOf] using hb), ← hb]
      · exact absurd (by simp [hasSlot, isBranchOf, hb]) hslot
      · rw [List.find?_cons_of_neg (by simpa [isBranchOf] using hb), ih, if_pos]
        simpa [hasSlot, isBranchOf, hb] using hslot
      · rw [List.find?_cons_of_neg (by simpa [isBranchOf] using hb), ih, if_neg]
        simpa [hasSlot, isBranchOf, hb] using hslot

def Packed (nodes : List ν) (free : ℕ) (bs : List (Option (BranchingSignal ν σ))) : Prop :=
  ∃ stored : List (BranchingSignal ν σ), stored.map BranchingSignal.ntkNode = nodes ∧
    bs = stored.map some ++ List.replicate free none

theorem Packed.hasSlot_iff {nodes : List ν} {free : ℕ} (h : Packed nodes free bs) :
    hasSlot n bs = true ↔ n ∈ nodes ∨ 0 < free := by
  obtain ⟨stored, rfl, rfl⟩ := h
  simp only [hasSlot, List.any_append, List.any_map, List.any_replicate, Bool.or_eq_true,
    List.any_eq_true, List.mem_map]
  refine or_congr (exists_congr fun b => ?_) ?_
  · simp [isBranchOf]
  · simp [Nat.pos_iff_ne_zero]

theorem Packed.updateFrom_of_mem {nodes : List ν} {free : ℕ} (h : Packed nodes free bs)
    (hn : n ∈ nodes ∨ free = 0) : Packed nodes free (updateFrom n s bs) := by
  obtain ⟨stored, rfl, rfl⟩ := h
  induction stored with
  | nil =>
    obtain rfl := hn.resolve_left List.not_mem_nil
    exact ⟨[], rfl, rfl⟩
  | cons b stored ih =>
    change Packed _ _ (updateFrom n s (some b :: (stored.map some ++ List.replicate free none)))
    rw [updateFrom]
    split_ifs with hb
    · exact ⟨{ b with lytSignal := s } :: stored, rfl, rfl⟩
    · obtain ⟨stored', hnodes, hbs⟩ := ih (hn.imp_left fun hmem =>
        (List.mem_cons.mp hmem).resolve_left (Ne.symm hb))
      exact ⟨b :: stored', congrArg (b.ntkNode :: ·) hnodes, congrArg (some b :: ·) hbs⟩

theorem Packed.updateFrom_of_notMem {nodes : List ν} {free : ℕ} (h : Packed nodes (free + 1) bs)
    (hn : n ∉ nodes) : Packed (nodes ++ [n]) free (updateFrom n s bs) := by
  obtain ⟨stored, rfl, rfl⟩ := h
  induction stored with
  | nil => exact ⟨[⟨n, s⟩], rfl, rfl⟩
  | cons b stored ih =>
    obtain ⟨hb, hmem⟩ := not_or.mp (mt List.mem_cons.mpr hn)
    change Packed _ _ (updateFrom n s (some b :: (stored.map some ++ List.replicate _ none)))
    rw [updateFrom, if_neg (Ne.symm hb)]
    obtain ⟨stored', hnodes, hbs⟩ := ih hmem
    exact ⟨b :: stored', congrArg (b.ntkNode :: ·) hnodes, congrArg (some b :: ·) hbs⟩

end Updates

section Calls

variable [DecidableEq ν] {calls : List (ν × σ)} {call : ν × σ} {n : ν}

theorem mem_updated : n ∈ updated calls ↔ ∃ s, (n, s) ∈ calls := by
  simp [updated]

theorem updated_concat : updated (calls ++ [call]) = insert call.1 (updated calls) := by
  ext m
  simp only [updated, List.map_append, List.mem_toFinset, List.mem_append, Finset.mem_insert,
    List.map_singleton, List.mem_singleton]
  exact or_comm

theorem updatedBefore_append {later : List (ν × σ)} (h : n ∈ updated calls ∨ n = call.1) :
    updatedBefore (calls ++ call :: later) n = updatedBefore calls n := by
  refine congrArg updated ?_
  induction calls with
  | nil =>
    have hn : n = call.1 := h.resolve_left (by simp [updated])
    rw [List.nil_append, List.takeWhile_cons_of_neg (by simpa using hn.symm), List.takeWhile_nil]
  | cons c calls ih =>
    by_cases hc : c.1 = n
    · rw [List.cons_append, List.takeWhile_cons_of_neg (by simpa using hc),
        List.takeWhile_cons_of_neg (by simpa using hc)]
    · rw [List.cons_append, List.takeWhile_cons_of_pos (by simpa using hc),
        List.takeWhile_cons_of_pos (by simpa using hc), ih]
      refine h.imp_left fun hmem => ?_
      simpa [updated, Ne.symm hc] using hmem

theorem updatedBefore_of_notMem (h : n ∉ updated calls) :
    updatedBefore calls n = updated calls := by
  refine congrArg updated (List.takeWhile_eq_self_iff.mpr fun c hc => ?_)
  refine decide_eq_true fun heq => h ?_
  exact heq ▸ mem_updated.mpr ⟨c.2, hc⟩

theorem updatedBefore_subset : updatedBefore calls n ⊆ updated calls := by
  intro m hm
  obtain ⟨s, hs⟩ := mem_updated.mp hm
  exact mem_updated.mpr ⟨s, (List.takeWhile_sublist _).subset hs⟩

theorem notMem_updatedBefore : n ∉ updatedBefore calls n := by
  intro hn
  obtain ⟨s, hs⟩ := mem_updated.mp hn
  simpa using List.mem_takeWhile_imp hs

variable [Inhabited σ]

theorem lastSignal_concat : lastSignal (calls ++ [call]) n =
    if n = call.1 then call.2 else lastSignal calls n := by
  rw [lastSignal, List.reverse_append, List.reverse_singleton, List.singleton_append,
    List.lookup_cons]
  by_cases hn : n = call.1
  · simp [hn]
  · have : (n == call.1) = false := by simpa using hn
    rw [this, if_neg hn]
    rfl

theorem lastSignal_of_notMem (h : n ∉ updated calls) : lastSignal calls n = default := by
  induction calls using List.reverseRecOn with
  | nil => rfl
  | append_singleton calls call ih =>
    rw [updated_concat, Finset.mem_insert, not_or] at h
    rw [lastSignal_concat, if_neg h.1, ih h.2]

end Calls

section Runs

variable [DecidableEq ν] {calls : List (ν × σ)} {n : ν}

theorem run_concat (calls : List (ν × σ)) (call : ν × σ) :
    run fanoutSize (calls ++ [call]) = (run fanoutSize calls).updateBranch call.1 call.2 := by
  rw [run, List.foldl_append]
  rfl

/-- The slots belong to the nodes before whose first update there was room. -/
structure Stores (fanoutSize : ℕ) (calls : List (ν × σ)) (nodes : List ν) (free : ℕ) : Prop where
  packed : Packed nodes free (run fanoutSize calls).branches
  nodup : nodes.Nodup
  size : nodes.length + free = fanoutSize
  mem : ∀ n, n ∈ nodes ↔ n ∈ updated calls ∧ (updatedBefore calls n).card < fanoutSize
  all : 0 < free → ∀ n ∈ updated calls, n ∈ nodes

theorem Stores.hasSlot_iff {nodes : List ν} {free : ℕ} (h : Stores fanoutSize calls nodes free) :
    hasSlot n (run fanoutSize calls).branches = true ↔
      (updatedBefore calls n).card < fanoutSize := by
  rw [h.packed.hasSlot_iff]
  have hcard : nodes.toFinset.card = nodes.length := List.toFinset_card_of_nodup h.nodup
  have hsize := h.size
  constructor
  · rintro (hn | hfree)
    · exact ((h.mem n).mp hn).2
    · have hsub : updatedBefore calls n ⊆ nodes.toFinset := fun m hm =>
        List.mem_toFinset.mpr (h.all hfree m (updatedBefore_subset hm))
      have hle := Finset.card_le_card hsub
      omega
  · intro hlt
    by_cases hn : n ∈ updated calls
    · exact .inl ((h.mem n).mpr ⟨hn, hlt⟩)
    · right
      rw [updatedBefore_of_notMem hn] at hlt
      have hsub : nodes.toFinset ⊆ updated calls := fun m hm =>
        ((h.mem m).mp (List.mem_toFinset.mp hm)).1
      have hle := Finset.card_le_card hsub
      omega

theorem exists_stores (fanoutSize : ℕ) (calls : List (ν × σ)) :
    ∃ nodes free, Stores fanoutSize calls nodes free := by
  induction calls using List.reverseRecOn with
  | nil =>
    refine ⟨[], fanoutSize, ⟨[], rfl, rfl⟩, List.nodup_nil, Nat.zero_add _, fun n => ?_, ?_⟩
    · simp [updated]
    · simp [updated]
  | append_singleton calls call ih =>
    obtain ⟨nodes, free, h⟩ := ih
    have hslot : call.1 ∈ nodes ∨ 0 < free ↔ (updatedBefore calls call.1).card < fanoutSize :=
      h.packed.hasSlot_iff.symm.trans h.hasSlot_iff
    have hmem : ∀ n, n ∈ updated (calls ++ [call]) ∧
        (updatedBefore (calls ++ [call]) n).card < fanoutSize ↔
          n ∈ nodes ∨ n = call.1 ∧ (call.1 ∈ nodes ∨ 0 < free) := by
      intro n
      rw [hslot, h.mem n, updated_concat, Finset.mem_insert]
      by_cases hn : n ∈ updated calls ∨ n = call.1
      · rw [updatedBefore_append hn]
        by_cases heq : n = call.1
        · rw [heq]
          tauto
        · tauto
      · tauto
    by_cases hkeep : call.1 ∈ nodes ∨ free = 0
    · refine ⟨nodes, free, ?_, h.nodup, h.size, fun n => ?_, fun hfree n hn => ?_⟩
      · rw [run_concat]
        exact h.packed.updateFrom_of_mem hkeep
      · rw [hmem n]
        refine ⟨.inl, ?_⟩
        rintro (hn | ⟨rfl, hn | hfree⟩)
        · exact hn
        · exact hn
        · exact hkeep.resolve_right hfree.ne'
      · rw [updated_concat, Finset.mem_insert] at hn
        rcases hn with rfl | hn
        · exact hkeep.resolve_right hfree.ne'
        · exact h.all hfree n hn
    · obtain ⟨hnew, hfree⟩ := not_or.mp hkeep
      obtain ⟨free, rfl⟩ := Nat.exists_eq_succ_of_ne_zero hfree
      refine ⟨nodes ++ [call.1], free, ?_, ?_, ?_, fun n => ?_, fun _ n hn => ?_⟩
      · rw [run_concat]
        exact h.packed.updateFrom_of_notMem hnew
      · exact List.nodup_append.mpr ⟨h.nodup, List.nodup_singleton _, by
          rintro m hm _ hm' rfl
          exact hnew (List.mem_singleton.mp hm' ▸ hm)⟩
      · have hsize := h.size
        rw [List.length_append, List.length_singleton]
        omega
      · rw [hmem n, List.mem_append, List.mem_singleton]
        exact or_congr_right ⟨fun heq => ⟨heq, .inr (Nat.succ_pos free)⟩, And.left⟩
      · rw [updated_concat, Finset.mem_insert] at hn
        rw [List.mem_append, List.mem_singleton]
        exact hn.symm.imp_left (h.all (Nat.succ_pos free) n)

variable [Inhabited σ]

theorem get_updateBranch (c : BranchingSignalContainer ν σ fanoutSize) (n m : ν) (s : σ) :
    (c.updateBranch n s).get m =
      if m = n then if hasSlot n c.branches then s else default else c.get m := by
  unfold get updateBranch
  split_ifs with hm hslot
  · rw [hm, find?_updateFrom_self, if_pos hslot]
  · rw [hm, find?_updateFrom_self, if_neg hslot]
  · rw [find?_updateFrom_of_ne hm]

theorem get_run (fanoutSize : ℕ) (calls : List (ν × σ)) (n : ν) :
    (run fanoutSize calls).get n =
      if (updatedBefore calls n).card < fanoutSize then lastSignal calls n else default := by
  induction calls using List.reverseRecOn with
  | nil =>
    have hnone : (empty ν σ fanoutSize).branches.find? (isBranchOf n) = none := by
      refine List.find?_eq_none.mpr fun b hb => ?_
      rw [List.eq_of_mem_replicate hb]
      exact Bool.false_ne_true
    rw [run, List.foldl_nil, get, hnone]
    exact (ite_self default).symm
  | append_singleton calls call ih =>
    obtain ⟨nodes, free, h⟩ := exists_stores fanoutSize calls
    rw [run_concat, get_updateBranch, lastSignal_concat]
    by_cases hn : n = call.1
    · rw [if_pos hn, if_pos hn, updatedBefore_append (.inr hn), hn]
      exact if_congr h.hasSlot_iff rfl rfl
    · rw [if_neg hn, if_neg hn, ih]
      by_cases hmem : n ∈ updated calls
      · rw [updatedBefore_append (.inl hmem)]
      · rw [lastSignal_of_notMem hmem, ite_self, ite_self]

/-- The container is a map without lost updates as long as only the default signal is passed for
nodes that come too late. -/
theorem mapLike_iff (fanoutSize : ℕ) (calls : List (ν × σ)) : MapLike fanoutSize calls ↔
    ∀ call ∈ calls, (updatedBefore calls call.1).card < fanoutSize ∨ call.2 = default := by
  constructor
  · rintro h ⟨n, s⟩ hcall
    obtain ⟨pre, post, rfl⟩ := List.append_of_mem hcall
    have hkept := h.kept pre n s post rfl
    rw [get_run, lastSignal_concat, if_pos rfl, updatedBefore_append (.inr rfl)] at hkept
    rw [updatedBefore_append (.inr rfl)]
    by_cases hlt : (updatedBefore pre n).card < fanoutSize
    · exact .inl hlt
    · rw [if_neg hlt] at hkept
      exact .inr hkept.symm
  · refine fun h => ⟨fun hle n => ?_, ?_⟩
    · rw [get_run]
      by_cases hn : n ∈ updated calls
      · have hlt : (updatedBefore calls n).card < (updated calls).card :=
          Finset.card_lt_card ⟨updatedBefore_subset, fun hsub => notMem_updatedBefore (hsub hn)⟩
        rw [if_pos (hlt.trans_le hle)]
      · rw [lastSignal_of_notMem hn, ite_self]
    · rintro pre n s post rfl
      have hcall := h (n, s) (List.mem_append_right _ List.mem_cons_self)
      rw [updatedBefore_append (.inr rfl)] at hcall
      rw [get_run, lastSignal_concat, if_pos rfl, updatedBefore_append (.inr rfl)]
      split_ifs with hlt
      · rfl
      · exact (hcall.resolve_left hlt).symm

/-- The third node has no slot, so that its signal is not found. -/
theorem thirdNode_not_mapLike : ¬ MapLike 2 [(0, true), (1, true), (2, true)] := fun h =>
  absurd (h.kept [(0, true), (1, true)] 2 true [] rfl) (by decide)

end Runs

end BranchingSignalContainer

end Fiction
