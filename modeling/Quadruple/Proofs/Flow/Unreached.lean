import Mathlib
import Quadruple.Flow.Graph

/-!
# Blocks that are not reached

The marks of `Func.reached` are set from a list of blocks that are still to be looked at, in which
a block may stand any number of times, before and after it was marked.

Main statement: `exists_unreachable`.
-/

namespace Quadruple.Flow.Func

open List

variable {f : Func} {seen : Array Bool} {work : List Nat} {i k : Nat}

def Follows (f : Func) (i j : Nat) : Prop := ∃ b, f.blocks[i]? = some b ∧ j ∈ b.succs

def LeadsTo (f : Func) (i : Nat) : Prop := Relation.ReflTransGen f.Follows 0 i

theorem follows_iff {j : Nat} : f.Follows i j ↔ j ∈ (match f.blocks[i]? with
    | some b => b.succs
    | none => []) := by
  unfold Follows
  cases f.blocks[i]? <;> simp

/-! ## Marks -/

/-- What holds of the blocks to be looked at and passes on to successors holds of all that is
marked. -/
theorem markReached_sound {P : Nat → Prop} (hP : ∀ i j, P i → f.Follows i j → P j)
    (hseen : ∀ i, seen[i]? = some true → P i) (hwork : ∀ i ∈ work, P i) (i : Nat)
    (hi : (markReached f.blocks seen work)[i]? = some true) : P i := by
  fun_induction markReached f.blocks seen work with
  | case1 seen => exact hseen i hi
  | case2 seen k rest _ _ ih
  | case4 seen k rest _ ih => exact ih hseen (forall_mem_cons.1 hwork).2 hi
  | case3 seen k rest hk hs next ih =>
    obtain ⟨hPk, hrest⟩ := forall_mem_cons.1 hwork
    refine ih (fun j hj => ?_) (fun j hj => ?_) hi
    · rw [Array.getElem?_set] at hj
      split at hj
      next he => exact he ▸ hPk
      next => exact hseen j hj
    · rcases mem_append.1 hj with hj | hj
      · exact hP k j hPk (follows_iff.2 hj)
      · exact hrest j hj

/-- Whoever is marked has its successors marked, or they are still to be looked at. -/
def ClosedUpTo (f : Func) (seen : Array Bool) (work : List Nat) : Prop :=
  ∀ i j, seen[i]? = some true → f.Follows i j → j < seen.size → seen[j]? = some true ∨ j ∈ work

theorem ClosedUpTo.skip (h : f.ClosedUpTo seen (k :: work))
    (hk : k < seen.size → seen[k]? = some true) : f.ClosedUpTo seen work := by
  intro i j hi hij hj
  rcases h i j hi hij hj with hseen | hmem
  · exact .inl hseen
  · rcases mem_cons.1 hmem with rfl | hmem
    · exact .inl (hk hj)
    · exact .inr hmem

theorem ClosedUpTo.mark (h : f.ClosedUpTo seen (k :: work)) (hk : k < seen.size) :
    f.ClosedUpTo (seen.set k true) ((match f.blocks[k]? with
      | some b => b.succs
      | none => []) ++ work) := by
  intro i j hi hij hj
  rw [Array.size_set] at hj
  rw [Array.getElem?_set] at hi ⊢
  by_cases hkj : k = j
  · exact .inl (if_pos hkj)
  rw [if_neg hkj]
  by_cases hki : k = i
  · exact .inr (mem_append_left _ (follows_iff.1 (hki ▸ hij)))
  rw [if_neg hki] at hi
  rcases h i j hi hij hj with hseen | hmem
  · exact .inl hseen
  · exact .inr (mem_append_right _ ((mem_cons.1 hmem).resolve_left (Ne.symm hkj)))

/-- What was marked stays so, what was to be looked at is marked, and in the end successors of marked
blocks are. -/
theorem markReached_complete (h : f.ClosedUpTo seen work) :
    (∀ i, i < seen.size → seen[i]? = some true ∨ i ∈ work →
      (markReached f.blocks seen work)[i]? = some true) ∧
    (markReached f.blocks seen work).size = seen.size ∧
    f.ClosedUpTo (markReached f.blocks seen work) [] := by
  fun_induction markReached f.blocks seen work with
  | case1 seen => exact ⟨fun i _ hi => hi.resolve_right not_mem_nil, rfl, h⟩
  | case2 seen k rest hk hs ih =>
    have hmarked : seen[k]? = some true := Array.getElem?_eq_some_iff.2 ⟨hk, hs⟩
    obtain ⟨hstays, hrest⟩ := ih (h.skip fun _ => hmarked)
    refine ⟨fun i hlt hi => hstays i hlt ?_, hrest⟩
    rcases hi with hi | hi
    · exact .inl hi
    · rcases mem_cons.1 hi with rfl | hi
      · exact .inl hmarked
      · exact .inr hi
  | case3 seen k rest hk hs next ih =>
    obtain ⟨hstays, hsize, hclosed⟩ := ih (h.mark hk)
    refine ⟨fun i hlt hi => hstays i (by rwa [Array.size_set]) ?_, hsize.trans (Array.size_set hk),
      hclosed⟩
    rw [Array.getElem?_set]
    by_cases hki : k = i
    · exact .inl (if_pos hki)
    rw [if_neg hki]
    rcases hi with hi | hi
    · exact .inl hi
    · exact .inr (mem_append_right _ ((mem_cons.1 hi).resolve_left (Ne.symm hki)))
  | case4 seen k rest hk ih =>
    obtain ⟨hstays, hrest⟩ := ih (h.skip fun hlt => absurd hlt hk)
    refine ⟨fun i hlt hi => hstays i hlt ?_, hrest⟩
    rcases hi with hi | hi
    · exact .inl hi
    · rcases mem_cons.1 hi with rfl | hi
      · exact absurd hlt hk
      · exact .inr hi

/-- Wherever one starts, what is marked is what a path leads to. -/
theorem markReached_iff (f : Func) (start : Nat) (hi : i < f.blocks.length) :
    (markReached f.blocks (Array.replicate f.blocks.length false) [start]).getD i false = true ↔
      Relation.ReflTransGen f.Follows start i := by
  have hempty : ∀ j : Nat, (Array.replicate f.blocks.length false)[j]? ≠ some true := by
    intro j hj
    rw [Array.getElem?_replicate] at hj
    split at hj <;> cases hj
  have hnone : f.ClosedUpTo (Array.replicate f.blocks.length false) [start] :=
    fun j _ hj => absurd hj (hempty j)
  obtain ⟨hstart, hsize, hclosed⟩ := markReached_complete hnone
  rw [Array.size_replicate] at hsize hstart
  rw [Array.getD_eq_getD_getElem?, Option.getD_eq_iff]
  simp only [Bool.false_eq_true, and_false, or_false]
  constructor
  · exact markReached_sound (fun _ _ h hij => h.tail hij) (fun j hj => absurd hj (hempty j))
      (forall_mem_singleton.2 .refl) i
  · -- a path stays within the blocks: a place that is none has no successors
    intro hpath
    induction hpath with
    | refl => exact hstart start hi (.inr mem_cons_self)
    | @tail j k _ hjk ih =>
      have hlt : j < f.blocks.length := by
        obtain ⟨b, hb, -⟩ := hjk
        exact (List.getElem?_eq_some_iff.1 hb).1
      exact (hclosed j k (ih hlt) hjk (by rwa [hsize])).resolve_right not_mem_nil

theorem reached_iff (f : Func) (hi : i < f.blocks.length) :
    f.reached.getD i false = true ↔ f.LeadsTo i :=
  f.markReached_iff 0 hi

/-! ## The list of blocks -/

def unreachedPlaces (f : Func) : List Nat :=
  (List.range f.blocks.length).filter fun i => !f.reached.getD i false

theorem mem_unreachedPlaces : i ∈ f.unreachedPlaces ↔ i < f.blocks.length ∧ ¬ f.LeadsTo i := by
  unfold unreachedPlaces
  rw [mem_filter, mem_range]
  refine and_congr_right fun hi => ?_
  rw [← reached_iff f hi]
  simp

/-- `Func.unreachable` lists, in the order of the function and none twice, exactly the blocks to which
no path of successors leads from the first one. -/
theorem exists_unreachable (f : Func) : ∃ places : List Nat, places.Pairwise (· < ·) ∧
    (∀ i, i ∈ places ↔ i < f.blocks.length ∧ ¬ f.LeadsTo i) ∧
    f.unreachable.map some = places.map (f.blocks[·]?) := by
  refine ⟨f.unreachedPlaces, pairwise_lt_range.filter _, fun _ => mem_unreachedPlaces, ?_⟩
  have hplaces : f.unreachedPlaces =
      (f.blocks.zipIdx.filter fun x => !f.reached.getD x.2 false).map Prod.snd := by
    rw [unreachedPlaces, range_eq_range', ← zipIdx_map_snd, filter_map]
    rfl
  rw [hplaces, unreachable, map_map, map_map]
  refine map_congr_left fun x hx => ?_
  exact (mem_zipIdx_iff_getElem?.1 (mem_filter.1 hx).1).symm

end Quadruple.Flow.Func
