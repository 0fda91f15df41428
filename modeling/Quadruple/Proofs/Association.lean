import Mathlib

/-!
# Lists of pairs

What `List.lookup` finds, in terms of the pairs of a list and of their keys.
-/

namespace Quadruple

open List

variable {α β : Type} [BEq α] [LawfulBEq α] {l : List (α × β)} {a : α} {b : β}

theorem mem_of_lookup (h : l.lookup a = some b) : (a, b) ∈ l := by
  obtain ⟨l1, l2, hl, -⟩ := lookup_eq_some_iff.1 h
  rw [hl]
  simp

theorem lookup_of_mem (h : (l.map Prod.fst).Nodup) (hm : (a, b) ∈ l) : l.lookup a = some b := by
  obtain ⟨l1, l2, rfl⟩ := append_of_mem hm
  refine lookup_eq_some_iff.2 ⟨l1, l2, rfl, fun p hp => ?_⟩
  rw [map_append, nodup_append] at h
  exact bne_iff_ne.2 (h.2.2 p.1 (mem_map_of_mem hp) a (by simp)).symm

theorem lookup_eq_none : l.lookup a = none ↔ a ∉ l.map Prod.fst := by
  simp only [lookup_eq_none_iff, mem_map, not_exists, not_and, bne_iff_ne]
  exact forall₂_congr fun p _ => ne_comm

theorem lookup_map_eq_find? {γ : Type} (key : γ → α) (value : γ → β) (xs : List γ) (a : α) :
    (xs.map fun x => (key x, value x)).lookup a = (xs.find? (key · == a)).map value := by
  induction xs with
  | nil => rfl
  | cons x xs ih =>
    rw [map_cons, lookup_cons, find?_cons, ih, BEq.comm]
    cases key x == a <;> rfl

end Quadruple
