import Mathlib
import Quadruple.Flow.Graph

/-!
# Dominance

A point of a function lies before one of its instructions or at the end of one of its blocks. One
point dominates another when no path from the entry comes to the second without passing the first.

Main statements: `Dominates.trans`, `Dominates.antisymm` on points that are reached,
`Dominates.of_edge` and `dominates_within`.
-/

namespace Quadruple.Flow

open List

structure Point where
  block : Nat
  pos : Nat
deriving DecidableEq, Repr

def Point.entry : Point := ⟨0, 0⟩

def Func.quadAt? (f : Func) (p : Point) : Option Quad := f.blocks[p.block]?.bind (·.quads[p.pos]?)

/-- The instructions of a function with the points in front of them. -/
def Func.points (f : Func) : List (Point × Quad) :=
  f.blocks.zipIdx.flatMap fun b => b.1.quads.zipIdx.map fun q => (⟨b.2, q.2⟩, q.1)

theorem Func.mem_points {f : Func} {p : Point} {q : Quad} :
    (p, q) ∈ f.points ↔ f.quadAt? p = some q := by
  unfold points quadAt?
  constructor
  · intro h
    obtain ⟨⟨b, i⟩, hb, h⟩ := mem_flatMap.1 h
    obtain ⟨⟨q', k⟩, hq, heq⟩ := mem_map.1 h
    cases heq
    rw [mem_zipIdx_iff_getElem?.1 hb, Option.bind_some]
    exact mem_zipIdx_iff_getElem?.1 hq
  · intro h
    obtain ⟨b, hb, hq⟩ := Option.bind_eq_some_iff.1 h
    exact mem_flatMap.2 ⟨(b, p.block), mem_zipIdx_iff_getElem?.2 hb,
      mem_map.2 ⟨(q, p.pos), mem_zipIdx_iff_getElem?.2 hq, rfl⟩⟩

inductive Func.Edge (f : Func) : Point → Point → Prop
  | next {i k : Nat} {b : Block} :
      f.blocks[i]? = some b → k < b.quads.length → f.Edge ⟨i, k⟩ ⟨i, k + 1⟩
  | succ {i j : Nat} {b : Block} :
      f.blocks[i]? = some b → j ∈ b.succs → f.Edge ⟨i, b.quads.length⟩ ⟨j, 0⟩

/-- A path from the entry comes to the point and meets no point of `S`, its end included. -/
inductive Func.Avoids (f : Func) (S : Point → Prop) : Point → Prop
  | entry : ¬ S .entry → f.Avoids S .entry
  | edge {p q : Point} : f.Avoids S p → f.Edge p q → ¬ S q → f.Avoids S q

def Func.Reached (f : Func) : Point → Prop := f.Avoids fun _ => False

def Func.Dominates (f : Func) (d p : Point) : Prop := ¬ f.Avoids (· = d) p

namespace Func

variable {f : Func} {S T : Point → Prop} {a b c p q : Point}

theorem Avoids.mono (h : f.Avoids S p) (hT : ∀ x, T x → S x) : f.Avoids T p := by
  induction h with
  | entry hn => exact .entry fun ht => hn (hT _ ht)
  | edge _ he hn ih => exact .edge ih he fun ht => hn (hT _ ht)

theorem Avoids.split (h : f.Avoids S p) (a : Point) :
    f.Avoids (fun x => S x ∨ x = a) p ∨ f.Avoids S a := by
  induction h with
  | entry hn =>
    by_cases ha : Point.entry = a
    · exact .inr (ha ▸ .entry hn)
    · exact .inl (.entry fun h => h.elim hn ha)
  | @edge p q hp he hn ih =>
    rcases ih with ih | ih
    · by_cases ha : q = a
      · exact .inr (ha ▸ .edge hp he hn)
      · exact .inl (.edge ih he fun h => h.elim hn ha)
    · exact .inr ih

theorem Dominates.trans (h : f.Dominates a b) (h' : f.Dominates b c) : f.Dominates a c := by
  intro hc
  rcases hc.split b with hb | hb
  · exact h' (hb.mono fun _ hx => .inr hx)
  · exact h hb

theorem Reached.first (h : f.Reached p) (hab : a ≠ b) :
    f.Avoids (fun x => x = a ∨ x = b) p ∨ f.Avoids (· = a) b ∨ f.Avoids (· = b) a := by
  induction h with
  | entry =>
    by_cases ha : Point.entry = a
    · exact .inr (.inr (ha ▸ .entry fun hb => hab (ha.symm.trans hb)))
    · by_cases hb : Point.entry = b
      · exact .inr (.inl (hb ▸ .entry ha))
      · exact .inl (.entry fun h => h.elim ha hb)
  | @edge p q _ he _ ih =>
    rcases ih with ih | ih
    · by_cases ha : q = a
      · subst ha
        exact .inr (.inr (.edge (ih.mono fun _ hx => .inr hx) he hab))
      · by_cases hb : q = b
        · subst hb
          exact .inr (.inl (.edge (ih.mono fun _ hx => .inl hx) he ha))
        · exact .inl (.edge ih he fun h => h.elim ha hb)
    · exact .inr ih

theorem Dominates.antisymm (h : f.Dominates a b) (h' : f.Dominates b a) (hr : f.Reached b) :
    a = b := by
  refine Decidable.byContradiction fun hab => ?_
  rcases hr.first hab with hb | hb | hb
  · -- the path ends at `b` and is said to avoid it
    cases hb with
    | entry hn | edge _ _ hn => exact hn (.inr rfl)
  · exact h hb
  · exact h' hb

/-- What dominates the end of an edge is that end or dominates its start. -/
theorem Dominates.of_edge (h : f.Dominates a q) (he : f.Edge p q) (hq : q ≠ a) :
    f.Dominates a p := fun hp => h (.edge hp he hq)

theorem dominates_self (p : Point) : f.Dominates p p := by
  intro h
  cases h with
  | entry hn => exact hn rfl
  | edge _ _ hn => exact hn rfl

theorem Dominates.of_edges (hp : p ≠ .entry) (h : ∀ r, f.Edge r p → f.Dominates a r) :
    f.Dominates a p := by
  intro hav
  cases hav with
  | entry => exact hp rfl
  | edge hr he _ => exact h _ he hr

/-- A block is left only at its end. -/
theorem dominates_within {i k l : Nat} (h : k ≤ l) : f.Dominates ⟨i, k⟩ ⟨i, l⟩ := by
  induction h with
  | refl => exact dominates_self _
  | step _ ih =>
    refine .of_edges (by simp [Point.entry]) fun r hr => ?_
    cases hr with
    | next => exact ih

theorem Reached.edge (h : f.Reached p) (he : f.Edge p q) : f.Reached q := Avoids.edge h he id

end Func

end Quadruple.Flow
