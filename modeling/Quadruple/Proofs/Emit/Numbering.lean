import Quadruple.Proofs.Emit.Runs
import Quadruple.Proofs.Flow.Integer

/-!
# Labels, temporaries and blanks in order

A temporary is given out together with the instruction that assigns it, and a blank with the jump
that goes to it. Operations call one another and may end in a fault at any point, but no act comes
between the two.

Main statement: `numbered_run`.
-/

namespace Quadruple

open List

def Target.blank? : Target → Option Int
  | .blank b => some b
  | .label _ => none

def Quad.blanks (q : Quad) : List Int := q.targets.filterMap Target.blank?

namespace Emit

open Symbols (Table)

/-- The code has the labels, assigns the temporaries and goes to the blanks that have been given
out, each once and in order. -/
structure State.Numbered (s : State) : Prop where
  labels : s.code.toList.filterMap Quad.label? = (range' 1 s.labels).map Nat.cast
  temps : s.code.toList.filterMap Quad.dst? = (range' 1 s.temps).map fun n : Nat => ⟨n⟩
  blanks : s.code.toList.flatMap Quad.blanks = (range' 1 s.blanks).map fun n : Nat => (n : Int)

variable {q : Quad} {I I' : List Item} {s s' : State}

theorem State.Numbered.push (h : s.Numbered) (hcode : s'.code = s.code.push q)
    (hlabels : s'.labels = s.labels ∧ q.label? = none ∨
      s'.labels = s.labels + 1 ∧ q.label? = some ((s.labels + 1 : Nat) : Int))
    (htemps : s'.temps = s.temps ∧ q.dst? = none ∨
      s'.temps = s.temps + 1 ∧ q.dst? = some ⟨(s.temps + 1 : Nat)⟩)
    (hblanks : s'.blanks = s.blanks ∧ q.blanks = [] ∨
      s'.blanks = s.blanks + 1 ∧ q.blanks = [((s.blanks + 1 : Nat) : Int)]) : s'.Numbered := by
  refine ⟨?_, ?_, ?_⟩ <;> rw [hcode, Array.toList_push]
  · rcases hlabels with ⟨hl, hq⟩ | ⟨hl, hq⟩ <;>
      simp [hl, hq, h.labels, range'_1_concat, add_comm 1]
  · rcases htemps with ⟨ht, hq⟩ | ⟨ht, hq⟩ <;>
      simp [ht, hq, h.temps, range'_1_concat, add_comm 1]
  · rcases hblanks with ⟨hb, hq⟩ | ⟨hb, hq⟩ <;>
      simp [hb, hq, h.blanks, range'_1_concat, add_comm 1]

theorem Defines.numbers {tag : Tag} {quad : Temp → Quad} (h : Defines I s tag quad) (t : Temp) :
    (quad t).label? = none ∧ (quad t).dst? = some t ∧ (quad t).blanks = [] := by
  cases h <;> exact ⟨rfl, rfl, rfl⟩

theorem Writes.numbers (h : Writes I s q) : q.label? = none ∧ q.dst? = none ∧ q.blanks = [] := by
  cases h with
  | storage hq =>
    exact forall_mem_storage (P := fun q => q.label? = none ∧ q.dst? = none ∧ q.blanks = [])
      (fun _ => ⟨rfl, rfl, rfl⟩) (fun _ => ⟨rfl, rfl, rfl⟩) q hq
  | _ => exact ⟨rfl, rfl, rfl⟩

theorem Act.numbered {g d c : Bool} (h : Act g d c (I, s) (I', s')) (hs : s.Numbered) :
    s'.Numbered := by
  cases h with
  | define h =>
    obtain ⟨hlabel, hdst, hblanks⟩ := h.numbers ⟨(s.temps + 1 : Nat)⟩
    exact hs.push rfl (.inl ⟨rfl, hlabel⟩) (.inr ⟨rfl, hdst⟩) (.inl ⟨rfl, hblanks⟩)
  | emit h =>
    obtain ⟨hlabel, hdst, hblanks⟩ := h.numbers
    exact hs.push rfl (.inl ⟨rfl, hlabel⟩) (.inl ⟨rfl, hdst⟩) (.inl ⟨rfl, hblanks⟩)
  | label => exact hs.push rfl (.inr ⟨rfl, rfl⟩) (.inl ⟨rfl, rfl⟩) (.inl ⟨rfl, rfl⟩)
  | patch => exact hs.push rfl (.inl ⟨rfl, rfl⟩) (.inl ⟨rfl, rfl⟩) (.inl ⟨rfl, rfl⟩)
  | branch hq =>
    rcases hq with rfl | ⟨x, a, -, rfl⟩ <;>
      exact hs.push rfl (.inl ⟨rfl, rfl⟩) (.inl ⟨rfl, rfl⟩) (.inr ⟨rfl, rfl⟩)
  | _ => exact ⟨hs.labels, hs.temps, hs.blanks⟩

theorem State.Numbered.run (hs : s.Numbered) (ops : List Op) : (s.run ops).Numbered :=
  run_keeps Act.numbered (fun _ _ _ h => ⟨h.labels, h.temps, h.blanks⟩) hs ops

theorem numbered_new (settings : Settings) (table : Table) (report : Report) :
    (State.new settings table report).Numbered := ⟨rfl, rfl, rfl⟩

/-- However the emitter was run, its code assigns the temporaries 1, 2, … and jumps to the blanks
1, 2, … in this order, up to the last ones that it has given out. -/
theorem numbered_run (settings : Settings) (table : Table) (report : Report) (ops : List Op) :
    let s := (State.new settings table report).run ops
    s.code.toList.filterMap Quad.dst? = (range' 1 s.temps).map (fun n : Nat => ⟨n⟩) ∧
      s.code.toList.flatMap Quad.blanks = (range' 1 s.blanks).map fun n : Nat => (n : Int) := by
  have hs := (numbered_new settings table report).run ops
  exact ⟨hs.temps, hs.blanks⟩

end Emit

end Quadruple
