import Quadruple.Proofs.Flow.Layout

/-!
# Walking a flow graph and running a body

Two readings of the control flow of a function. `Walk` follows the successors of blocks from a
block on; `Reach` moves over the body as it was emitted, where a jump goes to the first label with
the number that its target stands for. Both are given the outcomes of the tests they will meet, in
order, and yield what they meet: actions and tests.

Main statement: `Walk.unique`.
-/

namespace Quadruple

open List

inductive Event where
  /-- An instruction that is neither a jump nor a mark. -/
  | action (q : Quad)
  /-- A test of a temporary. -/
  | test (c : Temp)
deriving DecidableEq, Repr

/-- What meeting an instruction means. Jumps, labels, equations, declarations and marks of lines
are passed in silence. -/
def Quad.events : Quad → List Event
  | .branch c _ _ | .condJump c _ => [.test c]
  | .jump _ | .label _ | .patch _ _ | .stmtBegin _ | .globalDecl _ | .formalDecl _ | .localDecl _
  | .funcBegin _ _ | .funcEnd => []
  | q => [.action q]

def Quad.isStraight : Quad → Bool
  | .condJump .. | .jump _ | .branch .. | .ret .. | .funcEnd => false
  | _ => true

variable {q : Quad}

theorem Quad.events_of_isDecl (h : q.isDecl = true) : q.events = [] := by
  cases q with
  | formalDecl | localDecl => rfl
  | _ => cases h

theorem Quad.isStraight_of_isDecl (h : q.isDecl = true) : q.isStraight = true := by
  cases q with
  | formalDecl | localDecl => rfl
  | _ => cases h

theorem Quad.endsBlock_of_isStraight (h : q.isStraight = true) : q.endsBlock = false := by
  cases q with
  | branch | jump | ret | funcEnd => cases h
  | _ => rfl

inductive Ending where
  /-- At the end of the function. -/
  | done
  /-- At a test whose outcome is not given. -/
  | waiting
deriving DecidableEq, Repr

namespace Flow

def Block.events (b : Block) : List Event := b.quads.flatMap Quad.events

/-- `Walk f i os es e`: from block `i` on, with the outcomes `os` of the tests to come, the blocks
along the successors meet `es` and end with `e`. A test that holds takes the first successor. -/
inductive Walk (f : Func) : Nat → List Bool → List Event → Ending → Prop
  | stop {i : Nat} {b : Block} {os : List Bool} :
      f.blocks[i]? = some b → b.succs = [] → Walk f i os b.events .done
  | next {i j : Nat} {b : Block} {os : List Bool} {es : List Event} {e : Ending} :
      f.blocks[i]? = some b → b.succs = [j] → Walk f j os es e → Walk f i os (b.events ++ es) e
  | wait {i t u : Nat} {b : Block} :
      f.blocks[i]? = some b → b.succs = [t, u] → Walk f i [] b.events .waiting
  | branch {i t u : Nat} {b : Block} {o : Bool} {os : List Bool} {es : List Event} {e : Ending} :
      f.blocks[i]? = some b → b.succs = [t, u] → Walk f (if o then t else u) os es e →
      Walk f i (o :: os) (b.events ++ es) e

variable {i : Nat} {eqs : Equations} {d : Draft} {b : DraftBlock} {b' : Block} {name : BlockName}
  {before : List Quad} {t : Target}

/-- The outcomes of the tests decide the walk. -/
theorem Walk.unique {f : Func} {os : List Bool} {es es' : List Event} {e e' : Ending}
    (h : Walk f i os es e) (h' : Walk f i os es' e') : es = es' ∧ e = e' := by
  induction h generalizing es' e' with
  | stop hb hs | wait hb hs => cases h' <;> simp_all
  | next hb hs _ ih =>
    cases h' with
    | next hb' hs' hw =>
      cases hb.symm.trans hb'
      obtain rfl : _ = _ := singleton_inj.1 (hs.symm.trans hs')
      obtain ⟨rfl, rfl⟩ := ih hw
      exact ⟨rfl, rfl⟩
    | _ => simp_all
  | branch hb hs _ ih =>
    cases h' with
    | branch hb' hs' hw =>
      cases hb.symm.trans hb'
      obtain ⟨rfl, rfl⟩ : _ = _ ∧ _ = _ := by simpa using hs.symm.trans hs'
      obtain ⟨rfl, rfl⟩ := ih hw
      exact ⟨rfl, rfl⟩
    | _ => simp_all

/-! ## Runs over a body -/

def targetLabel? (eqs : Equations) : Target → Option Int
  | .label n => some n
  | .blank b => eqs.lookup b

/-- A jump to `t` goes on with `rest`: what follows the first label that `t` stands for. -/
def Leads (eqs : Equations) (body : List Quad) (t : Target) (rest : List Quad) : Prop :=
  ∃ n pre, targetLabel? eqs t = some n ∧ body = pre ++ .label n :: rest ∧ Quad.label n ∉ pre

/-- `Reach eqs body r os es r' os'`: with the outcomes `os` the run over `body` comes from the rest
`r` of the body to the rest `r'`, meets `es` on the way and has the outcomes `os'` left. -/
inductive Reach (eqs : Equations) (body : List Quad) :
    List Quad → List Bool → List Event → List Quad → List Bool → Prop
  | refl {r : List Quad} {os : List Bool} : Reach eqs body r os [] r os
  | straight {q : Quad} {r r' : List Quad} {os os' : List Bool} {es : List Event} :
      q.isStraight = true → Reach eqs body r os es r' os' →
      Reach eqs body (q :: r) os (q.events ++ es) r' os'
  | jump {t : Target} {r r1 r' : List Quad} {os os' : List Bool} {es : List Event} :
      Leads eqs body t r1 → Reach eqs body r1 os es r' os' →
      Reach eqs body (.jump t :: r) os es r' os'
  | branch {c : Temp} {t u : Target} {o : Bool} {r r1 r' : List Quad} {os os' : List Bool}
      {es : List Event} :
      Leads eqs body (if o then t else u) r1 → Reach eqs body r1 os es r' os' →
      Reach eqs body (.condJump c t :: .jump u :: r) (o :: os) (.test c :: es) r' os'

theorem Reach.trans {body r1 r2 r3 : List Quad} {os1 os2 os3 : List Bool} {es es' : List Event}
    (h : Reach eqs body r1 os1 es r2 os2) (h' : Reach eqs body r2 os2 es' r3 os3) :
    Reach eqs body r1 os1 (es ++ es') r3 os3 := by
  induction h with
  | refl => exact h'
  | straight hq _ ih => simpa using Reach.straight hq (ih h')
  | jump hl _ ih => exact .jump hl (ih h')
  | branch hl _ ih => exact .branch hl (ih h')

/-- Where a run stops: at the end of the body, at a return, or at a test without an outcome. -/
inductive Halts : List Quad → List Bool → List Event → Ending → Prop
  | done {os : List Bool} : Halts [] os [] .done
  | ret {v : Option Temp} {tag : Tag} {r : List Quad} {os : List Bool} :
      Halts (.ret v tag :: r) os [.action (.ret v tag)] .done
  | wait {c : Temp} {t u : Target} {r : List Quad} :
      Halts (.condJump c t :: .jump u :: r) [] [.test c] .waiting

/-! ## Finished blocks -/

/-- The blocks of `f` are those of the draft, their targets resolved. -/
def Finished (d : Draft) (eqs : Equations) (f : Func) : Prop :=
  Forall₂ (fun p b => d.finishBlock eqs p.2 p.1 = .ok b) d.blocks.zipIdx f.blocks

theorem Finished.block {f : Func} (h : Finished d eqs f) (hb : d.blocks[i]? = some b) :
    ∃ b', f.blocks[i]? = some b' ∧ d.finishBlock eqs i b = .ok b' := by
  obtain ⟨hi, rfl⟩ := List.getElem?_eq_some_iff.1 hb
  have hlen := h.length_eq
  rw [length_zipIdx] at hlen
  refine ⟨f.blocks.get ⟨i, hlen ▸ hi⟩, getElem?_eq_getElem _, ?_⟩
  simpa using h.get (i := i) (by simpa using hi) (hlen ▸ hi)

theorem finishBlock_branch {c : Temp} {u : Target}
    (h : d.finishBlock eqs i ⟨name, .branch c t u :: before⟩ = .ok b') :
    ∃ n m ti ui, d.resolve eqs t = .ok (n, ti) ∧ d.resolve eqs u = .ok (m, ui) ∧
      b'.quads = before.reverse ++ [.branch c (.label n) (.label m)] ∧ b'.succs = [ti, ui] := by
  obtain ⟨⟨n, ti⟩, ht, h⟩ := exists_of_bind_ok h
  obtain ⟨⟨m, ui⟩, hu, h⟩ := exists_of_bind_ok h
  cases h
  exact ⟨n, m, ti, ui, ht, hu, by simp, rfl⟩

theorem finishBlock_jump (h : d.finishBlock eqs i ⟨name, .jump t :: before⟩ = .ok b') :
    ∃ n ti, d.resolve eqs t = .ok (n, ti) ∧
      b'.quads = before.reverse ++ [.jump (.label n)] ∧ b'.succs = [ti] := by
  obtain ⟨⟨n, ti⟩, ht, h⟩ := exists_of_bind_ok h
  cases h
  exact ⟨n, ti, ht, by simp, rfl⟩

theorem finishBlock_open (hb : ∀ q ∈ b.rev.head?, q.endsBlock = false)
    (h : d.finishBlock eqs i b = .ok b') :
    b'.quads = b.rev.reverse ∧ b'.succs = if i + 1 < d.rev.length then [i + 1] else [] := by
  obtain ⟨name, rev⟩ := b
  have hs : ((if i + 1 < d.rev.length then some (i + 1) else none) : Option Nat).toList =
      if i + 1 < d.rev.length then [i + 1] else [] := by split <;> rfl
  cases rev with
  | nil =>
    cases h
    exact ⟨rfl, hs⟩
  | cons q before =>
    have hq := hb q rfl
    cases q <;> simp only [Quad.endsBlock, Bool.true_eq_false] at hq <;>
    · cases h
      exact ⟨rfl, hs⟩

theorem finishBlock_last (hq : q = .funcEnd ∨ ∃ v tag, q = .ret v tag)
    (h : d.finishBlock eqs i ⟨name, q :: before⟩ = .ok b') :
    b'.quads = before.reverse ++ [q] ∧ b'.succs = [] := by
  obtain rfl | ⟨v, tag, rfl⟩ := hq <;>
  · cases h
    exact ⟨by simp, rfl⟩

theorem mem_blocks (h : d.blocks[i]? = some b) : b ∈ d.rev := by
  simpa [Draft.blocks] using mem_of_getElem? h

theorem mem_later_blocks (h : d.blocks[i + 1]? = some b) : b ∈ d.rev.dropLast := by
  have hm : b ∈ d.blocks.tail := mem_of_getElem? (by simpa using h)
  simpa [Draft.blocks, tail_reverse] using hm

/-! ## Jumps -/

theorem resolve_ok {n : Int} (h : d.resolve eqs t = .ok (n, i)) :
    targetLabel? eqs t = some n ∧ d.blocks.findIdx? (·.name == .label n) = some i := by
  unfold Draft.resolve Draft.resolveIn at h
  dsimp only at h
  split at h
  · obtain ⟨m, ⟨⟩, h⟩ := exists_of_bind_ok h
    split at h <;> cases h
    exact ⟨rfl, ‹_›⟩
  · split at h <;> obtain ⟨m, ⟨⟩, h⟩ := exists_of_bind_ok h
    split at h <;> cases h
    exact ⟨‹_›, ‹_›⟩

end Flow

end Quadruple
