import Quadruple.Flow.Build
import Quadruple.Proofs.Association

/-!
# How a draft lays out the instructions of a function

The builder sees the body of a function without its equations and with every conditional jump
fused with the jump behind it (`fuse?`). This file says what the draft then holds:

* `Draft.flat_addAll`: read in order, with a label in front of every block that a label starts,
  the blocks are the fused body without its declarations; nothing is lost, doubled or moved.
* `Draft.cut_addAll`: an instruction that ends a block stands last in its block.
* `Draft.finish_ok_iff`: a finished function has the blocks of its draft, one by one.
-/

namespace Quadruple

open List

/-- Whether an instruction declares storage of a function. It stands in no block. -/
def Quad.isDecl : Quad → Bool
  | .formalDecl _ | .localDecl _ => true
  | _ => false

def Quad.endsBlock : Quad → Bool
  | .branch .. | .jump _ | .ret .. | .funcEnd => true
  | _ => false

theorem exists_of_bind_ok {ε α β : Type} {x : Except ε α} {f : α → Except ε β} {b : β}
    (h : x >>= f = .ok b) : ∃ a, x = .ok a ∧ f a = .ok b := by
  cases x with
  | error e => cases h
  | ok a => exact ⟨a, rfl, h⟩

namespace Flow

/-- The body of a function as the builder takes it: without equations, and with every conditional
jump fused with the jump behind it. There is none when a conditional jump stands alone or when an
instruction cannot stand inside a function. -/
def fuse? : List Quad → Option (List Quad)
  | [] => some []
  | .patch _ _ :: qs => fuse? qs
  | .condJump c t :: .jump f :: qs => (fuse? qs).map (.branch c t f :: ·)
  | .condJump _ _ :: _ | .funcBegin _ _ :: _ | .funcEnd :: _ | .globalDecl _ :: _ => none
  | q :: qs => (fuse? qs).map (q :: ·)

/-- How `fuse?` takes a body. -/
inductive Fuses : List Quad → List Quad → Prop
  | nil : Fuses [] []
  | patch {b l : Int} {body qs : List Quad} : Fuses body qs → Fuses (.patch b l :: body) qs
  | test {c : Temp} {t u : Target} {body qs : List Quad} : Fuses body qs →
      Fuses (.condJump c t :: .jump u :: body) (.branch c t u :: qs)
  | keep {q : Quad} {body qs : List Quad} : fuse? [q] = some [q] → Fuses body qs →
      Fuses (q :: body) (q :: qs)

variable {body qs : List Quad} {q : Quad} {eqs : Equations}

theorem fuses_of_fuse? (h : fuse? body = some qs) : Fuses body qs := by
  fun_induction fuse? body generalizing qs with
  | case1 =>
    cases h
    exact .nil
  | case2 b l body ih => exact .patch (ih h)
  | case3 c t u body ih =>
    obtain ⟨ws, hw, rfl⟩ := Option.map_eq_some_iff.1 h
    exact .test (ih hw)
  | case4 | case5 | case6 | case7 => cases h
  | case8 q body h1 h2 h3 h4 h5 h6 ih =>
    obtain ⟨ws, hw, rfl⟩ := Option.map_eq_some_iff.1 h
    refine .keep ?_ (ih hw)
    cases q <;> simp_all [fuse?]

theorem fuse?_append {xs ys us vs : List Quad} (hx : fuse? xs = some us)
    (hy : fuse? ys = some vs) : fuse? (xs ++ ys) = some (us ++ vs) := by
  replace hx := fuses_of_fuse? hx
  induction hx with
  | nil => exact hy
  | patch _ ih => simpa [fuse?] using ih
  | test _ ih => simp [fuse?, ih]
  | @keep q body _ hq _ ih =>
    have hcons : fuse? (q :: (body ++ ys)) = (fuse? (body ++ ys)).map (q :: ·) := by
      cases q <;> simp_all [fuse?]
    rw [cons_append, hcons, ih]
    rfl

theorem mem_of_fuse? (h : fuse? body = some qs) (hq : q ∈ qs)
    (hend : q.endsBlock = false) : q ∈ body := by
  replace h := fuses_of_fuse? h
  induction h with
  | nil => exact hq
  | patch _ ih => exact mem_cons_of_mem _ (ih hq)
  | test _ ih =>
    rcases mem_cons.1 hq with rfl | hq
    · cases hend
    · exact mem_cons_of_mem _ (mem_cons_of_mem _ (ih hq))
  | keep _ _ ih =>
    rcases mem_cons.1 hq with rfl | hq
    · exact mem_cons_self
    · exact mem_cons_of_mem _ (ih hq)

theorem fuse?_split {n : Int} {xs ys us : List Quad} (h : fuse? (xs ++ .label n :: ys) = some us) :
    ∃ vs ws, fuse? xs = some vs ∧ fuse? ys = some ws ∧ us = vs ++ .label n :: ws := by
  fun_induction fuse? xs generalizing us with
  | case1 =>
    obtain ⟨ws, hw, rfl⟩ := Option.map_eq_some_iff.1 (by simpa [fuse?] using h)
    exact ⟨[], ws, rfl, hw, rfl⟩
  | case2 b l qs ih => exact ih (by simpa [fuse?] using h)
  | case3 c t f qs ih =>
    simp only [cons_append, fuse?] at h
    obtain ⟨us', hu, rfl⟩ := Option.map_eq_some_iff.1 h
    obtain ⟨vs, ws, hv, hw, rfl⟩ := ih hu
    exact ⟨.branch c t f :: vs, ws, by simp [hv], hw, rfl⟩
  | case4 c t qs hj =>
    cases qs with
    | nil => simp [fuse?] at h
    | cons q qs => cases q <;> simp_all [fuse?]
  | case5 | case6 | case7 => simp [fuse?] at h
  | case8 q qs h1 h2 h3 h4 h5 h6 ih =>
    have hcons : fuse? (q :: (qs ++ .label n :: ys)) =
        (fuse? (qs ++ .label n :: ys)).map (q :: ·) := by
      cases q <;> simp_all [fuse?]
    rw [cons_append, hcons] at h
    obtain ⟨us', hu, rfl⟩ := Option.map_eq_some_iff.1 h
    obtain ⟨vs, ws, hv, hw, rfl⟩ := ih hu
    exact ⟨q :: vs, ws, by simp [hv], hw, rfl⟩

/-! ## The blocks in one line -/

def BlockName.head : BlockName → List Quad
  | .label n => [.label n]
  | .entry | .numbered _ => []

def DraftBlock.flat (b : DraftBlock) : List Quad := b.name.head ++ b.rev.reverse

variable {d : Draft}

namespace Draft

/-- The instructions of all blocks in order, each block behind its label. -/
def flat (d : Draft) : List Quad := d.blocks.flatMap DraftBlock.flat

def addAll (d : Draft) (qs : List Quad) : Draft := qs.foldl add d

theorem flat_append (d : Draft) (q : Quad) : (d.append q).flat = d.flat ++ [q] := by
  obtain ⟨name, tag, formals, locals, rev, isOpen, numbered⟩ := d
  cases isOpen <;> cases rev <;>
    simp [append, flat, blocks, DraftBlock.flat, BlockName.head]

theorem flat_add (d : Draft) (q : Quad) :
    (d.add q).flat = d.flat ++ [q].filter (fun q => !q.isDecl) := by
  cases q with
  | formalDecl | localDecl => simp [add, flat, blocks, Quad.isDecl]
  | label n => simp [add, startBlock, flat, blocks, DraftBlock.flat, BlockName.head, Quad.isDecl]
  | funcEnd =>
    have h : ∀ e : Draft, (e.append .funcEnd).close.flat = e.flat ++ [.funcEnd] :=
      fun e => flat_append e .funcEnd
    simp only [add, h]
    split <;> rfl
  | _ => exact flat_append d _

theorem flat_addAll (d : Draft) (qs : List Quad) :
    (d.addAll qs).flat = d.flat ++ qs.filter (fun q => !q.isDecl) := by
  induction qs generalizing d with
  | nil => simp [addAll]
  | cons q qs ih =>
    have h : d.addAll (q :: qs) = (d.add q).addAll qs := rfl
    rw [h, ih, flat_add, append_assoc, ← filter_append, singleton_append]

theorem flat_start (name : String) (tag : Tag) : (start name tag).flat = [] := rfl

/-! ## Where blocks end -/

/-- How the blocks of a draft are cut: nothing stands behind an instruction that ends a block, a
block that is open has no such instruction, labels stand between blocks, the first block is the
entry, and no other block is empty and without a label. -/
structure Cut (d : Draft) : Prop where
  inner : ∀ b ∈ d.rev, ∀ q ∈ b.rev.tail, q.endsBlock = false
  last : d.isOpen = true → ∀ b ∈ d.rev.head?, ∀ q ∈ b.rev, q.endsBlock = false
  labels : ∀ b ∈ d.rev, ∀ q ∈ b.rev, ∀ n, q ≠ .label n
  named : ∀ b ∈ d.rev.dropLast, b.flat ≠ []
  entry : d.rev.getLast?.map (·.name) = some .entry

theorem cut_start (name : String) (tag : Tag) : (start name tag).Cut := by
  constructor <;> simp [start]

theorem Cut.close (h : d.Cut) : d.close.Cut :=
  ⟨h.inner, by simp [Draft.close], h.labels, h.named, h.entry⟩

theorem dropLast_cons_named {b c : DraftBlock} {bs : List DraftBlock} (hb : b.flat ≠ [])
    (h : ∀ x ∈ (c :: bs).dropLast, x.flat ≠ []) : ∀ x ∈ (b :: bs).dropLast, x.flat ≠ [] := by
  cases bs with
  | nil => simp
  | cons x xs =>
    simp only [dropLast_cons_cons, mem_cons, forall_eq_or_imp] at h ⊢
    exact ⟨hb, h.2⟩

theorem Cut.append_close (h : d.Cut) (hq : ∀ n, q ≠ .label n) : (d.append q).close.Cut := by
  obtain ⟨name, tag, formals, locals, rev, isOpen, numbered⟩ := d
  obtain ⟨hi, hl, hn, hd, he⟩ := h
  cases rev with
  | nil => cases he
  | cons b bs =>
    cases isOpen with
    | false =>
      refine ⟨?_, by simp [Draft.close], ?_, ?_, ?_⟩
      · simpa [Draft.append, Draft.close] using hi
      · simpa [Draft.append, Draft.close, hq] using hn
      · simpa [Draft.append, Draft.close, DraftBlock.flat] using hd
      · simpa [Draft.append, Draft.close] using he
    | true =>
      refine ⟨?_, by simp [Draft.close], ?_, dropLast_cons_named (by simp [DraftBlock.flat]) hd, ?_⟩
      · simp only [Draft.append, Draft.close, mem_cons, forall_eq_or_imp, tail_cons]
        exact ⟨fun r hr => hl rfl b rfl r hr, fun c hc => hi c (by simp [hc])⟩
      · simp only [Draft.append, Draft.close, mem_cons, forall_eq_or_imp]
        exact ⟨⟨hq, hn b (by simp)⟩, fun c hc => hn c (by simp [hc])⟩
      · cases bs <;> simpa [Draft.append, Draft.close] using he

theorem Cut.append (h : d.Cut) (hq : ∀ n, q ≠ .label n) (he : q.endsBlock = false) :
    (d.append q).Cut := by
  obtain ⟨hi, -, hn, hd, hf⟩ := h.append_close hq
  refine ⟨hi, fun _ => ?_, hn, hd, hf⟩
  obtain ⟨name, tag, formals, locals, rev, isOpen, numbered⟩ := d
  cases isOpen with
  | false => simp [Draft.append, he]
  | true =>
    cases rev with
    | nil => simp [Draft.append, he]
    | cons b bs =>
      simp only [Draft.append, head?_cons, Option.mem_def, Option.some.injEq, forall_eq',
        mem_cons, forall_eq_or_imp, he, true_and]
      exact h.last rfl b rfl

theorem Cut.startBlock (h : d.Cut) (n : Int) : (d.startBlock (.label n)).Cut := by
  obtain ⟨name, tag, formals, locals, rev, isOpen, numbered⟩ := d
  obtain ⟨hi, -, hn, hd, he⟩ := h
  cases rev with
  | nil => cases he
  | cons b bs =>
    refine ⟨?_, by simp [Draft.startBlock], ?_, ?_, ?_⟩
    · simpa [Draft.startBlock] using hi
    · simpa [Draft.startBlock] using hn
    · simpa [Draft.startBlock, DraftBlock.flat, BlockName.head] using hd
    · simpa [Draft.startBlock] using he

theorem Cut.add (h : d.Cut) (q : Quad) : (d.add q).Cut := by
  cases q with
  | formalDecl | localDecl => exact ⟨h.inner, h.last, h.labels, h.named, h.entry⟩
  | label n => exact h.startBlock n
  | branch | jump | ret => exact h.append_close (by simp)
  | funcEnd =>
    simp only [Draft.add]
    split
    · exact h.close.append_close (by simp)
    · exact h.append_close (by simp)
  | _ => exact h.append (by simp) rfl

theorem cut_addAll (h : d.Cut) (qs : List Quad) : (d.addAll qs).Cut := by
  induction qs generalizing d with
  | nil => exact h
  | cons q qs ih => exact ih (h.add q)

end Draft

/-! ## A body at once -/

theorem buildFrom_body {g : Graph} {rest : List Quad} (h : fuse? body = some qs) (place : Nat)
    (d : Draft) :
    buildFrom eqs place g (some d) (body ++ rest) =
      buildFrom eqs (place + body.length) g (some (d.addAll qs)) rest := by
  replace h := fuses_of_fuse? h
  induction h generalizing place d with
  | nil => rfl
  | patch _ ih =>
    rw [cons_append, buildFrom, ih, length_cons]
    congr 1
    omega
  | test _ ih =>
    simp only [cons_append, buildFrom, ih, length_cons, Draft.addAll, foldl_cons]
    congr 1
    omega
  | @keep q body us hq _ ih =>
    have hstep : buildFrom eqs place g (some d) (q :: (body ++ rest)) =
        buildFrom eqs (place + 1) g (some (d.add q)) (body ++ rest) := by
      cases q <;> first | rfl | cases hq
    rw [cons_append, hstep, ih, length_cons, Draft.addAll, Draft.addAll, foldl_cons]
    congr 1
    omega

theorem mapM_ok_iff {ε α β : Type} {f : α → Except ε β} {xs : List α} {ys : List β} :
    xs.mapM f = .ok ys ↔ Forall₂ (fun x y => f x = .ok y) xs ys := by
  induction xs generalizing ys with
  | nil => cases ys <;> simp [pure, Except.pure]
  | cons x xs ih =>
    rw [mapM_cons]
    constructor
    · intro h
      obtain ⟨y, hy, h⟩ := exists_of_bind_ok h
      obtain ⟨ys, hys, h⟩ := exists_of_bind_ok h
      cases h
      exact .cons hy (ih.1 hys)
    · rintro (_ | ⟨hy, hys⟩)
      rw [hy, ih.2 hys]
      rfl

namespace Draft

/-- The label that a target stands for in a draft, and the place of its block. -/
def resolve (d : Draft) (eqs : Equations) : Target → Except BuildFault (Int × Nat) :=
  resolveIn d.name d.blocks eqs

def finishBlock (d : Draft) (eqs : Equations) : Nat → DraftBlock → Except BuildFault Block :=
  finishBlockWith (d.resolve eqs) d.rev.length

theorem finish_eq (d : Draft) (eqs : Equations) :
    d.finish eqs = do
      let blocks ← d.blocks.zipIdx.mapM fun p => d.finishBlock eqs p.2 p.1
      return ⟨d.name, d.tag, d.formals, d.locals, blocks⟩ := rfl

theorem finish_ok_iff {f : Func} : d.finish eqs = .ok f ↔
      f.name = d.name ∧ f.tag = d.tag ∧ f.formals = d.formals ∧ f.locals = d.locals ∧
        Forall₂ (fun p b => d.finishBlock eqs p.2 p.1 = .ok b) d.blocks.zipIdx f.blocks := by
  obtain ⟨name, tag, formals, locals, blocks⟩ := f
  rw [← mapM_ok_iff]
  cases h : d.blocks.zipIdx.mapM fun p => d.finishBlock eqs p.2 p.1 with
  | error e => simp [finish_eq, h, bind, Except.bind]
  | ok bs =>
    simp only [finish_eq, h, bind, Except.bind, pure, Except.pure, Except.ok.injEq, Func.mk.injEq]
    grind

end Draft

end Flow

end Quadruple
