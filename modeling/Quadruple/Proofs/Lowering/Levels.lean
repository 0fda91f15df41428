import Quadruple.Lowering.Program
import Quadruple.Proofs.Symbols.Table

/-!
# Levels of the table

Main statement: `levels_lower`. However lowering ends, the table is on the level that it was on
before: a fault in the middle of a function leaves the scope of the function too.
-/

namespace Quadruple.Lowering

open Symbols (Entry EntryId Table)

/-- The state that a step leaves behind, whether or not it came to its end. -/
def left {α : Type} (x : LowerM α) (s : State) : State :=
  match x s with
  | .ok _ s' | .error _ s' => s'

/-- A step that leaves the table on the level where it was, also when it fails. -/
def Levels {α : Type} (x : LowerM α) : Prop := ∀ s, (left x s).table.level = s.table.level

section Levels

variable {α β : Type} {x : LowerM α}

theorem Levels.bind {f : α → LowerM β} (hx : Levels x) (hf : ∀ a, Levels (f a)) :
    Levels (x >>= f) := by
  intro s
  have hleft : left (x >>= f) s = match x s with
      | .ok a s' => left (f a) s'
      | .error _ s' => s' := by
    show left (EStateM.bind x f) s = _
    unfold left EStateM.bind
    cases x s <;> rfl
  have hxs := hx s
  rw [hleft]
  unfold left at hxs
  cases hr : x s with
  | ok a s' =>
    rw [hr] at hxs
    exact (hf a s').trans hxs
  | error e s' =>
    rw [hr] at hxs
    exact hxs

theorem levels_pure (a : α) : Levels (pure a) := fun _ => rfl

theorem levels_throw (e : Fault) : Levels (throw e : LowerM α) := fun _ => rfl

theorem levels_get : Levels get := fun _ => rfl

theorem levels_modify {f : State → State} (hf : ∀ s, (f s).table.level = s.table.level) :
    Levels (modify f) := hf

theorem levels_modifyGet {f : State → α × State}
    (hf : ∀ s, (f s).2.table.level = s.table.level) : Levels (modifyGet f) := hf

theorem levels_get_bind {f : State → LowerM α}
    (hf : ∀ s, (left (f s) s).table.level = s.table.level) : Levels (get >>= f) := hf

theorem levels_ite {c : Prop} [Decidable c] {y : LowerM α} (hx : Levels x) (hy : Levels y) :
    Levels (if c then x else y) := by
  split
  · exact hx
  · exact hy

theorem levels_forM {f : β → LowerM PUnit} (hf : ∀ b, Levels (f b)) (bs : List β) :
    Levels (bs.forM f) := by
  induction bs with
  | nil => exact levels_pure _
  | cons b bs ih => exact (hf b).bind fun _ => ih

theorem levels_mapM {f : β → LowerM α} (hf : ∀ b, Levels (f b)) (bs : List β) :
    Levels (bs.mapM f) := by
  induction bs with
  | nil => exact levels_pure _
  | cons b bs ih =>
    rw [List.mapM_cons]
    exact (hf b).bind fun _ => ih.bind fun _ => levels_pure _

theorem levels_inScope (hx : Levels x) : Levels (inScope x) := by
  intro s
  have hxs := hx { s with table := s.table.enter }
  unfold left inScope at *
  cases hr : x { s with table := s.table.enter } with
  | ok a s' | error e s' =>
    simp only [hr] at hxs ⊢
    simp only [Table.level, Table.enter, Table.leave, List.length_cons, List.length_tail] at hxs ⊢
    omega

end Levels

/-! ## Steps -/

theorem levels_addInstr (i : Ir.Instr) : Levels (addInstr i) := levels_modify fun _ => rfl

theorem levels_bindTemp (t : Temp) (b : Binding) : Levels (Lowering.bind t b) :=
  levels_modify fun _ => rfl

theorem levels_error (n : Notice) : Levels (error n) := levels_modify fun _ => rfl

theorem levels_warn (kind : Warning) (pos : Pos) (n : Notice) : Levels (warn kind pos n) :=
  levels_modify fun _ => rfl

theorem levels_newConversion : Levels newConversion := levels_modifyGet fun _ => rfl

theorem levels_binding (t : Temp) : Levels (binding t) :=
  levels_get.bind fun s => by
    cases s.bindings.lookup t with
    | some b => exact levels_pure b
    | none => exact levels_throw _

theorem levels_setEntry (id : EntryId) (f : Entry → Entry) : Levels (setEntry id f) :=
  levels_modify fun _ => rfl

theorem levels_installGlobal (name : String) : Levels (installGlobal name) :=
  levels_modifyGet fun _ => congrArg List.length Table.inner_installAt_zero

theorem levels_install (name : String) : Levels (install name) :=
  levels_modifyGet fun _ => Table.length_inner_install

theorem levels_intern (text : String) : Levels (intern text) :=
  levels_get_bind fun s => by split <;> rfl

theorem levels_declareForeign (e : Entry) : Levels (declareForeign e) :=
  levels_modify fun s => by split <;> rfl

theorem levels_fillBlock : Levels fillBlock := levels_get_bind fun s => by split <;> rfl

theorem levels_lowerQuad (q : Quad) : Levels (lowerQuad q) := by
  cases q
  all_goals
    simp only [lowerQuad, lowerConst, lowerRef, lowerLoad, lowerStore, lowerIndex, lowerUnary,
      lowerBinary, lowerOperation, lowerCast, lowerCall, lowerRet, calleeEntry, calleeHandle,
      checkCount, addCall, operandType, coerce, address, defineTemp, getEntry]
  all_goals
    repeat' with_reducible first
      | exact levels_pure _
      | exact levels_throw _
      | exact levels_get
      | exact levels_addInstr _
      | exact levels_bindTemp _ _
      | exact levels_error _
      | exact levels_warn _ _ _
      | exact levels_newConversion
      | exact levels_setEntry _ _
      | exact levels_installGlobal _
      | exact levels_intern _
      | exact levels_declareForeign _
      | exact levels_modify fun _ => rfl
      | refine Levels.bind ?_ fun _ => ?_
      | refine levels_ite ?_ ?_
      | exact levels_mapM levels_binding _
      | exact levels_binding _
      | split

/-! ## Blocks, functions and programs -/

variable (f : Flow.Func)

theorem levels_closeBlock (b : Flow.Block) : Levels (closeBlock f b) :=
  levels_get.bind fun s => by
    refine levels_ite ?_ (levels_pure _)
    split <;> exact levels_addInstr _

theorem levels_lowerBlock (b : Flow.Block) : Levels (lowerBlock f b) := by
  have htake : Levels (takeBlock b.label) := levels_modifyGet fun _ => rfl
  refine levels_ite (levels_get.bind fun _ => (levels_addInstr _).bind fun _ => htake) ?_
  exact (levels_forM levels_lowerQuad b.quads).bind fun _ => levels_fillBlock.bind fun _ =>
    (levels_closeBlock f b).bind fun _ => htake

theorem levels_allocVariable (storage : Storage) (d : Decl) (place : Nat) :
    Levels (allocVariable storage d place) :=
  (levels_addInstr _).bind fun _ => (levels_install d.name).bind fun _ =>
    (levels_setEntry _ _).bind fun _ => levels_pure _

theorem levels_lowerFunc : Levels (lowerFunc f) := by
  have hformal : ∀ p : Decl × Nat, Levels (lowerFormal p.1 p.2) := fun p =>
    (levels_allocVariable .param p.1 p.2).bind fun _ => (levels_addInstr _).bind fun _ =>
      levels_pure _
  have hlocal : ∀ p : Decl × Nat, Levels (do let _ ← allocVariable .stack p.1 p.2) := fun p =>
    (levels_allocVariable .stack p.1 p.2).bind fun _ => levels_pure _
  have hwarn : Levels (warnUnreachable f) :=
    levels_forM (fun _ => levels_ite (levels_get.bind fun _ => levels_warn _ _ _) (levels_pure _)) _
  unfold lowerFunc
  refine Levels.bind (levels_modify fun _ => rfl) fun _ => levels_inScope ?_
  refine levels_ite ((levels_throw _).bind fun _ => ?_) ?_ <;>
  exact (levels_mapM hformal _).bind fun _ => Levels.bind (levels_forM hlocal _) fun _ =>
    (levels_mapM (levels_lowerBlock f) _).bind fun _ => hwarn.bind fun _ => levels_pure _

theorem levels_lower (g : Flow.Graph) : Levels (lower g) := by
  have hentry : ∀ name, Levels (globalEntry name) := fun name => levels_get.bind fun s => by
    cases s.table.lookupGlobal? name with
    | some id => exact levels_pure id
    | none => exact levels_installGlobal name
  have hglobal : ∀ d, Levels (lowerGlobal d) := fun d =>
    (hentry d.name).bind fun _ => (levels_setEntry _ _).bind fun _ => levels_pure _
  have hfunc : ∀ f, Levels (declareFunc f) := fun f =>
    (hentry f.name).bind fun _ => (levels_setEntry _ _).bind fun _ => levels_modify fun _ => rfl
  have hbuiltin : ∀ b, Levels (declareBuiltin b) := fun b => levels_get.bind fun _ =>
    levels_ite ((hentry b.name).bind fun _ => levels_setEntry _ _) (levels_pure _)
  unfold lower
  refine Levels.bind (levels_modify fun _ => rfl) fun _ => ?_
  exact (levels_mapM hglobal _).bind fun _ => Levels.bind (levels_forM hfunc _) fun _ =>
    Levels.bind (levels_forM hbuiltin _) fun _ => (levels_mapM levels_lowerFunc _).bind fun _ =>
      levels_get.bind fun _ => levels_pure _

end Quadruple.Lowering
