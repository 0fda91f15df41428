import Quadruple.Emit.Stmt
import Quadruple.Proofs.Flow.Layout
import Quadruple.Proofs.Yields

/-!
# Operations without control flow

The operations on expressions emit instructions that control just passes, and leave all that the
emitter knows about labels, blanks, loops and jumps. `Plain x` says so of the operation `x`; it
also says that `x` succeeds from every state. `relation` and `condition` do this too, and then end
with a test that has one blank on each exit.
-/

namespace Quadruple

open List

/-- Whether an instruction has no part in control flow: it stands in a function, control passes
it, and no jump mentions it. -/
def Quad.isPlain : Quad → Bool
  | .condJump .. | .jump _ | .branch .. | .ret .. | .funcBegin .. | .funcEnd | .globalDecl _
  | .label _ | .patch .. => false
  | _ => true

variable (name : String)

namespace Emit

open Symbols (EntryId)

structure Control where
  settings : Settings
  labels : Nat
  blanks : Nat
  links : Array Link
  patched : List (Nat × Int)
  loops : List LoopScope
  pending : List PendingLabel
  declared : List (String × Nat)
  func : Option EntryId

def State.control (s : State) : Control :=
  { settings := s.settings, labels := s.labels, blanks := s.blanks, links := s.links,
    patched := s.patched, loops := s.loops, pending := s.pending, declared := s.declared,
    func := s.func }

/-- From `s` to `s'` the plain instructions `qs` have been emitted, and nothing is changed that
has to do with control flow. -/
structure Straight (s s' : State) (qs : List Quad) : Prop where
  code : s'.code.toList = s.code.toList ++ qs
  plain : ∀ q ∈ qs, q.isPlain = true
  control : s'.control = s.control
  marked : s'.marked = true → s.marked = true ∧ ∀ q ∈ qs, keepsMark q = true

namespace Straight

theorem refl (s : State) : Straight s s [] := ⟨by simp, by simp, rfl, by simp⟩

theorem trans {s s1 s2 : State} {qs rs : List Quad} (h : Straight s s1 qs)
    (h' : Straight s1 s2 rs) : Straight s s2 (qs ++ rs) where
  code := by rw [h'.code, h.code, append_assoc]
  plain := forall_mem_append.2 ⟨h.plain, h'.plain⟩
  control := h'.control.trans h.control
  marked := fun hm =>
    have ⟨hm1, hrs⟩ := h'.marked hm
    have ⟨hm0, hqs⟩ := h.marked hm1
    ⟨hm0, forall_mem_append.2 ⟨hqs, hrs⟩⟩

end Straight

def Plain {α : Type} (x : EmitM α) : Prop := ∀ s, Yields x s fun _ s' => ∃ qs, Straight s s' qs

section Plain

variable {α β : Type}

theorem Plain.bind {x : EmitM α} {f : α → EmitM β} (hx : Plain x) (hf : ∀ a, Plain (f a)) :
    Plain (x >>= f) := by
  intro s
  refine yields_bind.2 ((hx s).mono fun a s1 ⟨qs, h⟩ => ?_)
  exact (hf a s1).mono fun _ s2 ⟨rs, h'⟩ => ⟨qs ++ rs, h.trans h'⟩

theorem plain_pure (a : α) : Plain (pure a) := fun s => yields_pure.2 ⟨[], .refl s⟩

theorem plain_get : Plain get := fun s => yields_get.2 ⟨[], .refl s⟩

theorem plain_modifyGet {f : State → α × State}
    (hf : ∀ s, (f s).2.code = s.code ∧ (f s).2.control = s.control ∧
      ((f s).2.marked → s.marked)) : Plain (modifyGet f) := by
  intro s
  obtain ⟨hcode, hcontrol, hmarked⟩ := hf s
  exact yields_modifyGet.2 ⟨[], by simp [hcode], by simp, hcontrol, fun hm => ⟨hmarked hm, by simp⟩⟩

theorem plain_modify {f : State → State}
    (hf : ∀ s, (f s).code = s.code ∧ (f s).control = s.control ∧ ((f s).marked → s.marked)) :
    Plain (modify f) := plain_modifyGet hf

theorem plain_emit {q : Quad} (hq : q.isPlain = true) : Plain (emit q) := by
  intro s
  refine yields_modify.2 ⟨[q], by simp, by simpa using hq, rfl, fun hm => ?_⟩
  simpa using hm

theorem plain_ite {c : Prop} [Decidable c] {x y : EmitM α} (hx : Plain x) (hy : Plain y) :
    Plain (if c then x else y) := by
  split
  · exact hx
  · exact hy

theorem plain_forM {f : β → EmitM PUnit} (hf : ∀ b, Plain (f b)) (bs : List β) :
    Plain (bs.forM f) := by
  induction bs with
  | nil => exact plain_pure _
  | cons b bs ih => exact (hf b).bind fun _ => ih

end Plain

/-! ## Operations on expressions -/

theorem plain_error (n : Notice) : Plain (error n) := plain_modify fun _ => ⟨rfl, rfl, id⟩

theorem plain_warn (kind : Warning) (n : Notice) : Plain (warn kind n) :=
  plain_modify fun _ => ⟨rfl, rfl, id⟩

theorem plain_unmark : Plain unmark := plain_modify fun _ => ⟨rfl, rfl, by simp⟩

theorem plain_newTemp : Plain newTemp := plain_modifyGet fun _ => ⟨rfl, rfl, id⟩

theorem plain_setEntry (id : EntryId) (f : Symbols.Entry → Symbols.Entry) :
    Plain (setEntry id f) := plain_modify fun _ => ⟨rfl, rfl, fun h => h⟩

theorem plain_getEntry (id : EntryId) : Plain (getEntry id) := plain_get.bind fun _ => plain_pure _

theorem plain_install : Plain (install name) :=
  plain_modifyGet fun _ => ⟨rfl, rfl, id⟩

theorem plain_installAt (level : Int) : Plain (installAt name level) :=
  plain_modifyGet fun _ => ⟨rfl, rfl, id⟩

theorem plain_define (tag : Tag) {quad : Temp → Quad} (hq : ∀ t, (quad t).isPlain = true) :
    Plain (define tag quad) :=
  plain_newTemp.bind fun t => (plain_emit (hq t)).bind fun _ => plain_pure _

theorem plain_constant (text : String) : Plain (constant text) := plain_define _ fun _ => rfl

theorem plain_stringLiteral (text : String) : Plain (stringLiteral text) :=
  plain_define _ fun _ => rfl

theorem plain_declareForgotten : Plain (declareForgotten name) := by
  refine (plain_error _).bind fun _ => (plain_install name).bind fun id => plain_get.bind fun s => ?_
  refine (plain_setEntry _ _).bind fun _ => Plain.bind (plain_modify ?_) fun _ => ?_
  · exact fun _ => ⟨rfl, rfl, fun h => h⟩
  · refine plain_get.bind fun _ => plain_ite ?_ (plain_pure _)
    exact (plain_emit rfl).bind fun _ => plain_pure _

theorem plain_variableRef : Plain (variableRef name) := by
  have hrest : ∀ id, Plain (do
      let e := (← get).table.entry id
      define (e.tag.union .address) fun dst => .ref dst e.storage e.name e.offset) :=
    fun id => plain_get.bind fun _ => plain_define _ fun _ => rfl
  refine plain_get.bind fun s => ?_
  cases s.table.lookup? name with
  | some id => exact (plain_pure id).bind hrest
  | none => exact (plain_declareForgotten name).bind hrest

theorem plain_cast (x : Value) (tag : Tag) : Plain (cast x tag) := plain_define _ fun _ => rfl

theorem plain_truncated (x : Value) : Plain (truncated x) :=
  plain_ite (plain_cast x .int) (plain_pure x)

theorem plain_element (x i : Value) : Plain (element x i) :=
  (plain_truncated i).bind fun _ => plain_define _ fun _ => rfl

variable {op : String}

theorem plain_unaryOp (hop : op ∈ ["@", "-", "~"]) (y : Value) : Plain (unaryOp op y) := by
  simp only [mem_cons, not_mem_nil, or_false] at hop
  obtain rfl | rfl | rfl := hop
  · exact plain_ite (plain_pure _) (plain_define _ fun _ => rfl)
  · exact plain_define _ fun _ => rfl
  · exact plain_ite ((plain_cast y .int).bind fun _ => plain_define _ fun _ => rfl)
      (plain_define _ fun _ => rfl)

theorem plain_promoted (x y : Value) : Plain (promoted x y) := by
  refine plain_ite ?_ (plain_ite ?_ (plain_pure _))
  · exact (plain_warn _ _).bind fun _ => (plain_cast y .double).bind fun _ => plain_pure _
  · exact (plain_warn _ _).bind fun _ => (plain_cast x .double).bind fun _ => plain_pure _

theorem plain_arithOp (hop : op ∈ OpClass.arith.lexemes) (x y : Value) :
    Plain (arithOp op x y) := by
  simp only [arithOp, hop, not_true, if_false]
  refine (plain_promoted x y).bind fun p => plain_ite ?_ (plain_define _ fun _ => rfl)
  exact (plain_error _).bind fun _ => plain_define _ fun _ => rfl

theorem plain_bitwiseOp (hop : op ∈ OpClass.bitwise.lexemes) (x y : Value) :
    Plain (bitwiseOp op x y) := by
  simp only [bitwiseOp, hop, not_true, if_false]
  refine (plain_truncated x).bind fun _ => ?_
  exact (plain_truncated y).bind fun _ => plain_define _ fun _ => rfl

/-- Whether a compound assignment may have this operator; none is plain assignment. -/
def isAssignOp (op : String) : Prop :=
  op = "" ∨ op ∈ OpClass.arith.lexemes ∨ op ∈ OpClass.bitwise.lexemes

theorem plain_assigned (hop : isAssignOp op) (x y : Value) : Plain (assigned op x y) := by
  unfold assigned
  split
  case isTrue => exact plain_pure y
  case isFalse hne =>
    refine (plain_unaryOp (by simp) _).bind fun current => ?_
    split
    case isTrue hbit => exact plain_bitwiseOp hbit current y
    case isFalse hbit =>
      refine plain_arithOp ?_ current y
      exact (hop.resolve_left hne).resolve_right hbit

theorem plain_converted (tag : Tag) (y : Value) : Plain (converted tag y) :=
  plain_ite (plain_cast y _) (plain_ite (plain_cast y _) (plain_pure y))

theorem plain_assign (hop : isAssignOp op) (x y : Value) : Plain (assign op x y) :=
  (plain_assigned hop x y).bind fun y => (plain_converted _ y).bind fun _ =>
    plain_define _ fun _ => rfl

theorem plain_newRow (room : Nat) (vs : List Value) : Plain (newRow room vs) :=
  plain_modifyGet fun _ => ⟨rfl, rfl, id⟩

theorem plain_appendArg (args : ArgList) (v : Value) : Plain (appendArg args v) := by
  refine plain_unmark.bind fun _ => ?_
  cases args with
  | empty => exact plain_newRow _ _
  | span row size =>
    refine plain_get.bind fun s => plain_ite ?_ (plain_newRow _ _)
    exact Plain.bind (plain_modify fun _ => by exact ⟨rfl, rfl, id⟩) fun _ => plain_pure _

theorem plain_calleeEntry : Plain (calleeEntry name) := by
  refine plain_get.bind fun s => ?_
  cases s.table.lookupGlobal? name with
  | some id => exact plain_pure id
  | none =>
    refine (plain_warn _ _).bind fun _ => (plain_installAt name 0).bind fun id => ?_
    exact (plain_setEntry _ _).bind fun _ => plain_pure _

theorem plain_call (args : ArgList) : Plain (call name args) := by
  refine (plain_calleeEntry name).bind fun id => (plain_getEntry id).bind fun e => ?_
  refine plain_get.bind fun s => (plain_forM (fun a => plain_emit rfl) _).bind fun _ => ?_
  refine plain_newTemp.bind fun callee => (plain_emit rfl).bind fun _ => ?_
  exact plain_define _ fun _ => rfl

def compared (op : String) (x y : Value) : EmitM Temp := do
  let (x, y) ← promoted x y
  let dst ← newTemp
  emit (.binary .compare dst op x.place y.place x.tag.base)
  return dst

theorem plain_compared (op : String) (x y : Value) : Plain (compared op x y) :=
  (plain_promoted x y).bind fun _ => plain_newTemp.bind fun dst =>
    (plain_emit rfl).bind fun _ => plain_pure dst

def branchOn (dst : Temp) : EmitM Value := do
  let t ← newBlank
  emit (.condJump dst (.blank t))
  let f ← newBlank
  emit (.jump (.blank f))
  let onTrue ← single t
  let onFalse ← single f
  return { place := dst, tag := .int, onTrue, onFalse }

theorem relation_eq (hop : op ∈ OpClass.compare.lexemes) (x y : Value) :
    relation op x y = compared op x y >>= branchOn := by
  simp [relation, compared, branchOn, hop]

def emitZero : EmitM Value := do
  unmark
  constant "0"

theorem plain_emitZero : Plain emitZero := plain_unmark.bind fun _ => plain_constant "0"

theorem condition_eq (v : Value) :
    condition v = (emitZero >>= compared "!=" v) >>= branchOn := by
  have hop : "!=" ∈ OpClass.compare.lexemes := by decide
  simp [condition, emitZero, relation_eq hop]

end Emit

end Quadruple
