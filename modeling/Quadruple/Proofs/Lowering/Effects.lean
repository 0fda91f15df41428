import Quadruple.Proofs.Lowering.Steps

/-!
# What lowering an instruction does

`Makes` says of each instruction of a block which instructions it becomes, what it binds its result
to and what it reports, in terms of the bindings that it finds. `After` says how the state changes
by that, and that nothing else changes of what later instructions look at; of the names, that only
a call changes one, as `Enlists` says.

Main statement: `ensures_makes`. Whatever is to be shown of all instructions is shown by cases on
`Makes`.
-/

namespace Quadruple

open List
open Numeral (readLiteral wrap32)

def Quad.operands : Quad → List Temp
  | .load _ addr _ => [addr]
  | .store _ addr val _ => [addr, val]
  | .index _ base idx _ => [base, idx]
  | .unary _ _ x _ | .cast _ x _ | .arg x _ => [x]
  | .binary _ _ _ x y _ => [x, y]
  | .call _ callee _ args => callee :: args
  | .condJump cond _ | .branch cond _ _ => [cond]
  | .ret val _ => val.toList
  | _ => []

def Quad.isCall : Quad → Bool
  | .call .. => true
  | _ => false

/-- The contents of the literal that an instruction takes the address of. -/
def Quad.literal? : Quad → Option (List UInt8)
  | .string _ text => some (Text.unescape (Text.utf8Bytes text))
  | _ => none

namespace OpClass

def required (cls : OpClass) (tag : Tag) : Tag := if cls = .bitwise then .int else tag

/-- The type that an operator works in when its operands are of type `ty`. -/
def workTy (cls : OpClass) (ty : Ir.Ty) : Ir.Ty := if cls = .bitwise then .word else ty

/-- The type of the result of an operator whose operands are of type `ty`. -/
def resultTy (cls : OpClass) (ty : Ir.Ty) : Ir.Ty := if cls = .arith then ty else .word

end OpClass

variable {name : String} {k : Nat} {is : List Ir.Instr} {c : List UInt8} {bs : List Binding}
  (dst : Temp) (text : String) (e : Entry)

namespace Symbols

open Lowering (machineTy)

/-- The type of what a call of a name gives. A function that has no place yet gets one, with the
type of its tag, and what is no function becomes one of ints. -/
def Entry.callTy (e : Entry) : Ir.Ty :=
  if e.kind = .func then if e.handle.isSome then e.elem else machineTy e.tag.base else .word

def Table.callTy (T : Table) (name : String) : Ir.Ty :=
  ((T.lookupGlobal? name).map fun id => (T.entry id).callTy).getD .word

theorem Table.callTy_congr {T T' : Table} {n : String}
    (hlook : T'.lookupGlobal? n = T.lookupGlobal? n)
    (hentry : ∀ id, T.lookupGlobal? n = some id → T'.entry id = T.entry id) :
    T'.callTy n = T.callTy n := by
  unfold Table.callTy
  rw [hlook]
  cases hid : T.lookupGlobal? n with
  | none => rfl
  | some id => rw [Option.map_some, Option.map_some, hentry id hid]

theorem Table.Changes.callTy {T T' : Table} {P : Entry → Prop}
    (h : T.Changes name P T') (hP : ∀ e, P e → e.callTy = T.callTy name) (n : String) :
    T'.callTy n = T.callTy n := by
  by_cases hn : n = name
  · obtain ⟨id, hid, he⟩ := h.entry
    rw [hn, ← hP _ he, Table.callTy, hid]
    rfl
  · exact Table.callTy_congr (h.other n hn).1 (h.other n hn).2

end Symbols

namespace Lowering

open Symbols (Entry EntryId Table)
open Ir (Ty Instr Value)

/-! ## Callees -/

/-- What a call with `k` arguments makes of a name that nothing is known of. -/
def implicitEntry (name : String) (k : Nat) (e : Entry) : Entry :=
  { e with
    kind := .func, storage := .global, tag := .int, implicit := true
    handle := some (.global name), elem := .word, fixed := k }

/-- The table in which a call with `k` arguments has declared its callee. -/
def declareImplicit (T : Table) (name : String) (k : Nat) : Table :=
  (T.installAt name 0).2.modifyEntry T.entries.size (implicitEntry name k)

def placedEntry (name : String) (e : Entry) : Entry :=
  { e with handle := some (.global name), elem := machineTy e.tag.base }

/-- A call with `k` arguments makes of `T` a table in which the function `name` has the entry `id`
and is found at a value. -/
inductive Enlists (name : String) (k : Nat) (T : Table) : EntryId → Ir.Value → Table → Prop
  | known {id : EntryId} {v : Ir.Value} : T.lookupGlobal? name = some id →
      (T.entry id).kind = .func → (T.entry id).handle = some v → Enlists name k T id v T
  | placed {id : EntryId} : T.lookupGlobal? name = some id → (T.entry id).kind = .func →
      (T.entry id).handle = none →
      Enlists name k T id (.global name) (T.modifyEntry id (placedEntry name))
  | implicit : (∀ id, T.lookupGlobal? name = some id → (T.entry id).kind ≠ .func) →
      Enlists name k T T.entries.size (.global name) (declareImplicit T name k)

section Enlists

variable {T T' : Table} {id : EntryId} {v : Value}

theorem lookupGlobal?_declareImplicit :
    (declareImplicit T name k).lookupGlobal? name = some T.entries.size := by
  rw [declareImplicit, Table.lookupGlobal?_modifyEntry]
  exact (Table.lookupGlobal?_installAt_zero ..).trans (if_pos rfl)

theorem Enlists.lookup (h : Enlists name k T id v T') : T'.lookupGlobal? name = some id := by
  cases h with
  | known hid => exact hid
  | placed hid => exact hid
  | implicit => exact lookupGlobal?_declareImplicit

theorem Enlists.changes (h : Enlists name k T id v T') (hs : T.Sound) :
    T.Changes name (fun e => e.kind = .func ∧ e.handle = some v ∧ e.elem = T.callTy name) T' := by
  cases h with
  | known hid hk hh =>
    refine ⟨hs, fun _ _ => ⟨rfl, fun _ _ => rfl⟩, id, hid, hk, hh, ?_⟩
    simp [Table.callTy, Entry.callTy, hid, hk, hh]
  | placed hid hk hh =>
    refine hs.changes_modifyEntry hid (fun _ => rfl) ⟨hk, rfl, ?_⟩
    simp [Table.callTy, Entry.callTy, placedEntry, hid, hk, hh]
  | implicit hno =>
    refine hs.changes_installAt (fun _ => rfl) fun _ => ⟨rfl, rfl, ?_⟩
    unfold Table.callTy
    cases hid : T.lookupGlobal? name with
    | none => rfl
    | some id => simp [Entry.callTy, implicitEntry, hno id hid]

end Enlists

variable {s s' : State} {ns : List Notice} {q : Quad} {new : Option (Temp × Binding)} {b : Binding}

def State.bound (s : State) (t : Temp) : Option Binding := s.bindings.lookup t

def State.foreignWith (s : State) (e : Entry) : List Ir.Foreign :=
  if s.defined.contains e.name || s.foreign.any (·.name == e.name) then s.foreign
  else s.foreign ++ [⟨e.name, e.elem, e.variadic, e.fixed⟩]

theorem State.foreignWith_eq (s : State) (e : Entry) : s.foreignWith e =
    if e.name ∈ s.defined ∨ e.name ∈ s.foreign.map (·.name) then s.foreign
    else s.foreign ++ [⟨e.name, e.elem, e.variadic, e.fixed⟩] := by
  simp only [foreignWith, Bool.or_eq_true, contains_iff_mem, any_eq_true, beq_iff_eq, mem_map]

theorem run_declareForeign (s : State) :
    declareForeign e s = .ok () { s with foreign := s.foreignWith e } := by
  show EStateM.Result.ok _ (if _ then s else _) = _
  unfold State.foreignWith
  split <;> rfl

/-! ## Literals -/

def withLiteral (c : List UInt8) (L : List (List UInt8)) : List (List UInt8) :=
  if c ∈ L then L else L ++ [c]

section Literals

variable {L : List (List UInt8)}

theorem prefix_withLiteral (c : List UInt8) (L : List (List UInt8)) : L <+: withLiteral c L := by
  unfold withLiteral
  split
  · exact prefix_rfl
  · exact prefix_append _ _

theorem mem_withLiteral {d : List UInt8} : d ∈ withLiteral c L ↔ d ∈ L ∨ d = c := by
  unfold withLiteral
  split
  · next hc => exact (or_iff_left_of_imp fun hd => hd ▸ hc).symm
  · rw [mem_append, mem_singleton]

theorem nodup_withLiteral (h : L.Nodup) : (withLiteral c L).Nodup := by
  unfold withLiteral
  split
  · exact h
  · next hc => exact nodup_append.2 ⟨h, by simp, by simpa using fun d hd => ne_of_mem_of_not_mem hd hc⟩

end Literals

theorem exists_intern (s : State) :
    let c := Text.unescape (Text.utf8Bytes text)
    ∃ i, (withLiteral c s.literals)[i]? = some c ∧
      intern text s =
        .ok (intern.literalName i) { s with literals := withLiteral c s.literals } := by
  intro c
  rw [intern, run_get_bind]
  cases hi : s.literals.findIdx? (· == c) with
  | some i =>
    obtain ⟨hlt, hc, -⟩ := findIdx?_eq_some_iff_getElem.1 hi
    have hc : s.literals[i] = c := eq_of_beq hc
    rw [withLiteral, if_pos (hc ▸ getElem_mem hlt)]
    exact ⟨i, List.getElem?_eq_some_iff.2 ⟨hlt, hc⟩, rfl⟩
  | none =>
    have hnot : c ∉ s.literals := fun hmem => by simpa using findIdx?_eq_none_iff.1 hi c hmem
    rw [withLiteral, if_neg hnot]
    exact ⟨s.literals.length, by simp, rfl⟩

def State.literalsWith (s : State) (q : Quad) : List (List UInt8) :=
  match q.literal? with
  | some c => withLiteral c s.literals
  | none => s.literals

theorem mem_literalsWith (h : c ∈ s.literalsWith q) : c ∈ s.literals ∨ q.literal? = some c := by
  unfold State.literalsWith at h
  split at h
  · next hq => exact (mem_withLiteral.1 h).imp_right fun he : c = _ => he ▸ hq
  · exact .inl h

/-! ## Reports -/

theorem warn_eq (r : Report) (kind : Warning) (pos : Pos) (message : String) :
    r.warn kind pos message = { r with
      diagnostics := r.diagnostics ++
        if r.flags.all (·.isEnabled kind) then [⟨.warning kind, pos, message⟩] else [] } := by
  unfold Report.warn
  split
  · rfl
  · rw [append_nil]

namespace State

def errors (s : State) : List Diagnostic := s.report.diagnostics.filter Diagnostic.isError

def complaint (s : State) (n : Notice) : Diagnostic := ⟨.error, s.pos, n.message⟩

def complain (s : State) (ns : List Notice) : State :=
  { s with
    report := { s.report with diagnostics := s.report.diagnostics ++ ns.map s.complaint } }

theorem complain_nil : s.complain [] = s := by simp [complain]

end State

/-- From `s` to `s'` the errors `ns` were reported, behind warnings of functions that nothing is
known of. -/
def Reported (s s' : State) (ns : List Notice) : Prop :=
  ∃ ws : List Diagnostic, (∀ d ∈ ws, d.severity = .warning .implicitDecl) ∧
    s'.report = { s.report with
      diagnostics := s.report.diagnostics ++ (ws ++ ns.map s.complaint) }

section Reported

theorem reported_nil (h : s'.report = s.report) : Reported s s' [] := ⟨[], by simp, by simp [h]⟩

theorem reported_complain (ns : List Notice) : Reported s (s.complain ns) ns := ⟨[], by simp, rfl⟩

theorem filter_isError_warnings {ws : List Diagnostic} {k : Warning}
    (h : ∀ d ∈ ws, d.severity = .warning k) : ws.filter Diagnostic.isError = [] := by
  refine filter_eq_nil_iff.2 fun d hd => ?_
  simp [Diagnostic.isError, h d hd]

theorem Reported.errors (h : Reported s s' ns) : s'.errors = s.errors ++ ns.map s.complaint := by
  obtain ⟨ws, hws, hreport⟩ := h
  have hall : ∀ d ∈ ns.map s.complaint, d.isError = true := by
    rintro d hd
    obtain ⟨n, -, rfl⟩ := mem_map.1 hd
    rfl
  rw [State.errors, hreport, filter_append, filter_append, filter_isError_warnings hws,
    filter_eq_self.2 hall]
  rfl

end Reported

/-! ## Parts of instructions -/

/-- The value `v` has the type `want`, behind the instructions `is`: a binding is used as it is, or
converted. -/
inductive Coerced (b : Binding) (want : Ir.Ty) : List Ir.Instr → Ir.Value → Prop
  | keep : needsConversion b.ty want = false → Coerced b want [] b.val
  | convert (k : Nat) : needsConversion b.ty want = true →
      Coerced b want [{ conversion want b.val with result := some (.temp "x" k) }] (.temp "x" k)

inductive Widened (x : Ir.Value) : List Ir.Instr → Ir.Value → Prop
  | keep : Widened x [] x
  | extend (k : Nat) :
      Widened x
        [{ op := .extsw, ty := .ptr, operandTy := .word, result := some (.temp "x" k),
           args := [x] }]
        (.temp "x" k)

/-- The type of the operands of an operator: double if one is a double. -/
def operandsTy (bs : List Binding) : Ir.Ty := if bs.any (·.ty = .double) then .double else .word

/-- What is reported of an operator whose operands are of type `ty`. -/
def mismatch (op : String) (tag : Tag) (ty : Ir.Ty) : List Notice :=
  if machineTy tag.base ≠ ty then [.operandTypes op (machineTy tag.base) ty] else []

def outOfRange (text : String) : List Notice :=
  if (readLiteral text).fault.isSome then [.constantRange text] else []

/-- An instruction whose result is a temporary, and the binding of that temporary. -/
def computing (dst : Temp) (ty : Ir.Ty) (i : Ir.Instr) : Ir.Instr :=
  { i with ty, result := some (tempValue dst) }

def computed (dst : Temp) (ty : Ir.Ty) : Binding := { val := tempValue dst, ty }

def stored (v : Binding) (ty : Ir.Ty) (x : Ir.Value) : Binding :=
  if needsConversion v.ty ty then { val := x, ty } else v

def castTy (tag : Tag) : Ir.Ty := if tag.isDouble then .double else .word

def callInstr (handle : Ir.Value) (ty : Ir.Ty) (bs : List Binding) : Ir.Instr :=
  { op := .call, ty, args := handle :: bs.map (·.val), argTys := bs.map (·.ty) }

inductive Finds (T : Table) (storage : Storage) (name : String) : Binding → Prop
  | func : storage = .global → Finds T storage name (functionBinding name)
  | global {id : EntryId} {v : Ir.Value} : storage = .global → T.lookupGlobal? name = some id →
      (T.entry id).kind ≠ .func → (T.entry id).handle = some v →
      Finds T storage name (variableBinding (T.entry id) v)
  | slot {id : EntryId} {v : Ir.Value} : storage ≠ .global → T.lookup? name = some id →
      (T.entry id).handle = some v → Finds T storage name (variableBinding (T.entry id) v)

theorem Finds.ty {T : Table} {storage : Storage} (h : Finds T storage name b) : b.ty = .ptr := by
  cases h <;> rfl

def Bound (s : State) (ts : List Temp) (bs : List Binding) : Prop :=
  Forall₂ (fun t b => s.bound t = some b) ts bs

/-- A call of the name `callee` with `args`, found at `handle` and with a result of type `ty`. -/
structure Invokes (s : State) (callee : Temp) (args : List Temp) (ty : Ir.Ty) (bs : List Binding)
    (ns : List Notice) : Prop where
  callee : ∃ c name, s.bound callee = some c ∧ c.callee = some name ∧
    (s.table.Sound → ty = s.table.callTy name)
  args : Bound s args bs
  notices : ∀ n ∈ ns, ∃ name given expected, n = .argumentCount name given expected

/-! ## Instructions -/

/-- Met in the state `s`, an instruction becomes the instructions `is`, binds its result as `new`
says, and the errors `ns` are reported. -/
inductive Makes (s : State) : Quad → List Ir.Instr → Option (Temp × Binding) → List Notice → Prop
  | mark {line : Int} : Makes s (.stmtBegin line) [] none []
  | float {dst : Temp} {text : String} {tag : Tag} {x : Numeral.Binary64} : tag.isDouble = true →
      Makes s (.const dst text tag) [] (some (dst, { val := .float x .double, ty := .double })) []
  | int {dst : Temp} {text : String} {tag : Tag} : tag.isDouble = false →
      Makes s (.const dst text tag) []
        (some (dst, { val := .const (wrap32 (readLiteral text).value), ty := .word }))
        (outOfRange text)
  | string {dst : Temp} {text : String} {k : Nat} {c : List UInt8} :
      (Quad.string dst text).literal? = some c → (withLiteral c s.literals)[k]? = some c →
      Makes s (.string dst text) []
        (some (dst, { val := intern.literalName k, ty := .ptr, elem := .byte, isArray := true })) []
  | ref {dst : Temp} {storage : Storage} {name : String} {offset : Int} {b : Binding} :
      Finds s.table storage name b → Makes s (.ref dst storage name offset) [] (some (dst, b)) []
  | array {dst addr : Temp} {tag : Tag} {a : Binding} :
      s.bound addr = some a → a.ty = .ptr → a.isArray = true →
      Makes s (.load dst addr tag) [] (some (dst, a)) []
  | load {dst addr : Temp} {tag : Tag} {a : Binding} :
      s.bound addr = some a → a.ty = .ptr → a.isArray = false →
      Makes s (.load dst addr tag) [computing dst (machineTy tag) { op := .load, args := [a.val] }]
        (some (dst, computed dst (machineTy tag))) []
  | store {dst addr val : Temp} {tag : Tag} {a v : Binding} {is : List Ir.Instr} {x : Ir.Value} :
      s.bound addr = some a → a.ty = .ptr → s.bound val = some v →
      Coerced v (machineTy tag) is x →
      Makes s (.store dst addr val tag)
        (is ++ [{ op := .store, ty := machineTy tag, args := [x, a.val] }])
        (some (dst, stored v (machineTy tag) x)) []
  | index {dst base idx : Temp} {tag : Tag} {a i : Binding} {is : List Ir.Instr} {x : Ir.Value}
      (k : Nat) :
      s.bound base = some a → a.ty = .ptr → s.bound idx = some i → Widened i.val is x →
      Makes s (.index dst base idx tag)
        (is ++ [{ op := .mul, ty := .ptr, result := some (.temp "x" k),
                  args := [x, .const tag.base.size] },
                computing dst .ptr { op := .add, args := [a.val, .temp "x" k] }])
        (some (dst, { computed dst .ptr with elem := machineTy tag.base })) []
  | neg {dst x : Temp} {tag : Tag} {b : Binding} {is : List Ir.Instr} {v : Ir.Value} :
      s.bound x = some b → Coerced b (operandsTy [b]) is v →
      Makes s (.unary dst "-" x tag)
        (is ++ [computing dst (operandsTy [b]) { op := .neg, args := [v] }])
        (some (dst, computed dst (operandsTy [b]))) (mismatch "-" tag (operandsTy [b]))
  | not {dst x : Temp} {tag : Tag} {b : Binding} {is : List Ir.Instr} {v : Ir.Value} :
      s.bound x = some b → Coerced b .word is v →
      Makes s (.unary dst "~" x tag)
        (is ++ [computing dst .word { op := .xor, args := [v, .const (-1)] }])
        (some (dst, computed dst .word)) (mismatch "~" .int (operandsTy [b]))
  | binary {cls : OpClass} {dst x y : Temp} {lexeme : String} {op : Ir.Op} {tag : Tag}
      {a b : Binding} {is js : List Ir.Instr} {v w : Ir.Value} :
      s.bound x = some a → s.bound y = some b → operation? cls lexeme = some op →
      Coerced a (cls.workTy (operandsTy [a, b])) is v →
      Coerced b (cls.workTy (operandsTy [a, b])) js w →
      Makes s (.binary cls dst lexeme x y tag)
        (is ++ js ++ [computing dst (cls.resultTy (operandsTy [a, b]))
          { op, operandTy := cls.workTy (operandsTy [a, b]), args := [v, w] }])
        (some (dst, computed dst (cls.resultTy (operandsTy [a, b]))))
        (mismatch lexeme (cls.required tag) (operandsTy [a, b]))
  | same {dst x : Temp} {tag : Tag} {b : Binding} : s.bound x = some b → b.ty = castTy tag →
      Makes s (.cast dst x tag) [] (some (dst, b)) []
  | cast {dst x : Temp} {tag : Tag} {b : Binding} : s.bound x = some b → b.ty ≠ castTy tag →
      Makes s (.cast dst x tag) [computing dst (castTy tag) (conversion (castTy tag) b.val)]
        (some (dst, computed dst (castTy tag))) []
  | arg {x : Temp} {tag : Tag} {b : Binding} : s.bound x = some b → Makes s (.arg x tag) [] none []
  | call {dst callee : Temp} {tag : Tag} {args : List Temp} {handle : Ir.Value} {ty : Ir.Ty}
      {bs : List Binding} {ns : List Notice} : Invokes s callee args ty bs ns → ty ≠ .none →
      Makes s (.call dst callee tag args) [computing dst ty (callInstr handle ty bs)]
        (some (dst, computed dst ty)) ns
  | procedure {dst callee : Temp} {tag : Tag} {args : List Temp} {handle : Ir.Value}
      {bs : List Binding} {ns : List Notice} : Invokes s callee args .none bs ns →
      Makes s (.call dst callee tag args) [callInstr handle .none bs]
        (some (dst, { val := .const 0, ty := .word })) ns
  | branch {cond : Temp} {onTrue onFalse : Target} {c : Binding} : s.bound cond = some c →
      Makes s (.branch cond onTrue onFalse)
        [{ op := .jnz, args := [c.val, blockLabel onTrue, blockLabel onFalse] }] none []
  | jump {target : Target} :
      Makes s (.jump target) [{ op := .jmp, args := [blockLabel target] }] none []
  | ret {t : Temp} {tag : Tag} {b : Binding} {is : List Ir.Instr} {x : Ir.Value} :
      s.bound t = some b → Coerced b s.ret is x →
      Makes s (.ret (some t) tag) (is ++ [{ op := .ret, args := [x] }]) none []
  | leave {tag : Tag} : Makes s (.ret none tag) [defaultReturn s.ret] none []
  | funcEnd : Makes s .funcEnd [defaultReturn s.ret] none []

/-- What of a state later instructions look at, the bindings apart, and what calls give. -/
structure Unmoved (s s' : State) : Prop where
  ret : s'.ret = s.ret
  calls : s.table.Sound → s'.table.Sound ∧ ∀ n, s'.table.callTy n = s.table.callTy n

/-- Conversions in the instructions are numbered one by one, from behind `n` to `m`. -/
inductive Numbered : Nat → List Ir.Instr → Nat → Prop
  | nil {n : Nat} : Numbered n [] n
  | other {n m : Nat} {i : Ir.Instr} {is : List Ir.Instr} :
      (∀ k : Nat, i.result ≠ some (.temp "x" k)) → Numbered n is m → Numbered n (i :: is) m
  | conversion {n m : Nat} {i : Ir.Instr} {is : List Ir.Instr} :
      i.result = some (.temp "x" (n + 1 : Nat)) → Numbered (n + 1) is m → Numbered n (i :: is) m

/-- What an instruction makes of the names: a call enlists its callee, and becomes a call of it. -/
inductive Calling (s s' : State) : Quad → List Ir.Instr → Prop
  | other {q : Quad} {is : List Ir.Instr} : q.isCall = false → s'.table = s.table →
      s'.foreign = s.foreign → Calling s s' q is
  | call {dst callee : Temp} {tag : Tag} {args : List Temp} {name : String} {id : EntryId}
      {v : Ir.Value} {i : Ir.Instr} : Enlists name args.length s.table id v s'.table →
      s'.foreign = s.foreignWith (s'.table.entry id) → i.op = .call → i.args.head? = some v →
      i.ty = (s'.table.entry id).elem → (∃ c, s.bound callee = some c ∧ c.callee = some name) →
      Calling s s' (.call dst callee tag args) [i]

/-- The state `s'` behind an instruction `q` met in `s`, which became `is`, bound its result as
`new` says and had the errors `ns`. -/
structure After (s s' : State) (q : Quad) (is : List Ir.Instr) (new : Option (Temp × Binding))
    (ns : List Notice) : Prop where
  ret : s'.ret = s.ret
  defined : s'.defined = s.defined
  file : s'.file = s.file
  calling : Calling s s' q is
  literals : s'.literals = s.literalsWith q
  instrs : s'.revInstrs = is.reverse ++ s.revInstrs
  bindings : s'.bindings = new.toList ++ s.bindings
  reported : Reported s s' ns
  numbers : Numbered s.conversions is s'.conversions

theorem Unmoved.of_table (hr : s'.ret = s.ret) (ht : s'.table = s.table) : Unmoved s s' := by
  refine ⟨hr, fun hs => ?_⟩
  rw [ht]
  exact ⟨hs, fun _ => rfl⟩

theorem Unmoved.trans {s s1 s2 : State} (h : Unmoved s s1) (h' : Unmoved s1 s2) : Unmoved s s2 := by
  refine ⟨h'.ret.trans h.ret, fun hs => ?_⟩
  obtain ⟨hs1, hc1⟩ := h.calls hs
  obtain ⟨hs2, hc2⟩ := h'.calls hs1
  exact ⟨hs2, fun n => (hc2 n).trans (hc1 n)⟩

theorem After.unmoved (h : After s s' q is new ns) : Unmoved s s' := by
  cases h.calling with
  | other _ ht => exact .of_table h.ret ht
  | call he =>
    refine ⟨h.ret, fun hs => ⟨(he.changes hs).sound, (he.changes hs).callTy ?_⟩⟩
    rintro e ⟨hk, hh, helem⟩
    simp [Entry.callTy, hk, hh, helem]

namespace Numbered

variable {n m l : Nat} {js : List Instr} {i : Instr}

theorem append (h : Numbered n is m) (h' : Numbered m js l) : Numbered n (is ++ js) l := by
  induction h with
  | nil => exact h'
  | other hi _ ih => exact .other hi (ih h')
  | conversion hi _ ih => exact .conversion hi (ih h')

theorem plain (hi : i.result = none) : Numbered n [i] n :=
  .other (fun k hk => by simp [hi] at hk) .nil

theorem computing (ty : Ty) (i : Instr) : Numbered n [computing dst ty i] n :=
  .other (fun k hk => by simp [Lowering.computing, tempValue] at hk) .nil

theorem lt_of_mem (h : Numbered n is m) (hi : i ∈ is) (hk : i.result = some (.temp "x" k)) :
    n < k := by
  induction h with
  | nil => cases hi
  | other hj _ ih =>
    rcases mem_cons.1 hi with rfl | hi
    · exact absurd hk (hj k)
    · exact ih hi
  | @conversion n m j js hj _ ih =>
    rcases mem_cons.1 hi with rfl | hi
    · have heq : (k : Int) = (n + 1 : Nat) := by simpa [hk] using hj
      omega
    · have := ih hi
      omega

theorem unique (h : Numbered n is m) {j : Instr} (hi : i ∈ is) (hj : j ∈ is)
    (hik : i.result = some (.temp "x" k)) (hjk : j.result = some (.temp "x" k)) : i = j := by
  induction h with
  | nil => cases hi
  | other hne _ ih =>
    rcases mem_cons.1 hi with rfl | hi
    · exact absurd hik (hne k)
    · rcases mem_cons.1 hj with rfl | hj
      · exact absurd hjk (hne k)
      · exact ih hi hj
  | @conversion n m c cs hc hcs ih =>
    -- behind the first conversion the numbers are larger than its own
    have hlarger : ∀ {a : Instr}, a ∈ cs → a.result = some (.temp "x" k) →
        c.result ≠ some (.temp "x" k) := by
      intro a ha hak hck
      have hlt := hcs.lt_of_mem ha hak
      have heq : (k : Int) = (n + 1 : Nat) := by simpa [hck] using hc
      omega
    rcases mem_cons.1 hi with rfl | hi'
    · rcases mem_cons.1 hj with rfl | hj'
      · rfl
      · exact absurd hik (hlarger hj' hjk)
    · rcases mem_cons.1 hj with rfl | hj'
      · exact absurd hjk (hlarger hi' hik)
      · exact ih hi' hj'

end Numbered

/-! ## Parts -/

theorem ensures_bindings (ts : List Temp) :
    Ensures (ts.mapM binding) s fun bs s' => s' = s ∧ Bound s ts bs := by
  refine ensures_mapM (I := fun _ s' => s' = s) (R := fun t b => s.bound t = some b) rfl ?_
  rintro t ts _ rfl
  exact ensures_binding.2 fun b hb => ⟨rfl, hb⟩

theorem Bound.eq_cons {t : Temp} {ts : List Temp}
    (h : Bound s (t :: ts) bs) (hb : s.bound t = some b) :
    ∃ bs', bs = b :: bs' ∧ Bound s ts bs' := by
  obtain ⟨b', bs', hb', hbs, rfl⟩ := forall₂_cons_left_iff.1 h
  cases hb'.symm.trans hb
  exact ⟨bs', rfl, hbs⟩

theorem Bound.eq_nil (h : Bound s [] bs) : bs = [] := forall₂_nil_left_iff.1 h

theorem ensures_operandType (op : String) (tag : Tag) (ts : List Temp) :
    Ensures (operandType op tag ts) s fun ty s' => ∃ bs, Bound s ts bs ∧ ty = operandsTy bs ∧
      s' = s.complain (mismatch op tag (operandsTy bs)) := by
  simp only [operandType, ensures_bind]
  refine (ensures_bindings ts).mono ?_
  rintro bs _ ⟨rfl, hbs⟩
  have hty : (if bs.any (·.ty = .double) then Ty.double else .word) = operandsTy bs := rfl
  rw [hty]
  by_cases hne : machineTy tag.base ≠ operandsTy bs
  · rw [if_pos hne]
    simp only [ensures_bind, ensures_error, ensures_pure]
    refine ⟨bs, hbs, rfl, ?_⟩
    rw [mismatch, if_pos hne]
    rfl
  · rw [if_neg hne]
    refine ensures_pure.2 ⟨bs, hbs, rfl, ?_⟩
    rw [mismatch, if_neg hne, State.complain_nil]

theorem ensures_coerced (b : Binding) (want : Ty) :
    Ensures (coerce b want) s fun v s' => ∃ is k, Coerced b want is v ∧
      Numbered s.conversions is k ∧
        s' = { s with revInstrs := is.reverse ++ s.revInstrs, conversions := k } := by
  unfold coerce
  split
  · next h =>
    simp only [ensures_bind, ensures_newConversion, ensures_addInstr, ensures_pure]
    exact ⟨_, s.conversions + 1, .convert _ h, .conversion rfl .nil, rfl⟩
  · next h => exact ensures_pure.2 ⟨[], s.conversions, .keep (by simpa using h), .nil, rfl⟩

/-- What is to be shown of an instruction `q` that took the state from `s` to `s'`. -/
def Effect (s : State) (q : Quad) (s' : State) : Prop :=
  ∃ is new ns, Makes s q is new ns ∧ After s s' q is new ns

section Effects

variable {rs : List Instr}

theorem Makes.silent (h : Makes s q is new []) (hq : q.isCall = false)
    (hl : s.literalsWith q = s.literals) (hn : Numbered s.conversions is k)
    (hi : rs = is.reverse ++ s.revInstrs) {l : Int} :
    Effect s q { s with
      line := l, conversions := k, revInstrs := rs, bindings := new.toList ++ s.bindings } :=
  ⟨is, new, [], h, rfl, rfl, rfl, .other hq rfl rfl, hl.symm, hi, rfl, reported_nil rfl, hn⟩

theorem Makes.checked (h : Makes s q is new ns) (hq : q.isCall = false)
    (hl : s.literalsWith q = s.literals) (hn : Numbered s.conversions is k)
    (hi : rs = is.reverse ++ s.revInstrs) :
    Effect s q { s.complain ns with
      conversions := k, revInstrs := rs, bindings := new.toList ++ s.bindings } :=
  ⟨is, new, ns, h, rfl, rfl, rfl, .other hq rfl rfl, hl.symm, hi, rfl, reported_complain ns, hn⟩

end Effects

/-! ## The instructions one by one -/

theorem effect_const (tag : Tag) :
    Ensures (lowerQuad (.const dst text tag)) s fun _ s' => Effect s (.const dst text tag) s' := by
  simp only [lowerQuad, lowerConst, ensures_bind]
  by_cases htag : tag.isDouble = true
  · rw [if_pos htag]
    split
    · simp only [ensures_pure, ensures_bindTemp]
      exact (Makes.float htag).silent rfl rfl .nil rfl
    · exact ensures_throw
  · rw [if_neg htag]
    have hmakes : Makes s (.const dst text tag) [] _ (outOfRange text) := .int (by simpa using htag)
    by_cases hfault : (readLiteral text).fault.isSome = true
    · rw [outOfRange, if_pos hfault] at hmakes
      simp only [hfault, if_true, ensures_bind, ensures_error, ensures_pure, ensures_bindTemp]
      exact hmakes.checked rfl rfl .nil rfl
    · rw [outOfRange, if_neg hfault] at hmakes
      simp only [hfault, Bool.false_eq_true, if_false, ensures_pure, ensures_bindTemp]
      exact hmakes.silent rfl rfl .nil rfl

theorem effect_string :
    Ensures (lowerQuad (.string dst text)) s fun _ s' => Effect s (.string dst text) s' := by
  obtain ⟨k, hk, hrun⟩ := exists_intern text s
  rw [lowerQuad, ensures_bind, ensures_iff_of_eq hrun, ensures_bindTemp]
  exact ⟨_, _, _, .string rfl hk, rfl, rfl, rfl, .other rfl rfl rfl, rfl, rfl, rfl,
    reported_nil rfl, .nil⟩

theorem ensures_finds (storage : Storage) (name : String) :
    Ensures (lowerRef storage name) s fun b s' => s' = s ∧ Finds s.table storage name b := by
  simp only [lowerRef, ensures_bind, ensures_get]
  by_cases hg : storage = .global
  · rw [if_pos hg]
    split
    · exact ensures_pure.2 ⟨rfl, .func hg⟩
    · next hid =>
      split
      · exact ensures_pure.2 ⟨rfl, .func hg⟩
      · exact ensures_pure.2 ⟨rfl, .func hg⟩
      · next hh hne => exact ensures_pure.2 ⟨rfl, .global hg hid hne hh⟩
  · rw [if_neg hg]
    split
    · exact ensures_throw
    · next hid =>
      split
      · exact ensures_throw
      · next hh => exact ensures_pure.2 ⟨rfl, .slot hg hid hh⟩

theorem effect_ref (storage : Storage) (name : String) (offset : Int) :
    Ensures (lowerQuad (.ref dst storage name offset)) s fun _ s' =>
      Effect s (.ref dst storage name offset) s' := by
  simp only [lowerQuad, ensures_bind, ensures_bindTemp]
  refine (ensures_finds storage name).mono ?_
  rintro b _ ⟨rfl, hb⟩
  exact (Makes.ref hb).silent rfl rfl .nil rfl

theorem effect_load (dst addr : Temp) (tag : Tag) :
    Ensures (lowerQuad (.load dst addr tag)) s fun _ s' => Effect s (.load dst addr tag) s' := by
  simp only [lowerQuad, lowerLoad, ensures_bind, ensures_address]
  intro a ha hty _
  split
  · next harr =>
    exact ensures_bindTemp.2 ((Makes.array ha hty harr).silent rfl rfl .nil rfl)
  · next harr =>
    exact ensures_defineTemp.2
      ((Makes.load ha hty (by simpa using harr)).silent rfl rfl (.computing _ _ _) rfl)

theorem effect_store (dst addr val : Temp) (tag : Tag) :
    Ensures (lowerQuad (.store dst addr val tag)) s fun _ s' =>
      Effect s (.store dst addr val tag) s' := by
  simp only [lowerQuad, lowerStore, ensures_bind, ensures_address, ensures_binding]
  intro a ha hty _ v hv
  refine (ensures_coerced v (machineTy tag)).mono ?_
  rintro x _ ⟨is, k, hx, hk, rfl⟩
  simp only [ensures_addInstr, ensures_bindTemp]
  exact (Makes.store ha hty hv hx).silent rfl rfl (hk.append (.plain rfl)) (by simp)

/-- What comes behind the index of an element, widened or not. -/
def scaleIndex (dst : Temp) (elem : Tag) (base idx : Value) : LowerM Unit := do
  let scaled ← newConversion
  addInstr { op := .mul, ty := .ptr, result := some scaled, args := [idx, .const elem.size] }
  addInstr { op := .add, ty := .ptr, result := some (tempValue dst), args := [base, scaled] }
  Lowering.bind dst { val := tempValue dst, ty := .ptr, elem := machineTy elem }

theorem effect_index (dst base idx : Temp) (tag : Tag) :
    Ensures (lowerQuad (.index dst base idx tag)) s fun _ s' =>
      Effect s (.index dst base idx tag) s' := by
  simp only [lowerQuad, lowerIndex, ensures_bind, ensures_address, ensures_binding, ensures_get]
  intro a ha hty _ i hi
  split
  · simp only [ensures_bind, ensures_newConversion, ensures_addInstr, ensures_pure,
      ensures_bindTemp]
    exact (Makes.index _ ha hty hi (.extend _)).silent rfl rfl
      (.conversion rfl (.conversion rfl (.computing _ _ _))) rfl
  · simp only [ensures_bind, ensures_newConversion, ensures_addInstr, ensures_pure,
      ensures_bindTemp]
    exact (Makes.index _ ha hty hi .keep).silent rfl rfl (.conversion rfl (.computing _ _ _)) rfl

theorem effect_operand {dst x : Temp} {op : String} {tag : Tag} (f : Ty → Ty)
    (i : Value → Instr) (hq : q.isCall = false) (hl : s.literalsWith q = s.literals)
    (h : ∀ b is v, s.bound x = some b → Coerced b (f (operandsTy [b])) is v →
      Makes s q (is ++ [computing dst (f (operandsTy [b])) (i v)])
        (some (dst, computed dst (f (operandsTy [b])))) (mismatch op tag (operandsTy [b]))) :
    Ensures (do
      let ty ← operandType op tag [x]
      let v ← coerce (← binding x) (f ty)
      defineTemp dst (f ty) (i v)) s fun _ s' => Effect s q s' := by
  simp only [ensures_bind, ensures_binding]
  refine (ensures_operandType _ _ _).mono ?_
  rintro _ _ ⟨bs, hbs, rfl, rfl⟩ b (hb : s.bound x = some b)
  obtain ⟨_, rfl, hnil⟩ := hbs.eq_cons hb
  obtain rfl := hnil.eq_nil
  refine (ensures_coerced b _).mono ?_
  rintro v _ ⟨is, k, hv, hk, rfl⟩
  exact ensures_defineTemp.2 ((h b is v hb hv).checked hq hl (hk.append (.computing _ _ _))
    (by simp [computing, State.complain]))

theorem effect_unary (op : String) (x : Temp) (tag : Tag) :
    Ensures (lowerQuad (.unary dst op x tag)) s fun _ s' => Effect s (.unary dst op x tag) s' := by
  simp only [lowerQuad, lowerUnary]
  split
  · exact effect_operand id (fun v => { op := .neg, args := [v] }) rfl rfl
      fun _ _ _ hb hv => .neg hb hv
  · exact effect_operand (fun _ => .word) (fun v => { op := .xor, args := [v, .const (-1)] }) rfl rfl
      fun _ _ _ hb hv => .not hb hv
  · exact ensures_throw

theorem lowerBinary_eq (cls : OpClass) (dst : Temp) (op : String) (x y : Temp) (tag : Tag) :
    lowerBinary cls dst op x y tag = operandType op (cls.required tag) [x, y] >>= fun ty =>
      lowerOperation dst (operation? cls op) op x y (cls.resultTy ty) (cls.workTy ty) := by
  cases cls <;> rfl

theorem effect_binary (cls : OpClass) (dst : Temp) (op : String) (x y : Temp) (tag : Tag) :
    Ensures (lowerQuad (.binary cls dst op x y tag)) s fun _ s' =>
      Effect s (.binary cls dst op x y tag) s' := by
  simp only [lowerQuad, lowerBinary_eq, ensures_bind]
  refine (ensures_operandType _ _ _).mono ?_
  rintro _ _ ⟨bs, hbs, rfl, rfl⟩
  cases hop : operation? cls op with
  | none => exact ensures_throw
  | some o =>
    simp only [lowerOperation, ensures_bind, ensures_binding]
    rintro a (ha : s.bound x = some a)
    obtain ⟨_, rfl, hrest⟩ := hbs.eq_cons ha
    refine (ensures_coerced a _).mono ?_
    rintro v _ ⟨is, k, hv, hk, rfl⟩ b (hb : s.bound y = some b)
    obtain ⟨_, rfl, hnil⟩ := hrest.eq_cons hb
    obtain rfl := hnil.eq_nil
    refine (ensures_coerced b _).mono ?_
    rintro w _ ⟨js, l, hw, hl, rfl⟩
    have hmakes : Makes s (.binary cls dst op x y tag) _ _ _ := .binary ha hb hop hv hw
    exact ensures_defineTemp.2 (hmakes.checked rfl rfl
      ((hk.append hl).append (.computing _ _ _)) (by simp [computing, State.complain]))

theorem effect_cast (dst x : Temp) (tag : Tag) :
    Ensures (lowerQuad (.cast dst x tag)) s fun _ s' => Effect s (.cast dst x tag) s' := by
  simp only [lowerQuad, lowerCast, ensures_bind, ensures_binding]
  intro b hb
  have hwant : (if tag.isDouble then Ty.double else .word) = castTy tag := rfl
  rw [hwant]
  by_cases hty : b.ty = castTy tag
  · rw [if_pos hty]
    exact ensures_bindTemp.2 ((Makes.same hb hty).silent rfl rfl .nil rfl)
  · rw [if_neg hty]
    exact ensures_defineTemp.2 ((Makes.cast hb hty).silent rfl rfl (.computing _ _ _) rfl)

theorem effect_ret (val : Option Temp) (tag : Tag) :
    Ensures (lowerQuad (.ret val tag)) s fun _ s' => Effect s (.ret val tag) s' := by
  cases val with
  | none =>
    simp only [lowerQuad, lowerRet, ensures_bind, ensures_get, ensures_addInstr]
    exact Makes.leave.silent rfl rfl (.plain rfl) rfl
  | some t =>
    simp only [lowerQuad, lowerRet, ensures_bind, ensures_get, ensures_binding]
    intro b hb
    refine (ensures_coerced b _).mono ?_
    rintro x _ ⟨is, k, hx, hk, rfl⟩
    exact ensures_addInstr.2 ((Makes.ret hb hx).silent rfl rfl (hk.append (.plain rfl)) (by simp))

/-! ## Calls -/

theorem ensures_enlists (name : String) (k : Nat) :
    Ensures (calleeEntry name k) s fun id s1 => Ensures (calleeHandle id name) s1 fun v s' =>
      ∃ T ws, Enlists name k s.table id v T ∧
        (∀ d ∈ ws, d.severity = .warning .implicitDecl) ∧
        s' = { s with
          table := T
          report := { s.report with diagnostics := s.report.diagnostics ++ ws } } := by
  have hquiet : s.report = { s.report with diagnostics := s.report.diagnostics ++ [] } := by
    rw [append_nil]
  simp only [calleeEntry, calleeHandle, getEntry, ensures_bind, ensures_get, ensures_pure]
  cases hid : (s.table.lookupGlobal? name).filter
      fun id => decide ((s.table.entry id).kind = .func) with
  | some id =>
    obtain ⟨hlook, hkind⟩ := Option.filter_eq_some_iff.1 hid
    refine ensures_pure.2 ?_
    cases hh : (s.table.entry id).handle with
    | some v =>
      exact ensures_pure.2 ⟨_, [], .known hlook (of_decide_eq_true hkind) hh, by simp, by rw [← hquiet]⟩
    | none =>
      simp only [ensures_bind, ensures_setEntry, ensures_pure]
      exact ⟨_, [], .placed hlook (of_decide_eq_true hkind) hh, by simp, by rw [← hquiet]; rfl⟩
  | none =>
    have hno : ∀ id, s.table.lookupGlobal? name = some id → (s.table.entry id).kind ≠ .func := by
      intro id hlook
      simpa [hlook] using hid
    have hhandle : ((declareImplicit s.table name k).entry s.table.entries.size).handle =
        some (.global name) :=
      congrArg Entry.handle (Table.entry_modifyEntry_self (Table.size_lt_installAt _) _)
    simp only [warn, installGlobal, ensures_bind, ensures_modify, ensures_modifyGet,
      ensures_setEntry, ensures_pure]
    split
    · next v hv =>
      cases hv.symm.trans hhandle
      rw [warn_eq]
      refine ensures_pure.2 ⟨_, _, .implicit hno, fun d hd => ?_, rfl⟩
      split at hd
      · rw [mem_singleton.1 hd]
      · cases hd
    · next hv => cases hv.symm.trans hhandle

theorem ensures_checkCount (given : Nat) : Ensures (checkCount e given) s fun _ s' => ∃ ns,
      (∀ n ∈ ns, ∃ name given expected, n = .argumentCount name given expected) ∧
        s' = s.complain ns := by
  simp only [checkCount, ensures_bind, ensures_get]
  split
  · exact ensures_error.2 ⟨[_], by simp, rfl⟩
  · exact ensures_pure.2 ⟨[], by simp, State.complain_nil.symm⟩

theorem ensures_declareForeign {Q : Unit → State → Prop}
    (h : Q () { s with foreign := s.foreignWith e }) : Ensures (declareForeign e) s Q :=
  (ensures_iff_of_eq (run_declareForeign e s)).2 h

theorem effect_call (dst callee : Temp) (tag : Tag) (args : List Temp) :
    Ensures (lowerQuad (.call dst callee tag args)) s fun _ s' =>
      Effect s (.call dst callee tag args) s' := by
  simp only [lowerQuad, lowerCall, ensures_bind, ensures_binding]
  intro c hc
  cases hname : c.callee with
  | none => simp
  | some name =>
    simp only [ensures_bind, getEntry, ensures_get, ensures_pure]
    refine (ensures_enlists name args.length).mono fun id s1 h => h.mono ?_
    rintro handle _ ⟨T, ws, hT, hws, rfl⟩
    refine ensures_declareForeign _ ((ensures_checkCount _ _).mono ?_)
    rintro _ _ ⟨ns, hns, rfl⟩
    simp only [addCall, ensures_bind]
    refine (ensures_bindings args).mono ?_
    rintro bs _ ⟨rfl, hbs⟩
    generalize hty : (T.entry id).elem = ty
    have hinvokes : Invokes s callee args ty bs ns := by
      refine ⟨⟨c, name, hc, hname, fun hs => ?_⟩, hbs, hns⟩
      exact hty.symm.trans ((hT.changes hs).of_lookup hT.lookup).2.2
    have hdiagnostics : s.report.diagnostics ++ ws ++ ns.map s.complaint =
        s.report.diagnostics ++ (ws ++ ns.map s.complaint) := append_assoc ..
    by_cases hnone : ty = .none
    · subst hnone
      rw [if_pos rfl]
      simp only [ensures_bind, ensures_addInstr, ensures_bindTemp]
      exact ⟨_, _, _, .procedure hinvokes, rfl, rfl, rfl,
        .call hT rfl rfl rfl hty.symm ⟨c, hc, hname⟩, rfl, rfl, rfl,
        ⟨ws, hws, congrArg _ hdiagnostics⟩, .plain rfl⟩
    · rw [if_neg hnone]
      exact ensures_defineTemp.2 ⟨_, _, _, .call hinvokes hnone, rfl, rfl, rfl,
        .call hT rfl rfl rfl hty.symm ⟨c, hc, hname⟩, rfl, rfl, rfl,
        ⟨ws, hws, congrArg _ hdiagnostics⟩, .computing _ _ _⟩

/-- Lowering an instruction does what `Makes` says, and nothing else that can be seen. -/
theorem ensures_makes (q : Quad) : Ensures (lowerQuad q) s fun _ s' => Effect s q s' := by
  cases q with
  | const dst text tag => exact effect_const dst text tag
  | string dst text => exact effect_string dst text
  | ref dst storage name offset => exact effect_ref dst storage name offset
  | load dst addr tag => exact effect_load dst addr tag
  | store dst addr val tag => exact effect_store dst addr val tag
  | index dst base idx tag => exact effect_index dst base idx tag
  | unary dst op x tag => exact effect_unary dst op x tag
  | binary cls dst op x y tag => exact effect_binary cls dst op x y tag
  | cast dst x tag => exact effect_cast dst x tag
  | call dst callee tag args => exact effect_call dst callee tag args
  | ret val tag => exact effect_ret val tag
  | stmtBegin line => exact ensures_modify.2 (Makes.mark.silent rfl rfl .nil rfl)
  | arg x tag =>
    simp only [lowerQuad, ensures_bind, ensures_binding, ensures_pure]
    exact fun b hb => (Makes.arg hb).silent rfl rfl .nil rfl
  | branch cond onTrue onFalse =>
    simp only [lowerQuad, ensures_bind, ensures_binding, ensures_addInstr]
    exact fun c hc => (Makes.branch hc).silent rfl rfl (.plain rfl) rfl
  | jump target => exact ensures_addInstr.2 (Makes.jump.silent rfl rfl (.plain rfl) rfl)
  | funcEnd =>
    simp only [lowerQuad, ensures_bind, ensures_get, ensures_addInstr]
    exact Makes.funcEnd.silent rfl rfl (.plain rfl) rfl
  | globalDecl | formalDecl | localDecl | funcBegin | condJump | label | patch =>
    exact ensures_throw

end Lowering

end Quadruple
