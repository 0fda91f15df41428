import Quadruple.Proofs.Emit.Declare
import Quadruple.Proofs.Emit.Straight
import Quadruple.Proofs.Ensures
import Quadruple.Proofs.Flow.Frame
import Quadruple.Proofs.Symbols.Spelling

/-!
# What operations do

A run is any list of operations on any arguments: values and chains that no operation returned,
operators that do not exist, operations out of order. A fault ends its operation in the middle, and
the run may go on from what it left behind.

Whatever an operation does, it does in acts, and `Act` says which there are. An act is made of what
is at hand: what the operation was given, what it found in the state and what it has made before.
`does_perform` says of every operation that it goes in acts, faults included; what holds along every
run follows from the acts.
-/

namespace Quadruple

open List

namespace Emit

open Symbols (Entry EntryId Table)

/-! ## Runs -/

inductive Op where
  | setFile (name : String)
  /-- The table and the report are shared with others, who change them. -/
  | share (table : Table) (report : Report)
  | mark
  | jumpAhead
  | beginStmt (line : Int)
  | declareGlobal (name : String) (tag : Tag) (count : Int)
  | declareFormal (name : String) (tag : Tag)
  | declareLocal (name : String) (tag : Tag) (count : Int)
  | openFunction (tag : Tag) (name : String)
  | beginFunction (id : Option EntryId)
  | endFunction
  | constant (text : String)
  | stringLiteral (text : String)
  | variableRef (name : String)
  | element (x i : Value)
  | unaryOp (op : String) (y : Value)
  | arithOp (op : String) (x y : Value)
  | bitwiseOp (op : String) (x y : Value)
  | relation (op : String) (x y : Value)
  | assign (op : String) (x y : Value)
  | cast (x : Value) (tag : Tag)
  | appendArg (args : ArgList) (v : Value)
  | call (name : String) (args : ArgList)
  | condition (v : Value)
  | both (x : Value) (m : Int) (y : Value)
  | either (x : Value) (m : Int) (y : Value)
  | negated (v : Value)
  | ifStmt (v : Value) (m1 m2 : Int)
  | ifElseStmt (v : Value) (m1 : Int) (n : Chain) (m2 m3 : Int)
  | whileStmt (m1 : Int) (v : Value) (m2 : Int) (n : Chain) (m3 : Int)
  | doStmt (m1 m2 : Int) (v : Value) (m3 : Int)
  | forStmt (m1 : Int) (v : Value) (m2 : Int) (n1 : Chain) (m3 : Int) (n2 : Chain) (m4 : Int)
  | openLoop
  | endLoop
  | breakStmt
  | continueStmt
  | gotoStmt (name : String)
  | labelStmt (name : String)
  | returnStmt (v : Option Value)

def Op.perform : Op → EmitM Unit
  | .setFile file => modify fun s => { s with file }
  | .share table report => modify fun s => { s with table, report }
  | .mark => discard Emit.mark
  | .jumpAhead => discard Emit.jumpAhead
  | .beginStmt line => Emit.beginStmt line
  | .declareGlobal name tag count => discard (Emit.declareGlobal name tag count)
  | .declareFormal name tag => discard (Emit.declareFormal name tag)
  | .declareLocal name tag count => discard (Emit.declareLocal name tag count)
  | .openFunction tag name => discard (Emit.openFunction tag name)
  | .beginFunction id => Emit.beginFunction id
  | .endFunction => Emit.endFunction
  | .constant text => discard (Emit.constant text)
  | .stringLiteral text => discard (Emit.stringLiteral text)
  | .variableRef name => discard (Emit.variableRef name)
  | .element x i => discard (Emit.element x i)
  | .unaryOp op y => discard (Emit.unaryOp op y)
  | .arithOp op x y => discard (Emit.arithOp op x y)
  | .bitwiseOp op x y => discard (Emit.bitwiseOp op x y)
  | .relation op x y => discard (Emit.relation op x y)
  | .assign op x y => discard (Emit.assign op x y)
  | .cast x tag => discard (Emit.cast x tag)
  | .appendArg args v => discard (Emit.appendArg args v)
  | .call name args => discard (Emit.call name args)
  | .condition v => discard (Emit.condition v)
  | .both x m y => discard (Emit.both x m y)
  | .either x m y => discard (Emit.either x m y)
  | .negated v => discard (Emit.negated v)
  | .ifStmt v m1 m2 => Emit.ifStmt v m1 m2
  | .ifElseStmt v m1 n m2 m3 => Emit.ifElseStmt v m1 n m2 m3
  | .whileStmt m1 v m2 n m3 => Emit.whileStmt m1 v m2 n m3
  | .doStmt m1 m2 v m3 => Emit.doStmt m1 m2 v m3
  | .forStmt m1 v m2 n1 m3 n2 m4 => Emit.forStmt m1 v m2 n1 m3 n2 m4
  | .openLoop => Emit.openLoop
  | .endLoop => Emit.endLoop
  | .breakStmt => Emit.breakStmt
  | .continueStmt => Emit.continueStmt
  | .gotoStmt name => Emit.gotoStmt name
  | .labelStmt name => Emit.labelStmt name
  | .returnStmt v => Emit.returnStmt v

def Op.jumps : Op → Bool
  | .openFunction .. | .endFunction | .gotoStmt _ | .labelStmt _ => true
  | _ => false

/-- The state that an operation leaves behind, whether or not it came to its end. -/
def after {α : Type} (x : EmitM α) (s : State) : State :=
  match x s with
  | .ok _ s' | .error _ s' => s'

def State.run (s : State) (ops : List Op) : State := ops.foldl (fun s op => after op.perform s) s

variable {quad : Temp → Quad} {tag : Tag} {q : Quad} {b : Nat} {l label : Int} {α β : Type}

section After

variable {x : EmitM α} {f : α → EmitM β} {s s' : State}

theorem after_of_ok {a : α} (h : x s = .ok a s') : after x s = s' := by rw [after, h]

theorem after_get_bind (f : State → EmitM α) (s : State) : after (get >>= f) s = after (f s) s :=
  rfl

theorem after_bind (x : EmitM α) (f : α → EmitM β) (s : State) :
    after (x >>= f) s = match x s with
      | .ok a s' => after (f a) s'
      | .error _ s' => s' := by
  show after (EStateM.bind x f) s = _
  unfold after EStateM.bind
  cases x s <;> rfl

theorem exists_after {Q : α → State → Prop} (h : Yields x s Q) : ∃ a, Q a (after x s) := by
  obtain ⟨a, s', hx, hq⟩ := h
  exact ⟨a, by rwa [after_of_ok hx]⟩

theorem after_discard (x : EmitM α) (s : State) : after (discard x) s = after x s := by
  show after (x >>= fun _ => pure ()) s = _
  rw [after_bind]
  unfold after
  cases x s <;> rfl

theorem after_bind_of_ok {a : α} (h : x s = .ok a s') : after (x >>= f) s = after (f a) s' := by
  rw [after_bind, h]

end After

/-! ## What an operation is given -/

@[simp]
def Op.values : Op → List Value
  | .element x y | .arithOp _ x y | .bitwiseOp _ x y | .relation _ x y | .assign _ x y => [x, y]
  | .unaryOp _ x | .cast x _ | .appendArg _ x | .condition x => [x]
  | .returnStmt v => v.toList
  | _ => []

@[simp]
def Op.marks : Op → List Int
  | .both _ m _ | .either _ m _ => [m]
  | .ifStmt _ m1 m2 => [m1, m2]
  | .ifElseStmt _ m1 _ m2 m3 | .whileStmt m1 _ m2 _ m3 | .doStmt m1 m2 _ m3 => [m1, m2, m3]
  | .forStmt m1 _ m2 _ m3 _ m4 => [m1, m2, m3, m4]
  | _ => []

/-- The names of variables and functions that an operation is given. -/
@[simp]
def Op.names : Op → List String
  | .declareGlobal name _ _ | .declareFormal name _ | .declareLocal name _ _ | .openFunction _ name
  | .variableRef name | .call name _ => [name]
  | _ => []

@[simp]
def Op.numeral? : Op → Option String
  | .constant text => some text
  | _ => none

@[simp]
def Op.literal? : Op → Option String
  | .stringLiteral text => some text
  | _ => none

@[simp]
def Op.line? : Op → Option Int
  | .beginStmt line => some line
  | _ => none

@[simp]
def Op.head? : Op → Option EntryId
  | .beginFunction id => id
  | _ => none

def Op.table? : Op → Option Table
  | .share table _ => some table
  | _ => none

/-- The operations that leave the table alone, the scopes and the frame of the code too. -/
def Op.isQuiet : Op → Bool
  | .share .. | .declareGlobal .. | .declareFormal .. | .declareLocal .. | .openFunction ..
  | .beginFunction _ | .endFunction | .variableRef _ | .call .. | .openLoop | .endLoop
  | .whileStmt .. | .doStmt .. | .forStmt .. => false
  | _ => true

/-- The operations that make, merge or extend chains. -/
def Op.links : Op → Bool
  | .jumpAhead | .relation .. | .condition _ | .both .. | .either .. | .breakStmt
  | .continueStmt => true
  | _ => false

/-! ## Acts -/

inductive Item where
  | value (place : Temp) (tag : Tag)
  | label (l : Int)
  | blank (b : Nat)
  | entry (id : EntryId)
  | name (n : String)
  | numeral (text : String)
  | literal (text : String)
  | line (n : Int)

def Value.item (v : Value) : Item := .value v.place v.tag

@[simp]
def Op.items (op : Op) : List Item :=
  op.values.map Value.item ++ op.marks.map .label ++ op.names.map .name ++
    op.numeral?.toList.map .numeral ++ op.literal?.toList.map .literal ++
    op.line?.toList.map .line ++ op.head?.toList.map .entry

def numeralTag (text : String) : Tag := if isFloatNumeral text then .double else .int

inductive Defines (I : List Item) (s : State) : Tag → (Temp → Quad) → Prop
  | const {text : String} : text = "0" ∨ .numeral text ∈ I →
      Defines I s (numeralTag text) (.const · text (numeralTag text))
  | string {text : String} : .literal text ∈ I → Defines I s .string (.string · text)
  | ref {id : EntryId} : .entry id ∈ I → Defines I s ((s.table.entry id).tag.union .address)
      fun t => .ref t (s.table.entry id).storage (s.table.entry id).name (s.table.entry id).offset
  | callee {name : String} {tag : Tag} : .name name ∈ I → Defines I s tag (.ref · .global name 0)
  | cast {x : Temp} {a tag : Tag} : .value x a ∈ I → Defines I s tag (.cast · x tag)
  | index {x i : Temp} {a b : Tag} : .value x a ∈ I → .value i b ∈ I → b.isDouble = false →
      Defines I s (a.base.union .address) (.index · x i a.base)
  | load {y : Temp} {a : Tag} : .value y a ∈ I →
      Defines I s (a.without .address) (.load · y (a.without .address))
  | negate {y : Temp} {a : Tag} : .value y a ∈ I →
      Defines I s (a.without .address) (.unary · "-" y (a.without .address))
  | complement {y : Temp} {a : Tag} : .value y a ∈ I → (a.without .address).isDouble = false →
      Defines I s (a.without .address) (.unary · "~" y (a.without .address))
  | arith {op : String} {x y : Temp} {a b : Tag} : op ∈ OpClass.arith.lexemes → .value x a ∈ I →
      .value y b ∈ I → a.isDouble = b.isDouble →
      Defines I s a.base (.binary .arith · op x y a.base)
  | bitwise {op : String} {x y : Temp} {a b : Tag} : op ∈ OpClass.bitwise.lexemes →
      .value x a ∈ I → .value y b ∈ I → a.isDouble = false → b.isDouble = false →
      Defines I s .int (.binary .bitwise · op x y .int)
  | compare {op : String} {x y : Temp} {a b : Tag} : op ∈ OpClass.compare.lexemes →
      .value x a ∈ I → .value y b ∈ I → a.isDouble = b.isDouble →
      Defines I s .int (.binary .compare · op x y a.base)
  | store {x y : Temp} {a b : Tag} : .value x a ∈ I → .value y b ∈ I →
      a.base.isDouble = b.isDouble → Defines I s a.base (.store · x y a.base)
  | call {callee : Temp} {a tag : Tag} {args : List Temp} : .value callee a ∈ I →
      (∀ t ∈ args, ∃ b, .value t b ∈ I) → Defines I s tag (.call · callee tag args)

inductive Writes (I : List Item) (s : State) : Quad → Prop
  | stmtBegin {line : Int} : .line line ∈ I → Writes I s (.stmtBegin line)
  | arg {x : Temp} {a tag : Tag} : .value x a ∈ I → Writes I s (.arg x tag)
  | goto {name : String} {l : Nat} : s.declared.lookup name = some l → Writes I s (.jump (.label l))
  | ret {tag : Tag} : Writes I s (.ret none tag)
  | retValue {x : Temp} {a tag : Tag} : .value x a ∈ I → tag.isDouble = a.isDouble →
      Writes I s (.ret (some x) tag)
  | globalDecl {name : String} {tag : Tag} {width : Int} : .name name ∈ I →
      Writes I s (.globalDecl ⟨name, tag, Numeral.wrap64 width⟩)
  | forgotten {name : String} : .name name ∈ I →
      Writes I s (.localDecl ⟨name, .int, Tag.int.size⟩)
  | funcBegin {id : EntryId} : .entry id ∈ I →
      Writes I s (.funcBegin (s.table.entry id).name (s.table.entry id).tag)
  | funcEnd : Writes I s .funcEnd
  | storage {q : Quad} : q ∈ s.storage → Writes I s q

section

variable (jumps shapes chains : Bool)

/-- One act with the items `I` at hand. Only an operation on the labels of the source, for which
`jumps` is set, does anything to their records and gives their blanks a label, and only another one
puts blanks into chains. Only an operation for which `shapes` is set changes the table and the
scopes, or reports an undeclared name, and only one for which `chains` is set changes the links and
the chains of an open loop. -/
inductive Act : List Item × State → List Item × State → Prop
  | define {I s} {tag : Tag} {quad : Temp → Quad} :
      Defines I s tag quad → Act (I, s)
        (.value ⟨(s.temps + 1 : Nat)⟩ tag :: I, { s with
          temps := s.temps + 1, code := s.code.push (quad ⟨(s.temps + 1 : Nat)⟩)
          marked := s.marked && keepsMark (quad ⟨(s.temps + 1 : Nat)⟩) })
  | emit {I s} {q : Quad} : Writes I s q →
      shapes = true ∨ (q.isFrame || q.isDecl) = false → Act (I, s)
        (I, { s with code := s.code.push q, marked := s.marked && keepsMark q })
  | label {I s} : s.marked = false → Act (I, s) (.label (s.labels + 1 : Nat) :: I, { s with
        code := s.code.push (.label (s.labels + 1 : Nat)), labels := s.labels + 1, marked := true })
  | marked {I s} : Act (I, s) (.label s.labels :: I, s)
  | unmark {I s} : Act (I, s) (I, { s with marked := false })
  /-- A jump to a new blank, conditional or not. -/
  | branch {I s} {q : Target → Quad} : (q = .jump ∨ ∃ x a, .value x a ∈ I ∧ q = .condJump x) →
      Act (I, s) (.blank (s.blanks + 1) :: I, { s with
        blanks := s.blanks + 1, code := s.code.push (q (.blank (s.blanks + 1 : Nat)))
        marked := s.marked && keepsMark (q (.blank (s.blanks + 1 : Nat))) })
  | link {I s} {b : Nat} : jumps = false → chains = true → .blank b ∈ I →
      Act (I, s) (I, { s with links := s.links.push ⟨b, none⟩ })
  | relink {I s} {i j : Nat} : chains = true → Act (I, s)
      (I, { s with links := s.links.modify i ({ · with next := some j }) })
  | patch {I s} {b : Nat} {l : Int} : s.patched.lookup b = none →
      (b ∈ s.links.toList.map (·.blank) ∨ jumps = true ∧ b ∈ s.pending.flatMap (·.blanks)) →
      .label l ∈ I → Act (I, s)
        (I, { s with code := s.code.push (.patch b l), patched := (b, l) :: s.patched })
  | record {I s} {w : List PendingLabel} {d : List (String × Nat)} : jumps = true →
      (∀ p ∈ w, ∀ b ∈ p.blanks, b ∈ s.pending.flatMap (·.blanks) ∨ .blank b ∈ I) →
      (∀ p ∈ d, p ∈ s.declared ∨ .label p.2 ∈ I) →
      Act (I, s) (I, { s with pending := w, declared := d })
  | error {I s} {n : Notice} : (shapes = true ∨ ∀ name, n ≠ .undeclared name) → Act (I, s)
        (I, { s with report := s.report.error s.pos n.message })
  | warn {I s} {kind : Warning} {n : Notice} : Act (I, s)
      (I, { s with report := s.report.warn kind s.pos n.message })
  | rows {I s} {rows : Array ArgRow} : (∀ r ∈ rows.toList, ∀ v ∈ r.values,
        v.item ∈ I ∨ ∃ r' ∈ s.rows.toList, v ∈ r'.values) →
      Act (I, s) (I, { s with rows })
  | fetch {I s} {r : ArgRow} {v : Value} : r ∈ s.rows.toList →
      v ∈ r.values → Act (I, s) (v.item :: I, s)
  /-- An array is taken for the place of its first element. -/
  | view {I s} {x : Temp} {a : Tag} : .value x a ∈ I →
      Act (I, s) (.value x (a.without .array) :: I, s)
  | look {I s} {id : EntryId} : .entry id ∈ I → Act (I, s) (.name (s.table.entry id).name :: I, s)
  | find {I s} {name : String} {id : EntryId} :
      s.table.lookup? name = some id ∨ s.table.lookupGlobal? name = some id →
      Act (I, s) (.entry id :: I, s)
  | innermost {I s} {loops : List LoopScope} : chains = true →
      loops.length = s.loops.length → Act (I, s) (I, { s with loops })
  | position {I s} {file : String} {line : Int} : Act (I, s) (I, { s with file, line })
  | enter {I s} : shapes = true → Act (I, s)
      (I, { s with table := s.table.enter, loops := {} :: s.loops })
  | leave {I s} {loops : List LoopScope} : shapes = true → loops = s.loops ∨ loops = s.loops.tail →
      Act (I, s) (I, { s with table := s.table.leave, loops })
  /-- A name is declared, and may become a formal or a local. -/
  | declare {I s} {name : String} {n : Int} {f : Entry → Entry}
      {r : Report} {formals locals : List EntryId} : shapes = true → .name name ∈ I →
      (∀ N level, N name → (∀ k, s.formals.length ≤ k → s.locals.length ≤ k →
        (f { name, level }).Spelled N (k + 1))) →
      (formals = s.formals ∨ formals = s.formals ++ [s.table.entries.size]) →
      (locals = s.locals ∨ locals = s.locals ++ [s.table.entries.size]) →
      Act (I, s) (.entry s.table.entries.size :: I, { s with
        table := (s.table.installAt name n).2.modifyEntry s.table.entries.size f
        report := r, formals, locals })
  /-- A function takes over the entry of its name. -/
  | redeclare {I s} {name : String} {id : EntryId} {tag : Tag}
      {report : Report} : shapes = true → s.table.lookupGlobal? name = some id →
      (s.table.entry id).kind = .func → Act (I, s) (.entry id :: I, { s with
        table := s.table.modifyEntry id fun e => { e with
          kind := .func, storage := .global, tag, defined := true, implicit := false }
        report })
  | function {I s} {func : Option EntryId} {headed : Bool} : shapes = true →
      Act (I, s) (I, { s with func, headed })
  | fresh {I s} : jumps = true → shapes = true → Act (I, s) (I, { s with
        table := s.table.enter, declared := [], pending := [], formals := [], locals := []
        headed := false })

end

abbrev Acts (jumps shapes chains : Bool) : List Item × State → List Item × State → Prop :=
  Relation.ReflTransGen (Act jumps shapes chains)

variable {g d c : Bool} {I I' K : List Item} {s s' : State} {name : String}

theorem Defines.mono (h : Defines K s tag quad) (hI : K ⊆ I) : Defines I s tag quad := by
  cases h with
  | const h => exact .const (h.imp_right fun h => hI h)
  | call h hargs => exact .call (hI h) fun t ht => (hargs t ht).imp fun _ hb => hI hb
  | _ => constructor <;> first | exact hI ‹_› | assumption

theorem Writes.mono (h : Writes K s q) (hI : K ⊆ I) : Writes I s q := by
  cases h <;> constructor <;> first | exact hI ‹_› | assumption

theorem Acts.subset (h : Acts g d c (I, s) (I', s')) : I ⊆ I' := by
  have hall : ∀ {a b}, Acts g d c a b → a.1 ⊆ b.1 := by
    intro a b h
    induction h with
    | refl => exact fun _ => id
    | tail _ hact ih =>
      refine fun i hi => ?_
      have hi := ih hi
      cases hact <;> first | exact hi | exact mem_cons_of_mem _ hi
  exact hall h

/-- With the items `K` at hand, the operation goes in acts, and then it has those of its result at
hand too. -/
def DoesAt {α : Type} (jumps shapes chains : Bool) (K : List Item) (x : EmitM α) (s : State)
    (Q : α → List Item) : Prop :=
  ∀ I, K ⊆ I → ∃ I', Acts jumps shapes chains (I, s) (I', after x s) ∧
    ∀ a s', x s = .ok a s' → Q a ⊆ I'

def Does {α : Type} (jumps shapes chains : Bool) (K : List Item) (x : EmitM α)
    (Q : α → List Item) : Prop :=
  ∀ s, DoesAt jumps shapes chains K x s Q

abbrev noItems {α : Type} (_ : α) : List Item := []

section Does

variable {x : EmitM α} {f : α → EmitM β} {Q : α → List Item} {R : β → List Item}

variable {y : EmitM α}

theorem Does.keeps {P : State → Prop} (h : Does g d c K x Q)
    (hact : ∀ {a b}, Act g d c a b → P a.2 → P b.2) (hs : P s) : P (after x s) := by
  obtain ⟨I, hacts, -⟩ := h s K fun _ => id
  have hall : ∀ {b}, Acts g d c (K, s) b → P b.2 := by
    intro b hb
    induction hb with
    | refl => exact hs
    | tail _ hact' ih => exact hact hact' ih
  exact hall hacts

theorem doesAt_step {t : State} {J : List Item} (hr : x s = y t)
    (hact : ∀ I, K ⊆ I → Act g d c (I, s) (J ++ I, t))
    (hy : DoesAt g d c (J ++ K) y t Q) : DoesAt g d c K x s Q := by
  intro I hI
  obtain ⟨I', hacts, hQ⟩ := hy (J ++ I) (append_subset.2 ⟨subset_append_left _ _,
    fun _ hi => mem_append_right _ (hI hi)⟩)
  have hafter : after x s = after y t := by rw [after, hr, after]
  exact ⟨I', hafter ▸ .head (hact I hI) hacts, hr ▸ hQ⟩

theorem doesAt_stuck (hx : after x s = s) (hQ : ∀ a s', x s = .ok a s' → Q a ⊆ K) :
    DoesAt g d c K x s Q :=
  fun I hI => ⟨I, by rw [hx], fun a s' ha i hi => hI (hQ a s' ha hi)⟩

theorem doesAt_of_error {e : Fault} (hr : x s = .error e s) : DoesAt g d c K x s Q :=
  doesAt_stuck (by rw [after, hr]) fun _ _ h => nomatch hr.symm.trans h

theorem doesAt_pure {a : α} (h : Q a ⊆ K) : DoesAt g d c K (pure a) s Q :=
  doesAt_stuck rfl fun _ _ hr => by cases hr; exact h

theorem doesAt_of_act {a : α} (hr : x s = .ok a s')
    (h : ∀ I, K ⊆ I → Act g d c (I, s) (Q a ++ I, s')) : DoesAt g d c K x s Q :=
  doesAt_step (y := pure a) hr h (doesAt_pure (subset_append_left _ _))

theorem doesAt_act {i : Item} (hi : ∀ I, K ⊆ I → Act g d c (I, s) (i :: I, s))
    (h : DoesAt g d c (i :: K) x s Q) : DoesAt g d c K x s Q :=
  doesAt_step (J := [i]) rfl hi h

theorem doesAt_bind (hx : DoesAt g d c K x s Q)
    (hf : ∀ a s', x s = .ok a s' → DoesAt g d c (Q a ++ K) (f a) s' R) :
    DoesAt g d c K (x >>= f) s R := by
  intro I hI
  obtain ⟨I1, hacts, hQ⟩ := hx I hI
  unfold after at hacts
  cases hr : x s with
  | ok a s' =>
    rw [hr] at hacts
    obtain ⟨I2, hacts', hR⟩ := hf a s' hr I1
      (append_subset.2 ⟨hQ a s' hr, fun i hi => hacts.subset (hI hi)⟩)
    refine ⟨I2, by rw [after_bind_of_ok hr]; exact hacts.trans hacts', fun b t hb => ?_⟩
    rw [run_bind_of_ok hr] at hb
    exact hR b t hb
  | error e s' =>
    rw [hr] at hacts
    refine ⟨I1, by rwa [after_bind, hr], fun b t hb => ?_⟩
    rw [run_bind_of_error hr] at hb
    cases hb

theorem Does.bind (hx : Does g d c K x Q)
    (hf : ∀ a, Does g d c (Q a ++ K) (f a) R) : Does g d c K (x >>= f) R :=
  fun s => doesAt_bind (hx s) fun a s' _ => hf a s'

theorem does_pure {a : α} (h : Q a ⊆ K) : Does g d c K (pure a) Q := fun _ => doesAt_pure h

theorem does_throw (e : Fault) : Does g d c K (throw e) Q :=
  fun _ => doesAt_stuck rfl fun _ _ hr => nomatch hr

theorem does_throw_bind (e : Fault) (f : α → EmitM β) : Does g d c K (throw e >>= f) R :=
  fun _ => doesAt_stuck rfl fun _ _ hr => nomatch hr

theorem doesAt_get {f : State → EmitM α} (h : DoesAt g d c K (f s) s Q) :
    DoesAt g d c K (get >>= f) s Q := h

theorem does_get {f : State → EmitM α} (h : ∀ s, DoesAt g d c K (f s) s Q) :
    Does g d c K (get >>= f) Q := fun s => doesAt_get (h s)

theorem does_ite {p : Prop} [Decidable p] (hx : p → Does g d c K x Q)
    (hy : ¬p → Does g d c K y Q) : Does g d c K (if p then x else y) Q := by
  split
  · exact hx ‹_›
  · exact hy ‹_›

theorem does_forM {f : β → EmitM PUnit} {bs : List β} (hf : ∀ b ∈ bs, Does g d c K (f b) noItems) :
    Does g d c K (bs.forM f) noItems := by
  induction bs with
  | nil => exact does_pure (nil_subset _)
  | cons b bs ih =>
    obtain ⟨hb, hbs⟩ := forall_mem_cons.1 hf
    exact hb.bind fun _ => ih hbs

theorem Does.dropped (h : Does g d c K x Q) : Does g d c K (discard x) noItems :=
  h.bind fun _ => does_pure (nil_subset _)

end Does

/-! ## Instructions and labels -/

theorem does_emit (hq : ∀ s, Writes K s q) (hinner : (q.isFrame || q.isDecl) = false) :
    Does g d c K (emit q) noItems :=
  fun s => doesAt_of_act rfl fun _ hI => .emit ((hq s).mono hI) (.inr hinner)

theorem doesAt_define (h : Defines K s tag quad) :
    DoesAt g d c K (define tag quad) s fun v => [v.item] :=
  doesAt_of_act (a := { place := ⟨(s.temps + 1 : Nat)⟩, tag }) rfl fun _ hI => .define (h.mono hI)

theorem does_define (h : ∀ s, Defines K s tag quad) :
    Does g d c K (define tag quad) fun v => [v.item] := fun s => doesAt_define (h s)

theorem does_error {n : Notice} (h : ∀ name, n ≠ .undeclared name) :
    Does g d c K (error n) noItems := fun _ => doesAt_of_act rfl fun _ _ => .error (.inr h)

theorem does_warn (kind : Warning) (n : Notice) : Does g d c K (warn kind n) noItems :=
  fun _ => doesAt_of_act rfl fun _ _ => .warn

theorem does_unmark : Does g d c K unmark noItems := fun _ => doesAt_of_act rfl fun _ _ => .unmark

theorem does_temp (tag : Tag) (h : ∀ s, Defines K s tag quad) {f : Temp → EmitM α}
    {Q : α → List Item} (hf : ∀ t, Does g d c (.value t tag :: K) (f t) Q) :
    Does g d c K (newTemp >>= fun t => emit (quad t) >>= fun _ => f t) Q := by
  intro s
  show DoesAt g d c K (define tag quad >>= fun v => f v.place) s Q
  refine doesAt_bind (doesAt_define (h s)) fun v s' hv => ?_
  cases hv
  exact hf _ _

theorem does_branch {q : Target → Quad}
    (hq : q = .jump ∨ ∃ x a, .value x a ∈ K ∧ q = .condJump x) {f : Nat → EmitM α}
    {Q : α → List Item} (hf : ∀ b, Does g d c (.blank b :: K) (f b) Q) :
    Does g d c K (newBlank >>= fun b => emit (q (.blank b)) >>= fun _ => f b) Q := by
  intro s
  refine doesAt_step (J := [.blank (s.blanks + 1)]) (y := f (s.blanks + 1)) rfl
    (fun I hI => .branch (hq.imp_right ?_)) (hf _ _)
  rintro ⟨x, a, hx, rfl⟩
  exact ⟨x, a, hI hx, rfl⟩

theorem does_mark : Does g d c K mark fun l => [.label l] := by
  intro s
  show DoesAt g d c K (if s.marked = true then pure s.labels else _) s _
  cases hm : s.marked with
  | true => exact doesAt_of_act rfl fun _ _ => .marked
  | false => exact doesAt_of_act rfl fun _ _ => .label hm

theorem does_single (hb : .blank b ∈ K) : Does false d true K (single b) noItems :=
  fun _ => doesAt_of_act rfl fun _ hI => .link rfl rfl (hI hb)

theorem does_merge (a b : Chain) : Does g d true K (merge a b) noItems := by
  cases a with
  | empty => exact does_pure (nil_subset _)
  | span first last =>
    cases b with
    | empty => exact does_pure (nil_subset _)
    | span second end_ => exact fun _ => doesAt_of_act rfl fun _ _ => .relink rfl

theorem doesAt_patch
    (hb : b ∈ s.links.toList.map (·.blank) ∨ g = true ∧ b ∈ s.pending.flatMap (·.blanks))
    (hl : .label l ∈ K) : DoesAt g d c K (patch b l) s noItems := by
  refine doesAt_get ?_
  cases h : s.patched.lookup b with
  | some first => exact does_throw _ s
  | none =>
    refine doesAt_of_act (a := ()) ?_ fun I hI => .patch h hb (hI hl)
    refine eq_of_yields ?_
    simp [emit, keepsMark]

theorem does_resolveFrom (hl : .label label ∈ K) (fuel : Nat) (i : Option Nat) :
    Does g d c K (resolveFrom label fuel i) noItems := by
  induction fuel generalizing i with
  | zero => exact does_pure (nil_subset _)
  | succ fuel ih =>
    cases i with
    | none => exact does_pure (nil_subset _)
    | some i =>
      refine does_get fun s => ?_
      cases hi : s.links[i]? with
      | none => exact doesAt_pure (nil_subset _)
      | some l =>
        have hmem : l.blank ∈ s.links.toList.map (·.blank) :=
          mem_map_of_mem (Array.mem_toList_iff.2 (Array.mem_of_getElem? hi))
        exact doesAt_bind (doesAt_patch (.inl hmem) hl) fun _ s' _ => ih l.next s'

theorem does_resolve (l : Chain) (hl : .label label ∈ K) : Does g d c K (resolve l label) noItems :=
  does_get fun s => does_resolveFrom hl _ _ s

theorem does_jumpAhead : Does false d true K jumpAhead noItems :=
  does_branch (.inl rfl) fun _ => does_single mem_cons_self

/-! ## Expressions -/

section Expressions

variable {x y : Value} (op : String)

theorem does_constant {text : String} (h : text = "0" ∨ .numeral text ∈ K) :
    Does g d c K (constant text) fun v => [v.item] := does_define fun _ => .const h

theorem does_cast (hx : x.item ∈ K) (tag : Tag) :
    Does g d c K (cast x tag) fun v => [v.item] := does_define fun _ => .cast hx

theorem isDouble_int : Tag.int.isDouble = false := rfl

theorem isDouble_double : Tag.double.isDouble = true := rfl

theorem isDouble_truncated (x : Value) (s : State) :
    Ensures (truncated x) s fun v _ => v.tag.isDouble = false := by
  unfold truncated
  split
  · rintro v s' ⟨⟩
    exact isDouble_int
  · next h => exact ensures_pure.2 (Bool.not_eq_true _ ▸ h)

theorem does_truncated (hx : x.item ∈ K) : Does g d c K (truncated x) fun v => [v.item] :=
  does_ite (fun _ => does_cast hx .int) fun _ => does_pure (cons_subset.2 ⟨hx, nil_subset _⟩)

theorem does_element {i : Value} (hx : x.item ∈ K) (hi : i.item ∈ K) :
    Does g d c K (element x i) fun v => [v.item] := by
  refine fun s => doesAt_bind (does_truncated hi s) fun j s' hj => doesAt_define ?_
  exact .index (mem_cons_of_mem _ hx) mem_cons_self (isDouble_truncated i s j s' hj)

theorem does_unaryOp (hy : y.item ∈ K) : Does g d c K (unaryOp op y) fun v => [v.item] := by
  unfold unaryOp
  split
  · exact does_ite (fun _ => does_pure (cons_subset.2 ⟨hy, nil_subset _⟩)) fun _ =>
      does_define fun _ => .load hy
  · exact does_define fun _ => .negate hy
  · refine does_ite (fun _ s => ?_) fun h => does_define fun _ => .complement hy (by simpa using h)
    refine doesAt_bind (does_cast hy .int s) fun z s' hz => ?_
    cases hz
    exact doesAt_define (.complement (a := .int) mem_cons_self rfl)
  · exact does_throw _

theorem isDouble_promoted (x y : Value) (s : State) :
    Ensures (promoted x y) s fun p _ => p.1.tag.isDouble = p.2.tag.isDouble := by
  unfold promoted
  split
  · next h =>
    rintro p s' ⟨⟩
    exact (Bool.and_eq_true_iff.1 h).1.trans isDouble_double.symm
  · split
    · next h =>
      rintro p s' ⟨⟩
      exact isDouble_double.trans (Bool.and_eq_true_iff.1 h).2.symm
    · refine ensures_pure.2 ?_
      cases hx : x.tag.isDouble <;> cases hy : y.tag.isDouble <;> simp_all

theorem does_promoted (hx : x.item ∈ K) (hy : y.item ∈ K) :
    Does g d c K (promoted x y) fun p => [p.1.item, p.2.item] := by
  refine does_ite (fun _ => ?_) fun _ => does_ite (fun _ => ?_) fun _ => ?_
  · refine (does_warn _ _).bind fun _ => (does_cast hy .double).bind fun z => ?_
    exact does_pure (by simp [hx])
  · refine (does_warn _ _).bind fun _ => (does_cast hx .double).bind fun z => ?_
    exact does_pure (by simp [hy])
  · exact does_pure (by simp [hx, hy])

theorem does_arithOp (hx : x.item ∈ K) (hy : y.item ∈ K) :
    Does g d c K (arithOp op x y) fun v => [v.item] := by
  refine does_ite (fun _ => does_throw_bind _ _) fun hop s => ?_
  refine doesAt_bind (does_promoted hx hy s) fun p s' hp => ?_
  have hdefine : ∀ {K'}, p.1.item ∈ K' → p.2.item ∈ K' → Does g d c K' (define p.1.tag.base
      fun dst => .binary .arith dst op p.1.place p.2.place p.1.tag.base) fun v => [v.item] :=
    fun h h' => does_define fun _ =>
      .arith (Decidable.not_not.1 hop) h h' (isDouble_promoted x y s p s' hp)
  refine does_ite (fun _ => ?_) (fun _ => hdefine (by simp) (by simp)) s'
  exact (does_error (by simp)).bind fun _ => hdefine (by simp) (by simp)

theorem does_bitwiseOp (hx : x.item ∈ K) (hy : y.item ∈ K) :
    Does g d c K (bitwiseOp op x y) fun v => [v.item] := by
  refine does_ite (fun _ => does_throw_bind _ _) fun hop s => ?_
  refine doesAt_bind (does_truncated hx s) fun x' s1 hx' => ?_
  refine doesAt_bind (does_truncated (mem_cons_of_mem _ hy) s1) fun y' s2 hy' => doesAt_define ?_
  exact .bitwise (Decidable.not_not.1 hop) (a := x'.tag) (b := y'.tag) (by simp [Value.item])
    (by simp [Value.item]) (isDouble_truncated x s x' s1 hx') (isDouble_truncated y s1 y' s2 hy')

theorem does_branchOn {dst : Temp} (hdst : .value dst .int ∈ K) :
    Does false d true K (branchOn dst) fun v => [v.item] := by
  refine does_branch (.inr ⟨dst, .int, hdst, rfl⟩) fun t => does_branch (.inl rfl) fun f => ?_
  refine (does_single (by simp)).bind fun _ => (does_single (by simp [noItems])).bind
    fun _ => does_pure (by simp [Value.item, noItems, hdst])

theorem does_relation (hx : x.item ∈ K) (hy : y.item ∈ K) :
    Does false d true K (relation op x y) fun v => [v.item] := by
  refine does_ite (fun _ => does_throw_bind _ _) fun hop s => ?_
  refine doesAt_bind (does_promoted hx hy s) fun p s' hp => ?_
  exact does_temp .int (fun _ => .compare (Decidable.not_not.1 hop) (a := p.1.tag)
    (b := p.2.tag) (by simp [Value.item]) (by simp [Value.item])
    (isDouble_promoted x y s p s' hp)) (fun dst => does_branchOn mem_cons_self) s'

theorem isDouble_converted (tag : Tag) (y : Value) (s : State) :
    Ensures (converted tag y) s fun v _ => tag.isDouble = v.tag.isDouble := by
  unfold converted
  split
  · next h =>
    rintro v s' ⟨⟩
    exact (Bool.not_eq_true' _ ▸ (Bool.and_eq_true_iff.1 h).1).trans isDouble_int.symm
  · split
    · next h =>
      rintro v s' ⟨⟩
      exact (Bool.and_eq_true_iff.1 h).1.trans isDouble_double.symm
    · refine ensures_pure.2 ?_
      cases hx : tag.isDouble <;> cases hy : y.tag.isDouble <;> simp_all

theorem does_converted (tag : Tag) (hy : y.item ∈ K) :
    Does g d c K (converted tag y) fun v => [v.item] :=
  does_ite (fun _ => does_cast hy _) fun _ => does_ite (fun _ => does_cast hy _) fun _ =>
    does_pure (cons_subset.2 ⟨hy, nil_subset _⟩)

theorem does_assign (hx : x.item ∈ K) (hy : y.item ∈ K) :
    Does g d c K (assign op x y) fun v => [v.item] := by
  have hassigned : Does g d c K (assigned op x y) fun v => [v.item] := by
    refine does_ite (fun _ => does_pure (cons_subset.2 ⟨hy, nil_subset _⟩)) fun _ s => ?_
    refine doesAt_act (fun _ hI => .view (hI hx)) ?_
    refine Does.bind (does_unaryOp (y := { place := x.place, tag := x.tag.without .array }) "@"
      mem_cons_self) (fun current => ?_) s
    exact does_ite (fun _ => does_bitwiseOp op (by simp) (by simp [hy])) fun _ =>
      does_arithOp op (by simp) (by simp [hy])
  refine hassigned.bind fun z s => ?_
  refine doesAt_bind (does_converted _ mem_cons_self s) fun v s' hv => doesAt_define ?_
  exact .store (mem_cons_of_mem _ (mem_cons_of_mem _ hx)) mem_cons_self
    (isDouble_converted _ z s v s' hv)

theorem does_newRow (room : Nat) {values : List Value}
    (h : ∀ v ∈ values, v.item ∈ K ∨ ∃ r ∈ s.rows.toList, v ∈ r.values) :
    DoesAt g d c K (newRow room values) s noItems := by
  refine doesAt_of_act rfl fun I hI => .rows fun r hr v hv => ?_
  rcases mem_append.1 (Array.toList_push ▸ hr) with hr | hr
  · exact .inr ⟨r, hr, hv⟩
  · rw [mem_singleton.1 hr] at hv
    exact (h v hv).imp_left fun h => hI h

theorem does_appendArg (args : ArgList) (hx : x.item ∈ K) :
    Does g d c K (appendArg args x) noItems := by
  refine does_unmark.bind fun _ => ?_
  cases args with
  | empty => exact fun s => does_newRow _ (forall_mem_singleton.2 (.inl hx))
  | span row size =>
    refine does_get fun s => ?_
    show DoesAt g d c K (if _ then _ else _) s noItems
    split
    · -- the value takes the first free place of the row, or that of another one
      refine doesAt_bind (Q := noItems) (doesAt_of_act rfl fun I hI => .rows fun r hr v hv => ?_)
        fun _ _ _ => doesAt_pure (nil_subset _)
      rw [Array.toList_modify] at hr
      obtain ⟨i, hi⟩ := mem_iff_getElem?.1 hr
      rw [getElem?_modify] at hi
      obtain ⟨r', hr', rfl⟩ := Option.map_eq_some_iff.1 hi
      have hold : v ∈ r'.values → ∃ r ∈ s.rows.toList, v ∈ r.values :=
        fun h => ⟨r', mem_of_getElem? hr', h⟩
      split at hv
      · rcases mem_append.1 hv with hv | hv
        · exact .inr (hold (mem_of_mem_take hv))
        · rcases mem_cons.1 hv with rfl | hv
          · exact .inl (hI hx)
          · exact .inr (hold (mem_of_mem_drop hv))
      · exact .inr (hold hv)
    · refine does_newRow _ (forall_mem_append.2 ⟨fun v hv => .inr ?_,
        forall_mem_singleton.2 (.inl hx)⟩)
      cases hrow : s.rows[row]? with
      | none =>
        rw [hrow] at hv
        cases mem_of_mem_take hv
      | some r =>
        rw [hrow] at hv
        exact ⟨r, Array.mem_toList_iff.2 (Array.mem_of_getElem? hrow), mem_of_mem_take hv⟩

theorem mem_rows_of_argsOf {args : ArgList} {v : Value} (hv : v ∈ s.argsOf args) :
    ∃ r ∈ s.rows.toList, v ∈ r.values := by
  cases args with
  | empty => cases hv
  | span row size =>
    cases hrow : s.rows[row]? with
    | none => simp [State.argsOf, hrow] at hv
    | some r =>
      simp only [State.argsOf, hrow] at hv
      exact ⟨r, Array.mem_toList_iff.2 (Array.mem_of_getElem? hrow), mem_of_mem_take hv⟩

theorem does_condition (hx : x.item ∈ K) :
    Does false d true K (condition x) fun v => [v.item] := by
  refine does_unmark.bind fun _ => (does_constant (.inl rfl)).bind fun zero => ?_
  exact does_relation _ (by simp [hx]) (by simp)

/-! ## Names -/

variable {m : Int}

theorem does_calleeEntry (hname : .name name ∈ K) :
    Does g true c K (calleeEntry name) fun id => [.entry id] := by
  refine does_get fun s => ?_
  cases hid : s.table.lookupGlobal? name with
  | some id => exact doesAt_of_act rfl fun _ _ => .find (.inr hid)
  | none =>
    refine doesAt_bind (does_warn _ _ s) fun _ s' _ => ?_
    refine doesAt_of_act rfl fun I hI => .declare rfl (hI hname) ?_ (.inl rfl) (.inl rfl)
    exact fun N level hN k _ _ => ⟨hN, .inl ⟨rfl, rfl⟩, fun _ => rfl⟩

theorem doesAt_argsOf {e : EmitM α} {Q : α → List Item} (args : ArgList)
    (h : DoesAt g d c ((s.argsOf args).map Value.item ++ K) e s Q) : DoesAt g d c K e s Q := by
  have hall : ∀ vs : List Value, vs ⊆ s.argsOf args →
      DoesAt g d c (vs.map Value.item ++ K) e s Q → DoesAt g d c K e s Q := by
    intro vs hvs h
    induction vs with
    | nil => exact h
    | cons v vs ih =>
      obtain ⟨hv, hvs⟩ := cons_subset.1 hvs
      obtain ⟨r, hr, hv⟩ := mem_rows_of_argsOf hv
      exact ih hvs (doesAt_act (fun _ _ => .fetch hr hv) h)
  exact hall _ (fun _ => id) h

theorem does_call (hname : .name name ∈ K) (args : ArgList) :
    Does g true c K (call name args) fun v => [v.item] := by
  refine (does_calleeEntry hname).bind fun id => does_get fun s => ?_
  refine doesAt_act (fun _ hI => .look (hI mem_cons_self)) (does_get (fun s => ?_) s)
  refine doesAt_argsOf args (Does.bind (Q := noItems) (does_forM fun a ha => ?_) (fun _ => ?_) s)
  · exact does_emit (fun _ => .arg (mem_append_left _ (mem_map_of_mem ha))) rfl
  · refine does_temp .int (fun _ => .callee (by simp)) fun callee => does_define fun _ => ?_
    refine .call mem_cons_self fun t ht => ?_
    obtain ⟨v, hv, rfl⟩ := mem_map.1 ht
    exact ⟨v.tag, mem_cons_of_mem _ (mem_append_right _ (mem_append_left _ (mem_map_of_mem hv)))⟩

theorem does_declareForgotten (hname : .name name ∈ K) :
    Does g true c K (declareForgotten name) fun id => [.entry id] := by
  intro s
  refine doesAt_step (J := [.entry s.table.entries.size]) (y := do
      if (← get).headed then emit (.localDecl ⟨name, .int, Tag.int.size⟩)
      return s.table.entries.size) ?_ (fun I hI => .declare (n := s.table.level)
      (f := fun e => { e with
        kind := .var, storage := .stack, tag := .int, count := 1, defined := true
        offset := s.locals.length })
      (r := s.report.error s.pos (Notice.undeclared name).message) rfl (hI hname) ?_ (.inl rfl)
      (.inr rfl)) (does_get (fun t => ?_) _)
  · rfl
  · exact fun N level hN k _ hk => ⟨hN, .inr ⟨.inr rfl, Int.natCast_nonneg _, by
      show (s.locals.length : Int) ≤ _
      omega⟩, nofun⟩
  · refine does_ite (fun _ => ?_) (fun _ => does_pure (by simp)) t
    refine Does.bind (Q := noItems) (fun s => doesAt_of_act rfl fun _ hI =>
      .emit (.forgotten (hI (by simp [hname]))) (.inl rfl)) fun _ => does_pure (by simp)

theorem does_ref {id : EntryId} (h : .entry id ∈ K) : Does g d c K (do
    let e := (← get).table.entry id
    define (e.tag.union .address) fun dst => .ref dst e.storage e.name e.offset)
    fun v => [v.item] := does_get fun _ => doesAt_define (.ref h)

theorem does_variableRef (hname : .name name ∈ K) :
    Does g true c K (variableRef name) fun v => [v.item] := by
  refine does_get fun s => ?_
  cases hid : s.table.lookup? name with
  | some id => exact doesAt_act (fun _ _ => .find (.inl hid)) (does_ref mem_cons_self s)
  | none => exact (does_declareForgotten hname).bind (fun id => does_ref mem_cons_self) s

theorem does_both (x y : Value) (hm : .label m ∈ K) : Does g d true K (both x m y) noItems :=
  does_unmark.bind fun _ => (does_resolve _ hm).bind fun _ => (does_merge _ _).bind fun _ =>
    does_pure (nil_subset _)

theorem does_either (x y : Value) (hm : .label m ∈ K) : Does g d true K (either x m y) noItems :=
  does_unmark.bind fun _ => (does_resolve _ hm).bind fun _ => (does_merge _ _).bind fun _ =>
    does_pure (nil_subset _)

theorem does_negated (v : Value) : Does g d c K (negated v) noItems :=
  does_unmark.bind fun _ => does_pure (nil_subset _)

end Expressions

section Declarations

variable (hname : .name name ∈ K)

include hname

theorem does_declareGlobal (tag : Tag) (count : Int) :
    Does g true c K (declareGlobal name tag count) fun id => [.entry id] := by
  intro s
  obtain ⟨_, _, hrun, rfl, r, -, rfl⟩ := yields_declareGlobal name tag count s
  let T := (s.table.installAt name 0).2.modifyEntry s.table.entries.size
    (asVariable .global tag count)
  let q : Quad := .globalDecl
    ⟨name, (T.entry s.table.entries.size).tag, Numeral.wrap64 (count * tag.size)⟩
  have hemit : DoesAt g true c (.entry s.table.entries.size :: K)
      (emit q >>= fun _ => pure s.table.entries.size) { s with table := T, report := r }
      fun id => [.entry id] :=
    doesAt_bind (Q := noItems) (doesAt_of_act rfl fun I hI => .emit (.globalDecl
      (hI (mem_cons_of_mem _ hname))) (.inl rfl)) fun _ _ _ => doesAt_pure (by simp)
  refine doesAt_step (J := [.entry s.table.entries.size]) ?_
    (fun I hI => .declare rfl (hI hname) ?_ (.inl rfl) (.inl rfl)) hemit
  · rw [hrun, ← Bool.and_false s.marked]
    rfl
  · exact fun N level hN k _ _ => ⟨hN, .inl ⟨rfl, rfl⟩, nofun⟩

theorem doesAt_declareSlot {x : EmitM EntryId} {storage : Storage} {r : Report}
    (hstorage : storage = .param ∨ storage = .stack) {count : Int} {place : Nat}
    {formals locals : List EntryId} (hplace : place ≤ max s.formals.length s.locals.length)
    (hformals : formals = s.formals ∨ formals = s.formals ++ [s.table.entries.size])
    (hlocals : locals = s.locals ∨ locals = s.locals ++ [s.table.entries.size])
    (hrun : x s = .ok s.table.entries.size { s with
      table := (s.table.install name).2.modifyEntry s.table.entries.size fun e =>
        { asVariable storage tag count e with offset := place }
      report := r, formals, locals }) :
    DoesAt g true c K x s fun id => [.entry id] := by
  refine doesAt_of_act hrun fun I hI => .declare rfl (hI hname) ?_ hformals hlocals
  exact fun N level hN k _ _ => ⟨hN, .inr ⟨hstorage, Int.natCast_nonneg place,
    by show (place : Int) ≤ _; omega⟩, nofun⟩

theorem does_declareFormal (tag : Tag) :
    Does g true c K (declareFormal name tag) fun id => [.entry id] := by
  intro s
  rcases declareInFunc_cases name s with ⟨-, hrun⟩ | ⟨-, _, _, hrun, rfl, r, -, rfl⟩
  · exact doesAt_of_error (run_bind_of_error hrun)
  · exact doesAt_declareSlot hname (.inl rfl) (le_max_left _ _) (.inr rfl) (.inl rfl)
      ((run_bind_of_ok hrun).trans rfl)

theorem does_declareLocal (tag : Tag) (count : Int) :
    Does g true c K (declareLocal name tag count) fun id => [.entry id] := by
  intro s
  rcases declareInFunc_cases name s with ⟨-, hrun⟩ | ⟨-, _, _, hrun, rfl, r, -, rfl⟩
  · exact doesAt_of_error (run_bind_of_error hrun)
  · exact doesAt_declareSlot hname (.inr rfl) (le_max_right _ _) (.inl rfl) (.inr rfl)
      ((run_bind_of_ok hrun).trans rfl)

theorem does_openFunction (tag : Tag) :
    Does true true c K (openFunction tag name) fun id => [.entry id] := by
  intro s I hI
  let s1 : State := { s with
    table := s.table.enter, declared := [], pending := [], formals := [], locals := []
    headed := false }
  obtain ⟨id, _, hrun, T, r, rfl, htable, -⟩ := yields_functionEntry name tag.base s1
  have hopen : openFunction tag name s = .ok id { s1 with
      table := T.modifyEntry id fun e => { e with
        kind := .func, storage := .global, tag := tag.base, defined := true, implicit := false }
      report := r, func := some id } := by
    show (functionEntry name tag.base >>= _) s1 = _
    rw [run_bind_of_ok hrun]
    rfl
  have hentry : Act true true c (I, s1) (.entry id :: I, { s1 with
      table := T.modifyEntry id fun e => { e with
        kind := .func, storage := .global, tag := tag.base, defined := true, implicit := false }
      report := r }) := by
    rcases htable with ⟨rfl, rfl⟩ | ⟨rfl, hid, hkind⟩
    · refine .declare rfl (hI hname) (fun N level hN k _ _ => ?_) (.inl rfl) (.inl rfl)
      exact ⟨hN, .inl ⟨rfl, rfl⟩, fun _ => rfl⟩
    · exact .redeclare rfl hid hkind
  refine ⟨.entry id :: I, ?_, fun a s' ha => ?_⟩
  · rw [after_of_ok hopen]
    exact .head (.fresh rfl rfl) (.head hentry (.single (.function rfl)))
  · cases hopen.symm.trans ha
    simp

end Declarations

theorem acts_emit {qs : List Quad} (hqs : ∀ q ∈ qs, Writes I s q) :
    Acts g true c (I, s) (I, { s with
      code := s.code ++ qs.toArray, marked := s.marked && qs.all keepsMark }) := by
  induction qs generalizing s with
  | nil => simpa using Relation.ReflTransGen.refl
  | cons q qs ih =>
    obtain ⟨hq, hqs⟩ := forall_mem_cons.1 hqs
    have hpush : s.code ++ (q :: qs).toArray = s.code.push q ++ qs.toArray := by
      rw [← Array.toList_inj]
      simp
    rw [all_cons, ← Bool.and_assoc, hpush]
    refine .head (.emit hq (.inl rfl)) (ih fun r hr => ?_)
    cases hqs r hr <;> constructor <;> assumption

theorem does_beginFunction {id : Option EntryId} (hid : ∀ k ∈ id, .entry k ∈ K) :
    Does g true c K (beginFunction id) noItems := by
  cases id with
  | none => exact does_throw _
  | some id =>
    intro s I hI
    refine ⟨I, ?_, fun _ _ _ => nil_subset _⟩
    rw [after_of_ok (beginFunction_eq id s)]
    have hacts := acts_emit (g := g) (c := c) (s := s) (forall_mem_cons.2
      ⟨.funcBegin (hI (hid id rfl)), fun q hq => .storage hq⟩)
    simp only [all_cons, keepsMark, Bool.false_and, Bool.and_false] at hacts
    exact hacts.tail (.function rfl)

theorem does_endFunction : Does true true c K endFunction noItems := by
  refine Does.bind (Q := noItems) (fun s => doesAt_of_act rfl fun _ _ => .emit .funcEnd (.inl rfl))
    fun _ => does_get fun s => does_ite (fun _ => does_throw_bind _ _) (fun _ => ?_) s
  refine Does.bind (Q := noItems) (fun s => doesAt_of_act rfl fun _ _ => .leave rfl (.inl rfl))
    fun _ => (does_forM fun _ _ => does_error (by simp)).bind fun _ s => ?_
  exact doesAt_step (J := []) (y := modify fun s => { s with func := none, headed := false }) rfl
    (fun _ _ => .record (w := []) (d := []) rfl (by simp) (by simp))
    (doesAt_of_act rfl fun _ _ => .function rfl)

/-! ## Statements -/

theorem does_beginStmt {line : Int} (h : .line line ∈ K) :
    Does g d c K (beginStmt line) noItems :=
  Does.bind (Q := noItems) (fun _ => doesAt_of_act rfl fun _ _ => .position) fun _ =>
    does_emit (fun _ => .stmtBegin h) rfl

theorem does_openLoop : Does g true c K openLoop noItems := by
  refine does_get fun s => does_ite (fun _ => does_throw_bind _ _) (fun _ s => ?_) s
  exact doesAt_of_act rfl fun _ _ => .enter rfl

theorem does_endLoop : Does g true c K endLoop noItems := by
  refine does_get fun s => ?_
  cases hs : s.loops with
  | nil => exact does_throw _ s
  | cons scope outer => exact doesAt_of_act rfl fun _ _ => .leave rfl (.inr (by rw [hs]; rfl))

theorem does_innermost : Does g d c K innermost noItems := by
  refine does_get fun s => ?_
  cases s.loops with
  | nil => exact does_throw _ s
  | cons scope outer => exact doesAt_pure (nil_subset _)

theorem does_closeLoop {a b : Int} (ha : .label a ∈ K) (hb : .label b ∈ K) :
    Does g true c K (closeLoop a b) noItems :=
  does_innermost.bind fun _ => (does_resolve _ ha).bind fun _ => (does_resolve _ hb).bind fun _ =>
    does_endLoop

theorem does_setInnermost (f : LoopScope → LoopScope) :
    Does g d true K (setInnermost f) noItems := by
  intro s
  cases h : s.loops with
  | nil =>
    have hrun : setInnermost f s = .ok () s := eq_of_yields (by simp [setInnermost, h])
    exact doesAt_stuck (after_of_ok hrun) fun _ _ _ => nil_subset _
  | cons scope outer =>
    have hrun : setInnermost f s = .ok () { s with loops := f scope :: outer } :=
      eq_of_yields (by simp [setInnermost, h])
    exact doesAt_of_act hrun fun _ _ => .innermost rfl (by simp [h])

theorem does_breakStmt : Does false d true K breakStmt noItems := by
  refine does_get fun s => ?_
  cases s.loops with
  | nil => exact does_error (by simp) s
  | cons scope outer =>
    exact (does_jumpAhead.bind fun _ => (does_merge _ _).bind fun _ => does_setInnermost _) s

theorem does_continueStmt : Does false d true K continueStmt noItems := by
  refine does_get fun s => ?_
  cases s.loops with
  | nil => exact does_error (by simp) s
  | cons scope outer =>
    exact (does_jumpAhead.bind fun _ => (does_merge _ _).bind fun _ => does_setInnermost _) s

theorem does_pendingFor (name : String) : Does true d c K (pendingFor name) noItems := by
  refine does_get fun s => ?_
  cases s.pending.find? (·.name == name) with
  | some p => exact doesAt_pure (nil_subset _)
  | none =>
    show DoesAt true d c K (if _ then _ else _) s noItems
    split
    · exact does_throw_bind _ _ s
    · refine doesAt_of_act rfl fun _ _ => .record rfl (fun p hp b hb => .inl ?_) fun _ => .inl
      rcases mem_append.1 hp with hp | hp
      · exact mem_flatMap.2 ⟨p, hp, hb⟩
      · rw [mem_singleton.1 hp] at hb
        cases hb

theorem does_setPending {f : PendingLabel → PendingLabel}
    (hf : ∀ p, ∀ b ∈ (f p).blanks, b ∈ p.blanks ∨ .blank b ∈ K) (name : String) :
    Does true d c K (setPending name f) noItems := by
  refine fun s => doesAt_of_act rfl fun I hI => .record rfl (fun q hq b hb => ?_) fun _ => .inl
  obtain ⟨p, hp, rfl⟩ := mem_map.1 hq
  have hold : b ∈ p.blanks → b ∈ s.pending.flatMap (·.blanks) := fun h => mem_flatMap.2 ⟨p, hp, h⟩
  split at hb
  · exact (hf p b hb).imp hold fun h => hI h
  · exact .inl (hold hb)

theorem does_gotoStmt (name : String) : Does true d c K (gotoStmt name) noItems := by
  refine does_get fun s => ?_
  cases hl : s.declared.lookup name with
  | some l => exact doesAt_of_act rfl fun _ _ => .emit (.goto hl) (.inr rfl)
  | none =>
    refine does_branch (.inl rfl) (fun b => ?_) s
    refine (does_pendingFor name).bind fun p => does_get fun s => ?_
    refine does_ite (fun _ => does_throw_bind _ _) (fun _ => ?_) s
    refine does_setPending (fun p c hc => (mem_append.1 hc).imp_right fun h => ?_) name
    rw [mem_singleton.1 h]
    simp

theorem pending_of_patch (h : patch b l s = .ok () s') : s'.pending = s.pending := by
  have hy : Yields (patch b l) s fun _ t => t = s' := ⟨_, _, h, rfl⟩
  simp only [patch, emit, yields_bind, yields_get] at hy
  cases hl : s.patched.lookup b with
  | some first => simp [hl] at hy
  | none =>
    simp only [hl, yields_bind, yields_modify] at hy
    rw [← hy]

theorem doesAt_forM_patch {bs : List Nat} (hbs : ∀ b ∈ bs, b ∈ s.pending.flatMap (·.blanks))
    (hl : .label l ∈ K) : DoesAt true d c K (bs.forM fun b => patch b l) s noItems := by
  induction bs generalizing s with
  | nil => exact doesAt_pure (nil_subset _)
  | cons b bs ih =>
    obtain ⟨hb, hbs⟩ := forall_mem_cons.1 hbs
    exact doesAt_bind (doesAt_patch (.inr ⟨rfl, hb⟩) hl) fun _ s' hs' =>
      ih (pending_of_patch hs' ▸ hbs)

theorem does_labelStmt (name : String) : Does true d c K (labelStmt name) noItems := by
  refine does_get fun s => does_ite (fun _ => does_error (by simp)) (fun _ => ?_) s
  refine does_mark.bind fun l => does_unmark.bind fun _ => ?_
  refine Does.bind (Q := noItems) (fun t => doesAt_of_act rfl fun I hI => .record rfl
    (fun p hp b hb => .inl (mem_flatMap.2 ⟨p, hp, hb⟩)) ?_) fun _ => does_get fun t => ?_
  · exact forall_mem_cons.2 ⟨.inr (hI (by simp)), fun _ => .inl⟩
  cases hp : t.pending.find? (·.name == name) with
  | none => exact doesAt_pure (nil_subset _)
  | some p =>
    have hblanks : ∀ b ∈ p.blanks, b ∈ t.pending.flatMap (·.blanks) := fun b hb =>
      mem_flatMap.2 ⟨p, mem_of_find?_eq_some hp, hb⟩
    exact doesAt_bind (doesAt_forM_patch hblanks (by simp)) fun _ _ _ =>
      does_setPending (f := ({ · with declared := true })) (fun _ _ => .inl) name _

theorem does_returnStmt {v : Option Value} (hv : ∀ x ∈ v, x.item ∈ K) :
    Does g d c K (returnStmt v) noItems := by
  refine does_get fun s => ?_
  cases s.func with
  | none => exact does_throw _ s
  | some id =>
    refine does_get (fun t => ?_) s
    cases v with
    | none => exact does_emit (fun _ => .ret) rfl t
    | some v =>
      have hv := hv v rfl
      show DoesAt g d c K (if _ then _ else _) t noItems
      split
      · next h => exact does_emit (fun _ => .retValue hv (by simpa using h)) rfl t
      · next h =>
        refine doesAt_bind (does_cast hv _ t) fun x t' hx => ?_
        cases hx
        exact does_emit (fun _ => .retValue mem_cons_self rfl) rfl _

/-- Others may put any table in place of the one at hand. -/
theorem does_perform {op : Op} (hop : op.table? = none) :
    Does op.jumps (!op.isQuiet) op.links op.items op.perform noItems := by
  cases op with
  | share => cases hop
  | setFile => exact fun _ => doesAt_of_act rfl fun _ _ => .position
  | mark => exact does_mark.dropped
  | jumpAhead => exact does_jumpAhead.dropped
  | beginStmt line => exact does_beginStmt (by simp)
  | declareGlobal => exact (does_declareGlobal (by simp) _ _).dropped
  | declareFormal => exact (does_declareFormal (by simp) _).dropped
  | declareLocal => exact (does_declareLocal (by simp) _ _).dropped
  | openFunction => exact (does_openFunction (by simp) _).dropped
  | beginFunction => exact does_beginFunction (by simp +contextual)
  | endFunction => exact does_endFunction
  | constant => exact (does_constant (.inr (by simp))).dropped
  | stringLiteral => exact (does_define fun _ => .string (by simp)).dropped
  | variableRef => exact (does_variableRef (by simp)).dropped
  | element => exact (does_element (by simp) (by simp)).dropped
  | unaryOp => exact (does_unaryOp _ (by simp)).dropped
  | arithOp => exact (does_arithOp _ (by simp) (by simp)).dropped
  | bitwiseOp => exact (does_bitwiseOp _ (by simp) (by simp)).dropped
  | relation => exact (does_relation _ (by simp) (by simp)).dropped
  | assign => exact (does_assign _ (by simp) (by simp)).dropped
  | cast => exact (does_cast (by simp) _).dropped
  | appendArg => exact (does_appendArg _ (by simp)).dropped
  | call => exact (does_call (by simp) _).dropped
  | condition => exact (does_condition (by simp)).dropped
  | both => exact (does_both _ _ (by simp)).dropped
  | either => exact (does_either _ _ (by simp)).dropped
  | negated => exact (does_negated _).dropped
  | ifStmt => exact (does_resolve _ (by simp)).bind fun _ => does_resolve _ (by simp)
  | ifElseStmt =>
    exact (does_resolve _ (by simp)).bind fun _ => (does_resolve _ (by simp)).bind fun _ =>
      does_resolve _ (by simp)
  | whileStmt =>
    exact (does_resolve _ (by simp)).bind fun _ => (does_resolve _ (by simp)).bind fun _ =>
      (does_resolve _ (by simp)).bind fun _ => does_closeLoop (by simp) (by simp)
  | doStmt =>
    exact (does_resolve _ (by simp)).bind fun _ => (does_resolve _ (by simp)).bind fun _ =>
      does_closeLoop (by simp) (by simp)
  | forStmt =>
    exact (does_resolve _ (by simp)).bind fun _ => (does_resolve _ (by simp)).bind fun _ =>
      (does_resolve _ (by simp)).bind fun _ => (does_resolve _ (by simp)).bind fun _ =>
        does_closeLoop (by simp) (by simp)
  | openLoop => exact does_openLoop
  | endLoop => exact does_endLoop
  | breakStmt => exact does_breakStmt
  | continueStmt => exact does_continueStmt
  | gotoStmt name => exact does_gotoStmt name
  | labelStmt name => exact does_labelStmt name
  | returnStmt v => exact does_returnStmt (by simp +contextual)

end Emit

end Quadruple
