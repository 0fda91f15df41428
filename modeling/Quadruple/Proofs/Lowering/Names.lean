import Quadruple.Proofs.Lowering.Effects
import Quadruple.Proofs.Symbols.Meaning

/-!
# Names in lowering

What the steps that look at the table or change it do, in terms of what names stand for: references,
calls, the slots of a function, and the declarations at the start of a program.
-/

namespace Quadruple.Lowering

open Quadruple.Flow (Graph Func)
open List
open Symbols (Entry EntryId Table)

def State.over (s : State) (T : Table) (r : Report) : State := { s with table := T, report := r }

section Runs

variable {β : Type}

theorem run_getEntry_bind (id : EntryId) (f : Entry → LowerM β) (s : State) :
    (getEntry id >>= f) s = f (s.table.entry id) s := rfl

end Runs

theorem run_binding (t : Temp) (s : State) : binding t s = match s.bindings.lookup t with
    | some b => .ok b s
    | none => .error (.undefinedTemp t s.func) s := by
  show (match s.bindings.lookup t with
    | some b => pure b
    | none => throw (Fault.undefinedTemp t s.func) : LowerM Binding) s = _
  cases s.bindings.lookup t <;> rfl

/-! ## References -/

def globalBinding (name : String) : Option Entry → Binding
  | none => functionBinding name
  | some e => match e.kind, e.handle with
    | .func, _ | _, none => functionBinding name
    | _, some handle => variableBinding e handle

theorem run_lowerRef_global (name : String) (s : State) :
    lowerRef .global name s = .ok (globalBinding name (s.table.global? name)) s := by
  rw [lowerRef, run_get_bind, if_pos rfl, Table.global?]
  cases s.table.lookupGlobal? name with
  | none => rfl
  | some id =>
    dsimp only [Option.map_some, globalBinding, Entry.face]
    cases (s.table.entry id).kind <;> cases (s.table.entry id).handle <;> rfl

theorem run_lowerRef_local {storage : Storage} (hstorage : storage ≠ .global) (name : String)
    (s : State) : lowerRef storage name s =
      match ((s.table.local? name).or (s.table.global? name)).bind
          fun e => e.handle.map (variableBinding e) with
      | some b => .ok b s
      | none => .error (.unknownRef storage name s.func) s := by
  rw [← Table.lookup?_face, lowerRef, run_get_bind, if_neg hstorage]
  cases s.table.lookup? name with
  | none => rfl
  | some id =>
    dsimp only [Option.map_some, Option.bind_some, Entry.face]
    cases (s.table.entry id).handle <;> rfl

/-! ## Calls -/

def callThrough (dst : Temp) (handle : Ir.Value) (e : Entry) (args : List Temp) : LowerM Unit := do
  declareForeign e
  checkCount e args.length
  addCall dst handle e.elem args

theorem callThrough_face {e : Entry} (he : e.kind = .func) (dst : Temp) (handle : Ir.Value)
    (args : List Temp) : callThrough dst handle e.face args = callThrough dst handle e args := by
  have hv : e.face.variadic = e.variadic := by simp [Entry.face, he]
  have hf : e.face.fixed = e.fixed := by simp [Entry.face, he]
  simp only [callThrough, declareForeign, checkCount, hv, hf]
  rfl

variable {s : State} {name : String} {b : Binding} {v : Entry} {args : List Temp}
  {callee dst : Temp} {T : Table} {g : Graph}

variable {id : EntryId} {p : Ir.Value} {d : String × (Entry → Entry)} {n : String}

theorem run_calleeEntry_known (hid : s.table.lookupGlobal? name = some id)
    (hk : (s.table.entry id).kind = .func) (k : Nat) : calleeEntry name k s = .ok id s := by
  have hfilter : (s.table.lookupGlobal? name).filter
      (fun id => decide ((s.table.entry id).kind = .func)) = some id := by
    rw [hid]
    exact Option.filter_eq_some_iff.2 ⟨rfl, decide_eq_true hk⟩
  rw [calleeEntry, run_get_bind, hfilter]
  rfl

theorem run_calleeHandle_placed (hp : (s.table.entry id).handle = some p) (name : String) :
    calleeHandle id name s = .ok p s := by
  rw [calleeHandle, run_getEntry_bind, hp]
  rfl

theorem run_lowerCall_known (hb : s.bindings.lookup callee = some b) (hname : b.callee = some name)
    (hv : s.table.global? name = some v) (hk : v.kind = .func)
    (hp : v.handle = some p) : lowerCall dst callee args s = callThrough dst p v args s := by
  obtain ⟨id, hid, rfl⟩ := Option.map_eq_some_iff.1 hv
  replace hk : (s.table.entry id).kind = .func := hk
  have hbinding : binding callee s = .ok b s := by rw [run_binding, hb]
  rw [callThrough_face hk, lowerCall, run_bind_of_ok hbinding, hname]
  show (calleeEntry name args.length >>= _) s = _
  rw [run_bind_of_ok (run_calleeEntry_known hid hk _),
    run_bind_of_ok (run_calleeHandle_placed hp name)]
  rfl

theorem global?_declareImplicit (hT : T.Tidy) (name n : String) (k : Nat) :
    (declareImplicit T name k).global? n = if n = name then
      some (implicitEntry name k { name, level := 0 }).face else T.global? n :=
  Table.global?_installAt hT.sound _

theorem run_calleeEntry_new (hv : s.table.global? name = none) (k : Nat) :
    calleeEntry name k s = .ok s.table.entries.size (s.over (declareImplicit s.table name k)
      (s.report.warn .implicitDecl s.pos (Notice.implicitFunction name).message)) := by
  have hfilter : (s.table.lookupGlobal? name).filter
      (fun id => decide ((s.table.entry id).kind = .func)) = none := by
    rw [Option.map_eq_none_iff.1 hv]
    rfl
  rw [calleeEntry, run_get_bind, hfilter]
  rfl

theorem run_lowerCall_new (hb : s.bindings.lookup callee = some b) (hname : b.callee = some name)
    (hv : s.table.global? name = none) : lowerCall dst callee args s =
      callThrough dst (.global name) (implicitEntry name args.length { name, level := 0 }).face args
        (s.over (declareImplicit s.table name args.length)
          (s.report.warn .implicitDecl s.pos (Notice.implicitFunction name).message)) := by
  let e := implicitEntry name args.length { name, level := 0 }
  let s1 := s.over (declareImplicit s.table name args.length)
    (s.report.warn .implicitDecl s.pos (Notice.implicitFunction name).message)
  have hbinding : binding callee s = .ok b s := by rw [run_binding, hb]
  have hentry : (declareImplicit s.table name args.length).entry s.table.entries.size = e := by
    rw [declareImplicit, Table.entry_modifyEntry_self (Table.size_lt_installAt _),
      Table.entry_installAt_self, Table.clampLevel_zero]
  have hhandle : calleeHandle s.table.entries.size name s1 = .ok (.global name) s1 := by
    refine run_calleeHandle_placed ?_ name
    show ((declareImplicit s.table name args.length).entry s.table.entries.size).handle = _
    rw [hentry]
    rfl
  rw [callThrough_face rfl, lowerCall, run_bind_of_ok hbinding, hname]
  show (calleeEntry name args.length >>= _) s = callThrough dst (.global name) e args s1
  rw [run_bind_of_ok (run_calleeEntry_new hv args.length), run_bind_of_ok hhandle, ← hentry]
  rfl

theorem run_lowerCall_unplaced (hT : s.table.Tidy) (hb : s.bindings.lookup callee = some b)
    (hname : b.callee = some name) (hv : s.table.global? name = some v) (hk : v.kind = .func)
    (hp : v.handle = none) :
    ∃ id, s.table.lookupGlobal? name = some id ∧ v = (s.table.entry id).face ∧
      lowerCall dst callee args s = callThrough dst (.global name) (placedEntry name v) args
        (s.over (s.table.modifyEntry id (placedEntry name)) s.report) := by
  obtain ⟨id, hid, rfl⟩ := Option.map_eq_some_iff.1 hv
  replace hk : (s.table.entry id).kind = .func := hk
  refine ⟨id, hid, rfl, ?_⟩
  let s1 := s.over (s.table.modifyEntry id (placedEntry name)) s.report
  have hbinding : binding callee s = .ok b s := by rw [run_binding, hb]
  have hhandle : calleeHandle id name s = .ok (.global name) s1 := by
    have hnone : (s.table.entry id).handle = none := hp
    rw [calleeHandle, run_getEntry_bind, hnone]
    rfl
  have hentry : (s.table.modifyEntry id (placedEntry name)).entry id =
      placedEntry name (s.table.entry id) :=
    Table.entry_modifyEntry_self (hT.sound name id hid).1 _
  have hface : placedEntry name (s.table.entry id).face =
      (placedEntry name (s.table.entry id)).face := rfl
  have hkind : (placedEntry name (s.table.entry id)).kind = .func := hk
  rw [hface, callThrough_face hkind, lowerCall, run_bind_of_ok hbinding, hname]
  show (calleeEntry name args.length >>= _) s =
    callThrough dst (.global name) (placedEntry name (s.table.entry id)) args s1
  rw [run_bind_of_ok (run_calleeEntry_known hid hk _), run_bind_of_ok hhandle, ← hentry]
  rfl

/-! ## Functions -/

def slotEntry (storage : Storage) (d : Decl) (place : Nat) (e : Entry) : Entry :=
  { e with
    kind := .var, storage, tag := d.tag, defined := true, count := elementCount d.width d.tag.base
    offset := place, handle := some (.temp d.name (-1)), elem := machineTy d.tag.base }

def declareSlot (T : Table) (storage : Storage) (d : Decl) (place : Nat) : Table :=
  (T.install d.name).2.modifyEntry (T.install d.name).1 (slotEntry storage d place)

theorem run_allocVariable (storage : Storage) (d : Decl) (place : Nat) (s : State) :
    allocVariable storage d place s = .ok (.temp d.name (-1)) { s with
      revInstrs :=
        { op := .alloc, ty := .ptr, result := some (.temp d.name (-1))
          args := [.const (max d.width d.tag.base.size)], align := d.tag.base.size } :: s.revInstrs
      table := declareSlot s.table storage d place } := rfl

def lowerBody (f : Flow.Func) : LowerM Ir.Func := do
  if f.blocks.isEmpty then throw (.noEntry f.name)
  let params ← f.formals.zipIdx.mapM fun (d, i) => lowerFormal d i
  f.locals.zipIdx.forM fun (d, i) => do let _ ← allocVariable .stack d i
  let blocks ← f.blocks.mapM (lowerBlock f)
  warnUnreachable f
  return ⟨f.name, params, machineTy f.tag.base, blocks⟩

def enterFunc (f : Flow.Func) (s : State) : State :=
  { s with
    func := f.name, ret := machineTy f.tag.base, bindings := [], revInstrs := [], conversions := 0
    fillers := 0, line := 0, table := s.table.enter }

theorem run_lowerFunc (f : Func) (s : State) : lowerFunc f s =
    match lowerBody f (enterFunc f s) with
    | .ok f' s' => .ok f' { s' with table := s'.table.leave }
    | .error e s' => .error e { s' with table := s'.table.leave } := by
  show inScope (lowerBody f) _ = _
  unfold inScope
  cases hbody : lowerBody f (enterFunc f s) with
  | ok f' s' | error e s' =>
    unfold enterFunc at hbody
    simp only [hbody]

/-! ## Declarations -/

def globalData (d : Decl) : Ir.Data :=
  ⟨d.name, 16, true, false, [{ ty := .byte, count := d.width }]⟩

/-- What the declaration of a variable makes of the entry of its name. -/
def variableEntry (d : Decl) (e : Entry) : Entry :=
  { e with
    kind := .var, storage := .global, tag := d.tag, defined := true
    count := elementCount d.width d.tag.base, handle := some (.global d.name)
    elem := machineTy d.tag.base }

/-- What the declaration of a function makes of the entry of its name. -/
def definedEntry (f : Flow.Func) (e : Entry) : Entry :=
  { e with
    kind := .func, storage := .global, tag := f.tag.base, defined := true, implicit := false
    handle := some (.global f.name), elem := machineTy f.tag.base
    fixed := f.formals.length, variadic := false }

/-- What the declaration of a builtin makes of the entry of its name. -/
def builtinEntry (b : Ir.Foreign) (e : Entry) : Entry :=
  { e with
    kind := .func, storage := .global, tag := .int, defined := true, implicit := false
    handle := some (.global b.name), elem := b.ret, variadic := b.variadic
    fixed := b.fixed }

def plainBuiltins (g : Flow.Graph) : List Ir.Foreign :=
  builtins.filter fun b => !(g.funcs.map (·.name)).contains b.name

/-- What a program declares, in order: the names, and what becomes of their entries. -/
def declarations (g : Flow.Graph) : List (String × (Entry → Entry)) :=
  g.globals.map (fun d => (d.name, variableEntry d)) ++
    (g.funcs.map (fun f => (f.name, definedEntry f)) ++
      (plainBuiltins g).map fun b => (b.name, builtinEntry b))

/-- The table in which a name is declared. Its global entry is set, a new one if there is none. -/
def declareName (T : Table) (d : String × (Entry → Entry)) : Table :=
  match T.lookupGlobal? d.1 with
  | some id => T.modifyEntry id d.2
  | none => (T.installAt d.1 0).2.modifyEntry T.entries.size d.2

theorem run_globalEntry_bind (name : String) (f : Entry → Entry) (s : State) :
    (globalEntry name >>= fun id => setEntry id f) s =
      .ok () { s with table := declareName s.table (name, f) } := by
  unfold declareName
  cases hid : s.table.lookupGlobal? name with
  | some id =>
    have hrun : globalEntry name s = .ok id s := by
      rw [globalEntry, run_get_bind, hid]
      rfl
    rw [run_bind_of_ok hrun]
    rfl
  | none =>
    have hrun : globalEntry name s = .ok s.table.entries.size
        { s with table := (s.table.installAt name 0).2 } := by
      rw [globalEntry, run_get_bind, hid]
      rfl
    rw [run_bind_of_ok hrun]
    rfl

theorem run_lowerGlobal (d : Decl) (s : State) : lowerGlobal d s =
    .ok (globalData d) { s with table := declareName s.table (d.name, variableEntry d) } := by
  have heq : lowerGlobal d = (globalEntry d.name >>= fun id => setEntry id (variableEntry d)) >>=
      fun _ => pure (globalData d) := (bind_assoc _ _ _).symm
  rw [heq, run_bind_of_ok (run_globalEntry_bind ..)]
  rfl

theorem run_lowerGlobals (ds : List Decl) (s : State) : ds.mapM lowerGlobal s =
    .ok (ds.map globalData) { s with
      table := (ds.map fun d => (d.name, variableEntry d)).foldl declareName s.table } := by
  induction ds generalizing s with
  | nil => rfl
  | cons d ds ih =>
    rw [mapM_cons, run_bind_of_ok (run_lowerGlobal d s), run_bind_of_ok (ih _)]
    rfl

theorem run_declareFunc (f : Func) (s : State) : declareFunc f s = .ok () { s with
    table := declareName s.table (f.name, definedEntry f), defined := s.defined ++ [f.name] } := by
  have heq : declareFunc f = (globalEntry f.name >>= fun id => setEntry id (definedEntry f)) >>=
      fun _ => modify fun s => { s with defined := s.defined ++ [f.name] } :=
    (bind_assoc _ _ _).symm
  rw [heq, run_bind_of_ok (run_globalEntry_bind ..)]
  rfl

theorem run_declareFuncs (fs : List Func) (s : State) : fs.forM declareFunc s =
    .ok () { s with
      table := (fs.map fun f => (f.name, definedEntry f)).foldl declareName s.table
      defined := s.defined ++ fs.map (·.name) } := by
  induction fs generalizing s with
  | nil => simp [forM_eq_forM, pure, EStateM.pure]
  | cons f fs ih =>
    have hcons : (f :: fs).forM declareFunc s = (declareFunc f >>= fun _ => fs.forM declareFunc) s :=
      rfl
    rw [hcons, run_bind_of_ok (run_declareFunc f s), ih]
    simp

theorem run_declareBuiltins (bs : List Ir.Foreign) (s : State) : bs.forM declareBuiltin s =
    .ok () { s with table := ((bs.filter fun b => !s.defined.contains b.name).map fun b =>
      (b.name, builtinEntry b)).foldl declareName s.table } := by
  induction bs generalizing s with
  | nil => rfl
  | cons b bs ih =>
    have hcons : (b :: bs).forM declareBuiltin s =
        (declareBuiltin b >>= fun _ => bs.forM declareBuiltin) s := rfl
    have hrun : declareBuiltin b s = (if !s.defined.contains b.name then
        globalEntry b.name >>= fun id => setEntry id (builtinEntry b) else pure () :
          LowerM Unit) s := rfl
    cases hb : s.defined.contains b.name with
    | true =>
      rw [hb] at hrun
      rw [hcons, run_bind_of_ok hrun, ih, filter_cons_of_neg (by simpa using hb)]
    | false =>
      rw [hb] at hrun
      rw [hcons, run_bind_of_ok (hrun.trans (run_globalEntry_bind ..)), ih,
        filter_cons_of_pos (by simpa using hb)]
      rfl

/-! ## What the declarations mean -/

def variableFaces (ds : List Decl) : List (String × Entry) :=
  (ds.map fun d => (d.name, (variableEntry d { name := d.name }).face)).reverse

def definedFaces (fs : List Flow.Func) : List (String × Entry) :=
  (fs.map fun f => (f.name, (definedEntry f { name := f.name }).face)).reverse

def builtinFaces (bs : List Ir.Foreign) : List (String × Entry) :=
  (bs.map fun b => (b.name, (builtinEntry b { name := b.name }).face)).reverse

/-- What lowering sees of the names of a program before it lowers the functions. -/
def declaredFaces (g : Flow.Graph) : List (String × Entry) :=
  builtinFaces (plainBuiltins g) ++ definedFaces g.funcs ++ variableFaces g.globals

theorem declaredFaces_eq (g : Graph) : declaredFaces g =
    ((declarations g).map fun d => (d.1, (d.2 { name := d.1 }).face)).reverse := by
  simp [declaredFaces, declarations, builtinFaces, definedFaces, variableFaces, Function.comp_def]

/-- A declaration keeps the name of the entry, and lowering sees what it sets in one way only. -/
def Declares (d : String × (Entry → Entry)) : Prop :=
  (∀ e, (d.2 e).name = e.name) ∧ ∀ e, e.name = d.1 → (d.2 e).face = (d.2 { name := d.1 }).face

theorem declares_of_mem (h : d ∈ declarations g) : Declares d := by
  simp only [declarations, mem_append, mem_map] at h
  rcases h with ⟨x, -, rfl⟩ | ⟨f, -, rfl⟩ | ⟨b, -, rfl⟩
  · exact ⟨fun _ => rfl, fun e he => by simp [Entry.face, variableEntry, he]⟩
  · exact ⟨fun _ => rfl, fun e he => by simp [Entry.face, definedEntry, he]⟩
  · exact ⟨fun _ => rfl, fun e he => by simp [Entry.face, builtinEntry, he]⟩

theorem Declares.global? (hd : Declares d) (hT : T.Sound) :
    (declareName T d).Sound ∧ ∀ n, (declareName T d).global? n =
      if n = d.1 then some (d.2 { name := d.1 }).face else T.global? n := by
  unfold declareName
  cases hid : T.lookupGlobal? d.1 with
  | some id =>
    refine ⟨hT.modifyEntry (hd.1 _), fun n => ?_⟩
    rw [Table.global?_modifyEntry hT hid, hd.2 _ (hT d.1 id hid).2]
  | none =>
    have hc : T.Changes d.1 (fun _ => True)
        ((T.installAt d.1 0).2.modifyEntry T.entries.size d.2) :=
      hT.changes_installAt hd.1 fun _ => trivial
    exact ⟨hc.sound, fun n => Table.global?_installAt hT d.2⟩

theorem global?_declarations {ds : List (String × (Entry → Entry))} (hds : ∀ d ∈ ds, Declares d)
    (hT : T.Sound) : (ds.foldl declareName T).Sound ∧
      ∀ n, (ds.foldl declareName T).global? n =
        ((ds.map fun d => (d.1, (d.2 { name := d.1 }).face)).reverse.lookup n).or (T.global? n) := by
  induction ds generalizing T with
  | nil => exact ⟨hT, fun _ => rfl⟩
  | cons d ds ih =>
    obtain ⟨hd, hrest⟩ := forall_mem_cons.1 hds
    obtain ⟨hT1, hglobal1⟩ := hd.global? hT
    obtain ⟨hT2, hglobal2⟩ := ih hrest hT1
    refine ⟨hT2, fun n => (hglobal2 n).trans ?_⟩
    rw [hglobal1, map_cons, reverse_cons, lookup_append, Option.or_assoc]
    by_cases hn : n = d.1
    · rw [if_pos hn, hn, lookup_cons_self, Option.some_or]
    · rw [if_neg hn, lookup_cons, beq_false_of_ne hn]
      rfl

def declaredTable (g : Flow.Graph) (T : Table) : Table := (declarations g).foldl declareName T

theorem global?_declaredTable (g : Graph) (hT : T.Sound) : (declaredTable g T).Sound ∧
      ∀ n, (declaredTable g T).global? n = ((declaredFaces g).lookup n).or (T.global? n) := by
  rw [declaredFaces_eq]
  exact global?_declarations (fun _ => declares_of_mem) hT

theorem tidy_declaredTable (g : Graph) (hT : T.Tidy) :
    (declaredTable g T).Tidy ∧ (declaredTable g T).inner = T.inner := by
  refine foldlRecOn (motive := fun T' : Table => T'.Tidy ∧ T'.inner = T.inner) _ _ ⟨hT, rfl⟩ ?_
  rintro T' ⟨hT', hinner⟩ d hd
  have hname := (declares_of_mem hd).1
  unfold declareName
  cases T'.lookupGlobal? d.1 with
  | some id => exact ⟨hT'.modifyEntry hname, hinner⟩
  | none =>
    refine ⟨hT'.installAt hname, ?_⟩
    rw [Table.inner_modifyEntry, Table.inner_installAt_zero, hinner]

theorem all_declaredTable {E : Entry → Prop} (hnew : ∀ name level, E { name, level })
    (hE : ∀ d ∈ declarations g, ∀ e, E e → E (d.2 e)) (hT : T.All E) :
    (declaredTable g T).All E := by
  refine foldlRecOn (motive := Table.All E) _ _ hT fun T' hT' d hd => ?_
  unfold declareName
  cases T'.lookupGlobal? d.1 with
  | some id => exact hT'.modifyEntry (hE d hd)
  | none => exact (hT'.installAt (hnew d.1) 0).modifyEntry (hE d hd)

/-! ## Programs -/

def lowerFuncs (g : Flow.Graph) (globals : List Ir.Data) : LowerM Ir.Program := do
  let funcs ← g.funcs.mapM lowerFunc
  let s ← get
  return ⟨s.settings.wordSize, globals, s.literals.zipIdx.map fun (b, i) => literalData i b,
    s.foreign, funcs⟩

def State.declared (s : State) (g : Flow.Graph) (T : Table) : State :=
  { s with table := T, defined := g.funcs.map (·.name), literals := [], foreign := [] }

theorem run_lower (g : Graph) (s : State) :
    lower g s =
      lowerFuncs g (g.globals.map globalData) (s.declared g (declaredTable g s.table)) := by
  have heq : lower g = (modify fun s => { s with defined := [], literals := [], foreign := [] }) >>=
      fun _ => g.globals.mapM lowerGlobal >>= fun globals => g.funcs.forM declareFunc >>= fun _ =>
        builtins.forM declareBuiltin >>= fun _ => lowerFuncs g globals := by
    rfl
  rw [heq]
  show (g.globals.mapM lowerGlobal >>= _) { s with defined := [], literals := [], foreign := [] } = _
  rw [run_bind_of_ok (run_lowerGlobals ..), run_bind_of_ok (run_declareFuncs ..),
    run_bind_of_ok (run_declareBuiltins ..), declaredTable, declarations, foldl_append,
    foldl_append]
  rfl

/-- Where the names of a table can be told apart, a declared name is what its declaration says. -/
theorem exists_declared (g : Graph) (h : s.table.Tidy) :
    ∃ T, lower g s = lowerFuncs g (g.globals.map globalData) (s.declared g T) ∧ T.Tidy ∧
      T.inner = s.table.inner ∧
      ∀ n, T.global? n = ((declaredFaces g).lookup n).or (s.table.global? n) := by
  obtain ⟨htidy, hinner⟩ := tidy_declaredTable g h
  exact ⟨_, run_lower g s, htidy, hinner, (global?_declaredTable g h.sound).2⟩

theorem exists_declared_new (g : Graph) (hs : s.table = .empty) :
    ∃ T, lower g s = lowerFuncs g (g.globals.map globalData) (s.declared g T) ∧ T.Tidy ∧
      T.inner = [] ∧ ∀ n, T.global? n = (declaredFaces g).lookup n := by
  obtain ⟨T, hrun, hT, hinner, hglobal⟩ := exists_declared g (hs ▸ Table.tidy_empty)
  rw [hs] at hinner hglobal
  exact ⟨T, hrun, hT, hinner, fun n => (hglobal n).trans Option.or_none⟩

/-- Declared names are found at a place of their own, and one that is that of neither a builtin nor a
function is that of a variable. -/
theorem face_of_declaredFaces (h : (declaredFaces g).lookup n = some v) :
    (v.name = n ∧ v.handle = some (.global n)) ∧
      (n ∈ builtins.map (·.name) ∨ n ∈ g.funcs.map (·.name) ∨ v.kind = .var) := by
  have hm := mem_of_lookup h
  simp only [declaredFaces, builtinFaces, definedFaces, variableFaces, mem_append,
    mem_reverse, mem_map] at hm
  rcases hm with (⟨b, hb, heq⟩ | ⟨f, hf, heq⟩) | ⟨d, -, heq⟩
  · cases heq
    exact ⟨⟨rfl, rfl⟩, .inl (mem_map_of_mem (mem_of_mem_filter hb))⟩
  · cases heq
    exact ⟨⟨rfl, rfl⟩, .inr (.inl (mem_map_of_mem hf))⟩
  · cases heq
    exact ⟨⟨rfl, rfl⟩, .inr (.inr rfl)⟩

theorem placed_of_declaredFaces (h : (declaredFaces g).lookup n = some v) :
    v.name = n ∧ v.handle = some (.global n) :=
  (face_of_declaredFaces h).1

/-- What is declared stands at the place of its name. -/
def SelfNamed (D : List (String × Entry)) : Prop :=
  ∀ n v, D.lookup n = some v → v.name = n ∧ v.handle = some (.global n)

end Quadruple.Lowering
