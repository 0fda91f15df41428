import Quadruple.Emit.Decl
import Quadruple.Emit.Expr
import Quadruple.Proofs.Symbols.Table
import Quadruple.Proofs.Yields

/-!
# What declarations do

The operations on declarations and functions: each lemma gives the whole state behind an operation.
What is reported is left open where a name may be taken, and is nothing where it is free.
-/

namespace Quadruple.Emit

open List
open Numeral (wrap64)
open Symbols (Entry EntryId Table)

variable {s s' : State}

/-! ## Notices of forgotten names -/

def misses (r : Report) (x : String) : Nat :=
  r.diagnostics.countP fun d => d.isError && d.message == (Notice.undeclared x).message

def Notice.initial : Notice → Char
  | .redeclared _ | .converted | .implicitFunction _ => 'i'
  | .redeclaredAsProcedure _ => '\''
  | .redefinedProcedure _ | .procedureType _ => 'p'
  | .undeclaredLabel _ | .redeclaredLabel _ => 'l'
  | .undeclared _ => 'u'
  | .doubleRemainder | .continueOutside => 'c'
  | .breakOutside => 'b'

theorem head?_message (n : Notice) : n.message.toList.head? = some n.initial := by
  have happend : ∀ {a b : String} {c : Char}, a.toList.head? = some c →
      (a ++ b).toList.head? = some c := by
    intro a b c h
    rw [String.toList_append, head?_append, h]
    rfl
  cases n <;> first | decide | exact happend (happend (by rw [Notice.initial]; decide))

theorem message_eq_undeclared {n : Notice} {x : String} :
    n.message = (Notice.undeclared x).message ↔ n = .undeclared x := by
  refine ⟨fun h => ?_, fun h => h ▸ rfl⟩
  have hinitial : n.initial = 'u' := by
    refine Option.some.inj ?_
    rw [← head?_message, h, head?_message]
    rfl
  cases n with
  | undeclared name => rw [(String.append_right_inj _).1 ((String.append_left_inj _).1 h)]
  | _ => cases hinitial

theorem misses_error (r : Report) (pos : Pos) (n : Notice) (x : String) :
    misses (r.error pos n.message) x = misses r x + if n = .undeclared x then 1 else 0 := by
  simp [misses, Report.error, countP_append, countP_singleton, Diagnostic.isError,
    message_eq_undeclared]

theorem misses_warn (r : Report) (kind : Warning) (pos : Pos) (message x : String) :
    misses (r.warn kind pos message) x = misses r x := by
  unfold Report.warn
  split
  · simp [misses, countP_append, Diagnostic.isError]
  · rfl

/-! ## Variables -/

theorem yields_declareGlobal (name : String) (tag : Tag) (count : Int) (s : State) :
    let table := (s.table.installAt name 0).2.modifyEntry s.table.entries.size
      (asVariable .global tag count)
    Yields (declareGlobal name tag count) s fun id s' => id = s.table.entries.size ∧ ∃ report,
      ((s.table.lookupGlobal? name = none → report = s.report) ∧ misses report = misses s.report) ∧
      s' = { s with
        table, report
        code := s.code.push (.globalDecl ⟨name, (table.entry id).tag, wrap64 (count * tag.size)⟩)
        marked := false } := by
  have hid : (s.table.installAt name 0).1 = s.table.entries.size := rfl
  simp only [declareGlobal, yields_bind, yields_get]
  cases s.table.lookupGlobal? name <;>
    simp [error, installAt, setEntry, getEntry, emit, keepsMark, hid, misses_error, funext_iff]

theorem declareInFunc_cases (name : String) (s : State) :
    (s.func = none ∧ declareInFunc name s = .error (.declarationOutside name) s) ∨
    s.func.isSome ∧ Yields (declareInFunc name) s fun id s' => id = s.table.entries.size ∧
      ∃ report, ((s.table.lookupCurrent? name = none → report = s.report) ∧
        misses report = misses s.report) ∧
          s' = { s with table := (s.table.install name).2, report } := by
  cases hfunc : s.func with
  | none =>
    refine .inl ⟨rfl, ?_⟩
    show (if s.func.isNone = true then _ else _ : EmitM EntryId) s = _
    rw [hfunc]
    rfl
  | some id =>
    have hid : (s.table.install name).1 = s.table.entries.size := rfl
    refine .inr ⟨rfl, ?_⟩
    simp only [declareInFunc, yields_bind, yields_get, hfunc]
    cases s.table.lookupCurrent? name <;>
      simp [error, install, hid, hfunc, misses_error, funext_iff]

theorem yields_declareForgotten (name : String) (s : State) :
    Yields (declareForgotten name) s fun id s' => id = s.table.entries.size ∧ s' = { s with
      report := s.report.error s.pos (Notice.undeclared name).message
      table := (s.table.install name).2.modifyEntry s.table.entries.size fun e => { e with
        kind := .var, storage := .stack, tag := .int, count := 1, defined := true
        offset := s.locals.length }
      locals := s.locals ++ [s.table.entries.size]
      code := if s.headed then s.code.push (.localDecl ⟨name, .int, Tag.int.size⟩) else s.code
      marked := s.marked && !s.headed } := by
  have hid : (s.table.install name).1 = s.table.entries.size := rfl
  simp only [declareForgotten, error, install, setEntry, yields_bind, yields_get, yields_modify,
    yields_modifyGet]
  cases hheaded : s.headed <;> simp [emit, keepsMark, hid]

/-! ## Functions -/

theorem yields_functionEntry (name : String) (tag : Tag) (s : State) :
    Yields (functionEntry name tag) s fun id s' => ∃ table report, s' = { s with table, report } ∧
      (table = (s.table.installAt name 0).2 ∧ id = s.table.entries.size ∨
        table = s.table ∧ s.table.lookupGlobal? name = some id ∧ (s.table.entry id).kind = .func) ∧
      ((∀ id, s.table.lookupGlobal? name = some id → (s.table.entry id).kind = .func ∧
        (s.table.entry id).defined = false ∧ (s.table.entry id).tag = tag) → report = s.report) ∧
      misses report = misses s.report := by
  simp only [functionEntry, yields_bind, yields_get]
  cases hname : s.table.lookupGlobal? name with
  | none => simp [installAt, Table.installAt]
  | some id =>
    dsimp only
    split
    · next hkind => simp [error, installAt, Table.installAt, hkind, misses_error, funext_iff]
    · next hkind =>
      have hkind := Decidable.not_not.1 hkind
      split
      · next hdefined => simp [error, hkind, hdefined, misses_error, funext_iff]
      · split
        · next htag => simp [error, hkind, htag, misses_error, funext_iff]
        · exact yields_pure.2 ⟨_, _, rfl, .inr ⟨rfl, rfl, hkind⟩, fun _ => rfl, rfl⟩

theorem yields_openFunction (tag : Tag) (name : String) (s : State) :
    Yields (openFunction tag name) s fun id s' => ∃ table report,
      s' = { s with
        table, report, declared := [], pending := [], formals := [], locals := [], headed := false
        func := some id } ∧
      table.inner = [] :: s.table.inner ∧
      (s.table.Sound → s.table.Changes name (fun e => e.tag = tag.base) table ∧
        table.lookupGlobal? name = some id) ∧
      ((∀ id, s.table.lookupGlobal? name = some id → (s.table.entry id).kind = .func ∧
        (s.table.entry id).defined = false ∧ (s.table.entry id).tag = tag.base) →
        report = s.report) ∧
      misses report = misses s.report ∧
      ∀ n ≠ name, table.lookupGlobal? n = s.table.lookupGlobal? n := by
  simp only [openFunction, enterScope, yields_bind, yields_modify]
  refine (yields_functionEntry name _ _).mono ?_
  rintro id _ ⟨table, report, rfl, htable, hreport, hmisses⟩
  simp only [setEntry, yields_modify, yields_pure]
  refine ⟨_, report, rfl, ?_, fun hsound => ?_, hreport, hmisses, fun n hn => ?_⟩
  · rcases htable with ⟨rfl, -⟩ | ⟨rfl, -⟩
    · rw [Table.inner_modifyEntry, Table.inner_installAt_zero]
      rfl
    · rfl
  · -- a new scope changes nothing about the globals
    have henter : ∀ {T : Table}, s.table.enter.Changes name (fun e => e.tag = tag.base) T →
        s.table.Changes name (fun e => e.tag = tag.base) T := fun hT => ⟨hT.sound, hT.other, hT.entry⟩
    rcases htable with ⟨rfl, rfl⟩ | ⟨rfl, hid, -⟩
    · refine ⟨henter (hsound.enter.changes_installAt ?_ fun _ => rfl), ?_⟩
      · exact fun _ => rfl
      · rw [Table.lookupGlobal?_modifyEntry, Table.lookupGlobal?_installAt_zero, if_pos rfl]
    · refine ⟨henter (hsound.enter.changes_modifyEntry hid ?_ rfl), hid⟩
      exact fun _ => rfl
  · rcases htable with ⟨rfl, -⟩ | ⟨rfl, -⟩
    · exact Table.lookupGlobal?_installAt_zero.trans (if_neg hn)
    · rfl

/-- The storage of the formals and locals, as the head of their function emits it. -/
def State.storage (s : State) : List Quad :=
  (s.formals.map fun id =>
    .formalDecl ⟨(s.table.entry id).name, (s.table.entry id).tag, (s.table.entry id).tag.size⟩) ++
  s.locals.map fun id =>
    .localDecl ⟨(s.table.entry id).name, (s.table.entry id).tag,
      wrap64 ((s.table.entry id).count * (s.table.entry id).tag.size)⟩

theorem forall_mem_storage {P : Quad → Prop} (hformal : ∀ d, P (.formalDecl d))
    (hlocal : ∀ d, P (.localDecl d)) : ∀ q ∈ s.storage, P q := by
  intro q hq
  rcases mem_append.1 hq with hq | hq
  · obtain ⟨_, -, rfl⟩ := mem_map.1 hq
    exact hformal _
  · obtain ⟨_, -, rfl⟩ := mem_map.1 hq
    exact hlocal _

theorem forM_emit_eq (q : Entry → Quad) (ids : List EntryId) (s : State) :
    (ids.forM fun id => do emit (q (← getEntry id))) s = .ok () { s with
      code := s.code ++ (ids.map fun id => q (s.table.entry id)).toArray
      marked := s.marked && ids.all fun id => keepsMark (q (s.table.entry id)) } := by
  induction ids generalizing s with
  | nil => simp [pure, EStateM.pure]
  | cons id ids ih =>
    have hcode : s.code.push (q (s.table.entry id)) ++
        (ids.map fun id => q (s.table.entry id)).toArray =
        s.code ++ ((id :: ids).map fun id => q (s.table.entry id)).toArray := by
      rw [← Array.toList_inj]
      simp
    refine (ih { s with
      code := s.code.push (q (s.table.entry id))
      marked := s.marked && keepsMark (q (s.table.entry id)) }).trans ?_
    simp only [hcode, Bool.and_assoc, all_cons]

theorem beginFunction_eq (id : EntryId) (s : State) :
    beginFunction (some id) s = .ok () { s with
      code := s.code ++ (Quad.funcBegin (s.table.entry id).name (s.table.entry id).tag ::
        s.storage).toArray
      marked := false
      headed := true } := by
  have hformals := forM_emit_eq fun e => .formalDecl ⟨e.name, e.tag, e.tag.size⟩
  have hlocals := forM_emit_eq fun e => .localDecl ⟨e.name, e.tag, wrap64 (e.count * e.tag.size)⟩
  refine eq_of_yields ?_
  simp only [beginFunction, getEntry, emit, yields_bind, yields_get, yields_pure, yields_modify]
  refine (yields_iff_of_eq (hformals _ _)).2 ((yields_iff_of_eq (hlocals _ _)).2 ?_)
  have hcode : s.code.push (.funcBegin (s.table.entry id).name (s.table.entry id).tag) ++
      s.storage.toArray = s.code ++ (Quad.funcBegin (s.table.entry id).name (s.table.entry id).tag ::
        s.storage).toArray := by
    rw [← Array.toList_inj]
    simp
  rw [← hcode]
  simp [keepsMark, State.storage]

theorem forM_undeclaredLabel (names : List String) (s : State) :
    names.forM (fun name => error (.undeclaredLabel name)) s = .ok () { s with
      report := { s.report with
        diagnostics := s.report.diagnostics ++ names.map fun name =>
          ⟨.error, s.pos, (Notice.undeclaredLabel name).message⟩ } } := by
  induction names generalizing s with
  | nil => simp [pure, EStateM.pure]
  | cons name names ih =>
    refine eq_of_yields (x := error (.undeclaredLabel name) >>= fun _ => names.forM fun name =>
      error (.undeclaredLabel name)) (yields_bind.2 (yields_modify.2 ⟨_, _, ih _, ?_⟩))
    simp [Report.error, State.pos]

theorem endFunction_eq (h : endFunction s = .ok () s') : s' = { s with
    code := s.code.push .funcEnd
    marked := false
    table := s.table.leave
    report := { s.report with
      diagnostics := s.report.diagnostics ++ s.unresolved.map fun name =>
        ⟨.error, s.pos, (Notice.undeclaredLabel name).message⟩ }
    pending := []
    declared := []
    func := none
    headed := false } := by
  have hy : Yields endFunction s fun _ t => t = s' := ⟨_, _, h, rfl⟩
  simp only [endFunction, emit, leaveScope, yields_bind, yields_modify, yields_get] at hy
  split at hy
  · simp at hy
  · simp only [yields_bind, yields_modify, yields_iff_of_eq (forM_undeclaredLabel _ _), keepsMark,
      Bool.and_false] at hy
    exact hy.symm

theorem endFunction_cases (s : State) :
    (s.loops ≠ [] ∧ ∃ e, endFunction s =
      .error e { s with code := s.code.push .funcEnd, marked := false }) ∨
    s.loops = [] ∧ ∃ s', endFunction s = .ok () s' := by
  have hemit : emit .funcEnd s = .ok () { s with code := s.code.push .funcEnd, marked := false } :=
    eq_of_yields (by simp [emit, keepsMark])
  by_cases hloops : s.loops = []
  · have hy : Yields endFunction s fun _ _ => True := by
      simp only [endFunction, leaveScope, yields_bind, yields_iff_of_eq hemit, yields_get, hloops,
        isEmpty_nil, Bool.not_true, Bool.false_eq_true, if_false, yields_modify]
      exact ⟨_, _, forM_undeclaredLabel _ _, trivial⟩
    obtain ⟨_, s', hs', -⟩ := hy
    exact .inr ⟨hloops, s', hs'⟩
  · refine .inl ⟨hloops, .openLoops s.funcName s.loops.length, (run_bind_of_ok hemit).trans ?_⟩
    show (if (!s.loops.isEmpty) = true then _ else _ : EmitM Unit) _ = _
    rw [if_pos (by simpa using hloops)]
    rfl

end Quadruple.Emit
