import Quadruple.Proofs.Emit.Runs
import Quadruple.Proofs.Symbols.Meaning

/-!
# What a run leaves in the table

A run opens and closes functions and loops, and declares, defines and calls names in any order. If
its code has a flow graph, then the table tells nothing that the code does not. Main statement:
`settled_run`. Behind a run that has closed its functions no scope has a name, and every global is
declared in the code, except for functions that were only called.

A function that is opened while another one is open spoils the run: it can no longer close all its
functions and have a flow graph.
-/

namespace Quadruple.Emit

open List
open Symbols (Entry EntryId Table)

/-! ## Operations that leave the table alone -/

/-- From `s` to `s'` the settings, the table, the number of open loops and the open function with its
locals are the same, and nothing was emitted that belongs to the frame of the code. -/
structure Quietly (s s' : State) : Prop where
  settings : s'.settings = s.settings
  table : s'.table = s.table
  func : s'.func = s.func
  loops : s'.loops.length = s.loops.length
  locals : s'.locals = s.locals
  code : ∃ qs, s'.code.toList = s.code.toList ++ qs ∧ ∀ q ∈ qs, q.isFrame = false

theorem Quietly.refl (s : State) : Quietly s s := ⟨rfl, rfl, rfl, rfl, rfl, [], by simp, by simp⟩

variable {s : State}

theorem Quietly.trans {t u : State} (h : Quietly s t) (h' : Quietly t u) : Quietly s u := by
  obtain ⟨qs, hqs, hframe⟩ := h.code
  obtain ⟨rs, hrs, hframe'⟩ := h'.code
  exact ⟨h'.settings.trans h.settings, h'.table.trans h.table, h'.func.trans h.func,
    h'.loops.trans h.loops, h'.locals.trans h.locals, qs ++ rs,
    by rw [hrs, hqs, append_assoc], forall_mem_append.2 ⟨hframe, hframe'⟩⟩

def Quad.reserves (x : String) : Quad → Bool
  | .localDecl v => v.name == x
  | _ => false

def State.slots (s : State) (x : String) : Nat := s.code.toList.countP (Quad.reserves x)

/-- Besides, no slot was reserved and no name reported as forgotten. -/
structure Silently (s s' : State) : Prop extends Quietly s s' where
  headed : s'.headed = s.headed
  slots : s'.slots = s.slots
  misses : misses s'.report = misses s.report

theorem Silently.refl (s : State) : Silently s s := ⟨.refl s, rfl, rfl, rfl⟩

theorem Silently.trans {t u : State} (h : Silently s t) (h' : Silently t u) : Silently s u :=
  ⟨h.toQuietly.trans h'.toQuietly, h'.headed.trans h.headed, h'.slots.trans h.slots,
    h'.misses.trans h.misses⟩

variable {q : Quad} {op : Op}

theorem slots_push (s : State) (hq : ∀ x, Quad.reserves x q = false) :
    State.slots { s with code := s.code.push q } = s.slots := by
  funext x
  simp [State.slots, Array.toList_push, countP_append, hq x]

theorem silently_push (h : (q.isFrame || q.isDecl) = false) {t l b : Nat} {m : Bool}
    {p : List (Nat × Int)} : Silently s { s with
      temps := t, labels := l, blanks := b, marked := m, patched := p, code := s.code.push q } := by
  obtain ⟨hframe, hdecl⟩ := Bool.or_eq_false_iff.1 h
  refine ⟨⟨rfl, rfl, rfl, rfl, rfl, [q], Array.toList_push, forall_mem_singleton.2 hframe⟩, rfl,
    slots_push s fun x => ?_, rfl⟩
  cases q <;> first | rfl | cases hdecl

def Quiet {α : Type} (x : EmitM α) : Prop := ∀ s, Silently s (after x s)

section Quiet

variable {α β : Type} {x : EmitM α} {f : α → EmitM β}

theorem after_bind_keeps {P : State → Prop} (hx : P (after x s))
    (hf : ∀ a t, P t → P (after (f a) t)) : P (after (x >>= f) s) := by
  rw [after_bind]
  unfold after at hx
  cases hr : x s with
  | ok a s' =>
    rw [hr] at hx
    exact hf a s' hx
  | error e s' =>
    rw [hr] at hx
    exact hx

variable {jumps chains : Bool}

theorem Act.silently {a b : List Item × State} (h : Act jumps false chains a b) :
    Silently a.2 b.2 := by
  cases h with
  | define h => exact silently_push (by cases h <;> rfl)
  | emit _ h => exact silently_push (h.resolve_left (by simp))
  | label | patch => exact silently_push rfl
  | branch hq => exact silently_push (by rcases hq with rfl | ⟨x, a, -, rfl⟩ <;> rfl)
  | innermost _ h => exact ⟨⟨rfl, rfl, rfl, h, rfl, [], (append_nil _).symm, by simp⟩, rfl, rfl, rfl⟩
  | error h =>
    refine ⟨⟨rfl, rfl, rfl, rfl, rfl, [], (append_nil _).symm, by simp⟩, rfl, rfl, funext fun x => ?_⟩
    exact (misses_error ..).trans (congrArg _ (if_neg (h.resolve_left (by simp) x)))
  | warn =>
    exact ⟨⟨rfl, rfl, rfl, rfl, rfl, [], (append_nil _).symm, by simp⟩, rfl, rfl,
      funext fun x => misses_warn ..⟩
  | enter h | leave h | declare h | redeclare h | function h => cases h
  | fresh _ h => cases h
  | _ => exact ⟨⟨rfl, rfl, rfl, rfl, rfl, [], (append_nil _).symm, by simp⟩, rfl, rfl, rfl⟩

theorem Does.quiet {K : List Item} {Q : α → List Item} (h : Does jumps false chains K x Q) :
    Quiet x := by
  intro s
  exact h.keeps (fun hact hs => hs.trans hact.silently) (.refl s)

theorem quiet_perform (h : op.isQuiet = true) : Quiet op.perform := by
  have hop : op.table? = none := by cases op <;> first | rfl | cases h
  have hdoes := does_perform hop
  rw [h] at hdoes
  exact hdoes.quiet

theorem quiet_resolve (c : Chain) (label : Int) : Quiet (resolve c label) :=
  (does_resolve (g := false) (c := false) c (mem_singleton_self (Item.label label))).quiet

theorem quiet_ref (id : EntryId) : Quiet (do
    let e := (← get).table.entry id
    define (e.tag.union .address) fun dst => .ref dst e.storage e.name e.offset) :=
  (does_ref (g := false) (c := false) (mem_singleton_self (Item.entry id))).quiet

end Quiet

def Op.isLoop : Op → Bool
  | .openLoop | .endLoop | .whileStmt .. | .doStmt .. | .forStmt .. => true
  | _ => false

/-- Equations and whatever else is quiet, and then perhaps the end of a loop. -/
def Closes {α : Type} (x : EmitM α) : Prop :=
  ∀ s, ∃ t, Silently s t ∧ (after x s = t ∨ after x s = after endLoop t)

theorem closes_endLoop : Closes endLoop := fun s => ⟨s, .refl s, .inr rfl⟩

theorem Quiet.closes {α β : Type} {x : EmitM α} {f : α → EmitM β} (hx : Quiet x)
    (hf : ∀ a, Closes (f a)) : Closes (x >>= f) := by
  intro s
  have hq := hx s
  rw [after_bind]
  unfold after at hq
  cases hr : x s with
  | ok a t =>
    rw [hr] at hq
    obtain ⟨u, hu, hafter⟩ := hf a t
    exact ⟨u, hq.trans hu, hafter⟩
  | error e t =>
    rw [hr] at hq
    exact ⟨t, hq, .inl rfl⟩

theorem closes_closeLoop (onContinue onBreak : Int) : Closes (closeLoop onContinue onBreak) :=
  (does_innermost (g := false) (c := false) (K := [])).quiet.closes fun _ =>
    (quiet_resolve _ _).closes fun _ => (quiet_resolve _ _).closes fun _ => closes_endLoop

theorem closes_perform (hloop : op.isLoop = true) (hne : op ≠ .openLoop) : Closes op.perform := by
  cases op with
  | openLoop => exact absurd rfl hne
  | endLoop => exact closes_endLoop
  | whileStmt m1 v m2 n m3 =>
    exact (quiet_resolve _ _).closes fun _ => (quiet_resolve _ _).closes fun _ =>
      (quiet_resolve _ _).closes fun _ => closes_closeLoop _ _
  | doStmt m1 m2 v m3 =>
    exact (quiet_resolve _ _).closes fun _ => (quiet_resolve _ _).closes fun _ =>
      closes_closeLoop _ _
  | forStmt m1 v m2 n1 m3 n2 m4 =>
    exact (quiet_resolve _ _).closes fun _ => (quiet_resolve _ _).closes fun _ =>
      (quiet_resolve _ _).closes fun _ => (quiet_resolve _ _).closes fun _ => closes_closeLoop _ _
  | _ => cases hloop

/-! ## Between operations -/

def Declares (code : List Quad) (n : String) : Prop :=
  (∃ v ∈ code.filterMap Quad.global?, v.name = n) ∨ n ∈ code.filterMap Quad.head?

variable {code : List Quad}

theorem Declares.append {n : String} (h : Declares code n) (qs : List Quad) :
    Declares (code ++ qs) n := by
  unfold Declares
  rw [filterMap_append, filterMap_append]
  refine h.imp ?_ (mem_append_left _)
  rintro ⟨v, hv, hn⟩
  exact ⟨v, mem_append_left _ hv, hn⟩

def merelyCalled (n : String) : Entry := { name := n, kind := .func, tag := .int }

/-- Every global, but for the entry `except`, is in the code or was only called. -/
def Known (code : List Quad) (T : Table) (except : Option EntryId) : Prop :=
  ∀ n id, T.lookupGlobal? n = some id → some id ≠ except →
    Declares code n ∨ (T.entry id).face = merelyCalled n

/-- Where a run stands whose code stands within a function or not, with `k` functions open. -/
inductive Phase (s : State) (within : Bool) : Nat → Prop
  | idle : within = false → s.func = none → s.table.Sound → (∀ l ∈ s.table.inner, l = []) →
      Known s.code.toList s.table none → Phase s within 0
  | busy {id : EntryId} : s.func = some id → s.table.Sound →
      Known s.code.toList s.table (if within then none else some id) → Phase s within 1
  /-- Not even the end of the function, if there is one, will leave all functions closed. -/
  | spoiled {k : Nat} : (if s.func.isSome || within then 2 else 1) ≤ k → Phase s within k

/-- What holds between the operations of a run as long as the code may still get a flow graph. -/
structure Settled (k : Nat) (s : State) : Prop where
  level : s.table.level = s.loops.length + k
  phase : ∀ b, Flow.standing s.code.toList = some b → Phase s b k

variable {s' : State} {k : Nat} {except : Option EntryId} {T T' : Table} {b : Bool}

theorem Quietly.standing (h : Quietly s s')
    (hb : Flow.standing s'.code.toList = some b) : Flow.standing s.code.toList = some b := by
  obtain ⟨qs, hqs, hframe⟩ := h.code
  rw [hqs, Flow.standing_append] at hb
  obtain ⟨a, ha, hstand⟩ := hb
  rw [(Flow.foldlM_stand_of_not_frame hframe hstand).1, ha]

theorem Known.append (h : Known code T except) (qs : List Quad) : Known (code ++ qs) T except :=
  fun n id hid hne => (h n id hid hne).imp_left (·.append qs)

theorem Phase.change (h : Phase s b k) (hfunc : s'.func = s.func)
    (hsound : s.table.Sound → s'.table.Sound)
    (hblank : (∀ l ∈ s.table.inner, l = []) → ∀ l ∈ s'.table.inner, l = [])
    (hknown : ∀ {except}, s.table.Sound → Known s.code.toList s.table except →
      Known s'.code.toList s'.table except) : Phase s' b k := by
  cases h with
  | idle hb hnone hs hl hk =>
    exact .idle hb (hfunc.trans hnone) (hsound hs) (hblank hl) (hknown hs hk)
  | busy hsome hs hk => exact .busy (hfunc.trans hsome) (hsound hs) (hknown hs hk)
  | spoiled hk => exact .spoiled (hfunc ▸ hk)

theorem Settled.quietly (h : Settled k s) (hq : Quietly s s') : Settled k s' := by
  have hstanding := fun b => hq.standing (b := b)
  obtain ⟨-, htable, hfunc, hloops, -, qs, hcode, -⟩ := hq
  refine ⟨by rw [htable, hloops, h.level], fun b hb => ?_⟩
  refine (h.phase b (hstanding b hb)).change hfunc (htable ▸ id) (htable ▸ id) fun _ hknown => ?_
  rw [hcode, htable]
  exact hknown.append qs

/-! ## New names -/

structure Widens (T T' : Table) : Prop where
  level : T'.level = T.level
  globals : T.inner ≠ [] → ∀ n, T'.lookupGlobal? n = T.lookupGlobal? n
  entries : ∀ id < T.entries.size, T'.entry id = T.entry id
  size : T.entries.size ≤ T'.entries.size

theorem widens_install (T : Table) (name : String) (f : Entry → Entry) :
    Widens T ((T.install name).2.modifyEntry (T.install name).1 f) where
  level := T.length_inner_install
  globals := fun hne n => by rw [Table.lookupGlobal?_modifyEntry, Table.lookupGlobal?_install hne]
  entries := fun id hid => by rw [Table.entry_install_modifyEntry, if_neg hid.ne]
  size := by
    rw [Table.size_modifyEntry, Table.install, Table.size_installAt]
    exact Nat.le_succ _

theorem Widens.sound (h : Widens T T') (hne : T.inner ≠ []) (hT : T.Sound) : T'.Sound := by
  intro n id hid
  rw [h.globals hne] at hid
  obtain ⟨hlt, hname⟩ := hT n id hid
  exact ⟨hlt.trans_le h.size, by rw [h.entries id hlt, hname]⟩

theorem Widens.known (h : Widens T T') (hne : T.inner ≠ []) (hT : T.Sound)
    (hknown : Known code T except) : Known code T' except := by
  intro n id hid hexcept
  rw [h.globals hne] at hid
  rw [h.entries id (hT n id hid).1]
  exact hknown n id hid hexcept

/-- A name of a function, declared or forgotten, where something within a function or nothing was
emitted. -/
theorem Settled.widens (qs : List Quad) (h : Settled k s) (htable : Widens s.table s'.table)
    (hfunc : s'.func = s.func) (hloops : s'.loops = s.loops)
    (hcode : s'.code.toList = s.code.toList ++ qs) (hframe : ∀ q ∈ qs, q.isFrame = false)
    (hwithin : s.func.isSome ∨ ∃ q ∈ qs, q.equation? = none) : Settled k s' := by
  refine ⟨by rw [htable.level, hloops, h.level], fun b hb => ?_⟩
  rw [hcode, Flow.standing_append] at hb
  obtain ⟨a, ha, hstand⟩ := hb
  obtain ⟨rfl, hsolid⟩ := Flow.foldlM_stand_of_not_frame hframe hstand
  have hlevel := h.level
  cases h.phase b ha with
  | idle hb hnone =>
    rw [hnone] at hwithin
    have := hsolid (hwithin.resolve_left (by simp))
    rw [hb] at this
    cases this
  | busy hsome hsound hknown =>
    have hne : s.table.inner ≠ [] := by
      rw [← length_pos_iff]
      show 0 < s.table.level
      omega
    refine .busy (hfunc.trans hsome) (htable.sound hne hsound) ?_
    rw [hcode]
    exact htable.known hne hsound (hknown.append qs)
  | spoiled hk => exact .spoiled (by rw [hfunc]; exact hk)

theorem Known.changes {name : String} {P : Entry → Prop} (h : Known code T except)
    (hT' : T.Changes name P T')
    (hP : ∀ id, T'.lookupGlobal? name = some id → some id ≠ except → Declares code name ∨
      (T'.entry id).face = merelyCalled name) : Known code T' except := by
  intro n id hid hne
  by_cases hn : n = name
  · subst hn
    exact hP id hid hne
  · obtain ⟨hlookup, hentry⟩ := hT'.other n hn
    rw [hlookup] at hid
    rw [hentry id hid]
    exact h n id hid hne

/-! ## One operation -/

section

variable (h : Settled k s) (name : String)
include h name

theorem settled_declareGlobal (tag : Tag) (count : Int) :
    Settled k (after (declareGlobal name tag count) s) := by
  obtain ⟨_, rfl, r, -, hs'⟩ := exists_after (yields_declareGlobal name tag count s)
  generalize after (declareGlobal name tag count) s = s' at *
  have htable := congrArg State.table hs'
  have hfunc : s'.func = s.func := by rw [hs']
  have hloops : s'.loops = s.loops := by rw [hs']
  obtain ⟨v, hv, hcode⟩ : ∃ v : Decl, v.name = name ∧
      s'.code.toList = s.code.toList ++ [.globalDecl v] := ⟨_, rfl, by rw [hs', Array.toList_push]⟩
  have hinner : s'.table.inner = s.table.inner := by
    rw [htable, Table.inner_modifyEntry, Table.inner_installAt_zero]
  have hdeclares : Declares s'.code.toList name := by
    rw [hcode]
    exact .inl ⟨v, by simp [Quad.global?], hv⟩
  have hchanges : s.table.Sound → s.table.Changes name (fun _ => True) s'.table := by
    intro hsound
    rw [htable]
    exact hsound.changes_installAt (fun _ => rfl) fun _ => trivial
  refine ⟨by rw [Table.level, hinner, hloops]; exact h.level, fun b hb => ?_⟩
  rw [hcode, Flow.standing_append] at hb
  obtain ⟨a, ha, hstand⟩ := hb
  obtain ⟨rfl, rfl⟩ : a = false ∧ b = false := by
    cases a with
    | false => exact ⟨rfl, (Option.some.inj hstand).symm⟩
    | true => cases hstand
  refine (h.phase false ha).change hfunc (fun hsound => (hchanges hsound).sound) (hinner ▸ id)
    fun hsound hknown => ?_
  rw [hcode] at hdeclares ⊢
  exact (hknown.append _).changes (hchanges hsound) fun _ _ _ => .inl hdeclares

theorem settled_declareFormal (tag : Tag) : Settled k (after (declareFormal name tag) s) := by
  rcases declareInFunc_cases name s with ⟨-, hrun⟩ | ⟨hsome, _, _, hrun, rfl, r, -, rfl⟩
  · rw [declareFormal, after_bind, hrun]
    exact h
  · rw [declareFormal, after_bind_of_ok hrun]
    exact h.widens [] (widens_install _ _ _) rfl rfl (append_nil _).symm (by simp) (.inl hsome)

theorem settled_declareLocal (tag : Tag) (count : Int) :
    Settled k (after (declareLocal name tag count) s) := by
  rcases declareInFunc_cases name s with ⟨-, hrun⟩ | ⟨hsome, _, _, hrun, rfl, r, -, rfl⟩
  · rw [declareLocal, after_bind, hrun]
    exact h
  · rw [declareLocal, after_bind_of_ok hrun]
    exact h.widens [] (widens_install _ _ _) rfl rfl (append_nil _).symm (by simp) (.inl hsome)

theorem settled_variableRef : Settled k (after (variableRef name) s) := by
  rw [variableRef, after_get_bind]
  cases s.table.lookup? name with
  | some id => exact h.quietly (quiet_ref id s).toQuietly
  | none =>
    obtain ⟨id, t, hrun, rfl, ht⟩ := yields_declareForgotten name s
    obtain ⟨qs, hcode, hframe⟩ : ∃ qs, t.code.toList = s.code.toList ++ qs ∧
        ∀ q ∈ qs, q.isFrame = false := by
      rw [ht]
      cases s.headed with
      | true => exact ⟨[_], Array.toList_push, forall_mem_singleton.2 rfl⟩
      | false => exact ⟨[], (append_nil _).symm, by simp⟩
    rw [after_bind_of_ok hrun, after_get_bind]
    let e := t.table.entry s.table.entries.size
    let q : Quad := .ref ⟨(t.temps + 1 : Nat)⟩ e.storage e.name e.offset
    have hemit : (t.code.push q).toList = s.code.toList ++ (qs ++ [q]) := by
      rw [Array.toList_push, hcode, append_assoc]
    have htable : Widens s.table t.table := ht ▸ widens_install s.table name _
    have hfunc : t.func = s.func := by rw [ht]
    have hloops : t.loops = s.loops := by rw [ht]
    exact h.widens _ htable hfunc hloops hemit
      (forall_mem_append.2 ⟨hframe, forall_mem_singleton.2 rfl⟩) (.inr ⟨q, by simp, rfl⟩)

end

/-- The function of this name is there, or it gets an entry. -/
def Calls (name : String) (s t : State) : Prop :=
  t = s ∨ s.table.lookupGlobal? name = none ∧ t = { s with
    table := (s.table.installAt name 0).2.modifyEntry s.table.entries.size fun e =>
      { e with kind := .func, storage := .global, tag := .int, implicit := true }
    report := s.report.warn .implicitDecl s.pos (Notice.implicitFunction name).message }

theorem yields_call (name : String) (args : ArgList) (s : State) :
    Yields (call name args) s fun _ s' => ∃ t, Silently t s' ∧ s'.loops = s.loops ∧
      Calls name s t ∧ ∃ qs, s'.code.toList = s.code.toList ++ qs ∧ (∀ q ∈ qs, q.isFrame = false) ∧
        ∃ q ∈ qs, q.equation? = none := by
  have hentry : Yields (calleeEntry name) s fun _ t => t.loops = s.loops ∧ t.code = s.code ∧
      Calls name s t := by
    simp only [calleeEntry, yields_bind, yields_get]
    cases hname : s.table.lookupGlobal? name with
    | some id => simp [Calls]
    | none =>
      simp only [warn, installAt, setEntry, yields_bind, yields_modify, yields_modifyGet,
        yields_pure]
      exact ⟨trivial, trivial, .inr ⟨hname, rfl⟩⟩
  simp only [call, yields_bind, getEntry, yields_get, yields_pure]
  refine hentry.mono ?_
  rintro id t ⟨hloops, hcode, ht⟩
  -- the arguments
  refine (yields_forM (I := fun _ u => Silently t u ∧ u.loops = t.loops) ⟨.refl t, rfl⟩
    fun a as u hu => ?_).mono ?_
  · simp only [emit, yields_modify]
    exact ⟨hu.1.trans (silently_push rfl), hu.2⟩
  · rintro _ u ⟨hu, huloops⟩
    obtain ⟨qs, hqs, hframe⟩ := hu.code
    simp only [newTemp, emit, define, yields_bind, yields_modifyGet, yields_modify, yields_pure]
    refine ⟨t, hu.trans ((silently_push rfl (t := u.temps) (l := u.labels) (b := u.blanks)
      (m := u.marked) (p := u.patched)).trans (silently_push rfl)), huloops.trans hloops, ht, ?_⟩
    simp only [Array.toList_push, hqs, hcode, append_assoc]
    refine ⟨_, rfl, ?_, ?_⟩
    · simpa [Quad.isFrame, or_imp, forall_and] using hframe
    · exact ⟨_, mem_append_right _ mem_cons_self, rfl⟩

section

variable (h : Settled k s)
include h

theorem settled_call (name : String) (args : ArgList) : Settled k (after (call name args) s) := by
  obtain ⟨-, t, ht, hloops, rfl | ⟨hnone, rfl⟩, qs, hcode, hframe, hsolid⟩ :=
    exists_after (yields_call name args s)
  · exact h.quietly ht.toQuietly
  · generalize after (call name args) s = s' at *
    have htable := ht.table
    have hfunc := ht.func
    refine ⟨?_, fun b hb => ?_⟩
    · rw [htable, Table.level, Table.inner_modifyEntry, Table.inner_installAt_zero, hloops]
      exact h.level
    · rw [hcode, Flow.standing_append] at hb
      obtain ⟨a, ha, hstand⟩ := hb
      obtain ⟨rfl, hwithin⟩ := Flow.foldlM_stand_of_not_frame hframe hstand
      obtain rfl := hwithin hsolid
      cases h.phase true ha with
      | idle hb => cases hb
      | busy hsome hsound hknown =>
        have hchanges : s.table.Changes name (fun _ => True) s'.table := by
          rw [htable]
          exact hsound.changes_installAt (fun _ => rfl) fun _ => trivial
        refine .busy (hfunc.trans hsome) hchanges.sound ?_
        rw [hcode]
        refine (hknown.append qs).changes hchanges fun id hid _ => .inr ?_
        rw [htable, Table.lookupGlobal?_modifyEntry, Table.lookupGlobal?_installAt_zero,
          if_pos rfl] at hid
        cases hid
        rw [htable,
          Table.entry_modifyEntry_self (by rw [Table.size_installAt]; exact Nat.lt_succ_self _),
          Table.entry_installAt_self]
        rfl
      | spoiled hk => exact .spoiled (by rw [hfunc]; exact hk)

/-! ## Loops -/

theorem settled_openLoop : Settled k (after openLoop s) := by
  rw [openLoop, after_get_bind]
  show Settled k (after (if _ then _ else _) s)
  split
  · exact h
  · refine ⟨?_, fun b hb => ?_⟩
    · show s.table.level + 1 = s.loops.length + 1 + k
      rw [h.level]
      omega
    · exact (h.phase b hb).change rfl id (fun hblank => forall_mem_cons.2 ⟨rfl, hblank⟩) fun _ => id

theorem settled_endLoop : Settled k (after endLoop s) := by
  rw [endLoop, after_get_bind]
  have hlevel := h.level
  cases hloops : s.loops with
  | nil => exact h
  | cons scope outer =>
    refine ⟨?_, fun b hb => ?_⟩
    · show s.table.inner.tail.length = outer.length + k
      rw [length_tail]
      show s.table.level - 1 = _
      rw [hloops, length_cons] at hlevel
      omega
    · exact (h.phase b hb).change rfl id (fun hblank l hl => hblank l (mem_of_mem_tail hl))
        fun _ => id

theorem settled_closes (hloop : op.isLoop = true) (hne : op ≠ .openLoop) :
    Settled k (after op.perform s) := by
  obtain ⟨t, ht, hafter | hafter⟩ := closes_perform hloop hne s
  · exact hafter ▸ h.quietly ht.toQuietly
  · exact hafter ▸ settled_endLoop (h.quietly ht.toQuietly)

/-! ## Functions -/

theorem settled_openFunction (tag : Tag) (name : String) :
    Settled (k + 1) (after (openFunction tag name) s) := by
  obtain ⟨id, T, r, hs', hinner, htable, -⟩ := exists_after (yields_openFunction tag name s)
  rw [hs']
  have hlevel := h.level
  refine ⟨?_, fun b hb => ?_⟩
  · show T.inner.length = s.loops.length + (k + 1)
    rw [hinner, length_cons]
    show s.table.level + 1 = _
    omega
  · cases h.phase b hb with
    | idle hb hnone hsound hblank hknown =>
      obtain ⟨hchanges, hid⟩ := htable hsound
      refine .busy rfl hchanges.sound ?_
      rw [hb]
      refine Known.changes (fun n id hid _ => hknown n id hid (by simp)) hchanges fun k hk hne => ?_
      exact absurd (hk.symm.trans hid) hne
    | busy hsome hsound hknown => exact .spoiled (by simp)
    | spoiled hk =>
      refine .spoiled ?_
      split at hk <;> split <;> omega

theorem settled_beginFunction {id : Option EntryId} (hid : id = s.func) :
    Settled k (after (beginFunction id) s) := by
  cases id with
  | none => exact h
  | some id =>
    let e := s.table.entry id
    let t : State := { s with
      code := s.code.push (.funcBegin e.name e.tag)
      marked := s.marked && keepsMark (.funcBegin e.name e.tag) }
    have hquiet : Quietly t (after (beginFunction (some id)) s) := by
      rw [after_of_ok (beginFunction_eq id s)]
      exact ⟨rfl, rfl, rfl, rfl, rfl, s.storage, by simp [t, e],
        forall_mem_storage (fun _ => rfl) fun _ => rfl⟩
    refine Settled.quietly (s := t) ⟨h.level, fun b hb => ?_⟩ hquiet
    have hcode : t.code.toList = s.code.toList ++ [.funcBegin e.name e.tag] := Array.toList_push
    rw [hcode, Flow.standing_append] at hb
    obtain ⟨a, ha, hstand⟩ := hb
    obtain ⟨rfl, rfl⟩ : a = false ∧ b = true := by
      cases a with
      | false => exact ⟨rfl, (Option.some.inj hstand).symm⟩
      | true => cases hstand
    cases h.phase false ha with
    | idle hb hnone => cases hid.trans hnone
    | @busy id' hsome hsound hknown =>
      obtain rfl : id' = id := Option.some.inj (hsome.symm.trans hid.symm)
      refine .busy hsome hsound fun n k hk _ => ?_
      rw [hcode]
      by_cases hkid : k = id'
      · subst hkid
        refine .inl (.inr ?_)
        rw [← (hsound n k hk).2]
        simp [Quad.head?, e]
      · exact hknown.append _ n k hk (by simpa using hkid)
    | spoiled hk =>
      have hsome : s.func.isSome = true := by rw [← hid]; rfl
      have htwo : 2 ≤ k := by simpa [hsome] using hk
      exact .spoiled (by simpa using htwo)

theorem settled_endFunction : Settled (match endFunction s with | .ok .. => k - 1 | .error .. => k)
      (after endFunction s) := by
  have hlevel := h.level
  -- the code leaves the function
  have hout : ∀ b, Flow.standing (s.code.push .funcEnd).toList = some b →
      b = false ∧ Phase s true k := by
    intro b hb
    rw [Array.toList_push, Flow.standing_append] at hb
    obtain ⟨a, ha, hstand⟩ := hb
    cases a with
    | false => cases hstand
    | true => exact ⟨(Option.some.inj hstand).symm, h.phase true ha⟩
  rcases endFunction_cases s with ⟨-, e, hrun⟩ | ⟨hloops, s', hrun⟩
  · rw [hrun, after, hrun]
    show Settled k _
    refine ⟨hlevel, fun b hb => ?_⟩
    obtain ⟨rfl, hphase⟩ := hout b hb
    cases hphase with
    | idle hb => cases hb
    | busy hsome hsound hknown =>
      refine .busy hsome hsound fun n k hk _ => ?_
      rw [Array.toList_push]
      exact hknown.append _ n k hk (by simp)
    | spoiled hk =>
      have htwo : 2 ≤ k := by simpa using hk
      have hle : (if s.func.isSome || false then 2 else 1) ≤ k := by split <;> omega
      exact .spoiled hle
  · rw [hrun, after, hrun, endFunction_eq hrun]
    rw [hloops, length_nil, zero_add] at hlevel
    refine ⟨?_, fun b hb => ?_⟩
    · show s.table.inner.tail.length = s.loops.length + (k - 1)
      rw [hloops, length_tail, length_nil, zero_add]
      show s.table.level - 1 = _
      rw [hlevel]
    obtain ⟨rfl, hphase⟩ := hout b hb
    cases hphase with
    | idle hb => cases hb
    | busy hsome hsound hknown =>
      refine .idle rfl rfl hsound.leave ?_ fun n k hk _ => ?_
      · obtain ⟨l, hl⟩ := length_eq_one_iff.1 hlevel
        show ∀ m ∈ s.table.inner.tail, m = []
        simp [hl]
      · rw [Array.toList_push]
        exact hknown.append _ n k hk (by simp)
    | spoiled hk =>
      have htwo : 2 ≤ k := by simpa using hk
      refine .spoiled ?_
      show 1 ≤ k - 1
      omega

end

/-! ## Runs -/

/-- Whether an operation is the emitter's own: nobody else changes the table. -/
def Op.isOwn : Op → Bool
  | .share .. => false
  | _ => true

/-- How many functions are open behind an operation. The end of a function that fails does not close
it. -/
def Op.stillOpen (op : Op) (s : State) (k : Nat) : Nat :=
  match op with
  | .openFunction .. => k + 1
  | .endFunction => match Emit.endFunction s with
    | .ok .. => k - 1
    | .error .. => k
  | _ => k

/-- How many functions are open behind a run from a state in which `k` are. -/
def openBehind (k : Nat) (s : State) : List Op → Nat
  | [] => k
  | op :: ops => openBehind (op.stillOpen s k) (after op.perform s) ops

/-- Whether an operation, if it is the head of a function, is that of the function which is open. -/
def Op.headsOpen (op : Op) (s : State) : Bool :=
  match op with
  | .beginFunction id => id == s.func
  | _ => true

def headsOpen (s : State) : List Op → Bool
  | [] => true
  | op :: ops => op.headsOpen s && headsOpen (after op.perform s) ops

theorem settled_new (settings : Settings) (report : Report) :
    Settled 0 (State.new settings .empty report) := by
  refine ⟨rfl, fun b hb => ?_⟩
  refine .idle (Option.some.inj hb).symm rfl Table.sound_empty ?_ fun n id hid _ => ?_
  · intro l hl
    cases hl
  · cases hid

theorem settled_perform (h : Settled k s) (hown : op.isOwn = true) (hhead : op.headsOpen s = true) :
    Settled (op.stillOpen s k) (after op.perform s) := by
  cases op with
  | share => cases hown
  | declareGlobal name tag count =>
    exact (after_discard _ s).symm ▸ settled_declareGlobal h name tag count
  | declareFormal name tag => exact (after_discard _ s).symm ▸ settled_declareFormal h name tag
  | declareLocal name tag count =>
    exact (after_discard _ s).symm ▸ settled_declareLocal h name tag count
  | variableRef name => exact (after_discard _ s).symm ▸ settled_variableRef h name
  | call name args => exact (after_discard _ s).symm ▸ settled_call h name args
  | openFunction tag name => exact (after_discard _ s).symm ▸ settled_openFunction h tag name
  | beginFunction id => exact settled_beginFunction h (eq_of_beq hhead)
  | endFunction => exact settled_endFunction h
  | openLoop => exact settled_openLoop h
  | endLoop | whileStmt | doStmt | forStmt => exact settled_closes h rfl nofun
  | _ => exact h.quietly (quiet_perform rfl s).toQuietly

theorem settled_run {ops : List Op} (h : Settled k s) (hown : ∀ op ∈ ops, op.isOwn = true)
    (hheads : headsOpen s ops = true) : Settled (openBehind k s ops) (s.run ops) := by
  induction ops generalizing k s with
  | nil => exact h
  | cons op ops ih =>
    obtain ⟨hop, hown⟩ := forall_mem_cons.1 hown
    obtain ⟨hhead, hheads⟩ := Bool.and_eq_true_iff.1 hheads
    exact ih (settled_perform h hop hhead) hown hheads

end Quadruple.Emit
