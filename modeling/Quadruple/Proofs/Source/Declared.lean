import Quadruple.Proofs.Source.Body

/-!
# Declarations and the emission of well-formed programs

Between the items of a program the table knows the variables and functions so far, and apart from
them only int functions that were called before their definition. A declaration adds a name; the
head of a function opens a scope with its formals and locals.

Main statement: `Program.emit_checked`.
-/

namespace Quadruple.Source

open List
open Emit
open Symbols (Entry EntryId Table Level)
open Quadruple.Flow (Routine Part fuse?)

variable {p done : Program} {f : Func} {v : Var} {s s1 : State} {T T' : Table} {n name : String}
  {sig : Signature} {id : EntryId}

/-! ## Items -/

@[simp]
theorem Program.vars_append (p q : Program) :
    Program.vars (p ++ q) = Program.vars p ++ Program.vars q := filterMap_append ..

@[simp]
theorem Program.funcs_append (p q : Program) :
    Program.funcs (p ++ q) = Program.funcs p ++ Program.funcs q := filterMap_append ..

@[simp] theorem Program.vars_var (v : Var) : Program.vars [.var v] = [v] := rfl

@[simp] theorem Program.vars_func (f : Func) : Program.vars [.func f] = [] := rfl

@[simp] theorem Program.funcs_var (v : Var) : Program.funcs [.var v] = [] := rfl

@[simp] theorem Program.funcs_func (f : Func) : Program.funcs [.func f] = [f] := rfl

theorem Program.signature?_of_var (h : n ∈ p.vars.map (·.name)) : p.signature? n = none := by
  simp [Program.signature?, h]

theorem Program.notMem_vars_of_signature? (h : p.signature? n = some sig) :
    n ∉ p.vars.map (·.name) := fun hm => by
  simp [Program.signature?_of_var hm] at h

/-- A function of the program is called with its type and as many arguments as it has formals. -/
theorem Program.signature?_of_func (hnodup : (p.funcs.map (·.name)).Nodup) (hf : f ∈ p.funcs)
    (h : p.signature? f.name = some sig) : sig = ⟨f.ty, some f.formals.length⟩ := by
  have hfind : p.funcs.find? (·.name == f.name) = some f := by
    obtain ⟨l1, l2, hl⟩ := append_of_mem hf
    rw [hl] at hnodup ⊢
    refine find?_eq_some_iff_append.2 ⟨by simp, l1, l2, rfl, fun g hg => ?_⟩
    rw [map_append, nodup_append] at hnodup
    have hne := hnodup.2.2 g.name (mem_map_of_mem hg) f.name (by simp)
    simpa using hne
  unfold Program.signature? at h
  split at h
  · cases h
  · rw [hfind] at h
    exact (Option.some.inj h).symm

/-! ## The table between items -/

/-- The table has the items `done` of the program `p`, and besides them int functions that were
called. -/
structure Knows (p done : Program) (T : Table) : Prop where
  sound : T.Sound
  vars : ∀ v ∈ done.vars, ∃ id, T.lookupGlobal? v.name = some id ∧
    (T.entry id).storage = .global ∧ (T.entry id).tag = v.tag
  funcs : ∀ f ∈ done.funcs, ∃ id, T.lookupGlobal? f.name = some id ∧
    (T.entry id).tag = f.ty.tag
  others : ∀ n, n ∉ done.vars.map (·.name) → n ∉ done.funcs.map (·.name) →
    T.lookupGlobal? n = none ∨ ∃ id sig, T.lookupGlobal? n = some id ∧
      T.entry id = implicitEntry n ∧ p.signature? n = some sig ∧ sig.ty = .int

theorem knows_empty (p : Program) : Knows p [] .empty :=
  ⟨Table.sound_empty, by simp [Program.vars], by simp [Program.funcs], fun _ _ _ => .inl rfl⟩

structure Tells (p done : Program) (K : String → Prop) (T : Table) : Prop where
  vars : ∀ v ∈ done.vars, ∃ id, T.lookupGlobal? v.name = some id ∧
    (T.entry id).storage = .global ∧ (T.entry id).tag = v.tag
  funcs : ∀ f ∈ done.funcs, ∃ id, T.lookupGlobal? f.name = some id ∧
    (T.entry id).tag = f.ty.tag
  others : ∀ n, K n → n ∉ done.vars.map (·.name) → n ∉ done.funcs.map (·.name) →
    T.lookupGlobal? n = none ∨ ∃ id sig, T.lookupGlobal? n = some id ∧
      T.entry id = implicitEntry n ∧ p.signature? n = some sig ∧ sig.ty = .int

namespace Knows

section

variable (h : Knows p done T)
include h

/-- What the table says of names stays, if it keeps their entries and what is new are functions that
were called. -/
theorem keep {K : String → Prop} (hvars : ∀ v ∈ done.vars, K v.name)
    (hfuncs : ∀ f ∈ done.funcs, K f.name)
    (hold : ∀ n id, K n → T.lookupGlobal? n = some id → T'.lookupGlobal? n = some id ∧ T'.entry id = T.entry id)
    (hnew : ∀ n, K n → T.lookupGlobal? n = none → T'.lookupGlobal? n = none ∨ ∃ id sig, T'.lookupGlobal? n = some id ∧ T'.entry id = implicitEntry n ∧ p.signature? n = some sig ∧ sig.ty = .int) :
     Tells p done K T' := by
  refine ⟨fun v hv => ?_, fun f hf => ?_, fun n hn hnv hnf => ?_⟩
  · obtain ⟨id, hid, hentry⟩ := h.vars v hv
    obtain ⟨hlook, hsame⟩ := hold v.name id (hvars v hv) hid
    exact ⟨id, hlook, hsame ▸ hentry⟩
  · obtain ⟨id, hid, hentry⟩ := h.funcs f hf
    obtain ⟨hlook, hsame⟩ := hold f.name id (hfuncs f hf) hid
    exact ⟨id, hlook, hsame ▸ hentry⟩
  · rcases h.others n hnv hnf with hnone | ⟨id, sig, hid, hentry, hsig⟩
    · exact hnew n hn hnone
    · obtain ⟨hlook, hsame⟩ := hold n id hn hid
      exact .inr ⟨id, sig, hlook, hsame.trans hentry, hsig⟩

theorem changes {P : Entry → Prop} (hc : T.Changes name P T')
    (hvars : name ∉ done.vars.map (·.name)) (hfuncs : name ∉ done.funcs.map (·.name)) :
    Tells p done (· ≠ name) T' :=
  h.keep (fun _ hv he => hvars (he ▸ mem_map_of_mem hv))
    (fun _ hf he => hfuncs (he ▸ mem_map_of_mem hf))
    (fun n id hn hid => ⟨(hc.other n hn).1.trans hid, (hc.other n hn).2 id hid⟩)
    fun n hn hnone => .inl ((hc.other n hn).1.trans hnone)

theorem var (hvars : v.name ∉ done.vars.map (·.name)) (hfuncs : v.name ∉ done.funcs.map (·.name))
    (hc : T.Changes v.name (fun e => e.storage = .global ∧ e.tag = v.tag) T') :
    Knows p (done ++ [.var v]) T' := by
  obtain ⟨hv, hf, ho⟩ := h.changes hc hvars hfuncs
  refine ⟨hc.sound, fun w hw => ?_, by simpa using hf, fun n hnv hnf => ?_⟩
  · rw [Program.vars_append, Program.vars_var] at hw
    rcases mem_append.1 hw with hw | hw
    · exact hv w hw
    · obtain rfl := mem_singleton.1 hw
      exact hc.entry
  · rw [Program.vars_append, Program.vars_var, map_append, mem_append, not_or] at hnv
    refine ho n (fun he => hnv.2 (by simp [he])) hnv.1 (by simpa using hnf)

theorem func (hvars : f.name ∉ done.vars.map (·.name)) (hfuncs : f.name ∉ done.funcs.map (·.name))
    (hc : T.Changes f.name (fun e => e.tag = f.ty.tag) T') : Knows p (done ++ [.func f]) T' := by
  obtain ⟨hv, hf, ho⟩ := h.changes hc hvars hfuncs
  refine ⟨hc.sound, by simpa using hv, fun g hg => ?_, fun n hnv hnf => ?_⟩
  · rw [Program.funcs_append, Program.funcs_func] at hg
    rcases mem_append.1 hg with hg | hg
    · exact hf g hg
    · obtain rfl := mem_singleton.1 hg
      exact hc.entry
  · rw [Program.funcs_append, Program.funcs_func, map_append, mem_append, not_or] at hnf
    refine ho n (fun he => hnf.2 (by simp [he])) (by simpa using hnv) hnf.1

theorem extend (hglobals : T'.globals = T.globals) (hsize : T.entries.size ≤ T'.entries.size)
    (hentry : ∀ id < T.entries.size, T'.entry id = T.entry id) : Knows p done T' := by
  have hlook : ∀ n, T'.lookupGlobal? n = T.lookupGlobal? n := fun n => by
    rw [Table.lookupGlobal?, hglobals, Table.lookupGlobal?]
  have hsame : ∀ n id, T.lookupGlobal? n = some id → T'.entry id = T.entry id :=
    fun n id hid => hentry id (h.sound n id hid).1
  obtain ⟨hv, hf, ho⟩ : Tells p done (fun _ => True) T' := h.keep (fun _ _ => trivial)
    (fun _ _ => trivial) (fun n id _ hid => ⟨(hlook n).trans hid, hsame n id hid⟩)
    fun n _ hnone => .inl ((hlook n).trans hnone)
  refine ⟨fun n id hid => ?_, hv, hf, fun n => ho n trivial⟩
  rw [hlook] at hid
  obtain ⟨hlt, hname⟩ := h.sound n id hid
  exact ⟨hlt.trans_le hsize, by rw [hsame n id hid, hname]⟩

theorem grows {Γ : Names} (hg : Grows Γ 0 T T')
    (hcalls : ∀ n sig, Γ.calls n = some sig → p.signature? n = some sig) : Knows p done T' := by
  have hold : ∀ n id, T.lookupGlobal? n = some id →
      T'.lookupGlobal? n = some id ∧ T'.entry id = T.entry id := by
    intro n id hid
    rcases hg.global n with hsame | ⟨hnone, -⟩
    · exact ⟨hsame.trans hid, hg.entry id (h.sound n id hid).1⟩
    · simp [hnone] at hid
  obtain ⟨hv, hf, ho⟩ : Tells p done (fun _ => True) T' := h.keep (fun _ _ => trivial)
    (fun _ _ => trivial) (fun n id _ => hold n id) fun n _ hnone => by
      rcases hg.global n with hsame | ⟨-, ⟨sig, hsig, hty⟩, id, hid, -, hentry⟩
      · exact .inl (hsame.trans hnone)
      · exact .inr ⟨id, sig, hid, hentry, hcalls n sig hsig, hty⟩
  refine ⟨fun n id hid => ?_, hv, hf, fun n => ho n trivial⟩
  rcases hg.global n with hsame | ⟨-, -, id', hid', hlt, hentry⟩
  · rw [hsame] at hid
    obtain ⟨hlt, hname⟩ := h.sound n id hid
    exact ⟨hlt.trans_le hg.size, by rw [(hold n id hid).2, hname]⟩
  · cases hid'.symm.trans hid
    exact ⟨hlt, by rw [hentry]; rfl⟩

theorem next (hvars : name ∉ done.vars.map (·.name)) (hfuncs : name ∉ done.funcs.map (·.name))
    (hsig : p.signature? name = none) : T.lookupGlobal? name = none := by
  rcases h.others name hvars hfuncs with hnone | ⟨id, sig, -, -, hsome, -⟩
  · exact hnone
  · simp [hsig] at hsome

end

end Knows

/-! ## Global variables -/

theorem asVariable_tag (storage : Storage) (v : Var) (e : Entry) :
    (asVariable storage v.ty.tag v.count e).tag = v.tag := by
  unfold asVariable Var.tag
  by_cases hcount : v.count < 1
  · simp [hcount, show ¬ 1 < v.count by omega]
  · simp [hcount]

theorem declareGlobal_knows (h : Knows p done s.table) (hvar : v.name ∈ p.vars.map (·.name))
    (hvars : v.name ∉ done.vars.map (·.name)) (hfuncs : v.name ∉ done.funcs.map (·.name)) :
    Ensures (declareGlobal v.name v.ty.tag v.count) s fun _ s' =>
      Knows p (done ++ [.var v]) s'.table ∧ s'.table.inner = s.table.inner ∧
        s'.report = s.report ∧
        ∃ w, s'.code.toList = s.code.toList ++ (Part.global ⟨v.name, v.tag, w⟩).quads := by
  have hnone := h.next hvars hfuncs (Program.signature?_of_var hvar)
  refine (yields_declareGlobal v.name v.ty.tag v.count s).ensures.mono ?_
  rintro _ _ ⟨rfl, r, ⟨hreport, -⟩, rfl⟩
  have hchanges : s.table.Changes v.name (fun e => e.storage = .global ∧ e.tag = v.tag)
      ((s.table.installAt v.name 0).2.modifyEntry s.table.entries.size
        (asVariable .global v.ty.tag v.count)) :=
    h.sound.changes_installAt (fun _ => rfl) fun e => ⟨rfl, asVariable_tag .global v e⟩
  have htag := (hchanges.of_lookup (by
    rw [Table.lookupGlobal?_modifyEntry, Table.lookupGlobal?_installAt_zero, if_pos rfl])).2
  refine ⟨h.var hvars hfuncs hchanges, ?_, hreport hnone,
    Numeral.wrap64 (v.count * v.ty.tag.size), ?_⟩
  · exact (Table.inner_modifyEntry _).trans Table.inner_installAt_zero
  · rw [htag, Array.toList_push]
    rfl

/-! ## Heads of functions -/

theorem openFunction_knows (h : Knows p done s.table) (hvars : f.name ∉ done.vars.map (·.name))
    (hfuncs : f.name ∉ done.funcs.map (·.name))
    (hsig : ∀ sig, p.signature? f.name = some sig → sig.ty = f.ty) :
    Ensures (openFunction f.ty.tag f.name) s fun id s' =>
      Knows p (done ++ [.func f]) s'.table ∧ s'.table.lookupGlobal? f.name = some id ∧
        s'.table.inner = [] :: s.table.inner ∧ s'.report = s.report ∧ s'.formals = [] ∧
        s'.locals = [] := by
  refine (yields_openFunction f.ty.tag f.name s).ensures.mono ?_
  rintro id _ ⟨T, r, rfl, hinner, hsound, hreport, -⟩
  rw [base_tag] at hsound hreport
  obtain ⟨hchanges, hid⟩ := hsound h.sound
  refine ⟨h.func hvars hfuncs hchanges, hid, hinner, hreport fun k hk => ?_, rfl, rfl⟩
  rcases h.others f.name hvars hfuncs with hnone | ⟨k', sig, hk', hentry, hsome, hint⟩
  · simp [hnone] at hk
  · cases hk'.symm.trans hk
    rw [hentry, ← hsig sig hsome, hint]
    exact ⟨rfl, rfl, rfl⟩

/-! ## Scopes -/

/-- The entry `id` is what the table finds under a name: the variable `x`. -/
def Describes (T : Table) (id : EntryId) (x : String × Storage × Tag) : Prop :=
  T.lookup? x.1 = some id ∧ id < T.entries.size ∧ (T.entry id).name = x.1 ∧
    (T.entry id).storage = x.2.1 ∧ (T.entry id).tag = x.2.2

/-- Behind `s1`, where the scope of a function is open and empty, the formals `fs` and the locals
`ls` have been declared. -/
structure Scoped (s1 : State) (fs ls : List (String × Storage × Tag)) (s : State) : Prop where
  formals : Forall₂ (Describes s.table) s.formals fs
  locals : Forall₂ (Describes s.table) s.locals ls
  level : ∃ level, s.table.inner = [level] ∧
    ∀ n, (level.lookup n).isSome = true → n ∈ (fs ++ ls).map Prod.fst
  globals : s.table.globals = s1.table.globals
  size : s1.table.entries.size ≤ s.table.entries.size
  entry : ∀ id < s1.table.entries.size, s.table.entry id = s1.table.entry id
  report : s.report = s1.report

section Declare

variable {fs ls : List (String × Storage × Tag)} {x : String × Storage × Tag} {g : Entry → Entry}

def declared (T : Table) (name : String) (g : Entry → Entry) : Table :=
  (T.install name).2.modifyEntry T.entries.size g

theorem size_declared (name : String) :
    (declared T name g).entries.size = T.entries.size + 1 := by
  rw [declared, Table.size_modifyEntry, Table.install, Table.size_installAt]

theorem entry_declared (name : String) (id : EntryId) :
    (declared T name g).entry id =
      if id = T.entries.size then g { name, level := T.level } else T.entry id := by
  rw [declared, ← Table.clampLevel_level (T := T)]
  exact Table.entry_install_modifyEntry g

theorem lookup?_declared (name n : String) :
    (declared T name g).lookup? n = if n = name then some T.entries.size else T.lookup? n := by
  rw [declared, Table.lookup?_modifyEntry, Table.lookup?_install]

theorem Describes.declare (h : Describes T id x) (hne : x.1 ≠ name) :
    Describes (declared T name g) id x := by
  obtain ⟨hid, hlt, hentry⟩ := h
  refine ⟨?_, by rw [size_declared]; exact Nat.lt_succ_of_lt hlt, ?_⟩
  · rw [lookup?_declared, if_neg hne, hid]
  · rw [entry_declared, if_neg hlt.ne]
    exact hentry

theorem describes_declared (hname : ∀ e, (g e).name = e.name) (hstorage : ∀ e, (g e).storage = x.2.1)
    (htag : ∀ e, (g e).tag = x.2.2) : Describes (declared T x.1 g) T.entries.size x := by
  refine ⟨by rw [lookup?_declared, if_pos rfl], by rw [size_declared]; exact Nat.lt_succ_self _, ?_⟩
  rw [entry_declared, if_pos rfl]
  exact ⟨hname _, hstorage _, htag _⟩

theorem Scoped.declare {s' : State} {fs' ls' : List (String × Storage × Tag)}
    (h : Scoped s1 fs ls s) (hnew : x.1 ∉ (fs ++ ls).map Prod.fst)
    (hname : ∀ e, (g e).name = e.name) (hstorage : ∀ e, (g e).storage = x.2.1)
    (htag : ∀ e, (g e).tag = x.2.2) (htable : s'.table = declared s.table x.1 g)
    (hreport : s'.report = s.report)
    (hlists : s'.formals = s.formals ++ [s.table.entries.size] ∧ s'.locals = s.locals ∧
        fs' = fs ++ [x] ∧ ls' = ls ∨
      s'.formals = s.formals ∧ s'.locals = s.locals ++ [s.table.entries.size] ∧
        fs' = fs ∧ ls' = ls ++ [x]) : Scoped s1 fs' ls' s' := by
  have hself : Describes s'.table s.table.entries.size x := by
    rw [htable]
    exact describes_declared hname hstorage htag
  have hkeep : ∀ {ids : List EntryId} {xs : List (String × Storage × Tag)},
      xs ⊆ fs ++ ls → Forall₂ (Describes s.table) ids xs →
        Forall₂ (Describes s'.table) ids xs := by
    intro ids xs hsub hall
    rw [htable]
    induction hall with
    | nil => exact .nil
    | cons hd _ ih =>
      refine .cons (hd.declare fun he => hnew ?_) (ih fun y hy => hsub (mem_cons_of_mem _ hy))
      exact he ▸ mem_map_of_mem (hsub mem_cons_self)
  obtain ⟨level, hlevel, hnames⟩ := h.level
  have hmem : ∀ n, n = x.1 ∨ n ∈ (fs ++ ls).map Prod.fst → n ∈ (fs' ++ ls').map Prod.fst := by
    rcases hlists with ⟨-, -, rfl, rfl⟩ | ⟨-, -, rfl, rfl⟩ <;>
      · intro n hn
        simp only [map_append, mem_append, map_cons, map_nil, mem_singleton] at hn ⊢
        tauto
  refine ⟨?_, ?_, ⟨(x.1, s.table.entries.size) :: level, ?_, fun n hn => hmem n ?_⟩, ?_, ?_, ?_,
    hreport.trans h.report⟩
  · have hold := hkeep (subset_append_left _ _) h.formals
    rcases hlists with ⟨hf, -, rfl, -⟩ | ⟨hf, -, rfl, -⟩
    · rw [hf]
      exact rel_append hold (.cons hself .nil)
    · rw [hf]
      exact hold
  · have hold := hkeep (subset_append_right _ _) h.locals
    rcases hlists with ⟨-, hl, -, rfl⟩ | ⟨-, hl, -, rfl⟩
    · rw [hl]
      exact hold
    · rw [hl]
      exact rel_append hold (.cons hself .nil)
  · rw [htable, declared, Table.inner_modifyEntry, Table.inner_install hlevel]
  · by_cases hx : n = x.1
    · exact .inl hx
    · rw [lookup_cons, beq_false_of_ne hx] at hn
      exact .inr (hnames n hn)
  · rw [htable, ← h.globals]
    exact Table.globals_install (by simp [hlevel])
  · rw [htable, size_declared]
    exact Nat.le_succ_of_le h.size
  · intro id hid
    rw [htable, entry_declared, if_neg (ne_of_lt (hid.trans_le h.size)), h.entry id hid]

theorem declareInFunc_eq (h : Scoped s1 fs ls s) (hnew : name ∉ (fs ++ ls).map Prod.fst) :
    Ensures (declareInFunc name) s fun id s' =>
      id = s.table.entries.size ∧ s' = { s with table := (s.table.install name).2 } := by
  obtain ⟨level, hlevel, hnames⟩ := h.level
  have hnone : (s.table.lookupCurrent? name).isSome = false := by
    rw [Table.lookupCurrent?, hlevel]
    exact Bool.eq_false_iff.2 fun hsome => hnew (hnames name hsome)
  simp only [declareInFunc, ensures_bind, ensures_get, hnone, Bool.false_eq_true, if_false]
  split
  · exact ensures_throw
  · exact ensures_modifyGet.2 ⟨rfl, rfl⟩

theorem declareFormal_scoped {ty : Ty} (h : Scoped s1 fs ls s)
    (hnew : name ∉ (fs ++ ls).map Prod.fst) : Ensures (declareFormal name ty.tag) s fun _ s' =>
      Scoped s1 (fs ++ [(name, .param, ty.tag)]) ls s' := by
  simp only [declareFormal, setEntry, ensures_bind, ensures_get, ensures_modify, ensures_pure]
  refine (declareInFunc_eq h hnew).mono ?_
  rintro _ _ ⟨rfl, rfl⟩
  refine h.declare (x := (name, .param, ty.tag)) hnew ?_ ?_ ?_ rfl rfl (.inl ⟨rfl, rfl, rfl, rfl⟩)
  · exact fun _ => rfl
  · exact fun _ => rfl
  · exact fun e => asVariable_tag .param ⟨name, ty, 1⟩ e

theorem declareLocal_scoped (h : Scoped s1 fs ls s) (hnew : v.name ∉ (fs ++ ls).map Prod.fst) :
    Ensures (declareLocal v.name v.ty.tag v.count) s fun _ s' =>
      Scoped s1 fs (ls ++ [(v.name, .stack, v.tag)]) s' := by
  simp only [declareLocal, setEntry, ensures_bind, ensures_get, ensures_modify, ensures_pure]
  refine (declareInFunc_eq h hnew).mono ?_
  rintro _ _ ⟨rfl, rfl⟩
  refine h.declare (x := (v.name, .stack, v.tag)) hnew ?_ ?_ ?_ rfl rfl (.inr ⟨rfl, rfl, rfl, rfl⟩)
  · exact fun _ => rfl
  · exact fun _ => rfl
  · exact fun e => asVariable_tag .stack v e

theorem declareAll_scoped {β : Type} {d : β → EmitM EntryId}
    (put : List (String × Storage × Tag) → State → Prop) (var : β → String × Storage × Tag)
    (names : List String) (hd : ∀ b xs s, put xs s → (var b).1 ∉ names →
      (var b).1 ∉ xs.map Prod.fst → Ensures (d b) s fun _ s' => put (xs ++ [var b]) s')
    (bs : List β) (hnodup : (names ++ (bs.map var).map Prod.fst).Nodup) (h : put [] s) :
    Ensures (bs.forM fun b => discard (d b)) s fun _ s' => put (bs.map var) s' := by
  refine (ensures_forM (I := fun cs s' => ∃ bs', bs' ++ cs = bs ∧ put (bs'.map var) s')
    ⟨[], rfl, h⟩ ?_).mono ?_
  rotate_left
  · rintro _ s' ⟨bs', hbs, hput⟩
    rw [append_nil] at hbs
    exact hbs ▸ hput
  · rintro b cs t ⟨bs', rfl, hput⟩
    have hdiscard : discard (d b) = (fun _ => PUnit.unit) <$> d b := rfl
    simp only [map_append, map_cons, nodup_append, mem_append, mem_cons, nodup_cons] at hnodup
    rw [hdiscard, ensures_map]
    refine (hd b (bs'.map var) t hput ?_ ?_).mono fun _ t' ht' => ⟨bs' ++ [b], by simp, by simpa using ht'⟩
    · exact fun hm => hnodup.2.2 _ hm _ (.inr (.inl rfl)) rfl
    · exact fun hm => hnodup.2.1.2.2 _ hm _ (.inl rfl) rfl

end Declare

/-! ## Storage in the code -/

def Declares (d : Decl) (x : String × Storage × Tag) : Prop := d.name = x.1 ∧ d.tag = x.2.2

theorem forall₂_declares {ids : List EntryId} {xs : List (String × Storage × Tag)}
    {d : Entry → Decl} (hd : ∀ e, (d e).name = e.name ∧ (d e).tag = e.tag)
    (h : Forall₂ (Describes T) ids xs) :
    Forall₂ Declares (ids.map fun id => d (T.entry id)) xs := by
  rw [forall₂_map_left_iff]
  refine h.imp fun id x ⟨_, _, hname, _, htag⟩ => ?_
  exact ⟨(hd _).1.trans hname, (hd _).2.trans htag⟩

theorem beginFunction_scoped {fs ls : List (String × Storage × Tag)} (h : Scoped s1 fs ls s) :
    Ensures (beginFunction (some id)) s fun _ s' => s'.table = s.table ∧ s'.report = s.report ∧
      s'.control = s.control ∧ ∃ ds es : List Decl, Forall₂ Declares ds fs ∧ Forall₂ Declares es ls ∧
        s'.code.toList = s.code.toList ++
          .funcBegin (s.table.entry id).name (s.table.entry id).tag ::
            (ds.map .formalDecl ++ es.map .localDecl) := by
  refine (ensures_iff_of_eq (beginFunction_eq id s)).2 ⟨rfl, rfl, rfl, _, _,
    forall₂_declares (d := fun e => ⟨e.name, e.tag, e.tag.size⟩) (fun _ => ⟨rfl, rfl⟩) h.formals,
    forall₂_declares (d := fun e => ⟨e.name, e.tag, Numeral.wrap64 (e.count * e.tag.size)⟩)
      (fun _ => ⟨rfl, rfl⟩) h.locals, ?_⟩
  simp [State.storage, Function.comp_def]

/-! ## The names of a function -/

theorem Scoped.var {storage : Storage} {tag : Tag} (h : Scoped s1 f.params f.autos s)
    (hk : Knows p done s1.table) (hn : (p.names done f).var? n = some (storage, tag)) :
    ∃ id, s.table.lookup? n = some id ∧ id < s.table.entries.size ∧ (s.table.entry id).name = n ∧
      (s.table.entry id).storage = storage ∧ (s.table.entry id).tag = tag := by
  have hlocals : (p.names done f).locals n = f.scope.lookup n := rfl
  rw [Names.var?, hlocals] at hn
  cases hl : f.scope.lookup n with
  | some x =>
    rw [hl] at hn
    cases hn
    obtain ⟨id, -, hid⟩ :=
      exists_of_forall₂ (rel_append h.formals h.locals) (mem_of_lookup hl)
    exact ⟨id, hid⟩
  | none =>
    rw [hl, Option.none_or] at hn
    obtain ⟨tag', hglobal, heq⟩ := Option.map_eq_some_iff.1 hn
    cases heq
    obtain ⟨v, hv, hvn⟩ := mem_map.1 (mem_of_lookup hglobal)
    cases hvn
    obtain ⟨id, hid, hstorage, htag⟩ := hk.vars v hv
    obtain ⟨hlt, hname⟩ := hk.sound v.name id hid
    obtain ⟨level, hlevel, hnames⟩ := h.level
    have hnone : level.lookup v.name = none := by
      by_contra hsome
      exact lookup_eq_none.1 hl (hnames v.name (Option.isSome_iff_ne_none.2 hsome))
    refine ⟨id, ?_, hlt.trans_le h.size, ?_⟩
    · rw [Table.lookup?, hlevel, h.globals]
      simpa [hnone, Table.lookupGlobal?] using hid
    · rw [h.entry id hlt]
      exact ⟨hname, hstorage, htag⟩

theorem Program.signature?_of_calls (h : (p.names done f).calls n = some sig) :
    p.signature? n = some sig ∧ (sig.ty = .int ∨ n ∈ done.funcs.map (·.name)) := by
  obtain ⟨hsig, hseen⟩ := Option.filter_eq_some_iff.1 h
  exact ⟨hsig, by simpa using hseen⟩

theorem Knows.calls (h : Knows p done T) (hnodup : (p.funcs.map (·.name)).Nodup)
    (hvars : done.vars ⊆ p.vars) (hfuncs : done.funcs ⊆ p.funcs)
    (hn : (p.names done f).calls n = some sig) : T.lookupGlobal? n = none ∧ sig.ty = .int ∨
      ∃ id, T.lookupGlobal? n = some id ∧ id < T.entries.size ∧ (T.entry id).name = n ∧
        (T.entry id).tag = sig.ty.tag := by
  obtain ⟨hsig, hseen⟩ := Program.signature?_of_calls hn
  by_cases hdone : n ∈ done.funcs.map (·.name)
  · obtain ⟨g, hg, rfl⟩ := mem_map.1 hdone
    obtain ⟨id, hid, htag⟩ := h.funcs g hg
    obtain ⟨hlt, hname⟩ := h.sound g.name id hid
    rw [Program.signature?_of_func hnodup (hfuncs hg) hsig]
    exact .inr ⟨id, hid, hlt, hname, htag⟩
  · have hty : sig.ty = .int := hseen.resolve_right hdone
    have hvar : n ∉ done.vars.map (·.name) := fun hm =>
      Program.notMem_vars_of_signature? hsig (map_subset _ hvars hm)
    rcases h.others n hvar hdone with hnone | ⟨id, _, hid, hentry, -, -⟩
    · exact .inl ⟨hnone, hty⟩
    · refine .inr ⟨id, hid, (h.sound n id hid).1, ?_⟩
      rw [hentry, hty]
      exact ⟨rfl, rfl⟩

theorem Knows.owner (h : Knows p (done ++ [.func f]) T) (hid : T.lookupGlobal? f.name = some id) :
    id < T.entries.size ∧ (T.entry id).name = f.name ∧ (T.entry id).tag = f.ty.tag := by
  obtain ⟨id', hid', htag⟩ := h.funcs f (by simp)
  obtain rfl : id' = id := Option.some.inj (hid'.symm.trans hid)
  obtain ⟨hlt, hname⟩ := h.sound f.name id' hid
  exact ⟨hlt, hname, htag⟩

theorem Scoped.knows {fs ls : List (String × Storage × Tag)} (h : Scoped s1 fs ls s)
    (hk : Knows p done s1.table) : Knows p done s.table :=
  hk.extend h.globals h.size h.entry

def frameOf {id : EntryId} (hk : Knows p (done ++ [.func f]) s1.table)
    (hs : Scoped s1 f.params f.autos s) (hid : s1.table.lookupGlobal? f.name = some id)
    (hnodup : (p.funcs.map (·.name)).Nodup) (hvars : Program.vars (done ++ [.func f]) ⊆ p.vars)
    (hfuncs : Program.funcs (done ++ [.func f]) ⊆ p.funcs) (before : List Quad) : Frame where
  names := p.names (done ++ [.func f]) f
  table := s.table
  before
  errors := s.report.errorCount
  func := id
  ret := f.ty
  vars _ _ _ hn := hs.var hk hn
  calls _ _ hn := (hs.knows hk).calls hnodup hvars hfuncs hn
  owner := by
    obtain ⟨hlt, -, htag⟩ := hk.owner hid
    exact ⟨Nat.lt_of_lt_of_le hlt hs.size, by rw [hs.entry id hlt, htag]⟩

/-! ## Functions -/

theorem endFunction_silent (hpending : (s.pending.filter fun p => !p.declared) = []) :
    Ensures endFunction s fun _ s' => s'.code.toList = s.code.toList ++ [.funcEnd] ∧
      s'.table = s.table.leave ∧ s'.report = s.report := by
  intro _ s' h
  rw [endFunction_eq h]
  simp [State.unresolved, hpending]

structure Made (p : Program) (f : Func) (r : Routine) : Prop where
  name : r.name = f.name
  tag : r.tag = f.ty.tag
  body : ∃ (done : Program) (ds es : List Decl) (seg : List Quad) (K : Kinds),
    done.vars ⊆ p.vars ∧ Forall₂ Declares ds f.params ∧ Forall₂ Declares es f.autos ∧
    r.body = ds.map .formalDecl ++ es.map .localDecl ++ seg ∧
    Checks (p.names done f) .none seg K

section Items

variable {settings : Settings} {rest : Program}

theorem Program.WellFormed.fresh_func (hp : p.WellFormed settings)
    (hitems : p = done ++ .func f :: rest) :
    f.name ∉ done.vars.map (·.name) ∧ f.name ∉ done.funcs.map (·.name) ∧
      Program.vars (done ++ [.func f]) ⊆ p.vars ∧
      Program.funcs (done ++ [.func f]) ⊆ p.funcs ∧ f ∈ p.funcs := by
  have hsplit : p = done ++ ([.func f] ++ rest) := hitems
  have hvars : p.vars = done.vars ++ rest.vars := by
    rw [hsplit, Program.vars_append, Program.vars_append, Program.vars_func, nil_append]
  have hfuncs : p.funcs = Program.funcs (done ++ [.func f]) ++ rest.funcs := by
    rw [hsplit, ← append_assoc, Program.funcs_append]
  have hmem : f ∈ p.funcs := by simp [hfuncs]
  refine ⟨fun hv => ?_, fun hf => ?_, ?_, ?_, hmem⟩
  · obtain ⟨v, hv, hname⟩ := mem_map.1 hv
    refine (hp.apart v (hvars ▸ mem_append_left _ hv)).1 ?_
    exact hname ▸ mem_map_of_mem hmem
  · have hnodup := hp.funcs
    rw [hfuncs, Program.funcs_append, Program.funcs_func, append_assoc, map_append,
      nodup_append] at hnodup
    exact hnodup.2.2 _ hf f.name (by simp) rfl
  · rw [Program.vars_append, Program.vars_func, append_nil, hvars]
    exact subset_append_left _ _
  · exact hfuncs ▸ subset_append_left _ _

theorem Program.WellFormed.fresh_var (hp : p.WellFormed settings)
    (hitems : p = done ++ .var v :: rest) :
    v.name ∈ p.vars.map (·.name) ∧ v.name ∉ done.vars.map (·.name) ∧
      v.name ∉ done.funcs.map (·.name) := by
  have hsplit : p = done ++ ([.var v] ++ rest) := hitems
  have hvars : p.vars = done.vars ++ v :: rest.vars := by
    rw [hsplit, Program.vars_append, Program.vars_append, Program.vars_var, singleton_append]
  have hmem : v ∈ p.vars := by simp [hvars]
  refine ⟨mem_map_of_mem hmem, fun hv => ?_, fun hf => ?_⟩
  · have hnodup := hp.vars
    rw [hvars, map_append, nodup_append] at hnodup
    exact hnodup.2.2 _ hv v.name (by simp) rfl
  · refine (hp.apart v hmem).1 (map_subset _ ?_ hf)
    rw [hsplit, Program.funcs_append]
    exact subset_append_left _ _

theorem Func.emit_checked (hp : p.WellFormed settings) (hitems : p = done ++ .func f :: rest)
    (hf : f.WellFormed settings (p.names (done ++ [.func f]) f)) (h : Idle settings s)
    (hk : Knows p done s.table) (hinner : s.table.inner = []) :
    Ensures f.emit s fun _ s' => Knows p (done ++ [.func f]) s'.table ∧ s'.table.inner = [] ∧
      s'.report.errorCount = s.report.errorCount ∧
      ∃ r, Made p f r ∧ s'.code.toList = s.code.toList ++ (Part.func r).quads := by
  obtain ⟨hvars, hfuncs, hdone, hsub, hmem⟩ := hp.fresh_func hitems
  have hsig : ∀ sig, p.signature? f.name = some sig → sig.ty = f.ty := fun sig hs => by
    rw [Program.signature?_of_func hp.funcs hmem hs]
  have hnodup : (f.params.map Prod.fst ++ f.autos.map Prod.fst).Nodup := by
    simpa [Func.scope] using hf.distinct
  simp only [Func.emit, ensures_bind, ensures_pure]
  refine ((openFunction_yields f.ty.tag f.name s).and_ensures
    (openFunction_knows hk hvars hfuncs hsig)).ensures.mono ?_
  rintro id s1 ⟨⟨hcode1, hcontrol1⟩, hk1, hid, hinner1, hreport1, hformals1, hlocals1⟩
  have hfunc1 : s1.func = some id := congrArg Control.func hcontrol1
  have hs1 : Scoped s1 [] [] s1 := by
    refine ⟨by rw [hformals1]; exact .nil, by rw [hlocals1]; exact .nil,
      ⟨[], by rw [hinner1, hinner], by simp⟩, rfl, le_rfl, fun _ _ => rfl, rfl⟩
  refine ((declareAll_yields f.formals (by rw [hfunc1]; rfl) fun p _ =>
    declareFormal_yields p.1 p.2.tag).and_ensures (declareAll_scoped
      (fun xs s => Scoped s1 xs [] s) (fun p : String × Ty => (p.1, .param, p.2.tag)) []
      (fun b xs s hxs _ hnew => declareFormal_scoped hxs (by simpa using hnew)) f.formals
      (nodup_append.1 hnodup).1 hs1)).ensures.mono ?_
  rintro - s2 ⟨⟨hcode2, hcontrol2⟩, hs2⟩
  have hfunc2 : s2.func = some id := (congrArg Control.func hcontrol2).trans hfunc1
  refine ((declareAll_yields f.locals (by rw [hfunc2]; rfl) fun v _ =>
    declareLocal_yields v.name v.ty.tag v.count).and_ensures (declareAll_scoped
      (fun xs s => Scoped s1 f.params xs s) (fun v : Var => (v.name, .stack, v.tag))
      (f.params.map Prod.fst)
      (fun v xs s hxs hparam hnew => declareLocal_scoped hxs (by
        rw [map_append, mem_append]
        exact not_or.2 ⟨hparam, hnew⟩)) f.locals hnodup hs2)).ensures.mono ?_
  rintro - s3 ⟨⟨hcode3, hcontrol3⟩, hs3⟩
  have hcontrol := hcontrol3.trans (hcontrol2.trans hcontrol1)
  refine ((beginFunction_ready h (hcode3.trans (hcode2.trans hcode1)) hcontrol).and_ensures
    (beginFunction_scoped hs3)).ensures.mono ?_
  rintro - s4 ⟨⟨name, tag, decls, -, h4⟩, htable4, hreport4, hcontrol4, ds, es, hds, hes, hcode4⟩
  let c := frameOf hk1 hs3 hid hp.funcs hdone hsub s4.code.toList
  have hinv : Inv c ⟨0, [], #[]⟩ .none s4 := by
    have hcontrol' := hcontrol4.trans hcontrol
    refine ⟨⟨[], by simp [c, frameOf], .nil _⟩, fun _ _ ht => (by cases ht),
      congrArg Report.errorCount hreport4, ?_, ?_, ?_, by simp, congrArg Control.func hcontrol'⟩
    · rw [htable4]
      exact .refl _ _
    · have hloops : s4.loops = s.loops := congrArg Control.loops hcontrol'
      rw [hloops, h.loops]
      rfl
    · have hdeclared : s4.declared = [] := congrArg Control.declared hcontrol'
      simp [hdeclared]
  refine ((f.body.emit_ready h4 (hf.admitted.permits.congr rfl rfl rfl rfl)).and_ensures
    (f.body.emit_typed (c := c) (a := ⟨0, [], #[]⟩) hf.typed ?_ ?_ .none s4 hinv)).ensures.mono ?_
  · simpa [atHead] using hf.admitted.permits.enclosed
  · simpa [atHead] using hf.admitted.permits.labels
  rintro t s5 ⟨⟨seg, cs, bs, h5, -, -, hout⟩, K, hinv5⟩
  obtain ⟨rfl, rfl⟩ := hout rfl
  have hdecl := hf.admitted.forwards_declared (s.code.toList ++ [.funcBegin name tag]) decls seg
  obtain ⟨qs, hcode5, hqs⟩ := hinv5.code
  refine (endFunction_silent (pending_declared h5 hdecl)).mono ?_
  rintro - s6 ⟨hcode6, htable6, hreport6⟩
  refine ⟨?_, ?_, ?_, ⟨f.name, f.ty.tag, ds.map .formalDecl ++ es.map .localDecl ++ qs⟩,
    ⟨rfl, rfl, _, ds, es, qs, K, hdone, hds, hes, rfl, hqs⟩, ?_⟩
  · rw [htable6]
    have hk5 := (hs3.knows hk1).grows hinv5.table fun n sig hn => (Program.signature?_of_calls hn).1
    exact hk5.extend rfl le_rfl fun _ _ => rfl
  · obtain ⟨level, hlevel, -⟩ := hs3.level
    have hinner5 : s5.table.inner = s3.table.inner := hinv5.table.inner
    rw [htable6, Table.leave, hinner5, hlevel]
    rfl
  · have herrors5 : s5.report.errorCount = s3.report.errorCount := hinv5.errors
    rw [hreport6, herrors5, hs3.report, hreport1]
  · obtain ⟨hlt, hname, htag⟩ := hk1.owner hid
    have hcode : s3.code = s.code := hcode3.trans (hcode2.trans hcode1)
    have hbefore : c.before = s4.code.toList := rfl
    rw [hcode6, hcode5, hbefore, hcode4, hs3.entry id hlt, hname, htag, hcode]
    simp [Part.quads]

/-- What an item of a program and a part of its code have to do with each other. -/
def Item.Makes (p : Program) : Item → Part → Prop
  | .var v, .global d => d.name = v.name ∧ d.tag = v.tag
  | .func f, .func r => Made p f r ∧ (fuse? r.body).isSome = true
  | _, _ => False

theorem Program.emit_checkedFrom (hp : p.WellFormed settings) (rest : Program) :
    ∀ {done : Program} {s : State}, p = done ++ rest →
      p.FuncsWellFormed settings done rest → Idle settings s → Knows p done s.table →
      s.table.inner = [] →
      Ensures rest.emit s fun _ s' => Knows p p s'.table ∧ s'.table.inner = [] ∧
        s'.report.errorCount = s.report.errorCount ∧
        ∃ ps : List Part, s'.code.toList = s.code.toList ++ ps.flatMap Part.quads ∧
          Forall₂ (Item.Makes p) rest ps := by
  induction rest with
  | nil =>
    intro done s hitems _ _ hk hinner
    rw [append_nil] at hitems
    exact ensures_pure.2 ⟨hitems ▸ hk, hinner, rfl, [], by simp, .nil⟩
  | cons item rest ih =>
    intro done s hitems hwf h hk hinner
    have hnext : p = done ++ [item] ++ rest := by rw [hitems, append_assoc]; rfl
    cases item with
    | var v =>
      obtain ⟨hvar, hvars, hfuncs⟩ := hp.fresh_var hitems
      have hdiscard : discard (declareGlobal v.name v.ty.tag v.count) =
        (fun _ => PUnit.unit) <$> declareGlobal v.name v.ty.tag v.count := rfl
      rw [Program.emit, hdiscard, ensures_bind, ensures_map]
      refine ((declareGlobal_idle h v.name v.ty.tag v.count).and_ensures
        (declareGlobal_knows hk hvar hvars hfuncs)).ensures.mono ?_
      rintro _ s1 ⟨⟨_, h1, -⟩, hk1, hinner1, hreport1, w, hcode1⟩
      refine (ih hnext hwf h1 hk1 (hinner1.trans hinner)).mono ?_
      rintro _ s2 ⟨hk2, hinner2, herrors2, ps, hcode2, hps⟩
      refine ⟨hk2, hinner2, herrors2.trans (congrArg Report.errorCount hreport1),
        .global ⟨v.name, v.tag, w⟩ :: ps, ?_, .cons ⟨rfl, rfl⟩ hps⟩
      rw [hcode2, hcode1]
      simp
    | func f =>
      obtain ⟨hf, hrest⟩ := hwf
      simp only [Program.emit, ensures_bind, ensures_pure]
      refine ((Func.emit_idle hf.admitted h).and_ensures
        (Func.emit_checked hp hitems hf h hk hinner)).ensures.mono ?_
      rintro _ s1 ⟨⟨r', h1, hcode', himpl, -⟩, hk1, hinner1, herrors1, r, hr, hcode1⟩
      obtain rfl : r' = r :=
        Flow.Part.func_quads_injective (append_cancel_left (hcode'.symm.trans hcode1))
      refine (ih hnext hrest h1 hk1 hinner1).mono ?_
      rintro _ s2 ⟨hk2, hinner2, herrors2, ps, hcode2, hps⟩
      refine ⟨hk2, hinner2, herrors2.trans herrors1, .func r' :: ps, ?_,
        .cons ⟨hr, himpl.fused⟩ hps⟩
      rw [hcode2, hcode1]
      simp

/-- The emission of a well-formed program reports no error, and each part of the code is that of
an item. -/
theorem Program.emit_checked (hp : p.WellFormed settings) (report : Report) :
    Ensures p.emit (State.new settings .empty report) fun _ s =>
      Knows p p s.table ∧ s.table.inner = [] ∧ s.report.errorCount = report.errorCount ∧
        ∃ ps : List Part, s.code.toList = ps.flatMap Part.quads ∧
          Forall₂ (Item.Makes p) p ps := by
  refine (Program.emit_checkedFrom hp p rfl hp.bodies (.new settings .empty report)
    (knows_empty p) rfl).mono ?_
  rintro _ s ⟨hk, hinner, herrors, ps, hcode, hps⟩
  exact ⟨hk, hinner, herrors, ps, by simpa [State.new] using hcode, hps⟩

end Items

end Quadruple.Source
