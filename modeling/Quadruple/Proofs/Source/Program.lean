import Quadruple.Proofs.Emit.Declare
import Quadruple.Proofs.Source.Control

/-!
# Emission of functions and programs

Between two functions the emitter is idle: no loop is open and every blank so far has its one
equation. A function takes it from idle to idle and emits its head, its declarations, its body and
its end.

Main statements: `Func.emit_idle` and `Program.emit_parts`. Within the limits the emission of a
function and of a program succeeds, and the code is that of the parts in order, where the body of
each function holds all the labels that it jumps to and places the statement.
-/

namespace Quadruple.Source

open List
open Emit
open Symbols (EntryId)
open Quadruple.Flow (Equations Routine Part Closed fuse?)

/-! ## Heads of functions -/

theorem openFunction_yields (tag : Tag) (name : String) (s : State) :
    Yields (openFunction tag name) s fun id s' => s'.code = s.code ∧
      s'.control = { s.control with pending := [], declared := [], func := some id } := by
  refine (yields_openFunction tag name s).mono ?_
  rintro id _ ⟨_, _, rfl, -⟩
  exact ⟨rfl, rfl⟩

/-- Nothing was emitted, and control is where it was. -/
def Still (s s' : State) : Prop := s'.code = s.code ∧ s'.control = s.control

variable {s : State} (name : String)

theorem declareInFunc_yields (hs : s.func.isSome = true) :
    Yields (declareInFunc name) s fun _ => Still s := by
  rcases declareInFunc_cases name s with ⟨hnone, -⟩ | ⟨-, h⟩
  · simp [hnone] at hs
  · refine h.mono ?_
    rintro _ _ ⟨-, _, -, rfl⟩
    exact ⟨rfl, rfl⟩

theorem declareFormal_yields (tag : Tag) (hs : s.func.isSome = true) :
    Yields (declareFormal name tag) s fun _ => Still s := by
  simp only [declareFormal, setEntry, yields_bind, yields_get, yields_modify, yields_pure]
  exact declareInFunc_yields name hs

theorem declareLocal_yields (tag : Tag) (count : Int) (hs : s.func.isSome = true) :
    Yields (declareLocal name tag count) s fun _ => Still s := by
  simp only [declareLocal, setEntry, yields_bind, yields_get, yields_modify, yields_pure]
  exact declareInFunc_yields name hs

theorem declareAll_yields {α : Type} {f : α → EmitM EntryId} (xs : List α)
    (hs : s.func.isSome = true)
    (hf : ∀ x {s : State}, s.func.isSome = true → Yields (f x) s fun _ => Still s) :
    Yields (xs.forM fun x => discard (f x)) s fun _ => Still s := by
  refine yields_forM (I := fun _ => Still s) ⟨rfl, rfl⟩ ?_
  rintro x - t ⟨hcode, hcontrol⟩
  have hfunc : t.func = s.func := congrArg Control.func hcontrol
  have hdiscard : discard (f x) = (fun _ => PUnit.unit) <$> f x := rfl
  rw [hdiscard, yields_map]
  exact (hf x (hfunc ▸ hs)).mono fun _ t' ⟨hcode', hcontrol'⟩ =>
    ⟨hcode'.trans hcode, hcontrol'.trans hcontrol⟩

/-! ## Between functions -/

structure Idle (settings : Settings) (s : State) : Prop where
  settings : s.settings = settings
  loops : s.loops = []
  blanks : ∀ b, (s.patched.map Prod.fst).count b = if 1 ≤ b ∧ b ≤ s.blanks then 1 else 0
  equations : s.code.toList.filterMap Quad.equation? =
    s.patched.reverse.map fun p => ((p.1 : Int), p.2)

theorem Idle.new (settings : Settings) (table : Symbols.Table) (report : Report) :
    Idle settings (State.new settings table report) where
  settings := rfl
  loops := rfl
  blanks := by
    intro b
    rw [if_neg (by simp [State.new]; omega)]
    rfl
  equations := rfl

def atHead (settings : Settings) (before : List Quad) : Outline :=
  { settings, before, body := [], loops := [], held := [], forwards := [], declared := [] }

variable {settings : Settings} {f : Func} {p : Program}

theorem Idle.ready {t : State} (h : Idle settings s) {q : Quad} {id : EntryId}
    (hq : q.equation? = none) (hcode : t.code = s.code.push q) (hmarked : t.marked = false)
    (hcontrol : t.control = { s.control with pending := [], declared := [], func := some id }) :
    Ready (atHead settings (s.code.toList ++ [q])) t := by
  simp only [State.control, Control.mk.injEq] at hcontrol
  obtain ⟨hset, hlabels, hblanks, hlinks, hpatched, hloops, hpending, hdeclared, hfunc⟩ := hcontrol
  have hopen : (atHead settings (s.code.toList ++ [q])).open t = [] := by
    simp [Outline.open, Outline.loopBlanks, Outline.heldBlanks, atHead, State.openGotos,
      pendingBlanks, hpending]
  constructor
  · exact hset.trans h.settings
  · simp [hcode, atHead]
  · rfl
  · simp [atHead]
  · simp [hmarked]
  · rw [hloops, h.loops]
    exact .nil
  · simp [atHead]
  · rw [hopen, hpatched, hblanks]
    exact h.blanks
  · rw [hcode, hpatched, ← h.equations]
    simp [hq]
  · simp [atHead]
  · constructor <;> simp [hpending, hdeclared, atHead]
  · rw [hfunc]
    rfl

theorem beginFunction_ready {s1 : State} (h : Idle settings s) {id id' : EntryId}
    (hcode : s1.code = s.code)
    (hcontrol : s1.control = { s.control with pending := [], declared := [], func := some id' }) :
    Yields (beginFunction (some id)) s1 fun _ s' => ∃ name tag decls,
      (∀ q ∈ decls, q.isDecl = true) ∧
      Ready ((atHead settings (s.code.toList ++ [.funcBegin name tag])).append decls) s' := by
  rw [yields_iff_of_eq (beginFunction_eq id s1)]
  have hhead := h.ready (q := .funcBegin (s1.table.entry id).name (s1.table.entry id).tag)
    (t := { s1 with code := s1.code.push (.funcBegin _ _), marked := false }) rfl
    (by rw [hcode]) rfl hcontrol
  refine ⟨_, _, s1.storage, forall_mem_storage ?_ ?_, hhead.straight ⟨by simp, ?_, rfl, nofun⟩⟩
  · exact fun _ => rfl
  · exact fun _ => rfl
  · exact forall_mem_storage (fun _ => rfl) fun _ => rfl

/-! ## Ends of functions -/

section Close

variable {o : Outline} (h : Ready o s) (hloops : o.loops = []) (hheld : o.held = [])
  (hdecl : o.forwards ⊆ o.declared)

include h hdecl

theorem pending_declared : (s.pending.filter fun p => !p.declared) = [] := by
  refine filter_eq_nil_iff.2 fun p hp => ?_
  obtain ⟨hf, -, hd⟩ := h.gotos.pending p hp
  simp [hd.2 (hdecl hf)]

include hloops hheld

theorem open_eq_nil : o.open s = [] := by
  simp [Outline.open, Outline.loopBlanks, Outline.heldBlanks, hloops, hheld, State.openGotos,
    pendingBlanks, pending_declared h hdecl]

theorem endFunction_idle :
    Yields endFunction s fun _ s' => Idle o.settings s' ∧
      s'.code.toList = s.code.toList ++ [.funcEnd] := by
  have hs : s.loops = [] := by simpa [hloops] using h.loops
  rcases endFunction_cases s with ⟨hne, -⟩ | ⟨-, s', hrun⟩
  · exact absurd hs hne
  rw [yields_iff_of_eq hrun, endFunction_eq hrun]
  refine ⟨⟨h.settings, hs, ?_, ?_⟩, Array.toList_push⟩
  · simpa [open_eq_nil h hloops hheld hdecl] using h.blanks
  · have hend : [Quad.funcEnd].filterMap Quad.equation? = [] := rfl
    simpa [hend] using h.equations

theorem closed_of_ready {eqs : Equations} (hr : Settles eqs o.body) : Closed eqs o.body := by
  intro q hq t ht
  have hcov := h.targets q hq t ht
  cases t with
  | label n => exact ⟨n, rfl, hcov⟩
  | blank b =>
    rcases hcov with ⟨k, hk, -⟩ | ⟨n, hp, hn⟩
    · rw [open_eq_nil h hloops hheld hdecl] at hk
      cases hk
    · exact ⟨n, hr b n hp, hn⟩

end Close

/-! ## Functions and programs -/

/-- Whether a function keeps to the limits and declares the labels that it jumps to. -/
structure Func.Admitted (settings : Settings) (f : Func) : Prop where
  permits : Permits (atHead settings []) f.body
  declared : f.body.forwards [] ⊆ f.body.labels

/-- What the code of a function has to do with the record of its body. -/
structure Implements (r : Routine) (t : Trace) : Prop where
  fused : (fuse? r.body).isSome = true
  closed : ∀ eqs, Settles eqs r.body → Closed eqs r.body
  placed : ∀ eqs, Settles eqs r.body → t.Placed eqs r.body r.body [] [] []

theorem Func.Admitted.forwards_declared (hf : f.Admitted settings) (code decls seg : List Quad) :
    (after ((atHead settings code).append decls) f.body seg [] []).forwards ⊆
      (after ((atHead settings code).append decls) f.body seg [] []).declared := by
  simpa [after, atHead, Outline.append] using hf.declared

theorem Func.emit_idle (hf : f.Admitted settings) (h : Idle settings s) :
    Yields f.emit s fun t s' => ∃ r, Idle settings s' ∧
      s'.code.toList = s.code.toList ++ (Part.func r).quads ∧ Implements r t ∧
      t.shape = f.body.shape := by
  simp only [Func.emit, yields_bind, yields_pure]
  refine (openFunction_yields f.ty.tag f.name s).mono ?_
  rintro id s1 ⟨hcode1, hcontrol1⟩
  have hfunc1 : s1.func.isSome = true := by
    rw [show s1.func = some id from congrArg Control.func hcontrol1]
    rfl
  refine (declareAll_yields f.formals hfunc1 fun p _ => declareFormal_yields p.1 p.2.tag).mono ?_
  rintro - s2 ⟨hcode2, hcontrol2⟩
  have hfunc2 : s2.func.isSome = true :=
    (show s2.func = s1.func from congrArg Control.func hcontrol2) ▸ hfunc1
  refine (declareAll_yields f.locals hfunc2 fun v _ =>
    declareLocal_yields v.name v.ty.tag v.count).mono ?_
  rintro - s3 ⟨hcode3, hcontrol3⟩
  refine (beginFunction_ready h (hcode3.trans (hcode2.trans hcode1))
    (hcontrol3.trans (hcontrol2.trans hcontrol1))).mono ?_
  rintro - s4 ⟨name, tag, decls, hdecls, h4⟩
  refine (f.body.emit_ready h4 (hf.permits.congr rfl rfl rfl rfl)).mono ?_
  rintro t s5 ⟨seg, cs, bs, h5, hat, hshape, hout⟩
  obtain ⟨rfl, rfl⟩ := hout rfl
  have hdecl := hf.forwards_declared (s.code.toList ++ [.funcBegin name tag]) decls seg
  refine (endFunction_idle h5 rfl rfl hdecl).mono ?_
  rintro - s6 ⟨h6, hcode6⟩
  have hbody : (after ((atHead settings (s.code.toList ++ [.funcBegin name tag])).append decls)
      f.body seg [] []).body = decls ++ seg := by simp [after, atHead, Outline.append]
  refine ⟨⟨name, tag, decls ++ seg⟩, h6, ?_, ⟨hbody ▸ h5.fused, fun eqs hr => ?_, fun eqs hr => ?_⟩,
    hshape⟩
  · rw [hcode6, h5.code, hbody]
    simp [after, atHead, Outline.append, Part.quads]
  · exact hbody ▸ closed_of_ready h5 rfl rfl hdecl (hbody.symm ▸ hr)
  · have hplaced := hat eqs (decls ++ seg) [] [] [] (by simp [atHead, Outline.append]) hr (by simp)
      (by simp)
    rw [append_nil] at hplaced
    refine hplaced.of_goes (goes_silent (fun q hq => ?_) seg)
    exact ⟨Quad.isStraight_of_isDecl (hdecls q hq), Quad.events_of_isDecl (hdecls q hq)⟩

theorem declareGlobal_idle (h : Idle settings s) (name : String) (tag : Tag)
    (count : Int) : Yields (declareGlobal name tag count) s fun _ s' => ∃ v, Idle settings s' ∧
      s'.code.toList = s.code.toList ++ (Part.global v).quads := by
  refine (yields_declareGlobal name tag count s).mono ?_
  rintro _ _ ⟨rfl, report, -, rfl⟩
  refine ⟨_, ⟨h.settings, h.loops, h.blanks, Eq.trans ?_ h.equations⟩, Array.toList_push⟩
  simp [Quad.equation?]

def Program.funcs (p : Program) : List Func :=
  p.filterMap fun
    | .var _ => none
    | .func f => some f

theorem Program.emit_parts (hp : ∀ f ∈ p.funcs, f.Admitted settings)
    (h : Idle settings s) : Yields p.emit s fun ts s' => ∃ ps : List Part, Idle settings s' ∧
      s'.code.toList = s.code.toList ++ ps.flatMap Part.quads ∧
      Forall₂ Implements (ps.filterMap Part.routine?) ts ∧
      Forall₂ (fun t f => t.shape = f.body.shape) ts p.funcs := by
  induction p generalizing s with
  | nil => exact yields_pure.2 ⟨[], h, by simp, .nil, .nil⟩
  | cons item p ih =>
    cases item with
    | var v =>
      have hdiscard : discard (declareGlobal v.name v.ty.tag v.count) =
        (fun _ => PUnit.unit) <$> declareGlobal v.name v.ty.tag v.count := rfl
      rw [Program.emit, hdiscard, yields_bind, yields_map]
      refine (declareGlobal_idle h v.name v.ty.tag v.count).mono ?_
      rintro - s1 ⟨d, h1, hcode1⟩
      refine (ih hp h1).mono ?_
      rintro ts s2 ⟨ps, h2, hcode2, himpl, hshape⟩
      exact ⟨.global d :: ps, h2, by rw [hcode2, hcode1]; simp, himpl, hshape⟩
    | func f =>
      obtain ⟨hf, hp⟩ := forall_mem_cons.1 hp
      simp only [Program.emit, yields_bind, yields_pure]
      refine (Func.emit_idle hf h).mono ?_
      rintro t s1 ⟨r, h1, hcode1, hr, ht⟩
      refine (ih hp h1).mono ?_
      rintro ts s2 ⟨ps, h2, hcode2, himpl, hshape⟩
      exact ⟨.func r :: ps, h2, by rw [hcode2, hcode1]; simp, .cons hr himpl, .cons ht hshape⟩

/-! ## Graphs of programs -/

/-- The function of a graph is made from code that places the statement. -/
def Compiles (t : Trace) (f : Flow.Func) : Prop :=
  ∃ eqs r, Implements r t ∧ r.Builds eqs f ∧ Settles eqs r.body

theorem Idle.keys_nodup (h : Idle settings s) :
    ((s.code.toList.filterMap Quad.equation?).map Prod.fst).Nodup := by
  have hkeys : (s.patched.map Prod.fst).Nodup := by
    refine nodup_iff_count_le_one.2 fun b => ?_
    rw [h.blanks]
    split <;> omega
  have hcast : (s.patched.reverse.map fun p => ((p.1 : Int), p.2)).map Prod.fst =
      ((s.patched.map Prod.fst).map (fun b : Nat => (b : Int))).reverse := by
    simp [Function.comp_def]
  rw [h.equations, hcast]
  exact nodup_reverse.2 (hkeys.map fun _ _ hb => Int.ofNat_inj.1 hb)

theorem settles_of_mem {code : List Quad} {body : List Quad}
    (hkeys : ((code.filterMap Quad.equation?).map Prod.fst).Nodup) (hsub : body ⊆ code) :
    Settles (code.filterMap Quad.equation?) body := by
  intro b n hm
  exact lookup_of_mem hkeys (mem_filterMap.2 ⟨.patch b n, hsub hm, rfl⟩)

theorem Program.exists_graph (hp : ∀ f ∈ p.funcs, f.Admitted settings)
    (table : Symbols.Table) (report : Report) :
    Yields p.emit (State.new settings table report) fun ts s => Idle settings s ∧
      Forall₂ (fun t f => t.shape = f.body.shape) ts p.funcs ∧
      ∃ g, Flow.build s.code.toList = .ok g ∧ Forall₂ Compiles ts g.funcs := by
  refine (Program.emit_parts hp (Idle.new settings table report)).mono ?_
  rintro ts s ⟨ps, h, hcode, himpl, hshape⟩
  refine ⟨h, hshape, ?_⟩
  have hcode' : s.code.toList = ps.flatMap Part.quads := by simpa [State.new] using hcode
  have hres : ∀ r ∈ ps.filterMap Part.routine?,
      Settles (s.code.toList.filterMap Quad.equation?) r.body := by
    intro r hr
    refine settles_of_mem h.keys_nodup fun q hq => ?_
    obtain ⟨_ | r, hp, ⟨⟩⟩ := mem_filterMap.1 hr
    rw [hcode']
    exact mem_flatMap.2 ⟨.func r, hp, by simp [Part.quads, hq]⟩
  have hpairs : Forall₂ (fun r t =>
      Settles (s.code.toList.filterMap Quad.equation?) r.body ∧ Implements r t)
      (ps.filterMap Part.routine?) ts := (forall₂_and_left _ _).2 ⟨hres, himpl⟩
  have hclosed : ∀ r ∈ ps.filterMap Part.routine?, (fuse? r.body).isSome = true ∧
      Closed (s.code.toList.filterMap Quad.equation?) r.body := by
    refine ((forall₂_and_left (R := Implements) _ ts).1 (hpairs.imp ?_)).1
    rintro r t ⟨hr, ht⟩
    exact ⟨⟨ht.fused, ht.closed _ hr⟩, ht⟩
  rw [hcode'] at hpairs hclosed ⊢
  obtain ⟨g, hg, hbuilds⟩ := Flow.build_parts rfl (hcode' ▸ h.keys_nodup) fun r hr =>
    hclosed r (mem_filterMap.2 ⟨.func r, hr, rfl⟩)
  refine ⟨g, hg, (forall₂_through hpairs hbuilds).imp ?_⟩
  rintro t f ⟨r, ⟨hr, ht⟩, hf⟩
  exact ⟨_, r, ht, hf, hr⟩

end Quadruple.Source
