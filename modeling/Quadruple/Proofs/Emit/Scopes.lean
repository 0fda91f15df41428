import Quadruple.Proofs.Emit.Reachable
import Quadruple.Proofs.Emit.Tables

/-!
# Scopes in step

A function and a loop each have a scope in the table. As long as functions do not overlap, the table
has a level for every loop that is open and one for the open function, whatever faults there are;
the number of open loops and the records of jumps to labels stay within the settings.

Main statements:
* `Balanced.perform`: an operation in its turn keeps scopes and limits.
* `scopes_in_step`: so does every run of operations in their turn.
-/

namespace Quadruple.Emit

open List
open Symbols (Entry EntryId Table)

variable {s s' t : State} {op : Op}

/-! ## What operations leave as it was -/

/-- From `s` to `s'` the settings and the open function are the same, and no entry was changed and no
local taken back. -/
structure Retains (s s' : State) : Prop where
  settings : s'.settings = s.settings
  func : s'.func = s.func
  entries : ∀ id < s.table.entries.size, s'.table.entry id = s.table.entry id
  size : s.table.entries.size ≤ s'.table.entries.size
  locals : s.locals <+: s'.locals

structure SameDepth (s s' : State) : Prop where
  table : s'.table.level = s.table.level
  loops : s'.loops.length = s.loops.length

theorem Retains.refl (s : State) : Retains s s := ⟨rfl, rfl, fun _ _ => rfl, le_rfl, prefix_rfl⟩

theorem Retains.trans (h : Retains s t) (h' : Retains t s') : Retains s s' where
  settings := h'.settings.trans h.settings
  func := h'.func.trans h.func
  entries := fun id hid => (h'.entries id (hid.trans_le h.size)).trans (h.entries id hid)
  size := le_trans h.size h'.size
  locals := h.locals.trans h'.locals

theorem Quietly.retains (h : Quietly s s') : Retains s s' where
  settings := h.settings
  func := h.func
  entries := fun _ _ => by rw [h.table]
  size := le_of_eq (by rw [h.table])
  locals := h.locals ▸ prefix_rfl

theorem Quietly.sameDepth (h : Quietly s s') : SameDepth s s' := ⟨by rw [h.table], h.loops⟩

section Install

variable {name : String} {n : Int} {f : Entry → Entry}
  (htable : s'.table = (s.table.installAt name n).2.modifyEntry s.table.entries.size f)

include htable

theorem retains_of_install (hsettings : s'.settings = s.settings) (hfunc : s'.func = s.func)
    (hlocals : s.locals <+: s'.locals) : Retains s s' where
  settings := hsettings
  func := hfunc
  entries := fun id hid => by
    rw [htable, Table.entry_modifyEntry_of_ne hid.ne, Table.entry_installAt_of_lt _ hid]
  size := by
    rw [htable, Table.size_modifyEntry, Table.size_installAt]
    exact Nat.le_succ _
  locals := hlocals

theorem sameDepth_of_install (hloops : s'.loops = s.loops) : SameDepth s s' := by
  refine ⟨?_, by rw [hloops]⟩
  rw [htable, Table.level, Table.inner_modifyEntry]
  simp only [Table.installAt]
  split <;> simp [Table.level]

end Install

def Op.isWithin : Op → Bool
  | .share .. | .openFunction .. | .endFunction => false
  | _ => true

theorem names_perform (hquiet : op.isQuiet = false) (hloop : op.isLoop = false)
    (hwithin : op.isWithin = true) :
    Retains s (after op.perform s) ∧ SameDepth s (after op.perform s) := by
  cases op with
  | declareGlobal name tag count =>
    obtain ⟨_, -, r, -, hs'⟩ := exists_after (yields_declareGlobal name tag count s)
    rw [Op.perform, after_discard, hs']
    exact ⟨retains_of_install rfl rfl rfl prefix_rfl, sameDepth_of_install rfl rfl⟩
  | declareFormal name tag | declareLocal name tag count =>
    simp only [Op.perform, after_discard, declareFormal, declareLocal]
    rcases declareInFunc_cases name s with ⟨-, hrun⟩ | ⟨-, _, _, hrun, rfl, r, -, rfl⟩
    · rw [after_bind, hrun]
      exact ⟨.refl s, rfl, rfl⟩
    · rw [after_bind_of_ok hrun]
      refine ⟨retains_of_install rfl rfl rfl ?_, sameDepth_of_install rfl rfl⟩
      first | exact prefix_rfl | exact prefix_append _ _
  | beginFunction id =>
    cases id with
    | none => exact ⟨.refl s, rfl, rfl⟩
    | some id =>
      rw [Op.perform, after_of_ok (beginFunction_eq id s)]
      exact ⟨⟨rfl, rfl, fun _ _ => rfl, le_rfl, prefix_rfl⟩, rfl, rfl⟩
  | variableRef name =>
    rw [Op.perform, after_discard, variableRef, after_get_bind]
    cases s.table.lookup? name with
    | some id =>
      have hquiet := quiet_ref id s
      exact ⟨hquiet.retains, hquiet.sameDepth⟩
    | none =>
      obtain ⟨_, t, hrun, rfl, ht⟩ := yields_declareForgotten name s
      have htable := congrArg State.table ht
      have hretains : Retains s t :=
        retains_of_install htable (by rw [ht]) (by rw [ht]) (ht ▸ prefix_append _ _)
      have hdepth : SameDepth s t := sameDepth_of_install htable (by rw [ht])
      have hquiet := quiet_ref s.table.entries.size t
      show Retains s (after (declareForgotten name >>= _) s) ∧ SameDepth s _
      rw [after_bind_of_ok hrun]
      exact ⟨hretains.trans hquiet.retains, hquiet.sameDepth.table.trans hdepth.table,
        hquiet.sameDepth.loops.trans hdepth.loops⟩
  | call name args =>
    obtain ⟨_, t, ht, hloops, rfl | ⟨-, rfl⟩, -⟩ := exists_after (yields_call name args s)
    all_goals rw [Op.perform, after_discard]
    · exact ⟨ht.retains, ht.sameDepth⟩
    · exact ⟨retains_of_install ht.table ht.settings ht.func (ht.locals ▸ prefix_rfl),
        sameDepth_of_install ht.table hloops⟩
  | _ => simp_all [Op.isQuiet, Op.isLoop, Op.isWithin]

theorem after_openLoop (s : State) : after openLoop s = s ∨
    (s.loops.length : Int) < s.settings.maxLoopDepth ∧
      after openLoop s = { s with table := s.table.enter, loops := {} :: s.loops } := by
  rw [openLoop, after_get_bind]
  by_cases hlimit : s.settings.maxLoopDepth ≤ s.loops.length
  · rw [if_pos hlimit]
    exact .inl rfl
  · rw [if_neg hlimit]
    exact .inr ⟨Int.not_le.1 hlimit, rfl⟩

theorem after_endLoop (s : State) : after endLoop s = s ∨ ∃ scope outer, s.loops = scope :: outer ∧
    after endLoop s = { s with table := s.table.leave, loops := outer } := by
  rw [endLoop, after_get_bind]
  cases s.loops with
  | nil => exact .inl rfl
  | cons scope outer => exact .inr ⟨scope, outer, rfl, rfl⟩

/-! ## Records of jumps -/

/-- The records of jumps to labels are within the limits, and each label has one. -/
structure Bounded (settings : Settings) (ps : List PendingLabel) : Prop where
  names : (ps.map (·.name)).Nodup
  labels : ps.length ≤ settings.maxGotoLabels.toNat
  blanks : ∀ p ∈ ps, p.blanks.length ≤ settings.maxBlanksPerLabel.toNat

variable {settings : Settings} {ps : List PendingLabel}

theorem bounded_nil : Bounded settings [] := ⟨nodup_nil, Nat.zero_le _, by simp⟩

theorem Bounded.snoc (h : Bounded settings ps) {name : String} (hnew : name ∉ ps.map (·.name))
    (hlimit : (ps.length : Int) < settings.maxGotoLabels) :
    Bounded settings (ps ++ [⟨name, [], false⟩]) where
  names := by
    rw [map_append]
    exact h.names.append (nodup_singleton _) (by simpa using hnew)
  labels := by
    rw [length_append, length_singleton]
    omega
  blanks := by
    intro p hp
    rcases mem_append.1 hp with hp | hp
    · exact h.blanks p hp
    · rw [mem_singleton.1 hp]
      exact Nat.zero_le _

theorem Bounded.update (h : Bounded settings ps) {name : String} {f : PendingLabel → PendingLabel}
    (hname : ∀ p, (f p).name = p.name)
    (hf : ∀ p ∈ ps, p.name = name → (f p).blanks.length ≤ settings.maxBlanksPerLabel.toNat) :
    Bounded settings (ps.map fun p => if p.name == name then f p else p) where
  names := by
    have hsame : (ps.map fun p => if p.name == name then f p else p).map (·.name) =
        ps.map (·.name) := by
      rw [map_map]
      refine map_congr_left fun p _ => ?_
      show (if p.name == name then f p else p).name = p.name
      split
      · exact hname p
      · rfl
    rw [hsame]
    exact h.names
  labels := by
    rw [length_map]
    exact h.labels
  blanks := by
    intro q hq
    obtain ⟨p, hp, rfl⟩ := mem_map.1 hq
    split
    · next he => exact hf p hp (eq_of_beq he)
    · exact h.blanks p hp

theorem pendingFor_cases (name : String) (s : State) :
    (∃ p ∈ s.pending, p.name = name ∧ pendingFor name s = .ok p s) ∨
    (∃ e, pendingFor name s = .error e s) ∨
    name ∉ s.pending.map (·.name) ∧ (s.pending.length : Int) < s.settings.maxGotoLabels ∧
      pendingFor name s = .ok ⟨name, [], false⟩
        { s with pending := s.pending ++ [⟨name, [], false⟩] } := by
  rw [pendingFor, run_get_bind]
  cases hfind : s.pending.find? (·.name == name) with
  | some p =>
    have hname : p.name = name := by simpa using find?_some hfind
    exact .inl ⟨p, mem_of_find?_eq_some hfind, hname, rfl⟩
  | none =>
    by_cases hlimit : s.settings.maxGotoLabels ≤ s.pending.length
    · refine .inr (.inl ⟨.tooManyLabels s.settings.maxGotoLabels s.funcName, ?_⟩)
      show (if _ then _ else _ : EmitM PendingLabel) s = _
      rw [if_pos hlimit]
      rfl
    · refine .inr (.inr ⟨fun hmem => ?_, Int.not_le.1 hlimit, ?_⟩)
      · obtain ⟨p, hp, hname⟩ := mem_map.1 hmem
        exact find?_eq_none.1 hfind p hp (beq_iff_eq.2 hname)
      · show (if _ then _ else _ : EmitM PendingLabel) s = _
        rw [if_neg hlimit]
        rfl

theorem bounded_gotoStmt (h : Bounded s.settings s.pending) (name : String) :
    Bounded s.settings (after (gotoStmt name) s).pending := by
  rw [gotoStmt, after_get_bind]
  cases s.declared.lookup name with
  | some l => exact h
  | none =>
    -- one more blank in the record that is looked up
    have hadd : ∀ (b : Nat) (p : PendingLabel) (t : State), t.settings = s.settings →
        Bounded s.settings t.pending → p ∈ t.pending → p.name = name →
        Bounded s.settings (after (do
          let limit := (← get).settings.maxBlanksPerLabel
          if limit ≤ p.blanks.length then throw (.tooManyGotos limit name)
          setPending name fun p => { p with blanks := p.blanks ++ [b] }) t).pending := by
      intro b p t hsettings ht hp hname
      rw [after_get_bind]
      by_cases hlimit : t.settings.maxBlanksPerLabel ≤ p.blanks.length
      · rw [if_pos hlimit]
        exact ht
      · rw [if_neg hlimit]
        refine ht.update (fun _ => rfl) fun q hq hqname => ?_
        obtain rfl : q = p := inj_on_of_nodup_map ht.names hq hp (hqname.trans hname.symm)
        rw [length_append, length_singleton, ← hsettings]
        omega
    let t : State := { s with
      blanks := s.blanks + 1
      code := s.code.push (.jump (.blank (s.blanks + 1 : Nat)))
      marked := s.marked && keepsMark (.jump (.blank (s.blanks + 1 : Nat))) }
    show Bounded s.settings (after (pendingFor name >>= _) t).pending
    rcases pendingFor_cases name t with ⟨p, hp, hname, hrun⟩ | ⟨e, hrun⟩ | ⟨hnew, hlimit, hrun⟩
    · rw [after_bind_of_ok hrun]
      exact hadd _ p t rfl h hp hname
    · rw [after_bind, hrun]
      exact h
    · rw [after_bind_of_ok hrun]
      exact hadd _ _ _ rfl (h.snoc hnew hlimit) (mem_append_right _ mem_cons_self) rfl

theorem pending_patch (b : Nat) (l : Int) (s : State) :
    (after (patch b l) s).pending = s.pending := by
  rw [patch, after_get_bind]
  cases s.patched.lookup b <;> rfl

theorem pending_forM_patch (bs : List Nat) (l : Int) (s : State) :
    (after (bs.forM fun b => patch b l) s).pending = s.pending := by
  induction bs generalizing s with
  | nil => rfl
  | cons b bs ih =>
    exact after_bind_keeps (P := fun t => t.pending = s.pending) (pending_patch b l s)
      fun _ t ht => (ih t).trans ht

theorem bounded_labelStmt (h : Bounded s.settings s.pending) (name : String) :
    Bounded s.settings (after (labelStmt name) s).pending := by
  have hmark : (after mark s).pending = s.pending := by
    rw [mark, after_get_bind]
    show (after (if s.marked = true then _ else _) s).pending = _
    cases s.marked <;> rfl
  rw [labelStmt, after_get_bind]
  by_cases hdeclared : (s.declared.lookup name).isSome = true
  · rw [if_pos hdeclared]
    exact h
  rw [if_neg hdeclared]
  refine after_bind_keeps (P := fun t => Bounded s.settings t.pending) (hmark ▸ h) fun l t ht => ?_
  rw [after_bind_of_ok (x := unmark) rfl, after_bind_of_ok (x := modify _) rfl, after_get_bind]
  cases t.pending.find? (·.name == name) with
  | none => exact ht
  | some p =>
    refine after_bind_keeps (P := fun u => Bounded s.settings u.pending) ?_ fun _ u hu => ?_
    · rw [pending_forM_patch]
      exact ht
    · exact hu.update (fun _ => rfl) fun q hq _ => hu.blanks q hq

theorem bounded_perform (h : Bounded s.settings s.pending) :
    Bounded s.settings (after op.perform s).pending := by
  cases hj : op.jumps with
  | false =>
    rw [show (after op.perform s).pending = s.pending from ((grows_perform op s).quiet hj).1]
    exact h
  | true =>
    cases op with
    | gotoStmt name => exact bounded_gotoStmt h name
    | labelStmt name => exact bounded_labelStmt h name
    | openFunction tag name =>
      obtain ⟨_, _, _, hs', -⟩ := exists_after (yields_openFunction tag name s)
      rw [Op.perform, after_discard, hs']
      exact bounded_nil
    | endFunction =>
      rcases endFunction_cases s with ⟨-, e, hrun⟩ | ⟨-, s', hrun⟩
      · rw [Op.perform, after, hrun]
        exact h
      · rw [Op.perform, after_of_ok hrun, endFunction_eq hrun]
        exact bounded_nil
    | _ => cases hj

/-! ## Operations in their turn -/

/-- The table has a level for each open loop and one for the open function. -/
structure Scoped (settings : Settings) (s : State) : Prop where
  settings_eq : s.settings = settings
  level : s.table.level = s.loops.length + if s.func.isSome then 1 else 0
  loops : s.loops.length ≤ settings.maxLoopDepth.toNat

/-- Whether an operation comes in its turn: functions do not overlap, and whoever else changes the
table leaves its scopes as they are. -/
def Op.inTurn (s : State) : Op → Bool
  | .share table _ => table.level == s.table.level
  | .openFunction .. => s.func.isNone
  | .endFunction => s.func.isSome
  | _ => true

def inTurn (s : State) : List Op → Bool
  | [] => true
  | op :: ops => op.inTurn s && inTurn (after op.perform s) ops

section

variable (h : Scoped settings s)
include h

theorem Scoped.same (hr : Retains s s') (hd : SameDepth s s') : Scoped settings s' where
  settings_eq := hr.settings.trans h.settings_eq
  level := by rw [hd.table, hd.loops, hr.func, h.level]
  loops := hd.loops ▸ h.loops

theorem Scoped.quietly (hq : Quietly s s') : Scoped settings s' := h.same hq.retains hq.sameDepth

theorem Scoped.openLoop : Scoped settings (after openLoop s) := by
  rcases after_openLoop s with he | ⟨hlimit, he⟩
  · rw [he]
    exact h
  · rw [he]
    have hlevel := h.level
    refine ⟨h.settings_eq, ?_, ?_⟩
    · show s.table.level + 1 = s.loops.length + 1 + if s.func.isSome then 1 else 0
      omega
    · rw [h.settings_eq] at hlimit
      show s.loops.length + 1 ≤ _
      omega

theorem Scoped.endLoop : Scoped settings (after endLoop s) := by
  rcases after_endLoop s with he | ⟨scope, outer, hloops, he⟩
  · rw [he]
    exact h
  · rw [he]
    obtain ⟨hsettings, hlevel, hdepth⟩ := h
    rw [hloops, length_cons] at hlevel hdepth
    refine ⟨hsettings, ?_, Nat.le_of_succ_le hdepth⟩
    show s.table.inner.tail.length = outer.length + if s.func.isSome then 1 else 0
    rw [length_tail]
    show s.table.level - 1 = _
    omega

theorem Scoped.openFunction (hnone : s.func.isNone = true) (tag : Tag) (name : String) :
    Scoped settings (after (openFunction tag name) s) := by
  obtain ⟨id, T, r, hs', hinner, -⟩ := exists_after (yields_openFunction tag name s)
  have hlevel := h.level
  rw [Option.isNone_iff_eq_none.1 hnone] at hlevel
  rw [hs']
  refine ⟨h.settings_eq, ?_, h.loops⟩
  rw [Table.level, hinner]
  exact congrArg (· + 1) hlevel

theorem Scoped.endFunction (hsome : s.func.isSome = true) :
    Scoped settings (after endFunction s) := by
  have hlevel := h.level
  rcases endFunction_cases s with ⟨-, e, hrun⟩ | ⟨hloops, s', hrun⟩
  · rw [after, hrun]
    exact ⟨h.settings_eq, hlevel, h.loops⟩
  · rw [after_of_ok hrun, endFunction_eq hrun]
    refine ⟨h.settings_eq, ?_, h.loops⟩
    show s.table.inner.tail.length = s.loops.length + 0
    rw [length_tail]
    show s.table.level - 1 = _
    rw [hlevel, hsome]
    rfl

theorem Scoped.perform (hturn : op.inTurn s = true) : Scoped settings (after op.perform s) := by
  cases hquiet : op.isQuiet with
  | true => exact h.quietly (quiet_perform hquiet s).toQuietly
  | false =>
    cases hloop : op.isLoop with
    | true =>
      by_cases hopen : op = .openLoop
      · subst hopen
        exact h.openLoop
      · obtain ⟨t, ht, he | he⟩ := closes_perform hloop hopen s
        · exact he ▸ h.quietly ht.toQuietly
        · exact he ▸ (h.quietly ht.toQuietly).endLoop
    | false =>
      cases hwithin : op.isWithin with
      | true =>
        obtain ⟨hretains, hdepth⟩ := names_perform hquiet hloop hwithin (s := s)
        exact h.same hretains hdepth
      | false =>
        cases op with
        | share table report => exact ⟨h.settings_eq, (eq_of_beq hturn).trans h.level, h.loops⟩
        | openFunction tag name => exact (after_discard _ s).symm ▸ h.openFunction hturn tag name
        | endFunction => exact h.endFunction hturn
        | _ => cases hwithin

end

structure Balanced (settings : Settings) (s : State) : Prop extends Scoped settings s where
  pending : Bounded settings s.pending

theorem balanced_new {table : Table} (h : table.level = 0) (settings : Settings) (report : Report) :
    Balanced settings (State.new settings table report) :=
  ⟨⟨rfl, h, Nat.zero_le _⟩, bounded_nil⟩

theorem Balanced.perform (h : Balanced settings s) (hturn : op.inTurn s = true) :
    Balanced settings (after op.perform s) := by
  obtain ⟨hscoped, hpending⟩ := h
  refine ⟨hscoped.perform hturn, ?_⟩
  rw [← hscoped.settings_eq] at hpending ⊢
  exact bounded_perform hpending

theorem Balanced.run {ops : List Op} (h : Balanced settings s) (hturn : inTurn s ops = true) :
    Balanced settings (s.run ops) := by
  induction ops generalizing s with
  | nil => exact h
  | cons op ops ih =>
    obtain ⟨hop, hops⟩ := Bool.and_eq_true_iff.1 hturn
    exact ih (h.perform hop) hops

theorem run_append (s : State) (pre post : List Op) : s.run (pre ++ post) = (s.run pre).run post :=
  foldl_append

theorem inTurn_append {pre post : List Op} :
    inTurn s (pre ++ post) = (inTurn s pre && inTurn (s.run pre) post) := by
  induction pre generalizing s with
  | nil => rfl
  | cons op pre ih =>
    show (op.inTurn s && inTurn _ (pre ++ post)) = _
    rw [ih, ← Bool.and_assoc]
    rfl

theorem lookup?_eq_lookupGlobal? {T : Table} (h : T.level = 0) (name : String) :
    T.lookup? name = T.lookupGlobal? name := by
  have hinner : T.inner = [] := length_eq_zero_iff.1 h
  rw [Table.lookup?, hinner, nil_append, findSome?_singleton]
  rfl

/-- In a run whose operations come in their turn the table has a level for every open loop and for
the open function, and no limit is exceeded. The end of a function that succeeds closes all scopes,
and leaves the globals as they were for all names to be found. -/
theorem scopes_in_step (settings : Settings) {table : Table} (report : Report) {ops : List Op}
    (hlevel : table.level = 0) (hturn : inTurn (State.new settings table report) ops = true) :
    (∀ pre, pre <+: ops → ∀ s, s = (State.new settings table report).run pre →
      s.table.level = s.loops.length + (if s.func.isSome then 1 else 0) ∧
      s.loops.length ≤ settings.maxLoopDepth.toNat ∧
      s.pending.length ≤ settings.maxGotoLabels.toNat ∧
      ∀ p ∈ s.pending, p.blanks.length ≤ settings.maxBlanksPerLabel.toNat) ∧
    ∀ pre, pre ++ [.endFunction] <+: ops → ∀ s s', s = (State.new settings table report).run pre →
      endFunction s = .ok () s' →
      s'.loops = [] ∧ s'.table.level = 0 ∧ s'.func = none ∧
      ∀ name, s'.table.lookup? name = s'.table.lookupGlobal? name ∧
        s'.table.lookupGlobal? name = s.table.lookupGlobal? name := by
  have hbalanced : ∀ pre, pre <+: ops →
      Balanced settings ((State.new settings table report).run pre) := by
    rintro pre ⟨post, rfl⟩
    rw [inTurn_append] at hturn
    exact (balanced_new hlevel settings report).run (Bool.and_eq_true_iff.1 hturn).1
  constructor
  · rintro pre hpre s rfl
    have h := hbalanced pre hpre
    exact ⟨h.level, h.loops, h.pending.labels, h.pending.blanks⟩
  · intro pre hpre s s' hs hrun
    have hclosed : s' = (State.new settings table report).run (pre ++ [.endFunction]) := by
      rw [run_append, ← hs]
      exact (after_of_ok hrun).symm
    have hdepth := (hclosed ▸ hbalanced _ hpre).level
    rcases endFunction_cases s with ⟨-, e, hfault⟩ | ⟨hloops, -⟩
    · cases hfault.symm.trans hrun
    · obtain rfl := endFunction_eq hrun
      have hzero : s.table.leave.level = 0 := by
        rw [show s.table.leave.level = s.loops.length + 0 from hdepth, hloops]
        rfl
      exact ⟨hloops, hzero, rfl, fun name => ⟨lookup?_eq_lookupGlobal? hzero name, rfl⟩⟩

/-- More loops and more jumps than there may be, and a function that ends too early. -/
def unruly : List Op :=
  [.openFunction .int "f", .declareLocal "x" .int 3, .beginFunction (some 0), .openLoop, .openLoop,
    .openLoop, .variableRef "y", .gotoStmt "on", .gotoStmt "on", .gotoStmt "off", .endFunction,
    .endLoop, .endLoop]

theorem unruly_in_step :
    let settings : Settings := { maxLoopDepth := 2, maxGotoLabels := 1, maxBlanksPerLabel := -1 }
    let s := (State.new settings .empty ⟨none, []⟩).run unruly
    Table.empty.level = 0 ∧
    inTurn (State.new settings .empty ⟨none, []⟩) (unruly ++ [.endFunction]) = true ∧
    (s.table.level = s.loops.length + (if s.func.isSome then 1 else 0) ∧
      s.loops.length ≤ 2 ∧ s.pending.length ≤ 1 ∧ ∀ p ∈ s.pending, p.blanks.length ≤ 0) ∧
    ∃ s', endFunction s = .ok () s' ∧ s'.table.level = 0 ∧
      ∀ name, s'.table.lookup? name = s.table.lookupGlobal? name := by
  intro settings s
  have hturn : inTurn (State.new settings .empty ⟨none, []⟩) (unruly ++ [.endFunction]) = true := by
    decide +kernel
  have hresult : result? endFunction s = some () := by
    decide +kernel
  obtain ⟨s', hs'⟩ := eq_ok_of_result? hresult
  obtain ⟨hbounds, hends⟩ := scopes_in_step settings ⟨none, []⟩ rfl hturn
  obtain ⟨-, hlevel, -, hlookup⟩ := hends unruly List.prefix_rfl s s' rfl hs'
  exact ⟨rfl, hturn, hbounds unruly (List.prefix_append _ _) s rfl, s', hs', hlevel,
    fun name => (hlookup name).1.trans (hlookup name).2⟩

end Quadruple.Emit
