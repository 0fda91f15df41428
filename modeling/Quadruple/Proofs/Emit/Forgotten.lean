import Quadruple.Proofs.Emit.Scopes

/-!
# Names that were forgotten

A function may use a name that nothing declares. The use is reported, and the name becomes a local
of the scope that is current, that of the function or that of a loop. So later uses are silent as
long as this scope is open, and the next one behind it is reported again.

Main statement: `forgotten_reported`.
-/

namespace Quadruple

open List

namespace Symbols.Table

variable {T : Table} {x name : String} {id : EntryId}

/-- Which levels have the name `x`, the innermost first and the globals last. -/
def holds (T : Table) (x : String) : List Bool :=
  (T.inner ++ [T.globals]).map fun l => (l.lookup x).isSome

theorem lookup?_eq_none_iff : T.lookup? x = none ↔ true ∉ T.holds x := by
  rw [lookup?, findSome?_eq_none_iff, holds, mem_map, not_exists]
  refine forall_congr' fun l => ?_
  rw [not_and, Option.isSome_iff_ne_none, not_not]

theorem isSome_lookup_cons {l : Level} :
    (((name, id) :: l).lookup x).isSome = (decide (x = name) || (l.lookup x).isSome) := by
  by_cases h : x = name
  · simp [h]
  · simp [lookup_cons, h, beq_false_of_ne h]

theorem holds_installAt_zero (h : x ≠ name) : (T.installAt name 0).2.holds x = T.holds x := by
  simp [holds, installAt, clampLevel_zero, isSome_lookup_cons, h]

theorem holds_install :
    (T.install name).2.holds x = (T.holds x).modifyHead (decide (x = name) || ·) := by
  cases hinner : T.inner with
  | nil => simp [holds, install, installAt, clampLevel_zero, level, hinner, isSome_lookup_cons]
  | cons l ls =>
    rw [holds, inner_install hinner, globals_install (by simp [hinner])]
    simp [holds, hinner, isSome_lookup_cons]

theorem holds_install_of_ne (h : x ≠ name) : (T.install name).2.holds x = T.holds x := by
  rw [holds_install]
  cases T.holds x <;> simp [h]

end Symbols.Table

namespace Emit

open Symbols (Entry EntryId Table)

/-! ## Uses -/

def Op.uses (x : String) : Op → Bool
  | .variableRef name => name == x
  | _ => false

/-- The operations that may stand before and behind the head of a function, if they do not declare
the name `x`. -/
def Op.ignores (x : String) : Op → Bool
  | .share .. | .openFunction .. | .beginFunction _ | .endFunction => false
  | .declareGlobal name .. | .declareFormal name _ | .declareLocal name .. | .call name _ => name != x
  | _ => true

/-- The operations of a run, each with the number of loops that are open where it stands. -/
def history (s : State) : List Op → List (Op × Nat)
  | [] => []
  | op :: ops => (op, s.loops.length) :: history (after op.perform s) ops

/-- Whether one of the scopes in which `x` was used is still open. The past begins with the latest
operation, and `d` is the least number of open loops since then. -/
def covered (x : String) : List (Op × Nat) → Nat → Bool
  | [], _ => false
  | (op, e) :: past, d => (op.uses x && decide (e ≤ d)) || covered x past (min e d)

def uncovered (x : String) : List (Op × Nat) → Nat
  | [] => 0
  | (op, e) :: past => uncovered x past + if op.uses x && !covered x past e then 1 else 0

variable {x : String} {op : Op} {past later : List (Op × Nat)} {d e : Nat}

theorem covered_cons_of_le (hd : d ≤ e) (hop : op.uses x = true → d < e) :
    covered x ((op, e) :: past) d = covered x past d := by
  rw [covered, Nat.min_eq_right hd]
  cases huses : op.uses x with
  | false => rfl
  | true => simp [not_le.2 (hop huses)]

theorem covered_eq_false (h : ∀ p ∈ past, p.1.uses x = false) : covered x past d = false := by
  induction past generalizing d with
  | nil => rfl
  | cons p past ih =>
    obtain ⟨hp, hpast⟩ := forall_mem_cons.1 h
    rw [covered, hp, ih hpast]
    rfl

theorem uncovered_eq_zero (h : ∀ p ∈ past, p.1.uses x = false) : uncovered x past = 0 := by
  induction past with
  | nil => rfl
  | cons p past ih =>
    obtain ⟨hp, hpast⟩ := forall_mem_cons.1 h
    rw [uncovered, hp, ih hpast]
    rfl

/-- In `later`, which begins with the latest operation, no use of `x` comes after a scope that `e`
loops are around was closed. -/
def Within (x : String) (e : Nat) : List (Op × Nat) → Prop
  | [] => True
  | (op, d) :: later => Within x e later ∧ (op.uses x = true → ∀ p ∈ (op, d) :: later, e ≤ p.2)

theorem covered_append_iff (hpast : ∀ p ∈ past, p.1.uses x = false) (h : Within x e later) :
    covered x (later ++ (.variableRef x, e) :: past) d = true ↔ e ≤ d ∧ ∀ p ∈ later, e ≤ p.2 := by
  induction later generalizing d with
  | nil => simp [covered, Op.uses, covered_eq_false hpast]
  | cons p later ih =>
    obtain ⟨hlater, huse⟩ := h
    rw [cons_append, covered, Bool.or_eq_true, ih hlater, forall_mem_cons, Nat.le_min]
    constructor
    · rintro (hp | ⟨⟨hp, hd⟩, hall⟩)
      · -- the scope of the latest use is open, and that of the first one was open then
        obtain ⟨hp, hd⟩ := Bool.and_eq_true_iff.1 hp
        have hall := huse hp
        exact ⟨(hall p mem_cons_self).trans (of_decide_eq_true hd), forall_mem_cons.1 hall⟩
      · exact ⟨hd, hp, hall⟩
    · exact fun ⟨hd, hp, hall⟩ => .inr ⟨⟨hp, hd⟩, hall⟩

theorem uncovered_append_eq_one_iff (hpast : ∀ p ∈ past, p.1.uses x = false) :
    uncovered x (later ++ (.variableRef x, e) :: past) = 1 ↔ Within x e later := by
  have hfirst : uncovered x ((.variableRef x, e) :: past) = 1 := by
    simp [uncovered, Op.uses, covered_eq_false hpast, uncovered_eq_zero hpast]
  have hpos : ∀ later, 1 ≤ uncovered x (later ++ (.variableRef x, e) :: past) := by
    intro later
    induction later with
    | nil => exact le_of_eq hfirst.symm
    | cons p later ih => exact ih.trans (Nat.le_add_right ..)
  induction later with
  | nil => exact iff_of_true hfirst trivial
  | cons p later ih =>
    have := hpos later
    rw [cons_append, uncovered, Within]
    constructor
    · intro hone
      have hlater := ih.1 (by omega)
      refine ⟨hlater, fun huse => forall_mem_cons.2 ((covered_append_iff hpast hlater).1 ?_)⟩
      by_contra hnot
      rw [if_pos (by simp [huse, hnot])] at hone
      omega
    · rintro ⟨hlater, huse⟩
      rw [ih.2 hlater, if_neg]
      intro hp
      obtain ⟨hp, hnot⟩ := Bool.and_eq_true_iff.1 hp
      simp [(covered_append_iff hpast hlater).2 (forall_mem_cons.1 (huse hp))] at hnot

/-! ## One operation -/

/-- The slots of `x` that the code reserves, or will when the function gets its head. -/
def State.kept (s : State) (x : String) : Nat :=
  s.slots x + if s.headed then 0 else (s.locals.map fun id => (s.table.entry id).name).count x

def State.Entered (s : State) : Prop := ∀ id ∈ s.locals, id < s.table.entries.size

structure Ignores (x : String) (s s' : State) : Prop extends SameDepth s s' where
  headed : s'.headed = s.headed
  holds : s'.table.holds x = s.table.holds x
  misses : misses s'.report x = misses s.report x
  kept : s.Entered → s'.Entered ∧ s'.kept x = s.kept x

variable {s s' t : State}

theorem Ignores.refl (s : State) : Ignores x s s := ⟨⟨rfl, rfl⟩, rfl, rfl, rfl, fun h => ⟨h, rfl⟩⟩

theorem Ignores.trans (h : Ignores x s t) (h' : Ignores x t s') : Ignores x s s' where
  table := h'.table.trans h.table
  loops := h'.loops.trans h.loops
  headed := h'.headed.trans h.headed
  holds := h'.holds.trans h.holds
  misses := h'.misses.trans h.misses
  kept := fun hs =>
    have ht := h.kept hs
    have hs' := h'.kept ht.1
    ⟨hs'.1, hs'.2.trans ht.2⟩

theorem Silently.ignores (h : Silently s s') : Ignores x s s' := by
  refine ⟨h.sameDepth, h.headed, by rw [h.table], by rw [h.misses], fun hs => ⟨?_, ?_⟩⟩
  · rw [State.Entered, h.locals, h.table]
    exact hs
  · rw [State.kept, h.slots, h.headed, h.locals, h.table, State.kept]

variable {f : Entry → Entry} {n : Int} {name : String}

theorem names_of_install (hs : s.Entered)
    (htable : s'.table = (s.table.installAt name n).2.modifyEntry s.table.entries.size f)
    (hf : ∀ e, (f e).name = e.name) :
    (s.locals.map fun id => (s'.table.entry id).name) =
      (s.locals.map fun id => (s.table.entry id).name) ∧
    (s'.table.entry s.table.entries.size).name = name := by
  rw [htable]
  constructor
  · refine map_congr_left fun id hid => ?_
    rw [Table.entry_modifyEntry_of_ne (ne_of_lt (hs id hid)), Table.entry_installAt_of_lt _ (hs id hid)]
  · rw [Table.entry_modifyEntry_self (Table.size_lt_installAt _), hf, Table.entry_installAt_self]

theorem ignores_of_install (hname : x ≠ name)
    (htable : s'.table = (s.table.installAt name n).2.modifyEntry s.table.entries.size f)
    (hn : n = 0 ∨ n = s.table.level) (hf : ∀ e, (f e).name = e.name) (hloops : s'.loops = s.loops)
    (hheaded : s'.headed = s.headed) (hslots : s'.slots x = s.slots x)
    (hmisses : misses s'.report x = misses s.report x)
    (hlocals : s'.locals = s.locals ∨ s'.locals = s.locals ++ [s.table.entries.size]) :
    Ignores x s s' := by
  have hholds : s'.table.holds x = s.table.holds x := by
    rw [htable]
    rcases hn with rfl | rfl
    · exact Table.holds_installAt_zero (T := s.table) hname
    · exact Table.holds_install_of_ne (T := s.table) hname
  refine ⟨sameDepth_of_install htable hloops, hheaded, hholds, hmisses, fun hs => ?_⟩
  have hsize : s'.table.entries.size = s.table.entries.size + 1 := by
    rw [htable, Table.size_modifyEntry, Table.size_installAt]
  obtain ⟨hnames, hnew⟩ := names_of_install hs htable hf
  have hold : ∀ id ∈ s.locals, id < s'.table.entries.size := by
    intro id hid
    rw [hsize]
    exact Nat.lt_succ_of_lt (hs id hid)
  rw [State.kept, hslots, hheaded, State.Entered]
  rcases hlocals with hl | hl
  · rw [hl, hnames]
    exact ⟨hold, rfl⟩
  · rw [hl, map_append, hnames, count_append, map_singleton, hnew, count_singleton,
      beq_false_of_ne hname.symm]
    exact ⟨forall_mem_append.2 ⟨hold, by simp [hsize]⟩, rfl⟩

/-- A use of a name that was forgotten puts it into the current scope, with a report and a slot. -/
theorem forgotten_variableRef (hnone : s.table.lookup? x = none) (hs : s.Entered) :
    let s' := after (variableRef x) s
    SameDepth s s' ∧ s'.headed = s.headed ∧ s'.Entered ∧
      s'.table.holds x = (s.table.holds x).modifyHead (true || ·) ∧
      misses s'.report x = misses s.report x + 1 ∧ s'.kept x = s.kept x + 1 := by
  obtain ⟨_, t, hrun, rfl, ht⟩ := yields_declareForgotten x s
  have hafter : after (variableRef x) s = after (do
      let e := (← get).table.entry s.table.entries.size
      define (e.tag.union .address) fun dst => .ref dst e.storage e.name e.offset) t := by
    rw [variableRef, after_get_bind, hnone]
    exact after_bind_of_ok hrun
  have hspares := (quiet_ref s.table.entries.size t).ignores (x := x)
  rw [← hafter] at hspares
  have htable := congrArg State.table ht
  obtain ⟨hnames, hnew⟩ := names_of_install hs htable fun _ => rfl
  have hentered : t.Entered := by
    have hsize : t.table.entries.size = s.table.entries.size + 1 := by
      rw [htable, Table.size_modifyEntry, Table.install, Table.size_installAt]
    intro id hid
    rw [ht] at hid
    rcases mem_append.1 hid with hid | hid
    · exact hsize ▸ Nat.lt_succ_of_lt (hs id hid)
    · rw [mem_singleton.1 hid, hsize]
      exact Nat.lt_succ_self _
  have hkept : t.kept x = s.kept x + 1 := by
    have hlocals : t.locals = s.locals ++ [s.table.entries.size] := by rw [ht]
    have hheaded : t.headed = s.headed := by rw [ht]
    have hslots : t.slots x = s.slots x + if s.headed then 1 else 0 := by
      rw [State.slots, ht]
      cases s.headed <;> simp [State.slots, Quad.reserves, countP_append]
    rw [State.kept, hslots, hheaded, hlocals, map_append, hnames, map_singleton, hnew, count_append,
      count_singleton_self, State.kept]
    cases s.headed <;> simp
    omega
  refine ⟨⟨hspares.table.trans ?_, hspares.loops.trans ?_⟩, hspares.headed.trans ?_, (hspares.kept hentered).1,
    hspares.holds.trans ?_, hspares.misses.trans ?_, (hspares.kept hentered).2.trans hkept⟩
  · exact (sameDepth_of_install htable (by rw [ht])).table
  · rw [ht]
  · rw [ht]
  · rw [htable]
    exact Table.holds_install.trans (by simp)
  · rw [ht]
    simp [misses_error]

theorem ignores_perform (hspares : op.ignores x = true) (huse : op.uses x = false)
    (hloop : op.isLoop = false) : Ignores x s (after op.perform s) := by
  cases hquiet : op.isQuiet with
  | true => exact (quiet_perform hquiet s).ignores
  | false =>
    cases op with
    | declareGlobal name tag count =>
      have hname : x ≠ name := Ne.symm (by simpa [Op.ignores] using hspares)
      obtain ⟨_, rfl, r, ⟨-, hmisses⟩, hs'⟩ := exists_after (yields_declareGlobal name tag count s)
      rw [Op.perform, after_discard, hs']
      exact ignores_of_install hname rfl (.inl rfl) (fun _ => rfl) rfl rfl
        (congrFun (slots_push s fun _ => rfl) x) (congrFun hmisses x) (.inl rfl)
    | declareFormal name tag | declareLocal name tag count =>
      have hname : x ≠ name := Ne.symm (by simpa [Op.ignores] using hspares)
      simp only [Op.perform, after_discard, declareFormal, declareLocal]
      rcases declareInFunc_cases name s with ⟨-, hrun⟩ | ⟨-, _, _, hrun, rfl, r, ⟨-, hmisses⟩, rfl⟩
      · rw [after_bind, hrun]
        exact .refl s
      · rw [after_bind_of_ok hrun]
        refine ignores_of_install hname rfl (.inr rfl) (fun _ => rfl) rfl rfl rfl
          (congrFun hmisses x) ?_
        first | exact .inl rfl | exact .inr rfl
    | variableRef name =>
      have hname : x ≠ name := Ne.symm (by simpa [Op.uses] using huse)
      rw [Op.perform, after_discard, variableRef, after_get_bind]
      cases s.table.lookup? name with
      | some id => exact (quiet_ref id s).ignores
      | none =>
        obtain ⟨_, t, hrun, rfl, ht⟩ := yields_declareForgotten name s
        show Ignores x s (after (declareForgotten name >>= _) s)
        rw [after_bind_of_ok hrun]
        refine Ignores.trans (t := t) ?_ (quiet_ref s.table.entries.size t).ignores
        refine ignores_of_install hname (congrArg State.table ht) (.inr rfl) (fun _ => rfl)
          (by rw [ht])
          (by rw [ht]) ?_ ?_ (.inr (by rw [ht]))
        · rw [State.slots, ht]
          cases s.headed <;> simp [State.slots, Quad.reserves, countP_append, hname.symm]
        · rw [ht]
          simp [misses_error, hname.symm]
    | call name args =>
      have hname : x ≠ name := Ne.symm (by simpa [Op.ignores] using hspares)
      rw [Op.perform, after_discard]
      obtain ⟨_, t, ht, -, rfl | ⟨-, rfl⟩, -⟩ := exists_after (yields_call name args s)
      · exact ht.ignores
      · refine Ignores.trans ?_ ht.ignores
        exact ignores_of_install hname rfl (.inl rfl) (fun _ => rfl) rfl rfl rfl (misses_warn ..)
          (.inl rfl)
    | _ => simp_all [Op.isQuiet, Op.isLoop, Op.ignores]

/-! ## Runs -/

/-- What is known of `x` behind the operations of `past`, if the function began with `m` reports and
`k` slots. The scopes inside of `d` loops have `x` exactly if one of them covers a use. -/
structure Notes (x : String) (headed : Bool) (m k : Nat) (past : List (Op × Nat)) (s : State) :
    Prop where
  headed : s.headed = headed
  level : s.loops.length < s.table.level
  entered : s.Entered
  scopes : ∀ d ≤ s.loops.length,
    true ∈ (s.table.holds x).drop (s.loops.length - d) ↔ covered x past d = true
  misses : misses s.report x = m + uncovered x past
  kept : s.kept x = k + uncovered x past

variable {headed : Bool} {m k : Nat}

theorem uncovered_cons (hop : op.uses x = false) : uncovered x ((op, e) :: past) = uncovered x past := by
  rw [uncovered, hop]
  rfl

theorem Notes.ignores (h : Notes x headed m k past s) (hs : Ignores x s s')
    (hop : op.uses x = false) :
    Notes x headed m k ((op, s.loops.length) :: past) s' := by
  obtain ⟨hentered, hkept⟩ := hs.kept h.entered
  refine ⟨hs.headed.trans h.headed, ?_, hentered, fun d hd => ?_, ?_, ?_⟩
  · rw [hs.loops, hs.table]
    exact h.level
  · rw [hs.loops] at hd ⊢
    rw [hs.holds, covered_cons_of_le hd (by simp [hop])]
    exact h.scopes d hd
  · rw [hs.misses, uncovered_cons hop, h.misses]
  · rw [hkept, uncovered_cons hop, h.kept]

theorem Notes.openLoop (h : Notes x headed m k ((op, s.loops.length) :: past) s)
    (hop : op.uses x = false) :
    Notes x headed m k ((op, s.loops.length) :: past) (after openLoop s) := by
  rcases after_openLoop s with he | ⟨-, he⟩
  · rw [he]
    exact h
  · rw [he]
    refine ⟨h.headed, Nat.succ_lt_succ h.level, h.entered, fun d hd => ?_, h.misses, h.kept⟩
    show true ∈ (false :: s.table.holds x).drop (s.loops.length + 1 - d) ↔ _
    rcases Nat.le_succ_iff.1 hd with hd | rfl
    · rw [Nat.succ_sub hd, drop_succ_cons]
      exact h.scopes d hd
    · have hsame : covered x ((op, s.loops.length) :: past) (s.loops.length + 1) =
          covered x ((op, s.loops.length) :: past) s.loops.length := by
        simp [covered, hop]
      rw [hsame, ← h.scopes _ le_rfl]
      simp

theorem Notes.endLoop (h : Notes x headed m k past s) : Notes x headed m k past (after endLoop s) := by
  rcases after_endLoop s with he | ⟨scope, outer, hloops, he⟩
  · rw [he]
    exact h
  · rw [he]
    have hlevel := h.level
    have hscopes := h.scopes
    rw [hloops, length_cons] at hlevel hscopes
    obtain ⟨l, ls, hinner⟩ : ∃ l ls, s.table.inner = l :: ls := by
      refine exists_cons_of_length_pos (Nat.zero_lt_of_lt hlevel)
    refine ⟨h.headed, ?_, h.entered, fun d hd => ?_, h.misses, h.kept⟩
    · show outer.length < s.table.inner.tail.length
      rw [length_tail]
      exact Nat.lt_sub_of_add_lt hlevel
    · have hholds : s.table.leave.holds x = (s.table.holds x).tail := by
        simp [Table.holds, Table.leave, hinner]
      show true ∈ (s.table.leave.holds x).drop (outer.length - d) ↔ _
      rw [hholds, ← drop_one, drop_drop, ← hscopes d (Nat.le_succ_of_le hd), Nat.succ_sub hd,
        add_comm]

theorem Notes.use (h : Notes x headed m k past s) :
    Notes x headed m k ((.variableRef x, s.loops.length) :: past) (after (variableRef x) s) := by
  have huses : Op.uses x (.variableRef x) = true := by simp [Op.uses]
  have htop := h.scopes s.loops.length le_rfl
  rw [Nat.sub_self, drop_zero] at htop
  -- the innermost scope or one around it has the name now, those around it are as before
  have hscopes : ∀ {bs : List Bool}, true ∈ bs → bs.tail = (s.table.holds x).tail →
      ∀ d ≤ s.loops.length, true ∈ bs.drop (s.loops.length - d) ↔
        covered x ((.variableRef x, s.loops.length) :: past) d = true := by
    intro bs hbs htail d hd
    rcases Nat.eq_or_lt_of_le hd with rfl | hd
    · rw [Nat.sub_self, drop_zero]
      exact iff_of_true hbs (by simp [covered, huses])
    · obtain ⟨n, hn⟩ : ∃ n, s.loops.length - d = n + 1 := ⟨s.loops.length - d - 1, by omega⟩
      rw [covered_cons_of_le hd.le fun _ => hd, ← h.scopes d hd.le, hn,
        add_comm, ← drop_drop, ← drop_drop, drop_one, drop_one, htail]
  cases hlookup : s.table.lookup? x with
  | some id =>
    have hseen : true ∈ s.table.holds x := by
      by_contra hnot
      simp [Table.lookup?_eq_none_iff.2 hnot] at hlookup
    have hs : Ignores x s (after (variableRef x) s) := by
      rw [variableRef, after_get_bind, hlookup]
      exact (quiet_ref id s).ignores
    obtain ⟨hentered, hkept⟩ := hs.kept h.entered
    have hsame : uncovered x ((.variableRef x, s.loops.length) :: past) = uncovered x past := by
      rw [uncovered, htop.1 hseen]
      simp
    refine ⟨hs.headed.trans h.headed, hs.loops ▸ hs.table ▸ h.level, hentered, ?_, ?_, ?_⟩
    · rw [hs.loops, hs.holds]
      exact hscopes hseen rfl
    · rw [hs.misses, hsame, h.misses]
    · rw [hkept, hsame, h.kept]
  | none =>
    obtain ⟨hdepth, hheaded, hentered, hholds, hmisses, hkept⟩ :=
      forgotten_variableRef hlookup h.entered
    have hmore : uncovered x ((.variableRef x, s.loops.length) :: past) = uncovered x past + 1 := by
      have hnot : covered x past s.loops.length = false := by
        rw [← Bool.not_eq_true, ← htop]
        exact Table.lookup?_eq_none_iff.1 hlookup
      rw [uncovered, huses, hnot]
      rfl
    refine ⟨hheaded.trans h.headed, hdepth.loops ▸ hdepth.table ▸ h.level, hentered, ?_, ?_, ?_⟩
    · rw [hdepth.loops, hholds]
      obtain ⟨b, bs, hbs⟩ : ∃ b bs, s.table.holds x = b :: bs :=
        exists_cons_of_length_pos (by simp [Table.holds])
      refine hscopes ?_ ?_ <;> simp [hbs]
    · rw [hmisses, hmore, h.misses, add_assoc]
    · rw [hkept, hmore, h.kept, add_assoc]

theorem Notes.perform (h : Notes x headed m k past s) (hop : op.ignores x = true) :
    Notes x headed m k ((op, s.loops.length) :: past) (after op.perform s) := by
  cases huse : op.uses x with
  | true =>
    cases op with
    | variableRef name =>
      obtain rfl : name = x := eq_of_beq huse
      rw [Op.perform, after_discard]
      exact h.use
    | _ => cases huse
  | false =>
    cases hloop : op.isLoop with
    | false => exact h.ignores (ignores_perform hop huse hloop) huse
    | true =>
      by_cases hopen : op = .openLoop
      · subst hopen
        exact (h.ignores (.refl s) huse).openLoop huse
      · obtain ⟨t, ht, he | he⟩ := closes_perform hloop hopen s
        · exact he ▸ h.ignores ht.ignores huse
        · exact he ▸ (h.ignores ht.ignores huse).endLoop

theorem history_append (s : State) (pre post : List Op) :
    history s (pre ++ post) = history s pre ++ history (s.run pre) post := by
  induction pre generalizing s with
  | nil => rfl
  | cons op pre ih => exact congrArg _ (ih _)

theorem Notes.run {ops : List Op} (h : Notes x headed m k past s)
    (hops : ∀ op ∈ ops, op.ignores x = true) :
    Notes x headed m k ((history s ops).reverse ++ past) (s.run ops) := by
  induction ops generalizing s past with
  | nil => exact h
  | cons op ops ih =>
    obtain ⟨hop, hops⟩ := forall_mem_cons.1 hops
    rw [history, reverse_cons, append_assoc]
    exact ih (h.perform hop) hops

theorem countP_storage (s : State) (x : String) : s.storage.countP (Quad.reserves x) =
    (s.locals.map fun id => (s.table.entry id).name).count x := by
  rw [State.storage, countP_append, countP_map, countP_map, count_eq_countP, countP_map,
    countP_eq_zero.2 fun _ _ => by simp [Quad.reserves], zero_add]
  rfl

theorem Notes.beginFunction (h : Notes x false m k past s) (id : EntryId) :
    Notes x true m k ((.beginFunction (some id), s.loops.length) :: past)
      (after (beginFunction (some id)) s) := by
  have hskip : uncovered x ((.beginFunction (some id), s.loops.length) :: past) = uncovered x past :=
    uncovered_cons rfl
  rw [after_of_ok (beginFunction_eq id s)]
  refine ⟨rfl, h.level, h.entered, fun d hd => ?_, hskip ▸ h.misses, ?_⟩
  · rw [covered_cons_of_le hd (by simp [Op.uses])]
    exact h.scopes d hd
  · rw [hskip, ← h.kept, State.kept, State.kept, h.headed]
    simp [State.slots, countP_append, countP_storage, Quad.reserves]

theorem notes_openFunction (hloops : s.loops.length ≤ s.table.level) (hx : s.table.lookup? x = none)
    (tag : Tag) (hname : x ≠ name) :
    Notes x false (misses s.report x) (s.slots x) [] (after (openFunction tag name) s) := by
  obtain ⟨id, T, r, hs', hinner, -, -, hmisses, hglobal⟩ :=
    exists_after (yields_openFunction tag name s)
  rw [hs']
  refine ⟨rfl, ?_, by simp [State.Entered], fun d _ => ?_, congrFun hmisses x, ?_⟩
  · show s.loops.length < T.inner.length
    rw [hinner]
    exact Nat.lt_succ_of_le hloops
  · have hnone : true ∉ T.holds x := by
      have hsame : T.holds x = false :: s.table.holds x := by
        have hlookup : T.globals.lookup x = s.table.globals.lookup x := hglobal x hname
        simp [Table.holds, hinner, hlookup]
      rw [hsame, mem_cons, not_or]
      exact ⟨by simp, Table.lookup?_eq_none_iff.1 hx⟩
    exact iff_of_false (fun h => hnone (mem_of_mem_drop h)) (by simp [covered])
  · rfl

theorem misses_endFunction (s : State) (x : String) :
    misses (after endFunction s).report x = misses s.report x ∧
      (after endFunction s).slots x = s.slots x := by
  have hslots := congrFun (slots_push s (q := .funcEnd) fun _ => rfl) x
  rcases endFunction_cases s with ⟨-, e, hrun⟩ | ⟨-, s', hrun⟩
  · rw [after, hrun]
    exact ⟨rfl, hslots⟩
  · rw [after_of_ok hrun, endFunction_eq hrun]
    refine ⟨?_, hslots⟩
    simp [misses, countP_append, countP_map, countP_eq_zero, message_eq_undeclared]

/-- A function in which nothing declares `x`, and that nothing has declared before: the uses of `x`
are reported that come when no scope of an earlier one is open, and each of them gets a slot. It is
one exactly if no use comes after the scope of the first one was closed. -/
theorem forgotten_reported {s : State} {x : String} (tag : Tag) (name : String) (pre body : List Op)
    (id : EntryId) (hloops : s.loops.length ≤ s.table.level) (hx : s.table.lookup? x = none)
    (hname : x ≠ name) (hpre : ∀ op ∈ pre, op.ignores x = true)
    (hbody : ∀ op ∈ body, op.ignores x = true) :
    let ops := pre ++ .beginFunction (some id) :: body
    let past := history (s.run [.openFunction tag name]) ops
    let s' := s.run ([.openFunction tag name] ++ ops ++ [.endFunction])
    misses s'.report x = misses s.report x + uncovered x past.reverse ∧
    s'.slots x = s.slots x + uncovered x past.reverse ∧
    ∀ before d later, past = before ++ (.variableRef x, d) :: later →
      (∀ p ∈ before, p.1.uses x = false) →
      (uncovered x past.reverse = 1 ↔ Within x d later.reverse) := by
  intro ops past s'
  have hopen : s.run [.openFunction tag name] = after (openFunction tag name) s := after_discard _ s
  have hnotes : Notes x true (misses s.report x) (s.slots x) past.reverse
      ((s.run [.openFunction tag name]).run ops) := by
    have hhead := (((notes_openFunction hloops hx tag hname).run hpre).beginFunction id).run hbody
    rw [← hopen, append_nil] at hhead
    have hpast : past.reverse = _ := congrArg reverse (history_append _ pre _)
    rw [hpast, reverse_append, history, reverse_cons, append_assoc, run_append]
    exact hhead
  have hlast : s' = after endFunction ((s.run [.openFunction tag name]).run ops) := by
    rw [← run_append]
    exact run_append _ _ _
  obtain ⟨hmisses, hslots⟩ := misses_endFunction ((s.run [.openFunction tag name]).run ops) x
  have hkept := hnotes.kept
  rw [State.kept, hnotes.headed] at hkept
  refine ⟨?_, ?_, fun before d later hpast hbefore => ?_⟩
  · rw [hlast, hmisses, hnotes.misses]
  · rw [hlast, hslots]
    exact hkept
  · rw [hpast, reverse_append, reverse_cons, append_assoc]
    exact uncovered_append_eq_one_iff fun p hp => hbefore p (mem_reverse.1 hp)

/-- A name is used in a loop that is in another one, behind the inner one and behind both. -/
def leftLoops : List Op :=
  [.openLoop, .openLoop, .variableRef "x", .endLoop, .variableRef "x", .variableRef "x", .endLoop,
    .variableRef "x"]

/-- Where the loops around the uses are left one by one, each use behind a loop is reported again. -/
theorem leftLoops_reported :
    let s := State.new {} .empty ⟨none, []⟩
    let s' := s.run ([.openFunction .int "f"] ++ ([.declareLocal "y" .int 1] ++
      .beginFunction (some 0) :: leftLoops) ++ [.endFunction])
    s.table.lookup? "x" = none ∧ misses s'.report "x" = 3 ∧ s'.slots "x" = 3 := by
  intro s s'
  have hx : s.table.lookup? "x" = none := rfl
  obtain ⟨hmisses, hslots, -⟩ := forgotten_reported .int "f" [.declareLocal "y" .int 1] leftLoops 0
    (Nat.zero_le _) hx (by decide) (by decide +kernel) (by decide +kernel)
  have hcount : uncovered "x" (history (s.run [.openFunction .int "f"]) ([.declareLocal "y" .int 1] ++
      .beginFunction (some 0) :: leftLoops)).reverse = 3 := by
    decide +kernel
  rw [hcount] at hmisses hslots
  exact ⟨hx, hmisses, hslots⟩

/-- A name that is used in a loop and behind it is reported twice and gets two slots. -/
theorem afterLoop_reported_twice :
    let s' := (State.new {} .empty ⟨none, []⟩).run [.openFunction .int "f", .beginFunction (some 0),
      .openLoop, .variableRef "x", .endLoop, .variableRef "x", .endFunction]
    misses s'.report "x" = 2 ∧ s'.slots "x" = 2 := by
  decide +kernel

end Emit

end Quadruple
