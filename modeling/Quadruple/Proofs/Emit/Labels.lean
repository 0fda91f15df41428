import Quadruple.Proofs.Emit.Goto
import Quadruple.Proofs.Emit.Reachable

/-!
# Jumps to labels along every run

A function may jump to a label before and after its declaration, declare a label twice, jump to
labels that it never declares, and do anything else in between.

`Turn` says what one operation inside a function may do to the records of jumps and labels. The
rest follows from it: `Tracks` ties the records to the operations so far, and `Aims` follows one
jump from the moment it is emitted.

Main statement: `gotos_reach_labels`.
-/

namespace Quadruple.Emit

open List

/-! ## Jumps and labels of a run -/

def Op.goto? : Op → Option String
  | .gotoStmt name => some name
  | _ => none

def Op.label? : Op → Option String
  | .labelStmt name => some name
  | _ => none

def Op.isInner : Op → Bool
  | .openFunction .. | .endFunction => false
  | _ => true

def gotoNames (ops : List Op) : List String := ops.filterMap Op.goto?

def labelNames (ops : List Op) : List String := ops.filterMap Op.label?

def Performs (s : State) (ops : List Op) (s' : State) : Prop := ops.forM Op.perform s = .ok () s'

variable {s s' : State}

theorem performs_nil : Performs s [] s' ↔ s = s' := by
  constructor
  · rintro ⟨⟩
    rfl
  · rintro rfl
    rfl

variable {ops : List Op} {op : Op}

theorem performs_cons :
    Performs s (op :: ops) s' ↔ ∃ m, op.perform s = .ok () m ∧ Performs m ops s' := by
  show (op.perform >>= fun _ => ops.forM Op.perform) s = _ ↔ _
  rw [bind_eq_ok_iff]
  exact Unique.exists_iff

theorem performs_append {ops' : List Op} :
    Performs s (ops ++ ops') s' ↔ ∃ m, Performs s ops m ∧ Performs m ops' s' := by
  show (forM (ops ++ ops') Op.perform : EmitM Unit) s = _ ↔ _
  rw [forM_append, bind_eq_ok_iff]
  exact Unique.exists_iff

theorem Performs.concat {m : State} (h : Performs s ops m) (hop : op.perform m = .ok () s') :
    Performs s (ops ++ [op]) s' :=
  performs_append.2 ⟨m, h, performs_cons.2 ⟨s', hop, performs_nil.2 rfl⟩⟩

theorem Performs.run_eq (h : Performs s ops s') : s.run ops = s' := by
  induction ops generalizing s with
  | nil => exact performs_nil.1 h
  | cons op ops ih =>
    obtain ⟨m, hop, hrest⟩ := performs_cons.1 h
    rw [← ih hrest, ← after_of_ok hop]
    rfl

theorem eq_ok_after {x : EmitM Unit} (h : result? x s = some ()) : x s = .ok () (after x s) := by
  obtain ⟨s', hx⟩ := eq_ok_of_result? h
  rw [after_of_ok hx, hx]

theorem performs_run (h : result? (ops.forM Op.perform) s = some ()) :
    Performs s ops (s.run ops) := by
  have hrun : Performs s ops _ := eq_ok_after h
  rwa [← hrun.run_eq] at hrun

theorem Reachable.performs (h : Reachable s) (hops : Performs s ops s') :
    Reachable s' := hops.run_eq ▸ h.run ops

/-! ## What one operation does to the records -/

/-- The records hold each label once, know which are declared, and share no blank that has no label
yet. -/
structure Orderly (s : State) : Prop where
  names : (s.pending.map (·.name)).Nodup
  flags : ∀ p ∈ s.pending, p.declared = (s.declared.lookup p.name).isSome
  blanks : s.openGotos.Nodup
  unlabelled : s.openGotos.Disjoint (s.patched.map Prod.fst)

/-- What an operation inside a function may do to jumps and labels of the source. -/
inductive Turn (s : State) : Op → State → Prop
  | other {op : Op} {s' : State} : op.goto? = none → op.label? = none →
      s'.pending = s.pending → s'.declared = s.declared →
      s.code.toList <+: s'.code.toList → s.patched <:+ s'.patched →
      s.openGotos.Disjoint (s'.patched.map Prod.fst) → Turn s op s'
  | direct {name : String} {l : Nat} : s.declared.lookup name = some l →
      Turn s (.gotoStmt name) { s with code := s.code.push (.jump (.label l)), marked := false }
  | ahead {name : String} {ps : List PendingLabel} : s.declared.lookup name = none →
      Recorded name (s.blanks + 1) s.pending ps → Turn s (.gotoStmt name)
        { s with
          code := s.code.push (.jump (.blank (s.blanks + 1 : Nat)))
          marked := false
          blanks := s.blanks + 1
          pending := ps }
  | repeated {name : String} : (s.declared.lookup name).isSome = true → Turn s (.labelStmt name)
      { s with report := s.report.error s.pos (Notice.redeclaredLabel name).message }
  | declared {name : String} {l : Nat} {code : Array Quad} :
      s.declared.lookup name = none → mark s = .ok l { s with labels := l, code, marked := true } →
      s.code.toList <+: code.toList → Marks code.toList l [] → Turn s (.labelStmt name)
        (State.patchAll { s with
          labels := l
          code
          marked := false
          declared := (name, l) :: s.declared
          pending := declare name s.pending } (waiting name s.pending) l)

variable {s1 : State} {name : String} {ps qs : List PendingLabel} {p : PendingLabel} {b l : Nat}
  {t : Target} {names : List String}

theorem unresolved_declare (ps : List PendingLabel) :
    ((declare name ps).filter fun p => !p.declared).map (·.name) =
      ((ps.filter fun p => !p.declared).map (·.name)).filter (· ≠ name) := by
  induction ps with
  | nil => rfl
  | cons p ps ih =>
    have hcons : declare name (p :: ps) =
        (if p.name == name then { p with declared := true } else p) :: declare name ps := rfl
    rw [hcons]
    by_cases hp : p.name = name <;> cases hd : p.declared <;> simp [hp, hd] <;> simpa using ih

/-! ### Operations -/

theorem Orderly.undeclared (hs : Orderly s) (hl : s.declared.lookup name = none) :
    ∀ p ∈ s.pending, p.name = name → p.declared = false := by
  intro p hp he
  rw [hs.flags p hp, he, hl]
  rfl

theorem turn_gotoStmt (hs : Orderly s) (h : gotoStmt name s = .ok () s') :
    Turn s (.gotoStmt name) s' := by
  have hy : Yields (gotoStmt name) s fun _ t => t = s' := ⟨_, _, h, rfl⟩
  cases hl : s.declared.lookup name with
  | some l =>
    simp only [gotoStmt, yields_bind, yields_get, hl, emit, yields_modify, keepsMark,
      Bool.and_false] at hy
    exact hy ▸ .direct hl
  | none =>
    obtain ⟨ps, hrec, hiff⟩ := gotoStmt_ahead hs.names hl
    exact ((hiff _).1 hy).2.2 ▸ .ahead hl hrec

theorem labelStmt_of_declared (h : (s.declared.lookup name).isSome = true) :
    labelStmt name s = .ok () { s with
      report := s.report.error s.pos (Notice.redeclaredLabel name).message } := by
  refine eq_of_yields ?_
  simp [labelStmt, h, error]

theorem turn_labelStmt (hs : Orderly s) (hr : Reachable s) (h : labelStmt name s = .ok () s') :
    Turn s (.labelStmt name) s' := by
  cases hl : (s.declared.lookup name).isSome with
  | true =>
    rw [labelStmt_of_declared hl] at h
    cases h
    exact .repeated hl
  | false =>
    have hnone : s.declared.lookup name = none := by simpa using hl
    obtain ⟨l, code, seg, hmark, hcode, -, hmarks⟩ := mark_eq hr.intact.labelled
    have hperm := pendingBlanks_declare (hs.undeclared hnone)
    have hrun := labelStmt_fresh hl hmark hs.names (nodup_append.1 (hperm.nodup_iff.1 hs.blanks)).1
      fun b hb => hs.unlabelled (hperm.mem_iff.2 (mem_append_left _ hb))
    rw [hrun] at h
    cases h
    exact .declared hnone hmark ⟨seg, hcode.symm⟩ hmarks

theorem openGotos_subset_awaited (s : State) : s.openGotos ⊆ s.awaited := by
  intro b hb
  obtain ⟨p, hp, hb⟩ := mem_flatMap.1 hb
  exact mem_flatMap.2 ⟨p, mem_of_mem_filter hp, hb⟩

theorem turn_perform (hs : Orderly s) (hr : Reachable s) (hop : op.isInner = true)
    (h : op.perform s = .ok () s') : Turn s op s' := by
  cases hj : op.jumps with
  | true =>
    -- Only four operations work on the records, and two of them are not inside a function.
    cases op with
    | gotoStmt => exact turn_gotoStmt hs h
    | labelStmt => exact turn_labelStmt hs hr h
    | openFunction | endFunction => cases hop
    | _ => cases hj
  | false =>
    have hg := grows_perform op s
    rw [hj, after_of_ok h] at hg
    obtain ⟨hpending, hdeclared⟩ := hg.quiet rfl
    have hplain : op.goto? = none ∧ op.label? = none := by
      cases op with
      | gotoStmt | labelStmt => cases hj
      | _ => exact ⟨rfl, rfl⟩
    refine .other hplain.1 hplain.2 hpending hdeclared hg.code hg.patched fun b hb hb' => ?_
    -- A chain could label the blank of a jump, but blanks in chains and in records are apart.
    have ha := openGotos_subset_awaited s hb
    rcases hg.keys b hb' with hb' | hb' | ⟨hf, -⟩ | ⟨hb', -⟩
    · exact hs.unlabelled hb hb'
    · exact hr.intact.fresh.apart ha hb'
    · cases hf
    · exact absurd (hr.intact.fresh.awaited b ha) (hb'.not_ge)

/-! ## Records and operations so far -/

theorem Orderly.turn (hs : Orderly s) (hr : Reachable s) (ht : Turn s op s') : Orderly s' := by
  cases ht with
  | other _ _ hpending hdeclared _ _ hfresh =>
    refine ⟨hpending ▸ hs.names, ?_, ?_, ?_⟩
    · rw [hpending, hdeclared]
      exact hs.flags
    · rw [State.openGotos, hpending]
      exact hs.blanks
    · rw [State.openGotos, hpending]
      exact hfresh
  | direct | repeated => exact ⟨hs.names, hs.flags, hs.blanks, hs.unlabelled⟩
  | @ahead name ps hl hrec =>
    have hperm := hrec.pendingBlanks (hs.undeclared hl)
    have hnew : s.blanks + 1 ∉ s.openGotos := fun hb =>
      absurd (hr.intact.fresh.awaited _ (openGotos_subset_awaited s hb)) (Nat.not_succ_le_self _)
    refine ⟨hrec.names hs.names, fun q hq => ?_, ?_, ?_⟩
    · rcases hrec.mem_cases hs.names hq with ⟨hq, -⟩ | ⟨p, hp, rfl, rfl⟩ | ⟨-, rfl⟩
      · exact hs.flags q hq
      · exact hs.flags p hp
      · exact hl ▸ rfl
    · exact hperm.nodup_iff.2 (nodup_cons.2 ⟨hnew, hs.blanks⟩)
    · intro b hb hb'
      rcases mem_cons.1 (hperm.mem_iff.1 hb) with rfl | hb
      · exact absurd (hr.intact.fresh.patched _ hb') (Nat.not_succ_le_self _)
      · exact hs.unlabelled hb hb'
  | @declared name l code hl =>
    have hperm := pendingBlanks_declare (hs.undeclared hl)
    have hsplit := nodup_append.1 (hperm.nodup_iff.1 hs.blanks)
    refine ⟨(names_declare s.pending).symm ▸ hs.names, fun q hq => ?_, hsplit.2.1, ?_⟩
    · obtain ⟨p, hp, rfl⟩ := mem_map.1 hq
      show _ = (((name, l) :: s.declared).lookup _).isSome
      by_cases he : p.name = name
      · simp [he]
      · simp [lookup_cons, beq_eq_false_iff_ne.2 he, hs.flags p hp]
    · intro b hb hb'
      rw [keys_patchAll, mem_append, mem_reverse] at hb'
      rcases hb' with hb' | hb'
      · exact hsplit.2.2 b hb' b hb rfl
      · exact hs.unlabelled (hperm.mem_iff.2 (mem_append_right _ hb)) hb'

/-- The first declaration of a label gives its point the label `l`, and `p` is the state there. -/
def FirstLabel (s : State) (ops : List Op) (name : String) (l : Nat) (p : State) : Prop :=
  ∃ pre post m, ops = pre ++ .labelStmt name :: post ∧ name ∉ labelNames pre ∧
    Performs s pre m ∧ mark m = .ok l p

theorem FirstLabel.append {p : State} (h : FirstLabel s ops name l p) (more : List Op) :
    FirstLabel s (ops ++ more) name l p := by
  obtain ⟨pre, post, m, rfl, hpre, hm, hl⟩ := h
  exact ⟨pre, post ++ more, m, by simp, hpre, hm, hl⟩

/-- What the records of a function say after the operations `ops`, which began in `s1`. -/
structure Tracks (s1 : State) (ops : List Op) (s : State) : Prop where
  orderly : Orderly s
  unresolved : s.unresolved = (gotoNames ops).eraseDups.filter (· ∉ labelNames ops)
  declared : ∀ name, (s.declared.lookup name).isSome = true ↔ name ∈ labelNames ops
  first : ∀ name l, s.declared.lookup name = some l → ∃ p, FirstLabel s1 ops name l p ∧
    Marks p.code.toList l [] ∧ p.code.toList <+: s.code.toList

theorem gotoNames_concat (ops : List Op) (op : Op) :
    gotoNames (ops ++ [op]) = gotoNames ops ++ op.goto?.toList := by
  cases h : op.goto? <;> simp [gotoNames, h]

theorem labelNames_concat (ops : List Op) (op : Op) :
    labelNames (ops ++ [op]) = labelNames ops ++ op.label?.toList := by
  cases h : op.label? <;> simp [labelNames, h]

theorem eraseDups_concat_of_mem (h : name ∈ names) :
    (names ++ [name]).eraseDups = names.eraseDups := by
  simp [eraseDups_append, removeAll, h]

theorem eraseDups_concat_of_not_mem (h : name ∉ names) :
    (names ++ [name]).eraseDups = names.eraseDups ++ [name] := by
  simp [eraseDups_append, removeAll, h, eraseDups_cons]

theorem Recorded.unresolved (h : Recorded name b ps qs)
    (hopen : ∀ p ∈ ps, p.name = name → p.declared = false) :
    ((qs.filter fun p => !p.declared).map (·.name) = (ps.filter fun p => !p.declared).map (·.name) ∧
      name ∈ (ps.filter fun p => !p.declared).map (·.name)) ∨
    (qs.filter fun p => !p.declared).map (·.name) =
        (ps.filter fun p => !p.declared).map (·.name) ++ [name] ∧ name ∉ ps.map (·.name) := by
  cases h with
  | @again l r p hp =>
    have hd : p.declared = false := hopen p (by simp) hp
    exact .inl ⟨by simp [hd], by simp [hd, hp]⟩
  | first hnew => exact .inr ⟨by simp, hnew⟩

theorem mem_gotoNames_of_unresolved (h : Tracks s1 ops s) (hn : name ∈ s.unresolved) :
    name ∈ gotoNames ops := by
  rw [h.unresolved] at hn
  exact mem_eraseDups.1 (mem_filter.1 hn).1

/-- A jump ahead leaves its label unresolved: it was so before, or the label is new. -/
theorem Tracks.unresolved_record (h : Tracks s1 ops s) (hl : s.declared.lookup name = none)
    (hrec : Recorded name b s.pending ps) : (ps.filter fun p => !p.declared).map (·.name) =
      (gotoNames (ops ++ [.gotoStmt name])).eraseDups.filter
        (· ∉ labelNames (ops ++ [.gotoStmt name])) := by
  have hnot : name ∉ labelNames ops := by
    rw [← h.declared, hl]
    simp
  rw [gotoNames_concat, labelNames_concat]
  rcases hrec.unresolved (h.orderly.undeclared hl) with ⟨hsame, hmem⟩ | ⟨hmore, hnew⟩
  · have hg := mem_gotoNames_of_unresolved h hmem
    refine hsame.trans (h.unresolved.trans ?_)
    simp [Op.goto?, Op.label?, eraseDups_concat_of_mem hg]
  · -- A name without a record is new: a jump to it would have left an unresolved one.
    have hg : name ∉ gotoNames ops := by
      intro hg
      have hun : name ∈ s.unresolved := by
        rw [h.unresolved, mem_filter, mem_eraseDups]
        simpa using ⟨hg, hnot⟩
      obtain ⟨p, hp, hpn⟩ := mem_map.1 hun
      exact hnew (hpn ▸ mem_map_of_mem (mem_of_mem_filter hp))
    refine hmore.trans ?_
    rw [← State.unresolved, h.unresolved]
    simp [Op.goto?, Op.label?, eraseDups_concat_of_not_mem hg, hnot]

theorem Tracks.turn (h : Tracks s1 ops s) (hs : Performs s1 ops s) (hr : Reachable s)
    (ht : Turn s op s') : Tracks s1 (ops ++ [op]) s' := by
  have horderly := h.orderly.turn hr ht
  have hold : ∀ {code : Array Quad} {name : String} {l : Nat}, s.declared.lookup name = some l →
      s.code.toList <+: code.toList → ∃ p, FirstLabel s1 (ops ++ [op]) name l p ∧
        Marks p.code.toList l [] ∧ p.code.toList <+: code.toList := by
    intro code name l hl hcode
    obtain ⟨p, hp, hmarks, hgrown⟩ := h.first name l hl
    exact ⟨p, hp.append _, hmarks, hgrown.trans hcode⟩
  cases ht with
  | other hgoto hlabel hpending hdeclared hcode =>
    refine ⟨horderly, ?_, ?_, fun name l hl => hold (hdeclared ▸ hl) hcode⟩
    · rw [State.unresolved, hpending, gotoNames_concat, labelNames_concat, hgoto, hlabel]
      simpa [State.unresolved] using h.unresolved
    · rw [hdeclared, labelNames_concat, hlabel]
      simpa using h.declared
  | @direct name l hl =>
    have hmem : name ∈ labelNames ops := (h.declared name).1 (by rw [hl]; rfl)
    refine ⟨horderly, ?_, ?_, fun name l hl => hold hl (by simp)⟩
    · refine h.unresolved.trans ?_
      rw [gotoNames_concat, labelNames_concat]
      by_cases hg : name ∈ gotoNames ops
      · simp [Op.goto?, Op.label?, eraseDups_concat_of_mem hg]
      · simp [Op.goto?, Op.label?, eraseDups_concat_of_not_mem hg, hmem]
    · rw [labelNames_concat]
      simpa [Op.label?] using h.declared
  | @ahead name ps hl hrec =>
    refine ⟨horderly, h.unresolved_record hl hrec, ?_, fun name l hl => hold hl (by simp)⟩
    rw [labelNames_concat]
    simpa [Op.label?] using h.declared
  | @repeated name hl =>
    have hmem : name ∈ labelNames ops := (h.declared name).1 hl
    have hsame : ∀ n, n ∈ labelNames (ops ++ [.labelStmt name]) ↔ n ∈ labelNames ops := by
      intro n
      rw [labelNames_concat]
      simp only [Op.label?, Option.toList_some, mem_append, mem_singleton, or_iff_left_iff_imp]
      rintro rfl
      exact hmem
    refine ⟨horderly, ?_, ?_, fun name l hl => hold hl prefix_rfl⟩
    · refine h.unresolved.trans ?_
      rw [gotoNames_concat]
      simp only [hsame]
      simp [Op.goto?]
    · simpa only [hsame] using h.declared
  | @declared name l code hl hmark hgrown hmarks =>
    have hlabels : labelNames (ops ++ [.labelStmt name]) = labelNames ops ++ [name] := by
      rw [labelNames_concat]
      rfl
    refine ⟨horderly, ?_, ?_, ?_⟩
    · refine (unresolved_declare s.pending).trans ?_
      rw [show (s.pending.filter fun p => !p.declared).map (·.name) = s.unresolved from rfl,
        h.unresolved, filter_filter, gotoNames_concat, hlabels]
      simp [Op.goto?, and_comm]
    · intro n
      rw [hlabels, mem_append, mem_singleton, ← h.declared]
      show (((name, l) :: s.declared).lookup n).isSome = true ↔ _
      by_cases hn : n = name
      · simp [hn]
      · simp [lookup_cons, beq_eq_false_iff_ne.2 hn, hn]
    · intro n k hk
      have hcode : code.toList <+: (code ++ (waiting name s.pending).map fun b : Nat =>
          Quad.patch b l).toList := by simp
      by_cases hn : n = name
      · subst hn
        obtain rfl : l = k := by simpa [State.patchAll] using hk
        exact ⟨_, ⟨ops, [], s, rfl, by rw [← h.declared, hl]; simp, hs, hmark⟩, hmarks, hcode⟩
      · refine hold ?_ (hgrown.trans hcode)
        simpa [State.patchAll, lookup_cons, beq_eq_false_iff_ne.2 hn] using hk

/-! ## One jump -/

/-- The target of a jump leads to the label `name`, as far as the label is known. -/
def Aims (s : State) (name : String) : Target → Prop
  | .label n => ∃ l, s.declared.lookup name = some l ∧ n = (l : Nat)
  | .blank n => ∃ b, n = (b : Nat) ∧ (∃ p ∈ s.pending, p.name = name ∧ b ∈ p.blanks) ∧
      ∀ l, s.declared.lookup name = some l → (b, (l : Int)) ∈ s.patched

theorem Recorded.mem (h : Recorded name b ps qs) : ∃ q ∈ qs, q.name = name ∧ b ∈ q.blanks := by
  cases h with
  | @again l r p hp => exact ⟨{ p with blanks := p.blanks ++ [b] }, by simp, hp, by simp⟩
  | first => exact ⟨⟨name, [b], false⟩, by simp, rfl, by simp⟩

theorem Turn.aims (ht : Turn s (.gotoStmt name) s') :
    ∃ t, s'.code = s.code.push (.jump t) ∧ Aims s' name t := by
  cases ht with
  | other hgoto => cases hgoto
  | @direct _ l hl => exact ⟨_, rfl, l, hl, rfl⟩
  | ahead hl hrec =>
    refine ⟨_, rfl, s.blanks + 1, rfl, hrec.mem, fun l hl' => ?_⟩
    rw [show s.declared.lookup name = some l from hl'] at hl
    cases hl

theorem Recorded.keeps (h : Recorded name b ps qs) (hp : p ∈ ps) :
    ∃ q ∈ qs, q.name = p.name ∧ p.blanks ⊆ q.blanks := by
  cases h with
  | @again l r p' _ =>
    rcases mem_append.1 hp with hp | hp
    · exact ⟨p, by simp [hp], rfl, List.Subset.refl _⟩
    · rcases mem_cons.1 hp with rfl | hp
      · exact ⟨{ p with blanks := p.blanks ++ [b] }, by simp, rfl, subset_append_left _ _⟩
      · exact ⟨p, by simp [hp], rfl, List.Subset.refl _⟩
  | first => exact ⟨p, mem_append_left _ hp, rfl, List.Subset.refl _⟩

theorem Aims.turn (h : Aims s name t) (ht : Turn s op s') : Aims s' name t := by
  cases t with
  | label n =>
    obtain ⟨l, hl, rfl⟩ := h
    refine ⟨l, ?_, rfl⟩
    cases ht with
    | other _ _ _ hdeclared => exact hdeclared ▸ hl
    | direct | ahead | repeated => exact hl
    | @declared m _ _ hm =>
      have hne : name ≠ m := by
        rintro rfl
        rw [hl] at hm
        cases hm
      simpa [State.patchAll, lookup_cons, beq_eq_false_iff_ne.2 hne] using hl
  | blank n =>
    obtain ⟨b, rfl, ⟨p, hp, hpn, hb⟩, hpatched⟩ := h
    refine ⟨b, rfl, ?_⟩
    cases ht with
    | other _ _ hpending hdeclared _ hsuffix =>
      exact ⟨⟨p, hpending ▸ hp, hpn, hb⟩, fun l hl => hsuffix.subset (hpatched l (hdeclared ▸ hl))⟩
    | direct | repeated => exact ⟨⟨p, hp, hpn, hb⟩, hpatched⟩
    | ahead _ hrec =>
      obtain ⟨q, hq, hqn, hsub⟩ := hrec.keeps hp
      exact ⟨⟨q, hq, hqn.trans hpn, hsub hb⟩, hpatched⟩
    | @declared m l _ hm =>
      refine ⟨?_, fun k hk => ?_⟩
      · refine ⟨_, mem_map_of_mem hp, ?_, ?_⟩ <;> split <;> assumption
      · by_cases hne : name = m
        · subst hne
          obtain rfl : l = k := by simpa [State.patchAll] using hk
          refine mem_append_left _ (mem_reverse.2 (mem_map_of_mem ?_))
          exact mem_flatMap.2 ⟨p, mem_filter.2 ⟨hp, by simp [hpn]⟩, hb⟩
        · refine mem_append_right _ (hpatched k ?_)
          simpa [State.patchAll, lookup_cons, beq_eq_false_iff_ne.2 hne] using hk

theorem Tracks.performs {pre : List Op} (h : Tracks s1 pre s) (hs : Performs s1 pre s)
    (hr : Reachable s) (hin : ∀ op ∈ ops, op.isInner = true) (hops : Performs s ops s') :
    Tracks s1 (pre ++ ops) s' ∧ ∀ name t, Aims s name t → Aims s' name t := by
  induction ops generalizing pre s with
  | nil =>
    obtain rfl := performs_nil.1 hops
    exact ⟨(append_nil pre).symm ▸ h, fun _ _ ht => ht⟩
  | cons op ops ih =>
    obtain ⟨m, hop, hrest⟩ := performs_cons.1 hops
    obtain ⟨hinner, hin⟩ := forall_mem_cons.1 hin
    have hturn := turn_perform h.orderly hr hinner hop
    obtain ⟨htracks, haims⟩ := ih (h.turn hs hr hturn) (hs.concat hop) (hr.perform hop) hin hrest
    rw [append_cons]
    exact ⟨htracks, fun name t ht => haims name t (ht.turn hturn)⟩

/-! ## Functions -/

theorem records_of_openFunction {tag : Tag} (h : (Op.openFunction tag name).perform s = .ok () s') :
    s'.pending = [] ∧ s'.declared = [] := by
  obtain ⟨_, _, _, hs', -⟩ := exists_after (yields_openFunction tag name s)
  have hafter := after_of_ok h
  rw [Op.perform, after_discard, hs'] at hafter
  rw [← hafter]
  exact ⟨rfl, rfl⟩

theorem tracks_nil (hp : s.pending = []) (hd : s.declared = []) : Tracks s [] s where
  orderly := by refine ⟨?_, ?_, ?_, ?_⟩ <;> simp [hp, State.openGotos, pendingBlanks]
  unresolved := by simp [State.unresolved, hp, gotoNames]
  declared := by simp [hd, labelNames]
  first := by simp [hd]

theorem Act.label_past {g d c : Bool} {I I' : List Item} {n : Nat}
    (h : Act g d c (I, s) (I', s')) (hs : n ≤ s.labels ∧ (s.marked = true → n < s.labels)) :
    n ≤ s'.labels ∧ (s'.marked = true → n < s'.labels) := by
  obtain ⟨hle, hlt⟩ := hs
  cases h with
  | define | emit | branch => exact ⟨hle, fun hm => hlt (Bool.and_eq_true_iff.1 hm).1⟩
  | label => exact ⟨Nat.le_succ_of_le hle, fun _ => Nat.lt_succ_of_le hle⟩
  | unmark => exact ⟨hle, nofun⟩
  | _ => exact ⟨hle, hlt⟩

theorem lt_mark_of_run (hm : s.marked = false) {p : State} (h : mark (s.run ops) = .ok l p) :
    s.labels < l := by
  have hpast := run_keeps
    (P := fun t => s.labels ≤ t.labels ∧ (t.marked = true → s.labels < t.labels))
    Act.label_past (fun _ _ _ => id) (s := s)
    ⟨le_rfl, fun hm' => by cases hm.symm.trans hm'⟩ ops
  change (if (s.run ops).marked = true then pure (s.run ops).labels else _ : EmitM Nat) _ = _ at h
  split at h
  next hmarked =>
    cases h
    exact hpast.2 hmarked
  next =>
    cases h
    exact Nat.lt_succ_of_le hpast.1

structure FunctionRun (s0 s1 s2 s3 : State) (body : List Op) : Prop where
  opened : ∃ tag name, (Op.openFunction tag name).perform s0 = .ok () s1
  inner : ∀ op ∈ body, op.isInner = true
  performed : Performs s1 body s2
  closed : endFunction s2 = .ok () s3

/-- A jump to `t` leads to the label `l`, directly or through the single equation of its blank. -/
def LeadsTo (code : List Quad) (t : Target) (l : Int) : Prop :=
  t = .label l ∨ ∃ b, t = .blank b ∧
    (code.filterMap Quad.equation?).filter (·.1 == b) = [(b, l)]

namespace FunctionRun

variable {s0 s2 s3 : State} {body pre post : List Op}

section

variable (h : FunctionRun s0 s1 s2 s3 body)
include h

theorem run_end : s2.run [.endFunction] = s3 := after_of_ok h.closed

theorem reachable (h0 : Reachable s0) : Reachable s1 ∧ Reachable s2 ∧ Reachable s3 := by
  obtain ⟨tag, name, hopen⟩ := h.opened
  have h1 := h0.perform hopen
  have h2 := h1.performs h.performed
  exact ⟨h1, h2, h.run_end ▸ h2.run _⟩

theorem tracks (h0 : Reachable s0) (hbody : body = pre ++ post) (hpre : Performs s1 pre s) :
    Tracks s1 pre s := by
  obtain ⟨tag, name, hopen⟩ := h.opened
  obtain ⟨hp, hd⟩ := records_of_openFunction hopen
  have hin : ∀ op ∈ pre, op.isInner = true := fun op hop =>
    h.inner op (hbody ▸ mem_append_left _ hop)
  exact ((tracks_nil hp hd).performs (performs_nil.2 rfl) (h.reachable h0).1 hin hpre).1

theorem rest (hbody : body = pre ++ post) (hpre : Performs s1 pre s) : Performs s post s2 := by
  obtain ⟨m, hm, hpost⟩ := performs_append.1 (hbody ▸ h.performed)
  obtain rfl : m = s := by rw [← hm.run_eq, hpre.run_eq]
  exact hpost

/-- A jump of the function stands in the finished code and leads, as far as the function goes, to
its label. -/
theorem aims (h0 : Reachable s0) (hbody : body = pre ++ .gotoStmt name :: post)
    (hpre : Performs s1 pre s) (later : List Op) :
    ∃ t, (s3.run later).code.toList[s.code.size]? = some (.jump t) ∧ Aims s2 name t := by
  have htracks := h.tracks h0 hbody hpre
  have hr := (h.reachable h0).1.performs hpre
  obtain ⟨m, hgoto, hpost⟩ := performs_cons.1 (h.rest hbody hpre)
  have hin : ∀ op ∈ Op.gotoStmt name :: post, op.isInner = true := fun op hop =>
    h.inner op (hbody ▸ mem_append_right _ hop)
  have hturn := turn_perform htracks.orderly hr rfl hgoto
  obtain ⟨t, hcode, haims⟩ := hturn.aims
  have hkept := (htracks.turn hpre hr hturn).performs (hpre.concat hgoto) (hr.perform hgoto)
    (forall_mem_cons.1 hin).2 hpost
  refine ⟨t, ?_, hkept.2 name t haims⟩
  have hgrown : m.code.toList <+: (s3.run later).code.toList := by
    refine List.IsPrefix.trans ?_ (code_prefix_run s3 later)
    rw [← h.run_end, ← hpost.run_eq]
    exact (code_prefix_run m post).trans (code_prefix_run _ _)
  obtain ⟨more, hmore⟩ := hgrown
  rw [← hmore, hcode]
  simp

theorem leadsTo (h0 : Reachable s0) (ht : Aims s2 name t) (hname : name ∈ labelNames body)
    (later : List Op) : ∃ l p, FirstLabel s1 body name l p ∧
      Marks (s3.run later).code.toList l ((s3.run later).code.toList.drop p.code.size) ∧
      LeadsTo (s3.run later).code.toList t l := by
  have htracks := h.tracks h0 (append_nil body).symm h.performed
  obtain ⟨l, hl⟩ := Option.isSome_iff_exists.1 ((htracks.declared name).2 hname)
  obtain ⟨p, hp, hmarks, hgrown⟩ := htracks.first name l hl
  refine ⟨l, p, hp, ?_, ?_⟩
  · have hcode : p.code.toList <+: (s3.run later).code.toList := by
      refine hgrown.trans (List.IsPrefix.trans ?_ (code_prefix_run s3 later))
      exact h.run_end ▸ code_prefix_run s2 _
    simpa using hmarks.extend hcode
  · cases t with
    | label n =>
      obtain ⟨k, hk, rfl⟩ := ht
      rw [hl] at hk
      cases hk
      exact .inl rfl
    | blank n =>
      obtain ⟨b, rfl, -, hpatched⟩ := ht
      have hsuffix : s2.patched <:+ (s3.run later).patched :=
        (h.run_end ▸ patched_suffix_run s2 _).trans (patched_suffix_run s3 later)
      have hstep := ((h.reachable h0).2.2.run later).intact.inStep
      exact .inr ⟨b, rfl, hstep.filter_equations (hsuffix.subset (hpatched l hl))⟩

theorem leads_nowhere (h0 : Reachable s0) (ht : Aims s2 name t) (hname : name ∉ labelNames body)
    (later : List Op) : ∃ b, t = .blank b ∧ ∀ l, Quad.patch b l ∉ (s3.run later).code.toList := by
  have htracks := h.tracks h0 (append_nil body).symm h.performed
  have hnone : s2.declared.lookup name = none := by
    rw [← htracks.declared] at hname
    exact Option.not_isSome_iff_eq_none.1 hname
  cases t with
  | label n =>
    obtain ⟨k, hk, -⟩ := ht
    rw [hnone] at hk
    cases hk
  | blank n =>
    obtain ⟨b, rfl, ⟨p, hp, hpn, hb⟩, -⟩ := ht
    have hopen : b ∈ s2.openGotos := by
      refine mem_flatMap.2 ⟨p, mem_filter.2 ⟨hp, ?_⟩, hb⟩
      simp [htracks.orderly.undeclared hnone p hp hpn]
    have hawaited := openGotos_subset_awaited s2 hopen
    have hfresh := (h.reachable h0).2.1.intact.fresh
    have hclosed := endFunction_eq h.closed
    -- Behind the end of the function the blank stands in no record and in no chain.
    have hnever : b ∉ (s3.run later).patched.map Prod.fst := by
      refine not_patched_run ?_ ?_ ?_ ?_ later <;> rw [hclosed]
      · exact hfresh.awaited b hawaited
      · exact hfresh.apart hawaited
      · simp [State.awaited]
      · exact htracks.orderly.unlabelled hopen
    refine ⟨b, rfl, fun l hl => hnever ?_⟩
    have hstep := ((h.reachable h0).2.2.run later).intact.inStep
    obtain ⟨k, hk, hlookup⟩ := hstep.patch_mem_iff.1 hl
    obtain rfl : b = k := Int.ofNat.inj hk
    exact mem_map_of_mem (mem_of_lookup hlookup)

theorem report_labelStmt (h0 : Reachable s0) (hbody : body = pre ++ .labelStmt name :: post)
    (hpre : Performs s1 pre s) : if name ∈ labelNames pre then
      labelStmt name s = .ok () { s with
        report := s.report.error s.pos (Notice.redeclaredLabel name).message }
    else ∃ s', labelStmt name s = .ok () s' ∧ s'.report = s.report := by
  have htracks := h.tracks h0 hbody hpre
  split
  next hname => exact labelStmt_of_declared ((htracks.declared name).2 hname)
  next hname =>
    obtain ⟨m, hlabel, -⟩ := performs_cons.1 (h.rest hbody hpre)
    refine ⟨m, hlabel, ?_⟩
    have hr := (h.reachable h0).1.performs hpre
    cases turn_perform htracks.orderly hr rfl hlabel with
    | other _ hother => cases hother
    | repeated hl => exact absurd ((htracks.declared name).1 hl) hname
    | declared => rfl

theorem lt_mark (h0 : Reachable s0) {k : Nat} {p q : State} (hk : FirstLabel s1 body name k q)
    (hl : mark (s3.run ops) = .ok l p) : k < l := by
  obtain ⟨pre, post, s, hbody, hname, hpre, hmark⟩ := hk
  have htracks := h.tracks h0 hbody hpre
  have hr := (h.reachable h0).1.performs hpre
  obtain ⟨m, hlabel, hpost⟩ := performs_cons.1 (h.rest hbody hpre)
  -- The declaration uses up the mark, so that the same label cannot be given to a later point.
  have hm : m.labels = k ∧ m.marked = false := by
    cases turn_perform htracks.orderly hr rfl hlabel with
    | other _ hother => cases hother
    | repeated hl => exact absurd ((htracks.declared name).1 hl) hname
    | declared _ hmark' =>
      rw [hmark] at hmark'
      cases hmark'
      exact ⟨rfl, rfl⟩
  have hrun : s3.run ops = m.run (post ++ .endFunction :: ops) := by
    rw [← h.run_end, ← hpost.run_eq]
    simp [State.run]
  rw [hrun] at hl
  exact hm.1 ▸ lt_mark_of_run hm.2 hl

end

end FunctionRun

/-- The jumps of a function lead to the first declaration of their label in the function, wherever
it stands, or nowhere if there is none. The end of the function reports the labels that are missing,
and a declaration reports a label that was declared before it, which is all that it does then. What
was run before the function and is run after it has no part in this, and labels of other functions
are other labels. -/
theorem gotos_reach_labels {s₀ s₁ s₂ s₃ : State} {body : List Op} (h₀ : Reachable s₀)
    (h : FunctionRun s₀ s₁ s₂ s₃ body) (later : List Op) :
    let code := (s₃.run later).code.toList
    (∀ pre name post s, body = pre ++ .gotoStmt name :: post → Performs s₁ pre s →
      ∃ t, code[s.code.size]? = some (.jump t) ∧
        (name ∈ labelNames body → ∃ l p, FirstLabel s₁ body name l p ∧
          Marks code l (code.drop p.code.size) ∧ LeadsTo code t l) ∧
        (name ∉ labelNames body → ∃ b, t = .blank b ∧ ∀ l, Quad.patch b l ∉ code)) ∧
    s₃.report = { s₂.report with
      diagnostics := s₂.report.diagnostics ++
        ((gotoNames body).eraseDups.filter (· ∉ labelNames body)).map fun name =>
          ⟨.error, s₂.pos, "label '" ++ name ++ "' referenced in goto, but never declared"⟩ } ∧
    (∀ pre name post s, body = pre ++ .labelStmt name :: post → Performs s₁ pre s →
      if name ∈ labelNames pre then
        labelStmt name s = .ok () { s with
          report := s.report.error s.pos ("label '" ++ name ++ "' previously declared") }
      else ∃ s', labelStmt name s = .ok () s' ∧ s'.report = s.report) ∧
    ∀ name k q ops l p, FirstLabel s₁ body name k q → mark (s₃.run ops) = .ok l p → k < l := by
  refine ⟨fun pre name post s hbody hpre => ?_, ?_, ?_, ?_⟩
  · obtain ⟨t, hcode, ht⟩ := h.aims h₀ hbody hpre later
    exact ⟨t, hcode, fun hn => h.leadsTo h₀ ht hn later, fun hn => h.leads_nowhere h₀ ht hn later⟩
  · have htracks := h.tracks h₀ (List.append_nil body).symm h.performed
    rw [endFunction_eq h.closed, htracks.unresolved]
    rfl
  · exact fun pre name post s hbody hpre => h.report_labelStmt h₀ hbody hpre
  · exact fun name k q ops l p hk hl => h.lt_mark h₀ hk hl

/-- Jumps ahead and back to a label that is declared twice, and one to a label that is missing. -/
def tangled : List Op :=
  [.gotoStmt "off", .gotoStmt "on", .labelStmt "on", .gotoStmt "on", .labelStmt "on"]

theorem tangled_reach_labels : ∃ s₀ s₁ s₂ s₃, Reachable s₀ ∧ FunctionRun s₀ s₁ s₂ s₃ tangled ∧
    (∃ t, s₃.code.toList[1]? = some (.jump t) ∧ ∃ l p, FirstLabel s₁ tangled "on" l p ∧
      Marks s₃.code.toList l (s₃.code.toList.drop p.code.size) ∧ LeadsTo s₃.code.toList t l) ∧
    (∃ b, s₃.code.toList[0]? = some (.jump (.blank b)) ∧ ∀ l, Quad.patch b l ∉ s₃.code.toList) ∧
    s₃.report.diagnostics = s₂.report.diagnostics ++
      [⟨.error, s₂.pos, "label 'off' referenced in goto, but never declared"⟩] := by
  obtain ⟨s₀, h₀⟩ : ∃ s, s = State.new {} .empty ⟨none, []⟩ := ⟨_, rfl⟩
  obtain ⟨s₁, h₁⟩ : ∃ s, s = after (Op.openFunction .int "f").perform s₀ := ⟨_, rfl⟩
  obtain ⟨s₂, h₂⟩ : ∃ s, s = s₁.run tangled := ⟨_, rfl⟩
  obtain ⟨s₃, h₃⟩ : ∃ s, s = after endFunction s₂ := ⟨_, rfl⟩
  have hreach : Reachable s₀ := ⟨{}, .empty, ⟨none, []⟩, [], h₀⟩
  have hopened : result? (Op.openFunction .int "f").perform s₀ = some () := by
    rw [h₀]
    decide +kernel
  have hbody : result? (tangled.forM Op.perform) s₁ = some () := by
    rw [h₁, h₀]
    decide +kernel
  have hclosed : result? endFunction s₂ = some () := by
    rw [h₂, h₁, h₀]
    decide +kernel
  have hrun : FunctionRun s₀ s₁ s₂ s₃ tangled :=
    ⟨⟨.int, "f", h₁ ▸ eq_ok_after hopened⟩, by decide, h₂ ▸ performs_run hbody,
      h₃ ▸ eq_ok_after hclosed⟩
  obtain ⟨hjumps, hreport, -, -⟩ := gotos_reach_labels hreach hrun []
  refine ⟨s₀, s₁, s₂, s₃, hreach, hrun, ?_, ?_, ?_⟩
  · obtain ⟨m, hm⟩ : ∃ m, m = s₁.run [.gotoStmt "off"] := ⟨_, rfl⟩
    have hfirst : result? ([Op.gotoStmt "off"].forM Op.perform) s₁ = some () := by
      rw [h₁, h₀]
      decide +kernel
    have hsize : m.code.size = 1 := by
      rw [hm, h₁, h₀]
      decide +kernel
    obtain ⟨t, hcode, hfound, -⟩ :=
      hjumps [.gotoStmt "off"] "on" _ m rfl (hm ▸ performs_run hfirst)
    exact ⟨t, hsize ▸ hcode, hfound (by decide)⟩
  · obtain ⟨t, hcode, -, hmissing⟩ := hjumps [] "off" _ s₁ rfl (performs_nil.2 rfl)
    have hsize : s₁.code.size = 0 := by
      rw [h₁, h₀]
      decide +kernel
    obtain ⟨b, rfl, hb⟩ := hmissing (by decide)
    exact ⟨b, hsize ▸ hcode, hb⟩
  · have hmissing : (gotoNames tangled).eraseDups.filter (· ∉ labelNames tangled) = ["off"] := by
      decide
    rw [hreport, hmissing]
    rfl

end Quadruple.Emit
