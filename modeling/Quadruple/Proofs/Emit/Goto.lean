import Quadruple.Proofs.Emit.Outline

/-!
# Jumps to labels of the source

A jump to a label that is declared goes there directly. Until then each jump gets a blank of its
own, and the declaration gives all of them the label.
-/

namespace Quadruple.Emit

open List

/-! ## Records of jumps -/

inductive Recorded (name : String) (b : Nat) : List PendingLabel → List PendingLabel → Prop
  | again {l r : List PendingLabel} {p : PendingLabel} : p.name = name →
      Recorded name b (l ++ p :: r) (l ++ { p with blanks := p.blanks ++ [b] } :: r)
  | first {ps : List PendingLabel} : name ∉ ps.map (·.name) →
      Recorded name b ps (ps ++ [⟨name, [b], false⟩])

def declare (name : String) (ps : List PendingLabel) : List PendingLabel :=
  ps.map fun p => if p.name == name then { p with declared := true } else p

def waiting (name : String) (ps : List PendingLabel) : List Nat :=
  (ps.filter (·.name == name)).flatMap (·.blanks)

theorem pendingBlanks_append (ps qs : List PendingLabel) :
    pendingBlanks (ps ++ qs) = pendingBlanks ps ++ pendingBlanks qs := by
  simp [pendingBlanks]

variable {ps qs : List PendingLabel} {p : PendingLabel} {name : String} {b : Nat}

theorem pendingBlanks_cons_open (hp : p.declared = false) (ps : List PendingLabel) :
    pendingBlanks (p :: ps) = p.blanks ++ pendingBlanks ps := by
  simp [pendingBlanks, hp]

theorem pendingBlanks_cons_declared (hp : p.declared = true) (ps : List PendingLabel) :
    pendingBlanks (p :: ps) = pendingBlanks ps := by
  simp [pendingBlanks, hp]

theorem map_of_not_mem (f : PendingLabel → PendingLabel) (h : name ∉ ps.map (·.name)) :
    (ps.map fun q => if q.name == name then f q else q) = ps := by
  refine (map_congr_left fun q hq => ?_).trans (map_id' ps)
  have hne : q.name ≠ name := fun he => h (he ▸ mem_map_of_mem hq)
  simp [hne]

theorem map_named {l r : List PendingLabel} (hn : ((l ++ p :: r).map (·.name)).Nodup)
    (f : PendingLabel → PendingLabel) :
    ((l ++ p :: r).map fun q => if q.name == p.name then f q else q) = l ++ f p :: r := by
  rw [map_append, map_cons, nodup_middle, nodup_cons, mem_append] at hn
  rw [map_append, map_cons, map_of_not_mem f fun hm => hn.1 (.inl hm),
    map_of_not_mem f fun hm => hn.1 (.inr hm)]
  simp

theorem find?_name_eq_none : ps.find? (·.name == name) = none ↔ name ∉ ps.map (·.name) := by
  simp [find?_eq_none, mem_map]

theorem nodup_names_concat (hn : (ps.map (·.name)).Nodup) (hp : p.name ∉ ps.map (·.name)) :
    ((ps ++ [p]).map (·.name)).Nodup := by
  rw [map_append, nodup_append]
  refine ⟨hn, by simp, fun x hx y hy => ?_⟩
  obtain rfl : y = p.name := by simpa using hy
  rintro rfl
  exact hp hx

theorem names_declare (ps : List PendingLabel) :
    (declare name ps).map (·.name) = ps.map (·.name) := by
  rw [declare, map_map]
  refine map_congr_left fun p _ => ?_
  simp only [Function.comp]
  split <;> rfl

theorem waiting_of_not_mem (h : name ∉ ps.map (·.name)) : waiting name ps = [] := by
  have hnone : ps.filter (·.name == name) = [] := by
    refine filter_eq_nil_iff.2 fun p hp he => h ?_
    exact eq_of_beq he ▸ mem_map_of_mem hp
  rw [waiting, hnone, flatMap_nil]

theorem waiting_of_mem (hn : (ps.map (·.name)).Nodup) (hp : p ∈ ps) :
    waiting p.name ps = p.blanks := by
  obtain ⟨l, r, rfl⟩ := append_of_mem hp
  rw [map_append, map_cons, nodup_middle, nodup_cons, mem_append, not_or] at hn
  have hone : waiting p.name (l ++ p :: r) =
      waiting p.name l ++ (p.blanks ++ waiting p.name r) := by simp [waiting]
  rw [hone, waiting_of_not_mem hn.1.1, waiting_of_not_mem hn.1.2]
  simp

theorem pendingBlanks_declare (h : ∀ p ∈ ps, p.name = name → p.declared = false) :
    (pendingBlanks ps).Perm (waiting name ps ++ pendingBlanks (declare name ps)) := by
  induction ps with
  | nil => exact .refl _
  | cons p ps ih =>
    obtain ⟨hp, hps⟩ := forall_mem_cons.1 h
    by_cases he : p.name = name
    · have hwaiting : waiting name (p :: ps) = p.blanks ++ waiting name ps := by simp [waiting, he]
      have hdeclare : declare name (p :: ps) = { p with declared := true } :: declare name ps := by
        simp [declare, he]
      rw [hwaiting, hdeclare, pendingBlanks_cons_open (hp he), pendingBlanks_cons_declared rfl,
        append_assoc]
      exact (ih hps).append_left _
    · have hwaiting : waiting name (p :: ps) = waiting name ps := by simp [waiting, he]
      have hdeclare : declare name (p :: ps) = [p] ++ declare name ps := by simp [declare, he]
      rw [hwaiting, hdeclare, ← singleton_append, pendingBlanks_append, pendingBlanks_append]
      exact ((ih hps).append_left _).trans (perm_append_comm_assoc _ _ _)

section Recorded

variable (h : Recorded name b ps qs)
include h

theorem Recorded.names (hn : (ps.map (·.name)).Nodup) : (qs.map (·.name)).Nodup := by
  cases h with
  | again => simpa using hn
  | first hnew => exact nodup_names_concat hn hnew

theorem Recorded.mem_names {m : String} (hm : m ∈ ps.map (·.name) ∨ m = name) :
    m ∈ qs.map (·.name) := by
  cases h with
  | again hp =>
    rcases hm with hm | rfl
    · simpa using hm
    · simp [hp]
  | first => simpa using hm

theorem Recorded.mem_cases (hn : (ps.map (·.name)).Nodup) {q : PendingLabel} (hq : q ∈ qs) :
    q ∈ ps ∧ q.name ≠ name ∨
      (∃ p ∈ ps, p.name = name ∧ q = { p with blanks := p.blanks ++ [b] }) ∨
      name ∉ ps.map (·.name) ∧ q = ⟨name, [b], false⟩ := by
  have hn' := h.names hn
  cases h with
  | @again l r p hp =>
    by_cases hne : q.name = name
    · -- the one record of this name
      exact .inr (.inl ⟨p, by simp, hp, inj_on_of_nodup_map hn' hq (by simp) (hne.trans hp.symm)⟩)
    · refine .inl ⟨?_, hne⟩
      rcases mem_append.1 hq with hq | hq
      · exact mem_append_left _ hq
      · rcases mem_cons.1 hq with rfl | hq
        · exact absurd hp hne
        · exact mem_append_right _ (mem_cons_of_mem _ hq)
  | first hnew =>
    rcases mem_append.1 hq with hq | hq
    · exact .inl ⟨hq, fun he => hnew (he ▸ mem_map_of_mem hq)⟩
    · exact .inr (.inr ⟨hnew, mem_singleton.1 hq⟩)

theorem Recorded.pendingBlanks (hopen : ∀ p ∈ ps, p.name = name → p.declared = false) :
    (pendingBlanks qs).Perm (b :: pendingBlanks ps) := by
  cases h with
  | @again l r p hp =>
    have hd : p.declared = false := hopen p (by simp) hp
    rw [pendingBlanks_append, pendingBlanks_append, pendingBlanks_cons_open hd,
      pendingBlanks_cons_open (by exact hd)]
    refine perm_iff_count.2 fun k => ?_
    simp only [count_append, count_cons, count_nil]
    omega
  | first =>
    rw [pendingBlanks_append, pendingBlanks_cons_open rfl]
    exact perm_append_singleton _ _

end Recorded

variable {o o' : Outline} {s s' : State} {l : Nat}

theorem Outline.Gotos.record (h : o.Gotos s) (hrec : Recorded name b s.pending s'.pending)
    (hd : name ∉ o.declared) (hbody : o.body ⊆ o'.body) (hf : o'.forwards = o.forwards ++ [name])
    (hdecl : o'.declared = o.declared) (hl : s'.declared = s.declared) : o'.Gotos s' := by
  refine ⟨hrec.names h.names, fun q hq => ?_, fun m hm => ?_, fun m => ?_,
    fun q hq => hbody (h.labels q (hl ▸ hq))⟩
  · rw [hf, hdecl, count_append]
    rcases hrec.mem_cases h.names hq with ⟨hq, hne⟩ | ⟨p, hp, rfl, rfl⟩ | ⟨hnew, rfl⟩
    · obtain ⟨hin, hlen, hdq⟩ := h.pending q hq
      refine ⟨mem_append_left _ hin, ?_, hdq⟩
      rw [hlen, count_singleton]
      simp [Ne.symm hne]
    · obtain ⟨hin, hlen, hdp⟩ := h.pending p hp
      exact ⟨mem_append_left _ hin, by simp [hlen], hdp⟩
    · have hnot : name ∉ o.forwards := fun hm => hnew (mem_map.2 (h.recorded name hm))
      exact ⟨by simp, by simp [count_eq_zero_of_not_mem hnot], by simpa using hd⟩
  · rw [hf, mem_append, mem_singleton] at hm
    exact mem_map.1 (hrec.mem_names (hm.imp_left fun hm => mem_map.2 (h.recorded m hm)))
  · rw [hl, hdecl]
    exact h.declared m

/-! ## Jumps -/

theorem Ready.forward (h : Ready o s)
    (hgotos : Outline.Gotos { o.append [.jump (.blank (s.blanks + 1 : Nat))] with
      forwards := o.forwards ++ [name] } { s with pending := ps })
    (hps : (pendingBlanks ps).Perm ((s.blanks + 1) :: s.openGotos)) :
    Ready { o.append [.jump (.blank (s.blanks + 1 : Nat))] with
      forwards := o.forwards ++ [name] }
      { s with
        code := s.code.push (.jump (.blank (s.blanks + 1 : Nat)))
        marked := false
        blanks := s.blanks + 1
        pending := ps } := by
  have hopen : (o.loopBlanks ++ o.heldBlanks ++ pendingBlanks ps).Perm
      ((s.blanks + 1) :: o.open s) :=
    (hps.append_left _).trans perm_middle
  refine h.extend ⟨rfl, rfl⟩ rfl rfl (by simp) rfl ⟨le_rfl, by simp⟩ (by simp) h.loops h.held
    ?_ (by simp [Quad.equation?]) ?_ ?_
    ⟨hgotos.names, hgotos.pending, hgotos.recorded, hgotos.declared, hgotos.labels⟩ rfl
  · intro k
    have hk := h.blanks k
    have hcount := count_new s.blanks 1 k
    refine Eq.trans ?_ hcount
    rw [← hk, count_append, count_append]
    refine (congrArg (· + _) (hopen.count_eq k)).trans ?_
    simp only [count_cons, range', count_nil]
    omega
  · exact fun b hb => .inl ⟨b, hopen.mem_iff.2 (mem_cons_of_mem _ hb), rfl⟩
  · intro q hq t ht
    obtain rfl := mem_singleton.1 hq
    obtain rfl := mem_singleton.1 ht
    exact .inl ⟨s.blanks + 1, hopen.mem_iff.2 mem_cons_self, rfl⟩

theorem Ready.pending_length (h : Ready o s) : s.pending.length = o.forwards.dedup.length := by
  have hnames : (s.pending.map (·.name)).Perm o.forwards.dedup := by
    rw [perm_ext_iff_of_nodup h.gotos.names (nodup_dedup _)]
    intro name
    rw [mem_dedup]
    constructor
    · intro hm
      obtain ⟨p, hp, rfl⟩ := mem_map.1 hm
      exact (h.gotos.pending p hp).1
    · intro hm
      obtain ⟨p, hp, rfl⟩ := h.gotos.recorded name hm
      exact mem_map_of_mem hp
  simpa using hnames.length_eq

theorem Ready.gotoDeclared (h : Ready o s) (hd : name ∈ o.declared) :
    Yields (gotoStmt name) s fun _ s' => ∃ t, Ready (o.append [.jump t]) s' := by
  obtain ⟨l, hl⟩ := Option.isSome_iff_exists.1 ((h.gotos.declared name).2 hd)
  have hlabel : Quad.label (l : Nat) ∈ o.body := h.gotos.labels _ (mem_of_lookup hl)
  simp only [gotoStmt, yields_bind, yields_get, hl, emit, yields_modify]
  refine ⟨.label l, ?_⟩
  refine h.extend ⟨rfl, rfl⟩ rfl rfl (by simp) rfl ⟨le_rfl, by simp⟩ (by simp [keepsMark])
    h.loops h.held h.blanks (by simp [Quad.equation?]) (fun b hb => .inl ⟨b, hb, rfl⟩) ?_
    (h.gotos.extend (subset_append_left _ _) rfl rfl rfl rfl) rfl
  intro q hq t ht
  obtain rfl := mem_singleton.1 hq
  obtain rfl := mem_singleton.1 ht
  exact mem_append_left _ hlabel

/-- A jump to a label that is not declared is recorded, unless there are too many of them. -/
theorem gotoStmt_ahead (hn : (s.pending.map (·.name)).Nodup) (hl : s.declared.lookup name = none) :
    ∃ ps, Recorded name (s.blanks + 1) s.pending ps ∧ ∀ Q : Unit → State → Prop,
      Yields (gotoStmt name) s Q ↔
        (name ∉ s.pending.map (·.name) → (s.pending.length : Int) < s.settings.maxGotoLabels) ∧
        ((waiting name s.pending).length : Int) < s.settings.maxBlanksPerLabel ∧
        Q () { s with
          code := s.code.push (.jump (.blank (s.blanks + 1 : Nat)))
          marked := false
          blanks := s.blanks + 1
          pending := ps } := by
  simp only [gotoStmt, pendingFor, setPending, newBlank, emit, keepsMark, Bool.and_false,
    yields_bind, yields_get, hl, yields_modifyGet, yields_modify]
  cases hf : s.pending.find? (·.name == name) with
  | some p =>
    obtain rfl : p.name = name := by simpa using find?_some hf
    have hp := mem_of_find?_eq_some hf
    obtain ⟨l, r, hs⟩ := append_of_mem hp
    have hmap := map_named (hs ▸ hn) fun q => { q with blanks := q.blanks ++ [s.blanks + 1] }
    rw [← hs] at hmap
    refine ⟨l ++ { p with blanks := p.blanks ++ [s.blanks + 1] } :: r, hs ▸ .again rfl, fun Q => ?_⟩
    rw [waiting_of_mem hn hp]
    by_cases hlimit : s.settings.maxBlanksPerLabel ≤ (p.blanks.length : Int)
    · simp [hlimit, Int.not_lt.2 hlimit]
    · have hmem : p.name ∈ s.pending.map (·.name) := mem_map_of_mem hp
      simp only [yields_pure, hlimit, if_false, yields_modify, hmap, Int.not_le.1 hlimit, hmem,
        not_true_eq_false, false_implies, true_and]
  | none =>
    have hnew := find?_name_eq_none.1 hf
    have hmap : ((s.pending ++ [(⟨name, [], false⟩ : PendingLabel)]).map fun q =>
        if q.name == name then { q with blanks := q.blanks ++ [s.blanks + 1] } else q) =
        s.pending ++ [⟨name, [s.blanks + 1], false⟩] :=
      map_named (nodup_names_concat (p := ⟨name, [], false⟩) hn hnew) fun q =>
        { q with blanks := q.blanks ++ [s.blanks + 1] }
    refine ⟨_, .first hnew, fun Q => ?_⟩
    rw [waiting_of_not_mem hnew]
    by_cases hroom : s.settings.maxGotoLabels ≤ (s.pending.length : Int)
    · simp [hroom, Int.not_lt.2 hroom, hnew]
    · simp only [hroom, if_false, yields_bind, yields_set, yields_pure]
      by_cases hlimit : s.settings.maxBlanksPerLabel ≤ (([] : List Nat).length : Int)
      · rw [if_pos hlimit, yields_bind, yields_throw]
        exact ⟨False.elim, fun h => Int.not_lt.2 hlimit h.2.1⟩
      · simp only [hlimit, if_false, yields_modify, hmap, Int.not_le.1 hroom, Int.not_le.1 hlimit,
          implies_true, true_and]

theorem Ready.gotoForward (h : Ready o s) (hd : name ∉ o.declared)
    (hlabels : ((o.forwards ++ [name]).dedup.length : Int) ≤ o.settings.maxGotoLabels)
    (hjumps : ((o.forwards ++ [name]).count name : Int) ≤ o.settings.maxBlanksPerLabel) :
    Yields (gotoStmt name) s fun _ s' => ∃ b,
      Ready { o.append [.jump (.blank (b : Nat))] with forwards := o.forwards ++ [name] } s' := by
  have hnone : s.declared.lookup name = none := by
    rw [← Option.not_isSome_iff_eq_none, h.gotos.declared]
    exact hd
  have hopen : ∀ p ∈ s.pending, p.name = name → p.declared = false := by
    rintro p hp rfl
    rwa [← Bool.not_eq_true, (h.gotos.pending p hp).2.2]
  obtain ⟨ps, hrec, hiff⟩ := gotoStmt_ahead h.gotos.names hnone
  refine (hiff _).2 ⟨fun hnew => ?_, ?_, s.blanks + 1, h.forward ?_ (hrec.pendingBlanks hopen)⟩
  · have hfresh : name ∉ o.forwards := fun hm => hnew (mem_map.2 (h.gotos.recorded name hm))
    have hlen : (o.forwards ++ [name]).dedup.length = o.forwards.dedup.length + 1 := by
      rw [(perm_append_singleton name o.forwards).dedup.length_eq,
        dedup_cons_of_notMem hfresh, length_cons]
    rw [h.pending_length, h.settings]
    omega
  · have hwait : (waiting name s.pending).length ≤ o.forwards.count name := by
      by_cases hm : name ∈ s.pending.map (·.name)
      · obtain ⟨p, hp, rfl⟩ := mem_map.1 hm
        rw [waiting_of_mem h.gotos.names hp, (h.gotos.pending p hp).2.1]
      · simp [waiting_of_not_mem hm]
    rw [count_append, count_singleton_self] at hjumps
    rw [h.settings]
    omega
  · exact h.gotos.record hrec hd (subset_append_left _ _) rfl rfl rfl

/-! ## Labels -/

theorem Outline.Gotos.declare (h : o.Gotos s) (hbody : o.body ⊆ o'.body)
    (hlabel : Quad.label (l : Nat) ∈ o'.body) (hf : o'.forwards = o.forwards)
    (hdecl : o'.declared = o.declared ++ [name]) (hp : s'.pending = declare name s.pending)
    (hl : s'.declared = (name, l) :: s.declared) : o'.Gotos s' where
  names := by
    rw [hp, names_declare]
    exact h.names
  pending := by
    intro q hq
    rw [hp] at hq
    obtain ⟨p, hpm, rfl⟩ := mem_map.1 hq
    obtain ⟨hin, hlen, hdp⟩ := h.pending p hpm
    rw [hf, hdecl]
    split
    next he => exact ⟨hin, hlen, by simp [eq_of_beq he]⟩
    next he =>
      refine ⟨hin, hlen, ?_⟩
      rw [hdp, mem_append, mem_singleton]
      simp [show p.name ≠ name from fun hn => he (by simp [hn])]
  recorded := by
    intro m hm
    obtain ⟨p, hpm, rfl⟩ := h.recorded m (hf ▸ hm)
    rw [hp]
    refine ⟨_, mem_map_of_mem hpm, ?_⟩
    split <;> rfl
  declared := by
    intro m
    rw [hl, hdecl, mem_append, mem_singleton, ← h.declared, lookup_cons]
    by_cases hm : m = name
    · simp [hm]
    · simp [hm, beq_eq_false_iff_ne.2 hm]
  labels := by
    intro p hp
    rw [hl] at hp
    rcases mem_cons.1 hp with rfl | hp
    · exact hlabel
    · exact hbody (h.labels p hp)

/-- Behind its mark, the first declaration of a label gives it to the blanks that wait for it. -/
theorem labelStmt_fresh (hl : (s.declared.lookup name).isSome = false)
    (hmark : mark s = .ok l s') (hn : (s'.pending.map (·.name)).Nodup)
    (hd : (waiting name s'.pending).Nodup)
    (hnew : (waiting name s'.pending).Disjoint (s'.patched.map Prod.fst)) :
    labelStmt name s = .ok () (State.patchAll { s' with
      marked := false
      declared := (name, l) :: s'.declared
      pending := declare name s'.pending } (waiting name s'.pending) l) := by
  refine eq_of_yields ?_
  simp only [labelStmt, unmark, setPending, yields_bind, yields_get, hl, Bool.false_eq_true,
    if_false, yields_iff_of_eq hmark, yields_modify]
  cases hf : s'.pending.find? (·.name == name) with
  | none =>
    have hnot := find?_name_eq_none.1 hf
    rw [waiting_of_not_mem hnot, State.patchAll_nil, declare, map_of_not_mem _ hnot]
    exact yields_pure.2 rfl
  | some p =>
    obtain rfl : p.name = name := by simpa using find?_some hf
    rw [waiting_of_mem hn (mem_of_find?_eq_some hf)] at hd hnew ⊢
    have hrun := forM_patch_eq (l : Nat) (s := { s' with
      marked := false, declared := (p.name, l) :: s'.declared }) hd hnew
    exact yields_bind.2 ((yields_iff_of_eq hrun).2 (yields_modify.2 rfl))

theorem Ready.labelStmt (h : Ready o s) (hd : name ∉ o.declared) :
    Yields (labelStmt name) s fun _ s' => ∃ seg, (∀ q ∈ seg, keepsMark q = true) ∧
      Ready { o.append seg with declared := o.declared ++ [name] } s' := by
  have hnone : (s.declared.lookup name).isSome = false := by
    rw [← Bool.not_eq_true, h.gotos.declared]
    exact hd
  obtain ⟨l, s1, hmark, seg, hseg, h1, hmarks⟩ := h.marker
  have h2 := h1.unmarked
  have hlabel : Quad.label (l : Nat) ∈ o.body ++ seg := hmarks.mem
  have hopen : ∀ p ∈ s1.pending, p.name = name → p.declared = false := by
    rintro p hp rfl
    rwa [← Bool.not_eq_true, (h1.gotos.pending p hp).2.2]
  have hperm : (Outline.open (o.append seg) { s1 with marked := false }).Perm
      (waiting name s1.pending ++ (o.loopBlanks ++ o.heldBlanks ++
        pendingBlanks (declare name s1.pending))) :=
    ((pendingBlanks_declare hopen).append_left _).trans (perm_append_comm_assoc _ _ _)
  obtain ⟨hnodup, hnew⟩ := h2.fresh hperm
  have hrun := labelStmt_fresh hnone hmark h1.gotos.names hnodup hnew
  refine (yields_iff_of_eq hrun).2 ⟨seg ++ patches (waiting name s1.pending) l,
    forall_mem_append.2 ⟨hseg, fun q hq => keepsMark_patches hq⟩, ?_⟩
  refine h2.patchAll _ _ rfl rfl ?_ hperm hlabel h2.loops h2.held
    (h2.gotos.declare ?_ ?_ rfl rfl rfl rfl)
  · simp [Outline.append]
  · simp [Outline.append]
  · rw [Outline.append, ← append_assoc]
    exact mem_append_left _ hlabel

end Quadruple.Emit
