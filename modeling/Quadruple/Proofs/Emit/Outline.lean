import Quadruple.Proofs.Emit.Chain
import Quadruple.Proofs.Emit.Straight
import Quadruple.Proofs.Flow.Accept
import Quadruple.Proofs.Source.Placement

/-!
# The emitter within a function

`Ready o s` says what holds of the emitter between two operations inside a function, where the
outline `o` tells what is going on: the code so far, the blanks that open loops, chains in hand and
jumps to labels still own, and the labels of the source that have been mentioned. Every blank is
owned once or has its one equation; every target is owned, or is a label of the body.

For each operation on control flow there is a lemma that it succeeds and what it does to the
outline.
-/

namespace Quadruple

open List

namespace Emit

open Quadruple.Flow (fuse? fuse?_append)

/-- Nothing but line marks, equations and labels stands between the first label `n` of the body
and the rest `r`. -/
def Marks (body : List Quad) (n : Int) (r : List Quad) : Prop :=
  ∃ pre inv, body = pre ++ .label n :: (inv ++ r) ∧ Quad.label n ∉ pre ∧
    ∀ q ∈ inv, keepsMark q = true

variable {body r seg : List Quad} {xs : List (List Nat × Int)} {m : Nat} {us vs bs : List Nat}
  {y : Value} {outer : List LoopScope} {scope : LoopScope} {n : Int}

theorem Marks.append (h : Marks body n r) (post : List Quad) :
    Marks (body ++ post) n (r ++ post) := by
  obtain ⟨pre, inv, rfl, hpre, hinv⟩ := h
  exact ⟨pre, inv, by simp, hpre, hinv⟩

theorem Marks.mem (h : Marks body n r) : Quad.label n ∈ body := by
  obtain ⟨pre, inv, rfl, -, -⟩ := h
  simp

structure Outline where
  settings : Settings
  /-- The code before the body of the function. -/
  before : List Quad
  body : List Quad
  /-- For each open loop, the innermost first, the blanks of its `continue`s and `break`s. -/
  loops : List (List Nat × List Nat)
  /-- The chains in hand with their blanks. -/
  held : List (Chain × List Nat)
  /-- The jumps so far to labels that were not declared yet. -/
  forwards : List String
  /-- The labels declared so far. -/
  declared : List String

def pendingBlanks (ps : List PendingLabel) : List Nat :=
  (ps.filter fun p => !p.declared).flatMap (·.blanks)

def State.openGotos (s : State) : List Nat := pendingBlanks s.pending

def Outline.loopBlanks (o : Outline) : List Nat := o.loops.flatMap fun l => l.1 ++ l.2

def Outline.heldBlanks (o : Outline) : List Nat := o.held.flatMap (·.2)

def Outline.open (o : Outline) (s : State) : List Nat := o.loopBlanks ++ o.heldBlanks ++ s.openGotos

def Outline.append (o : Outline) (seg : List Quad) : Outline := { o with body := o.body ++ seg }

/-- A blank that has no label yet, or one with an equation and a label of the body. -/
def Outline.Owns (o : Outline) (s : State) (b : Int) : Prop :=
  (∃ k ∈ o.open s, b = (k : Nat)) ∨ ∃ n, Quad.patch b n ∈ o.body ∧ Quad.label n ∈ o.body

/-- A target that leads into the body, now or once its blank has got a label. -/
def Outline.Covers (o : Outline) (s : State) : Target → Prop
  | .label n => Quad.label n ∈ o.body
  | .blank b => o.Owns s b

/-- The records of jumps to labels agree with the jumps and declarations so far. -/
structure Outline.Gotos (o : Outline) (s : State) : Prop where
  names : (s.pending.map (·.name)).Nodup
  pending : ∀ p ∈ s.pending, p.name ∈ o.forwards ∧ p.blanks.length = o.forwards.count p.name ∧
    (p.declared = true ↔ p.name ∈ o.declared)
  recorded : ∀ name ∈ o.forwards, ∃ p ∈ s.pending, p.name = name
  declared : ∀ name, (s.declared.lookup name).isSome = true ↔ name ∈ o.declared
  labels : ∀ p ∈ s.declared, Quad.label (p.2 : Nat) ∈ o.body

structure Ready (o : Outline) (s : State) : Prop where
  settings : s.settings = o.settings
  code : s.code.toList = o.before ++ o.body
  fused : (fuse? o.body).isSome = true
  labels : ∀ n : Int, Quad.label n ∈ o.body → n ≤ s.labels
  marked : s.marked = true → Marks o.body s.labels []
  loops : Forall₂ (fun scope l => Holds s.links scope.onContinue l.1 ∧
    Holds s.links scope.onBreak l.2) s.loops o.loops
  held : ∀ p ∈ o.held, Holds s.links p.1 p.2
  blanks : ∀ b, (o.open s ++ s.patched.map Prod.fst).count b = if 1 ≤ b ∧ b ≤ s.blanks then 1 else 0
  equations : s.code.toList.filterMap Quad.equation? =
    s.patched.reverse.map fun p => ((p.1 : Int), p.2)
  targets : ∀ q ∈ o.body, ∀ t ∈ q.targets, o.Covers s t
  gotos : o.Gotos s
  func : s.func.isSome = true

namespace Ready

variable {o : Outline} {s : State}

theorem fresh (h : Ready o s) {rest : List Nat} (hp : (o.open s).Perm (bs ++ rest)) :
    bs.Nodup ∧ bs.Disjoint (s.patched.map Prod.fst) := by
  have hc : ∀ b, bs.count b + rest.count b + (s.patched.map Prod.fst).count b ≤ 1 := by
    intro b
    have hb := h.blanks b
    rw [count_append, hp.count_eq, count_append] at hb
    split at hb <;> omega
  constructor
  · refine nodup_iff_count_le_one.2 fun b => ?_
    have := hc b
    omega
  · intro b hb hb'
    have := hc b
    have := count_pos_iff.2 hb
    have := count_pos_iff.2 hb'
    omega

end Ready

variable {o o' : Outline} {s s' : State} {qs : List Quad} {q : Quad} {fs ts cs : List Nat}
  {x : Value} {held : List (Chain × List Nat)} {loops : List (List Nat × List Nat)}

theorem Ready.extend (h : Ready o s)
    (hsettings : s'.settings = s.settings ∧ o'.settings = o.settings)
    (hbefore : o'.before = o.before) (hbody : o'.body = o.body ++ seg)
    (hcode : s'.code.toList = s.code.toList ++ seg) (hfused : (fuse? seg).isSome = true)
    (hlabels : s.labels ≤ s'.labels ∧ ∀ n : Int, Quad.label n ∈ seg → n ≤ s'.labels)
    (hmarked : s'.marked = true → Marks o'.body s'.labels [])
    (hloops : Forall₂ (fun scope l => Holds s'.links scope.onContinue l.1 ∧
      Holds s'.links scope.onBreak l.2) s'.loops o'.loops)
    (hheld : ∀ p ∈ o'.held, Holds s'.links p.1 p.2)
    (hblanks : ∀ b, (o'.open s' ++ s'.patched.map Prod.fst).count b =
      if 1 ≤ b ∧ b ≤ s'.blanks then 1 else 0)
    (hequations : (s'.patched.reverse.map fun p => ((p.1 : Int), p.2)) =
      (s.patched.reverse.map fun p => ((p.1 : Int), p.2)) ++ seg.filterMap Quad.equation?)
    (hopen : ∀ b ∈ o.open s, o'.Owns s' (b : Nat))
    (htargets : ∀ q ∈ seg, ∀ t ∈ q.targets, o'.Covers s' t) (hgotos : o'.Gotos s')
    (hfunc : s'.func = s.func) : Ready o' s' where
  settings := by rw [hsettings.1, hsettings.2, h.settings]
  code := by rw [hcode, h.code, hbefore, hbody, append_assoc]
  fused := by
    obtain ⟨us, hus⟩ := Option.isSome_iff_exists.1 h.fused
    obtain ⟨vs, hvs⟩ := Option.isSome_iff_exists.1 hfused
    rw [hbody, fuse?_append hus hvs]
    rfl
  labels := by
    intro n hn
    rw [hbody, mem_append] at hn
    rcases hn with hn | hn
    · have := h.labels n hn
      omega
    · exact hlabels.2 n hn
  marked := hmarked
  loops := hloops
  held := hheld
  blanks := hblanks
  equations := by rw [hcode, filterMap_append, h.equations, hequations]
  targets := by
    intro q hq t ht
    rw [hbody, mem_append] at hq
    rcases hq with hq | hq
    · have hcov := h.targets q hq t ht
      cases t with
      | label n =>
        rw [Outline.Covers, hbody]
        exact mem_append_left _ hcov
      | blank b =>
        rcases hcov with ⟨k, hk, rfl⟩ | ⟨n, hb, hn⟩
        · exact hopen k hk
        · exact .inr ⟨n, hbody ▸ mem_append_left _ hb, hbody ▸ mem_append_left _ hn⟩
    · exact htargets q hq t ht
  gotos := hgotos
  func := hfunc ▸ h.func

/-! ## Plain instructions -/

theorem fuse?_plain (h : ∀ q ∈ qs, q.isPlain = true) : fuse? qs = some qs := by
  induction qs with
  | nil => rfl
  | cons q qs ih =>
    obtain ⟨hq, hqs⟩ := forall_mem_cons.1 h
    have hcons : fuse? (q :: qs) = (fuse? qs).map (q :: ·) := by
      cases q with
      | condJump | funcBegin | funcEnd | globalDecl | patch => cases hq
      | _ => rfl
    rw [hcons, ih hqs]
    rfl

theorem isPlain_label_not_mem (h : ∀ q ∈ qs, q.isPlain = true) (n : Int) :
    Quad.label n ∉ qs := fun hm => by cases h _ hm

theorem targets_of_isPlain (h : q.isPlain = true) : q.targets = [] := by
  cases q with
  | condJump | jump | branch => cases h
  | _ => rfl

theorem equation?_of_isPlain (h : q.isPlain = true) : q.equation? = none := by
  cases q with
  | patch => cases h
  | _ => rfl

theorem Outline.owns_of_open (ho : o'.open s' = o.open s) {b : Nat} (hb : b ∈ o.open s) :
    o'.Owns s' (b : Nat) := .inl ⟨b, ho ▸ hb, rfl⟩

theorem Outline.Gotos.extend (h : o.Gotos s) (hbody : o.body ⊆ o'.body)
    (hf : o'.forwards = o.forwards) (hd : o'.declared = o.declared) (hp : s'.pending = s.pending)
    (hl : s'.declared = s.declared) : o'.Gotos s' where
  names := hp ▸ h.names
  pending := by
    rw [hp, hf, hd]
    exact h.pending
  recorded := by
    rw [hp, hf]
    exact h.recorded
  declared := by
    rw [hl, hd]
    exact h.declared
  labels := fun p hm => hbody (h.labels p (hl ▸ hm))

theorem Ready.straight (h : Ready o s) (hs : Straight s s' qs) : Ready (o.append qs) s' := by
  obtain ⟨hcode, hplain, hcontrol, hmarked⟩ := hs
  simp only [State.control, Control.mk.injEq] at hcontrol
  obtain ⟨hset, hlabels, hblanks, hlinks, hpatched, hloops, hpending, hdeclared, hfunc⟩ := hcontrol
  have hopen : (o.append qs).open s' = o.open s := by
    simp [Outline.open, Outline.append, Outline.loopBlanks, Outline.heldBlanks, State.openGotos,
      hpending]
  refine h.extend ⟨hset, rfl⟩ rfl rfl hcode ?_ ⟨le_of_eq hlabels.symm, ?_⟩ ?_ ?_ ?_ ?_ ?_ ?_ ?_ ?_
    hfunc
  · rw [fuse?_plain hplain]
    rfl
  · exact fun n hn => absurd hn (isPlain_label_not_mem hplain n)
  · intro hm
    obtain ⟨hm, hkeep⟩ := hmarked hm
    obtain ⟨pre, inv, hbody, hpre, hinv⟩ := h.marked hm
    refine ⟨pre, inv ++ qs, ?_, hlabels ▸ hpre, forall_mem_append.2 ⟨hinv, hkeep⟩⟩
    rw [Outline.append, hbody, hlabels]
    simp
  · rw [hlinks, hloops]
    exact h.loops
  · rw [hlinks]
    exact h.held
  · rw [hopen, hpatched, hblanks]
    exact h.blanks
  · rw [hpatched, filterMap_eq_nil_iff.2 fun q hq => equation?_of_isPlain (hplain q hq)]
    simp
  · exact fun b hb => Outline.owns_of_open hopen hb
  · intro q hq t ht
    rw [targets_of_isPlain (hplain q hq)] at ht
    cases ht
  · exact h.gotos.extend (subset_append_left _ _) rfl rfl hpending hdeclared

theorem Plain.ready {α : Type} {x : EmitM α} (hx : Plain x) (h : Ready o s) :
    Yields x s fun _ s' => ∃ qs, (∀ q ∈ qs, q.isPlain = true) ∧
      s'.code.toList = s.code.toList ++ qs ∧ Ready (o.append qs) s' :=
  (hx s).mono fun _ _ ⟨qs, hs⟩ => ⟨qs, hs.plain, hs.code, h.straight hs⟩

theorem Ready.beginStmt (h : Ready o s) (line : Int) :
    Yields (beginStmt line) s fun _ s' => Ready (o.append [.stmtBegin line]) s' := by
  simp only [Emit.beginStmt, emit, yields_bind, yields_modify]
  refine h.straight ⟨by simp, by simp [Quad.isPlain], rfl, fun hm => ?_⟩
  simpa using hm

/-! ## Markers -/

theorem Ready.marker (h : Ready o s) :
    Yields mark s fun n s' => ∃ seg, (∀ q ∈ seg, keepsMark q = true) ∧
      Ready (o.append seg) s' ∧ Marks (o.body ++ seg) n [] := by
  by_cases hm : s.marked = true
  · -- the last label still marks this point
    have hrun : mark s = .ok s.labels s := by
      show (if s.marked = true then pure s.labels else _ : EmitM Nat) s = _
      rw [if_pos hm]
      rfl
    refine (yields_iff_of_eq hrun).2 ⟨[], by simp, ?_, by simpa using h.marked hm⟩
    simpa [Outline.append] using h
  · have hnew : Quad.label (s.labels + 1 : Nat) ∉ o.body := by
      intro hn
      have := h.labels _ hn
      omega
    have hmarks : Marks (o.body ++ [.label (s.labels + 1 : Nat)]) (s.labels + 1 : Nat) [] :=
      ⟨o.body, [], rfl, hnew, by simp⟩
    simp only [mark, yields_bind, yields_get, hm, Bool.false_eq_true, if_false, yields_set, emit,
      yields_modify, yields_pure]
    refine ⟨[.label (s.labels + 1 : Nat)], by simp [keepsMark], ?_, hmarks⟩
    refine h.extend ⟨rfl, rfl⟩ rfl rfl (by simp) rfl ⟨Nat.le_succ _, ?_⟩ (fun _ => hmarks) h.loops h.held ?_
      (by simp [Quad.equation?]) ?_ ?_ (h.gotos.extend (subset_append_left _ _) rfl rfl rfl rfl) rfl
    · intro n hn
      obtain rfl : n = (s.labels + 1 : Nat) := by simpa using hn
      exact Int.le_refl _
    · exact h.blanks
    · exact fun b hb => .inl ⟨b, hb, rfl⟩
    · simp [Quad.targets]

/-! ## Chains in hand -/

theorem Ready.reown (h : Ready o s) (hsettings : o'.settings = o.settings)
    (hbefore : o'.before = o.before) (hbody : o'.body = o.body)
    (hforwards : o'.forwards = o.forwards) (hdeclared : o'.declared = o.declared)
    (hcode : s'.code = s.code) (hmarked : s'.marked = true → s.marked = true)
    (hcontrol : { s'.control with links := s.links, loops := s.loops } = s.control)
    (hloops : Forall₂ (fun scope l => Holds s'.links scope.onContinue l.1 ∧
      Holds s'.links scope.onBreak l.2) s'.loops o'.loops)
    (hheld : ∀ p ∈ o'.held, Holds s'.links p.1 p.2) (hopen : (o.open s).Perm (o'.open s')) :
    Ready o' s' := by
  simp only [State.control, Control.mk.injEq] at hcontrol
  obtain ⟨hset, hlabels, hblanks, -, hpatched, -, hpending, hdecl, hfunc⟩ := hcontrol
  have hbody' : o'.body = o.body ++ [] := by rw [hbody, append_nil]
  refine h.extend ⟨hset, hsettings⟩ hbefore hbody' ?_ rfl ⟨le_of_eq hlabels.symm, by simp⟩ ?_ hloops hheld
    ?_ ?_ ?_ (by simp) ?_ hfunc
  · rw [hcode, append_nil]
  · intro hm
    rw [hbody, hlabels]
    exact h.marked (hmarked hm)
  · intro b
    rw [hpatched, hblanks, ← h.blanks b, count_append, count_append, hopen.count_eq]
  · rw [hpatched]
    simp
  · exact fun b hb => .inl ⟨b, hopen.mem_iff.1 hb, rfl⟩
  · exact h.gotos.extend (hbody ▸ List.Subset.refl _) hforwards hdeclared hpending hdecl

theorem Ready.reorder (h : Ready o s) (hp : o.held.Perm held) : Ready { o with held } s := by
  refine h.reown rfl rfl rfl rfl rfl rfl id rfl h.loops (fun p hm => h.held p (hp.mem_iff.2 hm)) ?_
  exact ((hp.flatMap_right _).append_left _).append_right _

theorem Ready.reorder_of_eq {xs ys : List (Chain × List Nat)} (h : Ready o' s)
    (he : o' = { o with held := xs }) (hp : xs.Perm ys) : Ready { o with held := ys } s :=
  Ready.reorder (o := { o with held := xs }) (he ▸ h) hp

theorem Ready.congr (h : Ready o s) (hcode : s'.code = s.code)
    (hmarked : s'.marked = true → s.marked = true) (hcontrol : s'.control = s.control) :
    Ready o s' := by
  have hs : Straight s s' [] := ⟨by simp [hcode], by simp, hcontrol, fun hm => ⟨hmarked hm, by simp⟩⟩
  simpa [Outline.append] using h.straight hs

def patches (bs : List Nat) (n : Int) : List Quad := bs.map fun b : Nat => .patch b n

theorem fuse?_patches (bs : List Nat) (n : Int) : fuse? (patches bs n) = some [] := by
  induction bs with
  | nil => rfl
  | cons b bs ih => exact ih

theorem keepsMark_patches (h : q ∈ patches bs n) : keepsMark q = true := by
  obtain ⟨b, -, rfl⟩ := mem_map.1 h
  rfl

theorem label_not_mem_patches (bs : List Nat) (n m : Int) : Quad.label m ∉ patches bs n := by
  simp [patches]

theorem equations_patches (bs : List Nat) (n : Int) :
    (patches bs n).filterMap Quad.equation? = bs.map fun b : Nat => ((b : Int), n) := by
  induction bs with
  | nil => rfl
  | cons b bs ih => exact congrArg (_ :: ·) ih

/-- Blanks that get their label leave the open ones. The records of jumps to labels may change
with it. -/
theorem Ready.patchAll (h : Ready o s) (ps : List PendingLabel)
    (ds : List (String × Nat)) (hsettings : o'.settings = o.settings)
    (hbefore : o'.before = o.before) (hbody : o'.body = o.body ++ patches bs n)
    (hopen : (o.open s).Perm
      (bs ++ o'.open ({ s with pending := ps, declared := ds }.patchAll bs n)))
    (hn : Quad.label n ∈ o.body)
    (hloops : Forall₂ (fun scope l => Holds s.links scope.onContinue l.1 ∧
      Holds s.links scope.onBreak l.2) s.loops o'.loops)
    (hheld : ∀ p ∈ o'.held, Holds s.links p.1 p.2)
    (hgotos : o'.Gotos ({ s with pending := ps, declared := ds }.patchAll bs n)) :
    Ready o' ({ s with pending := ps, declared := ds }.patchAll bs n) := by
  have hn' : Quad.label n ∈ o'.body := hbody ▸ mem_append_left _ hn
  refine h.extend ⟨rfl, hsettings⟩ hbefore hbody ?_ ?_ ⟨le_rfl, ?_⟩ ?_ hloops hheld ?_ ?_ ?_
    ?_ hgotos rfl
  · simp [State.patchAll, patches]
  · rw [fuse?_patches]
    rfl
  · exact fun m hm => absurd hm (label_not_mem_patches bs n m)
  · intro hm
    obtain ⟨pre, inv, hb, hpre, hinv⟩ := h.marked hm
    refine ⟨pre, inv ++ patches bs n, ?_, hpre, ?_⟩
    · rw [hbody, hb]
      simp [State.patchAll]
    · exact forall_mem_append.2 ⟨hinv, fun q hq => keepsMark_patches hq⟩
  · intro b
    have hb := h.blanks b
    rw [count_append, hopen.count_eq, count_append] at hb
    have hrev : ((bs.map fun b => (b, n)).reverse.map Prod.fst).count b = bs.count b := by
      rw [map_reverse, count_reverse, map_map]
      exact congrArg (count b) (map_id bs)
    have hpatched : ({ s with pending := ps, declared := ds }.patchAll bs n).patched =
        (bs.map fun b => (b, n)).reverse ++ s.patched := rfl
    have hblanks : ({ s with pending := ps, declared := ds }.patchAll bs n).blanks = s.blanks := rfl
    rw [hpatched, map_append, count_append, count_append, hrev, hblanks, ← hb]
    omega
  · rw [equations_patches]
    simp [State.patchAll]
  · intro b hb
    rcases mem_append.1 (hopen.mem_iff.1 hb) with hb | hb
    · refine .inr ⟨n, ?_, hn'⟩
      rw [hbody]
      exact mem_append_right _ (mem_map_of_mem hb)
    · exact .inl ⟨b, hb, rfl⟩
  · intro q hq t ht
    obtain ⟨b, -, rfl⟩ := mem_map.1 hq
    cases ht

theorem Outline.open_held (o : Outline) (s : State) (c : Chain) (bs : List Nat)
    (held : List (Chain × List Nat)) (n : Int) :
    (Outline.open { o with held := (c, bs) :: held } s).Perm
      (bs ++ Outline.open { o.append (patches bs n) with held } (s.patchAll bs n)) := by
  simp only [Outline.open, Outline.loopBlanks, Outline.heldBlanks, flatMap_cons,
    Outline.append, State.openGotos, State.patchAll]
  refine perm_iff_count.2 fun b => ?_
  simp only [count_append]
  omega

section Resolve

variable {c : Chain} (h : Ready { o with held := (c, bs) :: held } s)

include h

theorem Ready.resolve_eq (s' : State) (hlinks : s'.links = s.links)
    (hpatched : s'.patched = s.patched) : resolve c n s' = .ok () (s'.patchAll bs n) := by
  obtain ⟨hd, hnew⟩ := h.fresh (o.open_held s c bs held n)
  refine Emit.resolve_eq ?_ n hd (hpatched ▸ hnew)
  rw [hlinks]
  exact h.held (c, bs) mem_cons_self

theorem Ready.resolved (hn : Quad.label n ∈ o.body) :
    Ready { o.append (patches bs n) with held } (s.patchAll bs n) := by
  refine h.patchAll s.pending s.declared rfl rfl rfl (o.open_held s c bs held n) hn h.loops ?_ ?_
  · exact fun p hp => h.held p (mem_cons_of_mem _ hp)
  · exact h.gotos.extend (subset_append_left _ _) rfl rfl rfl rfl

theorem Ready.resolve (hn : Quad.label n ∈ o.body) :
    Yields (resolve c n) s fun _ s' => Ready { o.append (patches bs n) with held } s' :=
  (yields_iff_of_eq (h.resolve_eq s rfl rfl)).2 (h.resolved hn)

end Resolve

def settlements (xs : List (List Nat × Int)) : List Quad := xs.flatMap fun x => patches x.1 x.2

theorem keepsMark_settlements (h : q ∈ settlements xs) : keepsMark q = true := by
  obtain ⟨x, -, hq⟩ := mem_flatMap.1 h
  exact keepsMark_patches hq

theorem patches_subset_settlements (h : (bs, n) ∈ xs) : patches bs n ⊆ settlements xs :=
  fun _ hq => mem_flatMap.2 ⟨_, h, hq⟩

theorem Ready.resolveAll {Q : State → Prop} (xs : List (Chain × List Nat × Int)) :
    ∀ {o : Outline} {s : State},
      Ready { o with held := xs.map (fun x => (x.1, x.2.1)) ++ o.held } s →
      (∀ x ∈ xs, Quad.label x.2.2 ∈ o.body) →
      (∀ s', Ready (o.append (settlements (xs.map Prod.snd))) s' → Q s') →
      xs.foldr (fun x P s => Yields (Emit.resolve x.1 x.2.2) s fun _ s' => P s') Q s := by
  induction xs with
  | nil =>
    intro o s h _ hQ
    exact hQ s (by simpa [settlements, Outline.append] using h)
  | cons x xs ih =>
    intro o s h hl hQ
    refine (h.resolve (hl x mem_cons_self)).mono fun _ s1 h1 => ?_
    refine ih (o := o.append (patches x.2.1 x.2.2)) h1 ?_ fun s2 h2 => hQ s2 ?_
    · exact fun y hy => mem_append_left _ (hl y (mem_cons_of_mem _ hy))
    · simpa [settlements, Outline.append] using h2

/-! ## New blanks -/

theorem count_new (n k b : Nat) :
    (List.range' (n + 1) k).count b + (if 1 ≤ b ∧ b ≤ n then 1 else 0) =
      if 1 ≤ b ∧ b ≤ n + k then 1 else 0 := by
  have hd : (range' (n + 1) k).Nodup := nodup_range'
  rw [hd.count]
  simp only [mem_range'_1]
  split_ifs <;> omega

theorem Ready.jumps {w : List (Chain × List Nat)} (h : Ready o s)
    (hcode : s'.code.toList = s.code.toList ++ seg) (hfused : (fuse? seg).isSome = true)
    (hseg : ∀ n, Quad.label n ∉ seg) (heqs : seg.filterMap Quad.equation? = [])
    (hcontrol : { s'.control with blanks := s.blanks, links := s.links } = s.control)
    (hmarked : s'.marked = false)
    (hlinks : ∀ {c : Chain} {bs : List Nat}, Holds s.links c bs → Holds s'.links c bs)
    (hnew : ∀ p ∈ w, Holds s'.links p.1 p.2) {k : Nat} (hblanks : s'.blanks = s.blanks + k)
    (hperm : (w.flatMap (·.2)).Perm (List.range' (s.blanks + 1) k))
    (htargets : ∀ q ∈ seg, ∀ t ∈ q.targets, ∃ b ∈ w.flatMap (·.2), t = .blank (b : Nat)) :
    Ready { o.append seg with held := w ++ o.held } s' := by
  simp only [State.control, Control.mk.injEq] at hcontrol
  obtain ⟨hset, hlabels, -, -, hpatched, hloops, hpending, hdeclared, hfunc⟩ := hcontrol
  have hopen : Outline.open { o.append seg with held := w ++ o.held } s' =
      o.loopBlanks ++ (w.flatMap (·.2) ++ o.heldBlanks) ++ s.openGotos := by
    simp [Outline.open, Outline.append, Outline.loopBlanks, Outline.heldBlanks, State.openGotos,
      hpending]
  refine h.extend ⟨hset, rfl⟩ rfl rfl hcode hfused ⟨le_of_eq hlabels.symm, ?_⟩ ?_ ?_ ?_ ?_ ?_ ?_ ?_
    ?_ hfunc
  · exact fun n hn => absurd hn (hseg n)
  · intro hm
    rw [hmarked] at hm
    cases hm
  · rw [hloops]
    exact h.loops.imp fun _ _ ⟨hc, hb⟩ => ⟨hlinks hc, hlinks hb⟩
  · exact forall_mem_append.2 ⟨hnew, fun p hp => hlinks (h.held p hp)⟩
  · intro b
    have hb := h.blanks b
    rw [hopen, hpatched, hblanks, ← count_new]
    simp only [Outline.open, count_append, hperm.count_eq] at hb ⊢
    omega
  · rw [hpatched, heqs, append_nil]
  · intro b hb
    refine .inl ⟨b, ?_, rfl⟩
    simp only [Outline.open, mem_append] at hb
    simp only [hopen, mem_append]
    tauto
  · intro q hq t ht
    obtain ⟨b, hb, rfl⟩ := htargets q hq t ht
    refine .inl ⟨b, ?_, rfl⟩
    simp only [hopen, mem_append]
    tauto
  · exact h.gotos.extend (subset_append_left _ _) rfl rfl hpending hdeclared

def State.jumped (s : State) : State :=
  { s with
    code := s.code.push (.jump (.blank (s.blanks + 1 : Nat)))
    marked := false
    blanks := s.blanks + 1
    links := s.links.push ⟨s.blanks + 1, none⟩ }

theorem jumpAhead_eq (s : State) :
    jumpAhead s = .ok (.span s.links.size s.links.size) s.jumped := by
  have hmark : (s.marked && keepsMark (.jump (.blank (s.blanks + 1 : Nat)))) = false := by
    simp [keepsMark]
  rw [State.jumped, ← hmark]
  rfl

theorem Ready.jumped (h : Ready o s) : Ready { o.append [.jump (.blank (s.blanks + 1 : Nat))] with
      held := (.span s.links.size s.links.size, [s.blanks + 1]) :: o.held } s.jumped := by
  refine h.jumps (w := [(_, [s.blanks + 1])]) (k := 1) (by simp [State.jumped]) rfl (by simp) rfl rfl
    rfl (fun hc => hc.push _) ?_ rfl (by simp) (by simp [Quad.targets])
  intro p hp
  rw [mem_singleton.1 hp]
  exact .single _ _

theorem Ready.jumpAhead (h : Ready o s) : Yields jumpAhead s fun c s' => ∃ b,
      Ready { o.append [.jump (.blank (b : Nat))] with held := (c, [b]) :: o.held } s' :=
  (yields_iff_of_eq (jumpAhead_eq s)).2 ⟨_, h.jumped⟩

/-- The code that leaves a test of `dst` for the blanks `t` and `f`. -/
def exits (dst : Temp) (t f : Nat) : List Quad := [.condJump dst (.blank t), .jump (.blank f)]

theorem Ready.test (h : Ready o s) (dst : Temp) : Yields (branchOn dst) s fun v s' => ∃ t f,
      Ready { o.append (exits dst t f) with held := (v.onTrue, [t]) :: (v.onFalse, [f]) :: o.held } s' := by
  simp only [branchOn, newBlank, emit, single, yields_bind, yields_modifyGet, yields_modify, yields_pure]
  refine ⟨s.blanks + 1, s.blanks + 1 + 1, ?_⟩
  refine h.jumps (w := [(_, [s.blanks + 1]), (_, [s.blanks + 1 + 1])]) (k := 2) (by simp [exits]) rfl
    (by simp [exits]) rfl rfl (by simp [keepsMark]) (fun hc => (hc.push _).push _) ?_ rfl
    (by simp [range']) (by simp [Quad.targets, exits])
  intro p hp
  simp only [mem_cons, not_mem_nil, or_false] at hp
  obtain rfl | rfl := hp
  · exact (Holds.single _ _).push _
  · exact .single _ _

theorem Ready.branch (h : Ready o s) {x : EmitM Temp} (hx : Plain x) :
    Yields (x >>= branchOn) s fun v s' => ∃ qs dst t f, (∀ q ∈ qs, q.isPlain = true) ∧
      Ready { o.append (qs ++ exits dst t f) with
        held := (v.onTrue, [t]) :: (v.onFalse, [f]) :: o.held } s' := by
  refine yields_bind.2 ((hx.ready h).mono ?_)
  rintro dst s1 ⟨qs, hqs, -, h1⟩
  refine (h1.test dst).mono ?_
  rintro v s2 ⟨t, f, h2⟩
  refine ⟨qs, dst, t, f, hqs, ?_⟩
  simpa [Outline.append] using h2

/-! ## Merged chains -/

theorem Ready.merge {a b : Chain}
    (h : Ready { o with held := (a, bs) :: (b, cs) :: held } s) :
    Yields (merge a b) s fun c s' => Ready { o with held := (c, bs ++ cs) :: held } s' := by
  have ha : Holds s.links a bs := h.held (a, bs) mem_cons_self
  have hb : Holds s.links b cs := h.held (b, cs) (mem_cons_of_mem _ mem_cons_self)
  have hone : ∀ k, o.loopBlanks.count k + (bs.count k + (cs.count k +
      (held.flatMap (·.2)).count k)) ≤ 1 := by
    intro k
    have hk := h.blanks k
    simp only [Outline.open, Outline.loopBlanks, Outline.heldBlanks, flatMap_cons,
      count_append] at hk ⊢
    split at hk <;> omega
  have hdisj : bs.Disjoint cs := by
    intro k hk hk'
    have := hone k
    have := count_pos_iff.2 hk
    have := count_pos_iff.2 hk'
    omega
  -- what shares no blank with the first chain is not touched
  have hother : ∀ {c : Chain} {ds : List Nat}, Holds s.links c ds →
      ds ⊆ o.loopBlanks ++ held.flatMap (·.2) → Holds (mergedLinks s.links a b) c ds := by
    intro c ds hc hds
    refine ha.other hc fun k hk hk' => ?_
    have := hone k
    have := count_pos_iff.2 hk
    have := count_pos_iff.2 (hds hk')
    rw [count_append] at this
    omega
  refine (yields_iff_of_eq (merge_eq a b s)).2 (h.reown rfl rfl rfl rfl rfl rfl id rfl ?_ ?_ ?_)
  · have hloops := (forall₂_and_left (p := (· ∈ o.loops)) _ _).2 ⟨fun _ => id, h.loops.flip⟩
    refine hloops.flip.imp fun scope l ⟨hl, hc, hk⟩ => ?_
    have hsub : l.1 ++ l.2 ⊆ o.loopBlanks ++ held.flatMap (·.2) := fun k hk =>
      mem_append_left _ (mem_flatMap.2 ⟨l, hl, hk⟩)
    exact ⟨hother hc (append_subset.1 hsub).1, hother hk (append_subset.1 hsub).2⟩
  · intro p hp
    rcases mem_cons.1 hp with rfl | hp
    · exact ha.merge hb hdisj
    · refine hother (h.held p (by simp [hp])) fun k hk => ?_
      exact mem_append_right _ (mem_flatMap.2 ⟨p, hp, hk⟩)
  · simp [Outline.open, Outline.loopBlanks, Outline.heldBlanks, State.openGotos]

theorem Ready.unmarked (h : Ready o s) : Ready o { s with marked := false } :=
  h.congr rfl (by simp) rfl

section

variable
  (h : Ready { o with held := (x.onTrue, ts) :: (x.onFalse, fs) :: (y.onTrue, us) :: (y.onFalse, vs) :: held } s)
  (hm : Quad.label m ∈ o.body)
include h hm

theorem Ready.both : Yields (both x m y) s fun v s' => Ready { o.append (patches ts m) with
      held := (v.onTrue, us) :: (v.onFalse, fs ++ vs) :: held } s' := by
  simp only [Emit.both, unmark, yields_bind, yields_modify, yields_pure]
  refine (h.unmarked.resolve hm).mono fun _ s1 h1 => ?_
  have hswap : Ready { o.append (patches ts m) with
      held := (x.onFalse, fs) :: (y.onFalse, vs) :: (y.onTrue, us) :: held } s1 :=
    h1.reorder (.cons _ (.swap _ _ _))
  exact hswap.merge.mono fun c s2 h2 => h2.reorder (.swap _ _ _)

theorem Ready.either : Yields (either x m y) s fun v s' => Ready { o.append (patches fs m) with
      held := (v.onTrue, ts ++ us) :: (v.onFalse, vs) :: held } s' := by
  simp only [Emit.either, unmark, yields_bind, yields_modify, yields_pure]
  exact ((h.unmarked.reorder (.swap _ _ _)).resolve hm).mono fun _ s1 h1 => h1.merge

end

theorem Ready.negated (h : Ready { o with held := (x.onTrue, ts) :: (x.onFalse, fs) :: held } s) :
    Yields (negated x) s fun v s' =>
      Ready { o with held := (v.onTrue, fs) :: (v.onFalse, ts) :: held } s' := by
  simp only [Emit.negated, unmark, yields_bind, yields_modify, yields_pure]
  exact h.unmarked.reorder (.swap _ _ _)

/-! ## Loops -/

theorem Ready.takeLoop
    (h : Ready { o with loops := (cs, bs) :: loops } s)
    (hs : s.loops = scope :: outer) : Ready { o with
      loops := ([], []) :: loops
      held := (scope.onContinue, cs) :: (scope.onBreak, bs) :: o.held }
      { s with loops := {} :: outer } := by
  have hloops := h.loops
  rw [hs] at hloops
  obtain ⟨⟨hc, hb⟩, hrest⟩ := forall₂_cons.1 hloops
  refine h.reown rfl rfl rfl rfl rfl rfl id rfl (.cons ⟨.empty, .empty⟩ hrest) ?_ ?_
  · exact forall_mem_cons.2 ⟨hc, forall_mem_cons.2 ⟨hb, h.held⟩⟩
  · simp only [Outline.open, Outline.loopBlanks, Outline.heldBlanks, State.openGotos, flatMap_cons]
    refine perm_iff_count.2 fun b => ?_
    simp only [count_append, count_nil]
    omega

theorem Ready.putLoop {c b : Chain}
    (h : Ready { o with loops := ([], []) :: loops, held := (c, cs) :: (b, bs) :: held } s)
    (hs : s.loops = scope :: outer) :
    Ready { o with loops := (cs, bs) :: loops, held } { s with loops := ⟨c, b⟩ :: outer } := by
  have hloops := h.loops
  rw [hs] at hloops
  obtain ⟨-, hrest⟩ := forall₂_cons.1 hloops
  obtain ⟨hc, hheld⟩ := forall_mem_cons.1 h.held
  obtain ⟨hb, hheld⟩ := forall_mem_cons.1 hheld
  refine h.reown rfl rfl rfl rfl rfl rfl id rfl (.cons ⟨hc, hb⟩ hrest) hheld ?_
  simp only [Outline.open, Outline.loopBlanks, Outline.heldBlanks, State.openGotos, flatMap_cons]
  refine perm_iff_count.2 fun b => ?_
  simp only [count_append, count_nil]
  omega

theorem Ready.openLoop (h : Ready o s) (hdepth : (o.loops.length : Int) < o.settings.maxLoopDepth) :
    Yields openLoop s fun _ s' => Ready { o with loops := ([], []) :: o.loops } s' := by
  have hlt : ¬ s.settings.maxLoopDepth ≤ (s.loops.length : Int) := by
    rw [h.settings, h.loops.length_eq]
    omega
  simp only [Emit.openLoop, yields_bind, yields_get, hlt, if_false, enterScope, yields_modify]
  exact h.reown rfl rfl rfl rfl rfl rfl id rfl (.cons ⟨.empty, .empty⟩ h.loops) h.held
    (by simp [Outline.open, Outline.loopBlanks, Outline.heldBlanks, State.openGotos])

theorem Ready.closeLoop {m : Int}
    (h : Ready { o with loops := (cs, bs) :: loops } s) (hn : Quad.label n ∈ o.body)
    (hm : Quad.label m ∈ o.body) : Yields (closeLoop n m) s fun _ s' =>
      Ready { o.append (patches cs n ++ patches bs m) with loops } s' := by
  obtain ⟨scope, outer, -, -, hs⟩ := forall₂_cons_right_iff.1 h.loops
  have h0 := h.takeLoop hs
  have h1 := h0.resolved (o := { o with loops := ([], []) :: loops }) hn
  have h2 := h1.resolved (o := { o.append (patches cs n) with loops := ([], []) :: loops })
    (mem_append_left _ hm)
  have hrun1 := h0.resolve_eq (o := { o with loops := ([], []) :: loops }) (n := n) s rfl rfl
  have hrun2 := h1.resolve_eq (o := { o.append (patches cs n) with loops := ([], []) :: loops })
    (n := m) (s.patchAll cs n) rfl rfl
  have hloops : ((s.patchAll cs n).patchAll bs m).loops = scope :: outer := hs
  simp only [Emit.closeLoop, innermost, endLoop, yields_bind, yields_get, hs, yields_pure,
    yields_iff_of_eq hrun1, yields_iff_of_eq hrun2, hloops, yields_modify, leaveScope]
  refine h2.reown rfl rfl ?_ rfl rfl rfl id rfl ?_ h2.held ?_
  · simp [Outline.append]
  · exact (forall₂_cons.1 h2.loops).2
  · rfl

section Exits

variable (h : Ready { o with loops := (cs, bs) :: loops } s)

include h

theorem Ready.breakStmt : Yields breakStmt s fun _ s' => ∃ b,
    Ready { o.append [.jump (.blank (b : Nat))] with loops := (cs, bs ++ [b]) :: loops } s' := by
  obtain ⟨scope, outer, -, -, hs⟩ := forall₂_cons_right_iff.1 h.loops
  have hs' : s.jumped.loops = scope :: outer := hs
  -- the chains of the loop come to hand, one of them grows, and they go back
  have h1 := (h.takeLoop hs).jumped.reorder (.trans (.cons _ (.swap _ _ _)) (.swap _ _ _))
  have h2 := (yields_iff_of_eq (merge_eq _ _ _)).1
    (h1.merge (o := { o.append [_] with loops := ([], []) :: loops }))
  have h3 := (h2.reorder (.swap _ _ _)).putLoop (o := o.append [_]) rfl
  simp only [Emit.breakStmt, yields_bind, yields_get, hs, yields_iff_of_eq (jumpAhead_eq s),
    yields_iff_of_eq (merge_eq _ _ _), setInnermost, yields_modify, hs']
  exact ⟨s.blanks + 1, h3⟩

theorem Ready.continueStmt : Yields continueStmt s fun _ s' => ∃ b,
    Ready { o.append [.jump (.blank (b : Nat))] with loops := (cs ++ [b], bs) :: loops } s' := by
  obtain ⟨scope, outer, -, -, hs⟩ := forall₂_cons_right_iff.1 h.loops
  have hs' : s.jumped.loops = scope :: outer := hs
  have h1 := (h.takeLoop hs).jumped.reorder (.swap _ _ _)
  have h2 := (yields_iff_of_eq (merge_eq _ _ _)).1
    (h1.merge (o := { o.append [_] with loops := ([], []) :: loops }))
  have h3 := h2.putLoop (o := o.append [_]) rfl
  simp only [Emit.continueStmt, yields_bind, yields_get, hs, yields_iff_of_eq (jumpAhead_eq s),
    yields_iff_of_eq (merge_eq _ _ _), setInnermost, yields_modify, hs']
  exact ⟨s.blanks + 1, h3⟩

end Exits

/-! ## Returns -/

theorem Ready.emitReturn (h : Ready o s) (v : Option Temp) (tag : Tag) :
    Yields (emit (.ret v tag)) s fun _ s' => Ready (o.append [.ret v tag]) s' := by
  refine yields_modify.2 ?_
  refine h.extend ⟨rfl, rfl⟩ rfl rfl (by simp) rfl ⟨le_rfl, by simp⟩ (by simp [keepsMark])
    h.loops h.held h.blanks (by simp [Quad.equation?]) (fun b hb => .inl ⟨b, hb, rfl⟩)
    (by simp [Quad.targets]) (h.gotos.extend (subset_append_left _ _) rfl rfl rfl rfl) rfl

theorem Ready.returnStmt (h : Ready o s) (v : Option Value) :
    Yields (returnStmt v) s fun _ s' => ∃ qs x tag, (∀ q ∈ qs, q.isPlain = true) ∧
      Ready (o.append (qs ++ [.ret x tag])) s' := by
  obtain ⟨id, hid⟩ := Option.isSome_iff_exists.1 h.func
  have hplain : ∀ x tag, Yields (emit (.ret x tag)) s fun _ s' => ∃ qs x tag,
      (∀ q ∈ qs, q.isPlain = true) ∧ Ready (o.append (qs ++ [.ret x tag])) s' := fun x tag =>
    (h.emitReturn x tag).mono fun _ s' h' => ⟨[], x, tag, by simp, h'⟩
  simp only [Emit.returnStmt, yields_bind, yields_get, hid, getEntry, yields_pure]
  cases v with
  | none => exact hplain none _
  | some v =>
    dsimp only
    split
    · exact yields_bind.2 (yields_pure.2 (hplain _ _))
    · refine yields_bind.2 (((plain_cast v _).ready h).mono ?_)
      rintro x s1 ⟨qs, hqs, -, h1⟩
      refine (h1.emitReturn _ _).mono fun _ s2 h2 => ?_
      rw [Outline.append, Outline.append, append_assoc] at h2
      exact ⟨qs, _, _, hqs, h2⟩

end Emit

end Quadruple
