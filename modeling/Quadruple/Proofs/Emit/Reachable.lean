import Quadruple.Proofs.Emit.Outline
import Quadruple.Proofs.Emit.Runs

/-!
# What holds after every run

Labels and blanks are given out in order. A blank that is in no chain and in no record of a jump
stays without a label for ever; one that is given out later is another one.

Main statements:
* `grows_perform`: what one operation may do to the blanks that were there before it.
* `Reachable.intact`: code and equations are in step; every blank that the emitter holds has been
  given out, and none is held both by a chain and by a jump to a label of the source; the code has
  no label that has not been given out, and the emitter is right about the point that the last one
  marks.
-/

namespace Quadruple.Emit

open List

/-! ## Reachable states -/

def Reachable (s : State) : Prop :=
  ∃ settings table report ops, s = (State.new settings table report).run ops

variable {s s' : State}

theorem Reachable.run (h : Reachable s) (ops : List Op) : Reachable (s.run ops) := by
  obtain ⟨settings, table, report, before, rfl⟩ := h
  exact ⟨settings, table, report, before ++ ops, foldl_append.symm⟩

theorem Reachable.perform (h : Reachable s) {op : Op} (hop : op.perform s = .ok () s') :
    Reachable s' :=
  after_of_ok hop ▸ h.run [op]

/-! ## Growth -/

def State.linked (s : State) : List Nat := s.links.toList.map (·.blank)

def State.awaited (s : State) : List Nat := s.pending.flatMap (·.blanks)

/-- What the acts of an operation may do between `s` and `s'`. -/
structure Grows (jumps : Bool) (s s' : State) : Prop where
  code : s.code.toList <+: s'.code.toList
  blanks : s.blanks ≤ s'.blanks
  patched : s.patched <:+ s'.patched
  linked : ∀ b ∈ s'.linked, b ∈ s.linked ∨ jumps = false ∧ s.blanks < b ∧ b ≤ s'.blanks
  awaited : ∀ b ∈ s'.awaited, b ∈ s.awaited ∨ jumps = true ∧ s.blanks < b ∧ b ≤ s'.blanks
  keys : ∀ b ∈ s'.patched.map Prod.fst, b ∈ s.patched.map Prod.fst ∨ b ∈ s.linked ∨
    jumps = true ∧ b ∈ s.awaited ∨ s.blanks < b ∧ b ≤ s'.blanks
  quiet : jumps = false → s'.pending = s.pending ∧ s'.declared = s.declared

variable {jumps shapes chains : Bool} {I I' K : List Item} {qs : List Quad} {α : Type} {b : Nat}
  {n : Int}

theorem grows_share (s : State) (table : Symbols.Table) (report : Report) :
    Grows jumps s { s with table, report } where
  code := prefix_rfl
  blanks := le_rfl
  patched := suffix_rfl
  linked := fun _ => .inl
  awaited := fun _ => .inl
  keys := fun _ => .inl
  quiet := fun _ => ⟨rfl, rfl⟩

/-- The blanks at hand during an operation are those that it was given by its own acts. -/
theorem Grows.act {t t' : State} (h : Grows jumps s t)
    (hnew : ∀ b, .blank b ∈ I → s.blanks < b ∧ b ≤ t.blanks)
    (hact : Act jumps shapes chains (I, t) (I', t')) :
    Grows jumps s t' ∧ ∀ b, .blank b ∈ I' → s.blanks < b ∧ b ≤ t'.blanks := by
  obtain ⟨hcode, hblanks, hpatched, hlinked, hawaited, hkeys, hquiet⟩ := h
  cases hact with
  | define | emit | label =>
    exact ⟨⟨hcode.trans (by simp), hblanks, hpatched, hlinked, hawaited, hkeys, hquiet⟩,
      by simpa using hnew⟩
  | branch =>
    have hmore : ∀ {b}, s.blanks < b ∧ b ≤ t.blanks → s.blanks < b ∧ b ≤ t.blanks + 1 :=
      And.imp_right Nat.le_succ_of_le
    refine ⟨⟨hcode.trans (by simp), Nat.le_succ_of_le hblanks, hpatched,
      fun b hb => (hlinked b hb).imp_right (And.imp_right hmore),
      fun b hb => (hawaited b hb).imp_right (And.imp_right hmore),
      fun b hb => (hkeys b hb).imp_right (.imp_right (.imp_right hmore)), hquiet⟩, fun b hb => ?_⟩
    rcases mem_cons.1 hb with hb | hb
    · cases hb
      exact ⟨Nat.lt_succ_of_le hblanks, le_rfl⟩
    · exact hmore (hnew b hb)
  | @link _ _ k hj _ hk =>
    refine ⟨⟨hcode, hblanks, hpatched, fun b hb => ?_, hawaited, hkeys, hquiet⟩, hnew⟩
    have hb' : b ∈ t.linked ∨ b = k := by simpa [State.linked] using hb
    rcases hb' with hb' | rfl
    · exact hlinked b hb'
    · exact .inr ⟨hj, hnew b hk⟩
  | @relink _ _ i j =>
    have hsame : (t.links.modify i ({ · with next := some j })).toList.map (·.blank) = t.linked := by
      rw [Array.toList_modify, State.linked]
      refine ext_getElem? fun n => ?_
      simp only [getElem?_map, getElem?_modify]
      split <;> cases t.links.toList[n]? <;> rfl
    exact ⟨⟨hcode, hblanks, hpatched, fun b hb => hlinked b (hsame ▸ hb), hawaited, hkeys, hquiet⟩,
      hnew⟩
  | patch _ hk =>
    refine ⟨⟨hcode.trans (by simp), hblanks, hpatched.trans (suffix_cons _ _), hlinked, hawaited,
      fun b hb => ?_, hquiet⟩, hnew⟩
    rcases mem_cons.1 hb with rfl | hb
    · rcases hk with hk | ⟨hj, hk⟩
      · exact .inr ((hlinked _ hk).imp_right fun h => .inr h.2)
      · exact .inr (.inr ((hawaited _ hk).imp (⟨hj, ·⟩) (·.2)))
    · exact hkeys b hb
  | record hj hw =>
    refine ⟨⟨hcode, hblanks, hpatched, hlinked, fun b hb => ?_, hkeys, fun hf => ?_⟩, hnew⟩
    · obtain ⟨p, hp, hb⟩ := mem_flatMap.1 hb
      exact (hw p hp b hb).elim (fun hb => hawaited b hb) fun hb => .inr ⟨hj, hnew b hb⟩
    · exact absurd (hj.symm.trans hf) (by decide)
  | fresh hj =>
    refine ⟨⟨hcode, hblanks, hpatched, hlinked, by simp [State.awaited], hkeys, fun hf => ?_⟩, hnew⟩
    exact absurd (hj.symm.trans hf) (by decide)
  | marked | fetch | view | look | find | declare | redeclare =>
    exact ⟨⟨hcode, hblanks, hpatched, hlinked, hawaited, hkeys, hquiet⟩,
      by simpa [Value.item] using hnew⟩
  | _ => exact ⟨⟨hcode, hblanks, hpatched, hlinked, hawaited, hkeys, hquiet⟩, hnew⟩

theorem Does.grows {x : EmitM α} {Q : α → List Item}
    (h : Does jumps shapes chains K x Q) (hK : ∀ b, .blank b ∉ K) (s : State) :
    Grows jumps s (after x s) := by
  obtain ⟨I, hacts, -⟩ := h s K fun _ => id
  have hall : ∀ {a}, Acts jumps shapes chains (K, s) a →
      Grows jumps s a.2 ∧ ∀ b, .blank b ∈ a.1 → s.blanks < b ∧ b ≤ a.2.blanks := by
    intro a ha
    induction ha with
    | refl => exact ⟨grows_share s s.table s.report, fun b hb => absurd hb (hK b)⟩
    | tail _ hact ih => exact ih.1.act ih.2 hact
  exact (hall hacts).1

theorem grows_perform (op : Op) (s : State) : Grows op.jumps s (after op.perform s) := by
  cases op with
  | share table report => exact grows_share s table report
  | _ => exact (does_perform rfl).grows (by simp [Value.item]) s

theorem code_prefix_run (s : State) (ops : List Op) :
    s.code.toList <+: (s.run ops).code.toList := by
  induction ops generalizing s with
  | nil => exact prefix_rfl
  | cons op ops ih => exact (grows_perform op s).code.trans (ih _)

theorem patched_suffix_run (s : State) (ops : List Op) : s.patched <:+ (s.run ops).patched := by
  induction ops generalizing s with
  | nil => exact suffix_rfl
  | cons op ops ih => exact (grows_perform op s).patched.trans (ih _)

/-! ## Blanks -/

/-- All blanks in hand have been given out, and chains share none with jumps to labels. -/
structure State.Fresh (s : State) : Prop where
  linked : ∀ b ∈ s.linked, b ≤ s.blanks
  awaited : ∀ b ∈ s.awaited, b ≤ s.blanks
  patched : ∀ b ∈ s.patched.map Prod.fst, b ≤ s.blanks
  apart : s.awaited.Disjoint s.linked

theorem State.Fresh.grows (h : s.Fresh) (hg : Grows jumps s s') : s'.Fresh where
  linked := fun b hb => (hg.linked b hb).elim
    (fun hb => (h.linked b hb).trans hg.blanks) fun hb => hb.2.2
  awaited := fun b hb => (hg.awaited b hb).elim
    (fun hb => (h.awaited b hb).trans hg.blanks) fun hb => hb.2.2
  patched := by
    intro b hb
    rcases hg.keys b hb with hb | hb | ⟨-, hb⟩ | ⟨-, hb⟩
    · exact (h.patched b hb).trans hg.blanks
    · exact (h.linked b hb).trans hg.blanks
    · exact (h.awaited b hb).trans hg.blanks
    · exact hb
  apart := by
    -- an operation hands new blanks to chains or to jumps, not to both
    intro b ha hl
    rcases hg.awaited b ha with ha | ⟨hj, ha, -⟩ <;> rcases hg.linked b hl with hl | ⟨hj', hl, -⟩
    · exact h.apart ha hl
    · exact absurd (h.awaited b ha) hl.not_ge
    · exact absurd (h.linked b hl) ha.not_ge
    · exact absurd (hj.symm.trans hj') (by decide)

theorem not_patched_run (hle : b ≤ s.blanks) (hl : b ∉ s.linked)
    (ha : b ∉ s.awaited) (hp : b ∉ s.patched.map Prod.fst) (ops : List Op) :
    b ∉ (s.run ops).patched.map Prod.fst := by
  induction ops generalizing s with
  | nil => exact hp
  | cons op ops ih =>
    have hg := grows_perform op s
    have hold : ¬ s.blanks < b := hle.not_gt
    refine ih (hle.trans hg.blanks) (fun hb => ?_) (fun hb => ?_) (fun hb => ?_)
    · exact (hg.linked b hb).elim hl fun h => hold h.2.1
    · exact (hg.awaited b hb).elim ha fun h => hold h.2.1
    · rcases hg.keys b hb with hb | hb | ⟨-, hb⟩ | ⟨hb, -⟩
      · exact hp hb
      · exact hl hb
      · exact ha hb
      · exact hold hb

theorem InStep.filter_equations (hs : InStep s) {l : Int} (hb : (b, l) ∈ s.patched) :
    (s.code.toList.filterMap Quad.equation?).filter (·.1 == (b : Int)) = [((b : Int), l)] := by
  have hmem : ((b : Int), l) ∈ s.code.toList.filterMap Quad.equation? := by
    rw [hs.equations]
    exact mem_map.2 ⟨(b, l), mem_reverse.2 hb, rfl⟩
  have hother : ∀ ps : List (Int × Int), (b : Int) ∉ ps.map Prod.fst →
      ps.filter (·.1 == (b : Int)) = [] := by
    intro ps hps
    refine filter_eq_nil_iff.2 fun p hp he => hps ?_
    exact eq_of_beq he ▸ mem_map_of_mem hp
  obtain ⟨pre, post, hsplit⟩ := append_of_mem hmem
  have hkeys := hs.nodup_keys
  rw [hsplit, map_append, map_cons, nodup_middle, nodup_cons, mem_append, not_or] at hkeys
  rw [hsplit, filter_append, hother pre hkeys.1.1, filter_cons_of_pos (by simp),
    hother post hkeys.1.2]
  rfl

/-! ## Labels -/

/-- The code has no label that has not been given out, and the last one marks the end of the code
if the emitter says so. -/
structure State.Labelled (s : State) : Prop where
  labels : ∀ n : Int, Quad.label n ∈ s.code.toList → n ≤ s.labels
  marked : s.marked = true → Marks s.code.toList s.labels []

theorem Marks.keep {body : List Quad} (h : Marks body n [])
    (hqs : ∀ q ∈ qs, keepsMark q = true) : Marks (body ++ qs) n [] := by
  obtain ⟨pre, inv, rfl, hpre, hinv⟩ := h
  exact ⟨pre, inv ++ qs, by simp, hpre, forall_mem_append.2 ⟨hinv, hqs⟩⟩

namespace State.Labelled

theorem extend (h : s.Labelled) (hcode : s'.code.toList = s.code.toList ++ qs)
    (hqs : ∀ n, Quad.label n ∉ qs) (hlabels : s'.labels = s.labels)
    (hmarked : s'.marked = true → s.marked = true ∧ ∀ q ∈ qs, keepsMark q = true) :
    s'.Labelled := by
  refine ⟨fun n hn => ?_, fun hm => ?_⟩
  · rw [hcode] at hn
    exact hlabels ▸ (mem_append.1 hn).elim (h.labels n) fun hq => absurd hq (hqs n)
  · rw [hcode, hlabels]
    exact (h.marked (hmarked hm).1).keep (hmarked hm).2

theorem push {q : Quad} (h : s.Labelled) (hcode : s'.code = s.code.push q)
    (hq : ∀ n, q ≠ .label n) (hlabels : s'.labels = s.labels)
    (hmarked : s'.marked = (s.marked && keepsMark q)) : s'.Labelled := by
  have hpush : s'.code.toList = s.code.toList ++ [q] := by rw [hcode, Array.toList_push]
  refine h.extend hpush ?_ hlabels fun hm => ?_
  · exact fun n hn => hq n (mem_singleton.1 hn).symm
  · rw [hmarked, Bool.and_eq_true] at hm
    exact ⟨hm.1, forall_mem_singleton.2 hm.2⟩

theorem label (h : s.Labelled) : State.Labelled { s with
    code := s.code.push (.label (s.labels + 1 : Nat)), labels := s.labels + 1, marked := true } := by
  have hle : ∀ n : Int, Quad.label n ∈ s.code.toList → n < (s.labels + 1 : Nat) := fun n hn =>
    Int.lt_add_one_of_le (h.labels n hn)
  refine ⟨fun n hn => ?_, fun _ => ?_⟩
  · rw [Array.toList_push, mem_append, mem_singleton] at hn
    rcases hn with hn | hn
    · exact Int.le_of_lt (hle n hn)
    · cases hn
      exact Int.le_refl _
  · rw [Array.toList_push]
    exact ⟨s.code.toList, [], rfl, fun hn => Int.lt_irrefl _ (hle _ hn), by simp⟩

end State.Labelled

theorem Act.labelled (h : Act jumps shapes chains (I, s) (I', s')) (hs : s.Labelled) :
    s'.Labelled := by
  cases h with
  | define h => exact hs.push rfl (by cases h <;> exact nofun) rfl rfl
  | emit h => exact hs.push rfl h.still.2 rfl rfl
  | label => exact hs.label
  | unmark => exact ⟨hs.labels, nofun⟩
  | branch hq => exact hs.push rfl (by rcases hq with rfl | ⟨x, a, -, rfl⟩ <;> exact nofun) rfl rfl
  | patch => exact hs.push rfl nofun rfl (Bool.and_true _).symm
  | _ => exact ⟨hs.labels, hs.marked⟩

/-! ## Intact states -/

structure State.Intact (s : State) : Prop where
  inStep : InStep s
  fresh : s.Fresh
  labelled : s.Labelled

theorem Does.intact {x : EmitM α} {Q : α → List Item}
    (h : Does jumps shapes chains K x Q) (hK : ∀ b, .blank b ∉ K) (hs : s.Intact) :
    (after x s).Intact where
  inStep := h.keeps (Act.inStep) hs.inStep
  fresh := hs.fresh.grows (h.grows hK s)
  labelled := h.keeps (Act.labelled) hs.labelled

theorem Straight.intact (h : Straight s s' qs) (hs : s.Intact) : s'.Intact := by
  have hcontrol := h.control
  simp only [State.control, Control.mk.injEq] at hcontrol
  obtain ⟨-, hlabels, hblanks, hlinks, hpatched, -, hpending, -⟩ := hcontrol
  have hnone : qs.filterMap Quad.equation? = [] := by
    refine filterMap_eq_nil_iff.2 fun q hq => ?_
    have hplain := h.plain q hq
    cases q <;> first | rfl | cases hplain
  obtain ⟨⟨hequations, honce⟩, ⟨hlinked, hawaited, hkeys, hapart⟩, hlabelled⟩ := hs
  rw [State.linked, ← hlinks] at hlinked hapart
  rw [State.awaited, ← hpending] at hawaited hapart
  rw [← hpatched] at honce hkeys
  rw [← hblanks] at hlinked hawaited hkeys
  refine ⟨⟨?_, honce⟩, ⟨hlinked, hawaited, hkeys, hapart⟩,
    hlabelled.extend h.code (fun n hn => by cases h.plain _ hn) hlabels h.marked⟩
  rw [h.code, filterMap_append, hnone, append_nil, hpatched, hequations]

theorem State.Fresh.run (h : s.Fresh) (ops : List Op) : (s.run ops).Fresh := by
  induction ops generalizing s with
  | nil => exact h
  | cons op ops ih => exact ih (h.grows (grows_perform op s))

theorem Reachable.intact (h : Reachable s) : s.Intact := by
  obtain ⟨settings, table, report, ops, rfl⟩ := h
  have hfresh : (State.new settings table report).Fresh := by
    refine ⟨?_, ?_, ?_, ?_⟩ <;> simp [State.new, State.linked, State.awaited]
  have hlabelled : (State.new settings table report).Labelled := by
    refine ⟨?_, ?_⟩ <;> simp [State.new]
  exact ⟨(inStep_new settings table report).run ops, hfresh.run ops,
    run_keeps Act.labelled (fun _ _ _ h => ⟨h.labels, h.marked⟩) hlabelled ops⟩

theorem mark_eq (h : s.Labelled) : ∃ l code seg,
    mark s = .ok l { s with labels := l, code, marked := true } ∧
    code.toList = s.code.toList ++ seg ∧ (∀ q ∈ seg, keepsMark q = true) ∧
    Marks code.toList l [] := by
  cases hm : s.marked with
  | true =>
    have hrun : mark s = .ok s.labels s := by
      show (if s.marked = true then pure s.labels else _ : EmitM Nat) s = _
      rw [hm]
      rfl
    refine ⟨s.labels, s.code, [], ?_, by simp, by simp, h.marked hm⟩
    rw [hrun, ← hm]
  | false =>
    refine ⟨s.labels + 1, s.code.push (.label (s.labels + 1 : Nat)), [.label (s.labels + 1 : Nat)],
      ?_, by simp, by simp [keepsMark], h.label.marked rfl⟩
    show (if s.marked = true then pure s.labels else _ : EmitM Nat) s = _
    rw [hm]
    rfl

theorem Marks.extend {code code' : List Quad} (h : Marks code n [])
    (hp : code <+: code') : Marks code' n (code'.drop code.length) := by
  obtain ⟨rest, rfl⟩ := hp
  simpa using h.append rest

end Quadruple.Emit
