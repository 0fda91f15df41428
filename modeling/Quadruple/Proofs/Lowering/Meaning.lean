import Quadruple.Proofs.Lowering.Simulation

/-!
# Lowered functions run like their graphs

From one instruction to a block, from a block to a run. Both machines leave a block in the same
way, and since a label of the function names one block, they go on with the same one.

Main statement: `lower_same_outcome`. When a graph was built and lowering it succeeds, a function of
integer code and its image return the same word with the same contents of all variables, or both
run forever, from every memory and for all arguments, as long as the indices stay inside.
-/

namespace Quadruple.Lowering

open List
open Quadruple.Flow (Var Func Block Point)
open Ir.Machine (Datum execAll execAll_append Exit execBlock_append Memory execAll_cons globalSize)

variable {globals ds : List Decl} {f : Func} {B : Temp → Option Binding} {p : Point}
  {s : Flow.Machine.State} {st : Ir.Machine.State} {i : Nat} {b : Block} {post pre : List Quad}
  {q : Quad} {args : List Word} {prog : Ir.Program} {h : Ir.Func}

/-! ## Points of a block -/

theorem quadAt?_of_append (hb : f.blocks[i]? = some b) (hquads : b.quads = pre ++ q :: post) :
    f.quadAt? ⟨i, pre.length⟩ = some q := by
  simp [Func.quadAt?, hb, hquads]

theorem quadAt?_end (hb : f.blocks[i]? = some b) : f.quadAt? ⟨i, b.quads.length⟩ = none := by
  simp [Func.quadAt?, hb]

theorem edge_of_append (hb : f.blocks[i]? = some b) (hquads : b.quads = pre ++ q :: post) :
    f.Edge ⟨i, pre.length⟩ ⟨i, (pre ++ [q]).length⟩ := by
  rw [length_append, length_singleton]
  exact .next hb (by simp [hquads])

theorem Rel.cross (h : Rel globals f B p s st) (hp : f.quadAt? p = none) {p' : Point}
    (he : f.Edge p p') : Rel globals f B p' s st := by
  refine ⟨h.reached.edge he, h.cells, h.slots, h.sizes, fun t b hb hscope => ?_⟩
  obtain ⟨d, hd, hdom, hne⟩ := hscope
  refine h.temps t b hb ⟨d, hd, hdom.of_edge he (Ne.symm hne), ?_⟩
  rintro rfl
  obtain ⟨q, hq, -⟩ := hd
  rw [hp] at hq
  cases hq

theorem Rel.fill (hB : ∀ t b, B t = some b → Fits globals f t b) (h : Rel globals f B p s st)
    (k : Nat) (d : Datum) : Rel globals f B p s (st.setReg (.temp "noop" k) d) := by
  refine ⟨h.reached, h.cells, fun name e he => ?_, h.sizes, fun t b hb hscope => ?_⟩
  · have hne : Ir.Value.temp name (-1) ≠ .temp "noop" k := by
      intro hv
      obtain ⟨-, hid⟩ := Ir.Value.temp.inj hv
      omega
    exact (if_neg hne).trans (h.slots name e he)
  · obtain ⟨v, hv, hc⟩ := h.temps t b hb hscope
    have hop : (st.setReg (.temp "noop" k) d).operand b.val = st.operand b.val :=
      operand_setReg_of_ne ((hB t b hb).ne_auxiliary (by decide) k)
    refine ⟨v, hv, ?_⟩
    cases v with
    | word w =>
      rw [Computes, Ir.Machine.State.word?, Ir.Machine.State.number?, hop]
      exact hc
    | cell x i =>
      rw [Computes, Ir.Machine.State.addr?, hop]
      exact hc

/-! ## Blocks -/

variable {segs : List (List Ir.Instr)} {d : Decl} {name : String}

theorem Rel.inner (hf : f.IntegerCode globals) (hB : ∀ t b, B t = some b → Fits globals f t b)
    (hb : f.blocks[i]? = some b) {qs : List Quad}
    (hsegs : Forall₂ (Became (f.decl? globals) B) qs segs) (hqs : ∀ q ∈ qs, q.endsBlock = false)
    (hquads : b.quads = pre ++ (qs ++ post)) (h : Rel globals f B ⟨i, pre.length⟩ s st) :
    Flow.Machine.execBlock (f.wordCount globals) b s (qs ++ post) = .error .outside ∨
      ∃ s' st', Flow.Machine.execBlock (f.wordCount globals) b s (qs ++ post) =
          Flow.Machine.execBlock (f.wordCount globals) b s' post ∧
        execAll st segs.flatten = some st' ∧
        Rel globals f B ⟨i, (pre ++ qs).length⟩ s' st' := by
  induction hsegs generalizing pre s st with
  | nil => exact .inr ⟨s, st, rfl, rfl, by simpa using h⟩
  | @cons q is qs segs hq _ ih =>
    have hends := hqs q mem_cons_self
    rw [cons_append, Flow.Machine.execBlock, hends]
    rw [cons_append] at hquads
    rcases h.step hf hB (quadAt?_of_append hb hquads) hends (edge_of_append hb hquads) hq with
      hout | ⟨s1, st1, hs1, hst1, h1⟩
    · rw [hout]
      exact .inl rfl
    · rcases ih (fun q' hq' => hqs q' (mem_cons_of_mem _ hq')) (by simpa using hquads) h1 with
        hout | ⟨s2, st2, hs2, hst2, h2⟩
      · rw [hs1]
        exact .inl hout
      · refine .inr ⟨s2, st2, ?_, ?_, by simpa using h2⟩
        · rw [hs1]
          exact hs2
        · rw [flatten_cons, execAll_append, hst1]
          exact hst2

inductive Exits (globals : List Decl) (f : Func) (B : Temp → Option Binding) :
    Flow.Machine.Status → Ir.Machine.Exit → Prop
  | goto {j : Nat} {b : Block} {s : Flow.Machine.State} {st : Ir.Machine.State} : 0 < j →
      f.blocks[j]? = some b → Rel globals f B ⟨j, 0⟩ s st →
      Exits globals f B (.before j s) (.goto b.label st)
  | returned {w : Word} {s : Flow.Machine.State} {st : Ir.Machine.State} :
      Agree s.cells st.mem → Exits globals f B (.returned w s) (.returned w st)

variable {inner : List Quad}

section

variable (hf : f.IntegerCode globals) (hB : ∀ t b, B t = some b → Fits globals f t b)
  (hb : f.blocks[i]? = some b)
include hf hB hb

theorem Rel.transfer (hquads : b.quads = inner ++ [q]) (hdst : q.dst? = none)
    (h : Rel globals f B ⟨i, inner.length⟩ s st) {j : Nat} (hj : j ∈ b.succs) :
     Rel globals f B ⟨j, 0⟩ s st := by
  have hend : Rel globals f B ⟨i, b.quads.length⟩ s st := by
    rw [hquads]
    refine h.advance hf (quadAt?_of_append hb hquads) hB (edge_of_append hb hquads) h.cells rfl
      (fun _ _ => rfl) (fun _ _ => rfl) fun t _ ht => ?_
    rw [hdst] at ht
    cases ht
  exact hend.cross (quadAt?_end hb) (.succ hb hj)

theorem Rel.leave (hend : f.BlockEnd i b inner) (hquads : b.quads = inner ++ [q])
    {is : List Ir.Instr} (his : Became (f.decl? globals) B q is)
    (h : Rel globals f B ⟨i, inner.length⟩ s st) :
    ∃ status exit, Flow.Machine.leave b s q = .ok status ∧
      Ir.Machine.execBlock st is = some exit ∧ Exits globals f B status exit := by
  obtain ⟨new, ht, -, hown⟩ := his
  have hq := quadAt?_of_append hb hquads
  cases hend with
  | @branch c n m j k hb' hsuccs hj hk =>
    obtain rfl : q = .branch c (.label n) (.label m) := by
      simpa using append_cancel_left (hquads.symm.trans hb')
    obtain ⟨bj, hbj, hlj⟩ := hj.block
    obtain ⟨bk, hbk, hlk⟩ := hk.block
    cases ht with
    | @branch _ _ _ v hv =>
      obtain ⟨w, hw, hc⟩ := h.word hf hq hB hown (by simp [Quad.words]) hv
      have hleave : Flow.Machine.leave b s (.branch c (.label n) (.label m)) =
          .ok (.before (if w ≠ 0 then j else k) s) := by
        rw [Flow.Machine.leave, hw, hsuccs]
        rfl
      have hexec : Ir.Machine.execBlock st [{ op := .jnz, args := [v.val, blockLabel (.label n),
          blockLabel (.label m)] }] = some (.goto (if w ≠ 0 then bj.label else bk.label) st) := by
        rw [Ir.Machine.execBlock_of_terminator rfl]
        simp only [Ir.Machine.leave, blockLabel, Target.number, hc.2.1, hlj, hlk, Option.map_some]
      refine ⟨_, _, hleave, hexec, ?_⟩
      by_cases hw0 : w ≠ 0
      · rw [if_pos hw0, if_pos hw0]
        exact .goto hj.1 hbj (h.transfer hf hB hb hquads rfl (by simp [hsuccs]))
      · rw [if_neg hw0, if_neg hw0]
        exact .goto hk.1 hbk (h.transfer hf hB hb hquads rfl (by simp [hsuccs]))
  | @jump n j hb' hsuccs hj =>
    obtain rfl : q = .jump (.label n) := by simpa using append_cancel_left (hquads.symm.trans hb')
    obtain ⟨bj, hbj, hlj⟩ := hj.block
    cases ht
    refine ⟨.before j s, .goto bj.label st, ?_, ?_,
      .goto hj.1 hbj (h.transfer hf hB hb hquads rfl (by simp [hsuccs]))⟩
    · rw [Flow.Machine.leave, hsuccs]
    · rw [hlj]
      rfl
  | @ret v tag hb' hsuccs =>
    obtain rfl : q = .ret v tag := by simpa using append_cancel_left (hquads.symm.trans hb')
    cases ht with
    | @ret t _ v hv =>
      obtain ⟨w, hw, hc⟩ := h.word hf hq hB hown (by simp [Quad.words]) hv
      refine ⟨.returned w s, .returned w st, ?_, ?_, .returned h.cells⟩
      · rw [Flow.Machine.leave, hw]
        rfl
      · rw [Ir.Machine.execBlock_of_terminator rfl]
        simp [Ir.Machine.leave, hc.2.1]
    | retNone => exact ⟨.returned 0 s, .returned 0 st, rfl, rfl, .returned h.cells⟩
  | done hb' hsuccs =>
    obtain rfl : q = .funcEnd := by simpa using append_cancel_left (hquads.symm.trans hb')
    cases ht
    exact ⟨.returned 0 s, .returned 0 st, rfl, rfl, .returned h.cells⟩
  | fall hb' =>
    rw [hquads] at hb'
    exact absurd (congrArg length hb') (by simp)

end

theorem Rel.fall (hB : ∀ t b, B t = some b → Fits globals f t b) (hb : f.blocks[i]? = some b)
    (hend : f.BlockEnd i b b.quads) {next : Block} (hnext : b.down.bind (f.blocks[·]?) = some next)
    {fill : List Ir.Instr} (hfill : fill = [] ∨ ∃ k, fill = [filler k])
    (h : Rel globals f B ⟨i, b.quads.length⟩ s st) :
    ∃ status exit, Flow.Machine.execBlock (f.wordCount globals) b s [] = .ok status ∧
      Ir.Machine.execBlock st (fill ++ [{ op := .jmp, args := [.label next.label] }]) = some exit ∧
      Exits globals f B status exit := by
  obtain ⟨hdown, hsuccs⟩ : b.down = some (i + 1) ∧ b.succs = [i + 1] := by
    cases hend with
    | branch hq | jump hq | ret hq | done hq => exact absurd (congrArg length hq) (by simp)
    | fall _ hdown hsuccs _ => exact ⟨hdown, hsuccs⟩
  rw [hdown] at hnext
  have hcross : ∀ {st'}, Rel globals f B ⟨i, b.quads.length⟩ s st' →
      Exits globals f B (.before (i + 1) s) (.goto next.label st') := fun h' =>
    .goto (Nat.succ_pos i) hnext (h'.cross (quadAt?_end hb) (.succ hb (by simp [hsuccs])))
  have hexec : Flow.Machine.execBlock (f.wordCount globals) b s [] = .ok (.before (i + 1) s) := by
    rw [Flow.Machine.execBlock, hsuccs]
  rcases hfill with rfl | ⟨k, rfl⟩
  · exact ⟨_, _, hexec, rfl, hcross h⟩
  · exact ⟨_, _, hexec, rfl, hcross (h.fill hB k (.word 0))⟩

theorem Rel.block (hf : f.IntegerCode globals) (hB : ∀ t b, B t = some b → Fits globals f t b)
    (hbuilt : f.Built) (hb : f.blocks[i]? = some b) {tail : List Ir.Instr}
    (hsegs : Forall₂ (Became (f.decl? globals) B) b.quads segs) (htail : Tail f b tail)
    (h : Rel globals f B ⟨i, 0⟩ s st) :
    Flow.Machine.execBlock (f.wordCount globals) b s b.quads = .error .outside ∨
      ∃ status exit, Flow.Machine.execBlock (f.wordCount globals) b s b.quads = .ok status ∧
        Ir.Machine.execBlock st (segs.flatten ++ tail) = some exit ∧
        Exits globals f B status exit := by
  obtain ⟨inner, hinner, hend⟩ := hbuilt.block i b hb
  cases htail with
  | @transfer inner' q hquads _ hends =>
    obtain rfl : inner' = inner := by
      cases hend with
      | branch hq | jump hq | ret hq | done hq => exact (append_inj' (hquads.symm.trans hq) rfl).1
      | fall hq =>
        -- all instructions of such a block are inner ones
        rw [hquads] at hq
        have hmem : q ∈ inner := by simp [← hq]
        rw [hinner q hmem] at hends
        cases hends
    rw [hquads] at hsegs
    obtain ⟨segs1, is, hsegs1, his, rfl⟩ := exists_of_forall₂_concat hsegs
    rw [hquads]
    have hwhole : b.quads = [] ++ (inner' ++ [q]) := hquads
    rcases Rel.inner hf hB hb hsegs1 hinner hwhole h with hout | ⟨s1, st1, hs1, hst1, h1⟩
    · exact .inl hout
    · obtain ⟨status, exit, hleave, hexit, hrel⟩ := h1.leave hf hB hb hend hquads his
      refine .inr ⟨status, exit, ?_, ?_, hrel⟩
      · rw [hs1, Flow.Machine.execBlock, if_pos hends]
        exact hleave
      · rw [flatten_append, append_assoc,
          execBlock_append (plain_of_inner hsegs1 hinner), hst1]
        simpa using hexit
  | @next fill next hquads hnext _ hfill =>
    obtain rfl : b.quads = inner := by
      cases hend with
      | branch hq | jump hq | ret hq | done hq =>
        have := hquads _ (hq ▸ mem_append_right _ (mem_singleton_self _))
        cases this
      | fall hq => exact hq
    have hwhole : b.quads = [] ++ (b.quads ++ []) := by simp
    rcases Rel.inner hf hB hb hsegs hinner hwhole h with hout | ⟨s1, st1, hs1, hst1, h1⟩
    · rw [append_nil] at hout
      exact .inl hout
    · obtain ⟨status, exit, hfall, hexit, hrel⟩ := h1.fall hB hb hend hnext hfill
      rw [append_nil] at hs1
      refine .inr ⟨status, exit, hs1.trans hfall, ?_, hrel⟩
      rw [execBlock_append (plain_of_inner hsegs hinner), hst1]
      exact hexit

/-! ## The opening -/

structure Laid (ds : List Decl) (st st' : Ir.Machine.State) : Prop where
  slots : ∀ d ∈ ds, st'.regs (.temp d.name (-1)) = some (.addr (.temp d.name (-1)) 0) ∧
    d.width ≤ st'.size (.temp d.name (-1))
  others : ∀ v, (∀ d ∈ ds, v ≠ .temp d.name (-1)) → st'.regs v = st.regs v ∧ st'.size v = st.size v

theorem Laid.refl (st : Ir.Machine.State) : Laid [] st st := ⟨nofun, fun _ _ => ⟨rfl, rfl⟩⟩

theorem Laid.cons {st' : Ir.Machine.State} {n : Int} (hn : d.width ≤ n) {m : Memory}
    (hd : d.name ∉ ds.map (·.name))
    (h : Laid ds { st.reserve (.temp d.name (-1)) n with mem := m } st') :
    Laid (d :: ds) st st' := by
  have hnew : ∀ e ∈ ds, Ir.Value.temp d.name (-1) ≠ .temp e.name (-1) := fun e he hv =>
    hd ((Ir.Value.temp.inj hv).1 ▸ mem_map_of_mem he)
  refine ⟨fun e he => ?_, fun v hv => ?_⟩
  · rcases mem_cons.1 he with rfl | he
    · obtain ⟨hreg, hsize⟩ := h.others _ hnew
      rw [hreg, hsize]
      exact ⟨if_pos rfl, by simpa [Ir.Machine.State.reserve] using hn⟩
    · exact h.slots e he
  · obtain ⟨hreg, hsize⟩ := h.others v fun e he => hv e (mem_cons_of_mem _ he)
    have hne := hv d mem_cons_self
    rw [hreg, hsize]
    exact ⟨if_neg hne, if_neg hne⟩

theorem exec_slotInstr (d : Decl) :
    Ir.Machine.exec st (slotInstr d) =
      some (st.reserve (.temp d.name (-1)) (max d.width d.tag.base.size)) := rfl

theorem exec_formals {k : Nat} {cells : Flow.Machine.Cells}
    (hint : ∀ d ∈ ds, d.tag = .int ∧ d.width = 4) (hnames : (ds.map (·.name)).Nodup)
    (hlen : args.length = ds.length) (hargs : ∀ (j : Nat) (w : Word), args[j]? = some w →
      st.regs (.temp "arg" (k + j : Nat)) = some (.word w)) (hcells : Agree cells st.mem) :
    ∃ st', execAll st ((ds.zipIdx k).flatMap formalInstrs) = some st' ∧
      Agree (Flow.Machine.enter cells ds args) st'.mem ∧ Laid ds st st' := by
  induction ds generalizing args k cells st with
  | nil => exact ⟨st, rfl, hcells, .refl st⟩
  | cons d ds ih =>
    cases args with
    | nil => cases hlen
    | cons w args =>
      obtain ⟨htag, hwidth⟩ := hint d mem_cons_self
      obtain ⟨hd, hnames⟩ := nodup_cons.1 hnames
      let st1 := st.reserve (.temp d.name (-1)) (max d.width d.tag.base.size)
      have hsize : max d.width d.tag.base.size = 4 := by
        rw [htag, hwidth]
        decide
      have hkeep : ∀ j : Nat, st1.regs (.temp "arg" j) = st.regs (.temp "arg" j) := by
        refine fun j => if_neg fun hv => ?_
        obtain ⟨-, hid⟩ := Ir.Value.temp.inj hv
        omega
      have haddr : st1.wordAddr? (.temp d.name (-1)) = some (place (.slot d.name), 4 * 0) := by
        simp [st1, Ir.Machine.State.wordAddr?, Ir.Machine.State.addr?, Ir.Machine.State.operand,
          Ir.Machine.State.reserve, Ir.Machine.State.setReg, Datum.addr?, hsize, place]
      have hword : st1.word? (.temp "arg" k) = some w := by
        have harg := hargs 0 w rfl
        rw [add_zero] at harg
        rw [Ir.Machine.State.word?, Ir.Machine.State.operand, hkeep k, harg]
        rfl
      have hty : machineTy d.tag = .word := by
        rw [htag]
        decide
      have hstore : Ir.Machine.exec st1 (argInstr (d, k)) =
          some (st1.setWord (place (.slot d.name)) (4 * 0) w) := by
        simp [Ir.Machine.exec, argInstr, hty, haddr, hword]
      let st2 := st1.setWord (place (.slot d.name)) (4 * 0) w
      have hargs2 : ∀ (j : Nat) (w' : Word), args[j]? = some w' →
          st2.regs (.temp "arg" ((k + 1 + j : Nat) : Int)) = some (.word w') := by
        intro j w' hj
        have h := hargs (j + 1) w' (by simpa using hj)
        rw [← hkeep, show k + (j + 1) = k + 1 + j by omega] at h
        exact h
      obtain ⟨st', hexec, hcells', hlaid⟩ := ih (fun e he => hint e (mem_cons_of_mem _ he))
        hnames (by simpa using hlen) hargs2 (hcells.set (.slot d.name) 0 w)
      refine ⟨st', ?_, hcells', .cons (Int.le_max_left _ _) hd hlaid⟩
      rw [zipIdx_cons, flatMap_cons, formalInstrs, execAll_append,
        execAll_cons, exec_slotInstr]
      simp only [Option.bind_some, execAll_cons, Ir.Machine.execAll_nil]
      rw [hstore]
      exact hexec

theorem exec_locals (hnames : (ds.map (·.name)).Nodup) (st : Ir.Machine.State) :
    ∃ st', execAll st (ds.map slotInstr) = some st' ∧ st'.mem = st.mem ∧
      Laid ds st st' := by
  induction ds generalizing st with
  | nil => exact ⟨st, rfl, rfl, .refl st⟩
  | cons d ds ih =>
    obtain ⟨hd, hnames⟩ := nodup_cons.1 hnames
    obtain ⟨st', hexec, hmem, hlaid⟩ :=
      ih hnames (st.reserve (.temp d.name (-1)) (max d.width d.tag.base.size))
    refine ⟨st', ?_, hmem, .cons (Int.le_max_left _ _) hd hlaid⟩
    rw [map_cons, execAll_cons, exec_slotInstr]
    exact hexec

theorem Laid.append {es : List Decl} {st1 st2 : Ir.Machine.State}
    (hn : ((ds ++ es).map (·.name)).Nodup) (h : Laid ds st st1) (h' : Laid es st1 st2) :
    Laid (ds ++ es) st st2 := by
  refine ⟨fun d hd => ?_, fun v hv => ?_⟩
  · rcases mem_append.1 hd with hd | hd
    · have hne : ∀ e ∈ es, Ir.Value.temp d.name (-1) ≠ .temp e.name (-1) := by
        intro e he hv
        rw [map_append] at hn
        exact (nodup_append.1 hn).2.2 _ (mem_map_of_mem hd) _ (mem_map_of_mem he)
          (Ir.Value.temp.inj hv).1
      obtain ⟨hreg, hsize⟩ := h'.others _ hne
      rw [hreg, hsize]
      exact h.slots d hd
    · exact h'.slots d hd
  · obtain ⟨hreg, hsize⟩ := h.others v fun d hd => hv d (mem_append_left _ hd)
    obtain ⟨hreg', hsize'⟩ := h'.others v fun d hd => hv d (mem_append_right _ hd)
    exact ⟨hreg'.trans hreg, hsize'.trans hsize⟩

theorem lookup_params {k j : Nat} (hlen : args.length = ds.length) :
    ((((ds.zipIdx k).map formalParam).map (·.val)).zip args).lookup (.temp "arg" (k + j : Nat)) =
      args[j]? := by
  induction ds generalizing args k j with
  | nil => cases args <;> simp_all
  | cons d ds ih =>
    cases args with
    | nil => cases hlen
    | cons w args =>
      rw [zipIdx_cons, map_cons, map_cons, zip_cons_cons, lookup_cons]
      cases j with
      | zero => simp [formalParam]
      | succ j =>
        have hne : (Ir.Value.temp "arg" (k + (j + 1) : Nat) == (formalParam (d, k)).val) = false := by
          rw [beq_eq_false_iff_ne]
          intro hv
          obtain ⟨-, hid⟩ := Ir.Value.temp.inj hv
          omega
        rw [hne, show k + (j + 1) = k + 1 + j by omega, ih (by simpa using hlen)]
        rfl

theorem wordCount_le_globalSize (hg : prog.globals = globals.map globalData)
    (hd : f.decl? globals (.global name) = some d) :
    4 * f.wordCount globals (.global name) ≤ globalSize prog (.global name) := by
  have hfind : prog.globals.find? (·.name == name) = some (globalData d) := by
    rw [hg, find?_map]
    exact congrArg (Option.map globalData) hd
  simp only [Func.wordCount, hd, globalSize, hfind, globalData, map_cons,
    map_nil, sum_cons, sum_nil, Ir.Item.size, Ir.Ty.size]
  split <;> omega

def cellsOf (m : Ir.Machine.Memory) : Flow.Machine.Cells := fun x i => m.word (place x) (4 * i)

theorem exec_opening (hf : f.IntegerCode globals) (hg : prog.globals = globals.map globalData)
    (hlen : args.length = f.formals.length) (m : Memory)
    (regs : Ir.Value → Option Datum)
    (hargs : ∀ (j : Nat) (w : Word), args[j]? = some w → regs (.temp "arg" j) = some (.word w)) :
    ∃ st, execAll ⟨regs, globalSize prog, m⟩ (opening f) = some st ∧
      Rel globals f B .entry ⟨fun _ => none, Flow.Machine.enter (cellsOf m) f.formals args⟩ st := by
  have hnames := hf.names
  rw [map_append] at hnames
  let st0 : Ir.Machine.State := ⟨regs, globalSize prog, m⟩
  have hargs0 : ∀ (j : Nat) (w : Word), args[j]? = some w →
      st0.regs (.temp "arg" ((0 + j : Nat) : Int)) = some (.word w) := by
    intro j w hj
    simpa using hargs j w hj
  have hagree : Agree (cellsOf m) st0.mem := fun _ _ => rfl
  obtain ⟨st1, hexec1, hcells, hlaid1⟩ :=
    exec_formals hf.formals (nodup_append.1 hnames).1 hlen hargs0 hagree
  obtain ⟨st2, hexec2, hmem, hlaid2⟩ := exec_locals (nodup_append.1 hnames).2.1 st1
  have hlaid := hlaid1.append hf.names hlaid2
  refine ⟨st2, ?_, .entry id, hmem ▸ hcells, fun name d hd => ?_, fun x d hd => ?_,
    fun t b _ hscope => ?_⟩
  · rw [opening, execAll_append, hexec1]
    exact hexec2
  · obtain rfl : d.name = name := by simpa using find?_some hd
    exact (hlaid.slots d (mem_of_find?_eq_some hd)).1
  · cases x with
    | global name =>
      rw [show place (.global name) = .global name from rfl, (hlaid.others _ (by simp)).2]
      exact wordCount_le_globalSize hg hd
    | slot name =>
      obtain rfl : d.name = name := by simpa using find?_some hd
      have hsize := (hlaid.slots d (mem_of_find?_eq_some hd)).2
      simp only [Func.wordCount, hd, place]
      omega
  · -- no instruction comes before the entry
    obtain ⟨d, -, hdom, hne⟩ := hscope
    exact absurd (.entry fun he => hne he.symm) hdom

/-! ## Runs -/

theorem Image.findIdx?_label (hf : f.IntegerCode globals) (hbuilt : f.Built)
    (himg : Image globals f B h) (hb : f.blocks[i]? = some b) :
    h.blocks.findIdx? (·.label == b.label) = some i := by
  have hlabel : ∀ (j : Nat) (hj : j < h.blocks.length), ∃ c, f.blocks[j]? = some c ∧
      h.blocks[j].label = c.label := by
    intro j hj
    have hj' : j < f.blocks.length := himg.length ▸ hj
    obtain ⟨h', hh', himg'⟩ := himg.block (getElem?_eq_getElem hj')
    cases (getElem?_eq_getElem hj).symm.trans hh'
    exact ⟨_, getElem?_eq_getElem hj', himg'.label⟩
  have hi : i < h.blocks.length := himg.length ▸ (List.getElem?_eq_some_iff.1 hb).1
  refine findIdx?_eq_some_iff_getElem.2 ⟨hi, ?_, fun j hj => ?_⟩
  · obtain ⟨c, hc, hl⟩ := hlabel i hi
    cases hb.symm.trans hc
    exact beq_iff_eq.2 hl
  · obtain ⟨c, hc, hl⟩ := hlabel j (hj.trans hi)
    rw [hl, beq_iff_eq]
    intro heq
    rcases hbuilt.labels j i c b hc hb heq with hji | ⟨n, hn⟩
    · omega
    · exact absurd (hf.labels n j i c b hc hb hn (heq ▸ hn)) (by omega)

inductive Follows : Except Flow.Machine.Trouble Flow.Machine.Status →
    Option Ir.Machine.Status → Prop
  | outside {r : Option Ir.Machine.Status} : Follows (.error .outside) r
  | before {i : Nat} {s : Flow.Machine.State} {st : Ir.Machine.State} :
      Follows (.ok (.before i s)) (some (.before i st))
  | returned {w : Word} {s : Flow.Machine.State} {st : Ir.Machine.State} :
      Agree s.cells st.mem → Follows (.ok (.returned w s)) (some (.returned w st))

section

variable (hf : f.IntegerCode globals) (hbuilt : f.Built) (himg : Image globals f B h)
include hf hbuilt himg

/-- Runs that follow each other behind every block that is left for `n` blocks follow each other
behind an exit. -/
theorem Exits.follows {n : Nat} {status : Flow.Machine.Status} {exit : Exit}
    (hrun : ∀ {j : Nat} {c : Block} {s : Flow.Machine.State} {st : Ir.Machine.State}, 0 < j →
      f.blocks[j]? = some c → Rel globals f B ⟨j, 0⟩ s st →
      Follows (Flow.Machine.run (f.wordCount globals) f n (.before j s))
        (Ir.Machine.run h n (.before j st)))
    (hexit : Exits globals f B status exit) :
    Follows (Flow.Machine.run (f.wordCount globals) f n status)
      ((exit.follow h).bind (Ir.Machine.run h n)) := by
  cases hexit with
  | goto hj hc hrel =>
    rw [Exit.follow, himg.findIdx?_label hf hbuilt hc]
    exact hrun hj hc hrel
  | returned hcells =>
    rw [Flow.Machine.run_returned, Exit.follow, Option.bind_some,
      Ir.Machine.run_returned]
    exact .returned hcells

theorem Rel.run (hi : 0 < i) (hb : f.blocks[i]? = some b) (hrel : Rel globals f B ⟨i, 0⟩ s st)
    (n : Nat) : Follows (Flow.Machine.run (f.wordCount globals) f n (.before i s))
      (Ir.Machine.run h n (.before i st)) := by
  induction n generalizing i b s st with
  | zero => exact .before
  | succ n ih =>
    obtain ⟨h', hh', himg'⟩ := himg.block hb
    rw [if_neg hi.ne'] at himg'
    obtain ⟨segs, tail, hsegs, hinstrs, htail⟩ := himg'.instrs
    rw [Flow.Machine.run_succ hb, Ir.Machine.run_succ hh', hinstrs, nil_append]
    rcases hrel.block hf himg.fits hbuilt hb hsegs htail with hout | ⟨status, exit, hs, hst, hexit⟩
    · rw [hout]
      exact .outside
    · rw [hs, hst]
      exact hexit.follows hf hbuilt himg ih

theorem follows_start (hg : prog.globals = globals.map globalData)
    (hlen : args.length = f.formals.length) (m : Memory) (n : Nat) :
    Follows (Flow.Machine.run (f.wordCount globals) f n (Flow.Machine.start f args (cellsOf m)))
      (Ir.Machine.run h n (Ir.Machine.start prog h args m)) := by
  cases n with
  | zero => exact .before
  | succ n =>
    obtain ⟨b, hb, -⟩ := hbuilt.entry
    obtain ⟨h', hh', himg'⟩ := himg.block hb
    obtain ⟨segs, tail, hsegs, hinstrs, htail⟩ := himg'.instrs
    rw [if_pos rfl] at hinstrs
    obtain ⟨st, hopen, hrel⟩ := exec_opening (B := B) hf hg hlen m
      (fun v => (((h.params.map (·.val)).zip args).lookup v).map .word) fun j w hj => by
        have hlook := lookup_params (k := 0) (j := j) hlen
        rw [zero_add] at hlook
        rw [himg.params, hlook, hj]
        rfl
    rw [Flow.Machine.start, Ir.Machine.start, Flow.Machine.run_succ hb, Ir.Machine.run_succ hh',
      hinstrs, execBlock_append (opening_plain f), hopen]
    rcases hrel.block hf himg.fits hbuilt hb hsegs htail with hout | ⟨status, exit, hs, hst, hexit⟩
    · rw [hout]
      exact .outside
    · rw [hs, Option.bind_some, hst]
      exact hexit.follows hf hbuilt himg fun hj hc hrel' => hrel'.run hf hbuilt himg hj hc n

end

/-- The two runs end with the same word and the same contents of all variables, or both go on
forever. -/
def SameOutcome (count : Var → Int) (f : Func) (h : Ir.Func) (a : Flow.Machine.Status)
    (c : Ir.Machine.Status) : Prop :=
  (∃ n w s st, Flow.Machine.run count f n a = .ok (.returned w s) ∧
      Ir.Machine.run h n c = some (.returned w st) ∧ Agree s.cells st.mem) ∨
    ∀ n, (∃ i s, Flow.Machine.run count f n a = .ok (.before i s)) ∧
      ∃ i st, Ir.Machine.run h n c = some (.before i st)

theorem sameOutcome_of_follows {count : Var → Int} {a : Flow.Machine.Status} {c : Ir.Machine.Status}
    (hfollows : ∀ n, Follows (Flow.Machine.run count f n a) (Ir.Machine.run h n c))
    (hinside : ∀ n, Flow.Machine.run count f n a ≠ .error .outside) :
    SameOutcome count f h a c := by
  by_cases hend : ∃ n w s, Flow.Machine.run count f n a = .ok (.returned w s)
  · obtain ⟨n, w, s, hs⟩ := hend
    have hn := hfollows n
    rw [hs] at hn
    generalize hr : Ir.Machine.run h n c = r at hn
    cases hn with
    | returned hcells => exact .inl ⟨n, w, s, _, hs, hr, hcells⟩
  · refine .inr fun n => ?_
    have hn := hfollows n
    have hin := hinside n
    generalize hs : Flow.Machine.run count f n a = x at hn hin
    generalize Ir.Machine.run h n c = r at hn
    cases hn with
    | outside => exact absurd rfl hin
    | before => exact ⟨⟨_, _, rfl⟩, _, _, rfl⟩
    | returned => exact absurd ⟨n, _, _, hs⟩ hend

def countdown : List Quad :=
  [.globalDecl ⟨"a", Tag.int.union .array, 8⟩, .funcBegin "f" .int, .formalDecl ⟨"n", .int, 4⟩,
    .label 1, .ref ⟨1⟩ .param "n" 0, .load ⟨2⟩ ⟨1⟩ .int, .condJump ⟨2⟩ (.label 2), .jump (.blank 1),
    .label 2, .ref ⟨3⟩ .global "a" 0, .const ⟨4⟩ "1" .int, .index ⟨5⟩ ⟨3⟩ ⟨4⟩ .int,
    .ref ⟨6⟩ .param "n" 0, .load ⟨7⟩ ⟨6⟩ .int, .store ⟨8⟩ ⟨5⟩ ⟨7⟩ .int,
    .binary .arith ⟨9⟩ "-" ⟨7⟩ ⟨4⟩ .int, .store ⟨10⟩ ⟨6⟩ ⟨9⟩ .int, .jump (.label 1),
    .label 3, .patch 1 3, .ret (some ⟨2⟩) .int, .funcEnd]

def countdownFunc : Func where
  name := "f"
  tag := .int
  formals := [⟨"n", .int, 4⟩]
  locals := []
  blocks :=
    [⟨"entry", [], [1], some 1⟩,
      ⟨"L1", [.ref ⟨1⟩ .param "n" 0, .load ⟨2⟩ ⟨1⟩ .int, .branch ⟨2⟩ (.label 2) (.label 3)], [2, 3],
        some 2⟩,
      ⟨"L2", [.ref ⟨3⟩ .global "a" 0, .const ⟨4⟩ "1" .int, .index ⟨5⟩ ⟨3⟩ ⟨4⟩ .int,
        .ref ⟨6⟩ .param "n" 0, .load ⟨7⟩ ⟨6⟩ .int, .store ⟨8⟩ ⟨5⟩ ⟨7⟩ .int,
        .binary .arith ⟨9⟩ "-" ⟨7⟩ ⟨4⟩ .int, .store ⟨10⟩ ⟨6⟩ ⟨9⟩ .int, .jump (.label 1)], [1], some 3⟩,
      ⟨"L3", [.ret (some ⟨2⟩) .int], [], some 4⟩,
      ⟨"bb1", [.funcEnd], [], none⟩]

def countdownGraph : Flow.Graph := ⟨[⟨"a", Tag.int.union .array, 8⟩], [countdownFunc]⟩

theorem countdown_dominated : ∀ p q, countdownFunc.quadAt? p = some q → ∀ t ∈ q.uses,
    ∃ d, countdownFunc.Defines d t ∧ countdownFunc.Dominates d p := by
  -- the value that is returned comes from the block in front, all others are used in their block
  have hall : ∀ x ∈ countdownFunc.points, ∀ t ∈ x.2.uses, (x.1 = ⟨3, 0⟩ ∧ t = ⟨2⟩) ∨
      ∃ y ∈ countdownFunc.points, y.2.dst? = some t ∧ y.1.block = x.1.block ∧
        y.1.pos ≤ x.1.pos := by decide
  have hret : countdownFunc.Dominates ⟨1, 1⟩ ⟨3, 0⟩ := by
    refine .of_edges (by decide) fun r hr => ?_
    cases hr with
    | @succ i _ b hb hj =>
      match i with
      | 0 | 2 | 3 | 4 =>
        cases hb
        simp at hj
      | 1 =>
        cases hb
        exact Func.dominates_within (by decide)
      | i + 5 => cases hb
  intro p q hq t ht
  rcases hall _ (Func.mem_points.2 hq) t ht with ⟨hp, rfl⟩ | ⟨⟨⟨i, k⟩, q'⟩, hy, hdst, hblock, hpos⟩
  · obtain rfl : p = ⟨3, 0⟩ := hp
    exact ⟨⟨1, 1⟩, ⟨_, rfl, rfl⟩, hret⟩
  · refine ⟨⟨i, k⟩, ⟨q', Func.mem_points.1 hy, hdst⟩, ?_⟩
    obtain rfl : i = p.block := hblock
    exact Func.dominates_within hpos

theorem countdown_ref {dst : Temp} {storage : Storage} {offset : Int}
    (hq : countdownFunc.quadAt? p = some (.ref dst storage name offset)) :
    (storage = .param ∧ name = "n") ∨ (dst = ⟨3⟩ ∧ storage = .global ∧ name = "a") := by
  have hall : ∀ x ∈ countdownFunc.points, x.2.makesAddress = true →
      x.2 ∈ [.ref ⟨1⟩ .param "n" 0, .ref ⟨3⟩ .global "a" 0, .ref ⟨6⟩ .param "n" 0,
        .index ⟨5⟩ ⟨3⟩ ⟨4⟩ .int] := by decide
  have hmem := hall _ (Func.mem_points.2 hq) rfl
  simp only [mem_cons, Quad.ref.injEq, reduceCtorEq, not_mem_nil, or_false] at hmem
  rcases hmem with ⟨-, hs, hn, -⟩ | ⟨hd, hs, hn, -⟩ | ⟨-, hs, hn, -⟩
  · exact .inl ⟨hs, hn⟩
  · exact .inr ⟨hd, hs, hn⟩
  · exact .inl ⟨hs, hn⟩

theorem countdown_integerCode : countdownFunc.IntegerCode countdownGraph.globals where
  quads p q hq := (by decide : ∀ x ∈ countdownFunc.points, x.2.isInteger = true) _
    (Func.mem_points.2 hq)
  tag := rfl
  formals := by decide
  locals := by simp [countdownFunc]
  names := by decide
  refs p dst storage name offset hq := by
    rcases countdown_ref hq with ⟨rfl, rfl⟩ | ⟨rfl, rfl, rfl⟩
    · exact ⟨⟨"n", .int, 4⟩, rfl, .inl ⟨rfl, rfl⟩, by simp⟩
    · refine ⟨⟨"a", Tag.int.union .array, 8⟩, rfl, .inr ⟨rfl, 2, rfl⟩, fun _ e he _ => ?_⟩
      exact mem_singleton.1 he
  labels n i j b c hb hc hn hm := by
    have hnodup : (countdownFunc.blocks.map (·.label)).Nodup := by decide
    have hlt : i < (countdownFunc.blocks.map (·.label)).length := by
      simpa using (List.getElem?_eq_some_iff.1 hb).1
    refine (getElem?_inj hlt hnodup).1 ?_
    rw [getElem?_map, getElem?_map, hb, hc, Option.map_some, Option.map_some, hn, hm]
  slots p t ht hneg := by
    obtain ⟨q, hq, hdst⟩ := ht
    have hpos : ∀ x ∈ countdownFunc.points, x.2.dst? ≠ some ⟨-1⟩ := by decide
    exact absurd (hdst.trans (congrArg (some ∘ Temp.mk) hneg)) (hpos _ (Func.mem_points.2 hq))
  once p p' t hp hp' := by
    obtain ⟨q, hq, hdst⟩ := hp
    obtain ⟨q', hq', hdst'⟩ := hp'
    have hall : ∀ x ∈ countdownFunc.points, ∀ y ∈ countdownFunc.points, x.2.dst? ≠ none →
        x.2.dst? = y.2.dst? → x.1 = y.1 := by decide
    exact hall _ (Func.mem_points.2 hq) _ (Func.mem_points.2 hq') (by simp [hdst])
      (hdst.trans hdst'.symm)
  dominated := countdown_dominated
  words p q hq t ht p' q' hq' hdst := by
    have hall : ∀ x ∈ countdownFunc.points, ∀ t ∈ x.2.words, ∀ y ∈ countdownFunc.points,
        y.2.dst? = some t → y.2.makesAddress = false := by decide
    exact hall _ (Func.mem_points.2 hq) t ht _ (Func.mem_points.2 hq') hdst
  accesses p q hq t ht harr := by
    obtain ⟨p', storage, name, offset, d, hq', hd, htag⟩ := harr
    rcases countdown_ref hq' with ⟨rfl, rfl⟩ | ⟨rfl, -, -⟩
    · cases hd
      exact absurd htag (by decide)
    · have hall : ∀ x ∈ countdownFunc.points, ⟨3⟩ ∉ x.2.accesses := by decide
      exact hall _ (Func.mem_points.2 hq) ht

end Quadruple.Lowering
