import Quadruple.Proofs.Ir.Closed
import Quadruple.Proofs.Lowering.Shape

/-!
# Lowered programs are closed

Main statement: `lower_closed`. One invariant carries it: whatever a temporary is bound to and
whatever the table gives as a place can be used behind the instructions so far, and the calls among
them are of functions that are defined or recorded as foreign.
-/

namespace Quadruple.Lowering

open List
open Quadruple.Flow (Func Block)
open Ir (Value Instr Ordered Usable known known_append Ty ordered_nil ordered_singleton)
open Symbols (Entry EntryId Table)

/-! ## The invariant -/

/-- Where lowering stands in a program: the functions that it defines, what the function at hand
has as parameters and labels, and the instructions of earlier functions. -/
structure Frame where
  defined : List String
  params : List Ir.Value
  labels : List String
  earlier : List Ir.Instr

variable {c : Frame} {s s' : State} {is js : List Instr} {bs : List (Temp × Binding)} {T : Table}
  {b : Binding} {q : Quad} {v : Value} {name : String} {storage : Storage} {names : List String}

structure Values (c : Frame) (T : Table) (bs : List (Temp × Binding)) (is : List Ir.Instr) :
    Prop where
  ordered : Ir.Ordered c.params c.labels is
  bound : ∀ p ∈ bs, Ir.Usable (Ir.known c.params is) p.2.val
  sound : T.Sound
  globals : ∀ n id, T.lookupGlobal? n = some id → (T.entry id).handle = some (.global n)
  slots : ∀ n id, T.lookup? n = some id → id < T.entries.size ∧
    ∀ v, (T.entry id).handle = some v → Ir.Usable (Ir.known c.params is) v
  scope : T.inner.length = 1

/-- What holds of the calls among the instructions `is`. The foreign functions among `pending` are
about to be called. -/
structure Calls (pending : List String) (is : List Ir.Instr) (defined : List String)
    (foreign : List Ir.Foreign) : Prop where
  known : ∀ i ∈ is, i.op = .call → ∃ name, i.Calls name ∧
    (name ∈ defined ∨ name ∈ foreign.map (·.name))
  distinct : (foreign.map (·.name)).Nodup
  apart : ∀ n ∈ foreign.map (·.name), n ∉ defined
  called : ∀ n ∈ foreign.map (·.name), n ∈ pending ∨ ∃ i ∈ is, i.Calls n

def Inv (c : Frame) (is : List Ir.Instr) (s : State) : Prop :=
  Values c s.table s.bindings is ∧ Calls [] (c.earlier ++ is) c.defined s.foreign ∧
    s.defined = c.defined

/-! ## Instructions and bindings -/

theorem Values.append (h : Values c T bs is)
    (hjs : Ordered (known c.params is) c.labels js) : Values c T bs (is ++ js) := by
  have hsub : known c.params is ⊆ known c.params (is ++ js) := by
    rw [known_append]
    exact subset_append_left _ _
  exact ⟨h.ordered.append hjs, fun p hp => (h.bound p hp).mono hsub, h.sound, h.globals,
    fun n id hid => ⟨(h.slots n id hid).1, fun v hv => ((h.slots n id hid).2 v hv).mono hsub⟩,
    h.scope⟩

variable {defined : List String} {foreign : List Ir.Foreign} {new : Option (Temp × Binding)}
  {ns : List Notice} {k : Nat} {d : Decl} {p : Ir.Program} {f : Func}

theorem Calls.append {pending : List String} (h : Calls pending is defined foreign)
    (hjs : ∀ i ∈ js, i.op = .call → ∃ name, i.Calls name ∧
      (name ∈ defined ∨ name ∈ foreign.map (·.name))) :
    Calls pending (is ++ js) defined foreign := by
  refine ⟨forall_mem_append.2 ⟨h.known, hjs⟩, h.distinct, h.apart, fun n hn => ?_⟩
  refine (h.called n hn).imp_right ?_
  rintro ⟨j, hj, hcalls⟩
  exact ⟨j, mem_append_left _ hj, hcalls⟩

theorem Inv.append (h : Inv c is s) (hjs : Ordered (known c.params is) c.labels js)
    (hops : ∀ j ∈ js, j.op ≠ .call) : Inv c (is ++ js) s := by
  refine ⟨h.1.append hjs, ?_, h.2.2⟩
  rw [← append_assoc]
  exact h.2.1.append fun j hj hcall => absurd hcall (hops j hj)

theorem Inv.binding (h : Inv c is s) {t : Temp} (hb : s.bound t = some b) :
    Usable (known c.params is) b.val :=
  h.1.bound _ (mem_of_lookup hb)

/-! ## Single instructions of a block -/

theorem admits_defaultReturn (ret : Ty) (vs : List Value) (labels : List String) :
    ∀ v ∈ (defaultReturn ret).args, Ir.Admits vs labels v := by
  intro v hv
  refine .inl ?_
  unfold defaultReturn at hv
  split at hv <;> simp_all [Usable]

theorem operation?_ne_call {cls : OpClass} {op : String} : operation? cls op ≠ some .call := by
  unfold operation?
  split <;> simp

theorem conversion_ne_call (want : Ty) (x : Value) : (conversion want x).op ≠ .call := by
  unfold conversion
  split <;> simp

theorem Makes.isCall (h : Makes s q is new ns)
    (hq : q.isCall = false) : ∀ i ∈ is, i.op ≠ .call := by
  have hcoerced : ∀ {b : Binding} {want : Ty} {is : List Instr} {x : Value},
      Coerced b want is x → ∀ i ∈ is, i.op ≠ .call := by
    intro b want is x hx
    cases hx with
    | keep => simp
    | convert k => simpa using conversion_ne_call want b.val
  cases h with
  | store _ _ _ hx | neg _ hx | not _ hx | ret _ hx =>
    exact forall_mem_append.2 ⟨hcoerced hx, by simp [computing]⟩
  | index _ _ _ _ hx => cases hx <;> simp [computing]
  | binary _ _ hop hv hw =>
    refine forall_mem_append.2 ⟨forall_mem_append.2 ⟨hcoerced hv, hcoerced hw⟩, ?_⟩
    simp only [computing, mem_singleton, forall_eq]
    rintro rfl
    exact operation?_ne_call hop
  | cast => simpa [computing] using conversion_ne_call _ _
  | call | procedure => cases hq
  | _ => simp [computing, defaultReturn]

def Aims (labels : List String) (q : Quad) : Prop := q.endsBlock = true → ∀ l ∈ q.goals, l ∈ labels

section Ordered

variable {vs : List Value}

theorem usable_known (h : Usable vs v) :
    Usable (known vs is) v := h.mono (subset_append_left _ _)

theorem conversion_args (want : Ty) (x : Value) : (conversion want x).args = [x] := by
  unfold conversion
  split <;> rfl

variable {x : Value}

theorem Coerced.ordered {want : Ty} (h : Coerced b want is x) (labels : List String)
    (hb : Usable vs b.val) : Ordered vs labels is ∧ Usable (known vs is) x := by
  cases h with
  | keep => exact ⟨ordered_nil _ _, usable_known hb⟩
  | convert k =>
    refine ⟨ordered_singleton ?_, by simp [known, Usable]⟩
    simpa [conversion_args] using .inl hb

theorem Widened.ordered (h : Widened v is x) (labels : List String) (hv : Usable vs v) :
    Ordered vs labels is ∧ Usable (known vs is) x := by
  cases h with
  | keep => exact ⟨ordered_nil _ _, usable_known hv⟩
  | extend k => exact ⟨ordered_singleton (by simpa using .inl hv), by simp [known, Usable]⟩

/-- Where the values that an instruction comes by can be used, so can its result, and what it
becomes uses nothing else. -/
theorem Makes.ordered {labels : List String} (h : Makes s q is new ns)
    (hbound : ∀ t b, s.bound t = some b → Usable vs b.val)
    (hfinds : ∀ storage name b, Finds s.table storage name b → Usable vs b.val)
    (hcallee : ∀ i ∈ is, i.op = .call → ∀ v, i.args.head? = some v → Usable vs v)
    (hq : Aims labels q) :
    Ordered vs labels is ∧ ∀ p ∈ new.toList, Usable (known vs is) p.2.val := by
  have hlast : ∀ {is : List Instr} {i : Instr}, Ordered vs labels is →
      (∀ v ∈ i.args, Usable (known vs is) v) → Ordered vs labels (is ++ [i]) :=
    fun his hi => his.append (ordered_singleton fun v hv => .inl (hi v hv))
  have hdefine : ∀ {is : List Instr} {dst : Temp} {ty : Ty} {i : Instr} {b : Binding},
      Ordered vs labels is → (∀ v ∈ i.args, Usable (known vs is) v) →
      b.val = tempValue dst → Ordered vs labels (is ++ [computing dst ty i]) ∧
        ∀ p ∈ (some (dst, b)).toList,
          Usable (known vs (is ++ [computing dst ty i])) p.2.val := by
    intro is dst ty i b his hi hb
    exact ⟨hlast his hi, by simp [hb, known, computing, tempValue, Usable]⟩
  have hargs : ∀ {ts : List Temp} {bs : List Binding} {handle : Value}, Bound s ts bs →
      Usable vs handle → ∀ v ∈ handle :: bs.map (·.val), Usable (known vs []) v := by
    intro ts bs handle hbs hhandle v hv
    rcases mem_cons.1 hv with rfl | hv
    · exact usable_known hhandle
    · obtain ⟨b, hb, rfl⟩ := mem_map.1 hv
      obtain ⟨t, -, hb⟩ := exists_of_forall₂ hbs hb
      exact usable_known (hbound t b hb)
  have hnil := ordered_nil vs labels
  cases h with
  | mark | arg | float | int | string => exact ⟨hnil, by simp [Usable, intern.literalName]⟩
  | ref hb => exact ⟨hnil, by simpa using usable_known (hfinds _ _ _ hb)⟩
  | array hb | same hb => exact ⟨hnil, by simpa using usable_known (hbound _ _ hb)⟩
  | load ha => exact hdefine hnil (by simpa using usable_known (hbound _ _ ha)) rfl
  | store ha _ hv hx =>
    obtain ⟨his, hx'⟩ := hx.ordered labels (hbound _ _ hv)
    refine ⟨hlast his (by simpa using ⟨hx', usable_known (hbound _ _ ha)⟩), ?_⟩
    rw [known_append]
    unfold stored
    split
    · simpa using usable_known hx'
    · simpa using usable_known (usable_known (hbound _ _ hv))
  | @index _ _ _ tag _ _ _ x k ha _ hi hx =>
    obtain ⟨his, hx'⟩ := hx.ordered labels (hbound _ _ hi)
    have hmul := hlast (i := { op := .mul, ty := .ptr, result := some (.temp "x" k),
                               args := [x, .const tag.base.size] }) his
      (by simpa using ⟨hx', trivial⟩)
    rw [append_cons]
    refine hdefine hmul ?_ rfl
    rw [known_append]
    simpa using ⟨usable_known (usable_known (hbound _ _ ha)), by simp [known, Usable]⟩
  | neg hb hx =>
    obtain ⟨his, hx'⟩ := hx.ordered labels (hbound _ _ hb)
    exact hdefine his (by simpa using hx') rfl
  | not hb hx =>
    obtain ⟨his, hx'⟩ := hx.ordered labels (hbound _ _ hb)
    exact hdefine his (by simpa using ⟨hx', trivial⟩) rfl
  | binary ha hb _ hv hw =>
    obtain ⟨his, hv'⟩ := hv.ordered labels (hbound _ _ ha)
    obtain ⟨hjs, hw'⟩ := hw.ordered labels (usable_known (hbound _ _ hb))
    refine hdefine (his.append hjs) ?_ rfl
    rw [known_append]
    simpa using ⟨usable_known hv', hw'⟩
  | cast hb =>
    exact hdefine hnil (by simpa [conversion_args] using usable_known (hbound _ _ hb)) rfl
  | call hi => exact hdefine hnil (hargs hi.args (hcallee _ mem_cons_self rfl _ rfl)) rfl
  | procedure hi =>
    have hhandle := hcallee _ mem_cons_self rfl _ rfl
    exact ⟨hlast hnil (hargs hi.args hhandle), by simp [Usable]⟩
  | branch hc =>
    refine ⟨ordered_singleton ?_, by simp⟩
    simp only [forall_mem_cons, not_mem_nil, false_implies, implies_true, and_true]
    exact ⟨.inl (hbound _ _ hc), .inr ⟨_, hq rfl _ (by simp [Quad.goals, Quad.targets]), rfl⟩,
      .inr ⟨_, hq rfl _ (by simp [Quad.goals, Quad.targets]), rfl⟩⟩
  | jump =>
    refine ⟨ordered_singleton ?_, by simp⟩
    simpa using .inr ⟨_, hq rfl _ (by simp [Quad.goals, Quad.targets]), rfl⟩
  | ret hb hx =>
    obtain ⟨his, hx'⟩ := hx.ordered labels (hbound _ _ hb)
    exact ⟨hlast his (by simpa using hx'), by simp⟩
  | leave | funcEnd => exact ⟨ordered_singleton (admits_defaultReturn _ _ _), by simp⟩

end Ordered

/-! ## Calls -/

theorem Values.installGlobal (h : Values c T bs is) {f : Entry → Entry}
    (hname : ∀ e, (f e).name = e.name) (hf : ∀ e, (f e).handle = some (.global name)) :
    Values c ((T.installAt name 0).2.modifyEntry T.entries.size f) bs is := by
  have hT : T.Changes name (fun e => e.handle = some (.global name))
      ((T.installAt name 0).2.modifyEntry T.entries.size f) := h.sound.changes_installAt hname hf
  have hlook : ((T.installAt name 0).2.modifyEntry T.entries.size f).lookupGlobal? name =
      some T.entries.size := by
    rw [Table.lookupGlobal?_modifyEntry, Table.lookupGlobal?_installAt_zero, if_pos rfl]
  have hinner : ((T.installAt name 0).2.modifyEntry T.entries.size f).inner = T.inner := by
    rw [Table.inner_modifyEntry, Table.inner_installAt_zero]
  refine ⟨h.ordered, h.bound, hT.sound, fun n id hid => ?_, fun n id hid => ?_, hinner ▸ h.scope⟩
  · by_cases hn : n = name
    · subst hn
      exact hT.of_lookup hid
    · obtain ⟨hsame, hentry⟩ := hT.other n hn
      rw [hsame] at hid
      rw [hentry id hid]
      exact h.globals n id hid
  · rw [Table.lookup?_modifyEntry] at hid
    rw [Table.size_modifyEntry, Table.size_installAt]
    rcases Table.lookup?_installAt_zero hid with hold | ⟨rfl, rfl⟩
    · obtain ⟨hlt, hv⟩ := h.slots n id hold
      refine ⟨Nat.lt_succ_of_lt hlt, fun v hv' => hv v ?_⟩
      rwa [Table.entry_modifyEntry_of_ne hlt.ne, Table.entry_installAt_of_lt _ hlt] at hv'
    · refine ⟨Nat.lt_succ_self _, fun v hv => ?_⟩
      rw [hT.of_lookup hlook] at hv
      cases hv
      trivial

theorem Calls.declare (h : Calls [] is s.defined s.foreign) (e : Entry) :
    Calls [e.name] is s.defined (s.foreignWith e) ∧
      (e.name ∈ s.defined ∨ e.name ∈ (s.foreignWith e).map (·.name)) := by
  have hwait : Calls [e.name] is s.defined s.foreign :=
    ⟨h.known, h.distinct, h.apart, fun n hn => .inr ((h.called n hn).resolve_left (by simp))⟩
  by_cases hdef : e.name ∈ s.defined
  · rw [s.foreignWith_eq, if_pos (.inl hdef)]
    exact ⟨hwait, .inl hdef⟩
  · by_cases hfor : e.name ∈ s.foreign.map (·.name)
    · rw [s.foreignWith_eq, if_pos (.inr hfor)]
      exact ⟨hwait, .inr hfor⟩
    · have hmap : (s.foreignWith e).map (·.name) = s.foreign.map (·.name) ++ [e.name] := by
        rw [s.foreignWith_eq, if_neg (not_or.2 ⟨hdef, hfor⟩), map_append, map_singleton]
      refine ⟨⟨fun i hi hcall => ?_, ?_, ?_, ?_⟩, .inr ?_⟩ <;> rw [hmap]
      · obtain ⟨name, hname, hor⟩ := h.known i hi hcall
        exact ⟨name, hname, hor.imp_right (mem_append_left _)⟩
      · exact nodup_append.2 ⟨h.distinct, pairwise_singleton _ _, fun a ha b hb hab =>
          hfor (by rwa [← mem_singleton.1 hb, ← hab])⟩
      · exact forall_mem_append.2 ⟨h.apart, by simpa using hdef⟩
      · exact forall_mem_append.2 ⟨hwait.called, by simp⟩
      · exact mem_append_right _ mem_cons_self

theorem Calls.settle (h : Calls [name] is defined foreign) (hcall : ∃ i ∈ is, i.Calls name) :
    Calls [] is defined foreign := by
  refine ⟨h.known, h.distinct, h.apart, fun n hn => .inr ?_⟩
  rcases h.called n hn with hn | hn
  · rwa [mem_singleton.1 hn]
  · exact hn

theorem Inv.finds (h : Inv c is s) (hb : Finds s.table storage name b) :
    Usable (known c.params is) b.val := by
  cases hb with
  | func => trivial
  | global _ hid _ hh =>
    rw [h.1.globals _ _ hid] at hh
    cases hh
    trivial
  | slot _ hid hh => exact (h.1.slots _ _ hid).2 _ hh

theorem Values.enlists {T' : Table} {id : EntryId} (h : Values c T bs is)
    (he : Enlists name k T id v T') : v = .global name ∧ Values c T' bs is := by
  cases he with
  | known hid _ hh => exact ⟨Option.some.inj (hh.symm.trans (h.globals name id hid)), h⟩
  | placed hid _ hh =>
    rw [h.globals name id hid] at hh
    cases hh
  | implicit => exact ⟨rfl, h.installGlobal (fun _ => rfl) fun _ => rfl⟩

theorem Inv.visit {v : Visit} (h : Inv c is v.before) (hran : v.Ran)
    (hq : Aims c.labels v.quad) : Inv c (is ++ v.instrs) v.after := by
  obtain ⟨new, ns, hmakes, hafter, -⟩ := hran.makes
  -- what the callee of a call is
  obtain ⟨hcallee, hvalues, hcalls⟩ : (∀ i ∈ v.instrs, i.op = .call → ∀ w, i.args.head? = some w →
        Usable (known c.params is) w) ∧
      Values c v.after.table v.before.bindings is ∧
      Calls [] (c.earlier ++ is ++ v.instrs) c.defined v.after.foreign := by
    have hisCall := hmakes.isCall
    have hcalling := hafter.calling
    generalize v.quad = q, v.instrs = js at hcalling hisCall
    cases hcalling with
    | other hno ht hf =>
      have hop := hisCall hno
      rw [ht, hf]
      exact ⟨fun i hi hcall => absurd hcall (hop i hi), h.1,
        h.2.1.append fun i hi hcall => absurd hcall (hop i hi)⟩
    | @call _ _ _ _ name id _ i he hf hop hhead =>
      obtain ⟨rfl, hv⟩ := h.1.enlists he
      have hbefore := h.2.1
      rw [← h.2.2] at hbefore ⊢
      obtain ⟨hcalls, hname⟩ := hbefore.declare (v.after.table.entry id)
      rw [← hf, (hv.sound name id he.lookup).2] at hcalls hname
      refine ⟨by simp [hhead, Usable], hv, ?_⟩
      have hmade : ∀ j ∈ [i], j.op = .call → ∃ n, j.Calls n ∧
          (n ∈ v.before.defined ∨ n ∈ v.after.foreign.map (·.name)) :=
        fun j hj _ => mem_singleton.1 hj ▸ ⟨name, ⟨hop, hhead⟩, hname⟩
      exact (hcalls.append hmade).settle ⟨i, by simp, hop, hhead⟩
  obtain ⟨hordered, hnew⟩ := hmakes.ordered (fun _ _ => h.binding) (fun _ _ _ => h.finds) hcallee hq
  rw [Inv, hafter.bindings, ← append_assoc]
  have hv := hvalues.append hordered
  refine ⟨⟨hv.ordered, forall_mem_append.2 ⟨fun p hp => ?_, hv.bound⟩, hv.sound, hv.globals,
    hv.slots, hv.scope⟩, hcalls, hafter.defined.trans h.2.2⟩
  rw [known_append]
  exact hnew p hp

theorem Inv.runs {vs : List Visit} (h : Inv c is s) (hrun : Runs s vs s')
    (hvs : ∀ v ∈ vs, Aims c.labels v.quad) : Inv c (is ++ vs.flatMap Visit.instrs) s' := by
  induction hrun generalizing is with
  | nil hr =>
    rw [hr, flatMap_nil, append_nil]
    exact h
  | @cons s s' v vs hr hran _ ih =>
    obtain ⟨hv, hvs⟩ := forall_mem_cons.1 hvs
    have hbefore : Inv c is v.before := by
      rw [hr]
      exact h
    rw [flatMap_cons, ← append_assoc]
    exact ih (hbefore.visit hran hv) hvs

/-! ## Blocks -/

section Blocks

variable {ret : Ty}

theorem Closing.ordered {b : Block} {code tail : List Instr} (h : Closing f b ret code tail)
    {labels : List String} (hlabels : ∀ b ∈ f.blocks, b.label ∈ labels) (vs : List Value) :
    Ordered vs labels tail ∧ ∀ j ∈ tail, j.op ≠ .call := by
  have honward : ∀ vs, Ordered vs labels [onward f b ret] ∧ (onward f b ret).op ≠ .call := by
    intro vs
    unfold onward
    cases hnext : b.down.bind (f.blocks[·]?) with
    | none => exact ⟨ordered_singleton (admits_defaultReturn _ _ _), by simp [defaultReturn]⟩
    | some next =>
      obtain ⟨i, -, hi⟩ := Option.bind_eq_some_iff.1 hnext
      refine ⟨ordered_singleton ?_, by simp⟩
      simpa using .inr ⟨_, hlabels next (mem_of_getElem? hi), rfl⟩
  cases h with
  | ended => exact ⟨ordered_nil _ _, by simp⟩
  | empty k =>
    have hfill : Ordered vs labels [filler k] :=
      ordered_singleton (by simpa [filler] using .inl trivial)
    exact ⟨hfill.append (honward _).1, by simpa [filler] using (honward vs).2⟩
  | «open» => exact ⟨(honward vs).1, by simpa using (honward vs).2⟩

def Segment.code (seg : Segment) : List Ir.Instr := seg.visits.flatMap Visit.instrs ++ seg.tail

variable {segs : List Segment}

theorem Inv.segments {bs : List (Block × Nat)} (h : Inv c is s)
    (hrun : Runs s (segs.flatMap (·.visits)) s') (hlabels : ∀ b ∈ f.blocks, b.label ∈ c.labels)
    (haims : ∀ v ∈ segs.flatMap (·.visits), Aims c.labels v.quad)
    (hsegs : Forall₂ (fun b seg => Segment.Closes f ret b.2 b.1 seg) bs segs) :
    Inv c (is ++ segs.flatMap Segment.code) s' := by
  induction hsegs generalizing is s with
  | nil => simpa using h.runs hrun (by simp)
  | @cons b seg bs segs hcloses _ ih =>
    rw [flatMap_cons] at hrun haims ⊢
    obtain ⟨s1, hrun1, hrun2⟩ := hrun.split
    obtain ⟨haims1, haims2⟩ := forall_mem_append.1 haims
    obtain ⟨htail, hops⟩ := hcloses.tail.ordered hlabels
      (known c.params (is ++ seg.visits.flatMap Visit.instrs))
    have hseg := (h.runs hrun1 haims1).append htail hops
    rw [append_assoc] at hseg
    rw [← append_assoc]
    exact ih hseg hrun2 haims2

theorem flatMap_segments {bs : List Block}
    (h : Forall₂ (fun b seg => Segment.Covers f b.2 b.1 seg) (bs.zipIdx (k + 1)) segs) :
    (segs.map (·.block)).flatMap (·.instrs) = segs.flatMap Segment.code := by
  induction bs generalizing k segs with
  | nil =>
    obtain rfl := forall₂_nil_left_iff.1 h
    rfl
  | cons b bs ih =>
    obtain ⟨seg, segs, hseg, hsegs, rfl⟩ := forall₂_cons_left_iff.1 h
    rw [map_cons, flatMap_cons, flatMap_cons, ih hsegs, hseg.instrs,
      if_neg (Nat.succ_ne_zero k), nil_append, Segment.code]

theorem Trail.Of.instrs_func {c : Trail} (h : c.Of f) (hf : f.Built) :
    c.func.instrs = opening f ++ c.segments.flatMap Segment.code := by
  have hsegs := h.segments
  rw [h.func]
  show (c.segments.map (·.block)).flatMap (·.instrs) = _
  cases hbs : f.blocks with
  | nil =>
    obtain ⟨b, hb, -⟩ := hf.entry
    simp [hbs] at hb
  | cons b bs =>
    rw [hbs, zipIdx_cons] at hsegs
    obtain ⟨seg, segs, hseg, hrest, heq⟩ := forall₂_cons_left_iff.1 hsegs
    rw [heq, map_cons, flatMap_cons, flatMap_cons, flatMap_segments hrest,
      hseg.instrs, if_pos rfl, append_assoc, Segment.code]

end Blocks

/-! ## Functions -/

theorem Values.declareSlot (h : Values c T bs is) {place : Nat}
    (hslot : Usable (known c.params is) (.temp d.name (-1))) :
    Values c (declareSlot T storage d place) bs is := by
  have hinner : T.inner ≠ [] := by
    intro hnil
    have hscope := h.scope
    simp [hnil] at hscope
  refine ⟨h.ordered, h.bound, (h.sound.install hinner d.name).modifyEntry rfl, fun n id hid => ?_,
    fun n id hid => ?_, Table.length_inner_install.trans h.scope⟩
  · rw [Lowering.declareSlot, Table.lookupGlobal?_modifyEntry,
      Table.lookupGlobal?_install hinner] at hid
    rw [Lowering.declareSlot, Table.entry_install_modifyEntry,
      if_neg (ne_of_lt (h.sound n id hid).1)]
    exact h.globals n id hid
  · rw [Lowering.declareSlot, Table.lookup?_modifyEntry, Table.lookup?_install] at hid
    have hsize : (T.install d.name).2.entries.size = T.entries.size + 1 := Table.size_installAt _
    rw [Lowering.declareSlot, Table.size_modifyEntry, Table.entry_install_modifyEntry, hsize]
    split at hid
    · cases hid
      rw [if_pos rfl]
      refine ⟨Nat.lt_succ_self _, fun v hv' => ?_⟩
      obtain rfl := Option.some.inj hv'
      exact hslot
    · obtain ⟨hlt, hold⟩ := h.slots n id hid
      rw [if_neg hlt.ne]
      exact ⟨Nat.lt_succ_of_lt hlt, hold⟩

theorem Values.declareSlots (h : Values c T bs is) {ds : List (Decl × Nat)}
    (hds : ∀ d ∈ ds, Usable (known c.params is) (.temp d.1.name (-1))) :
    Values c (declareSlots storage ds T) bs is :=
  foldlRecOn (motive := fun T => Values c T bs is) ds _ h fun _ h' d hd => h'.declareSlot (hds d hd)

theorem ordered_slotInstr (vs : List Value) (labels : List String) (d : Decl) :
    Ordered vs labels [slotInstr d] :=
  ordered_singleton (by simpa [slotInstr] using .inl trivial)

theorem ordered_opening (f : Func) (labels : List String) :
    Ordered ((f.formals.zipIdx.map formalParam).map (·.val)) labels (opening f) := by
  have hformals : ∀ (ds : List (Decl × Nat)) (vs : List Value),
      (∀ d ∈ ds, Value.temp "arg" d.2 ∈ vs) → Ordered vs labels (ds.flatMap formalInstrs) := by
    intro ds
    induction ds with
    | nil => exact fun vs _ => ordered_nil vs labels
    | cons d ds ih =>
      intro vs hds
      obtain ⟨hd, hds⟩ := forall_mem_cons.1 hds
      have harg : Ordered (known vs [slotInstr d.1]) labels [argInstr d] := by
        refine ordered_singleton ?_
        simpa [argInstr, slotInstr, Ir.Admits, Usable, known] using hd
      rw [flatMap_cons]
      exact ((ordered_slotInstr vs labels d.1).append harg).append
        (ih _ fun e he => mem_append_left _ (hds e he))
  have hlocals : ∀ (ds : List Decl) (vs : List Value),
      Ordered vs labels (ds.map slotInstr) := by
    intro ds
    induction ds with
    | nil => exact fun vs => ordered_nil vs labels
    | cons d ds ih => exact fun vs => (ordered_slotInstr vs labels d).append (ih _)
  refine (hformals _ _ fun d hd => ?_).append (hlocals _ _)
  exact mem_map.2 ⟨_, mem_map_of_mem hd, rfl⟩

theorem slot_mem_known (hd : d ∈ f.formals ++ f.locals)
    (params : List Value) : .temp d.name (-1) ∈ known params (opening f) := by
  refine mem_append_right _ (mem_filterMap.2 ⟨slotInstr d, ?_, rfl⟩)
  rcases mem_append.1 hd with hd | hd
  · obtain ⟨i, hi⟩ := mem_iff_getElem?.1 hd
    have hmem : (d, i) ∈ f.formals.zipIdx := mem_zipIdx_iff_getElem?.2 hi
    exact mem_append_left _ (mem_flatMap.2 ⟨(d, i), hmem, mem_cons_self⟩)
  · exact mem_append_right _ (mem_map_of_mem hd)

/-- A table outside of all functions: the globals have their places. -/
structure Grounded (T : Table) : Prop where
  sound : T.Sound
  globals : ∀ n id, T.lookupGlobal? n = some id → (T.entry id).handle = some (.global n)
  outside : T.inner = []

/-- What holds between functions of a program that defines `names`, behind the instructions `is`. -/
def Between (names : List String) (is : List Ir.Instr) (s : State) : Prop :=
  Grounded s.table ∧ Calls [] is names s.foreign ∧ s.defined = names

/-- At the first instruction of a function nothing is bound, and only globals and slots are found. -/
theorem Between.openFunc (h : Between names is s) (f : Func) (labels : List String) :
    Inv ⟨names, (f.formals.zipIdx.map formalParam).map (·.val), labels, is⟩
      (opening f) (openFunc f s) := by
  have hlookup : ∀ n, s.table.enter.lookup? n = s.table.lookupGlobal? n := by
    intro n
    simp only [Table.lookup?, Table.lookupGlobal?, Table.enter, h.1.outside, findSome?_cons,
      findSome?_nil, cons_append, nil_append, lookup_nil]
    cases s.table.globals.lookup n <;> rfl
  have henter : Values ⟨names, (f.formals.zipIdx.map formalParam).map (·.val), labels, is⟩
      s.table.enter [] (opening f) := by
    refine ⟨ordered_opening f labels, by simp, h.1.sound.enter, h.1.globals, fun n id hid => ?_, ?_⟩
    · rw [hlookup] at hid
      refine ⟨(h.1.sound n id hid).1, fun v hv => ?_⟩
      rw [Table.entry_enter, h.1.globals n id hid] at hv
      cases hv
      trivial
    · simp [Table.enter, h.1.outside]
  refine ⟨(henter.declareSlots fun d hd => ?_).declareSlots fun d hd => ?_, ?_, h.2.2⟩
  · exact slot_mem_known (mem_append_left _ (fst_mem_of_mem_zipIdx hd)) _
  · exact slot_mem_known (mem_append_right _ (fst_mem_of_mem_zipIdx hd)) _
  · refine h.2.1.append fun i hi hcall => ?_
    rcases mem_opening hi with ⟨d, rfl⟩ | ⟨p, -, rfl⟩ <;> cases hcall

theorem Inv.leave (h : Inv c is s) {t : State} (ht : t.table = s.table.leave)
    (hd : t.defined = s.defined) (hf : t.foreign = s.foreign) :
    Between c.defined (c.earlier ++ is) t := by
  refine ⟨⟨ht ▸ h.1.sound.leave, ht ▸ h.1.globals, ?_⟩, ?_, hd.trans h.2.2⟩
  · rw [ht]
    have hscope := h.1.scope
    match hin : s.table.inner, hscope with
    | [l], _ => simp [Table.leave, hin]
  · rw [hf]
    exact h.2.1

theorem aims_of_built (hf : f.Built) {p : Flow.Point} (hq : f.quadAt? p = some q) :
    Aims (f.blocks.map (·.label)) q := by
  obtain ⟨b, hb, hpos⟩ := Option.bind_eq_some_iff.1 hq
  obtain ⟨inner, hinner, hend⟩ := hf.block p.block b hb
  have hmem := mem_of_getElem? hpos
  intro hends l hl
  rcases successors_of_blockEnd hend with ⟨x, hquads, -, hsuccs⟩ | ⟨hquads, -⟩
  · rw [hquads] at hmem
    rcases mem_append.1 hmem with hmem | hmem
    · simp [hinner q hmem] at hends
    · rw [← mem_singleton.1 hmem] at hsuccs
      have hsucc : some l ∈ f.successors b := hsuccs ▸ mem_map_of_mem hl
      obtain ⟨j, -, hj⟩ := mem_map.1 hsucc
      obtain ⟨bj, hbj, rfl⟩ := Option.map_eq_some_iff.1 hj
      exact mem_map_of_mem (mem_of_getElem? hbj)
  · simp [hinner q (hquads ▸ hmem)] at hends

theorem Trail.Leads.labels {c : Trail} (h : c.Leads f s s') :
    c.func.blocks.map (·.label) = f.blocks.map (·.label) := by
  rw [h.of.func, map_map, ← zipIdx_map_fst 0 f.blocks, map_map,
    ← forall₂_eq_eq_eq, forall₂_map_left_iff, forall₂_map_right_iff]
  exact (h.closes.imp fun _ _ hc => hc.label.symm).flip.imp fun _ _ heq => heq.symm

theorem Trail.Leads.ordered {c : Trail} (h : c.Leads f s s') (hf : f.Built)
    (hs : Between names is s) :
    Ordered (c.func.params.map (·.val)) (c.func.blocks.map (·.label)) c.func.instrs ∧
      Between names (is ++ c.func.instrs) s' := by
  have hopen := hs.openFunc f (f.blocks.map (·.label))
  have hend := hopen.segments (h.first ▸ h.of.run) (fun b hb => mem_map_of_mem hb)
    (fun v hv => aims_of_built hf (h.of.quadAt? hv)) h.closes
  rw [h.labels, h.of.instrs_func hf]
  refine ⟨?_, hend.leave ?_ ?_ ?_⟩
  · rw [h.of.func]
    exact hend.1.ordered
  all_goals rw [h.last]

theorem Trails.ordered {fs : List Func} {cs : List Trail} (h : Trails s fs cs s')
    (hfs : ∀ f ∈ fs, f.Built) (hs : Between names is s) :
    (∀ c ∈ cs, Ordered (c.func.params.map (·.val)) (c.func.blocks.map (·.label))
      c.func.instrs) ∧ Between names (is ++ cs.flatMap (·.func.instrs)) s' := by
  induction h generalizing is with
  | nil => simpa using hs
  | cons hleads _ ih =>
    obtain ⟨hf, hfs⟩ := forall_mem_cons.1 hfs
    obtain ⟨hfirst, hnext⟩ := hleads.ordered hf hs
    obtain ⟨hrest, hlast⟩ := ih hfs hnext
    rw [append_assoc] at hlast
    exact ⟨forall_mem_cons.2 ⟨hfirst, hrest⟩, hlast⟩

/-! ## Programs -/

theorem between_declared (g : Flow.Graph) (hs : s.table = .empty) :
    Between (g.funcs.map (·.name)) [] (s.declared g (declaredTable g s.table)) := by
  obtain ⟨hsound, hglobal⟩ := global?_declaredTable g (hs ▸ Table.sound_empty)
  obtain ⟨-, hinner⟩ := tidy_declaredTable g (hs ▸ Table.tidy_empty)
  refine ⟨⟨hsound, fun n id hid => ?_, hinner.trans (hs ▸ rfl)⟩,
    by constructor <;> simp [State.declared], rfl⟩
  have hface : (declaredTable g s.table).global? n = (declaredFaces g).lookup n := by
    rw [hglobal, hs]
    exact Option.or_none
  exact (placed_of_declaredFaces (hface.symm.trans (Option.map_eq_some_iff.2 ⟨id, hid, rfl⟩))).2

theorem closed_of_calls (hordered : ∀ f ∈ p.funcs,
      Ordered (f.params.map (·.val)) (f.blocks.map (·.label)) f.instrs)
    (hcalls : Calls [] (p.funcs.flatMap (·.instrs)) (p.funcs.map (·.name)) p.foreign) :
    p.Closed := by
  obtain ⟨hknown, hdistinct, hapart, hcalled⟩ := hcalls
  have hinstr : ∀ f ∈ p.funcs, ∀ i ∈ f.instrs, i ∈ p.funcs.flatMap (·.instrs) :=
    fun f hf i hi => mem_flatMap.2 ⟨f, hf, hi⟩
  refine ⟨fun f hf => ⟨?_, ?_, ?_⟩, hdistinct, fun name => ⟨fun hname => ?_, ?_⟩⟩
  · intro before i after hsplit name id hv
    rcases hordered f hf before i after hsplit _ hv with hv | ⟨l, -, hv⟩
    · rcases mem_append.1 hv with hv | hv
      · exact .inl (mem_map.1 hv)
      · exact .inr (mem_filterMap.1 hv)
    · cases hv
  · intro i hi name hv
    obtain ⟨before, after, hsplit⟩ := append_of_mem hi
    rcases hordered f hf before i after hsplit _ hv with hv | ⟨l, hl, hv⟩
    · exact hv.elim
    · cases hv
      exact mem_map.1 hl
  · intro i hi hcall
    obtain ⟨name, hname, hmem⟩ := hknown i (hinstr f hf i hi) hcall
    exact ⟨name, hname, hmem.imp mem_map.1 mem_map.1⟩
  · obtain ⟨i, hi, hcall⟩ := (hcalled name hname).resolve_left (by simp)
    obtain ⟨f, hf, hi⟩ := mem_flatMap.1 hi
    exact ⟨⟨f, hf, i, hi, hcall⟩, fun f hf hn => hapart name hname (mem_map.2 ⟨f, hf, hn⟩)⟩
  · rintro ⟨⟨f, hf, i, hi, hcall⟩, hno⟩
    obtain ⟨n, hn, hmem⟩ := hknown i (hinstr f hf i hi) hcall.1
    obtain rfl : name = n := by simpa [hcall.2] using hn.2
    refine hmem.resolve_left fun hdef => ?_
    obtain ⟨f', hf', hname⟩ := mem_map.1 hdef
    exact hno f' hf' hname

theorem closed_of_lower {g : Flow.Graph} (hg : ∀ f ∈ g.funcs, f.Built) (hs : s.table = .empty)
    (h : lower g s = .ok p s') : p.Closed := by
  obtain ⟨cs, htrails, rfl⟩ := exists_trails h
  obtain ⟨hordered, -, hcalls, -⟩ := htrails.ordered hg (between_declared g hs)
  have hnames : g.funcs.map (·.name) = cs.map (·.func.name) := by
    rw [← forall₂_eq_eq_eq, forall₂_map_left_iff, forall₂_map_right_iff]
    exact htrails.of.imp fun _ _ hof => by rw [hof.func]
  refine closed_of_calls (forall_mem_map.2 hordered) ?_
  simpa [hnames, flatMap_map, Function.comp_def] using hcalls

/-- What lowering makes of a built graph is closed. -/
theorem lower_closed {code : List Quad} {g : Flow.Graph} (hg : Flow.build code = .ok g)
    {s s' : State} (hs : s.table = .empty) {p : Ir.Program} (h : lower g s = .ok p s') :
    p.Closed :=
  closed_of_lower (Flow.built_of_build hg) hs h

def callers : List Quad :=
  [.funcBegin "f" .int, .formalDecl ⟨"n", .int, 4⟩, .ref ⟨1⟩ .param "n" 0, .load ⟨2⟩ ⟨1⟩ .int,
    .ref ⟨4⟩ .global "g" 0, .call ⟨5⟩ ⟨4⟩ .int [], .condJump ⟨5⟩ (.label 1), .jump (.label 2),
    .label 1, .ref ⟨7⟩ .global "getchar" 0, .call ⟨8⟩ ⟨7⟩ .int [], .label 2, .ret (some ⟨2⟩) .int,
    .funcEnd, .funcBegin "g" .int, .ret none .int, .funcEnd]

def callersGraph : Flow.Graph where
  globals := []
  funcs :=
    [⟨"f", .int, [⟨"n", .int, 4⟩], [],
      [⟨"entry", [.ref ⟨1⟩ .param "n" 0, .load ⟨2⟩ ⟨1⟩ .int, .ref ⟨4⟩ .global "g" 0,
        .call ⟨5⟩ ⟨4⟩ .int [], .branch ⟨5⟩ (.label 1) (.label 2)], [1, 2], some 1⟩,
      ⟨"L1", [.ref ⟨7⟩ .global "getchar" 0, .call ⟨8⟩ ⟨7⟩ .int []], [2], some 2⟩,
      ⟨"L2", [.ret (some ⟨2⟩) .int], [], some 3⟩, ⟨"bb1", [.funcEnd], [], none⟩]⟩,
    ⟨"g", .int, [], [], [⟨"entry", [.ret none .int], [], some 1⟩, ⟨"bb1", [.funcEnd], [], none⟩]⟩]

theorem callers_closed : Flow.build callers = .ok callersGraph ∧
    ∃ p s', lower callersGraph (.new {} .empty ⟨none, []⟩ "f") = .ok p s' ∧
      p.foreign.map (·.name) = ["getchar"] ∧ p.Closed := by
  have hbuild : Flow.build callers = .ok callersGraph := by decide +kernel
  have hok : (result? (lower callersGraph) (.new {} .empty ⟨none, []⟩ "f")).map
      (fun p => p.foreign.map (·.name)) = some ["getchar"] := by cbv
  obtain ⟨p, s', hl, hforeign⟩ := exists_ok_of_result? hok
  exact ⟨hbuild, p, s', hl, hforeign, lower_closed hbuild rfl hl⟩

end Quadruple.Lowering
