import Quadruple.Proofs.Flow.Literals
import Quadruple.Proofs.Ir.Formed
import Quadruple.Proofs.Lowering.Shape

/-!
# Lowered programs are formed

Main statement: `formed_of_lower`. Every instruction that lowering makes has the operands that its
operation takes. `State.Formed` says what this relies on: the values that temporaries are bound to
and names are found at can be computed with, and no function has fewer than no parameters.
-/

namespace Quadruple

open List

namespace Lowering

open Symbols (Entry EntryId Table)

/-! ## States -/

def Binding.Formed (b : Binding) : Prop := b.val.IsOperand ∧ b.ty.IsData

/-- What holds of an entry: its place can be computed with, and so can what it stores or returns,
if that is anything. -/
structure EntryFormed (e : Entry) : Prop where
  handle : ∀ v, e.handle = some v → v.IsOperand
  elem : e.elem ≠ .none → e.elem.IsData
  fixed : 0 ≤ e.fixed

structure State.Formed (limit : Nat) (s : State) : Prop where
  bindings : ∀ p ∈ s.bindings, p.2.Formed
  entries : s.table.All EntryFormed
  foreign : ∀ e ∈ s.foreign, 0 ≤ e.fixed
  literals : ∀ bytes ∈ s.literals, bytes.length ≤ limit

variable {limit : Nat} {is : List Ir.Instr} {s : State} {f : Flow.Func}

theorem isData_word : Ir.Ty.IsData .word := .inl rfl

theorem isData_double : Ir.Ty.IsData .double := .inr (.inl rfl)

theorem isData_ptr : Ir.Ty.IsData .ptr := .inr (.inr rfl)

theorem isData_machineTy (tag : Tag) : (machineTy tag).IsData := by
  unfold machineTy
  split
  · exact isData_ptr
  · split
    · exact isData_double
    · exact isData_word

variable {want : Ir.Ty} {x : Ir.Value} {T : Table} {b : Flow.Block} {s' : State}

theorem formed_conversion (hx : x.IsOperand) (ty : Ir.Ty) (hty : ty.IsData) (r : Option Ir.Value) :
    Ir.Instr.Formed { conversion want x with ty, result := r } := by
  unfold conversion
  split
  · exact .unary rfl hty rfl hx
  · exact .unary rfl hty rfl hx

/-! ## Entries -/

theorem entryFormed_at {e : Entry} {v : Ir.Value} (hv : v.IsOperand) (hat : e.handle = some v)
    (helem : e.elem ≠ .none → e.elem.IsData) (hfixed : 0 ≤ e.fixed) : EntryFormed e := by
  refine ⟨fun w hw => ?_, helem, hfixed⟩
  rw [hat] at hw
  exact Option.some.inj hw ▸ hv

theorem entryFormed_new (name : String) (level : Nat) : EntryFormed { name, level } :=
  ⟨by simp, fun h => (h rfl).elim, Int.le_refl 0⟩

theorem lasting_formed : Lasting (Table.All EntryFormed) := by
  refine lasting_all entryFormed_new (fun _ d _ e he => ?_) (fun name e he => ?_)
    fun name k e _ => ?_
  · exact entryFormed_at (v := .temp d.name (-1)) trivial rfl (fun _ => isData_machineTy _) he.fixed
  · exact entryFormed_at (v := .global name) trivial rfl (fun _ => isData_machineTy _) he.fixed
  · exact entryFormed_at (v := .global name) trivial rfl (fun _ => isData_word)
      (Int.natCast_nonneg k)

theorem formed_declaredTable (g : Flow.Graph) (h : T.All EntryFormed) :
    (declaredTable g T).All EntryFormed := by
  refine all_declaredTable entryFormed_new (fun d hd e he => ?_) h
  simp only [declarations, mem_append, mem_map] at hd
  rcases hd with ⟨x, -, rfl⟩ | ⟨f, -, rfl⟩ | ⟨b, hb, rfl⟩
  · exact entryFormed_at (v := .global x.name) trivial rfl (fun _ => isData_machineTy _) he.fixed
  · exact entryFormed_at (v := .global f.name) trivial rfl (fun _ => isData_machineTy _)
      (Int.natCast_nonneg _)
  · have hbuiltin : (b.ret ≠ .none → b.ret.IsData) ∧ 0 ≤ b.fixed := by
      have hb := mem_of_mem_filter hb
      simp only [builtins, mem_cons, not_mem_nil, or_false] at hb
      rcases hb with rfl | rfl | rfl <;> simp [Ir.Ty.IsData]
    exact entryFormed_at (v := .global b.name) trivial rfl hbuiltin.1 hbuiltin.2

/-! ## Instructions -/

theorem operation?_takes_two {cls : OpClass} {op : String} {o : Ir.Op}
    (h : operation? cls op = some o) : o.isComparison = true ∨ o.isBinary = true := by
  unfold operation? at h
  split at h <;> first
    | exact Option.some.inj h ▸ .inl rfl
    | exact Option.some.inj h ▸ .inr rfl
    | cases h

theorem formed_defaultReturn (ret : Ir.Ty) : (defaultReturn ret).Formed := by
  unfold defaultReturn
  split
  · exact .ret rfl rfl rfl trivial
  · exact .leave rfl rfl rfl
  · exact .ret rfl rfl rfl trivial

theorem Coerced.formed {b : Binding} (h : Coerced b want is x)
    (hb : b.val.IsOperand) : (∀ i ∈ is, i.Formed) ∧ x.IsOperand := by
  cases h with
  | keep => exact ⟨by simp, hb⟩
  | convert k =>
    have hty : (conversion want b.val).ty.IsData := by
      unfold conversion
      split
      · exact isData_double
      · exact isData_word
    exact ⟨by simpa using formed_conversion hb _ hty _, trivial⟩

theorem isData_operandsTy (bs : List Binding) : (operandsTy bs).IsData := by
  unfold operandsTy
  split
  · exact isData_double
  · exact isData_word

theorem isData_castTy (tag : Tag) : (castTy tag).IsData := by
  unfold castTy
  split
  · exact isData_double
  · exact isData_word

/-- Where the values that an instruction comes by can be computed with, so can its result, and what
it becomes is formed. -/
theorem Makes.formed {q : Quad} {new : Option (Temp × Binding)} {ns : List Notice}
    (h : Makes s q is new ns) (hbound : ∀ t b, s.bound t = some b → b.Formed)
    (hfinds : ∀ storage name b, Finds s.table storage name b → b.Formed)
    (hcall : q.isCall = true → ∀ i ∈ is, i.ty ≠ .none → i.ty.IsData) :
    (∀ i ∈ is, i.Formed) ∧ ∀ p ∈ new.toList, p.2.Formed := by
  have hlast : ∀ {is : List Ir.Instr} {i : Ir.Instr}, (∀ i ∈ is, i.Formed) → i.Formed →
      ∀ j ∈ is ++ [i], j.Formed :=
    fun his hi => forall_mem_append.2 ⟨his, by simpa using hi⟩
  have hdefine : ∀ {is : List Ir.Instr} {dst : Temp} {ty : Ir.Ty} {i : Ir.Instr},
      (∀ i ∈ is, i.Formed) → ty.IsData → (computing dst ty i).Formed →
      (∀ j ∈ is ++ [computing dst ty i], j.Formed) ∧
        ∀ p ∈ (some (dst, computed dst ty)).toList, p.2.Formed := by
    intro is dst ty i his hty hi
    exact ⟨hlast his hi, by simpa using ⟨trivial, hty⟩⟩
  have hargs : ∀ {ts : List Temp} {bs : List Binding}, Bound s ts bs →
      (∀ x ∈ bs.map (·.val), x.IsOperand) ∧ ∀ ty ∈ bs.map (·.ty), ty.IsData := by
    intro ts bs hbs
    have hall : ∀ b ∈ bs, b.Formed := by
      intro b hb
      obtain ⟨t, -, hb⟩ := exists_of_forall₂ hbs hb
      exact hbound t b hb
    exact ⟨forall_mem_map.2 fun b hb => (hall b hb).1, forall_mem_map.2 fun b hb => (hall b hb).2⟩
  have hnil : ∀ i ∈ ([] : List Ir.Instr), i.Formed := by simp
  cases h with
  | mark | arg => exact ⟨hnil, by simp⟩
  | float => exact ⟨hnil, by simpa using ⟨trivial, isData_double⟩⟩
  | int => exact ⟨hnil, by simpa using ⟨trivial, isData_word⟩⟩
  | string => exact ⟨hnil, by simpa using ⟨trivial, isData_ptr⟩⟩
  | ref hb => exact ⟨hnil, by simpa using hfinds _ _ _ hb⟩
  | array hb | same hb => exact ⟨hnil, by simpa using hbound _ _ hb⟩
  | @load _ _ tag _ ha =>
    exact hdefine hnil (isData_machineTy tag)
      (.unary rfl (isData_machineTy tag) rfl (hbound _ _ ha).1)
  | @store _ _ _ tag _ _ _ _ ha _ hv hx =>
    obtain ⟨his, hx'⟩ := hx.formed (hbound _ _ hv).1
    refine ⟨hlast his (.store rfl (isData_machineTy tag) rfl rfl hx' (hbound _ _ ha).1), ?_⟩
    unfold stored
    split
    · simpa using ⟨hx', isData_machineTy tag⟩
    · simpa using hbound _ _ hv
  | index k ha _ hi hx =>
    refine ⟨?_, by simpa using ⟨trivial, isData_ptr⟩⟩
    have hi' := (hbound _ _ hi).1
    cases hx with
    | keep =>
      simpa using ⟨.binary rfl isData_ptr rfl hi' trivial,
        .binary rfl isData_ptr rfl (hbound _ _ ha).1 trivial⟩
    | extend =>
      simpa using ⟨.unary rfl isData_ptr rfl hi', .binary rfl isData_ptr rfl trivial trivial,
        .binary rfl isData_ptr rfl (hbound _ _ ha).1 trivial⟩
  | neg hb hx =>
    obtain ⟨his, hx'⟩ := hx.formed (hbound _ _ hb).1
    exact hdefine his (isData_operandsTy _) (.unary rfl (isData_operandsTy _) rfl hx')
  | not hb hx =>
    obtain ⟨his, hx'⟩ := hx.formed (hbound _ _ hb).1
    exact hdefine his isData_word (.binary rfl isData_word rfl hx' trivial)
  | @binary cls _ _ _ _ _ _ a b _ _ _ _ ha hb hop hv hw =>
    obtain ⟨his, hv'⟩ := hv.formed (hbound _ _ ha).1
    obtain ⟨hjs, hw'⟩ := hw.formed (hbound _ _ hb).1
    have hty : (cls.resultTy (operandsTy [a, b])).IsData := by
      cases cls <;> first | exact isData_operandsTy _ | exact isData_word
    have hwork : (cls.workTy (operandsTy [a, b])).IsData := by
      cases cls <;> first | exact isData_operandsTy _ | exact isData_word
    refine hdefine (forall_mem_append.2 ⟨his, hjs⟩) hty ?_
    rcases operation?_takes_two hop with ho | ho
    · exact .compare ho hwork rfl hv' hw'
    · exact .binary ho hty rfl hv' hw'
  | @cast _ _ tag _ hb =>
    exact hdefine hnil (isData_castTy tag)
      (formed_conversion (hbound _ _ hb).1 _ (isData_castTy tag) _)
  | call hi hty =>
    obtain ⟨hvals, htys⟩ := hargs hi.args
    exact hdefine hnil (hcall rfl _ mem_cons_self hty) (.call rfl rfl hvals htys)
  | procedure hi =>
    obtain ⟨hvals, htys⟩ := hargs hi.args
    exact ⟨hlast hnil (.call rfl rfl hvals htys), by simpa using ⟨trivial, isData_word⟩⟩
  | branch hc => exact ⟨hlast hnil (.branch rfl rfl rfl (hbound _ _ hc).1), by simp⟩
  | jump => exact ⟨hlast hnil (.jump rfl rfl rfl), by simp⟩
  | ret hb hx =>
    obtain ⟨his, hx'⟩ := hx.formed (hbound _ _ hb).1
    exact ⟨hlast his (.ret rfl rfl rfl hx'), by simp⟩
  | leave | funcEnd => exact ⟨hlast hnil (formed_defaultReturn _), by simp⟩

theorem State.Formed.finds (hs : s.Formed limit) {storage : Storage} {name : String} {b : Binding}
    (hb : Finds s.table storage name b) : b.Formed := by
  cases hb with
  | func => exact ⟨trivial, isData_ptr⟩
  | global _ _ _ hh | slot _ _ hh => exact ⟨(hs.entries _).handle _ hh, isData_ptr⟩

theorem State.Formed.visit {v : Visit} (hs : v.before.Formed limit) (hran : v.Ran)
    (hq : v.quad.literalBytes ≤ limit) :
    (∀ i ∈ v.instrs, i.Formed) ∧ v.after.Formed limit := by
  obtain ⟨new, ns, hmakes, hafter, -⟩ := hran.makes
  obtain ⟨hentries, hforeign, hcall⟩ : v.after.table.All EntryFormed ∧
      (∀ e ∈ v.after.foreign, 0 ≤ e.fixed) ∧
      (v.quad.isCall = true → ∀ i ∈ v.instrs, i.ty ≠ .none → i.ty.IsData) := by
    have hcalling := hafter.calling
    generalize v.quad = q, v.instrs = is at hcalling
    cases hcalling with
    | other hno ht hf =>
      rw [ht, hf, hno]
      exact ⟨hs.entries, hs.foreign, nofun⟩
    | @call _ _ _ _ _ id _ _ he hf _ _ hty =>
      have hentries := lasting_formed.call _ _ _ _ _ _ he hs.entries
      refine ⟨hentries, ?_, fun _ i hi => ?_⟩
      · rw [hf]
        unfold State.foreignWith
        split
        · exact hs.foreign
        · exact forall_mem_append.2 ⟨hs.foreign, by simpa using (hentries id).fixed⟩
      · rw [mem_singleton.1 hi, hty]
        exact (hentries id).elem
  have hbound : ∀ t b, v.before.bound t = some b → b.Formed := fun _ _ hb =>
    hs.bindings _ (mem_of_lookup hb)
  obtain ⟨his, hnew⟩ := hmakes.formed hbound (fun _ _ _ => hs.finds) hcall
  refine ⟨his, ?_, hentries, hforeign, fun bytes hbytes => ?_⟩
  · rw [hafter.bindings]
    exact forall_mem_append.2 ⟨hnew, hs.bindings⟩
  · rcases mem_literalsWith (hafter.literals ▸ hbytes) with hold | hnew
    · exact hs.literals bytes hold
    · cases htext : v.quad with
      | string dst text =>
        rw [htext] at hnew hq
        cases hnew
        refine (Text.length_unescape_le _).trans ?_
        rwa [Text.length_utf8Bytes]
      | _ =>
        rw [htext] at hnew
        cases hnew

theorem Closing.formed {ret : Ir.Ty} {tail : List Ir.Instr}
    (h : Closing f b ret is tail) : ∀ i ∈ tail, i.Formed := by
  have honward : (onward f b ret).Formed := by
    unfold onward
    split
    · exact .jump rfl rfl rfl
    · exact formed_defaultReturn ret
  have hzero : (Ir.Value.const 0).IsOperand := trivial
  cases h with
  | ended => simp
  | empty k => simpa using ⟨.unary rfl isData_word rfl hzero, honward⟩
  | «open» => simpa using honward

theorem formed_opening (f : Flow.Func) : ∀ i ∈ opening f, i.Formed := by
  intro i hi
  rcases mem_opening hi with ⟨d, rfl⟩ | ⟨p, -, rfl⟩
  · exact .alloc rfl rfl
  · have hval : ∀ name id, (Ir.Value.temp name id).IsOperand := fun _ _ => trivial
    exact .store rfl (isData_machineTy p.1.tag) rfl rfl (hval _ _) (hval _ _)

/-! ## Functions and programs -/

theorem Mirrors.ends {b' : Ir.Block} (h : Mirrors T f b b') :
    ∃ i ∈ b'.instrs, i.op.isTerminator = true := by
  obtain ⟨is, i, -, hinstrs, -, hi, -⟩ := h.last
  exact ⟨i, by simp [hinstrs], hi⟩

theorem Trail.Leads.formed {c : Trail} (h : c.Leads f s s') (hbuilt : f.Built)
    (hf : ∀ b ∈ f.blocks, ∀ q ∈ b.quads, q.literalBytes ≤ limit) (hs : s.Formed limit) :
    c.func.Formed ∧ s'.Formed limit := by
  have hbytes : ∀ v ∈ c.visits, v.quad.literalBytes ≤ limit := by
    intro v hv
    obtain ⟨b, hb, hpos⟩ := Option.bind_eq_some_iff.1 (h.of.quadAt? hv)
    exact hf b (mem_of_getElem? hb) _ (mem_of_getElem? hpos)
  have hfirst : c.first.Formed limit := by
    refine ⟨by simp [h.of.bindings], (lasting_formed.leads h hs.entries).1, ?_, ?_⟩ <;> rw [h.first]
    · exact hs.foreign
    · exact hs.literals
  obtain ⟨hvisits, hlast⟩ := h.of.run.invariant (I := State.Formed limit)
    (fun t t' hr ht => by
      rw [hr]
      exact ⟨ht.bindings, ht.entries, ht.foreign, ht.literals⟩)
    (fun v hv hran ht => (ht.visit hran (hbytes v hv)).2) hfirst
  have hmirrors := h.mirrors (T := s.table) hbuilt id
  rw [h.of.func] at hmirrors ⊢
  refine ⟨⟨isData_machineTy _, ?_, fun i hi => ?_, fun b' hb' => ?_⟩, ?_⟩
  · exact forall_mem_map.2 fun p _ => ⟨"arg", p.2, rfl⟩
  · obtain ⟨b', hb', hi⟩ := mem_flatMap.1 hi
    obtain ⟨seg, hseg, rfl⟩ := mem_map.1 hb'
    obtain ⟨k, hk⟩ := getElem?_of_mem hseg
    obtain ⟨b, hb, -⟩ := h.of.covers hk
    obtain ⟨seg', hseg', hcovers, hcloses⟩ := h.segment hb
    cases hk.symm.trans hseg'
    rw [hcovers.instrs, mem_append, mem_append] at hi
    rcases hi with hi | hi | hi
    · split at hi
      · exact formed_opening f i hi
      · cases hi
    · obtain ⟨v, hv, hi⟩ := mem_flatMap.1 hi
      have hmem : v ∈ c.visits := mem_flatMap.2 ⟨seg, hseg, hv⟩
      exact ((hvisits v hmem).visit (h.of.run.ran v hmem) (hbytes v hmem)).1 i hi
    · exact hcloses.tail.formed i hi
  · obtain ⟨b, -, hb⟩ := exists_of_forall₂ hmirrors hb'
    exact hb.ends
  · rw [h.last]
    exact ⟨hlast.bindings, hlast.entries, hlast.foreign, hlast.literals⟩

theorem formed_of_lower {g : Flow.Graph} (hg : ∀ f ∈ g.funcs, f.Built)
    (hliterals : ∀ f ∈ g.funcs, ∀ b ∈ f.blocks, ∀ q ∈ b.quads, q.literalBytes ≤ limit)
    {settings : Settings} {report : Report} {file : String} {p : Ir.Program}
    (h : lower g (.new settings .empty report file) = .ok p s') : p.Formed (limit + 1) := by
  obtain ⟨cs, htrails, rfl⟩ := exists_trails h
  have hstart : State.Formed limit (State.declared (.new settings .empty report file) g
      (declaredTable g .empty)) := by
    refine ⟨by simp [State.declared, State.new], formed_declaredTable g fun id => ?_,
      by simp [State.declared], by simp [State.declared]⟩
    exact entryFormed_new "" 0
  obtain ⟨hall, hlast⟩ := htrails.invariant (I := State.Formed limit)
    (fun f hf c t t' hc ht => (hc.formed (hg f hf) (hliterals f hf) ht).2) hstart
  refine ⟨forall_mem_map.2 fun c hc => ?_, hlast.foreign,
    forall_mem_map.2 fun d _ => ⟨d.width, rfl⟩, forall_mem_map.2 fun x hx => ?_⟩
  · obtain ⟨f, hf, t, t', hleads, ht⟩ := exists_of_forall₂ hall hc
    exact (hleads.formed (hg f hf) (hliterals f hf) ht).1
  · refine ⟨x.1 ++ [0], rfl, ?_⟩
    rw [length_append]
    exact Nat.succ_le_succ (hlast.literals x.1 (fst_mem_of_mem_zipIdx hx))

end Lowering

end Quadruple
