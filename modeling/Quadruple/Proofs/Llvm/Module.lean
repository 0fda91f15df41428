import Quadruple.Proofs.Ensures
import Quadruple.Proofs.Flow.Accept
import Quadruple.Proofs.Llvm.Body

/-!
# Programs as LLVM modules

Of functions with one name, a module has the body of all in the last; so a call returns what the
last returns, and parameters have the types that the last gives them. A program is regular when it
keeps to what this asks for: the labels of a function differ, functions with one name have enough
parameters in the last, operands have the types that instructions take, and no data is empty.

Main statement: `succeedsIff_render`. A regular program has a text just where every name that it
computes with is known: that of data, of a function that it defines, or of one that it calls. Where
it has none, the fault is such a name.
-/

namespace Quadruple

open List

/-! ## Results that may be missing -/

section SucceedsIff

variable {ε σ α β : Type} {xs : List α} {f : α → Except ε β}

/-- Where `accepted` holds there is a result, of which `P` holds, and else a fault, of which `E`
holds. -/
def SucceedsIff (x : Except ε α) (accepted : Prop) (P : α → Prop) (E : ε → Prop) : Prop :=
  accepted ∧ (∃ a, x = .ok a ∧ P a) ∨ ¬accepted ∧ ∃ e, x = .error e ∧ E e

theorem SucceedsIff.foldlM {f : σ → α → Except ε σ} {I : σ → Prop} {A : α → Prop} {E : ε → Prop}
    {s : σ} (h : I s) (hstep : ∀ x ∈ xs, ∀ t, I t → SucceedsIff (f t x) (A x) I E) :
    SucceedsIff (xs.foldlM f s) (∀ x ∈ xs, A x) I E := by
  induction xs generalizing s with
  | nil => exact .inl ⟨by simp, s, rfl, h⟩
  | cons x xs ih =>
    rw [foldlM_cons, forall_mem_cons]
    rcases hstep x mem_cons_self s h with ⟨hx, t, ht, hI⟩ | ⟨hx, e, he, hE⟩
    · rw [ht]
      refine (ih hI fun y hy => hstep y (mem_cons_of_mem _ hy)).imp ?_ ?_
      · exact fun hxs => ⟨⟨hx, hxs.1⟩, hxs.2⟩
      · exact fun hxs => ⟨fun hall => hxs.1 hall.2, hxs.2⟩
    · rw [he]
      exact .inr ⟨fun hall => hx hall.1, e, rfl, hE⟩

theorem exists_bind_ok {x : Except ε α} (hx : ∃ a, x = .ok a) (hf : ∀ a, ∃ b, f a = .ok b) :
    ∃ b, (x >>= f) = .ok b := by
  obtain ⟨a, rfl⟩ := hx
  exact hf a

theorem exists_mapM_ok (h : ∀ x ∈ xs, ∃ y, f x = .ok y) : ∃ ys, xs.mapM f = .ok ys := by
  obtain ⟨ys, hys⟩ := Flow.Draft.exists_forall₂ h
  exact ⟨ys, Flow.mapM_ok_iff.2 hys⟩

theorem exists_mapM_ok_forall₂ {R : α → β → Prop} (h : ∀ x ∈ xs, ∃ y, f x = .ok y ∧ R x y) :
    ∃ ys, xs.mapM f = .ok ys ∧ Forall₂ R xs ys := by
  obtain ⟨ys, hys⟩ := Flow.Draft.exists_forall₂ h
  exact ⟨ys, Flow.mapM_ok_iff.2 (hys.imp fun _ _ hy => hy.1), hys.imp fun _ _ hy => hy.2⟩

end SucceedsIff

/-! ## Regular programs -/

namespace Ir.Program

open Llvm (Scalar Types WellTyped computedWith scalar)

def addressTy (p : Program) : Scalar := if p.wordSize = 4 then .i32 else .i64

def returnTys (p : Program) : List (String × Scalar) :=
  p.funcs.map (fun f => (f.name, scalar p.addressTy f.ret)) ++
    p.foreign.map fun e => (e.name, scalar p.addressTy e.ret)

/-- What a call of a name returns: what the last function of the name does. -/
def returns (p : Program) (name : String) : Scalar := (p.returnTys.reverse.lookup name).getD .void

def paramTys (p : Program) (name : String) : List Scalar :=
  ((p.funcs.reverse.find? (·.name == name)).map fun f =>
    f.params.map fun q => scalar p.addressTy q.ty).getD []

def startTypes (p : Program) (f : Func) : Types :=
  ((f.params.zip (p.paramTys f.name)).map fun q => (q.1.val.shown, q.2)).reverse

structure Regular (p : Program) : Prop where
  labels : ∀ f ∈ p.funcs, (f.blocks.map (·.label)).Nodup
  params : ∀ f ∈ p.funcs, f.params.length ≤ (p.paramTys f.name).length
  typed : ∀ f ∈ p.funcs, WellTyped p.addressTy p.returns (p.startTypes f) f.instrs
  sized : ∀ d ∈ p.globals, ∀ i ∈ d.items, i.count ≠ 0

def Has (p : Program) (name : String) : Prop :=
  (∃ d ∈ p.globals ++ p.strings, d.name = name) ∨ ∃ q ∈ p.returnTys, q.1 = name

def Knows (p : Program) : Value → Prop
  | .global name => p.Has name
  | _ => True

def KnowsIn (p : Program) (f : Func) : Prop := ∀ i ∈ f.instrs, ∀ v ∈ computedWith i, p.Knows v

def Known (p : Program) : Prop := ∀ f ∈ p.funcs, p.KnowsIn f

instance (p : Program) : Decidable p.Regular :=
  decidable_of_iff
    ((∀ f ∈ p.funcs, (f.blocks.map (·.label)).Nodup ∧
        f.params.length ≤ (p.paramTys f.name).length ∧
        WellTyped p.addressTy p.returns (p.startTypes f) f.instrs) ∧
      ∀ d ∈ p.globals, ∀ i ∈ d.items, i.count ≠ 0)
    ⟨fun h => ⟨fun f hf => (h.1 f hf).1, fun f hf => (h.1 f hf).2.1, fun f hf => (h.1 f hf).2.2,
        h.2⟩,
      fun h => ⟨fun f hf => ⟨h.labels f hf, h.params f hf, h.typed f hf⟩, h.sized⟩⟩

instance (p : Program) (name : String) : Decidable (p.Has name) :=
  inferInstanceAs (Decidable (_ ∨ _))

instance decidableKnows (p : Program) : (v : Value) → Decidable (p.Knows v)
  | .global name => inferInstanceAs (Decidable (p.Has name))
  | .const _ | .float .. | .temp .. | .label _ | .missing => inferInstanceAs (Decidable True)

instance (p : Program) (f : Func) : Decidable (p.KnowsIn f) :=
  inferInstanceAs (Decidable (∀ i ∈ f.instrs, ∀ v ∈ computedWith i, p.Knows v))

instance (p : Program) : Decidable p.Known :=
  inferInstanceAs (Decidable (∀ f ∈ p.funcs, p.KnowsIn f))

end Ir.Program

namespace Llvm

open Numeral (wrap64)

variable {p : Ir.Program} {m : Module} {f : Ir.Func} {limit : Nat} {d : Ir.Data}

/-! ## Modules of a program -/

def Func.head (f : Func) : String × Signature := (f.name, f.sig)

/-- A module with the names of a program, where all blocks so far have an end. -/
structure Module.Serves (m : Module) (p : Ir.Program) : Prop where
  globals : m.globals.toList.map (·.name) = (p.globals ++ p.strings).map (·.name)
  heads : ∃ foreign : List (String × Signature),
    m.funcs.toList.map Func.head = p.funcs.map (fun f => (funcHead p.addressTy f).head) ++ foreign ∧
    foreign.map (fun h => (h.1, h.2.ret)) =
      p.foreign.map fun e => (e.name, scalar p.addressTy e.ret)
  ended : ∀ f ∈ m.funcs, ∀ b ∈ f.blocks, b.terminator.isSome = true

theorem Module.Serves.returnTys (h : m.Serves p) :
    m.funcs.toList.map (fun f => (f.name, f.sig.ret)) = p.returnTys := by
  obtain ⟨foreign, hheads, hforeign⟩ := h.heads
  have hmap := congrArg (map fun h : String × Signature => (h.1, h.2.ret)) hheads
  rw [map_map, map_append, hforeign, map_map] at hmap
  exact hmap

theorem Module.Serves.mem_funcs (h : m.Serves p) (name : String) :
    (∃ g ∈ m.funcs, g.name = name) ↔ ∃ q ∈ p.returnTys, q.1 = name := by
  rw [← h.returnTys]
  simp

theorem Module.Serves.has (h : m.Serves p) (name : String) : m.Has name ↔ p.Has name := by
  refine or_congr ?_ (h.mem_funcs name)
  have hglobals : name ∈ m.globals.toList.map (·.name) ↔
      name ∈ (p.globals ++ p.strings).map (·.name) := by rw [h.globals]
  simpa only [mem_map, Array.mem_toList_iff] using hglobals

theorem Module.Serves.knows (h : m.Serves p) (v : Ir.Value) : m.Knows v ↔ p.Knows v := by
  cases v with
  | global name => exact h.has name
  | _ => exact Iff.rfl

theorem Module.Serves.returns (h : m.Serves p) : m.returns = p.returns := by
  funext name
  unfold Module.returns Ir.Program.returns
  rw [← h.returnTys, ← map_reverse, lookup_map_eq_find?, lastIndex?_bind]
  cases m.funcs.toList.reverse.find? (·.name == name) <;> rfl

theorem Module.Serves.last (h : m.Serves p) (hp : p.Closed) (hf : f ∈ p.funcs) :
    ∃ k g, lastIndex? m.funcs (·.name == f.name) = some k ∧ m.funcs[k]? = some g ∧
      g.sig.params = p.paramTys f.name := by
  obtain ⟨foreign, hheads, hforeign⟩ := h.heads
  have hsome : (lastIndex? m.funcs (·.name == f.name)).isSome = true := by
    refine exists_name_iff.2 ((h.mem_funcs f.name).2 ?_)
    exact ⟨_, mem_append_left _ (mem_map_of_mem hf), rfl⟩
  obtain ⟨k, hk⟩ := Option.isSome_iff_exists.1 hsome
  obtain ⟨g, hg, -⟩ := lastIndex?_some hk
  refine ⟨k, g, hk, hg, ?_⟩
  -- no foreign function has the name, so the last is one that the program defines
  have hnone : foreign.reverse.lookup f.name = none := by
    refine lookup_eq_none_iff.2 fun q hq => ?_
    have hmem : q.1 ∈ p.foreign.map (·.name) := by
      have hmap := congrArg (map Prod.fst) hforeign
      rw [map_map, map_map] at hmap
      exact hmap ▸ mem_map_of_mem (mem_reverse.1 hq)
    simpa using ((hp.foreign q.1).1 hmem).2 f hf
  have hlast : m.funcs.toList.reverse.find? (·.name == f.name) = some g := by
    rw [← lastIndex?_bind, hk, Option.bind_some, hg]
  have hfound := lookup_map_eq_find? (fun g : Func => g.name) (·.sig) m.funcs.toList.reverse f.name
  have hown := lookup_map_eq_find? (fun f : Ir.Func => f.name)
    (fun f => (funcHead p.addressTy f).sig) p.funcs.reverse f.name
  have hheads := congrArg (fun l => l.reverse.lookup f.name) hheads
  simp only [reverse_append, lookup_append, hnone, Option.none_or] at hheads
  rw [hlast, map_reverse] at hfound
  rw [map_reverse] at hown
  have hsig := (hfound.symm.trans hheads).trans hown
  unfold Ir.Program.paramTys
  cases hfind : p.funcs.reverse.find? (·.name == f.name) with
  | none =>
    rw [hfind] at hsig
    cases hsig
  | some h =>
    rw [hfind] at hsig
    exact congrArg Signature.params (Option.some.inj hsig)

/-! ## Bodies -/

theorem paramValues_ok {sig : Signature} {params : List Ir.Param}
    (hvals : ∀ q ∈ params, ∃ name id, q.val = .temp name id)
    (hlen : params.length ≤ sig.params.length) :
    ∃ values, paramValues sig params = .ok values ∧
      values.map (fun v => (v.1, v.2.ty)) =
        (params.zip sig.params).map fun q => (q.1.val.shown, q.2) := by
  obtain ⟨values, hvalues, hrel⟩ : ∃ values, paramValues sig params = .ok values ∧
      Forall₂ (fun q v => v.1 = q.1.val.shown ∧ sig.params[q.2]? = some v.2.ty)
        params.zipIdx values := by
    refine exists_mapM_ok_forall₂ fun q hq => ?_
    obtain ⟨name, id, hval⟩ := hvals q.1 (fst_mem_of_mem_zipIdx hq)
    have hlt : q.2 < sig.params.length := by
      have := snd_lt_of_mem_zipIdx hq
      omega
    simp only [hval, getElem?_eq_getElem hlt]
    exact ⟨_, rfl, rfl, rfl⟩
  have hsize : params.length = values.length := by simpa using hrel.length_eq
  refine ⟨values, hvalues, ext_getElem (by simp; omega) fun n hn hn' => ?_⟩
  rw [length_map] at hn
  obtain ⟨htext, hty⟩ := hrel.get (by simpa [hsize] using hn) hn
  obtain ⟨hlt, hty⟩ := List.getElem?_eq_some_iff.1 hty
  simp_all

variable {g : Func} {k : Nat} {b : Body} {bytes : List UInt8} (wordSize : Int)

theorem Module.Serves.withBlocks (h : m.Serves p) (hg : m.funcs[k]? = some g) {blocks : Array Block}
    (hblocks : ∀ b ∈ blocks, b.terminator.isSome = true) (n : Nat) :
    Module.Serves
      { m with
        funcs := m.funcs.setIfInBounds k { g with
          blocks := g.blocks ++ blocks
          instrCount := n } } p := by
  refine ⟨h.globals, ?_, fun f' hf' b hb => ?_⟩
  · rw [Array.toList_setIfInBounds, map_set]
    obtain ⟨hlt, rfl⟩ := Array.getElem?_eq_some_iff.1 hg
    have hset : (m.funcs.toList.map Func.head).set k m.funcs[k].head =
        m.funcs.toList.map Func.head := by
      rw [← Array.getElem_toList hlt, ← map_set, set_getElem_self]
    exact hset.symm ▸ h.heads
  · rcases Array.mem_or_eq_of_mem_setIfInBounds hf' with hf' | rfl
    · exact h.ended f' hf' b hb
    · rcases Array.mem_append.1 hb with hb | hb
      · exact h.ended g (Array.mem_of_getElem? hg) b hb
      · exact hblocks b hb

theorem isWord_addressTy (p : Ir.Program) : p.addressTy.IsWord := by
  unfold Ir.Program.addressTy
  split
  · exact .inl rfl
  · exact .inr rfl

def scopeOf (p : Ir.Program) (m : Module) (f : Ir.Func) (hret : f.ret.IsData) : Scope where
  word := p.addressTy
  module := m
  ret := scalar p.addressTy f.ret
  names := (f.blocks.map (·.label)).toArray
  isWord := isWord_addressTy p
  isPlain := isPlain_scalar (isWord_addressTy p) hret

theorem defines_startTypes (hlen : f.params.length ≤ (p.paramTys f.name).length) {q : Ir.Param}
    (hq : q ∈ f.params) : (p.startTypes f).Defines q.val := by
  obtain ⟨n, hn, rfl⟩ := getElem_of_mem hq
  cases hval : f.params[n].val with
  | temp name id =>
    refine lookup_isSome_iff.2 ⟨(f.params[n].val.shown, (p.paramTys f.name)[n]), ?_, ?_⟩
    · refine mem_reverse.2 (mem_map.2 ⟨(f.params[n], (p.paramTys f.name)[n]), ?_, rfl⟩)
      rw [← getElem_zip (h := by simp; omega)]
      exact getElem_mem _
    · simp [hval]
  | _ => trivial

theorem Module.Serves.takes (h : m.Serves p) (hp : p.Closed) (hf : f ∈ p.funcs) (hformed : f.Formed)
    (hreg : p.Regular) : (scopeOf p m f hformed.ret).Takes (p.startTypes f) f.instrs := by
  refine Scope.takes_of_closed (hp.funcs f hf) hformed (fun k hk => ?_) (fun name hname => ?_)
    (fun q hq => defines_startTypes (hreg.params f hf) hq) ?_
  · exact mem_toArray.2 (mem_map_of_mem hk)
  · refine (h.mem_funcs name).2 ?_
    rcases hname with ⟨g, hg, rfl⟩ | ⟨e, he, rfl⟩
    · exact ⟨_, mem_append_left _ (mem_map_of_mem hg), rfl⟩
    · exact ⟨_, mem_append_right _ (mem_map_of_mem he), rfl⟩
  · show WellTyped p.addressTy m.returns (p.startTypes f) f.instrs
    rw [h.returns]
    exact hreg.typed f hf

theorem Body.Stands.all_ended {hret : f.ret.IsData} {ended : Nat → Prop} {Γ : Types} {j : Nat}
    (hlabels : (f.blocks.map (·.label)).Nodup) (h : b.Stands ⟨scopeOf p m f hret, j⟩
      (fun n => ended n ∨ ∃ k ∈ f.blocks, n = (scopeOf p m f hret).place k.label) Γ True) :
    ∀ x ∈ b.blocks, x.terminator.isSome = true := by
  intro x hx
  obtain ⟨n, hn, rfl⟩ := Array.getElem_of_mem hx
  have hsize : b.blocks.size = f.blocks.length := by
    have hnames := congrArg Array.size h.names
    simpa [scopeOf] using hnames
  have hlt : n < (scopeOf p m f hret).names.size := by simpa [scopeOf, hsize] using hn
  have hplace : n = (scopeOf p m f hret).place (f.blocks[n]).label := by
    have hplace := Scope.place_of_nodup (c := scopeOf p m f hret) hlabels hlt
    simpa [scopeOf] using hplace.symm
  obtain ⟨y, hy, hend⟩ := h.ended n hlt (.inr ⟨f.blocks[n], getElem_mem _, hplace⟩)
  rw [Array.getElem?_eq_getElem hn, Option.some.injEq] at hy
  exact hy ▸ hend

/-- The body of a function in the making at its start, where `g` is the function of the module that
it goes to. -/
def startBody (word : Scalar) (m : Module) (f : Ir.Func) (g : Func)
    (values : List (String × Operand)) : Body where
  word
  module := m
  ret := scalar word f.ret
  firstBlock := g.blocks.size
  blocks := (f.blocks.map fun b => { name := b.label : Block }).toArray
  current := 0
  nextInstr := g.instrCount
  values := values.reverse
  refusal := none

theorem addBody_eq {word : Scalar} {values : List (String × Operand)}
    (hk : lastIndex? m.funcs (·.name == f.name) = some k) (hg : m.funcs[k]? = some g)
    (hvalues : paramValues g.sig f.params = .ok values)
    (hrun : buildBlocks f.blocks (startBody word m f g values) = .ok () b) :
    addBody word m f = match b.refusal with
      | some why => .error (.refused f.name why)
      | none => .ok { m with
          funcs := m.funcs.setIfInBounds k { g with
            blocks := g.blocks ++ b.blocks.map fun x => { x with instrs := x.instrs.reverse }
            instrCount := b.nextInstr } } := by
  simp only [addBody, hk, hg, Option.getD_some, hvalues, Except.mapError, bind, Except.bind]
  rw [EStateM.run, ← startBody.eq_def, hrun]
  rfl

/-- The fault that a function of a program uses a name that the program does not have. -/
def Fault.IsUnknown (p : Ir.Program) (e : Fault) : Prop :=
  ∃ f ∈ p.funcs, ∃ name, e = .refused f.name (.unknownGlobal name) ∧ ¬p.Has name

theorem succeedsIff_addBody (hp : p.Closed) (hformed : p.Formed limit) (hreg : p.Regular)
    (hf : f ∈ p.funcs) (h : m.Serves p) :
    SucceedsIff (addBody p.addressTy m f) (p.KnowsIn f) (Module.Serves · p)
      (Fault.IsUnknown p) := by
  have hff := hformed.funcs f hf
  obtain ⟨k, g, hk, hg, hparams⟩ := h.last hp hf
  have hlen : f.params.length ≤ g.sig.params.length := hparams ▸ hreg.params f hf
  obtain ⟨values, hvalues, htypes⟩ := paramValues_ok hff.params hlen
  have hstart : (startBody p.addressTy m f g values).Stands ⟨scopeOf p m f hff.ret, 0⟩
      (fun _ => False) (p.startTypes f) True := by
    refine ⟨rfl, rfl, rfl, ?_, rfl, fun _ _ hk => hk.elim, ?_, iff_of_true rfl trivial,
      fun _ hr => nomatch hr⟩
    · simp [startBody, scopeOf]
    · simp [startBody, Body.types, htypes, Ir.Program.startTypes, hparams]
  obtain ⟨_, b, hrun, hpasses⟩ := hstart.buildBlocks hff.ends (h.takes hp hf hff hreg)
  have hknown : (∀ k ∈ f.blocks, ∀ i ∈ k.instrs, m.Accepts i) ↔ p.KnowsIn f := by
    unfold Ir.Program.KnowsIn Module.Accepts Ir.Func.instrs
    simp only [h.knows, forall_mem_flatMap]
  rw [addBody_eq hk hg hvalues hrun]
  rcases hpasses with ⟨hacc, j, Γ, hb⟩ | ⟨hnot, name, hrefusal, hname⟩
  · rw [hb.refusal.2 trivial]
    refine .inl ⟨hknown.1 hacc, _, rfl, h.withBlocks hg (fun x hx => ?_) _⟩
    obtain ⟨y, hy, rfl⟩ := Array.mem_map.1 hx
    exact hb.all_ended (hreg.labels f hf) y hy
  · rw [hrefusal]
    exact .inr ⟨fun hall => hnot (hknown.2 hall), _, rfl, f, hf, name, rfl, mt (h.has name).2 hname⟩

/-! ## Data and declarations -/

theorem size_bytes (hitems : d.items = bytes.map Ir.byteItem)
    (hlen : bytes.length < 9223372036854775808) : d.size wordSize = bytes.length := by
  unfold Ir.Data.size
  rw [hitems, foldl_map]
  -- over the bytes behind any number of others
  have hfrom : ∀ (bytes : List UInt8) (n : Nat), n + bytes.length < 9223372036854775808 →
      bytes.foldl (fun s b => wrap64 (s + (Ir.byteItem b).size wordSize)) (n : Int) =
        (n + bytes.length : Nat) := by
    intro bytes
    induction bytes with
    | nil => exact fun n _ => rfl
    | cons b bytes ih =>
      intro n hn
      rw [length_cons] at hn
      have hstep : wrap64 (n + (Ir.byteItem b).size wordSize) = (n + 1 : Nat) := by
        have hone : (Ir.byteItem b).size wordSize = 1 := rfl
        rw [hone, wrap64, Int.bmod_eq_of_le (by omega) (by omega)]
        rfl
      rw [foldl_cons, hstep, ih (n + 1) (by omega), length_cons]
      omega
  simpa using hfrom bytes 0 (by omega)

theorem itemBytes_byteItem (name : String) (b : UInt8) :
    ∃ bytes, itemBytes name (Ir.byteItem b) = .ok bytes := ⟨_, rfl⟩

theorem dataGlobal_of_sized (h : ∀ i ∈ d.items, i.count ≠ 0) :
    ∃ g, dataGlobal wordSize d = .ok g ∧ g.name = d.name := by
  unfold dataGlobal
  rw [if_pos (by simpa using h)]
  exact ⟨_, rfl, rfl⟩

theorem dataGlobal_of_bytes (hitems : d.items = bytes.map Ir.byteItem)
    (hlen : bytes.length ≤ maxBytes) : ∃ g, dataGlobal wordSize d = .ok g ∧ g.name = d.name := by
  unfold dataGlobal
  have hsize : d.size wordSize = bytes.length := size_bytes wordSize hitems (by
    unfold maxBytes at hlen
    omega)
  have hall : ∀ i ∈ d.items, ∃ ys, itemBytes d.name i = .ok ys := by
    rw [hitems, forall_mem_map]
    exact fun b _ => itemBytes_byteItem d.name b
  obtain ⟨ys, hys⟩ := exists_mapM_ok hall
  split
  · exact ⟨_, rfl, rfl⟩
  · rw [if_neg (by simp [hsize]; omega), hys]
    exact ⟨_, rfl, rfl⟩

theorem foreignHead_ok (word : Scalar) (p : Ir.Program) {e : Ir.Foreign} (he : 0 ≤ e.fixed) :
    ∃ g, foreignHead word p e = .ok g ∧
      (g.name, g.sig.ret) = (e.name, scalar word e.ret) ∧ g.blocks = #[] := by
  simp only [foreignHead]
  split
  · rw [if_neg (by omega)]
    exact ⟨foreignHead.head word e _, rfl, rfl, rfl⟩
  · exact ⟨foreignHead.head word e _, rfl, rfl, rfl⟩

/-! ## Texts -/

theorem dataGlobal_ok (hformed : p.Formed limit) (hlimit : limit ≤ maxBytes) (hreg : p.Regular)
    (hd : d ∈ p.globals ++ p.strings) : ∃ g, dataGlobal p.wordSize d = .ok g ∧ g.name = d.name := by
  rcases mem_append.1 hd with hd | hd
  · exact dataGlobal_of_sized p.wordSize (hreg.sized d hd)
  · obtain ⟨bytes, hitems, hlen⟩ := hformed.strings d hd
    exact dataGlobal_of_bytes p.wordSize hitems (by omega)

theorem exists_build_eq (hformed : p.Formed limit) (hlimit : limit ≤ maxBytes) (hreg : p.Regular) :
    ∃ m, build p = p.funcs.foldlM (addBody p.addressTy) m ∧ m.Serves p := by
  obtain ⟨globals, hglobals, hnames⟩ :=
    exists_mapM_ok_forall₂ fun d hd => dataGlobal_ok hformed hlimit hreg (d := d) hd
  obtain ⟨foreign, hforeign, hheads⟩ :=
    exists_mapM_ok_forall₂ fun e he => foreignHead_ok p.addressTy p (hformed.foreign e he)
  refine ⟨⟨globals.toArray, (p.funcs.map (funcHead p.addressTy) ++ foreign).toArray⟩, ?_, ?_⟩
  · simp only [build, ← Ir.Program.addressTy.eq_def, hglobals, hforeign, bind, Except.bind]
  · refine ⟨map_eq_of_forall₂ hnames, ⟨foreign.map Func.head, by simp, ?_⟩, fun f hf b hb => ?_⟩
    · rw [map_map]
      exact map_eq_of_forall₂ (hheads.imp fun _ _ h => h.1)
    · have hempty : f.blocks = #[] := by
        rcases mem_append.1 (mem_toArray.1 hf) with hf | hf
        · obtain ⟨h, -, rfl⟩ := mem_map.1 hf
          rfl
        · obtain ⟨e, -, he⟩ := exists_of_forall₂ hheads hf
          exact he.2
      simp [hempty] at hb

theorem blockText_ok (c : Context) (i : Nat) {b : Block} (hb : b.terminator.isSome = true) :
    ∃ text, blockText c i b = .ok text := by
  obtain ⟨t, ht⟩ := Option.isSome_iff_exists.1 hb
  unfold blockText
  rw [ht]
  exact ⟨_, rfl⟩

theorem funcText_ok (c : Context) (name : String)
    (hc : ∀ b ∈ c.func.blocks, b.terminator.isSome = true) :
    ∃ text, funcText c name = .ok text := by
  simp only [funcText]
  split
  · exact ⟨_, rfl⟩
  · refine exists_bind_ok (exists_mapM_ok fun b hb => ?_) fun _ => ⟨_, rfl⟩
    exact blockText_ok c b.2 (hc b.1 (Array.mem_toList_iff.1 (fst_mem_of_mem_zipIdx hb)))

theorem Module.text_ok (hm : ∀ f ∈ m.funcs, ∀ b ∈ f.blocks, b.terminator.isSome = true) :
    ∃ text, m.text = .ok text := by
  refine exists_bind_ok (exists_mapM_ok fun q hq => funcText_ok _ q.2 ?_) fun _ => ⟨_, rfl⟩
  exact hm q.1 (Array.mem_toList_iff.1 (of_mem_zip hq).1)

theorem succeedsIff_render (hp : p.Closed) (hformed : p.Formed limit) (hlimit : limit ≤ maxBytes)
    (hreg : p.Regular) : SucceedsIff (render p) p.Known (fun _ => True) (Fault.IsUnknown p) := by
  obtain ⟨start, hbuild, hstart⟩ := exists_build_eq hformed hlimit hreg
  have hgives : SucceedsIff (build p) p.Known (Module.Serves · p) (Fault.IsUnknown p) := by
    rw [hbuild]
    exact .foldlM hstart fun f hf m hm => succeedsIff_addBody hp hformed hreg hf hm
  unfold render
  rcases hgives with ⟨hknown, m, hm, hserves⟩ | ⟨hnot, e, he, hunknown⟩
  · obtain ⟨text, htext⟩ := Module.text_ok hserves.ended
    rw [hm]
    exact .inl ⟨hknown, text, by simp [bind, Except.bind, htext, Except.mapError], trivial⟩
  · rw [he]
    exact .inr ⟨hnot, e, rfl, hunknown⟩

end Llvm

end Quadruple
