import Quadruple.Proofs.Flow.Content
import Quadruple.Proofs.Source.Typing

/-!
# Checked code

What each instruction needs of the temporaries that it uses, and what it makes of the one that it
defines: an int or a double, the address of one, the address of a block of memory, or a function.
Code is checked when this goes through in order, so that every temporary is defined before it is
used, addresses and values are not mixed up, and the tags say what the operands are.

Main statement: `checks_blocks`. The instructions in the blocks of a function are checked when the
code that the function is built from is.
-/

namespace Quadruple.Source

open List
open Quadruple.Flow (Equations Routine fuse?)

inductive Kind where
  | value (ty : Ty)
  /-- The address of a value. -/
  | place (ty : Ty)
  /-- The address of an array or a string. -/
  | block
  | func (name : String)
deriving DecidableEq, Repr

abbrev Kinds := Temp → Option Kind

variable {K1 K : Kinds} {body ts decls seg : List Quad} {f : Flow.Func}

namespace Kinds

def none : Kinds := fun _ => Option.none

def add (K : Kinds) : Option (Temp × Kind) → Kinds
  | Option.none => K
  | some (t, k) => Function.update K t (some k)

def Le (K K' : Kinds) : Prop := ∀ t k, K t = some k → K' t = some k

theorem Le.refl (K : Kinds) : K.Le K := fun _ _ h => h

theorem Le.trans {K2 K3 : Kinds} (h : K1.Le K2) (h' : K2.Le K3) : K1.Le K3 :=
  fun t k hk => h' t k (h t k hk)

theorem add_self (K : Kinds) (t : Temp) (k : Kind) : K.add (some (t, k)) t = some k := by simp [add]

theorem add_of_ne {t u : Temp} {k : Kind} (h : u ≠ t) : K.add (some (t, k)) u = K u := by
  simp [add, h]

theorem le_add {t : Temp} (ht : K t = Option.none) (k : Kind) : K.Le (K.add (some (t, k))) := by
  intro u k' hu
  have hne : u ≠ t := by
    rintro rfl
    simp [ht] at hu
  rwa [add_of_ne hne]

end Kinds

/-! ## Instructions -/

/-- The instruction is right over the names `Γ` and the temporaries `K`; it defines the last
argument, or nothing. -/
inductive Gives (Γ : Names) (K : Kinds) : Quad → Option (Temp × Kind) → Prop
  | stmtBegin (line : Int) : Gives Γ K (.stmtBegin line) none
  | label (n : Int) : Gives Γ K (.label n) none
  | patch (b n : Int) : Gives Γ K (.patch b n) none
  | jump (target : Target) : Gives Γ K (.jump target) none
  | funcEnd : Gives Γ K .funcEnd none
  | condJump {c : Temp} {k : Kind} {target : Target} :
      K c = some k → Gives Γ K (.condJump c target) none
  | branch {c : Temp} {k : Kind} {onTrue onFalse : Target} :
      K c = some k → Gives Γ K (.branch c onTrue onFalse) none
  | ret {val : Option Temp} {tag : Tag} :
      (∀ x ∈ val, ∃ ty, K x = some (.value ty)) → Gives Γ K (.ret val tag) none
  | arg {x : Temp} {k : Kind} {tag : Tag} : K x = some k → Gives Γ K (.arg x tag) none
  | const {dst : Temp} {text : String} {ty : Ty} :
      IsConstant text ty → Gives Γ K (.const dst text ty.tag) (some (dst, .value ty))
  | string {dst : Temp} {text : String} : Gives Γ K (.string dst text) (some (dst, .block))
  | scalar {dst : Temp} {storage : Storage} {name : String} {offset : Int} {ty : Ty} :
      Γ.var? name = some (storage, ty.tag) →
        Gives Γ K (.ref dst storage name offset) (some (dst, .place ty))
  | array {dst : Temp} {storage : Storage} {name : String} {offset : Int} {ty : Ty} :
      Γ.var? name = some (storage, ty.tag.union .array) →
        Gives Γ K (.ref dst storage name offset) (some (dst, .block))
  | func {dst : Temp} {name : String} {offset : Int} {sig : Signature} :
      Γ.calls name = some sig → Gives Γ K (.ref dst .global name offset) (some (dst, .func name))
  | load {dst addr : Temp} {ty : Ty} :
      K addr = some (.place ty) → Gives Γ K (.load dst addr ty.tag) (some (dst, .value ty))
  | store {dst addr val : Temp} {ty : Ty} : K addr = some (.place ty) →
      K val = some (.value ty) → Gives Γ K (.store dst addr val ty.tag) (some (dst, .value ty))
  | index {dst base idx : Temp} {ty : Ty} : K base = some .block → K idx = some (.value .int) →
      Gives Γ K (.index dst base idx ty.tag) (some (dst, .place ty))
  | negate {dst x : Temp} {ty : Ty} :
      K x = some (.value ty) → Gives Γ K (.unary dst "-" x ty.tag) (some (dst, .value ty))
  | complement {dst x : Temp} :
      K x = some (.value .int) → Gives Γ K (.unary dst "~" x .int) (some (dst, .value .int))
  | arith {dst x y : Temp} {ty : Ty} (op : Op .arith) :
      K x = some (.value ty) → K y = some (.value ty) →
        Gives Γ K (.binary .arith dst op.text x y ty.tag) (some (dst, .value ty))
  | bitwise {dst x y : Temp} (op : Op .bitwise) :
      K x = some (.value .int) → K y = some (.value .int) →
        Gives Γ K (.binary .bitwise dst op.text x y .int) (some (dst, .value .int))
  | compare {dst x y : Temp} {ty : Ty} (op : Op .compare) :
      K x = some (.value ty) → K y = some (.value ty) →
        Gives Γ K (.binary .compare dst op.text x y ty.tag) (some (dst, .value .int))
  | cast {dst x : Temp} {t ty : Ty} :
      K x = some (.value t) → Gives Γ K (.cast dst x ty.tag) (some (dst, .value ty))
  | call {dst callee : Temp} {name : String} {sig : Signature} {args : List Temp} :
      K callee = some (.func name) → Γ.calls name = some sig →
        (∀ n ∈ sig.arity, args.length = n) → (∀ a ∈ args, ∃ k, K a = some k) →
        Gives Γ K (.call dst callee sig.ty.tag args) (some (dst, .value sig.ty))

/-- The code is right in order and takes what is known from `K` to `K'`. -/
inductive Checks (Γ : Names) : Kinds → List Quad → Kinds → Prop
  | nil (K : Kinds) : Checks Γ K [] K
  | cons {K K' : Kinds} {q : Quad} {qs : List Quad} {r : Option (Temp × Kind)} :
      Gives Γ K q r → Checks Γ (K.add r) qs K' → Checks Γ K (q :: qs) K'

variable {Γ : Names} {K' : Kinds} {eqs : Equations} {qs : List Quad} {r : Option (Temp × Kind)}
  {q : Quad}

namespace Checks

variable {xs ys : List Quad}

theorem append (hx : Checks Γ K xs K1) (hy : Checks Γ K1 ys K') : Checks Γ K (xs ++ ys) K' := by
  induction hx with
  | nil => exact hy
  | cons hq _ ih => exact .cons hq (ih hy)

theorem split (h : Checks Γ K (xs ++ ys) K') : ∃ K1, Checks Γ K xs K1 ∧ Checks Γ K1 ys K' := by
  induction xs generalizing K with
  | nil => exact ⟨K, .nil K, h⟩
  | cons q xs ih =>
    cases h with
    | cons hq hrest =>
      obtain ⟨K1, hx, hy⟩ := ih hrest
      exact ⟨K1, .cons hq hx, hy⟩

theorem single (hq : Gives Γ K q r) : Checks Γ K [q] (K.add r) := .cons hq (.nil _)

/-! ## Building -/

theorem fuse (h : Checks Γ K body K') (hf : fuse? body = some qs) : Checks Γ K qs K' := by
  replace hf := Flow.fuses_of_fuse? hf
  induction hf generalizing K with
  | nil => exact h
  | patch _ ih =>
    cases h with
    | cons hq hrest =>
      cases hq
      exact ih hrest
  | test _ ih =>
    cases h with
    | cons hc hrest =>
      cases hc with
      | condJump hk =>
        cases hrest with
        | cons hj hrest =>
          cases hj
          exact .cons (.branch hk) (ih hrest)
  | keep _ _ ih =>
    cases h with
    | cons hq hrest => exact .cons hq (ih hrest)

theorem filter {p : Quad → Bool} (hp : ∀ K q r, p q = false → Gives Γ K q r → r = none)
    (h : Checks Γ K qs K') : Checks Γ K (qs.filter p) K' := by
  induction h with
  | nil => exact .nil _
  | @cons K K' q qs r hq _ ih =>
    cases hpq : p q with
    | true =>
      rw [filter_cons_of_pos hpq]
      exact .cons hq ih
    | false =>
      rw [filter_cons_of_neg (by simp [hpq])]
      obtain rfl := hp K q r hpq hq
      exact ih

end Checks

theorem Gives.resolve {t : Quad} (h : Gives Γ K q r) (ht : q.resolve? eqs = some t) :
    Gives Γ K t r := by
  cases h with
  | jump =>
    obtain ⟨n, -, hq⟩ := Option.bind_eq_some_iff.1 ht
    cases hq
    exact .jump _
  | branch hc =>
    obtain ⟨n, -, hrest⟩ := Option.bind_eq_some_iff.1 ht
    obtain ⟨m, -, hq⟩ := Option.bind_eq_some_iff.1 hrest
    cases hq
    exact .branch hc
  | _ =>
    cases ht
    constructor <;> assumption

theorem Checks.resolve (h : Checks Γ K qs K') (ht : Flow.Resolves eqs qs ts) :
    Checks Γ K ts K' := by
  induction h generalizing ts with
  | nil =>
    cases ht
    exact .nil _
  | cons hq _ ih =>
    cases ht with
    | cons hqt hrest => exact .cons (hq.resolve hqt) (ih hrest)

def isLabel : Quad → Bool
  | .label _ => true
  | _ => false

theorem filter_texts {bs : List Flow.Block} {texts : List (List Quad)}
    (h : Forall₂ Flow.Block.Text bs texts) (hbare : ∀ b ∈ bs, ∀ n, .label n ∉ b.quads) :
    texts.flatten.filter (fun q => !isLabel q) = bs.flatMap (·.quads) := by
  induction h with
  | nil => rfl
  | @cons b text bs texts hb _ ih =>
    obtain ⟨hb', hbs⟩ := forall_mem_cons.1 hbare
    have hquads : b.quads.filter (fun q => !isLabel q) = b.quads := by
      refine filter_eq_self.2 fun q hq => ?_
      cases q with
      | label n => exact absurd hq (hb' n)
      | _ => rfl
    have htext : text.filter (fun q => !isLabel q) = b.quads := by
      cases hb with
      | labelled => rw [filter_cons_of_neg (by simp [isLabel]), hquads]
      | plain => exact hquads
    rw [flatten_cons, filter_append, htext, ih hbs, flatMap_cons]

theorem isDecl_of_gives (h : Gives Γ K q r) : q.isDecl = false := by cases h <;> rfl

theorem Checks.isDecl (h : Checks Γ K qs K') : ∀ q ∈ qs, q.isDecl = false := by
  induction h with
  | nil => simp
  | cons hq _ ih => exact forall_mem_cons.2 ⟨isDecl_of_gives hq, ih⟩

theorem fuse?_decls (hd : ∀ q ∈ decls, q.isDecl = true)
    (h : fuse? (decls ++ seg) = some qs) : ∃ ws, fuse? seg = some ws ∧ qs = decls ++ ws := by
  induction decls generalizing qs with
  | nil => exact ⟨qs, h, rfl⟩
  | cons q decls ih =>
    obtain ⟨hq, hd⟩ := forall_mem_cons.1 hd
    have hcons : fuse? (q :: (decls ++ seg)) = (fuse? (decls ++ seg)).map (q :: ·) := by
      cases q with
      | formalDecl | localDecl => rfl
      | _ => cases hq
    rw [cons_append, hcons] at h
    obtain ⟨us, hu, rfl⟩ := Option.map_eq_some_iff.1 h
    obtain ⟨ws, hw, rfl⟩ := ih hd hu
    exact ⟨ws, hw, rfl⟩

theorem checks_blocks {r : Routine} (hr : r.Builds eqs f) (hbody : r.body = decls ++ seg)
    (hd : ∀ q ∈ decls, q.isDecl = true)
    (h : Checks Γ K seg K') : Checks Γ K (f.blocks.flatMap (·.quads)) K' := by
  obtain ⟨texts, htexts, qs, hqs, hres⟩ := (Flow.keeps_of_builds hr).text
  rw [hbody] at hqs
  obtain ⟨ws, hw, rfl⟩ := fuse?_decls hd hqs
  have hws : Checks Γ K ws K' := h.fuse hw
  have hplain : (decls ++ ws).filter (fun q => !q.isDecl) = ws := by
    rw [filter_append, filter_eq_nil_iff.2 (by simpa using hd),
      filter_eq_self.2 (by simpa using hws.isDecl), nil_append]
  rw [hplain] at hres
  have hall : Checks Γ K texts.flatten K' := (hws.append (.single .funcEnd)).resolve hres
  rw [← filter_texts htexts (Flow.built_of_builds hr).bare]
  refine hall.filter fun K q r hq hg => ?_
  cases q with
  | label =>
    cases hg
    rfl
  | _ => cases hq

/-! ## What stands in blocks -/

def inBlock : Quad → Bool
  | .globalDecl _ | .formalDecl _ | .localDecl _ | .funcBegin .. | .condJump .. | .label _
  | .patch .. => false
  | _ => true

theorem inBlock_of_fuse? (h : fuse? body = some qs) :
    ∀ q ∈ qs, inBlock q = true ∨ q.isDecl = true ∨ isLabel q = true := by
  replace h := Flow.fuses_of_fuse? h
  induction h with
  | nil => simp
  | patch _ ih => exact ih
  | test _ ih => exact forall_mem_cons.2 ⟨.inl rfl, ih⟩
  | @keep q _ _ hq _ ih =>
    refine forall_mem_cons.2 ⟨?_, ih⟩
    cases q with
    | formalDecl | localDecl => exact .inr (.inl rfl)
    | label => exact .inr (.inr rfl)
    | patch | condJump | funcBegin | globalDecl => cases hq
    | _ => exact .inl rfl

theorem inBlock_of_resolves (h : Flow.Resolves eqs qs ts)
    (hq : ∀ q ∈ qs, inBlock q = true ∨ isLabel q = true) :
    ∀ t ∈ ts, inBlock t = true ∨ isLabel t = true := by
  induction h with
  | nil => simp
  | @cons q t qs ts hqt _ ih =>
    obtain ⟨hq, hqs⟩ := forall_mem_cons.1 hq
    refine forall_mem_cons.2 ⟨?_, ih hqs⟩
    cases q with
    | jump =>
      obtain ⟨n, -, ht⟩ := Option.bind_eq_some_iff.1 hqt
      cases ht
      exact .inl rfl
    | branch =>
      obtain ⟨n, -, hrest⟩ := Option.bind_eq_some_iff.1 hqt
      obtain ⟨m, -, ht⟩ := Option.bind_eq_some_iff.1 hrest
      cases ht
      exact .inl rfl
    | _ =>
      cases hqt
      exact hq

theorem inBlock_of_builds {r : Routine} (hr : r.Builds eqs f) :
    ∀ q ∈ f.blocks.flatMap (·.quads), inBlock q = true := by
  obtain ⟨texts, htexts, qs, hqs, hres⟩ := (Flow.keeps_of_builds hr).text
  rw [← filter_texts htexts (Flow.built_of_builds hr).bare]
  intro t ht
  obtain ⟨ht, hlabel⟩ := mem_filter.1 ht
  refine (inBlock_of_resolves hres (fun q hq => ?_) t ht).resolve_right (by simpa using hlabel)
  rcases mem_append.1 hq with hq | hq
  · obtain ⟨hq, hdecl⟩ := mem_filter.1 hq
    exact (inBlock_of_fuse? hqs q hq).imp_right fun h => h.resolve_left (by simpa using hdecl)
  · obtain rfl := mem_singleton.1 hq
    exact .inl rfl

end Quadruple.Source
