import Quadruple.Proofs.Lowering.Shape

/-!
# The translation of integer code

Which instructions lowering makes of an instruction that works on integers, and what it binds the
result to. `Translates` says this in terms of the bindings of the operands; `Makes.translates` says
that lowering does it.
-/

namespace Quadruple

open Numeral (readLiteral wrap32)

namespace Lowering

open Symbols (Table)
open Quadruple.Flow (Var)

def place : Var → Ir.Value
  | .global name => .global name
  | .slot name => .temp name (-1)

structure RefersTo (decl? : Var → Option Decl) (x : Var) (b : Binding) : Prop where
  val : b.val = place x
  ty : b.ty = .ptr
  array : b.isArray = true → ∃ d, decl? x = some d ∧ d.tag.isArray = true

def wordBinding (t : Temp) : Binding := { val := tempValue t, ty := .word }

def wordInstr (dst : Temp) (op : Ir.Op) (operandTy : Ir.Ty) (args : List Ir.Value) : Ir.Instr :=
  { op, ty := .word, operandTy, result := some (tempValue dst), args }

/-- `q` becomes the instructions `is` and the new binding, where `B` gives the bindings that it
finds. -/
inductive Translates (decl? : Var → Option Decl) (B : Temp → Option Binding) :
    Quad → List Ir.Instr → Option (Temp × Binding) → Prop
  | mark {n : Int} : Translates decl? B (.stmtBegin n) [] none
  | const {dst : Temp} {text : String} {tag : Tag} :
      Translates decl? B (.const dst text tag) []
        (some (dst, { val := .const (wrap32 (readLiteral text).value), ty := .word }))
  | ref {dst : Temp} {storage : Storage} {name : String} {offset : Int} {b : Binding} :
      RefersTo decl? (.ofRef storage name) b →
      Translates decl? B (.ref dst storage name offset) [] (some (dst, b))
  /-- An array stays an address. -/
  | array {dst addr : Temp} {tag : Tag} {a : Binding} :
      B addr = some a → a.isArray = true →
      Translates decl? B (.load dst addr tag) [] (some (dst, a))
  | load {dst addr : Temp} {tag : Tag} {a : Binding} :
      B addr = some a → a.ty = .ptr →
      Translates decl? B (.load dst addr tag) [wordInstr dst .load .none [a.val]]
        (some (dst, wordBinding dst))
  /-- The result of a store is the value stored. -/
  | store {dst addr val : Temp} {tag : Tag} {a v : Binding} :
      B addr = some a → a.ty = .ptr → B val = some v →
      Translates decl? B (.store dst addr val tag)
        [{ op := .store, ty := .word, args := [v.val, a.val] }] (some (dst, v))
  | index {dst base idx : Temp} {tag : Tag} {a i : Binding} {k : Nat} :
      B base = some a → a.ty = .ptr → B idx = some i →
      Translates decl? B (.index dst base idx tag)
        [{ op := .mul, ty := .ptr, result := some (.temp "x" k), args := [i.val, .const 4] },
          { op := .add, ty := .ptr, result := some (tempValue dst),
            args := [a.val, .temp "x" k] }]
        (some (dst, { val := tempValue dst, ty := .ptr, elem := .word }))
  /-- The index of an array, made as wide as an address. -/
  | wideIndex {dst base idx : Temp} {tag : Tag} {a i : Binding} {k l : Nat} :
      B base = some a → a.ty = .ptr → B idx = some i →
      Translates decl? B (.index dst base idx tag)
        [{ op := .extsw, ty := .ptr, operandTy := .word, result := some (.temp "x" l),
            args := [i.val] },
          { op := .mul, ty := .ptr, result := some (.temp "x" k),
            args := [.temp "x" l, .const 4] },
          { op := .add, ty := .ptr, result := some (tempValue dst),
            args := [a.val, .temp "x" k] }]
        (some (dst, { val := tempValue dst, ty := .ptr, elem := .word }))
  | neg {dst x : Temp} {tag : Tag} {v : Binding} :
      B x = some v →
      Translates decl? B (.unary dst "-" x tag) [wordInstr dst .neg .none [v.val]]
        (some (dst, wordBinding dst))
  | not {dst x : Temp} {tag : Tag} {v : Binding} :
      B x = some v →
      Translates decl? B (.unary dst "~" x tag) [wordInstr dst .xor .none [v.val, .const (-1)]]
        (some (dst, wordBinding dst))
  | binary {cls : OpClass} {dst x y : Temp} {lexeme : String} {tag : Tag} {op : Ir.Op}
      {v w : Binding} :
      operation? cls lexeme = some op → B x = some v → B y = some w →
      Translates decl? B (.binary cls dst lexeme x y tag)
        [wordInstr dst op .word [v.val, w.val]] (some (dst, wordBinding dst))
  | branch {c : Temp} {t u : Target} {v : Binding} :
      B c = some v →
      Translates decl? B (.branch c t u)
        [{ op := .jnz, args := [v.val, blockLabel t, blockLabel u] }] none
  | jump {t : Target} :
      Translates decl? B (.jump t) [{ op := .jmp, args := [blockLabel t] }] none
  | ret {t : Temp} {tag : Tag} {v : Binding} :
      B t = some v →
      Translates decl? B (.ret (some t) tag) [{ op := .ret, args := [v.val] }] none
  | retNone {tag : Tag} : Translates decl? B (.ret none tag) [defaultReturn .word] none
  | funcEnd : Translates decl? B .funcEnd [defaultReturn .word] none

variable {is : List Ir.Instr} {new : Option (Temp × Binding)} {q : Quad} {B : Temp → Option Binding}
  {decl? : Var → Option Decl}

section

variable (h : Translates decl? B q is new)
include h

theorem Translates.mono {C : Temp → Option Binding} (hBC : ∀ t b, B t = some b → C t = some b) :
    Translates decl? C q is new := by
  cases h <;> constructor <;> first | exact hBC _ _ ‹_› | assumption

theorem Translates.dst : new.map Prod.fst = q.dst? := by cases h <;> rfl

theorem Translates.uses : ∀ t ∈ q.uses, ∃ b, B t = some b := by
  cases h with
  | mark | const | ref | jump | retNone | funcEnd => simp [Quad.uses, Quad.words, Quad.accesses]
  | array h | load h | neg h | not h | branch h | ret h =>
    simpa [Quad.uses, Quad.words, Quad.accesses] using ⟨_, h⟩
  | store h _ hv => simpa [Quad.uses, Quad.words, Quad.accesses] using ⟨⟨_, hv⟩, _, h⟩
  | index h _ hi
  | wideIndex h _ hi => simpa [Quad.uses, Quad.words, Quad.accesses] using ⟨⟨_, hi⟩, _, h⟩
  | binary _ hx hy => simpa [Quad.uses, Quad.words, Quad.accesses] using ⟨⟨_, hx⟩, _, hy⟩

theorem Translates.plain (hq : q.endsBlock = false) : ∀ i ∈ is, i.op.isTerminator = false := by
  cases h with
  | branch | jump | ret | retNone | funcEnd => cases hq
  | binary ho => simpa [wordInstr] using operation?_not_terminator ho
  | _ => simp [wordInstr, Ir.Op.isTerminator]

end

/-! ## Lowering translates -/

def Locates (T : Table) (d : Decl) : Var → Prop
  | .global name => ∀ e, T.global? name = some e → e.kind = .func ∨
      (e.handle = some (.global name) ∧ e.tag = d.tag)
  | .slot name => ∃ id, T.lookup? name = some id ∧
      (T.entry id).handle = some (.temp name (-1)) ∧ (T.entry id).tag = d.tag

variable {s : State} {b : Binding} {t : Temp}

theorem Finds.refersTo {storage : Storage} {name : String} {d : Decl}
    (h : Finds s.table storage name b) (hd : decl? (.ofRef storage name) = some d)
    (hr : Locates s.table d (.ofRef storage name)) : RefersTo decl? (.ofRef storage name) b := by
  cases h with
  | func hg =>
    have hx : Var.ofRef storage name = .global name := if_pos hg
    exact ⟨by rw [hx]; rfl, rfl, nofun⟩
  | global hg hid hk hh =>
    have hx : Var.ofRef storage name = .global name := if_pos hg
    rw [hx] at hr
    obtain ⟨hh', ht⟩ := (hr _ (Option.map_eq_some_iff.2 ⟨_, hid, rfl⟩)).resolve_left hk
    cases hh.symm.trans hh'
    exact ⟨by rw [hx]; rfl, rfl, fun ha => ⟨d, hd, ht ▸ ha⟩⟩
  | slot hg hid hh =>
    have hx : Var.ofRef storage name = .slot name := if_neg hg
    rw [hx] at hr
    obtain ⟨id, hid', hh', ht⟩ := hr
    cases hid.symm.trans hid'
    cases hh.symm.trans hh'
    exact ⟨by rw [hx]; rfl, rfl, fun ha => ⟨d, hd, ht ▸ ha⟩⟩

/-- Temporaries stand for words and addresses only, and the function returns a word. -/
structure Integral (s : State) : Prop where
  ret : s.ret = .word
  types : ∀ t b, s.bound t = some b → b.ty ≠ .double

theorem Integral.coerced (h : Integral s) (hb : s.bound t = some b) {x : Ir.Value}
    (hx : Coerced b .word is x) : is = [] ∧ x = b.val := by
  cases hx with
  | keep => exact ⟨rfl, rfl⟩
  | convert k hn => simp [needsConversion, h.types t b hb] at hn

theorem Integral.operandsTy (h : Integral s) (hb : s.bound t = some b) :
    operandsTy [b] = .word := by
  simp [Lowering.operandsTy, h.types t b hb]

theorem Makes.translates {ns : List Notice} (hmakes : Makes s q is new ns) (h : Integral s)
    (hq : q.isInteger = true) (href : ∀ dst storage name offset, q = .ref dst storage name offset →
      ∃ d, decl? (.ofRef storage name) = some d ∧ Locates s.table d (.ofRef storage name)) :
    Translates decl? s.bound q is new := by
  have hint : machineTy .int = .word := rfl
  cases hmakes with
  | mark => exact .mark
  | float htag =>
    obtain rfl : _ = Tag.int := by simpa [Quad.isInteger] using hq
    cases htag
  | int => exact .const
  | ref hb =>
    obtain ⟨d, hd, hr⟩ := href _ _ _ _ rfl
    exact .ref (hb.refersTo hd hr)
  | array ha _ harr => exact .array ha harr
  | load ha hty =>
    obtain rfl : _ = Tag.int := by simpa [Quad.isInteger] using hq
    rw [hint]
    exact .load ha hty
  | @store _ _ _ _ _ v _ _ ha hty hv hx =>
    obtain rfl : _ = Tag.int := by simpa [Quad.isInteger] using hq
    rw [hint] at hx ⊢
    obtain ⟨rfl, rfl⟩ := h.coerced hv hx
    have hstored : stored v .word v.val = v := by simp [stored, needsConversion, h.types _ v hv]
    rw [hstored]
    exact .store ha hty hv
  | index k ha hty hi hx =>
    obtain rfl : _ = Tag.int := by simpa [Quad.isInteger] using hq
    cases hx with
    | keep => exact .index ha hty hi
    | extend => exact .wideIndex ha hty hi
  | neg hb hx =>
    rw [h.operandsTy hb] at hx ⊢
    obtain ⟨rfl, rfl⟩ := h.coerced hb hx
    exact .neg hb
  | not hb hx =>
    obtain ⟨rfl, rfl⟩ := h.coerced hb hx
    exact .not hb
  | @binary cls _ _ _ _ _ _ a b _ _ _ _ ha hb hop hv hw =>
    have hty : Lowering.operandsTy [a, b] = .word := by
      simp [Lowering.operandsTy, h.types _ a ha, h.types _ b hb]
    have hwork : cls.workTy .word = .word := by cases cls <;> rfl
    have hresult : cls.resultTy .word = .word := by cases cls <;> rfl
    rw [hty, hwork] at hv hw ⊢
    obtain ⟨rfl, rfl⟩ := h.coerced ha hv
    obtain ⟨rfl, rfl⟩ := h.coerced hb hw
    rw [hresult]
    exact .binary hop ha hb
  | branch hc => exact .branch hc
  | jump => exact .jump
  | ret hb hx =>
    rw [h.ret] at hx
    obtain ⟨rfl, rfl⟩ := h.coerced hb hx
    exact .ret hb
  | leave => rw [h.ret]; exact .retNone
  | funcEnd => rw [h.ret]; exact .funcEnd
  | _ => cases hq

end Lowering

end Quadruple
