import Quadruple.Proofs.Code.Decimal
import Quadruple.Proofs.Lowering.Effects

/-!
# Integer constants

The value of an integer literal is defined on its text: digits in base ten, or in base eight behind
`0`, `0o` or `0O`, or in base sixteen behind `0x` or `0X`, with or without a sign, and as many as
there may be.

Main statement: `constant_exact_iff`. A literal is reported just when its value has more than 64
bits, and the constant that stands for it has its value just when that has 32. A value in between is
cut without a report, as `unitCarry_cut` shows.
-/

namespace Quadruple

open List

namespace Numeral

inductive Digits (base : Nat) : List Char → Nat → Prop
  | nil : Digits base [] 0
  | snoc {cs : List Char} {n d : Nat} {c : Char} : Digits base cs n → digitValue? c = some d →
      d < base → Digits base (cs ++ [c]) (n * base + d)

inductive Magnitude : List Char → Nat → Prop
  | decimal {c : Char} {cs : List Char} {n : Nat} : c ≠ '0' → Digits 10 (c :: cs) n →
      Magnitude (c :: cs) n
  | octal {cs : List Char} {n : Nat} : Digits 8 cs n → Magnitude ('0' :: cs) n
  | marked {m : Char} {base : Nat} {c : Char} {cs : List Char} {n : Nat} :
      (m, base) ∈ [('o', 8), ('O', 8), ('x', 16), ('X', 16)] → Digits base (c :: cs) n →
      Magnitude ('0' :: m :: c :: cs) n

inductive Literal : String → Int → Prop
  | plain {cs : List Char} {n : Nat} : Magnitude cs n → Literal (.ofList cs) n
  | plus {cs : List Char} {n : Nat} : Magnitude cs n → Literal (.ofList ('+' :: cs)) n
  | minus {cs : List Char} {n : Nat} : Magnitude cs n → Literal (.ofList ('-' :: cs)) (-n)

variable {base n : Nat} {cs : List Char} {v : Int}

/-- What reading a magnitude gives: the value, if it can be one of an unsigned 64-bit number. -/
def bounded (n : Nat) : Except IntegerFault Nat :=
  if n < magnitudeLimit then .ok n else .error .outOfRange

theorem Digits.isDigit (h : Digits base cs n) : ∀ c ∈ cs, ∃ d < base, digitValue? c = some d := by
  induction h with
  | nil => simp
  | snoc _ hd hbase ih => exact forall_mem_append.2 ⟨ih, by simpa using ⟨_, hbase, hd⟩⟩

theorem Digits.read (h : Digits base cs n) (hbase : 0 < base) :
    readDigits base true 0 cs = bounded n := by
  induction h with
  | nil => rfl
  | @snoc cs n d c hcs hd hlt ih =>
    have hgap : c ≠ '_' := fun hc => by simp [hc, digitValue?] at hd
    have hmono : n ≤ n * base + d := Nat.le_add_right_of_le (Nat.le_mul_of_pos_right n hbase)
    rw [readDigits_append, ih, bounded, bounded]
    by_cases hn : n < magnitudeLimit
    · simp only [if_pos hn, Except.bind, readDigits, hd, not_le.2 hlt]
      grind
    · rw [if_neg hn, if_neg (by omega)]
      rfl

theorem digit_ne {c x : Char} (hc : ∃ d < base, digitValue? c = some d)
    (hx : ∀ d < base, digitValue? x ≠ some d) : c ≠ x := by
  rintro rfl
  obtain ⟨d, hd, hcd⟩ := hc
  exact hx d hd hcd

theorem Magnitude.read (h : Magnitude cs n) : literalMagnitude cs = bounded n := by
  -- the base that the text announces, the digits behind it, and that no gap is among them
  have hread : ∀ {base : Nat} {ds : List Char}, announcedBase cs = (base, ds) →
      Digits base ds n → 0 < base → cs ≠ [] → '_' ∉ cs → literalMagnitude cs = bounded n := by
    intro base ds hannounced hds hbase hne hgap
    simp only [literalMagnitude, hannounced, hds.read hbase, List.isEmpty_iff, hne,
      contains_eq_mem, hgap, decide_false, Bool.false_and, if_false, Bool.false_eq_true]
    cases bounded n <;> rfl
  have hgap : ∀ {base : Nat} {ds : List Char}, Digits base ds n → '_' ∉ ds := fun hds hmem =>
    digit_ne (hds.isDigit _ hmem) (by simp [digitValue?]) rfl
  cases h with
  | decimal hc hds =>
    refine hread ?_ hds (by decide) (by simp) (hgap hds)
    unfold announcedBase
    split <;> simp_all
  | @octal cs _ hds =>
    refine hread ?_ hds (by decide) (by simp) (by simpa using hgap hds)
    rcases cs with _ | ⟨m, _ | ⟨c, cs⟩⟩
    · rfl
    · rfl
    · have hm := hds.isDigit m mem_cons_self
      have hletter : ∀ x ∈ ['b', 'B', 'o', 'O', 'x', 'X'], m ≠ x := fun x hx =>
        digit_ne hm fun d hd => by
          simp only [mem_cons, not_mem_nil, or_false] at hx
          rcases hx with rfl | rfl | rfl | rfl | rfl | rfl <;> simp [digitValue?] <;> omega
      simp_all [announcedBase]
  | marked hm hds =>
    simp only [mem_cons, Prod.mk.injEq, not_mem_nil, or_false] at hm
    rcases hm with ⟨rfl, rfl⟩ | ⟨rfl, rfl⟩ | ⟨rfl, rfl⟩ | ⟨rfl, rfl⟩ <;>
      exact hread rfl hds (by decide) (by simp) (by simpa using hgap hds)

theorem Magnitude.splitSign (h : Magnitude cs n) : Numeral.splitSign cs = (false, cs) := by
  have hhead : ∀ c ∈ cs.head?, c ≠ '-' ∧ c ≠ '+' := by
    cases h with
    | decimal _ hds =>
      have hc := hds.isDigit _ mem_cons_self
      simpa using ⟨digit_ne hc (by simp [digitValue?]), digit_ne hc (by simp [digitValue?])⟩
    | octal | marked => simp
  unfold Numeral.splitSign
  split <;> simp_all

theorem signed_bounded (negative : Bool) (n : Nat)
    (hv : v = if negative then -(n : Int) else n) :
    (InRange v → signed negative (bounded n) = ⟨v, none⟩) ∧ (¬ InRange v → ∃ b,
      signed negative (bounded n) = ⟨b, some .outOfRange⟩ ∧ wrap32 b ≠ v) := by
  have hlow : wrap32 (-9223372036854775808) = 0 := rfl
  have hhigh : wrap32 (9223372036854775808 - 1) = -1 := rfl
  unfold InRange bounded magnitudeLimit
  split
  · cases negative <;> simp only [signed, Bool.false_eq_true, if_false, if_true] at hv ⊢ <;>
      split <;> simp_all <;> omega
  · cases negative <;> simp_all [signed] <;> omega

theorem Literal.read {text : String} (h : Literal text v) :
    (InRange v → readLiteral text = ⟨v, none⟩) ∧
      (¬ InRange v → ∃ b, readLiteral text = ⟨b, some .outOfRange⟩ ∧ wrap32 b ≠ v) := by
  cases h with
  | plain hm =>
    simp only [readLiteral, String.toList_ofList, hm.splitSign, hm.read]
    exact signed_bounded false _ rfl
  | plus hm =>
    simp only [readLiteral, String.toList_ofList, Numeral.splitSign, hm.read]
    exact signed_bounded false _ rfl
  | minus hm =>
    simp only [readLiteral, String.toList_ofList, Numeral.splitSign, hm.read]
    exact signed_bounded true _ rfl

theorem wrap32_eq_iff : wrap32 v = v ↔ -2147483648 ≤ v ∧ v < 2147483648 := by
  simp only [wrap32, Int.bmod]
  split <;> omega

end Numeral

namespace Lowering

open Numeral (InRange Literal wrap32)

/-- What lowering makes of an integer literal. -/
theorem constant_exact_iff {text : String} {v : Int} (hv : Literal text v) {tag : Tag}
    (htag : tag.isDouble = false) (dst : Temp) (s : State) :
    ∃ c, lowerQuad (.const dst text tag) s = .ok ()
        { s.complain (if InRange v then [] else [.constantRange text]) with
          bindings := (dst, { val := .const c, ty := .word }) :: s.bindings } ∧
      (InRange v → c = wrap32 v) ∧ (c = v ↔ -2147483648 ≤ v ∧ v < 2147483648) := by
  obtain ⟨hin, hout⟩ := hv.read
  by_cases hr : InRange v
  · refine ⟨wrap32 v, ?_, fun _ => rfl, Numeral.wrap32_eq_iff⟩
    rw [if_pos hr, State.complain_nil]
    simp only [lowerQuad, lowerConst, htag, hin hr]
    rfl
  · obtain ⟨b, hb, hne⟩ := hout hr
    refine ⟨wrap32 b, ?_, fun h => absurd h hr, ?_⟩
    · rw [if_neg hr]
      simp only [lowerQuad, lowerConst, htag, hb]
      rfl
    · refine ⟨fun h => absurd h hne, fun h => absurd ?_ hr⟩
      unfold InRange
      omega

theorem seventeen_exact : Literal "0021" 17 ∧ ∃ c,
    lowerQuad (.const ⟨1⟩ "0021" .int) (.new {} .empty ⟨none, []⟩ "f") = .ok ()
      { State.new {} .empty ⟨none, []⟩ "f" with
        bindings := [(⟨1⟩, { val := .const c, ty := .word })] } ∧ c = 17 := by
  have hdigits : Numeral.Digits 8 ['0', '2', '1'] 17 :=
    .snoc (.snoc (.snoc .nil (d := 0) (by decide) (by decide)) (d := 2) (by decide) (by decide))
      (d := 1) (by decide) (by decide)
  have hliteral : Literal "0021" 17 := .plain (.octal hdigits)
  obtain ⟨c, hrun, -, hc⟩ :=
    constant_exact_iff hliteral (by decide : Tag.int.isDouble = false) ⟨1⟩
      (.new {} .empty ⟨none, []⟩ "f")
  exact ⟨hliteral, c, hrun, hc.2 (by decide)⟩

/-- One more than the largest unsigned number of 32 bits becomes zero, and nothing is reported. -/
theorem unitCarry_cut : Literal "0x100000000" 4294967296 ∧
    lowerQuad (.const ⟨1⟩ "0x100000000" .int) (.new {} .empty ⟨none, []⟩ "f") = .ok ()
      { State.new {} .empty ⟨none, []⟩ "f" with
        bindings := [(⟨1⟩, { val := .const 0, ty := .word })] } := by
  refine ⟨.plain (.marked (by decide : ('x', 16) ∈ _) ?_), by cbv⟩
  have hzero : ∀ {cs : List Char} {n : Nat}, Numeral.Digits 16 cs n →
      Numeral.Digits 16 (cs ++ ['0']) (n * 16) := fun h => .snoc h (d := 0) (by decide) (by decide)
  have hone : Numeral.Digits 16 ['1'] 1 := .snoc .nil (d := 1) (by decide) (by decide)
  exact hzero (hzero (hzero (hzero (hzero (hzero (hzero (hzero hone)))))))

end Lowering

end Quadruple
