import Mathlib
import Quadruple.Code.Printer

/-!
# Decimal texts

Main statements: `decimalText_injective`, and with it that a label's name determines its number;
`readDecimal_decimalText` and `readLiteral_decimalText`, that both readers of integers give back
the number whose decimal text they read.
-/

namespace Quadruple

open List

variable {n m : Int}

namespace Numeral

theorem toDigits_injective {m n : Nat} (h : Nat.toDigits 10 m = Nat.toDigits 10 n) : m = n := by
  rw [← Nat.ofDigitChars_ten_toDigits (n := m), h, Nat.ofDigitChars_ten_toDigits]

theorem minus_notMem_toDigits (n : Nat) : '-' ∉ Nat.toDigits 10 n := fun h =>
  absurd (Nat.isDigit_of_mem_toDigits (by decide) (by decide) h) (by decide)

theorem decimalText_injective (h : decimalText m = decimalText n) : m = n := by
  unfold decimalText at h
  cases m with
  | ofNat a =>
    cases n with
    | ofNat b => rw [toDigits_injective (String.ofList_injective h)]
    | negSucc b =>
      exact absurd (String.ofList_injective h ▸ mem_cons_self) (minus_notMem_toDigits a)
  | negSucc a =>
    cases n with
    | ofNat b => exact absurd (String.ofList_injective h ▸ mem_cons_self) (minus_notMem_toDigits b)
    | negSucc b =>
      have hab := toDigits_injective (cons.inj (String.ofList_injective h)).2
      rw [Nat.succ.inj hab]

/-! ### Reading back -/

def InRange (n : Int) : Prop := -9223372036854775808 ≤ n ∧ n < 9223372036854775808

instance (n : Int) : Decidable (InRange n) := inferInstanceAs (Decidable (_ ∧ _))

theorem digitValue?_digitChar : ∀ d < 10, digitValue? d.digitChar = some d := by decide

theorem digitChar_ne_underscore : ∀ d < 10, d.digitChar ≠ '_' := by decide

theorem readDigits_append (base : Nat) (gaps : Bool) (acc : Nat) (xs ys : List Char) :
    readDigits base gaps acc (xs ++ ys) =
      (readDigits base gaps acc xs).bind fun a => readDigits base gaps a ys := by
  fun_induction readDigits base gaps acc xs with
  | case1 acc => rfl
  | case2 acc c cs hgap ih => rw [cons_append, readDigits, if_pos hgap, ih]
  | case3 | case4 => simp_all [readDigits, Except.bind]
  | case5 acc c cs hgap d hd hbase hlimit =>
    simp only [cons_append, readDigits, hgap, hd, hbase, hlimit, if_true, if_false,
      Bool.false_eq_true]
    rfl
  | case6 acc c cs hgap d hd hbase hlimit ih =>
    simp only [cons_append, readDigits, hgap, hd, hbase, hlimit, ih, if_false, Bool.false_eq_true]

theorem readDigits_digitChar {gaps : Bool} {acc d : Nat} (hd : d < 10)
    (h : acc * 10 + d < magnitudeLimit) :
    readDigits 10 gaps acc [d.digitChar] = .ok (acc * 10 + d) := by
  simp [readDigits, digitValue?_digitChar d hd, digitChar_ne_underscore d hd, not_le.2 hd,
    not_le.2 h]

theorem readDigits_toDigits (gaps : Bool) (m : Nat) (hm : m < magnitudeLimit) :
    readDigits 10 gaps 0 (Nat.toDigits 10 m) = .ok m := by
  induction m using Nat.strongRecOn with
  | ind m ih =>
    by_cases hsmall : m < 10
    · rw [Nat.toDigits_of_lt_base hsmall, readDigits_digitChar hsmall (by omega)]
      simp
    · have hsplit : m / 10 * 10 + m % 10 = m := Nat.div_add_mod' m 10
      rw [Nat.toDigits_of_base_le (by decide) (by omega),
        readDigits_append, ih (m / 10) (by omega) (by omega), Except.bind,
        readDigits_digitChar (by omega) (by omega), hsplit]

theorem head_toDigits_ne (m : Nat) (hm : 0 < m) : (Nat.toDigits 10 m).head? ≠ some '0' := by
  induction m using Nat.strongRecOn with
  | ind m ih =>
    by_cases hsmall : m < 10
    · rw [Nat.toDigits_of_lt_base hsmall]
      simpa using hm.ne'
    · have hrest := ih (m / 10) (by omega) (by omega)
      rw [Nat.toDigits_of_base_le (by decide) (by omega), head?_append]
      cases htop : (Nat.toDigits 10 (m / 10)).head? with
      | none => exact absurd (head?_eq_none_iff.1 htop) Nat.toDigits_ne_nil
      | some c => rwa [htop] at hrest

theorem announcedBase_toDigits (m : Nat) :
    announcedBase (Nat.toDigits 10 m) = if m = 0 then (8, []) else (10, Nat.toDigits 10 m) := by
  split
  · next h => subst h; rfl
  · next h =>
    have hhead := head_toDigits_ne m (by omega)
    unfold announcedBase
    split <;> simp_all

theorem literalMagnitude_toDigits (m : Nat) (hm : m < magnitudeLimit) :
    literalMagnitude (Nat.toDigits 10 m) = .ok m := by
  have hgaps : (Nat.toDigits 10 m).contains '_' = false := by simp
  have hempty : (Nat.toDigits 10 m).isEmpty = false := by simp
  simp only [literalMagnitude, announcedBase_toDigits, hgaps, hempty]
  by_cases h : m = 0
  · subst h
    rfl
  · simp [h, readDigits_toDigits true m hm]

theorem splitSign_toDigits (m : Nat) :
    splitSign (Nat.toDigits 10 m) = (false, Nat.toDigits 10 m) := by
  have hdigit := fun c (h : c ∈ Nat.toDigits 10 m) =>
    Nat.isDigit_of_mem_toDigits (by decide) (by decide) h
  unfold splitSign
  split
  · next cs h => exact absurd (hdigit '-' (by simp [h])) (by decide)
  · next cs h => exact absurd (hdigit '+' (by simp [h])) (by decide)
  · rfl

/-- Both readers see the sign and the digits of a decimal text; `f` is what they make of the
digits. -/
theorem signed_decimalText {f : List Char → Except IntegerFault Nat}
    (hread : ∀ m < magnitudeLimit, f (Nat.toDigits 10 m) = .ok m) (h : InRange n) :
    (let (negative, cs) := splitSign (decimalText n).toList
     signed negative (f cs)) = ⟨n, none⟩ := by
  obtain ⟨hlow, hhigh⟩ := h
  cases n with
  | ofNat m =>
    rw [Int.ofNat_eq_natCast] at hhigh
    have hm : m < magnitudeLimit := by unfold magnitudeLimit; omega
    have hleast : ¬ 9223372036854775808 ≤ m := by omega
    simp [decimalText, splitSign_toDigits, hread m hm, signed, hleast]
  | negSucc m =>
    have hm : m + 1 < magnitudeLimit := by unfold magnitudeLimit; omega
    have hleast : ¬ 9223372036854775808 < m + 1 := by omega
    simp only [decimalText, String.toList_ofList, splitSign, hread _ hm, signed, if_true,
      if_neg hleast]
    rfl

theorem readLiteral_decimalText (h : InRange n) : readLiteral (decimalText n) = ⟨n, none⟩ :=
  signed_decimalText literalMagnitude_toDigits h

theorem readDecimal_decimalText (h : InRange n) : readDecimal (decimalText n) = ⟨n, none⟩ := by
  refine signed_decimalText (f := fun cs =>
    if cs.isEmpty then .error .badSyntax else readDigits 10 false 0 cs) (fun m hm => ?_) h
  simp [Nat.toDigits_ne_nil, readDigits_toDigits false m hm]

end Numeral

theorem labelName_injective (h : labelName m = labelName n) : m = n :=
  Numeral.decimalText_injective ((String.append_right_inj _).1 h)

end Quadruple
