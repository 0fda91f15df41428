import Quadruple.Output.Backend
import Quadruple.Proofs.Code.Decimal
import Quadruple.Proofs.Flow.Layout

/-!
# The size of data

A data definition has its size by its items, declares bytes in its QBE text and has an array of
bytes in LLVM. `Qbe.declared?` reads the number of bytes off the text.

Main statement: `declared_eq_size_iff`. A run of zeros of a wider type is declared with the width of
the type for each zero.
-/

namespace Quadruple

open List
open Numeral (wrap64 decimalText InRange)

/-- The bytes that an item of a data definition stands for in its text. -/
def Qbe.itemSize? (text : String) : Option Int :=
  match text.toList with
  | 'z' :: ' ' :: digits => (Numeral.readDecimal (String.ofList digits)).value?
  | 'b' :: ' ' :: _ => some 1
  | 'w' :: ' ' :: _ => some 4
  | 'l' :: ' ' :: _ | 'd' :: ' ' :: _ => some 8
  | _ => none

def Qbe.declared? (wordSize : Int) (d : Ir.Data) : Option Int :=
  (d.items.mapM fun i => itemSize? (itemText wordSize i)).map List.sum

/-- The bytes of an item if every zero of a run is as wide as the type of the run. -/
def Ir.Item.footprint (wordSize : Int) (i : Ir.Item) : Int :=
  if 0 < i.count then i.count * i.ty.size wordSize else i.ty.size wordSize

variable {w : Int} {d : Ir.Data} {i : Ir.Item} {items : List Ir.Item}

theorem wrap64_of_inRange {n : Int} (h : InRange n) : wrap64 n = n := by
  obtain ⟨hlow, hhigh⟩ := h
  exact Int.bmod_eq_of_le (by omega) (by omega)

/-! ## Sizes -/

theorem Ir.Data.size_eq (w : Int) (d : Ir.Data) :
    d.size w = wrap64 (d.items.map (Ir.Item.size w)).sum := by
  have hfrom : ∀ (items : List Ir.Item) (n : Int),
      items.foldl (fun n i => wrap64 (n + i.size w)) (wrap64 n) =
        wrap64 (n + (items.map (Ir.Item.size w)).sum) := by
    intro items
    induction items with
    | nil => simp
    | cons i items ih =>
      intro n
      have hstep : wrap64 (wrap64 n + i.size w) = wrap64 (n + i.size w) := by simp [wrap64]
      rw [foldl_cons, hstep, ih, map_cons, sum_cons, Int.add_assoc]
  have hall := hfrom d.items 0
  rwa [Int.zero_add] at hall

variable (hw : w = 4 ∨ w = 8)

include hw

theorem Ir.Ty.size_pos (ty : Ir.Ty) : 1 ≤ ty.size w := by cases ty <;> simp [Ir.Ty.size] <;> omega

theorem Ir.Ty.size_eq_one_iff (ty : Ir.Ty) : ty.size w = 1 ↔ ty = .byte := by
  cases ty <;> simp [Ir.Ty.size] <;> omega

theorem Ir.Item.size_bounds (i : Ir.Item) : 1 ≤ i.size w ∧ i.size w ≤ i.footprint w := by
  have hty := i.ty.size_pos hw
  unfold size footprint
  split
  · exact ⟨by omega, le_mul_of_one_le_right (by omega) hty⟩
  · exact ⟨hty, Int.le_refl _⟩

theorem Ir.Item.size_eq_footprint_iff (i : Ir.Item) :
    i.size w = i.footprint w ↔ (0 < i.count → i.ty = .byte) := by
  unfold size footprint
  split
  · next h =>
    rw [← i.ty.size_eq_one_iff hw]
    constructor
    · exact fun heq _ => (Int.eq_one_of_mul_eq_self_right (by omega) heq.symm)
    · intro hone
      rw [hone h, Int.mul_one]
  · next h => simp [h]

theorem sum_size_le (items : List Ir.Item) :
    (items.map (Ir.Item.size w)).sum ≤ (items.map (Ir.Item.footprint w)).sum ∧
      ((items.map (Ir.Item.size w)).sum = (items.map (Ir.Item.footprint w)).sum ↔
        ∀ i ∈ items, 0 < i.count → i.ty = .byte) := by
  induction items with
  | nil => simp
  | cons i items ih =>
    obtain ⟨hle, hiff⟩ := ih
    have hi := (i.size_bounds hw).2
    simp only [map_cons, sum_cons, forall_mem_cons]
    rw [← hiff, ← i.size_eq_footprint_iff hw]
    omega

theorem sum_size_nonneg (items : List Ir.Item) : 0 ≤ (items.map (Ir.Item.size w)).sum :=
  sum_nonneg (forall_mem_map.2 fun i _ => by have := (i.size_bounds hw).1; omega)

/-! ## The QBE text -/

theorem itemSize?_itemText (i : Ir.Item) (hrange : i.footprint w < 9223372036854775808) :
    Qbe.itemSize? (Qbe.itemText w i) =
      if 0 < i.count ∨ Qbe.tyText w i.ty ≠ "" then some (i.footprint w) else none := by
  have hpos := i.size_bounds hw
  unfold Qbe.itemText
  by_cases hcount : 0 < i.count
  · have hcopies : (if i.ty = .byte then i.count else wrap64 (i.count * i.ty.size w)) =
        i.footprint w := by
      rw [Ir.Item.footprint, if_pos hcount] at hpos hrange ⊢
      split
      · next h => rw [h, Ir.Ty.size, Int.mul_one]
      · exact wrap64_of_inRange ⟨by omega, hrange⟩
    have htext : ("z " ++ decimalText (i.footprint w)).toList =
        'z' :: ' ' :: (decimalText (i.footprint w)).toList := by simp
    rw [if_pos hcount, hcopies, if_pos (Or.inl hcount), Qbe.itemSize?, htext]
    simp only [String.ofList_toList]
    rw [Numeral.readDecimal_decimalText ⟨by omega, hrange⟩]
    rfl
  · rw [if_neg hcount, Ir.Item.footprint, if_neg hcount]
    generalize Qbe.valueText w i.value = text
    cases i.ty <;> rcases hw with rfl | rfl <;>
      simp [Qbe.tyText, Qbe.itemSize?, Ir.Ty.size, hcount]

theorem declared?_eq_some_iff {n : Int}
    (hrange : (d.items.map (Ir.Item.footprint w)).sum < 9223372036854775808) :
    Qbe.declared? w d = some n ↔ (∀ i ∈ d.items, 0 < i.count ∨ Qbe.tyText w i.ty ≠ "") ∧
      n = (d.items.map (Ir.Item.footprint w)).sum := by
  unfold Qbe.declared?
  generalize d.items = items at hrange
  induction items generalizing n with
  | nil => simpa using eq_comm
  | cons i items ih =>
    have hi := i.size_bounds hw
    have hitems := sum_size_nonneg hw items
    have hle := (sum_size_le hw items).1
    rw [map_cons, sum_cons] at hrange ⊢
    rw [mapM_cons, itemSize?_itemText hw i (by omega), forall_mem_cons]
    split
    · next hnamed =>
      have ih := @ih (n - i.footprint w) (by omega)
      cases hsizes : items.mapM fun i => Qbe.itemSize? (Qbe.itemText w i) with
      | none => simpa [hsizes, hnamed, sub_eq_iff_eq_add'] using ih
      | some sizes =>
        simp only [hsizes, Option.map_some, Option.some.injEq] at ih
        simp only [bind_pure_comp, Option.bind_eq_bind, Option.bind_some, Option.map_eq_map,
          Option.map_some, sum_cons, Option.some.injEq, hnamed, true_and]
        rw [← sub_eq_iff_eq_add', ← ih]
        omega
    · next hnamed => simp [hnamed]

omit hw

/-! ## The LLVM array -/

theorem length_itemBytes {name : String} {bytes : List UInt8}
    (h : Llvm.itemBytes name i = .ok bytes) : (bytes.length : Int) = i.size w := by
  unfold Llvm.itemBytes at h
  unfold Ir.Item.size
  split at h
  · cases h
  · split at h
    · next hcount =>
      cases h
      rw [if_pos hcount, length_replicate]
      omega
    · next hcount =>
      split at h
      · next hbyte =>
        rw [if_neg hcount, hbyte, Ir.Ty.size]
        split at h <;> cases h
        rfl
      · cases h

theorem size_of_dataGlobal {g : Llvm.Global} (h : Llvm.dataGlobal w d = .ok g)
    (hrange : InRange (d.items.map (Ir.Item.size w)).sum)
    (hnonneg : 0 ≤ (d.items.map (Ir.Item.size w)).sum) : (g.size : Int) = d.size w := by
  have hsize := d.size_eq w
  rw [wrap64_of_inRange hrange] at hsize
  rw [hsize]
  simp only [Llvm.dataGlobal] at h
  split at h
  · cases h
    have := hrange.2
    simp only [hsize]
    omega
  · split at h
    · cases h
    · cases hparts : d.items.mapM (Llvm.itemBytes d.name) with
      | error e =>
        rw [hparts] at h
        cases h
      | ok parts =>
        rw [hparts] at h
        cases h
        rw [Flow.mapM_ok_iff] at hparts
        simp only [length_flatten]
        clear hsize hrange hnonneg
        generalize d.items = items at hparts ⊢
        induction hparts with
        | nil => rfl
        | cons hi _ ih => simp [← ih, length_itemBytes (w := w) hi]

/-- LLVM data has the size of the data. QBE text declares that size exactly if only bytes are
repeated and each item has a type that can be written. -/
theorem declared_eq_size_iff {g : Llvm.Global} (hw : w = 4 ∨ w = 8)
    (hg : Llvm.dataGlobal w d = .ok g)
    (hrange : (d.items.map (Ir.Item.footprint w)).sum < 9223372036854775808) :
    (g.size : Int) = d.size w ∧
    (Qbe.declared? w d = some (d.size w) ↔
      (∀ i ∈ d.items, 0 < i.count → i.ty = .byte) ∧
      ∀ i ∈ d.items, i.count ≤ 0 → Qbe.tyText w i.ty ≠ "") := by
  obtain ⟨hle, hiff⟩ := sum_size_le hw d.items
  have hnonneg := sum_size_nonneg hw d.items
  have hsize : InRange (d.items.map (Ir.Item.size w)).sum := ⟨by omega, by omega⟩
  refine ⟨size_of_dataGlobal hg hsize hnonneg, ?_⟩
  rw [declared?_eq_some_iff hw hrange, d.size_eq, wrap64_of_inRange hsize, hiff, and_comm]
  refine and_congr_right fun _ => forall₂_congr fun i _ => ?_
  rw [← not_lt, or_iff_not_imp_left]

def mixedData : Ir.Data :=
  ⟨"g", 4, true, false, [⟨.byte, .const 7, 0⟩, ⟨.byte, .missing, 3⟩, ⟨.byte, .const (-1), 0⟩]⟩

theorem mixedData_declared : ∃ g, Llvm.dataGlobal 8 mixedData = .ok g ∧ g.size = 5 ∧
    (mixedData.items.map (Ir.Item.footprint 8)).sum = 5 ∧
    Qbe.declared? 8 mixedData = some 5 ∧ mixedData.size 8 = 5 := by
  obtain ⟨g, hg⟩ : ∃ g, Llvm.dataGlobal 8 mixedData = .ok g := ⟨_, rfl⟩
  have hsize : mixedData.size 8 = 5 := by decide
  obtain ⟨hgsize, hdeclared⟩ := declared_eq_size_iff (.inr rfl) hg (by decide)
  rw [hsize] at hgsize hdeclared
  exact ⟨g, hg, by omega, by decide, hdeclared.2 (by decide), hsize⟩

/-- Two zeros of type word: the definition has two bytes, and so has the array. -/
def wordZeros : Ir.Data := ⟨"g", 4, true, false, [⟨.word, .missing, 2⟩]⟩

theorem wordZeros_widened : (∃ g, Llvm.dataGlobal 8 wordZeros = .ok g ∧ g.size = 2) ∧
    wordZeros.size 8 = 2 ∧ Qbe.declared? 8 wordZeros = some 8 ∧
    Qbe.dataText 8 wordZeros = "export data $g = align 4 \x7b z 8 \x7d\n" :=
  ⟨⟨_, rfl, by decide⟩, by decide, by decide +kernel, by decide +kernel⟩

end Quadruple
