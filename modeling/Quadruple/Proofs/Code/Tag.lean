import Mathlib
import Quadruple.Code.Basic

/-!
# Flags of types

Whether a type is a double does not hang on its address and array flags.
-/

namespace Quadruple.Tag

variable (t : Tag)

theorem isDouble_without {u : Tag} (hu : ~~~u.bits &&& double.bits = double.bits) :
    (t.without u).isDouble = t.isDouble := by
  rw [isDouble, meets, without, Int64.and_assoc, hu]
  rfl

@[simp] theorem isDouble_base : t.base.isDouble = t.isDouble := t.isDouble_without rfl

@[simp] theorem isDouble_without_address : (t.without address).isDouble = t.isDouble :=
  t.isDouble_without rfl

@[simp] theorem isDouble_without_array : (t.without array).isDouble = t.isDouble :=
  t.isDouble_without rfl

@[simp] theorem isDouble_union_address : (t.union address).isDouble = t.isDouble := by
  have hbits : (t.bits ||| address.bits) &&& double.bits = t.bits &&& double.bits := by
    refine Int64.toBitVec_inj.1 (BitVec.eq_of_getElem_eq fun i hi => ?_)
    have hdis : ((8#64)[i] && (2#64)[i]) = false := by
      rw [← BitVec.getElem_and, show 8#64 &&& 2#64 = 0#64 from rfl, BitVec.getElem_zero]
    show ((t.bits.toBitVec ||| 8#64) &&& 2#64)[i] = (t.bits.toBitVec &&& 2#64)[i]
    simp only [BitVec.getElem_and, BitVec.getElem_or, Bool.and_or_distrib_right, hdis, Bool.or_false]
  rw [isDouble, meets, union, hbits]
  rfl

end Quadruple.Tag
