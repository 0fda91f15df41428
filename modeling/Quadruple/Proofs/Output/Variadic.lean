import Mathlib.Data.List.Basic
import Quadruple.Output.Qbe

/-!
# Calls with varying arguments

Main statement: `call_written`.
-/

namespace Quadruple.Qbe

open List

section Marked

variable {α : Type} {a : α} {l : List α} (h : a ∉ l)
include h

theorem filter_marked [DecidableEq α] (n : Nat) :
    (l.take n ++ a :: l.drop n).filter (· ≠ a) = l := by
  have hkeep : ∀ l', l' ⊆ l → l'.filter (· ≠ a) = l' := fun l' hl' =>
    filter_eq_self.2 fun b hb => decide_eq_true fun hba => h (hba ▸ hl' hb)
  rw [filter_append, filter_cons_of_neg (by simp), hkeep _ (take_subset n l),
    hkeep _ (drop_subset n l), take_append_drop]

theorem getElem?_marked (n k : Nat) :
    (l.take n ++ a :: l.drop n)[k]? = some a ↔ k = min n l.length := by
  rw [getElem?_append, length_take]
  split
  case isTrue hk =>
    exact iff_of_false (fun ha => h (mem_of_mem_take (mem_of_getElem? ha))) (by omega)
  case isFalse hk =>
    rw [getElem?_cons]
    split
    · exact iff_of_true rfl (by omega)
    · exact iff_of_false (fun ha => h (mem_of_mem_drop (mem_of_getElem? ha))) (by omega)

end Marked

/-- A callee that takes a varying number of arguments behind the first `n`. A negative number in its
declaration stands for none that varies. -/
def Varies (p : Ir.Program) (callee : Ir.Value) (n : Nat) : Prop :=
  ∃ name f, callee = .global name ∧ p.findForeign? name = some f ∧ f.variadic = true ∧ f.fixed = n

theorem fixedCount_eq_iff {p : Ir.Program} {callee : Ir.Value} {n : Nat} :
    fixedCount p callee = n ↔ Varies p callee n := by
  have hnone : ¬(-1 : Int) = n := by omega
  cases callee with
  | global name =>
    rw [fixedCount]
    cases hf : p.findForeign? name with
    | none => simp [Varies, hf]
    | some f => cases hv : f.variadic <;> simp [Varies, hf, hv, hnone]
  | _ => simp [Varies, fixedCount]

/-- The arguments in order, each with its type, the first of them at place `k`. -/
def typed (w : Int) (tys : List Ir.Ty) (k : Nat) (args : List Ir.Value) : List String :=
  (args.zipIdx k).map fun x => argText w tys x.2 x.1

/-- An argument with its type has a blank in it, so it is no marker. -/
theorem marker_notMem_typed (w : Int) (tys : List Ir.Ty) (k : Nat) (args : List Ir.Value) :
    "..." ∉ typed w tys k args := by
  intro hm
  obtain ⟨x, -, heq⟩ := mem_map.1 hm
  have hblank : ' ' ∈ "...".toList := by simp [← heq, argText]
  revert hblank
  decide

/-! ## The loop over the arguments -/

/-- The items that the loop writes, from the one at place `k` on. -/
def marked (fixed : Int) : Nat → List String → List String
  | _, [] => []
  | k, x :: xs => (if k = fixed then ["..."] else []) ++ x :: marked fixed (k + 1) xs

theorem marked_of_lt {fixed : Int} {k : Nat} (h : fixed < k) (xs : List String) :
    marked fixed k xs = xs := by
  induction xs generalizing k with
  | nil => rfl
  | cons x xs ih => rw [marked, if_neg (by omega), ih (by omega), nil_append]

/-- With the marker behind the loop there is one marker in all. -/
theorem marked_append_end (n k : Nat) (xs : List String) :
    marked (k + n : Nat) k xs ++ (if xs.length ≤ n then ["..."] else []) =
      xs.take n ++ "..." :: xs.drop n := by
  induction xs generalizing n k with
  | nil => simp [marked]
  | cons x xs ih =>
    cases n with
    | zero =>
      rw [marked, if_pos (by simp), marked_of_lt (by omega), if_neg (by simp)]
      simp
    | succ n =>
      rw [marked, if_neg (by omega), nil_append, cons_append, take_succ_cons, drop_succ_cons,
        cons_append, ← ih n (k + 1), show k + 1 + n = k + (n + 1) by omega]
      simp

theorem intercalate_marked_cons (c : Prop) [Decidable c] (x : String) (xs : List String) :
    ", ".intercalate ((if c then ["..."] else []) ++ x :: xs) = (if c then "..., " else "") ++ x ++
      (if xs = [] then "" else ", ") ++ ", ".intercalate xs := by
  have hmark : "..., " = "..." ++ ", " := rfl
  rw [hmark]
  split <;> cases xs <;> simp [String.append_assoc]

theorem argsText_eq (w fixed : Int) (tys : List Ir.Ty) {k count : Nat} {args : List Ir.Value}
    (h : count = k + args.length) : argsText w fixed tys count k args =
      ", ".intercalate (marked fixed k (typed w tys k args)) := by
  induction args generalizing k with
  | nil => rfl
  | cons a args ih =>
    have hitems : typed w tys k (a :: args) = argText w tys k a :: typed w tys (k + 1) args := rfl
    have hcount : count = k + 1 + args.length := by simp [h]; omega
    have hlast : marked fixed (k + 1) (typed w tys (k + 1) args) = [] ↔ ¬k + 1 < count := by
      cases args <;> simp [typed, marked, hcount]
    rw [hitems, marked, intercalate_marked_cons, ← ih hcount, argsText]
    simp only [hlast, ite_not]

theorem argsText_append_endMarker (w fixed : Int) (tys : List Ir.Ty) (args : List Ir.Value) :
    argsText w fixed tys args.length 0 args ++ endMarker fixed args.length = ", ".intercalate
      (marked fixed 0 (typed w tys 0 args) ++ if args.length ≤ fixed then ["..."] else []) := by
  rw [argsText_eq w fixed tys (Nat.zero_add _).symm, endMarker]
  split
  case isFalse => simp
  case isTrue =>
    cases args with
    | nil => simp [typed, marked]
    | cons a args =>
      rw [String.intercalate_append_of_ne_nil (by simp [typed, marked]) (by simp), if_pos (by simp)]
      simp [String.append_assoc]

/-- A call is written with its arguments in order and with their types. Among them stands one marker
behind those that the callee always takes if it takes a varying number, and else none. -/
theorem call_written (p : Ir.Program) (func : String) (i : Ir.Instr) (callee : Ir.Value)
    (args : List Ir.Value) :
    ∃ items, instrText p func { i with op := .call, args := callee :: args } =
        .ok ("\t" ++ (resultText p.wordSize i ++ "call " ++ valueText p.wordSize callee ++ "(" ++
          ", ".intercalate items ++ ")") ++ "\n") ∧
      items.filter (· ≠ "...") = typed p.wordSize i.argTys 0 args ∧
      ∀ k : Nat, items[k]? = some "..." ↔ ∃ n, Varies p callee n ∧ k = min n args.length := by
  have hnot := marker_notMem_typed p.wordSize i.argTys 0 args
  have hlength : (typed p.wordSize i.argTys 0 args).length = args.length := by simp [typed]
  have htext := argsText_append_endMarker p.wordSize (fixedCount p callee) i.argTys args
  refine ⟨marked (fixedCount p callee) 0 (typed p.wordSize i.argTys 0 args) ++
    if args.length ≤ fixedCount p callee then ["..."] else [], ?_, ?_⟩
  · rw [← htext]
    rfl
  simp only [← fixedCount_eq_iff, ← hlength]
  by_cases hn : ∃ n : Nat, fixedCount p callee = n
  · obtain ⟨n, hn⟩ := hn
    have hitems := marked_append_end n 0 (typed p.wordSize i.argTys 0 args)
    rw [Nat.zero_add] at hitems
    simp only [hn, Int.ofNat_le, hitems]
    refine ⟨filter_marked hnot n, fun k => ?_⟩
    simpa [Int.ofNat_inj] using getElem?_marked hnot n k
  · have hneg : fixedCount p callee < 0 := by
      by_contra hpos
      exact hn ⟨_, (Int.toNat_of_nonneg (Int.not_lt.1 hpos)).symm⟩
    rw [marked_of_lt (by simpa using hneg), if_neg (by omega), append_nil]
    refine ⟨filter_eq_self.2 fun b hb => decide_eq_true fun hba => hnot (hba ▸ hb), fun k => ?_⟩
    refine iff_of_false (fun hk => hnot (mem_of_getElem? hk)) ?_
    rintro ⟨n, hn', -⟩
    exact hn ⟨n, hn'⟩

end Quadruple.Qbe
