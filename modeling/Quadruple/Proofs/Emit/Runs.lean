import Quadruple.Proofs.Emit.Actions
import Quadruple.Proofs.Emit.Chain

/-!
# Runs of the emitter

Whatever an operation does, it does in acts, so what every act keeps holds along every run:
`run_keeps`.

Main statement: `equations_of_run`. However the emitter was run, no blank has two equations, the
equations of the code are the labels that the emitter knows for its blanks, and the two faults of
building a flow graph that have to do with equations do not occur.
-/

namespace Quadruple

open List

namespace Emit

open Symbols (EntryId Table)

variable {g d c : Bool} {I I' : List Item} {s s' : State} {q : Quad}

theorem run_keeps {P : State → Prop}
    (hact : ∀ {g d c I I' s s'}, Act g d c (I, s) (I', s') → P s → P s')
    (hshare : ∀ s table report, P s → P { s with table, report }) (hs : P s) (ops : List Op) :
    P (s.run ops) := by
  induction ops generalizing s with
  | nil => exact hs
  | cons op ops ih =>
    refine ih ?_
    cases op with
    | share table report => exact hshare s table report hs
    | _ => exact (does_perform rfl).keeps hact hs

theorem Writes.still (h : Writes I s q) : q.equation? = none ∧ ∀ n, q ≠ .label n := by
  cases h with
  | storage hq =>
    exact forall_mem_storage (P := fun q => q.equation? = none ∧ ∀ n, q ≠ .label n)
      (fun _ => ⟨rfl, nofun⟩) (fun _ => ⟨rfl, nofun⟩) q hq
  | _ => exact ⟨rfl, nofun⟩

/-! ## Code and equations in step -/

/-- The equations of the code are those that are on record, and no blank is on record twice. -/
structure InStep (s : State) : Prop where
  equations : s.code.toList.filterMap Quad.equation? =
    s.patched.reverse.map fun p => ((p.1 : Int), p.2)
  once : (s.patched.map Prod.fst).Nodup

theorem inStep_new (settings : Settings) (table : Table) (report : Report) :
    InStep (State.new settings table report) :=
  ⟨rfl, nodup_nil⟩

theorem InStep.push (h : InStep s) (hcode : s'.code = s.code.push q) (hq : q.equation? = none)
    (hpatched : s'.patched = s.patched) : InStep s' :=
  ⟨by simp [hcode, hpatched, h.equations, hq], hpatched ▸ h.once⟩

theorem Act.inStep (h : Act g d c (I, s) (I', s')) (hs : InStep s) : InStep s' := by
  cases h with
  | define h => exact hs.push rfl (by cases h <;> rfl) rfl
  | emit h => exact hs.push rfl h.still.1 rfl
  | label => exact hs.push rfl rfl rfl
  | branch hq => exact hs.push rfl (by rcases hq with rfl | ⟨x, a, -, rfl⟩ <;> rfl) rfl
  | patch hnew =>
    exact ⟨by simp [Quad.equation?, hs.equations],
      nodup_cons.2 ⟨resolution?_eq_none_iff.1 hnew, hs.once⟩⟩
  | _ => exact ⟨hs.equations, hs.once⟩

theorem InStep.run (hs : InStep s) (ops : List Op) : InStep (s.run ops) :=
  run_keeps Act.inStep (fun _ _ _ h => ⟨h.equations, h.once⟩) hs ops

theorem InStep.patch_mem_iff (hs : InStep s) {b l : Int} :
    Quad.patch b l ∈ s.code.toList ↔ ∃ n : Nat, b = n ∧ s.resolution? n = some l := by
  have hcode : Quad.patch b l ∈ s.code.toList ↔
      (b, l) ∈ s.code.toList.filterMap Quad.equation? := by
    rw [mem_filterMap]
    constructor
    · exact fun hm => ⟨_, hm, rfl⟩
    · rintro ⟨q, hm, hq⟩
      cases q <;> cases hq
      exact hm
  rw [hcode, hs.equations, mem_map]
  constructor
  · rintro ⟨⟨n, m⟩, hm, heq⟩
    cases heq
    exact ⟨n, rfl, lookup_of_mem hs.once (mem_reverse.1 hm)⟩
  · rintro ⟨n, rfl, hl⟩
    exact ⟨(n, l), mem_reverse.2 (mem_of_lookup hl), rfl⟩

theorem InStep.nodup_keys (hs : InStep s) :
    ((s.code.toList.filterMap Quad.equation?).map Prod.fst).Nodup := by
  have hcast : s.patched.reverse.map (Prod.fst ∘ fun p => ((p.1 : Int), p.2)) =
      (s.patched.map Prod.fst).reverse.map Nat.cast := by
    rw [← map_reverse, map_map]
    rfl
  rw [hs.equations, map_map, hcast]
  exact (nodup_reverse.2 hs.once).map fun _ _ h => Int.ofNat.inj h

/-- However the emitter was run, no blank has two equations. -/
theorem equations_of_run (settings : Settings) (table : Table) (report : Report) (ops : List Op) :
    let s := (State.new settings table report).run ops
    ((s.code.toList.filterMap Quad.equation?).map Prod.fst).Nodup ∧
      (∀ b l, Quad.patch b l ∈ s.code.toList ↔ ∃ n : Nat, b = n ∧ s.resolution? n = some l) ∧
      ∀ b l m, Flow.build s.code.toList ≠ .error (.duplicateEquation b l) ∧
        Flow.build s.code.toList ≠ .error (.conflictingEquations b l m) := by
  intro s
  have hs : InStep s := (inStep_new settings table report).run ops
  have hbuild : Flow.NoClash (Flow.build s.code.toList) := by
    rw [Flow.build, Flow.collectEquations_ok _ [] (by simpa using hs.nodup_keys)]
    exact Flow.noClash_buildFrom _ _ _ _ _
  refine ⟨hs.nodup_keys, fun b l => hs.patch_mem_iff, fun b l m => ⟨fun he => ?_, fun he => ?_⟩⟩
  · cases hbuild _ he
  · cases hbuild _ he

end Emit

end Quadruple
