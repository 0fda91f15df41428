import Quadruple.Proofs.Flow.Content
import Quadruple.Proofs.Lowering.Shape

/-!
# What the labels of a function denote

Main statement: `labels_identify_iff`. The labels of a function's blocks are pairwise distinct just
when no label stands twice in its routine. A label at which a block goes on then denotes the
successor and no other block; a label that stands twice denotes none. A jump or a branch still leads
to the first block with its label, but where control falls into the second block with a label, the
jump that is put there names the first (`repeated_goes_back`).
-/

namespace Quadruple

open List

variable {eqs : Flow.Equations} {r : Routine} {f : Func}

theorem Quad.label?_of_resolve? {p q : Quad} (h : p.resolve? eqs = some q) :
    q.label? = p.label? := by
  cases p with
  | branch | jump =>
    simp only [Quad.resolve?, bind, Option.bind_eq_some_iff] at h
    grind [Quad.label?]
  | _ => rw [← Option.some.inj h]

namespace Flow

def Func.labels (f : Func) : List String := f.blocks.map (·.label)

def Routine.marks (r : Routine) : List Int := r.body.filterMap Quad.label?

variable {ts : List Quad} {l : String} {b : Block}

theorem Resolves.marks {qs : List Quad} (h : Resolves eqs qs ts) :
    ts.filterMap Quad.label? = qs.filterMap Quad.label? := by
  induction h with
  | nil => rfl
  | cons hq _ ih => rw [filterMap_cons, filterMap_cons, Quad.label?_of_resolve? hq, ih]

theorem Routine.Text.marks (h : r.Text eqs ts) : ts.filterMap Quad.label? = r.marks := by
  obtain ⟨qs, hfuse, hres⟩ := h
  have hdecl : ∀ q : Quad, (if (!q.isDecl) = true then q.label? else none) = q.label? := by
    rintro (_ | _) <;> rfl
  rw [hres.marks, filterMap_append, filterMap_filter, funext hdecl, Routine.marks,
    ← filterMap_fuse? (by simp [Quad.label?]) (by simp [Quad.label?]) (by simp [Quad.label?])
      (by simp [Quad.label?]) hfuse]
  exact append_nil _

theorem Routine.Keeps.count_labels (h : r.Keeps eqs f) (hbuilt : f.Built) (n : Int) :
    f.labels.count (labelName n) = r.marks.count n := by
  obtain ⟨texts, htexts, htext⟩ := h.text
  rw [← htext.marks, Func.labels]
  replace hbuilt := hbuilt.bare
  clear htext h
  generalize f.blocks = bs at htexts hbuilt
  induction htexts with
  | nil => rfl
  | @cons b text bs texts hb _ ih =>
    have hquads : b.quads.filterMap Quad.label? = [] := filterMap_eq_nil_iff.2 fun q hq =>
      Quad.label?_eq_none fun m hm => hbuilt b mem_cons_self m (hm ▸ hq)
    rw [map_cons, flatten_cons, filterMap_append, count_append,
      ← ih fun c hc => hbuilt c (mem_cons_of_mem _ hc), count_cons, add_comm]
    congr 1
    cases hb with
    | @labelled m hm =>
      by_cases hmn : m = n
      · simp [hm, hmn, hquads, Quad.label?]
      · simpa [hm, hmn, hquads, Quad.label?] using fun heq => hmn (labelName_injective heq)
    | plain hm => simp [hm n, hquads]

def Func.Denotes (f : Func) (l : String) (j : Nat) : Prop := ∀ i, f.labels[i]? = some l ↔ i = j

theorem Func.denotes_iff {j : Nat} (hj : f.labels[j]? = some l) :
    f.Denotes l j ↔ f.labels.count l ≤ 1 := by
  rw [← not_lt, ← Nat.succ_le_iff, ← duplicate_iff_two_le_count, duplicate_iff_exists_distinct_get]
  constructor
  · rintro hdenotes ⟨m, n, hmn, hm, hn⟩
    have hm' := (hdenotes m).1 (by simp [hm])
    have hn' := (hdenotes n).1 (by simp [hn])
    omega
  · intro hcount i
    refine ⟨fun hi => ?_, fun hi => hi ▸ hj⟩
    obtain ⟨hi, hil⟩ := List.getElem?_eq_some_iff.1 hi
    obtain ⟨hj, hjl⟩ := List.getElem?_eq_some_iff.1 hj
    by_contra hne
    rcases lt_or_gt_of_ne hne with hlt | hlt
    · exact hcount ⟨⟨i, hi⟩, ⟨j, hj⟩, hlt, hil.symm, hjl.symm⟩
    · exact hcount ⟨⟨j, hj⟩, ⟨i, hi⟩, hlt, hjl.symm, hil.symm⟩

theorem Func.Built.count_labels_le (h : f.Built) (hl : ∀ n, l ≠ labelName n) :
    f.labels.count l ≤ 1 := by
  by_cases hmem : l ∈ f.labels
  · obtain ⟨j, hj⟩ := mem_iff_getElem?.1 hmem
    refine (Func.denotes_iff hj).1 fun i => ⟨fun hi => ?_, fun hi => hi ▸ hj⟩
    simp only [Func.labels, getElem?_map, Option.map_eq_some_iff] at hi hj
    obtain ⟨⟨b, hb, rfl⟩, c, hc, hbc⟩ := hi, hj
    exact (h.labels i j b c hb hc hbc.symm).resolve_right fun ⟨n, hn⟩ => hl n hn
  · rw [count_eq_zero_of_not_mem hmem]
    exact Nat.zero_le 1

theorem Routine.Keeps.count_labels_le_iff (h : r.Keeps eqs f) (hbuilt : f.Built) :
    f.labels.count l ≤ 1 ↔ ∀ n, l = labelName n → r.marks.count n ≤ 1 := by
  by_cases hl : ∃ n, l = labelName n
  · obtain ⟨n, rfl⟩ := hl
    rw [h.count_labels hbuilt]
    exact ⟨fun hcount m hm => labelName_injective hm ▸ hcount, fun hcount => hcount n rfl⟩
  · exact ⟨fun _ n hn => absurd ⟨n, hn⟩ hl, fun _ => hbuilt.count_labels_le fun n hn => hl ⟨n, hn⟩⟩

theorem Routine.Keeps.nodup_labels_iff (h : r.Keeps eqs f) (hbuilt : f.Built) :
    f.labels.Nodup ↔ r.marks.Nodup := by
  simp only [nodup_iff_count_le_one, h.count_labels_le_iff hbuilt]
  exact ⟨fun hcount n => hcount _ n rfl, fun hcount _ n _ => hcount n⟩

/-- Block `j` follows block `i` at the label `l`: as the first block with it where a jump or a
branch ends block `i`, and as the next block otherwise. -/
inductive Func.Exits (f : Func) (i : Nat) (b : Block) (j : Nat) (l : String) : Prop
  | transfer : (∃ q ∈ b.quads.getLast?, q.endsBlock = true) → f.blockIndex? l = some j →
      f.Exits i b j l
  | fall : (∀ q ∈ b.quads, q.endsBlock = false) → j = i + 1 → f.labels[j]? = some l →
      f.Exits i b j l

theorem Func.Exits.label {i j : Nat} (h : f.Exits i b j l) : f.labels[j]? = some l := by
  cases h with
  | transfer _ hfirst =>
    obtain ⟨hlt, hl, -⟩ := findIdx?_eq_some_iff_getElem.1 hfirst
    simpa [Func.labels, hlt] using hl
  | fall _ _ hl => exact hl

theorem Func.Built.exits {i : Nat} (h : f.Built) (hb : f.blocks[i]? = some b) {ls : List String}
    (hls : f.successors b = ls.map some) : Forall₂ (f.Exits i b) b.succs ls := by
  obtain ⟨inner, hinner, hend⟩ := h.block i b hb
  have hlast : ∀ {q : Quad}, b.quads = inner ++ [q] → q.endsBlock = true →
      ∃ q ∈ b.quads.getLast?, q.endsBlock = true := fun hq hends => ⟨_, by simp [hq], hends⟩
  have hfirst : ∀ {n : Int} {j : Nat} {l : String}, f.IsTarget n j →
      (f.blocks[j]?).map (·.label) = some l → f.blockIndex? l = some j := by
    intro n j l hj hl
    obtain ⟨c, hc, hname⟩ := hj.block
    rw [hc, Option.map_some, Option.some_inj] at hl
    rw [← hl, hname]
    exact hj.2
  have hlabels : Forall₂ (fun j l => (f.blocks[j]?).map (·.label) = some l) b.succs ls := by
    rwa [Func.successors, ← forall₂_eq_eq_eq, forall₂_map_left_iff, forall₂_map_right_iff] at hls
  cases hend with
  | branch hq hsuccs hj hk =>
    rw [hsuccs] at hlabels ⊢
    cases hlabels with
    | cons hl hm =>
      cases hm with
      | cons hm hnil =>
        cases hnil
        exact .cons (.transfer (hlast hq rfl) (hfirst hj hl))
          (.cons (.transfer (hlast hq rfl) (hfirst hk hm)) .nil)
  | jump hq hsuccs hj =>
    rw [hsuccs] at hlabels ⊢
    cases hlabels with
    | cons hl hnil =>
      cases hnil
      exact .cons (.transfer (hlast hq rfl) (hfirst hj hl)) .nil
  | ret _ hsuccs | done _ hsuccs =>
    rw [hsuccs] at hlabels ⊢
    cases hlabels
    exact .nil
  | fall hq _ hsuccs =>
    rw [hsuccs] at hlabels ⊢
    cases hlabels with
    | cons hl hnil =>
      cases hnil
      exact .cons (.fall (hq ▸ hinner) rfl (by simpa [Func.labels] using hl)) .nil

end Flow

namespace Lowering

open Quadruple.Flow (Func Routine)

/-- What the labels of a lowered function denote: its own blocks, as far as the routine it comes
from has no label twice. -/
structure Identified (r : Routine) (f : Func) (f' : Ir.Func) : Prop where
  labels : f'.blocks.map (·.label) = f.labels
  nodup : f.labels.Nodup ↔ r.marks.Nodup
  goals : ∀ i b b', f.blocks[i]? = some b → f'.blocks[i]? = some b' →
    ∃ is t ls, b'.instrs = is ++ [t] ∧ t.LeadsTo ls ∧ Forall₂ (fun j l => f.Exits i b j l ∧
      (f.Denotes l j ↔ ∀ n, l = labelName n → r.marks.count n ≤ 1)) b.succs ls

theorem identified_of_mirrors {f' : Ir.Func} {T : Symbols.Table}
    (hkeeps : r.Keeps eqs f) (hbuilt : f.Built)
    (h : Forall₂ (Mirrors T f) f.blocks f'.blocks) : Identified r f f' := by
  refine ⟨?_, hkeeps.nodup_labels_iff hbuilt, fun i b b' hb hb' => ?_⟩
  · rw [Func.labels, ← forall₂_eq_eq_eq, forall₂_map_left_iff, forall₂_map_right_iff]
    exact (h.imp fun _ _ hm => hm.label.symm).flip.imp fun _ _ heq => heq.symm
  · obtain ⟨hi, rfl⟩ := List.getElem?_eq_some_iff.1 hb
    obtain ⟨hi', rfl⟩ := List.getElem?_eq_some_iff.1 hb'
    obtain ⟨is, t, ls, hinstrs, -, -, hleads, hsuccs, -⟩ := (h.get hi hi').last
    refine ⟨is, t, ls, hinstrs, hleads, (hbuilt.exits hb hsuccs).imp fun j l hjl => ⟨hjl, ?_⟩⟩
    rw [Func.denotes_iff hjl.label, hkeeps.count_labels_le_iff hbuilt]

theorem forall₂_zip_right {α β γ : Type} {R : α → β → Prop} {S : β → γ → Prop} {as : List α}
    {bs : List β} {cs : List γ} (hR : Forall₂ R as bs) (hS : Forall₂ S bs cs) :
    Forall₂ (fun a q => R a q.1 ∧ S q.1 q.2) as (bs.zip cs) := by
  induction hR generalizing cs with
  | nil => exact .nil
  | cons hr _ ih =>
    cases hS with
    | cons hs hS => exact .cons ⟨hr, hs⟩ (ih hS)

/-- A label denotes the block that it leads to just when it stands once in its routine. -/
theorem labels_identify_iff {code : List Quad} {g : Flow.Graph} (hg : Flow.build code = .ok g)
    {s s1 : State} {p : Ir.Program} (h : lower g s = .ok p s1) :
    g.funcs.length = p.funcs.length ∧ List.Forall₂ (fun r (q : Func × Ir.Func) =>
      Identified r q.1 q.2) (Flow.routines code) (g.funcs.zip p.funcs) := by
  obtain ⟨cs, htrails, rfl⟩ := exists_trails h
  have hmirrors : Forall₂ (fun f f' => Forall₂ (Mirrors s.table f) f.blocks f'.blocks)
      g.funcs (cs.map (·.func)) := forall₂_map_right_iff.2
    ((htrails.mirrors (Flow.built_of_build hg) (labelFree_declaredTable g)).imp fun _ _ h => h.2)
  refine ⟨hmirrors.length_eq, (forall₂_zip_right (Flow.builds_of_build hg).2 hmirrors).imp ?_⟩
  rintro r ⟨f, f'⟩ ⟨hbuilds, hblocks⟩
  exact identified_of_mirrors (Flow.keeps_of_builds hbuilds) (Flow.built_of_builds hbuilds) hblocks

theorem hollow_identified : Flow.build hollow = .ok hollowGraph ∧
    ∃ p s', lower hollowGraph (.new {} .empty ⟨none, []⟩ "f") = .ok p s' ∧
      hollowGraph.funcs.length = p.funcs.length ∧ List.Forall₂ (fun r (q : Func × Ir.Func) =>
        Identified r q.1 q.2) (Flow.routines hollow) (hollowGraph.funcs.zip p.funcs) := by
  obtain ⟨hbuild, p, s', hl⟩ := hollow_lowers
  exact ⟨hbuild, p, s', hl, labels_identify_iff hbuild hl⟩

def repeated : List Quad := [.funcBegin "f" .int, .label 1, .const ⟨1⟩ "1" .int, .label 1, .funcEnd]

def repeatedGraph : Flow.Graph where
  globals := []
  funcs :=
    [⟨"f", .int, [], [], [⟨"entry", [], [1], some 1⟩,
      ⟨"L1", [.const ⟨1⟩ "1" .int], [2], some 2⟩, ⟨"L1", [.funcEnd], [], none⟩]⟩]

/-- Two blocks have one label, and the first of them jumps to itself where it should fall into the
second. -/
theorem repeated_goes_back : Flow.build repeated = .ok repeatedGraph ∧
    (∀ f ∈ repeatedGraph.funcs, ¬ f.labels.Nodup ∧ f.blockIndex? "L1" = some 1) ∧
    (result? (lower repeatedGraph) (.new {} .empty ⟨none, []⟩ "f")).map
      (fun p => p.funcs.map fun f => f.blocks.map fun b => (b.label, b.instrs.map fun i =>
        (i.op, i.labels))) =
      some [[("entry", [(.copy, []), (.jmp, ["L1"])]), ("L1", [(.copy, []), (.jmp, ["L1"])]),
        ("L1", [(.ret, [])])]] := by
  refine ⟨by decide +kernel, by decide +kernel, by cbv⟩

end Lowering

end Quadruple
