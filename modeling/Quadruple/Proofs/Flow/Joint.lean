import Quadruple.Proofs.Flow.WellFormed

/-!
# Streams put together

Main statement: `build_append`. Two streams that have flow graphs and no blank in common among their
equations have the joined graph when one is put behind the other.

The equations are those of the whole stream, and every function is finished with all of them. A
function that could be finished with fewer equations uses no others, which `Draft.finish_extends`
says.
-/

namespace Quadruple.Flow

open List

variable {eqs eqs' : Equations}

def Extends (eqs eqs' : Equations) : Prop := ∀ b n, eqs.lookup b = some n → eqs'.lookup b = some n

theorem extends_append_right (eqs eqs' : Equations) : Extends eqs (eqs ++ eqs') := by
  intro b n h
  simp [lookup_append, h]

theorem extends_append_left (h : ((eqs ++ eqs').map Prod.fst).Nodup) :
    Extends eqs' (eqs ++ eqs') := by
  intro b n hb
  exact lookup_of_mem h (mem_append_right _ (mem_of_lookup hb))

/-! ## Functions with more equations -/

namespace Draft

variable {d : Draft}

theorem resolve_extends (hext : Extends eqs eqs') {t : Target} {p : Int × Nat}
    (h : d.resolve eqs t = .ok p) : d.resolve eqs' t = .ok p := by
  cases t with
  | label n => exact h
  | blank b =>
    cases hb : eqs.lookup b with
    | none => simp [resolve, resolveIn, hb, bind, Except.bind] at h
    | some n =>
      simp only [resolve, resolveIn, hb] at h
      simp only [resolve, resolveIn, hext b n hb]
      exact h

theorem finishBlock_extends (hext : Extends eqs eqs') {i : Nat} {b : DraftBlock} {b' : Block}
    (h : d.finishBlock eqs i b = .ok b') : d.finishBlock eqs' i b = .ok b' := by
  obtain ⟨name, rev⟩ := b
  cases rev with
  | nil => exact h
  | cons q before =>
    cases q with
    | branch c t u =>
      obtain ⟨n, m, j, k, ht, hu, -⟩ := finishBlock_branch h
      simpa [finishBlock, finishBlockWith, ht, hu, resolve_extends hext ht,
        resolve_extends hext hu] using h
    | jump t =>
      obtain ⟨n, j, ht, -⟩ := finishBlock_jump h
      simpa [finishBlock, finishBlockWith, ht, resolve_extends hext ht] using h
    | _ => exact h

theorem finish_extends (hext : Extends eqs eqs') {f : Func} (h : d.finish eqs = .ok f) :
    d.finish eqs' = .ok f := by
  obtain ⟨hname, htag, hformals, hlocals, hblocks⟩ := finish_ok_iff.1 h
  exact finish_ok_iff.2
    ⟨hname, htag, hformals, hlocals, hblocks.imp fun _ _ => finishBlock_extends hext⟩

end Draft

/-! ## One stream behind another -/

theorem buildFrom_append (hext : Extends eqs eqs') {place : Nat} {g g' : Graph}
    {cur : Option Draft} {code : List Quad} (h : buildFrom eqs place g cur code = .ok g')
    (place' : Nat) (k : Graph) (rest : List Quad) :
    buildFrom eqs' place' (k.append g) cur (code ++ rest) =
      buildFrom eqs' (place' + code.length) (k.append g') none rest := by
  fun_induction buildFrom eqs place g cur code generalizing place' with
  | case1 =>
    cases h
    rfl
  | case3 place g cur b l qs ih | case6 place g name tag qs ih =>
    rw [cons_append, buildFrom, ih h, length_cons, add_right_comm, add_assoc]
  | case4 place g v qs ih =>
    have hglobals : k.append { g with globals := g.globals ++ [v] } =
        { k.append g with globals := (k.append g).globals ++ [v] } := by simp [Graph.append]
    rw [cons_append, buildFrom, ← hglobals, ih h, length_cons, add_right_comm, add_assoc]
  | case9 place g qs d ih =>
    obtain ⟨f, hfin, h⟩ := exists_of_bind_ok h
    have hfuncs : k.append { g with funcs := g.funcs ++ [f] } =
        { k.append g with funcs := (k.append g).funcs ++ [f] } := by simp [Graph.append]
    rw [cons_append, buildFrom, Draft.finish_extends hext hfin]
    show buildFrom eqs' (place' + 1) { k.append g with funcs := (k.append g).funcs ++ [f] } none
      (qs ++ rest) = _
    rw [← hfuncs, ih f h, length_cons, add_right_comm, add_assoc]
  | case11 place g c t d u qs ih =>
    rw [cons_append, cons_append, buildFrom]
    rw [ih h, length_cons, length_cons]
    congr 1
    omega
  | case14 place g q qs h1 h2 h3 h4 h5 d ih =>
    have hstep : buildFrom eqs' place' (k.append g) (some d) (q :: (qs ++ rest)) =
        buildFrom eqs' (place' + 1) (k.append g) (some (d.add q)) (qs ++ rest) := by
      cases q <;> simp_all [buildFrom]
    rw [cons_append, hstep, ih h, length_cons, add_right_comm, add_assoc]
  | case2 | case5 | case7 | case8 | case10 | case12 | case13 => cases h

/-- Streams whose equations are for different blanks can be built one by one. -/
theorem build_append {a b : List Quad} {g h : Graph}
    (hdisjoint : ∀ x m n, .patch x m ∈ a → .patch x n ∉ b) (ha : build a = .ok g)
    (hb : build b = .ok h) : build (a ++ b) = .ok (g.append h) := by
  obtain ⟨hnodupa, hfroma⟩ := buildFrom_of_build ha
  obtain ⟨hnodupb, hfromb⟩ := buildFrom_of_build hb
  have hnodup : (((a ++ b).filterMap Quad.equation?).map Prod.fst).Nodup := by
    rw [List.filterMap_append, List.map_append, List.nodup_append]
    refine ⟨hnodupa, hnodupb, fun x hx y hy hxy => ?_⟩
    obtain ⟨m, hm⟩ := exists_patch_of_mem hx
    obtain ⟨n, hn⟩ := exists_patch_of_mem hy
    exact hdisjoint x m n hm (hxy ▸ hn)
  have hcollect := collectEquations_ok (a ++ b) [] hnodup
  rw [List.nil_append, List.filterMap_append] at hcollect
  rw [List.filterMap_append] at hnodup
  calc build (a ++ b)
      = buildFrom (a.filterMap Quad.equation? ++ b.filterMap Quad.equation?) 1
          (Graph.empty.append .empty) none (a ++ b) := by rw [build, hcollect]; rfl
    _ = buildFrom (a.filterMap Quad.equation? ++ b.filterMap Quad.equation?) (1 + a.length)
          (Graph.empty.append g) none b := buildFrom_append (extends_append_right _ _) hfroma ..
    _ = buildFrom (a.filterMap Quad.equation? ++ b.filterMap Quad.equation?) (1 + a.length)
          (g.append .empty) none (b ++ []) := by simp [Graph.append, Graph.empty]
    _ = .ok (g.append h) := by
        rw [buildFrom_append (extends_append_left hnodup) hfromb]
        rfl

/-- A stream with a loop, and one that uses the same label and patches its blank before its
function. -/
def firstPart : List Quad :=
  [.globalDecl ⟨"x", .int, 4⟩, .funcBegin "f" .int, .label 1, .jump (.blank 1), .funcEnd,
    .patch 1 1]

def secondPart : List Quad :=
  [.patch 2 1, .funcBegin "g" .int, .const ⟨1⟩ "5" .int, .condJump ⟨1⟩ (.blank 2),
    .jump (.label 2), .label 1, .label 2, .ret none .int, .funcEnd]

def firstGraph : Graph where
  globals := [⟨"x", .int, 4⟩]
  funcs :=
    [⟨"f", .int, [], [],
      [⟨"entry", [], [1], some 1⟩, ⟨"L1", [.jump (.label 1)], [1], some 2⟩,
        ⟨"bb1", [.funcEnd], [], none⟩]⟩]

def secondGraph : Graph where
  globals := []
  funcs :=
    [⟨"g", .int, [], [],
      [⟨"entry", [.const ⟨1⟩ "5" .int, .branch ⟨1⟩ (.label 1) (.label 2)], [1, 2], some 1⟩,
        ⟨"L1", [], [2], some 2⟩, ⟨"L2", [.ret none .int], [], some 3⟩,
        ⟨"bb1", [.funcEnd], [], none⟩]⟩]

theorem parts_append : build firstPart = .ok firstGraph ∧ build secondPart = .ok secondGraph ∧
    build (firstPart ++ secondPart) = .ok (firstGraph.append secondGraph) := by
  have hfirst : build firstPart = .ok firstGraph := by decide +kernel
  have hsecond : build secondPart = .ok secondGraph := by decide +kernel
  have hdisjoint : ∀ x m n, .patch x m ∈ firstPart → .patch x n ∉ secondPart := by
    simp only [firstPart, secondPart, List.mem_cons, List.not_mem_nil, reduceCtorEq,
      Quad.patch.injEq, or_false, false_or]
    omega
  exact ⟨hfirst, hsecond, build_append hdisjoint hfirst hsecond⟩

end Quadruple.Flow
