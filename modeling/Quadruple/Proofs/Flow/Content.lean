import Quadruple.Proofs.Flow.Built

/-!
# What a flow graph keeps of its stream

Main statement: `content_of_build`. A graph has the globals of its stream in order and one function
for each routine of the stream. A function keeps the formals and locals of its routine, and the
texts of its blocks, one behind the other, are the body of the routine: without equations and
declarations, with every conditional jump fused with the jump behind it, and with the labels that
the targets stand for. So nothing is lost, doubled or moved.
-/

namespace Quadruple

open List

def Quad.formal? : Quad → Option Decl
  | .formalDecl v => some v
  | _ => none

def Quad.local? : Quad → Option Decl
  | .localDecl v => some v
  | _ => none

def Quad.label? : Quad → Option Int
  | .label n => some n
  | _ => none

theorem Quad.label?_eq_none {q : Quad} (hq : ∀ n, q ≠ .label n) : q.label? = none := by
  cases q with
  | label n => exact absurd rfl (hq n)
  | _ => rfl

namespace Flow

/-- The text of a block: its instructions, with `L<n>` in front when the block has that name. -/
inductive Block.Text (b : Block) : List Quad → Prop
  | labelled {n : Int} : b.label = labelName n → b.Text (.label n :: b.quads)
  | plain : (∀ n, b.label ≠ labelName n) → b.Text b.quads

/-- The instructions of a routine that stand in blocks, with the labels that their targets stand
for: no equation, no declaration, no conditional jump apart from its jump. -/
def Routine.Text (eqs : Equations) (r : Routine) (ts : List Quad) : Prop :=
  ∃ qs, fuse? r.body = some qs ∧ Resolves eqs (qs.filter (fun q => !q.isDecl) ++ [.funcEnd]) ts

structure Routine.Keeps (eqs : Equations) (r : Routine) (f : Func) : Prop where
  name : f.name = r.name
  tag : f.tag = r.tag
  formals : f.formals = r.body.filterMap Quad.formal?
  locals : f.locals = r.body.filterMap Quad.local?
  text : ∃ texts, Forall₂ Block.Text f.blocks texts ∧ r.Text eqs texts.flatten
  transfers : ∀ b ∈ f.blocks, ∀ q ∈ b.quads.dropLast, q.endsBlock = false
  alone : ∀ b ∈ f.blocks, .funcEnd ∈ b.quads → b.quads = [.funcEnd]
  down : ∀ (i : Nat) (b : Block), f.blocks[i]? = some b →
    b.down = if i + 1 < f.blocks.length then some (i + 1) else none

/-! ## Declarations -/

theorem filterMap_fuse? {α : Type} {p : Quad → Option α} (hpatch : ∀ b l, p (.patch b l) = none)
    (hcond : ∀ c t, p (.condJump c t) = none) (hjump : ∀ t, p (.jump t) = none)
    (hbranch : ∀ c t u, p (.branch c t u) = none) {body qs : List Quad}
    (h : fuse? body = some qs) : qs.filterMap p = body.filterMap p := by
  replace h := fuses_of_fuse? h
  induction h with
  | nil => rfl
  | patch _ ih => rw [filterMap_cons_none (hpatch _ _), ih]
  | test _ ih =>
    rw [filterMap_cons_none (hbranch _ _ _), filterMap_cons_none (hcond _ _),
      filterMap_cons_none (hjump _), ih]
  | keep _ _ ih => rw [filterMap_cons, filterMap_cons, ih]

namespace Draft

theorem heading_append (d : Draft) (q : Quad) :
    (d.append q).name = d.name ∧ (d.append q).tag = d.tag ∧ (d.append q).formals = d.formals ∧
      (d.append q).locals = d.locals := by
  cases hopen : d.isOpen <;> cases hrev : d.rev <;> simp [append, hopen, hrev]

theorem heading_add (d : Draft) (q : Quad) :
    (d.add q).name = d.name ∧ (d.add q).tag = d.tag ∧
      (d.add q).formals = d.formals ++ q.formal?.toList ∧
      (d.add q).locals = d.locals ++ q.local?.toList := by
  cases q with
  | formalDecl v | localDecl v => simp [add, Quad.formal?, Quad.local?]
  | label n => simp [add, startBlock, Quad.formal?, Quad.local?]
  | funcEnd =>
    simp only [add, close, Quad.formal?, Quad.local?, Option.toList_none, append_nil]
    split <;> exact heading_append _ _
  | _ =>
    simp only [add, close, Quad.formal?, Quad.local?, Option.toList_none, append_nil]
    exact heading_append _ _

theorem heading_addAll (d : Draft) (qs : List Quad) :
    (d.addAll qs).name = d.name ∧ (d.addAll qs).tag = d.tag ∧
      (d.addAll qs).formals = d.formals ++ qs.filterMap Quad.formal? ∧
      (d.addAll qs).locals = d.locals ++ qs.filterMap Quad.local? := by
  induction qs generalizing d with
  | nil => simp [addAll]
  | cons q qs ih =>
    obtain ⟨hname, htag, hformals, hlocals⟩ := heading_add d q
    obtain ⟨hname', htag', hformals', hlocals'⟩ := ih (d.add q)
    refine ⟨hname'.trans hname, htag'.trans htag, ?_, ?_⟩
    · rw [show d.addAll (q :: qs) = (d.add q).addAll qs from rfl, hformals', hformals]
      cases hq : q.formal? <;> simp [hq]
    · rw [show d.addAll (q :: qs) = (d.add q).addAll qs from rfl, hlocals', hlocals]
      cases hq : q.local? <;> simp [hq]

end Draft

/-! ## Texts -/

variable {eqs : Equations} {f : Func} {d : Draft} {i : Nat}

theorem text_of_finishBlock {b : DraftBlock} {b' : Block}
    (hinner : ∀ q ∈ b.rev.tail, q.endsBlock = false) (h : d.finishBlock eqs i b = .ok b') :
    ∃ text, b'.Text text ∧ Resolves eqs b.flat text := by
  have hquads := resolves_of_finishBlock hinner h
  have hlabel := (finishBlock_frame h).1
  have hplain : (∀ n, b.name ≠ .label n) → b'.Text b'.quads := fun hname =>
    .plain fun n hn => hname n (BlockName.text_injective (hlabel.symm.trans hn))
  cases hname : b.name with
  | label n =>
    refine ⟨.label n :: b'.quads, .labelled (by rw [hlabel, hname]; rfl), ?_⟩
    rw [DraftBlock.flat, hname]
    exact .cons rfl hquads
  | entry | numbered =>
    refine ⟨b'.quads, hplain (by simp [hname]), ?_⟩
    rw [DraftBlock.flat, hname]
    exact hquads

theorem texts_of_finished (hd : d.Cut) (hf : Finished d eqs f) :
    ∃ texts, Forall₂ Block.Text f.blocks texts ∧ Resolves eqs d.flat texts.flatten := by
  -- over any part of the blocks, wherever its places start
  have hpart : ∀ (ds : List DraftBlock) (k : Nat) (bs : List Block), (∀ b ∈ ds, b ∈ d.rev) →
      Forall₂ (fun p b => d.finishBlock eqs p.2 p.1 = .ok b) (ds.zipIdx k) bs →
      ∃ texts, Forall₂ Block.Text bs texts ∧
        Resolves eqs (ds.flatMap DraftBlock.flat) texts.flatten := by
    intro ds
    induction ds with
    | nil =>
      intro k bs _ hbs
      cases hbs
      exact ⟨[], .nil, .nil⟩
    | cons b ds ih =>
      intro k bs hmem hbs
      rw [zipIdx_cons] at hbs
      cases hbs with
      | cons hb hbs =>
        obtain ⟨text, htext, hres⟩ := text_of_finishBlock (hd.inner b (hmem b mem_cons_self)) hb
        obtain ⟨texts, htexts, hrest⟩ :=
          ih (k + 1) _ (fun c hc => hmem c (mem_cons_of_mem _ hc)) hbs
        exact ⟨text :: texts, .cons htext htexts, rel_append hres hrest⟩
  exact hpart d.blocks 0 f.blocks (fun b hb => mem_reverse.1 hb) hf

theorem Func.BlockEnd.transfers {b : Block} {inner : List Quad} (h : f.BlockEnd i b inner)
    (hinner : ∀ q ∈ inner, q.endsBlock = false) : ∀ q ∈ b.quads.dropLast, q.endsBlock = false := by
  cases h with
  | branch hq | jump hq | ret hq | done hq =>
    rw [hq, dropLast_concat]
    exact hinner
  | fall hq =>
    rw [hq]
    exact fun q hmem => hinner q (dropLast_subset _ hmem)

theorem keeps_of_builds {r : Routine} (h : r.Builds eqs f) : r.Keeps eqs f := by
  have hbuilt := built_of_builds h
  obtain ⟨qs, hqs, hfin⟩ := h
  obtain ⟨hname, htag, hformals, hlocals, hf⟩ := Draft.finish_ok_iff.1 hfin
  obtain ⟨hname1, htag1, hformals1, hlocals1⟩ :=
    ((Draft.start r.name r.tag).addAll qs).heading_add .funcEnd
  obtain ⟨hname2, htag2, hformals2, hlocals2⟩ := (Draft.start r.name r.tag).heading_addAll qs
  obtain ⟨texts, htexts, hres⟩ := texts_of_finished (r.cut_draft qs) hf
  rw [r.flat_draft] at hres
  refine ⟨hname.trans (hname1.trans hname2), htag.trans (htag1.trans htag2), ?_, ?_,
    ⟨texts, htexts, qs, hqs, hres⟩, ?_, hbuilt.alone, hbuilt.down⟩
  · rw [hformals, hformals1, hformals2, ← filterMap_fuse? (by simp [Quad.formal?])
      (by simp [Quad.formal?]) (by simp [Quad.formal?]) (by simp [Quad.formal?]) hqs]
    simp [Draft.start, Quad.formal?]
  · rw [hlocals, hlocals1, hlocals2, ← filterMap_fuse? (by simp [Quad.local?])
      (by simp [Quad.local?]) (by simp [Quad.local?]) (by simp [Quad.local?]) hqs]
    simp [Draft.start, Quad.local?]
  · intro b hb
    obtain ⟨i, hi⟩ := mem_iff_getElem?.1 hb
    obtain ⟨inner, hinner, hend⟩ := hbuilt.block i b hi
    exact hend.transfers hinner

/-- A flow graph keeps the content of its stream. -/
theorem content_of_build {code : List Quad} {g : Graph} (h : build code = .ok g) :
    g.globals = code.filterMap Quad.global? ∧
      List.Forall₂ (Routine.Keeps (code.filterMap Quad.equation?)) (routines code) g.funcs := by
  obtain ⟨hglobals, hfuncs⟩ := builds_of_build h
  exact ⟨hglobals, hfuncs.imp fun r f hr => keeps_of_builds hr⟩

/-- A function with a local in the middle, an open jump, code that nothing reaches and an empty
block, and behind it one that is empty. -/
def detour : List Quad :=
  [.globalDecl ⟨"g", .int, 4⟩, .funcBegin "f" .int, .formalDecl ⟨"n", .int, 4⟩,
    .ref ⟨1⟩ .param "n" 0, .load ⟨2⟩ ⟨1⟩ .int, .condJump ⟨2⟩ (.blank 1), .jump (.label 2),
    .stmtBegin 3, .localDecl ⟨"x", .int, 4⟩, .label 1, .label 2, .patch 1 1, .funcEnd,
    .globalDecl ⟨"h", .double, 8⟩, .funcBegin "e" .double, .ret none .double, .funcEnd]

def detourGraph : Graph where
  globals := [⟨"g", .int, 4⟩, ⟨"h", .double, 8⟩]
  funcs :=
    [⟨"f", .int, [⟨"n", .int, 4⟩], [⟨"x", .int, 4⟩],
      [⟨"entry", [.ref ⟨1⟩ .param "n" 0, .load ⟨2⟩ ⟨1⟩ .int, .branch ⟨2⟩ (.label 1) (.label 2)],
        [2, 3], some 1⟩,
      ⟨"bb1", [.stmtBegin 3], [2], some 2⟩, ⟨"L1", [], [3], some 3⟩,
      ⟨"L2", [.funcEnd], [], none⟩]⟩,
    ⟨"e", .double, [], [],
      [⟨"entry", [.ret none .double], [], some 1⟩, ⟨"bb1", [.funcEnd], [], none⟩]⟩]

theorem detour_content : build detour = .ok detourGraph ∧
    detourGraph.globals = detour.filterMap Quad.global? ∧
      List.Forall₂ (Routine.Keeps [(1, 1)]) (routines detour) detourGraph.funcs := by
  have hbuild : build detour = .ok detourGraph := by decide +kernel
  exact ⟨hbuild, content_of_build hbuild⟩

end Flow

end Quadruple
