import Quadruple.Proofs.Code.Decimal
import Quadruple.Proofs.Flow.Routines

/-!
# What a built function looks like

Main statement: `built_of_build`. In every function of a graph that was built, a transfer stands
last in its block, the successors of a block are the first blocks that its targets name, a block
without a transfer goes on with the next one, no block goes back to the first, and two blocks have
one label only where it is written twice in the function.
-/

namespace Quadruple

open List

/-- An instruction with the labels that its targets stand for. The instructions of a block have no
targets but those of branches and jumps. -/
def Quad.resolve? (eqs : Flow.Equations) : Quad → Option Quad
  | .branch c t u => do
    let n ← Flow.targetLabel? eqs t
    let m ← Flow.targetLabel? eqs u
    return .branch c (.label n) (.label m)
  | .jump t => do
    let n ← Flow.targetLabel? eqs t
    return .jump (.label n)
  | q => some q

theorem Quad.resolve?_of_endsBlock {eqs : Flow.Equations} {q : Quad} (h : q.endsBlock = false) :
    q.resolve? eqs = some q := by
  cases q with
  | branch | jump => cases h
  | _ => rfl

theorem Quad.eq_of_resolve? {eqs : Flow.Equations} {p q : Quad} (h : p.resolve? eqs = some q)
    (hb : ∀ c t u, q ≠ .branch c t u) (hj : ∀ t, q ≠ .jump t) : p = q := by
  cases p with
  | branch c t u =>
    simp only [Quad.resolve?, bind, Option.bind_eq_some_iff] at h
    obtain ⟨n, -, m, -, hq⟩ := h
    exact absurd (Option.some.inj hq).symm (hb _ _ _)
  | jump t =>
    simp only [Quad.resolve?, bind, Option.bind_eq_some_iff] at h
    obtain ⟨n, -, hq⟩ := h
    exact absurd (Option.some.inj hq).symm (hj _)
  | _ => exact Option.some.inj h

namespace Flow

/-- The instructions `qs` with the labels that their targets stand for. -/
def Resolves (eqs : Equations) (qs ts : List Quad) : Prop :=
  Forall₂ (fun q t => q.resolve? eqs = some t) qs ts

/-- Block `j` is the first one with the label `L<n>`, and it is not the entry. -/
def Func.IsTarget (f : Func) (n : Int) (j : Nat) : Prop :=
  0 < j ∧ f.blockIndex? (labelName n) = some j

variable {f : Func} {j i : Nat} {b' : Block} {d : Draft} {b c : DraftBlock} {eqs : Equations}
  {bs : List DraftBlock} {n : Int}

theorem Func.IsTarget.block (h : f.IsTarget n j) :
    ∃ b, f.blocks[j]? = some b ∧ b.label = labelName n := by
  obtain ⟨hlt, hlabel, -⟩ := findIdx?_eq_some_iff_getElem.1 h.2
  exact ⟨_, getElem?_eq_getElem hlt, eq_of_beq hlabel⟩

/-- How block `i` of a function ends, behind the instructions `inner`. -/
inductive Func.BlockEnd (f : Func) (i : Nat) (b : Block) (inner : List Quad) : Prop
  | branch {c : Temp} {n m : Int} {j k : Nat} :
      b.quads = inner ++ [.branch c (.label n) (.label m)] → b.succs = [j, k] →
      f.IsTarget n j → f.IsTarget m k → f.BlockEnd i b inner
  | jump {n : Int} {j : Nat} :
      b.quads = inner ++ [.jump (.label n)] → b.succs = [j] → f.IsTarget n j → f.BlockEnd i b inner
  | ret {v : Option Temp} {tag : Tag} :
      b.quads = inner ++ [.ret v tag] → b.succs = [] → f.BlockEnd i b inner
  | done : b.quads = inner ++ [.funcEnd] → b.succs = [] → f.BlockEnd i b inner
  | fall : b.quads = inner → b.down = some (i + 1) → b.succs = [i + 1] →
      i + 1 < f.blocks.length → f.BlockEnd i b inner

structure Func.Built (f : Func) : Prop where
  entry : ∃ b, f.blocks[0]? = some b ∧ ∀ n, b.label ≠ labelName n
  down : ∀ (i : Nat) (b : Block), f.blocks[i]? = some b →
    b.down = if i + 1 < f.blocks.length then some (i + 1) else none
  alone : ∀ b ∈ f.blocks, .funcEnd ∈ b.quads → b.quads = [.funcEnd]
  bare : ∀ b ∈ f.blocks, ∀ n, .label n ∉ b.quads
  named : ∀ (i : Nat) (b : Block), f.blocks[i + 1]? = some b →
    b.quads ≠ [] ∨ ∃ n, b.label = labelName n
  labels : ∀ (i j : Nat) (b c : Block), f.blocks[i]? = some b → f.blocks[j]? = some c →
    b.label = c.label → i = j ∨ ∃ n, b.label = labelName n
  block : ∀ (i : Nat) (b : Block), f.blocks[i]? = some b →
    ∃ inner, (∀ q ∈ inner, q.endsBlock = false) ∧ f.BlockEnd i b inner

/-! ## Finished functions -/

theorem finishBlock_frame (h : d.finishBlock eqs i b = .ok b') :
    b'.label = b.name.text ∧ b'.down = if i + 1 < d.rev.length then some (i + 1) else none := by
  obtain ⟨name, rev⟩ := b
  have hplain : ∀ {x : Block}, (pure x : Except BuildFault Block) = .ok b' → x = b' := by
    intro x hx
    exact Except.ok.inj hx
  cases rev with
  | nil => exact hplain h ▸ ⟨rfl, rfl⟩
  | cons q before =>
    cases q with
    | branch c t u =>
      obtain ⟨⟨_, _⟩, -, h⟩ := exists_of_bind_ok h
      obtain ⟨⟨_, _⟩, -, h⟩ := exists_of_bind_ok h
      exact hplain h ▸ ⟨rfl, rfl⟩
    | jump t =>
      obtain ⟨⟨_, _⟩, -, h⟩ := exists_of_bind_ok h
      exact hplain h ▸ ⟨rfl, rfl⟩
    | _ => exact hplain h ▸ ⟨rfl, rfl⟩

theorem Draft.Cut.entry_name (hd : d.Cut) : ∃ b, d.blocks[0]? = some b ∧ b.name = .entry := by
  have hentry : d.blocks[0]?.map (·.name) = some .entry := by
    rw [Draft.blocks, ← head?_eq_getElem?, head?_reverse]
    exact hd.entry
  obtain ⟨b, hb, hname⟩ := Option.map_eq_some_iff.1 hentry
  exact ⟨b, hb, hname⟩

/-! ## Names of blocks -/

theorem BlockName.text_injective {x y : BlockName} (h : x.text = y.text) : x = y := by
  have hlist := congrArg String.toList h
  cases x with
  | entry =>
    cases y with
    | entry => rfl
    | label | numbered => simp [BlockName.text, labelName] at hlist
  | label n =>
    cases y with
    | label m => rw [labelName_injective h]
    | entry | numbered => simp [BlockName.text, labelName] at hlist
  | numbered n =>
    cases y with
    | numbered m =>
      rw [Int.ofNat.inj (Numeral.decimalText_injective ((String.append_right_inj _).1 h))]
    | entry | label => simp [BlockName.text, labelName] at hlist

theorem Finished.labels (hf : Finished d eqs f) :
    f.blocks.map (·.label) = d.blocks.map (·.name.text) := by
  have hpoint : Forall₂ (fun (b : Block) (p : DraftBlock × Nat) => b.label = p.1.name.text)
      f.blocks d.blocks.zipIdx := Forall₂.flip (hf.imp fun p b h => (finishBlock_frame h).1)
  have hmap : f.blocks.map (·.label) = d.blocks.zipIdx.map (·.1.name.text) := by
    rw [← forall₂_eq_eq_eq, forall₂_map_left_iff, forall₂_map_right_iff]
    exact hpoint
  rw [hmap, ← zipIdx_map_fst 0 d.blocks, map_map]
  simp

theorem isTarget_of_resolve (hd : d.Cut) (hf : Finished d eqs f) {t : Target}
    (h : d.resolve eqs t = .ok (n, j)) : f.IsTarget n j := by
  obtain ⟨-, hj⟩ := resolve_ok h
  refine ⟨pos_of_ne_zero ?_, ?_⟩
  · rintro rfl
    obtain ⟨hlt, hname, -⟩ := findIdx?_eq_some_iff_getElem.1 hj
    obtain ⟨b0, hb0, hentry⟩ := hd.entry_name
    cases (getElem?_eq_getElem hlt).symm.trans hb0
    rw [hentry] at hname
    cases hname
  · -- names of blocks are the same just when their texts are
    have hsame : ∀ b : DraftBlock, (b.name.text == labelName n) = (b.name == .label n) := by
      intro b
      rw [Bool.eq_iff_iff, beq_iff_eq, beq_iff_eq]
      exact ⟨fun h => BlockName.text_injective h, fun h => by rw [h]; rfl⟩
    calc f.blockIndex? (labelName n)
        = (f.blocks.map (·.label)).findIdx? (· == labelName n) := by
          rw [findIdx?_map]
          rfl
      _ = d.blocks.findIdx? (·.name == .label n) := by
          rw [hf.labels, findIdx?_map]
          exact congrArg (d.blocks.findIdx? ·) (funext hsame)
      _ = some j := hj

/-- Only labels name two blocks, and the numbered blocks have the numbers given out so far. -/
structure Draft.Named (d : Draft) : Prop where
  apart : d.rev.Pairwise fun b c => b.name = c.name → ∃ n, b.name = .label n
  numbered : ∀ b ∈ d.rev, ∀ k, b.name = .numbered k → k ≤ d.numbered

namespace Draft

theorem named_start (name : String) (tag : Tag) : (start name tag).Named := by
  constructor <;> simp [start]

theorem Named.startBlock (h : d.Named) (n : Int) : (d.startBlock (.label n)).Named := by
  refine ⟨pairwise_cons.2 ⟨fun b _ _ => ⟨n, rfl⟩, h.apart⟩, ?_⟩
  intro b hb k hk
  rcases mem_cons.1 hb with rfl | hb
  · cases hk
  · exact h.numbered b hb k hk

theorem Named.append (h : d.Named) (q : Quad) : (d.append q).Named := by
  have hnew : ({ d with
      rev := ⟨.numbered (d.numbered + 1), [q]⟩ :: d.rev, isOpen := true,
      numbered := d.numbered + 1 } : Draft).Named := by
    refine ⟨pairwise_cons.2 ⟨fun b hb hk => ?_, h.apart⟩, fun b hb k hk => ?_⟩
    · have := h.numbered b hb _ hk.symm
      omega
    · rcases mem_cons.1 hb with rfl | hb
      · cases hk
        exact le_rfl
      · exact Nat.le_succ_of_le (h.numbered b hb k hk)
  cases hopen : d.isOpen with
  | false => simpa [Draft.append, hopen] using hnew
  | true =>
    cases hrev : d.rev with
    | nil => simpa [Draft.append, hopen, hrev] using hnew
    | cons b bs =>
      obtain ⟨hb, hbs⟩ := pairwise_cons.1 (hrev ▸ h.apart)
      simp only [Draft.append, hopen, hrev]
      refine ⟨pairwise_cons.2 ⟨hb, hbs⟩, fun c hc k hk => ?_⟩
      rcases mem_cons.1 hc with rfl | hc
      · exact h.numbered b (hrev ▸ mem_cons_self) k hk
      · exact h.numbered c (hrev ▸ mem_cons_of_mem _ hc) k hk

theorem Named.add (h : d.Named) (q : Quad) : (d.add q).Named := by
  have hclose : ∀ {e : Draft}, e.Named → e.close.Named := fun h => ⟨h.apart, h.numbered⟩
  cases q with
  | formalDecl | localDecl => exact ⟨h.apart, h.numbered⟩
  | label n => exact h.startBlock n
  | branch | jump | ret => exact hclose (h.append _)
  | funcEnd =>
    refine hclose (Named.append ?_ _)
    split
    · exact hclose h
    · exact h
  | _ => exact h.append _

theorem named_addAll (h : d.Named) (qs : List Quad) : (d.addAll qs).Named := by
  induction qs generalizing d with
  | nil => exact h
  | cons q qs ih => exact ih (h.add q)

end Draft

/-! ## Finished blocks -/

theorem Draft.lt_of_open (hrev : d.rev = c :: bs)
    (hb : d.blocks[i]? = some b) (hne : b ≠ c) : i + 1 < d.rev.length := by
  have hi : i < d.rev.length := by simpa [Draft.blocks] using (List.getElem?_eq_some_iff.1 hb).1
  refine lt_of_le_of_ne hi fun hlast => hne ?_
  have hi' : i = bs.reverse.length := by simpa [hrev] using hlast
  rw [Draft.blocks, hrev, reverse_cons, hi', getElem?_concat_length] at hb
  exact (Option.some.inj hb).symm

theorem Draft.Named.blocks (h : d.Named) (hb : d.blocks[i]? = some b)
    (hc : d.blocks[j]? = some c) (heq : b.name = c.name) : i = j ∨ ∃ n, b.name = .label n := by
  have happ : d.blocks.Pairwise fun b c => c.name = b.name → ∃ n, c.name = .label n :=
    pairwise_reverse.2 h.apart
  rw [pairwise_iff_getElem] at happ
  obtain ⟨hi, rfl⟩ := List.getElem?_eq_some_iff.1 hb
  obtain ⟨hj, rfl⟩ := List.getElem?_eq_some_iff.1 hc
  rcases lt_trichotomy i j with hlt | rfl | hlt
  · exact .inr (heq ▸ happ i j hi hj hlt heq.symm)
  · exact .inl rfl
  · exact .inr (happ j i hj hi hlt heq)

theorem blockEnd_of_finishBlock (hd : d.Cut) (hf : Finished d eqs f) {name name' : BlockName}
    {before rev : List Quad}
    (hrev : d.rev = ⟨name, .funcEnd :: before⟩ :: bs) (hb : d.blocks[i]? = some ⟨name', rev⟩)
    (hfin : d.finishBlock eqs i ⟨name', rev⟩ = .ok b') :
    ∃ inner, (∀ q ∈ inner, q.endsBlock = false) ∧ f.BlockEnd i b' inner := by
  have hinner := hd.inner _ (mem_blocks hb)
  have hfall : (∀ q ∈ rev.head?, q.endsBlock = false) →
      ∃ inner, (∀ q ∈ inner, q.endsBlock = false) ∧ f.BlockEnd i b' inner := by
    intro hopen
    have hlt : i + 1 < d.rev.length := by
      refine Draft.lt_of_open hrev hb ?_
      rintro ⟨rfl, rfl⟩
      cases hopen _ rfl
    obtain ⟨hq, hs⟩ := finishBlock_open hopen hfin
    refine ⟨rev.reverse, ?_, .fall hq ?_ (by rw [hs, if_pos hlt]) ?_⟩
    · intro q hq
      cases rev with
      | nil => cases hq
      | cons x xs =>
        rcases mem_cons.1 (mem_reverse.1 hq) with rfl | hq
        · exact hopen _ rfl
        · exact hinner q hq
    · rw [(finishBlock_frame hfin).2, if_pos hlt]
    · have hlen := hf.length_eq
      rw [length_zipIdx, Draft.blocks, length_reverse] at hlen
      exact hlen ▸ hlt
  cases rev with
  | nil => exact hfall (by simp)
  | cons x xs =>
    have hxs : ∀ q ∈ xs.reverse, q.endsBlock = false := fun q hq => hinner q (mem_reverse.1 hq)
    cases x with
    | branch c t u =>
      obtain ⟨n, m, j, k, ht, hu, hq, hs⟩ := finishBlock_branch hfin
      exact ⟨_, hxs, .branch hq hs (isTarget_of_resolve hd hf ht) (isTarget_of_resolve hd hf hu)⟩
    | jump t =>
      obtain ⟨n, j, ht, hq, hs⟩ := finishBlock_jump hfin
      exact ⟨_, hxs, .jump hq hs (isTarget_of_resolve hd hf ht)⟩
    | ret v tag =>
      obtain ⟨hq, hs⟩ := finishBlock_last (.inr ⟨v, tag, rfl⟩) hfin
      exact ⟨_, hxs, .ret hq hs⟩
    | funcEnd =>
      obtain ⟨hq, hs⟩ := finishBlock_last (.inl rfl) hfin
      exact ⟨_, hxs, .done hq hs⟩
    | _ => exact hfall (by simp [Quad.endsBlock])

theorem resolves_of_finishBlock (hinner : ∀ q ∈ b.rev.tail, q.endsBlock = false)
    (h : d.finishBlock eqs i b = .ok b') : Resolves eqs b.rev.reverse b'.quads := by
  obtain ⟨name, rev⟩ := b
  have hsame : ∀ {qs : List Quad}, (∀ q ∈ qs, q.resolve? eqs = some q) → Resolves eqs qs qs :=
    fun h => forall₂_same.2 h
  cases rev with
  | nil =>
    rw [(finishBlock_open (by simp) h).1]
    exact .nil
  | cons q before =>
    have hbefore : Resolves eqs before.reverse before.reverse := hsame fun p hp =>
      Quad.resolve?_of_endsBlock (hinner p (mem_reverse.1 hp))
    have hlast : ∀ {t}, q.resolve? eqs = some t →
        Resolves eqs (before.reverse ++ [q]) (before.reverse ++ [t]) := fun ht =>
      rel_append hbefore (.cons ht .nil)
    rw [reverse_cons]
    cases q with
    | branch c t u =>
      obtain ⟨n, m, j, k, ht, hu, hq, -⟩ := finishBlock_branch h
      rw [hq]
      exact hlast (by simp [Quad.resolve?, (resolve_ok ht).1, (resolve_ok hu).1])
    | jump t =>
      obtain ⟨n, j, ht, hq, -⟩ := finishBlock_jump h
      rw [hq]
      exact hlast (by simp [Quad.resolve?, (resolve_ok ht).1])
    | ret v tag =>
      rw [(finishBlock_last (.inr ⟨v, tag, rfl⟩) h).1]
      exact hlast rfl
    | funcEnd =>
      rw [(finishBlock_last (.inl rfl) h).1]
      exact hlast rfl
    | _ =>
      rw [(finishBlock_open (by simp [Quad.endsBlock]) h).1, reverse_cons]
      exact hlast rfl

theorem Resolves.mem {qs ts : List Quad} (h : Resolves eqs qs ts) {t : Quad} (ht : t ∈ ts) :
    ∃ q ∈ qs, q.resolve? eqs = some t := by
  obtain ⟨i, hi, rfl⟩ := mem_iff_getElem.1 ht
  exact ⟨_, getElem_mem _, h.get (h.length_eq ▸ hi) hi⟩

/-! ## Finished functions -/

theorem Finished.exists_block (hf : Finished d eqs f) (hb' : f.blocks[i]? = some b') :
    ∃ b, d.blocks[i]? = some b ∧ d.finishBlock eqs i b = .ok b' := by
  have hi : i < d.blocks.length := by
    have hlen := hf.length_eq
    rw [length_zipIdx] at hlen
    exact hlen ▸ (List.getElem?_eq_some_iff.1 hb').1
  obtain ⟨b'', hb'', hfin⟩ := Finished.block hf (getElem?_eq_getElem hi)
  cases hb'.symm.trans hb''
  exact ⟨_, getElem?_eq_getElem hi, hfin⟩

theorem built_of_finish (hd : d.Cut) (hn : d.Named)
    (hlast : ∃ name bs, d.rev = ⟨name, [.funcEnd]⟩ :: bs ∧ ∀ b ∈ bs, .funcEnd ∉ b.rev)
    (hf : Finished d eqs f) : f.Built := by
  have hlen : f.blocks.length = d.rev.length := by simpa [Draft.blocks] using hf.length_eq.symm
  obtain ⟨name, bs, hrev, hbs⟩ := hlast
  refine ⟨?_, ?_, ?_, ?_, ?_, ?_, ?_⟩
  · obtain ⟨b, hb, hname⟩ := hd.entry_name
    obtain ⟨b', hb', hfin⟩ := Finished.block hf hb
    refine ⟨b', hb', fun n hn => ?_⟩
    have hlabel : BlockName.entry = .label n := BlockName.text_injective (by
      rw [← hname, ← (finishBlock_frame hfin).1, hn]
      rfl)
    cases hlabel
  · intro i b' hb'
    obtain ⟨b, hb, hfin⟩ := hf.exists_block hb'
    rw [(finishBlock_frame hfin).2, hlen]
  · intro b' hb' hend
    obtain ⟨i, hi⟩ := mem_iff_getElem?.1 hb'
    obtain ⟨b, hb, hfin⟩ := hf.exists_block hi
    have hres := resolves_of_finishBlock (hd.inner b (mem_blocks hb)) hfin
    obtain ⟨q, hq, hqe⟩ := hres.mem hend
    obtain rfl : q = .funcEnd := Quad.eq_of_resolve? hqe (by simp) (by simp)
    have hmem := mem_blocks hb
    rw [hrev] at hmem
    rcases mem_cons.1 hmem with rfl | hmem
    · exact (finishBlock_last (.inl rfl) hfin).1
    · exact absurd (mem_reverse.1 hq) (hbs b hmem)
  · intro b' hb' n hlabel
    obtain ⟨i, hi⟩ := mem_iff_getElem?.1 hb'
    obtain ⟨b, hb, hfin⟩ := hf.exists_block hi
    obtain ⟨q, hq, hqe⟩ := (resolves_of_finishBlock (hd.inner b (mem_blocks hb)) hfin).mem hlabel
    exact hd.labels b (mem_blocks hb) q (mem_reverse.1 hq) n
      (Quad.eq_of_resolve? hqe (by simp) (by simp))
  · intro i b' hb'
    obtain ⟨b, hb, hfin⟩ := hf.exists_block hb'
    have hres := resolves_of_finishBlock (hd.inner b (mem_blocks hb)) hfin
    have hflat := hd.named b (mem_later_blocks hb)
    cases hname : b.name with
    | label n => exact .inr ⟨n, by rw [(finishBlock_frame hfin).1, hname]; rfl⟩
    | entry | numbered =>
      refine .inl fun hnil => hflat ?_
      rw [hnil] at hres
      rw [DraftBlock.flat, hname, forall₂_nil_right_iff.1 hres]
      rfl
  · intro i j b' c' hb' hc' heq
    obtain ⟨b, hb, hbf⟩ := hf.exists_block hb'
    obtain ⟨c, hc, hcf⟩ := hf.exists_block hc'
    rw [(finishBlock_frame hbf).1, (finishBlock_frame hcf).1] at heq
    refine (hn.blocks hb hc (BlockName.text_injective heq)).imp_right ?_
    rintro ⟨n, hname⟩
    exact ⟨n, by rw [(finishBlock_frame hbf).1, hname]; rfl⟩
  · intro i b' hb'
    obtain ⟨⟨name', rev⟩, hb, hfin⟩ := hf.exists_block hb'
    exact blockEnd_of_finishBlock hd hf hrev hb hfin

/-! ## Graphs -/

theorem Draft.rev_add_funcEnd (d : Draft) :
    ∃ name bs, (d.add .funcEnd).rev = ⟨name, [.funcEnd]⟩ :: bs ∧ ∀ b ∈ bs, b ∈ d.rev := by
  have hclosed : ∀ e : Draft, e.isOpen = false → e.rev = d.rev →
      ∃ name bs, (e.append .funcEnd).rev = ⟨name, [.funcEnd]⟩ :: bs ∧ ∀ b ∈ bs, b ∈ d.rev :=
    fun e ho hr => ⟨.numbered (e.numbered + 1), e.rev, by simp [Draft.append, ho], by simp [hr]⟩
  cases hstarted : d.hasStarted with
  | true =>
    simp only [Draft.add, hstarted]
    exact hclosed d.close rfl rfl
  | false =>
    simp only [Draft.add, hstarted]
    cases hopen : d.isOpen with
    | false => exact hclosed d hopen rfl
    | true =>
      cases hrev : d.rev with
      | nil =>
        exact ⟨.numbered (d.numbered + 1), [], by simp [Draft.append, Draft.close, hopen, hrev],
          by simp⟩
      | cons b bs =>
        have hempty : b.rev = [] := by simpa [Draft.hasStarted, hopen, hrev] using hstarted
        exact ⟨b.name, bs, by simp [Draft.append, Draft.close, hopen, hrev, hempty],
          fun c hc => mem_cons_of_mem _ hc⟩

theorem funcEnd_not_mem_fuse? {body qs : List Quad} (h : fuse? body = some qs) :
    .funcEnd ∉ qs := by
  replace h := fuses_of_fuse? h
  induction h with
  | nil => simp
  | patch _ ih => exact ih
  | test _ ih => simpa using ih
  | keep hq _ ih =>
    rintro (_ | ⟨_, hmem⟩)
    · cases hq
    · exact ih hmem

theorem built_of_builds {r : Routine} (h : r.Builds eqs f) : f.Built := by
  obtain ⟨qs, hqs, hfin⟩ := h
  obtain ⟨-, -, -, -, hf⟩ := Draft.finish_ok_iff.1 hfin
  refine built_of_finish (r.cut_draft qs)
    ((Draft.named_addAll (Draft.named_start r.name r.tag) qs).add .funcEnd) ?_ hf
  obtain ⟨name, bs, hrev, hbs⟩ := ((Draft.start r.name r.tag).addAll qs).rev_add_funcEnd
  refine ⟨name, bs, hrev, fun b hb hend => ?_⟩
  have hflat : Quad.funcEnd ∈ ((Draft.start r.name r.tag).addAll qs).flat :=
    mem_flatMap.2 ⟨b, mem_reverse.2 (hbs b hb), mem_append_right _ (mem_reverse.2 hend)⟩
  rw [Draft.flat_addAll, Draft.flat_start, nil_append] at hflat
  exact funcEnd_not_mem_fuse? hqs (mem_of_mem_filter hflat)

theorem built_of_build {code : List Quad} {g : Graph} (h : build code = .ok g) :
    ∀ f ∈ g.funcs, f.Built := by
  intro f hf
  obtain ⟨i, hi, rfl⟩ := mem_iff_getElem.1 hf
  have hall := (builds_of_build h).2
  exact built_of_builds (hall.get (hall.length_eq ▸ hi) hi)

end Flow

end Quadruple
