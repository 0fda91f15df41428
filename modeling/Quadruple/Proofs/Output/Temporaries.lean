import Quadruple.Output.Qbe
import Quadruple.Proofs.Code.Normal
import Quadruple.Proofs.Lowering.Closed
import Quadruple.Proofs.Lowering.Types

/-!
# Names of temporaries

A lowered function has the slots of its variables, which are called as the variables are, and the
temporaries that lowering makes, which are numbered within a family. QBE text and the keys of LLVM
values tell two temporaries apart by their names alone.

Main statement: `names_clash_iff`.
-/

namespace Quadruple

open List
open Numeral (decimalText)

@[simp]
theorem Quad.dst?_normal (q : Quad) : q.normal.dst? = q.dst? := by
  unfold normal
  split <;> rfl

variable {q : Quad} {t : Temp} {f : Flow.Func} (wordSize : Int)

theorem Quad.Writable.dst (h : q.Writable) (ht : q.dst? = some t) : t.Writable := by
  cases q <;> cases ht <;> exact h.1

def Ir.Func.Mentions (f : Ir.Func) (v : Ir.Value) : Prop :=
  (∃ q ∈ f.params, q.val = v) ∨ ∃ i ∈ f.instrs, i.result = some v ∨ v ∈ i.args

instance (f : Ir.Func) (v : Ir.Value) : Decidable (f.Mentions v) :=
  inferInstanceAs (Decidable (_ ∨ _))

namespace Lowering

/-- The families of the temporaries that lowering makes: results of the code, conversions,
arguments and the fillers of empty blocks. -/
def families : List String := ["t", "x", "arg", "noop"]

/-- Where the temporary of a name and a number in the lowered form of a function comes from. -/
inductive Origin (f : Flow.Func) : String → Int → Prop where
  | slot {d : Decl} (hd : d ∈ f.formals ++ f.locals) : Origin f d.name (-1)
  | made {family : String} (hfamily : family ∈ families) (k : Nat) : Origin f family k

theorem number_of_readCode {file source : String} {code : List Quad} {g : Flow.Graph}
    (hcode : readCode file source = .ok code) (hg : Flow.build code = .ok g)
    (hf : f ∈ g.funcs) {b : Flow.Block} (hb : b ∈ f.blocks) (hq : q ∈ b.quads)
    (ht : q.dst? = some t) : 0 ≤ t.number := by
  have hend : q.endsBlock = false := by
    cases q with
    | jump | condJump | branch | ret | funcEnd => cases ht
    | _ => rfl
  have hwritable := (readable_readCode hcode q (Flow.mem_of_build hg hf hb hq hend)).1
  exact (hwritable.dst (by rwa [Quad.dst?_normal])).1

variable {c : Trail} {n : Int} {name : String}

theorem origin_of_result (hc : c.Of f)
    (hnumber : ∀ b ∈ f.blocks, ∀ q ∈ b.quads, ∀ t, q.dst? = some t → 0 ≤ t.number) {i : Ir.Instr}
    (hi : i ∈ c.func.instrs) (hr : i.result = some (.temp name n)) : Origin f name n := by
  rcases hc.result hi with hnone | ⟨d, hd, hslot⟩ | ⟨k, hfill⟩ | ⟨v, hv, hi⟩
  · cases hnone.symm.trans hr
  · cases hslot.symm.trans hr
    exact .slot hd
  · cases hfill.symm.trans hr
    exact .made (by decide) k
  · obtain ⟨new, ns, hmakes, -⟩ := (hc.run.ran v hv).makes
    rcases hmakes.result hi with hnone | ⟨k, hconv⟩ | ⟨t, ht, htemp⟩
    · cases hnone.symm.trans hr
    · cases hconv.symm.trans hr
      exact .made (by decide) k
    · cases htemp.symm.trans hr
      obtain ⟨b, hb, hq⟩ := Option.bind_eq_some_iff.1 (hc.quadAt? hv)
      obtain ⟨k, hk⟩ := Int.eq_ofNat_of_zero_le
        (hnumber b (mem_of_getElem? hb) v.quad (mem_of_getElem? hq) t ht)
      rw [hk]
      exact .made (by decide) k

theorem origin_of_mentions (hc : c.Of f) {p : Ir.Program} (hclosed : c.func.Closed p)
    (hnumber : ∀ b ∈ f.blocks, ∀ q ∈ b.quads, ∀ t, q.dst? = some t → 0 ≤ t.number)
    (h : c.func.Mentions (.temp name n)) : Origin f name n := by
  have hparam : (∃ q ∈ c.func.params, q.val = .temp name n) → Origin f name n := by
    rintro ⟨q, hq, hval⟩
    rw [hc.func] at hq
    obtain ⟨d, -, rfl⟩ := mem_map.1 hq
    cases hval
    exact .made (by decide) d.2
  rcases h with hq | ⟨i, hi, hr | harg⟩
  · exact hparam hq
  · exact origin_of_result hc hnumber hi hr
  · obtain ⟨before, after, hsplit⟩ := append_of_mem hi
    rcases hclosed.temps before i after hsplit name n harg with hq | ⟨j, hj, hr⟩
    · exact hparam hq
    · exact origin_of_result hc hnumber (hsplit ▸ mem_append_left _ hj) hr

/-! ## Names -/

theorem eq_of_numbered {mark : Char} (hmark : mark.isDigit = false) {a b : String}
    (ha : mark ∉ a.toList) {m n : Nat}
    (h : a.toList ++ mark :: (decimalText m).toList = b.toList ++ mark :: (decimalText n).toList) :
    a = b ∧ m = n := by
  have hdigits : mark ∉ (decimalText m).toList := by
    intro hmem
    rw [(Token.isDigits_decimalText (Int.natCast_nonneg m)).2 mark hmem] at hmark
    cases hmark
  obtain ⟨hab, -, hmn⟩ := (append_cons_inj_of_notMem ha hdigits).1 h
  exact ⟨String.toList_inj.1 hab,
    Int.ofNat_inj.1 (Numeral.decimalText_injective (String.toList_inj.1 hmn))⟩

theorem families_plain : ∀ family ∈ families, Qbe.safeName family = family ∧ family ≠ "" ∧
    '_' ∉ family.toList ∧ '.' ∉ family.toList := by
  decide

theorem point_notMem_safeName (name : String) : '.' ∉ (Qbe.safeName name).toList := by
  simp only [Qbe.safeName, String.toList_ofList, mem_map, not_exists, not_and]
  intro c _
  split <;> simp_all

theorem toList_valueText_slot (name : String) :
    (Qbe.valueText wordSize (.temp name (-1))).toList = '%' :: (Qbe.safeName name).toList := by
  simp [Qbe.valueText]

theorem toList_valueText_made {family : String} (h : family ∈ families) (k : Nat) :
    (Qbe.valueText wordSize (.temp family k)).toList =
      '%' :: '.' :: (family.toList ++ '_' :: (decimalText k).toList) := by
  obtain ⟨hsafe, hne, -⟩ := families_plain family h
  have hk : (k : Int) ≠ -1 := by omega
  simp [Qbe.valueText, hsafe, hne, hk]

theorem text?_made (family : String) (k : Nat) :
    (Ir.Value.temp family k).text? = some (family ++ "." ++ decimalText k) := by
  rw [Ir.Value.text?, if_neg (by omega)]

variable {a b : String} {i j : Int}

theorem valueText_eq_iff (ha : Origin f a i) (hb : Origin f b j)
    (hne : Ir.Value.temp a i ≠ .temp b j) :
    Qbe.valueText wordSize (.temp a i) = Qbe.valueText wordSize (.temp b j) ↔
      i = -1 ∧ j = -1 ∧ Qbe.safeName a = Qbe.safeName b := by
  -- the name of a made temporary has a point in the second place, and that of a slot has none
  have hapart : ∀ (name : String) {family : String}, family ∈ families → ∀ k : Nat,
      Qbe.valueText wordSize (.temp name (-1)) ≠ Qbe.valueText wordSize (.temp family k) := by
    intro name family hfamily k heq
    have hlist := congrArg String.toList heq
    rw [toList_valueText_slot, toList_valueText_made wordSize hfamily] at hlist
    exact point_notMem_safeName name ((cons.inj hlist).2 ▸ mem_cons_self)
  cases ha with
  | slot =>
    cases hb with
    | slot => simp [Qbe.valueText]
    | made hfamily k => simp [hapart _ hfamily k]
  | made hfamily k =>
    cases hb with
    | slot => simp [(hapart _ hfamily k).symm]
    | made hfamily' l =>
      have hdiff : Qbe.valueText wordSize (.temp a k) ≠ Qbe.valueText wordSize (.temp b l) := by
        intro heq
        have hlist := congrArg String.toList heq
        rw [toList_valueText_made wordSize hfamily, toList_valueText_made wordSize hfamily',
          cons.injEq, cons.injEq] at hlist
        obtain ⟨rfl, rfl⟩ := eq_of_numbered rfl (families_plain a hfamily).2.2.1 hlist.2.2
        exact hne rfl
      simp [hdiff]

/-- Two temporaries with one key are a slot and a made temporary whose spelling its variable has. -/
theorem key_eq_iff (ha : Origin f a i) (hb : Origin f b j) (hne : Ir.Value.temp a i ≠ .temp b j) :
    (Ir.Value.temp a i).text? = (Ir.Value.temp b j).text? ↔
      i = -1 ∧ 0 ≤ j ∧ a = b ++ "." ++ decimalText j ∨
      j = -1 ∧ 0 ≤ i ∧ b = a ++ "." ++ decimalText i := by
  cases ha with
  | slot =>
    cases hb with
    | slot => simpa [Ir.Value.text?] using hne
    | made hfamily k =>
      rw [text?_made]
      simp [Ir.Value.text?]
  | made hfamily k =>
    cases hb with
    | slot =>
      rw [text?_made]
      simp [Ir.Value.text?, eq_comm]
    | made hfamily' l =>
      have hdiff : (Ir.Value.temp a k).text? ≠ (Ir.Value.temp b l).text? := by
        intro heq
        rw [text?_made, text?_made] at heq
        have hlist := congrArg String.toList (Option.some.inj heq)
        simp only [String.toList_append, append_assoc] at hlist
        obtain ⟨rfl, rfl⟩ := eq_of_numbered rfl (families_plain a hfamily).2.2.2 hlist
        exact hne rfl
      simp [hdiff]

/-- The temporaries of a lowered function, and when two of them have one name. Each is the slot of a
variable or stands in a family under its number. Two have one name in QBE text exactly if they are
slots whose variables look alike there, and one key among LLVM values exactly if one is a slot whose
variable is spelled like the other, family, point and number. -/
theorem names_clash_iff {file source : String} {code : List Quad} {g : Flow.Graph} {s s' : State}
    {p : Ir.Program} (hcode : readCode file source = .ok code) (hg : Flow.build code = .ok g)
    (hs : s.table = .empty) (h : lower g s = .ok p s') :
    List.Forall₂ (fun f h => (∀ a i, h.Mentions (.temp a i) → Origin f a i) ∧
      ∀ a i b j, h.Mentions (.temp a i) → h.Mentions (.temp b j) →
        Ir.Value.temp a i ≠ .temp b j →
        (Qbe.valueText p.wordSize (.temp a i) = Qbe.valueText p.wordSize (.temp b j) ↔
          i = -1 ∧ j = -1 ∧ Qbe.safeName a = Qbe.safeName b) ∧
        ((Ir.Value.temp a i).text? = (Ir.Value.temp b j).text? ↔
          i = -1 ∧ 0 ≤ j ∧ a = b ++ "." ++ decimalText j ∨
          j = -1 ∧ 0 ≤ i ∧ b = a ++ "." ++ decimalText i)) g.funcs p.funcs := by
  obtain ⟨cs, hcs, htrails, -⟩ := trails_of_lower h
  have hclosed := closed_of_lower (Flow.built_of_build hg) hs h
  rw [← hcs, List.forall₂_map_right_iff]
  refine forall₂_of_mem htrails fun f hf c hc hof => ?_
  have horigin : ∀ a i, c.func.Mentions (.temp a i) → Origin f a i := fun a i hm =>
    origin_of_mentions hof (hclosed.funcs c.func (hcs ▸ List.mem_map_of_mem hc))
      (fun b hb q hq t ht => number_of_readCode hcode hg hf hb hq ht) hm
  exact ⟨horigin, fun a i b j ha hb hne => ⟨valueText_eq_iff _ (horigin a i ha) (horigin b j hb) hne,
    key_eq_iff (horigin a i ha) (horigin b j hb) hne⟩⟩

/-- Variables whose names differ, of which two look alike in QBE text and one is spelled like a
result. -/
def dottedSource : String :=
  "func main 1\nlocalloc a.b 1 4\nlocalloc a_b 1 4\nlocalloc t.1 1 4\nt2 := local t.1 0\n" ++
    "t1 := @i t2\nt3 := local t.1 0\nt4 := t3 =i t1\nfend\n"

def dottedCode : List Quad :=
  [.funcBegin "main" .int, .localDecl ⟨"a.b", .int, 4⟩, .localDecl ⟨"a_b", .int, 4⟩,
    .localDecl ⟨"t.1", .int, 4⟩, .ref ⟨2⟩ .stack "t.1" 0, .load ⟨1⟩ ⟨2⟩ .int,
    .ref ⟨3⟩ .stack "t.1" 0, .store ⟨4⟩ ⟨3⟩ ⟨1⟩ .int, .funcEnd]

def dottedFunc : Flow.Func where
  name := "main"
  tag := .int
  formals := []
  locals := [⟨"a.b", .int, 4⟩, ⟨"a_b", .int, 4⟩, ⟨"t.1", .int, 4⟩]
  blocks :=
    [⟨"entry", [.ref ⟨2⟩ .stack "t.1" 0, .load ⟨1⟩ ⟨2⟩ .int, .ref ⟨3⟩ .stack "t.1" 0,
        .store ⟨4⟩ ⟨3⟩ ⟨1⟩ .int], [1], some 1⟩,
      ⟨"bb1", [.funcEnd], [], none⟩]

def dottedLowered : Ir.Func where
  name := "main"
  params := []
  ret := .word
  blocks :=
    [⟨"entry",
        [slotInstr ⟨"a.b", .int, 4⟩, slotInstr ⟨"a_b", .int, 4⟩, slotInstr ⟨"t.1", .int, 4⟩,
          { op := .load, ty := .word, result := some (.temp "t" 1), args := [.temp "t.1" (-1)] },
          { op := .store, ty := .word, args := [.temp "t" 1, .temp "t.1" (-1)] },
          { op := .jmp, args := [.label "bb1"] }]⟩,
      ⟨"bb1", [{ op := .ret, args := [.const 0] }]⟩]

theorem exists_lower_dotted : ∃ p s',
    lower ⟨[], [dottedFunc]⟩ (.new {} .empty ⟨none, []⟩ "a.q") = .ok p s' ∧
      p.funcs = [dottedLowered] := by
  have hok : (result? (lower ⟨[], [dottedFunc]⟩) (.new {} .empty ⟨none, []⟩ "a.q")).map (·.funcs) =
      some [dottedLowered] := by cbv
  obtain ⟨p, s', hs', hfuncs⟩ := exists_ok_of_result? hok
  exact ⟨p, s', hs', hfuncs⟩

theorem dotted_names : readCode "a.q" dottedSource = .ok dottedCode ∧
    Flow.build dottedCode = .ok ⟨[], [dottedFunc]⟩ ∧ ∃ p s',
      lower ⟨[], [dottedFunc]⟩ (.new {} .empty ⟨none, []⟩ "a.q") = .ok p s' ∧
      ∀ h ∈ p.funcs, h.Mentions (.temp "t.1" (-1)) ∧ h.Mentions (.temp "t" 1) ∧
        Qbe.valueText p.wordSize (.temp "t.1" (-1)) ≠ Qbe.valueText p.wordSize (.temp "t" 1) ∧
        (Ir.Value.temp "t.1" (-1)).text? = (Ir.Value.temp "t" 1).text? := by
  have hread : readCode "a.q" dottedSource = .ok dottedCode := by decide +kernel
  have hbuild : Flow.build dottedCode = .ok ⟨[], [dottedFunc]⟩ := by decide +kernel
  obtain ⟨p, s', hs', hfuncs⟩ := exists_lower_dotted
  refine ⟨hread, hbuild, p, s', hs', fun h hh => ?_⟩
  have hclash := names_clash_iff hread hbuild rfl hs'
  rw [hfuncs] at hh hclash
  obtain rfl := List.mem_singleton.1 hh
  obtain ⟨-, hnames⟩ := (List.forall₂_cons.1 hclash).1
  have hslot : dottedLowered.Mentions (.temp "t.1" (-1)) := by decide
  have hmade : dottedLowered.Mentions (.temp "t" 1) := by decide
  obtain ⟨hqbe, hkey⟩ := hnames _ _ _ _ hslot hmade (by decide)
  exact ⟨hslot, hmade, fun heq => absurd (hqbe.1 heq).2.1 (by decide), hkey.2 (by decide)⟩

/-- Variables of different names have one name in QBE text, and a slot has the key of a result. -/
theorem dotted_clash : readCode "a.q" dottedSource = .ok dottedCode ∧
    Flow.build dottedCode = .ok ⟨[], [dottedFunc]⟩ ∧
    ((dottedFunc.formals ++ dottedFunc.locals).map (·.name)).Nodup ∧ ∃ p s',
      lower ⟨[], [dottedFunc]⟩ (.new {} .empty ⟨none, []⟩ "a.q") = .ok p s' ∧
      p.funcs = [dottedLowered] ∧
      dottedLowered.Mentions (.temp "a.b" (-1)) ∧ dottedLowered.Mentions (.temp "a_b" (-1)) ∧
      Qbe.valueText p.wordSize (.temp "a.b" (-1)) = Qbe.valueText p.wordSize (.temp "a_b" (-1)) ∧
      dottedLowered.Mentions (.temp "t.1" (-1)) ∧ dottedLowered.Mentions (.temp "t" 1) ∧
      (Ir.Value.temp "t.1" (-1)).text? = (Ir.Value.temp "t" 1).text? := by
  obtain ⟨p, s', hs', hfuncs⟩ := exists_lower_dotted
  have hsafe : Qbe.safeName "a.b" = Qbe.safeName "a_b" := by decide
  exact ⟨by decide +kernel, by decide +kernel, by decide, p, s', hs', hfuncs, by decide, by decide,
    congrArg ("%" ++ ·) hsafe, by decide, by decide, by decide +kernel⟩

end Lowering

end Quadruple
