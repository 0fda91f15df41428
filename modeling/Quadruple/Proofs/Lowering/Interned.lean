import Quadruple.Proofs.Lowering.Order
import Quadruple.Proofs.Lowering.Trail

/-!
# String literals

All functions of a program share one list of literals. `Interns` says how a part of lowering uses
it: contents are added at the end and never twice, every literal of the code is bound to the place of
its contents, and nothing is in the list that no literal of the code stands for.

Main statement: `literals_interned`.
-/

namespace Quadruple.Lowering

open List

def literalBinding (i : Nat) : Binding :=
  { val := .global (literalText i), ty := .ptr, elem := .byte, isArray := true }

/-- The visits `vs` have brought the literals of `s` to those of `s'`. -/
structure Interns (s : State) (vs : List Visit) (s' : State) : Prop where
  grows : s.literals <+: s'.literals
  once : s.literals.Nodup → s'.literals.Nodup
  bound : ∀ v ∈ vs, ∀ c, v.quad.literal? = some c →
    ∃ i, s'.literals[i]? = some c ∧ v.given = some (literalBinding i)
  used : ∀ c ∈ s'.literals, c ∈ s.literals ∨ ∃ v ∈ vs, v.quad.literal? = some c

variable {s s' t : State} {vs ws : List Visit}

theorem interns_nil (h : s'.literals = s.literals) : Interns s [] s' :=
  ⟨h ▸ prefix_rfl, fun hs => h ▸ hs, by simp, fun _ hc => .inl (h ▸ hc)⟩

theorem Interns.trans (h : Interns s vs t) (h' : Interns t ws s') : Interns s (vs ++ ws) s' := by
  refine ⟨h.grows.trans h'.grows, fun hs => h'.once (h.once hs),
    forall_mem_append.2 ⟨fun v hv c hc => ?_, h'.bound⟩, fun c hc => ?_⟩
  · obtain ⟨i, hi, hgiven⟩ := h.bound v hv c hc
    exact ⟨i, getElem?_of_prefix h'.grows hi, hgiven⟩
  · rcases h'.used c hc with hc | ⟨w, hw, hwc⟩
    · refine (h.used c hc).imp_right ?_
      rintro ⟨v, hv, hvc⟩
      exact ⟨v, mem_append_left _ hv, hvc⟩
    · exact .inr ⟨w, mem_append_right _ hw, hwc⟩

theorem Visit.Ran.interns {v : Visit} (h : v.Ran) : Interns v.before [v] v.after := by
  obtain ⟨new, _, hmakes, hafter, hgiven, -⟩ := h.makes
  cases hq : v.quad.literal? with
  | none =>
    have hsame : v.after.literals = v.before.literals := by rw [hafter.literals, State.literalsWith, hq]
    refine ⟨hsame ▸ prefix_rfl, fun hs => hsame ▸ hs, ?_, fun _ hc => .inl (hsame ▸ hc)⟩
    simp [hq]
  | some c =>
    have hadded : v.after.literals = withLiteral c v.before.literals := by
      rw [hafter.literals, State.literalsWith, hq]
    have hplace : ∃ i, (withLiteral c v.before.literals)[i]? = some c ∧
        v.given = some (literalBinding i) := by
      rw [hgiven]
      generalize v.quad = q, v.instrs = is at hmakes hq
      cases hmakes with
      | string hc hk =>
        cases hc.symm.trans hq
        exact ⟨_, hk, rfl⟩
      | _ => cases hq
    refine ⟨hadded ▸ prefix_withLiteral _ _, fun hs => hadded ▸ nodup_withLiteral hs, ?_, ?_⟩
    · simpa [hq, hadded] using hplace
    · simpa [hq, hadded, mem_withLiteral] using fun d hd => .imp_right Eq.symm hd

theorem Runs.interns (h : Runs s vs s') : Interns s vs s' := by
  induction h with
  | nil hr => exact interns_nil (by rw [hr])
  | cons hr hran _ ih => exact (interns_nil (by rw [hr])).trans (hran.interns.trans ih)

theorem Trails.interns {fs : List Flow.Func} {cs : List Trail} (h : Trails s fs cs s') :
    Interns s (cs.flatMap (·.visits)) s' := by
  induction h with
  | nil => exact interns_nil rfl
  | @cons s s1 s' f fs c cs hleads _ ih =>
    have hfirst : Interns s [] c.first := interns_nil (by rw [hleads.first]; rfl)
    have hlast : Interns c.last [] s1 := interns_nil (by rw [hleads.last])
    simpa using (hfirst.trans (hleads.of.run.interns.trans hlast)).trans ih

theorem items_literalData_injective {i j : Nat} {c d : List UInt8}
    (h : (literalData i c).items = (literalData j d).items) : c = d := by
  have hbytes : Function.Injective fun b : UInt8 =>
      ({ ty := .byte, value := .const b.toNat } : Ir.Item) := by
    intro a b hab
    simpa [UInt8.toNat_inj] using hab
  exact append_cancel_right (hbytes.list_map h)

/-- The literals of a lowered program are numbered from 0 on, and each is the contents of some
literal of the code with a zero behind it, no two of them the same. Literals anywhere in the code are
bound to the same place exactly if they have the same contents. -/
theorem literals_interned {g : Flow.Graph} {p : Ir.Program} (h : lower g s = .ok p s') :
    ∃ cs : List Trail, cs.map (·.func) = p.funcs ∧ Forall₂ (fun f c => Trail.Of c f) g.funcs cs ∧
      let vs := cs.flatMap (·.visits)
      (∀ (i : Nat) d, p.strings[i]? = some d → d.name = "str." ++ Numeral.decimalText i ∧
        ∃ v ∈ vs, ∃ dst text, v.quad = .string dst text ∧
          d.items = (Text.unescape (Text.utf8Bytes text) ++ [0]).map
            (fun b : UInt8 => { ty := .byte, value := .const b.toNat }) ∧
          v.given.map (·.val) = some (.global d.name)) ∧
      (∀ (i j : Nat) d e, p.strings[i]? = some d → p.strings[j]? = some e → d.items = e.items → i = j) ∧
      ∀ v ∈ vs, ∀ w ∈ vs, ∀ dst dst' text text', v.quad = .string dst text →
        w.quad = .string dst' text' → ∃ x y, v.given.map (·.val) = some (.global x) ∧
          w.given.map (·.val) = some (.global y) ∧
          (x = y ↔ Text.unescape (Text.utf8Bytes text) = Text.unescape (Text.utf8Bytes text')) := by
  obtain ⟨cs, htrails, rfl⟩ := exists_trails h
  have hinterns := htrails.interns
  have hplace : ∀ {i j : Nat} {c}, s'.literals[i]? = some c → s'.literals[j]? = some c → i = j :=
    fun hi hj => (getElem?_inj (List.getElem?_eq_some_iff.1 hi).1 (hinterns.once nodup_nil)).1
      (hi.trans hj.symm)
  have hat : ∀ i d, (literalsData s'.literals)[i]? = some d →
      ∃ c, s'.literals[i]? = some c ∧ literalData i c = d := by
    intro i d hd
    rw [getElem?_literalsData] at hd
    exact Option.map_eq_some_iff.1 hd
  refine ⟨cs, rfl, htrails.of, fun i d hd => ?_, fun i j d e hd he heq => ?_, ?_⟩
  · obtain ⟨c, hc, rfl⟩ := hat i d hd
    obtain ⟨v, hv, hvc⟩ := (hinterns.used c (mem_of_getElem? hc)).resolve_left (by rintro ⟨⟩)
    obtain ⟨j, hj, hgiven⟩ := hinterns.bound v hv c hvc
    obtain rfl := hplace hc hj
    refine ⟨rfl, v, hv, ?_⟩
    cases hq : v.quad with
    | string dst text =>
      rw [hq] at hvc
      cases hvc
      exact ⟨dst, text, rfl, rfl, by rw [hgiven]; rfl⟩
    | _ =>
      rw [hq] at hvc
      cases hvc
  · obtain ⟨c, hc, rfl⟩ := hat i d hd
    obtain ⟨c', hc', rfl⟩ := hat j e he
    obtain rfl := items_literalData_injective heq
    exact hplace hc hc'
  · intro v hv w hw dst dst' text text' hvq hwq
    obtain ⟨i, hi, hgiven⟩ := hinterns.bound v hv _ (by rw [hvq]; rfl)
    obtain ⟨j, hj, hgiven'⟩ := hinterns.bound w hw _ (by rw [hwq]; rfl)
    refine ⟨_, _, by rw [hgiven]; rfl, by rw [hgiven']; rfl, fun hxy => ?_, fun heq => ?_⟩
    · obtain rfl := literalText_injective hxy
      exact Option.some.inj (hi.symm.trans hj)
    · rw [hplace hi (heq ▸ hj)]

def spellings : Flow.Graph where
  globals := []
  funcs :=
    [⟨"f", .int, [], [], [⟨"entry", [.string ⟨0⟩ "b", .string ⟨1⟩ "a\\n"], [], none⟩]⟩,
      ⟨"g", .int, [], [], [⟨"entry", [.string ⟨0⟩ "a\n"], [], none⟩]⟩]

theorem spellings_shared : ∃ p s', lower spellings (.new {} .empty ⟨none, []⟩ "a.q") = .ok p s' ∧
    ∃ cs : List Trail, Forall₂ (fun f c => Trail.Of c f) spellings.funcs cs ∧
      ∃ v ∈ cs.flatMap (·.visits), ∃ w ∈ cs.flatMap (·.visits),
        v.quad = .string ⟨1⟩ "a\\n" ∧ w.quad = .string ⟨0⟩ "a\n" ∧
          v.given.map (·.val) = w.given.map (·.val) := by
  have hok : (result? (lower spellings) (.new {} .empty ⟨none, []⟩ "a.q")).isSome = true := by cbv
  obtain ⟨p, s', hs'⟩ := exists_ok_of_isSome hok
  obtain ⟨cs, -, hof, -, -, hbound⟩ := literals_interned hs'
  refine ⟨p, s', hs', cs, hof, ?_⟩
  obtain ⟨c, _, hc, hrest, rfl⟩ := forall₂_cons_left_iff.1 hof
  obtain ⟨d, _, hd, hnil, rfl⟩ := forall₂_cons_left_iff.1 hrest
  cases hnil
  obtain ⟨v, hv, -, hvq⟩ := hc.exists_visit (p := ⟨0, 1⟩) rfl
  obtain ⟨w, hw, -, hwq⟩ := hd.exists_visit (p := ⟨0, 0⟩) rfl
  have hv' : v ∈ [c, d].flatMap (·.visits) := mem_flatMap.2 ⟨c, by simp, hv⟩
  have hw' : w ∈ [c, d].flatMap (·.visits) := mem_flatMap.2 ⟨d, by simp, hw⟩
  obtain ⟨x, y, hx, hy, hiff⟩ := hbound v hv' w hw' _ _ _ _ hvq hwq
  have hxy : x = y := hiff.2 (by decide +kernel)
  exact ⟨v, hv', w, hw', hvq, hwq, by rw [hx, hy, hxy]⟩

end Quadruple.Lowering
