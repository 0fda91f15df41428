import Quadruple.Proofs.Code.Legible
import Quadruple.Proofs.Flow.Literals

/-!
# The normal text of a source

One text can be written in many ways: with other blanks, with comments, with leading zeros, with
`fv` for `fi`, with an offset behind a global name. Reading keeps none of this but the offset, and
writing drops that.

Main statement: `readCode_writeCode_readCode`. The way there: the scanners cut off words of their
class only (`isWord_of_scan`), so the forms of lines are made of such words, and what they stand for
is writable.
-/

namespace Quadruple

open List
open Numeral (InRange)

/-! ### Words -/

def IsNumbered (letter : Char) (cs : List Char) : Prop := ∃ ds, IsDigits ds ∧ cs = letter :: ds

def TokenKind.IsWord : TokenKind → List Char → Prop
  | .string, cs => ∃ body, IsStringBody body ∧ cs = '"' :: (body ++ ['"'])
  | .patch, cs => ∃ ds es, IsDigits ds ∧ IsDigits es ∧ cs = 'B' :: (ds ++ '=' :: 'L' :: es)
  | .float, cs => IsFloatWord cs
  | .int, cs => IsIntWord cs
  | .temp, cs => IsNumbered 't' cs
  | .blank, cs => IsNumbered 'B' cs
  | .label, cs => IsNumbered 'L' cs
  | .ident, cs => IsName cs
  | .comment, _ | .op, _ | .assign, _ | .space, _ => True

variable {letter : Char} {text file : String} {line : Line} {rhs : Rhs} {texts : List String}
  {code : List Quad} {cs : List Char}

namespace Token

theorem take_digitRun (cs : List Char) : cs.take (digitRun cs) = cs.takeWhile Char.isDigit :=
  (prefix_iff_eq_take.1 <| takeWhile_prefix _).symm

theorem isDigits_take (h : digitRun cs ≠ 0) : IsDigits (cs.take (digitRun cs)) := by
  rw [take_digitRun]
  refine ⟨fun hnil => h ?_, fun c hc => mem_takeWhile_imp hc⟩
  rw [digitRun, hnil]
  rfl

section Scanners

variable {n : Nat}

theorem stringBody_of_stringRest (hline : '\n' ∉ cs) (h : stringRest cs = some n) :
    ∃ body, IsStringBody body ∧ cs.take n = body ++ ['"'] := by
  fun_induction stringRest cs generalizing n with
  | case1 | case3 => cases h
  | case2 cs =>
    cases h
    exact ⟨[], .nil, rfl⟩
  | case4 c cs hc => cases h
  | case5 c cs hc ih =>
    obtain ⟨m, hm, rfl⟩ := Option.map_eq_some_iff.1 h
    obtain ⟨body, hbody, htake⟩ := ih (by simp_all) hm
    exact ⟨'\\' :: c :: body, .escaped (by simpa using hc) hbody, by simp [htake]⟩
  | case6 c cs hquote hlast hback ih =>
    obtain ⟨m, hm, rfl⟩ := Option.map_eq_some_iff.1 h
    rw [mem_cons, not_or] at hline
    obtain ⟨body, hbody, htake⟩ := ih hline.2 hm
    refine ⟨c :: body, .plain (by simpa using hquote) ?_ (Ne.symm hline.1) hbody, by simp [htake]⟩
    rintro rfl
    cases cs with
    | nil => exact hlast rfl rfl
    | cons d cs => exact hback d cs rfl rfl

theorem isWord_of_scanString (hline : '\n' ∉ cs) :
    scanString cs ≠ 0 → TokenKind.string.IsWord (cs.take (scanString cs)) := by
  fun_cases scanString cs with
  | case1 cs m hm =>
    intro
    obtain ⟨body, hbody, htake⟩ := stringBody_of_stringRest (by simp_all) hm
    exact ⟨body, hbody, by rw [take_succ_cons, htake]⟩
  | _ => exact absurd rfl

theorem isWord_of_scanPatch : scanPatch cs ≠ 0 → TokenKind.patch.IsWord (cs.take (scanPatch cs)) := by
  fun_cases scanPatch cs with
  | case3 cs n hds es hdrop m hes =>
    intro
    refine ⟨_, _, isDigits_take hds, isDigits_take hes, ?_⟩
    rw [show n + m + 3 = n + (m + 1 + 1) + 1 by omega, take_succ_cons, take_add, hdrop,
      take_succ_cons, take_succ_cons]
  | _ => exact absurd rfl

theorem isNumbered_of_scanNumbered :
    scanNumbered letter cs ≠ 0 → IsNumbered letter (cs.take (scanNumbered letter cs)) := by
  fun_cases scanNumbered letter cs with
  | case1 c cs hc n hrun =>
    intro
    rw [take_succ_cons, beq_iff_eq.1 hc]
    exact ⟨_, isDigits_take (by simp_all [n]), rfl⟩
  | _ => exact absurd rfl

theorem isExponent_of_exponentLength :
    exponentLength cs ≠ 0 → IsExponent (cs.take (exponentLength cs)) := by
  fun_cases exponentLength cs with
  | case2 e he s ds hs n hrun =>
    intro
    refine ⟨e, [s], _, by simpa using he, by simpa using hs, isDigits_take hrun, ?_⟩
    rw [take_succ_cons, take_succ_cons, singleton_append]
  | case3 e he s ds hs n hrun => exact absurd (if_pos hrun)
  | case4 e he s ds hs n hrun =>
    intro
    refine ⟨e, [], _, by simpa using he, .inl rfl, isDigits_take hrun, ?_⟩
    exact (congrArg (take · _) (if_neg hrun)).trans take_succ_cons
  | _ => exact absurd rfl

theorem isUnsignedFloat_of_scanUnsignedFloat :
    scanUnsignedFloat cs ≠ 0 → IsUnsignedFloat (cs.take (scanUnsignedFloat cs)) := by
  fun_cases scanUnsignedFloat cs with
  | case2 n hds fs hdrop m =>
    refine fun _ => ⟨_, isDigits_take hds, .inl ⟨fs.takeWhile Char.isDigit,
      (fs.drop m).take (exponentLength (fs.drop m)), fun f hf => mem_takeWhile_imp hf, ?_, ?_⟩⟩
    · by_cases hexp : exponentLength (fs.drop m) = 0
      · exact .inl (by rw [hexp, take_zero])
      · exact .inr (isExponent_of_exponentLength hexp)
    · rw [show n + 1 + m + exponentLength (fs.drop m) = n + (m + exponentLength (fs.drop m) + 1)
        by omega, take_add, hdrop, take_succ_cons, take_add, take_digitRun fs]
  | case4 n hds _ _ hexp =>
    exact fun _ => ⟨_, isDigits_take hds, .inr ⟨_, isExponent_of_exponentLength hexp, take_add⟩⟩
  | _ => exact absurd rfl

theorem signed_of_withMinus {f : List Char → Nat} {P : List Char → Prop}
    (hf : ∀ {cs}, f cs ≠ 0 → P (cs.take (f cs))) :
    withMinus f cs ≠ 0 → Signed P (cs.take (withMinus f cs)) := by
  fun_cases withMinus f cs with
  | case1 => exact absurd rfl
  | case2 cs n hn => exact fun _ => .inr ⟨_, take_succ_cons, hf hn⟩
  | case3 cs => exact fun hn => .inl (hf hn)

/-- An identifier is no numbered word with a point behind it: the numbered word would have been
cut off first. -/
theorem isName_of_scanIdent (hscan : scan cs = some (.ident, scanIdent cs))
    (hn : scanIdent cs ≠ 0) : IsName (cs.take (scanIdent cs)) := by
  refine isName_iff.2 ⟨?_, fun hdotted => ?_⟩
  · clear hscan
    revert hn
    fun_cases scanIdent cs with
    | case1 c cs hc =>
      intro
      rw [take_succ_cons, ← prefix_iff_eq_take.1 <| takeWhile_prefix _]
      refine ⟨by simpa using hc, fun d hd => ?_⟩
      simpa [isWordChar, or_assoc] using mem_takeWhile_imp hd
    | _ => exact absurd rfl
  · generalize scanIdent cs = n at hscan hn hdotted
    obtain ⟨c, ds, tail, hc, hds, htake⟩ := exists_of_dotted hdotted
    have hcs : cs = c :: (ds ++ '.' :: (tail ++ cs.drop n)) := by
      calc cs = cs.take n ++ cs.drop n := (take_append_drop n cs).symm
        _ = c :: (ds ++ '.' :: (tail ++ cs.drop n)) := by simp [htake]
    obtain ⟨kind, hkind⟩ := scan_dotted hc hds (tail ++ cs.drop n)
    rw [← hcs, hscan, Option.some.injEq, Prod.mk.injEq] at hkind
    have hlen := congrArg length htake
    rw [hkind.2] at hlen
    simp at hlen
    omega

/-- A scanner cuts off words of its class only. -/
theorem isWord_of_scan {kind : TokenKind} (hline : '\n' ∉ cs) (h : scan cs = some (kind, n)) :
    kind.IsWord (cs.take n) := by
  obtain ⟨⟨k, f⟩, hf, hscan⟩ := exists_of_findSome?_eq_some h
  dsimp only at hscan
  split at hscan <;> cases hscan
  next hn =>
    simp only [scanners, mem_cons, Prod.mk.injEq, not_mem_nil, or_false] at hf
    rcases hf with ⟨rfl, rfl⟩ | ⟨rfl, rfl⟩ | ⟨rfl, rfl⟩ | ⟨rfl, rfl⟩ | ⟨rfl, rfl⟩ | ⟨rfl, rfl⟩ |
      ⟨rfl, rfl⟩ | ⟨rfl, rfl⟩ | ⟨rfl, rfl⟩ | ⟨rfl, rfl⟩ | ⟨rfl, rfl⟩ | ⟨rfl, rfl⟩
    · trivial
    · exact isWord_of_scanString hline hn
    · exact isWord_of_scanPatch hn
    · trivial
    · trivial
    · exact signed_of_withMinus isUnsignedFloat_of_scanUnsignedFloat hn
    · exact signed_of_withMinus isDigits_take hn
    · exact isNumbered_of_scanNumbered hn
    · exact isNumbered_of_scanNumbered hn
    · exact isNumbered_of_scanNumbered hn
    · exact isName_of_scanIdent h hn
    · trivial

end Scanners

def Worded (t : Token) : Prop := t.kind.IsWord t.text.toList

theorem worded_of_tokenizeFrom {done ts : List Token} (hline : '\n' ∉ cs)
    (hdone : ∀ t ∈ done, t.Worded) (h : tokenizeFrom done cs = .ok ts) : ∀ t ∈ ts, t.Worded := by
  fun_induction tokenizeFrom done cs with
  | case1 done =>
    cases h
    exact fun t ht => hdone t (mem_reverse.1 ht)
  | case2 => cases h
  | case3 done c rest kind n hscan ih =>
    refine ih (fun hmem => hline (mem_cons_of_mem c (mem_of_mem_drop hmem))) ?_ h
    refine forall_mem_cons.2 ⟨?_, hdone⟩
    rw [Worded, String.toList_ofList]
    exact isWord_of_scan hline hscan

end Token

/-! ### Forms of lines -/

def Slot.Holds : Slot → List Char → Prop
  | .temp, cs => IsNumbered 't' cs
  | .name, cs => IsName cs
  | .label, cs => IsNumbered 'L' cs
  | .target, cs => IsNumbered 'L' cs ∨ IsNumbered 'B' cs
  | _, _ => True

def Rhs.Worded : Rhs → Prop
  | .ref storage name offset =>
    (storage = .global ∨ storage = .param ∨ storage = .stack) ∧ IsName name.toList ∧ InRange offset
  | .call tag callee _ args =>
    tag.IsLetter ∧ Slot.temp.Holds callee.toList ∧ ∀ a ∈ args, Slot.temp.Holds a.toList
  | .cast tag x => tag.IsLetter ∧ Slot.temp.Holds x.toList
  | .unary _ x => Slot.temp.Holds x.toList
  | .binary x _ y => Slot.temp.Holds x.toList ∧ Slot.temp.Holds y.toList
  | .float text => TokenKind.float.IsWord text.toList
  | .int text => TokenKind.int.IsWord text.toList
  | .string text => TokenKind.string.IsWord text.toList

theorem isName_of_isNumbered (hl : letter.isAlpha = true)
    (h : IsNumbered letter cs) : IsName cs := by
  obtain ⟨ds, hds, rfl⟩ := h
  exact Token.isName_numbered hl hds.2

theorem Slot.holds_of_accepts (slot : Slot) {t : Token} (ht : t.Worded)
    (h : slot.accepts t = true) : slot.Holds t.text.toList := by
  unfold Token.Worded at ht
  cases slot with
  | temp | label =>
    rw [beq_iff_eq.1 h] at ht
    exact ht
  | target =>
    rcases Bool.or_eq_true_iff.1 h with hk | hk
    · rw [beq_iff_eq.1 hk] at ht
      exact .inl ht
    · rw [beq_iff_eq.1 hk] at ht
      exact .inr ht
  | name =>
    simp only [accepts, Bool.or_eq_true, beq_iff_eq] at h
    rcases h with ((hk | hk) | hk) | hk <;> rw [hk] at ht
    · exact ht
    · exact isName_of_isNumbered rfl ht
    · exact isName_of_isNumbered rfl ht
    · exact isName_of_isNumbered rfl ht
  | _ => trivial

/-! ### Numbers -/

namespace Numeral

theorem inRange_of_signed {negative : Bool} {m : Except IntegerFault Nat}
    (h : (signed negative m).fault = none) :
    InRange (signed negative m).value ∧ (negative = false → 0 ≤ (signed negative m).value) := by
  unfold signed at h ⊢
  split at h
  · cases h
  · cases h
  · next n =>
    dsimp only at h ⊢
    unfold InRange
    split_ifs at h ⊢ <;> simp_all
    omega

variable {n : Int}

theorem inRange_of_readLiteral (h : (readLiteral text).toExcept = .ok n) : InRange n := by
  unfold IntegerReading.toExcept at h
  split at h <;> cases h
  next hfault => exact (inRange_of_signed hfault).1

theorem isNumber_of_readDecimal {ds : List Char} (hds : IsDigits ds)
    (h : (readDecimal (String.ofList ds)).value? = some n) : IsNumber n := by
  have hsign : splitSign ds = (false, ds) := by
    unfold splitSign
    split
    · exact absurd (hds.2 '-' (by simp)) (by decide)
    · exact absurd (hds.2 '+' (by simp)) (by decide)
    · rfl
  unfold IntegerReading.value? at h
  split at h <;> cases h
  next hfault =>
    unfold readDecimal at hfault ⊢
    rw [String.toList_ofList, hsign] at hfault ⊢
    exact ⟨(inRange_of_signed hfault).2 rfl, (inRange_of_signed hfault).1⟩

end Numeral

open Numeral (inRange_of_readLiteral isNumber_of_readDecimal)

/-! ### Reading a form -/

namespace Line

def Worded : Line → Prop
  | patch text => TokenKind.patch.IsWord text.toList
  | assign dst rhs => Slot.temp.Holds dst.toList ∧ rhs.Worded
  | stmtBegin line => InRange line
  | label text => Slot.label.Holds text.toList
  | jump target => Slot.target.Holds target.toList
  | condJump cond target => Slot.temp.Holds cond.toList ∧ Slot.target.Holds target.toList
  | arg tag x => tag.IsLetter ∧ Slot.temp.Holds x.toList
  | ret tag x => tag.IsLetter ∧ ∀ t ∈ x, Slot.temp.Holds t.toList
  | func name _ => IsName name.toList
  | decl _ name _ width => IsName name.toList ∧ InRange width
  | funcEnd => True

variable {n : Int}

theorem inRange_of_number (h : number text = .ok n) : InRange n := by
  unfold number at h
  split at h <;> cases h
  next hread => exact inRange_of_readLiteral hread

section Forms

variable {ts rest : List Token} (hts : ∀ t ∈ ts, t.Worded)

include hts

theorem exists_of_need {slot : Slot} {after : List Slot} {α : Type}
    {f : String × List Token → Except LineFault α} {a : α} (h : need slot after ts >>= f = .ok a) :
    ∃ text rest, slot.Holds text.toList ∧ (∀ t ∈ rest, t.Worded) ∧ f (text, rest) = .ok a := by
  obtain ⟨_, hneed, ha⟩ := exists_of_bind_ok h
  unfold need at hneed
  split at hneed
  · cases hneed
  · next t ts =>
    obtain ⟨ht, hts⟩ := forall_mem_cons.1 hts
    split at hneed <;> cases hneed
    next haccepts => exact ⟨_, _, slot.holds_of_accepts ht haccepts, hts, ha⟩

theorem worded_readRef {storage : Storage}
    (hs : storage = .global ∨ storage = .param ∨ storage = .stack)
    (h : readRef storage ts = .ok (rhs, rest)) : rhs.Worded := by
  obtain ⟨name, ts', hname, -, h⟩ := exists_of_need hts h
  dsimp only at h
  split at h
  · obtain ⟨n, hn, h⟩ := exists_of_bind_ok h
    cases h
    exact ⟨hs, hname, inRange_of_number hn⟩
  · cases h
    exact ⟨hs, hname, by decide⟩

variable {tag : Tag}

theorem worded_readCall (htag : tag.IsLetter) (h : readCall tag ts = .ok (rhs, rest)) :
    rhs.Worded := by
  obtain ⟨callee, ts1, hcallee, hts1, h⟩ := exists_of_need hts h
  obtain ⟨count, ts2, -, hts2, h⟩ := exists_of_need hts1 h
  obtain ⟨n, -, h⟩ := exists_of_bind_ok h
  cases h
  refine ⟨htag, hcallee, fun a ha => ?_⟩
  obtain ⟨t, ht, rfl⟩ := mem_map.1 ha
  exact Slot.holds_of_accepts .temp (hts2 t ((takeWhile_sublist _).subset ht))
    (mem_takeWhile_imp ht)

theorem worded_readCast (htag : tag.IsLetter) (h : readCast tag ts = .ok (rhs, rest)) :
    rhs.Worded := by
  obtain ⟨x, ts', hx, -, h⟩ := exists_of_need hts h
  cases h
  exact ⟨htag, hx⟩

theorem worded_readRhs (h : readRhs ts = .ok (rhs, rest)) : rhs.Worded := by
  unfold readRhs at h
  split at h
  · cases h
  · next t ts =>
    obtain ⟨ht, hts⟩ := forall_mem_cons.1 hts
    unfold Token.Worded at ht
    split at h
    case h_1 =>
      split at h
      · exact worded_readRef hts (.inl rfl) h
      · exact worded_readRef hts (.inr (.inl rfl)) h
      · exact worded_readRef hts (.inr (.inr rfl)) h
      · exact worded_readCall hts (.inl rfl) h
      · exact worded_readCall hts (.inl rfl) h
      · exact worded_readCall hts (.inr rfl) h
      · exact worded_readCast hts (.inl rfl) h
      · exact worded_readCast hts (.inr rfl) h
      · cases h
    case h_2 =>
      obtain ⟨x, ts', hx, -, h⟩ := exists_of_need hts h
      cases h
      exact hx
    case h_3 hkind =>
      rw [hkind] at ht
      obtain ⟨op, ts1, -, hts1, h⟩ := exists_of_need hts h
      obtain ⟨y, ts2, hy, -, h⟩ := exists_of_need hts1 h
      cases h
      exact ⟨ht, hy⟩
    -- a numeral or a literal is the token itself
    case h_4 hkind | h_5 hkind | h_6 hkind =>
      rw [hkind] at ht
      cases h
      exact ht
    case h_7 => cases h

theorem worded_readDecl {kind : DeclKind} (h : readDecl kind ts = .ok (line, rest)) :
    line.Worded := by
  obtain ⟨name, ts1, hname, hts1, h⟩ := exists_of_need hts h
  obtain ⟨tag, ts2, -, hts2, h⟩ := exists_of_need hts1 h
  obtain ⟨width, ts3, -, -, h⟩ := exists_of_need hts2 h
  obtain ⟨m, -, h⟩ := exists_of_bind_ok h
  obtain ⟨n, hn, h⟩ := exists_of_bind_ok h
  cases h
  exact ⟨hname, inRange_of_number hn⟩

theorem worded_readArg (htag : tag.IsLetter) (h : readArg tag ts = .ok (line, rest)) :
    line.Worded := by
  obtain ⟨x, ts', hx, -, h⟩ := exists_of_need hts h
  cases h
  exact ⟨htag, hx⟩

theorem worded_readRet (htag : tag.IsLetter) (h : readRet tag ts = .ok (line, rest)) :
    line.Worded := by
  have hnone : Line.Worded (.ret tag none) := ⟨htag, nofun⟩
  cases ts with
  | nil =>
    cases h
    exact hnone
  | cons t ts =>
    by_cases hkind : t.kind == .temp
    · simp only [readRet, takeTemp?, hkind, if_true] at h
      cases h
      refine ⟨htag, ?_⟩
      rintro x ⟨⟩
      exact Slot.holds_of_accepts .temp (hts t mem_cons_self) hkind
    · simp only [readRet, takeTemp?, hkind, if_false, Bool.false_eq_true] at h
      cases h
      exact hnone

theorem worded_ofTokens (h : ofTokens ts = .ok (line, rest)) : line.Worded := by
  unfold ofTokens at h
  split at h
  · cases h
  · next t ts =>
    obtain ⟨ht, hts⟩ := forall_mem_cons.1 hts
    unfold Token.Worded at ht
    split at h
    · next hkind =>
      rw [hkind] at ht
      cases h
      exact ht
    · next hkind =>
      rw [hkind] at ht
      obtain ⟨assign, ts1, -, hts1, h⟩ := exists_of_need hts h
      obtain ⟨⟨rhs, ts2⟩, hrhs, h⟩ := exists_of_bind_ok h
      cases h
      exact ⟨ht, worded_readRhs hts1 hrhs⟩
    · split at h
      · obtain ⟨n, ts1, -, -, h⟩ := exists_of_need hts h
        obtain ⟨m, hm, h⟩ := exists_of_bind_ok h
        cases h
        exact inRange_of_number hm
      · obtain ⟨text, ts1, htext, -, h⟩ := exists_of_need hts h
        cases h
        exact htext
      · obtain ⟨target, ts1, htarget, -, h⟩ := exists_of_need hts h
        cases h
        exact htarget
      · obtain ⟨cond, ts1, hcond, hts1, h⟩ := exists_of_need hts h
        obtain ⟨target, ts2, htarget, -, h⟩ := exists_of_need hts1 h
        cases h
        exact ⟨hcond, htarget⟩
      · exact worded_readArg hts (.inl rfl) h
      · exact worded_readArg hts (.inr rfl) h
      · exact worded_readRet hts (.inl rfl) h
      · exact worded_readRet hts (.inr rfl) h
      · obtain ⟨name, ts1, hname, hts1, h⟩ := exists_of_need hts h
        obtain ⟨tag, ts2, -, -, h⟩ := exists_of_need hts1 h
        obtain ⟨n, -, h⟩ := exists_of_bind_ok h
        cases h
        exact hname
      · exact worded_readDecl hts h
      · exact worded_readDecl hts h
      · exact worded_readDecl hts h
      · cases h
        trivial
      · cases h
    · cases h

end Forms

theorem worded_read (hline : '\n' ∉ cs) (h : read cs = .ok line) : line.Worded := by
  unfold read at h
  split at h
  · cases h
  · next ts hts =>
    obtain ⟨⟨line', rest⟩, hform, h⟩ := exists_of_bind_ok h
    have hworded := Token.worded_of_tokenizeFrom hline (forall_mem_nil _) hts
    cases rest with
    | cons => cases h
    | nil =>
      cases h
      exact worded_ofTokens (fun t ht => hworded t (mem_of_mem_filter ht)) hform

/-! ### What a form stands for -/

theorem isNumber_of_numberBehind (hword : IsNumbered letter text.toList)
    (h : numberBehind? text = some n) : IsNumber n := by
  obtain ⟨ds, hds, htext⟩ := hword
  rw [numberBehind?, htext] at h
  exact isNumber_of_readDecimal hds h

theorem writable_toTemp (hword : Slot.temp.Holds text.toList) {t : Temp}
    (h : toTemp text = .ok t) : t.Writable := by
  unfold toTemp at h
  split at h <;> cases h
  next hn => exact isNumber_of_numberBehind hword hn

theorem writable_toTarget (hword : Slot.target.Holds text.toList) {t : Target}
    (h : toTarget text = .ok t) : t.Writable := by
  have hnumber : ∀ {n}, numberBehind? text = some n → IsNumber n := fun hn =>
    hword.elim (isNumber_of_numberBehind · hn) (isNumber_of_numberBehind · hn)
  unfold toTarget at h
  split at h <;> cases h
  next hn =>
    unfold Target.Writable
    split
    · exact hnumber hn
    · exact hnumber hn

theorem writable_mapM_toTemp (hwords : ∀ a ∈ texts, Slot.temp.Holds a.toList) {ts : List Temp}
    (h : texts.mapM toTemp = .ok ts) : ∀ t ∈ ts, t.Writable := by
  induction texts generalizing ts with
  | nil =>
    cases h
    exact forall_mem_nil _
  | cons a texts ih =>
    obtain ⟨ha, hwords⟩ := forall_mem_cons.1 hwords
    rw [mapM_cons] at h
    obtain ⟨t, ht, h⟩ := exists_of_bind_ok h
    obtain ⟨ts', hts, h⟩ := exists_of_bind_ok h
    cases h
    exact forall_mem_cons.2 ⟨writable_toTemp ha ht, ih hwords hts⟩

theorem isLetter_splitOp (lexeme : String) : (splitOp lexeme).2.IsLetter := by
  unfold splitOp
  dsimp only
  split
  · exact .inr rfl
  · exact .inl rfl

end Line

/-- The instruction as it is written: the offset of a global name is not shown. -/
def Quad.normal : Quad → Quad
  | ref dst .global name _ => ref dst .global name 0
  | q => q

/-- The instructions that come back as they are, once a global name has lost its offset. -/
def Quad.Readable (q : Quad) : Prop := q.normal.Writable ∧ q.normal.unfused = [q.normal]

namespace Line

variable {dst x : Temp} {lexeme : String} {q : Quad}

theorem readable_unaryQuad (hdst : dst.Writable) (hx : x.Writable)
    (h : unaryQuad dst lexeme x = .ok q) : q.Readable := by
  have htag := isLetter_splitOp lexeme
  unfold unaryQuad at h
  dsimp only at h
  split at h <;> cases h
  · exact ⟨⟨hdst, hx, htag⟩, rfl⟩
  · next hop => exact ⟨⟨hdst, .inl hop, hx, htag⟩, rfl⟩
  · next hop => exact ⟨⟨hdst, .inr hop, hx, htag⟩, rfl⟩

theorem readable_binaryQuad {y : Temp} (hdst : dst.Writable) (hx : x.Writable) (hy : y.Writable)
    (h : binaryQuad dst x lexeme y = .ok q) : q.Readable := by
  have htag := isLetter_splitOp lexeme
  unfold binaryQuad at h
  dsimp only at h
  split_ifs at h with hstore hindex harith hbitwise hcompare <;> cases h
  · exact ⟨⟨hdst, hx, hy, htag⟩, rfl⟩
  · exact ⟨⟨hdst, hx, hy, htag⟩, rfl⟩
  · exact ⟨⟨hdst, harith, hx, hy, htag⟩, rfl⟩
  · exact ⟨⟨hdst, hbitwise, hx, hy, htag⟩, rfl⟩
  · exact ⟨⟨hdst, hcompare, hx, hy, htag⟩, rfl⟩

theorem unquote_of_isWord (h : TokenKind.string.IsWord text.toList) :
    IsStringBody (unquote text).toList := by
  obtain ⟨body, hbody, htext⟩ := h
  rw [unquote, htext]
  simpa using hbody

theorem readable_toPatch (hword : TokenKind.patch.IsWord text.toList)
    (h : toPatch text = .ok q) : q.Readable := by
  obtain ⟨ds, es, hds, hes, htext⟩ := hword
  have hnext : Token.NoDigit ('=' :: 'L' :: es) := fun c hc => by cases hc; rfl
  unfold toPatch at h
  rw [htext] at h
  simp only [drop_succ_cons, drop_zero, Token.takeWhile_digits hds.2 hnext,
    Token.dropWhile_digits hds.2 hnext] at h
  split at h <;> cases h
  next b l hb hl => exact ⟨⟨isNumber_of_readDecimal hds hb, isNumber_of_readDecimal hes hl⟩, rfl⟩

theorem readable_assignQuad (hdst : dst.Writable) (hrhs : rhs.Worded)
    (h : assignQuad dst rhs = .ok q) : q.Readable := by
  cases rhs with
  | ref storage name offset =>
    cases h
    obtain ⟨rfl | rfl | rfl, hname, hoffset⟩ := hrhs
    · exact ⟨⟨hdst, hname, .inl ⟨rfl, rfl⟩⟩, rfl⟩
    · exact ⟨⟨hdst, hname, .inr ⟨.inl rfl, hoffset⟩⟩, rfl⟩
    · exact ⟨⟨hdst, hname, .inr ⟨.inr rfl, hoffset⟩⟩, rfl⟩
  | call tag callee count args =>
    obtain ⟨htag, hcallee, hargs⟩ := hrhs
    obtain ⟨c, hc, h⟩ := exists_of_bind_ok h
    split at h
    · cases h
    · obtain ⟨ts, hts, h⟩ := exists_of_bind_ok h
      cases h
      exact ⟨⟨hdst, writable_toTemp hcallee hc, htag, writable_mapM_toTemp hargs hts⟩, rfl⟩
  | cast tag x =>
    obtain ⟨t, ht, h⟩ := exists_of_bind_ok h
    cases h
    exact ⟨⟨hdst, writable_toTemp hrhs.2 ht, hrhs.1⟩, rfl⟩
  | unary op x =>
    obtain ⟨t, ht, h⟩ := exists_of_bind_ok h
    exact readable_unaryQuad hdst (writable_toTemp hrhs ht) h
  | binary x op y =>
    obtain ⟨t, ht, h⟩ := exists_of_bind_ok h
    obtain ⟨u, hu, h⟩ := exists_of_bind_ok h
    exact readable_binaryQuad hdst (writable_toTemp hrhs.1 ht) (writable_toTemp hrhs.2 hu) h
  | float text =>
    cases h
    exact ⟨⟨hdst, .inr ⟨rfl, hrhs⟩⟩, rfl⟩
  | int text =>
    cases h
    exact ⟨⟨hdst, .inl ⟨rfl, hrhs⟩⟩, rfl⟩
  | string text =>
    cases h
    exact ⟨⟨hdst, unquote_of_isWord hrhs⟩, rfl⟩

theorem readable_toQuad (hline : line.Worded) (h : line.toQuad = .ok q) : q.Readable := by
  cases line with
  | patch text => exact readable_toPatch hline h
  | assign dst rhs =>
    obtain ⟨t, ht, h⟩ := exists_of_bind_ok h
    exact readable_assignQuad (writable_toTemp hline.1 ht) hline.2 h
  | stmtBegin line | func name tag =>
    cases h
    exact ⟨hline, rfl⟩
  | label text =>
    obtain ⟨t, ht, h⟩ := exists_of_bind_ok h
    cases h
    exact ⟨writable_toTarget (.inl hline) ht, rfl⟩
  | jump target =>
    obtain ⟨t, ht, h⟩ := exists_of_bind_ok h
    cases h
    exact ⟨writable_toTarget hline ht, rfl⟩
  | condJump cond target =>
    obtain ⟨c, hc, h⟩ := exists_of_bind_ok h
    obtain ⟨t, ht, h⟩ := exists_of_bind_ok h
    cases h
    exact ⟨⟨writable_toTemp hline.1 hc, writable_toTarget hline.2 ht⟩, rfl⟩
  | arg tag x =>
    obtain ⟨t, ht, h⟩ := exists_of_bind_ok h
    cases h
    exact ⟨⟨writable_toTemp hline.2 ht, hline.1⟩, rfl⟩
  | ret tag x =>
    cases x with
    | none =>
      cases h
      exact ⟨⟨fun _ hx => (nomatch hx), hline.1⟩, rfl⟩
    | some x =>
      obtain ⟨t, ht, h⟩ := exists_of_bind_ok h
      cases h
      refine ⟨⟨?_, hline.1⟩, rfl⟩
      rintro y ⟨⟩
      exact writable_toTemp (hline.2 x rfl) ht
  | decl kind name tag width =>
    cases h
    cases kind <;> exact ⟨hline, rfl⟩
  | funcEnd =>
    cases h
    exact ⟨trivial, rfl⟩

end Line

/-! ### Sources -/

theorem newline_notMem_of_mem_splitOn {line : List Char} (h : line ∈ cs.splitOn '\n') :
    '\n' ∉ line := by
  induction cs generalizing line with
  | nil => simp_all
  | cons c cs ih =>
    rw [splitOn_cons_eq_if_modifyHead] at h
    split at h
    · rcases mem_cons.1 h with rfl | h
      · exact not_mem_nil
      · exact ih h
    · next hc =>
      obtain ⟨first, rest, hsplit⟩ := exists_cons_of_ne_nil (splitOn_ne_nil '\n' cs)
      rw [hsplit, modifyHead_cons] at h
      rcases mem_cons.1 h with rfl | h
      · refine not_mem_cons_of_ne_of_not_mem ?_ (ih (by simp [hsplit]))
        rintro rfl
        exact hc rfl
      · exact ih (by simp [hsplit, h])

theorem readable_readLines {line : Nat} {done : List Quad}
    (hlines : ∀ text ∈ texts, '\n' ∉ text.toList) (hdone : ∀ q ∈ done, q.Readable)
    (h : readLines file line done texts = .ok code) : ∀ q ∈ code, q.Readable := by
  fun_induction readLines file line done texts with
  | case1 line done =>
    cases h
    exact fun q hq => hdone q (mem_reverse.1 hq)
  | case2 | case5 => cases h
  | case3 line done text rest hsize cs hskip ih => exact ih (forall_mem_cons.1 hlines).2 hdone h
  | case4 line done text rest hsize cs hskip q hq ih =>
    obtain ⟨htext, hrest⟩ := forall_mem_cons.1 hlines
    refine ih hrest (forall_mem_cons.2 ⟨?_, hdone⟩) h
    obtain ⟨form, hform, hquad⟩ := exists_of_bind_ok hq
    have hcs : '\n' ∉ cs := fun hmem => htext ((Text.trimBlanks_sublist _).subset hmem)
    exact Line.readable_toQuad (Line.worded_read hcs hform) hquad

theorem readable_readCode {source : String}
    (h : readCode file source = .ok code) : ∀ q ∈ code, q.Readable := by
  refine readable_readLines (fun text htext => ?_) (forall_mem_nil _) h
  obtain ⟨line, hline, rfl⟩ := mem_map.1 htext
  rw [String.toList_ofList]
  exact newline_notMem_of_mem_splitOn hline

@[simp]
theorem Quad.text_normal (q : Quad) : q.normal.text = q.text := by
  unfold normal
  split <;> rfl

theorem writeCode_normal (code : List Quad) :
    writeCode (code.map Quad.normal) = writeCode code := by
  simp [writeCode, Function.comp_def]

/-- One pass brings a source into its normal text. What is read from a source is written as a text
that, when none of its lines reaches the limit of 1 MiB, reads as the same instructions with the
offsets of global names set to zero and nothing else changed, and these are written as the same
text. -/
theorem readCode_writeCode_readCode {file source : String} {code : List Quad}
    (hread : readCode file source = .ok code)
    (hsize : ∀ q ∈ code, q.text.utf8ByteSize < 1024 * 1024) (file' : String) :
    readCode file' (writeCode code) = .ok (code.map Quad.normal) ∧
      writeCode (code.map Quad.normal) = writeCode code := by
  have hreadable : ∀ q ∈ code.map Quad.normal,
      (q.Writable ∧ q.unfused = [q]) ∧ q.text.utf8ByteSize < 1024 * 1024 := by
    intro r hr
    obtain ⟨q, hq, rfl⟩ := List.mem_map.1 hr
    exact ⟨readable_readCode hread q hq, by rw [Quad.text_normal]; exact hsize q hq⟩
  refine ⟨?_, writeCode_normal code⟩
  rw [← writeCode_normal, readCode, readLines_writeCode (fun q hq => (hreadable q hq).1.1)
    (fun q hq => (hreadable q hq).1.2) fun q hq => (hreadable q hq).2]
  rfl

/-- A source with comments, odd blanks, leading zeros, a call without a result type and an offset
behind a global name. -/
def untidySource : String :=
  "  alloc x 0011 010\t# one number\n\n# nothing\nfunc main 01\nt01:=global x 012\nt2:=007\n" ++
    "t3:=fv t1 01 t02\nt4:=t3+i t2\nbr B7\nlabel L00\nB7=L0\nreti\nfend"

def untidyCode : List Quad :=
  [.globalDecl ⟨"x", .ofInt 9, 8⟩, .funcBegin "main" .int, .ref ⟨1⟩ .global "x" 10,
    .const ⟨2⟩ "007" .int, .call ⟨3⟩ ⟨1⟩ .int [⟨2⟩], .binary .arith ⟨4⟩ "+" ⟨3⟩ ⟨2⟩ .int,
    .jump (.blank 7), .label 0, .patch 7 0, .ret none .int, .funcEnd]

theorem untidySource_tidied : readCode "untidy" untidySource = .ok untidyCode ∧
    readCode "tidy" (writeCode untidyCode) = .ok (untidyCode.map Quad.normal) ∧
      untidyCode.map Quad.normal ≠ untidyCode := by
  have hread : readCode "untidy" untidySource = .ok untidyCode := by decide +kernel
  refine ⟨hread, ?_, by decide +kernel⟩
  exact (readCode_writeCode_readCode hread (by decide +kernel) "tidy").1

end Quadruple
