import Quadruple.Proofs.Code.RoundTrip

/-!
# Legible code

Not all code that can be written can be read. A word of the format is cut off by the first class
that fits: a name such as `t1.x` starts with a temporary and goes on with a point, which starts
nothing, and a hexadecimal numeral is a zero with a name behind it. Instructions without such words
are *legible*.

Main statements: `readCode_legible`, that legible code is read back with the types of operators,
conversions, arguments, calls and returns reduced to the letter they are written as, and
`readCode_illegible`, that all other code is refused.
-/

namespace Quadruple

open List
open Numeral (InRange)
open Token

/-! ### Words -/

def IsIdent : List Char → Prop
  | [] => False
  | c :: cs => (c.isAlpha ∨ c = '_') ∧ ∀ d ∈ cs, d.isAlphanum ∨ d = '_' ∨ d = '.'

instance (cs : List Char) : Decidable (IsIdent cs) :=
  match cs with
  | [] => instDecidableFalse
  | _ :: _ => inferInstanceAs (Decidable (_ ∧ _))

variable {cs : List Char} {q : Quad} {ts : List Token} {u t : Token}

theorem isName_iff : IsName cs ↔ IsIdent cs ∧ ¬IsDotted cs := by
  cases cs with
  | nil => simp [IsName, IsIdent]
  | cons c cs => exact and_assoc.symm

theorem IsIdent.solid (h : IsIdent cs) : cs ≠ [] ∧ ∀ c ∈ cs, Text.isBlank c = false := by
  cases cs with
  | nil => exact h.elim
  | cons c cs =>
    obtain ⟨hc, hcs⟩ := h
    refine ⟨cons_ne_nil c cs, forall_mem_cons.2 ⟨?_, fun d hd => ?_⟩⟩
    · rcases hc with hc | rfl
      · exact isBlank_of_alphanum (by simp [Char.isAlphanum, hc])
      · rfl
    · rcases hcs d hd with hd | rfl | rfl
      · exact isBlank_of_alphanum hd
      · rfl
      · rfl

def IsHexWord (cs : List Char) : Prop :=
  ∃ x ds, (x = 'x' ∨ x = 'X') ∧ ds ≠ [] ∧ (∀ d ∈ ds, d ∈ "0123456789abcdefABCDEF".toList) ∧
    cs = '0' :: x :: ds

theorem isAlphanum_of_hexDigit {d : Char} (h : d ∈ "0123456789abcdefABCDEF".toList) :
    d.isAlphanum = true := by
  revert d
  decide

theorem IsHexWord.solid (h : IsHexWord cs) : cs ≠ [] ∧ ∀ c ∈ cs, Text.isBlank c = false := by
  obtain ⟨x, ds, hx, -, hds, rfl⟩ := h
  refine ⟨cons_ne_nil _ _, forall_mem_cons.2 ⟨rfl, forall_mem_cons.2 ⟨?_, ?_⟩⟩⟩
  · rcases hx with rfl | rfl <;> rfl
  · exact fun d hd => isBlank_of_alphanum (isAlphanum_of_hexDigit (hds d hd))

def IsNumeral (text : String) (tag : Tag) : Prop :=
  tag = .int ∧ (IsIntWord text.toList ∨ IsHexWord text.toList) ∨
    tag = .double ∧ IsFloatWord text.toList

/-! ### Instructions -/

/-- The type that is left of a type when only its letter is written. -/
def Tag.letter (t : Tag) : Tag := if t.isDouble then .double else .int

theorem Tag.isLetter_letter (t : Tag) : t.letter.IsLetter := by
  unfold letter
  split
  · exact .inr rfl
  · exact .inl rfl

@[simp]
theorem Tag.suffix_letter (t : Tag) : t.letter.suffix = t.suffix := by
  unfold letter suffix
  split <;> rfl

namespace Quad

/-- The instruction without what its line does not show of its type. -/
def reduced : Quad → Quad
  | load dst addr tag => load dst addr tag.letter
  | store dst addr val tag => store dst addr val tag.letter
  | index dst base idx tag => index dst base idx tag.letter
  | unary dst op x tag => unary dst op x tag.letter
  | binary cls dst op x y tag => binary cls dst op x y tag.letter
  | cast dst x tag => cast dst x tag.letter
  | arg x tag => arg x tag.letter
  | call dst callee tag args => call dst callee tag.letter args
  | ret val tag => ret val tag.letter
  | q => q

@[simp]
theorem text_reduced (q : Quad) : q.reduced.text = q.text := by
  cases q with
  | ret val tag => cases val <;> simp [reduced, text]
  | load | store | index | unary | binary | cast | arg | call => simp [reduced, text]
  | _ => rfl

/-- The instructions made of names in `N`, numerals in `K`, and temporaries, labels, blanks and
places in `B`. -/
def Made (N : String → Prop) (K : String → Tag → Prop) (B : Int → Prop) : Quad → Prop
  | globalDecl d | formalDecl d | localDecl d => N d.name ∧ InRange d.width
  | funcBegin name _ => N name
  | funcEnd => True
  | stmtBegin line => InRange line
  | const dst text tag => B dst.number ∧ K text tag
  | string dst text => B dst.number ∧ IsStringBody text.toList
  | ref dst storage name offset =>
    B dst.number ∧ N name ∧
      (storage = .global ∧ offset = 0 ∨ (storage = .param ∨ storage = .stack) ∧ B offset)
  | load dst addr _ => B dst.number ∧ B addr.number
  | store dst addr val _ => B dst.number ∧ B addr.number ∧ B val.number
  | index dst base idx _ => B dst.number ∧ B base.number ∧ B idx.number
  | unary dst op x _ => B dst.number ∧ (op = "-" ∨ op = "~") ∧ B x.number
  | binary cls dst op x y _ => B dst.number ∧ op ∈ cls.lexemes ∧ B x.number ∧ B y.number
  | cast dst x _ => B dst.number ∧ B x.number
  | arg x _ => B x.number
  | call dst callee _ args => B dst.number ∧ B callee.number ∧ ∀ a ∈ args, B a.number
  | condJump cond target => B cond.number ∧ B target.number
  | jump target => B target.number
  | branch .. => False
  | label n => B n
  | patch b l => B b ∧ B l
  | ret val _ => ∀ x ∈ val, B x.number

theorem Made.mono {N N' : String → Prop} {K K' : String → Tag → Prop} {B B' : Int → Prop}
    (hN : ∀ n, N n → N' n) (hK : ∀ text tag, K text tag → K' text tag) (hB : ∀ n, B n → B' n)
    (h : q.Made N K B) : q.Made N' K' B' := by
  cases q with
  | globalDecl d | formalDecl d | localDecl d => exact ⟨hN _ h.1, h.2⟩
  | funcBegin name tag => exact hN _ h
  | funcEnd => trivial
  | stmtBegin line => exact h
  | const dst text tag => exact ⟨hB _ h.1, hK _ _ h.2⟩
  | string dst text => exact ⟨hB _ h.1, h.2⟩
  | ref dst storage name offset =>
    exact ⟨hB _ h.1, hN _ h.2.1, h.2.2.imp_right fun h => ⟨h.1, hB _ h.2⟩⟩
  | load dst addr tag | cast dst x tag | condJump cond target
  | patch b l => exact ⟨hB _ h.1, hB _ h.2⟩
  | store | index => exact ⟨hB _ h.1, hB _ h.2.1, hB _ h.2.2⟩
  | unary dst op x tag => exact ⟨hB _ h.1, h.2.1, hB _ h.2.2⟩
  | binary cls dst op x y tag => exact ⟨hB _ h.1, h.2.1, hB _ h.2.2.1, hB _ h.2.2.2⟩
  | arg x tag => exact hB _ h
  | call dst callee tag args => exact ⟨hB _ h.1, hB _ h.2.1, fun a ha => hB _ (h.2.2 a ha)⟩
  | jump target => exact hB _ h
  | branch => exact h.elim
  | label n => exact hB _ h
  | ret val tag => exact fun x hx => hB _ (h x hx)

/-- The instructions that can be written: names may have points anywhere, and numerals may be
hexadecimal. -/
def Spelled : Quad → Prop := Made (IsIdent ·.toList) IsNumeral IsNumber

/-- No name starts like a numbered word with a point behind it, and no constant is hexadecimal. -/
def Legible : Quad → Prop
  | globalDecl d | formalDecl d | localDecl d => ¬IsDotted d.name.toList
  | funcBegin name _ | ref _ _ name _ => ¬IsDotted name.toList
  | const _ text _ => ¬IsHexWord text.toList
  | _ => True

theorem Spelled.writable (h : q.Spelled) (hl : q.Legible) :
    q.reduced.Writable ∧ q.reduced.unfused = [q.reduced] := by
  cases q with
  | globalDecl d | formalDecl d | localDecl d => exact ⟨⟨isName_iff.2 ⟨h.1, hl⟩, h.2⟩, rfl⟩
  | funcBegin name tag => exact ⟨isName_iff.2 ⟨h, hl⟩, rfl⟩
  | funcEnd => exact ⟨trivial, rfl⟩
  | const dst text tag =>
    refine ⟨⟨h.1, ?_⟩, rfl⟩
    rcases h.2 with ⟨htag, hint | hhex⟩ | hdouble
    · exact .inl ⟨htag, hint⟩
    · exact absurd hhex hl
    · exact .inr hdouble
  | ref dst storage name offset =>
    refine ⟨⟨h.1, isName_iff.2 ⟨h.2.1, hl⟩, ?_⟩, rfl⟩
    exact h.2.2.imp_right fun h => ⟨h.1, h.2.2⟩
  | load dst addr tag | cast dst x tag => exact ⟨⟨h.1, h.2, tag.isLetter_letter⟩, rfl⟩
  | store dst addr val tag
  | index _ _ _ tag | unary _ _ _ tag => exact ⟨⟨h.1, h.2.1, h.2.2, tag.isLetter_letter⟩, rfl⟩
  | binary cls dst op x y tag => exact ⟨⟨h.1, h.2.1, h.2.2.1, h.2.2.2, tag.isLetter_letter⟩, rfl⟩
  | arg x tag => exact ⟨⟨h, tag.isLetter_letter⟩, rfl⟩
  | call dst callee tag args => exact ⟨⟨h.1, h.2.1, tag.isLetter_letter, h.2.2⟩, rfl⟩
  | branch => exact h.elim
  | ret val tag => exact ⟨⟨h, tag.isLetter_letter⟩, rfl⟩
  | _ => exact ⟨h, rfl⟩

end Quad

/-! ### Lines that cannot be read -/

namespace Token

theorem exists_of_dotted (h : IsDotted cs) :
    ∃ c ds tail, c ∈ ['t', 'B', 'L'] ∧ IsDigits ds ∧ cs = c :: (ds ++ '.' :: tail) := by
  cases cs with
  | nil => exact h.elim
  | cons c cs =>
    obtain ⟨hc, hne, hpoint⟩ := h
    obtain ⟨tail, htail⟩ : ∃ tail, cs.dropWhile Char.isDigit = '.' :: tail := by
      cases hdrop : cs.dropWhile Char.isDigit with
      | nil => simp [hdrop] at hpoint
      | cons d tail =>
        rw [hdrop, head?_cons, Option.some.injEq] at hpoint
        exact ⟨tail, by rw [hpoint]⟩
    refine ⟨c, _, tail, hc, ⟨hne, fun d hd => mem_takeWhile_imp hd⟩, ?_⟩
    rw [← htail, takeWhile_append_dropWhile]

theorem scan_dotted {c : Char} {ds : List Char} (hc : c ∈ ['t', 'B', 'L']) (hds : IsDigits ds)
    (tail : List Char) : ∃ kind, scan (c :: (ds ++ '.' :: tail)) = some (kind, ds.length + 1) := by
  have hletter : c.isAlpha ∨ c = '_' := by
    revert c
    decide
  have hpoint : NoDigit ('.' :: tail) := fun d hd => by cases hd; rfl
  have hrun : digitRun (ds ++ '.' :: tail) = ds.length := digitRun_append hds.2 hpoint
  have hpos : ds.length ≠ 0 := by simpa using hds.1
  obtain ⟨hcomment, hstring, hop, hassign, hfloat, hint⟩ := scan_letter (ds ++ '.' :: tail) hletter
  have hpatch : scanPatch (c :: (ds ++ '.' :: tail)) = 0 := by
    unfold scanPatch
    split
    · next us heq =>
      obtain ⟨-, rfl⟩ := cons.inj heq
      simp [hrun]
    · rfl
  have hnumbered (letter : Char) : scanNumbered letter (c :: (ds ++ '.' :: tail)) =
      if c = letter then ds.length + 1 else 0 := by
    simp [scanNumbered, hrun, hpos, atBoundary, isWordChar]
  simp only [scan, scanners, findSome?_cons, hcomment, hstring, hpatch, hop, hassign, hfloat,
    hint, hnumbered]
  simp only [mem_cons, not_mem_nil, or_false] at hc
  rcases hc with rfl | rfl | rfl
  · exact ⟨.temp, rfl⟩
  · exact ⟨.blank, rfl⟩
  · exact ⟨.label, rfl⟩

theorem scan_point (tail : List Char) : scan ('.' :: tail) = none := by
  have hsymbol : symbolLength ('.' :: tail) = 0 := symbolLength_eq_zero (by decide)
  have hrun : digitRun ('.' :: tail) = 0 := digitRun_of_noDigit fun d hd => by cases hd; rfl
  rfl

theorem tokenizeFrom_dotted (h : IsDotted cs) (rest : List Char) (done : List Token) :
    ∃ stuck, tokenizeFrom done (cs ++ rest) = .error stuck := by
  obtain ⟨c, ds, tail, hc, hds, rfl⟩ := exists_of_dotted h
  obtain ⟨kind, hscan⟩ := scan_dotted hc hds (tail ++ rest)
  have hcut := @tokenizeFrom_cut _ (c :: ds) kind (cons_ne_nil c ds) hscan done
  rw [tokenizeFrom, scan_point] at hcut
  exact ⟨_, by simpa using hcut⟩

theorem tokenize_dotted (ht : Separable t) (hts : ∀ t ∈ ts, Separable t)
    (hu : Compact u) (hdotted : IsDotted u.text.toList) (us : List Token) :
    ∃ stuck, tokenize (spaced (t :: (ts ++ u :: us))) = .error stuck := by
  obtain ⟨done, hdone, -⟩ := tokenizeFrom_flatMap_append hts (u :: us) [t]
  rw [spaced, tokenize, tokenizeFrom_append ht (ends_flatMap _), hdone, flatMap_cons,
    cons_append, tokenizeFrom_space hu]
  exact tokenizeFrom_dotted hdotted _ _

theorem scan_hex {x : Char} (hx : x = 'x' ∨ x = 'X') (ds : List Char) :
    scan ('0' :: x :: ds) = some (.int, 1) := by
  have hint : scanInt ('0' :: x :: ds) = 1 := by rcases hx with rfl | rfl <;> rfl
  have hfloat : scanFloat ('0' :: x :: ds) = 0 := by rcases hx with rfl | rfl <;> rfl
  rw [scan_of_scanInt ⟨'0', _, rfl, .inl rfl⟩ hfloat (by simp [hint]), hint]

theorem tokenizeFrom_hex (h : IsHexWord cs) (done : List Token) :
    ∃ name, tokenizeFrom done cs = .ok ((name :: ⟨.int, "0"⟩ :: done).reverse) ∧
      name.isSignificant = true := by
  obtain ⟨x, ds, hx, -, hds, rfl⟩ := h
  have hname : IsName (String.ofList (x :: ds)).toList := by
    rw [String.toList_ofList]
    refine ⟨.inl (by rcases hx with rfl | rfl <;> rfl),
      fun d hd => .inl (isAlphanum_of_hexDigit (hds d hd)), ?_⟩
    rintro ⟨hletter, -⟩
    rcases hx with rfl | rfl <;> exact absurd hletter (by decide)
  have hsep := separable_name hname
  have hrest := tokenizeFrom_append hsep (.inl rfl) (⟨.int, "0"⟩ :: done)
  have hzero := @tokenizeFrom_cut (x :: ds) ['0'] .int (by simp) (scan_hex hx ds) done
  refine ⟨_, hzero.trans ?_, hsep.significant⟩
  rw [tokenizeFrom, append_nil] at hrest
  simpa using hrest

end Token

theorem readQuad_dotted (ht : Separable t) (hts : ∀ t ∈ ts, Separable t)
    (hu : Compact u) (hdotted : IsDotted u.text.toList) (us : List Token) :
    ∃ e, readQuad (spaced (t :: (ts ++ u :: us))) = .error e := by
  obtain ⟨stuck, hstuck⟩ := tokenize_dotted ht hts hu hdotted us
  refine ⟨.lexical stuck, ?_⟩
  rw [readQuad, Line.read, hstuck]
  rfl

theorem readQuad_hex {dst : Temp} (hdst : dst.Writable) (hu : Compact u)
    (hhex : IsHexWord u.text.toList) :
    ∃ e, readQuad (spaced (Quad.assignTokens dst [u])) = .error e := by
  obtain ⟨done, hdone, hfilter⟩ :=
    tokenizeFrom_flatMap_append (forall_mem_singleton.2 separable_assign) [u] [ofTemp dst]
  obtain ⟨name, htokens, hsig⟩ := tokenizeFrom_hex hhex (⟨.space, " "⟩ :: done)
  have hcut : tokenize (spaced (Quad.assignTokens dst [u])) =
      .ok ((name :: ⟨.int, "0"⟩ :: ⟨.space, " "⟩ :: done).reverse) := by
    have hspace := tokenizeFrom_space hu [] done
    rw [append_nil] at hspace
    rw [Quad.assignTokens, spaced, tokenize,
      tokenizeFrom_append (separable_ofTemp hdst) (ends_flatMap _), ← htokens, ← hspace]
    refine hdone.trans ?_
    rw [flatMap_singleton]
  have hword : ((name :: ⟨.int, "0"⟩ :: ⟨.space, " "⟩ :: done).reverse).filter isSignificant =
      [ofTemp dst, ⟨.assign, ":="⟩, ⟨.int, "0"⟩, name] := by
    have hint : isSignificant ⟨.int, "0"⟩ = true := rfl
    have hspace : isSignificant ⟨.space, " "⟩ = false := rfl
    have htemp : isSignificant (ofTemp dst) = true := rfl
    simp [hfilter, hint, hspace, htemp, hsig]
  have hform : Line.ofTokens [ofTemp dst, ⟨.assign, ":="⟩, ⟨.int, "0"⟩, name] =
      .ok (.assign dst.text (.int "0"), [name]) := Line.readAssign_tokens dst rfl
  refine ⟨.unexpected (some name.text) [], ?_⟩
  rw [readQuad, Line.read, hcut]
  simp only [hword, hform]
  rfl

/-! ### Code -/

namespace Quad

theorem compact_name {name : String} (h : IsIdent name.toList) : Compact (word name) :=
  compact_of_solid h.solid.1 h.solid.2

/-- An instruction that is not legible has a dotted name behind separable tokens, or it is a
hexadecimal constant. -/
theorem Spelled.illegible (h : q.Spelled) (hl : ¬q.Legible) : ∃ t ts,
    q.text.toList = spaced (t :: ts) ∧ Separable t ∧ (∀ u ∈ ts, Compact u) ∧
      ∃ e, readQuad q.text.toList = .error e := by
  -- the tokens before the name and behind it
  have hname : ∀ (t : Token) (ts us : List Token) (name : String), Separable t →
      (∀ u ∈ ts, Separable u) → (∀ u ∈ us, Compact u) → IsIdent name.toList →
      IsDotted name.toList → q.text.toList = spaced (t :: (ts ++ word name :: us)) → ∃ t ts,
        q.text.toList = spaced (t :: ts) ∧ Separable t ∧ (∀ u ∈ ts, Compact u) ∧
          ∃ e, readQuad q.text.toList = .error e := by
    intro t ts us name ht hts hus hident hdotted htext
    refine ⟨t, _, htext, ht, ?_, ?_⟩
    · exact forall_mem_append.2 ⟨fun u hu => (hts u hu).toCompact,
        forall_mem_cons.2 ⟨compact_name hident, hus⟩⟩
    · rw [htext]
      exact readQuad_dotted ht hts (compact_name hident) hdotted us
  have hints : ∀ ns : List Int, ∀ u ∈ ns.map ofInt, Compact u := by
    intro ns u hu
    obtain ⟨n, -, rfl⟩ := mem_map.1 hu
    exact (separable_ofInt n).toCompact
  cases q with
  | globalDecl d =>
    exact hname ⟨.ident, "alloc"⟩ [] ([d.tag.toInt, d.width].map ofInt) d.name
      (separable_keyword (by decide)) (by simp) (hints _) h.1 (not_not.1 hl) (toList_text_eq rfl)
  | formalDecl d =>
    exact hname ⟨.ident, "formal"⟩ [] ([d.tag.toInt, d.width].map ofInt) d.name
      (separable_keyword (by decide)) (by simp) (hints _) h.1 (not_not.1 hl) (toList_text_eq rfl)
  | localDecl d =>
    exact hname ⟨.ident, "localloc"⟩ [] ([d.tag.toInt, d.width].map ofInt) d.name
      (separable_keyword (by decide)) (by simp) (hints _) h.1 (not_not.1 hl) (toList_text_eq rfl)
  | funcBegin name tag =>
    exact hname ⟨.ident, "func"⟩ [] ([tag.toInt].map ofInt) name
      (separable_keyword (by decide)) (by simp) (hints _) h (not_not.1 hl) (toList_text_eq rfl)
  | const dst text tag =>
    have hhex : IsHexWord text.toList := not_not.1 hl
    have hword : Compact ⟨if tag.isDouble then .float else .int, text⟩ :=
      compact_of_solid hhex.solid.1 hhex.solid.2
    have htext := toList_text_eq (q := .const dst text tag) rfl
    refine ⟨_, _, htext, separable_ofTemp h.1, ?_, ?_⟩
    · exact forall_mem_cons.2 ⟨separable_assign.toCompact, forall_mem_singleton.2 hword⟩
    · rw [htext]
      exact readQuad_hex h.1 hword hhex
  | ref dst storage name offset =>
    obtain ⟨hdst, hident, hstorage⟩ := h
    have hlead : ∀ keyword : String, IsName keyword.toList ∧ nameKind keyword.toList = .ident →
        ∀ u ∈ [⟨.assign, ":="⟩, ⟨.ident, keyword⟩], Separable u := fun keyword hkeyword =>
      forall_mem_cons.2 ⟨separable_assign, forall_mem_singleton.2 (separable_keyword hkeyword)⟩
    rcases hstorage with ⟨rfl, rfl⟩ | ⟨rfl | rfl, -⟩
    · exact hname _ _ ([].map ofInt) name (separable_ofTemp hdst) (hlead "global" (by decide))
        (hints _) hident (not_not.1 hl) (toList_text_eq rfl)
    · exact hname _ _ ([offset].map ofInt) name (separable_ofTemp hdst) (hlead "param" (by decide))
        (hints _) hident (not_not.1 hl) (toList_text_eq rfl)
    · exact hname _ _ ([offset].map ofInt) name (separable_ofTemp hdst) (hlead "local" (by decide))
        (hints _) hident (not_not.1 hl) (toList_text_eq rfl)
  | _ => exact absurd trivial hl

theorem Spelled.legible (h : q.Spelled) (hl : q.Legible)
    (hsize : q.text.utf8ByteSize < 1024 * 1024) : ∃ t ts, q.text.toList = spaced (t :: ts) ∧
      Separable t ∧ (∀ u ∈ ts, Compact u) ∧ readQuad q.text.toList = .ok q.reduced := by
  obtain ⟨hw, hu⟩ := h.writable hl
  have htext := toList_text_eq hu
  have hread := readQuad_text hw hu (by rwa [text_reduced])
  rw [text_reduced] at htext hread
  have hsep := separable_tokens hw
  cases htokens : q.reduced.tokens with
  | nil => exact absurd htokens (tokens_ne_nil hu)
  | cons t ts =>
    rw [htokens] at htext hsep
    obtain ⟨ht, hts⟩ := forall_mem_cons.1 hsep
    exact ⟨t, ts, htext, ht, fun u hu => (hts u hu).toCompact, hread⟩

end Quad

theorem writeCode_reduced (code : List Quad) :
    writeCode (code.map Quad.reduced) = writeCode code := by
  simp [writeCode, Function.comp_def]

section Code

variable {code : List Quad} (hspelled : ∀ q ∈ code, q.Spelled)
  (hsize : ∀ q ∈ code, q.text.utf8ByteSize < 1024 * 1024)

include hspelled hsize

theorem readCode_legible (hlegible : ∀ q ∈ code, q.Legible) (file : String) :
    readCode file (writeCode code) = .ok (code.map Quad.reduced) := by
  have hwritable : ∀ q ∈ code.map Quad.reduced, (q.Writable ∧ q.unfused = [q]) ∧
      q.text.utf8ByteSize < 1024 * 1024 := by
    intro r hr
    obtain ⟨q, hq, rfl⟩ := mem_map.1 hr
    exact ⟨(hspelled q hq).writable (hlegible q hq), by rw [Quad.text_reduced]; exact hsize q hq⟩
  rw [← writeCode_reduced, readCode, readLines_writeCode (fun q hq => (hwritable q hq).1.1)
    (fun q hq => (hwritable q hq).1.2) fun q hq => (hwritable q hq).2]
  rfl

theorem readLines_illegible (hillegible : ∃ q ∈ code, ¬q.Legible) (file : String) (line : Nat)
    (done : List Quad) :
    ∃ e, readLines file line done (((writeCode code).toList.splitOn '\n').map String.ofList) =
      .error e := by
  induction code generalizing line done with
  | nil => simp at hillegible
  | cons q code ih =>
    obtain ⟨hq, hcode⟩ := forall_mem_cons.1 hspelled
    obtain ⟨hqsize, hcodesize⟩ := forall_mem_cons.1 hsize
    have hsplit : ∀ t ts, q.text.toList = spaced (t :: ts) → Separable t → (∀ u ∈ ts, Compact u) →
        ((writeCode (q :: code)).toList.splitOn '\n').map String.ofList =
          q.text :: ((writeCode code).toList.splitOn '\n').map String.ofList := by
      intro t ts htext ht hts
      have hline : '\n' ∉ q.text.toList := by
        rw [htext]
        exact newline_notMem_spaced (forall_mem_cons.2 ⟨ht.toCompact, hts⟩)
      rw [writeCode_cons, splitOn_append_cons_self_of_not_mem hline, map_cons, String.ofList_toList]
    by_cases hl : q.Legible
    · obtain ⟨t, ts, htext, ht, hts, hread⟩ := hq.legible hl hqsize
      have hrest : ∃ q ∈ code, ¬q.Legible := by simpa [hl] using hillegible
      rw [hsplit t ts htext ht hts, readLines_spaced ht hts htext hqsize, hread]
      exact ih hcode hcodesize hrest (line + 1) (q.reduced :: done)
    · obtain ⟨t, ts, htext, ht, hts, e, hread⟩ := hq.illegible hl
      rw [hsplit t ts htext ht hts, readLines_spaced ht hts htext hqsize, hread]
      exact ⟨_, rfl⟩

theorem readCode_illegible (hillegible : ∃ q ∈ code, ¬q.Legible) (file : String) :
    ∃ e, readCode file (writeCode code) = .error e :=
  readLines_illegible hspelled hsize hillegible file 1 []

end Code

end Quadruple
