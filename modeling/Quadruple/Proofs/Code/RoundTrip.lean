import Quadruple.Code.Reader
import Quadruple.Proofs.Code.Decimal
import Quadruple.Proofs.Code.Lexeme

/-!
# Reading back what was written

An instruction is *writable* when its parts have the form that the text format gives them: numbers
of temporaries, labels and blanks are not negative, names are names, types that are written as a
letter are `int` or `double`, operators belong to their family, constants and strings are lexemes.

Main statement: `readCode_writeCode`.
-/

namespace Quadruple

open List
open Numeral (InRange decimalText)

/-! ### Writable instructions -/

def IsNumber (n : Int) : Prop := 0 ≤ n ∧ InRange n

instance (n : Int) : Decidable (IsNumber n) := inferInstanceAs (Decidable (_ ∧ _))

def Tag.IsLetter (t : Tag) : Prop := t = .int ∨ t = .double

instance (t : Tag) : Decidable t.IsLetter := inferInstanceAs (Decidable (_ ∨ _))

def Temp.Writable (t : Temp) : Prop := IsNumber t.number

instance (t : Temp) : Decidable t.Writable := inferInstanceAs (Decidable (IsNumber _))

def Target.Writable (t : Target) : Prop := IsNumber t.number

instance (t : Target) : Decidable t.Writable := inferInstanceAs (Decidable (IsNumber _))

def Decl.Writable (d : Decl) : Prop := IsName d.name.toList ∧ InRange d.width

instance (d : Decl) : Decidable d.Writable := inferInstanceAs (Decidable (_ ∧ _))

variable {q : Quad} {n : Int} {tag : Tag} {dst : Temp} {args : List Temp} {text : String}

namespace Quad

def Writable : Quad → Prop
  | globalDecl d | formalDecl d | localDecl d => d.Writable
  | funcBegin name _ => IsName name.toList
  | funcEnd => True
  | stmtBegin line => InRange line
  | const dst text tag =>
    dst.Writable ∧
      (tag = .int ∧ IsIntWord text.toList ∨ tag = .double ∧ IsFloatWord text.toList)
  | string dst text => dst.Writable ∧ IsStringBody text.toList
  | ref dst storage name offset =>
    dst.Writable ∧ IsName name.toList ∧
      (storage = .global ∧ offset = 0 ∨ (storage = .param ∨ storage = .stack) ∧ InRange offset)
  | load dst addr tag => dst.Writable ∧ addr.Writable ∧ tag.IsLetter
  | store dst addr val tag => dst.Writable ∧ addr.Writable ∧ val.Writable ∧ tag.IsLetter
  | index dst base idx tag => dst.Writable ∧ base.Writable ∧ idx.Writable ∧ tag.IsLetter
  | unary dst op x tag => dst.Writable ∧ (op = "-" ∨ op = "~") ∧ x.Writable ∧ tag.IsLetter
  | binary cls dst op x y tag =>
    dst.Writable ∧ op ∈ cls.lexemes ∧ x.Writable ∧ y.Writable ∧ tag.IsLetter
  | cast dst x tag => dst.Writable ∧ x.Writable ∧ tag.IsLetter
  | arg x tag => x.Writable ∧ tag.IsLetter
  | call dst callee tag args =>
    dst.Writable ∧ callee.Writable ∧ tag.IsLetter ∧ ∀ a ∈ args, a.Writable
  | condJump cond target => cond.Writable ∧ target.Writable
  | jump target => target.Writable
  | branch cond onTrue onFalse => cond.Writable ∧ onTrue.Writable ∧ onFalse.Writable
  | label n => IsNumber n
  | patch b l => IsNumber b ∧ IsNumber l
  | ret val tag => (∀ x ∈ val, x.Writable) ∧ tag.IsLetter

/-- The instructions of the lines that an instruction is written as: for a branch its conditional
jump and its jump, else itself. -/
def unfused : Quad → List Quad
  | branch cond onTrue onFalse => [condJump cond onTrue, jump onFalse]
  | q => [q]

theorem unfused_eq (q : Quad) : q.unfused = [q] ∨ ∃ cond a b, q = branch cond a b := by
  cases q with
  | branch cond a b => exact .inr ⟨cond, a, b, rfl⟩
  | _ => exact .inl rfl

variable {r : Quad}

theorem unfused_of_mem_unfused (h : r ∈ q.unfused) : r.unfused = [r] := by
  rcases unfused_eq q with hq | ⟨cond, a, b, rfl⟩
  · rw [hq, mem_singleton] at h
    rwa [h]
  · simp only [unfused, mem_cons, not_mem_nil, or_false] at h
    rcases h with rfl | rfl <;> rfl

theorem Writable.of_mem_unfused (hw : q.Writable) (h : r ∈ q.unfused) : r.Writable := by
  rcases unfused_eq q with hq | ⟨cond, a, b, rfl⟩
  · rw [hq, mem_singleton] at h
    rwa [h]
  · obtain ⟨hcond, ha, hb⟩ := hw
    simp only [unfused, mem_cons, not_mem_nil, or_false] at h
    rcases h with rfl | rfl
    · exact ⟨hcond, ha⟩
    · exact hb

/-! ### The tokens of a line -/

end Quad

namespace Token

def word (text : String) : Token := ⟨nameKind text.toList, text⟩

def ofInt (n : Int) : Token := ⟨.int, decimalText n⟩

def ofTemp (t : Temp) : Token := ⟨.temp, t.text⟩

def ofTarget (t : Target) : Token :=
  ⟨match t with | .blank _ => .blank | .label _ => .label, t.text⟩

end Token

open Token (word ofInt ofTemp ofTarget)

def Decl.tokens (keyword : String) (d : Decl) : List Token :=
  [⟨.ident, keyword⟩, word d.name, ofInt d.tag.toInt, ofInt d.width]

namespace Quad

def assignTokens (dst : Temp) (rhs : List Token) : List Token :=
  ofTemp dst :: ⟨.assign, ":="⟩ :: rhs

/-- The tokens of the line of an instruction. A branch has no line of its own. -/
def tokens : Quad → List Token
  | globalDecl d => d.tokens "alloc"
  | formalDecl d => d.tokens "formal"
  | localDecl d => d.tokens "localloc"
  | funcBegin name tag => [⟨.ident, "func"⟩, word name, ofInt tag.toInt]
  | funcEnd => [⟨.ident, "fend"⟩]
  | stmtBegin line => [⟨.ident, "bgnstmt"⟩, ofInt line]
  | const dst text tag => assignTokens dst [⟨if tag.isDouble then .float else .int, text⟩]
  | string dst text => assignTokens dst [⟨.string, "\"" ++ text ++ "\""⟩]
  | ref dst .global name _ => assignTokens dst [⟨.ident, "global"⟩, word name]
  | ref dst storage name offset =>
    assignTokens dst [⟨.ident, storage.keyword⟩, word name, ofInt offset]
  | load dst addr tag => assignTokens dst [⟨.op, "@" ++ tag.suffix⟩, ofTemp addr]
  | store dst addr val tag => assignTokens dst [ofTemp addr, ⟨.op, "=" ++ tag.suffix⟩, ofTemp val]
  | index dst base idx tag => assignTokens dst [ofTemp base, ⟨.op, "[]" ++ tag.suffix⟩, ofTemp idx]
  | unary dst op x tag => assignTokens dst [⟨.op, op ++ tag.suffix⟩, ofTemp x]
  | binary _ dst op x y tag => assignTokens dst [ofTemp x, ⟨.op, op ++ tag.suffix⟩, ofTemp y]
  | cast dst x tag => assignTokens dst [⟨.ident, "cv" ++ tag.suffix⟩, ofTemp x]
  | arg x tag => [⟨.ident, "arg" ++ tag.suffix⟩, ofTemp x]
  | call dst callee tag args =>
    assignTokens dst
      (⟨.ident, "f" ++ tag.suffix⟩ :: ofTemp callee :: ofInt args.length :: args.map ofTemp)
  | condJump cond target => [⟨.ident, "bt"⟩, ofTemp cond, ofTarget target]
  | jump target => [⟨.ident, "br"⟩, ofTarget target]
  | branch .. => []
  | label n => [⟨.ident, "label"⟩, ofTarget (.label n)]
  | patch b l => [⟨.patch, blankName b ++ "=" ++ labelName l⟩]
  | ret none tag => [⟨.ident, "ret" ++ tag.suffix⟩]
  | ret (some val) tag => [⟨.ident, "ret" ++ tag.suffix⟩, ofTemp val]

theorem toList_text_eq (h : q.unfused = [q]) : q.text.toList = Token.spaced q.tokens := by
  cases q with
  | branch => cases h
  | ref dst storage name offset =>
    cases storage <;>
      simp [text, tokens, assignText, assignTokens, Token.spaced, word, ofInt, ofTemp]
  | ret val tag => cases val <;> simp [text, tokens, Token.spaced, ofTemp]
  | call dst callee tag args =>
    simp [text, tokens, assignText, assignTokens, Token.spaced, ofInt, ofTemp, flatMap_map]
  | _ =>
    simp [text, tokens, Decl.text, Decl.tokens, assignText, assignTokens, Token.spaced, word, ofInt,
      ofTemp, ofTarget, Target.text]

theorem tokens_ne_nil (h : q.unfused = [q]) : q.tokens ≠ [] := by
  cases q with
  | branch => cases h
  | ref dst storage name offset => cases storage <;> exact cons_ne_nil _ _
  | ret val tag => cases val <;> exact cons_ne_nil _ _
  | _ => exact cons_ne_nil _ _

end Quad

/-! ### Each token is separable -/

variable {t : Target} {d : Decl} {cls : OpClass} {op : String} {ts : List Token} {x y : Temp}
  (name : String)

namespace Token

theorem isDigits_decimalText (h : 0 ≤ n) : IsDigits (decimalText n).toList := by
  obtain ⟨m, rfl⟩ := Int.eq_ofNat_of_zero_le h
  refine ⟨by simp [decimalText], fun c hc => ?_⟩
  have hc : c ∈ Nat.toDigits 10 m := by simpa [decimalText] using hc
  exact Nat.isDigit_of_mem_toDigits (by decide) (by decide) hc

theorem separable_ofInt (n : Int) : Separable (ofInt n) := by
  apply separable_int
  cases n with
  | ofNat m => exact .inl (isDigits_decimalText (Int.natCast_nonneg m))
  | negSucc m =>
    refine .inr ⟨Nat.toDigits 10 (m + 1), by simp [decimalText], by simp, fun c hc => ?_⟩
    exact Nat.isDigit_of_mem_toDigits (by decide) (by decide) hc

theorem separable_keyword {s : String} (h : IsName s.toList ∧ nameKind s.toList = .ident) :
    Separable ⟨.ident, s⟩ := by
  have := separable_name h.1
  rwa [h.2] at this

theorem isName_numbered {letter : Char} {ds : List Char} (hl : letter.isAlpha)
    (h : ∀ d ∈ ds, d.isDigit) : IsName (letter :: ds) := by
  refine ⟨.inl hl, fun d hd => .inl (by simp [Char.isAlphanum, h d hd]), ?_⟩
  rintro ⟨-, -, hpoint⟩
  rw [dropWhile_eq_nil_iff.2 h] at hpoint
  cases hpoint

theorem separable_numbered (letter : Char) {kind : TokenKind} (hl : letter.isAlpha)
    (hkind : ∀ ds, IsDigits ds → nameKind (letter :: ds) = kind) (h : 0 ≤ n)
    (htext : text.toList = letter :: (decimalText n).toList) : Separable ⟨kind, text⟩ := by
  have hds := isDigits_decimalText h
  have hname : IsName text.toList := htext ▸ isName_numbered hl hds.2
  have := separable_name hname
  rwa [htext, hkind _ hds] at this

theorem separable_ofTemp {t : Temp} (h : t.Writable) : Separable (ofTemp t) :=
  separable_numbered 't' rfl (fun ds hds => by simp [nameKind, hds]) h.1 (by simp [Temp.text])

theorem separable_ofTarget (h : t.Writable) : Separable (ofTarget t) := by
  cases t with
  | blank n =>
    exact separable_numbered 'B' rfl (fun ds hds => by simp [nameKind, hds]) h.1
      (by simp [Target.text, Target.number, blankName])
  | label n =>
    exact separable_numbered 'L' rfl (fun ds hds => by simp [nameKind, hds]) h.1
      (by simp [Target.text, Target.number, labelName])

theorem suffix_of_isLetter (h : tag.IsLetter) : tag.suffix = "i" ∨ tag.suffix = "f" := by
  rcases h with rfl | rfl
  · exact .inl rfl
  · exact .inr rfl

end Token

open Token

theorem Decl.separable_tokens (h : d.Writable) {keyword : String}
    (hk : IsName keyword.toList ∧ nameKind keyword.toList = .ident) :
    ∀ t ∈ d.tokens keyword, Separable t := by
  simp only [Decl.tokens, forall_mem_cons, not_mem_nil, false_implies, implies_true, and_true]
  exact ⟨separable_keyword hk, separable_name h.1, separable_ofInt _, separable_ofInt _⟩

namespace Quad

theorem separable_assignTokens {rhs : List Token} (hd : dst.Writable) (h : ∀ t ∈ rhs, Separable t) :
    ∀ t ∈ assignTokens dst rhs, Separable t :=
  forall_mem_cons.2 ⟨separable_ofTemp hd, forall_mem_cons.2 ⟨separable_assign, h⟩⟩

theorem separable_unary (hop : op.toList ∈ symbols) (ht : tag.IsLetter)
    (hd : dst.Writable) (hx : x.Writable) :
    ∀ t ∈ assignTokens dst [⟨.op, op ++ tag.suffix⟩, ofTemp x], Separable t :=
  separable_assignTokens hd
    (by simpa using ⟨separable_op hop (suffix_of_isLetter ht), separable_ofTemp hx⟩)

theorem separable_binary (hop : op.toList ∈ symbols) (ht : tag.IsLetter)
    (hd : dst.Writable) (hx : x.Writable) (hy : y.Writable) :
    ∀ t ∈ assignTokens dst [ofTemp x, ⟨.op, op ++ tag.suffix⟩, ofTemp y], Separable t := by
  have hop := separable_op hop (suffix_of_isLetter ht)
  exact separable_assignTokens hd (by simpa using ⟨separable_ofTemp hx, hop, separable_ofTemp hy⟩)

theorem symbol_mem_of_lexeme (h : op ∈ cls.lexemes) : op.toList ∈ symbols := by
  cases cls <;> revert op <;> decide

theorem separable_tokens (h : q.Writable) : ∀ t ∈ q.tokens, Separable t := by
  cases q with
  | globalDecl d | formalDecl d | localDecl d => exact Decl.separable_tokens h (by decide)
  | funcBegin name tag =>
    simpa [tokens] using ⟨separable_keyword (by decide), separable_name h, separable_ofInt _⟩
  | funcEnd => simpa [tokens] using separable_keyword (by decide)
  | stmtBegin line => simpa [tokens] using ⟨separable_keyword (by decide), separable_ofInt _⟩
  | const dst text tag =>
    obtain ⟨hd, ⟨rfl, hw⟩ | ⟨rfl, hw⟩⟩ := h
    · exact separable_assignTokens hd (forall_mem_singleton.2 (separable_int hw))
    · exact separable_assignTokens hd (forall_mem_singleton.2 (separable_float hw))
  | string dst text => exact separable_assignTokens h.1 (by simpa using separable_string h.2)
  | ref dst storage name offset =>
    obtain ⟨hd, hn, ⟨rfl, rfl⟩ | ⟨rfl | rfl, -⟩⟩ := h
    · exact separable_assignTokens hd
        (by simpa using ⟨separable_keyword (by decide), separable_name hn⟩)
    all_goals
      exact separable_assignTokens hd
        (by simpa using ⟨separable_keyword (by decide), separable_name hn, separable_ofInt _⟩)
  | load dst addr tag => exact separable_unary (by decide) h.2.2 h.1 h.2.1
  | store | index => exact separable_binary (by decide) h.2.2.2 h.1 h.2.1 h.2.2.1
  | unary dst op x tag =>
    obtain ⟨hd, hop, hx, ht⟩ := h
    exact separable_unary (by rcases hop with rfl | rfl <;> decide) ht hd hx
  | binary cls dst op x y tag =>
    obtain ⟨hd, hop, hx, hy, ht⟩ := h
    exact separable_binary (symbol_mem_of_lexeme hop) ht hd hx hy
  | cast dst x tag =>
    obtain ⟨hd, hx, ht⟩ := h
    have hk : Separable ⟨.ident, "cv" ++ tag.suffix⟩ :=
      separable_keyword (by rcases ht with rfl | rfl <;> decide)
    exact separable_assignTokens hd (by simpa using ⟨hk, separable_ofTemp hx⟩)
  | arg x tag =>
    have hk : Separable ⟨.ident, "arg" ++ tag.suffix⟩ :=
      separable_keyword (by rcases h.2 with rfl | rfl <;> decide)
    simpa [tokens] using ⟨hk, separable_ofTemp h.1⟩
  | call dst callee tag args =>
    obtain ⟨hd, hc, ht, hargs⟩ := h
    have hk : Separable ⟨.ident, "f" ++ tag.suffix⟩ :=
      separable_keyword (by rcases ht with rfl | rfl <;> decide)
    refine separable_assignTokens hd ?_
    simpa using ⟨hk, separable_ofTemp hc, separable_ofInt _, fun a ha =>
      separable_ofTemp (hargs a ha)⟩
  | condJump cond target =>
    simpa [tokens] using
      ⟨separable_keyword (by decide), separable_ofTemp h.1, separable_ofTarget h.2⟩
  | jump target => simpa [tokens] using ⟨separable_keyword (by decide), separable_ofTarget h⟩
  | branch => simp [tokens]
  | label n =>
    have hl : Separable (ofTarget (.label n)) := separable_ofTarget h
    simpa [tokens] using ⟨separable_keyword (by decide), hl⟩
  | patch b l =>
    simpa [tokens, blankName, labelName] using
      separable_patch (isDigits_decimalText h.1.1) (isDigits_decimalText h.2.1)
  | ret val tag =>
    have hk : Separable ⟨.ident, "ret" ++ tag.suffix⟩ :=
      separable_keyword (by rcases h.2 with rfl | rfl <;> decide)
    cases val with
    | none => simpa [tokens] using hk
    | some x => simpa [tokens] using ⟨hk, separable_ofTemp (h.1 x rfl)⟩

/-! ### The form of a line -/

def line : Quad → Line
  | globalDecl d => .decl .global d.name d.tag.toInt d.width
  | formalDecl d => .decl .formal d.name d.tag.toInt d.width
  | localDecl d => .decl .stack d.name d.tag.toInt d.width
  | funcBegin name tag => .func name tag.toInt
  | funcEnd => .funcEnd
  | stmtBegin line => .stmtBegin line
  | const dst text tag => .assign dst.text (if tag.isDouble then .float text else .int text)
  | string dst text => .assign dst.text (.string ("\"" ++ text ++ "\""))
  | ref dst storage name offset => .assign dst.text (.ref storage name offset)
  | load dst addr tag => .assign dst.text (.unary ("@" ++ tag.suffix) addr.text)
  | store dst addr val tag => .assign dst.text (.binary addr.text ("=" ++ tag.suffix) val.text)
  | index dst base idx tag => .assign dst.text (.binary base.text ("[]" ++ tag.suffix) idx.text)
  | unary dst op x tag => .assign dst.text (.unary (op ++ tag.suffix) x.text)
  | binary _ dst op x y tag => .assign dst.text (.binary x.text (op ++ tag.suffix) y.text)
  | cast dst x tag => .assign dst.text (.cast tag x.text)
  | arg x tag => .arg tag x.text
  | call dst callee tag args =>
    .assign dst.text (.call tag callee.text args.length (args.map Temp.text))
  | condJump cond target | branch cond target _ => .condJump cond.text target.text
  | jump target => .jump target.text
  | label n => .label (labelName n)
  | patch b l => .patch (blankName b ++ "=" ++ labelName l)
  | ret val tag => .ret tag (val.map Temp.text)

end Quad

namespace Line

theorem number_decimalText (h : InRange n) : number (decimalText n) = .ok n := by
  rw [number, Numeral.readLiteral_decimalText h]
  rfl

theorem need_word (after : List Slot) (ts : List Token) :
    need .name after (word name :: ts) = .ok (name, ts) := by
  have haccepts : Slot.name.accepts (word name) = true := by
    unfold word nameKind
    split
    · rfl
    · repeat' split
      all_goals rfl
  rw [need, if_pos haccepts]
  rfl

theorem need_ofTarget (t : Target) (after : List Slot) (ts : List Token) :
    need .target after (ofTarget t :: ts) = .ok (t.text, ts) := by
  cases t <;> rfl

theorem need_ofInt (n : Int) (after : List Slot) (ts : List Token) :
    need .int after (ofInt n :: ts) = .ok (decimalText n, ts) := rfl

theorem need_ofTemp (t : Temp) (after : List Slot) (ts : List Token) :
    need .temp after (ofTemp t :: ts) = .ok (t.text, ts) := rfl

theorem takeTemps_map (args : List Temp) :
    takeTemps (args.map ofTemp) = (args.map Temp.text, []) := by
  induction args with
  | nil => rfl
  | cons a args ih => simpa [takeTemps, ofTemp] using ih

theorem inRange_tag (t : Tag) : InRange t.toInt := by
  have hlow := t.bits.le_toInt
  have hhigh := t.bits.toInt_lt
  exact ⟨by simpa [Tag.toInt] using hlow, by simpa [Tag.toInt] using hhigh⟩

theorem readAssign_tokens (dst : Temp) {rhs : Rhs} {rest : List Token}
    (h : readRhs ts = .ok (rhs, rest)) :
    readAssign dst.text (⟨.assign, ":="⟩ :: ts) = .ok (.assign dst.text rhs, rest) := by
  have hassign : need .assign [.rhs] (⟨.assign, ":="⟩ :: ts) = .ok (":=", ts) := rfl
  simp [readAssign, hassign, h, bind, Except.bind, pure, Except.pure]

theorem readDecl_tokens (h : d.Writable) (kind : DeclKind) :
    readDecl kind [word d.name, ofInt d.tag.toInt, ofInt d.width] =
      .ok (.decl kind d.name d.tag.toInt d.width, []) := by
  simp [readDecl, need_word, need_ofInt, number_decimalText (inRange_tag _),
    number_decimalText h.2, bind, Except.bind, pure, Except.pure]

theorem readRhs_const (h : tag.IsLetter) : readRhs [⟨if tag.isDouble then .float else .int, text⟩] =
      .ok (if tag.isDouble then .float text else .int text, []) := by
  rcases h with rfl | rfl <;> rfl

theorem readRhs_ref {storage : Storage} {offset : Int}
    (h : storage = .param ∨ storage = .stack) (ho : InRange offset) :
    readRhs [⟨.ident, storage.keyword⟩, word name, ofInt offset] =
      .ok (.ref storage name offset, []) := by
  have hread : readRef storage [word name, ofInt offset] = .ok (.ref storage name offset, []) := by
    simp [readRef, need_word, takeInt?, ofInt, number_decimalText ho, bind, Except.bind, pure,
      Except.pure]
  rcases h with rfl | rfl <;> exact hread

theorem readRhs_global :
    readRhs [⟨.ident, "global"⟩, word name] = .ok (.ref .global name 0, []) := by
  show readRef .global [word name] = _
  simp [readRef, need_word, takeInt?, bind, Except.bind, pure, Except.pure]

theorem readRhs_cast (h : tag.IsLetter) (x : Temp) :
    readRhs [⟨.ident, "cv" ++ tag.suffix⟩, ofTemp x] = .ok (.cast tag x.text, []) := by
  rcases h with rfl | rfl <;> rfl

theorem readRhs_call (h : tag.IsLetter) (callee : Temp) (hargs : InRange args.length) :
    readRhs (⟨.ident, "f" ++ tag.suffix⟩ :: ofTemp callee :: ofInt args.length ::
      args.map ofTemp) = .ok (.call tag callee.text args.length (args.map Temp.text), []) := by
  have hread : readCall tag (ofTemp callee :: ofInt args.length :: args.map ofTemp) =
      .ok (.call tag callee.text args.length (args.map Temp.text), []) := by
    simp [readCall, need_ofTemp, need_ofInt, takeTemps_map, number_decimalText hargs, bind,
      Except.bind, pure, Except.pure]
  rcases h with rfl | rfl <;> exact hread

theorem ofTokens_tokens (h : q.Writable) (hu : q.unfused = [q])
    (hargs : ∀ dst callee tag args, q = .call dst callee tag args → InRange args.length) :
    ofTokens q.tokens = .ok (q.line, []) := by
  cases q with
  | globalDecl d => exact readDecl_tokens h .global
  | formalDecl d => exact readDecl_tokens h .formal
  | localDecl d => exact readDecl_tokens h .stack
  | funcBegin name tag =>
    show readFunc [word name, ofInt tag.toInt] = _
    simp [readFunc, need_word, need_ofInt, number_decimalText (inRange_tag _), bind, Except.bind,
      pure, Except.pure, Quad.line]
  | funcEnd => rfl
  | stmtBegin line =>
    show readStmtBegin [ofInt line] = _
    simp [readStmtBegin, need_ofInt, number_decimalText (show InRange line from h), bind, Except.bind,
      pure, Except.pure, Quad.line]
  | const dst text tag =>
    refine readAssign_tokens dst (readRhs_const ?_)
    rcases h.2 with ⟨rfl, -⟩ | ⟨rfl, -⟩
    · exact .inl rfl
    · exact .inr rfl
  | string dst | load dst | store dst | index dst | unary dst | binary _ dst =>
    exact readAssign_tokens dst rfl
  | ref dst storage name offset =>
    obtain ⟨-, -, ⟨rfl, rfl⟩ | ⟨hs, ho⟩⟩ := h
    · exact readAssign_tokens dst (readRhs_global name)
    · have hread := readAssign_tokens dst (readRhs_ref name hs ho)
      rcases hs with rfl | rfl <;> exact hread
  | cast dst x tag => exact readAssign_tokens dst (readRhs_cast h.2.2 x)
  | arg x tag => rcases h.2 with rfl | rfl <;> rfl
  | call dst callee tag args =>
    exact readAssign_tokens dst (readRhs_call h.2.2.1 callee (hargs _ _ _ _ rfl))
  | condJump cond target =>
    show readCondJump [ofTemp cond, ofTarget target] = _
    simp [readCondJump, need_ofTemp, need_ofTarget, bind, Except.bind, pure, Except.pure, Quad.line]
  | jump target =>
    show readJump [ofTarget target] = _
    simp [readJump, need_ofTarget, bind, Except.bind, pure, Except.pure, Quad.line]
  | branch => cases hu
  | label n => rfl
  | patch b l => rfl
  | ret val tag => cases val <;> rcases h.2 with rfl | rfl <;> rfl

/-! ### The meaning of a line -/

theorem numberBehind?_eq {c : Char} (h : InRange n)
    (htext : text.toList = c :: (decimalText n).toList) : numberBehind? text = some n := by
  rw [numberBehind?, htext, drop_one, tail_cons, String.ofList_toList,
    Numeral.readDecimal_decimalText h]
  rfl

theorem toTemp_text {t : Temp} (h : t.Writable) : toTemp t.text = .ok t := by
  have htext : t.text.toList = 't' :: (decimalText t.number).toList := by simp [Temp.text]
  delta toTemp
  rw [numberBehind?_eq h.2 htext]

theorem toTarget_text (h : t.Writable) : toTarget t.text = .ok t := by
  cases t with
  | blank n =>
    have htext : (blankName n).toList = 'B' :: (decimalText n).toList := by simp [blankName]
    have hstart : (blankName n).startsWith "B" = true := by
      rw [String.startsWith_string_iff, htext]
      exact prefix_append ['B'] _
    delta toTarget
    rw [Target.text, numberBehind?_eq h.2 htext]
    simp [hstart, Target.number]
  | label n =>
    have htext : (labelName n).toList = 'L' :: (decimalText n).toList := by simp [labelName]
    have hstart : (labelName n).startsWith "B" = false := by
      rw [String.startsWith_string_eq_false_iff, htext]
      rintro ⟨_, heq⟩
      exact absurd (cons.inj heq).1 (by decide)
    delta toTarget
    rw [Target.text, numberBehind?_eq h.2 htext]
    simp [hstart, Target.number]

theorem toPatch_text {b l : Int} (hb : IsNumber b) (hl : IsNumber l) :
    toPatch (blankName b ++ "=" ++ labelName l) = .ok (.patch b l) := by
  have htext : (blankName b ++ "=" ++ labelName l).toList.drop 1 =
      (decimalText b).toList ++ '=' :: 'L' :: (decimalText l).toList := by
    simp [blankName, labelName]
  have hdigits := (isDigits_decimalText hb.1).2
  have hstop : NoDigit ('=' :: 'L' :: (decimalText l).toList) := fun c hc => by cases hc; rfl
  delta toPatch
  simp only [htext, takeWhile_digits hdigits hstop, dropWhile_digits hdigits hstop,
    drop_succ_cons, drop_zero, String.ofList_toList,
    Numeral.readDecimal_decimalText hb.2, Numeral.readDecimal_decimalText hl.2]
  rfl

theorem splitOp_suffix (op : String) (h : tag.IsLetter) :
    splitOp (op ++ tag.suffix) = (op, tag) := by
  have hint : Tag.int.suffix.toList = ['i'] := rfl
  have hdouble : Tag.double.suffix.toList = ['f'] := rfl
  rcases h with rfl | rfl
  · simp [splitOp, hint]
  · simp [splitOp, hdouble]

theorem binaryQuad_lexeme (hop : op ∈ cls.lexemes) (h : tag.IsLetter) (dst x y : Temp) :
    binaryQuad dst x (op ++ tag.suffix) y = .ok (.binary cls dst op x y tag) := by
  rw [binaryQuad, splitOp_suffix op h]
  cases cls <;> simp only [OpClass.lexemes, mem_cons, not_mem_nil, or_false] at hop
  · rcases hop with rfl | rfl | rfl | rfl | rfl <;> rfl
  · rcases hop with rfl | rfl | rfl | rfl | rfl <;> rfl
  · rcases hop with rfl | rfl | rfl | rfl | rfl | rfl <;> rfl

theorem mapM_toTemp (h : ∀ a ∈ args, a.Writable) : (args.map Temp.text).mapM toTemp = .ok args := by
  induction args with
  | nil => rfl
  | cons a args ih =>
    rw [map_cons, mapM_cons, toTemp_text (h a (by simp)), ih fun b hb => h b (by simp [hb])]
    rfl

theorem unquote_quoted (text : String) : unquote ("\"" ++ text ++ "\"") = text := by
  have htext : ("\"" ++ text ++ "\"").toList = '"' :: (text.toList ++ ['"']) := by simp
  rw [unquote, htext, drop_one, tail_cons, dropLast_concat, String.ofList_toList]

theorem toQuad_assign (h : dst.Writable) (rhs : Rhs) :
    (Line.assign dst.text rhs).toQuad = assignQuad dst rhs := by
  rw [toQuad, toTemp_text h]
  rfl

theorem assignQuad_unary (h : x.Writable) (dst : Temp) (op : String) :
    assignQuad dst (.unary op x.text) = unaryQuad dst op x := by
  simp only [assignQuad, toTemp_text h, bind, Except.bind]

theorem assignQuad_binary (hx : x.Writable) (hy : y.Writable) (dst : Temp)
    (op : String) : assignQuad dst (.binary x.text op y.text) = binaryQuad dst x op y := by
  simp only [assignQuad, toTemp_text hx, toTemp_text hy, bind, Except.bind]

theorem toQuad_line (h : q.Writable) (hu : q.unfused = [q]) : q.line.toQuad = .ok q := by
  have htag (t : Tag) : Tag.ofInt t.toInt = t := by simp [Tag.ofInt, Tag.toInt]
  cases q with
  | globalDecl d | formalDecl d | localDecl d => simp [Quad.line, toQuad, DeclKind.quad, htag]
  | funcBegin name tag => simp [Quad.line, toQuad, htag]
  | funcEnd => rfl
  | stmtBegin line => rfl
  | const dst text tag =>
    obtain ⟨hd, ⟨rfl, -⟩ | ⟨rfl, -⟩⟩ := h
    · exact toQuad_assign hd _
    · exact toQuad_assign hd _
  | string dst text => rw [Quad.line, toQuad_assign h.1, assignQuad, unquote_quoted]
  | ref dst storage name offset => exact toQuad_assign h.1 _
  | load dst addr tag =>
    obtain ⟨hd, ha, ht⟩ := h
    rw [Quad.line, toQuad_assign hd, assignQuad_unary ha, unaryQuad, splitOp_suffix "@" ht]
    rfl
  | store dst addr val tag =>
    obtain ⟨hd, ha, hv, ht⟩ := h
    rw [Quad.line, toQuad_assign hd, assignQuad_binary ha hv, binaryQuad, splitOp_suffix "=" ht]
    rfl
  | index dst base idx tag =>
    obtain ⟨hd, hb, hi, ht⟩ := h
    rw [Quad.line, toQuad_assign hd, assignQuad_binary hb hi, binaryQuad, splitOp_suffix "[]" ht]
    rfl
  | unary dst op x tag =>
    obtain ⟨hd, hop, hx, ht⟩ := h
    rw [Quad.line, toQuad_assign hd, assignQuad_unary hx, unaryQuad, splitOp_suffix op ht]
    rcases hop with rfl | rfl <;> rfl
  | binary cls dst op x y tag =>
    obtain ⟨hd, hop, hx, hy, ht⟩ := h
    rw [Quad.line, toQuad_assign hd, assignQuad_binary hx hy, binaryQuad_lexeme hop ht]
  | cast dst x tag =>
    rw [Quad.line, toQuad_assign h.1, assignQuad, toTemp_text h.2.1]
    rfl
  | arg x tag =>
    rw [Quad.line, toQuad, toTemp_text h.1]
    rfl
  | call dst callee tag args =>
    obtain ⟨hd, hc, -, hargs⟩ := h
    rw [Quad.line, toQuad_assign hd, assignQuad, toTemp_text hc, mapM_toTemp hargs]
    simp [bind, Except.bind, pure, Except.pure]
  | condJump cond target =>
    rw [Quad.line, toQuad, toTemp_text h.1, toTarget_text h.2]
    rfl
  | jump target =>
    rw [Quad.line, toQuad, toTarget_text h]
    rfl
  | branch => cases hu
  | label n =>
    have hl : toTarget (labelName n) = .ok (.label n) := toTarget_text (t := .label n) h
    rw [Quad.line, toQuad, hl]
    rfl
  | patch b l => rw [Quad.line, toQuad, toPatch_text h.1 h.2]
  | ret val tag =>
    cases val with
    | none => rfl
    | some x =>
      rw [Quad.line, Option.map_some, toQuad, toTemp_text (h.1 x rfl)]
      rfl

end Line

/-! ### Lines and sources -/

theorem length_le_utf8ByteSize (s : String) : s.toList.length ≤ s.utf8ByteSize := by
  obtain ⟨cs, rfl⟩ : ∃ cs, s = String.ofList cs := ⟨_, String.ofList_toList.symm⟩
  rw [String.toList_ofList]
  induction cs with
  | nil => rfl
  | cons c cs ih =>
    have hpos := c.utf8Size_pos
    rw [String.ofList_cons, String.utf8ByteSize_append, String.utf8ByteSize_singleton, length_cons]
    omega

theorem length_le_length_flatMap (args : List Temp) :
    args.length ≤ (args.flatMap fun a => ' ' :: a.text.toList).length := by
  induction args with
  | nil => rfl
  | cons a args ih =>
    simp only [flatMap_cons, length_append, length_cons]
    omega

theorem Quad.inRange_args {callee : Temp}
    (h : (Quad.call dst callee tag args).text.utf8ByteSize < 1024 * 1024) :
    InRange args.length := by
  have hlist := length_le_length_flatMap args
  have hline : (args.flatMap fun a => ' ' :: a.text.toList).length ≤
      (Quad.call dst callee tag args).text.toList.length := by
    simp [Quad.text, assignText, flatMap_map]
    omega
  have hsize := length_le_utf8ByteSize (Quad.call dst callee tag args).text
  constructor <;> omega

theorem readQuad_text (h : q.Writable) (hu : q.unfused = [q])
    (hsize : q.text.utf8ByteSize < 1024 * 1024) : readQuad q.text.toList = .ok q := by
  obtain ⟨us, hus, hfilter⟩ := tokenize_spaced (Quad.separable_tokens h)
  have hform : Line.ofTokens q.tokens = .ok (q.line, []) :=
    Line.ofTokens_tokens h hu fun dst callee tag args hq => Quad.inRange_args (hq ▸ hsize)
  have hread : Line.read q.text.toList = .ok q.line := by
    rw [Line.read, Quad.toList_text_eq hu, hus]
    simp [hfilter, hform, bind, Except.bind, pure, Except.pure]
  rw [readQuad, hread]
  exact Line.toQuad_line h hu

theorem writeCode_cons (q : Quad) (code : List Quad) :
    (writeCode (q :: code)).toList = q.text.toList ++ '\n' :: (writeCode code).toList := by
  simp [writeCode]

theorem writeCode_unfused (code : List Quad) :
    (writeCode (code.flatMap Quad.unfused)).toList = (writeCode code).toList := by
  induction code with
  | nil => rfl
  | cons q code ih =>
    rcases Quad.unfused_eq q with hq | ⟨cond, a, b, rfl⟩
    · rw [flatMap_cons, hq, singleton_append, writeCode_cons, writeCode_cons, ih]
    · rw [flatMap_cons, Quad.unfused, cons_append, singleton_append, writeCode_cons,
        writeCode_cons, writeCode_cons, ih]
      simp [Quad.text]

theorem readLines_spaced {t : Token} (ht : Separable t) (hts : ∀ u ∈ ts, Compact u)
    (htext : text.toList = Token.spaced (t :: ts)) (hsize : text.utf8ByteSize < 1024 * 1024)
    (file : String) (line : Nat) (done : List Quad)
    (rest : List String) : readLines file line done (text :: rest) = match readQuad text.toList with
      | .ok q => readLines file (line + 1) (q :: done) rest
      | .error fault => .error (.malformed file line fault) := by
  obtain ⟨c, cs, hstart, -, hcomment⟩ := start_spaced ht ts
  have hlimit : ¬ maxLineBytes < text.utf8ByteSize := by
    unfold maxLineBytes
    omega
  have hspeaks : ((c :: cs).isEmpty || (c :: cs).head? == some '#') = false := by simp [hcomment]
  rw [readLines, if_neg hlimit, htext, trimBlanks_spaced ht hts, hstart]
  exact if_neg (by rw [hspeaks]; exact Bool.false_ne_true)

theorem readLines_text (h : q.Writable) (hu : q.unfused = [q])
    (hsize : q.text.utf8ByteSize < 1024 * 1024) (file : String) (line : Nat) (done : List Quad)
    (rest : List String) :
    readLines file line done (q.text :: rest) = readLines file (line + 1) (q :: done) rest := by
  have hsep := Quad.separable_tokens h
  have htext := Quad.toList_text_eq hu
  cases htokens : q.tokens with
  | nil => exact absurd htokens (Quad.tokens_ne_nil hu)
  | cons t ts =>
    rw [htokens] at hsep htext
    obtain ⟨ht, hts⟩ := forall_mem_cons.1 hsep
    rw [readLines_spaced ht (fun u hu => (hts u hu).toCompact) htext hsize,
      readQuad_text h hu hsize]

theorem readLines_writeCode {code : List Quad} (hw : ∀ q ∈ code, q.Writable)
    (hu : ∀ q ∈ code, q.unfused = [q])
    (hsize : ∀ q ∈ code, q.text.utf8ByteSize < 1024 * 1024) (file : String) (line : Nat)
    (done : List Quad) :
    readLines file line done (((writeCode code).toList.splitOn '\n').map String.ofList) =
      .ok (done.reverse ++ code) := by
  induction code generalizing line done with
  | nil => simp [writeCode, readLines, Text.trimBlanks]
  | cons q code ih =>
    have hq := Quad.separable_tokens (hw q (by simp))
    have hline : '\n' ∉ q.text.toList := by
      rw [Quad.toList_text_eq (hu q (by simp))]
      exact newline_notMem_spaced fun t ht => (hq t ht).toCompact
    rw [writeCode_cons, splitOn_append_cons_self_of_not_mem hline, map_cons,
      String.ofList_toList, readLines_text (hw q (by simp)) (hu q (by simp)) (hsize q (by simp)),
      ih (fun r hr => hw r (by simp [hr])) (fun r hr => hu r (by simp [hr]))
        (fun r hr => hsize r (by simp [hr]))]
    simp

/-- Reading undoes writing: a source written from writable instructions, none of whose lines
reaches the limit of 1 MiB, is read without error, and to the instructions it was written from,
each branch replaced by its conditional jump and its jump. -/
theorem readCode_writeCode (file : String) (code : List Quad) (hw : ∀ q ∈ code, q.Writable)
    (hsize : ∀ q ∈ code.flatMap Quad.unfused, q.text.utf8ByteSize < 1024 * 1024) :
    readCode file (writeCode code) = .ok (code.flatMap Quad.unfused) := by
  have hunfused : ∀ r ∈ code.flatMap Quad.unfused, r.Writable ∧ r.unfused = [r] := by
    intro r hr
    obtain ⟨q, hq, hr⟩ := List.mem_flatMap.1 hr
    exact ⟨(hw q hq).of_mem_unfused hr, Quad.unfused_of_mem_unfused hr⟩
  rw [readCode, ← writeCode_unfused,
    readLines_writeCode (fun r hr => (hunfused r hr).1) (fun r hr => (hunfused r hr).2) hsize]
  rfl

/-- A function whose names look like labels, temporaries and keywords, with constants, a string
and a branch. -/
def lookalikes : List Quad :=
  [.globalDecl ⟨"L2", .double, 8⟩, .funcBegin "t1" .int, .formalDecl ⟨"t.x", .int, 4⟩,
    .const ⟨1⟩ "-7" .int, .const ⟨2⟩ "-2.5e-3" .double, .string ⟨3⟩ "\\\"# \\\\",
    .ref ⟨4⟩ .stack "global" (-8), .call ⟨5⟩ ⟨4⟩ .double [⟨1⟩, ⟨3⟩], .branch ⟨5⟩ (.label 1) (.blank 2),
    .label 1, .patch 2 1, .ret none .int, .funcEnd]

theorem writable_lookalikes : ∀ q ∈ lookalikes, q.Writable := by
  have hfloat : IsFloatWord "-2.5e-3".toList :=
    .inr ⟨['2', '.', '5', 'e', '-', '3'], rfl, ['2'], by decide, .inl ⟨['5'], ['e', '-', '3'],
      by decide, .inr ⟨'e', ['-'], ['3'], by decide, by decide, by decide, rfl⟩, rfl⟩⟩
  have hstring : IsStringBody "\\\"# \\\\".toList :=
    .escaped (by decide) (.plain (by decide) (by decide) (by decide)
      (.plain (by decide) (by decide) (by decide) (.escaped (by decide) .nil)))
  have hint : IsIntWord "-7".toList := .inr ⟨['7'], rfl, by decide⟩
  simp only [lookalikes, forall_mem_cons, not_mem_nil, false_implies, implies_true,
    and_true, Quad.Writable]
  refine ⟨by decide, by decide, by decide, ⟨by decide, .inl ⟨trivial, hint⟩⟩,
    ⟨by decide, .inr ⟨trivial, hfloat⟩⟩, ⟨by decide, hstring⟩, by decide, by decide, by decide,
    by decide, by decide, by decide⟩

theorem lookalikes_read_back :
    (∀ q ∈ lookalikes, q.Writable) ∧
      readCode "lookalikes" (writeCode lookalikes) = .ok (lookalikes.flatMap Quad.unfused) :=
  ⟨writable_lookalikes, readCode_writeCode "lookalikes" lookalikes writable_lookalikes
    (by decide +kernel)⟩

end Quadruple
