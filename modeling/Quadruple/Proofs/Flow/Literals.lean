import Quadruple.Code.Reader
import Quadruple.Proofs.Ensures
import Quadruple.Proofs.Flow.Content
import Quadruple.Text.Escape

/-!
# Literals of a source

Main statement: `literalBytes_le_of_build`. The literals of a source that is read are parts of its
lines, so no literal of the flow graph is longer than a line may be.
-/

namespace Quadruple

open List

def Quad.literalBytes : Quad → Nat
  | .string _ text => text.utf8ByteSize
  | _ => 0

namespace Text

theorem length_unescape_le (bs : List UInt8) : (unescape bs).length ≤ bs.length := by
  fun_induction unescape bs with
  | case1 | case2 => exact le_rfl
  | case3 b bs ih =>
    simp only [length_cons]
    omega
  | case4 b c bs hb ih => exact Nat.succ_le_succ ih

theorem length_utf8Bytes (s : String) : (utf8Bytes s).length = s.utf8ByteSize := by
  have hloop : ∀ (bs : ByteArray) (i : Nat) (r : List UInt8),
      (ByteArray.toList.loop bs i r).length = (bs.size - i) + r.length := by
    intro bs i r
    fun_induction ByteArray.toList.loop bs i r with
    | case1 i r hi ih =>
      rw [ih, length_cons]
      omega
    | case2 i r hi =>
      rw [length_reverse]
      omega
  exact hloop s.toUTF8 0 []

theorem trimBlanks_sublist (cs : List Char) : (trimBlanks cs).Sublist cs := by
  refine Sublist.trans (reverse_sublist.1 ?_) (dropWhile_sublist isBlank)
  rw [trimBlanks, reverse_reverse]
  exact dropWhile_sublist isBlank

end Text

/-! ## Lines -/

theorem utf8ByteSize_le_of_sublist {as bs : List Char} (h : as.Sublist bs) :
    (String.ofList as).utf8ByteSize ≤ (String.ofList bs).utf8ByteSize := by
  rw [String.utf8ByteSize_ofList, String.utf8ByteSize_ofList]
  exact String.utf8Len_le_of_sublist h

variable {ts : List Token} {q : Quad} {code : List Quad}

variable {cs : List Char} {file : String}

theorem sublist_of_tokenizeFrom {done : List Token}
    (h : Token.tokenizeFrom done cs = .ok ts) : ∀ t ∈ ts, t ∈ done ∨ t.text.toList.Sublist cs := by
  fun_induction Token.tokenizeFrom done cs with
  | case1 done =>
    cases h
    exact fun t ht => .inl (mem_reverse.1 ht)
  | case2 => cases h
  | case3 done c rest kind n hscan ih =>
    intro t ht
    rcases ih h t ht with hdone | hsub
    · rcases mem_cons.1 hdone with rfl | hdone
      · refine .inr ?_
        rw [String.toList_ofList]
        exact take_sublist n (c :: rest)
      · exact .inl hdone
    · exact .inr ((hsub.trans (drop_sublist _ rest)).cons c)

namespace Line

def literal? : Line → Option String
  | .assign _ (.string text) => some text
  | _ => none

variable {rest : List Token} {text : String} {line : Line}

theorem literal_of_readRhs (h : readRhs ts = .ok (.string text, rest)) :
    ∃ t ∈ ts, t.text = text := by
  unfold readRhs at h
  split at h
  · cases h
  · next t ts =>
    split at h
    case h_6 =>
      cases h
      exact ⟨t, mem_cons_self, rfl⟩
    -- the other forms are none of a literal
    all_goals
      try simp only [readRef, readCall, readCast, readUnary, readBinary, bind, Except.bind, pure,
        Except.pure] at h
      repeat' split at h
    all_goals cases h

theorem literal?_readAssign {dst : String} (h : readAssign dst ts = .ok (line, rest))
    (hline : line.literal? = some text) : ∃ t ∈ ts, t.text = text := by
  obtain ⟨⟨assign, ts'⟩, hassign, h⟩ := exists_of_bind_ok h
  obtain ⟨⟨rhs, rest'⟩, hrhs, h⟩ := exists_of_bind_ok h
  cases h
  cases rhs with
  | string text' =>
    cases hline
    obtain ⟨t, ht, htext⟩ := literal_of_readRhs hrhs
    refine ⟨t, ?_, htext⟩
    unfold need at hassign
    split at hassign
    · cases hassign
    · split at hassign <;> cases hassign
      exact mem_cons_of_mem _ ht
  | _ => cases hline

theorem literal?_ofTokens (h : ofTokens ts = .ok (line, rest)) (hline : line.literal? = some text) :
    ∃ t ∈ ts, t.text = text := by
  unfold ofTokens at h
  split at h
  · cases h
  · next t ts =>
    split at h
    · cases h
      cases hline
    · obtain ⟨u, hu, htext⟩ := literal?_readAssign h hline
      exact ⟨u, mem_cons_of_mem t hu, htext⟩
    · split at h
      all_goals
        try simp only [readStmtBegin, readLabel, readJump, readCondJump, readArg, readRet, readFunc,
          readDecl, bind, Except.bind, pure, Except.pure] at h
        repeat' split at h
      all_goals cases h
      all_goals cases hline
    · cases h

theorem literal?_of_toQuad {dst : Temp} (h : line.toQuad = .ok (.string dst text)) :
    ∃ token, line.literal? = some token ∧
      text = unquote token := by
  cases line with
  | assign x rhs =>
    obtain ⟨t, -, h⟩ := exists_of_bind_ok h
    cases rhs with
    | string token =>
      cases h
      exact ⟨token, rfl, rfl⟩
    | _ =>
      simp only [assignQuad, unaryQuad, binaryQuad, bind, Except.bind, pure, Except.pure] at h
      repeat' split at h
      all_goals cases h
  | decl kind name tag width => cases kind <;> cases h
  | ret tag x => cases x with
    | none => cases h
    | some x =>
      obtain ⟨t, -, h⟩ := exists_of_bind_ok h
      cases h
  | _ =>
    simp only [toQuad, toPatch, bind, Except.bind, pure, Except.pure] at h
    repeat' split at h
    all_goals cases h

end Line

theorem literalBytes_readQuad (h : readQuad cs = .ok q) :
    q.literalBytes ≤ (String.ofList cs).utf8ByteSize := by
  cases q with
  | string dst text =>
    obtain ⟨line, hline, hq⟩ := exists_of_bind_ok h
    obtain ⟨token, htoken, rfl⟩ := Line.literal?_of_toQuad hq
    unfold Line.read at hline
    split at hline
    · cases hline
    · next ts hts =>
      obtain ⟨⟨line', rest⟩, hread, hrest⟩ := exists_of_bind_ok hline
      cases rest with
      | cons => cases hrest
      | nil =>
        cases hrest
        obtain ⟨t, ht, rfl⟩ := Line.literal?_ofTokens hread htoken
        have hsub := (sublist_of_tokenizeFrom hts t (mem_of_mem_filter ht)).resolve_left not_mem_nil
        refine utf8ByteSize_le_of_sublist (Sublist.trans ?_ hsub)
        exact (dropLast_sublist _).trans (drop_sublist 1 _)
  | _ => exact Nat.zero_le _

theorem literalBytes_readLines {line : Nat} {done : List Quad} {texts : List String}
    (hdone : ∀ q ∈ done, q.literalBytes ≤ maxLineBytes)
    (h : readLines file line done texts = .ok code) :
    ∀ q ∈ code, q.literalBytes ≤ maxLineBytes := by
  fun_induction readLines file line done texts with
  | case1 line done =>
    cases h
    exact fun q hq => hdone q (mem_reverse.1 hq)
  | case2 | case5 => cases h
  | case3 line done text rest hsize cs hskip ih => exact ih hdone h
  | case4 line done text rest hsize cs hskip q hq ih =>
    refine ih (forall_mem_cons.2 ⟨?_, hdone⟩) h
    calc q.literalBytes ≤ (String.ofList cs).utf8ByteSize := literalBytes_readQuad hq
      _ ≤ (String.ofList text.toList).utf8ByteSize :=
        utf8ByteSize_le_of_sublist (Text.trimBlanks_sublist text.toList)
      _ ≤ maxLineBytes := by
        rw [String.ofList_toList]
        exact Nat.le_of_not_lt hsize

/-! ## Graphs -/

namespace Flow

variable {r : Routine} {b : Block} {f : Func} {g : Graph}

theorem mem_of_mem_routinesFrom {cur : Option Routine} (hr : r ∈ routinesFrom cur code)
    (hq : q ∈ r.body) : q ∈ code ∨ ∃ c, cur = some c ∧ q ∈ c.body := by
  fun_induction routinesFrom cur code with
  | case1 => cases hr
  | case2 name tag qs ih =>
    rcases ih hr with hmem | ⟨c, hc, hmem⟩
    · exact .inl (mem_cons_of_mem _ hmem)
    · cases hc
      cases hmem
  | case3 p qs _ ih =>
    rcases ih hr with hmem | ⟨c, hc, -⟩
    · exact .inl (mem_cons_of_mem _ hmem)
    · cases hc
  | case4 c qs ih =>
    rcases mem_cons.1 hr with rfl | hr
    · exact .inr ⟨r, rfl, hq⟩
    · rcases ih hr with hmem | ⟨c, hc, -⟩
      · exact .inl (mem_cons_of_mem _ hmem)
      · cases hc
  | case5 c p qs _ ih =>
    rcases ih hr with hmem | ⟨c', hc, hmem⟩
    · exact .inl (mem_cons_of_mem _ hmem)
    · cases hc
      rcases mem_append.1 hmem with hmem | hmem
      · exact .inr ⟨c, rfl, hmem⟩
      · exact .inl (mem_singleton.1 hmem ▸ mem_cons_self)

theorem mem_of_builds {eqs : Equations} (h : r.Builds eqs f) (hb : b ∈ f.blocks) (hq : q ∈ b.quads)
    (hend : q.endsBlock = false) : q ∈ r.body := by
  obtain ⟨texts, htexts, qs, hqs, hres⟩ := (keeps_of_builds h).text
  obtain ⟨ts, hts, hbt⟩ := exists_of_forall₂ htexts.flip hb
  have hmem : q ∈ ts := by
    cases hbt with
    | labelled => exact mem_cons_of_mem _ hq
    | plain => exact hq
  obtain ⟨p, hp, hp'⟩ := hres.mem (mem_flatten.2 ⟨ts, hts, hmem⟩)
  obtain rfl := Quad.eq_of_resolve? hp' (fun _ _ _ h => by simp [h, Quad.endsBlock] at hend)
    (fun _ h => by simp [h, Quad.endsBlock] at hend)
  rcases mem_append.1 hp with hp | hp
  · exact mem_of_fuse? hqs (mem_of_mem_filter hp) hend
  · rw [mem_singleton.1 hp] at hend
    cases hend

theorem mem_of_build (hg : build code = .ok g) (hf : f ∈ g.funcs) (hb : b ∈ f.blocks)
    (hq : q ∈ b.quads) (hend : q.endsBlock = false) : q ∈ code := by
  obtain ⟨r, hr, hbuilds⟩ := exists_of_forall₂ (builds_of_build hg).2 hf
  exact (mem_of_mem_routinesFrom hr (mem_of_builds hbuilds hb hq hend)).resolve_right (by simp)

theorem literalBytes_le_of_build {source : String} (hcode : readCode file source = .ok code)
    (hg : build code = .ok g) :
    ∀ f ∈ g.funcs, ∀ b ∈ f.blocks, ∀ q ∈ b.quads, q.literalBytes ≤ maxLineBytes := by
  intro f hf b hb q hq
  cases q with
  | string dst text => exact literalBytes_readLines (by simp) hcode _ (mem_of_build hg hf hb hq rfl)
  | _ => exact Nat.zero_le _

end Flow

end Quadruple
