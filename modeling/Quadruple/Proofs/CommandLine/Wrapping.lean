import Mathlib.Data.List.Chain
import Quadruple.CommandLine.Help

/-!
# Wrapped texts

Wrapping loses no word, and it is greedy: a line ends only where the next word would not fit.
-/

namespace Quadruple

open List

namespace Text

variable {w : String} {run cs rest : List Char}

def IsWord (w : String) : Prop := w.toList ≠ [] ∧ ∀ c ∈ w.toList, isBlank c = false

theorem isWord_ofList (hrun : run ≠ []) (hsolid : ∀ c ∈ run, isBlank c = false) :
    IsWord (String.ofList run.reverse) := ⟨by simpa using hrun, by simpa using hsolid⟩

theorem isWord_of_mem_wordsFrom (hsolid : ∀ c ∈ run, isBlank c = false)
    (hw : w ∈ wordsFrom run cs) : IsWord w := by
  fun_induction wordsFrom run cs with
  | case1 => cases hw
  | case2 run hrun =>
    obtain rfl := mem_singleton.1 hw
    exact isWord_ofList (by simpa using hrun) hsolid
  | case3 run c cs _ _ ih => exact ih (by simp) hw
  | case4 run c cs _ hrun ih =>
    rcases mem_cons.1 hw with rfl | hw
    · exact isWord_ofList (by simpa using hrun) hsolid
    · exact ih (by simp) hw
  | case5 run c cs hc ih => exact ih (forall_mem_cons.2 ⟨by simpa using hc, hsolid⟩) hw

theorem wordsFrom_append (hsolid : ∀ c ∈ cs, isBlank c = false) :
    wordsFrom run (cs ++ rest) = wordsFrom (cs.reverse ++ run) rest := by
  induction cs generalizing run with
  | nil => rfl
  | cons c cs ih =>
    obtain ⟨hc, hcs⟩ := forall_mem_cons.1 hsolid
    rw [cons_append, wordsFrom, if_neg (by simp [hc]), ih hcs]
    simp

theorem IsWord.words_append (hw : IsWord w) (s : String) :
    words (w ++ " " ++ s) = w :: words s := by
  rw [words, String.toList_append, String.toList_append, append_assoc, wordsFrom_append hw.2]
  simp [wordsFrom, isBlank, hw.1, words]

theorem IsWord.words_eq (hw : IsWord w) : words w = [w] := by
  rw [words, ← append_nil w.toList, wordsFrom_append hw.2]
  simp [wordsFrom, hw.1]

theorem words_intercalate {ws : List String} (h : ∀ w ∈ ws, IsWord w) :
    words (" ".intercalate ws) = ws := by
  induction ws with
  | nil => rfl
  | cons w ws ih =>
    obtain ⟨hw, hws⟩ := forall_mem_cons.1 h
    cases ws with
    | nil => rw [String.intercalate_singleton, hw.words_eq]
    | cons => rw [String.intercalate_cons_cons, hw.words_append, ih hws]

end Text

namespace CommandLine

open Text (IsWord words words_intercalate)

variable {width : Int} {l w : String} {seen ws lines : List String}

/-- Words in lines, each line as long as the width allows. -/
structure Wrapped (width : Int) (ws lines : List String) : Prop where
  words_eq : lines.flatMap words = ws
  nonempty : ∀ l ∈ lines, l ≠ ""
  spaced : ∀ l ∈ lines, " ".intercalate (words l) = l
  fits : ∀ l ∈ lines, l.utf8ByteSize ≤ width ∨ (words l).length = 1
  greedy : lines.IsChain fun l next =>
    ∃ w ∈ (words next).head?, width < (l ++ " " ++ w).utf8ByteSize

theorem wrapped_singleton (hne : seen ≠ []) (hseen : ∀ w ∈ seen, IsWord w)
    (hfits : (" ".intercalate seen).utf8ByteSize ≤ width ∨ seen.length = 1) :
    Wrapped width seen [" ".intercalate seen] := by
  have hwords := words_intercalate hseen
  refine ⟨by simp [hwords], forall_mem_singleton.2 fun h => hne ?_, by simp [hwords],
    by simpa [hwords] using hfits, .singleton _⟩
  rw [← hwords, h]
  rfl

/-- Every line has a first word, and that of the first line is the first of all. -/
theorem Wrapped.head (h : Wrapped width (w :: ws) lines) :
    ∀ l ∈ lines.head?, w ∈ (words l).head? := by
  intro l hl
  obtain ⟨rest, rfl⟩ := head?_eq_some_iff.1 hl
  have hne : words l ≠ [] := fun hnil =>
    h.nonempty l mem_cons_self (by rw [← h.spaced l mem_cons_self, hnil]; rfl)
  have hhead : (words l ++ rest.flatMap words).head? = some w := congrArg head? h.words_eq
  rwa [head?_append_of_ne_nil _ hne] at hhead

theorem Wrapped.cons (hl : Wrapped width seen [l]) (h : Wrapped width (w :: ws) lines)
    (hw : width < (l ++ " " ++ w).utf8ByteSize) :
    Wrapped width (seen ++ w :: ws) (l :: lines) where
  words_eq := by rw [flatMap_cons, h.words_eq, ← hl.words_eq]; simp
  nonempty := forall_mem_cons.2 ⟨hl.nonempty l mem_cons_self, h.nonempty⟩
  spaced := forall_mem_cons.2 ⟨hl.spaced l mem_cons_self, h.spaced⟩
  fits := forall_mem_cons.2 ⟨hl.fits l mem_cons_self, h.fits⟩
  greedy := isChain_cons.2 ⟨fun next hnext => ⟨w, h.head next hnext, hw⟩, h.greedy⟩

/-- What is kept along the way: the unfinished line holds the words `seen`, and it fits. -/
theorem wrapped_wrapFrom (hne : seen ≠ []) (hsolid : ∀ w ∈ seen ++ ws, IsWord w)
    (hfits : (" ".intercalate seen).utf8ByteSize ≤ width ∨ seen.length = 1) :
    Wrapped width (seen ++ ws) (wrapFrom width (" ".intercalate seen) ws) := by
  induction ws generalizing seen with
  | nil => simpa [wrapFrom] using wrapped_singleton hne (by simpa using hsolid) hfits
  | cons w ws ih =>
    obtain ⟨hseen, hws⟩ := forall_mem_append.1 hsolid
    have hsize : (" ".intercalate seen ++ " " ++ w).utf8ByteSize =
        (" ".intercalate seen).utf8ByteSize + w.utf8ByteSize + 1 := by
      rw [String.utf8ByteSize_append, String.utf8ByteSize_append, Nat.add_right_comm]
      rfl
    rw [wrapFrom]
    split
    case isTrue hlong =>
      have hrest := @ih [w] (by simp) hws (.inr rfl)
      rw [String.intercalate_singleton] at hrest
      exact .cons (wrapped_singleton hne hseen hfits) hrest (by rw [hsize]; omega)
    case isFalse hshort =>
      have hline : " ".intercalate (seen ++ [w]) = " ".intercalate seen ++ " " ++ w := by
        rw [String.intercalate_append_of_ne_nil hne (by simp), String.intercalate_singleton]
      rw [← hline, append_cons]
      refine ih (by simp) (by simpa using hsolid) (.inl ?_)
      rw [hline, hsize]
      omega

/-- The lines of any text hold its words in order, each as full as the width allows. -/
theorem wrapped_wrap (width : Int) (text : String) :
    Wrapped width (words text) (wrap width text) := by
  have hsolid : ∀ w ∈ words text, IsWord w := fun w => Text.isWord_of_mem_wordsFrom (by simp)
  rw [wrap]
  cases hwords : words text with
  | nil => exact ⟨rfl, by simp, by simp, by simp, .nil⟩
  | cons w ws =>
    rw [hwords] at hsolid
    simpa using @wrapped_wrapFrom width [w] ws (by simp) hsolid (.inr rfl)

end CommandLine

end Quadruple
