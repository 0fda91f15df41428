import Mathlib.Data.List.Basic
import Quadruple.Settings.Basic

/-!
# Flags that set warnings

Main statement: `warnings_of_processFlags`.
-/

namespace Quadruple.Settings

open List

/-- Whether a flag enables or disables what `name` stands for. -/
def said? (name flag : String) : Option Bool :=
  if flag ∈ ["W" ++ name, "-W" ++ name] then some true
  else if flag ∈ ["Wno-" ++ name, "-Wno-" ++ name] then some false
  else none

def lastSaid? (name : String) (flags : List String) : Option Bool :=
  flags.reverse.findSome? (said? name)

def IsFlag (flag : String) : Prop := ∃ rest, flag ∈ ["W" ++ rest, "-W" ++ rest]

def Unknown (flag : String) : Prop :=
  said? "all" flag = none ∧ ∀ w ∈ Warning.all, said? w.name flag = none

variable {s s' : Settings} {w : Warning} {flag name : String} {flags : List String}

/-! ## One flag -/

theorem stripLead?_eq_some_iff {lead text rest : String} :
    stripLead? lead text = some rest ↔ text = lead ++ rest := by
  unfold stripLead?
  rw [Option.ite_none_right_eq_some, isPrefixOf_iff_prefix, Option.some_inj, ← String.toList_inj,
    ← String.toList_inj]
  constructor
  · rintro ⟨⟨cs, hcs⟩, hrest⟩
    simpa [← hcs, ← String.length_toList] using hrest
  · intro h
    simp [h, ← String.length_toList]

/-- A flag speaks of the name that it splits into, and of no other. -/
theorem said?_eq (h : IsFlag flag) (hname : stripLead? "no-" name = none) :
    said? name flag = if (splitFlag flag).1 = name then some (splitFlag flag).2 else none := by
  obtain ⟨rest, hflag⟩ := h
  simp only [mem_cons, not_mem_nil, or_false] at hflag
  have hsaid : said? name flag =
      if rest = name then some true else if rest = "no-" ++ name then some false else none := by
    rcases hflag with rfl | rfl <;> simp [said?, ← String.toList_inj]
  have hstrip : stripLead "W" (stripLead "-" flag) = rest := by
    have hdash : stripLead "-" flag = "W" ++ rest := by
      rcases hflag with rfl | rfl
      · simp [stripLead, stripLead?]
      · have hsplit : stripLead? "-" ("-W" ++ rest) = some ("W" ++ rest) :=
          stripLead?_eq_some_iff.2 (by simp [← String.toList_inj])
        rw [stripLead, hsplit, Option.getD_some]
    rw [hdash, stripLead, stripLead?_eq_some_iff.2 rfl, Option.getD_some]
  rw [hsaid, splitFlag, hstrip]
  cases hno : stripLead? "no-" rest with
  | none =>
    have hne : rest ≠ "no-" ++ name := fun h => by cases hno.symm.trans (stripLead?_eq_some_iff.2 h)
    rw [if_neg hne]
  | some r =>
    obtain rfl := stripLead?_eq_some_iff.1 hno
    have hne : "no-" ++ r ≠ name := fun h => by
      cases hname.symm.trans (stripLead?_eq_some_iff.2 h.symm)
    simp [hne]

theorem isAllFlag_eq : isAllFlag = fun flag => (said? "all" flag).isSome := by
  funext flag
  have happend : "W" ++ "all" = "Wall" ∧ "-W" ++ "all" = "-Wall" ∧ "Wno-" ++ "all" = "Wno-all" ∧
      "-Wno-" ++ "all" = "-Wno-all" := by decide
  unfold said? isAllFlag
  simp only [happend, mem_cons, not_mem_nil, or_false]
  split <;> [skip; split] <;> simp_all <;> tauto

theorem name_facts : stripLead? "no-" "all" = none ∧ ∀ w ∈ Warning.all,
    stripLead? "no-" w.name = none ∧ "all" ≠ w.name ∧
      ∀ v ∈ Warning.all, v.name = w.name → v = w := by decide +kernel

/-- The settings `s'` are `s` with the warnings as they are said to be. -/
def Sets (s s' : Settings) (said : Warning → Option Bool) : Prop :=
  s' = { s with warnings := s'.warnings } ∧
    ∀ w ∈ Warning.all, s'.warnings.isEnabled w = (said w).getD (s.warnings.isEnabled w)

theorem Sets.trans {s1 : Settings} {a b : Warning → Option Bool} (h : Sets s s1 a)
    (h' : Sets s1 s' b) : Sets s s' fun w => (b w).or (a w) := by
  refine ⟨h'.1.trans (congrArg (fun t : Settings => { t with warnings := s'.warnings }) h.1),
    fun w hw => ?_⟩
  rw [h'.2 w hw, h.2 w hw]
  cases hb : b w <;> simp [hb]

theorem isEnabled_set {v : Warning} (hv : v ∈ Warning.all) (f : WarningFlags) (on : Bool) :
    (f.set v on).isEnabled w = if v = w then on else f.isEnabled w := by
  cases v <;> cases w <;> simp_all [Warning.all, WarningFlags.set, WarningFlags.isEnabled]

theorem applyFlag_cases (h : IsFlag flag) (s : Settings) :
    (∃ s', s.applyFlag flag = .ok s' ∧ ¬Unknown flag ∧
      Sets s s' fun w => (said? w.name flag).or (said? "all" flag)) ∨
    ∃ e, s.applyFlag flag = .error e ∧ Unknown flag := by
  have hall := said?_eq h name_facts.1
  have hsaid := fun w hw => said?_eq h (name_facts.2 w hw).1
  unfold Unknown Sets
  rw [hall]
  simp only [applyFlag]
  generalize splitFlag flag = p at hall hsaid ⊢
  obtain ⟨name, on⟩ := p
  by_cases hname : name = "all"
  · refine .inl ⟨_, if_pos hname, by simp [hname], rfl, fun w hw => ?_⟩
    rw [hsaid w hw, if_neg (hname ▸ (name_facts.2 w hw).2.1), if_pos hname]
    simp only [Warning.all, mem_cons, not_mem_nil, or_false] at hw
    rcases hw with rfl | rfl | rfl | rfl <;> rfl
  · rw [if_neg hname, if_neg hname]
    cases hv : Warning.ofName? name with
    | none =>
      refine .inr ⟨_, rfl, rfl, fun w hw => ?_⟩
      have hne := find?_eq_none.1 hv w hw
      rw [hsaid w hw, if_neg fun h => hne (by simpa using h.symm)]
    | some v =>
      have hmem := mem_of_find?_eq_some hv
      obtain rfl : v.name = name := by simpa using find?_some hv
      refine .inl ⟨_, rfl, fun hunknown => ?_, rfl, fun w hw => ?_⟩
      · have hnone := hunknown.2 v hmem
        simp [hsaid v hmem] at hnone
      · refine (isEnabled_set hmem _ _).trans ?_
        rw [hsaid w hw, Option.or_none]
        by_cases hvw : v = w
        · simp [hvw]
        · rw [if_neg hvw, if_neg (mt ((name_facts.2 w hw).2.2 v hmem) hvw), Option.getD_none]

/-! ## Lists of flags -/

theorem applyFlags_cases (flags : List String) (hflags : ∀ f ∈ flags, IsFlag f) (s : Settings) :
    ((s.applyFlags flags).2 = none ↔ ∀ f ∈ flags, ¬Unknown f) ∧
    ((s.applyFlags flags).2 = none → Sets s (s.applyFlags flags).1 fun w =>
      flags.reverse.findSome? fun f => (said? w.name f).or (said? "all" f)) := by
  induction flags generalizing s with
  | nil => exact ⟨by simp [applyFlags], fun _ => ⟨rfl, fun _ _ => rfl⟩⟩
  | cons f fs ih =>
    obtain ⟨hf, hfs⟩ := forall_mem_cons.1 hflags
    rcases applyFlag_cases hf s with ⟨s1, h1, hknown, hset⟩ | ⟨e, he, hunknown⟩
    · have hrun : s.applyFlags (f :: fs) = s1.applyFlags fs := by rw [applyFlags, h1]
      rw [hrun]
      obtain ⟨hiff, hsets⟩ := ih hfs s1
      refine ⟨by simp [hiff, hknown], fun hnone => ?_⟩
      simpa [findSome?_append] using hset.trans (hsets hnone)
    · have hrun : s.applyFlags (f :: fs) = (s, some e) := by rw [applyFlags, he]
      rw [hrun]
      exact ⟨by simp [hunknown], nofun⟩

theorem findSome?_filter {p : String → Bool} {g g' : String → Option Bool}
    (hp : ∀ f ∈ flags, p f = true → g' f = g f) (hn : ∀ f ∈ flags, p f = false → g f = none) :
    (flags.filter p).findSome? g' = flags.findSome? g := by
  induction flags with
  | nil => rfl
  | cons f fs ih =>
    obtain ⟨hpf, hp⟩ := forall_mem_cons.1 hp
    obtain ⟨hnf, hn⟩ := forall_mem_cons.1 hn
    rw [filter_cons, findSome?_cons, ← ih hp hn]
    cases hf : p f with
    | true => simp [hpf hf, findSome?_cons]
    | false => simp [hnf hf]

/-- A specific flag and one for all warnings are never the same. -/
theorem said?_eq_none_of_all (h : IsFlag flag) (hw : w ∈ Warning.all)
    (hall : (said? "all" flag).isSome = true) : said? w.name flag = none := by
  rw [said?_eq h name_facts.1] at hall
  have hname : (splitFlag flag).1 = "all" := by simpa using hall
  rw [said?_eq h (name_facts.2 w hw).1, if_neg (hname ▸ (name_facts.2 w hw).2.1)]

/-- The flags for all warnings are always understood, so the specific ones get their turn. -/
theorem exists_processFlags_eq (hflags : ∀ f ∈ flags, IsFlag f) (s : Settings) :
    ∃ s1, (Sets s s1 fun _ => lastSaid? "all" flags) ∧
      s.processFlags flags = s1.applyFlags (flags.filter fun f => (said? "all" f).isNone) := by
  obtain ⟨hiff, hsets⟩ := applyFlags_cases (flags.filter fun f => (said? "all" f).isSome)
    (fun f hf => hflags f (mem_of_mem_filter hf)) s
  have hnone := hiff.2 fun f hf hunknown => by simp [hunknown.1] at hf
  obtain ⟨hs, hset⟩ := hsets hnone
  refine ⟨_, ⟨hs, fun w hw => (hset w hw).trans ?_⟩, ?_⟩
  · rw [← filter_reverse, lastSaid?]
    congr 1
    refine findSome?_filter (fun f hf hp => ?_) (by simp)
    rw [said?_eq_none_of_all (hflags f (mem_reverse.1 hf)) hw hp, Option.none_or]
  · simp only [processFlags, isAllFlag_eq, Option.not_isSome]
    rw [show s.applyFlags _ = (_, none) from Prod.ext rfl hnone]

/-- The last flag that names a warning decides on it, and the last that says `all` where none does.
Only the order among flags for `all` and the order among the others matter. Flags fail exactly if
one of them names no warning. -/
theorem warnings_of_processFlags (s : Settings) (flags : List String)
    (hflags : ∀ f ∈ flags, IsFlag f) :
    ((s.processFlags flags).2 = none → Sets s (s.processFlags flags).1 fun w =>
      (lastSaid? w.name flags).or (lastSaid? "all" flags)) ∧
    (∀ flags', (flags'.filter fun f => (said? "all" f).isSome) =
        (flags.filter fun f => (said? "all" f).isSome) →
      (flags'.filter fun f => (said? "all" f).isNone) =
        (flags.filter fun f => (said? "all" f).isNone) →
      s.processFlags flags' = s.processFlags flags) ∧
    ((s.processFlags flags).2 ≠ none ↔ ∃ f ∈ flags, Unknown f) := by
  obtain ⟨s1, hset1, hrun⟩ := exists_processFlags_eq hflags s
  obtain ⟨hiff, hsets⟩ := applyFlags_cases (flags.filter fun f => (said? "all" f).isNone)
    (fun f hf => hflags f (mem_of_mem_filter hf)) s1
  rw [← hrun] at hiff hsets
  refine ⟨fun hnone => ?_, fun flags' hsome hnone => ?_, ?_⟩
  · obtain ⟨hs, hset⟩ := hset1.trans (hsets hnone)
    refine ⟨hs, fun w hw => (hset w hw).trans ?_⟩
    dsimp only
    rw [← filter_reverse]
    congr 2
    refine findSome?_filter (fun f hf hp => ?_) (fun f hf hp => ?_)
    · rw [Option.isNone_iff_eq_none.1 hp, Option.or_none]
    · exact said?_eq_none_of_all (hflags f (mem_reverse.1 hf)) hw (by simpa using hp)
  · simp only [processFlags, isAllFlag_eq, Option.not_isSome, hsome, hnone]
  · rw [Ne, hiff]
    push Not
    exact exists_congr fun f => and_congr_left fun hunknown => by simp [hunknown.1]

def lateAll : List String := ["-Wno-extra", "Wtype", "-Wno-type", "-Wno-all", "Wextra", "-Wall"]

/-- The flag for all warnings comes last and is overruled. -/
theorem lateAll_warnings : (∀ f ∈ lateAll, IsFlag f) ∧ (processFlags {} lateAll).2 = none ∧
    (processFlags {} lateAll).1.warnings.isEnabled .type = false ∧
    (processFlags {} lateAll).1.warnings.isEnabled .implicitDecl = true := by
  have hflags : ∀ f ∈ lateAll, IsFlag f := by
    simp only [lateAll, forall_mem_cons, not_mem_nil, false_imp_iff, implies_true, and_true]
    exact ⟨⟨"no-extra", by decide⟩, ⟨"type", by decide⟩, ⟨"no-type", by decide⟩,
      ⟨"no-all", by decide⟩, ⟨"extra", by decide⟩, ⟨"all", by decide⟩⟩
  have hnone : (processFlags {} lateAll).2 = none := by decide +kernel
  obtain ⟨-, hset⟩ := (warnings_of_processFlags {} lateAll hflags).1 hnone
  refine ⟨hflags, hnone, (hset .type (by decide)).trans ?_,
    (hset .implicitDecl (by decide)).trans ?_⟩ <;> decide +kernel

end Quadruple.Settings
