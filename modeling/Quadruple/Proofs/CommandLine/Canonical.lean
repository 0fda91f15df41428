import Mathlib
import Quadruple.CommandLine.Flags

/-!
# Command lines that are read back

A setting gives a flag a value and is written in one argument or in two. Main statement:
`parse_settings`. What the values and the other arguments look like makes no difference.
-/

namespace Quadruple.CommandLine

open List

structure Setting where
  name : String
  value : String
  /-- Written as `--name=value`, and else as `--name value`. -/
  glued : Bool

def Setting.args (x : Setting) : List String :=
  if x.glued then ["--" ++ x.name ++ "=" ++ x.value] else ["--" ++ x.name, x.value]

/-- What a value becomes that is set from a text. -/
def FlagValue.read : FlagValue → String → FlagValue
  | .text _, s => .text s
  | .switch _, s => .switch (s = "" || readSwitch? s = some true)
  | .number _, s => .number (Numeral.readDecimal s).value
  | .items l, s => .items (l ++ [s])

/-- What a value becomes by `values`, one after the other: a list gets them all, and of all else the
last one stays. -/
def FlagValue.after (v : FlagValue) (values : List String) : FlagValue :=
  match v with
  | .items l => .items (l ++ values)
  | v => (values.getLast?.map v.read).getD v

def FlagValue.Accepts (v : FlagValue) (s : String) : Prop := ∃ w, v.set s = .ok w

/-- The flags after the settings: each has the values that are meant for it. -/
def Flags.afterAll (fs : Flags) (xs : List Setting) : List Flag :=
  fs.flags.map fun f =>
    { f with value := f.value.after ((xs.filter (·.name == f.name)).map Setting.value) }

/-- The flags have different names, and no name is empty or has an equals sign in it. -/
structure Flags.Named (fs : Flags) : Prop where
  nodup : (fs.flags.map Flag.name).Nodup
  plain : ∀ name ∈ fs.flags.map Flag.name, name ≠ "" ∧ '=' ∉ name.toList

/-- A setting of a flag with a value that the flag takes. A switch takes none from another
argument. -/
def Setting.Accepted (fs : Flags) (x : Setting) : Prop :=
  ∃ f ∈ fs.flags, f.name = x.name ∧ f.value.Accepts x.value ∧
    (x.glued = false → f.value.isSwitch = false)

variable {fs : Flags} {f : Flag} {v w : FlagValue} {name s : String} {x : Setting}

/-! ## Values -/

theorem FlagValue.eq_read_of_set (h : v.set s = .ok w) : w = v.read s := by
  cases v with
  | text | items =>
    cases h
    rfl
  | switch on =>
    simp only [set] at h
    split at h
    · cases h
      simp_all [read]
    · split at h <;> cases h
      next b hb => cases b <;> simp_all [read]
  | number n =>
    simp only [set] at h
    split at h <;> cases h
    rfl

theorem FlagValue.after_cons (v : FlagValue) (s : String) (values : List String) :
    v.after (s :: values) = (v.read s).after values := by
  rcases values.eq_nil_or_concat with rfl | ⟨ys, y, rfl⟩
  · cases v <;> simp [after, read]
  · have hlast : (s :: (ys ++ [y])).getLast? = some y := by rw [← cons_append, getLast?_concat]
    cases v <;> simp [after, read, hlast]

/-- What a value takes depends on its kind, which stays. -/
theorem FlagValue.Accepts.read {t : String} (h : v.Accepts t) (s : String) :
    (v.read s).Accepts t := by
  obtain ⟨w, hw⟩ := h
  cases v with
  | items l => exact ⟨_, rfl⟩
  | _ => exact ⟨w, hw⟩

theorem FlagValue.isSwitch_read (v : FlagValue) (s : String) :
    (v.read s).isSwitch = v.isSwitch := by cases v <;> rfl

/-! ## One setting -/

theorem cutEquals_append (hname : '=' ∉ name.toList) (value : String) :
    cutEquals (name ++ "=" ++ value) = (name, some value) := by
  have hall : ∀ c ∈ name.toList, (c != '=') = true := fun c hc => by
    simpa using ne_of_mem_of_not_mem hc hname
  have hlist : (name ++ "=" ++ value).toList = name.toList ++ '=' :: value.toList := by simp
  simp only [cutEquals, hlist, dropWhile_append_of_pos hall, takeWhile_append_of_pos hall]
  simp

theorem cutEquals_of_free (hname : '=' ∉ name.toList) : cutEquals name = (name, none) := by
  have hdrop : name.toList.dropWhile (· != '=') = [] := dropWhile_eq_nil_iff.2 fun c hc => by
    simpa using ne_of_mem_of_not_mem hc hname
  simp only [cutEquals, hdrop]

theorem form_dashes {body : String} (h : body ≠ "") : form ("--" ++ body) = .option "--" body := by
  have hlist : ("--" ++ body).toList = '-' :: '-' :: body.toList := by simp
  rw [form, hlist]
  cases hb : body.toList with
  | nil => exact absurd (String.toList_inj.1 hb) h
  | cons c cs =>
    rw [← String.ofList_toList (s := body), hb]
    rfl

theorem Flags.Named.find? (h : fs.Named) (hf : f ∈ fs.flags) : fs.find? f.name = some f := by
  obtain ⟨g, hg⟩ : ∃ g, fs.find? f.name = some g :=
    Option.isSome_iff_exists.1 (find?_isSome.2 ⟨f, hf, by simp⟩)
  have hname : g.name = f.name := by simpa using find?_some hg
  rw [hg, inj_on_of_nodup_map h.nodup (mem_of_find?_eq_some hg) hf hname]

/-- The flags with the text `s` given to one of them. -/
def Flags.put (fs : Flags) (x : Setting) : Flags :=
  { fs with flags := fs.flags.map fun g =>
      if g.name == x.name then { g with value := g.value.read x.value } else g }

theorem set_eq_put (h : fs.Named) (hf : f ∈ fs.flags) (hx : f.name = x.name)
    (haccepts : f.value.Accepts x.value) : fs.set f x.value = .ok (fs.put x) := by
  obtain ⟨v, hv⟩ := haccepts
  obtain rfl := FlagValue.eq_read_of_set hv
  rw [Flags.set, hv]
  refine congrArg (fun l => Except.ok { fs with flags := l }) (map_congr_left fun g hg => ?_)
  by_cases hname : g.name = f.name
  · rw [inj_on_of_nodup_map h.nodup hg hf hname, hx]
  · simp [hname, hx ▸ hname]

theorem parseFrom_setting (h : fs.Named) (hx : x.Accepted fs) (more : List String) :
    fs.parseFrom (x.args ++ more) = (fs.put x).parseFrom more := by
  obtain ⟨f, hf, hname, haccepts, hglued⟩ := hx
  have hput := set_eq_put h hf hname haccepts
  have hfind := h.find? hf
  obtain ⟨hne, hfree⟩ := h.plain _ (mem_map_of_mem hf)
  rw [hname] at hfind hne hfree
  cases hg : x.glued with
  | true =>
    have hbody : x.name ++ "=" ++ x.value ≠ "" := by simp
    have huse : fs.use "--" (x.name ++ "=" ++ x.value) =
        .ok ⟨f, "--" ++ x.name, some x.value⟩ := by
      simp [Flags.use, cutEquals_append hfree, hfind]
    rw [Setting.args, hg, if_pos rfl, singleton_append, Flags.parseFrom,
      show "--" ++ x.name ++ "=" ++ x.value = "--" ++ (x.name ++ "=" ++ x.value) by
        simp only [String.append_assoc], form_dashes hbody]
    simp only [huse, hput]
  | false =>
    have huse : fs.use "--" x.name = .ok ⟨f, "--" ++ x.name, none⟩ := by
      simp [Flags.use, cutEquals_of_free hfree, hfind, hglued hg]
    rw [Setting.args, hg, if_neg (by simp), cons_append, Flags.parseFrom, form_dashes hne]
    simp only [huse, singleton_append, hput]

/-! ## Command lines -/

theorem Flags.Named.put (h : fs.Named) (x : Setting) : (fs.put x).Named := by
  have hnames : (fs.put x).flags.map Flag.name = fs.flags.map Flag.name := by
    simp only [Flags.put, map_map]
    refine map_congr_left fun g _ => ?_
    simp only [Function.comp_apply]
    split <;> rfl
  exact ⟨hnames ▸ h.nodup, hnames ▸ h.plain⟩

theorem Setting.Accepted.put (hx : x.Accepted fs) (y : Setting) : x.Accepted (fs.put y) := by
  obtain ⟨f, hf, hname, haccepts, hglued⟩ := hx
  refine ⟨_, mem_map_of_mem hf, ?_⟩
  split
  · exact ⟨hname, haccepts.read _, fun hg => by rw [FlagValue.isSwitch_read, hglued hg]⟩
  · exact ⟨hname, haccepts, hglued⟩

theorem afterAll_put (fs : Flags) (x : Setting) (xs : List Setting) :
    (fs.put x).afterAll xs = fs.afterAll (x :: xs) := by
  simp only [Flags.afterAll, Flags.put, map_map, Function.comp_def]
  refine map_congr_left fun f _ => ?_
  by_cases hname : x.name = f.name
  · simp [hname, FlagValue.after_cons]
  · simp [hname, Ne.symm hname]

theorem parseFrom_settings (h : fs.Named) {xs : List Setting} (hxs : ∀ x ∈ xs, x.Accepted fs)
    (more : List String) :
    fs.parseFrom (xs.flatMap Setting.args ++ more) =
      { fs with flags := fs.afterAll xs }.parseFrom more := by
  induction xs generalizing fs with
  | nil =>
    have hsame : fs.afterAll [] = fs.flags := by
      refine (map_congr_left fun f _ => ?_).trans (map_id _)
      cases f with | mk _ _ _ v => cases v <;> simp [FlagValue.after]
    rw [hsame, flatMap_nil, nil_append]
  | cons x xs ih =>
    obtain ⟨hx, hxs⟩ := forall_mem_cons.1 hxs
    rw [flatMap_cons, append_assoc, parseFrom_setting h hx,
      ih (h.put x) fun y hy => (hxs y hy).put x, afterAll_put]
    rfl

/-- Settings that are written out as arguments are read back, each of them, whatever their values
look like. What stands behind `--` is left as it is. -/
theorem parse_settings (fs : Flags) (hnodup : (fs.flags.map Flag.name).Nodup)
    (hplain : ∀ name ∈ fs.flags.map Flag.name, name ≠ "" ∧ '=' ∉ name.toList) (xs : List Setting)
    (hxs : ∀ x ∈ xs, x.Accepted fs) (rest : List String) :
    fs.parse (xs.flatMap Setting.args ++ "--" :: rest) =
      ({ fs with flags := fs.afterAll xs, args := rest }, none) := by
  have hnamed : Flags.Named { fs with args := [] } := ⟨hnodup, hplain⟩
  have hstop : form "--" = .stop := by decide +kernel
  rw [Flags.parse, parseFrom_settings hnamed hxs, Flags.parseFrom, hstop]
  simp [Flags.addArgs, Flags.afterAll]

def sampleFlags : Flags where
  flags := [.text "out" "o" "a.out" "" "", .switch "v" "" false "", .number "n" "" 3 "",
    .collecting "W" "" ""]
  shorts := [("o", "out")]
  collecting := ["W"]

def sampleSettings : List Setting :=
  [⟨"W", "--v", false⟩, ⟨"out", "-o=--", true⟩, ⟨"v", "", true⟩, ⟨"W", "all=", true⟩,
    ⟨"out", "--", false⟩]

/-- Values and arguments that look like flags. -/
theorem sampleSettings_read_back :
    (sampleFlags.flags.map Flag.name).Nodup ∧ (∀ x ∈ sampleSettings, x.Accepted sampleFlags) ∧
    sampleSettings.flatMap Setting.args ++ ["--", "-o", "--", "--v=no"] =
      ["--W", "--v", "--out=-o=--", "--v=", "--W=all=", "--out", "--", "--", "-o", "--", "--v=no"] ∧
    (sampleFlags.parse (sampleSettings.flatMap Setting.args ++ ["--", "-o", "--", "--v=no"])).2 =
      none ∧
    ((sampleFlags.parse
        (sampleSettings.flatMap Setting.args ++ ["--", "-o", "--", "--v=no"])).1.flags.map
      Flag.value) = [.text "--", .switch true, .number 3, .items ["--v", "all="]] := by
  have hfits : ∀ x ∈ sampleSettings, x.Accepted sampleFlags := by
    simp only [sampleSettings, forall_mem_cons, not_mem_nil, false_imp_iff, implies_true, and_true]
    exact ⟨⟨.collecting "W" "" "", by decide, rfl, ⟨_, rfl⟩, fun _ => rfl⟩,
      ⟨.text "out" "o" "a.out" "" "", by decide, rfl, ⟨_, rfl⟩, fun _ => rfl⟩,
      ⟨.switch "v" "" false "", by decide, rfl, ⟨_, rfl⟩, nofun⟩,
      ⟨.collecting "W" "" "", by decide, rfl, ⟨_, rfl⟩, fun _ => rfl⟩,
      ⟨.text "out" "o" "a.out" "" "", by decide, rfl, ⟨_, rfl⟩, fun _ => rfl⟩⟩
  have hread := parse_settings sampleFlags (by decide) (by decide) sampleSettings hfits
    ["-o", "--", "--v=no"]
  refine ⟨by decide, hfits, by decide +kernel, by rw [hread], ?_⟩
  rw [hread]
  decide +kernel

end Quadruple.CommandLine
