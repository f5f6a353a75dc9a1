import Mathlib.Data.Nat.Digits.Lemmas
import NzbDownloader.Nzb.MessageIds
import NzbDownloader.Web.Config

/-!
# The file of the settings

`app_config_load` and `app_config_save` of `config/config.c`.  The file has a line
`key=value` for each setting; the values are written as they are and read without the
blanks around them.
-/

namespace NzbDownloader.Web

open Lib Util Queue.Persist Nzb List

inductive Setting
  | text (f : TextField)
  | number (n : NumberField)
  deriving DecidableEq

def settingKeys : List (Name × Setting) :=
  [("host".toList, .text .host), ("port".toList, .text .port), ("ssl".toList, .number .tls),
    ("tls".toList, .number .tls), ("user".toList, .text .user), ("pass".toList, .text .pass),
    ("max_connections".toList, .number .maxConnections),
    ("output_dir".toList, .text .outputDir), ("temp_dir".toList, .text .tempDir),
    ("max_retries".toList, .number .maxRetries)]

def appConfigSetDefaults : AppConfig where
  text
    | .outputDir => "/data/games".toList
    | .tempDir => "/data/nzb-downloader/incomplete".toList
    | _ => []
  number
    | .tls => 0
    | .maxConnections => 4
    | .maxRetries => 3

def AppConfig.set (config : AppConfig) (val : Name) : Setting → AppConfig
  | .text f => { config with text g := if g = f then snprintf f.size val else config.text g }
  | .number n =>
      { config with number m := if m = n then Numeral.atoi (bytesOf val) else config.number m }

def applyKv (config : AppConfig) (key val : Name) : AppConfig :=
  ((settingKeys.find? (·.1 = key)).map (·.2)).elim config (config.set val)

def applyLine (config : AppConfig) (line : Name) : AppConfig :=
  let line := trimWs line
  if line = [] ∨ line.head? = some '#' ∨ '=' ∉ line then config
  else applyKv config (trimWs (line.takeWhile (· ≠ '='))) (trimWs (line.dropWhile (· ≠ '=')).tail)

/-- What `fgets` returns call after call: a line ends after a line feed, or when the
buffer of 1024 bytes is full. -/
def fgetsLines (line : Name) : Name → List Name
  | [] => if line = [] then [] else [line]
  | c :: rest =>
      if c = '\n' ∨ line.length + 1 = 1023 then (line ++ [c]) :: fgetsLines [] rest
      else fgetsLines (line ++ [c]) rest

def AppConfig.completed (config : AppConfig) : AppConfig where
  text f :=
    if f = .port ∧ config.text .port = [] then
      (if config.number .tls ≠ 0 then "563" else "119").toList
    else config.text f
  number n := n.clamp (config.number n)

def appConfigLoad : Option Name → Except AppConfig AppConfig
  | none => .error appConfigSetDefaults
  | some file =>
      let config := (fgetsLines [] file).foldl applyLine appConfigSetDefaults
      if config.text .host = [] then .error config else .ok config.completed

def appConfigAtStart (file : Option Name) : AppConfig :=
  match appConfigLoad file with
  | .ok config | .error config => config

def digits (n : ℕ) : Name :=
  (if n = 0 then [0] else (Nat.digits 10 n).reverse).map fun d => Char.ofNat (48 + d)

def decimal (n : ℤ) : Name :=
  (if n < 0 then ['-'] else []) ++ digits n.natAbs

def Setting.key : Setting → Name
  | .text .host => "host".toList
  | .text .port => "port".toList
  | .number .tls => "ssl".toList
  | .text .user => "user".toList
  | .text .pass => "pass".toList
  | .number .maxConnections => "max_connections".toList
  | .text .outputDir => "output_dir".toList
  | .text .tempDir => "temp_dir".toList
  | .number .maxRetries => "max_retries".toList

def AppConfig.value (config : AppConfig) : Setting → Name
  | .text f => config.text f
  | .number n => decimal (config.number n)

def settings : List Setting :=
  [.text .host, .text .port, .number .tls, .text .user, .text .pass, .number .maxConnections,
    .text .outputDir, .text .tempDir, .number .maxRetries]

def appConfigSave (config : AppConfig) : Name :=
  settings.flatMap fun s => s.key ++ '=' :: config.value s ++ ['\n']

theorem leadingDigits_map {values : List ℕ} (small : ∀ d ∈ values, d < 10) :
    Numeral.leadingDigits 10 (bytesOf (values.map fun d => Char.ofNat (48 + d))) = values := by
  induction values with
  | nil => rfl
  | cons d values ih =>
    have read : ∀ d < 10,
        Numeral.digitValue 10 (BitVec.ofNat 8 (Char.ofNat (48 + d)).toNat) = some d := by
      decide
    have first := read d (small d (.head _))
    have later := ih fun e member => small e (.tail d member)
    simp only [bytesOf, map_cons, Numeral.leadingDigits, first] at later ⊢
    rw [later]

theorem value_digits (n : ℕ) : Numeral.value 10 (bytesOf (digits n)) = n := by
  rw [Numeral.value, digits, leadingDigits_map]
  · split_ifs with zero
    · subst zero
      rfl
    · rw [reverse_reverse, Nat.ofDigits_digits]
  · intro d member
    split_ifs at member with zero
    · simp_all
    · exact Nat.digits_lt_base (by decide) (mem_reverse.mp member)

variable {c : Char} {text : Name} {config : AppConfig}

theorem isDigit_of_mem_digits {n : ℕ} (member : c ∈ digits n) :
    Numeral.isDigit (BitVec.ofNat 8 c.toNat) = true ∧ isSpace c = false := by
  have all : ∀ d < 10, Numeral.isDigit (BitVec.ofNat 8 (Char.ofNat (48 + d)).toNat) ∧
      isSpace (Char.ofNat (48 + d)) = false := by
    decide
  obtain ⟨d, digit, rfl⟩ := mem_map.mp member
  apply all d
  split_ifs at digit with zero
  · simp_all
  · exact Nat.digits_lt_base (by decide) (mem_reverse.mp digit)

theorem atoi_decimal {n : ℤ} (fits : IsInt n) : Numeral.atoi (bytesOf (decimal n)) = n := by
  obtain ⟨low, high⟩ := fits
  have limit : (longMax : ℤ) = 0x7fffffffffffffff := rfl
  have value := value_digits n.natAbs
  unfold decimal
  split_ifs with negative
  · change (BitVec.ofInt 32 (max (-(longMax : ℤ) - 1)
      (-(Numeral.value 10 (bytesOf (digits n.natAbs)) : ℤ)))).toInt = n
    rw [value, BitVec.toInt_ofInt, max_eq_right (by omega), Int.bmod_eq_of_le] <;> omega
  · rw [nil_append, ← append_nil (bytesOf _), Numeral.atoi_append ?_ ?_
      (fun _ none => absurd none (by simp)) (by omega), value]
    · omega
    · unfold digits
      split_ifs with zero
      · simp [bytesOf]
      · simpa [bytesOf, Nat.digits_eq_nil_iff_eq_zero] using zero
    · intro c member
      obtain ⟨d, digit, rfl⟩ := mem_map.mp member
      exact (isDigit_of_mem_digits digit).1

theorem isSpace_of_mem_decimal {n : ℤ} (member : c ∈ decimal n) : isSpace c = false := by
  rcases mem_append.mp member with sign | digit
  · split_ifs at sign
    · rw [mem_singleton.mp sign]
      rfl
    · contradiction
  · exact (isDigit_of_mem_digits digit).2

theorem trimWs_concat (blank : isSpace c) (text : Name) :
    trimWs (text ++ [c]) = trimWs text := by
  unfold trimWs
  rw [dropWhile_append]
  split_ifs with none
  · rw [isEmpty_iff.mp none, dropWhile_cons_of_pos blank]
    rfl
  · exact rdropWhile_concat_pos _ _ _ blank

theorem trimWs_rdropWhile (text : Name) : trimWs (text.rdropWhile isSpace) = trimWs text := by
  induction text using List.reverseRecOn with
  | nil => rfl
  | append_singleton text c ih =>
    by_cases blank : isSpace c = true
    · rw [rdropWhile_concat_pos _ _ _ blank, ih, trimWs_concat blank]
    · rw [rdropWhile_concat_neg _ _ _ blank]

theorem trimWs_sublist (text : Name) : (trimWs text).Sublist text :=
  ( rdropWhile_prefix _ _).sublist.trans (dropWhile_sublist _)

theorem trimWs_eq_self (plain : ∀ c ∈ text, isSpace c = false) : trimWs text = text := by
  have begins : text.dropWhile isSpace = text :=
    dropWhile_eq_self_iff.mpr fun _ => by simp [plain]
  rw [trimWs, begins]
  exact rdropWhile_eq_self_iff.mpr fun _ => by simp [plain]

theorem rdropWhile_append_cons (solid : isSpace c = false) (before after : Name) :
    (before ++ c :: after).rdropWhile isSpace = before ++ c :: after.rdropWhile isSpace := by
  induction after using List.reverseRecOn with
  | nil => exact rdropWhile_concat_neg _ _ _ (by simp [solid])
  | append_singleton after d ih =>
    rw [← cons_append, ← append_assoc]
    by_cases blank : isSpace d = true
    · rw [rdropWhile_concat_pos _ _ _ blank, ih, rdropWhile_concat_pos _ _ _ blank]
    · rw [rdropWhile_concat_neg _ _ _ blank, rdropWhile_concat_neg _ _ _ blank]
      simp

theorem fgetsLines_line (line : Name) (short : line.length + text.length < 1022)
    (inside : '\n' ∉ text) (rest : Name) :
    fgetsLines line (text ++ '\n' :: rest) = (line ++ text ++ ['\n']) :: fgetsLines [] rest := by
  induction text generalizing line with
  | nil => simp [fgetsLines]
  | cons c text ih =>
    rw [length_cons] at short
    rw [mem_cons, not_or] at inside
    rw [cons_append, fgetsLines, if_neg, ih _ _ inside.2]
    · simp
    · simpa using by omega
    · rintro (ends | full)
      · exact inside.1 ends.symm
      · omega

theorem trimWs_fgetsLines {line file : Name} (inside : '\n' ∉ line)
    (member : text ∈ fgetsLines line file) : '\n' ∉ trimWs text := by
  induction file generalizing line with
  | nil =>
    rw [fgetsLines] at member
    split_ifs at member
    · contradiction
    · rw [mem_singleton.mp member]
      exact fun feed => inside ((trimWs_sublist _).subset feed)
  | cons c file ih =>
    rw [fgetsLines] at member
    by_cases ends : c = '\n'
    · rw [if_pos (.inl ends), mem_cons] at member
      rcases member with rfl | later
      · rw [ends, trimWs_concat rfl]
        exact fun feed => inside ((trimWs_sublist _).subset feed)
      · exact ih (by simp) later
    · have longer : '\n' ∉ line ++ [c] := by simp [inside, Ne.symm ends]
      split_ifs at member
      · rcases mem_cons.mp member with rfl | later
        · exact fun feed => longer ((trimWs_sublist _).subset feed)
        · exact ih (by simp) later
      · exact ih longer member

theorem applyLine_setting (config : AppConfig) (s : Setting) (value : Name) :
    applyLine config (s.key ++ '=' :: value ++ ['\n']) = config.set (trimWs value) s := by
  have key : s.key.all (fun c => !isSpace c && c ≠ '=') = true ∧ s.key.head?.getD '=' ≠ '#' ∧
      s.key ≠ [] ∧ ((settingKeys.find? (·.1 = s.key)).map (·.2)) = some s := by
    rcases s with f | n
    · cases f <;> decide
    · cases n <;> decide
  obtain ⟨solid, comment, nonempty, known⟩ := key
  simp only [all_eq_true, Bool.and_eq_true, Bool.not_eq_true', decide_eq_true_eq] at solid
  have trimmed : trimWs (s.key ++ '=' :: value ++ ['\n']) =
      s.key ++ '=' :: value.rdropWhile isSpace := by
    rw [trimWs_concat rfl, trimWs]
    obtain ⟨c, rest, split⟩ := exists_cons_of_ne_nil nonempty
    have first := (solid c (by simp [split])).1
    rw [split, cons_append, dropWhile_cons_of_neg (by simp [first]), ← cons_append,
      rdropWhile_append_cons rfl]
  have before : ∀ c ∈ s.key, decide (c ≠ '=') = true :=
    fun c member => decide_eq_true (solid c member).2
  rw [applyLine, trimmed, if_neg]
  · rw [takeWhile_append_of_pos before, dropWhile_append_of_pos before,
      takeWhile_cons_of_neg (by simp), dropWhile_cons_of_neg (by simp), append_nil,
      trimWs_eq_self fun c member => (solid c member).1, tail_cons, trimWs_rdropWhile,
      applyKv, known]
    rfl
  · simp [nonempty, comment, head?_append]

structure AppConfig.Fits (config : AppConfig) : Prop where
  text (f : TextField) : FitsIn f.size (config.text f)
  number (n : NumberField) : IsInt (config.number n)

theorem fitsIn_snprintf (f : TextField) (text : Name) : FitsIn f.size (snprintf f.size text) := by
  have room : 0 < f.size := by cases f <;> decide
  rw [FitsIn, snprintf, length_take]
  omega

theorem isInt_clamp {value : ℤ} (fits : IsInt value) (n : NumberField) : IsInt (n.clamp value) := by
  unfold IsInt at fits ⊢
  cases n <;> simp only [NumberField.clamp] <;> omega

theorem isInt_assigned {root : Tree} {value : ℤ} {n : NumberField}
    (assigned : n.assigned root = some value) : IsInt value := by
  unfold NumberField.assigned at assigned
  split at assigned
  · cases assigned
    simp only [IsInt, toInt]
    omega
  · cases assigned
    split_ifs <;> decide
  · contradiction

theorem AppConfig.Fits.updated (fits : config.Fits) (root : Tree) : (config.updated root).Fits := by
  constructor
  · intro f
    change FitsIn f.size ((f.assigned root).getD (config.text f))
    cases assigned : f.assigned root with
    | none => exact fits.text f
    | some text =>
      obtain ⟨whole, -, rfl⟩ := Option.map_eq_some_iff.mp assigned
      exact fitsIn_snprintf f whole
  · intro n
    apply isInt_clamp
    cases assigned : n.assigned root with
    | none => exact fits.number n
    | some value => exact isInt_assigned assigned

theorem applyLine_cases (config : AppConfig) (line : Name) :
    applyLine config line = config ∨
      ∃ s val, val.Sublist (trimWs line) ∧ applyLine config line = config.set val s := by
  unfold applyLine applyKv
  dsimp only
  split_ifs
  · exact .inl rfl
  cases (settingKeys.find? _).map (·.2) with
  | none => exact .inl rfl
  | some s =>
    refine .inr ⟨s, _, (trimWs_sublist _).trans ?_, rfl⟩
    exact (tail_sublist _).trans (dropWhile_sublist _)

theorem AppConfig.Fits.applyLine (fits : config.Fits) (line : Name) :
    (Web.applyLine config line).Fits := by
  obtain same | ⟨s, val, -, set⟩ := applyLine_cases config line
  · rwa [same]
  rw [set]
  cases s with
  | text f =>
    refine ⟨fun g => ?_, fits.number⟩
    change FitsIn g.size (if g = f then _ else _)
    split_ifs with same
    · exact same ▸ fitsIn_snprintf f _
    · exact fits.text g
  | number n =>
    refine ⟨fits.text, fun m => ?_⟩
    change IsInt (if m = n then _ else _)
    split_ifs
    · exact ⟨BitVec.le_toInt _, BitVec.toInt_lt⟩
    · exact fits.number m

theorem AppConfig.Fits.completed (fits : config.Fits) : config.completed.Fits := by
  refine ⟨fun f => ?_, fun n => isInt_clamp (fits.number n) n⟩
  change FitsIn f.size (if _ then _ else _)
  split_ifs with missing encrypted
  · rw [missing.1]
    decide
  · rw [missing.1]
    decide
  · exact fits.text f

theorem fits_appConfigAtStart (file : Option Name) : (appConfigAtStart file).Fits := by
  have defaults : appConfigSetDefaults.Fits := by
    constructor
    · intro f
      cases f <;> decide
    · intro n
      cases n <;> decide
  unfold appConfigAtStart
  cases file with
  | none => exact defaults
  | some file =>
    have read : ((fgetsLines [] file).foldl Web.applyLine appConfigSetDefaults).Fits :=
      List.foldlRecOn _ _ defaults fun _ fits line _ => fits.applyLine line
    unfold appConfigLoad
    dsimp only
    split_ifs
    · exact read
    · exact read.completed

def AppConfig.SingleLine (config : AppConfig) : Prop :=
  ∀ f, '\n' ∉ config.text f

theorem AppConfig.SingleLine.applyLine (single : config.SingleLine) {line : Name}
    (inside : '\n' ∉ trimWs line) : (Web.applyLine config line).SingleLine := by
  obtain same | ⟨s, val, part, set⟩ := applyLine_cases config line
  · rwa [same]
  rw [set]
  cases s with
  | text f =>
    intro g
    change '\n' ∉ if g = f then _ else _
    split_ifs
    · exact fun feed => inside (((take_sublist _ _).trans part).subset feed)
    · exact single g
  | number n => exact single

theorem singleLine_of_loaded {file : Name} (loaded : appConfigLoad (some file) = .ok config) :
    config.SingleLine := by
  have read : ((fgetsLines [] file).foldl Web.applyLine appConfigSetDefaults).SingleLine :=
    List.foldlRecOn _ _ (by intro f; cases f <;> decide) fun _ single line member =>
      single.applyLine (trimWs_fgetsLines (by simp) member)
  unfold appConfigLoad at loaded
  dsimp only at loaded
  split_ifs at loaded
  cases loaded
  intro f
  change '\n' ∉ if _ then _ else _
  split_ifs
  · decide
  · decide
  · exact read f

section Saved

variable (fits : config.Fits) (single : config.SingleLine)
include fits single

theorem value_inside (s : Setting) : '\n' ∉ config.value s ∧ (config.value s).length < 512 := by
  cases s with
  | text f =>
    refine ⟨single f, lt_of_lt_of_le (fits.text f) ?_⟩
    cases f <;> decide
  | number n =>
    refine ⟨fun feed => Bool.noConfusion (isSpace_of_mem_decimal feed), ?_⟩
    obtain ⟨low, high⟩ := fits.number n
    have small : (Nat.digits 10 (config.number n).natAbs).length ≤ 10 :=
      Nat.digits_length_le_iff (by decide) _ |>.mpr (by omega)
    simp only [AppConfig.value, decimal, digits, length_append, length_map]
    split_ifs <;> simp <;> omega

theorem foldl_fgetsLines (saved : List Setting) (start : AppConfig) :
    (fgetsLines [] (saved.flatMap fun s => s.key ++ '=' :: config.value s ++ ['\n'])).foldl
        applyLine start =
      saved.foldl (fun before s => before.set (trimWs (config.value s)) s) start := by
  induction saved generalizing start with
  | nil => rfl
  | cons s saved ih =>
    have key : s.key.length ≤ 15 ∧ '\n' ∉ s.key := by
      rcases s with f | n
      · cases f <;> decide
      · cases n <;> decide
    obtain ⟨inside, short⟩ := value_inside fits single s
    have length : (s.key ++ '=' :: config.value s).length < 1022 := by
      simp
      omega
    rw [flatMap_cons, append_assoc _ ['\n'], singleton_append,
      fgetsLines_line [] (by simpa using length) (by simp [key.2, inside]), nil_append,
      foldl_cons, applyLine_setting, ih, foldl_cons]

theorem appConfigLoad_of_singleLine :
    appConfigLoad (some (appConfigSave config)) =
      if trimWs (config.text .host) = [] then
        .error ⟨fun f => trimWs (config.text f), config.number⟩
      else .ok (AppConfig.completed ⟨fun f => trimWs (config.text f), config.number⟩) := by
  have texts (f : TextField) : snprintf f.size (trimWs (config.text f)) = trimWs (config.text f) := by
    have shorter := (trimWs_sublist (config.text f)).length_le
    have room := fits.text f
    rw [FitsIn] at room
    exact take_of_length_le (by omega)
  have numbers (n : NumberField) :
      Numeral.atoi (bytesOf (trimWs (decimal (config.number n)))) = config.number n := by
    rw [trimWs_eq_self fun c => isSpace_of_mem_decimal, atoi_decimal (fits.number n)]
  have read : (fgetsLines [] (appConfigSave config)).foldl applyLine appConfigSetDefaults =
      ⟨fun f => trimWs (config.text f), config.number⟩ := by
    rw [appConfigSave, foldl_fgetsLines fits single]
    apply AppConfig.ext
    · refine funext fun f => Eq.trans ?_ (texts f)
      cases f <;> simp [settings, AppConfig.set, AppConfig.value]
    · refine funext fun n => Eq.trans ?_ (numbers n)
      cases n <;> simp [settings, AppConfig.set, AppConfig.value]
  simp only [appConfigLoad, read]

end Saved

/-- The file gives back the settings that requests have stored, if and only if no text has
a line feed or a blank at one of its ends. -/
theorem appConfigLoad_appConfigSave_iff (file : Option Name) (roots : List Tree) (root : Tree)
    (config : AppConfig)
    (stored : config = (roots.foldl AppConfig.updated (appConfigAtStart file)).updated root)
    (host : config.text .host ≠ []) (port : config.text .port ≠ []) :
    appConfigLoad (some (appConfigSave config)) = .ok config ↔
      ∀ f, '\n' ∉ config.text f ∧ trimWs (config.text f) = config.text f := by
  have fits : config.Fits := by
    rw [stored]
    apply AppConfig.Fits.updated
    exact List.foldlRecOn _ _ (fits_appConfigAtStart file) fun _ fits root _ => fits.updated root
  have within : (fun n : NumberField => n.clamp (config.number n)) = config.number := by
    rw [stored]
    exact funext fun n => n.clamp_clamp _
  constructor
  · intro loaded
    have single := singleLine_of_loaded loaded
    rw [appConfigLoad_of_singleLine fits single] at loaded
    split_ifs at loaded
    injection loaded with same
    intro f
    refine ⟨single f, ?_⟩
    have read := congrArg (AppConfig.text · f) same
    change (if f = .port ∧ trimWs (config.text .port) = [] then _ else trimWs (config.text f)) =
      config.text f at read
    by_cases missing : f = .port ∧ trimWs (config.text .port) = []
    · -- The port would be the default one, which has no blanks.
      obtain ⟨rfl, blank⟩ := missing
      rw [if_pos ⟨rfl, blank⟩] at read
      rw [← read] at blank
      split_ifs at blank <;> exact absurd blank (by decide)
    · rwa [if_neg missing] at read
  · intro plain
    have same : AppConfig.mk (fun f => trimWs (config.text f)) config.number = config :=
      AppConfig.ext (funext fun f => (plain f).2) rfl
    rw [appConfigLoad_of_singleLine fits fun f => (plain f).1, same, (plain .host).2, if_neg host]
    congr 1
    exact AppConfig.ext (funext fun f => if_neg fun missing => port missing.2) within

def serverRequest (password : String) : Tree :=
  .object [("nntp", .object [("host", .string "news".toList), ("port", .string "563".toList),
    ("password", .string password.toList)])]

theorem appConfigLoad_password :
    appConfigLoad (some (appConfigSave ((appConfigAtStart none).updated (serverRequest "a b")))) =
      .ok ((appConfigAtStart none).updated (serverRequest "a b")) := by
  refine (appConfigLoad_appConfigSave_iff none [] (serverRequest "a b") _ rfl ?_ ?_).mpr ?_
  · decide
  · decide
  · intro f
    cases f <;> decide

theorem appConfigLoad_blank :
    let config := (appConfigAtStart none).updated (serverRequest "ab ")
    (appConfigLoad (some (appConfigSave config))).toOption.map (·.text .pass) =
        some "ab".toList ∧
      config.text .pass = "ab ".toList ∧ config.text .host ≠ [] ∧ config.text .port ≠ [] := by
  decide +kernel

end NzbDownloader.Web
