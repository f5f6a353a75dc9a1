import NzbDownloader.Lib.Transition
import NzbDownloader.Web.ConfigFile

/-!
# Requests that change the settings

The calls of `api_config_post` on the threads of the web server, and those of
`app_reload_pool_if_needed` on the thread of the downloader.  A request holds the lock of
the settings while it copies them and while it stores its copy; a reload holds it while it
takes its snapshot.
-/

namespace NzbDownloader.Web

open Lib Util Queue.Persist Transition Option Function

inductive Request
  | waiting
  | editing (copy : AppConfig)
  | answered

def Request.isAnswered : Request → Bool
  | answered => true
  | _ => false

structure Server (τ : Type) where
  config : AppConfig
  file : Name
  reloadNeeded : Bool
  pool : List Name × List ℤ
  building : Option (List Name × List ℤ)
  request : τ → Request

open Server

inductive ServerAct (τ : Type)
  | copy (t : τ)
  /-- It stores its copy.  `memcmp` also compares what is behind the end of a text, and a
  failed write leaves what it leaves. -/
  | store (t : τ) (stale : Bool) (torn : Option Name)
  | check
  | create (succeeds : Bool)

variable {τ : Type} [DecidableEq τ]

def Server.step (posts : τ → Option Tree) (s : Server τ) : ServerAct τ → Option (Server τ)
  | .copy t =>
      match s.request t with
      | .waiting =>
          let next := if (posts t).isSome then .editing s.config else .answered
          some { s with request := update s.request t next }
      | _ => none
  | .store t stale torn =>
      match s.request t, posts t with
      | .editing copy, some root =>
          let updated := copy.updated root
          some { s with
            config := updated
            file := torn.getD (appConfigSave updated)
            reloadNeeded := s.reloadNeeded || stale || s.config.nntp ≠ updated.nntp
            request := update s.request t .answered }
      | _, _ => none
  | .check =>
      if s.building.isSome then none
      else if s.reloadNeeded then
        some { s with reloadNeeded := false, building := some s.config.nntp }
      else some s
  | .create succeeds =>
      s.building.map fun snapshot =>
        { s with building := none, pool := if succeeds then snapshot else s.pool }

def Server.start (config : AppConfig) (file : Name) : Server τ :=
  ⟨config, file, false, config.nntp, none, fun _ => .waiting⟩

variable {posts : τ → Option Tree} {s s' : Server τ}

section Inversion

variable {t : τ}

theorem step_copy (taken : s.step posts (.copy t) = some s') :
    ∃ next, (next = .answered → posts t = none) ∧
      s' = { s with request := update s.request t next } := by
  simp only [step] at taken
  split at taken
  · cases taken
    refine ⟨_, ?_, rfl⟩
    cases posts t <;> simp
  · contradiction

theorem step_store {stale : Bool} {torn : Option Name}
    (taken : s.step posts (.store t stale torn) = some s') :
    ∃ copy root, s.request t = .editing copy ∧ posts t = some root ∧ s' = { s with
      config := copy.updated root
      file := torn.getD (appConfigSave (copy.updated root))
      reloadNeeded := s.reloadNeeded || stale || s.config.nntp ≠ (copy.updated root).nntp
      request := update s.request t .answered } := by
  simp only [step] at taken
  split at taken
  · rename_i copy root editing body
    cases taken
    exact ⟨copy, root, editing, body, rfl⟩
  · contradiction

end Inversion

def Server.Current (s : Server τ) : Prop :=
  s.building.getD s.pool = s.config.nntp ∨ s.reloadNeeded = true

/-- `nntp_pool_create` fails only for a snapshot that a request has replaced by other
settings since it was taken, or that has the settings of the pool in use. -/
def FailsOvertaken (s : Server τ) : ServerAct τ → Prop
  | .create false =>
      ∀ snapshot ∈ s.building, s.config.nntp ≠ snapshot ∨ s.pool = snapshot
  | _ => True

theorem Server.Current.step {a : ServerAct τ} (current : s.Current) (overtaken : FailsOvertaken s a)
    (taken : s.step posts a = some s') : s'.Current := by
  cases a with
  | copy t =>
    obtain ⟨next, -, rfl⟩ := step_copy taken
    exact current
  | store t stale torn =>
    obtain ⟨copy, root, -, -, rfl⟩ := step_store taken
    by_cases same : s.config.nntp = (copy.updated root).nntp
    · rcases current with built | flag
      · exact .inl (built.trans same)
      · exact .inr (by simp [flag])
    · exact .inr (by simp [same])
  | check =>
    simp only [Server.step] at taken
    split_ifs at taken
    · cases taken
      exact .inl rfl
    · cases taken
      exact current
  | create succeeds =>
    obtain ⟨snapshot, building, rfl⟩ := map_eq_some_iff.mp taken
    cases succeeds with
    | true => simpa [Server.Current, building] using current
    | false =>
      -- The flag is down only if nothing was stored since the snapshot.
      rcases current with taken | flag
      · rw [building, getD_some] at taken
        rcases overtaken snapshot building with replaced | same
        · exact absurd taken.symm replaced
        · exact .inl (same.trans taken)
      · exact .inr flag

/-- Whenever no reload is in progress, the pool has the current settings or the flag is
set. -/
theorem pool_current (posts : τ → Option Tree) (config : AppConfig) (file : Name) (s : Server τ)
    (run : Reachable (step posts) FailsOvertaken (start config file) s)
    (returned : s.building = none) : s.pool = s.config.nntp ∨ s.reloadNeeded = true := by
  have current : s.Current :=
    run.invariant (.inl rfl) fun _ _ _ current overtaken taken => current.step overtaken taken
  simpa [Server.Current, returned] using current

def twoPosts (t : Bool) : Option Tree :=
  some (.object [("nntp", .object [(if t then "user" else "host", .string "news".toList)])])

/-- A second request stores other settings while the pool for the first is being built,
and that creation fails. -/
theorem pool_current_overtaken : ∃ s : Server Bool,
    Reachable (step twoPosts) FailsOvertaken (start appConfigSetDefaults []) s ∧
      s.pool ≠ s.config.nntp ∧ (s.pool = s.config.nntp ∨ s.reloadNeeded = true) := by
  obtain ⟨s, run, ends⟩ := @exists_reachable _ _ (step twoPosts) FailsOvertaken
    (start appConfigSetDefaults [])
    (fun s a => a.casesOn (fun _ => true) (fun _ _ _ => true) true fun _ =>
      s.building.all fun snapshot => s.config.nntp ≠ snapshot)
    [.copy false, .store false false none, .check, .copy true, .store true false none,
      .create false]
    (fun s => s.building.isNone && s.pool ≠ s.config.nntp)
    (by
      rintro s (_ | _ | _ | _ | _) passed
      case create.false =>
        intro snapshot building
        exact .inl (by simpa [mem_def.mp building] using passed)
      all_goals exact True.intro)
    (by decide +kernel)
  simp only [Bool.and_eq_true, isNone_iff_eq_none, decide_eq_true_eq] at ends
  exact ⟨s, run, ends.2, pool_current twoPosts _ _ s run ends.1⟩

def onePost (_ : Unit) : Option Tree :=
  some (.object [("nntp", .object [("host", .string "news".toList)])])

theorem pool_outdated : ∃ s : Server Unit,
    Reachable (step onePost) Anything (start appConfigSetDefaults []) s ∧
      (s.building = none ∧ s.pool ≠ s.config.nntp ∧ s.reloadNeeded = false) := by
  obtain ⟨s, run, ends⟩ := @exists_reachable _ _ (step onePost) Anything
    (start appConfigSetDefaults []) (fun _ _ => true)
    [.copy (), .store () false none, .check, .create false]
    (fun s => s.building = none ∧ s.pool ≠ s.config.nntp ∧ s.reloadNeeded = false)
    (fun _ _ _ => True.intro) (by decide +kernel)
  exact ⟨s, run, of_decide_eq_true ends⟩

structure AppConfig.Holds (config : AppConfig) (root : Tree) : Prop where
  text : ∀ f, ∀ text ∈ f.assigned root, config.text f = text
  number : ∀ n, ∀ value ∈ n.assigned root, config.number n = n.clamp value

structure Apart (root root' : Tree) : Prop where
  text (f : TextField) : f.assigned root = none ∨ f.assigned root' = none
  number (n : NumberField) : n.assigned root = none ∨ n.assigned root' = none

theorem AppConfig.holds_updated (config : AppConfig) (root : Tree) :
    (config.updated root).Holds root := by
  constructor
  · intro f text assigned
    simp [AppConfig.updated, mem_def.mp assigned]
  · intro n value assigned
    simp [AppConfig.updated, mem_def.mp assigned]

theorem AppConfig.Holds.updated {config : AppConfig} {root root' : Tree}
    (holds : config.Holds root) (apart : Apart root root') : (config.updated root').Holds root := by
  constructor
  · intro f text assigned
    rcases apart.text f with none | none
    · rw [none] at assigned
      contradiction
    · rw [← holds.text f text assigned]
      simp [AppConfig.updated, none]
  · intro n value assigned
    rcases apart.number n with none | none
    · rw [none] at assigned
      contradiction
    · change n.clamp ((n.assigned root').getD _) = _
      rw [none, getD_none, holds.number n value assigned, n.clamp_clamp]

def StoresInTime (s : Server τ) : ServerAct τ → Prop
  | .store t _ torn => s.request t = .editing s.config ∧ torn = none
  | _ => True

def Server.Kept (posts : τ → Option Tree) (s : Server τ) : Prop :=
  ∀ t, ∀ root ∈ posts t, (s.request t).isAnswered = true →
    s.config.Holds root ∧ s.file = appConfigSave s.config

theorem Server.Kept.step {a : ServerAct τ}
    (apart : ∀ t u, t ≠ u → ∀ root ∈ posts t, ∀ root' ∈ posts u, Apart root root')
    (kept : s.Kept posts) (inTime : StoresInTime s a) (taken : s.step posts a = some s') :
    s'.Kept posts := by
  cases a with
  | copy u =>
    obtain ⟨next, refused, rfl⟩ := step_copy taken
    intro t root body answered
    dsimp only at answered
    by_cases same : t = u
    · subst same
      rw [update_self] at answered
      cases next with
      | answered => exact absurd body (by simp [refused rfl])
      | _ => contradiction
    · rw [update_of_ne same] at answered
      exact kept t root body answered
  | store u stale torn =>
    obtain ⟨editing, rfl⟩ := inTime
    obtain ⟨copy, root', copied, body', rfl⟩ := step_store taken
    cases editing.symm.trans copied
    intro t root body answered
    refine ⟨?_, rfl⟩
    by_cases same : t = u
    · subst same
      cases mem_unique body body'
      exact AppConfig.holds_updated _ _
    · dsimp only at answered
      rw [update_of_ne same] at answered
      exact (kept t root body answered).1.updated (apart t u same root body root' body')
  | check =>
    simp only [Server.step] at taken
    split_ifs at taken <;> cases taken <;> exact kept
  | create succeeds =>
    obtain ⟨snapshot, -, rfl⟩ := map_eq_some_iff.mp taken
    exact kept

/-- Requests that set different fields and do not overtake one another are all kept. -/
theorem settings_kept (posts : τ → Option Tree)
    (apart : ∀ t u, t ≠ u → ∀ root ∈ posts t, ∀ root' ∈ posts u, Apart root root')
    (config : AppConfig) (file : Name) (s : Server τ)
    (run : Reachable (step posts) StoresInTime (start config file) s) (t : τ)
    (root : Tree) (body : posts t = some root) (answered : (s.request t).isAnswered = true) :
    s.config.Holds root ∧ s.file = appConfigSave s.config := by
  have kept : s.Kept posts :=
    run.invariant (fun _ _ _ waiting => Bool.noConfusion waiting) fun _ _ _ kept inTime taken =>
      kept.step apart inTime taken
  exact kept t root body answered

theorem settings_kept_both : ∃ s : Server Bool,
    Reachable (step twoPosts) StoresInTime (start appConfigSetDefaults []) s ∧
      ∀ t, ∀ root ∈ twoPosts t, s.config.Holds root ∧ s.file = appConfigSave s.config := by
  have run : ∃ s : Server Bool,
      Reachable (step twoPosts) StoresInTime (start appConfigSetDefaults []) s ∧
        ∀ t, (s.request t).isAnswered = true :=
    ⟨_, .tail (.store true false none) (.tail (.copy true) (.tail (.store false false none)
      (.tail (.copy false) .refl True.intro rfl) ⟨rfl, rfl⟩ rfl) True.intro rfl) ⟨rfl, rfl⟩ rfl,
      by intro t; cases t <;> rfl⟩
  obtain ⟨s, run, answered⟩ := run
  refine ⟨s, run, fun t root body => settings_kept twoPosts ?_ _ _ s run t root body (answered t)⟩
  rintro t u different root ⟨⟩ root' ⟨⟩
  constructor
  · intro f
    revert t u
    cases f <;> decide
  · intro n
    revert t u
    cases n <;> decide

theorem settings_lost : ∃ s : Server Bool,
    Reachable (step twoPosts) Anything (start appConfigSetDefaults []) s ∧
      ((∀ t, (s.request t).isAnswered = true) ∧ s.config.text .user = "news".toList ∧
        s.config.text .host = []) := by
  obtain ⟨s, run, ends⟩ := @exists_reachable _ _ (step twoPosts) Anything
    (start appConfigSetDefaults []) (fun _ _ => true)
    [.copy false, .copy true, .store false false none, .store true false none]
    (fun s => (∀ t, (s.request t).isAnswered = true) ∧ s.config.text .user = "news".toList ∧
      s.config.text .host = [])
    (fun _ _ _ => True.intro) (by decide +kernel)
  exact ⟨s, run, of_decide_eq_true ends⟩

end NzbDownloader.Web
