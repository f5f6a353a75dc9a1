import NzbDownloader.Nzb.Parse

/-!
# Settings

`app_config_t` of `config/config.h` as a family of texts and a family of numbers, and
the edits of `api_config_post` in `web/api_config.c`.  The timeouts and the retry count
of a connection are constants.
-/

namespace NzbDownloader.Web

open Lib Util Queue.Persist

inductive TextField
  | host | port | user | pass | outputDir | tempDir
  deriving DecidableEq

inductive NumberField
  | tls | maxConnections | maxRetries
  deriving DecidableEq

@[ext]
structure AppConfig where
  text : TextField → Name
  number : NumberField → ℤ

namespace TextField

def size : TextField → ℕ
  | host => 256
  | port => 8
  | user | pass => 128
  | outputDir | tempDir => 512

def member : TextField → String × String
  | host => ("nntp", "host")
  | port => ("nntp", "port")
  | user => ("nntp", "user")
  | pass => ("nntp", "password")
  | outputDir => ("storage", "output_dir")
  | tempDir => ("storage", "temp_dir")

def assigned (f : TextField) (root : Tree) : Option Name :=
  let text := ((root.get? f.member.1).bind (·.get? f.member.2)).bind Json.string?
  (text.filter fun text => f ≠ pass || text ≠ []).map (snprintf f.size)

end TextField

namespace NumberField

def member : NumberField → String × String
  | tls => ("nntp", "tls")
  | maxConnections => ("nntp", "max_connections")
  | maxRetries => ("queue", "max_retries")

def assigned (n : NumberField) (root : Tree) : Option ℤ :=
  match (root.get? n.member.1).bind (·.get? n.member.2) with
  | some (.number value) => some (toInt value)
  | some (.bool value) => some (if value then 1 else 0)
  | _ => none

def clamp : NumberField → ℤ → ℤ
  | tls, value => value
  | maxConnections, value => max 1 value
  | maxRetries, value => max 0 value

theorem clamp_clamp (n : NumberField) (value : ℤ) : n.clamp (n.clamp value) = n.clamp value := by
  cases n with
  | tls => rfl
  | maxConnections => exact max_eq_right (le_max_left 1 value)
  | maxRetries => exact max_eq_right (le_max_left 0 value)

end NumberField

def AppConfig.updated (config : AppConfig) (root : Tree) : AppConfig where
  text f := (f.assigned root).getD (config.text f)
  number n := n.clamp ((n.assigned root).getD (config.number n))

def AppConfig.nntp (config : AppConfig) : List Name × List ℤ :=
  ([.host, .port, .user, .pass].map config.text, [.tls, .maxConnections].map config.number)

end NzbDownloader.Web
