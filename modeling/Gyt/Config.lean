import Gyt.Errors
import Gyt.Foundation.SortedMap

/-!
# Configuration

The settings that commands read, `config.rs`, after the files and the environment were merged.
-/

namespace Gyt

/-- The global policy for runs of CI jobs. -/
inductive CiConcurrency where
  | parallel
  | serial
  deriving DecidableEq, Repr

/-- What happens when a CI job is started while a run that contends with it is in progress. -/
inductive CiJobMode where
  | parallel
  | queue
  | interrupt
  deriving DecidableEq, Repr

structure Config where
  userName : Option Str
  userEmail : Option Str
  /-- The remotes with their addresses. -/
  remotes : SortedMap Str Str
  /-- Whether `gyt init` creates a `.gytignore`. -/
  createDefaultGytignore : Bool
  signRequired : Bool
  /-- The global policy for CI jobs. -/
  ciMode : CiConcurrency
  /-- The modes of single CI jobs. -/
  ciJobModes : SortedMap Str CiJobMode
  deriving DecidableEq, Repr

/-- A configuration without settings. -/
def Config.default : Config := ⟨none, none, .empty, false, false, .parallel, .empty⟩

/-- The identity of the user, as it stands in commits. -/
def Config.identity (cfg : Config) : Result Str := do
  let name ← okOr cfg.userName
    (.repo ["user.name not set (set ~/.config/gyt/config.toml, .gyt/config.toml, or ",
      "GYT_AUTHOR_NAME)"])
  let email ← okOr cfg.userEmail
    (.repo ["user.email not set (set ~/.config/gyt/config.toml, .gyt/config.toml, or ",
      "GYT_AUTHOR_EMAIL)"])
  return name ++ " <" ++ email ++ ">"

end Gyt
