/-
  TilePaint/Config/Environment.lean
  =================================
  **What the environment says about the configuration.**

  Two variables override the two keys of the default configuration.  Their values
  follow the rules for numbers in files, but no blank and no quote is dropped, and
  the error names the variable.  A value that is not text counts as absent.

  The configuration file has its place below the user's configuration directory
  (`Config.defaultPath`).
-/
import TilePaint.Config.Text

namespace TilePaint

def ConfigKey.variableName : ConfigKey → String
  | .edge => "DOCTILE_TILE_SIZE_PX"
  | .budget => "DOCTILE_POOL_BUDGET_MB"

namespace Config

/-- Apply one variable of the environment, if it is set to a text. -/
def override (c : Config) (key : ConfigKey) (value : Option ByteArray) :
    Except ConfigError Config :=
  match value.bind String.fromUTF8? with
  | none => .ok c
  | some text =>
      match c.assign key text.toList with
      | some c => .ok c
      | none => .error (.invalidValue key.variableName)

def ofEnvironment (edge budget : Option ByteArray) : Except ConfigError Config := do
  let c ← ({} : Config).override .edge edge
  let c ← c.override .budget budget
  c.checked

/-! ### The place of the file -/

/-- A path continued by one more name, with one separator between them. -/
def joinPath (base name : String) : String :=
  if base.isEmpty then name
  else if base.endsWith "/" then base ++ name
  else base ++ "/" ++ name

/-- The user's configuration directory: the one that is set, if that is an
    absolute path, and otherwise the usual place in the home directory. -/
def configDirectory (home xdg : Option String) : Option String :=
  match xdg with
  | some dir => if dir.startsWith "/" then some dir else homeDirectory
  | none => homeDirectory
where
  homeDirectory : Option String :=
    (home.filter fun dir => !dir.isEmpty).map (joinPath · ".config")

/-- The place of the configuration file; without a configuration directory it is
    the working directory. -/
def defaultPath (home xdg : Option String) : String :=
  match configDirectory home xdg with
  | some dir => joinPath (joinPath dir "doctile") "tiles.toml"
  | none => "doctile-tiles.toml"

end Config

end TilePaint
