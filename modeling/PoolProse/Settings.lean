import PoolProse.Log
import PoolProse.Version.Requirement

/-!
# Settings

How a session is set up: the seed, the language versions that will do, the log level and the depth
limit.
-/
namespace PoolProse

structure Settings where
  seed : Option Text := none
  requires : Text := []
  logLevel : Text := utf8 "notice"
  maxDepth : Int := 1000
  deriving DecidableEq, Repr

inductive SettingsError where
  | unreadable (source detail : Text)
  | invalidRequirement (requires : Text) (e : Version.RequirementError)
  | unsupportedVersion (requires : Text)
  | invalidLogLevel (level : Text)
  | invalidMaxDepth (value : Int)
  deriving DecidableEq, Repr

namespace SettingsError

def code : SettingsError → String
  | .unreadable .. => "INVOCAT_SETTINGS_PARSE_ERROR"
  | .invalidRequirement .. => "INVOCAT_SETTINGS_INVALID_REQUIREMENT"
  | .unsupportedVersion _ => "INVOCAT_SETTINGS_UNSUPPORTED_VERSION"
  | .invalidLogLevel _ => "INVOCAT_SETTINGS_INVALID_LOG_LEVEL"
  | .invalidMaxDepth _ => "INVOCAT_SETTINGS_INVALID_MAX_DEPTH"

def message : SettingsError → Text
  | .unreadable source detail =>
    utf8 "unable to parse settings from '" ++ source ++ utf8 "': " ++ detail
  | .invalidRequirement requires e =>
    utf8 "'" ++ requires ++ utf8 "' is not a valid version range: " ++ e.message
  | .unsupportedVersion requires =>
    utf8 "language version 1.0.0 does not satisfy the requirement '" ++ requires ++ utf8 "'"
  | .invalidLogLevel level => utf8 "'" ++ level ++ utf8 "' is not a valid log level"
  | .invalidMaxDepth value =>
    utf8 "max_depth must be zero or positive, got " ++ Text.ofInt value

end SettingsError

namespace Settings

def languageVersion : Version := { major := 1, minor := 0, patch := 0 }

/-- The first of the settings that will not do, if any. -/
def validate (s : Settings) : Except SettingsError Unit := do
  unless s.requires.isEmpty do
    match Version.Requirement.parse s.requires with
    | .error e => throw (.invalidRequirement s.requires e)
    | .ok ranges =>
      unless ranges.includes languageVersion do throw (.unsupportedVersion s.requires)
  unless s.logLevel.isEmpty || (LogLevel.ofName? s.logLevel).isSome do
    throw (.invalidLogLevel s.logLevel)
  if s.maxDepth < 0 then throw (.invalidMaxDepth s.maxDepth)

def withSeed (s : Settings) (seed : Text) : Settings := { s with seed := some seed }

end Settings

end PoolProse
