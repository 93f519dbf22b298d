-- SUMMARY: What ends a command early, with its wording.
import KeyExpansion.Error

/-! # Faults of commands -/

namespace KeyExpansion.Command

inductive Fault where
  | error (e : Error)
  /-- A setting without an equals sign. -/
  | noSetting (text : String)
  | badSettingName (name : String)
  | badSettingValue (name : String)
  /-- There is a source file already. -/
  | occupied (path : Path)
  | unwritable (path : Path)
deriving Repr, DecidableEq

namespace Fault

def message : Fault → String
  | error e => e.message
  | noSetting text => "Invalid --set '" ++ text ++ "', expected NAME=VALUE"
  | badSettingName name => "Invalid --set name '" ++ name ++ "'"
  | badSettingValue name => "The value of '" ++ name ++ "' is no YAML"
  | occupied path => ".dkey.yaml already exists at " ++ Text.quoted path.text
  | unwritable path => "Failed to write .dkey.yaml: " ++ Text.quoted path.text

/-- The name under which a fault is reported, if it has one. -/
def code? : Fault → Option String
  | error e => some e.code
  | _ => none

/-- Advice to the user. -/
def help? : Fault → Option String
  | error e => e.help?
  | _ => none

end Fault

/-- An error of the library as a fault. -/
def ofError {α : Type} : Except Error α → Except Fault α
  | .ok a => .ok a
  | .error e => .error (.error e)

end KeyExpansion.Command
