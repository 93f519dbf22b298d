-- SUMMARY: Settings `NAME=VALUE` of a command line.
import KeyExpansion.Command.Fault
import KeyExpansion.Template.ParamName
import KeyExpansion.Value.Node
import KeyExpansion.Yaml.Reader

/-! # Settings

A setting gives a value to a plain name. Its value is what YAML reads in the text,
save that no text is the empty text. Of several settings of a name the last counts. -/

namespace KeyExpansion.Command.Setting

/-- The value that a text gives. -/
def readValue? (text : String) : Option Value :=
  if text.isEmpty then some (.str "") else (Yaml.read? text).map Value.ofNode

/-- Is this the name of a parameter without a position and dashes? -/
def isName (name : String) : Bool :=
  (ParamName.parse? name).any (·.isPlain)

def read (text : String) : Except Fault (String × Value) :=
  match Text.cut? ['='] text.toList with
  | none => .error (.noSetting text)
  | some (name, value) =>
    let name := String.ofList name
    if !isName name then .error (.badSettingName name)
    else
      match readValue? (String.ofList value) with
      | some value => .ok (name, value)
      | none => .error (.badSettingValue name)

/-- The values of settings by their names. -/
def readAll (texts : List String) : Except Fault (List (String × Value)) := do
  return Entries.ofList (← texts.mapM read)

end KeyExpansion.Command.Setting
