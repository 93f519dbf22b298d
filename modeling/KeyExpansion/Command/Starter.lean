-- SUMMARY: The text of new source files.
import KeyExpansion.Command.Basic
import KeyExpansion.Command.Setting
import KeyExpansion.Text.CharClass
import KeyExpansion.Value.Node
import KeyExpansion.Yaml.Writer

/-! # Starters

A new source file says its version, whether it inherits, and the settings that it was
asked for. The standard template explains the other fields in comments. -/

namespace KeyExpansion.Command.Starter

def trimEnd (text : String) : String :=
  String.ofList (text.toList.reverse.dropWhile Text.isBlank).reverse

/-- The line of one value. -/
def valueLine (name : String) (v : Value) : String :=
  "  " ++ name ++ ": " ++ trimEnd (Yaml.write v.toNode) ++ "\n"

/-- The values with their heading. -/
def valueSection (settings : List (String × Value)) : String :=
  "values:\n" ++ String.join (settings.map fun (name, v) => valueLine name v)

def minimal (inherit : Bool) (settings : List (String × Value)) : String :=
  "api: dkey/v0\n"
    ++ "inherit: " ++ toString inherit ++ "\n\n"
    ++ (if settings.isEmpty then "values: \x7b\x7d\n" else valueSection settings)

/-- What stands for values in a file without settings. -/
def sampleValues : String :=
  "# values:\n"
    ++ "#   root: /data/project\n"
    ++ "#   out_dir: \"\x7broot\x7d/build\"\n"
    ++ "#   log_: out_dir\n"

def standard (inherit : Bool) (settings : List (String × Value)) : String :=
  "# dkey source file\n\n"
    ++ "api: dkey/v0\n\n"
    ++ "# Optional: Human-readable description\n"
    ++ "# description: \"My project locations\"\n\n"
    ++ "# In-tree inheritance (default: false for security)\n"
    ++ "# When true, walks up directory tree loading parent .dkey.yaml files\n"
    ++ "# When false, only loads this file (recommended)\n"
    ++ "inherit: " ++ toString inherit ++ "\n\n"
    ++ "# Explicit includes, layered underneath this file\n"
    ++ "# includes:\n"
    ++ "#   - ~/.config/dkey/defaults.dkey.yaml\n"
    ++ "#   - ../shared/common.dkey.yaml\n\n"
    ++ "# Values looked up during expansion. Later files win.\n"
    ++ "# A name ending in '_' redirects to the key it holds.\n"
    ++ (if settings.isEmpty then sampleValues else valueSection settings) ++ "\n"
    ++ "# Expansion settings\n"
    ++ "# settings:\n"
    ++ "#   limit: 10\n"

/-- The text of a template by its name. -/
def content (template : String) (inherit : Bool) (settings : List (String × Value)) : String :=
  if template == "minimal" then minimal inherit settings else standard inherit settings

/-- The text of the file that options ask for. It is one that can be read back. -/
def text (options : InitOptions) : Except Fault String := do
  let settings ← Setting.readAll options.settings
  let content := content options.template options.inherit settings
  let _ ← ofError (Layer.ofText content)
  return content

end KeyExpansion.Command.Starter
