-- SUMMARY: Everything that can go wrong, with its wording.
import KeyExpansion.Format.Fault
import KeyExpansion.Kind
import KeyExpansion.Mark
import KeyExpansion.Path
import KeyExpansion.Template.Fault

/-! # Errors

One constructor for each cause. `message` is the wording, `code` the name under
which the cause is reported and `help` advice to the user. -/

namespace KeyExpansion

inductive Error where
  | malformedTemplate (text : String) (fault : Template.Fault)
  | malformedFormat (format : String) (fault : Format.Fault)
  | missingSection (text sectionName marker : String)
  | tooManyUuids (text : String)
  | badUuid (text value : String)
  | separatorInWord (word separator : String)
  | badConversion (key conversion : String)
  | implicitWithBraces (text : String)
  | implicitMulti (text : String)
  | unsupportedKey (text : String) (mark : Mark) (multi : Bool)
  | nullFallback (text : String)
  | recursion (key : String) (chain : List String)
  | recursionLimit (key : String) (depth : Nat)
  | typeMismatch (key : String) (expected : String) (found : Kind)
  | conversion (key value : String) (target : Kind)
  | codeNotFound (reference : String)
  | notFound (needle text : String)
  | notFoundInTree (start : Path)
  | notFoundAtPath (start : Path)
  | invalidYaml
  | readFailed (path : Path)
  | includeNotFound (path : Path)
  | circularInclude (path : Path)
  | validation (reason : String)
  | io (reason : String)
deriving Repr, DecidableEq

namespace Error

open Text (quoted)

def message : Error → String
  | malformedTemplate text fault =>
    "Malformed key template " ++ quoted text ++ ": " ++ fault.reason
  | malformedFormat format fault =>
    "Malformed format spec " ++ quoted format ++ ": " ++ fault.reason
  | missingSection text sectionName marker =>
    "Structured string " ++ quoted text ++ " is missing section '" ++ sectionName
      ++ "' (expected " ++ quoted marker ++ ")"
  | tooManyUuids text => "Too many uuids in " ++ quoted text ++ ", at most one is allowed"
  | badUuid text value => "Invalid uuid " ++ quoted value ++ " in " ++ quoted text
  | separatorInWord word separator =>
    "Word " ++ quoted word ++ " contains the separator " ++ quoted separator
  | badConversion key letters =>
    "Bad conversion parameter " ++ quoted letters ++ " for key " ++ quoted key
  | implicitWithBraces text => "Implicit key " ++ quoted text ++ " already contains braces"
  | implicitMulti text => "Implicit key " ++ quoted text ++ " cannot be a multi key"
  | unsupportedKey text mark multi =>
    "Cannot build a " ++ mark.name ++ " key (multi: " ++ toString multi ++ ") from " ++ quoted text
  | nullFallback text => "Non-key " ++ quoted text ++ " cannot have a fallback other than itself"
  | recursion key chain =>
    "Recursive expansion of " ++ quoted key ++ " through " ++ " -> ".intercalate chain
  | recursionLimit key depth =>
    "Expansion of " ++ quoted key ++ " exceeded the recursion guard of " ++ toString depth
  | typeMismatch key expected found =>
    "Key " ++ quoted key ++ " expanded to a " ++ found.name ++ ", expected " ++ expected
  | conversion key value target =>
    "Key " ++ quoted key ++ " could not convert " ++ quoted value ++ " to " ++ target.name
  | codeNotFound reference => "No code registered for " ++ quoted reference
  | notFound needle text => needle ++ " not found in " ++ quoted text
  | notFoundInTree start =>
    "No .dkey.yaml found in " ++ quoted start.text ++ " or any parent directory"
  | notFoundAtPath start => ".dkey.yaml not found at " ++ quoted start.text
  | invalidYaml => "Invalid .dkey.yaml file"
  | readFailed path => "Failed to read file: " ++ quoted path.text
  | includeNotFound path => "Include file not found: " ++ quoted path.text
  | circularInclude path => "Circular include detected: " ++ quoted path.text
  | validation reason => "Validation failed: " ++ reason
  | io reason => reason

/-- The name under which the cause is reported. -/
def code : Error → String
  | malformedTemplate .. => "dkey::malformed_template"
  | malformedFormat .. => "dkey::malformed_format"
  | missingSection .. => "dkey::missing_section"
  | tooManyUuids .. => "dkey::too_many_uuids"
  | badUuid .. => "dkey::bad_uuid"
  | separatorInWord .. => "dkey::separator_in_word"
  | badConversion .. => "dkey::bad_conversion"
  | implicitWithBraces .. => "dkey::implicit_with_braces"
  | implicitMulti .. => "dkey::implicit_multi"
  | unsupportedKey .. => "dkey::unsupported_key"
  | nullFallback .. => "dkey::null_fallback"
  | recursion .. => "dkey::recursion"
  | recursionLimit .. => "dkey::recursion_limit"
  | typeMismatch .. => "dkey::type_mismatch"
  | conversion .. => "dkey::conversion"
  | codeNotFound .. => "dkey::code_not_found"
  | notFound .. => "dkey::not_found"
  | notFoundInTree .. => "dkey::not_found_in_tree"
  | notFoundAtPath .. => "dkey::not_found_at_path"
  | invalidYaml => "dkey::invalid_yaml"
  | readFailed .. => "dkey::read_failed"
  | includeNotFound .. => "dkey::include_not_found"
  | circularInclude .. => "dkey::circular_include"
  | validation .. => "dkey::validation_failed"
  | io .. => "dkey::io_error"

/-- Advice to the user. -/
def help? : Error → Option String
  | malformedTemplate .. =>
    some "Balance the braces, or double them for literal brace characters"
  | tooManyUuids .. => some "Use canon() or de_uniq() before adding a new uuid"
  | separatorInWord .. => some "Push each word separately instead of a pre-joined string"
  | badConversion .. =>
    some "Conversion parameters are a single character, eg: \x7bname!p\x7d"
  | implicitWithBraces .. => some "Drop the implicit flag, or remove the braces"
  | recursion .. => some "Set a limit on the key, or break the cycle in the sources"
  | codeNotFound .. => some "Register the target with dkey::register_code before expanding"
  | notFoundInTree .. =>
    some "Create a .dkey.yaml file with 'dkey init' or specify a path with -f"
  | invalidYaml => some "Check YAML syntax and ensure 'api: dkey/v0' is present"
  | includeNotFound .. => some "Check that the include path is correct and the file exists"
  | circularInclude .. => some "Remove the circular reference in your includes"
  | _ => none

/-- Errors that no fallback may hide. -/
def isFatal : Error → Bool
  | recursion .. | recursionLimit .. | typeMismatch .. => true
  | _ => false

end Error

end KeyExpansion
