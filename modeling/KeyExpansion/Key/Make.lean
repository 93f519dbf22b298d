-- SUMMARY: Making keys from text, paths and other keys.
import KeyExpansion.Error
import KeyExpansion.Format.Parser
import KeyExpansion.Template.ParamName
import KeyExpansion.Template.Parser
import KeyExpansion.Value.Basic

/-! # Making keys

The pieces of a template decide what is made: no field makes plain text, one
field alone a single key, anything else a template. Options of the caller win
over those written in the field. -/

namespace KeyExpansion.Key

/-- What a key is made from. -/
inductive Input where
  | text (text : String)
  | path (path : Path)
  | key (key : Key)

structure Options where
  /-- Is the whole text one bare name? -/
  implicit : Bool := false
  mark : Option Mark := none
  conversion : Option String := none
  format : Option String := none
  check : Option Constraint := none
  coercion : Option Coercion := none
  fallback : Option Fallback := none
  limit : Option Int := none
  help : Option String := none
  /-- Is the text taken as a single key as it is? -/
  force : Bool := false

/-- Would the options make a key other than `k`? -/
def Options.change (o : Options) (k : Key) : Bool :=
  (match o.mark with
    | some mark => mark != k.mark
    | none => false)
    || o.conversion.isSome || o.format.isSome || o.check.isSome || o.coercion.isSome
    || o.fallback.isSome || o.limit.isSome || o.help.isSome || o.force

/-- The options with those of the key they are applied to. A new mark brings its own
    coercion. -/
def Options.inherit (o : Options) (k : Key) : Options :=
  { o with
    check := o.check.or k.check
    fallback := o.fallback.or k.fallback
    limit := o.limit.or k.limit
    help := o.help.or k.help
    coercion := if o.mark.isNone then o.coercion.or (some k.coercion) else o.coercion }

/-- A conversion is at most one letter. -/
def readConversion (key conversion : String) : Except Error (Option Char) :=
  match conversion.toList with
  | [] => .ok none
  | [letter] => .ok (some letter)
  | _ => .error (.badConversion key conversion)

/-- A format is empty or can be read. -/
def checkFormat (format : String) : Except Error Unit :=
  if format.isEmpty then .ok ()
  else
    match Format.parse format with
    | .ok _ => .ok ()
    | .error fault => .error (.malformedFormat format fault)

/-- The pieces of a template, or why it has none. -/
def readPieces (text : String) : Except Error (List Template.Piece) :=
  match Template.pieces text with
  | .ok pieces => .ok pieces
  | .error fault => .error (.malformedTemplate text fault)

/-- A key that is no template. -/
def assemble (o : Options) (name : String) (format : String) (conversion : Option Char)
    (mark : Mark) : Except Error Key := do
  checkFormat format
  let family := Family.single mark
  return {
    text := name, family, mark, coercion := o.coercion.getD family.coercion, check := o.check,
    fallback := o.fallback, format, conversion, limit := o.limit, help := o.help, parts := none,
    label := none }

/-- The mark of a single key that is not given one. -/
def naturalMark (piece : Template.Piece) (conversion : Option Char) : Mark :=
  ((conversion.bind Conversion.find?).bind Conversion.mark).getD
    (if piece.isIndirect then .indirect else .free)

/-- The key of one field. -/
def makeSingle (o : Options) (piece : Template.Piece) : Except Error Key := do
  let conversion ← readConversion piece.name (o.conversion.getD piece.conversion)
  if o.mark == some .null then throw (.unsupportedKey piece.wrapped .null false)
  else
    assemble o piece.name (o.format.getD piece.format) conversion
      (o.mark.getD (naturalMark piece conversion))

/-- The key of a bare name. -/
def makeImplicit (o : Options) (text : String) : Except Error Key :=
  if o.mark == some .multi then .error (.implicitMulti text)
  else if (ParamName.parse? text).isNone then .error (.malformedTemplate text .emptyName)
  else do
    match ← readPieces (inBraces text) with
    | [piece] => makeSingle o piece
    | _ => throw (.implicitMulti text)

/-- Plain text. -/
def makeNull (o : Options) (text : String) : Except Error Key :=
  match o.mark.filter (· != .null), o.fallback with
  | some mark, _ => .error (.unsupportedKey text mark (mark == .multi))
  | none, some (.value _) => .error (.nullFallback text)
  | none, fallback =>
    .ok {
      text, family := Family.single .null, mark := .null, coercion := .identity, check := none,
      fallback, format := "", conversion := none, limit := none, help := o.help, parts := none,
      label := none }

/-- The mark of a template. -/
def templateMark (o : Options) (text : String) : Except Error Mark :=
  match o.mark with
  | none | some .multi => .ok .multi
  | some mark =>
    if (Family.registered? mark true).isSome then .ok mark
    else .error (.unsupportedKey text mark true)

/-- A template with its keys. -/
def makeTemplate (o : Options) (text : String) (pieces : List Template.Piece) :
    Except Error Key := do
  let mark ← templateMark o text
  let subkeys ← (pieces.filter (!·.isLiteral)).mapM (makeSingle {})
  let conversion ← readConversion text (o.conversion.getD "")
  let format := o.format.getD ""
  checkFormat format
  let family := Family.template mark
  return {
    text, family, mark, coercion := o.coercion.getD family.coercion, check := o.check,
    fallback := o.fallback, format, conversion, limit := o.limit, help := o.help,
    parts := some {
      subkeys
      slots := String.join (pieces.map Template.Piece.slot)
      hasLiteral := pieces.any (!·.lead.isEmpty) }
    label := none }

/-- The key that a template's pieces ask for. -/
def ofPieces (o : Options) (text : String) (pieces : List Template.Piece) : Except Error Key :=
  if pieces.all (·.isLiteral) then
    if (o.mark.any (!·.isTemplateOnly)) && !text.isEmpty && !hasBrace text then makeImplicit o text
    else makeNull o text
  else
    match pieces with
    | [piece] =>
      if piece.lead.isEmpty && o.mark != some .multi then makeSingle o piece
      else makeTemplate o text pieces
    | _ => makeTemplate o text pieces

/-- The key that a text makes. -/
def makeText (o : Options) (text : String) : Except Error Key :=
  if o.force then do
    let conversion ← readConversion text (o.conversion.getD "")
    assemble o text (o.format.getD "") conversion (o.mark.getD .free)
  else if o.implicit then
    if hasBrace text then .error (.implicitWithBraces text) else makeImplicit o text
  else do
    let pieces ← readPieces text
    ofPieces o text pieces

/-- The key that an input makes. A key that nothing changes is returned as it is. -/
def make (input : Input) (o : Options) : Except Error Key :=
  match input with
  | .text text => makeText o text
  | .path path => makeText o path.text
  | .key k => if o.change k then makeText (o.inherit k) k.template else .ok k

/-- The key of a template text. -/
def ofText (text : String) : Except Error Key :=
  makeText {} text

/-- The key of a bare name. -/
def ofName (text : String) : Except Error Key :=
  makeText { implicit := true } text

/-- The key that a text from a source names. -/
def ofReference (text : String) : Except Error Key :=
  if text.toList.contains '{' then ofText text else ofName text

end KeyExpansion.Key
