-- SUMMARY: Paths as text: components, joining, parents, making absolute.
import KeyExpansion.Text.Search

/-! # Paths

A path is kept as it was written. What it means is given by its components:
empty parts and parts `.` stand for nothing, except a `.` that starts a relative
path. Nothing here looks at the file tree, so `..` stays where it is. -/

namespace KeyExpansion

structure Path where
  text : String
deriving Repr, DecidableEq, Inhabited

namespace Path

inductive Component where
  | root
  | here
  | up
  | name (name : String)
deriving Repr, DecidableEq

/-- The parts between slashes, as written. -/
def parts (p : Path) : List String :=
  (Text.splitOn ['/'] p.text.toList).map String.ofList

def isAbsolute (p : Path) : Bool :=
  p.text.toList.head? == some '/'

/-- Does a part stand for nothing? -/
def isVoid (part : String) : Bool :=
  part == "" || part == "."

def Component.ofPart (part : String) : Component :=
  if part == ".." then .up else .name part

/-- The component at the start of a path. -/
def anchor (p : Path) : List Component :=
  if p.isAbsolute then [.root]
  else if p.parts.head? == some "." then [.here]
  else []

def components (p : Path) : List Component :=
  p.anchor ++ (p.parts.filter (!isVoid ·)).map Component.ofPart

/-- Are the components the same? -/
def sameComponents (p q : Path) : Bool :=
  p.components == q.components

/-- `q` as seen from `p`. An absolute path is the same from everywhere. -/
def join (p q : Path) : Path :=
  if q.isAbsolute then q
  else if p.text == "" || p.text.toList.getLast? == some '/' then ⟨p.text ++ q.text⟩
  else ⟨p.text ++ "/" ++ q.text⟩

/-- The path without void parts at its end. The first part of a relative path
    is kept unless it is empty. -/
def dropVoidEnd (absolute : Bool) (parts : List String) : List String :=
  go parts.reverse
where
  go : List String → List String
    | [] => []
    | [part] => if part == "" || (absolute && isVoid part) then [] else [part]
    | part :: parts => if isVoid part then go parts else (part :: parts).reverse

/-- The path one step up, cut from the written text. -/
def parent? (p : Path) : Option Path :=
  let absolute := p.isAbsolute
  let body := if absolute then p.parts.drop 1 else p.parts
  match dropVoidEnd absolute body with
  | [] => none
  | parts =>
    let above := "/".intercalate (dropVoidEnd absolute parts.dropLast)
    some ⟨if absolute then "/" ++ above else above⟩

/-- The path and everything above it, nearest first. -/
def ancestors (p : Path) : List Path :=
  go p.parts.length p
where
  go : Nat → Path → List Path
    | 0, p => [p]
    | fuel + 1, p => p :: (match p.parent? with | some q => go fuel q | none => [])

/-- What follows a leading `~` component. -/
def underHome? (p : Path) : Option Path :=
  match p.components with
  | .name "~" :: _ =>
    some ⟨"/".intercalate ((p.parts.filter (!isVoid ·)).drop 1)⟩
  | _ => none

/-- Join one component. -/
def push (p : Path) : Component → Path
  | .root => p.join ⟨"/"⟩
  | .here => p.join ⟨"."⟩
  | .up => p.join ⟨".."⟩
  | .name n => p.join ⟨n⟩

/-- Where an absolute form of the path starts, and the components to add. Two
    slashes at the start are kept apart from any other number. -/
def origin (cwd p : Path) : Path × List Component :=
  match p.text.toList with
  | '/' :: '/' :: '/' :: _ => (⟨"/"⟩, p.components.drop 1)
  | '/' :: '/' :: _ => (⟨"//"⟩, p.components.drop 1)
  | '/' :: _ => (⟨"/"⟩, p.components.drop 1)
  | _ => (cwd, p.components.filter (· != .here))

/-- The path from the root, without void parts. A slash at the end is kept. -/
def absolute (cwd p : Path) : Path :=
  let (start, components) := origin cwd p
  let whole := components.foldl push start
  if p.text.toList.getLast? == some '/' then whole.join ⟨""⟩ else whole

end Path

end KeyExpansion
