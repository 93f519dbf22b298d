-- SUMMARY: A file tree as a value: directories, files, links, and where a path leads.
import KeyExpansion.Path

/-! # File trees

A tree lists what stands at each name path from the root. Looking at a path
walks its parts, so that links are followed where they stand and `..` leaves the
directory that was really reached. -/

namespace KeyExpansion

/-- The content of a file: text, or bytes that are no text. -/
inductive Content where
  | text (text : String)
  | binary (bytes : List UInt8)
deriving Repr, DecidableEq

inductive FileNode where
  | file (content : Content)
  | directory
  | link (target : Path)
deriving Repr, DecidableEq

/-- A place in the tree: the names from the root. -/
abbrev Place := List String

structure FileTree where
  entries : List (Place × FileNode) := []
deriving Repr, Inhabited

namespace FileTree

/-- What stands at a place. The root is a directory. -/
def node? (tree : FileTree) (place : Place) : Option FileNode :=
  if place.isEmpty then some .directory
  else (tree.entries.find? (·.1 == place)).map (·.2)

def isDirectory (tree : FileTree) (place : Place) : Bool :=
  tree.node? place == some .directory

/-- Put a node at a place, in the stead of what stood there. -/
def put (tree : FileTree) (place : Place) (node : FileNode) : FileTree :=
  ⟨(place, node) :: tree.entries.filter (·.1 != place)⟩

/-- The place itself and the places it lies in, outermost first. -/
def outward (place : Place) : List Place :=
  (List.range (place.length + 1)).map (place.take ·)

/-- Make a place a directory, and those it lies in, where nothing stands yet. -/
def makeDirectories (tree : FileTree) (place : Place) : FileTree :=
  (outward place).foldl (fun tree above =>
    if (tree.node? above).isSome then tree else tree.put above .directory) tree

/-- Put a node at a place and make the directories above it. -/
def add (tree : FileTree) (place : Place) (node : FileNode) : FileTree :=
  (tree.makeDirectories place.dropLast).put place node

/-- How a walk ends: at a place, at nothing, or at a link that leads on. -/
inductive Walk where
  | arrived (place : Place)
  | missing
  | follow (start : Place) (parts : List String)

/-- Where the parts of a link target start from. -/
def linkStart (at_ : Place) (target : Path) : Place :=
  if target.isAbsolute then [] else at_

/-- Walk parts from a place up to the first link. -/
def walk (tree : FileTree) : Place → List String → Walk
  | here, [] => .arrived here
  | here, part :: parts =>
    if !tree.isDirectory here then .missing
    else if Path.isVoid part then walk tree here parts
    else if part == ".." then walk tree here.dropLast parts
    else
      match tree.node? (here ++ [part]) with
      | none => .missing
      | some (.link target) => .follow (linkStart here target) (target.parts ++ parts)
      | some _ => walk tree (here ++ [part]) parts

/-- Walk parts through at most `links` links. -/
def chase (tree : FileTree) : Nat → Place → List String → Option Place
  | links, here, parts =>
    match tree.walk here parts with
    | .arrived place => some place
    | .missing => none
    | .follow start parts =>
      match links with
      | 0 => none
      | links + 1 => chase tree links start parts

/-- A path may lead through this many links. -/
def mostLinks : Nat := 40

/-- The place that an absolute path leads to. -/
def locate? (tree : FileTree) (p : Path) : Option Place :=
  if p.text == "" then none else tree.chase mostLinks [] p.parts

/-- The path of a place. -/
def pathOf (place : Place) : Path :=
  ⟨"/" ++ "/".intercalate place⟩

/-- The path of the place that an absolute path leads to. -/
def canonical? (tree : FileTree) (p : Path) : Option Path :=
  (tree.locate? p).map pathOf

def exists_ (tree : FileTree) (p : Path) : Bool :=
  (tree.locate? p).isSome

/-- The content of the file that an absolute path leads to. -/
def content? (tree : FileTree) (p : Path) : Option Content :=
  match (tree.locate? p).bind tree.node? with
  | some (.file content) => some content
  | _ => none

def isFile (tree : FileTree) (p : Path) : Bool :=
  (tree.content? p).isSome

/-- The text of the file that an absolute path leads to. -/
def text? (tree : FileTree) (p : Path) : Option String :=
  match tree.content? p with
  | some (.text text) => some text
  | _ => none

/-- The place of the file that writing to parts from a place makes or changes. At
    most `links` links at the end are followed. -/
def writtenAt? (tree : FileTree) : Nat → Place → List String → Option Place
  | links, here, parts =>
    match parts.getLast? with
    | none => none
    | some last =>
      if Path.isVoid last || last == ".." then none
      else
        match tree.chase mostLinks here parts.dropLast with
        | none => none
        | some directory =>
          if !tree.isDirectory directory then none
          else
            match tree.node? (directory ++ [last]), links with
            | some .directory, _ => none
            | some (.link target), links + 1 =>
              writtenAt? tree links (linkStart directory target) target.parts
            | some (.link _), 0 => none
            | _, _ => some (directory ++ [last])

/-- Write a text to the file at an absolute path, in a directory that exists. -/
def write? (tree : FileTree) (p : Path) (text : String) : Option FileTree :=
  (tree.writtenAt? mostLinks [] p.parts).map fun place => tree.put place (.file (.text text))

end FileTree

end KeyExpansion
