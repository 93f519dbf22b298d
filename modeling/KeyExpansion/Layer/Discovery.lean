-- SUMMARY: Finding the source files that apply to a directory.
import KeyExpansion.Layer.Basic
import KeyExpansion.Machine

/-! # Discovery

Files that are asked for come first, then those of the directory tree from the outside
in. Every file comes after those it includes, and once only. A local file comes last. -/

namespace KeyExpansion

/-- The name of source files. -/
def fileName : String := ".dkey.yaml"

/-- The name of local source files. -/
def localFileName : String := ".dkey.local.yaml"

structure DiscoveryOptions where
  noInherit : Bool := false
  forceInherit : Bool := false
  /-- Files to include besides, in order. -/
  includes : List String := []

namespace Machine

/-- The path seen from the working directory. -/
def fromHere (m : Machine) (p : Path) : Path :=
  if p.text == "" then p else m.cwd.join p

def isFile (m : Machine) (p : Path) : Bool :=
  m.files.isFile (m.fromHere p)

/-- The path of what a path leads to. -/
def canonical? (m : Machine) (p : Path) : Option Path :=
  m.files.canonical? (m.fromHere p)

/-- Load a source file. -/
def load (m : Machine) (p : Path) : Except Error Layer :=
  match m.files.text? (m.fromHere p) with
  | some text => do
    let layer ← Layer.ofText text
    return { layer with path := some p }
  | none => .error (.readFailed p)

/-- Where an include leads: from the home directory, from the root or from a directory. -/
def includePath (m : Machine) (base : Path) (text : String) : Path :=
  if text.toList.head? == some '~' then
    m.home.join ⟨String.ofList ((Text.stripPrefix? ['~', '/'] text.toList).getD text.toList)⟩
  else base.join ⟨text⟩

def resolveInclude (m : Machine) (base : Path) (text : String) : Except Error Path :=
  let path := m.includePath base text
  match m.canonical? path with
  | some found => .ok found
  | none => .error (.includeNotFound path)

/-- The files that a layer includes. -/
def resolveIncludes (m : Machine) (layer : Layer) : Except Error (List Path) :=
  match layer.path.bind Path.parent? with
  | some base => layer.includes.mapM (m.resolveInclude base)
  | none => .error (.validation "Cannot resolve includes without source_path")

/-- The directory that a search starts from. The shell's view of the working directory
    counts, so that links in it stay. -/
def startOf (m : Machine) (start : Path) : Path :=
  m.shell.join start

/-- Load the files of the directories above, as long as they let their parents in. Files
    further out come first. -/
def climb (m : Machine) : List Path → List Layer → Except Error (List Layer)
  | [], found => .ok found
  | directory :: more, found => do
    let path := directory.join ⟨fileName⟩
    if m.isFile path then
      let layer ← m.load path
      if layer.inherit then climb m more (layer :: found) else return layer :: found
    else climb m more found

/-- Does the file of the start directory let its parents in? -/
def opens (options : DiscoveryOptions) (layer : Layer) : Bool :=
  options.forceInherit || (!options.noInherit && layer.inherit)

/-- The files of the directory tree, outermost first. -/
def inTree (m : Machine) (start : Path) (options : DiscoveryOptions) :
    Except Error (List Layer) := do
  let path := start.join ⟨fileName⟩
  let above := start.ancestors.drop 1
  let found ←
    if m.isFile path then do
      let layer ← m.load path
      if opens options layer then m.climb above [layer] else pure [layer]
    else if options.noInherit then throw (.notFoundAtPath start)
    else m.climb above []
  if found.isEmpty then throw (.notFoundInTree start) else return found

/-- The files ordered so far, and the paths of those among them. -/
structure Ordered where
  loaded : List Path := []
  layers : List Layer := []

/-- Put a file behind those it includes. `waiting` holds the files whose includes are
    being put; at most `depth` more can be. -/
def visit (m : Machine) : (depth : Nat) → (waiting : List Path) → Path → Layer → Ordered →
    Except Error Ordered
  | 0, _, path, _, _ => .error (.circularInclude path)
  | depth + 1, waiting, path, layer, ordered => do
    let waiting := path :: waiting
    let includes ← if layer.includes.isEmpty then pure [] else m.resolveIncludes layer
    let ordered ← includes.foldlM (fun ordered included =>
      if waiting.contains included then throw (.circularInclude included)
      else if ordered.loaded.contains included then return ordered
      else do
        let layer ← m.load included
        visit m depth waiting included layer ordered) ordered
    return { loaded := path :: ordered.loaded, layers := ordered.layers ++ [layer] }

/-- Put files in order, each once. Files in the tree bound how deep includes go. -/
def order (m : Machine) (files : List (Path × Layer)) : Except Error (List Layer) := do
  let depth := m.files.entries.length + 1
  let ordered ← files.foldlM (fun ordered (path, layer) =>
    if ordered.loaded.contains path then pure ordered else m.visit depth [] path layer ordered) ({} : Ordered)
  return ordered.layers

/-- Files that are asked for by name. -/
def loadIncludes (m : Machine) (start : Path) (texts : List String) :
    Except Error (List (Path × Layer)) :=
  texts.mapM fun text => do
    let path ← m.resolveInclude start text
    let layer ← m.load path
    return (path, layer)

/-- The canonical path of a file that was loaded. -/
def identify (m : Machine) (layer : Layer) : Except Error (Path × Layer) :=
  match layer.path.bind m.canonical? with
  | some path => .ok (path, layer)
  | none => .error (.io "a source file is gone")

/-- The source files that apply to a directory, in the order in which they are merged. -/
def discover (m : Machine) (start : Path) (options : DiscoveryOptions) :
    Except Error (List Layer) := do
  let start := m.startOf start
  let asked ← m.loadIncludes start options.includes
  let found ← m.inTree start options
  let found ← found.mapM m.identify
  let layers ← m.order (asked ++ found)
  let localPath := start.join ⟨localFileName⟩
  let layers ←
    if m.isFile localPath then do
      let layer ← m.load localPath
      pure (layers ++ [layer])
    else pure layers
  layers.forM Layer.validate
  return layers

end Machine

end KeyExpansion
