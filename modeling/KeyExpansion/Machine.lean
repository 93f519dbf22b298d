-- SUMMARY: The machine a run stands on: directories, home and file tree; resolving a path.
import KeyExpansion.Error
import KeyExpansion.FileTree

/-! # The machine

What a run may look at: its working directory, the directory its shell stands
in (which may lead through links), the home directory and the file tree. -/

namespace KeyExpansion

structure Machine where
  cwd : Path
  shell : Path
  home : Path
  files : FileTree
deriving Inhabited

namespace Machine

/-- The path with a leading `~` replaced by the home directory. -/
def expandHome (m : Machine) (p : Path) : Path :=
  match p.underHome? with
  | some rest => m.home.join rest
  | none => p

/-- The absolute form of a path, with links followed if something stands there. -/
def resolve (m : Machine) (p : Path) : Except Error Path :=
  let expanded := m.expandHome p
  if expanded.text == "" then .error (.io "cannot make an empty path absolute")
  else
    let absolute := Path.absolute m.cwd expanded
    .ok ((m.files.canonical? absolute).getD absolute)

end Machine

end KeyExpansion
