/-!
# Files by path

A tree of folders and files, and the rule by which a path leads through it: names are taken from
left to right between slashes, from the root if the path begins with one and else from the place
where the search starts.  An empty name and `.` stay, `..` goes up, and each of them, like any
other name, needs a folder to stand in.  The first name that leads nowhere decides.
-/

namespace Stave

/-- Why there is no text to be had at a path. -/
inductive FileFault where
  | missing
  | denied
  | notFolder
  | isFolder
  | nameTooLong
  | notText
  | other (message : String)
deriving DecidableEq

def FileFault.message : FileFault → String
  | .missing => "No such file or directory (os error 2)"
  | .denied => "Permission denied (os error 13)"
  | .notFolder => "Not a directory (os error 20)"
  | .isFolder => "Is a directory (os error 21)"
  | .nameTooLong => "File name too long (os error 36)"
  | .notText => "stream did not contain valid UTF-8"
  | .other message => message

/-- The texts of files by their paths. -/
abbrev Files := String → Except FileFault String

/-- A file, or a folder with its entries by name. -/
inductive FileTree where
  | file (text : String)
  | folder (entries : List (String × FileTree))

/-- Most bytes in one name. -/
def maxNameBytes : Nat := 255

/-- Most bytes in a path. -/
def maxPathBytes : Nat := 4095

/-- What stands somewhere in a tree, and the folders around it, innermost first. -/
structure Place where
  here : FileTree
  around : List (List (String × FileTree)) := []

namespace Place

/-- The root of the tree. -/
def root (p : Place) : Place :=
  match p.around.getLast? with
  | none => p
  | some entries => { here := .folder entries }

/-- The folder around a place; the root is around itself. -/
def up (p : Place) : Place :=
  match p.around with
  | [] => p
  | entries :: around => { here := .folder entries, around }

/-- Where one name of a path leads. -/
def follow (p : Place) (name : String) : Except FileFault Place :=
  match p.here with
  | .file _ => .error .notFolder
  | .folder entries =>
    if name = "" ∨ name = "." then .ok p
    else if name = ".." then .ok p.up
    else if maxNameBytes < name.utf8ByteSize then .error .nameTooLong
    else match entries.lookup name with
      | some here => .ok { here, around := entries :: p.around }
      | none => .error .missing

/-- Where a path leads; the empty one leads nowhere. -/
def find (p : Place) (path : String) : Except FileFault Place :=
  if path = "" then .error .missing
  else if maxPathBytes < path.utf8ByteSize then .error .nameTooLong
  else (path.splitOn "/").foldlM follow (if path.startsWith "/" then p.root else p)

/-- The files that can be reached from a place. -/
def files (p : Place) : Files := fun path => do
  match (← p.find path).here with
  | .file text => return text
  | .folder _ => throw .isFolder

end Place

end Stave
