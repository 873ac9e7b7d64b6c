import TapeMachine.FilePath

/-!
# File trees

A directory with files and directories in it, as far as a program can be read from it. Nothing is
known of what lies above it: double dots lead out of the tree, to directories in which nothing can
be found, and so do absolute paths.
-/

namespace TapeMachine

/-- Why a file could not be opened. -/
inductive OpenFailure where
  | missing
  | isDirectory
  | notDirectory
  | nameTooLong
  /-- For any other reason, in the words of the system. -/
  | refused (message : String)
deriving DecidableEq, Repr, Inhabited

/-- The words for a failure. -/
def OpenFailure.message : OpenFailure → String
  | .missing => "no such file"
  | .isDirectory => "Is a directory"
  | .notDirectory => "Not a directory"
  | .nameTooLong => "File name too long"
  | .refused message => message

/-- The contents of a directory, all of it named by paths from there. -/
structure FileTree where
  files : List (List String × List UInt8) := []
  directories : List (List String) := []
deriving DecidableEq, Repr, Inhabited

namespace FileTree

/-- The number of bytes that a name may have. -/
def maxNameSize : Nat :=
  255

/-- The number of bytes that a path may have. -/
def maxPathSize : Nat :=
  4095

/-- Whether a path leads to a directory: to one that is listed, or to one that something listed lies
in. -/
def isDirectory (t : FileTree) (parts : List String) : Bool :=
  t.directories.any parts.isPrefixOf || t.files.any fun file => parts.isPrefixOf file.1.dropLast

/-- A directory on the way along a path. -/
inductive Place where
  | inside (parts : List String)
  | outside
deriving DecidableEq, Repr, Inhabited

/-- The directory above. -/
def Place.parent : Place → Place
  | .inside [] => .outside
  | .inside parts => .inside parts.dropLast
  | .outside => .outside

/-- The contents of the file that the rest of a path leads to. Every name on the way but the last
must be that of a directory. -/
def openFrom (t : FileTree) (place : Place) : List String → Except OpenFailure (List UInt8)
  | [] => .error .isDirectory
  | part :: rest =>
    if part = ".." then
      t.openFrom place.parent rest
    else if maxNameSize < part.utf8ByteSize then
      .error .nameTooLong
    else
      match place with
      | .outside => .error .missing
      | .inside parts =>
        let here := parts ++ [part]
        match t.files.lookup here with
        | some contents => if rest.isEmpty then .ok contents else .error .notDirectory
        | none => if t.isDirectory here then t.openFrom (.inside here) rest else .error .missing

/-- The contents of the file with a path. -/
def read (t : FileTree) (p : FilePath) : Except OpenFailure (List UInt8) :=
  if maxPathSize < p.render.utf8ByteSize then .error .nameTooLong
  else t.openFrom (if p.root.isEmpty then .inside [] else .outside) p.parts

end FileTree

end TapeMachine
