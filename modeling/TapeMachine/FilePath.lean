/-!
# File paths

A path is a root and names below it. Its plain form has no empty names and no dots, but keeps the
double dots, since what they lead to depends on the files. Two slashes at the start are a root of
their own; any other number of them is the ordinary one.
-/

namespace TapeMachine

/-- A path in its plain form. -/
structure FilePath where
  /-- The slashes that an absolute path starts with. -/
  root : String
  parts : List String
deriving DecidableEq, Repr, Inhabited

namespace FilePath

/-- The root of a path that starts with the given number of slashes. -/
def rootOf (slashes : Nat) : String :=
  match slashes with
  | 0 => ""
  | 2 => "//"
  | _ => "/"

/-- Splits a text at its slashes, given the part that is being read. -/
def splitSlashes (part : List Char) : List Char → List (List Char)
  | [] => [part]
  | c :: rest =>
    if c = '/' then part :: splitSlashes [] rest else splitSlashes (part ++ [c]) rest

/-- The path that a text names. -/
def ofString (text : String) : FilePath where
  root := rootOf (text.toList.takeWhile (· == '/')).length
  parts := ((splitSlashes [] text.toList).map String.ofList).filter fun part =>
    part != "" && part != "."

/-- The text of a path. -/
def render (p : FilePath) : String :=
  let text := p.root ++ "/".intercalate p.parts
  if text.isEmpty then "." else text

end FilePath

end TapeMachine
