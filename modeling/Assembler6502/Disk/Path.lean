/-
Paths.

A path is a text in which slashes divide the names of directories and, last, of
a file.  Paths are reported as they were written, so these functions work on
the text: the directory of a path, a name next to a path, another extension.
-/
namespace Assembler6502

namespace Path

/-- The pieces of a text between slashes. -/
def pieces : List Char → List (List Char)
  | [] => [[]]
  | c :: rest =>
    if c = '/' then [] :: pieces rest
    else
      match pieces rest with
      | [] => [[c]]
      | piece :: others => (c :: piece) :: others

/-- The components of a path; empty ones stand for repeated, leading and trailing slashes. -/
def components (path : String) : List String :=
  (pieces path.toList).map String.ofList

def isAbsolute (path : String) : Bool :=
  path.toList.head? = some '/'

/-- Whether a component leads nowhere. -/
def isIdle (component : String) : Bool :=
  component = "" || component = "."

/-- Removes idle components, but not the first of the path; the list has the last one first. -/
def dropIdle : List String → List String
  | [] => []
  | [first] => [first]
  | component :: rest => if isIdle component then dropIdle rest else component :: rest

/-- The directory of a path. -/
def parent (path : String) : String :=
  match (dropIdle (components path).reverse.tail).reverse with
  | [""] => "/"
  | directory => "/".intercalate directory

/-- A path in a directory; an absolute path stays as it is. -/
def join (directory path : String) : String :=
  if isAbsolute path || directory = "" then path
  else if directory.toList.getLast? = some '/' then directory ++ path
  else directory ++ "/" ++ path

/-- A name without its extension.  A dot at the start of a name does not begin an extension. -/
def stem (name : List Char) : List Char :=
  match (name.reverse.dropWhile (· ≠ '.')).tail.reverse with
  | [] => name
  | before => before

/-- The path with another extension of the name of the file. -/
def withExtension (path extension : String) : String :=
  match (pieces path.toList).reverse with
  | [] => path
  | name :: directory =>
    "/".intercalate ((stem name :: directory).reverse.map String.ofList) ++ "." ++ extension

/-- Whether two paths are the same but for idle components. -/
def same (p q : String) : Bool :=
  key p = key q
where
  key (path : String) : Bool × List String :=
    match components path with
    | [] => (false, [])
    | first :: rest =>
      (isAbsolute path,
        (if first = "" then [] else [first]) ++ rest.filter fun c => !isIdle c)

end Path

end Assembler6502
