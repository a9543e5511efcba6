/-! A tree of files and directories, and the ways in which reading and writing can fail. -/
namespace ProcLang.Command

/-- Why a file cannot be read or written. -/
inductive Reason where
  | notFound
  | notDirectory
  | isDirectory
  | notUtf8
  | other (message : String)
  deriving DecidableEq, Repr

def Reason.text : Reason → String
  | .notFound => "No such file or directory (os error 2)"
  | .notDirectory => "Not a directory (os error 20)"
  | .isDirectory => "Is a directory (os error 21)"
  | .notUtf8 => "stream did not contain valid UTF-8"
  | .other message => message

/-- Names from the root down. -/
abbrev Path := List String

/-- Files by their paths. What a file or a directory lies in is a directory too. -/
structure FileTree where
  directories : List Path
  files : List (Path × ByteArray)

/-- What stands at a path. -/
inductive Node where
  | directory
  | file (contents : ByteArray)

namespace FileTree

def node? (t : FileTree) (path : Path) : Option Node :=
  match t.files.lookup path with
  | some contents => some (.file contents)
  | none =>
    if path.isEmpty || t.directories.any path.isPrefixOf || t.files.any (path.isPrefixOf ·.1) then
      some .directory
    else none

/-- Only directories can be entered. -/
def requireDirectory (t : FileTree) (path : Path) : Except Reason Unit :=
  match t.node? path with
  | some .directory => .ok ()
  | some (.file _) => .error .notDirectory
  | none => .error .notFound

/-- Follows names from a path. The root is its own parent. -/
def descend (t : FileTree) (path : Path) : List String → Except Reason Path
  | [] => .ok path
  | name :: names => do
    t.requireDirectory path
    if name = "" ∨ name = "." then t.descend path names
    else if name = ".." then t.descend path.dropLast names
    else t.descend (path ++ [name]) names

/-- The names in a path text, between its slashes. -/
def segments (text : String) : List String :=
  (text.toList.splitOn '/').map String.ofList

/-- Where a path text starts: at the root, or in the working directory. -/
def start (cwd : Path) (text : String) : Path :=
  if text.startsWith "/" then [] else cwd

def read (t : FileTree) (cwd : Path) (text : String) : Except Reason ByteArray := do
  let path ← t.descend (start cwd text) (segments text)
  match t.node? path with
  | some (.file contents) => .ok contents
  | some .directory => .error .isDirectory
  | none => .error .notFound

/-- Puts a file in the place of any other. -/
def put (t : FileTree) (path : Path) (contents : ByteArray) : FileTree :=
  { t with files := t.files.filter (·.1 != path) ++ [(path, contents)] }

/-- Creates or replaces the file that a path names. A path that ends in a slash names a
directory. -/
def write (t : FileTree) (cwd : Path) (text : String) (contents : ByteArray) :
    Except Reason FileTree :=
  match (segments text).reverse.dropWhile (· = "") with
  | [] => .error .isDirectory
  | last :: parents => do
    let directory ← t.descend (start cwd text) parents.reverse
    t.requireDirectory directory
    if last = "." ∨ last = ".." ∨ text.endsWith "/" then .error .isDirectory
    else
      match t.node? (directory ++ [last]) with
      | some .directory => .error .isDirectory
      | _ => .ok (t.put (directory ++ [last]) contents)

end FileTree

end ProcLang.Command
