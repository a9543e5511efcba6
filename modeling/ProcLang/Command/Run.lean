import ProcLang.Command.Arguments
import ProcLang.Command.FileTree
import ProcLang.Compile

/-! The command line: reads a source file and writes its assembly. -/
namespace ProcLang.Command

def versionText : String := "caplanc 0.1.0\n"

def usageText : String := "Usage: caplanc [OPTIONS] <INPUT>\n"

def helpText : String :=
  "Compiler for the Caplan teaching language, emitting NASM x86-64 assembly\n\n" ++ usageText ++
  "\nArguments:\n  <INPUT>  Source file to compile\n" ++
  "\nOptions:\n" ++
  "  -o, --output <OUTPUT>  Where to write the assembly; defaults to INPUT with an `.asm` " ++
  "extension\n" ++
  "  -h, --help             Print help\n  -V, --version          Print version\n"

/-- A file name up to its last dot, unless it starts there. -/
def dropExtension (name : List Char) : List Char :=
  match name.reverse.dropWhile (· != '.') with
  | '.' :: c :: cs => (c :: cs).reverse
  | _ => name

/-- A file name up to its last dot and with it, unless it starts there. -/
def cutExtension (name : List Char) : List Char :=
  match name.reverse.dropWhile (· != '.') with
  | '.' :: c :: cs => ('.' :: c :: cs).reverse
  | _ => name

/-- One dot names a directory itself and two dots its parent; no file has these names. -/
def isDots (name : List Char) : Bool :=
  name == ['.'] || name == ['.', '.']

/-- A file name with the extension of assembly files. The old extension goes first, and what then
names a directory takes no new one. -/
def assemblyName (name : List Char) : List Char :=
  if isDots (cutExtension name) then cutExtension name
  else dropExtension name ++ ['.', 'a', 's', 'm']

/-- Where the assembly of a source is put if nothing else is said: beside it. -/
def assemblyPath (input : String) : String :=
  let name := (input.toList.reverse.takeWhile (· != '/')).reverse
  let directory := input.toList.take (input.toList.length - name.length)
  String.ofList (directory ++ assemblyName name)

/-- What a run shows: its exit status and its output texts. -/
structure Outcome where
  status : UInt32
  stdout : String
  stderr : String
  deriving DecidableEq, Repr

namespace Outcome

def success (stdout : String) : Outcome := ⟨0, stdout, ""⟩

def failure (message : String) : Outcome := ⟨1, "", message ++ "\n"⟩

def misuse : Outcome := ⟨2, "", usageText⟩

end Outcome

/-- Access to files, in a monad that carries them. -/
structure Files (m : Type → Type) where
  read : String → m (Except Reason ByteArray)
  write : String → ByteArray → m (Except Reason Unit)

/-- Compiles one file. The output is touched only if there is something to write. -/
def compileFile [Monad m] (files : Files m) (input output : String) : m Outcome := do
  match ← files.read input with
  | .error reason => return .failure s!"cannot read {input}: {reason.text}"
  | .ok contents =>
    match String.fromUTF8? contents with
    | none => return .failure s!"cannot read {input}: {Reason.notUtf8.text}"
    | some source =>
      match (compile source).result with
      | .error fault => return .failure (Source.Report.ofFault source fault).render
      | .ok compilation =>
        match ← files.write output compilation.assembly.text.toUTF8 with
        | .error reason => return .failure s!"cannot write {output}: {reason.text}"
        | .ok () => return .success ""

def run [Monad m] (files : Files m) (args : List String) : m Outcome :=
  match Request.ofArguments? args with
  | none => return .misuse
  | some .version => return .success versionText
  | some .help => return .success helpText
  | some (.compile input output) =>
    compileFile files input (output.getD (assemblyPath input))

/-- Access to a tree, from a working directory. -/
def Files.ofTree (cwd : Path) : Files (StateM FileTree) where
  read path := return (← get).read cwd path
  write path contents := do
    match (← get).write cwd path contents with
    | .error reason => return .error reason
    | .ok tree =>
      set tree
      return .ok ()

/-- A run in a working directory of a tree, and the tree that it leaves. -/
def runIn (cwd : Path) (tree : FileTree) (args : List String) : Outcome × FileTree :=
  (run (Files.ofTree cwd) args).run tree

end ProcLang.Command
