/-! Arguments of the command line. -/
namespace ProcLang.Command

/-- What a command line asks for. -/
inductive Request where
  /-- Compile a file; without an output, the place of the assembly follows from the input. -/
  | compile (input : String) (output : Option String)
  | version
  | help
  deriving DecidableEq, Repr

/-- The paths found so far. -/
structure Paths where
  input : Option String
  output : Option String
  deriving DecidableEq, Repr

namespace Paths

/-- A path is not empty and is given once. -/
def setInput? (p : Paths) (path : String) : Option Paths :=
  if path.isEmpty || p.input.isSome then none else some { p with input := some path }

def setOutput? (p : Paths) (path : String) : Option Paths :=
  if path.isEmpty || p.output.isSome then none else some { p with output := some path }

end Paths

/-- Looks like an option, so that it is no value; a lone dash is a path. -/
def isOption (arg : String) : Bool :=
  arg.startsWith "-" && arg != "-"

/-- The meaning of a single argument between others. -/
inductive Meaning where
  | path (path : String)
  | output (path : String)
  /-- The next argument is the output. -/
  | outputNext
  | endOfOptions
  | version
  | help
  | unknown
  deriving DecidableEq, Repr

/-- Letters after a dash, from the first: `-o` takes what follows it, after an optional `=`. -/
def shortMeaning : List Char → Meaning
  | ['o'] => .outputNext
  | 'o' :: '=' :: path => .output (String.ofList path)
  | 'o' :: path => .output (String.ofList path)
  | 'V' :: _ => .version
  | 'h' :: _ => .help
  | _ => .unknown

def longMeaning (word : List Char) : Meaning :=
  let value := (word.dropWhile (· != '=')).drop 1
  match String.ofList (word.takeWhile (· != '=')), word.contains '=' with
  | "output", true => .output (String.ofList value)
  | "output", false => .outputNext
  | "version", false => .version
  | "help", false => .help
  | _, _ => .unknown

def meaning (arg : String) : Meaning :=
  match arg.toList with
  | ['-', '-'] => .endOfOptions
  | '-' :: '-' :: word => longMeaning word
  | ['-'] => .path arg
  | '-' :: letters => shortMeaning letters
  | _ => .path arg

/-- Arguments after `--` are all paths. -/
def readPaths (p : Paths) : List String → Option Paths
  | [] => some p
  | arg :: args => do
    let p ← p.setInput? arg
    readPaths p args

/-- An input is required. -/
def Paths.request? (p : Paths) : Option Request :=
  p.input.map fun input => .compile input p.output

/-- Reads arguments from left to right; `none` is a misuse. The first argument that asks for the
version or for help decides. -/
def readFrom (p : Paths) : List String → Option Request
  | [] => p.request?
  | arg :: args =>
    match meaning arg with
    | .path path => do
      let p ← p.setInput? path
      readFrom p args
    | .output path => do
      let p ← p.setOutput? path
      readFrom p args
    | .outputNext =>
      match args with
      | [] => none
      | path :: args =>
        if isOption path then none
        else do
          let p ← p.setOutput? path
          readFrom p args
    | .endOfOptions => (readPaths p args).bind Paths.request?
    | .version => some .version
    | .help => some .help
    | .unknown => none

def Request.ofArguments? (args : List String) : Option Request :=
  readFrom ⟨none, none⟩ args

end ProcLang.Command
