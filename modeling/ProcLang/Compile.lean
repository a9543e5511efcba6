import ProcLang.Assembly.Printer
import ProcLang.Binding
import ProcLang.Codegen.Program
import ProcLang.Cursor.Program
import ProcLang.Token.Lexer
import ProcLang.Typing.Check

/-! From source to assembly. -/
namespace ProcLang

/-- The tree of a source. -/
def parseSource (source : String) : Traced Program := do
  let tokens ← Token.scan source
  Program.parse (Text.byteWidth source.toList) tokens

/-- The tree of a source, with names bound. -/
def bindSource (source : String) : Traced Program := do
  let program ← parseSource source
  let (program, ()) ← program.bind.traced
  return program

/-- The checked tree of a source, and its warnings. -/
def checkSource (source : String) : Traced (Program × List Warning) := do
  let program ← bindSource source
  program.check.traced

structure Compilation where
  assembly : Assembly
  warnings : List Warning

/-- The layout of frames, and the assembly. -/
def Program.generateTraced (p : Program) : Traced Assembly :=
  ⟨(p.procedures.filter (!·.isExternal)).map Frame.event, p.generate⟩

def compile (source : String) : Traced Compilation := do
  let (program, warnings) ← checkSource source
  let assembly ← program.generateTraced
  Traced.emit (.generated assembly.text.utf8ByteSize warnings.length)
  return ⟨assembly, warnings⟩

end ProcLang
