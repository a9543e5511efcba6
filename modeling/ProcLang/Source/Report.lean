import ProcLang.Source.Position
import ProcLang.Fault

/-! Faults and warnings as they are shown, with the line they point at. -/
namespace ProcLang.Source

/-- A mistake at a byte offset of a source. -/
structure ErrorReport where
  kind : ErrorKind
  message : String
  loc : Nat
  position : Position
  deriving DecidableEq, Repr

namespace ErrorReport

def ofOffset (source : String) (kind : ErrorKind) (loc : Nat) (message : String) : ErrorReport :=
  ⟨kind, message, loc, .ofOffset source loc⟩

def render (r : ErrorReport) : String :=
  s!"ERROR: {r.message} @{r.loc} ({r.position.line},{r.position.column}):\n" ++
    s!"{r.position.lineText}\n{r.position.marker}"

end ErrorReport

/-- A warning at a byte offset of a source. -/
structure WarningReport where
  message : String
  loc : Nat
  line : Nat
  column : Nat
  deriving DecidableEq, Repr

namespace WarningReport

def ofOffset (source : String) (loc : Nat) (message : String) : WarningReport :=
  let position := Position.ofOffset source loc
  ⟨message, loc, position.line, position.column⟩

def render (r : WarningReport) : String :=
  s!"WARNING: {r.message} @{r.loc} ({r.line},{r.column})"

end WarningReport

/-- A fault as it is shown. -/
inductive Report where
  | error (report : ErrorReport)
  | internal (message : String)
  deriving DecidableEq, Repr

namespace Report

def ofFault (source : String) : Fault → Report
  | .located loc cause => .error (.ofOffset source cause.kind loc cause.message)
  | .internal breach => .internal breach.message

def render : Report → String
  | .error report => report.render
  | .internal message => s!"INTERNAL ERROR: {message}"

def kind? : Report → Option ErrorKind
  | .error report => some report.kind
  | .internal _ => none

def message : Report → String
  | .error report => report.message
  | .internal message => message

def loc? : Report → Option Nat
  | .error report => some report.loc
  | .internal _ => none

end Report

end ProcLang.Source
