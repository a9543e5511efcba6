import ProcLang.Source.Report

/-! What happens during a compilation, as the log tells it. -/
namespace ProcLang

inductive Level where
  | trace | debug | warn
  deriving DecidableEq, Repr

def Level.label : Level → String
  | .trace => "TRACE"
  | .debug => "DEBUG"
  | .warn => "WARN"

/-- A finding that does not stop the compilation: a `void*` is assigned to a pointer to something
else, of type `target`. -/
structure Warning where
  loc : Nat
  target : Ty
  deriving DecidableEq, Repr

namespace Warning

def message (w : Warning) : String :=
  s!"Implicitly casting void* to {w.target.display} for assignment"

def report (source : String) (w : Warning) : Source.WarningReport :=
  .ofOffset source w.loc w.message

end Warning

inductive Event where
  | comment (start stop : Nat)
  | scanned (tokens : Nat)
  | globals (declared : List (Ty × String))
  | parsed (external : Bool) (procedure : String)
  | resolved (token : Token) (count : Nat) (operator : Operator)
  | bound (name : String) (loc : Nat) (storage : Storage)
  | unbound (name : String) (loc : Nat)
  | unboundCall (name : String) (loc : Nat)
  | boundProcedure (name : String)
  | typed (loc : Nat) (operator : Operator) (result : Ty)
  | warning (w : Warning)
  | checkedProcedure (name : String)
  | frame (procedure : String) (size : Nat) (locals parameters : List Nat)
  | generated (bytes warnings : Nat)
  deriving DecidableEq, Repr

namespace Event

def level : Event → Level
  | .comment .. | .resolved .. | .bound .. | .unbound .. | .unboundCall .. | .typed .. => .trace
  | .scanned _ | .globals _ | .parsed .. | .boundProcedure _ | .checkedProcedure _ | .frame ..
  | .generated .. => .debug
  | .warning _ => .warn

/-- A list in brackets. -/
def bracketed (items : List String) : String :=
  "[" ++ ", ".intercalate items ++ "]"

def message (source : String) : Event → String
  | .comment start stop => s!"comment scanned from @{start} to @{stop}"
  | .scanned tokens => s!"scanned {tokens} tokens"
  | .globals declared =>
    "global variables: " ++ bracketed (declared.map fun (ty, name) => s!"{ty.display} {name}")
  | .parsed external procedure =>
    let origin := if external then "external" else "internal"
    s!"parsed {origin} procedure {procedure}"
  | .resolved token count operator =>
    s!"resolved {token.display} with {count} operand(s) to {operator.description}"
  | .bound name loc storage => s!"bound {name} @{loc} to {storage.display}"
  | .unbound name loc => s!"{name} @{loc} left unbound"
  | .unboundCall name loc => s!"call to {name} @{loc} left unbound"
  | .boundProcedure name => s!"bound procedure {name}"
  | .typed loc operator result => s!"@{loc} {operator.description} : {result.display}"
  | .warning w => (w.report source).render
  | .checkedProcedure name => s!"verified procedure {name}"
  | .frame procedure size locals parameters =>
    s!"frame of {procedure}: {size} bytes, locals at " ++ bracketed (locals.map toString) ++
      ", parameters at " ++ bracketed (parameters.map toString)
  | .generated bytes warnings =>
    s!"generated {bytes} bytes of assembly with {warnings} warning(s)"

/-- The line of the log. -/
def line (source : String) (e : Event) : String :=
  s!"{e.level.label} {e.message source}"

/-- The warning that an event reports, if it is one. -/
def warning? : Event → Option Warning
  | .warning w => some w
  | _ => none

end Event

end ProcLang
