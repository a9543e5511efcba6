import ProcLang.Event
import ProcLang.Tree.Program

/-! Frames of procedures. -/
namespace ProcLang

/-- Where the locals and parameters of a procedure lie above its frame pointer. The first local is
highest and the last parameter lowest. -/
structure Frame where
  size : Nat
  locals : List Nat
  parameters : List Nat
  deriving DecidableEq, Repr

namespace Frame

def layout (locals parameters : Nat) : Frame :=
  let size := wordSize * (locals + parameters)
  { size
    locals := (List.range locals).map fun i => size - wordSize * (i + 1)
    parameters := (List.range parameters).map fun j => size - wordSize * (locals + j + 1) }

def ofProcedure (p : Procedure) : Frame :=
  layout p.locals.length p.parameters.length

def event (p : Procedure) : Event :=
  let frame := ofProcedure p
  .frame p.name frame.size frame.locals frame.parameters

end Frame

end ProcLang
