/-! What names stand for. -/
namespace ProcLang

/-- Where a variable lives: an index into the parameters or locals of its procedure, or into the
globals. -/
inductive Storage where
  | parameter (index : Nat)
  | localVar (index : Nat)
  | global (index : Nat)
  deriving DecidableEq, Repr

def Storage.display : Storage → String
  | .parameter i => s!"Parameter({i})"
  | .localVar i => s!"Local({i})"
  | .global i => s!"Global({i})"

/-- What a declared name stands for. -/
inductive Symbol where
  | var (storage : Storage)
  | procedure (index : Nat)
  deriving DecidableEq, Repr

def Symbol.display : Symbol → String
  | .var s => s.display
  | .procedure i => s!"Procedure({i})"

end ProcLang
