import ProcLang.Command.Run

/-! The program. -/
namespace ProcLang.Command

/-- The system's error number. Some calls report it negated, as a number of 32 bits. -/
def errorNumber (code : UInt32) : UInt32 :=
  if code < 0x80000000 then code else 0 - code

/-- The reason behind a failure of the operating system. -/
def Reason.ofError : IO.Error → Reason
  | .noFileOrDirectory .. => .notFound
  | error@(.inappropriateType _ code _) =>
    match errorNumber code with
    | 20 => .notDirectory
    | 21 => .isDirectory
    | _ => .other error.toString
  | error => .other error.toString

def Files.ofSystem : Files IO where
  read path := do
    try return .ok (← IO.FS.readBinFile path)
    catch error => return .error (.ofError error)
  write path contents := do
    try
      IO.FS.writeBinFile path contents
      return .ok ()
    catch error => return .error (.ofError error)

end ProcLang.Command

open ProcLang.Command in
def main (args : List String) : IO UInt32 := do
  let outcome ← run Files.ofSystem args
  IO.print outcome.stdout
  IO.eprint outcome.stderr
  return outcome.status
