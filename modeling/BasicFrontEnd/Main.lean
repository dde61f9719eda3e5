import BasicFrontEnd.Command

/-!
The command at work on the files of the machine. Only the looking up of the path and the printing happen here.
-/

namespace BasicFrontEnd.Command

-- What a failure to read a file says about its path.
def foundOf : IO.Error → Except AccessFault FileTree
  | .noFileOrDirectory _ _ _ => .error .notFound
  | .inappropriateType _ code text =>
    if code = 21 then .ok (.directory []) else .error (.system text code.toNat)
  | .invalidArgument _ code text => .error (.system text code.toNat)
  | .permissionDenied _ code text => .ok (.barred (.system text code.toNat))
  | error => .ok (.barred (.system (toString error) 5))

-- Looks a path up among the files of the machine.
def lookUp (path : String) : IO (Except AccessFault FileTree) := do
  try
    let bytes ← IO.FS.readBinFile path
    return .ok (.file bytes.toList)
  catch error => return foundOf error

end BasicFrontEnd.Command

open BasicFrontEnd

def main (args : List String) : IO UInt32 := do
  let found ← match Command.Request.ofArgs none args with
    | .compile (some path) => Command.lookUp path
    | _                    => pure (.error .notFound)
  let outcome := Command.run (fun _ => found) args
  IO.print outcome.output
  return outcome.exitCode.toUInt32
