import GateFusion.Command.Dispatch

/-!
# The program

The surroundings of a command in a process, and the entry point.
-/

namespace GateFusion

/-- The fault behind an error of the system. Only a text that is none has no number there. -/
def faultOf : IO.Error → Command.FileFault
  | .noFileOrDirectory .. => .missing
  | .permissionDenied .. => .denied
  | .inappropriateType _ code _ => if code = 21 then .isDirectory else .notDirectory
  | .invalidArgument _ code reason => if code = 36 then .nameTooLong else .other reason
  | .userError _ => .notText
  | e => .other (toString e)

def attempt {β : Type} (action : IO β) : IO (Except Command.FileFault β) := do
  match ← action.toBaseIO with
  | .ok v => return .ok v
  | .error e => return .error (faultOf e)

def processHost : Command.Host IO where
  present path := do return (← attempt (IO.FS.realPath path)).isOk
  readText path := attempt (IO.FS.readFile path)
  writeText path text := attempt (IO.FS.writeFile path text)
  say := IO.println
  complain := IO.eprintln
  timed work := do
    let start ← IO.monoNanosNow
    let value ← IO.lazyPure work
    return (value, (← IO.monoNanosNow) - start)
  words n := (Array.range n).mapM fun _ => do
    return UInt64.ofNat (← IO.rand 0 (Nat.pow 2 64 - 1))

end GateFusion

def main (arguments : List String) : IO UInt32 :=
  GateFusion.Command.dispatch GateFusion.processHost arguments
