import GateFusion.Command.Directory
import GateFusion.Command.Host

/-!
# Sessions

Surroundings of a command that are a value: a directory in memory and the lines printed so far. No
time passes in a session, and every random word is the same.
-/

namespace GateFusion.Command

/-- A directory, and the printed lines in order. -/
structure Session where
  directory : Directory
  printed : Array String
  complaints : Array String

namespace Session

/-- A session in the directory with the given files before anything is printed. -/
def start (files : List (String × String)) : Session := ⟨.ofFiles files, #[], #[]⟩

def host (word : UInt64) : Host (StateM Session) where
  present path := do return (← get).directory.present path
  readText path := do return (← get).directory.readText path
  writeText path text := do
    match (← get).directory.writeText path text with
    | .ok directory =>
      modify fun s => { s with directory }
      return .ok ()
    | .error fault => return .error fault
  say line := modify fun s => { s with printed := s.printed.push line }
  complain line := modify fun s => { s with complaints := s.complaints.push line }
  timed work := return (work (), 0)
  words n := return Array.replicate n word

end Session

end GateFusion.Command
