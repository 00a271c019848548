import PlaybackCues.Settings.VariableFile
import PlaybackCues.Simulation

set_option autoImplicit false

/-!
# The command line

Reads the environment, a file of variables in the working directory and the notes file, and prints
the log of the simulation. A start that fails prints its reason and exits with one.
-/
namespace PlaybackCues.CommandLine

def readText (path : String) : IO (Except String String) := do
  try
    return .ok (← IO.FS.readFile path)
  catch
    | .noFileOrDirectory .. => return .error Simulation.missingFile
    | e => return .error (toString e)

/-- The values that the process has for the variables of the program. -/
def processVariables : IO (List (String × String)) := do
  let names := ["CUEMARK_NOTES_FILE", "CUEMARK_SIM_DURATION_SECS", "CUEMARK_SIM_REALTIME",
    "CUEMARK_POLL_INTERVAL_MS", "CUEMARK_RECONCILE_DEBOUNCE_MS", "CUEMARK_SEEK_THRESHOLD_SECS",
    "CUEMARK_ACTIVATION_TOLERANCE_SECS"]
  names.filterMapM fun name => do
    return (← IO.getEnv name).map fun value => (name, value)

def fail (f : Simulation.Failure) : IO UInt32 := do
  IO.eprintln f.message
  return 1

def run : IO UInt32 := do
  let file ← readText ".env"
  let stored := VariableFile.read (file.toOption.getD "").toList
  let env := Environment.layered (Environment.ofList (← processVariables)) stored
  match Simulation.notesPath env with
  | .error f => fail f
  | .ok path =>
    match ← readText path with
    | .error cause => fail (.unreadableNotes path cause)
    | .ok notes =>
      for line in Simulation.log env path notes.toList do
        IO.println line
      return 0

end PlaybackCues.CommandLine

def main : IO UInt32 := PlaybackCues.CommandLine.run
