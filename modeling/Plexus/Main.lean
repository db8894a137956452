import Plexus.Demonstration

/-!
# Command line

The program gives the demonstration. Its first argument, if there is one, names a settings file.
-/

namespace Plexus

/-- The settings of the file named by the first argument; without one, the defaults. -/
def readSettings (arguments : List String) : IO (Except SettingsFault Settings) := do
  match arguments with
  | [] => return .ok {}
  | path :: _ => return Settings.load (← (IO.FS.readFile path).toBaseIO).toOption

end Plexus

open Plexus in
def main (arguments : List String) : IO UInt32 := do
  let settings ← readSettings arguments
  let report := Demonstration.report settings
  IO.print report.text
  if let .error fault := settings then
    IO.eprintln (fault.message?.getD "the settings cannot be read")
  return if report.isComplete then 0 else 1
