import Tabletop.Console

/-!
# The interactive program

Reads lines from standard input and answers them, with dice from a generator that is seeded by the
system. What is read and what is answered is decided in `Tabletop.Console`.
-/

namespace Tabletop

/-- A source that is seeded with random bytes of the system. -/
def seededSource : IO (Uniform SplitMix) := do
  let bytes ← IO.getRandomBytes 8
  let seed := bytes.foldl (fun (n : UInt64) b => n * 256 + b.toUInt64) 0
  return ⟨⟨seed⟩⟩

/-- Answers the lines of the input until it ends. -/
partial def converse (config : Config) (tray : Tray (Uniform SplitMix)) : IO Unit := do
  let stdin ← IO.getStdin
  let stdout ← IO.getStdout
  let stderr ← IO.getStderr
  stdout.putStr Console.prompt
  stdout.flush
  let line ← stdin.getLine
  unless line.isEmpty do
    let ((out, err), tray) := Console.reply config line tray
    stdout.putStr out
    stderr.putStr err
    converse config tray

end Tabletop

open Tabletop in
def main : IO UInt32 := do
  let keys := ["DICE_MAX_DICE", "DICE_MAX_CHAIN", "DICE_DIVISION"]
  let settings ← keys.mapM fun key => return (key, ← IO.getEnv key)
  match Config.ofSettings fun key => (settings.lookup key).join with
  | .error e =>
    (← IO.getStderr).putStr (Console.configComplaint e)
    return 1
  | .ok config =>
    converse config (.ofSource (← seededSource))
    return 0
