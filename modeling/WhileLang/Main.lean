import WhileLang.CommandLine

/-!
The program itself: reads the file that the command line names, if any, and prints the reply.
-/

open WhileLang

def WhileLang.CommandLine.readFile? (path : String) : IO (Option String) := do
  try
    return some (← IO.FS.readFile path)
  catch _ =>
    return none

def main (arguments : List String) : IO UInt32 := do
  let request := CommandLine.request? arguments
  let file ←
    match request with
    | some (.run true _ path) => CommandLine.readFile? path
    | _ => pure none
  match CommandLine.reply (Nat.pow 2 62) file request with
  | none => return 1
  | some reply =>
      IO.print reply.output
      IO.eprint reply.errors
      return reply.code.toUInt32
