import WhileLang.Execution
import WhileLang.Lexicon
import WhileLang.Nesting
import WhileLang.Parse.Statement

/-!
Whole programs, from source text to the end of a run.
-/

namespace WhileLang

/-- The statements of a source text. Brackets are counted before anything is parsed. -/
def parseProgram (source : String) : Except Error (List Statement) := do
  let tokens ← tokenize source
  Nesting.check tokens
  Parse.statements tokens

/-- Runs a program in an empty scope. The end is recorded only if it is reached. -/
def runProgram (fuel : Nat) (program : List Statement) (console : Console) : Outcome :=
  let start : Machine := { console, events := #[.programStarted program.length] }
  match executeBlock fuel program start with
  | .finished machine => .finished (machine.record (.programFinished machine.scope.size))
  | .failed error machine => .failed error machine
  | .unfinished => .unfinished

def runSource (fuel : Nat) (source : String) (console : Console) : Outcome :=
  match parseProgram source with
  | .error error => .failed error { console }
  | .ok program => runProgram fuel program console

end WhileLang
