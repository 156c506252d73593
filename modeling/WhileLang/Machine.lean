import WhileLang.Scope

/-!
What a running program acts on: its scope, the console it prints to, and the events it leaves
behind for an observer.
-/

namespace WhileLang

/-- Where printed lines go. With a capacity, lines beyond that many are refused; a console may
refuse other lines as well, for reasons of its own that depend on what it has printed. A refused
line leaves no mark. -/
structure Console where
  capacity : Option Nat := none
  accepts : Array String → String → Bool := fun _ _ => true
  lines : Array String := #[]

def Console.write? (console : Console) (line : String) : Option Console :=
  if console.capacity.all (console.lines.size < ·) && console.accepts console.lines line then
    some { console with lines := console.lines.push line }
  else none

def Console.text (console : Console) : String :=
  console.lines.foldl (fun text line => text ++ line ++ "\n") ""

inductive Event where
  | programStarted (statements : Nat)
  | programFinished (bindings : Nat)
  | statementStarted (line : Nat)
  | loopFinished (line iterations : Nat)
deriving DecidableEq

inductive Detail where
  | debug
  | trace
deriving DecidableEq

namespace Event

def detail : Event → Detail
  | programStarted _ | programFinished _ => .debug
  | statementStarted _ | loopFinished _ _ => .trace

def message : Event → String
  | programStarted _ => "running program"
  | programFinished _ => "program finished"
  | statementStarted _ => "executing statement"
  | loopFinished _ _ => "loop finished"

end Event

structure Machine where
  scope : Scope := .outermost
  console : Console := {}
  events : Array Event := #[]

def Machine.record (machine : Machine) (event : Event) : Machine :=
  { machine with events := machine.events.push event }

/-- How a run ends. A run that fails keeps what it did before. -/
inductive Outcome where
  | finished (machine : Machine)
  | failed (error : Error) (machine : Machine)
  | unfinished

namespace Outcome

def machine? : Outcome → Option Machine
  | finished machine => some machine
  | failed _ machine => some machine
  | unfinished => none

def error? : Outcome → Option Error
  | failed error _ => some error
  | _ => none

end Outcome

end WhileLang
