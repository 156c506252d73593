import WhileLang.Program

/-!
The command line: which arguments are accepted, and what a run leaves on the two output streams.
Arguments are read from left to right and the first that settles the matter does so: a mistake, or
the wish to see the version.
-/

namespace WhileLang.CommandLine

structure Options where
  /-- The contents name a file that holds the program. -/
  readsFile : Bool := false
  dumpsState : Bool := false
  contents : Option String := none

inductive Flag where
  | file
  | dumpState
  | version

inductive Request where
  | version
  | run (readsFile dumpsState : Bool) (contents : String)

def Flag.ofShort? : Char → Option Flag
  | 'f' => some .file
  | 'd' => some .dumpState
  | 'V' => some .version
  | _ => none

def Flag.ofLong? : String → Option Flag
  | "--file" => some .file
  | "--dump-state" => some .dumpState
  | "--version" => some .version
  | _ => none

inductive Reading where
  | going (options : Options)
  | version
  | misused

namespace Reading

def flag (options : Options) : Option Flag → Reading
  | some .version => .version
  | some .file =>
      if options.readsFile then .misused else .going { options with readsFile := true }
  | some .dumpState =>
      if options.dumpsState then .misused else .going { options with dumpsState := true }
  | none => .misused

def cluster (options : Options) : List Char → Reading
  | [] => .going options
  | c :: rest =>
      match flag options (Flag.ofShort? c) with
      | .going next => cluster next rest
      | settled => settled

def positional (options : Options) (text : String) : Reading :=
  match options.contents with
  | none => .going { options with contents := some text }
  | some _ => .misused

/-- Takes an argument before the mark that ends the flags. A dash alone is no flag. -/
def argument (options : Options) (text : String) : Reading :=
  match text.toList with
  | '-' :: '-' :: _ => flag options (Flag.ofLong? text)
  | '-' :: c :: rest => cluster options (c :: rest)
  | _ => positional options text

/-- Reads arguments; `flagsAllowed` until two dashes on their own end the flags. -/
def arguments (flagsAllowed : Bool) (options : Options) : List String → Reading
  | [] => .going options
  | first :: rest =>
      if flagsAllowed && first == "--" then arguments false options rest
      else
        match if flagsAllowed then argument options first else positional options first with
        | .going next => arguments flagsAllowed next rest
        | settled => settled

end Reading

def request? (arguments : List String) : Option Request :=
  match Reading.arguments true {} arguments with
  | .version => some .version
  | .misused => none
  | .going options =>
      options.contents.map fun contents =>
        .run options.readsFile options.dumpsState contents

structure Reply where
  code : UInt8
  output : String := ""
  errors : String := ""

def misuse : Reply where
  code := 2

def version : Reply where
  code := 0
  output := "impish 0.1.0\n"

def unreadable (path : String) : Reply where
  code := 1
  errors := "Failed to read the input file '" ++ path ++ "'. Perhaps this file does not exist?\n"

def dumpLine : String × Binding → String
  | (name, .value value) => name ++ " = " ++ value.text ++ "\n"
  | (name, .scope _) => name ++ " = <scope>\n"

def dump (scope : Scope) : String :=
  String.join (scope.sorted.map dumpLine)

def runReply (fuel : Nat) (dumpsState : Bool) (source : String) : Option Reply :=
  match runSource fuel source {} with
  | .finished machine =>
      some {
        code := 0
        output := machine.console.text ++ (if dumpsState then dump machine.scope else "") }
  | .failed error machine =>
      some { code := 1, output := machine.console.text, errors := error.message ++ "\n" }
  | .unfinished => none

def reply (fuel : Nat) (file? : Option String) : Option Request → Option Reply
  | none => some misuse
  | some .version => some version
  | some (.run true dumpsState path) =>
      match file? with
      | none => some (unreadable path)
      | some source => runReply fuel dumpsState source
  | some (.run false dumpsState source) => runReply fuel dumpsState source

end WhileLang.CommandLine
