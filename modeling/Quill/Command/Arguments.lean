/-!
Arguments of the command line. They are taken from left to right, and the first
that is wrong decides; a request for help or for the version is granted as soon
as it is reached, whatever follows. An argument that starts with a dash is an
option, except the dash alone; behind `--` nothing is.

The verbose flag belongs to the program and to each of its commands, and may be
given once to either.
-/

namespace Quill.Command

/-- The commands that can be named. -/
inductive Name
  | run | exec | repl | tokens | ast | help
  deriving DecidableEq, Repr

namespace Name

def all : List Name := [.run, .exec, .repl, .tokens, .ast, .help]

def text : Name → String
  | run => "run"
  | exec => "exec"
  | repl => "repl"
  | tokens => "tokens"
  | ast => "ast"
  | help => "help"

def ofText? (s : String) : Option Name := all.find? fun n => n.text = s

end Name

/-- What the program is asked to do. -/
inductive Action
  | run (file : String)
  | exec (code : String)
  | repl (history : Option String)
  | tokens (file : String)
  | ast (file : String) (pretty : Bool)
  /-- Help on a command, or on the program as a whole. -/
  | help (topic : Option Name)
  | version
  deriving DecidableEq, Repr

/-- Why arguments make no sense. -/
inductive Misuse
  | unknownCommand (word : String)
  | unknownOption (option : String)
  | repeatedOption (option : String)
  /-- A flag was given a value. -/
  | needlessValue (option : String)
  | missingValue (option : String)
  | emptyOperand (what : String)
  | missingOperand (what : String)
  | excessOperand (word : String)
  deriving DecidableEq, Repr

def Misuse.message : Misuse → String
  | unknownCommand word => "unrecognized subcommand '" ++ word ++ "'"
  | unknownOption option => "unexpected argument '" ++ option ++ "' found"
  | repeatedOption option => "the argument '" ++ option ++ "' cannot be used multiple times"
  | needlessValue option => "unexpected value for '" ++ option ++ "' found; no more were expected"
  | missingValue option => "a value is required for '" ++ option ++ "' but none was supplied"
  | emptyOperand what => "a value is required for '" ++ what ++ "' but none was supplied"
  | missingOperand what => "the following required arguments were not provided: " ++ what
  | excessOperand word => "unexpected argument '" ++ word ++ "' found"

/-- The form of an argument. -/
inductive Shape
  | long (name : String) (value : Option String)
  | short (letters : List Char)
  | word (s : String)
  deriving DecidableEq, Repr

/-- A long option reaches up to an equals sign, behind which its value stands. -/
def Shape.ofArgument (s : String) : Shape :=
  match s.toList with
  | '-' :: '-' :: rest =>
      let name := String.ofList (rest.takeWhile (· ≠ '='))
      match rest.dropWhile (· ≠ '=') with
      | [] => .long name none
      | _ :: value => .long name (some (String.ofList value))
  | '-' :: c :: rest => .short (c :: rest)
  | _ => .word s

/-- Where reading options leads: on, or to an action that settles everything. -/
inductive Progress (α : Type)
  | on (a : α)
  | settled (action : Action)

/-- The letters of a cluster such as `-vh`, one option each. Given is the verbose
flag so far, what `-h` asks for, and whether `-V` is an option here. -/
def shortOptions (topic : Option Name) (versioned : Bool) :
    List Char → Bool → Except Misuse (Progress Bool)
  | [], verbose => .ok (.on verbose)
  | 'h' :: _, _ => .ok (.settled (.help topic))
  | 'V' :: _, _ =>
      if versioned then .ok (.settled .version) else .error (.unknownOption "-V")
  | 'v' :: rest, verbose =>
      if verbose then .error (.repeatedOption "--verbose")
      else shortOptions topic versioned rest true
  | c :: _, _ => .error (.unknownOption (String.ofList ['-', c]))

/-- A long option that every level has, with the same parameters as
`shortOptions`. -/
def longOption (topic : Option Name) (versioned : Bool) (name : String)
    (value : Option String) (verbose : Bool) : Except Misuse (Progress Bool) :=
  if name = "verbose" then
    if value.isSome then .error (.needlessValue "--verbose")
    else if verbose then .error (.repeatedOption "--verbose")
    else .ok (.on true)
  else if name = "help" then
    if value.isSome then .error (.needlessValue "--help") else .ok (.settled (.help topic))
  else if name = "version" ∧ versioned then
    if value.isSome then .error (.needlessValue "--version") else .ok (.settled .version)
  else .error (.unknownOption ("--" ++ name))

/-! ### Commands -/

/-- What has been given to a command so far. -/
structure Draft where
  verbose : Bool
  operand : Option String
  pretty : Bool
  history : Option String

def Draft.empty : Draft := ⟨false, none, false, none⟩

/-- What the operand of a command is called, if the command takes one. -/
def Name.operand? : Name → Option String
  | run | tokens | ast => some "<FILE>"
  | exec => some "<CODE>"
  | repl | help => none

/-- Take a word as the operand. A file needs a name; program text may be
empty. -/
def Draft.takeOperand (n : Name) (d : Draft) (word : String) : Except Misuse Draft :=
  match n.operand?, d.operand with
  | some what, none =>
      if word = "" ∧ n ≠ .exec then .error (.emptyOperand what)
      else .ok { d with operand := some word }
  | _, _ => .error (.excessOperand word)

def Draft.takeHistory (d : Draft) (file : String) : Except Misuse Draft :=
  if file = "" then .error (.missingValue "--history")
  else if d.history.isSome then .error (.repeatedOption "--history")
  else .ok { d with history := some file }

def Draft.takePretty (d : Draft) (value : Option String) : Except Misuse Draft :=
  if value.isSome then .error (.needlessValue "--pretty")
  else if d.pretty then .error (.repeatedOption "--pretty")
  else .ok { d with pretty := true }

/-- The action of a command once all its arguments are there. -/
def Draft.finish (n : Name) (d : Draft) : Except Misuse Action :=
  match n, d.operand with
  | .run, some file => .ok (.run file)
  | .exec, some code => .ok (.exec code)
  | .tokens, some file => .ok (.tokens file)
  | .ast, some file => .ok (.ast file d.pretty)
  | .repl, _ => .ok (.repl d.history)
  | .help, _ => .ok (.help none)
  | n, none => .error (.missingOperand (n.operand?.getD ""))

/-- The arguments of a command. -/
def commandArguments (n : Name) : Draft → List String → Except Misuse Action
  | d, [] => d.finish n
  | d, arg :: rest =>
      if arg = "--" then
        match rest.foldlM (Draft.takeOperand n) d with
        | .ok d => d.finish n
        | .error m => .error m
      else
        match Shape.ofArgument arg with
        | .word w =>
            match d.takeOperand n w with
            | .ok d => commandArguments n d rest
            | .error m => .error m
        | .short letters =>
            match shortOptions (some n) false letters d.verbose with
            | .ok (.on verbose) => commandArguments n { d with verbose := verbose } rest
            | .ok (.settled action) => .ok action
            | .error m => .error m
        | .long name value =>
            if n = .ast ∧ name = "pretty" then
              match d.takePretty value with
              | .ok d => commandArguments n d rest
              | .error m => .error m
            else if n = .repl ∧ name = "history" then
              match value, rest with
              | some file, rest =>
                  match d.takeHistory file with
                  | .ok d => commandArguments n d rest
                  | .error m => .error m
              | none, [] => .error (.missingValue "--history")
              | none, file :: rest =>
                  match Shape.ofArgument file with
                  | .word file =>
                      match d.takeHistory file with
                      | .ok d => commandArguments n d rest
                      | .error m => .error m
                  | _ => .error (.missingValue "--history")
            else
              match longOption (some n) false name value d.verbose with
              | .ok (.on verbose) => commandArguments n { d with verbose := verbose } rest
              | .ok (.settled action) => .ok action
              | .error m => .error m

/-- The words behind `help`. Commands have no commands of their own, so only one
word makes sense. -/
def helpTopic : List String → Except Misuse Action
  | [] => .ok (.help none)
  | word :: rest =>
      match Name.ofText? word, rest with
      | none, _ => .error (.unknownCommand word)
      | some n, [] => .ok (.help (some n))
      | some _, extra :: _ => .error (.unknownCommand extra)

/-- The arguments of the program, given the verbose flag so far. Without a
command the program holds a session. -/
def programArguments : Bool → List String → Except Misuse Action
  | _, [] => .ok (.repl none)
  | verbose, arg :: rest =>
      if arg = "--" then
        match rest with
        | [] => .ok (.repl none)
        | word :: _ => .error (.excessOperand word)
      else
        match Shape.ofArgument arg with
        | .word w =>
            match Name.ofText? w with
            | none => .error (.unknownCommand w)
            | some .help => helpTopic rest
            | some n => commandArguments n .empty rest
        | .short letters =>
            match shortOptions none true letters verbose with
            | .ok (.on verbose) => programArguments verbose rest
            | .ok (.settled action) => .ok action
            | .error m => .error m
        | .long name value =>
            match longOption none true name value verbose with
            | .ok (.on verbose) => programArguments verbose rest
            | .ok (.settled action) => .ok action
            | .error m => .error m

def Action.ofArguments (args : List String) : Except Misuse Action :=
  programArguments false args

end Quill.Command
