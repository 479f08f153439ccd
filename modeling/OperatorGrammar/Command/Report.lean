import OperatorGrammar.Command.Options
import OperatorGrammar.Trace

/-! # Running a command

The variables are bound in their order, each with those before it, and then the text is evaluated.
What the stages gave is printed where the options ask for it, and the value last. -/

namespace OperatorGrammar

namespace Command

/-- What a run leaves behind: its exit code, and what it printed. -/
structure Report where
  code : UInt32
  output : String := ""
  errors : String := ""
deriving DecidableEq, Repr

/-- The report on a command line that is not well-formed.  What is printed then is not said here. -/
def usage : Report := { code := 2 }

/-- The report on a file that cannot be read. -/
def unreadable (path : String) : Report :=
  { code := 1
    errors := "Failed to read the input file '" ++ path ++
      "'. Perhaps this file does not exist?\n" }

/-- The report on an error. -/
def failure (output : String) (e : Error) : Report :=
  { code := 1, output := output, errors := e.message ++ "\n" }

def padLeft (width : Nat) (text : String) : String :=
  String.ofList (List.replicate (width - text.length) ' ') ++ text

def padRight (width : Nat) (text : String) : String :=
  text ++ String.ofList (List.replicate (width - text.length) ' ')

/-- The line on one token: its place, its role and its text in columns. -/
def tokenLine (t : Token) : String :=
  padLeft 4 (toString t.position) ++ "  " ++ padRight 20 t.kind.text ++ " " ++ t.text ++ "\n"

/-- Binds the variables, each with the values of those before it. -/
def bindAll (g : Grammar) (b : Bindings) : List (String × String) → Except Error Bindings
  | [] => .ok b
  | (name, text) :: rest => do
    let value ← evaluateText g b text
    bindAll g (b.insert (g.canonical name) value) rest

/-- What the options ask to be shown of the stages before the value. -/
def shown (o : Options) (t : Trace) : String :=
  (match o.showTokens, t.tokens with
    | true, some tokens => String.join (tokens.map tokenLine)
    | _, _ => "") ++
  (match o.showTree, t.tree with
    | true, some tree => tree.text ++ "\n"
    | _, _ => "") ++
  (match o.showTerm, t.term with
    | true, some term => term.text ++ "\n"
    | _, _ => "")

/-- Evaluates a text as the options say; blanks around it do not count. -/
def evaluate (o : Options) (text : String) : Report :=
  let g := o.language.grammar
  match bindAll g .empty o.bindings with
  | .error e => failure "" e
  | .ok b =>
    let trace := Trace.ofText g b (trimBlanks text)
    match trace.result with
    | .error e => failure (shown o trace) e
    | .ok value => { code := 0, output := shown o trace ++ value.text ++ "\n" }

/-- Does what the options ask for; `content` is that of the file they name, if it can be read. -/
def execute (o : Options) (content : Option String) : Report :=
  if o.fromFile then
    match content with
    | none => unreadable o.source
    | some text => evaluate o text
  else evaluate o o.source

end Command

end OperatorGrammar
