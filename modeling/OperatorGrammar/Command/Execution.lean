import OperatorGrammar.Command.Report

/-! # Reading the command line

The words of a command line are read one after another.  An option that takes a value finds it
behind it in the same word or in the next one; `--` ends the options; one word that is no option is
the source. -/

namespace OperatorGrammar

def Language.ofName? : String → Option Language
  | "real" => some .real
  | "boolean" => some .boolean
  | "test" => some .test
  | _ => none

namespace Command

/-- An option without a value. -/
inductive Flag where
  | tokens
  | tree
  | semantic
  | file
deriving DecidableEq, Repr

/-- An option with a value. -/
inductive Setting where
  | grammar
  | bind
deriving DecidableEq, Repr

/-- What an option may be. -/
abbrev Choice := Flag ⊕ Setting

def longOption? : String → Option Choice
  | "tokens" => some (.inl .tokens)
  | "tree" => some (.inl .tree)
  | "semantic" => some (.inl .semantic)
  | "file" => some (.inl .file)
  | "grammar" => some (.inr .grammar)
  | "bind" => some (.inr .bind)
  | _ => none

def shortOption? : Char → Option Choice
  | 'f' => some (.inl .file)
  | 'g' => some (.inr .grammar)
  | 'b' => some (.inr .bind)
  | _ => none

/-- How far a command line has been read. -/
structure Words where
  flags : List Flag := []
  language : Option Language := none
  /-- The bindings, the last one first. -/
  bindings : List (String × String) := []
  source : Option String := none
  /-- An option whose value has to come next. -/
  waiting : Option Setting := none
  /-- Whether the options have ended. -/
  ended : Bool := false
deriving Repr

namespace Words

def addFlag (w : Words) (flag : Flag) : Option Words :=
  if flag ∈ w.flags then none else some { w with flags := flag :: w.flags }

def assign (w : Words) (setting : Setting) (value : String) : Option Words :=
  match setting with
  | .grammar =>
    match w.language, Language.ofName? value with
    | none, some language => some { w with language := some language, waiting := none }
    | _, _ => none
  | .bind => (binding? value).map fun b => { w with bindings := b :: w.bindings, waiting := none }

def addSource (w : Words) (word : String) : Option Words :=
  match w.source with
  | none => some { w with source := some word }
  | some _ => none

/-- Options of one letter behind one dash: flags, and possibly one with a value at the end. -/
def addLetters (w : Words) : List Char → Option Words
  | [] => some w
  | letter :: rest =>
    match shortOption? letter, rest with
    | none, _ => none
    | some (.inl flag), rest => (w.addFlag flag).bind fun w => w.addLetters rest
    | some (.inr setting), [] => some { w with waiting := some setting }
    | some (.inr setting), '=' :: value => w.assign setting (String.ofList value)
    | some (.inr setting), value => w.assign setting (String.ofList value)
termination_by letters => letters.length

/-- A long option, with its value behind an equals sign or in the next word. -/
def addLong (w : Words) (word : List Char) : Option Words :=
  let name := String.ofList (word.takeWhile (· != '='))
  match longOption? name, word.dropWhile (· != '=') with
  | none, _ => none
  | some (.inl flag), [] => w.addFlag flag
  | some (.inl _), _ :: _ => none
  | some (.inr setting), [] => some { w with waiting := some setting }
  | some (.inr setting), _ :: value => w.assign setting (String.ofList value)

/-- Reads one word.  A dash alone is no option, and no option can be the value of another. -/
def add (w : Words) (word : String) : Option Words :=
  if w.ended then w.addSource word
  else
    match w.waiting, word.toList with
    | some _, '-' :: _ :: _ => none
    | some setting, _ => w.assign setting word
    | none, ['-', '-'] => some { w with ended := true }
    | none, '-' :: '-' :: long => w.addLong long
    | none, '-' :: letter :: letters => w.addLetters (letter :: letters)
    | none, _ => w.addSource word

/-- What the words ask for, if a source is among them and no value is missing. -/
def finish (w : Words) : Option Options :=
  match w.waiting, w.source with
  | none, some source => some
      { language := w.language.getD .real
        showTokens := .tokens ∈ w.flags
        showTree := .tree ∈ w.flags
        showTerm := .semantic ∈ w.flags
        bindings := w.bindings.reverse
        fromFile := .file ∈ w.flags
        source := source }
  | _, _ => none

end Words

/-- What a command line asks for, if it is well-formed. -/
def Options.ofWords? (words : List String) : Option Options := do
  let w ← words.foldlM Words.add {}
  w.finish

end Command

end OperatorGrammar
