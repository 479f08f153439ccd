import OperatorGrammar.Command.Options

/-! # What a run is asked for

A request says what is wanted of a run: a grammar, what is to be shown, values for variables and a
source.  A value for a variable is written as one word, which is read back as it is, and no other
word gives a variable a value (`binding?_eq_some_iff`). -/

namespace OperatorGrammar

namespace Command

/-- A variable and the text of its value, as they are written. -/
structure Assignment where
  name : String
  expression : String
  equals_notMem : '=' ∉ name.toList
  ne_empty : trimBlanks name ≠ ""

namespace Assignment

variable (a : Assignment)

def word : String := a.name ++ "=" ++ a.expression

/-- The variable that is meant, and the text of its value. -/
def binding : String × String := (trimBlanks a.name, a.expression)

theorem toList_word : a.word.toList = a.name.toList ++ '=' :: a.expression.toList := by
  simp [word]

theorem binding?_word : binding? a.word = some a.binding := by
  have before : ∀ c ∈ a.name.toList, (c != '=') = true := by
    intro c hc
    exact bne_iff_ne.mpr fun h => a.equals_notMem (h ▸ hc)
  have name : a.word.toList.takeWhile (· != '=') = a.name.toList := by
    rw [toList_word, List.takeWhile_append_of_pos before]
    simp
  have value : a.word.toList.dropWhile (· != '=') = '=' :: a.expression.toList := by
    rw [toList_word, List.dropWhile_append_of_pos before]
    simp
  simp only [binding?, name, value, String.ofList_toList, if_neg a.ne_empty, binding]

end Assignment

/-- The words that give a variable a value are those of assignments. -/
theorem binding?_eq_some_iff {word : String} {b : String × String} :
    binding? word = some b ↔ ∃ a : Assignment, a.word = word ∧ a.binding = b := by
  refine ⟨fun h => ?_, fun ⟨a, hword, hbinding⟩ => hword ▸ hbinding ▸ a.binding?_word⟩
  have split := List.takeWhile_append_dropWhile (p := (· != '=')) (l := word.toList)
  have before : '=' ∉ word.toList.takeWhile (· != '=') := by
    intro hmem
    exact absurd (List.all_eq_true.mp List.all_takeWhile '=' hmem) (by decide)
  cases hvalue : word.toList.dropWhile (· != '=') with
  | nil => simp [binding?, hvalue] at h
  | cons c value =>
      obtain rfl : c = '=' := by
        simpa [hvalue] using List.head_dropWhile_not (p := (· != '=')) (l := word.toList)
      simp only [binding?, hvalue, Option.ite_none_left_eq_some, Option.some.injEq] at h
      obtain ⟨hname, rfl⟩ := h
      refine ⟨⟨_, String.ofList value, by simpa using before, hname⟩, ?_, rfl⟩
      rw [hvalue] at split
      rw [← String.toList_inj, Assignment.toList_word]
      simpa only [String.toList_ofList] using split

/-- Where the text comes from. -/
inductive Source where
  | text (text : String)
  | file (path content : String)

namespace Source

def isFile : Source → Bool
  | .text _ => false
  | .file _ _ => true

def word : Source → String
  | .text written => written
  | .file path _ => path

def contents : Source → String
  | .text written => written
  | .file _ content => content

/-- What is read from a file, if one is named. -/
def content? : Source → Option String
  | .text _ => none
  | .file _ content => some content

end Source

/-- What can be wanted of a run. -/
structure Request where
  language : Language
  showTokens : Bool
  showTree : Bool
  showTerm : Bool
  assignments : List Assignment
  source : Source

namespace Request

variable (r : Request)

/-- What is to be done for a request. -/
def options : Options where
  language := r.language
  showTokens := r.showTokens
  showTree := r.showTree
  showTerm := r.showTerm
  bindings := r.assignments.map Assignment.binding
  fromFile := r.source.isFile
  source := r.source.word

/-- The same, with the values for variables read from their words. -/
def options? : Option Options := do
  let bindings ← (r.assignments.map Assignment.word).mapM binding?
  return { r.options with bindings := bindings }

theorem options?_eq : r.options? = some r.options := by
  have read (as : List Assignment) :
      (as.map Assignment.word).mapM binding? = some (as.map Assignment.binding) := by
    induction as with
    | nil => rfl
    | cons a as ih =>
        rw [List.map_cons, List.mapM_cons, a.binding?_word, ih]
        rfl
  rw [options?, read]
  rfl

end Request

end Command

end OperatorGrammar
