import OperatorGrammar.Command.Report
import OperatorGrammar.Proofs.Command.Request
import OperatorGrammar.Proofs.Value

/-! # What a run reports

A run binds its variables in their order, each value evaluated with those before it, and reports
what evaluating its text with them gives: the value as the last line of the output, or the error
(`Request.report_evaluates`).  What the flags show of the stages comes before that and changes
nothing else.  The value can be told from the last line, since the texts of values are lines
(`Value.newline_notMem_text`) and different values have different texts (`Value.text_injective`). -/

namespace OperatorGrammar

namespace Trace

variable (g : Grammar) (b : Bindings) (input : String)

/-- A trace keeps what the stages give, each from the text itself. -/
theorem ofText_eq : ofText g b input =
    { tokens := (tokenize g input).toOption
      tree := (TokenTree.ofText g input).toOption
      term := (Term.ofText g input).toOption
      result := evaluateText g b input } := by
  unfold ofText evaluateText Term.ofText TokenTree.ofText
  simp only [bind, Except.bind]
  cases tokenize g input with
  | error e => rfl
  | ok tokens =>
      dsimp only
      cases TokenTree.ofTokens g tokens with
      | error e => rfl
      | ok tree =>
          dsimp only
          cases Term.ofTree g tree <;> rfl

theorem result_ofText : (ofText g b input).result = evaluateText g b input := by
  rw [ofText_eq]

end Trace

namespace Command

/-! ### Lines -/

/-- Whether a text consists of whole lines. -/
def WholeLines (text : String) : Prop := text = "" ∨ ∃ before, text = before ++ "\n"

/-- Whether a line is the last one of a text. -/
def IsLastLine (line text : String) : Prop :=
  '\n' ∉ line.toList ∧ ∃ before, WholeLines before ∧ text = before ++ line ++ "\n"

theorem wholeLines_newline (text : String) : WholeLines (text ++ "\n") := Or.inr ⟨text, rfl⟩

theorem WholeLines.append {s t : String} (hs : WholeLines s) (ht : WholeLines t) :
    WholeLines (s ++ t) := by
  rcases ht with rfl | ⟨before, rfl⟩
  · rwa [String.append_empty]
  · rw [← String.append_assoc]
    exact wholeLines_newline (s ++ before)

theorem wholeLines_join {lines : List String} (h : ∀ l ∈ lines, WholeLines l) :
    WholeLines (String.join lines) := by
  induction lines with
  | nil => exact Or.inl String.join_nil
  | cons l lines ih =>
      obtain ⟨hl, hlines⟩ := List.forall_mem_cons.mp h
      rw [String.join_cons]
      exact hl.append (ih hlines)

theorem IsLastLine.takeWhile_reverse {line text : String} (h : IsLastLine line text) :
    (text.toList.reverse.drop 1).takeWhile (· != '\n') = line.toList.reverse := by
  obtain ⟨hline, before, hbefore, rfl⟩ := h
  have inside : ∀ c ∈ line.toList.reverse, (c != '\n') = true := by
    intro c hc
    exact bne_iff_ne.mpr fun h => hline (h ▸ List.mem_reverse.mp hc)
  have hreverse : (before ++ line ++ "\n").toList.reverse.drop 1 =
      line.toList.reverse ++ before.toList.reverse := by
    simp
  rw [hreverse, List.takeWhile_append_of_pos inside]
  -- Before the line stands nothing, or the end of another line.
  rcases hbefore with rfl | ⟨start, rfl⟩ <;> simp

theorem IsLastLine.eq {line line' text : String} (h : IsLastLine line text)
    (h' : IsLastLine line' text) : line = line' := by
  have := h.takeWhile_reverse.symm.trans h'.takeWhile_reverse
  exact String.toList_inj.mp (List.reverse_inj.mp this)

/-! ### Requests -/

/-- What a stage has given, as it is shown if that is wanted. -/
def dump {ε α : Type} (wanted : Bool) (stage : Except ε α) (print : α → String) : String :=
  match wanted, stage with
  | true, .ok a => print a
  | _, _ => ""

/-- Binds one more variable, to the value that its text has with those before it. -/
def Assignment.bindIn (g : Grammar) (b : Bindings) (a : Assignment) : Except Error Bindings := do
  let value ← evaluateText g b a.expression
  return b.insert (g.canonical (trimBlanks a.name)) value

namespace Request

variable (r : Request)

abbrev grammar : Grammar := r.language.grammar

abbrev text : String := trimBlanks r.source.contents

/-- The report on a request. -/
def report : Report :=
  match r.options? with
  | none => usage
  | some o => execute o r.source.content?

def environment : Except Error Bindings :=
  r.assignments.foldlM (Assignment.bindIn r.grammar) .empty

/-- What is shown of the stages that succeeded. -/
def dumps : String :=
  dump r.showTokens (tokenize r.grammar r.text)
    (fun tokens => String.join (tokens.map tokenLine)) ++
  dump r.showTree (TokenTree.ofText r.grammar r.text) (fun tree => tree.text ++ "\n") ++
  dump r.showTerm (Term.ofText r.grammar r.text) (fun term => term.text ++ "\n")

/-- The request of the same value that shows nothing else. -/
def quiet : Request := { r with showTokens := false, showTree := false, showTerm := false }

theorem dumps_quiet : r.quiet.dumps = "" := rfl

end Request

theorem bindAll_assignments (g : Grammar) (b : Bindings) (as : List Assignment) :
    bindAll g b (as.map Assignment.binding) = as.foldlM (Assignment.bindIn g) b := by
  induction as generalizing b with
  | nil => rfl
  | cons a as ih =>
      rw [List.map_cons, List.foldlM_cons, Assignment.binding, bindAll, Assignment.bindIn,
        bind_assoc]
      refine bind_congr fun value => ?_
      rw [pure_bind]
      exact ih _

theorem wholeLines_dump {ε α : Type} (wanted : Bool) (stage : Except ε α) {print : α → String}
    (h : ∀ a, WholeLines (print a)) : WholeLines (dump wanted stage print) := by
  unfold dump
  split
  · exact h _
  · exact Or.inl rfl

namespace Request

variable (r : Request)

theorem shown_options (b : Bindings) :
    shown r.options (Trace.ofText r.grammar b r.text) = r.dumps := by
  unfold shown dumps
  rw [Trace.ofText_eq]
  refine congrArg₂ _ (congrArg₂ _ ?_ ?_) ?_
  · unfold options dump
    cases r.showTokens <;> cases tokenize r.grammar r.text <;> rfl
  · unfold options dump
    cases r.showTree <;> cases TokenTree.ofText r.grammar r.text <;> rfl
  · unfold options dump
    cases r.showTerm <;> cases Term.ofText r.grammar r.text <;> rfl

theorem wholeLines_dumps : WholeLines r.dumps := by
  have tokens (ts : List Token) : WholeLines (String.join (ts.map tokenLine)) := by
    refine wholeLines_join fun line hline => ?_
    obtain ⟨t, -, rfl⟩ := List.mem_map.mp hline
    exact wholeLines_newline _
  refine ((wholeLines_dump _ _ tokens).append ?_).append ?_
  · exact wholeLines_dump _ _ fun tree => wholeLines_newline tree.text
  · exact wholeLines_dump _ _ fun term => wholeLines_newline term.text

/-- What a run reports, outcome by outcome. -/
theorem report_eq : r.report =
    match r.environment with
    | .error e => failure "" e
    | .ok b =>
      match evaluateText r.grammar b r.text with
      | .error e => failure r.dumps e
      | .ok value => { code := 0, output := r.dumps ++ value.text ++ "\n" } := by
  have execute_eq : execute r.options r.source.content? =
      evaluate r.options r.source.contents := by
    unfold execute options
    cases r.source <;> rfl
  have environment_eq : bindAll r.grammar .empty r.options.bindings = r.environment :=
    bindAll_assignments r.grammar .empty r.assignments
  rw [report, options?_eq]
  dsimp only
  rw [execute_eq]
  unfold evaluate
  rw [show r.options.language.grammar = r.grammar from rfl]
  dsimp only
  rw [environment_eq]
  cases r.environment with
  | error e => rfl
  | ok b =>
      dsimp only
      rewrite [Trace.result_ofText, shown_options]
      rfl

theorem report_of_error {e : Error} (h : r.environment = .error e) :
    r.report = { code := 1, output := "", errors := e.message ++ "\n" } := by
  rw [report_eq, h]
  rfl

theorem report_of_value {b : Bindings} {v : Value} (h : r.environment = .ok b)
    (hv : evaluateText r.grammar b r.text = .ok v) :
    r.report = { code := 0, output := r.dumps ++ v.text ++ "\n", errors := "" } := by
  rw [report_eq, h]
  dsimp only
  rw [hv]

theorem report_of_failure {b : Bindings} {e : Error} (h : r.environment = .ok b)
    (he : evaluateText r.grammar b r.text = .error e) :
    r.report = { code := 1, output := r.dumps, errors := e.message ++ "\n" } := by
  rw [report_eq, h]
  dsimp only
  rw [he]
  rfl

/-- **A run reports what evaluating its text gives.**  If a variable cannot be bound, the run fails
with the error.  Otherwise it succeeds with a value as its last line exactly if the text has this
value, and fails with an error exactly if there is none; what is shown of the stages comes before
that and changes nothing else. -/
theorem report_evaluates :
    match r.environment with
    | .error e => r.report = { code := 1, output := "", errors := e.message ++ "\n" }
    | .ok b =>
      (∀ v : Value, r.report.code = 0 ∧ IsLastLine v.text r.report.output ↔
        evaluateText r.grammar b r.text = .ok v) ∧
      (∀ e, evaluateText r.grammar b r.text = .error e →
        r.report.code = 1 ∧ r.report.errors = e.message ++ "\n") ∧
      (r.report.code = 1 → ∃ e, evaluateText r.grammar b r.text = .error e) ∧
      r.report.code = r.quiet.report.code ∧ r.report.errors = r.quiet.report.errors ∧
      r.report.output = r.dumps ++ r.quiet.report.output := by
  cases h : r.environment with
  | error e => exact r.report_of_error h
  | ok b =>
      have hquiet : r.quiet.environment = .ok b := h
      dsimp only
      cases hresult : evaluateText r.grammar b r.text with
      | error e =>
          have plain := r.quiet.report_of_failure hquiet hresult
          rw [r.report_of_failure h hresult, plain]
          simp [dumps_quiet]
      | ok v =>
          have plain := r.quiet.report_of_value hquiet hresult
          have last : IsLastLine v.text (r.dumps ++ v.text ++ "\n") :=
            ⟨v.newline_notMem_text, r.dumps, r.wholeLines_dumps, rfl⟩
          rw [r.report_of_value h hresult, plain]
          refine ⟨fun w => ⟨?_, ?_⟩, ?_, ?_, ?_⟩
          · -- No other value has the text that is the last line.
            rintro ⟨-, hw⟩
            rw [Value.text_injective (last.eq hw)]
          · intro hw
            rw [← Except.ok.inj hw]
            exact ⟨rfl, last⟩
          · simp
          · simp
          · simp [dumps_quiet, String.append_assoc]

example : execute
    { language := .boolean, showTree := true, bindings := [("q", "true"), ("p", "not q")],
      source := "p or Q" } none = { code := 0, output := "TOP[or[p, q]]\ntrue\n" } := by
  decide +kernel

example : execute
    { language := .boolean, showTree := true, bindings := [("p", "true"), ("q", "not (p")],
      source := "p or q" } none =
      { code := 1, errors := "Error at position 4: '(' is never closed by ')'.\n" } := by
  decide +kernel

end Request

end Command

end OperatorGrammar
