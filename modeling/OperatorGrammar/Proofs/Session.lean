import OperatorGrammar.Command.Report
import OperatorGrammar.Proofs.Outcome
import OperatorGrammar.Session

/-! # A term can be evaluated again

Evaluating a term does not change it.  So a session that has read a text goes on with the term of
this text, whatever it is asked for until it reads another one, and whether that succeeds or not
(`held_after`); and each time the term is evaluated, it is worth what the text is worth with the
values that the variables have by then (`act_evaluateHeld_after`).  A session that binds variables
one after another makes the bindings that a run of the command line makes (`bindAll_eq_ok_iff`). -/

namespace OperatorGrammar

namespace Session

variable {g : Grammar} {s : Session} {action : Action} {actions rest : List Action}

/-- The session behind an action; one that fails leaves it as it was. -/
def next (g : Grammar) (s : Session) (action : Action) : Session :=
  match s.act g action with
  | .ok (next, _) => next
  | .error _ => s

/-- The session behind some actions. -/
def after (g : Grammar) (s : Session) (actions : List Action) : Session :=
  actions.foldl (next g) s

/-- The answer to an action. -/
def answer (g : Grammar) (s : Session) (action : Action) : Except Error Answer :=
  (s.act g action).map Prod.snd

theorem actAll_cons :
    s.actAll g (action :: rest) = s.answer g action :: (s.next g action).actAll g rest := by
  rw [actAll, answer, next]
  cases s.act g action <;> rfl

/-- What is done later is answered by the session behind what was done before. -/
theorem actAll_append :
    s.actAll g (actions ++ rest) = s.actAll g actions ++ (s.after g actions).actAll g rest := by
  induction actions generalizing s with
  | nil => rfl
  | cons action actions ih =>
      rw [List.cons_append, actAll_cons, actAll_cons, ih]
      rfl

/-! ### The term that is held -/

/-- The term that an action reads. -/
def Action.term? (g : Grammar) : Action → Option Term
  | .read source => (Term.ofText g source).toOption
  | _ => none

/-- Only an action that reads a term changes the one that is held. -/
theorem held_next : (s.next g action).held = (action.term? g).or s.held := by
  unfold next act
  cases action with
  | read source =>
      cases h : Term.ofText g source with
      | error e => simp [Action.term?, h, Except.mapError, bind, Except.bind, Except.toOption]
      | ok term =>
          simp [Action.term?, h, Except.mapError, bind, Except.bind, Except.toOption, pure,
            Except.pure]
  | set | unset => rfl
  | bind name source | evaluate source =>
      dsimp only
      cases evaluateText g s.bindings source <;> rfl
  | evaluateHeld =>
      dsimp only
      cases held : s.held with
      | none => exact held
      | some term =>
          dsimp only
          cases term.evaluate s.bindings <;> exact held

/-- **The term that was read last is held.** -/
theorem held_after :
    (s.after g actions).held = (actions.reverse.findSome? (Action.term? g)).or s.held := by
  induction actions generalizing s with
  | nil => rfl
  | cons action actions ih =>
      have later : (s.after g (action :: actions)).held =
          ((s.next g action).after g actions).held := rfl
      rw [later, ih, held_next, List.reverse_cons, List.findSome?_append, Option.or_assoc,
        List.findSome?_singleton]

/-- **A term is evaluated as its text is**, with the values that the variables have by then. -/
theorem act_evaluateHeld_after {source : String} {t : Term} (ht : Term.ofText g source = .ok t)
    (others : ∀ action ∈ actions, action.term? g = none) :
    ((s.next g (.read source)).after g actions).answer g .evaluateHeld =
      (evaluateText g ((s.next g (.read source)).after g actions).bindings source).map .value := by
  have read : Action.term? g (.read source) = some t := by
    simp [Action.term?, ht, Except.toOption]
  have held : ((s.next g (.read source)).after g actions).held = some t := by
    have none : actions.reverse.findSome? (Action.term? g) = none :=
      List.findSome?_eq_none_iff.mpr fun action h => others action (List.mem_reverse.mp h)
    rw [held_after, none, held_next, read]
    rfl
  generalize (s.next g (.read source)).after g actions = s' at held ⊢
  have fresh : evaluateText g s'.bindings source =
      (t.evaluate s'.bindings).mapError .evaluation := by
    unfold evaluateText
    rw [ht]
    rfl
  unfold answer act
  rw [held, fresh]
  dsimp only
  cases t.evaluate s'.bindings <;> rfl

/-! ### Bindings made one after another -/

theorem act_bind (g : Grammar) (s : Session) (name source : String) :
    s.act g (.bind name source) = (evaluateText g s.bindings source).map fun value =>
      ({ s with bindings := s.bindings.insert (g.canonical name) value },
        .bound (g.canonical name) value) := by
  unfold act
  dsimp only
  cases evaluateText g s.bindings source <;> rfl

/-- Variables are bound on the command line as they are in a session. -/
theorem bindAll_eq_ok_iff {pairs : List (String × String)} {b : Bindings} :
    Command.bindAll g s.bindings pairs = .ok b ↔
      (∀ answer ∈ s.actAll g (pairs.map fun pair => .bind pair.1 pair.2), answer.isOk = true) ∧
        (s.after g (pairs.map fun pair => .bind pair.1 pair.2)).bindings = b := by
  induction pairs generalizing s with
  | nil => simp [Command.bindAll, actAll, after]
  | cons pair pairs ih =>
      obtain ⟨name, source⟩ := pair
      rw [List.map_cons, actAll_cons, Command.bindAll, List.forall_mem_cons]
      show _ ↔ _ ∧ ((s.next g (.bind name source)).after g _).bindings = b
      cases hvalue : evaluateText g s.bindings source with
      | error e =>
          have answered : s.answer g (.bind name source) = .error e := by
            rw [answer, act_bind, hvalue]
            rfl
          rw [answered]
          simp [bind, Except.bind, Except.isOk, Except.toBool]
      | ok value =>
          have answered : s.answer g (.bind name source) =
              .ok (.bound (g.canonical name) value) := by
            rw [answer, act_bind, hvalue]
            rfl
          have bound : s.next g (.bind name source) =
              { s with bindings := s.bindings.insert (g.canonical name) value } := by
            rw [next, act_bind, hvalue]
            rfl
          rw [answered, bound]
          simpa [bind, Except.bind, Except.isOk, Except.toBool] using
            ih (s := { s with bindings := s.bindings.insert (g.canonical name) value })

end Session

end OperatorGrammar
