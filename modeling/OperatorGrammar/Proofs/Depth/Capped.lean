import OperatorGrammar.Proofs.Depth.Measured
import Mathlib.Order.MinMax

/-! # Building and reading under two limits

`Capped k size x y` compares a computation `x` under the depth limit `k` with the same one under
another limit, `y`: what `y` gives, `x` gives too, unless its size is above `k`, and then `x`
reports the limit.  Steps one after another are compared by comparing each of them, as long as sizes
do not shrink on the way (`Capped.bind`, `capped_foldlM`).  The size of a tree is its depth; that of
a state of reading is how deep it reaches already (`Reading.reach`), which only grows
(`reach_le_of_step`) and is no more than the depth of the tree in the end (`reach_le_of_finish`).
So reading under one limit is compared with reading under another, token by token
(`capped_foldlM_step`). -/

namespace OperatorGrammar

open Item Reading

def Grammar.withDepth (g : Grammar) (limit : UInt64) : Grammar := { g with maxDepth := limit }

section capped

variable {α β : Type} {k : UInt64} {size : α → Nat} {x y : Except ParseError α}

/-- What is computed without the limit is computed under it too, unless it is too large for it. -/
def Capped (k : UInt64) (size : α → Nat) (x y : Except ParseError α) : Prop :=
  ∀ a, y = .ok a → x = .ok a ∨ x = .error (.nestingTooDeep k) ∧ k.toNat < size a

theorem capped_rfl : Capped k size x x :=
  fun _ h => Or.inl h

theorem capped_error {e : ParseError} : Capped k size x (.error e) :=
  fun _ h => by cases h

theorem Capped.ite {b b' : Bool} {x' y' : Except ParseError α} (hb : b = b')
    (h : Capped k size x y) (h' : Capped k size x' y') :
    Capped k size (if b then x else x') (if b' then y else y') := by
  subst hb
  cases b with
  | true => exact h
  | false => exact h'

theorem Capped.bind {size' : β → Nat} {f f' : α → Except ParseError β} (h : Capped k size x y)
    (hf : ∀ a, y = .ok a → Capped k size' (f a) (f' a))
    (mono : ∀ a b, y = .ok a → f' a = .ok b → size a ≤ size' b) :
    Capped k size' (x >>= f) (y >>= f') := by
  intro b hb
  obtain ⟨a, ha, hb⟩ := bind_eq_ok.mp hb
  rcases h a ha with hx | ⟨hx, hlt⟩
  · rw [hx]
    exact hf a ha b hb
  · rw [hx]
    exact Or.inr ⟨rfl, Nat.lt_of_lt_of_le hlt (mono a b ha hb)⟩

theorem capped_mapM {f f' : α → Except ParseError Measured} {xs : List α}
    (h : ∀ a ∈ xs, Capped k Measured.depth (f a) (f' a)) :
    Capped k Measured.deepest (xs.mapM f) (xs.mapM f') := by
  induction xs with
  | nil => exact capped_rfl
  | cons a xs ih =>
      rw [List.forall_mem_cons] at h
      rw [List.mapM_cons, List.mapM_cons]
      refine h.1.bind (fun m _ => (ih h.2).bind (fun _ _ => capped_rfl) ?_) ?_
      · intro ms ms' _ hms
        obtain rfl := pure_eq_ok.mp hms
        exact Nat.le_max_right _ _
      · intro m ms _ hms
        obtain ⟨rest, -, hms⟩ := bind_eq_ok.mp hms
        obtain rfl := pure_eq_ok.mp hms
        exact Nat.le_max_left _ _

/-- What no step shrinks is not shrunk by all of them, where `P` tells what is known of the state
behind the steps that are done. -/
theorem le_of_foldlM {f : α → β → Except ParseError α} (P : List β → α → Prop)
    (step : ∀ done a b a', P done a → f a b = .ok a' → P (done ++ [b]) a')
    (mono : ∀ done a b a', P done a → f a b = .ok a' → size a ≤ size a') {bs : List β}
    (done : List β) {a a' : α} (start : P done a) (h : bs.foldlM f a = .ok a') :
    size a ≤ size a' := by
  refine (foldlM_eq_ok (fun done c => P done c ∧ size a ≤ size c) ?_ done
    ⟨start, Nat.le_refl _⟩ h).2
  intro done c b c' hc hcc
  exact ⟨step done c b c' hc.1 hcc, Nat.le_trans hc.2 (mono done c b c' hc.1 hcc)⟩

theorem capped_foldlM {f f' : α → β → Except ParseError α} (P : List β → α → Prop)
    (step : ∀ done a b a', P done a → f' a b = .ok a' → P (done ++ [b]) a')
    (mono : ∀ done a b a', P done a → f' a b = .ok a' → size a ≤ size a')
    (h : ∀ done a b, P done a → Capped k size (f a b) (f' a b)) {bs : List β} (done : List β)
    {a : α} (start : P done a) : Capped k size (bs.foldlM f a) (bs.foldlM f' a) := by
  induction bs generalizing done a with
  | nil => exact capped_rfl
  | cons b bs ih =>
      rw [List.foldlM_cons, List.foldlM_cons]
      refine (h done a b start).bind (fun c hc => ih _ (step done a b c start hc)) ?_
      intro c a' hc ha'
      exact le_of_foldlM P step mono _ (step done a b c start hc) ha'

end capped

/-! ### Trees -/

namespace Grammar

variable {g : Grammar} {k l : UInt64}

theorem capped_wrap (name : String) (kind : TokenKind) (operands : List Measured) :
    Capped k Measured.depth ((g.withDepth k).wrap name kind operands)
      ((g.withDepth l).wrap name kind operands) := by
  intro m hm
  obtain ⟨-, rfl⟩ := wrap_eq_ok.mp hm
  by_cases hk : 1 + Measured.deepest operands ≤ k.toNat
  · exact Or.inl (wrap_eq_ok.mpr ⟨hk, rfl⟩)
  · have hk : k.toNat < 1 + Measured.deepest operands := Nat.lt_of_not_le hk
    exact Or.inr ⟨if_pos hk, hk⟩

theorem capped_foldlM_wrap {α : Type} {name : α → String} {kind : TokenKind}
    {operands : Measured → α → List Measured} (h : ∀ m a, m ∈ operands m a) {as : List α}
    {m : Measured} :
    Capped k Measured.depth
      (as.foldlM (fun m a => (g.withDepth k).wrap (name a) kind (operands m a)) m)
      (as.foldlM (fun m a => (g.withDepth l).wrap (name a) kind (operands m a)) m) :=
  capped_foldlM (fun _ _ => True) (fun _ _ _ _ _ _ => trivial)
    (fun _ m a _ _ hw => Nat.le_of_lt (depth_lt_of_wrap hw (h m a)))
    (fun _ _ _ _ => capped_wrap _ _ _) [] trivial

theorem capped_combine (operator : Token) (operands : List Measured) :
    Capped k Measured.depth ((g.withDepth k).combine operator operands)
      ((g.withDepth l).combine operator operands) := by
  unfold combine
  refine Capped.ite rfl (capped_wrap _ _ _) (Capped.ite rfl ?_ ?_)
  · split
    · exact capped_error
    · exact capped_foldlM_wrap (by simp)
  · split
    · exact capped_error
    · exact capped_foldlM_wrap (by simp)

theorem capped_applyUnary (kind : TokenKind) (tokens : List Token) (m : Measured) :
    Capped k Measured.depth ((g.withDepth k).applyUnary kind tokens m)
      ((g.withDepth l).applyUnary kind tokens m) :=
  capped_foldlM_wrap (by simp)

theorem capped_buildOperand (row : List Item) :
    Capped k Measured.depth ((g.withDepth k).buildOperand row)
      ((g.withDepth l).buildOperand row) := by
  intro m hm
  obtain ⟨prefixes, operand, suffixes, _, rfl, hp, hs, -, -⟩ := buildOperand_eq_ok.mp hm
  rw [buildOperand_append operand hp hs] at hm ⊢
  refine Capped.bind (capped_applyUnary _ _ _) (fun _ _ => capped_applyUnary _ _ _) ?_ m hm
  intro inner m _ hm
  exact depth_le_of_applyUnary hm

theorem capped_buildExpression (row : List Item) :
    Capped k Measured.depth ((g.withDepth k).buildExpression row)
      ((g.withDepth l).buildExpression row) := by
  induction row using row_induction (g := g.withDepth l) with
  | row row ih =>
      have hk : (g.withDepth k).loosest row = g.loosest row := loosest_congr fun _ => rfl
      have hl : (g.withDepth l).loosest row = g.loosest row := loosest_congr fun _ => rfl
      cases h : g.loosest row with
      | error e =>
          rw [buildExpression_of_loosest_error (hl.trans h)]
          exact capped_error
      | ok found =>
          cases found with
          | none =>
              rw [buildExpression_of_loosest_none (hk.trans h),
                buildExpression_of_loosest_none (hl.trans h)]
              exact capped_buildOperand row
          | some operator =>
              rw [buildExpression_of_loosest_some (hk.trans h),
                buildExpression_of_loosest_some (hl.trans h)]
              refine (capped_mapM fun piece hp => ?_).bind
                (fun operands _ => capped_combine operator operands) ?_
              · unfold buildPiece
                split
                · exact capped_error
                · exact ih operator (hl.trans h) piece hp
              · intro operands m _ hm
                exact Measured.deepest_le fun x hx => (combine_eq_ok.mp hm).depth_le hx

theorem capped_close {e : Enclosing} {content : List Item}
    (ordered : (g.withDepth l).OrderedRow content) :
    Capped k Measured.depth (close (g.withDepth k) e content)
      (close (g.withDepth l) e content) := by
  cases e with
  | group opener =>
      refine (capped_buildExpression content).bind (fun _ _ => capped_wrap _ _ _) ?_
      intro inner m _ hw
      exact Nat.le_of_lt (depth_lt_of_wrap hw List.mem_cons_self)
  | call function opener =>
      by_cases hne : content = []
      · subst hne
        exact capped_wrap _ _ _
      · rw [close_call function opener hne, close_call function opener hne]
        refine (capped_buildExpression content).bind (fun _ _ => capped_wrap _ _ _) ?_
        intro inner m hb hw
        exact depth_le_of_wrap_arguments (buildExpression_ordered ordered hb).1 hw

end Grammar

/-! ### States of reading -/

def Item.depth : Item → Nat
  | .operand m => m.depth
  | .operator _ => 0

/-- The depth of the deepest tree in a row. -/
def rowDepth (row : List Item) : Nat := (row.map Item.depth).foldr max 0

/-- The deepest level that is reached in some rows inside one another. -/
def rowsReach (items : List Item) : List Frame → Nat
  | [] => rowDepth items
  | frame :: frames => max (frames.length + 1 + rowDepth items) (rowsReach frame.before frames)

/-- How deep a state reaches: to the trees in its rows, or to the argument list that follows. -/
def Reading.reach (r : Reading) : Nat :=
  max (rowsReach r.items r.frames) (r.frames.length + if r.callee.isSome then 1 else 0)

section reach

variable {items : List Item} {frames : List Frame} {frame : Frame} {m : Measured} {r r' : Reading}

theorem rowDepth_le {n : Nat} (h : ∀ m, .operand m ∈ items → m.depth ≤ n) :
    rowDepth items ≤ n := by
  induction items with
  | nil => exact Nat.zero_le n
  | cons item items ih =>
      have hrest := ih fun m hm => h m (List.mem_cons_of_mem _ hm)
      refine Nat.max_le.mpr ⟨?_, hrest⟩
      cases item with
      | operand m => exact h m List.mem_cons_self
      | operator token => exact Nat.zero_le n

theorem rowsReach_le_cons (item : Item) :
    rowsReach items frames ≤ rowsReach (item :: items) frames := by
  have hrow : rowDepth items ≤ rowDepth (item :: items) := Nat.le_max_right _ _
  cases frames with
  | nil => exact hrow
  | cons frame frames =>
      simp only [rowsReach]
      omega

theorem le_rowsReach_operand :
    frames.length + m.depth ≤ rowsReach (.operand m :: items) frames := by
  have hrow : m.depth ≤ rowDepth (.operand m :: items) := Nat.le_max_left _ _
  cases frames with
  | nil => simpa [rowsReach] using hrow
  | cons frame frames =>
      simp only [rowsReach, List.length_cons]
      omega

theorem length_le_reach (r : Reading) : r.frames.length ≤ r.reach :=
  Nat.le_trans (Nat.le_add_right _ _) (Nat.le_max_right _ _)

theorem reach_push_le (item : Item) : r.reach ≤ (r.push item).reach :=
  max_le_max (rowsReach_le_cons item) (Nat.le_refl _)

/-- A row that begins reaches one level deeper. -/
theorem reach_enter (e : Enclosing) :
    (r.enter e).reach = max (rowsReach r.items r.frames) (r.frames.length + 1) := by
  show max (max (r.frames.length + 1 + 0) (rowsReach r.items r.frames)) (r.frames.length + 1) = _
  omega

theorem reach_callee (function : Token) :
    Reading.reach { r with callee := some function } =
      max (rowsReach r.items r.frames) (r.frames.length + 1) := rfl

theorem reach_le (hc : r.callee = none) :
    r.reach ≤ max (rowsReach r.items r.frames) (r.frames.length + 1) := by
  simp only [Reading.reach, hc, Option.isSome_none]
  exact max_le_max (Nat.le_refl _) (Nat.le_succ _)

theorem reach_close_le (hc : r.callee = none) (hf : r.frames = frame :: frames)
    (hpos : 0 < m.depth) (h : ∀ x, .operand x ∈ r.items → x.depth < m.depth) :
    r.reach ≤ Reading.reach ⟨.operand m :: frame.before, frames, none⟩ := by
  have hrow : rowDepth r.items ≤ m.depth - 1 := rowDepth_le fun x hx => Nat.le_pred_of_lt (h x hx)
  have hm : frames.length + m.depth ≤ rowsReach (.operand m :: frame.before) frames :=
    le_rowsReach_operand
  have hbefore : rowsReach frame.before frames ≤ rowsReach (.operand m :: frame.before) frames :=
    rowsReach_le_cons _
  have hrows : rowsReach r.items r.frames ≤ rowsReach (.operand m :: frame.before) frames := by
    rw [hf, rowsReach]
    omega
  have hlength : r.frames.length ≤ rowsReach (.operand m :: frame.before) frames := by
    rw [hf, List.length_cons]
    omega
  simp only [Reading.reach, hc]
  refine Nat.max_le.mpr ⟨Nat.le_trans hrows (Nat.le_max_left _ _), ?_⟩
  exact Nat.le_trans hlength (Nat.le_max_left _ _)

end reach

section step

variable {g : Grammar} {k l : UInt64} {tokens : List Token} {token : Token} {r r' : Reading}

theorem depth_pos_of_close {e : Enclosing} {content : List Item} {m : Measured}
    (h : close g e content = .ok m) : 0 < m.depth := by
  have pos {name : String} {kind : TokenKind} {operands : List Measured}
      (hw : g.wrap name kind operands = .ok m) : 0 < m.depth := by
    obtain ⟨-, rfl⟩ := Grammar.wrap_eq_ok.mp hw
    exact Nat.lt_of_lt_of_le Nat.one_pos (Nat.le_add_right 1 _)
  cases e with
  | group opener =>
      obtain ⟨_, -, hw⟩ := close_group_eq_ok.mp h
      exact pos hw
  | call function opener =>
      rcases close_call_eq_ok.mp h with ⟨-, hw⟩ | ⟨-, _, -, hw⟩
      · exact pos hw
      · exact pos hw

theorem Stands.orderedRow {items : List Item} {frames : List Frame}
    (h : Stands g tokens items frames) : g.OrderedRow items.reverse := by
  cases h with
  | outermost h | inside _ _ _ h => exact Grammar.orderedRow_of_reads h

theorem Follows.orderedRow (h : Follows g tokens r) : g.OrderedRow r.items.reverse := by
  unfold Follows at h
  split at h
  · exact h.orderedRow
  · obtain ⟨_, -, -, -, h⟩ := h
    exact h.orderedRow

/-- A step never takes back how deep a state reaches. -/
theorem reach_le_of_step (hf : Follows g tokens r) (h : step g r token = .ok r') :
    r.reach ≤ r'.reach := by
  cases hc : r.callee with
  | some function =>
      simp only [step, hc] at h
      split at h
      · cases h
        rw [reach_enter]
        simp [Reading.reach, hc]
      · cases h
  | none =>
      cases hk : token.kind with
      | number | identifier =>
          rw [step_operand hc (by simp [hk])] at h
          cases h
          exact reach_push_le _
      | preUnary | postUnary | binary | multary =>
          rw [step_operator hc (by rw [hk]; rfl)] at h
          cases h
          exact reach_push_le _
      | opening =>
          rw [step_opening hc hk] at h
          obtain ⟨_, -, h⟩ := bind_eq_ok.mp h
          cases h
          rw [reach_enter]
          exact reach_le hc
      | function =>
          rw [step_function hc hk] at h
          obtain ⟨_, -, h⟩ := bind_eq_ok.mp h
          cases h
          rw [reach_callee]
          exact reach_le hc
      | closing =>
          cases hframes : r.frames with
          | nil =>
              simp only [step, hc, hk, hframes] at h
              cases h
          | cons frame frames =>
              rw [step_closing hc hframes hk] at h
              split at h
              · obtain ⟨m, hm, h⟩ := bind_eq_ok.mp h
                cases h
                refine reach_close_le hc hframes (depth_pos_of_close hm) fun x hx => ?_
                exact Grammar.depth_lt_of_close hf.orderedRow hm (List.mem_reverse.mpr hx)
              · cases h
      | top =>
          simp only [step, hc, hk] at h
          cases h

/-- The check before a group or a call says no exactly if the state behind it would reach too
deep. -/
theorem capped_checkDepth (h : r.frames.length + 1 ≤ r'.reach) :
    Capped k Reading.reach (r.checkDepth (g.withDepth k) >>= fun _ => .ok r')
      (r.checkDepth (g.withDepth l) >>= fun _ => .ok r') := by
  have check : Capped k (fun _ => r.frames.length + 1) (r.checkDepth (g.withDepth k))
      (r.checkDepth (g.withDepth l)) := by
    rintro ⟨⟩ -
    by_cases hk : k.toNat < r.frames.length + 1
    · exact Or.inr ⟨if_pos hk, hk⟩
    · exact Or.inl (if_neg hk)
  refine check.bind (fun _ _ => capped_rfl) ?_
  rintro _ _ - hr
  cases hr
  exact h

theorem capped_step (hf : Follows (g.withDepth l) tokens r) :
    Capped k Reading.reach (step (g.withDepth k) r token) (step (g.withDepth l) r token) := by
  cases hc : r.callee with
  | some function =>
      have hstep : step (g.withDepth k) r token = step (g.withDepth l) r token := by
        simp only [step, hc]
        rfl
      rw [hstep]
      exact capped_rfl
  | none =>
      cases hk : token.kind with
      | number | identifier =>
          rw [step_operand hc (by simp [hk]), step_operand hc (by simp [hk])]
          exact capped_rfl
      | preUnary | postUnary | binary | multary =>
          rw [step_operator hc (by rw [hk]; rfl), step_operator hc (by rw [hk]; rfl)]
          exact capped_rfl
      | opening =>
          rw [step_opening hc hk, step_opening hc hk]
          exact capped_checkDepth (by rw [reach_enter]; exact Nat.le_max_right _ _)
      | function =>
          rw [step_function hc hk, step_function hc hk]
          exact capped_checkDepth (by rw [reach_callee]; exact Nat.le_max_right _ _)
      | closing =>
          cases hframes : r.frames with
          | nil =>
              simp only [step, hc, hk, hframes]
              exact capped_error
          | cons frame frames =>
              rw [step_closing hc hframes hk, step_closing hc hframes hk]
              refine Capped.ite rfl ?_ capped_error
              refine (Grammar.capped_close hf.orderedRow).bind (fun _ _ => capped_rfl) ?_
              rintro m _ - hr
              cases hr
              have hreach : frames.length + m.depth ≤
                  rowsReach (.operand m :: frame.before) frames := le_rowsReach_operand
              refine Nat.le_trans ?_ (Nat.le_max_left _ _)
              exact Nat.le_trans (Nat.le_add_left _ _) hreach
      | top =>
          simp only [step, hc, hk]
          exact capped_error

theorem capped_finish (r : Reading) :
    Capped k Measured.depth (finish (g.withDepth k) r) (finish (g.withDepth l) r) := by
  unfold finish
  split
  · exact capped_error
  · exact capped_error
  · exact Grammar.capped_buildExpression _

/-- The tree of the outermost row is as deep as the state reaches. -/
theorem reach_le_of_finish {m : Measured} (h : finish g r = .ok m) : r.reach ≤ m.depth := by
  unfold finish at h
  split at h
  · cases h
  · cases h
  · next hc hframes =>
    have hrow : rowDepth r.items ≤ m.depth := rowDepth_le fun x hx =>
      Grammar.depth_le_of_buildExpression h (List.mem_reverse.mpr hx)
    simp only [Reading.reach, hc, hframes, rowsReach]
    exact Nat.max_le.mpr ⟨hrow, Nat.zero_le _⟩

/-! ### All tokens -/

theorem follows_nil : Follows g [] {} := Stands.follows (Stands.outermost Reads.nil) rfl

theorem capped_foldlM_step (tokens : List Token) :
    Capped k Reading.reach (tokens.foldlM (step (g.withDepth k)) {})
      (tokens.foldlM (step (g.withDepth l)) {}) :=
  capped_foldlM (Follows (g.withDepth l)) (fun _ _ _ _ hf hs => hf.step hs)
    (fun _ _ _ _ hf hs => reach_le_of_step hf hs) (fun _ _ _ hf => capped_step hf) [] follows_nil

end step

end OperatorGrammar
