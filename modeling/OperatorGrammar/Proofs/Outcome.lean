import Mathlib.Data.List.Forall2

/-! # Outcomes of steps that may fail

A computation in `Except` succeeds exactly if each of its steps does, and fails with the error of
the first step that fails.  The lemmas say so for one step after another (`bind_eq_ok`,
`bind_eq_error`), for a list of independent steps (`mapM_eq_ok`, `mapM_eq_error`) and for steps
that hand a state on (`foldlM_eq_ok`, `foldlM_eq_error`, `foldlM_eq_foldl`).  Two computations whose
steps correspond have corresponding results, or fail both (`Corresponds`). -/

namespace OperatorGrammar

variable {α β ε : Type}

theorem bind_eq_ok {x : Except ε α} {f : α → Except ε β} {b : β} :
    x >>= f = .ok b ↔ ∃ a, x = .ok a ∧ f a = .ok b := by
  cases x with
  | error e => simp [bind, Except.bind]
  | ok a => simp [bind, Except.bind]

theorem bind_eq_error {x : Except ε α} {f : α → Except ε β} {e : ε} :
    x >>= f = .error e ↔ x = .error e ∨ ∃ a, x = .ok a ∧ f a = .error e := by
  cases x with
  | error e => simp [bind, Except.bind]
  | ok a => simp [bind, Except.bind]

theorem outcomes_of_map_eq {ε' : Type} {f : ε → ε'} {k : α → β} {x y : Except ε α}
    (h : (x.mapError f).map k = (y.mapError f).map k) :
    (∃ a b, x = .ok a ∧ y = .ok b ∧ k a = k b) ∨
      ∃ e e', x = .error e ∧ y = .error e' ∧ f e = f e' := by
  cases x with
  | error e =>
      cases y with
      | error e' => exact Or.inr ⟨e, e', rfl, rfl, Except.error.inj h⟩
      | ok b => cases h
  | ok a =>
      cases y with
      | error e' => cases h
      | ok b => exact Or.inl ⟨a, b, rfl, rfl, Except.ok.inj h⟩

theorem outcomes_of_mapError_eq {ε' : Type} {f : ε → ε'} {x y : Except ε α}
    (h : x.mapError f = y.mapError f) :
    (∃ a, x = .ok a ∧ y = .ok a) ∨ ∃ e e', x = .error e ∧ y = .error e' ∧ f e = f e' := by
  rcases outcomes_of_map_eq (congrArg (Except.map id) h) with ⟨a, b, hx, hy, hab⟩ | herror
  · obtain rfl : a = b := hab
    exact Or.inl ⟨a, hx, hy⟩
  · exact Or.inr herror

theorem pure_eq_ok {a b : α} : (pure a : Except ε α) = .ok b ↔ a = b := by
  simp [pure, Except.pure]

theorem mapError_eq_ok {ε' : Type} {f : ε → ε'} {x : Except ε α} {a : α} :
    x.mapError f = .ok a ↔ x = .ok a := by
  cases x <;> simp [Except.mapError]

theorem map_bind {α' β' : Type} {k : α → α'} {l : β → β'} {x : Except ε α} {f : α → Except ε β}
    {f' : α' → Except ε β'} (h : ∀ a, f' (k a) = (f a).map l) :
    x.map k >>= f' = (x >>= f).map l := by
  cases x with
  | error e => rfl
  | ok a => exact h a

theorem mapM_eq_ok {f : α → Except ε β} {xs : List α} {ys : List β} :
    xs.mapM f = .ok ys ↔ List.Forall₂ (fun x y => f x = .ok y) xs ys := by
  induction xs generalizing ys with
  | nil => rw [List.mapM_nil, pure_eq_ok, List.forall₂_nil_left_iff, eq_comm]
  | cons x xs ih =>
      rw [List.mapM_cons, bind_eq_ok, List.forall₂_cons_left_iff]
      constructor
      · rintro ⟨y, hy, h⟩
        obtain ⟨zs, hzs, h⟩ := bind_eq_ok.mp h
        exact ⟨y, zs, hy, ih.mp hzs, (pure_eq_ok.mp h).symm⟩
      · rintro ⟨y, zs, hy, hzs, rfl⟩
        exact ⟨y, hy, bind_eq_ok.mpr ⟨zs, ih.mpr hzs, rfl⟩⟩

theorem forall₂_and_mem {R S : α → β → Prop} {xs : List α} {ys : List β}
    (h : List.Forall₂ R xs ys) (imp : ∀ x y, x ∈ xs → R x y → S x y) : List.Forall₂ S xs ys := by
  induction h with
  | nil => exact List.Forall₂.nil
  | cons hr _ ih =>
      refine List.Forall₂.cons (imp _ _ List.mem_cons_self hr) (ih fun x y hx => ?_)
      exact imp x y (List.mem_cons_of_mem _ hx)

theorem exists_mem_of_forall₂ {R : α → β → Prop} {xs : List α} {ys : List β} {y : β}
    (h : List.Forall₂ R xs ys) (hy : y ∈ ys) : ∃ x ∈ xs, R x y := by
  induction h with
  | nil => cases hy
  | cons hr _ ih =>
      rcases List.mem_cons.mp hy with rfl | hy
      · exact ⟨_, List.mem_cons_self, hr⟩
      · obtain ⟨x, hx, h⟩ := ih hy
        exact ⟨x, List.mem_cons_of_mem _ hx, h⟩

theorem mapM_eq_error {f : α → Except ε β} {xs : List α} {e : ε} (h : xs.mapM f = .error e) :
    ∃ x ∈ xs, f x = .error e := by
  induction xs with
  | nil => cases h
  | cons x xs ih =>
      rw [List.mapM_cons] at h
      rcases bind_eq_error.mp h with h | ⟨y, -, h⟩
      · exact ⟨x, List.mem_cons_self, h⟩
      · rcases bind_eq_error.mp h with h | ⟨ys, -, h⟩
        · obtain ⟨z, hz, he⟩ := ih h
          exact ⟨z, List.mem_cons_of_mem _ hz, he⟩
        · cases h

theorem mapM_congr_left {f f' : α → Except ε β} {xs : List α} (h : ∀ x ∈ xs, f x = f' x) :
    xs.mapM f = xs.mapM f' := by
  induction xs with
  | nil => rfl
  | cons x xs ih =>
      obtain ⟨hx, hxs⟩ := List.forall_mem_cons.mp h
      rw [List.mapM_cons, List.mapM_cons, hx, ih hxs]

/-- What holds before the first step and is kept by every step holds after the last one; it may
speak of the steps that are done. -/
theorem foldlM_eq_ok {f : β → α → Except ε β} (P : List α → β → Prop)
    (step : ∀ done b x b', P done b → f b x = .ok b' → P (done ++ [x]) b') {xs : List α}
    (done : List α) {b b' : β} (start : P done b) (h : xs.foldlM f b = .ok b') :
    P (done ++ xs) b' := by
  induction xs generalizing done b with
  | nil =>
      cases h
      simpa using start
  | cons x xs ih =>
      rw [List.foldlM_cons] at h
      obtain ⟨c, hc, h⟩ := bind_eq_ok.mp h
      have := ih (done ++ [x]) (step done b x c start hc) h
      simpa using this

/-- Where every step is one of a plain fold in another type, so are all steps together. -/
theorem foldlM_eq_foldl {γ δ : Type} {f : β → α → Except ε β} (φ : β → γ) (ψ : α → δ)
    (F : γ → δ → γ) (step : ∀ b x b', f b x = .ok b' → φ b' = F (φ b) (ψ x)) {xs : List α}
    {b b' : β} (h : xs.foldlM f b = .ok b') : φ b' = (xs.map ψ).foldl F (φ b) := by
  induction xs generalizing b with
  | nil => exact congrArg φ (pure_eq_ok.mp h).symm
  | cons x xs ih =>
      rw [List.foldlM_cons] at h
      obtain ⟨c, hc, h⟩ := bind_eq_ok.mp h
      rw [ih h, step b x c hc, List.map_cons, List.foldl_cons]

/-- Steps fail with the error of one of them, after those before it have succeeded. -/
theorem foldlM_eq_error {f : β → α → Except ε β} {xs : List α} {b : β} {e : ε}
    (h : xs.foldlM f b = .error e) :
    ∃ before x after c, xs = before ++ x :: after ∧ before.foldlM f b = .ok c ∧
      f c x = .error e := by
  induction xs generalizing b with
  | nil => cases h
  | cons x xs ih =>
      rw [List.foldlM_cons] at h
      rcases bind_eq_error.mp h with h | ⟨c, hc, h⟩
      · exact ⟨[], x, xs, b, rfl, rfl, h⟩
      · obtain ⟨before, y, after, d, rfl, hd, he⟩ := ih h
        refine ⟨x :: before, y, after, d, rfl, ?_, he⟩
        rw [List.foldlM_cons]
        exact bind_eq_ok.mpr ⟨c, hc, hd⟩

/-! ### Outcomes that correspond -/

/-- Two computations succeed, the second one with the image of the result, or both fail. -/
inductive Corresponds {α' : Type} (k : α → α') : Except ε α → Except ε α' → Prop
  | ok (a : α) : Corresponds k (.ok a) (.ok (k a))
  | error (e e' : ε) : Corresponds k (.error e) (.error e')

namespace Corresponds

variable {α' β' : Type} {k : α → α'} {l : β → β'}

theorem of_map (x : Except ε α) : Corresponds k x (x.map k) := by
  cases x with
  | error e => exact error e e
  | ok a => exact ok a

theorem bind {x : Except ε α} {x' : Except ε α'} {f : α → Except ε β} {f' : α' → Except ε β'}
    (h : Corresponds k x x') (next : ∀ a, Corresponds l (f a) (f' (k a))) :
    Corresponds l (x >>= f) (x' >>= f') := by
  cases h with
  | ok a => exact next a
  | error e e' => exact error e e'

theorem mapM {f : α → Except ε β} {f' : α' → Except ε β'} {xs : List α}
    (h : ∀ x ∈ xs, Corresponds l (f x) (f' (k x))) :
    Corresponds (List.map l) (xs.mapM f) ((xs.map k).mapM f') := by
  induction xs with
  | nil => exact ok []
  | cons x xs ih =>
      obtain ⟨hx, hxs⟩ := List.forall_mem_cons.mp h
      rw [List.map_cons, List.mapM_cons, List.mapM_cons]
      exact hx.bind fun y => (ih hxs).bind fun ys => ok (y :: ys)

theorem foldlM {f : β → α → Except ε β} {f' : β' → α → Except ε β'}
    (h : ∀ b x, Corresponds l (f b x) (f' (l b) x)) (xs : List α) (b : β) :
    Corresponds l (xs.foldlM f b) (xs.foldlM f' (l b)) := by
  induction xs generalizing b with
  | nil => exact ok b
  | cons x xs ih =>
      rw [List.foldlM_cons, List.foldlM_cons]
      exact (h b x).bind ih

theorem eq_ok {x : Except ε α} {x' : Except ε α'} (h : Corresponds k x x') {a : α}
    (hx : x = .ok a) : x' = .ok (k a) := by
  subst hx
  cases h
  rfl

theorem exists_ok {x y : Except ε α} {z : Except ε α'} (hx : Corresponds k x z)
    (hy : Corresponds k y z) {a : α} (h : x = .ok a) : ∃ b, y = .ok b ∧ k a = k b := by
  have hz := hx.eq_ok h
  cases hy with
  | ok b => exact ⟨b, rfl, (Except.ok.inj hz).symm⟩
  | error => cases hz

end Corresponds

end OperatorGrammar
