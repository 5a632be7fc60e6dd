import Mathlib

/-!
This module contains programs over a state that return a value, return an error or panic. An error
keeps the state it is raised in, so that a caller can clean up; a panic ends everything.
-/

inductive Outcome (ε π σ α : Type) where
  | ok (a : α) (s : σ)
  | error (e : ε) (s : σ)
  | panic (p : π)
  deriving DecidableEq

namespace Outcome

variable {ε π σ α : Type}

/--
What holds of a result, of an error and of a panic.
-/
def Sat (Q : α → σ → Prop) (E : ε → σ → Prop) (X : π → Prop) : Outcome ε π σ α → Prop
  | ok a s => Q a s
  | error e s => E e s
  | panic p => X p

variable {Q Q' : α → σ → Prop} {E E' : ε → σ → Prop} {X X' : π → Prop} {o : Outcome ε π σ α}

instance [∀ a s, Decidable (Q a s)] [∀ e s, Decidable (E e s)] [∀ p, Decidable (X p)]
    : (o : Outcome ε π σ α) → Decidable (o.Sat Q E X)
  | ok a s => inferInstanceAs (Decidable (Q a s))
  | error e s => inferInstanceAs (Decidable (E e s))
  | panic p => inferInstanceAs (Decidable (X p))

@[simp]
theorem sat_ok {a : α} {s : σ} : (ok a s : Outcome ε π σ α).Sat Q E X ↔ Q a s := Iff.rfl

@[simp]
theorem sat_error {e : ε} {s : σ} : (error e s : Outcome ε π σ α).Sat Q E X ↔ E e s := Iff.rfl

@[simp]
theorem sat_panic {p : π} : (panic p : Outcome ε π σ α).Sat Q E X ↔ X p := Iff.rfl

theorem Sat.mono (h : o.Sat Q E X) (hQ : ∀ a s, Q a s → Q' a s) (hE : ∀ e s, E e s → E' e s)
    (hX : ∀ p, X p → X' p)
    : o.Sat Q' E' X' := by
  cases o with
  | ok a s => exact hQ a s h
  | error e s => exact hE e s h
  | panic p => exact hX p h

theorem Sat.imp (h : o.Sat Q E X) (hQ : ∀ a s, Q a s → Q' a s) : o.Sat Q' E X :=
  h.mono hQ (fun _ _ => id) fun _ => id

theorem Sat.and (h : o.Sat Q E X) (h' : o.Sat Q' E' X')
    : o.Sat (fun a s => Q a s ∧ Q' a s) (fun e s => E e s ∧ E' e s) (fun p => X p ∧ X' p) := by
  cases o with
  | ok a s => exact ⟨h, h'⟩
  | error e s => exact ⟨h, h'⟩
  | panic p => exact ⟨h, h'⟩

theorem Sat.exists_ok (h : o.Sat Q E X) (hE : ∀ e s, ¬E e s) (hX : ∀ p, ¬X p)
    : ∃ a s, o = ok a s ∧ Q a s := by
  cases o with
  | ok a s => exact ⟨a, s, rfl, h⟩
  | error e s => exact absurd h (hE e s)
  | panic p => exact absurd h (hX p)

/--
The state an outcome leaves behind, `none` for a panic.
-/
def state : Outcome ε π σ α → Option σ
  | ok _ s => some s
  | error _ s => some s
  | panic _ => none

def isOk : Outcome ε π σ α → Bool
  | ok .. => true
  | _ => false

theorem exists_of_isOk (h : o.isOk = true) : ∃ a s, o = ok a s := by
  cases o with
  | ok a s => exact ⟨a, s, rfl⟩
  | error e s => contradiction
  | panic p => contradiction

end Outcome

def Prog (ε π σ α : Type) := σ → Outcome ε π σ α

namespace Prog

variable {ε π σ τ α β : Type}

instance : Monad (Prog ε π σ) where
  pure a := fun s => .ok a s
  bind m f := fun s =>
    match m s with
    | .ok a s' => f a s'
    | .error e s' => .error e s'
    | .panic p => .panic p

def throw (e : ε) : Prog ε π σ α := fun s => .error e s

def panic (p : π) : Prog ε π σ α := fun _ => .panic p

def get : Prog ε π σ σ := fun s => .ok s s

def modify (f : σ → σ) : Prog ε π σ Unit := fun s => .ok () (f s)

def assert (c : Prop) [Decidable c] (p : π) : Prog ε π σ Unit := fun s =>
  if c then .ok () s else .panic p

def when (c : Prop) [Decidable c] (m : Prog ε π σ Unit) : Prog ε π σ Unit :=
  if c then m else pure ()

def forSome (o : Option α) (m : α → Prog ε π σ Unit) : Prog ε π σ Unit :=
  match o with
  | some a => m a
  | none => pure ()

/--
Run `cleanup` when `m` raises an error, and raise the error again.
-/
def onError (m : Prog ε π σ α) (cleanup : Prog ε π σ Unit) : Prog ε π σ α := fun s =>
  match m s with
  | .error e s' =>
    match cleanup s' with
    | .ok _ s'' => .error e s''
    | .error _ s'' => .error e s''
    | .panic p => .panic p
  | o => o

/--
Run `m` and hand its error to the caller as a value.
-/
def attempt (m : Prog ε π σ α) : Prog ε π σ (Except ε α) := fun s =>
  match m s with
  | .ok a s' => .ok (.ok a) s'
  | .error e s' => .ok (.error e) s'
  | .panic p => .panic p

/--
Run a program on a part of the state.
-/
def zoom (view : σ → τ) (update : σ → τ → σ) (m : Prog ε π τ α) : Prog ε π σ α := fun s =>
  match m (view s) with
  | .ok a t => .ok a (update s t)
  | .error e t => .error e (update s t)
  | .panic p => .panic p

section Run

variable {m : Prog ε π σ α} {f : α → Prog ε π σ β} {s s' : σ}

@[simp]
theorem pure_run (a : α) : (pure a : Prog ε π σ α) s = .ok a s := rfl

@[simp]
theorem throw_run (e : ε) : (throw e : Prog ε π σ α) s = .error e s := rfl

@[simp]
theorem panic_run (p : π) : (panic p : Prog ε π σ α) s = .panic p := rfl

@[simp]
theorem get_run : (get : Prog ε π σ σ) s = .ok s s := rfl

@[simp]
theorem modify_run (g : σ → σ) : (modify g : Prog ε π σ Unit) s = .ok () (g s) := rfl

theorem bind_run_ok {a : α} (h : m s = .ok a s') : (m >>= f) s = f a s' := by
  simp only [bind, h]

theorem bind_run_error {e : ε} (h : m s = .error e s') : (m >>= f) s = .error e s' := by
  simp only [bind, h]

theorem bind_run_panic {p : π} (h : m s = .panic p) : (m >>= f) s = .panic p := by
  simp only [bind, h]

@[simp]
theorem pure_bind_run (a : α) : (pure a >>= f) s = f a s := rfl

@[simp]
theorem throw_bind_run (e : ε) : ((throw e : Prog ε π σ α) >>= f) s = .error e s := rfl

@[simp]
theorem panic_bind_run (p : π) : ((panic p : Prog ε π σ α) >>= f) s = .panic p := rfl

@[simp]
theorem get_bind_run {f : σ → Prog ε π σ β} : (get >>= f) s = f s s := rfl

@[simp]
theorem modify_bind_run (g : σ → σ) {f : Unit → Prog ε π σ β}
    : (modify g >>= f) s = f () (g s) := rfl

theorem when_pos {c : Prop} [Decidable c] {m : Prog ε π σ Unit} (h : c) : when c m = m := by
  rw [when, if_pos h]

theorem when_neg {c : Prop} [Decidable c] {m : Prog ε π σ Unit} (h : ¬c) : when c m = pure () := by
  rw [when, if_neg h]

theorem assert_bind_run {c : Prop} [Decidable c] {p : π} {f : Unit → Prog ε π σ β} (h : c)
    : (assert c p >>= f) s = f () s := by
  simp only [bind, assert, h, if_true]

theorem assert_bind_run_panic {c : Prop} [Decidable c] {p : π} {f : Unit → Prog ε π σ β} (h : ¬c)
    : (assert c p >>= f) s = .panic p := by
  simp only [bind, assert, h, if_false]

theorem attempt_ok {a : α} (h : m s = .ok a s') : attempt m s = .ok (.ok a) s' := by
  simp only [attempt, h]

theorem attempt_error {e : ε} (h : m s = .error e s') : attempt m s = .ok (.error e) s' := by
  simp only [attempt, h]

theorem attempt_panic {p : π} (h : m s = .panic p) : attempt m s = .panic p := by
  simp only [attempt, h]

theorem bind_run_congr {g : α → Prog ε π σ β} (h : ∀ a s', f a s' = g a s')
    : (m >>= f) s = (m >>= g) s := by
  rw [show f = g from funext fun a => funext (h a)]

@[simp]
theorem bind_assoc_run {γ : Type} {g : β → Prog ε π σ γ}
    : ((m >>= f) >>= g) s = (m >>= fun a => f a >>= g) s := by
  cases h : m s with
  | ok a s' => simp only [bind, h]
  | error e s' => simp only [bind, h]
  | panic p => simp only [bind, h]

theorem bind_run_eq_ok {b : β} : (m >>= f) s = .ok b s' ↔ ∃ a t, m s = .ok a t ∧ f a t = .ok b s' := by
  cases h : m s with
  | ok a t =>
    simp only [bind, h, Outcome.ok.injEq]
    constructor
    . exact fun hf => ⟨a, t, ⟨rfl, rfl⟩, hf⟩
    . rintro ⟨_, _, ⟨rfl, rfl⟩, hf⟩
      exact hf
  | error e t => simp [bind, h]
  | panic p => simp [bind, h]

theorem assert_run_eq_ok {c : Prop} [Decidable c] {p : π} {u : Unit}
    : (assert c p : Prog ε π σ Unit) s = .ok u s' ↔ c ∧ s' = s := by
  unfold assert
  split
  next h => simp [h, eq_comm]
  next h => simp [h]

end Run

section Sat

variable {m : Prog ε π σ α} {f : α → Prog ε π σ β} {s : σ} {Q : β → σ → Prop}
  {E F : ε → σ → Prop} {X Y : π → Prop}

theorem sat_bind {R : α → σ → Prop} (h : (m s).Sat R F Y)
    (hok : ∀ a s', R a s' → (f a s').Sat Q E X) (herror : ∀ e s', F e s' → E e s')
    (hpanic : ∀ p, Y p → X p)
    : ((m >>= f) s).Sat Q E X := by
  cases hm : m s with
  | ok a s' =>
    rw [hm] at h
    rw [bind_run_ok hm]
    exact hok a s' h
  | error e s' =>
    rw [hm] at h
    rw [bind_run_error hm]
    exact herror e s' h
  | panic p =>
    rw [hm] at h
    rw [bind_run_panic hm]
    exact hpanic p h

/--
A program whose errors and panics are those of the whole program.
-/
theorem sat_bind_imp {R : α → σ → Prop} (h : (m s).Sat R E X) (hok : ∀ a s', R a s' → (f a s').Sat Q E X)
    : ((m >>= f) s).Sat Q E X :=
  sat_bind h hok (fun _ _ => id) fun _ => id

theorem sat_onError {cleanup : Prog ε π σ Unit} {Q : α → σ → Prop} (h : (m s).Sat Q F Y)
    (hclean : ∀ e s', F e s' → (cleanup s').Sat (fun _ => E e) (fun _ => E e) X)
    (hpanic : ∀ p, Y p → X p)
    : (onError m cleanup s).Sat Q E X := by
  unfold onError
  cases hm : m s with
  | ok a s' =>
    rw [hm] at h
    exact h
  | error e s' =>
    rw [hm] at h
    have := hclean e s' h
    cases hc : cleanup s' with
    | ok u s'' =>
      rw [hc] at this
      simp only [hc]
      exact this
    | error e' s'' =>
      rw [hc] at this
      simp only [hc]
      exact this
    | panic p =>
      rw [hc] at this
      simp only [hc]
      exact this
  | panic p =>
    rw [hm] at h
    exact hpanic p h

theorem sat_attempt {Q : Except ε α → σ → Prop}
    (h : (m s).Sat (fun a => Q (.ok a)) (fun e => Q (.error e)) X)
    : (attempt m s).Sat Q E X := by
  unfold attempt
  cases hm : m s with
  | ok a s' =>
    rw [hm] at h
    exact h
  | error e s' =>
    rw [hm] at h
    exact h
  | panic p =>
    rw [hm] at h
    exact h

theorem sat_zoom {view : σ → τ} {update : σ → τ → σ} {m : Prog ε π τ α} {Q : α → σ → Prop}
    (h : (m (view s)).Sat (fun a t => Q a (update s t)) (fun e t => E e (update s t)) X)
    : (zoom view update m s).Sat Q E X := by
  unfold zoom
  cases hm : m (view s) with
  | ok a t =>
    rw [hm] at h
    exact h
  | error e t =>
    rw [hm] at h
    exact h
  | panic p =>
    rw [hm] at h
    exact h

theorem sat_bind_zoom {view : σ → τ} {update : σ → τ → σ} {m : Prog ε π τ α} {R : α → τ → Prop}
    {F : ε → τ → Prop} (h : (m (view s)).Sat R F Y)
    (hok : ∀ a t, R a t → (f a (update s t)).Sat Q E X)
    (herror : ∀ e t, F e t → E e (update s t)) (hpanic : ∀ p, Y p → X p)
    : ((zoom view update m >>= f) s).Sat Q E X := by
  apply sat_bind (R := fun a s' => ∃ t, R a t ∧ s' = update s t)
    (F := fun e s' => ∃ t, F e t ∧ s' = update s t) (Y := Y)
  . apply sat_zoom
    exact h.mono (fun a t ha => ⟨t, ha, rfl⟩) (fun e t he => ⟨t, he, rfl⟩) (fun _ => id)
  . intro a s' ⟨t, ha, hs'⟩
    subst hs'
    exact hok a t ha
  . intro e s' ⟨t, he, hs'⟩
    subst hs'
    exact herror e t he
  . exact hpanic

end Sat

end Prog
