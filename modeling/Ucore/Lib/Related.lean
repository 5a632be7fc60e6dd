import Ucore.Lib.Prog

/-!
This module contains programs that cannot tell apart states that are related: from two related states they
do the same and leave related states behind.
-/

namespace Outcome

variable {ε π σ α β : Type}

/--
The same value, error or panic, in related states.
-/
def Related (r : σ → σ → Prop) : Outcome ε π σ α → Outcome ε π σ α → Prop
  | ok a s, ok b t => a = b ∧ r s t
  | error e s, error f t => e = f ∧ r s t
  | panic p, panic q => p = q
  | _, _ => False

variable {r : σ → σ → Prop} {o o' : Outcome ε π σ α}

theorem Related.exists_ok {a : α} {s : σ} (h : (ok a s : Outcome ε π σ α).Related r o)
    : ∃ t, o = ok a t ∧ r s t := by
  cases o with
  | ok b t =>
    obtain ⟨rfl, hr⟩ := h
    exact ⟨t, rfl, hr⟩
  | error e t => exact h.elim
  | panic p => exact h.elim

end Outcome

namespace Prog

variable {ε π σ α β : Type} {r : σ → σ → Prop} {m : Prog ε π σ α} {f : α → Prog ε π σ β} {s t : σ}

def Respects (r : σ → σ → Prop) (m : Prog ε π σ α) : Prop := ∀ s t, r s t → (m s).Related r (m t)

theorem respects_pure (a : α) : Respects r (pure a : Prog ε π σ α) := fun _ _ h => ⟨rfl, h⟩

theorem respects_throw (e : ε) : Respects r (throw e : Prog ε π σ α) := fun _ _ h => ⟨rfl, h⟩

theorem respects_panic (p : π) : Respects r (panic p : Prog ε π σ α) := fun _ _ _ => rfl

theorem respects_modify {g : σ → σ} (h : ∀ s t, r s t → r (g s) (g t))
    : Respects r (modify g : Prog ε π σ Unit) :=
  fun s t hst => ⟨rfl, h s t hst⟩

theorem respects_assert (c : Prop) [Decidable c] (p : π) : Respects r (assert c p : Prog ε π σ Unit) := by
  intro s t h
  unfold assert
  split
  . exact ⟨rfl, h⟩
  . exact rfl

theorem related_bind (h : (m s).Related r (m t))
    (hf : ∀ a s' t', r s' t' → (f a s').Related r (f a t'))
    : ((m >>= f) s).Related r ((m >>= f) t) := by
  cases hs : m s <;> cases ht : m t <;> rw [hs, ht] at h
  case ok.ok a s' b t' =>
    obtain ⟨rfl, hr⟩ := h
    rw [bind_run_ok hs, bind_run_ok ht]
    exact hf a s' t' hr
  case error.error =>
    rw [bind_run_error hs, bind_run_error ht]
    exact h
  case panic.panic =>
    rw [bind_run_panic hs, bind_run_panic ht]
    exact h
  all_goals exact h.elim

theorem respects_bind (h : Respects r m) (hf : ∀ a, Respects r (f a)) : Respects r (m >>= f) :=
  fun s t hst => related_bind (h s t hst) fun a => hf a

/--
A program may look at the state if what it does then is the same for related states.
-/
theorem respects_get_bind {f : σ → Prog ε π σ β} (h : ∀ s t, r s t → (f s s).Related r (f t t))
    : Respects r (get >>= f) :=
  h

theorem respects_forSome {m : α → Prog ε π σ Unit} (h : ∀ a, Respects r (m a)) (o : Option α)
    : Respects r (forSome o m) := by
  cases o with
  | none => exact respects_pure ()
  | some a => exact h a

end Prog
