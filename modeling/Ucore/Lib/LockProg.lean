import Mathlib

/-!
This module contains programs of which only the locks matter: what depends on data is an answer from outside. The
rules say when a program takes its locks in an order and gives all of them back.
-/

inductive LockProg (L α : Type) where
  | done (a : α)
  | down (l : L) (rest : LockProg L α)
  | up (l : L) (rest : LockProg L α)
  | ask (rest : Nat → LockProg L α)

namespace LockProg

variable {L R α β : Type}

def bind (m : LockProg L α) (f : α → LockProg L β) : LockProg L β :=
  match m with
  | done a => f a
  | down l rest => down l (rest.bind f)
  | up l rest => up l (rest.bind f)
  | ask rest => ask fun n => (rest n).bind f

instance : Monad (LockProg L) where
  pure := done
  bind := bind

def lock (l : L) : LockProg L Unit := down l (done ())

def unlock (l : L) : LockProg L Unit := up l (done ())

/--
A condition on data.
-/
def test : LockProg L Bool := ask fun n => done (n ≠ 0)

/--
A number that comes from data.
-/
def count : LockProg L Nat := ask done

/--
The second program runs if the first one succeeds.
-/
def andThen (m m' : LockProg L Bool) : LockProg L Bool :=
  m >>= fun ok => if ok then m' else done false

/--
At most `n` rounds, up to the first one that fails.
-/
def rounds (m : LockProg L Bool) : Nat → LockProg L Bool
  | 0 => done true
  | n + 1 => m.andThen (rounds m n)

variable [DecidableEq L] [Preorder R]

/--
Each lock comes behind all that are held, only locks that are held are given back, and `Q` holds of the result and
of the locks held in the end.
-/
def Ordered (rank : L → R) (Q : α → List L → Prop) : List L → LockProg L α → Prop
  | held, done a => Q a held
  | held, down l rest => (∀ h ∈ held, rank h < rank l) ∧ Ordered rank Q (l :: held) rest
  | held, up l rest => l ∈ held ∧ Ordered rank Q (held.erase l) rest
  | held, ask rest => ∀ n, Ordered rank Q held (rest n)

/--
A program that takes no lock below `r` and leaves the locks as they are.
-/
def Nested (rank : L → R) (r : R) (m : LockProg L α) : Prop :=
  ∀ held, (∀ h ∈ held, rank h < r) → m.Ordered rank (fun _ held' => held' = held) held

/--
A program that gives back `l` and takes no lock below `r` from then on.
-/
def Releases (rank : L → R) (r : R) (l : L) (m : LockProg L α) : Prop :=
  ∀ held, (∀ h ∈ held, rank h < r) → (∀ h ∈ held, rank h < rank l) →
    m.Ordered rank (fun _ held' => held' = held) (l :: held)

variable {rank : L → R} {r r' : R} {l : L} {held : List L} {Q Q' : α → List L → Prop} {m : LockProg L α}
  {f : α → LockProg L β}

theorem Ordered.mono (h : m.Ordered rank Q held) (hQ : ∀ a held', Q a held' → Q' a held') : m.Ordered rank Q' held := by
  induction m generalizing held with
  | done a => exact hQ a held h
  | down l rest ih => exact ⟨h.1, ih h.2⟩
  | up l rest ih => exact ⟨h.1, ih h.2⟩
  | ask rest ih => exact fun n => ih n (h n)

theorem ordered_bind {Q : β → List L → Prop} (h : m.Ordered rank (fun a held' => (f a).Ordered rank Q held') held)
    : (m >>= f).Ordered rank Q held := by
  change (m.bind f).Ordered rank Q held
  induction m generalizing held with
  | done a => exact h
  | down l rest ih => exact ⟨h.1, ih h.2⟩
  | up l rest ih => exact ⟨h.1, ih h.2⟩
  | ask rest ih => exact fun n => ih n (h n)

theorem nested_done (a : α) : (done a : LockProg L α).Nested rank r := fun _ _ => rfl

theorem nested_test : (test : LockProg L Bool).Nested rank r := fun _ _ _ => rfl

theorem nested_count : (count : LockProg L Nat).Nested rank r := fun _ _ _ => rfl

theorem Nested.mono (h : m.Nested rank r') (hr : r ≤ r') : m.Nested rank r :=
  fun held hheld => h held fun l hl => (hheld l hl).trans_le hr

theorem Nested.bind (hm : m.Nested rank r) (hf : ∀ a, (f a).Nested rank r) : (m >>= f).Nested rank r := by
  intro held hheld
  apply ordered_bind
  apply (hm held hheld).mono
  rintro a held' rfl
  exact hf a held' hheld

theorem Nested.andThen {m m' : LockProg L Bool} (hm : m.Nested rank r) (hm' : m'.Nested rank r)
    : (m.andThen m').Nested rank r := by
  apply hm.bind
  intro ok
  cases ok with
  | false => exact nested_done false
  | true => exact hm'

theorem Nested.rounds {m : LockProg L Bool} (hm : m.Nested rank r) (n : Nat) : (m.rounds n).Nested rank r := by
  induction n with
  | zero => exact nested_done true
  | succ n ih => exact hm.andThen ih

/--
A section that gives back its lock on every way out.
-/
theorem nested_lock {f : Unit → LockProg L β} (hf : (f ()).Releases rank r l) (hr : r ≤ rank l)
    : (lock l >>= f).Nested rank r := by
  intro held hheld
  have hbelow (h : L) (hh : h ∈ held) : rank h < rank l := (hheld h hh).trans_le hr
  exact ⟨hbelow, hf held hheld hbelow⟩

theorem releases_unlock {f : Unit → LockProg L β} (hf : (f ()).Nested rank r)
    : (unlock l >>= f).Releases rank r l := by
  intro held hheld _
  refine ⟨List.mem_cons_self, ?_⟩
  rw [List.erase_cons_head]
  exact hf held hheld

theorem Releases.bind (hm : m.Nested rank r') (hr : rank l < r') (hf : ∀ a, (f a).Releases rank r l)
    : (m >>= f).Releases rank r l := by
  intro held hheld hbelow
  apply ordered_bind
  apply (hm (l :: held) ?_).mono
  . rintro a held' rfl
    exact hf a held hheld hbelow
  . exact List.forall_mem_cons.mpr ⟨hr, fun h hh => (hbelow h hh).trans hr⟩

theorem releases_test {f : Bool → LockProg L β} (hf : ∀ a, (f a).Releases rank r l) : (test >>= f).Releases rank r l :=
  fun held hheld hbelow _ => hf _ held hheld hbelow

theorem releases_count {f : Nat → LockProg L β} (hf : ∀ a, (f a).Releases rank r l) : (count >>= f).Releases rank r l :=
  fun held hheld hbelow _ => hf _ held hheld hbelow

end LockProg
