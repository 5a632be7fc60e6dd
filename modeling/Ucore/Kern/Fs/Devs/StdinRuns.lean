import Ucore.Kern.Fs.Devs.DevStdin
import Ucore.Lib.Run

/-!
This module contains the runs of writers and readers of the console input: the buffer hands out what it
accepted, in order, exactly when no character is stored over an unread one.
-/

namespace Ucore
namespace Stdin

variable {s s' : Stdin} {proc : Nat}

/--
What was handed out is the front of what was accepted, the rest of it is in the buffer, and a reader
only sleeps while nothing is unread.
-/
structure Lossless (s : Stdin) : Prop where
  delivered : s.delivered.map Prod.snd <+: s.accepted
  unread : ∀ k, s.rpos ≤ k → k < s.wpos → s.accepted[k]? = some (s.buffer (k % stdinBufsize))
  woken : ∀ proc w, s.reader proc = some w → w.asleep = true → s.rpos = s.wpos

/--
A character for a full buffer is the one it is stored over.
-/
def KeepsUnread (s : Stdin) : StdinEvent → Prop
  | .write c => c = 0 ∨ s.wpos - s.rpos < stdinBufsize ∨ c = s.buffer (s.wpos % stdinBufsize)
  | _ => True

instance (s : Stdin) : (event : StdinEvent) → Decidable (s.KeepsUnread event)
  | .write _ => inferInstanceAs (Decidable (_ ∨ _))
  | .read _ _ => inferInstanceAs (Decidable True)
  | .resume _ => inferInstanceAs (Decidable True)
  | .kill _ => inferInstanceAs (Decidable True)

structure Inv (s : Stdin) : Prop where
  delivered : s.delivered.map Prod.snd = s.accepted.take s.rpos
  length : s.accepted.length = s.wpos
  le : s.rpos ≤ s.wpos
  size : s.wpos ≤ s.rpos + stdinBufsize
  unread : ∀ k, s.rpos ≤ k → k < s.wpos → s.accepted[k]? = some (s.buffer (k % stdinBufsize))
  asleep : ∀ proc w, s.reader proc = some w → w.asleep = true → proc ∈ s.waitQueue ∧ s.rpos = s.wpos

theorem init_inv : init.Inv := by
  constructor <;> simp [init]

theorem Inv.lossless (h : s.Inv) : s.Lossless := by
  refine ⟨?_, h.unread, fun proc w hw hasleep => (h.asleep proc w hw hasleep).2⟩
  rw [h.delivered]
  exact List.take_prefix _ _

/--
Nobody sleeps while a character is unread.
-/
theorem Inv.awake (h : s.Inv) (hlt : s.rpos < s.wpos) {w : StdinReader} (hw : s.reader proc = some w)
    : w.asleep = false := by
  rw [Bool.eq_false_iff]
  intro hasleep
  have := (h.asleep proc w hw hasleep).2
  omega

theorem wakeupQueue_eq (procs : List Nat) (reader : Nat → Option StdinReader) (proc : Nat)
    : wakeupQueue procs reader proc
        =
      if proc ∈ procs then
        (reader proc).map fun w => { w with wakeupFlags := wtKbd, asleep := false }
      else
        reader proc := by
  induction procs generalizing reader with
  | nil => rfl
  | cons q procs ih =>
    rw [wakeupQueue, ih]
    by_cases hq : proc = q
    . subst hq
      cases reader proc with
      | none => simp
      | some w => simp
    . simp [hq]

/--
After a character nobody sleeps.
-/
theorem Inv.wakeupQueue_awake (h : s.Inv) {w : StdinReader}
    (hw : wakeupQueue s.waitQueue s.reader proc = some w)
    : w.asleep = false := by
  rw [wakeupQueue_eq] at hw
  split at hw
  . obtain ⟨w', -, rfl⟩ := Option.map_eq_some_iff.mp hw
    rfl
  next hmem =>
    rw [Bool.eq_false_iff]
    intro hasleep
    exact hmem (h.asleep proc w hw hasleep).1

theorem devStdinWrite_of_lt {c : BitVec 8} (hc : c ≠ 0) (hroom : s.wpos - s.rpos < stdinBufsize)
    : s.devStdinWrite c
        =
      { s with
        buffer := Function.update s.buffer (s.wpos % stdinBufsize) c
        wpos := s.wpos + 1
        accepted := s.accepted ++ [c]
        reader := wakeupQueue s.waitQueue s.reader
        waitQueue := [] } := by
  unfold devStdinWrite
  rw [if_pos hc]
  simp only [hroom, if_true]

theorem Inv.devStdinWrite (h : s.Inv) {c : BitVec 8} (hkeeps : s.KeepsUnread (.write c))
    : (s.devStdinWrite c).Inv := by
  by_cases hc : c = 0
  . simpa [Stdin.devStdinWrite, hc] using h
  have hlen := h.length
  have hle := h.le
  by_cases hroom : s.wpos - s.rpos < stdinBufsize
  . rw [devStdinWrite_of_lt hc hroom]
    constructor
    . simp only [h.delivered]
      rw [List.take_append_of_le_length (by omega)]
    . simp [hlen]
    . simp only
      omega
    . simp only
      omega
    . intro k hk hlt
      simp only at hk hlt ⊢
      by_cases hkw : k = s.wpos
      . subst hkw
        rw [Function.update_self, List.getElem?_append_right (by omega), hlen]
        simp
      . have hne : k % stdinBufsize ≠ s.wpos % stdinBufsize := by
          unfold stdinBufsize at *
          omega
        rw [Function.update_of_ne hne, List.getElem?_append_left (by omega)]
        exact h.unread k hk (by omega)
    . intro proc w hw hasleep
      have := h.wakeupQueue_awake hw
      rw [hasleep] at this
      cases this
  . have hsame : c = s.buffer (s.wpos % stdinBufsize) :=
      (hkeeps.resolve_left hc).resolve_left hroom
    simp only [Stdin.devStdinWrite, ne_eq, hc, not_false_eq_true, if_true, hroom, if_false]
    rw [hsame, Function.update_eq_self]
    refine ⟨h.delivered, h.length, h.le, h.size, h.unread, ?_⟩
    intro proc w hw hasleep
    have := h.wakeupQueue_awake hw
    rw [hasleep] at this
    cases this

/--
A character stored over a different unread one is handed out in its place.
-/
theorem Inv.devStdinWrite_lossy (h : s.Inv) {c : BitVec 8} (hkeeps : ¬s.KeepsUnread (.write c))
    : ¬(s.devStdinWrite c).Lossless := by
  obtain ⟨hc, hrest⟩ := not_or.mp hkeeps
  obtain ⟨hfull, hne⟩ := not_or.mp hrest
  have hle := h.le
  have hsize := h.size
  have hslot : s.rpos % stdinBufsize = s.wpos % stdinBufsize := by
    unfold stdinBufsize at *
    omega
  have hlt : s.rpos < s.wpos := by
    unfold stdinBufsize at *
    omega
  intro hlossless
  have hnew := hlossless.unread s.rpos
  have hold := h.unread s.rpos (Nat.le_refl _) hlt
  simp only [Stdin.devStdinWrite, ne_eq, hc, not_false_eq_true, if_true, hfull, if_false, Nat.le_refl, hslot,
    Function.update_self, hlt, forall_const] at hnew
  rw [hold, hslot, Option.some_inj] at hnew
  exact hne hnew.symm

/--
The loop hands out unread characters until the reader has enough of them or has to wait.
-/
theorem Inv.readLoop {len : BitVec 64} {fuel : Nat} {ret : BitVec 32} (h : s.Inv)
    (hreader : ∀ w, s.reader proc = some w → w.asleep = false) (hfuel : s.wpos - s.rpos < fuel)
    : ∃ s', readLoop proc len fuel s ret = some s' ∧ s'.Inv := by
  have hle := h.le
  induction fuel generalizing s ret with
  | zero => omega
  | succ fuel ih =>
    unfold Stdin.readLoop
    split
    . split
      next hlt =>
        have hnext : Inv { s with rpos := s.rpos + 1, delivered :=
            s.delivered ++ [(proc, s.buffer (s.rpos % stdinBufsize))] } := by
          constructor
          . have hget := h.unread s.rpos (Nat.le_refl _) hlt
            simp only [List.map_append, List.map_cons, List.map_nil, h.delivered]
            rw [List.take_add_one, hget]
            rfl
          . exact h.length
          . exact hlt
          . have := h.size
            simp only
            omega
          . exact fun k hk hkw => h.unread k (Nat.le_of_succ_le hk) hkw
          . intro q w hw hasleep
            have := h.awake hlt hw
            rw [hasleep] at this
            cases this
        exact ih hnext hreader (by simp only; omega) hnext.le
      next hge =>
        refine ⟨_, rfl, h.delivered, h.length, h.le, h.size, h.unread, ?_⟩
        intro q w hw hasleep
        by_cases hq : q = proc
        . subst hq
          exact ⟨by simp, by simp only; omega⟩
        . simp only [Function.update_of_ne hq] at hw
          exact ⟨List.mem_append_left _ (h.asleep q w hw hasleep).1, by simp only; omega⟩
    . refine ⟨_, rfl, h.delivered, h.length, h.le, h.size, h.unread, ?_⟩
      intro q w hw hasleep
      by_cases hq : q = proc
      . subst hq
        simp at hw
      . simp only [Function.update_of_ne hq] at hw
        exact h.asleep q w hw hasleep

theorem Inv.resume (h : s.Inv) {w : StdinReader} (hw : s.reader proc = some w)
    (hawake : w.asleep = false)
    : ∃ s', s.step (.resume proc) = some s' ∧ s'.Inv := by
  have hself : ∀ w', s.reader proc = some w' → w'.asleep = false := by
    intro w' hw'
    rw [hw, Option.some_inj] at hw'
    exact hw' ▸ hawake
  have hout : Inv { s with waitQueue := s.waitQueue.erase proc } := by
    refine ⟨h.delivered, h.length, h.le, h.size, h.unread, ?_⟩
    intro q w' hw' hasleep
    have hq : q ≠ proc := by
      intro hq
      subst hq
      have := hself w' hw'
      rw [hasleep] at this
      cases this
    obtain ⟨hmem, heq⟩ := h.asleep q w' hw' hasleep
    exact ⟨(List.mem_erase_of_ne hq).mpr hmem, heq⟩
  simp only [step, hw, Option.bind_some, afterSchedule]
  split
  . exact hout.readLoop hself (by simp only; omega)
  . refine ⟨_, rfl, hout.delivered, hout.length, hout.le, hout.size, hout.unread, ?_⟩
    intro q w' hw' hasleep
    by_cases hq : q = proc
    . subst hq
      simp at hw'
    . simp only [Function.update_of_ne hq] at hw'
      exact hout.asleep q w' hw' hasleep

theorem Inv.doKill (h : s.Inv) (proc : Nat) : (s.doKill proc).Inv := by
  unfold Stdin.doKill
  split
  . exact h
  . refine ⟨h.delivered, h.length, h.le, h.size, h.unread, ?_⟩
    intro q w hw hasleep
    by_cases hq : q = proc
    . subst hq
      simp only [Function.update_self] at hw
      obtain ⟨w', -, rfl⟩ := Option.map_eq_some_iff.mp hw
      cases hasleep
    . simp only [Function.update_of_ne hq] at hw
      exact h.asleep q w hw hasleep

/--
The console input is a lossless queue throughout a run exactly when no character that finds the buffer
full differs from the oldest unread one.
-/
theorem always_lossless_iff {events : List StdinEvent} (hlegal : Run.Admits step Legal init events)
    : Run.Always step Lossless init events ↔ Run.Admits step KeepsUnread init events := by
  apply Run.always_iff_admits (I := Inv) (L := Legal) (fun s h => h.lossless)
  . intro s event h hlegal hkeeps
    cases event with
    | write c => exact ⟨_, rfl, h.devStdinWrite hkeeps⟩
    | read proc len =>
      have hnone : s.reader proc = none := hlegal
      exact h.readLoop (by simp [hnone]) (by omega)
    | resume proc =>
      obtain ⟨w, hw, hawake⟩ := hlegal
      exact h.resume hw hawake
    | kill proc => exact ⟨_, rfl, h.doKill proc⟩
  . intro s event h _ hkeeps s' hstep
    cases event with
    | write c =>
      obtain rfl := Option.some_inj.mp hstep
      exact h.devStdinWrite_lossy hkeeps
    | read proc len => exact absurd trivial hkeeps
    | resume proc => exact absurd trivial hkeeps
    | kill proc => exact absurd trivial hkeeps
  . exact init_inv
  . exact hlegal

/--
Two readers, one of them killed while it sleeps.
-/
def twoReaders : List StdinEvent :=
  [.read 1 2, .read 2 3, .write 97, .write 98, .resume 1, .kill 2, .resume 2, .write 99]

theorem always_lossless_iff_twoReaders
    : Run.Always step Lossless init twoReaders ↔ Run.Admits step KeepsUnread init twoReaders :=
  always_lossless_iff (by decide)

theorem legal_writes (s : Stdin) {events : List StdinEvent}
    (hwrites : ∀ event ∈ events, ∃ c, event = .write c)
    : Run.Admits step Legal s events := by
  induction events generalizing s with
  | nil => trivial
  | cons event events ih =>
    obtain ⟨c, rfl⟩ := hwrites event (by simp)
    exact ⟨trivial, fun s' _ => ih s' fun event hevent => hwrites event (by simp [hevent])⟩

/--
The buffer after the first characters, which nobody reads.
-/
theorem exec_fill {n : Nat} (hn : n ≤ stdinBufsize)
    : ∃ s, Run.exec step init (List.replicate n (.write 97)) = some s ∧ s.Inv ∧ s.rpos = 0 ∧ s.wpos = n
        ∧ ∀ k < n, s.buffer k = 97 := by
  induction n with
  | zero => exact ⟨init, rfl, init_inv, rfl, rfl, by simp⟩
  | succ n ih =>
    obtain ⟨s, hexec, h, hrpos, hwpos, hbuffer⟩ := ih (by omega)
    have hroom : s.wpos - s.rpos < stdinBufsize := by omega
    refine ⟨s.devStdinWrite 97, ?_, h.devStdinWrite (Or.inr (Or.inl hroom)), ?_⟩
    . rw [List.replicate_succ']
      exact Run.exec_append hexec rfl
    rw [devStdinWrite_of_lt (by decide) hroom]
    refine ⟨hrpos, by simp only [hwpos], ?_⟩
    . intro k hk
      have hslot : s.wpos % stdinBufsize = n := by
        rw [hwpos]
        exact Nat.mod_eq_of_lt (by omega)
      simp only [hslot]
      by_cases hkn : k = n
      . simp [hkn]
      . simpa [Function.update_of_ne hkn] using hbuffer k (by omega)

/--
One character more than the buffer holds, a different one.
-/
def tooMany : List StdinEvent := List.replicate stdinBufsize (.write 97) ++ [.write 98]

theorem not_always_lossless
    : ¬∀ events, Run.Admits step Legal init events → Run.Always step Lossless init events := by
  intro h
  have hlegal : Run.Admits step Legal init tooMany := by
    apply legal_writes
    intro event hevent
    rcases List.mem_append.mp hevent with hevent | hevent
    . exact ⟨97, List.eq_of_mem_replicate hevent⟩
    . exact ⟨98, List.mem_singleton.mp hevent⟩
  obtain ⟨s, hexec, hinv, hrpos, hwpos, hbuffer⟩ := exec_fill (Nat.le_refl stdinBufsize)
  obtain ⟨t, ht, hlossless⟩ := (h tooMany hlegal).exec
  have hlast : Run.exec step init tooMany = some (s.devStdinWrite 98) := Run.exec_append hexec rfl
  rw [hlast, Option.some_inj] at ht
  subst ht
  refine hinv.devStdinWrite_lossy ?_ hlossless
  have hfirst := hbuffer 0 (by decide)
  simp [KeepsUnread, hrpos, hwpos, hfirst]

end Stdin
end Ucore
