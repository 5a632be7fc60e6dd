import Ucore.Kern.Driver.Console
import Ucore.Lib.Run

/-!
This module contains the runs of the console input: interrupts that deliver characters and calls of `cons_getc`, in any
order.
-/

namespace Ucore

namespace Cons

/--
The characters that have not been read, as the positions have it.
-/
def content (cons : Cons) : List UInt8 :=
  Ring.content consbufsize cons.buf cons.rpos (Ring.unread consbufsize cons.rpos cons.wpos)

/--
A further character would make the buffer look empty.
-/
def Full (cons : Cons) : Prop := Ring.unread consbufsize cons.rpos cons.wpos + 1 = consbufsize

instance (cons : Cons) : Decidable cons.Full := inferInstanceAs (Decidable (_ = _))

/--
What arrives of a character, `none` for a character that means nothing.
-/
def translate (x : UInt8) : Option UInt8 :=
  if x = 0 then none else if x = 127 then some 8 else some x

/--
The characters that an interrupt receives, each with whether the buffer is full when it arrives.
-/
def arrivals (cons : Cons) : List UInt8 → List (UInt8 × Bool)
  | [] => []
  | x :: xs =>
    match translate x with
    | none => cons.arrivals xs
    | some c => (c, decide cons.Full) :: (cons.put c).arrivals xs

end Cons

/--
The console with the characters received so far and those that `cons_getc` has returned.
-/
structure ConsRun where
  cons : Cons
  received : List (UInt8 × Bool)
  returned : List UInt8

inductive ConsEvent where
  | serialIntr (chars : List UInt8)
  | consGetc (chars : List UInt8)

/--
The characters that `sbi_console_getchar` has for the interrupt or for the poll of `cons_getc`.
-/
def ConsEvent.chars : ConsEvent → List UInt8
  | serialIntr chars => chars
  | consGetc chars => chars

/--
A list of characters without some of those that arrived while the buffer was full.
-/
inductive Surviving : List (UInt8 × Bool) → List UInt8 → Prop
  | nil : Surviving [] []
  | keep {c : UInt8} {full : Bool} {l : List (UInt8 × Bool)} {m : List UInt8} (h : Surviving l m)
    : Surviving ((c, full) :: l) (c :: m)
  | drop {c : UInt8} {l : List (UInt8 × Bool)} {m : List UInt8} (h : Surviving l m) : Surviving ((c, true) :: l) m

namespace ConsRun

open Cons (arrivals)

def init : ConsRun := ⟨Cons.init, [], []⟩

/--
A `0` of `cons_getc` is no character.
-/
def got (returned : List UInt8) (c : UInt8) : List UInt8 := if c = 0 then returned else returned ++ [c]

def step (r : ConsRun) : ConsEvent → Option ConsRun
  | .serialIntr chars => some ⟨r.cons.serialIntr chars, r.received ++ r.cons.arrivals chars, r.returned⟩
  | .consGetc chars =>
    let result := r.cons.consGetc chars
    some ⟨result.2, r.received ++ r.cons.arrivals chars, got r.returned result.1⟩

/--
The characters returned so far, followed by those that are still in the buffer, are those received so far without some
that arrived while the buffer was full.
-/
def Law (r : ConsRun) : Prop := Surviving r.received (r.returned ++ r.cons.content)

/--
The buffer has room for all characters that arrive.
-/
def Fits (r : ConsRun) (event : ConsEvent) : Prop :=
  r.cons.content.length + (event.chars.filterMap Cons.translate).length < consbufsize

instance (r : ConsRun) (event : ConsEvent) : Decidable (r.Fits event) := inferInstanceAs (Decidable (_ < _))

end ConsRun

namespace Cons

variable {cons : Cons} {x c : UInt8} {xs : List UInt8}

/--
One character of an interrupt.
-/
theorem serialIntr_cons (cons : Cons) (x : UInt8) (xs : List UInt8)
    : cons.serialIntr (x :: xs) =
        match translate x with
        | none => cons.serialIntr xs
        | some c => (cons.put c).serialIntr xs := by
  unfold serialIntr translate
  rw [consIntr, serialProcData]
  by_cases hzero : x = 0
  . subst hzero
    rfl
  . rw [if_neg hzero]
    by_cases hdel : x = 127
    . subst hdel
      rfl
    . simp only [if_neg hdel, ne_eq, hzero, not_false_eq_true, if_true]

theorem translate_ne_zero (h : translate x = some c) : c ≠ 0 := by
  unfold translate at h
  split at h
  . exact nomatch h
  . split at h
    . obtain rfl := Option.some_inj.mp h
      decide
    . obtain rfl := Option.some_inj.mp h
      assumption

theorem length_content (cons : Cons) : cons.content.length = Ring.unread consbufsize cons.rpos cons.wpos :=
  Ring.content_length

theorem full_iff : cons.Full ↔ cons.content.length + 1 = consbufsize := by
  rw [length_content]
  rfl

theorem content_put (h : cons.content.length + 1 < consbufsize) : (cons.put c).content = cons.content ++ [c] := by
  rw [length_content] at h
  unfold content put
  rw [Ring.unread_next cons.rpos_lt cons.wpos_lt h]
  exact Ring.content_write cons.rpos_lt cons.wpos_lt rfl h

theorem content_put_of_full (h : cons.Full) : (cons.put c).content = [] := by
  unfold content put
  rw [Ring.unread_next_of_full cons.rpos_lt cons.wpos_lt h]
  rfl

theorem length_content_lt (cons : Cons) : cons.content.length < consbufsize := by
  rw [length_content]
  exact Ring.unread_lt cons.rpos_lt cons.wpos_lt

/--
Characters for which there is room are appended.
-/
theorem content_serialIntr (h : cons.content.length + (xs.filterMap translate).length < consbufsize)
    : (cons.serialIntr xs).content = cons.content ++ xs.filterMap translate ∧
        cons.arrivals xs = (xs.filterMap translate).map fun c => (c, false) := by
  induction xs generalizing cons with
  | nil => simp [serialIntr, consIntr, arrivals]
  | cons x xs ih =>
    rw [serialIntr_cons, arrivals]
    cases htranslate : translate x with
    | none =>
      rw [List.filterMap_cons_none htranslate] at h ⊢
      exact ih h
    | some c =>
      rw [List.filterMap_cons_some htranslate, List.length_cons] at h
      rw [List.filterMap_cons_some htranslate]
      have hput : (cons.put c).content = cons.content ++ [c] := content_put (by omega)
      obtain ⟨hcontent, harrivals⟩ := @ih (cons.put c) (by
        rw [hput, List.length_append, List.length_singleton]
        omega)
      have hroom : ¬cons.Full := by
        rw [full_iff]
        omega
      refine ⟨?_, ?_⟩
      . rw [hcontent, hput, List.append_assoc]
        rfl
      . dsimp only
        rw [harrivals, decide_eq_false hroom]
        rfl

/--
Each time the buffer is full another `consbufsize - 1` characters are lost that had found room.
-/
theorem length_serialIntr (cons : Cons) (xs : List UInt8)
    : cons.content.length + (cons.arrivals xs).countP (fun a => !a.2) =
        (cons.serialIntr xs).content.length +
          (consbufsize - 1) * ((cons.content.length + (xs.filterMap translate).length) / consbufsize) := by
  induction xs generalizing cons with
  | nil =>
    have := cons.length_content_lt
    simp [serialIntr, consIntr, arrivals, Nat.div_eq_of_lt this]
  | cons x xs ih =>
    rw [serialIntr_cons, arrivals]
    cases htranslate : translate x with
    | none =>
      rw [List.filterMap_cons_none htranslate]
      exact ih cons
    | some c =>
      have hrest := ih (cons.put c)
      rw [List.filterMap_cons_some htranslate, List.length_cons]
      simp only [List.countP_cons]
      by_cases hfull : cons.Full
      . have hlength := full_iff.mp hfull
        rw [content_put_of_full hfull, List.length_nil, Nat.zero_add, Nat.zero_add] at hrest
        simp only [decide_eq_true hfull, consbufsize, Bool.not_true, Bool.false_eq_true, if_false] at hlength hrest ⊢
        omega
      . have hlt := cons.length_content_lt
        rw [full_iff] at hfull
        rw [content_put (by omega), List.length_append, List.length_singleton] at hrest
        simp only [decide_eq_false (mt full_iff.mp hfull), consbufsize, Bool.not_false, if_true] at hrest ⊢
        rw [show cons.content.length + 1 + (xs.filterMap translate).length =
          cons.content.length + ((xs.filterMap translate).length + 1) by omega] at hrest
        omega

theorem grab_fst_of_nil (h : cons.content = []) : cons.grab = (0, cons) := by
  have hzero : cons.content.length = 0 := by rw [h]; rfl
  rw [length_content, Ring.unread_eq_zero_iff cons.rpos_lt cons.wpos_lt] at hzero
  rw [grab, if_neg (not_not.mpr hzero)]

/--
`cons_getc` takes the first character.
-/
theorem grab_of_cons {rest : List UInt8} (h : cons.content = c :: rest)
    : cons.grab.1 = c ∧ cons.grab.2.content = rest := by
  have hne : cons.rpos ≠ cons.wpos := by
    intro heq
    have hzero : cons.content.length = 0 := by
      rw [length_content, heq, Ring.unread_self]
    rw [h] at hzero
    exact nomatch hzero
  rw [content, ← Ring.unread_next_read cons.rpos_lt cons.wpos_lt hne, Ring.content, List.cons.injEq] at h
  rw [grab, if_pos hne]
  exact h

end Cons

theorem Surviving.of_false {m : List UInt8} : Surviving (m.map fun c => (c, false)) m := by
  induction m with
  | nil => exact .nil
  | cons c m ih => exact .keep ih

theorem Surviving.countP_le {l : List (UInt8 × Bool)} {m : List UInt8} (h : Surviving l m)
    : l.countP (fun a => !a.2) ≤ m.length := by
  induction h with
  | nil => exact Nat.le_refl _
  | @keep c full l m _ ih =>
    rw [List.countP_cons, List.length_cons]
    split
    . omega
    . omega
  | drop _ ih =>
    rw [List.countP_cons]
    simpa using ih

namespace ConsRun

variable {r r' : ConsRun} {event : ConsEvent}

/--
No character is missing.
-/
structure Fifo (r : ConsRun) : Prop where
  received : r.received = (r.returned ++ r.cons.content).map fun c => (c, false)
  nonzero : ∀ c ∈ r.cons.content, c ≠ 0

theorem Fifo.law (h : r.Fifo) : r.Law := by
  unfold Law
  rw [h.received]
  exact .of_false

theorem fifo_init : init.Fifo := ⟨rfl, fun _ h => nomatch h⟩

theorem Fifo.serialIntr (h : r.Fifo) {chars : List UInt8}
    (hfits : r.cons.content.length + (chars.filterMap Cons.translate).length < consbufsize)
    : Fifo ⟨r.cons.serialIntr chars, r.received ++ r.cons.arrivals chars, r.returned⟩ := by
  obtain ⟨hcontent, harrivals⟩ := Cons.content_serialIntr hfits
  refine ⟨?_, ?_⟩
  . simp only [hcontent, harrivals, h.received, List.map_append, List.append_assoc]
  . simp only [hcontent, List.mem_append, List.mem_filterMap]
    rintro c (hc | ⟨x, -, hx⟩)
    . exact h.nonzero c hc
    . exact Cons.translate_ne_zero hx

theorem Fifo.step (h : r.Fifo) (hfits : r.Fits event) : ∃ r', r.step event = some r' ∧ r'.Fifo := by
  cases event with
  | serialIntr chars => exact ⟨_, rfl, h.serialIntr hfits⟩
  | consGetc chars =>
    have hintr := @Fifo.serialIntr r h chars hfits
    refine ⟨_, rfl, ?_⟩
    cases hcontent : (r.cons.serialIntr chars).content with
    | nil =>
      rw [Cons.consGetc, Cons.grab_fst_of_nil hcontent]
      exact hintr
    | cons c rest =>
      obtain ⟨hfirst, hrest⟩ := Cons.grab_of_cons hcontent
      have hreceived := hintr.received
      have hnonzero := hintr.nonzero
      simp only [hcontent] at hreceived hnonzero
      refine ⟨?_, ?_⟩
      . rw [Cons.consGetc, hfirst, hrest, got, if_neg (hnonzero c List.mem_cons_self), hreceived, List.append_assoc]
        rfl
      . rw [Cons.consGetc, hrest]
        exact fun c' hc' => hnonzero c' (List.mem_cons_of_mem _ hc')

/--
What `cons_getc` returns was in the buffer.
-/
theorem length_grab (cons : Cons) (returned : List UInt8)
    : (got returned cons.grab.1).length + cons.grab.2.content.length ≤ returned.length + cons.content.length := by
  cases hcontent : cons.content with
  | nil =>
    rw [Cons.grab_fst_of_nil hcontent]
    simp [got, hcontent]
  | cons c rest =>
    obtain ⟨-, hrest⟩ := Cons.grab_of_cons hcontent
    rw [hrest, List.length_cons, got]
    split
    . omega
    . rw [List.length_append, List.length_singleton]
      omega

/--
If too many characters arrive, some that found room are missing.
-/
theorem Fifo.not_law (h : r.Fifo) (hfits : ¬r.Fits event) (hstep : r.step event = some r') : ¬r'.Law := by
  intro hlaw
  have hreceived : r'.received = r.received ++ r.cons.arrivals event.chars := by
    cases event <;> exact Option.some_inj.mp hstep ▸ rfl
  have hlength : r'.returned.length + r'.cons.content.length ≤
      r.returned.length + (r.cons.serialIntr event.chars).content.length := by
    cases event with
    | serialIntr chars => exact Option.some_inj.mp hstep ▸ Nat.le_refl _
    | consGetc chars => exact Option.some_inj.mp hstep ▸ length_grab _ _
  have hold : r.received.countP (fun a => !a.2) = r.returned.length + r.cons.content.length := by
    rw [h.received, List.countP_map, ← List.length_append]
    exact List.countP_eq_length.mpr fun _ _ => rfl
  have hnew := r.cons.length_serialIntr event.chars
  have hlost : 1 ≤ (r.cons.content.length + (event.chars.filterMap Cons.translate).length) / consbufsize :=
    (Nat.one_le_div_iff (by decide)).mpr (Nat.not_lt.mp hfits)
  have hkept := Surviving.countP_le hlaw
  rw [hreceived, List.countP_append, List.length_append, hold] at hkept
  simp only [consbufsize] at hnew hlost
  omega

/--
All characters arrive in order exactly if the buffer always has room for those that come in.
-/
theorem console_law_iff (events : List ConsEvent)
    : Run.Always step Law init events ↔ Run.Admits step Fits init events :=
  Run.always_iff_admits (fun _ => Fifo.law) (fun _ _ h _ => h.step) (fun _ _ h _ hfits _ => h.not_law hfits)
    fifo_init (Run.Admits.of_forall (fun _ _ => trivial) init events)

/--
As many characters as the buffer has cells.
-/
theorem not_console_law : ¬∀ events, Run.Always step Law init events := by
  intro hall
  obtain ⟨-, r, hstep, hlaw⟩ := hall [.serialIntr (List.replicate 512 97), .consGetc [98]]
  have hfits : ¬init.Fits (.serialIntr (List.replicate 512 97)) := by
    have htranslate : Cons.translate 97 = some 97 := rfl
    simp only [Fits, ConsEvent.chars, List.filterMap_replicate_of_some htranslate, List.length_replicate, consbufsize]
    omega
  exact fifo_init.not_law hfits hstep hlaw.head

end ConsRun
end Ucore
