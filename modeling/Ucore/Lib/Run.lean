import Mathlib

/-!
This module contains runs of a partial step function on a list of inputs: what holds in every state
of a run, which inputs a run admits, and the rule that turns facts about one step into facts about
whole runs.
-/

namespace Run

variable {σ ι : Type} (step : σ → ι → Option σ)

/--
The state a run ends in, `none` if one of its steps has no result.
-/
def exec (s : σ) : List ι → Option σ
  | [] => some s
  | i :: is => (step s i).bind fun s' => exec s' is

/--
Every step of the run has a result, and `P` holds at the start and after every step.
-/
def Always (P : σ → Prop) (s : σ) : List ι → Prop
  | [] => P s
  | i :: is => P s ∧ ∃ s', step s i = some s' ∧ Always P s' is

/--
Each input of the run satisfies `Q` in the state in which it arrives.
-/
def Admits (Q : σ → ι → Prop) (s : σ) : List ι → Prop
  | [] => True
  | i :: is => Q s i ∧ ∀ s', step s i = some s' → Admits Q s' is

variable {step}

instance Admits.decidable {Q : σ → ι → Prop} [∀ s i, Decidable (Q s i)] (s : σ)
    : (is : List ι) → Decidable (Admits step Q s is)
  | [] => isTrue trivial
  | i :: is =>
    match h : step s i with
    | none => decidable_of_iff (Q s i) (by simp [Admits, h])
    | some s' =>
      have := Admits.decidable (Q := Q) s' is
      decidable_of_iff (Q s i ∧ Admits step Q s' is) (by simp [Admits, h])

theorem Always.exec {P : σ → Prop} {s : σ} {is : List ι} (h : Always step P s is)
    : ∃ s', Run.exec step s is = some s' ∧ P s' := by
  induction is generalizing s with
  | nil => exact ⟨s, rfl, h⟩
  | cons i is ih =>
    obtain ⟨-, s', hstep, hrest⟩ := h
    obtain ⟨t, hexec, hP⟩ := ih hrest
    exact ⟨t, by simp [Run.exec, hstep, hexec], hP⟩

theorem Always.head {P : σ → Prop} {s : σ} {is : List ι} (h : Always step P s is) : P s := by
  cases is with
  | nil => exact h
  | cons i is => exact h.1

theorem Admits.of_forall {Q : σ → ι → Prop} (h : ∀ s i, Q s i) (s : σ) (is : List ι) : Admits step Q s is := by
  induction is generalizing s with
  | nil => trivial
  | cons i is ih => exact ⟨h s i, fun s' _ => ih s'⟩

theorem Admits.and {Q R : σ → ι → Prop} {s : σ} {is : List ι} (hQ : Admits step Q s is) (hR : Admits step R s is)
    : Admits step (fun s i => Q s i ∧ R s i) s is := by
  induction is generalizing s with
  | nil => trivial
  | cons i is ih => exact ⟨⟨hQ.1, hR.1⟩, fun s' hstep => ih (hQ.2 s' hstep) (hR.2 s' hstep)⟩

theorem exec_append {s t u : σ} {is js : List ι} (hfirst : Run.exec step s is = some t)
    (hrest : Run.exec step t js = some u)
    : Run.exec step s (is ++ js) = some u := by
  induction is generalizing s with
  | nil =>
    obtain rfl := Option.some_inj.mp hfirst
    exact hrest
  | cons i is ih =>
    obtain ⟨s', hstep, hexec⟩ := Option.bind_eq_some_iff.mp hfirst
    exact Option.bind_eq_some_iff.mpr ⟨s', hstep, ih hexec⟩

/--
Behind its first part a run admits the rest.
-/
theorem Admits.behind {Q : σ → ι → Prop} {s t : σ} {is js : List ι} (h : Admits step Q s (is ++ js))
    (hexec : Run.exec step s is = some t)
    : Admits step Q t js := by
  induction is generalizing s with
  | nil => exact Option.some_inj.mp hexec ▸ h
  | cons i is ih =>
    obtain ⟨u, hstep, hrest⟩ := Option.bind_eq_some_iff.mp hexec
    exact ih (h.2 u hstep) hrest

/--
What every step keeps holds at the end of every run.
-/
theorem exec_invariant {I : σ → Prop} (hkeep : ∀ s i s', I s → step s i = some s' → I s')
    {s s' : σ} {is : List ι} (hs : I s) (hexec : Run.exec step s is = some s')
    : I s' := by
  induction is generalizing s with
  | nil =>
    rw [Run.exec, Option.some_inj] at hexec
    exact hexec ▸ hs
  | cons i is ih =>
    obtain ⟨t, hstep, hrest⟩ := Option.bind_eq_some_iff.mp hexec
    exact ih (hkeep s i t hs hstep) hrest

/--
What every admitted step keeps holds at the end of every run of such steps.
-/
theorem exec_invariant_of_admits {I : σ → Prop} {Q : σ → ι → Prop}
    (hkeep : ∀ s i s', I s → Q s i → step s i = some s' → I s') {s s' : σ} {is : List ι} (hs : I s)
    (hadmits : Admits step Q s is) (hexec : Run.exec step s is = some s')
    : I s' := by
  induction is generalizing s with
  | nil =>
    rw [Run.exec, Option.some_inj] at hexec
    exact hexec ▸ hs
  | cons i is ih =>
    obtain ⟨t, hstep, hrest⟩ := Option.bind_eq_some_iff.mp hexec
    exact ih (hkeep s i t hs hadmits.1 hstep) (hadmits.2 t hstep) hrest

/--
An invariant that depends on the inputs so far: admitted steps have a result and keep it, so a run of
them has one, too.
-/
theorem exists_exec_of_past {I : List ι → σ → Prop} {Q : σ → ι → Prop}
    (hkeep : ∀ past s i, I past s → Q s i → ∃ s', step s i = some s' ∧ I (past ++ [i]) s')
    {past : List ι} {s : σ} {is : List ι} (hs : I past s) (hadmits : Admits step Q s is)
    : ∃ s', Run.exec step s is = some s' ∧ I (past ++ is) s' := by
  induction is generalizing past s with
  | nil => exact ⟨s, rfl, by simpa using hs⟩
  | cons i is ih =>
    obtain ⟨t, hstep, ht⟩ := hkeep past s i hs hadmits.1
    obtain ⟨s', hexec, hs'⟩ := ih ht (hadmits.2 t hstep)
    exact ⟨s', Option.bind_eq_some_iff.mpr ⟨t, hstep, hexec⟩, by simpa using hs'⟩

/--
A run of steps that have a result and keep the invariant when they are admitted has a result.
-/
theorem exists_exec_of_admits {I : σ → Prop} {Q : σ → ι → Prop}
    (hkeep : ∀ s i, I s → Q s i → ∃ s', step s i = some s' ∧ I s') {s : σ} {is : List ι} (hs : I s)
    (hadmits : Admits step Q s is)
    : ∃ s', Run.exec step s is = some s' ∧ I s' :=
  @exists_exec_of_past _ _ _ (fun _ => I) _ (fun _ => hkeep) [] _ _ hs hadmits

/--
A run of admitted steps that keep an invariant stronger than `P`.
-/
theorem always_of_admits {I P : σ → Prop} {Q : σ → ι → Prop} (hP : ∀ s, I s → P s)
    (hkeep : ∀ s i, I s → Q s i → ∃ s', step s i = some s' ∧ I s') {s : σ} {is : List ι} (hs : I s)
    (hadmits : Admits step Q s is)
    : Always step P s is := by
  induction is generalizing s with
  | nil => exact hP s hs
  | cons i is ih =>
    obtain ⟨t, hstep, ht⟩ := hkeep s i hs hadmits.1
    exact ⟨hP s hs, t, hstep, ih ht (hadmits.2 t hstep)⟩

/--
Let `I` be an invariant stronger than `P`. If a legal input that satisfies `C` keeps `I`, and a legal
input that violates `C` leads to no state with `P`, then `P` holds throughout a run exactly when all
of its inputs satisfy `C`.
-/
theorem always_iff_admits {I P : σ → Prop} {L C : σ → ι → Prop} (hP : ∀ s, I s → P s)
    (hkeep : ∀ s i, I s → L s i → C s i → ∃ s', step s i = some s' ∧ I s')
    (hbreak : ∀ s i, I s → L s i → ¬C s i → ∀ s', step s i = some s' → ¬P s')
    {s : σ} {is : List ι} (hs : I s) (hlegal : Admits step L s is)
    : Always step P s is ↔ Admits step C s is := by
  induction is generalizing s with
  | nil => simpa [Always, Admits] using hP s hs
  | cons i is ih =>
    obtain ⟨hL, hrest⟩ := hlegal
    constructor
    . intro ⟨_, s', hstep, halways⟩
      have hC : C s i := Classical.byContradiction fun hC =>
        hbreak s i hs hL hC s' hstep halways.head
      obtain ⟨t, ht, hI⟩ := hkeep s i hs hL hC
      have : t = s' := by
        rw [hstep] at ht
        exact (Option.some.inj ht).symm
      subst this
      refine ⟨hC, ?_⟩
      intro u hu
      have : u = t := by
        rw [hstep] at hu
        exact (Option.some.inj hu).symm
      subst this
      exact (ih hI (hrest u hstep)).mp halways
    . intro ⟨hC, hadmits⟩
      obtain ⟨s', hstep, hI⟩ := hkeep s i hs hL hC
      exact ⟨hP s hs, s', hstep, (ih hI (hrest s' hstep)).mpr (hadmits s' hstep)⟩

end Run
