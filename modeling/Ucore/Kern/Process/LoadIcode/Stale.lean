import Ucore.Kern.Process.LoadIcode.Lemmas.Blind
import Ucore.Kern.Process.LoadIcode.Loaded

/-!
This module contains what a new process sees of the memory that others used before it: pages come from
`pgdir_alloc_page`, which does not clear them.
-/

namespace Ucore
namespace LoadM

open Paging (InAreas InRange)

variable {ι : Type} {s t : Loading ι} {i : ι} {env : LoadEnv} {args : List KArg} {u : UserFrame}

/--
An access of the new process to its memory.
-/
inductive Access where
  | write (la : Nat) (off : Fin pgsize) (byte : BitVec 8)
  | fault (addr : Nat)

def Access.op (env : LoadEnv) (vmas : List Vma) (i : ι) : Access → Paging.UserOp ι
  | write la off byte => .write i la off byte
  | fault addr => .fault i env.pmm vmas addr

/--
The states differ only in the contents of free frames.
-/
structure DiffersInFree (s s' : Loading ι) : Prop where
  alike : s.Alike s'
  data : ∀ f, f ∉ s.paging.free → s'.paging.data f = s.paging.data f

variable [DecidableEq ι]

/--
The process does some accesses.
-/
def accessed (env : LoadEnv) (i : ι) (t : Loading ι) (l : List Access) : Option (Paging ι) :=
  Run.exec (Paging.userStep env.swap) t.paging (l.map fun access => access.op env t.mmapList i)

/--
What was in the free frames makes no difference to what the process can read, however it goes on.
-/
def NothingStale (env : LoadEnv) (args : List KArg) (i : ι) (s : Loading ι) : Prop :=
  ∀ s', DiffersInFree s s' → ∀ u t u' t', loadIcode env args i s = .ok u t →
    loadIcode env args i s' = .ok u' t' → ∀ l r r', accessed env i t l = some r →
      accessed env i t' l = some r' → ∀ la, r.pageRead env.swap i la = r'.pageRead env.swap i la

/--
The first byte of the page with the stack pointer is what was in the frame before.
-/
theorem stale_byte (hwrap : NoWrap s.file) (hload : loadIcode env args i s = .ok u t)
    : (t.paging.entries (i, pteKey (userSp args))).ppn ∈ s.paging.free ∧
        ∃ d, t.paging.pageRead env.swap i (userSp args) = some d ∧ d (pageOff 0) =
          s.paging.data (t.paging.entries (i, pteKey (userSp args))).ppn (pageOff 0) := by
  obtain ⟨mid, base, -, -, -, hstack, hvalid⟩ := loadIcode_phases hwrap hload
  obtain ⟨hmem, hdata⟩ := hstack.untouched _ rfl hvalid
  have hcontents := Paging.contents_of_maps (s := t.paging) ⟨hvalid, rfl⟩
  exact ⟨hmem, _, Paging.pageRead_of_contents hcontents, hdata⟩

/--
The same kernel state with another byte at the start of a frame.
-/
def flipByte (s : Loading ι) (f : Nat) : Loading ι :=
  { s with
    paging := s.paging.withData (Function.update s.paging.data f
      (Function.update (s.paging.data f) (pageOff 0) (s.paging.data f (pageOff 0) + 1))) }

omit [DecidableEq ι] in
theorem flipByte_differs {f : Nat} (h : f ∈ s.paging.free) : DiffersInFree s (flipByte s f) := by
  refine ⟨⟨⟨_, rfl⟩, rfl, rfl⟩, fun f' hf' => ?_⟩
  have hne : f' ≠ f := by
    rintro rfl
    exact hf' h
  exact Function.update_of_ne hne _ _

/--
Every program that is loaded can read bytes that were in a frame before: no input keeps them from it.
-/
theorem load_icode_stale (hwrap : NoWrap s.file) (hload : loadIcode env args i s = .ok u t)
    : ¬NothingStale env args i s := by
  intro hnothing
  obtain ⟨hmem, d, hread, hbyte⟩ := stale_byte hwrap hload
  generalize hf : (t.paging.entries (i, pteKey (userSp args))).ppn = f at hmem hbyte
  have hdiffers := flipByte_differs hmem
  have hrespects : Prog.Respects Loading.Alike (loadIcode env args i) := respects_loadIcode args
  have hrelated := hrespects s (flipByte s f) hdiffers.alike
  rw [hload] at hrelated
  obtain ⟨t', hload', halike⟩ := hrelated.exists_ok
  obtain ⟨-, d', hread', hbyte'⟩ := stale_byte (s := flipByte s f) hwrap hload'
  -- the page tables are the same, so it is the frame whose byte differs
  rw [halike.paging.entries, hf] at hbyte'
  have hsame := hnothing (flipByte s f) hdiffers u t u t' hload hload' [] _ _ rfl rfl (userSp args)
  rw [hread, hread', Option.some_inj] at hsame
  have hflip : (flipByte s f).paging.data f (pageOff 0) = s.paging.data f (pageOff 0) + 1 := by
    simp only [flipByte, Paging.withData, Function.update_self]
  rw [hflip, ← hsame, hbyte] at hbyte'
  have hne : ∀ b : BitVec 8, b ≠ b + 1 := by decide
  exact hne _ hbyte'

theorem load_icode_stale_codeHdr
    : ¬NothingStale plainEnv [] (0 : Fin 2) ⟨freeFrames 0, [], elfFile codeHdr⟩ := by
  obtain ⟨u, t, hload⟩ := codeHdr_loads
  exact load_icode_stale noWrap_codeHdr hload

theorem codeHdr_loads_one
    : ∃ u t, loadIcode plainEnv [] (0 : Fin 2) ⟨freeFrames 1, [], elfFile codeHdr⟩ = .ok u t :=
  Outcome.exists_of_isOk (by decide +kernel)

/--
The byte in front of the code is the one that was in the frame.
-/
theorem not_nothingStale_codeHdr
    : ¬(∀ (env : LoadEnv) (args : List KArg) (i : Fin 2) (s : Loading (Fin 2)),
        NothingStale env args i s) := by
  intro hall
  obtain ⟨u, t, hload⟩ := codeHdr_loads
  obtain ⟨u', t', hload'⟩ := codeHdr_loads_one
  have hdiffers : DiffersInFree ⟨freeFrames 0, [], elfFile codeHdr⟩ ⟨freeFrames 1, [], elfFile codeHdr⟩ := by
    refine ⟨⟨⟨(freeFrames 1).data, rfl⟩, rfl, rfl⟩, fun f hf => ?_⟩
    have hge : ¬f < 16 := fun hlt => hf (Finset.mem_range.mpr hlt)
    simp only [freeFrames, if_neg hge]
  have hsame := hall plainEnv [] 0 _ _ hdiffers u t u' t' hload hload' [] _ _ rfl rfl 0x80000f
  have hbyte : t.paging.userByte plainEnv.swap 0 0x80000f = some 0 := by
    rw [← byteBehind_ok hload]
    decide +kernel
  have hbyte' : t'.paging.userByte plainEnv.swap 0 0x80000f = some 1 := by
    rw [← byteBehind_ok hload']
    decide +kernel
  rw [Paging.userByte, hsame, ← Paging.userByte, hbyte'] at hbyte
  exact absurd hbyte (by decide)

end LoadM
end Ucore
