import Ucore.Kern.Process.DoExecve.Impl

/-!
This module contains the proof that `do_execve` comes back with an error only while nothing has been given up, and
that the kernel copies of the arguments are the strings of the user and are all freed.
-/

namespace Ucore

namespace MmStruct

variable {mm mm' mm'' : Option MmStruct} {mem dst : Nat → BitVec 8} {src maxn addr len : Nat} {write : Bool}

theorem check_sameAreas {s : CopyState} (hok : s.Ok) : SameAreas s.mm (s.check src len).2.mm :=
  userMemCheck_sameAreas hok

theorem copyStringLoop_sameAreas {s : CopyState} {off part : Nat} (hok : s.Ok)
    : SameAreas s.mm (copyStringLoop mem s off src maxn part).2.mm := by
  fun_induction copyStringLoop mem s off src maxn part with
  | case1 s off src maxn part len s₁ hcheck =>
    have hsame := @check_sameAreas src len s hok
    rwa [hcheck] at hsame
  | case2 s off src maxn part len s₁ hcheck =>
    have hsame := @check_sameAreas src len s hok
    rwa [hcheck] at hsame
  | case3 s off src maxn part len s₁ hcheck =>
    have hsame := @check_sameAreas src len s hok
    rwa [hcheck] at hsame
  | case4 s off src maxn part len s₁ hcheck alen s₂ hfull hne ih =>
    have hsame := @check_sameAreas src len s hok
    rw [hcheck] at hsame
    exact hsame.trans (ih hsame.ok)

theorem copyString_sameAreas (hok : ∀ m ∈ mm, m.Ok) : SameAreas mm (copyString mm mem dst src maxn).2.mm :=
  @copyStringLoop_sameAreas mem src maxn ⟨mm, dst, []⟩ 0 _ hok

/--
The bytes of `copy` start with the string at `src`, which is shorter than `maxn`.
-/
def StrCopy (mem : Nat → BitVec 8) (src maxn : Nat) (copy : Nat → BitVec 8) : Prop :=
  ∃ n < maxn, StrLen mem src n ∧ ∀ k ≤ n, copy k = mem (src + k)

theorem copyString_strCopy (hok : ∀ m ∈ mm, m.Ok) (hsrc : src < 2 ^ 64) (hmaxn : maxn < 2 ^ 64)
    (hret : (copyString mm mem dst src maxn).1 = true)
    : StrCopy mem src maxn (copyString mm mem dst src maxn).2.dst := by
  have hcopied := @copyStringLoop_copied mem src ⟨mm, dst, []⟩ 0 maxn _ hok hmaxn rfl
  rw [← firstPart_eq hsrc] at hcopied
  obtain ⟨n, hn, hstr, -⟩ := hcopied.delivers.mp hret
  refine ⟨n, hn, hstr, ?_⟩
  intro k hk
  have hdst := congrFun (hcopied.string hret n hstr) k
  refine hdst.trans ?_
  simp [hk]

end MmStruct

theorem argvAt_lt (mem : Nat → BitVec 8) (argv i : Nat) : argvAt mem argv i < 2 ^ 64 := Bytes.toNat_lt _ 8

/--
The caller's address space, memory, files and name are as they were. What lookups leave in the cache of the address
space does not count.
-/
structure ExecState.Kept {φ : Type} (s t : ExecState φ) : Prop where
  mm : MmStruct.SameAreas s.mm t.mm
  mmCount : t.mmCount = s.mmCount
  mem : t.mem = s.mem
  files : t.files = s.files
  name : t.name = s.name
  pid : t.pid = s.pid
  gaveUp : t.gaveUp = s.gaveUp
  loaded : t.loaded = s.loaded

/--
The heap has the same blocks, with the same contents.
-/
structure ExecState.SameHeap {φ : Type} (s t : ExecState φ) : Prop where
  live : t.live = s.live
  block : ∀ b ∈ s.live, t.block b = s.block b

namespace ExecM

open ExecState (Kept SameHeap)
open MmStruct (SameAreas StrCopy)

variable {φ : Type} {s t : ExecState φ} {env : ExecEnv φ} {argv n : Nat} {kargv : List Nat} {block : Nat}

theorem kept_live (h : Kept s t) (live : Finset Nat) : Kept s { t with live } :=
  ⟨h.mm, h.mmCount, h.mem, h.files, h.name, h.pid, h.gaveUp, h.loaded⟩

theorem kept_mm {mm : Option MmStruct} (h : Kept s t) (hmm : SameAreas t.mm mm) : Kept s { t with mm } :=
  ⟨h.mm.trans hmm, h.mmCount, h.mem, h.files, h.name, h.pid, h.gaveUp, h.loaded⟩

theorem kept_block (h : Kept s t) (block : Nat → Nat → BitVec 8) : Kept s { t with block } :=
  ⟨h.mm, h.mmCount, h.mem, h.files, h.name, h.pid, h.gaveUp, h.loaded⟩

theorem kept_locked (h : Kept s t) (locked : Bool) : Kept s { t with locked } :=
  ⟨h.mm, h.mmCount, h.mem, h.files, h.name, h.pid, h.gaveUp, h.loaded⟩

theorem kfree_run (h : block ∈ t.live) : kfree block t = .ok () { t with live := t.live.erase block } := by
  simp only [kfree, Prog.get_bind_run, if_pos h, Prog.modify_run]

theorem kfreeAll_run (hnodup : kargv.Nodup) (hlive : ∀ b ∈ kargv, b ∈ t.live)
    : kfreeAll kargv t = .ok () { t with live := t.live \ kargv.toFinset } := by
  induction kargv generalizing t with
  | nil => simp [kfreeAll]
  | cons b rest ih =>
    obtain ⟨hb, hnodup⟩ := List.nodup_cons.mp hnodup
    obtain ⟨hbLive, hlive⟩ := List.forall_mem_cons.mp hlive
    have hrest (c : Nat) (hc : c ∈ rest) : c ∈ t.live.erase b := by
      refine Finset.mem_erase.mpr ⟨?_, hlive c hc⟩
      intro heq
      exact hb (heq ▸ hc)
    rw [kfreeAll, Prog.bind_run_ok (kfree_run hbLive), ih hnodup hrest]
    congr 2
    ext c
    simp only [Finset.mem_sdiff, Finset.mem_erase, List.mem_toFinset, List.mem_cons]
    tauto

theorem putKargv_run (hnodup : kargv.Nodup) (hlive : ∀ b ∈ kargv, b ∈ t.live)
    : putKargv kargv t = .ok () { t with live := t.live \ kargv.toFinset } := by
  rw [putKargv, kfreeAll_run (List.nodup_reverse.mpr hnodup) (by simpa using hlive)]
  simp

/--
The arguments in `kargv` have been copied to blocks that are new since `s`.
-/
structure Holding (s : ExecState φ) (argv : Nat) (kargv : List Nat) (used : Finset Nat)
    (data : Nat → Nat → BitVec 8) : Prop where
  nodup : kargv.Nodup
  live : used = s.live ∪ kargv.toFinset
  fresh : ∀ b ∈ kargv, b ∉ s.live
  block : ∀ b ∈ s.live, data b = s.block b
  copies : ∀ i b, kargv[i]? = some b → StrCopy s.mem (argvAt s.mem argv i) (execMaxArgLen + 1) (data b)

/--
The loop of `copy_kargv` gives nothing up.
-/
structure Copying (s : ExecState φ) (argv : Nat) (kargv : List Nat) (t : ExecState φ) : Prop where
  kept : Kept s t
  holding : Holding s argv kargv t.live t.block

/--
What an error of `copy_string` or of `copy_kargv` leaves behind.
-/
structure Failed (s : ExecState φ) (e : ExecEnd) (t : ExecState φ) : Prop where
  ret : ∃ r ≠ 0, e = .ret r
  kept : Kept s t
  sameHeap : SameHeap s t

theorem holding_nil (h : SameHeap s t) : Holding s argv [] t.live t.block :=
  ⟨List.nodup_nil, by simpa using h.live, nofun, h.block, nofun⟩

theorem Holding.putKargv (h : Holding s argv kargv t.live t.block)
    : putKargv kargv t = .ok () { t with live := s.live } := by
  rw [putKargv_run h.nodup]
  . congr 2
    ext b
    have := h.fresh b
    simp only [h.live, Finset.mem_sdiff, Finset.mem_union, List.mem_toFinset]
    tauto
  . intro b hb
    rw [h.live]
    exact Finset.mem_union_right _ (List.mem_toFinset.mpr hb)

theorem copyString_run {dst : Nat → BitVec 8} {src maxn : Nat}
    : copyString dst src maxn t =
        .ok (MmStruct.copyString t.mm t.mem dst src maxn |>.1, (MmStruct.copyString t.mm t.mem dst src maxn).2.dst)
          { t with mm := (MmStruct.copyString t.mm t.mem dst src maxn).2.mm } := rfl

/--
A call of `copy_string` to a buffer that is not in use yet.
-/
theorem Copying.called {copy : Bool × MmStruct.CopyState} {src maxn : Nat} (h : Copying s argv kargv t)
    (hfresh : block ∉ t.live) (hcopy : MmStruct.copyString t.mm t.mem (t.block block) src maxn = copy)
    : Copying s argv kargv { t with mm := copy.2.mm, block := Function.update t.block block copy.2.dst } := by
  have hother (b : Nat) (hb : b ∈ t.live) : Function.update t.block block copy.2.dst b = t.block b := by
    refine Function.update_of_ne ?_ _ _
    rintro rfl
    exact hfresh hb
  refine ⟨kept_block (kept_mm h.kept ?_) _, h.holding.nodup, h.holding.live, h.holding.fresh, ?_, ?_⟩
  . rw [← hcopy]
    exact MmStruct.copyString_sameAreas h.kept.mm.ok
  . intro b hb
    rw [← h.holding.block b hb]
    refine hother b ?_
    rw [h.holding.live]
    exact Finset.mem_union_left _ hb
  . intro i b hi
    have hb : b ∈ t.live := by
      rw [h.holding.live]
      exact Finset.mem_union_right _ (List.mem_toFinset.mpr (List.mem_of_getElem? hi))
    dsimp only
    rw [hother b hb]
    exact h.holding.copies i b hi

/--
One more argument has been copied.
-/
theorem Copying.step {copy : Bool × MmStruct.CopyState} (h : Copying s argv kargv t) (hfresh : block ∉ t.live)
    (hcopy : MmStruct.copyString t.mm t.mem (t.block block) (argvAt t.mem argv kargv.length) (execMaxArgLen + 1) = copy)
    (hret : copy.1 = true)
    : Copying s argv (kargv ++ [block]) { t with
        mm := copy.2.mm
        live := insert block t.live
        block := Function.update t.block block copy.2.dst } := by
  have hstr : StrCopy t.mem (argvAt t.mem argv kargv.length) (execMaxArgLen + 1) copy.2.dst := by
    rw [← hcopy] at hret ⊢
    exact MmStruct.copyString_strCopy h.kept.mm.ok (argvAt_lt t.mem argv kargv.length) (by decide) hret
  have hnew : block ∉ s.live ∧ block ∉ kargv := by
    rw [h.holding.live] at hfresh
    simpa using hfresh
  have hcalled := h.called hfresh hcopy
  refine ⟨kept_live hcalled.kept _, ?_, ?_, ?_, hcalled.holding.block, ?_⟩
  . refine List.nodup_append.mpr ⟨h.holding.nodup, List.nodup_singleton _, ?_⟩
    intro b hb c hc
    obtain rfl := List.mem_singleton.mp hc
    rintro rfl
    exact hnew.2 hb
  . dsimp only
    rw [h.holding.live]
    ext b
    simp only [Finset.mem_insert, Finset.mem_union, List.mem_toFinset, List.mem_append, List.mem_singleton]
    tauto
  . intro b hb
    rcases List.mem_append.mp hb with hb | hb
    . exact h.holding.fresh b hb
    . obtain rfl := List.mem_singleton.mp hb
      exact hnew.1
  . intro i b hi
    rw [List.getElem?_append] at hi
    split at hi
    . exact hcalled.holding.copies i b hi
    next hge =>
      rw [List.getElem?_singleton] at hi
      split at hi
      next hzero =>
        obtain rfl := Option.some_inj.mp hi
        obtain rfl : i = kargv.length := by omega
        dsimp only
        rw [Function.update_self, ← h.kept.mem]
        exact hstr
      next => contradiction

theorem copyKargvLoop_sat (h : Copying s argv kargv t)
    : (copyKargvLoop env argv n kargv t).Sat
        (fun kargv' t' => Copying s argv kargv' t' ∧ kargv'.length = kargv.length + n) (Failed s)
        (fun _ => False) := by
  induction n generalizing kargv t with
  | zero => exact ⟨h, rfl⟩
  | succ n ih =>
    rw [copyKargvLoop, Prog.get_bind_run]
    cases hbuffer : env.kmalloc t.live with
    | none =>
      dsimp only
      rw [Prog.bind_run_ok h.holding.putKargv]
      exact ⟨⟨_, by decide, rfl⟩, kept_live h.kept _, rfl, h.holding.block⟩
    | some buffer =>
      have hfresh := env.kmalloc_fresh t.live buffer hbuffer
      dsimp only
      rw [Prog.modify_bind_run, Prog.bind_run_ok (copyString_run ..), Prog.modify_bind_run]
      dsimp only
      generalize hcopy : MmStruct.copyString t.mm t.mem (t.block buffer) (argvAt t.mem argv kargv.length)
        (execMaxArgLen + 1) = copy
      have hcalled := h.called hfresh hcopy
      cases hret : copy.1 with
      | false =>
        rw [if_neg (by simp), Prog.bind_run_ok (kfree_run (Finset.mem_insert_self _ _))]
        dsimp only
        rw [Finset.erase_insert hfresh, Prog.bind_run_ok hcalled.holding.putKargv]
        exact ⟨⟨_, by decide, rfl⟩, kept_live hcalled.kept _, rfl, hcalled.holding.block⟩
      | true =>
        rw [if_pos rfl]
        have hrest := ih (h.step hfresh hcopy hret)
        refine hrest.mono ?_ (fun _ _ => id) (fun _ => id)
        intro kargv' t' ⟨hcopying, hlength⟩
        refine ⟨hcopying, ?_⟩
        rw [hlength, List.length_append, List.length_singleton]
        omega

theorem copyKargv_sat (hkept : Kept s t) (hheap : SameHeap s t)
    : (copyKargv env n argv t).Sat (fun kargv t' => Copying s argv kargv t' ∧ kargv.length = n) (Failed s)
        (fun _ => False) := by
  have hsame := @MmStruct.userMemCheck_sameAreas argv (8 * n) false t.mm hkept.mm.ok
  have hrun : userMemCheck argv (8 * n) t = .ok (MmStruct.userMemCheck t.mm argv (8 * n) false).1
    { t with mm := (MmStruct.userMemCheck t.mm argv (8 * n) false).2 } := rfl
  rw [copyKargv, Prog.bind_run_ok hrun]
  split
  . have hnil : Holding s argv [] t.live t.block := holding_nil hheap
    have hloop := @copyKargvLoop_sat φ s _ env argv n [] ⟨kept_mm hkept hsame, hnil⟩
    simpa using hloop
  . exact ⟨⟨_, by decide, rfl⟩, kept_mm hkept hsame, hheap.live, hheap.block⟩

theorem localName_sat {name : Nat} (hkept : Kept s t) (hheap : SameHeap s t)
    : (localName name t).Sat (fun _ t' => Kept s t' ∧ SameHeap s t') (Failed s) (fun _ => False) := by
  rw [localName, Prog.get_bind_run]
  split
  . exact ⟨hkept, hheap⟩
  . have hsame := @MmStruct.copyString_sameAreas t.mm t.mem (fun _ => 0) name (procNameLen + 1) hkept.mm.ok
    rw [Prog.bind_run_ok (copyString_run ..)]
    dsimp only
    split
    . exact ⟨kept_mm hkept hsame, hheap.live, hheap.block⟩
    . exact ⟨⟨_, by decide, rfl⟩, kept_mm hkept hsame, hheap.live, hheap.block⟩

/--
The address space is not locked any more when an error is returned.
-/
structure Refused (s : ExecState φ) (e : ExecEnd) (t : ExecState φ) : Prop extends Failed s e t where
  unlocked : t.mm.isSome → t.locked = false

theorem lockMm_sat (h : Kept s s)
    : (lockMm s).Sat (fun _ t => Kept s t ∧ SameHeap s t) (Refused s) (fun _ => False) := by
  rw [lockMm, Prog.modify_run, Outcome.sat_ok]
  split
  . exact ⟨kept_locked h _, rfl, fun _ _ => rfl⟩
  . exact ⟨h, rfl, fun _ _ => rfl⟩

theorem unlockMm_sat {e : ExecEnd} (h : Failed s e t)
    : (unlockMm t).Sat (fun _ => Refused s e) (fun _ => Refused s e) (fun _ => False) := by
  rw [unlockMm, Prog.modify_run, Outcome.sat_ok]
  split
  . exact ⟨⟨h.ret, kept_locked h.kept _, h.sameHeap.live, h.sameHeap.block⟩, fun _ => rfl⟩
  next hnone => exact ⟨h, fun hsome => absurd hsome hnone⟩

/--
What `do_execve` leaves behind when it returns an error, where it does not keep the lock, and when the process exits.
-/
def Aborted (s : ExecState φ) (e : ExecEnd) (t : ExecState φ) : Prop :=
  match e with
  | .ret r => r ≠ 0 ∧ Kept s t ∧ SameHeap s t ∧ (t.mm.isSome → t.locked = true → s.locked = true)
  | .exit _ => SameHeap s t

theorem Refused.aborted {e : ExecEnd} (h : Refused s e t) : Aborted s e t := by
  obtain ⟨r, hr, rfl⟩ := h.ret
  refine ⟨hr, h.kept, h.sameHeap, ?_⟩
  intro hsome hlocked
  rw [h.unlocked hsome] at hlocked
  contradiction

/--
`load_icode` has been given the strings of the user.
-/
structure Executed (s : ExecState φ) (argc : Int) (argv : Nat) (t : ExecState φ) : Prop where
  sameHeap : SameHeap s t
  loaded : ∃ copies, t.loaded = some copies ∧ (copies.length : Int) = argc ∧
    ∀ i copy, copies[i]? = some copy → StrCopy s.mem (argvAt s.mem argv i) (execMaxArgLen + 1) copy

theorem unlockMm_holding (h : Holding s argv kargv t.live t.block)
    : (unlockMm t).Sat (fun _ u => Holding s argv kargv u.live u.block) (Aborted s) (fun p => p = .loadIcode) := by
  rw [unlockMm, Prog.modify_run, Outcome.sat_ok]
  split
  . exact h
  . exact h

theorem execveExit_sat {ret : Int} {Q : Int → ExecState φ → Prop} {X : ExecPanic → Prop}
    (h : Holding s argv kargv t.live t.block)
    : (execveExit kargv ret t).Sat Q (Aborted s) X := by
  rw [execveExit, Prog.bind_run_ok h.putKargv]
  exact ⟨rfl, h.block⟩

theorem loadIcode_sat {fd : Int} (h : Holding s argv kargv t.live t.block)
    : (loadIcode env fd kargv t).Sat
        (fun _ t' => Holding s argv kargv t'.live t'.block ∧ t'.loaded = some (kargv.map t'.block)) (Aborted s)
        (fun p => p = .loadIcode) := by
  rw [loadIcode, Prog.get_bind_run]
  cases env.loadIcode t.files fd (kargv.map t.block) with
  | none => rfl
  | some new =>
    dsimp only
    rw [Prog.modify_bind_run]
    by_cases hret : new.ret = 0
    . rw [Prog.when_pos hret]
      exact ⟨h, rfl⟩
    . rw [Prog.when_neg hret]
      exact ⟨h, rfl⟩

/--
From the point on where the files are closed nothing is returned but success.
-/
theorem committed_sat {localName : Nat → BitVec 8} {path : Nat} (h : Holding s argv kargv t.live t.block)
    : ((do
        let fd ← reopen env path
        if fd < 0 then
          execveExit kargv fd
        else
          dropMm
          let ret ← loadIcode env fd kargv
          if ret ≠ 0 then
            execveExit kargv ret
          else
            putKargv kargv
            setProcName localName
            return 0 : ExecM φ Int) t).Sat
        (fun ret t' => ret = 0 ∧ Executed s kargv.length argv t') (Aborted s) (fun p => p = .loadIcode) := by
  have hreopen : (reopen env path t).Sat (fun _ u => Holding s argv kargv u.live u.block) (Aborted s)
      (fun p => p = .loadIcode) := h
  refine Prog.sat_bind hreopen ?_ (fun _ _ => id) (fun _ => id)
  intro fd t h
  split
  . exact execveExit_sat h
  have hdrop : (dropMm t).Sat (fun _ u => Holding s argv kargv u.live u.block) (Aborted s)
      (fun p => p = .loadIcode) := by
    rw [dropMm, Prog.modify_run, Outcome.sat_ok]
    split
    . exact h
    . exact h
  refine Prog.sat_bind hdrop ?_ (fun _ _ => id) (fun _ => id)
  intro _ t h
  refine Prog.sat_bind (loadIcode_sat h) ?_ (fun _ _ => id) (fun _ => id)
  intro ret t ⟨h, hloaded⟩
  split
  . exact execveExit_sat h
  . rw [Prog.bind_run_ok h.putKargv]
    refine ⟨rfl, ⟨rfl, h.block⟩, _, hloaded, by simp, ?_⟩
    intro i copy hcopy
    rw [List.getElem?_map] at hcopy
    obtain ⟨b, hb, rfl⟩ := Option.map_eq_some_iff.mp hcopy
    exact h.copies i b hb

/--
`do_execve` returns an error only before it has given anything up: the address space, the memory, the files and the
name are then as before, and the copies of the arguments are freed. When it returns zero, `load_icode` has been given
the strings of the user, and their copies are freed as well. No block is freed twice.
-/
theorem do_execve_all_or_nothing (env : ExecEnv φ) (s : ExecState φ) (hok : ∀ mm ∈ s.mm, mm.Ok) (name argv : Nat)
    (argc : Int)
    : (doExecve env name argc argv s).Sat (fun ret t => ret = 0 ∧ Executed s argc argv t) (Aborted s)
        (fun p => p = .loadIcode) := by
  have hkept : Kept s s := ⟨SameAreas.refl hok, rfl, rfl, rfl, rfl, rfl, rfl, rfl⟩
  rw [doExecve]
  split
  next hargc =>
    refine Prog.sat_bind (lockMm_sat hkept) ?_ (fun _ _ => Refused.aborted) nofun
    intro _ t ⟨hkept, hheap⟩
    have hname := Prog.sat_onError (@localName_sat φ s t name hkept hheap) (fun _ _ => unlockMm_sat) (fun _ => id)
    refine Prog.sat_bind hname ?_ (fun _ _ => Refused.aborted) nofun
    intro localName t ⟨hkept, hheap⟩
    have hkargv := Prog.sat_onError (@copyKargv_sat φ s t env argv argc.toNat hkept hheap)
      (fun _ _ => unlockMm_sat) (fun _ => id)
    refine Prog.sat_bind hkargv ?_ (fun _ _ => Refused.aborted) nofun
    intro kargv t ⟨hcopying, hlength⟩
    rw [Prog.get_bind_run]
    refine Prog.sat_bind (unlockMm_holding hcopying.holding) ?_ (fun _ _ => id) (fun _ => id)
    intro _ t h
    have hargc : (kargv.length : Int) = argc := by omega
    rw [← hargc]
    exact committed_sat h
  next => exact ⟨by decide, hkept, ⟨rfl, fun _ _ => rfl⟩, fun _ => id⟩

/--
A kernel with memory for each argument, whose files are numbered.
-/
def roomyKernel : ExecEnv Nat where
  kmalloc live := some (live.sup id + 1)
  kmalloc_fresh := by
    intro live block hblock hmem
    obtain rfl := Option.some_inj.mp hblock
    have : id (live.sup id + 1) ≤ live.sup id := @Finset.le_sup _ _ _ _ live id _ hmem
    dsimp only [id] at this
    omega
  filesCloseall _ := 0
  sysfileOpen files _ := (0, files + 1)
  loadIcode files _ _ := some ⟨0, MmStruct.codeAndStack, fun _ => 0, files⟩

/--
A process whose code starts with the pointer to its only argument.
-/
def oneArgument : ExecState Nat where
  mm := some MmStruct.codeAndStack
  mmCount := 1
  locked := false
  mem la := if la = 0x400000 then 8 else if la = 0x400002 then 0x40 else if la = 0x400008 then 0x61 else 0
  files := 3
  name _ := 0
  pid := 4
  live := {1, 2}
  block _ _ := 0
  gaveUp := false
  loaded := none

theorem do_execve_all_or_nothing_oneArgument
    : (doExecve roomyKernel 0 1 0x400000 oneArgument).Sat (fun ret t => ret = 0 ∧ Executed oneArgument 1 0x400000 t)
        (Aborted oneArgument) (fun p => p = .loadIcode) :=
  do_execve_all_or_nothing roomyKernel oneArgument (fun _ hm => Option.some_inj.mp hm ▸ MmStruct.codeAndStack_ok) 0
    0x400000 1

end ExecM
end Ucore
