import Mathlib
import Ucore.Kern.Fs.Sysfile.Read

/-!
This module contains `sysfile_write` of kern/fs/sysfile.c with `file_write` of kern/fs/file.c: the file gets the bytes
of the user that the call reports, in order and each of them once.
-/

namespace Ucore

/--
What `vop_write` does with a request of `len` bytes: its return value, how many of them it takes, and what becomes of
the inode and of all that is behind it.
-/
structure VopWrite (σ : Type) (len : Nat) where
  state : σ
  ret : Option Errno
  used : Nat
  le : used ≤ len

theorem FileTable.fileWrite_opened {t : FileTable} {file : Fd} {fd : Int} {node : Nat} (h : t.fd2file fd = .ok file)
    (hwritable : (t.slots file).writable = true) (hnode : (t.slots file).node = some node)
    : t.fileWrite fd = some (.fileRw file node,
        (t.modify file fun f => { f with openCount := f.openCount + 1 }).record file (.call node)) := by
  simp [fileWrite, fileRw, h, hwritable, fdArrayAcquire, fd2file_status h, callVop, hnode]

namespace ReadSys

open MmStruct

variable {σ : Type} (vopWrite : σ → Nat → BitVec 64 → (src : List UInt8) → VopWrite σ src.length)

/--
Returns `*copied_store` with the return value.
-/
def fileWrite (s : ReadSys σ) (fd : Int) (src : List UInt8) : Option (Int × Nat × ReadSys σ) := do
  match ← s.table.fileWrite fd with
  | (.returned ret _, table) => return (ret, 0, { s with table })
  | (.fileRw file node, table) =>
    let ans := vopWrite s.fs node (table.slots file).pos src
    match ← table.wake (.fileRw file node) ⟨retOf ans.ret, node, 0, ans.used⟩ with
    | (.returned ret _, table) => return (ret, ans.used, { s with table, fs := ans.state })
    | _ => none
  | _ => none

/--
The loop of `sysfile_write`: returns `ret` and `copied`. Each round that goes on makes `len` smaller.
-/
def writeLoop (fd : Int) : Nat → ReadSys σ → Nat → Nat → Nat → Option (Int × Nat × ReadSys σ)
  | 0, _, _, _, _ => none
  | fuel + 1, s, base, len, copied =>
    if len ≠ 0 then
      let alen := if iobufSize > len then len else iobufSize
      match s.copyFromUser base alen false with
      | (none, s) => some (-Errno.inval.toInt, copied, s)
      | (some buffer, s) => do
        let (ret, alen, s) ← s.fileWrite vopWrite fd ((List.range alen).map buffer)
        if alen ≤ len then
          if ret ≠ 0 ∨ alen = 0 then
            return (ret, copied + alen, s)
          else
            writeLoop fd fuel s (base + alen) (len - alen) (copied + alen)
        else
          none
    else
      some (0, copied, s)

/--
`kmalloc` tells whether there is memory for the buffer.
-/
def sysfileWrite (kmalloc : Bool) (s : ReadSys σ) (fd : Int) (base len : Nat) : Option (Int × ReadSys σ) :=
  if len = 0 then
    some (0, s)
  else if !s.table.fileTestfd fd false true then
    some (-Errno.inval.toInt, s)
  else if !kmalloc then
    some (-Errno.noMem.toInt, s)
  else do
    let (ret, copied, s) ← writeLoop vopWrite fd (len + 1) s base len 0
    if copied ≠ 0 then
      return ((BitVec.ofNat 32 copied).toInt, s)
    else
      return (ret, s)

variable {vopWrite} {s t : ReadSys σ} {fd : Int} {file : Fd} {node base len fuel copied : Nat}

/--
The `n` bytes of the user from `base` on.
-/
def userBytes (mem : Nat → UInt8) (base n : Nat) : List UInt8 := (List.range n).map fun i => mem (base + i)

variable (vopWrite) in
/--
The file takes bytes in consecutive calls of `vop_write`. The flag says that a call has failed or taken nothing.
-/
inductive Takes (node : Nat) : σ → BitVec 64 → List UInt8 → Bool → σ → Prop
  | done (fs : σ) (pos : BitVec 64) : Takes node fs pos [] false fs
  | stop (fs : σ) (pos : BitVec 64) (src : List UInt8)
      (h : (vopWrite fs node pos src).ret ≠ none ∨ (vopWrite fs node pos src).used = 0)
    : Takes node fs pos (src.take (vopWrite fs node pos src).used) true (vopWrite fs node pos src).state
  | go {fs : σ} {pos : BitVec 64} {src rest : List UInt8} {stopped : Bool} {fs' : σ}
      (h : (vopWrite fs node pos src).ret = none)
      (hrest : Takes node (vopWrite fs node pos src).state (pos + (vopWrite fs node pos src).used) rest stopped fs')
    : Takes node fs pos (src.take (vopWrite fs node pos src).used ++ rest) stopped fs'

variable (vopWrite) in
/--
What a write of `len` bytes leaves, of which the file has got `n`. They are bytes that the user may read, and it is for
the file or for a byte that the user may not read when they are not all.
-/
structure Wrote (s : ReadSys σ) (file : Fd) (node base len n : Nat) (s' : ReadSys σ) : Prop where
  le : n ≤ len
  passes : ∀ i < n, PassesByte s.mm false (base + i)
  mem : s'.mem = s.mem
  pos : (s'.table.slots file).pos = (s.table.slots file).pos + n
  taken : ∃ stopped, Takes vopWrite node s.fs (s.table.slots file).pos (userBytes s.mem base n) stopped s'.fs ∧
    (stopped = false → n = len ∨ ¬∀ i < min iobufSize (len - n), PassesByte s.mm false (base + n + i))

theorem userBytes_add (mem : Nat → UInt8) (base a b : Nat)
    : userBytes mem base (a + b) = userBytes mem base a ++ userBytes mem (base + a) b := by
  simp only [userBytes, List.range_add, List.map_append, List.map_map, Function.comp_def, Nat.add_assoc]

theorem take_userBytes (mem : Nat → UInt8) (base : Nat) {a b : Nat} (h : a ≤ b)
    : (userBytes mem base b).take a = userBytes mem base a := by
  rw [userBytes, ← List.map_take, List.take_range, Nat.min_eq_left h, userBytes]

theorem length_userBytes (mem : Nat → UInt8) (base n : Nat) : (userBytes mem base n).length = n := by
  rw [userBytes, List.length_map, List.length_range]

/--
What `copy_from_user` does for a request that is not empty.
-/
theorem copyFromUser_cases (hok : ∀ m ∈ s.mm, m.Ok) (hpos : 0 < len) (hlen : len < 2 ^ 64)
    : ∃ mm, SameAreas s.mm mm ∧
        ((∀ i < len, PassesByte s.mm false (base + i)) ∧
            s.copyFromUser base len false = (some (Bytes.drop s.mem base), { s with mm }) ∨
          (¬∀ i < len, PassesByte s.mm false (base + i)) ∧
            s.copyFromUser base len false = (none, { s with mm })) := by
  have hsame := @userMemCheck_sameAreas base len false s.mm hok
  have hpasses := @userMemCheck_iff_passesByte base len false s.mm hok hpos hlen
  refine ⟨_, hsame, ?_⟩
  unfold copyFromUser
  by_cases hcheck : (userMemCheck s.mm base len false).1 = true
  . exact Or.inl ⟨hpasses.mp hcheck, by simp only [hcheck, if_true]⟩
  . refine Or.inr ⟨fun hall => hcheck (hpasses.mpr hall), ?_⟩
    simp only [hcheck, Bool.false_eq_true, if_false]

/--
A call of `vop_write` on an acquired slot, and the release of the slot behind it.
-/
theorem fileWrite_eq (h : s.IsOpen fd file node) (hwritable : (s.table.slots file).writable = true) {src : List UInt8}
    {ans : VopWrite σ src.length} (hans : vopWrite s.fs node (s.table.slots file).pos src = ans)
    : ∃ s', s.fileWrite vopWrite fd src = some (retOf ans.ret, ans.used, s') ∧
        s'.IsOpen fd file node ∧ (s'.table.slots file).writable = true ∧
        (s'.table.slots file).pos = (s.table.slots file).pos + ans.used ∧
        s'.fs = ans.state ∧ s'.mm = s.mm ∧ s'.mem = s.mem := by
  have hcall := FileTable.fileWrite_opened h.fd2file hwritable h.node
  obtain ⟨table, hwake, hslot⟩ := FileTable.wake_fileRw
    ((s.table.modify file fun f => { f with openCount := f.openCount + 1 }).record file (.call node)) file node
    ⟨retOf ans.ret, node, 0, ans.used⟩ (by simpa using h.status)
    (by have := h.openCount; simp; omega)
  simp only [FileTable.record_slots, FileTable.modify_slots_self, Int.add_sub_cancel] at hslot
  have hpos : (((s.table.modify file fun f => { f with openCount := f.openCount + 1 }).record file (.call node)).slots
      file).pos = (s.table.slots file).pos := by simp
  refine ⟨{ s with table, fs := ans.state }, ?_, h.of_slot hslot, ?_, ?_, rfl, rfl, rfl⟩
  . rw [fileWrite, hcall]
    simp only [Option.bind_eq_bind, Option.bind_some, hpos, hans]
    rw [hwake]
    rfl
  . simpa only [hslot] using hwritable
  . simp only [hslot]

/--
A part that the file has taken, in front of what the following rounds do.
-/
theorem Wrote.prepend {s₂ s₃ : ReadSys σ} {part n a : Nat}
    (h : Wrote vopWrite s₂ file node (base + part) (len - part) n s₃) (hsame : SameAreas s.mm s₂.mm)
    (hlen : part ≤ len) (hpart : part ≤ a) (hpass : ∀ i < a, PassesByte s.mm false (base + i)) (hmem : s₂.mem = s.mem)
    (hpos : (s₂.table.slots file).pos = (s.table.slots file).pos + part)
    (hret : (vopWrite s.fs node (s.table.slots file).pos (userBytes s.mem base a)).ret = none)
    (hused : (vopWrite s.fs node (s.table.slots file).pos (userBytes s.mem base a)).used = part)
    (hfs : s₂.fs = (vopWrite s.fs node (s.table.slots file).pos (userBytes s.mem base a)).state)
    : Wrote vopWrite s file node base len (part + n) s₃ where
  le := by
    have := h.le
    omega
  passes := by
    intro i hi
    by_cases hfirst : i < part
    . exact hpass i (by omega)
    . have hbyte := h.passes (i - part) (by omega)
      rwa [hsame.passesByte, Nat.add_assoc, Nat.add_sub_cancel' (by omega)] at hbyte
  mem := h.mem.trans hmem
  pos := by
    rw [h.pos, hpos]
    simp only [BitVec.natCast_eq_ofNat, BitVec.ofNat_add, BitVec.add_assoc]
  taken := by
    obtain ⟨stopped, htakes, hwhy⟩ := h.taken
    refine ⟨stopped, ?_, fun hgo => ?_⟩
    . rw [userBytes_add, ← take_userBytes s.mem base hpart]
      have hrest : Takes vopWrite node
          (vopWrite s.fs node (s.table.slots file).pos (userBytes s.mem base a)).state
          ((s.table.slots file).pos + (vopWrite s.fs node (s.table.slots file).pos (userBytes s.mem base a)).used)
          (userBytes s.mem (base + part) n) stopped s₃.fs := by
        rw [← hfs, hused, ← hpos, ← hmem]
        exact htakes
      have hgoes := Takes.go hret hrest
      rwa [hused] at hgoes
    . cases hwhy hgo with
      | inl hall => exact Or.inl (by omega)
      | inr hstuck =>
        refine Or.inr fun hall => hstuck fun i hi => ?_
        rw [hsame.passesByte, Nat.add_assoc base]
        exact hall i (by omega)

theorem writeLoop_spec (h : s.IsOpen fd file node) (hwritable : (s.table.slots file).writable = true)
    (hfuel : len < fuel)
    : ∃ ret n s', writeLoop vopWrite fd fuel s base len copied = some (ret, copied + n, s') ∧ ret ≤ 0 ∧
        Wrote vopWrite s file node base len n s' := by
  induction fuel generalizing s base len copied with
  | zero => omega
  | succ fuel ih =>
    rw [writeLoop]
    have hnothing : ∀ i < 0, PassesByte s.mm false (base + i) := fun i hi => absurd hi (Nat.not_lt_zero i)
    by_cases hlen : len = 0
    . rw [if_neg (not_not.mpr hlen)]
      exact ⟨0, 0, s, rfl, Int.le_refl 0, Nat.zero_le _, hnothing, rfl, by simp, false, Takes.done _ _,
        fun _ => Or.inl hlen.symm⟩
    rw [if_pos hlen]
    extract_lets alen
    have halen : alen ≤ len ∧ alen ≤ iobufSize ∧ 0 < alen ∧ alen = min iobufSize len := by
      have hsize : 0 < iobufSize := by decide
      simp only [alen]
      split <;> omega
    clear_value alen
    have hmod : iobufSize < 2 ^ 64 := by decide
    obtain ⟨mm, hsame, ⟨hpass, hcopy⟩ | ⟨hpass, hcopy⟩⟩ := @copyFromUser_cases σ s base alen h.mm halen.2.2.1 (by omega)
    . simp only [hcopy]
      have hbuffer : (List.range alen).map (Bytes.drop s.mem base) = userBytes s.mem base alen := rfl
      rw [hbuffer]
      have hopen : IsOpen { s with mm } fd file node := ⟨h.fd2file, h.node, h.openCount, hsame.ok⟩
      obtain ⟨s₂, hwrite, hopen₂, hwritable₂, hpos, hfs, hmm, hmem⟩ :=
        fileWrite_eq hopen hwritable (rfl : vopWrite s.fs node (s.table.slots file).pos (userBytes s.mem base alen) = _)
      have hused := Nat.le_trans (vopWrite s.fs node (s.table.slots file).pos (userBytes s.mem base alen)).le
        (Nat.le_of_eq (length_userBytes s.mem base alen))
      simp only [hwrite, Option.bind_eq_bind, Option.bind_some]
      rw [if_pos (by omega)]
      have htake := take_userBytes s.mem base hused
      by_cases hstop : (vopWrite s.fs node (s.table.slots file).pos (userBytes s.mem base alen)).ret ≠ none ∨
          (vopWrite s.fs node (s.table.slots file).pos (userBytes s.mem base alen)).used = 0
      . rw [if_pos (hstop.imp_left (mt retOf_eq_zero.mp))]
        refine ⟨_, _, s₂, rfl, retOf_le _, by omega, fun i hi => hpass i (by omega), hmem, hpos, true, ?_,
          fun hfalse => absurd hfalse (by decide)⟩
        rw [hfs, ← htake]
        exact Takes.stop _ _ _ hstop
      . obtain ⟨hret, hzero⟩ := not_or.mp hstop
        have hret := not_not.mp hret
        rw [if_neg (not_or.mpr ⟨not_not.mpr (retOf_eq_zero.mpr hret), hzero⟩)]
        obtain ⟨ret, n, s₃, hrun, hneg, hwrote⟩ :=
          @ih s₂ (base + (vopWrite s.fs node (s.table.slots file).pos (userBytes s.mem base alen)).used)
            (len - (vopWrite s.fs node (s.table.slots file).pos (userBytes s.mem base alen)).used)
            (copied + (vopWrite s.fs node (s.table.slots file).pos (userBytes s.mem base alen)).used) hopen₂ hwritable₂
            (by omega)
        refine ⟨ret, _, s₃, by rw [hrun, Nat.add_assoc], hneg, ?_⟩
        have hsame₂ : SameAreas s.mm s₂.mm := hmm ▸ hsame
        exact hwrote.prepend hsame₂ (by omega) hused hpass hmem hpos hret rfl hfs
    . simp only [hcopy]
      refine ⟨_, 0, _, rfl, by decide, Nat.zero_le _, hnothing, rfl, by simp, false, Takes.done _ _,
        fun _ => Or.inr ?_⟩
      rw [Nat.sub_zero, Nat.add_zero, ← halen.2.2.2]
      exact hpass

/--
For every file and every memory of the user, `sysfile_write` moves the position by the number of bytes that it reports,
and these are the bytes of the user that the file has got.
-/
theorem sysfile_write_exact (h : s.IsOpen fd file node) (hwritable : (s.table.slots file).writable = true)
    (base len : Nat)
    : ∃ ret s', sysfileWrite vopWrite true s fd base len = some (ret, s') ∧
        Wrote vopWrite s file node base len (reported ret) s' := by
  have htestfd : s.table.fileTestfd fd false true = true := by
    simp [FileTable.fileTestfd, h.fd2file, hwritable]
  unfold sysfileWrite
  by_cases hlen : len = 0
  . subst hlen
    exact ⟨0, s, rfl, Nat.le_refl 0, fun i hi => absurd hi (Nat.not_lt_zero i), rfl, by simp [reported], false,
      Takes.done _ _, fun _ => Or.inl rfl⟩
  rw [if_neg hlen, htestfd, if_neg (by decide), if_neg (by decide)]
  obtain ⟨ret, n, s', hrun, hneg, hwrote⟩ :=
    @writeLoop_spec σ vopWrite s fd file node base len (len + 1) 0 h hwritable (Nat.lt_succ_self len)
  have hint := toInt_ofNat_of_lt (lt_of_passes hwrote.passes)
  have hreported : reported (if n ≠ 0 then (BitVec.ofNat 32 n).toInt else ret) = n := by
    rw [reported]
    split <;> omega
  refine ⟨if n ≠ 0 then (BitVec.ofNat 32 n).toInt else ret, s', ?_, ?_⟩
  . rw [hrun]
    simp only [Option.bind_eq_bind, Option.bind_some, Nat.zero_add]
    split <;> rfl
  . rw [hreported]
    exact hwrote

/--
`vop_write` of a file that is all in memory.
-/
def memWrite (content : List UInt8) (_node : Nat) (pos : BitVec 64) (src : List UInt8)
    : VopWrite (List UInt8) src.length where
  state := content.take pos.toNat ++ src ++ content.drop (pos.toNat + src.length)
  ret := none
  used := src.length
  le := Nat.le_refl _

/--
A process that may write the file.
-/
def writer : ReadSys (List UInt8) where
  table := ⟨fun fd => ⟨.fdOpened, true, true, fd, 0, some 0, 1⟩, fun _ => []⟩
  fs := hello.fs
  mm := hello.mm
  mem := hello.mem

theorem writer_isOpen : writer.IsOpen 0 firstFd 0 :=
  ⟨rfl, rfl, by decide, hello_isOpen.mm⟩

theorem sysfile_write_exact_writer
    : ∃ ret s', sysfileWrite memWrite true writer 0 0x402000 5 = some (ret, s') ∧
        Wrote memWrite writer firstFd 0 0x402000 5 (reported ret) s' :=
  sysfile_write_exact writer_isOpen rfl 0x402000 5

end ReadSys
end Ucore
