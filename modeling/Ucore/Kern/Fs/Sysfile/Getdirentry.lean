import Ucore.Kern.Fs.Sfs.NewFs
import Ucore.Kern.Fs.Sfs.SfsDirent.Lemmas
import Ucore.Kern.Fs.Sysfile.Read

/-!
This module contains the enumeration of a directory by calls of `sysfile_getdirentry`.
-/

namespace Ucore

/--
`vop_getdirentry` of the directory that the descriptor is for.
-/
def SfsCtx.vopGetdirentry (s : SfsCtx) (_node : Nat) (iob : Iobuf) : Option (Int × Iobuf × SfsCtx) :=
  match SfsCtx.sfsGetdirentry iob s with
  | .ok (ret, iob) s => some (retOf ret, iob, s)
  | .error e s => some (retOf (some e), iob, s)
  | .panic _ => none

namespace FileTable

variable {t : FileTable} {file : Fd} {fd : Int} {node : Nat}

theorem fileVop_opened (h : t.fd2file fd = .ok file) (hnode : (t.slots file).node = some node)
    : t.fileVop fd = some (.fileVop file node,
        (t.modify file fun f => { f with openCount := f.openCount + 1 }).record file (.call node)) := by
  simp [fileVop, h, fdArrayAcquire, fd2file_status h, callVop, hnode]

theorem wake_fileVop (t : FileTable) (file : Fd) (node : Nat) (ans : Answer)
    (hstatus : (t.slots file).status = .fdOpened) (hcount : 1 < (t.slots file).openCount)
    : ∃ u, t.wake (.fileVop file node) ans = some (.returned ans.ret 0, u) ∧
        u.slots file = { t.slots file with openCount := (t.slots file).openCount - 1 } := by
  have hpos : 0 < (t.slots file).openCount := by omega
  have hne : (t.slots file).openCount - 1 ≠ 0 := by omega
  refine ⟨_, by simp [wake, hstatus, fdArrayRelease, hpos, fopenCountDec, hne]; rfl, by simp⟩

end FileTable

theorem retOf_neg (e : Errno) : retOf (some e) < 0 := by
  cases e <;> decide

namespace SfsCtx

variable {s : SfsCtx} {iob : Iobuf}

theorem DirOk.vopGetdirentry (h : s.DirOk) (node : Nat) (hresid : sfsDentrySize ≤ iob.resid)
    : ∃ ret iob' s', s.vopGetdirentry node iob = some (ret, iob', s') ∧ Requested s s' ∧
        (ret = 0 ∧ (∃ e, s.entries[slotOf iob.offset]? = some e ∧
            iob' = { iob with
              buf := iob.buf.copy iob.iobufUsed (Bytes.ofList e.name) sfsDentrySize
              offset := iob.offset + sfsDentrySize
              resid := iob.resid - sfsDentrySize }) ∨
          ret < 0 ∧ (s.sfs.env = Faults.never → 0 ≤ iob.offset → iob.offset % sfsDentrySize = 0 →
            ret = -Errno.noent.toInt ∧ s.entries[slotOf iob.offset]? = none)) := by
  have hsat := h.sfsGetdirentry hresid
  unfold SfsCtx.vopGetdirentry
  cases hrun : SfsCtx.sfsGetdirentry iob s with
  | ok r s' =>
    rw [hrun] at hsat
    obtain ⟨e, hentry, rfl, hreq⟩ := hsat
    exact ⟨_, _, s', rfl, hreq, .inl ⟨rfl, e, hentry, rfl⟩⟩
  | error e s' =>
    rw [hrun] at hsat
    obtain ⟨hreq, hnoent⟩ := hsat
    refine ⟨_, _, s', rfl, hreq, .inr ⟨retOf_neg e, ?_⟩⟩
    intro hnever hpos hmod
    obtain ⟨rfl, hnone⟩ := hnoent hnever hpos hmod
    exact ⟨rfl, hnone⟩
  | panic p =>
    rw [hrun] at hsat
    exact hsat.elim

end SfsCtx

namespace ReadSys

open MmStruct SfsCtx

variable {s t : ReadSys SfsCtx} {fd : Int} {file : Fd} {node base k : Nat} {entries : List SfsDiskEntry}

/--
A descriptor that is open on a consistent directory with the given entries.
-/
structure OnDir (s : ReadSys SfsCtx) (fd : Int) (file : Fd) (node : Nat) (entries : List SfsDiskEntry) : Prop where
  isOpen : s.IsOpen fd file node
  dirOk : s.fs.DirOk
  entries : s.fs.entries = entries

/--
The offset in the `struct dirent` of the user.
-/
def offsetAt (s : ReadSys SfsCtx) (base : Nat) : Int := Dirent.offsetOf (Bytes.drop s.mem base)

/--
The name in the `struct dirent` of the user.
-/
def nameAt (s : ReadSys SfsCtx) (base : Nat) : List UInt8 :=
  (List.range direntNameSize).map fun i => s.mem (base + (Dirent.offsetSize + i))

/--
`file_getdirentry` of a descriptor that is open on a directory.
-/
theorem OnDir.fileGetdirentry (h : s.OnDir fd file node entries) (direntp : Dirent)
    : ∃ ret direntp' s', s.fileGetdirentry SfsCtx.vopGetdirentry fd direntp = some (ret, direntp', s') ∧
        s'.OnDir fd file node entries ∧ s'.mm = s.mm ∧ s'.mem = s.mem ∧
        (ret = 0 ∧ (∃ e, entries[slotOf direntp.offset]? = some e ∧
            direntp'.offset = direntp.offset + sfsDentrySize ∧
            direntp'.name = direntp.name.copy 0 (Bytes.ofList e.name) sfsDentrySize) ∨
          ret < 0 ∧ (s.fs.sfs.env = Faults.never → 0 ≤ direntp.offset → direntp.offset % sfsDentrySize = 0 →
            ret = -Errno.noent.toInt ∧ entries[slotOf direntp.offset]? = none)) := by
  have hentries := h.entries
  subst hentries
  have hopen := h.isOpen
  obtain ⟨ret, iob, fs, hvop, hreq, hret⟩ := @DirOk.vopGetdirentry s.fs
    (Iobuf.iobufInit direntp.name direntNameSize direntp.offset) h.dirOk node (Nat.le_refl _)
  have hcall := FileTable.fileVop_opened hopen.fd2file hopen.node
  obtain ⟨table, hwake, hslot⟩ := FileTable.wake_fileVop
    ((s.table.modify file fun f => { f with openCount := f.openCount + 1 }).record file (.call node)) file node
    ⟨ret, node, 0, 0⟩ (by simpa using hopen.status) (by have := hopen.openCount; simp; omega)
  simp only [FileTable.record_slots, FileTable.modify_slots_self, Int.add_sub_cancel] at hslot
  refine ⟨ret, { offset := if ret = 0 then direntp.offset + iob.iobufUsed else direntp.offset, name := iob.buf },
    { s with table, fs }, ?_, ⟨hopen.of_slot hslot, hreq.dirOk h.dirOk, hreq.entries⟩, rfl, rfl, ?_⟩
  . rw [ReadSys.fileGetdirentry, FileTable.fileGetdirentry, hcall]
    simp only [Option.bind_eq_bind, Option.bind_some, hvop, hwake]
    rfl
  . cases hret with
    | inl hret =>
      obtain ⟨rfl, e, hentry, rfl⟩ := hret
      have hused : (Iobuf.iobufInit direntp.name direntNameSize direntp.offset).iobufUsed = 0 := Nat.sub_self _
      refine .inl ⟨rfl, e, hentry, ?_, ?_⟩
      . simp [Iobuf.iobufUsed, Iobuf.iobufInit, direntNameSize, sfsDentrySize]
      . rw [hused]
        rfl
    | inr hret => exact .inr hret

theorem length_name {e : SfsDiskEntry} (h : e ∈ s.fs.entries) : e.name.length = sfsDentrySize := by
  obtain ⟨i, -, rfl⟩ := List.mem_map.mp (List.mem_of_mem_filter h)
  simp [SfsCtx.entry, SfsDiskEntry.ofBytes, sfsDentrySize]

theorem length_toList (direntp : Dirent) : direntp.toList.length = Dirent.byteSize := by
  simp [Dirent.toList, Dirent.byteSize]

/--
What the user finds in an entry that has been copied to it.
-/
theorem offsetAt_memcpyUser (mem : Nat → UInt8) (base : Nat) (direntp : Dirent)
    : Dirent.offsetOf (Bytes.drop (memcpyUser mem base direntp.toList) base) = direntp.offset.bmod (2 ^ 64) := by
  have hbytes : ∀ i < Dirent.offsetSize, Bytes.drop (memcpyUser mem base direntp.toList) base i
      = Bytes.ofNat (BitVec.ofInt 64 direntp.offset).toNat i := by
    intro i hi
    have hlt : i < direntp.toList.length := by
      rw [length_toList, Dirent.byteSize]
      omega
    rw [Bytes.drop_apply, memcpyUser_add _ _ _ hlt]
    simp only [Dirent.toList]
    rw [List.getElem_append_left (by simpa using hi), List.getElem_map, List.getElem_range]
  rw [Dirent.offsetOf, Bytes.toNat_congr hbytes, Bytes.toNat_ofNat_of_lt (BitVec.isLt _), BitVec.ofNat_toNat,
    BitVec.setWidth_eq, BitVec.toInt_ofInt]

theorem nameAt_memcpyUser (mem : Nat → UInt8) (base : Nat) (direntp : Dirent) {i : Nat} (hi : i < direntNameSize)
    : memcpyUser mem base direntp.toList (base + (Dirent.offsetSize + i)) = direntp.name i := by
  have hlt : Dirent.offsetSize + i < direntp.toList.length := by
    rw [length_toList, Dirent.byteSize]
    omega
  rw [memcpyUser_add _ _ _ hlt]
  simp only [Dirent.toList]
  rw [List.getElem_append_right (by simp)]
  simp

/--
A call with memory for the entries, a disk without faults, and an entry of the user that can be written.
-/
def Undisturbed (kmalloc : Option Bytes) (s : ReadSys SfsCtx) (base : Nat) : Prop :=
  kmalloc.isSome ∧ s.fs.sfs.env = Faults.never ∧ ∀ i < Dirent.byteSize, PassesByte s.mm true (base + i)

/--
A call of `sysfile_getdirentry` returns the entry that the offset of the user asks for and moves the offset behind it,
or fails and leaves the memory of the user alone.
-/
theorem OnDir.sysfileGetdirentry (h : s.OnDir fd file node entries) (kmalloc : Option Bytes) (base : Nat)
    : ∃ ret s', sysfileGetdirentry SfsCtx.vopGetdirentry kmalloc s fd base = some (ret, s') ∧
        s'.OnDir fd file node entries ∧
        (ret = 0 ∧ (∃ e, entries[slotOf (s.offsetAt base)]? = some e ∧ s'.nameAt base = e.name ∧
            s'.offsetAt base = (s.offsetAt base + sfsDentrySize).bmod (2 ^ 64)) ∨
          ret < 0 ∧ s'.mem = s.mem ∧
            (Undisturbed kmalloc s base → 0 ≤ s.offsetAt base → s.offsetAt base % sfsDentrySize = 0 →
              ret = -Errno.noent.toInt ∧ entries[slotOf (s.offsetAt base)]? = none)) := by
  unfold ReadSys.sysfileGetdirentry
  cases kmalloc with
  | none => exact ⟨_, s, rfl, h, .inr ⟨by decide, rfl, fun hfine => nomatch hfine.1⟩⟩
  | some buf =>
    have hok := h.isOpen.mm
    have hsame := @userMemCheck_sameAreas base Dirent.offsetSize true s.mm hok
    have hpasses := @userMemCheck_iff_passesByte base Dirent.offsetSize true s.mm hok (by decide) (by decide)
    unfold copyFromUser
    dsimp only
    generalize userMemCheck s.mm base Dirent.offsetSize true = check at *
    obtain ⟨ok, mm⟩ := check
    have hdir : OnDir { s with mm } fd file node entries :=
      ⟨⟨h.isOpen.fd2file, h.isOpen.node, h.isOpen.openCount, hsame.ok⟩, h.dirOk, h.entries⟩
    cases ok with
    | false =>
      refine ⟨_, { s with mm }, rfl, hdir, .inr ⟨by decide, rfl, fun hfine => ?_⟩⟩
      have hall := hpasses.mpr fun i hi => hfine.2.2 i (Nat.lt_of_lt_of_le hi (Nat.le_add_right _ _))
      contradiction
    | true =>
      dsimp only
      obtain ⟨ret, direntp, s₁, hcall, hdir₁, hmm, hmem, hret⟩ := hdir.fileGetdirentry
        { offset := s.offsetAt base, name := buf.drop Dirent.offsetSize }
      have hread : Dirent.offsetOf (Bytes.drop s.mem base) = s.offsetAt base := rfl
      rw [if_pos rfl]
      dsimp only at hret ⊢
      rw [hread, hcall]
      simp only [Option.bind_eq_bind, Option.bind_some]
      cases hret with
      | inr hret =>
        obtain ⟨hneg, hnoent⟩ := hret
        rw [if_pos (by omega)]
        exact ⟨ret, s₁, rfl, hdir₁, .inr ⟨hneg, hmem, fun hfine => hnoent hfine.2.1⟩⟩
      | inl hret =>
        obtain ⟨rfl, e, hentry, hoffset, hname⟩ := hret
        rw [if_neg (not_not.mpr rfl)]
        have hlength := length_toList direntp
        have hsmall : 0 < direntp.toList.length ∧ direntp.toList.length < 2 ^ 64 := by
          rw [hlength]
          decide
        obtain ⟨hareas, htable, hfs, hpasses₁, hcopied⟩ :=
          @copyToUser_spec _ s₁ base hdir₁.isOpen.mm direntp.toList (List.ne_nil_of_length_pos hsmall.1) hsmall.2
        generalize s₁.copyToUser base direntp.toList = copy at *
        obtain ⟨ok, s₂⟩ := copy
        dsimp only at *
        have hdir₂ : s₂.OnDir fd file node entries :=
          ⟨⟨htable ▸ hdir₁.isOpen.fd2file, htable ▸ hdir₁.isOpen.node, htable ▸ hdir₁.isOpen.openCount,
            hareas.ok⟩, hfs ▸ hdir₁.dirOk, hfs ▸ hdir₁.entries⟩
        cases ok with
        | false =>
          refine ⟨_, s₂, rfl, hdir₂, .inr ⟨by decide, ?_, fun hfine => ?_⟩⟩
          . rw [hcopied, if_neg Bool.false_ne_true, hmem]
          . have hall : ∀ i < direntp.toList.length, PassesByte s₁.mm true (base + i) := by
              rw [hlength, hmm]
              intro i hi
              exact hsame.passesByte.mpr (hfine.2.2 i hi)
            exact nomatch hpasses₁.mpr hall
        | true =>
          rw [if_pos rfl] at hcopied
          refine ⟨0, s₂, rfl, hdir₂, .inl ⟨rfl, e, hentry, ?_, ?_⟩⟩
          . have hin : e ∈ s.fs.entries := by
              rw [h.entries]
              exact List.mem_of_getElem? hentry
            apply List.ext_getElem
            . rw [length_name hin]
              simp [nameAt, direntNameSize, sfsDentrySize]
            . intro i hi hi'
              have hlt : i < direntNameSize := by simpa [nameAt] using hi
              simp only [nameAt, List.getElem_map, List.getElem_range]
              rw [hcopied, nameAt_memcpyUser _ _ _ hlt, hname,
                Bytes.copy_of_mem _ _ (Nat.zero_le i) (by rw [Nat.zero_add]; exact hlt), Nat.sub_zero]
              simp [Bytes.ofList, List.getD_eq_getElem?_getD, List.getElem?_eq_getElem hi']
          . have hread₂ : s₂.offsetAt base = Dirent.offsetOf (Bytes.drop s₂.mem base) := rfl
            rw [hread₂, hcopied, offsetAt_memcpyUser, hoffset]

/--
A call of `sysfile_getdirentry` in a run.
-/
structure DirCall where
  kmalloc : Option Bytes
  before : ReadSys SfsCtx
  ret : Int
  after : ReadSys SfsCtx

/--
What may have happened between two calls: anything, but the descriptor is open, the directory has not changed and
nobody has changed the offset.
-/
structure SameDir (fd : Int) (file : Fd) (node base : Nat) (entries : List SfsDiskEntry) (s t : ReadSys SfsCtx)
    : Prop where
  onDir : t.OnDir fd file node entries
  offset : t.offsetAt base = s.offsetAt base

/--
The calls are those of a run from `s` on.
-/
def IsRun (fd : Int) (file : Fd) (node base : Nat) (entries : List SfsDiskEntry)
    : ReadSys SfsCtx → List DirCall → Prop
  | _, [] => True
  | s, c :: cs =>
    SameDir fd file node base entries s c.before ∧
      sysfileGetdirentry SfsCtx.vopGetdirentry c.kmalloc c.before fd base = some (c.ret, c.after) ∧
      IsRun fd file node base entries c.after cs

/--
The names that the calls have returned.
-/
def returned (base : Nat) (calls : List DirCall) : List (List UInt8) :=
  (calls.filter (·.ret = 0)).map (·.after.nameAt base)

/--
One call when the first `k` entries have been returned.
-/
theorem OnDir.call (h : s.OnDir fd file node entries) (hk : k ≤ entries.length) {c : DirCall}
    (hoffset : s.offsetAt base = sfsDentrySize * k) (hsame : SameDir fd file node base entries s c.before)
    (hcall : ReadSys.sysfileGetdirentry SfsCtx.vopGetdirentry c.kmalloc c.before fd base = some (c.ret, c.after))
    : c.after.OnDir fd file node entries ∧
        (c.ret = 0 ∧ (∃ hlt : k < entries.length, c.after.nameAt base = entries[k].name) ∧
            c.after.offsetAt base = sfsDentrySize * (k + 1 : Nat) ∨
          c.ret < 0 ∧ c.after.offsetAt base = sfsDentrySize * k ∧
            (Undisturbed c.kmalloc c.before base → c.ret = -Errno.noent.toInt ∧ entries.length ≤ k)) := by
  obtain ⟨ret, s', hrun, hdir, hret⟩ := hsame.onDir.sysfileGetdirentry c.kmalloc base
  rw [hcall, Option.some_inj, Prod.mk.injEq] at hrun
  obtain ⟨rfl, rfl⟩ := hrun
  refine ⟨hdir, ?_⟩
  have hslot : slotOf (c.before.offsetAt base) = k := by
    rw [hsame.offset, hoffset]
    exact h.dirOk.slotOf_mul (h.entries ▸ hk)
  rw [hslot, hsame.offset, hoffset] at hret
  cases hret with
  | inl hret =>
    obtain ⟨hzero, e, hentry, hname, hnext⟩ := hret
    obtain ⟨hlt, rfl⟩ := List.getElem?_eq_some_iff.mp hentry
    refine .inl ⟨hzero, ⟨hlt, hname⟩, ?_⟩
    have hsmall : k ≤ maxBlocks :=
      Nat.le_trans (h.entries ▸ hk) (Nat.le_trans s.fs.entries_length_le h.dirOk.mapOk.blocks_le)
    simp only [maxBlocks, sfsNdirect, sfsBlkNentry, sfsBlksize] at hsmall
    rw [hnext, Int.bmod_eq_of_le]
    . simp only [sfsDentrySize, sfsMaxFnameLen]
      omega
    . simp only [sfsDentrySize, sfsMaxFnameLen]
      omega
    . simp only [sfsDentrySize, sfsMaxFnameLen]
      omega
  | inr hret =>
    obtain ⟨hneg, hmem, hnoent⟩ := hret
    refine .inr ⟨hneg, ?_, fun hfine => ?_⟩
    . have hread : c.after.offsetAt base = c.before.offsetAt base :=
        congrArg (fun mem => Dirent.offsetOf (Bytes.drop mem base)) hmem
      rw [hread, hsame.offset, hoffset]
    . obtain ⟨hret, hnone⟩ := hnoent hfine (Int.mul_nonneg (Int.natCast_nonneg _) (Int.natCast_nonneg _))
        (Int.mul_emod_right _ _)
      exact ⟨hret, List.getElem?_eq_none_iff.mp hnone⟩

/--
What a run returns when the first `k` entries have been returned before it.
-/
structure Enumerated (entries : List SfsDiskEntry) (base k : Nat) (calls : List DirCall) : Prop where
  names : returned base calls <+: (entries.drop k).map (·.name)
  kept : ∀ c ∈ calls, c.ret ≠ 0 → c.after.offsetAt base = c.before.offsetAt base
  next : ∀ past c future, calls = past ++ c :: future → Undisturbed c.kmalloc c.before base →
    c.ret = if k + (returned base past).length < entries.length then 0 else -Errno.noent.toInt

theorem OnDir.enumerated (h : s.OnDir fd file node entries) (hk : k ≤ entries.length)
    (hoffset : s.offsetAt base = sfsDentrySize * k) {calls : List DirCall}
    (hrun : IsRun fd file node base entries s calls)
    : Enumerated entries base k calls := by
  induction calls generalizing s k with
  | nil => exact ⟨by simp [returned], by simp, fun past c future heq => absurd heq (by simp)⟩
  | cons c calls ih =>
    obtain ⟨hsame, hcall, hrest⟩ := hrun
    obtain ⟨hdir, hret⟩ := h.call hk hoffset hsame hcall
    cases hret with
    | inl hret =>
      obtain ⟨hzero, ⟨hlt, hname⟩, hnext⟩ := hret
      have hbehind := ih hdir hlt hnext hrest
      have hreturned (cs : List DirCall) : returned base (c :: cs) = entries[k].name :: returned base cs := by
        simp [returned, hzero, hname]
      refine ⟨?_, ?_, ?_⟩
      . rw [hreturned, List.drop_eq_getElem_cons hlt, List.map_cons]
        exact (List.prefix_cons_inj _).mpr hbehind.names
      . intro c' hc' hne
        cases List.mem_cons.mp hc' with
        | inl heq => exact absurd (heq ▸ hzero) hne
        | inr hin => exact hbehind.kept c' hin hne
      . intro past c' future heq hfine
        cases past with
        | nil =>
          obtain ⟨rfl, -⟩ := List.cons.inj heq
          rw [hzero, if_pos]
          simpa [returned] using hlt
        | cons d past =>
          obtain ⟨rfl, hrest'⟩ := List.cons.inj heq
          have hthere := hbehind.next past c' future hrest' hfine
          rwa [hreturned, List.length_cons, ← Nat.add_assoc, Nat.add_right_comm]
    | inr hret =>
      obtain ⟨hneg, hkept, hnoent⟩ := hret
      have hbehind := ih hdir hk hkept hrest
      have hfails : c.ret ≠ 0 := by omega
      have hreturned (cs : List DirCall) : returned base (c :: cs) = returned base cs := by
        simp [returned, hfails]
      refine ⟨?_, ?_, ?_⟩
      . rw [hreturned]
        exact hbehind.names
      . intro c' hc' hne
        cases List.mem_cons.mp hc' with
        | inl heq =>
          subst heq
          rw [hkept, hsame.offset, hoffset]
        | inr hin => exact hbehind.kept c' hin hne
      . intro past c' future heq hfine
        cases past with
        | nil =>
          obtain ⟨rfl, -⟩ := List.cons.inj heq
          obtain ⟨hret, hle⟩ := hnoent hfine
          rw [hret, if_neg]
          simpa [returned] using hle
        | cons d past =>
          obtain ⟨rfl, hrest'⟩ := List.cons.inj heq
          rw [hreturned]
          exact hbehind.next past c' future hrest' hfine

/--
Calls of `sysfile_getdirentry` from the offset 0 on return the names of the entries in the order of their slots, each
once, a call that fails leaves the offset where it is, and each call that nothing disturbs returns the next entry or
says that there is none. None of them stops the kernel.
-/
theorem getdirentry_enumerates (h : s.OnDir fd file node entries) (hoffset : s.offsetAt base = 0)
    {calls : List DirCall} (hrun : IsRun fd file node base entries s calls)
    : returned base calls <+: s.fs.entries.map (·.name) ∧
        (∀ c ∈ calls, c.ret ≠ 0 → c.after.offsetAt base = c.before.offsetAt base) ∧
        (∀ past c future, calls = past ++ c :: future → Undisturbed c.kmalloc c.before base →
          c.ret = if (returned base past).length < s.fs.entries.length then 0 else -Errno.noent.toInt) ∧
        ∀ (t : ReadSys SfsCtx) (kmalloc : Option Bytes), t.OnDir fd file node entries →
          (sysfileGetdirentry SfsCtx.vopGetdirentry kmalloc t fd base).isSome := by
  have hall := h.enumerated (Nat.zero_le _) (by simpa using hoffset) hrun
  rw [h.entries]
  refine ⟨by simpa using hall.names, hall.kept, ?_, ?_⟩
  . intro past c future heq hfine
    simpa using hall.next past c future heq hfine
  . intro t kmalloc ht
    obtain ⟨ret, t', hcall, -⟩ := ht.sysfileGetdirentry kmalloc base
    rw [hcall]
    rfl

/--
A directory with an empty slot in block 3 and an entry for inode 7 in block 4, open in a process.
-/
def sevenDir : ReadSys SfsCtx where
  table := hello.table
  fs := {
    sfs := { SfsFs.new 100 5 with
      dev := { dBlocks := 100, data := fun b i => if b = 4 ∧ i = 0 then 7 else if b = 4 ∧ i = 4 then 0x61 else 0 } }
    sin := {
      din := (((SfsDiskInode.new sfsTypeDir sfsTypeDir_lt).setDirect ⟨0, zero_lt_sfsNdirect⟩ 3).setDirect
        ⟨1, one_lt_sfsNdirect⟩ 4).setBlocks 2
      ino := 1
      dirty := false
      reclaimCount := 1 } }
  mm := hello.mm
  mem := hello.mem

theorem sevenDir_onDir : sevenDir.OnDir 0 firstFd 0 sevenDir.fs.entries := by
  have hok : (SfsFs.new 100 5).Ok := SfsFs.new_ok (by decide) (by decide)
  refine ⟨⟨rfl, rfl, by decide, hello_isOpen.mm⟩, ⟨⟨hok.1, hok.2, hok.3, hok.4, hok.5, hok.6⟩,
    Vol.mapOk_consecutive 3 (by decide) rfl (by decide) ?_, rfl⟩, rfl⟩
  intro i hi
  have hlt : i < 2 := hi
  exact SfsFs.new_inUse (by decide) (by omega) (by omega)

/--
A call finds the entry.
-/
theorem getdirentry_enumerates_sevenDir
    : ∃ c : DirCall, c.before = sevenDir ∧ returned 0x402000 [c] <+: sevenDir.fs.entries.map (·.name) ∧
        (∀ c' ∈ [c], c'.ret ≠ 0 → c'.after.offsetAt 0x402000 = c'.before.offsetAt 0x402000) ∧
        (∀ past c' future, [c] = past ++ c' :: future → Undisturbed c'.kmalloc c'.before 0x402000 →
          c'.ret = if (returned 0x402000 past).length < sevenDir.fs.entries.length then 0
            else -Errno.noent.toInt) ∧
        ∀ (t : ReadSys SfsCtx) (kmalloc : Option Bytes), t.OnDir 0 firstFd 0 sevenDir.fs.entries →
          (sysfileGetdirentry SfsCtx.vopGetdirentry kmalloc t 0 0x402000).isSome := by
  obtain ⟨ret, s', hcall, -⟩ := sevenDir_onDir.sysfileGetdirentry (some Bytes.zero) 0x402000
  refine ⟨⟨some Bytes.zero, sevenDir, ret, s'⟩, rfl, ?_⟩
  exact getdirentry_enumerates sevenDir_onDir (by decide) ⟨⟨sevenDir_onDir, rfl⟩, hcall, trivial⟩

end ReadSys
end Ucore
