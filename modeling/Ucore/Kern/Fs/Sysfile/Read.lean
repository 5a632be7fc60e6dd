import Ucore.Kern.Fs.File.Lemmas
import Ucore.Kern.Fs.Sysfile.Impl

/-!
This module contains what `sysfile_read` does with the position of a descriptor: which bytes the file delivers for a
request, and when the position moves by exactly the number of bytes that the call reports.
-/

namespace Ucore

namespace FileTable

variable {t u : FileTable} {file : Fd} {fd : Int} {node : Nat}

theorem fd2file_congr (h : t.fd2file fd = .ok file) (hstatus : (u.slots file).status = (t.slots file).status)
    (hfd : (u.slots file).fd = (t.slots file).fd)
    : u.fd2file fd = .ok file := by
  unfold fd2file at h ⊢
  split at h
  next htest =>
    rw [dif_pos htest]
    dsimp only at h ⊢
    split at h
    next hopened =>
      rw [Except.ok.injEq] at h
      rw [h] at hopened ⊢
      rw [if_pos ⟨hstatus.trans hopened.1, hfd.trans hopened.2⟩]
    . contradiction
  . contradiction

theorem fileRead_opened (h : t.fd2file fd = .ok file) (hreadable : (t.slots file).readable = true)
    (hnode : (t.slots file).node = some node)
    : t.fileRead fd = some (.fileRw file node,
        (t.modify file fun f => { f with openCount := f.openCount + 1 }).record file (.call node)) := by
  simp [fileRead, fileRw, h, hreadable, fdArrayAcquire, fd2file_status h, callVop, hnode]

/--
Behind the call, while another acquisition keeps the slot open.
-/
theorem wake_fileRw (t : FileTable) (file : Fd) (node : Nat) (ans : Answer)
    (hstatus : (t.slots file).status = .fdOpened) (hcount : 1 < (t.slots file).openCount)
    : ∃ u, t.wake (.fileRw file node) ans = some (.returned ans.ret ans.used, u) ∧
        u.slots file
          = { t.slots file with
              pos := (t.slots file).pos + ans.used
              openCount := (t.slots file).openCount - 1 } := by
  have hpos : 0 < (t.slots file).openCount := by omega
  have hne : (t.slots file).openCount - 1 ≠ 0 := by omega
  refine ⟨_, by simp [wake, hstatus, fdArrayRelease, hpos, fopenCountDec, hne]; rfl, by simp⟩

end FileTable

namespace ReadSys

open MmStruct

variable {σ : Type} {vopRead : σ → Nat → BitVec 64 → (len : Nat) → VopRead σ len} {s t : ReadSys σ}
  {fd : Int} {file : Fd} {node base len fuel copied : Nat}

/--
The bytes that the file delivers for a request, in parts of at most `IOBUF_SIZE`.
-/
def delivered (vopRead : σ → Nat → BitVec 64 → (len : Nat) → VopRead σ len) (node : Nat)
    : Nat → σ → BitVec 64 → Nat → List UInt8
  | 0, _, _, _ => []
  | fuel + 1, fs, pos, len =>
    if len ≠ 0 then
      let alen := if iobufSize > len then len else iobufSize
      let ans := vopRead fs node pos alen
      if ans.ret = none ∧ ans.data ≠ [] then
        ans.data ++ delivered vopRead node fuel ans.state (pos + ans.data.length) (len - ans.data.length)
      else
        ans.data
    else
      []

/--
An open descriptor and the inode that it is for.
-/
structure IsOpen (s : ReadSys σ) (fd : Int) (file : Fd) (node : Nat) : Prop where
  fd2file : s.table.fd2file fd = .ok file
  node : (s.table.slots file).node = some node
  openCount : 0 < (s.table.slots file).openCount
  mm : ∀ m ∈ s.mm, m.Ok

/--
The bytes that the file would deliver to this call.
-/
def request (vopRead : σ → Nat → BitVec 64 → (len : Nat) → VopRead σ len) (kmalloc : Bool) (s : ReadSys σ)
    (file : Fd) (node len : Nat) : List UInt8 :=
  if (s.table.slots file).readable ∧ kmalloc then
    delivered vopRead node (len + 1) s.fs (s.table.slots file).pos len
  else
    []

/--
The number of bytes that a return value reports.
-/
def reported (ret : Int) : Nat := ret.toNat

/--
The position moves by the number of bytes that the call reports, and these bytes of the file are in the buffer of the
user.
-/
structure ReadLaw (s : ReadSys σ) (file : Fd) (base : Nat) (data : List UInt8) (ret : Int) (s' : ReadSys σ)
    : Prop where
  pos : (s'.table.slots file).pos = (s.table.slots file).pos + reported ret
  le : reported ret ≤ data.length
  buffer : ∀ i (h : i < data.length), i < reported ret → s'.mem (base + i) = data[i]

theorem retOf_le (ret : Option Errno) : retOf ret ≤ 0 := by
  cases ret with
  | none => exact Int.le_refl 0
  | some e => cases e <;> decide

theorem retOf_eq_zero {ret : Option Errno} : retOf ret = 0 ↔ ret = none := by
  cases ret with
  | none => exact ⟨fun _ => rfl, fun _ => rfl⟩
  | some e => cases e <;> decide

theorem IsOpen.status (h : s.IsOpen fd file node) : (s.table.slots file).status = .fdOpened :=
  FileTable.fd2file_status h.fd2file

/--
A descriptor stays open while nothing but the position of its slot moves.
-/
theorem IsOpen.of_slot (h : s.IsOpen fd file node) {table : FileTable} {fs : σ} {pos : BitVec 64}
    (hslot : table.slots file = { s.table.slots file with pos })
    : IsOpen { s with table, fs } fd file node where
  fd2file := FileTable.fd2file_congr h.fd2file (by rw [hslot]) (by rw [hslot])
  node := by
    rw [hslot]
    exact h.node
  openCount := by
    rw [hslot]
    exact h.openCount
  mm := h.mm

/--
A call of `vop_read` on an acquired slot, and the release of the slot behind it.
-/
theorem fileRead_eq (h : s.IsOpen fd file node) (hreadable : (s.table.slots file).readable = true)
    {ans : VopRead σ len} (hans : vopRead s.fs node (s.table.slots file).pos len = ans)
    : ∃ s', s.fileRead vopRead fd len = some (retOf ans.ret, ans.data, s') ∧
        s'.IsOpen fd file node ∧ (s'.table.slots file).readable = true ∧
        (s'.table.slots file).pos = (s.table.slots file).pos + ans.data.length ∧
        s'.fs = ans.state ∧ s'.mm = s.mm ∧ s'.mem = s.mem := by
  have hcall := FileTable.fileRead_opened h.fd2file hreadable h.node
  obtain ⟨table, hwake, hslot⟩ := FileTable.wake_fileRw
    ((s.table.modify file fun f => { f with openCount := f.openCount + 1 }).record file (.call node)) file node
    ⟨retOf ans.ret, node, 0, ans.data.length⟩ (by simpa using h.status)
    (by have := h.openCount; simp; omega)
  simp only [FileTable.record_slots, FileTable.modify_slots_self, Int.add_sub_cancel] at hslot
  have hpos : (((s.table.modify file fun f => { f with openCount := f.openCount + 1 }).record file (.call node)).slots
      file).pos = (s.table.slots file).pos := by simp
  refine ⟨{ s with table, fs := ans.state }, ?_, h.of_slot hslot, ?_, ?_, rfl, rfl, rfl⟩
  . rw [fileRead, hcall]
    simp only [Option.bind_eq_bind, Option.bind_some, hpos, hans]
    rw [hwake]
    rfl
  . simpa only [hslot] using hreadable
  . simp only [hslot]

/--
What `copy_to_user` does with a buffer that is not empty.
-/
theorem copyToUser_spec (hok : ∀ m ∈ s.mm, m.Ok) {src : List UInt8} (hne : src ≠ []) (hlen : src.length < 2 ^ 64)
    : SameAreas s.mm (s.copyToUser base src).2.mm ∧ (s.copyToUser base src).2.table = s.table ∧
        (s.copyToUser base src).2.fs = s.fs ∧
        ((s.copyToUser base src).1 = true ↔ ∀ i < src.length, PassesByte s.mm true (base + i)) ∧
        (s.copyToUser base src).2.mem
          = if (s.copyToUser base src).1 then memcpyUser s.mem base src else s.mem := by
  have hsame := @userMemCheck_sameAreas base src.length true s.mm hok
  have hpasses := @userMemCheck_iff_passesByte base src.length true s.mm hok (List.length_pos_iff.mpr hne) hlen
  unfold copyToUser
  dsimp only
  split
  next hcheck => exact ⟨hsame, rfl, rfl, iff_of_true rfl (hpasses.mp hcheck), rfl⟩
  next hcheck => exact ⟨hsame, rfl, rfl, iff_of_false nofun fun h => hcheck (hpasses.mpr h), rfl⟩

theorem memcpyUser_of_lt (mem : Nat → UInt8) (src : List UInt8) {a : Nat} (h : a < base)
    : memcpyUser mem base src a = mem a := by
  rw [memcpyUser, if_neg (by omega)]

theorem memcpyUser_add (mem : Nat → UInt8) (base : Nat) (src : List UInt8) {i : Nat} (h : i < src.length)
    : memcpyUser mem base src (base + i) = src[i] := by
  rw [memcpyUser, if_pos (by omega), Nat.add_sub_cancel_left, List.getD_eq_getElem?_getD,
    List.getElem?_eq_getElem h, Option.getD_some]

/--
What a run of the loop leaves for the bytes that the file delivers to it, of which `n` got to the buffer.
-/
structure Looped (s : ReadSys σ) (file : Fd) (base : Nat) (data : List UInt8) (n : Nat) (s' : ReadSys σ) : Prop where
  le : n ≤ data.length
  passes : ∀ i < n, PassesByte s.mm true (base + i)
  buffer : ∀ i (h : i < data.length), i < n → s'.mem (base + i) = data[i]
  frame : ∀ a < base, s'.mem a = s.mem a
  pos : ∃ m ≤ iobufSize, (s'.table.slots file).pos = (s.table.slots file).pos + n + m ∧
    (m = 0 ↔ ∀ i < data.length, PassesByte s.mm true (base + i)) ∧ (m = 0 → n = data.length)

/--
A part that got to the buffer, in front of what the following rounds do.
-/
theorem Looped.prepend {s₂ s₃ : ReadSys σ} {part data : List UInt8} {n : Nat}
    (h : Looped s₂ file (base + part.length) data n s₃) (hsame : SameAreas s.mm s₂.mm)
    (hpass : ∀ i < part.length, PassesByte s.mm true (base + i))
    (hmem : ∀ i (h : i < part.length), s₂.mem (base + i) = part[i]) (hframe : ∀ a < base, s₂.mem a = s.mem a)
    (hpos : (s₂.table.slots file).pos = (s.table.slots file).pos + part.length)
    : Looped s file base (part ++ data) (part.length + n) s₃ where
  le := by
    have := h.le
    simp only [List.length_append]
    omega
  passes := by
    intro i hi
    by_cases hpart : i < part.length
    . exact hpass i hpart
    . have hbyte := h.passes (i - part.length) (by omega)
      rwa [hsame.passesByte, Nat.add_assoc, Nat.add_sub_cancel' (by omega)] at hbyte
  buffer := by
    intro i hi hin
    by_cases hpart : i < part.length
    . rw [h.frame _ (by omega), hmem i hpart, List.getElem_append_left hpart]
    . have hlength : i - part.length < data.length := by
        rw [List.length_append] at hi
        omega
      have hbyte := h.buffer (i - part.length) hlength (by omega)
      rw [Nat.add_assoc, Nat.add_sub_cancel' (by omega)] at hbyte
      rw [hbyte, List.getElem_append_right (by omega)]
  frame := by
    intro a ha
    rw [h.frame a (by omega), hframe a ha]
  pos := by
    obtain ⟨m, hm, hmpos, hmiff, hmn⟩ := h.pos
    refine ⟨m, hm, ?_, ?_, ?_⟩
    . simp only [hmpos, hpos, BitVec.natCast_eq_ofNat, BitVec.ofNat_add, BitVec.add_assoc]
    . rw [hmiff, List.length_append]
      constructor
      . intro hall i hi
        by_cases hpart : i < part.length
        . exact hpass i hpart
        . have hbyte := hall (i - part.length) (by omega)
          rwa [hsame.passesByte, Nat.add_assoc, Nat.add_sub_cancel' (by omega)] at hbyte
      . intro hall i hi
        rw [hsame.passesByte, Nat.add_assoc]
        exact hall (part.length + i) (by omega)
    . intro hzero
      rw [hmn hzero, List.length_append]

theorem readLoop_spec (h : s.IsOpen fd file node) (hreadable : (s.table.slots file).readable = true)
    (hfuel : len < fuel)
    : ∃ ret n s', readLoop vopRead fd fuel s base len copied 0 = some (ret, copied + n, s') ∧ ret ≤ 0 ∧
        Looped s file base (delivered vopRead node fuel s.fs (s.table.slots file).pos len) n s' := by
  induction fuel generalizing s base len copied with
  | zero => omega
  | succ fuel ih =>
    rw [readLoop, delivered]
    have hnothing : Looped s file base [] 0 s :=
      ⟨Nat.le_refl 0, nofun, nofun, fun _ _ => rfl, 0, Nat.zero_le _, by simp, by simp, fun _ => rfl⟩
    by_cases hlen : len = 0
    . rw [if_neg (not_not.mpr hlen), if_neg (not_not.mpr hlen)]
      exact ⟨0, 0, s, rfl, Int.le_refl 0, hnothing⟩
    . rw [if_pos hlen, if_pos hlen]
      extract_lets alen ans
      obtain ⟨s₁, hread, hopen, hreadable₁, hpos, hfs, hmm, hmem⟩ := fileRead_eq h hreadable (rfl : _ = ans)
      have halen : alen ≤ len ∧ alen ≤ iobufSize := by
        simp only [alen]
        split <;> omega
      have hle := ans.le
      clear_value ans alen
      simp only [hread, Option.bind_eq_bind, Option.bind_some]
      by_cases hdata : ans.data = []
      . -- the file is at its end, or has failed before the first byte
        rw [if_neg (by simp [hdata]), if_neg (by simp [hdata]), hdata]
        refine ⟨_, 0, s₁, rfl, retOf_le ans.ret, Nat.le_refl 0, nofun, nofun, fun a _ => by rw [hmem], 0,
          Nat.zero_le _, ?_, by simp, fun _ => rfl⟩
        simpa [hdata] using hpos
      . have hmod : iobufSize < 2 ^ 64 := by decide
        obtain ⟨hsame, htable, hstate, hpasses, hcopied⟩ :=
          @copyToUser_spec σ s₁ base hopen.mm ans.data hdata (by omega)
        rw [if_pos (by simpa using hdata)]
        rw [hmm] at hsame hpasses
        rw [hmem] at hcopied
        generalize s₁.copyToUser base ans.data = copy at *
        obtain ⟨ok, s₂⟩ := copy
        dsimp only at *
        have hopen₂ : s₂.IsOpen fd file node :=
          ⟨htable ▸ hopen.fd2file, htable ▸ hopen.node, htable ▸ hopen.openCount, hsame.ok⟩
        have hpos₂ : (s₂.table.slots file).pos = (s.table.slots file).pos + ans.data.length := htable ▸ hpos
        have hlenPos : 0 < ans.data.length := List.length_pos_iff.mpr hdata
        cases ok with
        | false =>
          -- the position has moved by the bytes of this part
          have hfirst : ¬∀ i < ans.data.length, PassesByte s.mm true (base + i) :=
            fun hall => nomatch hpasses.mpr hall
          refine ⟨_, 0, s₂, rfl, ?_, Nat.zero_le _, nofun, nofun, fun a _ => by simp [hcopied], ans.data.length,
            by omega, by simpa using hpos₂, ?_, by omega⟩
          . split
            . decide
            . exact retOf_le ans.ret
          . refine iff_of_false (by omega) fun hall => hfirst fun i hi => hall i (lt_of_lt_of_le hi ?_)
            split <;> simp
        | true =>
          rw [if_pos rfl] at hcopied
          have hpass := hpasses.mp rfl
          dsimp only
          rw [if_pos (by omega)]
          by_cases hret : ans.ret = none
          . have hgo : ans.ret = none ∧ ans.data ≠ [] := ⟨hret, hdata⟩
            rw [if_pos hgo, retOf_eq_zero.mpr hret, if_neg (not_not.mpr rfl)]
            obtain ⟨ret, n, s₃, hrun, hneg, hloop⟩ :=
              @ih s₂ (base + ans.data.length) (len - ans.data.length) (copied + ans.data.length) hopen₂
                (htable ▸ hreadable₁) (by omega)
            rw [hpos₂, hstate, hfs] at hloop
            refine ⟨ret, ans.data.length + n, s₃, by rw [hrun, Nat.add_assoc], hneg, ?_⟩
            exact hloop.prepend hsame hpass (fun i hi => by rw [hcopied, memcpyUser_add _ _ _ hi])
              (fun a ha => by rw [hcopied, memcpyUser_of_lt _ _ ha]) hpos₂
          . have hstop : ¬(ans.ret = none ∧ ans.data ≠ []) := fun hgo => hret hgo.1
            rw [if_neg hstop, if_pos (mt retOf_eq_zero.mp hret)]
            refine ⟨_, ans.data.length, s₂, rfl, retOf_le ans.ret, Nat.le_refl _, hpass, ?_, ?_, 0, Nat.zero_le _,
              by simpa using hpos₂, by simpa using hpass, fun _ => rfl⟩
            . intro i h _
              rw [hcopied, memcpyUser_add _ _ _ h]
            . intro a ha
              rw [hcopied, memcpyUser_of_lt _ _ ha]

/--
A range that passes is too short for its length to turn into a negative `int`.
-/
theorem lt_of_passes {mm : Option MmStruct} {write : Bool} {n : Nat} (h : ∀ i < n, PassesByte mm write (base + i))
    : n < 2 ^ 31 := by
  by_contra hlong
  have hfirst := h 0 (by omega)
  have hlast := h (n - 1) (by omega)
  cases mm with
  | none =>
    have hbase := hfirst.1
    have htop := hlast.2
    have hkernTop : kernTop = kernBase + 0x7E00000 := rfl
    omega
  | some mm =>
    have hbase := hfirst.1
    have htop := hlast.2.1
    simp only [userBase, userTop] at hbase htop
    omega

theorem toInt_ofNat_of_lt {n : Nat} (h : n < 2 ^ 31) : (BitVec.ofNat 32 n).toInt = n := by
  rw [BitVec.toInt_eq_toNat_of_lt, BitVec.toNat_ofNat, Nat.mod_eq_of_lt (by omega)]
  rw [BitVec.toNat_ofNat, Nat.mod_eq_of_lt (by omega)]
  omega

theorem not_add_of_pos {pos : BitVec 64} {n m : Nat} (hm : m ≤ iobufSize) (hpos : m ≠ 0)
    : pos + n + m ≠ pos + n := by
  intro heq
  have hzero : (m : BitVec 64) = 0#64 := by
    simpa using heq
  have := congrArg BitVec.toNat hzero
  rw [BitVec.natCast_eq_ofNat, BitVec.toNat_ofNat, BitVec.toNat_zero] at this
  simp only [iobufSize] at hm
  omega

/--
`vop_read` of a file that is all in memory.
-/
def memRead (content : List UInt8) (_node : Nat) (pos : BitVec 64) (len : Nat) : VopRead (List UInt8) len where
  state := content
  ret := none
  data := (content.drop pos.toNat).take len
  le := List.length_take_le ..

def firstFd : Fd := ⟨0, by decide⟩

/--
A process that has a file of five bytes open.
-/
def hello : ReadSys (List UInt8) where
  table := ⟨fun fd => ⟨.fdOpened, true, false, fd, 0, some 0, 1⟩, fun _ => []⟩
  fs := [0x68, 0x65, 0x6C, 0x6C, 0x6F]
  mm := some codeAndStack
  mem := fun _ => 0

theorem hello_isOpen : hello.IsOpen 0 firstFd 0 :=
  ⟨rfl, rfl, by decide, fun _ hm => Option.some_inj.mp hm ▸ codeAndStack_ok⟩

end ReadSys
end Ucore
