import Ucore.Kern.Process.LoadIcode.Lemmas.Stack

/-!
This module puts the phases of `load_icode` together. Then a program finds in its memory the bytes of its segments,
with the rights that the page tables can express.
-/

namespace Ucore
namespace LoadM

open Paging (InAreas InRange)

section Args

variable {args : List KArg} {addr stacktop uargv size : Nat} {store : Nat × BitVec 8}

theorem mem_bytesAt {bytes : List (BitVec 8)} (h : store ∈ bytesAt addr bytes)
    : addr ≤ store.1 ∧ store.1 < addr + bytes.length := by
  induction bytes generalizing addr with
  | nil => exact absurd h List.not_mem_nil
  | cons byte rest ih =>
    rw [List.length_cons]
    rcases List.mem_cons.mp h with rfl | h
    . exact ⟨Nat.le_refl _, by omega⟩
    . have := ih h
      omega

theorem head_mem_bytesAt {bytes : List (BitVec 8)} (h : 0 < bytes.length)
    : ∃ byte, (addr, byte) ∈ bytesAt addr bytes := by
  cases bytes with
  | nil => contradiction
  | cons byte rest => exact ⟨byte, List.mem_cons_self⟩

theorem intBytes_length (n w : Nat) : (intBytes n w).length = w := by
  rw [intBytes, List.length_map, List.length_range]

/--
The strings lie above `stacktop`, their addresses above `uargv`.
-/
theorem mem_argvStores (h : store ∈ argvStores stacktop args uargv size)
    : (stacktop + size ≤ store.1 ∧ store.1 < stacktop + size + argvSize args) ∨
        (uargv ≤ store.1 ∧ store.1 < uargv + args.length * 8) := by
  induction args generalizing uargv size with
  | nil => exact absurd h List.not_mem_nil
  | cons arg rest ih =>
    have hsize : argvSize (arg :: rest) = arg.bytes.length + 1 + argvSize rest := by
      rw [argvSize, List.map_cons, List.sum_cons, argvSize]
    rw [hsize, List.length_cons]
    rcases List.mem_append.mp h with h | h
    . rcases List.mem_append.mp h with h | h
      . have := mem_bytesAt h
        rw [List.length_append, List.length_singleton] at this
        omega
      . have := mem_bytesAt h
        rw [intBytes_length] at this
        omega
    . have := ih h
      omega

theorem argvSize_le (args : List KArg) : argvSize args ≤ args.length * (execMaxArgLen + 1) := by
  induction args with
  | nil => exact Nat.le_refl _
  | cons arg rest ih =>
    have := arg.length_le
    rw [argvSize, List.map_cons, List.sum_cons, List.length_cons, Nat.succ_mul]
    rw [argvSize] at ih
    omega

/--
All arguments fit in the area of the stack, and the stack pointer is not at the start of a page.
-/
theorem userSp_bounds (h : args.length ≤ execMaxArgNum)
    : ustack.vmStart ≤ userSp args ∧ userSp args + 4 = LoadM.uargv args ∧
        LoadM.uargv args + args.length * 8 = LoadM.stacktop args ∧
          LoadM.stacktop args + argvSize args < ustack.vmEnd ∧ userSp args % 8 = 4 := by
  have := argvSize_le args
  have hlow : ustack.vmStart = 0x7ff00000 := by decide
  have htop : ustacktop = 0x80000000 := by decide
  have hend : ustack.vmEnd = 0x80000000 := by decide
  simp only [execMaxArgNum] at h
  simp only [execMaxArgLen] at this
  simp only [userSp, LoadM.uargv, LoadM.stacktop, hlow, hend, htop]
  omega

theorem mem_argStores_has (h : args.length ≤ execMaxArgNum)
    (hstore : store ∈ argvStores (LoadM.stacktop args) args (LoadM.uargv args) 0 ∨
      store ∈ bytesAt (userSp args) (intBytes args.length 4))
    : userSp args ≤ store.1 ∧ ustack.Has store.1 := by
  obtain ⟨hlow, hargc, hargv, htop, -⟩ := userSp_bounds h
  simp only [Vma.Has]
  rcases hstore with hstore | hstore
  . have := mem_argvStores hstore
    omega
  . have := mem_bytesAt hstore
    rw [intBytes_length] at this
    omega

/--
An address behind the stack pointer is not the start of the page of the stack pointer.
-/
theorem pageOff_ne {sp : Nat} (hsp : sp % 8 = 4) (hle : sp ≤ addr) (haddr : addr < 2 ^ 39)
    (hkey : pteKey addr = pteKey sp)
    : pageOff addr ≠ pageOff 0 := by
  have hpage := pteKey_inj haddr (by omega) hkey
  intro heq
  have hmod := congrArg Fin.val heq
  simp only [pageOff, pgsize, Nat.zero_mod] at hmod hpage
  omega

end Args

variable {ι : Type} [DecidableEq ι] {s t : Loading ι} {s₀ : Paging ι} {i : ι} {env : LoadEnv}
  {args : List KArg} {u : UserFrame}

theorem setupPgdir_ok (h : setupPgdir env i s = .ok () t)
    : Inv s.paging i t ∧ t.file = s.file := by
  rw [setupPgdir, Prog.get_bind_run] at h
  split at h
  . cases halloc : s.paging.allocPage env.pmm with
    | none =>
      rw [halloc] at h
      cases h
    | some r =>
      obtain ⟨page, p⟩ := r
      rw [halloc] at h
      obtain ⟨-, rfl⟩ := Outcome.ok.inj h
      obtain ⟨hext, -, -, -⟩ := Paging.allocPage_extends halloc
      have hdata := Paging.allocPage_data halloc
      have hentry : ∀ k, (p.setPgdir i fun _ => none).entries (i, k) = Pte.zero := by
        intro k
        simp only [Paging.entries, Paging.setPgdir, Function.update_self]
        rfl
      have hinvalid : ∀ k, ((p.setPgdir i fun _ => none).entries (i, k)).valid ≠ true := by
        intro k
        rw [hentry]
        decide
      refine ⟨⟨⟨fun k _ => hentry k, fun k hvalid => absurd hvalid (hinvalid k),
        fun k _ hvalid => absurd hvalid (hinvalid k)⟩, ?_, fun k hvalid => absurd hvalid (hinvalid k),
        hext.free, fun f _ => congrFun hdata f⟩, rfl⟩
      exact ⟨.nil, fun _ hmem => absurd hmem List.not_mem_nil, fun _ hmem => absurd hmem List.not_mem_nil⟩
  . cases h

/--
The header of a file.
-/
def elfHdr (file : ByteFile) : ElfHdr := ElfHdr.ofBytes file.byte

/--
No segment is so large that its end wraps around to the first addresses.
-/
def NoWrap (file : ByteFile) : Prop :=
  ∀ phnum < (elfHdr file).ePhnum, (headerAt file (elfHdr file) phnum).pType = elfPtLoad →
    (headerAt file (elfHdr file) phnum).pVa + (headerAt file (elfHdr file) phnum).pMemsz < 2 ^ 64

theorem loadIcode_sp (h : loadIcode env args i s = .ok u t) : args.length ≤ execMaxArgNum ∧ u.sp = userSp args := by
  obtain ⟨_, s₁, hassert, hbehind⟩ := Prog.bind_run_eq_ok.mp h
  obtain ⟨hargs, -⟩ := Prog.assert_run_eq_ok.mp hassert
  obtain ⟨_, s₂, -, hbehind⟩ := Prog.bind_run_eq_ok.mp hbehind
  obtain ⟨b, s₃, -, hbehind⟩ := Prog.bind_run_eq_ok.mp hbehind
  split at hbehind
  . cases hbehind
  . obtain ⟨_, s₄, -, hbehind⟩ := Prog.bind_run_eq_ok.mp hbehind
    obtain ⟨_, s₅, -, hbehind⟩ := Prog.bind_run_eq_ok.mp hbehind
    obtain ⟨_, s₆, -, hbehind⟩ := Prog.bind_run_eq_ok.mp hbehind
    obtain ⟨_, s₇, -, hlast⟩ := Prog.bind_run_eq_ok.mp hbehind
    obtain ⟨rfl, -⟩ := Outcome.ok.inj hlast
    exact ⟨hargs, rfl⟩

/--
What an accepted file leaves behind: all segments are loaded in `mid`, there is the stack in `stack`, and the
arguments are stored behind it.
-/
theorem loadIcode_stores (hwrap : NoWrap s.file) (h : loadIcode env args i s = .ok u t)
    : ∃ mid base stack argv, mid.file = s.file ∧
        (∀ phnum < (elfHdr s.file).ePhnum, (headerAt s.file (elfHdr s.file) phnum).pType = elfPtLoad →
          (headerAt s.file (elfHdr s.file) phnum).pFilesz ≠ 0 →
            SegmentLoaded s.file (headerAt s.file (elfHdr s.file) phnum) i mid) ∧
        AreaAdded ustack mid base ∧ OnStack s.paging i base (InRange ustack.vmStart ustack.vmEnd) stack ∧
        storeBytes env i (argvStores (stacktop args) args (uargv args) 0) stack = .ok () argv ∧
        storeBytes env i (bytesAt (userSp args) (intBytes args.length 4)) argv = .ok () t := by
  obtain ⟨_, s₁, hassert, hbehind⟩ := Prog.bind_run_eq_ok.mp h
  obtain ⟨hargs, rfl⟩ := Prog.assert_run_eq_ok.mp hassert
  obtain ⟨_, s₂, hsetup, hbehind⟩ := Prog.bind_run_eq_ok.mp hbehind
  obtain ⟨b, s₃, hread, hbehind⟩ := Prog.bind_run_eq_ok.mp hbehind
  obtain ⟨hinv, hfile⟩ := setupPgdir_ok hsetup
  obtain ⟨rfl, rfl⟩ := loadIcodeRead_ok (by decide) hread
  rw [Bytes.drop_zero, hfile] at hbehind
  split at hbehind
  . cases hbehind
  . obtain ⟨_, mid, hload, hbehind⟩ := Prog.bind_run_eq_ok.mp hbehind
    obtain ⟨_, s₄, hstack, hbehind⟩ := Prog.bind_run_eq_ok.mp hbehind
    obtain ⟨_, s₅, hargv, hbehind⟩ := Prog.bind_run_eq_ok.mp hbehind
    obtain ⟨_, s₆, hargc, hlast⟩ := Prog.bind_run_eq_ok.mp hbehind
    obtain ⟨rfl, rfl⟩ := Outcome.ok.inj hlast
    have hwrap' : ∀ phnum ∈ List.range (elfHdr s₁.file).ePhnum,
        (headerAt s₃.file (elfHdr s₁.file) phnum).pType = elfPtLoad →
          (headerAt s₃.file (elfHdr s₁.file) phnum).pVa +
            (headerAt s₃.file (elfHdr s₁.file) phnum).pMemsz < 2 ^ 64 := by
      rw [hfile]
      exact fun phnum hmem => hwrap phnum (List.mem_range.mp hmem)
    obtain ⟨hmid, hgrows, hloaded⟩ := loadProghdrs_spec hinv hwrap' hload
    rw [hfile] at hloaded
    obtain ⟨base, hadded, hs₄⟩ := buildStack_ok hmid hstack
    refine ⟨mid, base, s₄, s₅, hgrows.file.trans hfile, ?_, hadded, hs₄, hargv, hargc⟩
    exact fun phnum hlt => hloaded phnum (List.mem_range.mpr hlt)

/--
The first byte of the page of the stack pointer is never written.
-/
theorem loadIcode_phases (hwrap : NoWrap s.file) (h : loadIcode env args i s = .ok u t)
    : ∃ mid base, mid.file = s.file ∧
        (∀ phnum < (elfHdr s.file).ePhnum, (headerAt s.file (elfHdr s.file) phnum).pType = elfPtLoad →
          (headerAt s.file (elfHdr s.file) phnum).pFilesz ≠ 0 →
            SegmentLoaded s.file (headerAt s.file (elfHdr s.file) phnum) i mid) ∧
        AreaAdded ustack mid base ∧ OnStack s.paging i base (fun k => k = pteKey (userSp args)) t ∧
        (t.paging.entries (i, pteKey (userSp args))).valid = true := by
  obtain ⟨mid, base, stack, argv, hfile, hloaded, hadded, hstack, hargv, hargc⟩ := loadIcode_stores hwrap h
  obtain ⟨hargs, -⟩ := loadIcode_sp h
  obtain ⟨hlow, hsp', huargv, htop, hsp⟩ := userSp_bounds hargs
  have hbound : ustack.vmEnd ≤ 2 ^ 39 := by decide
  have hstack' : OnStack s.paging i base (fun k => k = pteKey (userSp args)) stack := by
    refine hstack.anti ?_
    rintro k rfl
    exact ⟨userSp args, hlow, by omega, rfl⟩
  have hstore : ∀ store : Nat × BitVec 8, userSp args ≤ store.1 ∧ ustack.Has store.1 →
      ustack.Has store.1 ∧ (pteKey store.1 = pteKey (userSp args) → pageOff store.1 ≠ pageOff 0) :=
    fun store hmem => ⟨hmem.2, pageOff_ne hsp hmem.1 (hmem.2.2.trans_le hbound)⟩
  obtain ⟨hargv', -, -⟩ := storeBytes_ok hstack'
    (fun store hmem => hstore store (mem_argStores_has hargs (.inl hmem))) hargv
  obtain ⟨ht, hvalid, -⟩ := storeBytes_ok hargv'
    (fun store hmem => hstore store (mem_argStores_has hargs (.inr hmem))) hargc
  refine ⟨mid, base, hfile, hloaded, hadded, ht, ?_⟩
  obtain ⟨byte, hmem⟩ := @head_mem_bytesAt (userSp args) (intBytes args.length 4)
    (by rw [intBytes_length]; decide)
  have hfirst := hvalid (userSp args, byte) hmem
  simp only at hfirst
  exact hfirst

end LoadM

namespace Paging

variable {ι : Type}

/--
What a process reads at an address.
-/
def userByte (s : Paging ι) (swap : Pte → Option PageData) (i : ι) (va : Nat) : Option (BitVec 8) :=
  (s.pageRead swap i va).map fun d => d (pageOff va)

end Paging

/--
The rights of a user page.
-/
structure Pte.Rights (pte : Pte) (read write exec : Prop) : Prop where
  valid : pte.valid = true
  user : pte.flags &&& pteU ≠ 0
  read : pte.flags &&& pteR ≠ 0 ↔ read
  write : pte.flags &&& pteW ≠ 0 ↔ write
  exec : pte.flags &&& pteX ≠ 0 ↔ exec

namespace ProgHdr

variable (ph : ProgHdr)

def readable : Prop := ph.pFlags &&& elfPfR ≠ 0

def writable : Prop := ph.pFlags &&& elfPfW ≠ 0

def executable : Prop := ph.pFlags &&& elfPfX ≠ 0

/--
A writable page is readable as well, page tables know no other ones.
-/
theorem perm_rights {pte : Pte} (hvalid : pte.valid = true)
    (hflags : pte.flags = Pte.pteV ||| (Pte.pteV ||| ph.perm))
    : pte.Rights (ph.readable ∨ ph.writable) ph.writable ph.executable := by
  have hperm : ∀ r w x : Bool,
      let vm : BitVec 32 := (if x then Vma.vmExec else 0) ||| (if w then Vma.vmWrite else 0) |||
        (if r then Vma.vmRead else 0)
      (vm &&& Vma.vmRead ≠ 0 ↔ r = true) ∧ (vm &&& Vma.vmWrite ≠ 0 ↔ w = true) ∧
        (vm &&& Vma.vmExec ≠ 0 ↔ x = true) := by decide
  have hrights : ∀ r w x : Bool,
      let flags := Pte.pteV ||| (Pte.pteV ||| (Pte.pteU ||| Pte.pteV ||| (if r then Pte.pteR else 0) |||
        (if w then Pte.pteW ||| Pte.pteR else 0) ||| (if x then Pte.pteX else 0)))
      flags &&& Pte.pteU ≠ 0 ∧ (flags &&& Pte.pteR ≠ 0 ↔ r = true ∨ w = true) ∧
        (flags &&& Pte.pteW ≠ 0 ↔ w = true) ∧ (flags &&& Pte.pteX ≠ 0 ↔ x = true) := by decide
  have hvm := hperm (ph.pFlags &&& elfPfR ≠ 0) (ph.pFlags &&& elfPfW ≠ 0) (ph.pFlags &&& elfPfX ≠ 0)
  have hpte := hrights (ph.pFlags &&& elfPfR ≠ 0) (ph.pFlags &&& elfPfW ≠ 0) (ph.pFlags &&& elfPfX ≠ 0)
  simp only [decide_eq_true_eq] at hvm hpte
  have hall : pte.flags = Pte.pteV ||| (Pte.pteV ||| (Pte.pteU ||| Pte.pteV |||
      (if ph.pFlags &&& elfPfR ≠ 0 then Pte.pteR else 0) |||
        (if ph.pFlags &&& elfPfW ≠ 0 then Pte.pteW ||| Pte.pteR else 0) |||
          (if ph.pFlags &&& elfPfX ≠ 0 then Pte.pteX else 0))) := by
    rw [hflags, perm]
    simp only [vmFlags, hvm]
  rw [← hall] at hpte
  exact ⟨hvalid, hpte.1, hpte.2.1, hpte.2.2.1, hpte.2.2.2⟩

end ProgHdr

namespace LoadM

open Paging (InAreas InRange)

variable {ι : Type} {s t : Loading ι} {i : ι} {env : LoadEnv} {args : List KArg} {u : UserFrame}

/--
A process reads the segment of a header: the bytes of the file and zeros behind them.
-/
def SegmentRead (swap : Pte → Option PageData) (file : ByteFile) (ph : ProgHdr) (read : Prop) (s : Paging ι)
    (i : ι) : Prop :=
  ∀ va, ph.pVa ≤ va → va < ph.pVa + ph.pMemsz →
    s.userByte swap i va = some (ph.byteAt file va) ∧
      ∃ pte, s.getPte i va = some pte ∧ pte.Rights read ph.writable ph.executable

theorem SegmentLoaded.segmentRead {file : ByteFile} {ph : ProgHdr} (h : SegmentLoaded file ph i s)
    (swap : Pte → Option PageData)
    : SegmentRead swap file ph (ph.readable ∨ ph.writable) s.paging i := by
  intro va hva hva'
  obtain ⟨-, d, hd, hbyte, hflags⟩ := h va hva hva'
  have hvalid : (s.paging.entries (i, pteKey va)).valid = true := by
    rw [Paging.contents] at hd
    split at hd
    next hvalid => exact hvalid
    . contradiction
  constructor
  . rw [Paging.userByte, Paging.pageRead_of_contents hd, Option.map_some, hbyte]
  . cases hget : s.paging.getPte i va with
    | none =>
      rw [Paging.entries_of_getPte_none hget rfl rfl] at hvalid
      contradiction
    | some pte =>
      rw [Paging.entries_of_getPte hget] at hvalid hflags
      exact ⟨pte, rfl, ph.perm_rights hvalid hflags⟩

/--
Nothing outside the area of the stack is touched once the segments are loaded.
-/
theorem SegmentLoaded.of_onStack {mid base : Loading ι} {s₀ : Paging ι} {K : PteKey → Prop} {file : ByteFile}
    {ph : ProgHdr} (h : SegmentLoaded file ph i mid) (hadded : AreaAdded ustack mid base)
    (hstack : OnStack s₀ i base K t)
    : SegmentLoaded file ph i t := by
  apply h.of_grows
  have hout : ∀ k, InAreas mid.mmapList k → ¬InRange ustack.vmStart ustack.vmEnd k :=
    fun k hk hrange => hadded.not_inAreas hrange hk
  refine ⟨?_, ?_, ?_, hstack.file.trans hadded.file⟩
  . rw [hstack.mmapList]
    exact (hadded.grows (i := i)).areas
  . intro k hk
    rw [hstack.entries k (hout k hk), hadded.paging]
  . intro k hk
    rw [hstack.contents k (hout k hk), hadded.paging]

variable [DecidableEq ι]

section Examples

/--
The bytes of an integer in a file.
-/
def leBytes (n w : Nat) : List UInt8 := (List.range w).map fun k => UInt8.ofNat (n / 256 ^ k)

/--
A file with one program header and eight bytes behind it.
-/
def elfFile (ph : ProgHdr) : ByteFile :=
  ByteFile.ofBytes 128 (Bytes.ofList (
    leBytes elfMagic 4 ++ leBytes 0 20 ++ leBytes ph.pVa 8 ++ leBytes 64 8 ++ leBytes 0 16 ++
      leBytes 1 8 ++ leBytes ph.pType 4 ++ leBytes ph.pFlags.toNat 4 ++ leBytes ph.pOffset 8 ++
        leBytes ph.pVa 8 ++ leBytes 0 8 ++ leBytes ph.pFilesz 8 ++ leBytes ph.pMemsz 8 ++ leBytes 0 8 ++
          [1, 2, 3, 4, 5, 6, 7, 8]))

/--
An environment where nothing fails.
-/
def plainEnv : LoadEnv where
  pmm := Paging.firstPage
  mmCreated := true
  created _ := true
  grows _ := true
  reads _ _ := true
  swap _ := none

/--
Sixteen free frames that hold a byte everywhere, the other ones hold zeros.
-/
def freeFrames (byte : BitVec 8) : Paging (Fin 2) where
  pgdirs _ _ := none
  ref _ := 0
  data f _ := if f < 16 then byte else 0
  free := Finset.range 16

/--
Eight bytes of code that start in the middle of a page, and eight zeros.
-/
def codeHdr : ProgHdr := ⟨elfPtLoad, elfPfR ||| elfPfX, 120, 0x800010, 8, 16⟩

/--
A page of zeros that is not in the file.
-/
def bssHdr : ProgHdr := ⟨elfPtLoad, elfPfR ||| elfPfW, 120, 0x800000, 0, 4096⟩

theorem headerAt_codeHdr : headerAt (elfFile codeHdr) (elfHdr (elfFile codeHdr)) 0 = codeHdr := by
  decide +kernel

theorem headerAt_bssHdr : headerAt (elfFile bssHdr) (elfHdr (elfFile bssHdr)) 0 = bssHdr := by
  decide +kernel

theorem ePhnum_elfFile : ∀ ph ∈ [codeHdr, bssHdr], (elfHdr (elfFile ph)).ePhnum = 1 := by
  decide +kernel

theorem noWrap_codeHdr : NoWrap (elfFile codeHdr) := by
  intro phnum hlt _
  rw [ePhnum_elfFile codeHdr List.mem_cons_self] at hlt
  obtain rfl : phnum = 0 := by omega
  rw [headerAt_codeHdr]
  decide

/--
What the new process reads at an address.
-/
def byteBehind (o : Outcome Int LoadPanic (Loading (Fin 2)) UserFrame) (va : Nat) : Option (BitVec 8) :=
  match o with
  | .ok _ t => t.paging.userByte plainEnv.swap ⟨0, Nat.two_pos⟩ va
  | _ => none

theorem byteBehind_ok {o : Outcome Int LoadPanic (Loading (Fin 2)) UserFrame} {u : UserFrame}
    {t : Loading (Fin 2)} (h : o = .ok u t) (va : Nat)
    : byteBehind o va = t.paging.userByte plainEnv.swap 0 va := by
  rw [h, byteBehind]
  rfl

theorem bssHdr_loads
    : ∃ u t, loadIcode plainEnv [] (0 : Fin 2) ⟨freeFrames 0, [], elfFile bssHdr⟩ = .ok u t :=
  Outcome.exists_of_isOk (by decide +kernel)

theorem codeHdr_loads
    : ∃ u t, loadIcode plainEnv [] (0 : Fin 2) ⟨freeFrames 0, [], elfFile codeHdr⟩ = .ok u t :=
  Outcome.exists_of_isOk (by decide +kernel)

end Examples

end LoadM
end Ucore
