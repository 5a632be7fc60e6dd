import Ucore.Kern.Process.LoadIcode.Loaded
import Ucore.Lib.Blocks

/-!
This module contains the arguments of a new program: where `load_icode` stores them, and what the code at the start
of the program, `_start` and `umain` of user/libs, takes for them.
-/

namespace Ucore

/--
The registers of the trap frame that the start of a program depends on.
-/
structure TrapFrame where
  sp : BitVec 64
  a0 : BitVec 64
  a1 : BitVec 64
  epc : BitVec 64

/--
`load_icode` clears the trap frame before it sets `sp` and `epc`.
-/
def UserFrame.trapFrame (u : UserFrame) : TrapFrame := ⟨BitVec.ofNat 64 u.sp, 0, 0, BitVec.ofNat 64 u.epc⟩

/--
The last assignment of `syscall`.
-/
def TrapFrame.syscallReturn (tf : TrapFrame) (ret : Int) : TrapFrame := { tf with a0 := BitVec.ofInt 64 ret }

/--
`argc` and `argv` of `main`: `_start` calls `umain`, which finds them in `a0` and `a1` and hands them on.
-/
def TrapFrame.mainArgs (tf : TrapFrame) : Int × Nat := ((tf.a0.setWidth 32).toInt, tf.a1.toNat)

namespace Paging

variable {ι : Type}

/--
A process reads these bytes from an address on.
-/
def HoldsBytes (s : Paging ι) (swap : Pte → Option PageData) (i : ι) (va : Nat) (bytes : List (BitVec 8)) : Prop :=
  ∀ k b, bytes[k]? = some b → s.userByte swap i (va + k) = some b

/--
What a process reads at an address of a page that is mapped.
-/
def mappedByte (s : Paging ι) (i : ι) (va : Nat) : Option (BitVec 8) :=
  (s.contents i (pteKey va)).map fun d => d (pageOff va)

theorem userByte_of_mappedByte {s : Paging ι} {swap : Pte → Option PageData} {i : ι} {va : Nat} {b : BitVec 8}
    (h : s.mappedByte i va = some b)
    : s.userByte swap i va = some b := by
  obtain ⟨d, hd, hb⟩ := Option.map_eq_some_iff.mp h
  rw [userByte, pageRead_of_contents hd, Option.map_some, hb]

end Paging

namespace LoadM

open Paging (InRange HoldsBytes)

section Layout

variable {args : List KArg} {stacktop uargv size addr k : Nat} {arg : KArg} {b : BitVec 8}

/--
The strings with their null bytes, one behind the other.
-/
def strBlocks : Nat → List KArg → List Block
  | _, [] => []
  | addr, arg :: rest => ⟨addr, arg.bytes.length + 1⟩ :: strBlocks (addr + (arg.bytes.length + 1)) rest

/--
What `load_icode` writes: `argc`, `uargv` and the strings.
-/
def argBlocks (args : List KArg) : List Block :=
  ⟨userSp args, 4⟩ :: ⟨LoadM.uargv args, args.length * 8⟩ :: strBlocks (LoadM.stacktop args) args

theorem strBlocks_bounds {block : Block} (h : block ∈ strBlocks addr args)
    : addr ≤ block.addr ∧ block.stop ≤ addr + argvSize args := by
  induction args generalizing addr with
  | nil => exact absurd h List.not_mem_nil
  | cons arg rest ih =>
    have hsize : argvSize (arg :: rest) = arg.bytes.length + 1 + argvSize rest := by
      rw [argvSize, List.map_cons, List.sum_cons, argvSize]
    rcases List.mem_cons.mp h with rfl | h
    . simp only [Block.stop]
      omega
    . have := ih h
      omega

theorem strBlocks_pairwise : (strBlocks addr args).Pairwise fun b c => b.stop ≤ c.addr := by
  induction args generalizing addr with
  | nil => exact List.Pairwise.nil
  | cons arg rest ih =>
    refine List.pairwise_cons.mpr ⟨?_, ih⟩
    intro c hc
    exact (strBlocks_bounds hc).1

/--
The blocks lie one behind the other, from the stack pointer to the end of the stack.
-/
theorem argBlocks_layout (h : args.length ≤ execMaxArgNum)
    : ((argBlocks args).Pairwise fun b c => b.stop ≤ c.addr) ∧
        ∀ block ∈ argBlocks args, userSp args ≤ block.addr ∧ block.stop ≤ ustack.vmEnd := by
  obtain ⟨-, hargc, hargv, htop, -⟩ := userSp_bounds h
  have hstr (block : Block) (hblock : block ∈ strBlocks (LoadM.stacktop args) args)
      : LoadM.stacktop args ≤ block.addr ∧ block.stop ≤ ustack.vmEnd := by
    have := strBlocks_bounds hblock
    omega
  constructor
  . refine List.pairwise_cons.mpr ⟨?_, List.pairwise_cons.mpr ⟨?_, strBlocks_pairwise⟩⟩
    . intro c hc
      rcases List.mem_cons.mp hc with rfl | hc
      . exact le_of_eq hargc
      . have := (hstr c hc).1
        simp only [Block.stop]
        omega
    . intro c hc
      have := (hstr c hc).1
      simp only [Block.stop]
      omega
  . intro block hblock
    rcases List.mem_cons.mp hblock with rfl | hblock
    . simp only [Block.stop]
      omega
    rcases List.mem_cons.mp hblock with rfl | hblock
    . simp only [Block.stop]
      omega
    . have := hstr block hblock
      omega

theorem getElem?_bytesAt {bytes : List (BitVec 8)} (h : bytes[k]? = some b) : (addr + k, b) ∈ bytesAt addr bytes := by
  induction bytes generalizing addr k with
  | nil => contradiction
  | cons byte rest ih =>
    cases k with
    | zero =>
      obtain rfl := Option.some_inj.mp h
      exact List.mem_cons_self
    | succ k =>
      have hmem := @ih (addr + 1) k h
      rw [show addr + 1 + k = addr + (k + 1) by omega] at hmem
      exact List.mem_cons_of_mem _ hmem

/--
A string and the pointer to it are among the stores.
-/
theorem argvStores_has (h : args[k]? = some arg)
    : ∃ block, (strBlocks (stacktop + size) args)[k]? = some block ∧
        (∀ j b, (arg.bytes ++ [0])[j]? = some b → (block.addr + j, b) ∈ argvStores stacktop args uargv size) ∧
        ∀ j b, (intBytes block.addr 8)[j]? = some b →
          (uargv + 8 * k + j, b) ∈ argvStores stacktop args uargv size := by
  induction args generalizing uargv size k with
  | nil => contradiction
  | cons first rest ih =>
    cases k with
    | zero =>
      obtain rfl := Option.some_inj.mp h
      refine ⟨_, rfl, ?_, ?_⟩
      . intro j b hj
        exact List.mem_append_left _ (List.mem_append_left _ (getElem?_bytesAt hj))
      . intro j b hj
        exact List.mem_append_left _ (List.mem_append_right _ (getElem?_bytesAt hj))
    | succ k =>
      obtain ⟨block, hblock, hstr, hptr⟩ := @ih (uargv + 8) (size + (first.bytes.length + 1)) k h
      refine ⟨block, ?_, ?_, ?_⟩
      . rw [← hblock, ← Nat.add_assoc]
        rfl
      . intro j b hj
        exact List.mem_append_right _ (hstr j b hj)
      . intro j b hj
        have hmem := hptr j b hj
        rw [show uargv + 8 + 8 * k + j = uargv + 8 * (k + 1) + j by omega] at hmem
        exact List.mem_append_right _ hmem

theorem bytesAt_nodup {bytes : List (BitVec 8)} : ((bytesAt addr bytes).map Prod.fst).Nodup := by
  induction bytes generalizing addr with
  | nil => exact List.nodup_nil
  | cons byte rest ih =>
    refine List.nodup_cons.mpr ⟨?_, ih⟩
    intro hmem
    obtain ⟨store, hstore, heq⟩ := List.mem_map.mp hmem
    have := (mem_bytesAt hstore).1
    omega

/--
No byte is stored twice.
-/
theorem argvStores_nodup (h : uargv + args.length * 8 ≤ stacktop + size)
    : ((argvStores stacktop args uargv size).map Prod.fst).Nodup := by
  induction args generalizing uargv size with
  | nil => exact List.nodup_nil
  | cons arg rest ih =>
    rw [List.length_cons] at h
    rw [argvStores, List.map_append, List.map_append]
    refine List.nodup_append.mpr ⟨?_, ih (by omega), ?_⟩
    . refine List.nodup_append.mpr ⟨bytesAt_nodup, bytesAt_nodup, ?_⟩
      intro x hx y hy
      obtain ⟨sx, hsx, rfl⟩ := List.mem_map.mp hx
      obtain ⟨sy, hsy, rfl⟩ := List.mem_map.mp hy
      have := mem_bytesAt hsx
      have := mem_bytesAt hsy
      rw [intBytes_length] at this
      omega
    . intro x hx y hy
      obtain ⟨sy, hsy, rfl⟩ := List.mem_map.mp hy
      have hrest := mem_argvStores hsy
      rcases List.mem_append.mp hx with hx | hx
      . obtain ⟨sx, hsx, rfl⟩ := List.mem_map.mp hx
        have := mem_bytesAt hsx
        rw [List.length_append, List.length_singleton] at this
        omega
      . obtain ⟨sx, hsx, rfl⟩ := List.mem_map.mp hx
        have := mem_bytesAt hsx
        rw [intBytes_length] at this
        omega

end Layout

section Stored

variable {ι : Type} {s t base : Loading ι} {s₀ p : Paging ι} {i : ι} {env : LoadEnv} {K : PteKey → Prop}
  {addr va : Nat} {byte b : BitVec 8} {stores : List (Nat × BitVec 8)}

theorem ustack_has_lt (h : ustack.Has addr) : addr < 2 ^ 39 := h.2.trans_le (by decide)

theorem valid_of_mappedByte (h : p.mappedByte i va = some b) : (p.entries (i, pteKey va)).valid = true := by
  obtain ⟨d, hd, -⟩ := Option.map_eq_some_iff.mp h
  rw [Paging.contents] at hd
  split at hd
  next hvalid => exact hvalid
  next => contradiction

theorem Faulted.mappedByte_write (h : Faulted s₀ i base K s addr p) (hla : ustack.Has addr) (hva : va < 2 ^ 39)
    : (p.writeByte i addr (pageOff addr) byte).mappedByte i va =
        if va = addr then some byte else p.mappedByte i va := by
  have hwrite := h.onStack.writable _ (inRange_ustack hla) h.valid
  have hmaps : (p.entries (i, pteKey addr)).Maps (p.entries (i, pteKey addr)).ppn := ⟨h.valid, rfl⟩
  have hcontents := h.onStack.inv.priv.contents_write hmaps
    (d := Function.update (p.data (p.entries (i, pteKey addr)).ppn) (pageOff addr) byte)
  rw [Paging.writeByte_of_valid h.valid hwrite]
  simp only [Paging.mappedByte, hcontents]
  by_cases hkey : pteKey va = pteKey addr
  . rw [hkey, Function.update_self, Option.map_some]
    have hpage := pteKey_inj hva (ustack_has_lt hla) hkey
    by_cases heq : va = addr
    . rw [heq, Function.update_self, if_pos rfl]
    . have hoff : pageOff va ≠ pageOff addr := by
        intro hoff
        have hmod := congrArg Fin.val hoff
        simp only [pageOff, pgsize] at hmod hpage
        omega
      rw [Function.update_of_ne hoff, if_neg heq, Paging.contents_of_maps hmaps, Option.map_some]
  . have hne : va ≠ addr := by
      rintro rfl
      exact hkey rfl
    rw [Function.update_of_ne hkey, if_neg hne]

variable [DecidableEq ι]

/--
A store is read back, and the other bytes are as before.
-/
theorem storeByte_mappedByte (h : OnStack s₀ i base K s) (hla : ustack.Has addr)
    (hok : storeByte env i addr byte s = .ok () t) (hva : va < 2 ^ 39)
    : (va = addr → t.paging.mappedByte i va = some byte) ∧
        (va ≠ addr → s.paging.mappedByte i va = some b → t.paging.mappedByte i va = some b) := by
  obtain ⟨p, hp, rfl⟩ := storeByte_faulted h hla hok
  dsimp only
  rw [hp.mappedByte_write hla hva]
  constructor
  . intro heq
    rw [if_pos heq]
  . intro hne hbyte
    have hkeep := (hp.keeps _ (valid_of_mappedByte hbyte)).2
    rw [if_neg hne, Paging.mappedByte, hkeep]
    exact hbyte

theorem storeBytes_mappedByte (h : OnStack s₀ i base (fun _ => False) s)
    (hstores : ∀ store ∈ stores, ustack.Has store.1) (hnodup : (stores.map Prod.fst).Nodup)
    (hok : storeBytes env i stores s = .ok () t)
    : (∀ store ∈ stores, t.paging.mappedByte i store.1 = some store.2) ∧
        ∀ va b, va < 2 ^ 39 → va ∉ stores.map Prod.fst → s.paging.mappedByte i va = some b →
          t.paging.mappedByte i va = some b := by
  induction stores generalizing s with
  | nil =>
    obtain ⟨-, rfl⟩ := Outcome.ok.inj hok
    exact ⟨fun _ hmem => absurd hmem List.not_mem_nil, fun _ _ _ _ => id⟩
  | cons store rest ih =>
    obtain ⟨addr, byte⟩ := store
    obtain ⟨_, u, hstore, hrest⟩ := Prog.bind_run_eq_ok.mp hok
    obtain ⟨hla, hstores⟩ := List.forall_mem_cons.mp hstores
    obtain ⟨hfirst, hnodup⟩ := List.nodup_cons.mp hnodup
    obtain ⟨hu, -, -⟩ := storeByte_ok h hla nofun hstore
    obtain ⟨hread, hkeep⟩ := ih hu hstores hnodup hrest
    constructor
    . intro store hmem
      rcases List.mem_cons.mp hmem with rfl | hmem
      . have hbyte := (@storeByte_mappedByte _ _ _ _ _ _ _ _ _ addr byte byte _ h hla hstore (ustack_has_lt hla)).1 rfl
        exact hkeep addr byte (ustack_has_lt hla) hfirst hbyte
      . exact hread store hmem
    . intro va b hva hnot hbyte
      rw [List.map_cons, List.mem_cons, not_or] at hnot
      obtain ⟨hne, hnot⟩ := hnot
      exact hkeep va b hva hnot ((storeByte_mappedByte h hla hstore hva).2 hne hbyte)

end Stored

variable {ι : Type} {s t : Loading ι} {i : ι} {env : LoadEnv} {args : List KArg} {u : UserFrame}

/--
The arguments are in the memory of the new program, apart from each other and above the stack pointer, in the area of
the stack.
-/
structure ArgsStored (s : Paging ι) (swap : Pte → Option PageData) (i : ι) (args : List KArg) (sp : Nat)
    : Prop where
  apart : (argBlocks args).Pairwise fun b c => ∀ x, b.Has x → ¬c.Has x
  inside : ∀ block ∈ argBlocks args,
    sp ≤ block.addr ∧ ustack.vmStart ≤ block.addr ∧ block.stop ≤ ustack.vmEnd
  argc : HoldsBytes s swap i (userSp args) (intBytes args.length 4)
  strings : ∀ (k : Nat) arg, args[k]? = some arg → ∃ block, (strBlocks (stacktop args) args)[k]? = some block ∧
    HoldsBytes s swap i (uargv args + 8 * k) (intBytes block.addr 8) ∧
      HoldsBytes s swap i block.addr (arg.bytes ++ [0])
  aligned : ∀ k < args.length, (uargv args + 8 * k) % 8 = 0

/--
`main` gets the number of the arguments and an array of pointers to the strings.
-/
def MainReceives (s : Paging ι) (swap : Pte → Option PageData) (i : ι) (args : List KArg) (tf : TrapFrame) : Prop :=
  tf.mainArgs.1 = args.length ∧ ∀ (k : Nat) arg, args[k]? = some arg →
    ∃ a, HoldsBytes s swap i (tf.mainArgs.2 + 8 * k) (intBytes a 8) ∧ HoldsBytes s swap i a (arg.bytes ++ [0])

/--
What `exec` has to do about the arguments, the program starts with the registers of `tf`.
-/
structure ArgsDelivered (s : Paging ι) (swap : Pte → Option PageData) (i : ι) (args : List KArg) (tf : TrapFrame)
    : Prop where
  stored : ArgsStored s swap i args tf.sp.toNat
  aligned : tf.sp.toNat % 16 = 0
  main : MainReceives s swap i args tf

variable [DecidableEq ι]

/--
`load_icode` does its part in memory.
-/
theorem load_icode_argsStored (hwrap : NoWrap s.file) (hload : loadIcode env args i s = .ok u t)
    : ArgsStored t.paging env.swap i args u.sp := by
  obtain ⟨mid, base, stack, argv, -, -, -, hstack, hargv, hargc⟩ := loadIcode_stores hwrap hload
  obtain ⟨hargs, hsp⟩ := loadIcode_sp hload
  obtain ⟨hlow, hsp', huargv, htop, hmod⟩ := userSp_bounds hargs
  obtain ⟨hpairwise, hinside⟩ := argBlocks_layout hargs
  have hstack' : OnStack s.paging i base (fun _ => False) stack := hstack.anti nofun
  have hhas (store : Nat × BitVec 8) (hmem : store ∈ argvStores (stacktop args) args (uargv args) 0)
      : ustack.Has store.1 :=
    (mem_argStores_has hargs (.inl hmem)).2
  have hhas' (store : Nat × BitVec 8) (hmem : store ∈ bytesAt (userSp args) (intBytes args.length 4))
      : ustack.Has store.1 :=
    (mem_argStores_has hargs (.inr hmem)).2
  obtain ⟨hargv', -, -⟩ := storeBytes_ok hstack' (fun store hmem => ⟨hhas store hmem, nofun⟩) hargv
  obtain ⟨hread, -⟩ := storeBytes_mappedByte hstack' hhas (argvStores_nodup (by omega)) hargv
  obtain ⟨hread', hkeep⟩ := storeBytes_mappedByte hargv' hhas' bytesAt_nodup hargc
  -- the word with `argc` is below the strings and their addresses
  have hstored (a : Nat) (b : BitVec 8) (hmem : (a, b) ∈ argvStores (stacktop args) args (uargv args) 0)
      : t.paging.userByte env.swap i a = some b := by
    have hlt := ustack_has_lt (hhas (a, b) hmem)
    have hbyte := hread (a, b) hmem
    refine Paging.userByte_of_mappedByte (hkeep a b hlt ?_ hbyte)
    intro hargc
    obtain ⟨store, hstore, rfl⟩ := List.mem_map.mp hargc
    have hbelow := mem_bytesAt hstore
    have habove := mem_argvStores hmem
    rw [intBytes_length] at hbelow
    dsimp only at habove
    omega
  refine ⟨?_, ?_, ?_, ?_, ?_⟩
  . refine hpairwise.imp ?_
    intro b c hle x hb hc
    have := hb.2
    have := hc.1
    omega
  . intro block hblock
    have := hinside block hblock
    rw [hsp]
    omega
  . intro k b hb
    have hbyte := hread' (userSp args + k, b) (getElem?_bytesAt hb)
    exact Paging.userByte_of_mappedByte hbyte
  . intro k arg harg
    obtain ⟨block, hblock, hstr, hptr⟩ := @argvStores_has args (stacktop args) (uargv args) 0 k arg harg
    rw [Nat.add_zero] at hblock
    refine ⟨block, hblock, ?_, ?_⟩
    . intro j b hb
      exact hstored (uargv args + 8 * k + j) b (hptr j b hb)
    . intro j b hb
      exact hstored (block.addr + j) b (hstr j b hb)
  . intro k _
    omega

/--
The arguments are never delivered: `main` does not receive them, for `a0` holds the result of the system call and `a1`
nothing, and the stack pointer is not aligned either.
-/
theorem exec_args_not_delivered (hargc : 1 ≤ args.length) (hload : loadIcode env args i s = .ok u t)
    : let tf := u.trapFrame.syscallReturn 0
      tf.sp.toNat % 16 ≠ 0 ∧ tf.mainArgs = (0, 0) ∧ ¬ArgsDelivered t.paging env.swap i args tf := by
  intro tf
  obtain ⟨hargs, hsp⟩ := loadIcode_sp hload
  have hmain : tf.mainArgs = (0, 0) := rfl
  refine ⟨?_, hmain, ?_⟩
  . have htf : tf.sp.toNat = u.sp % 2 ^ 64 := BitVec.toNat_ofNat ..
    have hmod := (userSp_bounds hargs).2.2.2.2
    rw [htf, hsp]
    omega
  . intro h
    have hzero := h.main.1
    rw [hmain] at hzero
    dsimp only at hzero
    omega

section Examples

def oneArg : List KArg := [⟨[0x61], by decide⟩]

theorem oneArg_loads
    : ∃ u t, loadIcode plainEnv oneArg (0 : Fin 2) ⟨freeFrames 0, [], elfFile codeHdr⟩ = .ok u t :=
  Outcome.exists_of_isOk (by decide +kernel)

theorem exec_args_not_delivered_oneArg
    : ∃ u t, loadIcode plainEnv oneArg (0 : Fin 2) ⟨freeFrames 0, [], elfFile codeHdr⟩ = .ok u t ∧
        ¬ArgsDelivered t.paging plainEnv.swap 0 oneArg (u.trapFrame.syscallReturn 0) := by
  obtain ⟨u, t, hload⟩ := oneArg_loads
  exact ⟨u, t, hload, (exec_args_not_delivered (by decide) hload).2.2⟩

theorem not_exec_args_delivered
    : ¬(∀ (env : LoadEnv) (args : List KArg) (i : Fin 2) (s t : Loading (Fin 2)) (u : UserFrame),
        1 ≤ args.length → loadIcode env args i s = .ok u t →
          ArgsDelivered t.paging env.swap i args (u.trapFrame.syscallReturn 0)) := by
  intro hall
  obtain ⟨u, t, hload⟩ := oneArg_loads
  have hmain := (hall plainEnv oneArg 0 _ t u (by decide) hload).main.1
  have hzero : ((u.trapFrame.syscallReturn 0).mainArgs.1) = 0 := rfl
  rw [hzero] at hmain
  exact absurd hmain (by decide)

end Examples

end LoadM
end Ucore
