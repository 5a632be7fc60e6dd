import Mathlib
import Ucore.Kern.Fs.Vfs.Impl

/-!
This module contains the list of the devices that kern/fs/vfs/vfsdev.c keeps, and the map from names to devices that it
stands for.
-/

namespace Ucore

abbrev fsMaxDnameLen : Nat := 31

/--
An entry of `vdev_list`, whose `devnode` is the inode of the device.
-/
structure VfsDevT extends VfsDev where
  devnode : Option Nat

/--
`vdev_list` with its semaphore, where `names` and `entries` count the copies of names and the entries that `kmalloc` has
given and nobody has freed. `mounts` and `unmounts` are the file systems that `mountfunc` has made and that
`fsop_unmount` has freed.
-/
structure VdevList where
  devs : List VfsDevT
  sem : Bool
  names : Nat
  entries : Nat
  mounts : List Nat
  unmounts : List Nat

/--
A call with the answers of `kmalloc` and of the file systems.
-/
inductive VdevCall where
  | addFs (devname : List Char) (fs : Nat) (strdup kmalloc : Bool)
  | addDev (devname : List Char) (devnode : Nat) (mountable strdup kmalloc : Bool)
  | mount (devname : List Char) (mountfunc : Except Errno Nat)
  | unmount (devname : List Char) (sync unmount : Nat → Option Errno)
  | unmountAll (sync unmount : Nat → Option Errno)
  | getRoot (devname : List Char) (root : Nat → Option Nat)

namespace VdevList

def lockVdevList (s : VdevList) : Option VdevList := if s.sem then some { s with sem := false } else none

def unlockVdevList (s : VdevList) : VdevList := { s with sem := true }

def checkDevnameConflict (devs : List VfsDevT) (devname : List Char) : Bool :=
  devs.all fun vdev => vdev.devname ≠ devname

def vfsDoAdd (s : VdevList) (devname : List Char) (devnode fs : Option Nat) (mountable strdup kmalloc : Bool)
    : Option (Except Errno Nat × VdevList) :=
  if devname.length > fsMaxDnameLen then
    some (.error .tooBig, s)
  else if !strdup then
    some (.error .noMem, s)
  else
    let s := { s with names := s.names + 1 }
    if !kmalloc then
      some (.error .noMem, { s with names := s.names - 1 })
    else do
      let s ← { s with entries := s.entries + 1 }.lockVdevList
      if !checkDevnameConflict s.devs devname then
        let s := s.unlockVdevList
        return (.error .exists, { s with entries := s.entries - 1, names := s.names - 1 })
      else
        let s := { s with devs := { devname, devnode, fs, mountable } :: s.devs }
        return (.ok 0, s.unlockVdevList)

def vfsAddFs (s : VdevList) (devname : List Char) (fs : Nat) (strdup kmalloc : Bool)
    : Option (Except Errno Nat × VdevList) :=
  s.vfsDoAdd devname none (some fs) false strdup kmalloc

def vfsAddDev (s : VdevList) (devname : List Char) (devnode : Nat) (mountable strdup kmalloc : Bool)
    : Option (Except Errno Nat × VdevList) :=
  s.vfsDoAdd devname (some devnode) none mountable strdup kmalloc

def findMount (devs : List VfsDevT) (devname : List Char) : Option VfsDevT :=
  devs.find? fun vdev => vdev.mountable ∧ vdev.devname = devname

/--
An assignment to `vdev->fs` of the entry that `find_mount` has found.
-/
def setFs (devs : List VfsDevT) (devname : List Char) (fs : Option Nat) : List VfsDevT :=
  match devs with
  | [] => []
  | vdev :: devs =>
    if vdev.mountable ∧ vdev.devname = devname then
      { vdev with fs } :: devs
    else
      vdev :: setFs devs devname fs

def vfsMount (s : VdevList) (devname : List Char) (mountfunc : Except Errno Nat)
    : Option (Except Errno Nat × VdevList) := do
  let s ← s.lockVdevList
  match findMount s.devs devname with
  | none => return (.error .noDev, s.unlockVdevList)
  | some vdev =>
    if vdev.fs.isSome then
      return (.error .busy, s.unlockVdevList)
    else if vdev.devnode.isNone then
      -- the assertion of vop_info fails
      none
    else
      match mountfunc with
      | .error e => return (.error e, s.unlockVdevList)
      | .ok fs =>
        let s := { s with devs := setFs s.devs devname (some fs), mounts := fs :: s.mounts }
        return (.ok 0, s.unlockVdevList)

def vfsUnmount (s : VdevList) (devname : List Char) (sync unmount : Nat → Option Errno)
    : Option (Except Errno Nat × VdevList) := do
  let s ← s.lockVdevList
  match findMount s.devs devname with
  | none => return (.error .noDev, s.unlockVdevList)
  | some vdev =>
    match vdev.fs with
    | none => return (.error .inval, s.unlockVdevList)
    | some fs =>
      match sync fs with
      | some e => return (.error e, s.unlockVdevList)
      | none =>
        match unmount fs with
        | some e => return (.error e, s.unlockVdevList)
        | none =>
          let s := { s with devs := setFs s.devs devname none, unmounts := fs :: s.unmounts }
          return (.ok 0, s.unlockVdevList)

/--
The loop of `vfs_unmount_all` from an entry on.
-/
def unmountAllLoop (sync unmount : Nat → Option Errno) : List VfsDevT → List Nat → List VfsDevT × List Nat
  | [], unmounts => ([], unmounts)
  | vdev :: devs, unmounts =>
    match vdev.fs with
    | some fs =>
      if vdev.mountable ∧ sync fs = none ∧ unmount fs = none then
        let rest := unmountAllLoop sync unmount devs (fs :: unmounts)
        ({ vdev with fs := none } :: rest.1, rest.2)
      else
        let rest := unmountAllLoop sync unmount devs unmounts
        (vdev :: rest.1, rest.2)
    | none =>
      let rest := unmountAllLoop sync unmount devs unmounts
      (vdev :: rest.1, rest.2)

def vfsUnmountAll (s : VdevList) (sync unmount : Nat → Option Errno) : Option (Except Errno Nat × VdevList) :=
  if s.devs.isEmpty then
    some (.ok 0, s)
  else do
    let s ← s.lockVdevList
    let rest := unmountAllLoop sync unmount s.devs s.unmounts
    return (.ok 0, { s with devs := rest.1, unmounts := rest.2 }.unlockVdevList)

/--
The result is the inode that is found.
-/
def vfsGetRoot (s : VdevList) (devname : List Char) (root : Nat → Option Nat)
    : Option (Except Errno Nat × VdevList) :=
  if s.devs.isEmpty then
    some (.error .noDev, s)
  else do
    let s ← s.lockVdevList
    let ret :=
      match s.devs.find? fun vdev => vdev.devname = devname with
      | none => .error .noDev
      | some vdev =>
        let found :=
          match vdev.fs with
          | some fs => root fs
          | none => if !vdev.mountable then vdev.devnode else none
        match found with
        | some node => .ok node
        | none => .error .naDev
    return (ret, s.unlockVdevList)

def call (s : VdevList) : VdevCall → Option (Except Errno Nat × VdevList)
  | .addFs devname fs strdup kmalloc => s.vfsAddFs devname fs strdup kmalloc
  | .addDev devname devnode mountable strdup kmalloc => s.vfsAddDev devname devnode mountable strdup kmalloc
  | .mount devname mountfunc => s.vfsMount devname mountfunc
  | .unmount devname sync unmount => s.vfsUnmount devname sync unmount
  | .unmountAll sync unmount => s.vfsUnmountAll sync unmount
  | .getRoot devname root => s.vfsGetRoot devname root

/--
The results of a run of calls, which is `none` if a call takes a semaphore that is not free or an assertion fails.
-/
def run (s : VdevList) : List VdevCall → Option (List (Except Errno Nat) × VdevList)
  | [] => some ([], s)
  | c :: calls =>
    (s.call c).bind fun r =>
      (r.2.run calls).map fun rest => (r.1 :: rest.1, rest.2)

/--
`vfs_devlist_init`
-/
def init : VdevList where
  devs := []
  sem := true
  names := 0
  entries := 0
  mounts := []
  unmounts := []

/--
The file systems on the devices that they have been mounted on.
-/
def mounted (devs : List VfsDevT) : List Nat := (devs.filter (·.mountable)).filterMap (·.fs)

end VdevList

/--
What the devices are for those who call the functions.
-/
abbrev VdevMap := List Char → Option VfsDevT

namespace VdevMap

def add (m : VdevMap) (vdev : VfsDevT) (strdup kmalloc : Bool) : Except Errno Nat × VdevMap :=
  if vdev.devname.length > fsMaxDnameLen then
    (.error .tooBig, m)
  else if !strdup || !kmalloc then
    (.error .noMem, m)
  else if (m vdev.devname).isSome then
    (.error .exists, m)
  else
    (.ok 0, Function.update m vdev.devname (some vdev))

def mount (m : VdevMap) (devname : List Char) (mountfunc : Except Errno Nat) : Except Errno Nat × VdevMap :=
  match (m devname).filter (·.mountable) with
  | none => (.error .noDev, m)
  | some vdev =>
    if vdev.fs.isSome then
      (.error .busy, m)
    else
      match mountfunc with
      | .error e => (.error e, m)
      | .ok fs => (.ok 0, Function.update m devname (some { vdev with fs := some fs }))

/--
A file system that cannot be brought to the disk stays mounted.
-/
def release (sync unmount : Nat → Option Errno) (vdev : VfsDevT) : VfsDevT :=
  if vdev.mountable ∧ ∃ fs ∈ vdev.fs, sync fs = none ∧ unmount fs = none then { vdev with fs := none } else vdev

def unmount (m : VdevMap) (devname : List Char) (sync unmount : Nat → Option Errno) : Except Errno Nat × VdevMap :=
  match (m devname).filter (·.mountable) with
  | none => (.error .noDev, m)
  | some vdev =>
    match vdev.fs with
    | none => (.error .inval, m)
    | some fs =>
      match (sync fs).or (unmount fs) with
      | some e => (.error e, m)
      | none => (.ok 0, Function.update m devname (some { vdev with fs := none }))

def getRoot (m : VdevMap) (devname : List Char) (root : Nat → Option Nat) : Except Errno Nat :=
  match m devname with
  | none => .error .noDev
  | some vdev =>
    match vdev.fs.elim (if vdev.mountable then none else vdev.devnode) root with
    | none => .error .naDev
    | some node => .ok node

def call (m : VdevMap) : VdevCall → Except Errno Nat × VdevMap
  | .addFs devname fs strdup kmalloc =>
    m.add { devname, fs := some fs, mountable := false, devnode := none } strdup kmalloc
  | .addDev devname devnode mountable strdup kmalloc =>
    m.add { devname, fs := none, mountable, devnode := some devnode } strdup kmalloc
  | .mount devname mountfunc => m.mount devname mountfunc
  | .unmount devname sync unmount => m.unmount devname sync unmount
  | .unmountAll sync unmount => (.ok 0, fun devname => (m devname).map (release sync unmount))
  | .getRoot devname root => (m.getRoot devname root, m)

def run (m : VdevMap) : List VdevCall → List (Except Errno Nat) × VdevMap
  | [] => ([], m)
  | c :: calls => ((m.call c).1 :: ((m.call c).2.run calls).1, ((m.call c).2.run calls).2)

end VdevMap

namespace VdevList

variable {s t : VdevList} {m : VdevMap} {devs : List VfsDevT} {devname : List Char} {vdev : VfsDevT}
  {sync unmount : Nat → Option Errno}

def lookup (devs : List VfsDevT) (devname : List Char) : Option VfsDevT :=
  devs.find? fun vdev => vdev.devname = devname

/--
The list stands for the map, its semaphore is free, no memory is lost, and every file system that has been mounted has
either been unmounted or is on one device.
-/
structure Represents (s : VdevList) (m : VdevMap) : Prop where
  map : ∀ devname, lookup s.devs devname = m devname
  nodup : (s.devs.map (·.devname)).Nodup
  sem : s.sem = true
  names : s.names = s.devs.length
  entries : s.entries = s.devs.length
  devnode : ∀ vdev ∈ s.devs, vdev.mountable = true → vdev.devnode.isSome = true
  mounts : s.mounts.Perm (s.unmounts ++ mounted s.devs)

theorem devname_of_lookup (h : lookup devs devname = some vdev) : vdev.devname = devname := by
  simpa using List.find?_some h

theorem mem_of_lookup (h : lookup devs devname = some vdev) : vdev ∈ devs := List.mem_of_find?_eq_some h

theorem checkDevnameConflict_eq : checkDevnameConflict devs devname = (lookup devs devname).isNone := by
  rw [Bool.eq_iff_iff]
  simp [checkDevnameConflict, lookup]

theorem lookup_cons_of_eq (h : vdev.devname = devname) : lookup (vdev :: devs) devname = some vdev :=
  List.find?_cons_of_pos (by simpa using h)

theorem lookup_cons_of_ne (h : vdev.devname ≠ devname) : lookup (vdev :: devs) devname = lookup devs devname :=
  List.find?_cons_of_neg (by simpa using h)

/--
The name says which entry `find_mount` finds.
-/
theorem findMount_eq (h : (devs.map (·.devname)).Nodup)
    : findMount devs devname = (lookup devs devname).filter (·.mountable) := by
  induction devs with
  | nil => rfl
  | cons vdev devs ih =>
    rw [List.map_cons, List.nodup_cons] at h
    have ih := ih h.2
    by_cases hname : vdev.devname = devname
    . rw [lookup_cons_of_eq hname, Option.filter_some]
      by_cases hmount : vdev.mountable = true
      . rw [if_pos hmount]
        exact List.find?_cons_of_pos (by simp [hname, hmount])
      . have hnone : lookup devs devname = none := by
          rw [lookup, List.find?_eq_none]
          intro v hv heq
          exact h.1 (List.mem_map.mpr ⟨v, hv, (of_decide_eq_true heq).trans hname.symm⟩)
        rw [if_neg hmount]
        refine (List.find?_cons_of_neg (by simp [hmount])).trans (ih.trans ?_)
        rw [hnone]
        rfl
    . rw [lookup_cons_of_ne hname, ← ih]
      exact List.find?_cons_of_neg (by simp [hname])

theorem map_devname_setFs (fs : Option Nat)
    : (setFs devs devname fs).map (·.devname) = devs.map (·.devname) := by
  induction devs with
  | nil => rfl
  | cons vdev devs ih =>
    unfold setFs
    split
    . rfl
    . simp only [List.map_cons, ih]

theorem length_setFs (fs : Option Nat) : (setFs devs devname fs).length = devs.length := by
  rw [← List.length_map (·.devname), map_devname_setFs, List.length_map]

theorem lookup_setFs (fs : Option Nat) (name : List Char)
    : lookup (setFs devs devname fs) name =
        (lookup devs name).map fun vdev =>
          if vdev.mountable ∧ vdev.devname = devname then { vdev with fs } else vdev := by
  induction devs with
  | nil => rfl
  | cons vdev devs ih =>
    rw [setFs]
    by_cases hname : vdev.devname = name
    . rw [lookup_cons_of_eq hname, Option.map_some]
      by_cases hfound : vdev.mountable ∧ vdev.devname = devname
      . simp only [if_pos hfound]
        exact lookup_cons_of_eq hname
      . simp only [if_neg hfound]
        exact lookup_cons_of_eq hname
    . rw [lookup_cons_of_ne hname]
      by_cases hfound : vdev.mountable ∧ vdev.devname = devname
      . rw [if_pos hfound]
        refine (lookup_cons_of_ne ?_).trans ?_
        . exact hname
        cases hrest : lookup devs name with
        | none => rfl
        | some v =>
          have hv := devname_of_lookup hrest
          rw [Option.map_some, if_neg fun h => hname (hfound.2.trans (h.2.symm.trans hv))]
      . rw [if_neg hfound, lookup_cons_of_ne hname]
        exact ih

theorem devnode_setFs (fs : Option Nat) (h : ∀ vdev ∈ devs, vdev.mountable = true → vdev.devnode.isSome = true)
    : ∀ vdev ∈ setFs devs devname fs, vdev.mountable = true → vdev.devnode.isSome = true := by
  induction devs with
  | nil => exact h
  | cons vdev devs ih =>
    obtain ⟨hfirst, hrest⟩ := List.forall_mem_cons.mp h
    unfold setFs
    split
    . exact List.forall_mem_cons.mpr ⟨hfirst, hrest⟩
    . exact List.forall_mem_cons.mpr ⟨hfirst, ih hrest⟩

theorem mounted_cons (vdev : VfsDevT) (devs : List VfsDevT)
    : mounted (vdev :: devs) = (if vdev.mountable then vdev.fs.toList else []) ++ mounted devs := by
  unfold mounted
  by_cases hmount : vdev.mountable = true
  . cases hfs : vdev.fs with
    | none => simp [hmount, hfs]
    | some fs => simp [hmount, hfs]
  . simp [hmount]

/--
An assignment to the entry that is found takes one file system off its device and puts the other on it.
-/
theorem mounted_setFs (h : findMount devs devname = some vdev) (fs : Option Nat)
    : (vdev.fs.toList ++ mounted (setFs devs devname fs)).Perm (fs.toList ++ mounted devs) := by
  induction devs with
  | nil => contradiction
  | cons first devs ih =>
    unfold findMount at h ih
    unfold setFs
    rw [mounted_cons first]
    split
    next hfound =>
      rw [List.find?_cons_of_pos (by simpa using hfound)] at h
      obtain rfl := Option.some_inj.mp h
      rw [mounted_cons]
      simp only [hfound.1, if_true]
      exact List.perm_append_comm_assoc ..
    next hfound =>
      rw [List.find?_cons_of_neg (by simpa using hfound)] at h
      rw [mounted_cons]
      refine (List.perm_append_comm_assoc ..).trans (List.Perm.trans ?_ (List.perm_append_comm_assoc ..))
      exact (ih h).append_left _

/--
What `vfs_unmount_all` does is done to each device on its own.
-/
theorem unmountAllLoop_spec (unmounts : List Nat)
    : (unmountAllLoop sync unmount devs unmounts).1 = devs.map (VdevMap.release sync unmount) ∧
        ((unmountAllLoop sync unmount devs unmounts).2 ++ mounted (devs.map (VdevMap.release sync unmount))).Perm
          (unmounts ++ mounted devs) := by
  induction devs generalizing unmounts with
  | nil => exact ⟨rfl, List.Perm.refl _⟩
  | cons vdev devs ih =>
    unfold unmountAllLoop
    rw [List.map_cons, mounted_cons, mounted_cons]
    cases hfs : vdev.fs with
    | none =>
      have hrelease : VdevMap.release sync unmount vdev = vdev := by
        simp [VdevMap.release, hfs]
      obtain ⟨hdevs, hperm⟩ := ih unmounts
      simp only [hrelease, hdevs, hfs]
      refine ⟨trivial, ?_⟩
      simpa using hperm
    | some fs =>
      by_cases hgone : vdev.mountable ∧ sync fs = none ∧ unmount fs = none
      . have hrelease : VdevMap.release sync unmount vdev = { vdev with fs := none } := by
          simp [VdevMap.release, hfs, hgone]
        obtain ⟨hdevs, hperm⟩ := ih (fs :: unmounts)
        simp only [if_pos hgone]
        simp only [hrelease, hdevs, hgone.1, if_true, Option.toList_none, Option.toList_some, List.nil_append,
          List.singleton_append]
        exact ⟨trivial, hperm.trans List.perm_middle.symm⟩
      . have hrelease : VdevMap.release sync unmount vdev = vdev := by
          simp only [VdevMap.release, hfs, Option.mem_some_iff, exists_eq_left', if_neg hgone]
        obtain ⟨hdevs, hperm⟩ := ih unmounts
        simp only [if_neg hgone, hrelease, hdevs, hfs]
        refine ⟨trivial, ?_⟩
        refine (List.perm_append_comm_assoc ..).trans (List.Perm.trans ?_ (List.perm_append_comm_assoc ..))
        exact hperm.append_left _

theorem Represents.vfsDoAdd (h : s.Represents m) (vdev : VfsDevT) (strdup kmalloc : Bool)
    (hdevnode : vdev.mountable = true → vdev.devnode.isSome = true) (hfs : vdev.mountable = true → vdev.fs = none)
    : ∃ t, s.vfsDoAdd vdev.devname vdev.devnode vdev.fs vdev.mountable strdup kmalloc =
          some ((m.add vdev strdup kmalloc).1, t) ∧
        t.Represents (m.add vdev strdup kmalloc).2 := by
  unfold VdevList.vfsDoAdd VdevMap.add
  by_cases hlen : vdev.devname.length > fsMaxDnameLen
  . simp only [if_pos hlen]
    exact ⟨s, rfl, h⟩
  simp only [if_neg hlen]
  cases strdup with
  | false => exact ⟨s, rfl, h⟩
  | true =>
    cases kmalloc with
    | false => exact ⟨_, rfl, { h with names := h.names }⟩
    | true =>
      simp only [Bool.not_true, Bool.or_self, Bool.false_eq_true, if_false, lockVdevList, h.sem, if_true,
        Option.bind_eq_bind, Option.bind_some, checkDevnameConflict_eq, h.map, Option.pure_def]
      cases hname : m vdev.devname with
      | some v =>
        exact ⟨_, rfl, { h with sem := rfl, names := h.names, entries := h.entries }⟩
      | none =>
        simp only [Option.isNone_none, Option.isSome_none, Bool.not_true, Bool.false_eq_true, if_false]
        refine ⟨_, rfl, ⟨fun devname => ?_, ?_, rfl, ?_, ?_, ?_, ?_⟩⟩
        . by_cases hsame : devname = vdev.devname
          . subst hsame
            rw [Function.update_self]
            exact lookup_cons_of_eq rfl
          . rw [Function.update_of_ne hsame, ← h.map]
            exact lookup_cons_of_ne (Ne.symm hsame)
        . refine List.nodup_cons.mpr ⟨fun hmem => ?_, h.nodup⟩
          obtain ⟨v, hv, heq⟩ := List.mem_map.mp hmem
          have hlookup := h.map vdev.devname
          rw [hname, lookup, List.find?_eq_none] at hlookup
          exact hlookup v hv (decide_eq_true heq)
        . simp only [unlockVdevList, h.names, List.length_cons]
        . simp only [unlockVdevList, h.entries, List.length_cons]
        . exact List.forall_mem_cons.mpr ⟨hdevnode, h.devnode⟩
        . simp only [unlockVdevList, mounted_cons]
          by_cases hmount : vdev.mountable = true
          . simpa [hmount, hfs hmount] using h.mounts
          . simpa [hmount] using h.mounts

/--
What `vfs_mount` and `vfs_unmount` find.
-/
theorem Represents.findMount (h : s.Represents m) (devname : List Char)
    : findMount s.devs devname = (m devname).filter (·.mountable) := by
  rw [findMount_eq h.nodup, h.map]

/--
An assignment to the entry that is found changes the map at one name.
-/
theorem Represents.setFs (h : s.Represents m) {vdev : VfsDevT} (hvdev : VdevList.findMount s.devs devname = some vdev)
    (fs : Option Nat) (name : List Char)
    : lookup (VdevList.setFs s.devs devname fs) name = Function.update m devname (some { vdev with fs }) name := by
  have hfound := h.findMount devname
  rw [hvdev] at hfound
  obtain ⟨hm, hmount⟩ := Option.filter_eq_some_iff.mp hfound.symm
  rw [lookup_setFs, h.map]
  by_cases hname : name = devname
  . subst hname
    have hlookup := (h.map name).trans hm
    rw [Function.update_self, hm, Option.map_some, if_pos ⟨hmount, devname_of_lookup hlookup⟩]
  . rw [Function.update_of_ne hname]
    cases hv : m name with
    | none => rfl
    | some v =>
      have hlookup := (h.map name).trans hv
      rw [Option.map_some, if_neg fun hand => hname ((devname_of_lookup hlookup).symm.trans hand.2)]

theorem Represents.vfsMount (h : s.Represents m) (devname : List Char) (mountfunc : Except Errno Nat)
    : ∃ t, s.vfsMount devname mountfunc = some ((m.mount devname mountfunc).1, t) ∧
        t.Represents (m.mount devname mountfunc).2 := by
  have hunlock : { s with sem := true } = s := by
    rw [← h.sem]
  unfold VdevList.vfsMount VdevMap.mount
  simp only [lockVdevList, h.sem, if_true, Option.bind_eq_bind, Option.bind_some, Option.pure_def, unlockVdevList,
    hunlock]
  rw [← h.findMount devname]
  cases hvdev : VdevList.findMount s.devs devname with
  | none => exact ⟨s, rfl, h⟩
  | some vdev =>
    simp only
    by_cases hbusy : vdev.fs.isSome = true
    . simp only [if_pos hbusy]
      exact ⟨s, rfl, h⟩
    simp only [if_neg hbusy]
    have hmem : vdev ∈ s.devs := List.mem_of_find?_eq_some hvdev
    have hmount : vdev.mountable = true ∧ vdev.devname = devname := by simpa using List.find?_some hvdev
    have hdevnode : ¬vdev.devnode.isNone = true := by
      rw [Option.isNone_iff_eq_none]
      exact Option.isSome_iff_ne_none.mp (h.devnode vdev hmem hmount.1)
    simp only [if_neg hdevnode]
    cases mountfunc with
    | error e => exact ⟨s, rfl, h⟩
    | ok fs =>
      refine ⟨_, rfl, ⟨h.setFs hvdev (some fs), ?_, rfl, ?_, ?_, devnode_setFs _ h.devnode, ?_⟩⟩
      . simpa only [map_devname_setFs] using h.nodup
      . simpa only [length_setFs] using h.names
      . simpa only [length_setFs] using h.entries
      . have hfs : vdev.fs = none := by simpa using hbusy
        have hperm := mounted_setFs hvdev (some fs)
        rw [hfs, Option.toList_none, Option.toList_some, List.nil_append, List.singleton_append] at hperm
        exact (h.mounts.cons fs).trans (List.perm_middle.symm.trans (hperm.symm.append_left _))

theorem Represents.vfsUnmount (h : s.Represents m) (devname : List Char) (sync unmount : Nat → Option Errno)
    : ∃ t, s.vfsUnmount devname sync unmount = some ((m.unmount devname sync unmount).1, t) ∧
        t.Represents (m.unmount devname sync unmount).2 := by
  have hunlock : { s with sem := true } = s := by
    rw [← h.sem]
  unfold VdevList.vfsUnmount VdevMap.unmount
  simp only [lockVdevList, h.sem, if_true, Option.bind_eq_bind, Option.bind_some, Option.pure_def, unlockVdevList,
    hunlock]
  rw [← h.findMount devname]
  cases hvdev : VdevList.findMount s.devs devname with
  | none => exact ⟨s, rfl, h⟩
  | some vdev =>
    simp only
    cases hfs : vdev.fs with
    | none => exact ⟨s, rfl, h⟩
    | some fs =>
      simp only
      cases hsync : sync fs with
      | some e => exact ⟨s, rfl, h⟩
      | none =>
        cases hunmount : unmount fs with
        | some e => exact ⟨s, rfl, h⟩
        | none =>
          refine ⟨_, rfl, ⟨h.setFs hvdev none, ?_, rfl, ?_, ?_, devnode_setFs _ h.devnode, ?_⟩⟩
          . simpa only [map_devname_setFs] using h.nodup
          . simpa only [length_setFs] using h.names
          . simpa only [length_setFs] using h.entries
          . have hperm := mounted_setFs hvdev none
            rw [hfs, Option.toList_none, Option.toList_some, List.nil_append, List.singleton_append] at hperm
            exact h.mounts.trans ((hperm.symm.append_left _).trans List.perm_middle)

theorem release_devname (vdev : VfsDevT) : (VdevMap.release sync unmount vdev).devname = vdev.devname := by
  unfold VdevMap.release
  split
  . rfl
  . rfl

theorem release_devnode (vdev : VfsDevT)
    : (VdevMap.release sync unmount vdev).mountable = vdev.mountable ∧
        (VdevMap.release sync unmount vdev).devnode = vdev.devnode := by
  unfold VdevMap.release
  split
  . exact ⟨rfl, rfl⟩
  . exact ⟨rfl, rfl⟩

theorem Represents.vfsUnmountAll (h : s.Represents m) (sync unmount : Nat → Option Errno)
    : ∃ t, s.vfsUnmountAll sync unmount = some (.ok 0, t) ∧
        t.Represents fun devname => (m devname).map (VdevMap.release sync unmount) := by
  unfold VdevList.vfsUnmountAll
  by_cases hempty : s.devs.isEmpty = true
  . rw [if_pos hempty]
    refine ⟨s, rfl, { h with map := fun devname => ?_ }⟩
    rw [← h.map, List.isEmpty_iff.mp hempty]
    rfl
  rw [if_neg hempty]
  obtain ⟨hdevs, hperm⟩ := @unmountAllLoop_spec s.devs sync unmount s.unmounts
  simp only [lockVdevList, h.sem, if_true, Option.bind_eq_bind, Option.bind_some, Option.pure_def, unlockVdevList,
    hdevs]
  refine ⟨_, rfl, ⟨fun devname => ?_, ?_, rfl, ?_, ?_, ?_, h.mounts.trans hperm.symm⟩⟩
  . rw [← h.map, lookup, lookup, List.find?_map]
    simp only [Function.comp_def, release_devname]
  . rw [List.map_map]
    simpa only [Function.comp_def, release_devname] using h.nodup
  . simpa only [List.length_map] using h.names
  . simpa only [List.length_map] using h.entries
  . intro v hv hmount
    obtain ⟨w, hw, rfl⟩ := List.mem_map.mp hv
    obtain ⟨hmountable, hdevnode⟩ := @release_devnode sync unmount w
    rw [hdevnode]
    exact h.devnode w hw (hmountable ▸ hmount)

theorem Represents.vfsGetRoot (h : s.Represents m) (devname : List Char) (root : Nat → Option Nat)
    : s.vfsGetRoot devname root = some (m.getRoot devname root, s) := by
  have hunlock : { s with sem := true } = s := by
    rw [← h.sem]
  unfold VdevList.vfsGetRoot VdevMap.getRoot
  rw [← h.map]
  by_cases hempty : s.devs.isEmpty = true
  . rw [if_pos hempty, List.isEmpty_iff.mp hempty]
    rfl
  rw [if_neg hempty]
  simp only [lockVdevList, h.sem, if_true, Option.bind_eq_bind, Option.bind_some, Option.pure_def, unlockVdevList,
    hunlock, lookup]
  cases s.devs.find? fun vdev => decide (vdev.devname = devname) with
  | none => rfl
  | some vdev =>
    simp only
    cases vdev.fs with
    | some fs =>
      simp only [Option.elim_some]
      cases root fs with
      | none => rfl
      | some node => rfl
    | none =>
      simp only [Option.elim_none]
      cases vdev.mountable with
      | true => rfl
      | false =>
        cases vdev.devnode with
        | none => rfl
        | some node => rfl

/--
Each call does to the list what it does to the map.
-/
theorem Represents.call (h : s.Represents m) (c : VdevCall)
    : ∃ t, s.call c = some ((m.call c).1, t) ∧ t.Represents (m.call c).2 := by
  cases c with
  | addFs devname fs strdup kmalloc =>
    exact h.vfsDoAdd { devname, fs := some fs, mountable := false, devnode := none } strdup kmalloc (by simp) (by simp)
  | addDev devname devnode mountable strdup kmalloc =>
    exact h.vfsDoAdd { devname, fs := none, mountable, devnode := some devnode } strdup kmalloc (fun _ => rfl)
      fun _ => rfl
  | mount devname mountfunc => exact h.vfsMount devname mountfunc
  | unmount devname sync unmount => exact h.vfsUnmount devname sync unmount
  | unmountAll sync unmount => exact h.vfsUnmountAll sync unmount
  | getRoot devname root => exact ⟨s, h.vfsGetRoot devname root, h⟩

theorem init_represents : init.Represents fun _ => none := by
  constructor
  . exact fun _ => rfl
  . exact List.nodup_nil
  . rfl
  . rfl
  . rfl
  . exact fun _ h => absurd h List.not_mem_nil
  . exact List.Perm.refl _

theorem Represents.run (h : s.Represents m) (calls : List VdevCall)
    : ∃ t, s.run calls = some ((m.run calls).1, t) ∧ t.Represents (m.run calls).2 := by
  induction calls generalizing s m with
  | nil => exact ⟨s, rfl, h⟩
  | cons c calls ih =>
    obtain ⟨t, hcall, ht⟩ := h.call c
    obtain ⟨u, hrun, hu⟩ := ih ht
    refine ⟨u, ?_, hu⟩
    rw [VdevList.run, hcall, Option.bind_some, hrun]
    rfl

/--
From the empty list on, calls in any order return what they return for the map, no call finds the semaphore taken and
no assertion fails.
-/
theorem vdev_list_refines (calls : List VdevCall)
    : ∃ t, init.run calls = some ((VdevMap.run (fun _ => none) calls).1, t) ∧
        t.Represents (VdevMap.run (fun _ => none) calls).2 :=
  init_represents.run calls

end VdevList
end Ucore
