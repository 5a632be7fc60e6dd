import Ucore.Kern.Mm.Pmm.Lemmas
import Ucore.Kern.Process.LoadIcode.Impl
import Ucore.Lib.Related

/-!
This module shows that `load_icode` does not depend on what is in the frames: page tables, errors and
panics are the same whatever they hold.
-/

namespace Ucore

namespace Paging

variable {ι : Type} [DecidableEq ι] {pmm : PmmManager} {s t : Paging ι} {i : ι} {la page : Nat} {pte : Pte}
  {perm : BitVec 10} {d : Nat → PageData}

/--
The same page tables with other contents of the frames.
-/
def withData (s : Paging ι) (d : Nat → PageData) : Paging ι := { s with data := d }

omit [DecidableEq ι] in
theorem allocPage_withData
    : (s.withData d).allocPage pmm = (s.allocPage pmm).map fun r => (r.1, r.2.withData d) := by
  simp only [allocPage, Option.map_map]
  rfl

theorem createPageDir_withData
    : (s.withData d).createPageDir pmm i la =
        ((s.createPageDir pmm i la).1, (s.createPageDir pmm i la).2.withData d) := by
  unfold createPageDir
  rw [allocPage_withData]
  cases hdir : s.pgdirs i (pdx1 la) with
  | some pd => simp [withData, hdir]
  | none =>
    cases halloc : s.allocPage pmm with
    | none => simp [withData, hdir]
    | some r => simp [withData, hdir, setPageRef, setPgdir]

theorem createPageTable_withData
    : (s.withData d).createPageTable pmm i la =
        ((s.createPageTable pmm i la).1, (s.createPageTable pmm i la).2.withData d) := by
  unfold createPageTable
  rw [allocPage_withData]
  cases hdir : s.pgdirs i (pdx1 la) with
  | none => simp [withData, hdir]
  | some pd =>
    cases htable : pd.tables (pdx0 la) with
    | some pt => simp [withData, hdir, htable]
    | none =>
      cases halloc : s.allocPage pmm with
      | none => simp [withData, hdir, htable]
      | some r => simp [withData, hdir, htable, setPageRef, setPgdir]

theorem getPteCreate_withData
    : (s.withData d).getPteCreate pmm i la =
        ((s.getPteCreate pmm i la).1, (s.getPteCreate pmm i la).2.withData d) := by
  unfold getPteCreate
  rw [createPageDir_withData]
  rcases s.createPageDir pmm i la with ⟨_ | _, t⟩
  . rfl
  . simp only [createPageTable_withData]
    rcases t.createPageTable pmm i la with ⟨_ | _, u⟩ <;> rfl

theorem pageRemovePte_withData
    : (s.withData d).pageRemovePte i la pte = (s.pageRemovePte i la pte).withData d := by
  unfold pageRemovePte
  split
  . have hdec : (s.withData d).pageRefDec pte.ppn = (s.pageRefDec pte.ppn).withData d := rfl
    have href : ((s.pageRefDec pte.ppn).withData d).ref = (s.pageRefDec pte.ppn).ref := rfl
    simp only [hdec, href]
    split <;> rfl
  . rfl

theorem pageInsert_withData
    : (s.withData d).pageInsert pmm i page la perm =
        ((s.pageInsert pmm i page la perm).1, (s.pageInsert pmm i page la perm).2.withData d) := by
  unfold pageInsert
  rw [getPteCreate_withData]
  rcases s.getPteCreate pmm i la with ⟨_ | pte, t⟩
  . rfl
  . have hinc : (t.withData d).pageRefInc page = (t.pageRefInc page).withData d := rfl
    simp only [hinc, pageRemovePte_withData]
    split
    . split <;> rfl
    . rfl

theorem pgdirAllocPage_withData
    : (s.withData d).pgdirAllocPage pmm i la perm =
        ((s.pgdirAllocPage pmm i la perm).1, (s.pgdirAllocPage pmm i la perm).2.withData d) := by
  unfold pgdirAllocPage
  rw [allocPage_withData]
  rcases s.allocPage pmm with _ | ⟨page, t⟩
  . rfl
  . simp only [Option.map_some, pageInsert_withData]
    split <;> rfl

/--
The states have the same page tables, reference counts and free frames.
-/
def SameTables (s t : Paging ι) : Prop := ∃ d, t = s.withData d

omit [DecidableEq ι] in
theorem SameTables.entries (h : SameTables s t) : t.entries = s.entries := by
  obtain ⟨d, rfl⟩ := h
  rfl

theorem SameTables.doPgfault (h : SameTables s t) (swap : Pte → Option PageData) (vmas : List Vma)
    (addr : Nat)
    : (s.doPgfault pmm swap vmas i addr = none ∧ t.doPgfault pmm swap vmas i addr = none) ∨
        ∃ ret s' t', s.doPgfault pmm swap vmas i addr = some (ret, s') ∧
          t.doPgfault pmm swap vmas i addr = some (ret, t') ∧ SameTables s' t' := by
  obtain ⟨d, rfl⟩ := h
  unfold Paging.doPgfault
  cases vmas.find? fun vma => vma.Has addr with
  | none => exact .inr ⟨_, _, _, rfl, rfl, d, rfl⟩
  | some vma =>
    simp only [getPteCreate_withData]
    generalize (if vma.vmFlags &&& Vma.vmWrite ≠ 0 then Pte.pteU ||| Pte.readWrite else Pte.pteU) = perm
    rcases s.getPteCreate pmm i (addr / pgsize * pgsize) with ⟨_ | pte, u⟩
    . exact .inr ⟨_, _, _, rfl, rfl, d, rfl⟩
    . simp only
      split
      . rw [pgdirAllocPage_withData]
        rcases u.pgdirAllocPage pmm i (addr / pgsize * pgsize) _ with ⟨_ | page, v⟩
        . exact .inr ⟨_, _, _, rfl, rfl, d, rfl⟩
        . exact .inr ⟨_, _, _, rfl, rfl, d, rfl⟩
      . rw [allocPage_withData]
        rcases u.allocPage pmm with _ | ⟨page, v⟩
        . exact .inl ⟨rfl, rfl⟩
        . simp only [Option.map_some]
          cases swap pte with
          | none => exact .inl ⟨rfl, rfl⟩
          | some content =>
            -- the page from the swap disk goes to the same frame
            have hdata : ({ v.withData d with
                data := Function.update (v.withData d).data page content } : Paging ι) =
                  ({ v with data := Function.update v.data page content } : Paging ι).withData
                    (Function.update d page content) := rfl
            simp only [hdata, pageInsert_withData]
            split
            . exact .inr ⟨_, _, _, rfl, rfl, Function.update d page content, rfl⟩
            . exact .inr ⟨_, _, _, rfl, rfl, Function.update d page content, rfl⟩

omit [DecidableEq ι] in
theorem SameTables.writeByte (h : SameTables s t) (la : Nat) (off : Fin pgsize) (byte : BitVec 8)
    : SameTables (s.writeByte i la off byte) (t.writeByte i la off byte) := by
  obtain ⟨d, rfl⟩ := h
  have hget : (s.withData d).getPte i la = s.getPte i la := rfl
  unfold Paging.writeByte
  rw [hget]
  cases s.getPte i la with
  | none => exact ⟨d, rfl⟩
  | some pte =>
    simp only
    split
    . exact ⟨_, rfl⟩
    . exact ⟨d, rfl⟩

end Paging

/--
The states differ at most in what is in the frames.
-/
structure Loading.Alike {ι : Type} (s t : Loading ι) : Prop where
  paging : Paging.SameTables s.paging t.paging
  mmapList : t.mmapList = s.mmapList
  file : t.file = s.file

namespace LoadM

variable {ι : Type} [DecidableEq ι] {env : LoadEnv} {i : ι}

open Prog (Respects respects_bind respects_get_bind respects_pure respects_throw respects_modify
  respects_assert respects_forSome respects_panic)
open Loading (Alike)

omit [DecidableEq ι] in
theorem respects_tryseek (pos : Nat) : Respects Alike (tryseek env pos : LoadM ι Unit) := by
  apply respects_get_bind
  intro s t h
  rw [h.file]
  split
  . exact respects_throw _ s t h
  . split
    . split
      . apply respects_modify _ s t h
        exact fun s t h => ⟨h.paging, h.mmapList, by rw [h.file]⟩
      . exact respects_throw _ s t h
    . exact respects_pure () s t h

omit [DecidableEq ι] in
theorem respects_loadIcodeRead (len offset : Nat)
    : Respects Alike (loadIcodeRead env len offset : LoadM ι Bytes) := by
  apply respects_bind (respects_tryseek offset)
  intro _
  apply respects_get_bind
  intro s t h
  rw [h.file]
  split
  . split
    . exact respects_throw _ s t h
    . exact respects_pure _ s t h
  . exact respects_throw _ s t h

omit [DecidableEq ι] in
theorem respects_mmMap (addr len : Nat) (vmFlags : BitVec 32)
    : Respects Alike (mmMap env addr len vmFlags : LoadM ι Unit) := by
  unfold mmMap
  extract_lets vma
  split
  . apply respects_get_bind
    intro s t h
    rw [h.mmapList]
    split
    . exact respects_throw _ s t h
    . split
      . cases Vma.insertVmaStruct s.mmapList vma with
        | some mmapList => exact ⟨rfl, h.paging, rfl, h.file⟩
        | none => exact respects_panic _ s t h
      . exact respects_throw _ s t h
  . exact respects_throw _

theorem respects_setupPgdir : Respects Alike (setupPgdir env i) := by
  apply respects_get_bind
  intro s t h
  split
  . obtain ⟨d, hd⟩ := h.paging
    rw [hd, Paging.allocPage_withData]
    cases s.paging.allocPage env.pmm with
    | none => exact respects_throw _ s t h
    | some r => exact ⟨rfl, ⟨d, rfl⟩, rfl, h.file⟩
  . exact respects_throw _ s t h

theorem respects_pgdirAllocPage (la : Nat) (perm : BitVec 10)
    : Respects Alike (pgdirAllocPage env i la perm) := by
  apply respects_get_bind
  intro s t h
  obtain ⟨d, hd⟩ := h.paging
  rw [hd, Paging.pgdirAllocPage_withData]
  rcases s.paging.pgdirAllocPage env.pmm i la perm with ⟨_ | page, paging⟩
  . exact ⟨rfl, ⟨d, rfl⟩, h.mmapList, h.file⟩
  . exact ⟨rfl, ⟨d, rfl⟩, h.mmapList, h.file⟩

omit [DecidableEq ι] in
theorem respects_writePage (page off : Nat) (src : Nat → BitVec 8) (size : Nat)
    : Respects Alike (writePage page off src size : LoadM ι Unit) := by
  apply respects_modify
  intro s t h
  obtain ⟨d, hd⟩ := h.paging
  rw [hd]
  exact ⟨⟨_, rfl⟩, h.mmapList, h.file⟩

theorem respects_loadFile (perm : BitVec 10) (stop n : Nat) (c : Cursor)
    : Respects Alike (loadFile env i perm stop n c) := by
  induction n generalizing c with
  | zero => exact respects_pure c
  | succ n ih =>
    unfold loadFile
    split
    . apply respects_bind (respects_pgdirAllocPage _ _)
      intro page
      apply respects_bind (respects_loadIcodeRead _ _)
      intro b
      exact respects_bind (respects_writePage _ _ _ _) fun _ => ih _
    . exact respects_pure c

omit [DecidableEq ι] in
theorem respects_clearTail (stop : Nat) (c : Cursor) : Respects Alike (clearTail stop c : LoadM ι Cursor) := by
  unfold clearTail
  split
  . split
    . exact respects_pure c
    . apply respects_bind (respects_assert _ _)
      intro _
      apply respects_bind (respects_forSome (fun page => respects_writePage page _ _ _) _)
      intro _
      exact respects_bind (respects_assert _ _) fun _ => respects_pure _
  . exact respects_pure c

theorem respects_clearPages (perm : BitVec 10) (stop n : Nat) (c : Cursor)
    : Respects Alike (clearPages env i perm stop n c) := by
  induction n generalizing c with
  | zero => exact respects_pure c
  | succ n ih =>
    unfold clearPages
    split
    . apply respects_bind (respects_pgdirAllocPage _ _)
      intro page
      exact respects_bind (respects_writePage _ _ _ _) fun _ => ih _
    . exact respects_pure c

theorem respects_loadProghdr (ph : ProgHdr) : Respects Alike (loadProghdr env i ph) := by
  unfold loadProghdr
  split
  . exact respects_pure ()
  . split
    . exact respects_throw _
    . split
      . exact respects_pure ()
      . apply respects_bind (respects_mmMap _ _ _)
        intro _
        apply respects_bind (respects_loadFile _ _ _ _)
        intro c
        apply respects_bind (respects_clearTail _ c)
        intro c
        exact respects_bind (respects_clearPages _ _ _ c) fun _ => respects_pure ()

theorem respects_loadProghdrs (elf : ElfHdr) (phnums : List Nat)
    : Respects Alike (loadProghdrs env i elf phnums) := by
  induction phnums with
  | nil => exact respects_pure ()
  | cons phnum rest ih =>
    apply respects_bind (respects_loadIcodeRead _ _)
    intro b
    exact respects_bind (respects_loadProghdr _) fun _ => ih

theorem respects_stackPage (la : Nat) : Respects Alike (stackPage env i la) := by
  apply respects_get_bind
  intro s t h
  obtain ⟨d, hd⟩ := h.paging
  rw [hd, Paging.pgdirAllocPage_withData]
  rcases s.paging.pgdirAllocPage env.pmm i la Pte.pteUser with ⟨_ | page, paging⟩
  . exact rfl
  . exact ⟨rfl, ⟨d, rfl⟩, h.mmapList, h.file⟩

theorem respects_buildStack : Respects Alike (buildStack env i) := by
  apply respects_bind (respects_mmMap _ _ _)
  intro _
  apply respects_bind (respects_stackPage _)
  intro _
  apply respects_bind (respects_stackPage _)
  intro _
  exact respects_bind (respects_stackPage _) fun _ => respects_stackPage _

theorem respects_storeByte (addr : Nat) (byte : BitVec 8) : Respects Alike (storeByte env i addr byte) := by
  apply respects_get_bind
  intro s t h
  have hget : t.paging.getPte i addr = s.paging.getPte i addr := by
    obtain ⟨d, hd⟩ := h.paging
    rw [hd]
    rfl
  rw [hget, h.mmapList]
  split
  . apply respects_modify _ s t h
    exact fun s t h => ⟨h.paging.writeByte addr _ byte, h.mmapList, h.file⟩
  . rcases h.paging.doPgfault env.swap s.mmapList addr with ⟨hs, ht⟩ | ⟨ret, s', t', hs, ht, hsame⟩
    . rw [hs, ht]
      exact respects_panic _ s t h
    . rw [hs, ht]
      simp only
      split
      . exact ⟨rfl, hsame.writeByte addr _ byte, h.mmapList, h.file⟩
      . exact respects_panic _ s t h

theorem respects_storeBytes (stores : List (Nat × BitVec 8)) : Respects Alike (storeBytes env i stores) := by
  induction stores with
  | nil => exact respects_pure ()
  | cons store rest ih => exact respects_bind (respects_storeByte _ _) fun _ => ih

/--
What `load_icode` returns and which page tables it builds does not depend on the contents of any frame.
-/
theorem respects_loadIcode (args : List KArg) : Respects Alike (loadIcode env args i) := by
  apply respects_bind (respects_assert _ _)
  intro _
  apply respects_bind respects_setupPgdir
  intro _
  apply respects_bind (respects_loadIcodeRead _ _)
  intro b
  simp only
  split
  . exact respects_throw _
  . apply respects_bind (respects_loadProghdrs _ _)
    intro _
    apply respects_bind respects_buildStack
    intro _
    apply respects_bind (respects_storeBytes _)
    intro _
    exact respects_bind (respects_storeBytes _) fun _ => respects_pure _

end LoadM
end Ucore
