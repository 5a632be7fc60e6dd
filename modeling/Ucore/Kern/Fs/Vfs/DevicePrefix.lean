import Mathlib
import Ucore.Kern.Fs.Vfs.Path

/-!
This module contains what `get_device` does with a path, and for which paths a second call does the same.
-/

namespace Ucore
namespace PathBuf

variable {env : VfsEnv} {s : Vfs} {filesp : Nat} {ans : VfsAnswer} {b : PathBuf} {path text name rest : List Char}
  {start : Start} {p k fuel : Nat} {c : Char}

theorem read_of_le (h : p ≤ b.n) : b.read p = some (b.chars p) := if_pos h

theorem write_of_le (h : p ≤ b.n) : b.write p c = some { b with chars := Function.update b.chars p c } := if_pos h

/--
The loop stops at the first colon or slash.
-/
theorem findSeparator_run (h : CString.At nul b.chars p (name ++ text)) (hname : ':' ∉ name ∧ '/' ∉ name)
    (htext : ∀ c ∈ text.head?, c = ':' ∨ c = '/') (hfits : p + name.length ≤ b.n) (hfuel : name.length < fuel)
    : findSeparator fuel b p =
        some (if text.head? = some ':' then some (p + name.length) else none,
          if text.head? = some '/' then some (p + name.length) else none) := by
  induction name generalizing p fuel with
  | nil =>
    obtain ⟨fuel, rfl⟩ : ∃ k, fuel = k + 1 := ⟨fuel - 1, by omega⟩
    rw [findSeparator, read_of_le (show p ≤ b.n from hfits), Option.bind_eq_bind, Option.bind_some]
    cases text with
    | nil => exact if_pos h
    | cons c text =>
      obtain ⟨hc, hne, -⟩ := h
      rw [hc, if_neg hne]
      cases htext c rfl with
      | inl hcolon =>
        subst hcolon
        rfl
      | inr hslash =>
        subst hslash
        rfl
  | cons c name ih =>
    obtain ⟨fuel, rfl⟩ : ∃ k, fuel = k + 1 := ⟨fuel - 1, by omega⟩
    obtain ⟨hc, hne, hrest⟩ := h
    rw [List.length_cons] at hfits hfuel
    rw [List.mem_cons, List.mem_cons, not_or, not_or] at hname
    obtain ⟨⟨hcolon, hcolons⟩, hslash, hslashes⟩ := hname
    rw [findSeparator, read_of_le (by omega), Option.bind_eq_bind, Option.bind_some, hc, if_neg hne,
      if_neg (Ne.symm hcolon), if_neg (Ne.symm hslash), ih hrest ⟨hcolons, hslashes⟩ (by omega) (by omega),
      List.length_cons, Nat.add_right_comm, Nat.add_assoc]

theorem skipSlashes_run (h : CString.At nul b.chars p (List.replicate k '/' ++ rest)) (hrest : rest.head? ≠ some '/')
    (hfits : p + k ≤ b.n) (hfuel : k < fuel)
    : skipSlashes fuel b p = some (p + k) := by
  induction k generalizing p fuel with
  | zero =>
    obtain ⟨fuel, rfl⟩ : ∃ k, fuel = k + 1 := ⟨fuel - 1, by omega⟩
    have hslash : b.chars p ≠ '/' := by
      cases rest with
      | nil =>
        intro hslash
        exact absurd (h.symm.trans hslash) (by decide)
      | cons c rest =>
        rw [h.1]
        exact fun hslash => hrest (congrArg some hslash)
    rw [skipSlashes, read_of_le (show p ≤ b.n from hfits), Option.bind_eq_bind, Option.bind_some, if_neg hslash]
    rfl
  | succ k ih =>
    obtain ⟨fuel, rfl⟩ : ∃ k, fuel = k + 1 := ⟨fuel - 1, by omega⟩
    obtain ⟨hc, -, hnext⟩ := h
    rw [skipSlashes, read_of_le (by omega), Option.bind_eq_bind, Option.bind_some, if_pos hc,
      ih hnext (by omega) (by omega), Nat.add_right_comm, Nat.add_assoc]

theorem string_run (h : CString.At nul b.chars p text) (hfits : p + text.length ≤ b.n) (hfuel : text.length < fuel)
    : string fuel b p = some text := by
  induction text generalizing p fuel with
  | nil =>
    obtain ⟨fuel, rfl⟩ : ∃ k, fuel = k + 1 := ⟨fuel - 1, by omega⟩
    have hnul : b.chars p = nul := h
    rw [string, read_of_le (show p ≤ b.n from hfits), Option.bind_eq_bind, Option.bind_some, if_pos hnul]
    rfl
  | cons c text ih =>
    obtain ⟨fuel, rfl⟩ : ∃ k, fuel = k + 1 := ⟨fuel - 1, by omega⟩
    obtain ⟨hc, hne, hrest⟩ := h
    rw [List.length_cons] at hfits hfuel
    rw [string, read_of_le (by omega), Option.bind_eq_bind, Option.bind_some, hc, if_neg hne,
      ih hrest (by omega) (by omega)]
    rfl

/--
What looks up the inode for a start.
-/
def startProg (env : VfsEnv) (filesp : Nat) (ans : VfsAnswer) : Start → VfsProg Nat
  | .curdir => Vfs.vfsGetCurdir filesp
  | .device devname => Vfs.vfsGetRoot env devname ans
  | .bootfs => Vfs.vfsGetBootfs
  | .curfs => Vfs.getCurfs env filesp ans

/--
The text that is in the buffer afterwards.
-/
def Start.again (start : Start) (path : List Char) : List Char :=
  match start with
  | .device devname => devname
  | _ => path

/--
A call of `get_device` for a path that is in the buffer.
-/
def Parses (env : VfsEnv) (filesp : Nat) (ans : VfsAnswer) (b : PathBuf) (path : List Char) (start : Start)
    (rest : List Char) : Prop :=
  ∃ b' p, getDevice env filesp b ans =
      some (b', startProg env filesp ans start >>= fun node => pure (p, node)) ∧
    b'.n = b.n ∧ CString.At nul b'.chars p rest ∧ CString.At nul b'.chars 0 (start.again path)

theorem exists_name (path : List Char)
    : ∃ name text, path = name ++ text ∧ (':' ∉ name ∧ '/' ∉ name) ∧ ∀ c ∈ text.head?, c = ':' ∨ c = '/' := by
  induction path with
  | nil => exact ⟨[], [], rfl, by simp, by simp⟩
  | cons c path ih =>
    by_cases hc : c = ':' ∨ c = '/'
    . exact ⟨[], c :: path, rfl, by simp, by simpa using hc⟩
    . obtain ⟨name, text, hpath, hname, htext⟩ := ih
      rw [not_or] at hc
      refine ⟨c :: name, text, by rw [hpath, List.cons_append], ?_, htext⟩
      simp [hname, Ne.symm hc.1, Ne.symm hc.2]

theorem parses_relative (h : CString.At nul b.chars 0 path) (hfits : path.length ≤ b.n)
    (hcolon : ∀ name rest, path = name ++ ':' :: rest → '/' ∈ name) (hslash : path.head? ≠ some '/')
    : Parses env filesp ans b path .curdir path := by
  obtain ⟨name, text, rfl, hname, htext⟩ := exists_name path
  rw [List.length_append] at hfits
  have hrun : findSeparator (b.n + 1) b 0 = _ := findSeparator_run h hname htext (by omega) (by omega)
  have htext : text.head? ≠ some ':' := by
    intro hhead
    obtain ⟨rest, rfl⟩ := List.head?_eq_some_iff.mp hhead
    exact hname.2 (hcolon name rest rfl)
  rw [if_neg htext] at hrun
  have hzero : (if text.head? = some '/' then some (0 + name.length) else none) ≠ some 0 := by
    split
    next hhead =>
      obtain ⟨rest, rfl⟩ := List.head?_eq_some_iff.mp hhead
      cases name with
      | nil => exact absurd rfl hslash
      | cons c name => simp
    next => exact nofun
  refine ⟨b, 0, ?_, rfl, h, h⟩
  rw [getDevice, hrun, Option.bind_eq_bind, Option.bind_some]
  exact if_pos ⟨rfl, hzero⟩

theorem parses_device
    (h : CString.At nul b.chars 0 (name ++ ':' :: (List.replicate k '/' ++ rest)))
    (hfits : (name ++ ':' :: (List.replicate k '/' ++ rest)).length ≤ b.n) (hne : name ≠ [])
    (hname : ':' ∉ name ∧ '/' ∉ name) (hrest : rest.head? ≠ some '/')
    : Parses env filesp ans b (name ++ ':' :: (List.replicate k '/' ++ rest)) (.device name) rest := by
  rw [List.length_append, List.length_cons, List.length_append, List.length_replicate] at hfits
  have hrun : findSeparator (b.n + 1) b 0 = _ := findSeparator_run h hname (by simp) (by omega) (by omega)
  obtain ⟨colon, hcolon⟩ : ∃ colon, name.length = colon + 1 := ⟨name.length - 1, by
    have := List.length_pos_iff.mpr hne
    omega⟩
  have hcut : CString.At nul (Function.update b.chars (colon + 1) nul) 0 name := by
    refine h.cut (fun i _ hi => Function.update_of_ne (by omega) ..) ?_
    rw [hcolon, Nat.zero_add]
    exact Function.update_self ..
  have hbehind :
      CString.At nul (Function.update b.chars (colon + 1) nul) (colon + 2) (List.replicate k '/' ++ rest) := by
    have hnext : CString.At nul b.chars (0 + name.length + 1) (List.replicate k '/' ++ rest) := h.behind.2.2
    rw [hcolon, Nat.zero_add] at hnext
    exact hnext.congr fun i hi _ => Function.update_of_ne (by omega) ..
  have hskip : skipSlashes (b.n + 1) ⟨b.n, Function.update b.chars (colon + 1) nul⟩ (colon + 2) = _ :=
    skipSlashes_run hbehind hrest (by simp only; omega) (by omega)
  have hstring : string (b.n + 1) ⟨b.n, Function.update b.chars (colon + 1) nul⟩ 0 = _ :=
    string_run hcut (by simp only; omega) (by omega)
  refine ⟨⟨b.n, Function.update b.chars (colon + 1) nul⟩, colon + 2 + k, ?_, rfl, ?_, hcut⟩
  . rw [getDevice, hrun, List.head?_cons, if_pos rfl, Nat.zero_add, hcolon]
    simp only [Option.bind_eq_bind, Option.bind_some, reduceCtorEq, false_and, if_false,
      write_of_le (show colon + 1 ≤ b.n by omega), hskip, hstring]
    rfl
  . have hbehind := hbehind.behind
    rwa [List.length_replicate] at hbehind

/--
A prefix of one character.
-/
theorem skip_char (h : CString.At nul b.chars 0 (c :: (List.replicate k '/' ++ rest)))
    (hfits : (c :: (List.replicate k '/' ++ rest)).length ≤ b.n) (hrest : rest.head? ≠ some '/')
    : b.read 0 = some c ∧ skipSlashes (b.n + 1) b 1 = some (1 + k) ∧ CString.At nul b.chars (1 + k) rest := by
  rw [List.length_cons, List.length_append, List.length_replicate] at hfits
  obtain ⟨hc, -, hnext⟩ := h
  refine ⟨hc ▸ read_of_le (Nat.zero_le _), skipSlashes_run hnext hrest (by omega) (by omega), ?_⟩
  have hbehind := hnext.behind
  rwa [List.length_replicate, Nat.zero_add] at hbehind

theorem parses_bootfs (h : CString.At nul b.chars 0 ('/' :: (List.replicate k '/' ++ rest)))
    (hfits : ('/' :: (List.replicate k '/' ++ rest)).length ≤ b.n) (hrest : rest.head? ≠ some '/')
    : Parses env filesp ans b ('/' :: (List.replicate k '/' ++ rest)) .bootfs rest := by
  have hrun := @findSeparator_run b _ [] 0 _ h (by simp) (by simp) (Nat.zero_le _) (Nat.succ_pos b.n)
  obtain ⟨hread, hskip, hbehind⟩ := skip_char h hfits hrest
  refine ⟨b, 1 + k, ?_, rfl, hbehind, h⟩
  rw [getDevice, hrun, hread, hskip]
  rfl

theorem parses_curfs (h : CString.At nul b.chars 0 (':' :: (List.replicate k '/' ++ rest)))
    (hfits : (':' :: (List.replicate k '/' ++ rest)).length ≤ b.n) (hrest : rest.head? ≠ some '/')
    : Parses env filesp ans b (':' :: (List.replicate k '/' ++ rest)) .curfs rest := by
  have hrun := @findSeparator_run b _ [] 0 _ h (by simp) (by simp) (Nat.zero_le _) (Nat.succ_pos b.n)
  obtain ⟨hread, hskip, hbehind⟩ := skip_char h hfits hrest
  refine ⟨b, 1 + k, ?_, rfl, hbehind, h⟩
  rw [getDevice, hrun, hread, hskip]
  rfl

theorem Split.parses (hsplit : Split path start rest) (h : CString.At nul b.chars 0 path) (hfits : path.length ≤ b.n)
    : Parses env filesp ans b path start rest := by
  cases hsplit with
  | relative _ hcolon hslash => exact parses_relative h hfits hcolon hslash
  | device name k rest hne hname hrest => exact parses_device h hfits hne hname hrest
  | bootfs k rest hrest => exact parses_bootfs h hfits hrest
  | curfs k rest hrest => exact parses_curfs h hfits hrest

/--
A colon behind a slash.
-/
theorem slash_mem_of_append_eq {name' rest' : List Char} (hname : ':' ∉ name)
    (h : name ++ '/' :: rest = name' ++ ':' :: rest')
    : '/' ∈ name' := by
  induction name generalizing name' with
  | nil =>
    cases name' with
    | nil => exact nomatch h
    | cons c name' => exact (List.cons.inj h).1 ▸ List.mem_cons_self ..
  | cons d name ih =>
    rw [List.mem_cons, not_or] at hname
    cases name' with
    | nil => exact absurd (List.cons.inj h).1.symm hname.1
    | cons c name' => exact List.mem_cons_of_mem _ (ih hname.2 (List.cons.inj h).2)

theorem exists_split (path : List Char) : ∃ start rest, Split path start rest := by
  obtain ⟨name, text, rfl, hname, htext⟩ := exists_name path
  have hslashes : ∀ text : List Char, ∃ k rest, text = List.replicate k '/' ++ rest ∧ rest.head? ≠ some '/' := by
    intro text
    induction text with
    | nil => exact ⟨0, [], rfl, nofun⟩
    | cons c text ih =>
      by_cases hc : c = '/'
      . obtain ⟨k, rest, rfl, hrest⟩ := ih
        exact ⟨k + 1, rest, by rw [hc, List.replicate_succ, List.cons_append], hrest⟩
      . exact ⟨0, c :: text, rfl, by simpa using hc⟩
  cases text with
  | nil =>
    refine ⟨.curdir, _, Split.relative _ ?_ ?_⟩
    . intro name' rest heq
      rw [List.append_nil] at heq
      exact absurd (heq ▸ List.mem_append_right _ (List.mem_cons_self ..)) hname.1
    . intro hhead
      exact hname.2 (List.mem_of_mem_head? (by rwa [List.append_nil] at hhead))
  | cons c text =>
    obtain ⟨k, rest, rfl, hrest⟩ := hslashes text
    obtain rfl | rfl := htext c rfl
    . cases name with
      | nil => exact ⟨.curfs, rest, Split.curfs k rest hrest⟩
      | cons d name => exact ⟨.device (d :: name), rest, Split.device _ k rest (List.cons_ne_nil d name) hname hrest⟩
    . cases name with
      | nil => exact ⟨.bootfs, rest, Split.bootfs k rest hrest⟩
      | cons d name =>
        refine ⟨.curdir, _, Split.relative _ ?_ ?_⟩
        . exact fun name' rest' heq => slash_mem_of_append_eq hname.1 heq
        . simp only [List.cons_append, List.head?_cons, ne_eq, Option.some_inj]
          rintro rfl
          exact hname.2 (List.mem_cons_self ..)

section Lists

theorem span_name (hname : ':' ∉ name ∧ '/' ∉ name) (htext : ∀ c ∈ text.head?, c = ':' ∨ c = '/')
    : ((name ++ text).takeWhile fun c => c ≠ ':' ∧ c ≠ '/') = name ∧
        ((name ++ text).dropWhile fun c => c ≠ ':' ∧ c ≠ '/') = text := by
  have hpos : ∀ c ∈ name, decide (c ≠ ':' ∧ c ≠ '/') = true := by
    intro c hc
    exact decide_eq_true ⟨fun h => hname.1 (h ▸ hc), fun h => hname.2 (h ▸ hc)⟩
  rw [List.takeWhile_append_of_pos hpos, List.dropWhile_append_of_pos hpos]
  cases text with
  | nil => simp
  | cons c text =>
    have hneg : ¬decide (c ≠ ':' ∧ c ≠ '/') = true := by
      obtain rfl | rfl := htext c rfl <;> decide
    rw [List.takeWhile_cons, List.dropWhile_cons, if_neg hneg, if_neg hneg, List.append_nil]
    exact ⟨rfl, rfl⟩

theorem dropWhile_slashes (hrest : rest.head? ≠ some '/')
    : (List.replicate k '/' ++ rest).dropWhile (· = '/') = rest := by
  rw [List.dropWhile_append_of_pos fun c hc => decide_eq_true (List.eq_of_mem_replicate hc)]
  cases rest with
  | nil => rfl
  | cons c rest => exact List.dropWhile_cons_of_neg (by simpa using hrest)

/--
The function on lists splits a path in the same way.
-/
theorem Split.getDevice_eq (h : Split path start rest)
    : Vfs.getDevice env filesp path ans = startProg env filesp ans start >>= fun node => pure (rest, node) := by
  cases h with
  | relative _ hcolon hslash =>
    obtain ⟨name, text, rfl, hname, htext⟩ := exists_name path
    obtain ⟨htake, hdrop⟩ := span_name hname htext
    have hguard : text.head? ≠ some ':' ∧ ¬(text.head? = some '/' ∧ name = []) := by
      constructor
      . intro hhead
        obtain ⟨rest, rfl⟩ := List.head?_eq_some_iff.mp hhead
        exact hname.2 (hcolon name rest rfl)
      . rintro ⟨hhead, rfl⟩
        exact hslash hhead
    rw [Vfs.getDevice]
    simp only [htake, hdrop]
    rw [if_pos hguard]
    rfl
  | device name k rest hne hname hrest =>
    obtain ⟨htake, hdrop⟩ := span_name hname (show ∀ c ∈ (':' :: (List.replicate k '/' ++ rest)).head?, _ by simp)
    rw [Vfs.getDevice]
    simp only [htake, hdrop]
    rw [if_neg (by simp), if_pos hne, List.tail_cons, dropWhile_slashes hrest]
    rfl
  | bootfs k rest hrest =>
    obtain ⟨htake, hdrop⟩ := @span_name ('/' :: (List.replicate k '/' ++ rest)) [] (by simp) (by simp)
    rw [Vfs.getDevice]
    simp only [List.nil_append] at htake hdrop
    simp only [htake, hdrop]
    rw [if_neg (by simp), if_neg (by simp), List.head?_cons, if_pos rfl, List.tail_cons, dropWhile_slashes hrest]
    rfl
  | curfs k rest hrest =>
    obtain ⟨htake, hdrop⟩ := @span_name (':' :: (List.replicate k '/' ++ rest)) [] (by simp) (by simp)
    rw [Vfs.getDevice]
    simp only [List.nil_append] at htake hdrop
    simp only [htake, hdrop]
    rw [if_neg (by simp), if_neg (by simp), if_neg (by simp), List.tail_cons, dropWhile_slashes hrest]
    rfl

theorem Split.leftPath_eq (h : Split path start rest) : Vfs.leftPath path = start.again path := by
  cases h with
  | relative _ hcolon hslash =>
    obtain ⟨name, text, rfl, hname, htext⟩ := exists_name path
    obtain ⟨htake, hdrop⟩ := span_name hname htext
    rw [Vfs.leftPath]
    simp only [htake, hdrop]
    refine if_neg fun hhead => ?_
    obtain ⟨rest, rfl⟩ := List.head?_eq_some_iff.mp hhead.1
    exact hname.2 (hcolon name rest rfl)
  | device name k rest hne hname hrest =>
    obtain ⟨htake, hdrop⟩ := span_name hname (show ∀ c ∈ (':' :: (List.replicate k '/' ++ rest)).head?, _ by simp)
    rw [Vfs.leftPath]
    simp only [htake, hdrop]
    exact if_pos ⟨rfl, hne⟩
  | bootfs k rest hrest => rfl
  | curfs k rest hrest => rfl

end Lists

/--
The inode of a start is handed out with one reference.
-/
theorem startProg_sat (h : s.Sound env) (start : Start)
    : (startProg env filesp ans start s).Sat
        (fun node t => startNode env s filesp ans start = some (.ok node) ∧ t = s.hold node)
        (fun e t => startNode env s filesp ans start = some (.error e) ∧ t = s)
        (fun _ => startNode env s filesp ans start = none) := by
  have hroot : ∀ fs, (Vfs.fsopGetRoot env fs ans s).Sat
      (fun node t => rootNode env ans fs = some (.ok node) ∧ t = s.hold node)
      (fun e t => rootNode env ans fs = some (.error e) ∧ t = s) (fun _ => rootNode env ans fs = none) := by
    intro fs
    unfold Vfs.fsopGetRoot rootNode
    split
    . rw [Vfs.inodeRefInc_bind_run]
      exact ⟨rfl, rfl⟩
    . exact rfl
  cases start with
  | curdir =>
    simp only [startProg, Vfs.vfsGetCurdir, Prog.get_bind_run, startNode]
    cases (s.files filesp).pwd with
    | some node =>
      simp only [Vfs.inodeRefInc_bind_run]
      exact ⟨rfl, rfl⟩
    | none => exact ⟨rfl, rfl⟩
  | bootfs =>
    simp only [startProg, Vfs.vfsGetBootfs, Prog.get_bind_run, startNode]
    cases s.bootfsNode with
    | some node =>
      simp only [Vfs.inodeRefInc_bind_run]
      exact ⟨rfl, rfl⟩
    | none => exact ⟨rfl, rfl⟩
  | device devname =>
    simp only [startProg, Vfs.vfsGetRoot, startNode]
    cases env.devs.zipIdx.find? fun d => d.1.devname = devname with
    | none => exact ⟨rfl, rfl⟩
    | some found =>
      obtain ⟨dev, node⟩ := found
      simp only
      cases dev.fs with
      | some fs => exact hroot fs
      | none =>
        simp only
        split
        . exact ⟨rfl, rfl⟩
        . rw [Vfs.inodeRefInc_bind_run]
          exact ⟨rfl, rfl⟩
  | curfs =>
    simp only [startProg, Vfs.getCurfs, Vfs.vfsGetCurdir, Prog.bind_assoc_run, Prog.get_bind_run, startNode]
    cases (s.files filesp).pwd with
    | none => exact ⟨rfl, rfl⟩
    | some node =>
      simp only [Prog.bind_assoc_run, Vfs.inodeRefInc_bind_run, Prog.pure_bind_run]
      cases env.inFs node with
      | none => exact rfl
      | some fs =>
        simp only [Option.bind_some]
        unfold rootNode Vfs.fsopGetRoot
        split
        . simp only [Prog.bind_assoc_run, Vfs.inodeRefInc_bind_run, Prog.pure_bind_run]
          rw [Vfs.hold_comm, Vfs.inodeRefDec_bind_run (h.hold _)]
          exact ⟨rfl, rfl⟩
        . exact rfl

/--
A call of `get_device` succeeds or fails as the start does.
-/
theorem Parses.resolves (h : s.Sound env) (hparses : Parses env filesp ans b path start rest)
    (hstart : (startNode env s filesp ans start).isSome)
    : ∃ b', Resolves env s filesp ans b b' start rest ∧ b'.n = b.n ∧
        CString.At nul b'.chars 0 (start.again path) := by
  obtain ⟨b', p, hrun, hn, hrest, hagain⟩ := hparses
  refine ⟨b', ⟨_, hrun, ?_⟩, hn, hagain⟩
  apply Prog.sat_bind (startProg_sat h start)
  . exact fun node t ht => ⟨ht.1, ht.2, hrest⟩
  . exact fun e t ht => ht
  . intro _ hnone
    rw [hnone] at hstart
    contradiction

/--
What a resolution says about the start and the rest that the path in the buffer has.
-/
theorem Parses.of_resolves (h : s.Sound env) (hparses : Parses env filesp ans b path start rest) {b' : PathBuf}
    {start' : Start} {rest' : List Char} (hresolves : Resolves env s filesp ans b b' start' rest')
    : (b'.n = b.n ∧ CString.At nul b'.chars 0 (start.again path)) ∧ (startNode env s filesp ans start).isSome ∧
        startNode env s filesp ans start' = startNode env s filesp ans start ∧
        ∀ node, startNode env s filesp ans start = some (.ok node) → rest' = rest := by
  obtain ⟨b₁, p, hrun, hn, hrest, hagain⟩ := hparses
  obtain ⟨m, hrun', hm⟩ := hresolves
  obtain ⟨rfl, rfl⟩ := Prod.mk.inj (Option.some_inj.mp (hrun.symm.trans hrun'))
  have hsat := @startProg_sat env s filesp ans h start
  cases hout : startProg env filesp ans start s with
  | ok node t =>
    rw [hout] at hsat
    rw [Prog.bind_run_ok hout] at hm
    obtain ⟨hstart', -, hrest'⟩ := hm
    refine ⟨⟨hn, hagain⟩, by rw [hsat.1]; rfl, hstart'.trans hsat.1.symm, fun _ _ => hrest'.unique hrest⟩
  | error e t =>
    rw [hout] at hsat
    rw [Prog.bind_run_error hout] at hm
    refine ⟨⟨hn, hagain⟩, by rw [hsat.1]; rfl, hm.1.trans hsat.1.symm, fun node hnode => ?_⟩
    rw [hsat.1] at hnode
    exact nomatch hnode
  | panic q =>
    rw [Prog.bind_run_panic hout] at hm
    exact hm.elim

/--
The name of a device alone is a relative path.
-/
theorem split_name (hne : name ≠ []) (hname : ':' ∉ name ∧ '/' ∉ name) : Split name .curdir name := by
  refine Split.relative name ?_ ?_
  . intro name' rest heq
    exact absurd (heq ▸ List.mem_append_right _ (List.mem_cons_self ..)) hname.1
  . exact fun hhead => hname.2 (List.mem_of_mem_head? hhead)

/--
No device answers that there is no current directory.
-/
theorem device_ne_noent : startNode env s filesp ans (.device name) ≠ some (.error .noent) := by
  simp only [startNode]
  cases env.devs.zipIdx.find? fun d => d.1.devname = name with
  | none => simp
  | some found =>
    obtain ⟨dev, node⟩ := found
    simp only
    cases dev.fs with
    | some fs =>
      simp only [rootNode]
      split <;> simp
    | none =>
      simp only
      split <;> simp

theorem ofPath_at (hpath : nul ∉ path) : CString.At nul (ofPath path).chars 0 path := CString.at_getD [] path hpath

theorem repeatable_of_resolvesTwice (h : s.Sound env) (hpath : nul ∉ path)
    (htwice : ResolvesTwice env s filesp ans path)
    : Repeatable env s filesp ans path ∧ (path.head? = some ':' → (startNode env s filesp ans .curfs).isSome) := by
  obtain ⟨start, rest, b', b'', hsplit, hfirst, hsecond⟩ := htwice
  obtain ⟨⟨hn, hagain⟩, hsome, -, -⟩ := (hsplit.parses (ofPath_at hpath) (Nat.le_refl _)).of_resolves h hfirst
  cases hsplit with
  | relative _ hcolon hslash =>
    refine ⟨Or.inl fun name rest heq => Or.inr (Or.inr (hcolon name rest heq)), fun hhead => ?_⟩
    obtain ⟨rest, rfl⟩ := List.head?_eq_some_iff.mp hhead
    exact nomatch hcolon [] rest rfl
  | bootfs k rest hrest =>
    refine ⟨Or.inl fun name rest' heq => ?_, by simp⟩
    cases name with
    | nil => exact Or.inl rfl
    | cons c name => exact Or.inr (Or.inr ((List.cons.inj heq).1 ▸ List.mem_cons_self ..))
  | curfs k rest hrest =>
    refine ⟨Or.inl fun name rest' heq => ?_, fun _ => hsome⟩
    cases name with
    | nil => exact Or.inl rfl
    | cons c name => exact Or.inr (Or.inl ((List.cons.inj heq).1 ▸ List.mem_cons_self ..))
  | device name k rest hne hname hrest =>
    have hfits : name.length ≤ b'.n := by
      rw [hn]
      simp [ofPath]
    obtain ⟨-, -, hstart, hrest'⟩ := ((split_name hne hname).parses hagain hfits).of_resolves h hsecond
    refine ⟨Or.inr ⟨name, k, ?_, hne, hname.1, hname.2, hstart⟩, ?_⟩
    . cases hpwd : (s.files filesp).pwd with
      | some node => rw [hrest' node (by rw [startNode, hpwd]; rfl)]
      | none =>
        have hnoent : startNode env s filesp ans .curdir = some (.error .noent) := by
          rw [startNode, hpwd]
          rfl
        exact absurd (hstart.trans hnoent) device_ne_noent
    . intro hhead
      cases name with
      | nil => exact absurd rfl hne
      | cons c name =>
        rw [List.cons_append, List.head?_cons, Option.some_inj] at hhead
        exact absurd (hhead ▸ List.mem_cons_self ..) hname.1

theorem resolvesTwice_of_repeatable (h : s.Sound env) (hpath : nul ∉ path) (hrepeat : Repeatable env s filesp ans path)
    (hcurfs : path.head? = some ':' → (startNode env s filesp ans .curfs).isSome)
    : ResolvesTwice env s filesp ans path := by
  have hat := ofPath_at hpath
  rcases hrepeat with hplain | ⟨name, k, rfl, hne, hcolon, hslash, hstart⟩
  . obtain ⟨start, rest, hsplit⟩ := exists_split path
    have hsome : (startNode env s filesp ans start).isSome ∧ start.again path = path := by
      cases hsplit with
      | relative _ _ _ => exact ⟨rfl, rfl⟩
      | bootfs k rest _ => exact ⟨rfl, rfl⟩
      | curfs k rest _ => exact ⟨hcurfs rfl, rfl⟩
      | device name k rest hne hname _ =>
        rcases hplain name _ rfl with h | h | h
        . exact absurd h hne
        . exact absurd h hname.1
        . exact absurd h hname.2
    obtain ⟨b', hfirst, hn, hagain⟩ := (hsplit.parses hat (Nat.le_refl _)).resolves h hsome.1
    rw [hsome.2] at hagain
    obtain ⟨b'', hsecond, -, -⟩ := (hsplit.parses hagain (Nat.le_of_eq hn.symm)).resolves h hsome.1
    exact ⟨start, rest, b', b'', hsplit, hfirst, hsecond⟩
  . have hrest : name.head? ≠ some '/' := fun hhead => hslash (List.mem_of_mem_head? hhead)
    have hsplit := Split.device name k name hne ⟨hcolon, hslash⟩ hrest
    obtain ⟨b', hfirst, hn, hagain⟩ := (hsplit.parses hat (Nat.le_refl _)).resolves h (by rw [hstart]; rfl)
    have hfits : name.length ≤ b'.n := by
      rw [hn]
      simp [ofPath]
    obtain ⟨b'', ⟨m, hrun, hm⟩, -, -⟩ := ((split_name hne ⟨hcolon, hslash⟩).parses hagain hfits).resolves h rfl
    refine ⟨.device name, name, b', b'', hsplit, hfirst, m, hrun, ?_⟩
    rwa [hstart]

/--
`disk0` with a file system on it.
-/
def disk0 : VfsEnv where
  devs := [⟨['d', 'i', 's', 'k', '0'], some 0, true⟩]
  isDir := fun _ => true
  fsOf := fun _ => 0
  root := fun _ => 0

/--
A process in the root directory of `disk0`.
-/
def inRoot : Vfs where
  refCount := fun _ => 1
  openCount := fun _ => 0
  bootfsNode := some 1
  live := {0}
  files := fun _ => ⟨some 1, 1, FileTable.fdArrayInit fun _ => ⟨.fdNone, false, false, 0, 0, none, 0⟩⟩
  procs := []

theorem inRoot_sound : inRoot.Sound disk0 :=
  ⟨fun _ => Int.le_refl 0, fun _ => Int.zero_le_ofNat 1, fun _ _ => Int.one_pos⟩

/--
The root directory can be loaded.
-/
def answers : VfsAnswer where
  root := true
  lookup := .error .noent
  dopOpen := .ok ()
  truncate := .ok ()
  fstat := .ok 0

/--
The path `disk0:f` is `disk0` when it is resolved again.
-/
theorem not_get_device
    : ¬∀ (env : VfsEnv) (s : Vfs) (filesp : Nat) (ans : VfsAnswer) (path : List Char), s.Sound env → nul ∉ path →
        ResolvesTwice env s filesp ans path := by
  intro hall
  have hpath : nul ∉ ['d', 'i', 's', 'k', '0', ':', 'f'] := by decide
  obtain ⟨hplain | ⟨name, k, heq, -⟩, -⟩ :=
    repeatable_of_resolvesTwice inRoot_sound hpath (hall disk0 inRoot 0 answers _ inRoot_sound hpath)
  . have hname := hplain ['d', 'i', 's', 'k', '0'] ['f'] rfl
    simp at hname
  . have hlist : ['d', 'i', 's', 'k', '0'] ++ ':' :: ['f'] = name ++ ':' :: (List.replicate k '/' ++ name) := heq
    obtain ⟨rfl, -, hrest⟩ := (List.append_cons_inj_of_notMem (by decide) (by decide)).mp hlist
    have hlength := congrArg List.length hrest
    simp at hlength

/--
`get_device` splits a path and does the same again exactly when the `NUL` it writes cannot be told from the path, and no
root directory is missing.
-/
theorem get_device_iff (h : s.Sound env) (hpath : nul ∉ path)
    : ResolvesTwice env s filesp ans path ↔
        Repeatable env s filesp ans path ∧ (path.head? = some ':' → (startNode env s filesp ans .curfs).isSome) :=
  ⟨repeatable_of_resolvesTwice h hpath, fun hrepeat => resolvesTwice_of_repeatable h hpath hrepeat.1 hrepeat.2⟩

/--
A file in the root directory of `disk0`.
-/
theorem get_device_f
    : ResolvesTwice disk0 inRoot 0 answers ['f'] ↔
        Repeatable disk0 inRoot 0 answers ['f'] ∧
          (['f'].head? = some ':' → (startNode disk0 inRoot 0 answers .curfs).isSome) :=
  get_device_iff inRoot_sound (by decide)

end PathBuf
end Ucore
