import Ucore.Kern.Fs.Panic
import Ucore.Lib.Bytes
import Ucore.Lib.Prog
import Ucore.Libs.Error

/-!
This module contains the buffers of kern/fs/iobuf.c.
-/

namespace Ucore

/--
`buf` is the memory from where `io_base` pointed at first. It has moved by as much as `resid` has shrunk.
-/
structure Iobuf where
  buf : Bytes
  offset : Int
  len : Nat
  resid : Nat

namespace Iobuf

def iobufInit (base : Bytes) (len : Nat) (offset : Int) : Iobuf where
  buf := base
  offset := offset
  len := len
  resid := len

def iobufUsed (iob : Iobuf) : Nat := iob.len - iob.resid

variable {σ : Type}

def iobufSkip (iob : Iobuf) (n : Nat) : Prog Errno Panic σ Iobuf := do
  Prog.assert (iob.resid ≥ n) .iobufSkip
  return { iob with offset := iob.offset + n, resid := iob.resid - n }

/--
`iobuf_move` to the buffer, with the return value and the buffer behind it.
-/
def iobufMove (iob : Iobuf) (data : Bytes) (len : Nat) : Prog Errno Panic σ (Option Errno × Iobuf) := do
  let alen := min iob.resid len
  let iob ←
    if alen > 0 then
      iobufSkip { iob with buf := iob.buf.copy iob.iobufUsed data alen } alen
    else
      pure iob
  return (if len - alen = 0 then none else some .noMem, iob)

theorem iobufSkip_run {iob : Iobuf} {n : Nat} (h : n ≤ iob.resid) (s : σ)
    : iob.iobufSkip n s = .ok { iob with offset := iob.offset + n, resid := iob.resid - n } s := by
  rw [iobufSkip, Prog.assert_bind_run h]
  rfl

/--
A buffer with enough room takes all of the data.
-/
theorem iobufMove_run {iob : Iobuf} {len : Nat} (data : Bytes) (hlen : len ≤ iob.resid) (s : σ)
    : iob.iobufMove data len s
        = .ok (none, { iob with
            buf := iob.buf.copy iob.iobufUsed data len
            offset := iob.offset + len
            resid := iob.resid - len }) s := by
  unfold iobufMove
  simp only [Nat.min_eq_right hlen, Nat.sub_self, if_true]
  by_cases hpos : len > 0
  . rw [if_pos hpos]
    rw [Prog.bind_run_ok (@iobufSkip_run σ { iob with buf := iob.buf.copy iob.iobufUsed data len } len hlen s)]
    rfl
  . obtain rfl : len = 0 := by omega
    simp

end Iobuf
end Ucore
