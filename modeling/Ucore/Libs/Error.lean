/-!
This module contains the error codes of libs/error.h.
-/

namespace Ucore

inductive Errno where
  | unspecified
  | badProc
  | inval
  | noMem
  | noFreeProc
  | fault
  | swapFault
  | invalElf
  | killed
  | panic
  | timeout
  | tooBig
  | noDev
  | naDev
  | busy
  | noent
  | isdir
  | notdir
  | xdev
  | unimp
  | seek
  | maxOpen
  | exists
  | notempty
  deriving DecidableEq

/--
The number of an error, functions that fail return it with a minus sign.
-/
def Errno.toInt : Errno → Int
  | .unspecified => 1
  | .badProc => 2
  | .inval => 3
  | .noMem => 4
  | .noFreeProc => 5
  | .fault => 6
  | .swapFault => 7
  | .invalElf => 8
  | .killed => 9
  | .panic => 10
  | .timeout => 11
  | .tooBig => 12
  | .noDev => 13
  | .naDev => 14
  | .busy => 15
  | .noent => 16
  | .isdir => 17
  | .notdir => 18
  | .xdev => 19
  | .unimp => 20
  | .seek => 21
  | .maxOpen => 22
  | .exists => 23
  | .notempty => 24

end Ucore
