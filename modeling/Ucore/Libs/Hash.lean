/-!
This module contains the hash function of libs/hash.c.
-/

namespace Ucore

def hash32 (val : BitVec 32) (bits : Nat) : BitVec 32 :=
  (val * 0x9e370001) >>> (32 - bits)

end Ucore
