/-!
This module contains the assertions and panics of kern/fs, one constructor for each place.
-/

namespace Ucore

inductive Panic where
  | bitmapCreate
  | bitmapCreateWord
  | bitmapCreateBits
  | bitmapAlloc
  | bitmapTranslate
  | bitmapFree
  | sfsRwblock
  | sfsRbuf
  | sfsWbuf
  | sfsGetOps
  | sfsBlockInuse
  | sfsBlockAllocUnused
  | sfsBlockAllocInuse
  | sfsBlockFree
  | sfsLoadInodeInuse
  | sfsLoadInodeNlinks
  | sfsBmapGetSub
  | sfsBmapGetIndirect
  | sfsBmapGetOutOfRange
  | sfsBmapGetInuse
  | sfsBmapFreeSub
  | sfsBmapLoadIndex
  | sfsBmapLoadInuse
  | sfsBmapTruncate
  | sfsIoType
  | sfsDirentRead
  | sfsDirentReadInuse
  | sfsDirentSearch
  | sfsNamefile
  | vopTruncate
  | inodeFreed
  | inodeKill
  | inodeRefDec
  | iobufSkip
  | sfsReclaim
  | sfsTruncfileSame
  | sfsTruncfileBlocks
  | sfsInitFreemap
  | sfsDoMount
  | sfsUnmount
  deriving DecidableEq

end Ucore
