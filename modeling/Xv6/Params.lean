import Mathlib.Algebra.GroupWithZero.Nat

/- Constants of kernel/param.h, kernel/fs.h and mkfs/mkfs.c. -/
namespace Xv6

abbrev nproc : Nat := 64
abbrev nofile : Nat := 16
abbrev maxOpBlocks : Nat := 10
abbrev logSize : Nat := maxOpBlocks * 3
abbrev nBuf : Nat := maxOpBlocks * 3
abbrev bSize : Nat := 1024

/-- mkfs: `int nlog = LOGSIZE`, written to sb.nlog; the header block is one of these. -/
abbrev nlog : Nat := logSize

-- The numerals of the tables' indices, and of the small tables of the runs.
instance neZero1 : NeZero 1 := ⟨by decide⟩
instance neZero2 : NeZero 2 := ⟨by decide⟩
instance neZero3 : NeZero 3 := ⟨by decide⟩
instance neZero16 : NeZero 16 := ⟨by decide⟩
instance neZero34 : NeZero 34 := ⟨by decide⟩
instance neZero50 : NeZero 50 := ⟨by decide⟩
instance neZero64 : NeZero 64 := ⟨by decide⟩

end Xv6
