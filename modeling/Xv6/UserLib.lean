import Mathlib

/- Memory routines: memmove of kernel/string.c and of user/ulib.c, and the sizes that malloc and
   morecore of user/umalloc.c compute. -/
namespace Xv6UserLib

abbrev Memory := UInt64 → UInt8

/- The loops `while(n-- > 0) *d++ = *s++` and `while(n-- > 0) *--d = *--s`. -/
def copyUp (mem : Memory) (d s : UInt64) : Nat → Memory
  | 0 => mem
  | n + 1 => copyUp (Function.update mem d (mem s)) (d + 1) (s + 1) n

def copyDown (mem : Memory) (d s : UInt64) : Nat → Memory
  | 0 => mem
  | n + 1 => copyDown (Function.update mem (d - 1) (mem (s - 1))) (d - 1) (s - 1) n

def kernelMemmove (mem : Memory) (dst src : UInt64) (n : UInt32) : Memory × UInt64 :=
  if n = 0 then (mem, dst)
  else if src < dst ∧ src + n.toUInt64 > dst then
    (copyDown mem (dst + n.toUInt64) (src + n.toUInt64) n.toNat, dst)
  else (copyUp mem dst src n.toNat, dst)

/-- memmove of the user library; its count is an int. -/
def userMemmove (mem : Memory) (vdst vsrc : UInt64) (n : Int32) : Memory × UInt64 :=
  if vsrc > vdst then (copyUp mem vdst vsrc n.toInt.toNat, vdst)
  else (copyDown mem (vdst + .ofInt n.toInt) (vsrc + .ofInt n.toInt) n.toInt.toNat, vdst)

def moved (mem : Memory) (dst src : UInt64) (n : Nat) : Memory := fun a =>
  if (a - dst).toNat < n then mem (src + (a - dst)) else mem a

theorem offset_pred {a d : UInt64} (other : a ≠ d) : (a - (d + 1)).toNat + 1 = (a - d).toNat := by
  have differ : a.toNat ≠ d.toNat := fun same => other (UInt64.toNat_inj.mp same)
  have low := a.toNat_lt
  have high := d.toNat_lt
  rw [UInt64.toNat_sub, UInt64.toNat_sub, UInt64.toNat_add, UInt64.toNat_one]
  omega

theorem offset_self (d : UInt64) : (d - (d + 1)).toNat = 2 ^ 64 - 1 := by
  have wraps : d - (d + 1) = 18446744073709551615 := by grind
  rw [wraps]
  rfl

/-- The first byte may be moved first when it does not fall on a later byte of the source. -/
theorem moved_first {n : Nat} {mem : Memory} {d s : UInt64} (fits : n + 1 < 2 ^ 64)
    (apart : d = s ∨ n + 1 ≤ (d - s).toNat) :
    moved (Function.update mem d (mem s)) (d + 1) (s + 1) n = moved mem d s (n + 1) := by
  funext a
  by_cases first : a = d
  · subst a
    rw [moved, offset_self, if_neg (by omega), Function.update_self]
    simp [moved]
  have offset := offset_pred first
  have source : s + 1 + (a - (d + 1)) = s + (a - d) := by grind
  rw [moved, moved, source, Function.update_of_ne first]
  by_cases inside : (a - d).toNat < n + 1
  · have later : s + (a - d) ≠ d := by
      intro same
      have eq : d - s = a - d := by grind
      rcases apart with rfl | far
      · exact first (by grind)
      rw [eq] at far
      omega
    rw [if_pos (by omega), if_pos inside, Function.update_of_ne later]
  · rw [if_neg (by omega), if_neg inside]

/-- The last byte may be moved first when it does not fall on an earlier byte of the source. -/
theorem moved_last {n : Nat} {mem : Memory} {d s : UInt64} (fits : n + 1 < 2 ^ 64)
    (apart : d = s ∨ n + 1 ≤ (s - d).toNat) :
    moved (Function.update mem (d + .ofNat n) (mem (s + .ofNat n))) d s n = moved mem d s (n + 1) := by
  have count : (UInt64.ofNat n).toNat = n := UInt64.toNat_ofNat_of_lt' (Nat.lt_of_succ_lt fits)
  funext a
  by_cases last : a = d + .ofNat n
  · have offset : a - d = .ofNat n := by grind
    rw [moved, moved, offset, count, if_neg (Nat.lt_irrefl n), if_pos (Nat.lt_succ_self n), last, Function.update_self]
  have offset : (a - d).toNat ≠ n := by
    intro same
    have eq : a - d = .ofNat n := UInt64.toNat_inj.mp (by rw [same, count])
    exact last (by grind)
  rw [moved, moved, Function.update_of_ne last]
  by_cases inside : (a - d).toNat < n
  · have earlier : s + (a - d) ≠ d + .ofNat n := by
      intro same
      rcases apart with rfl | far
      · exact last (by grind)
      have eq : s - d = .ofNat n - (a - d) := by grind
      have bound := (a - d).toNat_lt
      rw [eq, UInt64.toNat_sub, count] at far
      omega
    rw [if_pos inside, if_pos (by omega), Function.update_of_ne earlier]
  · rw [if_neg inside, if_neg (by omega)]

theorem copyUp_moved (n : Nat) (mem : Memory) (d s : UInt64) (fits : n < 2 ^ 64)
    (apart : d = s ∨ n ≤ (d - s).toNat) : copyUp mem d s n = moved mem d s n := by
  induction n generalizing mem d s with
  | zero => rfl
  | succ n ih =>
    have still : d + 1 = s + 1 ∨ n ≤ (d + 1 - (s + 1)).toNat := by
      have shift : d + 1 - (s + 1) = d - s := by grind
      rw [shift]
      rcases apart with rfl | far
      · exact .inl rfl
      · exact .inr (by omega)
    rw [copyUp, ih _ _ _ (by omega) still, moved_first fits apart]

theorem copyDown_moved (n : Nat) (mem : Memory) (d s : UInt64) (fits : n < 2 ^ 64) (apart : d = s ∨ n ≤ (s - d).toNat) :
    copyDown mem (d + .ofNat n) (s + .ofNat n) n = moved mem d s n := by
  induction n generalizing mem with
  | zero => rfl
  | succ n ih =>
    have shift (p : UInt64) : p + .ofNat (n + 1) - 1 = p + .ofNat n := by
      rw [UInt64.ofNat_add]
      grind
    rw [copyDown, shift, shift, ih _ (by omega) (apart.imp_right (by omega)), moved_last fits apart]

/-- The bytes at the destination are the old bytes of the source, the others are as they were. -/
def Moved (mem result : Memory) (dst src : UInt64) (n : Nat) : Prop :=
  (∀ k < n, result (dst + .ofNat k) = mem (src + .ofNat k)) ∧
    ∀ a, (∀ k < n, a ≠ dst + .ofNat k) → result a = mem a

theorem moved_spec {n : Nat} (mem : Memory) (dst src : UInt64) (fits : n < 2 ^ 64) :
    Moved mem (moved mem dst src n) dst src n := by
  constructor
  · intro k inside
    have offset : dst + .ofNat k - dst = .ofNat k := by grind
    rw [moved, offset, UInt64.toNat_ofNat_of_lt' (Nat.lt_trans inside fits), if_pos inside]
  intro a outside
  have far : ¬ (a - dst).toNat < n := by
    intro inside
    apply outside _ inside
    rw [UInt64.ofNat_toNat]
    grind
  rw [moved, if_neg far]

theorem apart_of_lt {p q : UInt64} {n : Nat} (less : p < q) (room : q.toNat + n ≤ 2 ^ 64) : n ≤ (p - q).toNat := by
  have prev := UInt64.lt_iff_toNat_lt.mp less
  rw [UInt64.toNat_sub]
  omega

section
variable {mem : Memory} {dst src : UInt64} {n : Nat}

theorem kernelMemmove_moved (small : n < 2 ^ 31) (source : src.toNat + n ≤ 2 ^ 64) (target : dst.toNat + n ≤ 2 ^ 64) :
    kernelMemmove mem dst src (.ofNat n) = (moved mem dst src n, dst) := by
  have count : (UInt32.ofNat n).toNat = n :=
    UInt32.toNat_ofNat_of_lt' (Nat.lt_trans small (by decide))
  have wide : (UInt32.ofNat n).toUInt64 = .ofNat n := by rw [← UInt64.ofNat_uInt32ToNat, count]
  rw [kernelMemmove, wide, count]
  split_ifs with none overlap
  · have zero : n = 0 := by rw [← count, none]; rfl
    subst zero
    rfl
  · rw [copyDown_moved n mem dst src (by omega) (.inr (apart_of_lt overlap.1 target))]
  rw [copyUp_moved n mem dst src (by omega)]
  rcases Nat.lt_trichotomy dst.toNat src.toNat with less | same | more
  · exact .inr (apart_of_lt (UInt64.lt_iff_toNat_lt.mpr less) source)
  · exact .inl (UInt64.toNat_inj.mp same)
  have up : src < dst := UInt64.lt_iff_toNat_lt.mpr more
  have beyond : src + .ofNat n ≤ dst := UInt64.not_lt.mp fun inside => overlap ⟨up, inside⟩
  have far := UInt64.le_iff_toNat_le.mp beyond
  rw [UInt64.toNat_add, UInt64.toNat_ofNat'] at far
  refine .inr ?_
  rw [UInt64.toNat_sub_of_le _ _ (UInt64.le_of_lt up)]
  omega

theorem userMemmove_moved (small : n < 2 ^ 31) (source : src.toNat + n ≤ 2 ^ 64) (target : dst.toNat + n ≤ 2 ^ 64) :
    userMemmove mem dst src (.ofNat n) = (moved mem dst src n, dst) := by
  have count : (Int32.ofNat n).toInt = n := Int32.toInt_ofNat_of_lt small
  have wide : UInt64.ofInt n = .ofNat n := congrArg UInt64.ofNat (by omega)
  rw [userMemmove, count, wide, Int.toNat_natCast]
  split_ifs with above
  · rw [copyUp_moved n mem dst src (by omega) (.inr (apart_of_lt above source))]
  rw [copyDown_moved n mem dst src (by omega)]
  rcases UInt64.lt_or_eq_of_le (UInt64.not_lt.mp above) with less | same
  · exact .inr (apart_of_lt less target)
  · exact .inl same.symm

end

/-- Both end with the bytes moved, whatever the overlap, and so they agree. -/
theorem memmove_overlap (mem : Memory) (dst src : UInt64) (n : Nat) (small : n < 2 ^ 31)
    (source : src.toNat + n ≤ 2 ^ 64) (target : dst.toNat + n ≤ 2 ^ 64) :
    Moved mem (kernelMemmove mem dst src (.ofNat n)).1 dst src n ∧
      Moved mem (userMemmove mem dst src (.ofNat n)).1 dst src n ∧
      kernelMemmove mem dst src (.ofNat n) = userMemmove mem dst src (.ofNat n) := by
  rw [kernelMemmove_moved small source target, userMemmove_moved small source target]
  have spec := moved_spec mem dst src (Nat.lt_trans small (by decide))
  exact ⟨spec, spec, rfl⟩

/- Five bytes moved two up over themselves. -/
theorem memmove_overlap_five : (kernelMemmove (fun a => a.toUInt8) 102 100 (.ofNat 5)).1 104 = 102 ∧
    kernelMemmove (fun a => a.toUInt8) 102 100 (.ofNat 5) =
      userMemmove (fun a => a.toUInt8) 102 100 (.ofNat 5) := by
  have moves := memmove_overlap (fun a => a.toUInt8) 102 100 5 (by decide) (by decide) (by decide)
  exact ⟨moves.1.1 2 (by decide), moves.2.2⟩

/- user/umalloc.c: a size passes through uint, size_t and int. -/
def sizeofHeader : UInt64 := 16

def nunits (nbytes : UInt32) : UInt32 :=
  ((nbytes.toUInt64 + sizeofHeader - 1) / sizeofHeader + 1).toUInt32

/-- What morecore records in the header of the new block and what it passes to sbrk. -/
structure More where
  size : UInt32
  sbrk : Int32

def morecore (nu : UInt32) : More :=
  let nu := if nu < 4096 then 4096 else nu
  ⟨nu, (nu.toUInt64 * sizeofHeader).toUInt32.toInt32⟩

theorem nunits_toNat (nbytes : UInt32) : (nunits nbytes).toNat = (nbytes.toNat + 15) / 16 + 1 := by
  have bound := nbytes.toNat_lt
  have sum : (nbytes.toUInt64 + 16 - 1).toNat = nbytes.toNat + 15 := by
    rw [UInt64.toNat_sub, UInt64.toNat_add, UInt32.toNat_toUInt64, UInt64.toNat_one]
    simp only [UInt64.reduceToNat]
    omega
  simp only [nunits, sizeofHeader, UInt64.toNat_toUInt32, UInt64.toNat_add, UInt64.toNat_div, sum, UInt64.reduceToNat]
  omega

theorem sbrk_toInt (nu : UInt32) : (nu.toUInt64 * sizeofHeader).toUInt32.toInt32.toInt =
    ((nu.toNat * 16 : Nat) : Int).bmod (2 ^ 32) := by
  have bound := nu.toNat_lt
  rw [← Int32.toInt_toBitVec, UInt32.toBitVec_toInt32, BitVec.toInt_eq_toNat_bmod, UInt32.toNat_toBitVec,
    UInt64.toNat_toUInt32, UInt64.toNat_mul, UInt32.toNat_toUInt64]
  simp only [sizeofHeader, UInt64.reduceToNat, Int.bmod]
  omega

/-- sbrk is asked for the recorded size exactly up to a request of 2^31 - 32 bytes. -/
theorem morecore_asks (nbytes : UInt32) :
    nbytes.toNat + 16 ≤ (nunits nbytes).toNat * 16 ∧
      (0 < (morecore (nunits nbytes)).sbrk.toInt ∧
          (morecore (nunits nbytes)).sbrk.toInt = (morecore (nunits nbytes)).size.toNat * 16 ↔
        nbytes.toNat ≤ 2 ^ 31 - 32) ∧
      (nbytes.toNat ≤ 2 ^ 31 - 32 →
        (nunits nbytes).toNat * 16 ≤ (morecore (nunits nbytes)).sbrk.toInt) := by
  have bound := nbytes.toNat_lt
  have units := nunits_toNat nbytes
  by_cases few : nunits nbytes < 4096
  · have less := UInt32.lt_iff_toNat_lt.mp few
    simp only [morecore, if_pos few, sbrk_toInt, UInt32.reduceToNat] at less ⊢
    rw [units] at less ⊢
    simp only [Int.bmod]
    omega
  · simp only [morecore, if_neg few, sbrk_toInt]
    rw [units]
    simp only [Int.bmod]
    omega

theorem morecore_asks_wrong : ¬ ∀ nbytes : UInt32,
    nbytes.toNat + 16 ≤ (nunits nbytes).toNat * 16 ∧ 0 < (morecore (nunits nbytes)).sbrk.toInt ∧
      (morecore (nunits nbytes)).sbrk.toInt = (morecore (nunits nbytes)).size.toNat * 16 := by
  intro all
  exact absurd (all 0xffffffff).2.2 (by decide)

end Xv6UserLib
