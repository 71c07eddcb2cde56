import Mathlib.Algebra.Order.Group.Nat
import Mathlib.Logic.Function.Basic

/- Little-endian integers in a byte-addressed store, of any width. -/
namespace Bytes

abbrev Store := Nat → UInt8

def getLE (m : Store) (a : Nat) : Nat → Nat
  | 0 => 0
  | k + 1 => (m a).toNat + 256 * getLE m (a + 1) k

def putLE (m : Store) (a : Nat) : Nat → Nat → Store
  | 0, _ => m
  | k + 1, v => putLE (Function.update m a (UInt8.ofNat v)) (a + 1) k (v / 256)

theorem getLE_lt (m : Store) (a k : Nat) : getLE m a k < 256 ^ k := by
  induction k generalizing a with
  | zero => simp [getLE]
  | succ k ih =>
    have rest := ih (a + 1)
    have byte := (m a).toNat_lt
    simp only [getLE, Nat.pow_succ]
    omega

theorem putLE_outside (m : Store) (a k v b : Nat) (outside : b < a ∨ a + k ≤ b) : putLE m a k v b = m b := by
  induction k generalizing m a v with
  | zero => rfl
  | succ k ih =>
    rw [putLE, ih _ _ _ (by omega), Function.update_of_ne (by omega)]

theorem getLE_congr (m m' : Store) (a k : Nat) (same : ∀ b, a ≤ b → b < a + k → m b = m' b) :
    getLE m a k = getLE m' a k := by
  induction k generalizing a with
  | zero => rfl
  | succ k ih =>
    rw [getLE, getLE, same a (by omega) (by omega)]
    rw [ih (a + 1) (fun b lower upper => same b (by omega) (by omega))]

theorem getLE_putLE (m : Store) (a k v : Nat) : getLE (putLE m a k v) a k = v % 256 ^ k := by
  induction k generalizing m a v with
  | zero => simp [getLE, Nat.mod_one]
  | succ k ih =>
    have byte : (UInt8.ofNat v).toNat = v % 256 := by simp
    rw [getLE, putLE, ih, putLE_outside _ _ _ _ _ (by omega), Function.update_self, byte]
    rw [Nat.pow_succ, Nat.mul_comm (256 ^ k), Nat.mod_mul]

theorem getLE_putLE_apart (m : Store) (a k v b j : Nat) (apart : b + j ≤ a ∨ a + k ≤ b) :
    getLE (putLE m a k v) b j = getLE m b j := by
  apply getLE_congr
  intro c lower upper
  exact putLE_outside m a k v c (by omega)

def leByte (v t : Nat) : UInt8 := UInt8.ofNat (v / 256 ^ t)

theorem getLE_of_bytes (m : Store) (a k v : Nat) (bytes : ∀ t < k, m (a + t) = leByte v t) :
    getLE m a k = v % 256 ^ k := by
  induction k generalizing a v with
  | zero => simp [getLE, Nat.mod_one]
  | succ k ih =>
    have first : (m a).toNat = v % 256 := by
      rw [← Nat.add_zero a, bytes 0 (Nat.succ_pos k)]
      simp [leByte]
    have later : ∀ t < k, m (a + 1 + t) = leByte (v / 256) t := by
      intro t small
      rw [Nat.add_assoc, Nat.add_comm 1 t, bytes (t + 1) (Nat.succ_lt_succ small), leByte, leByte,
        Nat.div_div_eq_div_mul, Nat.pow_succ, Nat.mul_comm 256]
    rw [getLE, first, ih _ _ later, Nat.pow_succ, Nat.mul_comm (256 ^ k), Nat.mod_mul]

theorem leByte_getLE (m : Store) (a k t : Nat) (small : t < k) : leByte (getLE m a k) t = m (a + t) := by
  induction k generalizing a t with
  | zero => omega
  | succ k ih =>
    have byte := (m a).toNat_lt
    cases t with
    | zero =>
      apply UInt8.toNat_inj.mp
      rw [leByte, Nat.pow_zero, Nat.div_one, getLE, UInt8.toNat_ofNat', Nat.add_zero a]
      omega
    | succ t =>
      have rest := ih (a + 1) t (by omega)
      have higher : getLE m a (k + 1) / 256 = getLE m (a + 1) k := by
        rw [getLE]
        omega
      rw [leByte] at rest
      rw [leByte, Nat.pow_succ, Nat.mul_comm, ← Nat.div_div_eq_div_mul, higher, rest]
      congr 1
      omega

/-- Consecutive bytes, as memmove stores them. -/
def putBytes (m : Store) (a n : Nat) (f : Nat → UInt8) : Store :=
  fun b => if a ≤ b ∧ b < a + n then f (b - a) else m b

theorem putBytes_inside (m : Store) (a n : Nat) (f : Nat → UInt8) (t : Nat) (small : t < n) :
    putBytes m a n f (a + t) = f t := by
  rw [putBytes, if_pos (by omega), Nat.add_sub_cancel_left]

theorem putBytes_outside (m : Store) (a n : Nat) (f : Nat → UInt8) (b : Nat)
    (outside : b < a ∨ a + n ≤ b) : putBytes m a n f b = m b := by
  rw [putBytes, if_neg (by omega)]

theorem putBytes_none (m : Store) (a : Nat) (f : Nat → UInt8) : putBytes m a 0 f = m := by
  funext b
  exact putBytes_outside m a 0 f b (by omega)

theorem putBytes_congr (m : Store) (a : Nat) {n : Nat} {f g : Nat → UInt8} (same : ∀ t < n, f t = g t) :
    putBytes m a n f = putBytes m a n g := by
  funext b
  unfold putBytes
  split
  · exact same _ (by omega)
  · rfl

theorem putBytes_snoc (m : Store) (a n : Nat) (f : Nat → UInt8) :
    Function.update (putBytes m a n f) (a + n) (f n) = putBytes m a (n + 1) f := by
  funext b
  by_cases here : b = a + n
  · rw [here, Function.update_self, putBytes_inside _ _ _ _ _ (Nat.lt_succ_self n)]
  rw [Function.update_of_ne here, putBytes, putBytes]
  congr 1
  exact propext ⟨by omega, by omega⟩

theorem putBytes_append (m : Store) {a b : Nat} (k n : Nat) (f g : Nat → UInt8) (start : b = a + k)
    (same : ∀ t < n, g t = f (k + t)) : putBytes (putBytes m a k f) b n g = putBytes m a (k + n) f := by
  funext o
  by_cases later : b ≤ o ∧ o < b + n
  · rw [putBytes, if_pos later, putBytes, if_pos (by omega), same _ (by omega)]
    congr 1
    omega
  rw [putBytes, if_neg later, putBytes, putBytes]
  congr 1
  exact propext ⟨by omega, by omega⟩

theorem putBytes_putBytes (m : Store) (a n : Nat) (f g : Nat → UInt8) :
    putBytes (putBytes m a n f) a n g = putBytes m a n g := by
  funext b
  unfold putBytes
  split
  · rfl
  · rfl

theorem putBytes_self (m : Store) (a n : Nat) (f : Nat → UInt8) (same : ∀ t < n, f t = m (a + t)) :
    putBytes m a n f = m := by
  funext b
  unfold putBytes
  split
  · rename_i inside
    rw [same _ (by omega)]
    congr 1
    omega
  · rfl

end Bytes
