import Mathlib.Data.Nat.ModEq
import Mathlib.Logic.Function.Basic

/- A circular buffer whose two positions are counters modulo a multiple of its size. The inputs
   and the number of them that have been taken are history. -/
namespace Circular
variable {α : Type} {cap : Nat} [NeZero cap]

/-- The cells hold the inputs that have not been taken. -/
structure Holds (cells : Fin cap → α) (input : List α) (taken : Nat) : Prop where
  low : taken ≤ input.length
  high : input.length ≤ taken + cap
  cell : ∀ k (inside : k < input.length), taken ≤ k → cells (Fin.ofNat cap k) = input[k]

variable {cells : Fin cap → α} {input : List α} {taken : Nat}

theorem cell_ne {i j : Nat} (less : i < j) (near : j < i + cap) : Fin.ofNat cap i ≠ Fin.ofNat cap j := by
  intro same
  have eq : i % cap = j % cap := congrArg Fin.val same
  have whole := Nat.div_add_mod i cap
  have whole' := Nat.div_add_mod j cap
  rcases Nat.lt_or_ge (i / cap) (j / cap) with more | fewer
  · have bound := Nat.mul_le_mul_left cap more
    rw [Nat.mul_succ] at bound
    omega
  have bound := Nat.mul_le_mul_left cap fewer
  omega

theorem holds_nil (cells : Fin cap → α) : Holds cells [] 0 :=
  ⟨Nat.le_refl 0, Nat.zero_le _, nofun⟩

theorem holds_put (holds : Holds cells input taken) (room : input.length < taken + cap) (a : α) :
    Holds (Function.update cells (Fin.ofNat cap input.length) a) (input ++ [a]) taken := by
  refine ⟨?_, ?_, ?_⟩
  · rw [List.length_append]
    exact Nat.le_add_right_of_le holds.low
  · rw [List.length_append]
    exact room
  intro k inside old
  rw [List.length_append, List.length_singleton] at inside
  rcases Nat.lt_or_ge k input.length with prev | last
  · rw [Function.update_of_ne (cell_ne prev (by omega)), List.getElem_append_left prev]
    exact holds.cell k prev old
  obtain rfl : k = input.length := by omega
  rw [Function.update_self, List.getElem_append_right (Nat.le_refl _)]
  simp

theorem holds_init {last : α} (holds : Holds cells (input ++ [last]) taken) (low : taken ≤ input.length) :
    Holds cells input taken := by
  have high := holds.high
  rw [List.length_append] at high
  refine ⟨low, Nat.le_of_succ_le high, ?_⟩
  intro k inside old
  rw [holds.cell k (by simp; omega) old, List.getElem_append_left inside]

theorem holds_take (holds : Holds cells input taken) (more : taken < input.length) : Holds cells input (taken + 1) := by
  refine ⟨more, ?_, fun k inside later => holds.cell k inside (Nat.le_of_succ_le later)⟩
  have high := holds.high
  omega

/- The counters. -/
variable {modulus : Nat}

theorem cell_counter (divides : cap ∣ modulus) (k : Nat) : Fin.ofNat cap (k % modulus) = Fin.ofNat cap k :=
  Fin.ext (Nat.mod_mod_of_dvd k divides)

end Circular
