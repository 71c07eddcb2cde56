import Mathlib.Data.List.Basic
import Mathlib.Logic.Function.Basic

/- A store under a list of writes, oldest first. A crash keeps a first part of the list. -/
namespace Writes
variable {A V : Type} [DecidableEq A]

def apply (d : A → V) (ws : List (A × V)) : A → V :=
  ws.foldl (fun d w => Function.update d w.1 w.2) d

theorem apply_append (d : A → V) (ws vs : List (A × V)) : apply d (ws ++ vs) = apply (apply d ws) vs := by
  simp [apply]

theorem apply_cons (d : A → V) (w : A × V) (ws : List (A × V)) :
    apply d (w :: ws) = apply (Function.update d w.1 w.2) ws := rfl

theorem apply_untouched (d : A → V) (ws : List (A × V)) (a : A) (away : ∀ w ∈ ws, w.1 ≠ a) : apply d ws a = d a := by
  induction ws generalizing d with
  | nil => rfl
  | cons w ws ih =>
    rw [apply_cons, ih _ (fun v mem => away v (by simp [mem]))]
    exact Function.update_of_ne (Ne.symm (away w (by simp))) _ _

theorem apply_agreeing (d : A → V) (ws : List (A × V)) (f : A → V) (agree : ∀ w ∈ ws, w.2 = f w.1) (a : A)
    (written : ∃ w ∈ ws, w.1 = a) : apply d ws a = f a := by
  induction ws generalizing d with
  | nil => simp at written
  | cons w ws ih =>
    rw [apply_cons]
    by_cases later : ∃ v ∈ ws, v.1 = a
    · exact ih _ (fun v mem => agree v (by simp [mem])) later
    rw [apply_untouched _ _ _ (fun v mem same => later ⟨v, mem, same⟩)]
    obtain ⟨v, mem, same⟩ := written
    rcases List.mem_cons.mp mem with first | mem
    · subst v
      rw [← same, Function.update_self, agree w (by simp)]
    · exact absurd ⟨v, mem, same⟩ later

end Writes
