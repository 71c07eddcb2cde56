import Xv6.Lib.Outcome

/- Code that keeps a journal beside its state, and the same code without it. -/
namespace Journal
open Outcome

variable {S E A B : Type}

def silent (y : StateT S (Except String) A) : StateT (S × List E) (Except String) A :=
  fun s => (y s.1).map fun r => (r.1, r.2, s.2)

def record (e : E) (y : StateT S (Except String) A) : StateT (S × List E) (Except String) A :=
  fun s => (y s.1).map fun r => (r.1, r.2, e :: s.2)

/-- Without its journal x does what y does. -/
def Erases (x : StateT (S × List E) (Except String) A) (y : StateT S (Except String) A) : Prop :=
  ∀ s log, (x (s, log)).map (fun r => (r.1, r.2.1)) = y s

theorem erases_silent (y : StateT S (Except String) A) :
    Erases (silent y : StateT (S × List E) (Except String) A) y := by
  intro s log
  change Except.map _ (Except.map _ (y s)) = y s
  cases y s <;> rfl

theorem erases_record (e : E) (y : StateT S (Except String) A) : Erases (record e y) y := by
  intro s log
  change Except.map _ (Except.map _ (y s)) = y s
  cases y s <;> rfl

theorem erases_pure (a : A) : Erases (pure a : StateT (S × List E) (Except String) A) (pure a) := fun _ _ => rfl

theorem erases_throw (msg : String) :
    Erases (throw msg : StateT (S × List E) (Except String) A) (throw msg) := fun _ _ => rfl

theorem erases_bind {x : StateT (S × List E) (Except String) B} {y : StateT S (Except String) B}
    {f : B → StateT (S × List E) (Except String) A} {g : B → StateT S (Except String) A}
    (first : Erases x y) (next : ∀ b, Erases (f b) (g b)) : Erases (x >>= f) (y >>= g) := by
  intro s log
  have start := first s log
  change (x (s, log) >>= fun r => f r.1 r.2).map _ = (y s >>= fun r => g r.1 r.2)
  rw [← start]
  cases x (s, log) with
  | error msg => rfl
  | ok pair => exact next pair.1 pair.2.1 pair.2.2

theorem erases_ite {c : Prop} [Decidable c] {x x' : StateT (S × List E) (Except String) A}
    {y y' : StateT S (Except String) A} (yes : c → Erases x y) (no : ¬ c → Erases x' y') :
    Erases (if c then x else x') (if c then y else y') := by
  split
  · exact yes ‹_›
  · exact no ‹_›

theorem ends_erased {x : StateT (S × List E) (Except String) A} {y : StateT S (Except String) A}
    {good : A → S → Prop} {bad : String → Prop} {s : S} (erases : Erases x y) (ends : Ends y s good bad)
    (log : List E) : Ends x (s, log) (fun a t => good a t.1) bad := by
  unfold Ends at ends ⊢
  rw [← erases s log] at ends
  cases res : x (s, log) with
  | error msg | ok pair =>
    rw [res] at ends
    exact ends

theorem ends_silent {y : StateT S (Except String) A} {good : A → S → Prop} {bad : String → Prop} {s : S}
    (ends : Ends y s good bad) (log : List E) : Ends (silent y) (s, log) (fun a t => good a t.1 ∧ t.2 = log) bad := by
  unfold Ends at ends ⊢
  unfold silent
  cases res : y s with
  | error msg =>
    rw [res] at ends
    simp only
    exact ends
  | ok pair =>
    rw [res] at ends
    simp only
    exact ⟨ends, rfl⟩

end Journal
