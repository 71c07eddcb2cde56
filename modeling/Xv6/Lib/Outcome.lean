import Mathlib.Init

/- Code that may panic, over an explicit state. -/
namespace Outcome
variable {S A B : Type}

/-- Run from s, the code returns in `good` or panics with a message in `bad`. -/
def Ends (x : StateT S (Except String) A) (s : S) (good : A → S → Prop) (bad : String → Prop) :
    Prop :=
  match x s with
  | .ok (a, t) => good a t
  | .error msg => bad msg

variable {x : StateT S (Except String) A} {good good' : A → S → Prop} {bad bad' : String → Prop} {s : S}

section
variable (ends : Ends x s good bad)
include ends

theorem ends_mono (better : ∀ a t, good a t → good' a t)
    (worse : ∀ msg, bad msg → bad' msg) : Ends x s good' bad' := by
  unfold Ends at ends ⊢
  cases res : x s with
  | error msg =>
    rw [res] at ends
    exact worse msg ends
  | ok pair =>
    rw [res] at ends
    exact better pair.1 pair.2 ends

theorem ends_better (better : ∀ a t, good a t → good' a t) : Ends x s good' bad :=
  ends_mono ends better fun _ => id

theorem ends_worse (worse : ∀ msg, bad msg → bad' msg) : Ends x s good bad' :=
  ends_mono ends (fun _ _ => id) worse

theorem ends_ok {a : A} {t : S} (res : x s = .ok (a, t)) : good a t := by
  unfold Ends at ends
  rw [res] at ends
  exact ends

theorem ends_error {msg : String} (res : x s = .error msg) : bad msg := by
  unfold Ends at ends
  rw [res] at ends
  exact ends

end

theorem ends_and (first : Ends x s good bad) (snd : Ends x s good' bad') :
    Ends x s (fun a t => good a t ∧ good' a t) (fun msg => bad msg ∧ bad' msg) := by
  unfold Ends at first snd ⊢
  cases res : x s with
  | error msg | ok pair =>
    rw [res] at first snd
    exact ⟨first, snd⟩

def returns (x : StateT S (Except String) A) (s : S) (test : A → S → Bool) : Bool :=
  match x s with
  | .ok (a, t) => test a t
  | .error _ => false

theorem returns_ok {test : A → S → Bool} (passes : returns x s test = true) :
    ∃ a t, x s = .ok (a, t) ∧ test a t = true := by
  unfold returns at passes
  cases res : x s with
  | error msg =>
    rw [res] at passes
    cases passes
  | ok pair =>
    rw [res] at passes
    exact ⟨pair.1, pair.2, rfl, passes⟩

/-- Code that does not panic returns. -/
theorem ends_total (ends : Ends x s good (fun _ => False)) : ∃ a t, x s = .ok (a, t) ∧ good a t := by
  unfold Ends at ends
  cases res : x s with
  | error msg =>
    rw [res] at ends
    exact ends.elim
  | ok pair =>
    rw [res] at ends
    exact ⟨pair.1, pair.2, rfl, ends⟩

theorem ends_result (ends : Ends x s good bad) : Ends x s (fun a t => good a t ∧ x s = .ok (a, t)) bad := by
  unfold Ends at ends ⊢
  cases res : x s with
  | error msg =>
    rw [res] at ends
    exact ends
  | ok pair =>
    rw [res] at ends
    exact ⟨ends, rfl⟩

theorem ends_true (x : StateT S (Except String) A) (s : S) : Ends x s (fun _ _ => True) (fun _ => True) := by
  unfold Ends
  cases x s with
  | error msg => trivial
  | ok pair => trivial

theorem ends_never (ends : Ends x s (fun _ _ => False) (fun _ => False)) : False := by
  unfold Ends at ends
  cases res : x s with
  | error msg | ok pair => rw [res] at ends; exact ends

instance [∀ a t, Decidable (good a t)] [∀ msg, Decidable (bad msg)] : Decidable (Ends x s good bad) := by
  unfold Ends
  cases x s with
  | error msg => exact inferInstanceAs (Decidable (bad msg))
  | ok pair => exact inferInstanceAs (Decidable (good pair.1 pair.2))

theorem ends_bind {x : StateT S (Except String) B} {f : B → StateT S (Except String) A}
    {mid : B → S → Prop} (first : Ends x s mid bad)
    (snd : ∀ b t, mid b t → Ends (f b) t good bad) : Ends (x >>= f) s good bad := by
  unfold Ends at first ⊢
  change match (x s >>= fun pair => f pair.1 pair.2) with
    | .ok (a, t) => good a t
    | .error msg => bad msg
  cases res : x s with
  | error msg =>
    rw [res] at first
    exact first
  | ok pair =>
    rw [res] at first
    exact snd pair.1 pair.2 first

theorem ends_step {y : StateT S (Except String) B} {f : B → StateT S (Except String) A} {mid : B → S → Prop}
    (first : Ends y s mid bad) (worse : ∀ msg, bad msg → bad' msg)
    (snd : ∀ b t, mid b t → Ends (f b) t good bad') : Ends (y >>= f) s good bad' :=
  ends_bind (ends_worse first worse) snd

theorem ends_pure {a : A} (holds : good a s) : Ends (pure a : StateT S (Except String) A) s good bad := holds

theorem ends_throw {msg : String} (holds : bad msg) : Ends (throw msg : StateT S (Except String) A) s good bad := holds

/- Reading or changing the state, and code whose result is known. -/
theorem get_then {f : S → StateT S (Except String) A} (next : Ends (f s) s good bad) :
    Ends (get >>= f) s good bad := next

theorem modify_then {g : S → S} {f : PUnit → StateT S (Except String) A}
    (next : Ends (f ⟨⟩) (g s) good bad) : Ends (modify g >>= f) s good bad := next

theorem known_then {x : StateT S (Except String) B} {f : B → StateT S (Except String) A} {b : B} {t : S}
    (res : x s = .ok (b, t)) (next : Ends (f b) t good bad) : Ends (x >>= f) s good bad := by
  unfold Ends
  change match (x s >>= fun pair => f pair.1 pair.2) with
    | .ok (a, t) => good a t
    | .error msg => bad msg
  rw [res]
  exact next

theorem ends_known {a : A} {t : S} (res : x s = .ok (a, t)) (holds : good a t) : Ends x s good bad := by
  unfold Ends
  rw [res]
  exact holds

theorem ends_ite {c : Prop} [Decidable c] {x y : StateT S (Except String) A} (yes : c → Ends x s good bad)
    (no : ¬ c → Ends y s good bad) : Ends (if c then x else y) s good bad := by
  split
  · exact yes ‹_›
  · exact no ‹_›

end Outcome
