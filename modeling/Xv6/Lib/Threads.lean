import Mathlib.Algebra.BigOperators.Group.Finset.Piecewise
import Mathlib.Algebra.Order.BigOperators.Group.Finset
import Mathlib.Data.Fintype.BigOperators
import Xv6.Lib.Runs

/- Threads that run programs of atomic operations on one shared state. Every thread has a
   ledger of what it holds and knows. The ledgers do not act on the state; an invariant ties
   them to it, and a program is checked against its own ledger only. -/
namespace Threads
set_option linter.unusedSectionVars false

/-- A program: operations, each with the rest of the program for every answer. -/
inductive Prog (Op : Type) (Ans : Op → Type) (A : Type) where
  | ret (a : A)
  | op (o : Op) (k : Ans o → Prog Op Ans A)

namespace Prog
variable {Op : Type} {Ans : Op → Type} {A B : Type}

def bind : Prog Op Ans A → (A → Prog Op Ans B) → Prog Op Ans B
  | ret a, f => f a
  | op o k, f => op o fun a => (k a).bind f

instance : Monad (Prog Op Ans) where
  pure := ret
  bind := bind

def perform (o : Op) : Prog Op Ans (Ans o) := op o ret

def isRet : Prog Op Ans A → Bool
  | ret _ => true
  | op _ _ => false

theorem eq_ret {x : Prog Op Ans Unit} (done : x.isRet = true) : x = ret () := by
  cases x with
  | ret a => rfl
  | op o k => cases done

def All (p : Op → Prop) : Prog Op Ans A → Prop
  | ret _ => True
  | op o k => p o ∧ ∀ a, (k a).All p

theorem all_bind {p : Op → Prop} {x : Prog Op Ans A} {f : A → Prog Op Ans B} (first : x.All p)
    (snd : ∀ a, (f a).All p) : (x >>= f).All p := by
  change (x.bind f).All p
  induction x with
  | ret a => exact snd a
  | op o k ih => exact ⟨first.1, fun a => ih a (first.2 a)⟩

end Prog

open Prog Function

/-- The operations of a shared state, and the rules of the ledgers: which operations a ledger
    allows, which answers fit it, and the ledger after an operation. -/
structure Rules (T Op : Type) (Ans : Op → Type) (S L : Type) where
  exec : T → (o : Op) → S → Ans o → S → Prop
  allows : T → Op → L → Prop
  fits : T → (o : Op) → L → Ans o → Prop
  book : T → (o : Op) → L → Ans o → L

section
variable {T Op : Type} {Ans : Op → Type} {S L A B : Type} (rules : Rules T Op Ans S L)
variable {l : L} {x : Prog Op Ans A} {post : B → L → Prop}

/-- Thread t may run the program, from ledger l, and ends in `post`. -/
def wp (t : T) : Prog Op Ans A → L → (A → L → Prop) → Prop
  | ret a, l, post => post a l
  | op o k, l, post => rules.allows t o l ∧
    ∀ a, rules.fits t o l a → wp t (k a) (rules.book t o l a) post

variable {rules} {t : T}

theorem wp_mono {post post' : A → L → Prop} (holds : wp rules t x l post)
    (weaker : ∀ a l, post a l → post' a l) : wp rules t x l post' := by
  induction x generalizing l with
  | ret a => exact weaker a l holds
  | op o k ih => exact ⟨holds.1, fun a fits => ih a (holds.2 a fits)⟩

theorem wp_bind {f : A → Prog Op Ans B} :
    wp rules t (x >>= f) l post ↔ wp rules t x l fun a m => wp rules t (f a) m post := by
  change wp rules t (x.bind f) l post ↔ _
  induction x generalizing l with
  | ret a => rfl
  | op o k ih => simp only [Prog.bind, wp, ih]

theorem wp_seq {f : A → Prog Op Ans B} {mid : A → L → Prop} (first : wp rules t x l mid)
    (snd : ∀ a m, mid a m → wp rules t (f a) m post) : wp rules t (x >>= f) l post :=
  wp_bind.mpr (wp_mono first snd)

theorem wp_pure {a : A} {post : A → L → Prop} (holds : post a l) : wp rules t (pure a : Prog Op Ans A) l post := holds

theorem wp_last {post : A → L → Prop}
    (holds : wp rules t (x >>= fun a => pure a) l post) : wp rules t x l post := wp_bind.mp holds

theorem wp_op {o : Op} {f : Ans o → Prog Op Ans B} (ok : rules.allows t o l)
    (next : ∀ a, rules.fits t o l a → wp rules t (f a) (rules.book t o l a) post) :
    wp rules t (perform o >>= f) l post := ⟨ok, next⟩

theorem wp_perform {o : Op} {post : Ans o → L → Prop} (ok : rules.allows t o l)
    (next : ∀ a, rules.fits t o l a → post a (rules.book t o l a)) : wp rules t (perform o) l post := ⟨ok, next⟩

end

/- All threads together. -/

structure Config (T Op : Type) (Ans : Op → Type) (S L : Type) where
  state : S
  code : T → Prog Op Ans Unit
  ledger : T → L

inductive Event (T C : Type) where
  | start (t : T) (call : C)
  | step (t : T)

section
variable {T Op : Type} {Ans : Op → Type} {S L C : Type} [DecidableEq T]
variable {init c : Config T Op Ans S L} {es : List (Event T C)}

/-- A thread at rest starts a call, or a thread performs its next operation. -/
inductive Step (rules : Rules T Op Ans S L) (call : T → C → Prog Op Ans Unit) :
    Config T Op Ans S L → Event T C → Config T Op Ans S L → Prop where
  | start {c : Config T Op Ans S L} {t : T} (what : C) (rest : c.code t = .ret ()) :
      Step rules call c (.start t what) ⟨c.state, Function.update c.code t (call t what), c.ledger⟩
  | step {c : Config T Op Ans S L} {t : T} {o : Op} {k : Ans o → Prog Op Ans Unit} {a : Ans o} {s : S}
      (next : c.code t = .op o k) (done : rules.exec t o c.state a s) :
      Step rules call c (.step t) ⟨s, Function.update c.code t (k a),
        Function.update c.ledger t (rules.book t o (c.ledger t) a)⟩

/-- Operations that a ledger allows get answers that fit it, and keep the invariant, as long
    as they are performed where the guard holds. -/
def Sound (rules : Rules T Op Ans S L) (guard : S → (T → L) → T → Op → Prop)
    (inv : S → (T → L) → Prop) : Prop :=
  ∀ s ledger t o a s', inv s ledger → guard s ledger t o → rules.allows t o (ledger t) →
    rules.exec t o s a s' → rules.fits t o (ledger t) a ∧
      inv s' (Function.update ledger t (rules.book t o (ledger t) a))

def free : S → (T → L) → T → Op → Prop := fun _ _ _ _ => True

def Meets (guard : S → (T → L) → T → Op → Prop) (c : Config T Op Ans S L) : Event T C → Prop
  | .start _ _ => True
  | .step t => ∀ o k, c.code t = .op o k → guard c.state c.ledger t o

def Permits (may : T → C → L → Prop) (c : Config T Op Ans S L) : Event T C → Prop
  | .start t what => may t what (c.ledger t)
  | .step _ => True

/-- The invariant holds, and what is left of every thread's code fits its ledger. -/
structure Safe (rules : Rules T Op Ans S L) (inv : S → (T → L) → Prop) (rest : T → L → Prop)
    (c : Config T Op Ans S L) : Prop where
  inv : inv c.state c.ledger
  code : ∀ t, wp rules t (c.code t) (c.ledger t) fun _ l => rest t l

variable {rules : Rules T Op Ans S L} {guard : S → (T → L) → T → Op → Prop}
  {inv : S → (T → L) → Prop} {rest : T → L → Prop} {call : T → C → Prog Op Ans Unit}
  {may : T → C → L → Prop}

theorem safe_rest {c : Config T Op Ans S L} (safe : Safe rules inv rest c) {t : T}
    (idle : c.code t = .ret ()) : rest t (c.ledger t) := by
  have done := safe.code t
  rw [idle] at done
  exact done

theorem safe_allows {c : Config T Op Ans S L} (safe : Safe rules inv rest c) {t : T} {o : Op}
    {k : Ans o → Prog Op Ans Unit} (next : c.code t = .op o k) : rules.allows t o (c.ledger t) := by
  have more := safe.code t
  rw [next] at more
  exact more.1

theorem safe_step (sound : Sound rules guard inv)
    (calls : ∀ t what l, rest t l → may t what l → wp rules t (call t what) l fun _ l => rest t l)
    {c d : Config T Op Ans S L} {e : Event T C} (safe : Safe rules inv rest c) (permits : Permits may c e)
    (meets : Meets guard c e) (step : Step rules call c e d) : Safe rules inv rest d := by
  cases step with
  | @start t what idle =>
    refine ⟨safe.inv, ?_⟩
    intro u
    by_cases same : u = t
    · subst u
      simp only [update_self]
      exact calls t what _ (safe_rest safe idle) permits
    simp only [update_of_ne same]
    exact safe.code u
  | @step t o k a s next done =>
    have more := safe.code t
    rw [next] at more
    obtain ⟨fits, kept⟩ := sound c.state c.ledger t o a s safe.inv (meets o k next) more.1 done
    refine ⟨kept, ?_⟩
    intro u
    by_cases same : u = t
    · subst u
      simp only [update_self]
      exact more.2 a fits
    simp only [update_of_ne same]
    exact safe.code u

theorem permits_any (c : Config T Op Ans S L) (e : Event T C) : Permits (fun _ _ _ => True) c e := by
  cases e with
  | start t what => trivial
  | step t => trivial

/-- Every run whose operations meet the guard stays safe. -/
theorem safe_guarded (sound : Sound rules guard inv)
    (calls : ∀ t what l, rest t l → wp rules t (call t what) l fun _ l => rest t l) (start : Safe rules inv rest init)
    (run : Runs.Run (Runs.Guarded (Step rules call) (Meets guard)) init es c) : Safe rules inv rest c :=
  Runs.run_invariant (Safe rules inv rest) start (fun d e _ safe step =>
    safe_step sound (fun t what l idle _ => calls t what l idle) safe (permits_any d e) step.1 step.2) run

theorem meets_free (c : Config T Op Ans S L) (e : Event T C) : Meets free c e := by
  cases e with
  | start t what => trivial
  | step t => exact fun _ _ _ => trivial

theorem safe_run (sound : Sound rules free inv)
    (calls : ∀ t what l, rest t l → wp rules t (call t what) l fun _ l => rest t l)
    (start : Safe rules inv rest init) (run : Runs.Run (Step rules call) init es c) : Safe rules inv rest c :=
  Runs.run_invariant (Safe rules inv rest) start (fun d e _ safe step =>
    safe_step sound (fun t what l idle _ => calls t what l idle) safe (permits_any d e)
      (meets_free d e) step) run

theorem safe_within (sound : Sound rules guard inv)
    (calls : ∀ t what l, rest t l → may t what l → wp rules t (call t what) l fun _ l => rest t l)
    (start : Safe rules inv rest init)
    (run : Runs.Run (Runs.Guarded (Step rules call) fun c e => Permits may c e ∧ Meets guard c e) init es c) :
    Safe rules inv rest c :=
  Runs.run_invariant (Safe rules inv rest) start
    (fun _ _ _ safe step => safe_step sound calls safe step.1.1 step.1.2 step.2) run

theorem safe_permitted (sound : Sound rules free inv)
    (calls : ∀ t what l, rest t l → may t what l → wp rules t (call t what) l fun _ l => rest t l)
    (start : Safe rules inv rest init)
    (run : Runs.Run (Runs.Guarded (Step rules call) (Permits may)) init es c) : Safe rules inv rest c :=
  Runs.run_invariant (Safe rules inv rest) start
    (fun d e _ safe step => safe_step sound calls safe step.1 (meets_free d e) step.2) run

theorem alone_run (keeps : Config T Op Ans S L → Prop) {t : T} {what : C}
    (step : ∀ c d, keeps c → Step rules call c (.step t) d → keeps d)
    {n : Nat} (start : keeps ⟨init.state, update init.code t (call t what), init.ledger⟩)
    (run : Runs.Run (Step rules call) init (.start t what :: List.replicate n (.step t)) c) : keeps c := by
  induction n generalizing c with
  | zero =>
    have single : Runs.Run (Step rules call) init ([] ++ [.start t what]) c := run
    obtain ⟨d, prev, last⟩ := Runs.run_snoc_inv single
    rw [Runs.run_nil_state prev] at last
    cases last
    exact start
  | succ n ih =>
    rw [List.replicate_succ', ← List.cons_append] at run
    obtain ⟨d, prev, last⟩ := Runs.run_snoc_inv run
    exact step d c (ih prev) last

/- Threads without programs: any of them may do what its ledger allows. -/

def OpenStep (rules : Rules T Op Ans S L) (x : S × (T → L)) (e : T × Op) (y : S × (T → L)) : Prop :=
  rules.allows e.1 e.2 (x.2 e.1) ∧ ∃ a, rules.exec e.1 e.2 x.1 a y.1 ∧
    y.2 = Function.update x.2 e.1 (rules.book e.1 e.2 (x.2 e.1) a)

theorem open_run (sound : Sound rules free inv) {x y : S × (T → L)} {es : List (T × Op)}
    (start : inv x.1 x.2) (run : Runs.Run (OpenStep rules) x es y) : inv y.1 y.2 := by
  apply Runs.run_invariant (fun z : S × (T → L) => inv z.1 z.2) start _ run
  rintro u e v kept ⟨ok, a, done, ledger⟩
  rw [ledger]
  exact (sound _ _ _ _ _ _ kept trivial ok done).2

end

/- Closed runs, computed with a function for the operations. -/
section
variable {T Op : Type} {Ans : Op → Type} {S L C : Type} [DecidableEq T]
  (rules : Rules T Op Ans S L) (next : T → (o : Op) → S → Option (Ans o × S))

def openNext [∀ t o l, Decidable (rules.allows t o l)] (x : S × (T → L)) (e : T × Op) :
    Option (S × (T → L)) :=
  if rules.allows e.1 e.2 (x.2 e.1) then
    (next e.1 e.2 x.1).map fun r => (r.2, Function.update x.2 e.1 (rules.book e.1 e.2 (x.2 e.1) r.1))
  else none

def stepNext (call : T → C → Prog Op Ans Unit) (c : Config T Op Ans S L) :
    Event T C → Option (Config T Op Ans S L)
  | .start t what => match c.code t with
    | .ret _ => some ⟨c.state, Function.update c.code t (call t what), c.ledger⟩
    | .op _ _ => none
  | .step t => match c.code t with
    | .ret _ => none
    | .op o k => (next t o c.state).map fun r => ⟨r.2, Function.update c.code t (k r.1),
        Function.update c.ledger t (rules.book t o (c.ledger t) r.1)⟩

instance (may : T → C → L → Prop) [∀ t what l, Decidable (may t what l)] (c : Config T Op Ans S L)
    (e : Event T C) : Decidable (Permits may c e) :=
  match e with
  | .start t what => inferInstanceAs (Decidable (may t what (c.ledger t)))
  | .step _ => .isTrue trivial

def permittedNext (may : T → C → L → Prop) [∀ t what l, Decidable (may t what l)]
    (call : T → C → Prog Op Ans Unit) (c : Config T Op Ans S L) (e : Event T C) :
    Option (Config T Op Ans S L) :=
  if Permits may c e then stepNext rules next call c e else none

variable {rules next} (real : ∀ t o s a s', next t o s = some (a, s') → rules.exec t o s a s')
include real

theorem openNext_step [∀ t o l, Decidable (rules.allows t o l)] (x : S × (T → L)) (e : T × Op)
    (y : S × (T → L)) (done : openNext rules next x e = some y) : OpenStep rules x e y := by
  unfold openNext at done
  split at done
  · rename_i ok
    obtain ⟨r, performed, rfl⟩ := Option.map_eq_some_iff.mp done
    exact ⟨ok, r.1, real _ _ _ _ _ performed, rfl⟩
  · cases done

theorem stepNext_step (call : T → C → Prog Op Ans Unit) (c : Config T Op Ans S L) (e : Event T C)
    (d : Config T Op Ans S L) (done : stepNext rules next call c e = some d) : Step rules call c e d := by
  cases e with
  | start t what =>
    simp only [stepNext] at done
    split at done
    · rename_i idle
      rw [← Option.some.inj done]
      exact .start what idle
    · cases done
  | step t =>
    simp only [stepNext] at done
    split at done
    · cases done
    rename_i o k code
    obtain ⟨r, performed, rfl⟩ := Option.map_eq_some_iff.mp done
    exact .step code (real _ _ _ _ _ performed)

theorem permittedNext_step (may : T → C → L → Prop) [∀ t what l, Decidable (may t what l)]
    (call : T → C → Prog Op Ans Unit) (c : Config T Op Ans S L) (e : Event T C) (d : Config T Op Ans S L)
    (done : permittedNext rules next may call c e = some d) : Runs.Guarded (Step rules call) (Permits may) c e d := by
  unfold permittedNext at done
  split at done
  · rename_i permits
    exact ⟨permits, stepNext_step real call c e d done⟩
  · cases done

end

theorem sum_update {T L M : Type} [Fintype T] [DecidableEq T] [AddCommMonoid M] (ledger : T → L)
    (f : T → L → M) (t : T) (l : L) :
    ∑ u, f u (update ledger t l u) + f t (ledger t) = ∑ u, f u (ledger u) + f t l := by
  have others : ∑ u ∈ Finset.univ.erase t, f u (update ledger t l u) = ∑ u ∈ Finset.univ.erase t, f u (ledger u) := by
    apply Finset.sum_congr rfl
    intro u mem
    rw [update_of_ne (Finset.ne_of_mem_erase mem)]
  rw [← Finset.add_sum_erase _ _ (Finset.mem_univ t), others, update_self,
    ← Finset.add_sum_erase _ (fun u => f u (ledger u)) (Finset.mem_univ t)]
  rw [add_comm (f t l), add_comm (f t (ledger t)), add_right_comm]

theorem le_sum {T : Type} [Fintype T] (f : T → Nat) (t : T) : f t ≤ ∑ u, f u :=
  Finset.single_le_sum (fun _ _ => Nat.zero_le _) (Finset.mem_univ t)

theorem two_le_sum {T : Type} [Fintype T] [DecidableEq T] (f : T → Nat) {t u : T} (other : u ≠ t) :
    f t + f u ≤ ∑ v, f v := by
  rw [← Finset.sum_pair other.symm]
  exact Finset.sum_le_sum_of_subset (Finset.subset_univ _)

end Threads
