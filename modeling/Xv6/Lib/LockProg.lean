import Mathlib.Data.Finset.Card

/- Kernel code as the commands it issues: spinlocks L, threads P, shared state S. Other
   CPUs run between any two commands, so a command sees an arbitrary shared state. -/
namespace LockProg

inductive Prog (L P S : Type) (A : Type) where
  | ret (a : A)
  | halt (msg : String)
  -- a loop whose further turns are not followed
  | more
  | pushOff (k : Prog L P S A)
  | popOff (k : Prog L P S A)
  | lock (l : L) (k : Prog L P S A)
  | unlock (l : L) (k : Prog L P S A)
  | setIntr (on : Bool) (k : Prog L P S A)
  | setIntena (on : Bool) (k : Prog L P S A)
  -- give up the CPU until a scheduler switches back
  | sched (k : Prog L P S A)
  -- give a thread its first context
  | spawn (p : P) (k : Prog L P S A)
  | act (f : S → S) (k : S → Prog L P S A)
  -- an outcome that the named code decides
  | ask (what : String) (k : Nat → Prog L P S A)
  -- a named program point, without effect
  | mark (name : String) (k : Prog L P S A)

namespace Prog
variable {L P S A B : Type}

def bind : Prog L P S A → (A → Prog L P S B) → Prog L P S B
  | ret a, f => f a
  | halt msg, _ => halt msg
  | more, _ => more
  | pushOff k, f => pushOff (k.bind f)
  | popOff k, f => popOff (k.bind f)
  | lock l k, f => lock l (k.bind f)
  | unlock l k, f => unlock l (k.bind f)
  | setIntr on k, f => setIntr on (k.bind f)
  | setIntena on k, f => setIntena on (k.bind f)
  | sched k, f => sched (k.bind f)
  | spawn p k, f => spawn p (k.bind f)
  | act g k, f => act g (fun s => (k s).bind f)
  | ask what k, f => ask what (fun n => (k n).bind f)
  | mark name k, f => mark name (k.bind f)

instance : Monad (Prog L P S) where
  pure := ret
  bind := bind

def peek : Prog L P S S := act id ret
def update (f : S → S) : Prog L P S Unit := act f (fun _ => ret ())

def choice (what : String) : Prog L P S Nat := ask what ret
def onlyIf (b : Bool) (x : Prog L P S Unit) : Prog L P S Unit := if b then x else ret ()

def acquire (l : L) : Prog L P S Unit := pushOff (lock l (ret ()))
def release (l : L) : Prog L P S Unit := unlock l (popOff (ret ()))

end Prog

open Prog

def lockPanics : List String :=
  ["acquire", "release", "pop_off", "pop_off - interruptible", "sched p->lock", "sched locks",
    "sched interruptible"]

/-- Which runs are asked about: those that pass no point to avoid, with outcomes of the
    other code among those allowed. -/
structure Assumed where
  avoid : String → Prop
  allowed : String → Nat → Prop

section
variable {L P S A B : Type} [DecidableEq L]
variable {held : Finset L} {n : Nat} {post : B → Finset L → Nat → Prop}

/-- Holding the locks `held` at depth `n`, the program breaks no lock rule whatever the
    others do, and ends in `post`, in runs as assumed. `own` is the one lock held across
    sched. -/
def wp (own : L) (asm : Assumed) :
    Prog L P S A → Finset L → Nat → (A → Finset L → Nat → Prop) → Prop
  | ret a, held, n, post => post a held n
  | halt msg, _, _, _ => msg ∉ lockPanics
  | more, _, _, _ => True
  | pushOff k, held, n, post => wp own asm k held (n + 1) post
  | popOff k, held, n, post => held.card < n ∧ wp own asm k held (n - 1) post
  | lock l k, held, n, post => l ∉ held ∧ held.card < n ∧ wp own asm k (insert l held) n post
  | unlock l k, held, n, post => l ∈ held ∧ wp own asm k (held.erase l) n post
  | setIntr on k, held, n, post => (on = true → n = 0) ∧ wp own asm k held n post
  | setIntena _ k, held, n, post => wp own asm k held n post
  | sched k, held, n, post => held = {own} ∧ n = 1 ∧ wp own asm k held n post
  | spawn _ k, held, n, post => wp own asm k held n post
  | act _ k, held, n, post => ∀ s, wp own asm (k s) held n post
  | ask what k, held, n, post => ∀ i, asm.allowed what i → wp own asm (k i) held n post
  | mark name k, held, n, post => ¬ asm.avoid name → wp own asm k held n post

variable {own : L} {asm : Assumed}

theorem wp_mono {k : Prog L P S A} {post post' : A → Finset L → Nat → Prop} (weaker : ∀ a h m, post a h m → post' a h m)
    (holds : wp own asm k held n post) : wp own asm k held n post' := by
  induction k generalizing held n with
  | ret a => exact weaker a held n holds
  | halt msg => exact holds
  | more => trivial
  | pushOff k ih => exact ih holds
  | popOff k ih | unlock l k ih | setIntr on k ih => exact ⟨holds.1, ih holds.2⟩
  | lock l k ih => exact ⟨holds.1, holds.2.1, ih holds.2.2⟩
  | setIntena on k ih => exact ih holds
  | sched k ih => exact ⟨holds.1, holds.2.1, ih holds.2.2⟩
  | spawn p k ih => exact ih holds
  | act f k ih => exact fun s => ih s (holds s)
  | ask what k ih => exact fun i ok => ih i (holds i ok)
  | mark name k ih => exact fun passes => ih (holds passes)

theorem wp_bind (x : Prog L P S A) (f : A → Prog L P S B) (held : Finset L) (n : Nat)
    (post : B → Finset L → Nat → Prop) : wp own asm (x >>= f) held n post ↔
      wp own asm x held n (fun a h m => wp own asm (f a) h m post) := by
  change wp own asm (x.bind f) held n post ↔ _
  induction x generalizing held n with
  | act g k ih | ask what k ih => simp only [Prog.bind, wp, ih]
  | _ => simp_all only [Prog.bind, wp]

/- The rule of composition: the first program ends where the second may start. -/
theorem wp_seq {x : Prog L P S A} {f : A → Prog L P S B} {mid : A → Finset L → Nat → Prop}
    (first : wp own asm x held n mid) (snd : ∀ a h m, mid a h m → wp own asm (f a) h m post) :
    wp own asm (x >>= f) held n post := by
  rw [wp_bind]
  exact wp_mono snd first

/-- The program returns with the locks and the depth it started with. -/
def Keeps (own : L) (asm : Assumed) (x : Prog L P S A) (held : Finset L) (n : Nat) : Prop :=
  wp own asm x held n (fun _ h m => h = held ∧ m = n)

theorem keeps_then {x : Prog L P S A} {f : A → Prog L P S B} (first : Keeps own asm x held n)
    (snd : ∀ a, wp own asm (f a) held n post) : wp own asm (x >>= f) held n post := by
  apply wp_seq first
  intro a h m same
  rw [same.1, same.2]
  exact snd a

theorem acquire_then {l : L} {f : Unit → Prog L P S B} (free : l ∉ held) (depth : held.card ≤ n)
    (next : wp own asm (f ()) (insert l held) (n + 1) post) : wp own asm (acquire l >>= f) held n post :=
  ⟨free, by omega, next⟩

theorem release_then {l : L} {f : Unit → Prog L P S B} (free : l ∉ held) (depth : held.card ≤ n)
    (next : wp own asm (f ()) held n post) : wp own asm (release l >>= f) (insert l held) (n + 1) post := by
  refine ⟨Finset.mem_insert_self l held, ?_⟩
  rw [Finset.erase_insert free]
  exact ⟨by omega, next⟩

theorem wp_release {l : L} {post : Unit → Finset L → Nat → Prop} (free : l ∉ held) (depth : held.card ≤ n)
    (next : post () held n) : wp own asm (release l : Prog L P S Unit) (insert l held) (n + 1) post := by
  refine ⟨Finset.mem_insert_self l held, ?_⟩
  rw [Finset.erase_insert free]
  exact ⟨by omega, next⟩

theorem keeps_pair {l : L} (free : l ∉ held) (depth : held.card ≤ n) :
    Keeps own asm (do acquire l; release l : Prog L P S Unit) held n :=
  acquire_then free depth (wp_release free depth ⟨rfl, rfl⟩)

theorem wp_onlyIf {b : Bool} {x : Prog L P S Unit} {post : Unit → Finset L → Nat → Prop}
    (taken : wp own asm x held n post) (skipped : post () held n) : wp own asm (onlyIf b x) held n post := by
  cases b with
  | false => exact skipped
  | true => exact taken

end

end LockProg
