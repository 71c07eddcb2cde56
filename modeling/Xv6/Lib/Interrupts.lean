import Xv6.Lib.Threads

/- Threads that can be interrupted: a handler runs on the thread, between two of its operations,
   and leaves it with the ledger that it found. -/
namespace Threads
open Prog

inductive Signal (T C H : Type) where
  | own (e : Event T C)
  | interrupt (t : T) (h : H)

section
variable {T Op : Type} {Ans : Op → Type} {S L C H : Type} [DecidableEq T]

inductive SignalStep (rules : Rules T Op Ans S L) (call : T → C → Prog Op Ans Unit)
    (handler : T → H → Prog Op Ans Unit) :
    Config T Op Ans S L → Signal T C H → Config T Op Ans S L → Prop where
  | own {c d : Config T Op Ans S L} {e : Event T C} (step : Step rules call c e d) :
      SignalStep rules call handler c (.own e) d
  | interrupt {c : Config T Op Ans S L} (t : T) (h : H) :
      SignalStep rules call handler c (.interrupt t h)
        ⟨c.state, Function.update c.code t (handler t h >>= fun _ => c.code t), c.ledger⟩

/-- Threads make calls that they may make, and are interrupted where the ledger allows it. -/
def Tame (may : T → C → L → Prop) (enabled : T → H → L → Prop)
    (guard : S → (T → L) → T → Op → Prop) (c : Config T Op Ans S L) : Signal T C H → Prop
  | .own e => Permits may c e ∧ Meets guard c e
  | .interrupt t h => enabled t h (c.ledger t)

variable {rules : Rules T Op Ans S L} {guard : S → (T → L) → T → Op → Prop}
  {inv : S → (T → L) → Prop} {rest : T → L → Prop} {call : T → C → Prog Op Ans Unit}
  {handler : T → H → Prog Op Ans Unit} {may : T → C → L → Prop} {enabled : T → H → L → Prop}

theorem safe_signals (sound : Sound rules guard inv)
    (calls : ∀ t what l, rest t l → may t what l → wp rules t (call t what) l fun _ l => rest t l)
    (handlers : ∀ s ledger t h, inv s ledger → enabled t h (ledger t) →
      wp rules t (handler t h) (ledger t) fun _ m => m = ledger t)
    {init c : Config T Op Ans S L} {es : List (Signal T C H)} (start : Safe rules inv rest init)
    (run : Runs.Run (Runs.Guarded (SignalStep rules call handler) (Tame may enabled guard)) init es c) :
    Safe rules inv rest c := by
  induction run with
  | nil => exact start
  | snoc prev last ih =>
    obtain ⟨tame, step⟩ := last
    cases step with
    | own step => exact safe_step sound calls ih tame.1 tame.2 step
    | interrupt t h =>
      refine ⟨ih.inv, ?_⟩
      intro u
      by_cases same : u = t
      · subst u
        simp only [Function.update_self]
        apply wp_seq (handlers _ _ t h ih.inv tame)
        rintro _ m rfl
        exact ih.code t
      simp only [Function.update_of_ne same]
      exact ih.code u

end

/- Closed runs. -/
section
variable {T Op : Type} {Ans : Op → Type} {S L C H : Type} [DecidableEq T]
  (rules : Rules T Op Ans S L) (next : T → (o : Op) → S → Option (Ans o × S))
  (call : T → C → Prog Op Ans Unit) (handler : T → H → Prog Op Ans Unit)

def signalNext (c : Config T Op Ans S L) : Signal T C H → Option (Config T Op Ans S L)
  | .own e => stepNext rules next call c e
  | .interrupt t h =>
      some ⟨c.state, Function.update c.code t (handler t h >>= fun _ => c.code t), c.ledger⟩

variable {rules next} (real : ∀ t o s a s', next t o s = some (a, s') → rules.exec t o s a s')
include real

theorem signalNext_step (c : Config T Op Ans S L) (e : Signal T C H) (d : Config T Op Ans S L)
    (done : signalNext rules next call handler c e = some d) : SignalStep rules call handler c e d := by
  cases e with
  | own e => exact .own (stepNext_step real call c e d done)
  | interrupt t h =>
    rw [← Option.some.inj done]
    exact .interrupt t h

end

end Threads
