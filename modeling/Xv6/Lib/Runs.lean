import Mathlib.Data.List.Induction
import Mathlib.Data.Option.Defs

/- Finite runs of a labelled step relation. A run lists its labels in order; the last
   step is outermost, so induction on a run peels off what happened last. -/
namespace Runs
variable {S E : Type}

inductive Run (step : S → E → S → Prop) (init : S) : List E → S → Prop where
  | nil : Run step init [] init
  | snoc {es : List E} {s t : S} {e : E} (before : Run step init es s) (last : step s e t) :
      Run step init (es ++ [e]) t

/-- The steps of a relation that meet a condition on the state before them. -/
def Guarded (step : S → E → S → Prop) (cond : S → E → Prop) (s : S) (e : E) (t : S) : Prop :=
  cond s e ∧ step s e t

variable {step : S → E → S → Prop} {cond : S → E → Prop} {init : S}

theorem run_invariant (inv : S → Prop) (start : inv init) (keep : ∀ s e t, inv s → step s e t → inv t)
    {es : List E} {s : S} (run : Run step init es s) : inv s := by
  induction run with
  | nil => exact start
  | snoc prev last ih => exact keep _ _ _ ih last

theorem run_nil_state {s : S} (run : Run step init [] s) : s = init := by
  generalize labels : ([] : List E) = es at run
  cases run with
  | nil => rfl
  | snoc prev last => simp at labels

theorem run_snoc_inv {es : List E} {e : E} {t : S} (run : Run step init (es ++ [e]) t) :
    ∃ s, Run step init es s ∧ step s e t := by
  generalize labels : es ++ [e] = all at run
  cases run with
  | nil => simp at labels
  | snoc prev last =>
    obtain ⟨rfl, same⟩ := List.append_inj' labels rfl
    cases same
    exact ⟨_, prev, last⟩

theorem guarded_of_run (cond : S → E → Prop) {es : List E} {s : S} (run : Run step init es s)
    (meets : ∀ prev e t, prev ++ [e] <+: es → Run step init prev t → cond t e) : Run (Guarded step cond) init es s := by
  induction run with
  | nil => exact .nil
  | @snoc es s t e prev last ih =>
    refine .snoc (ih ?_) ⟨meets es e s (List.prefix_refl _) prev, last⟩
    intro pre f u inside
    exact meets pre f u (inside.trans (List.prefix_append _ _))

/- Runs of a partial function, which a closed run can be computed with. -/
def exec (next : S → E → Option S) (s : S) (es : List E) : Option S := es.foldlM next s

theorem run_iff_exec (next : S → E → Option S) (es : List E) (s : S) :
    Run (fun s e t => next s e = some t) init es s ↔ exec next init es = some s := by
  induction es using List.reverseRecOn generalizing s with
  | nil =>
    constructor
    · intro run
      simp [exec, run_nil_state run]
    intro same
    simp only [exec, List.foldlM_nil, Option.pure_def, Option.some.injEq] at same
    subst s
    exact .nil
  | append_singleton es e ih =>
    simp only [exec, List.foldlM_append, List.foldlM_cons, List.foldlM_nil] at ih ⊢
    constructor
    · intro run
      obtain ⟨t, prev, last⟩ := run_snoc_inv run
      simp [(ih t).mp prev, last]
    intro computed
    obtain ⟨t, prev, last⟩ := Option.bind_eq_some_iff.mp computed
    exact .snoc ((ih t).mpr prev) (by simpa using last)

theorem exec_rel {S' : Type} {next : S → E → Option S} {next' : S' → E → Option S'} {rel : S → S' → Prop}
    (keeps : ∀ {s s'}, rel s s' → ∀ e, Option.Rel rel (next s e) (next' s' e)) {s : S} {s' : S'}
    (start : rel s s') (es : List E) : Option.Rel rel (exec next s es) (exec next' s' es) := by
  induction es generalizing s s' with
  | nil => exact .some start
  | cons e es ih =>
    have step := keeps start e
    simp only [exec, List.foldlM_cons]
    generalize next s e = t, next' s' e = t' at step
    cases step with
    | none => exact .none
    | some later => exact ih later

def after (next : S → E → Option S) (init : S) (es : List E) : S := (exec next init es).getD init

theorem run_after {next : S → E → Option S} (real : ∀ s e t, next s e = some t → step s e t) {es : List E}
    (computes : (exec next init es).isSome = true) : Run step init es (after next init es) := by
  obtain ⟨s, computed⟩ := Option.isSome_iff_exists.mp computes
  have run := (run_iff_exec next es s).mpr computed
  rw [after, computed, Option.getD_some]
  clear computes computed
  induction run with
  | nil => exact .nil
  | snoc prev last ih => exact .snoc ih (real _ _ _ last)

end Runs
