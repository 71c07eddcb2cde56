import Xv6.KernelRuns

/- Rules for code that works on the data `ext` under its lock. -/
namespace Xv6Kern
open Threads Prog Xv6Proc
set_option linter.unusedSectionVars false

section
variable {n m : Nat} {X Y W A : Type} [DecidableEq W] {E : Ext n X Y W} {init p : Fin n}
  {calm : Chan n W → Prop} {l : Ledger n X Y W} {y : Y} {post : A → Ledger n X Y W → Prop}
variable {f : Unit → P n X Y W A}

structure Inside (note : Y) (k : Ledger n X Y W) : Prop where
  locks : k.locks = {.ext}
  mode : k.mode = .run
  bed : k.bed = none
  note : k.note = note
  know : k.know = Know.nothing
  clean : ∀ w, guardOf w ≠ some .ext → ¬ k.dirty w

theorem inside_held (inside : Inside y l) : .ext ∈ l.locks := sole_lock inside.locks

theorem inside_able (inside : Inside y l) : Able (.proc p : Thread n m) l := ⟨inside.mode, inside.bed⟩

theorem inside_blank (inside : Inside y l) : Blank l.know := by
  rw [inside.know]
  exact ⟨rfl, rfl, rfl⟩

theorem settled_ext (told : ∀ v, l.dirty (.ext v) → ∀ q, q ≠ p → l.awake .ext (.ext v) q) :
    Settled (some p) l .ext := by
  intro w guards owes q other
  cases w with
  | proc r => cases guards
  | other k => cases guards
  | ext v => exact told v owes q fun same => other (congrArg some same)

theorem wp_enter (home : Home y l)
    (next : ∀ k, Inside y k → k.view = none → (∀ w, ¬ k.dirty w) → procWp m E init calm p (f ()) k post) :
    procWp m E init calm p (act (.acquire .ext) >>= f) l post := by
  have free : .ext ∉ l.locks := by
    rw [home.locks]
    exact Finset.notMem_empty _
  refine wp_acquire (home_able home) free (next _ ⟨?_, home.mode, home.bed, home.note, home.know, ?_⟩ home.view home.dirty)
  · change insert Lk.ext l.locks = {.ext}
    rw [home.locks]
    rfl
  · exact fun w _ => home.dirty w

theorem wp_leave (inside : Inside y l) (told : ∀ v, l.dirty (.ext v) → ∀ q, q ≠ p → l.awake .ext (.ext v) q)
    (next : ∀ k, Home y k → procWp m E init calm p (f ()) k post) :
    procWp m E init calm p (act (.release .ext) >>= f) l post := by
  refine wp_release (inside_able inside) (inside_held inside) (settled_ext told) nofun ?_
  refine next _ ⟨?_, inside.mode, inside.bed, ?_, rfl, inside.note, inside.know⟩
  · change l.locks.erase .ext = ∅
    rw [inside.locks]
    simp
  · exact fun w owes => inside.clean w owes.1 owes.2

theorem wp_get {f : X → P n X Y W A} (inside : Inside y l)
    (next : ∀ x k, (∀ x₀, l.view = some x₀ → x = x₀) → Inside y k → k.view = some x → k.dirty = l.dirty →
      k.awake = l.awake → procWp m E init calm p (f x) k post) : procWp m E init calm p (act .get >>= f) l post := by
  refine wp_op (inside_held inside) fun x fits => ?_
  exact next x _ fits ⟨inside.locks, inside.mode, inside.bed, inside.note, inside.know, inside.clean⟩ rfl rfl rfl

theorem wp_put {x x' : X} {y' : Y} (inside : Inside y l) (view : l.view = some x) (may : ∀ k, E.may p k x y x' y')
    (next : ∀ k, Inside y' k → k.view = some x' →
      (∀ v, k.dirty (.ext v) → l.dirty (.ext v) ∨ E.ready v x' ∧ ¬ E.ready v x) →
      procWp m E init calm p (f ()) k post) : procWp m E init calm p (act (.put x' y') >>= f) l post := by
  refine wp_op ⟨inside_held inside, inside.mode, x, view, ?_⟩ fun _ _ => ?_
  · rw [inside.note]
    exact may
  refine next _ ⟨inside.locks, inside.mode, inside.bed, rfl, inside.know, ?_⟩ rfl ?_
  · rintro w other (prev | ⟨v, x₀, rfl, -⟩)
    · exact inside.clean w other prev
    · exact other rfl
  rintro v (prev | ⟨v', x₀, same, seen, ready, not⟩)
  · exact .inl prev
  cases same
  cases view.symm.trans seen
  exact .inr ⟨ready, not⟩

theorem wp_stamp {x : X} {x' : Nat → X} {y' : Y} (inside : Inside y l)
    (view : l.view = some x) (may : ∀ k, E.may p k x y (x' k) y')
    (next : ∀ k, Inside y' k → (∀ v, k.dirty (.ext v) → l.dirty (.ext v) ∨ ∃ j, E.ready v (x' j) ∧ ¬ E.ready v x) →
      procWp m E init calm p (f ()) k post) : procWp m E init calm p (act (.stamp x' y') >>= f) l post := by
  refine wp_op ⟨inside_held inside, inside.mode, x, view, ?_⟩ fun _ _ => ?_
  · rw [inside.note]
    exact may
  refine next _ ⟨inside.locks, inside.mode, inside.bed, rfl, inside.know, ?_⟩ ?_
  · rintro w other (prev | ⟨v, x₀, j, rfl, -⟩)
    · exact inside.clean w other prev
    · exact other rfl
  rintro v (prev | ⟨v', x₀, j, same, seen, ready, not⟩)
  · exact .inl prev
  cases same
  cases view.symm.trans seen
  exact .inr ⟨j, ready, not⟩

theorem wp_killed {f : Bool → P n X Y W A}
    (next : ∀ a, (a = true → ∀ w, calm w → ¬ l.dirty w) → procWp m E init calm p (f a) l post) :
    procWp m E init calm p (act .killed >>= f) l post :=
  wp_op trivial next

theorem wp_announce (v : W) (inside : Inside y l)
    (next : ∀ k, Inside y k → k.view = l.view → k.dirty = l.dirty → (∀ q, q ≠ p → k.awake .ext (.ext v) q) →
      procWp m E init calm p (f ()) k post) : procWp m E init calm p
      (wakeup (some p) (some (.ext v)) (List.finRange n) >>= f) l post := by
  refine wp_seq (wakeup_spec rfl _ _ (inside_able inside) ?_ (inside_blank inside)
    fun q missing => absurd (List.mem_finRange q) missing) ?_
  · intro q _
    rw [inside.locks]
    simp
  rintro _ k ⟨after, told⟩
  refine next k ⟨after.locks.trans inside.locks, after.mode.trans inside.mode, after.bed.trans inside.bed,
    after.note.trans inside.note, after.know.trans inside.know, ?_⟩ after.view after.dirty ?_
  · rw [after.dirty]
    exact inside.clean
  intro q other
  exact told q (fun same => other (Option.some.inj same)) .ext (inside_held inside) (.ext v) rfl

theorem wp_wait {v : W} {x : X} (inside : Inside y l) (view : l.view = some x) (not : ¬ E.ready v x)
    (told : ∀ v, l.dirty (.ext v) → ∀ q, q ≠ p → l.awake .ext (.ext v) q)
    (next : ∀ k, Inside y k → k.view = none → (∀ w, ¬ k.dirty w) → procWp m E init calm p (f ()) k post) :
    procWp m E init calm p (sleep p (.ext v) .ext >>= f) l post := by
  refine wp_sleep (inside_able inside) inside.locks nofun (settled_ext told) (.inr rfl) nofun ⟨x, view, not⟩
    (inside_blank inside) ?_
  intro k slept
  have clean : ∀ w, ¬ k.dirty w := by
    rw [slept.dirty]
    exact fun w owes => inside.clean w owes.1 owes.2
  exact next k ⟨slept.locks, slept.mode, slept.bed, slept.note.trans inside.note, slept.know.trans inside.know,
    fun w _ => clean w⟩ slept.view clean

def noteAfter : Op n X Y W → Y → Y
  | .put _ y, _ | .stamp _ y, _ => y
  | _, y => y

theorem book_note (me : Option (Fin n)) (l : Ledger n X Y W) (o : Op n X Y W) (a : Ans o) :
    (book E init me l o a).note = noteAfter o l.note := by
  cases o with
  | release lk =>
    obtain ⟨mode, same, -⟩ := book_release E init me l lk
    rw [same]
    rfl
  | pick p => cases a <;> rfl
  | isUnused q => cases a <;> rfl
  | zombie q => cases a <;> rfl
  | setProc p => cases p <;> rfl
  | _ => rfl

theorem note_step {calls : Calls n X Y W A} {guard : Kernel n m X W → (Thread n m → Ledger n X Y W) →
      Thread n m → Op n X Y W → Prop} {c c' : Conf n m X Y W} {e : Signal (Thread n m) (Call A) Irq}
    (step : KernStep E calls init calm guard c e c') (q : Fin n) :
    (c'.ledger (.proc q)).note = (c.ledger (.proc q)).note ∧ e ≠ .own (.step (.proc q)) ∨
      ∃ o k, e = .own (.step (.proc q)) ∧ c.code (.proc q) = .op o k ∧
        (c'.ledger (.proc q)).note = noteAfter o (c.ledger (.proc q)).note := by
  rcases ledger_step step q with ⟨same, other⟩ | ⟨o, k, a, acts, next, ledger⟩
  · exact .inl ⟨congrArg Ledger.note same, other⟩
  refine .inr ⟨o, k, acts, next, ?_⟩
  rw [ledger]
  exact book_note _ _ o a

end

end Xv6Kern
