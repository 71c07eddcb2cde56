import Mathlib.Logic.Function.Basic

/- Blocks with a mark, and places that hold blocks. -/
namespace Ownership
open Function
variable {L B : Type}

/-- In the area, a block is marked exactly if some place holds it, and one place does. -/
structure Tracks (area : B → Prop) (own : L → Option B) (used : B → Bool) : Prop where
  inside : ∀ l b, own l = some b → area b
  unique : ∀ l m b, own l = some b → own m = some b → l = m
  marked : ∀ b, area b → (used b = true ↔ ∃ l, own l = some b)

variable {area : B → Prop} {own : L → Option B} {used : B → Bool}

theorem tracks_held (tracks : Tracks area own used) {l : L} {b : B} (held : own l = some b) : used b = true :=
  (tracks.marked b (tracks.inside l b held)).mpr ⟨l, held⟩

theorem tracks_free (tracks : Tracks area own used) {b : B} (free : used b = false) (l : L) : own l ≠ some b := by
  intro held
  rw [tracks_held tracks held] at free
  cases free

theorem tracks_marks {used' : B → Bool} (tracks : Tracks area own used)
    (same : ∀ b, area b → used' b = used b) : Tracks area own used' where
  inside := tracks.inside
  unique := tracks.unique
  marked := by
    intro b mem
    rw [same b mem]
    exact tracks.marked b mem

variable [DecidableEq L] [DecidableEq B]

theorem tracks_attach (tracks : Tracks area own used) {l : L} {b : B} (mem : area b)
    (free : used b = false) (empty : own l = none) : Tracks area (update own l (some b)) (update used b true) := by
  constructor
  · intro k c held
    by_cases same : k = l
    · subst k
      rw [update_self] at held
      cases held
      exact mem
    rw [update_of_ne same] at held
    exact tracks.inside k c held
  · intro j k c first snd
    by_cases here : j = l
    · subst j
      rw [update_self] at first
      cases first
      by_cases there : k = l
      · exact there.symm
      rw [update_of_ne there] at snd
      exact absurd snd (tracks_free tracks free k)
    rw [update_of_ne here] at first
    by_cases there : k = l
    · subst k
      rw [update_self] at snd
      cases snd
      exact absurd first (tracks_free tracks free j)
    rw [update_of_ne there] at snd
    exact tracks.unique j k c first snd
  intro c inside
  by_cases same : c = b
  · subst c
    rw [update_self]
    exact ⟨fun _ => ⟨l, update_self _ _ _⟩, fun _ => rfl⟩
  rw [update_of_ne same, tracks.marked c inside]
  constructor
  · rintro ⟨k, held⟩
    refine ⟨k, ?_⟩
    rw [update_of_ne]
    · exact held
    rintro rfl
    rw [empty] at held
    cases held
  rintro ⟨k, held⟩
  by_cases here : k = l
  · subst k
    rw [update_self] at held
    exact absurd (Option.some.inj held).symm same
  rw [update_of_ne here] at held
  exact ⟨k, held⟩

theorem tracks_detach (tracks : Tracks area own used) {l : L} {b : B} (held : own l = some b) :
    Tracks area (update own l none) (update used b false) := by
  have away : ∀ k c, update own l none k = some c → k ≠ l ∧ own k = some c := by
    intro k c holds
    by_cases same : k = l
    · subst k
      rw [update_self] at holds
      cases holds
    rw [update_of_ne same] at holds
    exact ⟨same, holds⟩
  constructor
  · intro k c holds
    exact tracks.inside k c (away k c holds).2
  · intro j k c first snd
    exact tracks.unique j k c (away j c first).2 (away k c snd).2
  intro c inside
  by_cases same : c = b
  · subst c
    rw [update_self]
    constructor
    · intro marked
      cases marked
    rintro ⟨k, holds⟩
    obtain ⟨apart, other⟩ := away k b holds
    exact absurd (tracks.unique k l b other held) apart
  rw [update_of_ne same, tracks.marked c inside]
  constructor
  · rintro ⟨k, holds⟩
    refine ⟨k, ?_⟩
    rw [update_of_ne]
    · exact holds
    rintro rfl
    rw [held] at holds
    exact same (Option.some.inj holds).symm
  rintro ⟨k, holds⟩
  exact ⟨k, (away k c holds).2⟩

end Ownership
