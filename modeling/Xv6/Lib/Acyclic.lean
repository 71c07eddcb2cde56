import Mathlib.Data.Finset.Card
import Mathlib.Data.Fintype.Defs
import Mathlib.Logic.Relation

/- Relations without cycles, and ranks that grow along them. -/
namespace Acyclic
open Relation
variable {A : Type} {r : A → A → Prop}

theorem cycle_next {a : A} (cycle : TransGen r a a) : ∃ b, r a b ∧ TransGen r b b := by
  obtain ⟨b, step, rest⟩ := TransGen.head'_iff.mp cycle
  exact ⟨b, step, TransGen.tail' rest step⟩

theorem no_cycle (rank : A → Nat) (grows : ∀ a b c d, r a b → r b c → r c d → rank a < rank b)
    (a : A) : ¬ TransGen r a a := by
  have step : ∀ x y, r x y → TransGen r y y → rank x < rank y := by
    intro x y first cycle
    obtain ⟨z, snd, more⟩ := cycle_next cycle
    obtain ⟨w, third, -⟩ := cycle_next more
    exact grows x y z w first snd third
  have path : ∀ b, TransGen r a b → TransGen r b a → rank a < rank b := by
    intro b there
    induction there with
    | single first =>
      intro back
      exact step _ _ first (back.tail first)
    | @tail x y prev last ih =>
      intro back
      have later := step x y last ((back.trans prev).tail last)
      have earlier := ih (TransGen.head last back)
      omega
  intro cycle
  exact absurd (path a cycle cycle) (lt_irrefl _)

open Classical in
/-- A relation without cycles, in which the points above each point are among finitely many,
    has a bounded rank. -/
theorem bounded_rank (acyclic : ∀ a, ¬ TransGen r a a) (above : A → Finset A) (n : Nat)
    (same : ∀ a b, r a b → above a = above b) (found : ∀ a b c, r a b → r b c → b ∈ above c)
    (bound : ∀ a, (above a).card ≤ n) : ∃ rank : A → Nat, (∀ a, rank a ≤ n + 1) ∧ ∀ a b, r a b → rank a < rank b := by
  refine ⟨fun a => ((above a).filter fun x => TransGen r x a).card + if ∃ c, r c a then 1 else 0, ?_, ?_⟩
  · intro a
    have part := (Finset.card_filter_le (above a) fun x => TransGen r x a).trans (bound a)
    dsimp only
    split <;> omega
  intro a b step
  have more : ((above a).filter fun x => TransGen r x a) ⊆ (above b).filter fun x => TransGen r x b := by
    intro x old
    rw [Finset.mem_filter] at old ⊢
    exact ⟨same a b step ▸ old.1, old.2.tail step⟩
  have reached : ∃ c, r c b := ⟨a, step⟩
  dsimp only
  rw [if_pos reached]
  by_cases inner : ∃ c, r c a
  · obtain ⟨c, earlier⟩ := inner
    have smaller : ((above a).filter fun x => TransGen r x a).card <
        ((above b).filter fun x => TransGen r x b).card := by
      apply Finset.card_lt_card
      refine ⟨more, fun back => ?_⟩
      have here : a ∈ (above b).filter fun x => TransGen r x b :=
        Finset.mem_filter.mpr ⟨found c a b earlier step, .single step⟩
      exact acyclic a (Finset.mem_filter.mp (back here)).2
    split <;> omega
  rw [if_neg inner]
  have count := Finset.card_le_card more
  omega

end Acyclic
