import Mathlib.Data.List.Nodup
import Mathlib.Data.Option.Basic

/- Circular doubly linked lists, as pointers of their nodes. The nodes are those of B and a
   head, which is none. -/
namespace Ring
open Function

structure Ptrs (A : Type) where
  next : A → A
  prev : A → A

section
variable {A : Type} {next prev : A → A}
variable {a b : A} {xs : List A}

/-- From a through xs to b, linked both ways. -/
def Links (next prev : A → A) : A → List A → A → Prop
  | a, [], b => next a = b ∧ prev b = a
  | a, x :: xs, b => next a = x ∧ prev x = a ∧ Links next prev x xs b

theorem links_append {a x b : A} {xs ys : List A} : Links next prev a (xs ++ x :: ys) b ↔
    Links next prev a xs x ∧ Links next prev x ys b := by
  induction xs generalizing a with
  | nil => simp [Links, and_assoc]
  | cons z zs ih => simp [Links, ih, and_assoc]

section
variable (links : Links next prev a xs b)
include links

theorem links_reverse : Links prev next b xs.reverse a := by
  induction xs generalizing a with
  | nil => exact ⟨links.2, links.1⟩
  | cons x xs ih =>
    obtain ⟨first, back, rest⟩ := links
    rw [List.reverse_cons]
    exact links_append.mpr ⟨ih rest, back, first⟩

theorem links_congr {next' prev' : A → A}
    (nexts : ∀ x ∈ a :: xs, next' x = next x) (prevs : ∀ x ∈ xs ++ [b], prev' x = prev x) :
    Links next' prev' a xs b := by
  induction xs generalizing a with
  | nil =>
    rw [Links, nexts a (by simp), prevs b (by simp)]
    exact links
  | cons x xs ih =>
    obtain ⟨first, back, rest⟩ := links
    refine ⟨by rw [nexts a (by simp), first], by rw [prevs x (by simp), back], ih rest ?_ ?_⟩
    · exact fun y there => nexts y (List.mem_cons_of_mem a there)
    · exact fun y there => prevs y (List.mem_cons_of_mem x there)

theorem links_next : next a ∈ xs ++ [b] := by
  cases xs with
  | nil => simp [links.1]
  | cons x xs => simp [links.1]

theorem links_prev : prev b ∈ a :: xs := by
  have back := links_next (links_reverse links)
  simpa [or_comm] using back

end

end

section
variable {A : Type} [DecidableEq A]

def Ptrs.setNext (p : Ptrs A) (a b : A) : Ptrs A := { p with next := Function.update p.next a b }
def Ptrs.setPrev (p : Ptrs A) (a b : A) : Ptrs A := { p with prev := Function.update p.prev a b }

def unlink (p : Ptrs A) (x : A) : Ptrs A :=
  let p := p.setPrev (p.next x) (p.prev x)
  p.setNext (p.prev x) (p.next x)

def pushFront (head : A) (p : Ptrs A) (x : A) : Ptrs A :=
  let p := p.setNext x (p.next head)
  let p := p.setPrev x head
  let p := p.setPrev (p.next head) x
  p.setNext head x

theorem links_unlink {next prev : A → A} {a x b : A} {xs ys : List A} (before : Links next prev a xs x)
    (after : Links next prev x ys b) (nodup : (a :: xs ++ x :: ys).Nodup) (ends : b ∉ xs ++ x :: ys) :
    Links (update next (prev x) (next x)) (update prev (next x) (prev x)) a (xs ++ ys) b := by
  induction xs generalizing a with
  | nil =>
    obtain ⟨-, back⟩ := before
    cases ys with
    | nil => simp [Links, after.1, back]
    | cons y ys =>
      obtain ⟨first, -, rest⟩ := after
      simp only [List.nil_append, List.cons_append, List.nodup_cons, List.mem_cons, not_or] at nodup ends
      refine ⟨by simp [back, first], by simp [first, back], links_congr rest ?_ ?_⟩
      · intro z there
        apply update_of_ne
        rintro rfl
        rw [back, List.mem_cons] at there
        tauto
      intro z there
      apply update_of_ne
      rintro rfl
      rw [first, List.mem_append, List.mem_singleton] at there
      rcases there with inside | last
      · tauto
      · exact ends.2.1 last.symm
  | cons z zs ih =>
    obtain ⟨first, back, rest⟩ := before
    have last := links_prev rest
    have new := links_next after
    have apart : (z :: zs ++ x :: ys).Nodup := (List.nodup_cons.mp nodup).2
    refine ⟨?_, ?_, ih rest apart fun there => ends (List.mem_cons_of_mem z there)⟩
    · rw [update_of_ne, first]
      rintro rfl
      exact (List.nodup_cons.mp nodup).1 (List.mem_append_left _ last)
    rw [update_of_ne, back]
    rintro rfl
    rcases List.mem_append.mp new with inside | last
    · exact (List.nodup_cons.mp apart).1 (List.mem_append_right zs (List.mem_cons_of_mem x inside))
    rw [List.mem_singleton] at last
    exact ends (by simp [← last])

end

section
variable {B : Type}

/-- The pointers go through xs once around. -/
structure IsRing (p : Ptrs (Option B)) (xs : List B) : Prop where
  nodup : xs.Nodup
  links : Links p.next p.prev none (xs.map some) none

variable {p : Ptrs (Option B)} {xs ys : List B}

theorem nodup_head (nodup : xs.Nodup) : (none :: xs.map some).Nodup := by
  refine List.nodup_cons.mpr ⟨by simp, nodup.map (Option.some_injective B)⟩

theorem ring_unlink [DecidableEq B] {x : B} (ring : IsRing p (xs ++ x :: ys)) :
    IsRing (unlink p (some x)) (xs ++ ys) := by
  have whole := nodup_head ring.nodup
  have links := ring.links
  simp only [List.map_append, List.map_cons] at whole links
  obtain ⟨prev, after⟩ := links_append.mp links
  -- the first assignment leaves x's own pointers as they are
  have stays : p.next (some x) ≠ some x := by
    intro self
    have new := links_next after
    rw [self] at new
    have apart : some x ∉ ys.map some := by
      rw [List.nodup_cons, List.nodup_middle, List.nodup_cons] at whole
      exact fun there => whole.2.1 (List.mem_append_right _ there)
    simp only [List.mem_append, List.mem_singleton, reduceCtorEq, or_false] at new
    exact apart new
  refine ⟨(List.nodup_cons.mp (List.nodup_middle.mp ring.nodup)).2, ?_⟩
  have done := links_unlink prev after whole (by simp)
  rw [List.map_append]
  simpa [unlink, Ptrs.setNext, Ptrs.setPrev, update_of_ne stays.symm] using done

theorem ring_pushFront [DecidableEq B] {x : B} (ring : IsRing p xs) (new : x ∉ xs) :
    IsRing (pushFront none p (some x)) (x :: xs) := by
  obtain ⟨nodup, links⟩ := ring
  refine ⟨List.nodup_cons.mpr ⟨new, nodup⟩, ?_⟩
  cases xs with
  | nil => simp [Links, pushFront, Ptrs.setNext, Ptrs.setPrev, links.1]
  | cons y ys =>
    obtain ⟨first, -, rest⟩ := links
    have other : x ≠ y := by
      rintro rfl
      exact new List.mem_cons_self
    simp only [List.map_cons, Links, pushFront, Ptrs.setNext, Ptrs.setPrev, first]
    refine ⟨by simp, by simp [first, other], by simp, by simp [first], links_congr rest ?_ ?_⟩
    · intro z there
      have apart : z ≠ none ∧ z ≠ some x := by
        constructor
        · rintro rfl
          simp at there
        rintro rfl
        rw [← List.map_cons, List.mem_map_of_injective (Option.some_injective B)] at there
        exact new there
      simp [apart]
    intro z there
    have apart : z ≠ some y ∧ z ≠ some x := by
      constructor
      · rintro rfl
        simp at there
        exact (List.nodup_cons.mp nodup).1 there
      rintro rfl
      simp at there
      exact new (List.mem_cons_of_mem y there)
    simp [first, apart]

/-- The first node that meets the condition, as a loop finds it that ends at the head. -/
def walk (step : Option B → Option B) (found : B → Bool) : Nat → Option B → Option B
  | 0, _ => none
  | _ + 1, none => none
  | fuel + 1, some b => if found b then some b else walk step found fuel (step (some b))

theorem walk_find {next prev : Option B → Option B} (found : B → Bool) {a : Option B} {fuel : Nat}
    (links : Links next prev a (xs.map some) none) (enough : xs.length < fuel) :
    walk next found fuel (next a) = xs.find? found := by
  induction xs generalizing a fuel with
  | nil =>
    obtain ⟨fuel, rfl⟩ := Nat.exists_eq_succ_of_ne_zero (by omega : fuel ≠ 0)
    rw [links.1]
    rfl
  | cons x xs ih =>
    obtain ⟨fuel, rfl⟩ := Nat.exists_eq_succ_of_ne_zero (by omega : fuel ≠ 0)
    obtain ⟨first, -, rest⟩ := links
    rw [first, walk, List.find?_cons]
    cases found x with
    | true => rfl
    | false => exact ih rest (by simpa using enough)

theorem ring_find (ring : IsRing p xs) (found : B → Bool) {fuel : Nat} (enough : xs.length < fuel) :
    walk p.next found fuel (p.next none) = xs.find? found :=
  walk_find found ring.links enough

theorem ring_findLast (ring : IsRing p xs) (found : B → Bool) {fuel : Nat} (enough : xs.length < fuel) :
    walk p.prev found fuel (p.prev none) = xs.reverse.find? found := by
  have back := links_reverse ring.links
  rw [← List.map_reverse] at back
  exact walk_find found back (by simpa using enough)

end

end Ring
