import Xv6.Pipe
import Xv6.UserCopy

/- The copying loop of piperead with the reader's page table. The reader has pi->lock throughout. -/
namespace Xv6Pipe
open Xv6Vm Bytes Function

section
variable {n N : Nat} {t : Table N} {addr count : Nat} {x x₀ : Pipe n} {mem : Ram N}

def userAt (addr i : Nat) : Nat := (addr + i) % 2 ^ 64

/-- The loop from index i on, with `left` bytes to go: i where it ends, the pipe and the memory. -/
def pipereadInto (t : Table N) (addr : Nat) : Nat → Nat → Pipe n → Ram N → Nat × Pipe n × Ram N
  | 0, i, x, mem => (i, x, mem)
  | left + 1, i, x, mem =>
    if x.empty then (i, x, mem)
    else
      let ch := x.data (Fin.ofNat PIPESIZE x.nread.toNat)
      match copyout t mem (userAt addr i) (fun _ => ch) 1 with
      | (true, mem) => pipereadInto t addr left (i + 1) x.take mem
      | (false, mem) => (i, x.take, mem)

theorem copyout_one (t : Table N) (mem : Ram N) (va : Nat) (ch : UInt8) : copyout t mem va (fun _ => ch) 1 =
    match walkaddr t va with
    | none => (false, mem)
    | some f => (true, update mem f (update (mem f) (va % PGSIZE) ch)) := by
  have room : min (PGSIZE - va % PGSIZE) 1 = 1 := by
    have offset := Nat.mod_lt va (show 0 < PGSIZE by decide)
    omega
  rw [copyout, copyLoop, if_neg (by decide), walkaddr_start, offset_eq]
  cases walkaddr t va with
  | none => rfl
  | some f =>
    simp only [room, copyLoop]
    rw [← putBytes_snoc, putBytes_none, Nat.add_zero]

/-- Two indices of the buffer that are one byte of the memory. -/
def Aliased (t : Table N) (addr j k : Nat) : Prop :=
  walkaddr t (userAt addr j) = walkaddr t (userAt addr k) ∧ userAt addr j % PGSIZE = userAt addr k % PGSIZE

/-- i bytes have left the pipe and stand in the user's buffer. -/
def Delivered (t : Table N) (addr : Nat) (x₀ : Pipe n) (i : Nat) (x : Pipe n) (mem : Ram N) : Prop :=
  ∃ bytes : List UInt8, bytes.length = i ∧ x.takes = x₀.takes ++ bytes ∧ x.nread = x₀.nread + UInt32.ofNat i ∧
    ∀ k < i, ∀ f, walkaddr t (userAt addr k) = some f → (∀ j, k < j → j < i → ¬ Aliased t addr j k) →
      mem f (userAt addr k % PGSIZE) = bytes.getD k 0

theorem delivered_next {i : Nat} {f : Frame N} (prev : Delivered t addr x₀ i x mem)
    (found : walkaddr t (userAt addr i) = some f) : Delivered t addr x₀ (i + 1) x.take (update mem f
      (update (mem f) (userAt addr i % PGSIZE) (x.data (Fin.ofNat PIPESIZE x.nread.toNat)))) := by
  obtain ⟨bytes, length, takes, nread, stored⟩ := prev
  refine ⟨bytes ++ [x.data (Fin.ofNat PIPESIZE x.nread.toNat)], by simp [length], ?_, ?_, ?_⟩
  · simp [Pipe.take, takes]
  · simp [Pipe.take, nread, UInt32.add_assoc]
  intro k less g there apart
  rcases Nat.lt_succ_iff_lt_or_eq.mp less with earlier | rfl
  · have alone := apart i earlier (Nat.lt_succ_self i)
    have byte := stored k earlier g there fun j after below => apart j after (by omega)
    rw [List.getD_eq_getElem?_getD, List.getElem?_append_left (by omega), ← List.getD_eq_getElem?_getD, ← byte]
    by_cases same : g = f
    · subst g
      have other : userAt addr k % PGSIZE ≠ userAt addr i % PGSIZE :=
        fun eq => alone ⟨found.trans there.symm, eq.symm⟩
      rw [update_self, update_of_ne other]
    · rw [update_of_ne same]
  cases found.symm.trans there
  rw [update_self, update_self, ← length]
  simp

theorem delivered_run {left i : Nat} (mapped : ∀ k < i + left, walkaddr t (userAt addr k) ≠ none)
    (prev : Delivered t addr x₀ i x mem) :
    Delivered t addr x₀ (pipereadInto t addr left i x mem).1 (pipereadInto t addr left i x mem).2.1
      (pipereadInto t addr left i x mem).2.2 := by
  induction left generalizing i x mem with
  | zero => exact prev
  | succ left ih =>
    rw [pipereadInto]
    split
    · exact prev
    obtain ⟨f, found⟩ := Option.ne_none_iff_exists'.mp (mapped i (by omega))
    simp only [copyout_one, found]
    exact ih (fun k less => mapped k (by omega)) (delivered_next prev found)

end

def oneByte : Pipe 1 := { Pipe.alloc (fun _ => 65) with nwrite := 1 }

end Xv6Pipe
