import Xv6.DirSpec
import Xv6.SysFile

/- The file system as system calls see it: inodes with types and link counts, and directories
   as lists of numbered entries. -/
namespace Xv6Fs
open Xv6 Bytes

/-- A name as it is compared: up to its NUL, and no longer than a dirent holds. -/
def cname (s : List UInt8) : List UInt8 := (s.take dirSiz).takeWhile (· ≠ 0)

theorem strncmp_cons (n : Nat) (b c : UInt8) (p q : List UInt8) : strncmp (n + 1) (b :: p) (c :: q) =
      if b ≠ 0 ∧ b = c then strncmp n p q else (b.toNat : Int) - c.toNat := rfl

theorem strncmp_eq_zero (n : Nat) (p q : List UInt8) :
    strncmp n p q = 0 ↔ (p.take n).takeWhile (· ≠ 0) = (q.take n).takeWhile (· ≠ 0) := by
  induction n generalizing p q with
  | zero => simp [strncmp]
  | succ n ih =>
    have zero : ∀ c : UInt8, c.toNat = 0 ↔ c = 0 := fun c => by
      rw [← UInt8.toNat_inj]
      rfl
    cases p with
    | nil =>
      cases q with
      | nil => simp [strncmp]
      | cons c q =>
        by_cases empty : c = 0
        · simp [strncmp, empty]
        have pos : c.toNat ≠ 0 := fun same => empty ((zero c).mp same)
        simp [strncmp, empty]
        omega
    | cons b p =>
      cases q with
      | nil =>
        by_cases empty : b = 0
        · simp [strncmp, empty]
        · simp [strncmp, empty, zero]
      | cons c q =>
        by_cases empty : b = 0
        · subst b
          by_cases last : c = 0
          · simp [strncmp, last]
          have pos : c.toNat ≠ 0 := fun same => last ((zero c).mp same)
          simp [strncmp, last]
          omega
        by_cases same : b = c
        · subst c
          rw [strncmp_cons, if_pos ⟨empty, rfl⟩, ih p q]
          simp [empty]
        have apart : b.toNat ≠ c.toNat := fun eq => same (UInt8.toNat_inj.mp eq)
        rw [strncmp_cons, if_neg (fun holds => same holds.2)]
        by_cases last : c = 0
        · simp [empty, last, zero]
        simp [empty, last, same]
        omega

theorem namecmp_eq_zero (s t : List UInt8) : namecmp s t = 0 ↔ cname s = cname t :=
  strncmp_eq_zero dirSiz s t

theorem length_strncpy (n : Nat) (t : List UInt8) : (strncpy n t).length = n := by
  induction n generalizing t with
  | zero => rfl
  | succ n ih =>
    unfold strncpy
    split
    · exact List.length_replicate
    · rw [List.length_cons, ih]

theorem takeWhile_strncpy (n : Nat) (t : List UInt8) :
    (strncpy n t).takeWhile (· ≠ 0) = (t.take n).takeWhile (· ≠ 0) := by
  induction n generalizing t with
  | zero => simp [strncpy]
  | succ n ih =>
    cases t with
    | nil => simp [strncpy, List.replicate_succ]
    | cons c t =>
      by_cases empty : c = 0
      · simp [strncpy, empty, List.replicate_succ]
      have step := ih t
      simp [strncpy, empty] at step ⊢
      exact step

theorem cname_strncpy (t : List UInt8) : cname (strncpy dirSiz t) = cname t := by
  have whole : (strncpy dirSiz t).take dirSiz = strncpy dirSiz t :=
    List.take_of_length_le (by rw [length_strncpy])
  rw [cname, whole, takeWhile_strncpy, cname]

/-- An inode: entry k of a directory has the number it names, 0 for none, and a name. -/
structure Node where
  type : UInt16
  nlink : Int16
  count : Nat
  ent : Nat → Nat × List UInt8

namespace Node

def free : Node := ⟨0, 0, 0, fun _ => (0, [])⟩

def setNlink (n : Node) (nlink : Int16) : Node := { n with nlink := nlink }

def setEnt (n : Node) (k : Nat) (e : Nat × List UInt8) : Node :=
  { n with count := max n.count (k + 1), ent := Function.update n.ent k e }

/-- The first entry in use that has the name. -/
def slot (n : Node) (name : List UInt8) : Option Nat :=
  (List.range n.count).find? fun k => (n.ent k).1 ≠ 0 ∧ (n.ent k).2 = cname name

def lookup (n : Node) (name : List UInt8) : Option Nat := (n.slot name).map fun k => (n.ent k).1

end Node

abbrev Nodes := Nat → Node

def dirSlots (dn : Dinode) : Nat := if dn.type = tDir then dn.size.toNat / direntSize else 0

def nodeOf (d : Disk) (dn : Dinode) : Node :=
  if dn.type = 0 then .free
  else ⟨dn.type, dn.nlink, dirSlots dn, fun k =>
    if k < dirSlots dn then
      ((entryAt d dn (direntSize * k)).inum.toNat, cname (entryAt d dn (direntSize * k)).name)
    else (0, [])⟩

def nodes (s : Fs) (i : Nat) : Node :=
  if i < s.sb.ninodes then nodeOf s.disk (view s i) else .free

def Names (N : Nodes) (d k j : Nat) : Prop :=
  (N d).type = tDir ∧ 2 ≤ k ∧ k < (N d).count ∧ ((N d).ent k).1 = j ∧ j ≠ 0

/-- A directory that has been removed: no other directory has an entry for it. -/
def Orphan (N : Nodes) (i : Nat) : Prop := i ≠ rootIno ∧ ∀ d k, ¬ Names N d k i

def walk (N : Nodes) (parent : Bool) : Nat → List UInt8 → Nat → Option (Nat × List UInt8)
  | 0, _, _ => none
  | fuel + 1, path, i =>
    match skipelem path with
    | none => if parent then none else some (i, [])
    | some (name, rest) =>
      if (N i).type ≠ tDir then none
      else if parent ∧ rest = [] then some (i, name)
      else match (N i).lookup name with
        | none => none
        | some j => walk N parent fuel rest j

/-- The walk looks up ".." in a removed directory. -/
def Climbs (N : Nodes) (parent : Bool) : Nat → List UInt8 → Nat → Prop
  | 0, _, _ => False
  | fuel + 1, path, i =>
    match skipelem path with
    | none => False
    | some (name, rest) =>
      (N i).type = tDir ∧ ¬ (parent ∧ rest = []) ∧
        ((Orphan N i ∧ cname name = dotdot) ∨
          ∃ j, (N i).lookup name = some j ∧ Climbs N parent fuel rest j)

def pathStart (cwd : Nat) (path : List UInt8) : Nat :=
  if path.head? = some slash then rootIno else cwd

def resolve (N : Nodes) (cwd : Nat) (path : List UInt8) (parent : Bool) : Option (Nat × List UInt8) :=
  walk N parent (path.length + 1) path (pathStart cwd path)

def PathClimbs (N : Nodes) (cwd : Nat) (path : List UInt8) (parent : Bool) : Prop :=
  Climbs N parent (path.length + 1) path (pathStart cwd path)

end Xv6Fs
