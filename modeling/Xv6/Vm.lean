import Mathlib

/- kernel/kalloc.c and the user page tables of kernel/vm.c. The pages of [end, PHYSTOP) are numbered;
   a page table is known by the page of its root. Its nodes of level 1 and 0 and its PTEs stand in
   it under the part of the address that selects them: va >> 30, va >> 21 and va >> 12. -/
namespace Xv6Vm

def PGSIZE : Nat := 4096
def MAXVA : Nat := 2 ^ 38
def TRAMPOLINE : Nat := MAXVA - PGSIZE
def TRAPFRAME : Nat := TRAMPOLINE - PGSIZE

def pgroundup (sz : Nat) : Nat := (sz + PGSIZE - 1) / PGSIZE * PGSIZE

/-- What a leaf maps: a page, or the page of the trampoline code, which is below `end`. -/
inductive Frame (N : Nat) where
  | page (pg : Fin N)
  | trampoline
  deriving DecidableEq

/-- PTE_W, PTE_X and PTE_U; every leaf that the kernel makes has PTE_R. -/
structure Perm where
  w : Bool
  x : Bool
  u : Bool
  deriving DecidableEq

structure Leaf (N : Nat) where
  frame : Frame N
  perm : Perm
  deriving DecidableEq

structure Table (N : Nat) where
  mid : Nat → Option (Fin N)
  low : Nat → Option (Fin N)
  leaf : Nat → Option (Leaf N)

/-- kmem.freelist and the page tables in memory. luck says at which of the coming calls kalloc
    fails though there is a page; twice records that a free page was freed. -/
structure Vm (N : Nat) where
  freelist : List (Fin N)
  tables : Fin N → Table N
  luck : List Bool
  twice : Bool

section
variable {N : Nat}

instance lawful_pages : LawfulBEq (Fin N) := inferInstance

def Table.empty : Table N := ⟨fun _ => none, fun _ => none, fun _ => none⟩

/-- A page at level 1, filled with zeroes, or none. -/
def Table.setMid (t : Table N) (k : Nat) (pg : Option (Fin N)) : Table N :=
  { t with mid := Function.update t.mid k pg, low := fun j => if j / 512 = k then none else t.low j }

def Table.setLow (t : Table N) (j : Nat) (pg : Option (Fin N)) : Table N :=
  { t with low := Function.update t.low j pg, leaf := fun v => if v / 512 = j then none else t.leaf v }

def Table.setLeaf (t : Table N) (v : Nat) (leaf : Option (Leaf N)) : Table N :=
  { t with leaf := Function.update t.leaf v leaf }

namespace Vm

def setTable (s : Vm N) (root : Fin N) (t : Table N) : Vm N :=
  { s with tables := Function.update s.tables root t }

def setLuck (s : Vm N) (luck : List Bool) : Vm N := { s with luck := luck }

def setFree (s : Vm N) (freelist : List (Fin N)) : Vm N := { s with freelist := freelist }

def free (s : Vm N) (pg : Fin N) : Vm N :=
  { s with freelist := pg :: s.freelist, twice := s.twice || decide (pg ∈ s.freelist) }

end Vm

abbrev M (N : Nat) := StateT (Vm N) (Except String)

def kalloc : M N (Option (Fin N)) := do
  let s ← get
  match s.luck with
  | true :: luck => do
    set (s.setLuck luck)
    pure none
  | luck => match s.freelist with
    | [] => do
      set (s.setLuck luck.tail)
      pure none
    | pg :: rest => do
      set ((s.setFree rest).setLuck luck.tail)
      pure (some pg)

def kfree (pg : Fin N) : M N Unit := modify fun s => s.free pg

def setTable (root : Fin N) (f : Table N → Table N) : M N Unit :=
  modify fun s => s.setTable root (f (s.tables root))

/-- One level of walk: the node is there, or is made from a page of zeroes. -/
def walkNode (present : Option (Fin N)) (alloc : Bool) (attach : Fin N → M N Unit) : M N Bool :=
  match present with
  | some _ => pure true
  | none => if alloc then do
      match ← kalloc with
      | none => pure false
      | some pg => do
        attach pg
        pure true
    else pure false

def walk (root : Fin N) (va : Nat) (alloc : Bool) : M N Bool := do
  if va ≥ MAXVA then throw "walk"
  let s ← get
  if ← walkNode ((s.tables root).mid (va / 2 ^ 30)) alloc fun pg =>
      setTable root fun t => t.setMid (va / 2 ^ 30) (some pg) then do
    let s ← get
    walkNode ((s.tables root).low (va / 2 ^ 21)) alloc fun pg =>
      setTable root fun t => t.setLow (va / 2 ^ 21) (some pg)
  else pure false

/-- mappages of one page at an aligned address. -/
def mappages (root : Fin N) (va : Nat) (pa : Frame N) (perm : Perm) : M N Bool := do
  if ← walk root va true then do
    let s ← get
    if ((s.tables root).leaf (va / PGSIZE)).isSome then throw "mappages: remap"
    setTable root fun t => t.setLeaf (va / PGSIZE) (some ⟨pa, perm⟩)
    pure true
  else pure false

def uvmunmapFrom (root : Fin N) (doFree : Bool) : Nat → Nat → M N Unit
  | 0, _ => pure ()
  | more + 1, a => do
    if !(← walk root a false) then throw "uvmunmap: walk"
    let s ← get
    match (s.tables root).leaf (a / PGSIZE) with
    | none => throw "uvmunmap: not mapped"
    | some leaf => do
      if doFree then do
        match leaf.frame with
        | .page pg => kfree pg
        | .trampoline => throw "kfree"
      setTable root fun t => t.setLeaf (a / PGSIZE) none
      uvmunmapFrom root doFree more (a + PGSIZE)

def uvmunmap (root : Fin N) (va npages : Nat) (doFree : Bool) : M N Unit :=
  if va % PGSIZE ≠ 0 then throw "uvmunmap: not aligned" else uvmunmapFrom root doFree npages va

def uvmcreate : M N (Option (Fin N)) := do
  match ← kalloc with
  | none => pure none
  | some pg => do
    setTable pg fun _ => Table.empty
    pure (some pg)

def uvmdealloc (root : Fin N) (oldsz newsz : Nat) : M N Nat :=
  if newsz ≥ oldsz then pure oldsz
  else if pgroundup newsz < pgroundup oldsz then do
    uvmunmap root (pgroundup newsz) ((pgroundup oldsz - pgroundup newsz) / PGSIZE) true
    pure newsz
  else pure newsz

def userPerm : Perm := ⟨true, true, true⟩

def uvmallocFrom (root : Fin N) (oldsz newsz : Nat) : Nat → Nat → M N Nat
  | 0, _ => pure newsz
  | more + 1, a => do
    match ← kalloc with
    | none => do
      let _ ← uvmdealloc root a oldsz
      pure 0
    | some mem =>
      if ← mappages root a (.page mem) userPerm then uvmallocFrom root oldsz newsz more (a + PGSIZE)
      else do
        kfree mem
        let _ ← uvmdealloc root a oldsz
        pure 0

def uvmalloc (root : Fin N) (oldsz newsz : Nat) : M N Nat :=
  if newsz < oldsz then pure oldsz
  else uvmallocFrom root (pgroundup oldsz) newsz ((newsz - pgroundup oldsz + PGSIZE - 1) / PGSIZE)
    (pgroundup oldsz)

@[irreducible]
def entries : List Nat := List.range 512

def freewalkLow (root : Fin N) (j : Nat) (pg : Fin N) : M N Unit := do
  let s ← get
  if entries.any fun i => ((s.tables root).leaf (j * 512 + i)).isSome then throw "freewalk: leaf"
  kfree pg

/-- freewalk of a node of level 1, over its entries; and the root's, over all entries. -/
def freewalkMid (root : Fin N) (k : Nat) : List Nat → M N Unit
  | [] => pure ()
  | i :: rest => do
    let s ← get
    match (s.tables root).low (k * 512 + i) with
    | none => freewalkMid root k rest
    | some pg => do
      freewalkLow root (k * 512 + i) pg
      setTable root fun t => t.setLow (k * 512 + i) none
      freewalkMid root k rest

def freewalkRoot (root : Fin N) : List Nat → M N Unit
  | [] => pure ()
  | k :: rest => do
    let s ← get
    match (s.tables root).mid k with
    | none => freewalkRoot root rest
    | some pg => do
      freewalkMid root k entries
      kfree pg
      setTable root fun t => t.setMid k none
      freewalkRoot root rest

def freewalk (root : Fin N) : M N Unit := do
  freewalkRoot root entries
  kfree root

def uvmfree (root : Fin N) (sz : Nat) : M N Unit := do
  if sz > 0 then uvmunmap root 0 (pgroundup sz / PGSIZE) true
  freewalk root

/-- The loop of uvmcopy, with some pages to go from i on. -/
def uvmcopyFrom (old new : Fin N) : Nat → Nat → M N Bool
  | 0, _ => pure true
  | more + 1, i => do
    if !(← walk old i false) then throw "uvmcopy: pte should exist"
    let s ← get
    match (s.tables old).leaf (i / PGSIZE) with
    | none => throw "uvmcopy: page not present"
    | some leaf => do
      match ← kalloc with
      | none => do
        uvmunmap new 0 (i / PGSIZE) true
        pure false
      | some mem =>
        if ← mappages new i (.page mem) leaf.perm then uvmcopyFrom old new more (i + PGSIZE)
        else do
          kfree mem
          uvmunmap new 0 (i / PGSIZE) true
          pure false

def uvmcopy (old new : Fin N) (sz : Nat) : M N Bool := uvmcopyFrom old new ((sz + PGSIZE - 1) / PGSIZE) 0

def uvmclear (root : Fin N) (va : Nat) : M N Unit := do
  if !(← walk root va false) then throw "uvmclear"
  setTable root fun t => t.setLeaf (va / PGSIZE) ((t.leaf (va / PGSIZE)).map fun leaf =>
    ⟨leaf.frame, { leaf.perm with u := false }⟩)

/-- Load initcode; the result is that of mappages, which uvminit ignores. Without a page its memset
    writes to address 0. -/
def uvminit (root : Fin N) : M N Bool := do
  match ← kalloc with
  | none => throw "uvminit: no page"
  | some mem => mappages root 0 (.page mem) userPerm

/-- proc_pagetable, for a process with this trapframe. -/
def procPagetable (trapframe : Fin N) : M N (Option (Fin N)) := do
  match ← uvmcreate with
  | none => pure none
  | some root =>
    if ← mappages root TRAMPOLINE .trampoline ⟨false, true, false⟩ then do
      if ← mappages root TRAPFRAME (.page trapframe) ⟨true, false, false⟩ then pure (some root)
      else do
        uvmunmap root TRAMPOLINE 1 false
        uvmfree root 0
        pure none
    else do
      uvmfree root 0
      pure none

def procFreepagetable (root : Fin N) (sz : Nat) : M N Unit := do
  uvmunmap root TRAMPOLINE 1 false
  uvmunmap root TRAPFRAME 1 false
  uvmfree root sz

end

end Xv6Vm
