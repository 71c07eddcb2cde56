import Mathlib.Algebra.BigOperators.Pi
import Xv6.InodeOps

/- The file structures, and which processes refer to them. -/
namespace Xv6Conc
open Xv6 Xv6Fs Threads Function
set_option linter.unusedSectionVars false

section
variable {T : Type} [Fintype T]
variable {t : T} {h : Hold} {f : Fin nFile} {fd : Fin nofile}

def fdsOf (slots : Fin nofile → Option (Fin nFile)) (f : Fin nFile) : Nat :=
  ∑ fd, if slots fd = some f then 1 else 0

/-- A process that allocates or closes f refers to it without a descriptor. -/
def inHand (file : Option (Fin nFile × FileUse)) (f : Fin nFile) : Nat :=
  if file = some (f, .alloc) ∨ file = some (f, .closing) then 1 else 0

def fileUses (ofile : T → Fin nofile → Option (Fin nFile)) (l : T → Hold) (f : Fin nFile) : Nat :=
  ∑ t, (fdsOf (ofile t) f + inHand (l t).file f)

structure FilesOk (ftable : Fin nFile → File) (ofile : T → Fin nofile → Option (Fin nFile))
    (l : T → Hold) : Prop where
  count : ∀ f, (ftable f).ref = fileUses ofile l f
  closed : ∀ f, (ftable f).ref ≤ 0 → (ftable f).type = .none
  alloc : ∀ t f, (l t).file = some (f, .alloc) → (ftable f).ref = 1 ∧ (ftable f).type = .none
  opening : ∀ t f fd, (l t).file = some (f, .opening fd) →
    ofile t fd = some f ∧ (ftable f).ref = 1 ∧ (ftable f).type = .none
  known : ∀ t fd ip, (l t).files fd = some ip →
    ∃ f, ofile t fd = some f ∧ (ftable f).inode = some ip

def fileRefs (ftable : Fin nFile → File) : Ip → Nat := tally fun f => (ftable f).inode

variable [DecidableEq T] {l : T → Hold}

theorem ledger_same {A : Type} (part : Hold → A) (same : part h = part (l t))
    (u : T) : part (update l t h u) = part (l u) := by
  by_cases mine : u = t
  · subst u
    simpa using same
  · simp [mine]

theorem done_other {x : Fin nFile × FileUse} {u : T} (done : h.file = none)
    (there : (update l t h u).file = some x) : u ≠ t ∧ (l u).file = some x := by
  have same : u ≠ t := by
    rintro rfl
    simp [done] at there
  exact ⟨same, by rwa [update_of_ne same] at there⟩

theorem files_same {ftable : Fin nFile → File} {ofile : T → Fin nofile → Option (Fin nFile)}
    (files : FilesOk ftable ofile l) (file : h.file = (l t).file)
    (known : h.files = (l t).files) : FilesOk ftable ofile (update l t h) := by
  have file := ledger_same Hold.file (l := l) file
  have known := ledger_same Hold.files (l := l) known
  obtain ⟨count, closed, alloc, opening, knows⟩ := files
  constructor <;> simpa only [fileUses, file, known]

theorem fdsOf_update (slots : Fin nofile → Option (Fin nFile)) (fd : Fin nofile) (v : Option (Fin nFile))
    (g : Fin nFile) : fdsOf (update slots fd v) g + (if slots fd = some g then 1 else 0) =
      fdsOf slots g + if v = some g then 1 else 0 := by
  unfold fdsOf
  exact sum_update slots (fun _ x => if x = some g then 1 else 0) fd v

theorem fdsOf_pos {slots : Fin nofile → Option (Fin nFile)} (there : slots fd = some f) : 0 < fdsOf slots f := by
  have part := le_sum (fun fd => if slots fd = some f then 1 else 0) fd
  rw [if_pos there] at part
  exact part

@[simp] theorem inHand_none (f : Fin nFile) : inHand none f = 0 := rfl

@[simp] theorem inHand_alloc (f g : Fin nFile) : inHand (some (f, .alloc)) g = if f = g then 1 else 0 := by
  simp [inHand]

@[simp] theorem inHand_closing (f g : Fin nFile) :
    inHand (some (f, .closing)) g = if f = g then 1 else 0 := by
  simp [inHand]

@[simp] theorem inHand_opening (f g : Fin nFile) (fd : Fin nofile) :
    inHand (some (f, .opening fd)) g = 0 := by
  simp [inHand]

variable {ftable : Fin nFile → File} {ofile : T → Fin nofile → Option (Fin nFile)}

theorem fileUses_update (ofile : T → Fin nofile → Option (Fin nFile)) (t : T)
    (slots : Fin nofile → Option (Fin nFile)) (h : Hold) (g : Fin nFile) :
    fileUses (update ofile t slots) (update l t h) g + (fdsOf (ofile t) g + inHand (l t).file g) =
      fileUses ofile l g + (fdsOf slots g + inHand h.file g) := by
  have sum := sum_update (fun u => (ofile u, (l u).file)) (fun _ x => fdsOf x.1 g + inHand x.2 g) t
    (slots, h.file)
  have parts : ∀ u, update (fun u => (ofile u, (l u).file)) t (slots, h.file) u =
      (update ofile t slots u, (update l t h u).file) := by
    intro u
    by_cases mine : u = t
    · subst u
      simp
    · simp [mine]
  simp only [parts] at sum
  exact sum

theorem fileUses_hand (ofile : T → Fin nofile → Option (Fin nFile)) (t : T) (h : Hold) (g : Fin nFile) :
    fileUses ofile (update l t h) g + inHand (l t).file g = fileUses ofile l g + inHand h.file g := by
  have sum := fileUses_update (l := l) ofile t (ofile t) h g
  rw [update_eq_self] at sum
  omega

section
variable (files : FilesOk ftable ofile l)
include files

theorem uses_le (t : T) (f : Fin nFile) : ((fdsOf (ofile t) f + inHand (l t).file f : Nat) : Int) ≤ (ftable f).ref := by
  rw [files.count f]
  exact_mod_cast le_sum (fun u => fdsOf (ofile u) f + inHand (l u).file f) t

theorem uses_two {t u : T} (other : u ≠ t) (f : Fin nFile) :
    ((fdsOf (ofile t) f + inHand (l t).file f + (fdsOf (ofile u) f + inHand (l u).file f) : Nat) : Int) ≤
      (ftable f).ref := by
  rw [files.count f]
  exact_mod_cast two_le_sum (fun v => fdsOf (ofile v) f + inHand (l v).file f) other

theorem files_alloc (free : (ftable f).ref = 0) (none : (l t).file = none)
    (file : h.file = some (f, .alloc)) (known : h.files = (l t).files) :
    FilesOk (update ftable f ((ftable f).setRef 1)) ofile (update l t h) := by
  constructor
  · intro g
    have sum := fileUses_hand (l := l) ofile t h g
    have old := files.count g
    rw [none, file, inHand_none, inHand_alloc] at sum
    by_cases same : g = f
    · subst g
      simp only [update_self, File.setRef, if_true] at sum ⊢
      omega
    rw [update_of_ne same]
    simp only [Ne.symm same, if_false] at sum
    omega
  · intro g
    by_cases same : g = f
    · simp [same, File.setRef]
    · simpa [same] using files.closed g
  · intro u g
    have old := files.alloc u g
    have shut := files.closed f
    simp only [update_apply]
    split <;> split <;> simp_all [File.setRef, eq_comm]
  · intro u g fd
    have old := files.opening u g fd
    simp only [update_apply]
    split <;> split <;> simp_all
  intro u fd ip there
  rw [ledger_same Hold.files known u] at there
  obtain ⟨g, slot, inode⟩ := files.known u fd ip there
  refine ⟨g, slot, ?_⟩
  have other : g ≠ f := by
    intro same
    subst g
    simp [File.inode, free] at inode
  rwa [update_of_ne other]

theorem files_fdalloc (mine : (l t).file = some (f, .alloc)) (empty : ofile t fd = none)
    (file : h.file = some (f, .opening fd)) (known : h.files = (l t).files) :
    FilesOk ftable (update ofile t (update (ofile t) fd (some f))) (update l t h) := by
  have fresh := files.alloc t f mine
  constructor
  · intro g
    have sum := fileUses_update (l := l) ofile t (update (ofile t) fd (some f)) h g
    have slots := fdsOf_update (ofile t) fd (some f) g
    have old := files.count g
    rw [mine, file, inHand_alloc, inHand_opening] at sum
    simp only [empty, Option.some.injEq, reduceCtorEq, if_false] at slots
    omega
  · exact files.closed
  · intro u g
    have old := files.alloc u g
    simp only [update_apply]
    split <;> simp_all
  · intro u g fd'
    have old := files.opening u g fd'
    simp only [update_apply]
    split <;> simp_all
    intro same there
    subst g there
    simp [fresh]
  intro u fd' ip there
  rw [ledger_same Hold.files known u] at there
  obtain ⟨g, slot, inode⟩ := files.known u fd' ip there
  refine ⟨g, ?_, inode⟩
  by_cases same : u = t
  · subst u
    have other : fd' ≠ fd := by
      intro eq
      subst fd'
      simp [empty] at slot
    simpa [other] using slot
  · simpa [same] using slot

theorem files_own (mine : (l t).file = some (f, .opening fd)) {u : T} (other : u ≠ t) :
    fdsOf (ofile u) f = 0 ∧ inHand (l u).file f = 0 := by
  obtain ⟨slot, single, -⟩ := files.opening t f fd mine
  have two := uses_two files other f
  have here := fdsOf_pos slot
  omega

theorem files_set (mine : (l t).file = some (f, .opening fd)) (file : File) (ref : file.ref = 1)
    (done : h.file = none) (known : h.files = update (l t).files fd (some file.ip))
    (inode : file.inode = some file.ip) : FilesOk (update ftable f file) ofile (update l t h) := by
  obtain ⟨slot, single, untyped⟩ := files.opening t f fd mine
  have own := fun u => files_own files mine (u := u)
  constructor
  · intro g
    have sum := fileUses_hand (l := l) ofile t h g
    have old := files.count g
    rw [mine, done] at sum
    simp only [inHand_opening, inHand_none] at sum
    by_cases same : g = f
    · subst g
      simp only [update_self]
      omega
    rw [update_of_ne same]
    omega
  · intro g
    by_cases same : g = f
    · subst g
      simp [ref]
    · simpa [same] using files.closed g
  · intro u g there
    obtain ⟨same, there⟩ := done_other done there
    have other : g ≠ f := by
      intro eq
      subst g
      have none := (own u same).2
      simp [there] at none
    simpa [other] using files.alloc u g there
  · intro u g fd' there
    obtain ⟨same, there⟩ := done_other done there
    have other : g ≠ f := by
      intro eq
      subst g
      have none := (own u same).1
      have some := fdsOf_pos (files.opening u f fd' there).1
      omega
    simpa [other] using files.opening u g fd' there
  intro u fd' ip there
  by_cases here : u = t ∧ fd' = fd
  · obtain ⟨rfl, rfl⟩ := here
    simp only [update_self, known, Option.some.injEq] at there
    subst ip
    exact ⟨f, slot, by simpa using inode⟩
  have prev : (l u).files fd' = some ip := by
    by_cases same : u = t
    · subst u
      have apart : fd' ≠ fd := fun eq => here ⟨rfl, eq⟩
      simpa [known, apart] using there
    · simpa [same] using there
  obtain ⟨g, at_fd, old⟩ := files.known u fd' ip prev
  refine ⟨g, at_fd, ?_⟩
  have other : g ≠ f := by
    intro eq
    subst g
    simp [File.inode, untyped] at old
  rwa [update_of_ne other]

theorem files_close (mine : (l t).file = some (f, .alloc) ∨ (l t).file = some (f, .closing)) {file : File}
    (ref : file.ref = (ftable f).ref - 1) (done : h.file = none) (known : h.files = (l t).files)
    (kept : 1 < (ftable f).ref → file.inode = (ftable f).inode ∧ file.type = (ftable f).type)
    (last : (ftable f).ref ≤ 1 → file.type = .none) : FilesOk (update ftable f file) ofile (update l t h) := by
  have hand : ∀ g, inHand (l t).file g = if f = g then 1 else 0 := by
    rcases mine with mine | mine <;> simp [mine]
  have here := uses_le files t f
  have others := fun u other => uses_two files (t := t) (u := u) other f
  rw [hand, if_pos rfl] at here
  simp only [hand, if_true] at others
  constructor
  · intro g
    have sum := fileUses_hand (l := l) ofile t h g
    have old := files.count g
    rw [hand, done, inHand_none] at sum
    by_cases same : g = f
    · subst g
      simp only [update_self, if_true] at sum ⊢
      omega
    rw [update_of_ne same]
    simp only [Ne.symm same, if_false] at sum
    omega
  · intro g
    by_cases same : g = f
    · subst g
      simp only [update_self]
      intro low
      exact last (by omega)
    · simpa [same] using files.closed g
  · intro u g there
    obtain ⟨same, there⟩ := done_other done there
    have other : g ≠ f := by
      intro eq
      subst g
      have two := others u same
      have single := (files.alloc u f there).1
      simp only [there, inHand_alloc, if_true] at two
      omega
    simpa [other] using files.alloc u g there
  · intro u g fd there
    obtain ⟨same, there⟩ := done_other done there
    have other : g ≠ f := by
      intro eq
      subst g
      have two := others u same
      obtain ⟨slot, single, -⟩ := files.opening u f fd there
      have pos := fdsOf_pos slot
      omega
    simpa [other] using files.opening u g fd there
  intro u fd ip there
  rw [ledger_same Hold.files known u] at there
  obtain ⟨g, slot, inode⟩ := files.known u fd ip there
  refine ⟨g, slot, ?_⟩
  by_cases eq : g = f
  · subst g
    have pos := fdsOf_pos slot
    have more : 1 < (ftable f).ref := by
      by_cases same : u = t
      · subst u
        omega
      have two := others u same
      omega
    simpa [kept more] using inode
  · rwa [update_of_ne eq]

theorem files_take (none : (l t).file = none) (file : h.file = (ofile t fd).map fun f => (f, .closing))
    (known : h.files = update (l t).files fd Option.none) :
    FilesOk ftable (update ofile t (update (ofile t) fd Option.none)) (update l t h) := by
  have hand : ∀ g, inHand h.file g = if ofile t fd = some g then 1 else 0 := by
    intro g
    rw [file]
    cases slot : ofile t fd <;> simp
  constructor
  · intro g
    have sum := fileUses_update (l := l) ofile t (update (ofile t) fd Option.none) h g
    have slots := fdsOf_update (ofile t) fd Option.none g
    have old := files.count g
    rw [none, inHand_none, hand] at sum
    simp only [reduceCtorEq, if_false] at slots
    omega
  · exact files.closed
  · intro u g
    have old := files.alloc u g
    simp only [update_apply]
    split <;> simp_all
  · intro u g fd'
    have old := files.opening u g fd'
    simp only [update_apply]
    split <;> simp_all
  intro u fd' ip there
  by_cases same : u = t
  · subst u
    by_cases eq : fd' = fd
    · subst fd'
      simp [known] at there
    simp only [update_self, known, update_of_ne eq] at there
    simpa [eq] using files.known t fd' ip there
  simp only [update_of_ne same] at there
  simpa [same] using files.known u fd' ip there

theorem files_know {ip : Ip} (slot : ofile t fd = some f) (inode : (ftable f).inode = some ip)
    (file : h.file = (l t).file) (known : h.files = update (l t).files fd (some ip)) :
    FilesOk ftable ofile (update l t h) := by
  have file := ledger_same Hold.file (l := l) file
  obtain ⟨count, closed, alloc, opening, knows⟩ := files
  refine ⟨?_, closed, ?_, ?_, ?_⟩
  · simpa only [fileUses, file] using count
  · simpa only [file] using alloc
  · simpa only [file] using opening
  intro u fd' jp there
  by_cases here : u = t ∧ fd' = fd
  · obtain ⟨rfl, rfl⟩ := here
    simp only [update_self, known, Option.some.injEq] at there
    subst jp
    exact ⟨f, slot, inode⟩
  apply knows u fd' jp
  by_cases same : u = t
  · subst u
    have apart : fd' ≠ fd := fun eq => here ⟨rfl, eq⟩
    simpa [known, apart] using there
  · simpa [same] using there

end

theorem fileRefs_pos {ftable : Fin nFile → File} {ip : Ip}
    (inode : (ftable f).inode = some ip) : 0 < fileRefs ftable ip := by
  have sum : fileRefs ftable ip = ∑ g, oneOf (ftable g).inode ip := by
    simp only [fileRefs, tally, Finset.sum_apply]
  have part := le_sum (fun g => oneOf (ftable g).inode ip) f
  have here : oneOf (ftable f).inode ip = 1 := by simp [inode, oneOf, one]
  omega

theorem via_pos (files : FilesOk ftable ofile l) {u : T} {ip : Ip} (via : (l u).Via ip) : 0 < fileRefs ftable ip := by
  obtain ⟨fd, there⟩ := via
  obtain ⟨f, -, inode⟩ := files.known u fd ip there
  exact fileRefs_pos inode

theorem fileRefs_update (ftable : Fin nFile → File) (f : Fin nFile) (file : File) (ip : Ip) :
    fileRefs (update ftable f file) ip + oneOf (ftable f).inode ip = fileRefs ftable ip + oneOf file.inode ip := by
  have change := congrFun (tally_update (fun g => (ftable g).inode) f file.inode) ip
  have same : (fun g => (update ftable f file g).inode) = update (fun g => (ftable g).inode) f file.inode := by
    funext g
    by_cases eq : g = f
    · subst g
      simp
    · simp [eq]
  simp only [fileRefs, same]
  exact change

end

end Xv6Conc
