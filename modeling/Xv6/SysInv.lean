import Mathlib.Algebra.BigOperators.Fin
import Xv6.Lib.Runs
import Xv6.OpenSpec

/- The invariant between system calls: current directories and open files are the settled
   references of the inode table. -/
namespace Xv6Fs
open Xv6 Bytes Outcome Ownership Function

/- Counting references. -/
section
variable {A : Type} [Fintype A] [DecidableEq A]

def oneOf : Option Ip → Ip → Nat
  | none => 0
  | some ip => one ip

theorem oneOf_none : oneOf none = 0 := rfl

theorem oneOf_some (ip : Ip) : oneOf (some ip) = one ip := rfl

def tally (f : A → Option Ip) : Ip → Nat := ∑ x, oneOf (f x)

theorem tally_update (f : A → Option Ip) (x : A) (v : Option Ip) :
    tally (update f x v) + oneOf (f x) = tally f + oneOf v := by
  have others : ∑ y ∈ Finset.univ.erase x, oneOf (update f x v y) = ∑ y ∈ Finset.univ.erase x, oneOf (f y) := by
    apply Finset.sum_congr rfl
    intro y mem
    rw [update_of_ne (Finset.ne_of_mem_erase mem)]
  unfold tally
  rw [← Finset.add_sum_erase _ _ (Finset.mem_univ x), others, update_self,
    ← Finset.add_sum_erase _ (fun y => oneOf (f y)) (Finset.mem_univ x)]
  rw [add_comm (oneOf v), add_comm (oneOf (f x)), add_right_comm]

end

def File.inode (f : File) : Option Ip :=
  if 0 < f.ref ∧ (f.type = .inode ∨ f.type = .device) then some f.ip else none

def Sys.holders (s : Sys) : Ip → Nat := tally s.cwd + tally fun f => (s.ftable f).inode

structure SysOk (exact : Bool) (s : Sys) : Prop where
  books : Books s.fs s.holders 0
  sound : Sound exact s.fs.sb.ninodes (nodes s.fs)
  small : s.fs.sb.ninodes ≤ 0x10000
  files : ∀ f, (s.ftable f).ref ≤ 0 → (s.ftable f).type = .none

section
variable {exact : Bool} {s : Sys}
variable {p : Fin nproc} {cwd : Ip} {f : Fin nFile} {ip : Ip} {file : File}

theorem sysOk_lax (ok : SysOk true s) : SysOk false s := by
  obtain ⟨slack, tree, _⟩ := ok.sound
  exact ⟨ok.books, ⟨slack, tree, fun strict => absurd strict Bool.false_ne_true⟩, ok.small, ok.files⟩

theorem holders_setFile (f : Fin nFile) (file : File) :
    (s.setFile f file).holders + oneOf (s.ftable f).inode = s.holders + oneOf file.inode := by
  have entries : (fun g => ((s.setFile f file).ftable g).inode) =
      update (fun g => (s.ftable g).inode) f file.inode := by
    funext g
    change (update s.ftable f file g).inode = _
    rw [update_apply, update_apply]
    split
    · rfl
    · rfl
  have change := tally_update (fun g => (s.ftable g).inode) f file.inode
  unfold Sys.holders
  rw [entries, add_assoc, change, ← add_assoc]
  rfl

theorem holders_setCwd (p : Fin nproc) (cwd : Option Ip) :
    (s.setCwd p cwd).holders + oneOf (s.cwd p) = s.holders + oneOf cwd := by
  have change := tally_update s.cwd p cwd
  unfold Sys.holders
  rw [add_right_comm, add_right_comm (tally s.cwd), ← change]
  rfl

theorem holder_cwd (mine : s.cwd p = some cwd) : s.holders = (s.setCwd p none).holders + one cwd := by
  have change := holders_setCwd (s := s) p none
  rw [mine, oneOf_some, oneOf_none, add_zero] at change
  rw [change]

theorem holder_pos (mine : s.cwd p = some cwd) : 0 < s.holders cwd := by
  rw [holder_cwd mine, Pi.add_apply, one_self]
  omega

theorem ends_inFs {A : Type} {x : M A} {good : A → Sys → Prop} {bad : String → Prop}
    (ends : Ends x s.fs (fun a t => good a (s.setFs t)) bad) : Ends (inFs x) s good bad := by
  unfold Ends at ends ⊢
  unfold inFs
  cases res : x s.fs with
  | error msg | ok pair =>
    rw [res] at ends
    exact ends

theorem inFs_then {A B : Type} {x : M A} {f : A → SysM B} {good : B → Sys → Prop} {bad : String → Prop}
    {mid : A → Fs → Prop} (first : Ends x s.fs mid bad)
    (snd : ∀ a t, mid a t → Ends (f a) (s.setFs t) good bad) : Ends (inFs x >>= f) s good bad := by
  have whole : Ends (inFs x) s (fun a u => Ends (f a) u good bad) bad := ends_inFs (ends_better first snd)
  exact ends_bind whole (fun _ _ => id)

theorem sound_size {t t' : Fs} (sb : t'.sb = t.sb) (sound : Sound exact t.sb.ninodes (nodes t'))
    (small : t.sb.ninodes ≤ 0x10000) : Sound exact t'.sb.ninodes (nodes t') ∧ t'.sb.ninodes ≤ 0x10000 := by
  rw [sb]
  exact ⟨sound, small⟩

theorem sysOk_of (ok : SysOk exact s) {s' : Sys} (books : Books s'.fs s'.holders 0)
    (sb : s'.fs.sb = s.fs.sb) (sound : Sound exact s.fs.sb.ninodes (nodes s'.fs))
    (files : ∀ f, (s'.ftable f).ref ≤ 0 → (s'.ftable f).type = .none) : SysOk exact s' := by
  obtain ⟨sound', small⟩ := sound_size sb sound ok.small
  exact ⟨books, sound', small, files⟩

theorem sysOk_fs (ok : SysOk exact s) {t : Fs} (books : Books t s.holders 0)
    (sb : t.sb = s.fs.sb) (sound : Sound exact s.fs.sb.ninodes (nodes t)) :
    SysOk exact (s.setFs t) := sysOk_of ok books sb sound ok.files

theorem sysOk_setFd (ok : SysOk exact s) (p : Fin nproc) (fd : Fin nofile)
    (f : Option (Fin nFile)) : SysOk exact (s.setFd p fd f) :=
  ⟨ok.books, ok.sound, ok.small, ok.files⟩

theorem files_setFile (files : ∀ f, (s.ftable f).ref ≤ 0 → (s.ftable f).type = .none)
    (closed : file.ref ≤ 0 → file.type = .none) (g : Fin nFile) :
    ((s.setFile f file).ftable g).ref ≤ 0 → ((s.setFile f file).ftable g).type = .none := by
  change (update s.ftable f file g).ref ≤ 0 → (update s.ftable f file g).type = _
  by_cases here : g = f
  · rw [here, update_self]
    exact closed
  rw [update_of_ne here]
  exact files g

/- Open files. -/

theorem filealloc_spec (s : Sys) : Ends filealloc s
      (fun r t => (r = none ∧ t = s ∧ ∀ f, (s.ftable f).ref ≠ 0) ∨ ∃ f, r = some f ∧ (s.ftable f).ref = 0 ∧
        t = s.setFile f ((s.ftable f).setRef 1)) (fun _ => False) := by
  apply get_then
  cases found : (List.finRange nFile).find? fun f => (s.ftable f).ref = 0 with
  | none =>
    refine ends_pure (.inl ⟨rfl, rfl, fun f empty => ?_⟩)
    exact List.find?_eq_none.mp found f (List.mem_finRange f) (decide_eq_true empty)
  | some f =>
    have empty := List.find?_some found
    rw [decide_eq_true_eq] at empty
    apply modify_then
    exact ends_pure (.inr ⟨f, rfl, empty, rfl⟩)

theorem fdalloc_spec (s : Sys) (p : Fin nproc) (f : Fin nFile) : Ends (fdalloc p f) s
      (fun r t => (r = none ∧ t = s ∧ ∀ fd, s.ofile p fd ≠ none) ∨
        ∃ fd, r = some fd ∧ t = s.setFd p fd (some f)) (fun _ => False) := by
  apply get_then
  cases found : (List.finRange nofile).find? fun fd => (s.ofile p fd).isNone with
  | none =>
    refine ends_pure (.inl ⟨rfl, rfl, fun fd empty => ?_⟩)
    exact List.find?_eq_none.mp found fd (List.mem_finRange fd) (Option.isNone_iff_eq_none.mpr empty)
  | some fd =>
    apply modify_then
    exact ends_pure (.inr ⟨fd, rfl, rfl⟩)

theorem inode_open (used : 0 < file.ref) (kind : file.type = .inode ∨ file.type = .device) :
    file.inode = some file.ip := if_pos ⟨used, kind⟩

theorem inode_none (kind : ¬ (file.type = .inode ∨ file.type = .device)) :
    file.inode = none := if_neg (fun both => kind both.2)

theorem holders_same (same : file.inode = (s.ftable f).inode) : (s.setFile f file).holders = s.holders := by
  have change := holders_setFile (s := s) f file
  rw [same] at change
  exact add_right_cancel change

section
variable (ok : SysOk exact s)
include ok

theorem sysOk_file (closed : file.ref ≤ 0 → file.type = .none) (same : file.inode = (s.ftable f).inode) :
    SysOk exact (s.setFile f file) := by
  have books : Books s.fs ((s.setFile f file).holders) 0 := by
    rw [holders_same same]
    exact ok.books
  exact sysOk_of ok books rfl ok.sound (files_setFile ok.files closed)

theorem fileclose_spec (f : Fin nFile) : Ends (fileclose f) s (fun _ t => SysOk exact t ∧ t.cwd = s.cwd)
      (UntypedIf False) := by
  apply get_then
  apply ends_ite
  · intro _
    exact ends_throw (by decide)
  intro used
  apply ends_ite
  · intro more
    refine ends_known rfl ⟨sysOk_file ok ?_ ?_, rfl⟩
    · intro none
      change (s.ftable f).ref - 1 ≤ 0 at none
      omega
    unfold File.inode
    have both : 0 < (s.ftable f).ref - 1 ↔ 0 < (s.ftable f).ref := by omega
    change (if 0 < (s.ftable f).ref - 1 ∧ _ then _ else _) = _
    simp only [both]
    rfl
  intro _
  have shut : (s.ftable f).closed.inode = none := inode_none (by
    rintro (never | never)
    · cases never
    · cases never)
  apply modify_then
  apply ends_ite
  · intro kind
    have change := holders_setFile (s := s) f (s.ftable f).closed
    rw [shut, inode_open (by omega) kind, oneOf_none, oneOf_some, add_zero] at change
    have books := ok.books
    rw [← change] at books
    apply ends_inFs
    apply ends_better (books_iput_settled books) _
    rintro _ t ⟨kept, steady, freed⟩
    exact ⟨sysOk_of ok kept steady.1 (sound_mayFree ok.sound freed)
      (files_setFile ok.files fun _ => rfl), rfl⟩
  intro kind
  exact ends_pure ⟨sysOk_file ok (fun _ => rfl) (by rw [shut, inode_none kind]), rfl⟩

theorem sysClose_spec (p : Fin nproc) (fd : Int32) :
    Ends (sysClose p fd) s (fun _ t => SysOk exact t) (UntypedIf False) := by
  apply get_then
  split
  · split
    · exact ends_pure ok
    apply modify_then
    apply ends_bind (fileclose_spec (sysOk_setFd ok p _ none) _)
    rintro _ t ⟨kept, _⟩
    exact ends_pure kept
  · exact ends_pure ok

theorem closeAll_spec (p : Fin nproc) (fds : List (Fin nofile)) :
    Ends (closeAll p fds) s (fun _ t => SysOk exact t ∧ t.cwd = s.cwd) (UntypedIf False) := by
  induction fds generalizing s with
  | nil => exact ends_pure ⟨ok, rfl⟩
  | cons fd rest ih =>
    apply get_then
    cases s.ofile p fd with
    | none => exact ih ok
    | some f =>
      apply ends_bind (fileclose_spec ok f)
      rintro _ t ⟨kept, same⟩
      apply modify_then
      apply ends_better (ih (sysOk_setFd kept p fd none)) _
      rintro _ u ⟨last, same'⟩
      exact ⟨last, same'.trans same⟩

theorem exit_spec (mine : s.cwd p = some cwd) :
    Ends (Xv6Fs.exit p cwd) s (fun _ t => SysOk exact t) (UntypedIf False) := by
  apply ends_ite
  · intro _
    exact ends_throw (by decide)
  intro _
  apply ends_bind (closeAll_spec ok p _)
  rintro _ t ⟨kept, same⟩
  have books := kept.books
  rw [holder_cwd (by rw [same]; exact mine)] at books
  apply inFs_then (books_iput_settled books)
  rintro _ u ⟨kept', steady, freed⟩
  apply modify_then
  exact ends_pure (sysOk_of kept kept' steady.1 (sound_mayFree kept.sound freed) kept.files)

theorem sysChdir_spec (mine : s.cwd p = some cwd) (path : List UInt8) :
    Ends (sysChdir p cwd (some path)) s (fun _ t => SysOk exact t)
      (UntypedIf (PathClimbs (nodes s.fs) (s.fs.itable cwd).inum path false)) := by
  have books := ok.books
  rw [holder_cwd mine] at books
  apply inFs_then (chdirInode_spec (sound_shape ok.sound) rfl books path)
  rintro r t (⟨rfl, kept, steady, same⟩ | ⟨ip, rfl, kept, sb, freed⟩)
  · rw [← holder_cwd mine] at kept
    refine ends_pure (sysOk_fs ok kept steady.1 ?_)
    rw [same.1]
    exact ok.sound
  apply modify_then
  refine ends_pure (sysOk_of ok ?_ sb (sound_mayFree ok.sound freed) ok.files)
  have change := holders_setCwd (s := s) p (some ip)
  rw [mine, oneOf_some, oneOf_some, holder_cwd mine, add_right_comm] at change
  rw [← add_right_cancel change] at kept
  exact kept

end

/-- The calls that add entries, with the inode that gets a new link count. -/
def Call.Adds (N : Nodes) (cwd : Nat) : Call → Nat → Option Nat → Prop
  | .open (some path) omode, d, j => omode &&& oCreate ≠ 0 ∧ j = none ∧
    ∃ name, resolve N cwd path true = some (d, name) ∧ (N d).lookup name = none
  | .mkdir (some path), d, j => j = some d ∧
    ∃ name, resolve N cwd path true = some (d, name) ∧ (N d).lookup name = none
  | .mknod (some path) _ _, d, j => j = none ∧
    ∃ name, resolve N cwd path true = some (d, name) ∧ (N d).lookup name = none
  | .link (some old) (some new), d, j => ∃ i last name, j = some i ∧
    resolve N cwd old false = some (i, last) ∧ (N i).type ≠ tDir ∧
    resolve N cwd new true = some (d, name) ∧ (N d).lookup name = none
  | _, _, _ => False

/-- A path walk of the call takes ".." in a removed directory. -/
def Call.Climbs (N : Nodes) (cwd : Nat) : Call → Prop
  | .open (some path) _ => PathClimbs N cwd path false
  | .mkdir (some path) => PathClimbs N cwd path false
  | .mknod (some path) _ _ => PathClimbs N cwd path false
  | .link (some old) (some new) => PathClimbs N cwd old false ∨ PathClimbs N cwd new true
  | .unlink (some path) => PathClimbs N cwd path true
  | .chdir (some path) => PathClimbs N cwd path false
  | _ => False

/-- The link counts that a call needs: with one more link they do not wrap to 0; if they are to
    stay exact, they are positive for the directory of a new entry and do not pass 32767. -/
def Call.Fits (exact : Bool) (N : Nodes) (cwd : Nat) (call : Call) : Prop :=
  ∀ d j, call.Adds N cwd d j → (∀ i, j = some i → (N i).nlink ≠ -1) ∧
    (exact = true → 0 < (N d).nlink ∧ ∀ i, j = some i → (N i).nlink ≠ 32767)

theorem books_make {fs : Fs} {h : Ip → Nat} {n : Nat} (shape : Shape n (nodes fs))
    (size : fs.sb.ninodes = n) (small : n ≤ 0x10000) (books : Books fs h 0)
    (mine : 0 < h cwd) (path : List UInt8) {type : UInt16} (typed : type ≠ 0)
    (major minor : Int16)
    (room : ∀ d name, resolve (nodes fs) (fs.itable cwd).inum path true = some (d, name) →
      (nodes fs d).slot name = none → type = tDir → (nodes fs d).nlink ≠ -1) :
    Ends (do
      match ← create cwd path type major minor with
      | none => pure (-1)
      | some ip => do
        iunlockput ip
        pure (0 : Int)) fs
      (fun _ t => Books t h 0 ∧ Steady h fs t ∧ (nodes t = nodes fs ∨
        Made n (nodes fs) (fs.itable cwd).inum path type (nodes t)))
      (UntypedIf (PathClimbs (nodes fs) (fs.itable cwd).inum path false)) := by
  apply ends_bind (create_spec shape size small books mine path typed major minor room)
  rintro r t (⟨rfl, kept, steady, same⟩ | ⟨ip, rfl, returned, tree⟩)
  · exact ends_pure ⟨kept, steady, .inl same.1⟩
  apply ends_step (returned_put returned) (untyped_other (by decide))
  rintro _ u ⟨kept, steady, same⟩
  refine ends_pure ⟨kept, steady, ?_⟩
  rw [same.1]
  rcases tree with ⟨_, unchanged⟩ | ⟨new, _⟩
  · exact .inl unchanged.1
  · exact .inr new

section
variable (ok : SysOk exact s) (mine : s.cwd p = some cwd)
include ok mine

theorem sysMake_spec (path : List UInt8) (type : UInt16) (typed : type ≠ 0) (major minor : Int16)
    (room : ∀ d name, resolve (nodes s.fs) (s.fs.itable cwd).inum path true = some (d, name) →
      (nodes s.fs d).slot name = none → type = tDir → (nodes s.fs d).nlink ≠ -1)
    (home : exact = true → ∀ d name,
      resolve (nodes s.fs) (s.fs.itable cwd).inum path true = some (d, name) →
      (nodes s.fs d).slot name = none →
      0 < (nodes s.fs d).nlink ∧ (type = tDir → (nodes s.fs d).nlink ≠ 32767)) :
    Ends (inFs (do
      match ← create cwd path type major minor with
      | none => pure (-1)
      | some ip => do
        iunlockput ip
        pure (0 : Int))) s (fun _ t => SysOk exact t)
      (UntypedIf (PathClimbs (nodes s.fs) (s.fs.itable cwd).inum path false)) := by
  apply ends_inFs
  apply ends_better (books_make (sound_shape ok.sound) rfl ok.small ok.books (holder_pos mine) path
    typed major minor room) _
  rintro _ t ⟨kept, steady, tree⟩
  apply sysOk_fs ok kept steady.1
  rcases tree with same | new
  · rw [same]
    exact ok.sound
  · exact sound_made ok.sound typed new room home

theorem sysLinkCall_spec (old new : List UInt8) (room : ∀ i last d name,
      resolve (nodes s.fs) (s.fs.itable cwd).inum old false = some (i, last) → (nodes s.fs i).type ≠ tDir →
      resolve (nodes s.fs) (s.fs.itable cwd).inum new true = some (d, name) →
      (nodes s.fs d).slot name = none → (nodes s.fs i).nlink ≠ -1) (home : exact = true → ∀ i last d name,
      resolve (nodes s.fs) (s.fs.itable cwd).inum old false = some (i, last) → (nodes s.fs i).type ≠ tDir →
      resolve (nodes s.fs) (s.fs.itable cwd).inum new true = some (d, name) →
      (nodes s.fs d).slot name = none → 0 < (nodes s.fs d).nlink ∧ (nodes s.fs i).nlink ≠ 32767) :
    Ends (inFs (sysLink cwd (some old) (some new))) s (fun _ t => SysOk exact t)
      (UntypedIf (PathClimbs (nodes s.fs) (s.fs.itable cwd).inum old false ∨ PathClimbs (nodes s.fs)
        (s.fs.itable cwd).inum new true)) := by
  apply ends_inFs
  apply ends_better (sysLink_spec (sound_shape ok.sound) rfl ok.small ok.books (holder_pos mine) old
    new room) _
  rintro _ t ⟨kept, steady, _, tree⟩
  apply sysOk_fs ok kept steady.1
  rcases tree with same | linked
  · rw [same]
    exact ok.sound
  · exact sound_linked ok.sound linked room home

theorem sysUnlinkCall_spec (path : List UInt8) : Ends (inFs (sysUnlink cwd (some path))) s (fun _ t => SysOk exact t)
      (UntypedIf (PathClimbs (nodes s.fs) (s.fs.itable cwd).inum path true)) := by
  apply ends_inFs
  apply ends_better (sysUnlink_spec (sound_shape ok.sound) rfl ok.books (holder_pos mine) path) _
  rintro _ t ⟨kept, steady, _, tree⟩
  apply sysOk_fs ok kept steady.1
  rcases tree with same | gone
  · rw [same]
    exact ok.sound
  · exact sound_unlinked ok.sound gone

end

/- sys_open. -/

/-- sys_open has the locked inode ip, and no file for it yet. -/
structure Opening (exact : Bool) (s : Sys) (ip : Ip) : Prop where
  books : Books s.fs (s.holders + one ip) 0
  cached : Cached s.fs ip
  linked : (nodes s.fs (s.fs.itable ip).inum).nlink = 0 → 0 < s.holders ip
  sound : Sound exact s.fs.sb.ninodes (nodes s.fs)
  small : s.fs.sb.ninodes ≤ 0x10000
  files : ∀ f, (s.ftable f).ref ≤ 0 → (s.ftable f).type = .none

theorem opening_put (opening : Opening exact s ip) :
    Ends (do inFs (iunlockput ip); pure (-1 : Int)) s (fun _ t => SysOk exact t) (UntypedIf False) := by
  have borrowed := books_unsettle opening.books opening.linked
  apply inFs_then (ends_worse (books_iunlockput_work borrowed) (untyped_other (by decide)))
  rintro _ t ⟨kept, same, steady⟩
  obtain ⟨sound, small⟩ := sound_size steady.1 (same ▸ opening.sound) opening.small
  exact ends_pure ⟨kept, sound, small, opening.files⟩

theorem opening_file (opening : Opening exact s ip) (f : Fin nFile) (file : File)
    (closed : file.ref ≤ 0 → file.type = .none) (same : file.inode = (s.ftable f).inode) :
    Opening exact (s.setFile f file) ip := by
  have holders := holders_same same
  constructor
  · rw [holders]
    exact opening.books
  · exact opening.cached
  · rw [holders]
    exact opening.linked
  · exact opening.sound
  · exact opening.small
  · exact files_setFile opening.files closed

theorem setFile_entry (f : Fin nFile) (file : File) : (s.setFile f file).ftable f = file :=
  update_self _ _ _

theorem fileclose_empty (last : (s.ftable f).ref = 1) (empty : (s.ftable f).type = .none) :
    fileclose f s = .ok ((), s.setFile f (s.ftable f).closed) := by
  change (if (s.ftable f).ref < 1 then throw "fileclose" else if (s.ftable f).ref - 1 > 0 then _
    else _ : SysM Unit) s = _
  rw [if_neg (by omega), if_neg (by omega), empty]
  rfl

theorem openDone_spec (opening : Opening exact s ip) (last : (s.ftable f).ref = 1)
    (empty : (s.ftable f).type = .none) (fd : Fin nofile) (omode : UInt32) :
    Ends (openDone f fd ip omode) s (fun _ t => SysOk exact t) (UntypedIf False) := by
  let file := openFile (s.ftable f) ip (s.fs.itable ip).dn omode
  have used : file.ref = 1 := last
  have kind : file.type = .inode ∨ file.type = .device := by
    by_cases device : (s.fs.itable ip).dn.type = tDevice
    · exact .inr (if_pos device)
    · exact .inl (if_neg device)
  have change := holders_setFile (s := s) f file
  rw [inode_none (by rw [empty]; rintro (no | no) <;> cases no), inode_open (by omega) kind,
    oneOf_none, oneOf_some, add_zero] at change
  have books := opening.books
  have target : file.ip = ip := rfl
  rw [target] at change
  rw [← change] at books
  have own : 0 < (s.setFile f file).holders ip := by
    rw [change, Pi.add_apply, one_self]
    omega
  -- what is left of the call works on the inode
  have done : ∀ t : Fs, Books t ((s.setFile f file).holders) 0 → t.sb = s.fs.sb → nodes t = nodes s.fs →
      Ends (do inFs (iunlock ip); pure (fd.val : Int)) ((s.setFile f file).setFs t)
        (fun _ u => SysOk exact u) (UntypedIf False) := by
    intro t kept sb same
    apply inFs_then (ends_worse (books_iunlock kept ip) (untyped_other (by decide)))
    rintro _ u ⟨kept', same', steady⟩
    have sound : Sound exact s.fs.sb.ninodes (nodes u) := by
      rw [same', same]
      exact opening.sound
    obtain ⟨sound', small⟩ := sound_size (steady.1.trans sb) sound opening.small
    exact ends_pure ⟨kept', sound', small, files_setFile opening.files fun unused => by omega⟩
  apply modify_then
  apply get_then
  apply ends_ite
  · intro truncates
    have plain : (s.fs.itable ip).dn.type ≠ tDir := by
      rw [show (s.fs.itable ip).dn.type = tFile from truncates.2]
      decide
    apply inFs_then (s := s.setFile f file)
      (ends_mono (books_itrunc books opening.cached plain (fun _ => own))
      (fun _ _ => id) (fun _ => False.elim))
    rintro _ t ⟨kept, same, steady⟩
    exact done t kept steady.1 same
  intro _
  exact done s.fs books rfl rfl

theorem opening_filealloc (opening : Opening exact s ip) (free : (s.ftable f).ref = 0) :
    Opening exact (s.setFile f ((s.ftable f).setRef 1)) ip ∧ ((s.setFile f ((s.ftable f).setRef 1)).ftable f).ref = 1 ∧
      ((s.setFile f ((s.ftable f).setRef 1)).ftable f).type = .none := by
  have empty := opening.files f (by omega)
  have entry := setFile_entry (s := s) f ((s.ftable f).setRef 1)
  rw [entry]
  refine ⟨?_, rfl, empty⟩
  apply opening_file opening f _ (fun unused => absurd unused (by change ¬ (1 : Int) ≤ 0; decide))
  have kind : ¬ ((s.ftable f).type = .inode ∨ (s.ftable f).type = .device) := by
    rw [empty]
    rintro (no | no) <;> cases no
  rw [inode_none kind, inode_none]
  exact kind

theorem opening_closed (opening : Opening exact s ip)
    (empty : (s.ftable f).type = .none) : Opening exact (s.setFile f (s.ftable f).closed) ip := by
  apply opening_file opening f _ (fun _ => rfl)
  rw [inode_none, inode_none]
  · rw [empty]
    rintro (no | no) <;> cases no
  · rintro (no | no) <;> cases no

theorem openFd_spec (opening : Opening exact s ip) (p : Fin nproc) (omode : UInt32) :
    Ends (openFd p ip omode) s (fun _ t => SysOk exact t) (UntypedIf False) := by
  apply ends_step (filealloc_spec s) (fun _ => False.elim)
  rintro r t (⟨rfl, rfl, _⟩ | ⟨f, rfl, free, rfl⟩)
  · exact opening_put opening
  obtain ⟨opened, last, untyped⟩ := opening_filealloc opening free
  apply ends_step (fdalloc_spec _ p f) (fun _ => False.elim)
  rintro r u (⟨rfl, rfl, _⟩ | ⟨fd, rfl, rfl⟩)
  · apply known_then (fileclose_empty last untyped)
    exact opening_put (opening_closed opened untyped)
  have opened' : Opening exact ((s.setFile f ((s.ftable f).setRef 1)).setFd p fd (some f)) ip :=
    ⟨opened.books, opened.cached, opened.linked, opened.sound, opened.small, opened.files⟩
  exact openDone_spec opened' last untyped fd omode

theorem sysOpen_spec (ok : SysOk exact s) (mine : s.cwd p = some cwd) (path : List UInt8) (omode : UInt32)
    (home : exact = true → omode &&& oCreate ≠ 0 → ∀ d name,
      resolve (nodes s.fs) (s.fs.itable cwd).inum path true = some (d, name) →
      (nodes s.fs d).slot name = none → 0 < (nodes s.fs d).nlink) :
    Ends (sysOpen p cwd (some path) omode) s (fun _ t => SysOk exact t)
      (UntypedIf (PathClimbs (nodes s.fs) (s.fs.itable cwd).inum path false)) := by
  apply inFs_then (openInode_spec (sound_shape ok.sound) rfl ok.small ok.books (holder_pos mine) path omode)
  rintro r t (⟨rfl, kept, steady, same⟩ | ⟨ip, rfl, returned, tree⟩)
  · refine ends_pure (sysOk_fs ok kept steady.1 ?_)
    rw [same.1]
    exact ok.sound
  have sound : Sound exact s.fs.sb.ninodes (nodes t) := by
    rcases tree with same | ⟨creates, new, _⟩
    · rw [same.1]
      exact ok.sound
    refine sound_made ok.sound (by decide) new
      (fun _ _ _ _ never => absurd never (by decide)) ?_
    intro strict d name aim absent
    exact ⟨home strict creates d name aim absent, fun never => absurd never (by decide)⟩
  have opening : Opening exact (s.setFs t) ip := by
    obtain ⟨sound', small⟩ := sound_size returned.steady.1 sound ok.small
    exact ⟨returned.books, returned.cached, returned.linked, sound', small, ok.files⟩
  apply get_then
  apply ends_ite
  · intro _
    exact ends_worse (opening_put opening) (fun msg other text => absurd text other)
  intro _
  exact ends_worse (openFd_spec opening p omode) (fun msg other text => absurd text other)

/-- A system call keeps the invariant, and meets a free inode only if a walk of it climbs out of a
    removed directory. -/
theorem call_spec (ok : SysOk exact s) (mine : s.cwd p = some cwd)
    (call : Call) (fits : call.Fits exact (nodes s.fs) (s.fs.itable cwd).inum) :
    Ends (call.run p cwd) s (fun _ t => SysOk exact t)
      (UntypedIf (call.Climbs (nodes s.fs) (s.fs.itable cwd).inum)) := by
  have refused : Ends (inFs (pure (-1))) s (fun (_ : Int) t => SysOk exact t)
      (UntypedIf False) := ends_inFs (ends_pure ok)
  cases call with
  | «open» path omode =>
    cases path with
    | none => exact ends_pure ok
    | some path =>
      apply sysOpen_spec ok mine path omode
      intro strict creates d name aim absent
      exact ((fits d none ⟨creates, rfl, name, aim, lookup_none.mpr absent⟩).2 strict).1
  | mkdir path =>
    cases path with
    | none => exact refused
    | some path =>
      apply sysMake_spec ok mine path tDir (by decide) 0 0
      · intro d name aim absent _
        exact (fits d (some d) ⟨rfl, name, aim, lookup_none.mpr absent⟩).1 d rfl
      intro strict d name aim absent
      obtain ⟨linked, top⟩ := (fits d (some d) ⟨rfl, name, aim, lookup_none.mpr absent⟩).2 strict
      exact ⟨linked, fun _ => top d rfl⟩
  | mknod path major minor =>
    cases path with
    | none => exact refused
    | some path =>
      apply sysMake_spec ok mine path tDevice (by decide) major.toInt16 minor.toInt16
      · intro _ _ _ _ never
        exact absurd never (by decide)
      intro strict d name aim absent
      refine ⟨((fits d none ⟨rfl, name, aim, lookup_none.mpr absent⟩).2 strict).1, ?_⟩
      intro never
      exact absurd never (by decide)
  | link old new =>
    cases old with
    | none => exact refused
    | some old =>
      cases new with
      | none => exact refused
      | some new =>
        apply sysLinkCall_spec ok mine old new
        · intro i last d name aim file found absent
          exact (fits d (some i) ⟨i, last, name, rfl, aim, file, found, lookup_none.mpr absent⟩).1 i rfl
        intro strict i last d name aim file found absent
        obtain ⟨linked, top⟩ := (fits d (some i)
          ⟨i, last, name, rfl, aim, file, found, lookup_none.mpr absent⟩).2 strict
        exact ⟨linked, top i rfl⟩
  | unlink path =>
    cases path with
    | none => exact refused
    | some path => exact sysUnlinkCall_spec ok mine path
  | chdir path =>
    cases path with
    | none => exact ends_pure ok
    | some path => exact sysChdir_spec ok mine path
  | close fd =>
    exact ends_worse (sysClose_spec ok p fd) (fun msg other text => absurd text other)
  | exit =>
    exact ends_worse (exit_spec ok mine) (fun msg other text => absurd text other)

def Sys.Makes (cond : Nodes → Nat → Call → Prop) (s : Sys) (e : Fin nproc × Call) : Prop :=
  ∀ cwd, s.cwd e.1 = some cwd → cond (nodes s.fs) (s.fs.itable cwd).inum e.2

theorem syscall_spec (ok : SysOk exact s) (e : Fin nproc × Call)
    (fits : s.Makes (fun N cwd call => call.Fits exact N cwd) e) : Ends (syscall e.1 e.2) s (fun _ t => SysOk exact t)
      (UntypedIf (∃ cwd, s.cwd e.1 = some cwd ∧ e.2.Climbs (nodes s.fs) (s.fs.itable cwd).inum)) := by
  apply get_then
  cases mine : s.cwd e.1 with
  | none => exact ends_throw (fun text => absurd text (by decide))
  | some cwd =>
    apply ends_mono (call_spec ok mine e.2 (fits cwd mine)) (fun _ _ => id)
    intro msg climbs text
    exact ⟨cwd, rfl, climbs text⟩

def CallStep (s : Sys) (e : Fin nproc × Call) (t : Sys) : Prop :=
  ∃ r, syscall e.1 e.2 s = .ok (r, t)

/-- The invariant holds in every state of a run whose calls find room for their links. -/
theorem run_sysOk {init : Sys} (ok : SysOk exact init) {cond : Nodes → Nat → Call → Prop}
    (fits : ∀ s : Sys, SysOk exact s → ∀ e, s.Makes cond e → s.Makes (fun N cwd call => call.Fits exact N cwd) e)
    {calls : List (Fin nproc × Call)}
    (run : Runs.Run (Runs.Guarded CallStep (Sys.Makes cond)) init calls s) : SysOk exact s := by
  apply Runs.run_invariant (SysOk exact) ok _ run
  rintro u e t kept ⟨guard, r, res⟩
  have next := ends_ok (syscall_spec kept e (fits u kept e guard)) res
  exact next

/- Runs that are computed. -/
def nextSys (s : Sys) (e : Fin nproc × Call) : Option Sys :=
  match syscall e.1 e.2 s with
  | .ok (_, t) => some t
  | .error _ => none

theorem callStep_iff (s : Sys) (e : Fin nproc × Call) (t : Sys) : CallStep s e t ↔ nextSys s e = some t := by
  unfold CallStep nextSys
  constructor
  · rintro ⟨r, res⟩
    rw [res]
  intro res
  split at res
  · rename_i r u same
    exact ⟨r, by rw [same, Option.some.inj res]⟩
  · cases res

theorem run_of_exec {init t : Sys} {calls : List (Fin nproc × Call)}
    (done : Runs.exec nextSys init calls = some t) : Runs.Run CallStep init calls t := by
  have steps : CallStep = fun s e t => nextSys s e = some t := by
    funext s e t
    exact propext (callStep_iff s e t)
  rw [steps]
  exact (Runs.run_iff_exec nextSys calls t).mpr done

end

end Xv6Fs
