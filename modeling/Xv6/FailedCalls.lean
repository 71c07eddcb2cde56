import Xv6.Boot

/- System calls that return -1. They leave the file system, the current directory and the
   descriptors as they were, except for a file that sys_open has made and then cannot open. -/
namespace Xv6Fs
open Xv6 Bytes Outcome Ownership

structure Untouched (p : Fin nproc) (s t : Sys) : Prop where
  entries : nodes t.fs = nodes s.fs
  inodes : ∀ i, view t.fs i = view s.fs i
  contents : ∀ i x, byteAt t.fs.disk (view t.fs i) x = byteAt s.fs.disk (view s.fs i) x
  cwd : t.cwd p = s.cwd p
  ofile : t.ofile p = s.ofile p

def Call.OnPaths : Call → Prop
  | .close _ => False
  | .exit => False
  | _ => True

/-- sys_open makes a new file, and there is no file structure or no descriptor for it. -/
def Call.Strands (s : Sys) (p : Fin nproc) (cwd : Ip) : Call → Prop
  | .open (some path) omode => omode &&& oCreate ≠ 0 ∧
    (∃ d name, resolve (nodes s.fs) (s.fs.itable cwd).inum path true = some (d, name) ∧
      (nodes s.fs d).lookup name = none) ∧
    ((∀ f, (s.ftable f).ref ≠ 0) ∨ ∀ fd, s.ofile p fd ≠ none)
  | _ => False

section
variable {s : Sys} {p : Fin nproc} {cwd : Ip}

/-- What is left of a call that has failed: the same disk, and the same process. -/
def Fails (p : Fin nproc) (s : Sys) (r : Int) (t : Sys) : Prop :=
  r = -1 → t.fs.sb = s.fs.sb ∧ t.fs.disk = s.fs.disk ∧ t.cwd p = s.cwd p ∧ t.ofile p = s.ofile p

theorem fails_inFs {x : M Int} {bad : String → Prop}
    (spec : Ends x s.fs (fun r t => t.sb = s.fs.sb ∧ (r = -1 → t.disk = s.fs.disk)) bad) :
    Ends (inFs x) s (Fails p s) bad := by
  apply ends_inFs
  apply ends_better spec _
  rintro r t ⟨sb, same⟩ failed
  exact ⟨sb, same failed, rfl, rfl⟩

theorem make_fails (ok : SysOk false s) (mine : s.cwd p = some cwd) (path : List UInt8)
    {type : UInt16} (typed : type ≠ 0) (major minor : Int16)
    (room : ∀ d name, resolve (nodes s.fs) (s.fs.itable cwd).inum path true = some (d, name) →
      (nodes s.fs d).slot name = none → type = tDir → (nodes s.fs d).nlink ≠ -1) :
    Ends (inFs (do
      match ← create cwd path type major minor with
      | none => pure (-1)
      | some ip => do
        iunlockput ip
        pure (0 : Int))) s (Fails p s) (fun _ => True) := by
  apply fails_inFs
  apply ends_step (create_spec (sound_shape ok.sound) rfl ok.small ok.books
    (holder_pos mine) path typed major minor room) (fun _ _ => trivial)
  rintro r t (⟨rfl, _, steady, same⟩ | ⟨ip, rfl, returned, _⟩)
  · exact ends_pure ⟨steady.1, fun _ => same.2⟩
  apply ends_step (returned_put returned) (fun _ _ => trivial)
  rintro _ u ⟨_, steady, _⟩
  exact ends_pure ⟨steady.1, fun never => absurd never (by decide)⟩

theorem opening_fails {t : Sys} {ip : Ip} (opening : Opening false t ip)
    (sb : t.fs.sb = s.fs.sb) (disk : t.fs.disk = s.fs.disk) (cwd' : t.cwd p = s.cwd p) (ofile : t.ofile p = s.ofile p) :
    Ends (do inFs (iunlockput ip); pure (-1 : Int)) t (Fails p s) (fun _ => True) := by
  have borrowed := books_unsettle opening.books opening.linked
  apply inFs_then (ends_worse (unchanged_iunlockput borrowed) (fun _ _ => trivial))
  rintro _ u ⟨_, steady, same⟩
  exact ends_pure (fun _ => ⟨steady.1.trans sb, same.2.trans disk, cwd', ofile⟩)

theorem openDone_fd (f : Fin nFile) (fd : Fin nofile) (ip : Ip) (omode : UInt32) (t : Sys) :
    Ends (openDone f fd ip omode) t (fun r _ => 0 ≤ r) (fun _ => True) := by
  have fine : (0 : Int) ≤ fd.val := Int.natCast_nonneg _
  have unlocks : ∀ u, Ends (do inFs (iunlock ip); pure (fd.val : Int)) u (fun r _ => 0 ≤ r)
      (fun _ => True) := by
    intro u
    apply ends_bind (ends_true _ u)
    intro _ v _
    exact ends_pure fine
  apply modify_then
  apply get_then
  apply ends_ite
  · intro _
    apply ends_bind (ends_true _ _)
    intro _ u _
    exact unlocks u
  intro _
  exact unlocks _

theorem openFd_fails {t : Sys} {ip : Ip} (opening : Opening false t ip)
    (sb : t.fs.sb = s.fs.sb) (disk : t.fs.disk = s.fs.disk) (cwd' : t.cwd p = s.cwd p)
    (ofile : t.ofile p = s.ofile p) (omode : UInt32) : Ends (openFd p ip omode) t (Fails p s) (fun _ => True) := by
  apply ends_step (filealloc_spec t) (fun _ => False.elim)
  rintro r u (⟨rfl, rfl, _⟩ | ⟨f, rfl, free, rfl⟩)
  · exact opening_fails opening sb disk cwd' ofile
  obtain ⟨opened, last, untyped⟩ := opening_filealloc opening free
  apply ends_step (fdalloc_spec _ p f) (fun _ => False.elim)
  rintro r u (⟨rfl, rfl, _⟩ | ⟨fd, rfl, rfl⟩)
  · apply known_then (fileclose_empty last untyped)
    exact opening_fails (opening_closed opened untyped) sb disk cwd' ofile
  · exact ends_better (openDone_fd f fd ip omode _) fun r _ fine failed => absurd failed (by omega)

theorem openFd_opens {t : Sys} (ip : Ip) (omode : UInt32) (file : ∃ f, (t.ftable f).ref = 0)
    (descriptor : ∃ fd, t.ofile p fd = none) : Ends (openFd p ip omode) t (fun r _ => 0 ≤ r) (fun _ => True) := by
  apply ends_step (filealloc_spec t) (fun _ => False.elim)
  rintro r u (⟨rfl, rfl, full⟩ | ⟨f, rfl, free, rfl⟩)
  · obtain ⟨f, empty⟩ := file
    exact absurd empty (full f)
  apply ends_step (fdalloc_spec _ p f) (fun _ => False.elim)
  rintro r u (⟨rfl, rfl, full⟩ | ⟨fd, rfl, rfl⟩)
  · obtain ⟨fd, empty⟩ := descriptor
    exact absurd empty (full fd)
  · exact openDone_fd f fd ip omode _

theorem open_fails (ok : SysOk false s) (mine : s.cwd p = some cwd) (path : List UInt8)
    (omode : UInt32) (kept : ¬ (Call.open (some path) omode).Strands s p cwd) :
    Ends (sysOpen p cwd (some path) omode) s (Fails p s) (fun _ => True) := by
  apply inFs_then (ends_worse (openInode_spec (sound_shape ok.sound) rfl ok.small ok.books
    (holder_pos mine) path omode) (fun _ _ => trivial))
  rintro r t (⟨rfl, _, steady, same⟩ | ⟨ip, rfl, returned, tree⟩)
  · exact ends_pure (fun _ => ⟨steady.1, same.2, rfl, rfl⟩)
  apply get_then
  rcases tree with same | ⟨creates, ⟨d, name, k, i, aim, absent, _⟩, kind⟩
  · have opening : Opening false (s.setFs t) ip := by
      refine ⟨returned.books, returned.cached, returned.linked, ?_, ?_, ok.files⟩
      · change Sound false t.sb.ninodes (nodes t)
        rw [returned.steady.1, same.1]
        exact ok.sound
      change t.sb.ninodes ≤ _
      rw [returned.steady.1]
      exact ok.small
    apply ends_ite
    · intro _
      exact opening_fails opening returned.steady.1 same.2 rfl rfl
    intro _
    exact openFd_fails opening returned.steady.1 same.2 rfl rfl omode
  apply ends_ite
  · intro device
    have never : (t.itable ip).dn.type = tDevice := device.1
    rw [kind] at never
    exact absurd never (by decide)
  intro _
  obtain ⟨file, descriptor⟩ := not_or.mp fun full =>
    kept ⟨creates, ⟨d, name, aim, lookup_none.mpr absent⟩, full⟩
  obtain ⟨f, unused⟩ := not_forall.mp file
  obtain ⟨fd, empty⟩ := not_forall.mp descriptor
  apply ends_better (openFd_opens (t := s.setFs t) ip omode ⟨f, not_not.mp unused⟩
    ⟨fd, not_not.mp empty⟩) _
  intro r _ fine failed
  omega

theorem chdir_fails (ok : SysOk false s) (mine : s.cwd p = some cwd) (path : List UInt8) :
    Ends (sysChdir p cwd (some path)) s (Fails p s) (fun _ => True) := by
  have books := ok.books
  rw [holder_cwd mine] at books
  apply inFs_then (ends_worse (chdirInode_spec (sound_shape ok.sound) rfl books path) (fun _ _ => trivial))
  rintro r t (⟨rfl, _, steady, same⟩ | ⟨ip, rfl, _⟩)
  · exact ends_pure (fun _ => ⟨steady.1, same.2, rfl, rfl⟩)
  apply modify_then
  exact ends_pure (fun never => absurd never (by decide))

theorem call_fails (ok : SysOk false s) (mine : s.cwd p = some cwd) {call : Call}
    (paths : call.OnPaths) (fits : call.Fits false (nodes s.fs) (s.fs.itable cwd).inum)
    (kept : ¬ call.Strands s p cwd) : Ends (call.run p cwd) s (Fails p s) (fun _ => True) := by
  have shape := sound_shape ok.sound
  have refused : Ends (inFs (pure (-1))) s (Fails p s) (fun _ => True) :=
    fails_inFs (ends_pure ⟨rfl, fun _ => rfl⟩)
  cases call with
  | «open» path omode =>
    cases path with
    | none => exact ends_pure (fun _ => ⟨rfl, rfl, rfl, rfl⟩)
    | some path => exact open_fails ok mine path omode kept
  | mkdir path =>
    cases path with
    | none => exact refused
    | some path =>
      apply make_fails ok mine path (by decide) 0 0
      intro d name aim absent _
      exact (fits d (some d) ⟨rfl, name, aim, lookup_none.mpr absent⟩).1 d rfl
  | mknod path major minor =>
    cases path with
    | none => exact refused
    | some path =>
      apply make_fails ok mine path (by decide) major.toInt16 minor.toInt16
      intro _ _ _ _ never
      exact absurd never (by decide)
  | link old new =>
    cases old with
    | none => exact refused
    | some old =>
      cases new with
      | none => exact refused
      | some new =>
        apply fails_inFs
        apply ends_mono (sysLink_spec shape rfl ok.small ok.books (holder_pos mine) old new _)
        · rintro r t ⟨_, steady, fails, _⟩
          exact ⟨steady.1, fails⟩
        · exact fun _ _ => trivial
        intro i last d name aim file found absent
        exact (fits d (some i) ⟨i, last, name, rfl, aim, file, found, lookup_none.mpr absent⟩).1 i rfl
  | unlink path =>
    cases path with
    | none => exact refused
    | some path =>
      apply fails_inFs
      apply ends_mono (sysUnlink_spec shape rfl ok.books (holder_pos mine) path) _ (fun _ _ => trivial)
      rintro r t ⟨_, steady, fails, _⟩
      exact ⟨steady.1, fails⟩
  | chdir path =>
    cases path with
    | none => exact ends_pure (fun _ => ⟨rfl, rfl, rfl, rfl⟩)
    | some path => exact chdir_fails ok mine path
  | close fd => exact paths.elim
  | exit => exact paths.elim

def Returns (s : Sys) (e : Fin nproc × Call) (r : Int) : Bool :=
  match syscall e.1 e.2 s with
  | .ok (v, _) => v == r
  | .error _ => false

theorem after_returns {e : Fin nproc × Call} {r : Int} (returns : Returns s e r = true) :
    syscall e.1 e.2 s = .ok (r, afterCalls s [e]) := by
  unfold Returns at returns
  have last : afterCalls s [e] = (nextSys s e).getD s := by
    change ((nextSys s e).bind some).getD s = _
    rw [Option.bind_fun_some]
  rw [last]
  unfold nextSys
  split at returns
  · rename_i v t res
    rw [res, beq_iff_eq.mp returns]
    rfl
  · cases returns

def unlinkA : Fin nproc × Call := (initproc, .unlink (some nameA))

def openAll : List (Fin nproc × Call) := List.replicate nofile (initproc, .open (some [47]) 0)

def createF : Fin nproc × Call := (initproc, .open (some [102]) 0x202)

end

end Xv6Fs
