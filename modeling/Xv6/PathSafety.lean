import Xv6.Boot

/- Path walks meet allocated inodes only, as long as none of them takes ".." in a removed
   directory. -/
namespace Xv6Fs
open Xv6 Bytes Outcome Ownership

def linkFirst (cwd : Ip) (old : List UInt8) : M (Option Ip) := do
  match ← namei cwd old with
  | none => pure none
  | some ip => do
    ilock ip
    let s ← get
    if (s.itable ip).dn.type = tDir then do
      iunlockput ip
      pure none
    else do
      updDn ip fun dn => dn.setNlink (dn.nlink + 1)
      iupdate ip
      iunlock ip
      pure (some ip)

/-- A dirlookup in a walk of the call returns inode j, in state t. -/
def Call.Looks (s : Fs) (cwd : Ip) (j : Nat) (t : Fs) : Call → Prop
  | .open (some path) omode => Xv6Fs.Looks s cwd path (omode &&& oCreate ≠ 0) j t
  | .mkdir (some path) => Xv6Fs.Looks s cwd path true j t
  | .mknod (some path) _ _ => Xv6Fs.Looks s cwd path true j t
  | .link (some old) (some new) => Xv6Fs.Looks s cwd old false j t ∨
    ∃ ip u, linkFirst cwd old s = .ok (some ip, u) ∧ Xv6Fs.Looks u cwd new true j t
  | .unlink (some path) => Xv6Fs.Looks s cwd path true j t
  | .chdir (some path) => Xv6Fs.Looks s cwd path false j t
  | _ => False

section
variable {s : Fs} {h : Ip → Nat} {n : Nat}

theorem linkFirst_spec (shape : Shape n (nodes s)) (size : s.sb.ninodes = n) (books : Books s h 0) {cwd : Ip}
    (mine : 0 < h cwd) (old : List UInt8) : Ends (linkFirst cwd old) s
      (fun r t => ∀ ip, r = some ip → Books t (h + one ip) 0 ∧ Steady h s t ∧
        ∃ i v, nodes t = relinked (nodes s) i v) (fun _ => True) := by
  apply books_namei shape size books mine old (fun _ _ => trivial)
  · intro t _ _ _
    exact ends_pure (fun _ none => nomatch none)
  rintro ip t kept steady same cached _ live
  apply get_then
  apply ends_ite
  · intro _
    rw [← zero_add (one ip)] at kept
    apply ends_step (books_iunlockput_work kept) (fun _ _ => trivial)
    intro _ _ _
    exact ends_pure (fun _ none => nomatch none)
  intro _
  have own := add_one_pos h ip
  have settled : Books t (h + one ip) 0 :=
    books_settle (by rwa [zero_add]) (by rw [same.1]; exact live)
  apply books_relink settled cached _ rfl rfl rfl (fun _ => own)
  intro u kept' steady' _ tree _ _ _
  rw [add_zero] at steady'
  have prev : Steady h s u := steady_trans steady (steady_mono steady' (le_counted h _))
  apply ends_step (books_iunlock kept' ip) (fun _ _ => trivial)
  rintro _ v ⟨kept'', same'', steady''⟩
  rw [add_zero] at steady''
  apply ends_pure
  intro jp same_ip
  rw [← Option.some.inj same_ip]
  refine ⟨kept'', steady_trans prev (steady_mono steady'' (le_counted h _)), ?_⟩
  exact ⟨_, _, by rw [same'', tree, same.1]; rfl⟩

/-- Every inode that a walk of the call finds is allocated, unless a walk climbs out of a removed
    directory. -/
theorem call_looks_live (shape : Shape n (nodes s)) (size : s.sb.ninodes = n) (books : Books s h 0) {cwd : Ip}
    (mine : 0 < h cwd) {call : Call} {j : Nat} {t : Fs} (level : ¬ call.Climbs (nodes s) (s.itable cwd).inum)
    (looks : call.Looks s cwd j t) : (getDinode t.sb t.disk j).type ≠ 0 := by
  cases call with
  | «open» path omode =>
    cases path with
    | none => exact looks.elim
    | some path =>
      apply looks_live shape size books mine _ looks
      by_cases creates : omode &&& oCreate ≠ 0
      · rw [decide_eq_true creates]
        exact fun climbs => level (climbs_full climbs)
      rw [decide_eq_false creates]
      exact level
  | mkdir path | mknod path major minor =>
    cases path with
    | none => exact looks.elim
    | some path => exact looks_live shape size books mine (fun climbs => level (climbs_full climbs)) looks
  | link old new =>
    cases old with
    | none => exact looks.elim
    | some old =>
      cases new with
      | none => exact looks.elim
      | some new =>
        rcases looks with first | ⟨ip, u, links, snd⟩
        · exact looks_live shape size books mine (fun climbs => level (.inl climbs)) first
        obtain ⟨kept, steady, i, v, tree⟩ := ends_ok (linkFirst_spec shape size books mine old) links ip rfl
        have same := shape_relinked (nodes s) i v
        have here : 0 < (h + one ip) cwd := by
          rw [Pi.add_apply]
          omega
        have shape' : Shape n (nodes u) := by
          rw [tree]
          exact shape_kept shape same
        apply looks_live shape' (steady.1 ▸ size) kept here _ snd
        rw [(steady.2 cwd mine).1, tree]
        intro climbs
        exact level (.inr ((climbs_shape same _ _ _).mp climbs))
  | unlink path | chdir path =>
    cases path with
    | none => exact looks.elim
    | some path => exact looks_live shape size books mine level looks
  | close fd => exact looks.elim
  | exit => exact looks.elim

end

/-- No walk of the call takes ".." in a removed directory, and the call adds no link to an inode
    whose count would wrap to 0. -/
def Call.Level (N : Nodes) (cwd : Nat) (call : Call) : Prop :=
  ¬ call.Climbs N cwd ∧ ∀ d j, call.Adds N cwd d j → ∀ i, j = some i → (N i).nlink ≠ -1

theorem fits_of_level {s : Sys} {e : Fin nproc × Call} (level : s.Makes (fun N cwd call => call.Level N cwd) e) :
    s.Makes (fun N cwd call => call.Fits false N cwd) e := by
  intro cwd mine d j adds
  exact ⟨(level cwd mine).2 d j adds, fun strict => absurd strict Bool.false_ne_true⟩

def NoType (s : Sys) (e : Fin nproc × Call) : Prop :=
  syscall e.1 e.2 s ≠ .error "ilock: no type"

/-- In every run of calls that meet the condition, every inode that a further such call looks up is
    allocated, and it does not panic in ilock. -/
theorem walks_meet_allocated {init s : Sys} (start : SysOk false init) {calls : List (Fin nproc × Call)}
    (run : Runs.Run (Runs.Guarded CallStep (Sys.Makes fun N cwd call => call.Level N cwd)) init calls s)
    (e : Fin nproc × Call) (level : s.Makes (fun N cwd call => call.Level N cwd) e) :
    (∀ cwd j t, s.cwd e.1 = some cwd → e.2.Looks s.fs cwd j t →
      (getDinode t.sb t.disk j).type ≠ 0) ∧ NoType s e := by
  have ok := run_sysOk start (fun _ _ _ => fits_of_level) run
  constructor
  · intro cwd j t mine looks
    exact call_looks_live (sound_shape ok.sound) rfl ok.books (holder_pos mine) (level cwd mine).1 looks
  intro panics
  obtain ⟨cwd, mine, climbs⟩ := ends_error (syscall_spec ok e (fits_of_level level)) panics rfl
  exact (level cwd mine).1 climbs

theorem level_name {N : Nodes} {i : Nat} {path name : List UInt8} {parent : Bool}
    (single : skipelem path = some (name, [])) (down : cname name ≠ dotdot) : ¬ PathClimbs N i path parent := by
  unfold PathClimbs Climbs
  rw [single]
  rintro ⟨_, _, ⟨_, up⟩ | ⟨j, _, climbs⟩⟩
  · exact down up
  cases length : path.length with
  | zero | succ fuel =>
    rw [length] at climbs
    exact climbs

def enter (name : List UInt8) : Fin nproc × Call := (initproc, .chdir (some name))

theorem walks_meet_allocated_chdir : NoType (afterCalls smallBoot [enter nameA]) (enter nameB) := by
  have returns : (Runs.exec nextSys smallBoot [enter nameA]).isSome = true := by decide +kernel
  have enters : ∀ (s : Sys) (name : List UInt8), skipelem name = some (name, []) →
      cname name ≠ dotdot → s.Makes (fun N cwd call => call.Level N cwd) (enter name) := by
    intro s name single down cwd _
    exact ⟨level_name single down, fun d j adds => adds.elim⟩
  have guarded : Runs.Run (Runs.Guarded CallStep (Sys.Makes fun N cwd call => call.Level N cwd))
      smallBoot [enter nameA] (afterCalls smallBoot [enter nameA]) := by
    apply Runs.guarded_of_run _ (run_after returns)
    intro before e t inside _
    have only : e = enter nameA := by
      have member := inside.subset (List.mem_append_right before (List.mem_singleton_self e))
      exact List.mem_singleton.mp member
    rw [only]
    exact enters t nameA (by decide) (by decide)
  exact (walks_meet_allocated (sysOk_lax (boot_ok small_ok)) guarded (enter nameB)
    (enters _ nameB (by decide) (by decide))).2

def removeBoth : List (Fin nproc × Call) :=
  [enterB, (initproc, .unlink (some [46, 46, 47, 98])), (initproc, .unlink (some [47, 97]))]

/-- After that the walk of ".." meets a free inode. -/
theorem dotdot_of_removed_panics :
    ¬ ∀ (sb : Superblock) (disk : Disk) (calls : List (Fin nproc × Call)) (s : Sys),
      ImageOk sb disk → Runs.Run CallStep (boot sb disk) calls s → ∀ e : Fin nproc × Call,
      (∀ cwd j t, s.cwd e.1 = some cwd → e.2.Looks s.fs cwd j t →
        (getDinode t.sb t.disk j).type ≠ 0) ∧ NoType s e := by
  intro claimed
  have returns : (Runs.exec nextSys smallBoot removeBoth).isSome = true := by decide +kernel
  have safe := (claimed smallSb smallImage removeBoth (afterCalls smallBoot removeBoth) small_ok
    (run_after returns) (initproc, .open (some dotdot) 0)).2
  apply safe
  have panics : (match syscall initproc (.open (some dotdot) 0) (afterCalls smallBoot removeBoth) with
    | .ok _ => false
    | .error msg => msg == "ilock: no type") = true := by decide +kernel
  revert panics
  cases syscall initproc (.open (some dotdot) 0) (afterCalls smallBoot removeBoth) with
  | ok _ => intro no; cases no
  | error msg =>
    intro same
    rw [beq_iff_eq.mp same]

end Xv6Fs
