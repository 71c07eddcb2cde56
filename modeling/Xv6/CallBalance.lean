import Xv6.SysSpecs

/- What a call leaves behind. A process at rest is outside of transactions and has no lock, in
   any interleaving; and a call that runs alone gets as many references as its process keeps in
   descriptors and in its current directory. -/
namespace Xv6Conc
open Xv6 Xv6Fs Threads Prog Function
set_option linter.unusedSectionVars false

section
variable {T : Type} [Fintype T] [DecidableEq T]
variable {ip : Ip} {ninodes : Nat} {path : Option (List UInt8)} {o : Op} {f : Fin nFile} {type : UInt16}
  {omode : UInt32}

def fdInode (s : Shared T) (t : T) (fd : Fin nofile) : Option Ip :=
  (s.ofile t fd).bind fun f => (s.ftable f).inode

def inFiles (s : Shared T) (t : T) : Ip → Nat := tally (fdInode s t)

def own (s : Shared T) (t : T) (ip : Ip) : Nat := one (s.cwd t) ip + inFiles s t ip

structure Between (s : Shared T) : Prop where
  unique : ∀ ip jp, 0 < (s.entry ip).ref → 0 < (s.entry jp).ref →
    (s.entry ip).ino = (s.entry jp).ino → ip = jp
  refs : ∀ ip, (s.entry ip).ref = (∑ t, one (s.cwd t) ip + fileRefs s.ftable ip : Nat)
  unlocked : ∀ ip, (s.entry ip).holder = none
  synced : ∀ ip, 0 < (s.entry ip).ref → (s.entry ip).valid = true →
    (s.entry ip).dn.type ≠ 0 ∧ s.disk (s.entry ip).ino = (s.entry ip).dn
  files : ∀ f, (s.ftable f).ref = (∑ t, fdsOf (s.ofile t) f : Nat)
  closed : ∀ f, (s.ftable f).ref ≤ 0 → (s.ftable f).type = .none
  outstanding : s.outstanding = 0

def restView (cwd : Ip) : View := ⟨0, {cwd}, ∅, none, fun _ => none, cwd⟩

def restLedger (s : Shared T) (t : T) : Hold × Know := ((restView (s.cwd t)).hold, .nothing)

def atRest (s : Shared T) : Config T Op Ans (Shared T) (Hold × Know) :=
  ⟨s, fun _ => .ret (), restLedger s⟩

theorem rest_ledger (s : Shared T) (t : T) : Rest (restLedger s t) :=
  ⟨restView (s.cwd t), ⟨rfl, rfl, rfl, rfl⟩, rfl, rfl⟩

variable {s s' : Shared T} {l : T → Hold} {t : T}

theorem count_cwd (cwd ip : Ip) : ((restView cwd).hold.cell ip).refs = one cwd ip := by
  by_cases same : ip = cwd
  · subst ip
    simp [restView, View.hold, one]
  · simp [restView, View.hold, one, same]

theorem base_between (between : Between s) : Base s fun t => (restLedger s t).1 := by
  have none : ∀ t, (restLedger s t).1.file = none := fun _ => rfl
  refine ⟨between.unique, ?_, ?_, ?_, fun _ => rfl⟩
  · intro ip
    constructor
    · simp only [restLedger, count_cwd, between.refs ip]
    · simp [between.unlocked, restLedger, restView, View.hold]
    · simp [restLedger, restView, View.hold]
    · simp [restLedger, restView, View.hold, Hold.Via]
    · simp [restLedger, restView, View.hold]
    · simp [restLedger, restView, View.hold]
    · simp [restLedger, restView, View.hold]
    · intro live valid
      obtain ⟨used, same⟩ := between.synced ip live valid
      exact .inr ⟨used, congrArg Dinode.type same⟩
    intro live valid
    exact .inr (.inl (between.synced ip live valid).2)
  · constructor
    · intro f
      have idle : inHand Option.none f = 0 := by simp [inHand]
      rw [between.files f]
      simp only [fileUses, none, idle, Nat.add_zero]
    · exact between.closed
    · simp [none]
    · simp [none]
    · simp [restLedger, restView, View.hold]
  · simp [between.outstanding, restLedger, restView, View.hold]

theorem call_sound : Threads.Sound (callRules (T := T) False) free fun s l => Base s fun t => (l t).1 := by
  intro s l t o a s' base _ ok done
  obtain ⟨fits, kept⟩ := base_sound s (fun t => (l t).1) t o a s' base trivial ok.1 done
  refine ⟨⟨fits, False.elim⟩, ?_⟩
  change Base s' fun u => (update l t (book (l t).1 o a, _) u).1
  rw [holds_update]
  exact kept

/- References in descriptors. -/

def Op.OnFiles : Op → Prop
  | .filealloc | .fdalloc _ | .setFile _ _ | .fileclose _ | .takeFd _ => True
  | _ => False

theorem files_untouched {a : Ans o} (done : exec t o s a s') (other : ¬ o.OnFiles) :
    s'.ftable = s.ftable ∧ s'.ofile = s.ofile := by
  cases o <;> simp only [exec, Op.OnFiles, not_true_eq_false] at done other <;>
    grind [Shared.setEntry, Shared.setDisk, Shared.setEnts, Shared.put]

/-- An operation that gives a process as many references in descriptors as there are new
    references in files. -/
def Balances (s s' : Shared T) (t : T) : Prop :=
  ∀ ip, fileRefs s'.ftable ip + inFiles s t ip = fileRefs s.ftable ip + inFiles s' t ip

theorem balances_same (s' : Shared T) (tables : ∀ f, (s'.ftable f).inode = (s.ftable f).inode)
    (slots : ∀ fd, fdInode s' t fd = fdInode s t fd) : Balances s s' t := by
  intro ip
  have first : fileRefs s'.ftable = fileRefs s.ftable := by
    simp only [fileRefs, tables]
  have snd : inFiles s' t = inFiles s t := by
    simp only [inFiles, funext slots]
  rw [first, snd]

theorem balances_setFile (file : File) (prev : (s.ftable f).inode = none)
    (after : file.inode = none) : Balances s (s.setFile f file) t := by
  have tables : ∀ g, ((s.setFile f file).ftable g).inode = (s.ftable g).inode := by
    intro g
    by_cases same : g = f
    · subst g
      simp [Shared.setFile, prev, after]
    · simp [Shared.setFile, same]
  apply balances_same _ tables
  intro fd
  simp only [fdInode, tables]
  rfl

theorem untyped_inode {file : File} (untyped : file.type = .none) : file.inode = none := by
  simp [File.inode, untyped]

theorem opening_once (files : FilesOk s.ftable s.ofile l) {fd fd' : Fin nofile}
    (mine : (l t).file = some (f, .opening fd)) (there : s.ofile t fd' = some f) : fd' = fd := by
  obtain ⟨slot, single, -⟩ := files.opening t f fd mine
  by_contra other
  have two := two_le_sum (fun fd => if s.ofile t fd = some f then 1 else 0) other
  have uses := uses_le files t f
  simp only [there, slot, if_true, fdsOf] at two uses
  omega

theorem balances_open (files : FilesOk s.ftable s.ofile l) {fd : Fin nofile}
    (mine : (l t).file = some (f, .opening fd)) (file : File) : Balances s (s.setFile f file) t := by
  intro ip
  obtain ⟨slot, -, untyped⟩ := files.opening t f fd mine
  have none := untyped_inode untyped
  have slots : fdInode (s.setFile f file) t = update (fdInode s t) fd file.inode := by
    funext fd'
    by_cases same : fd' = fd
    · subst fd'
      simp [fdInode, Shared.setFile, slot]
    have other : s.ofile t fd' ≠ some f := fun there => same (opening_once files mine there)
    rw [update_of_ne same]
    simp only [fdInode, Shared.setFile]
    cases at' : s.ofile t fd' with
    | none => rfl
    | some g =>
      have apart : g ≠ f := by
        rintro rfl
        exact other at'
      simp [apart]
  have first := fileRefs_update s.ftable f file ip
  have snd := congrFun (tally_update (fdInode s t) fd file.inode) ip
  have prev : fdInode s t fd = Option.none := by simp [fdInode, slot, none]
  rw [← slots, prev] at snd
  rw [none] at first
  simp only [Pi.add_apply] at snd
  change fileRefs (update s.ftable f file) ip + tally (fdInode s t) ip =
    fileRefs s.ftable ip + tally (fdInode (s.setFile f file) t) ip
  omega

theorem balances_step (base : Base s l) {a : Ans o} (ok : allows (l t) o) (done : exec t o s a s')
    (keeps : ∀ fd, o ≠ .takeFd fd) (opens : ∀ f, (l t).file ≠ some (f, .closing)) : Balances s s' t := by
  by_cases files : o.OnFiles
  · cases o <;> simp only [Op.OnFiles] at files
    case filealloc =>
      simp only [exec] at done
      split at done
      · rename_i f found
        obtain ⟨-, rfl⟩ := done
        have free : (s.ftable f).ref = 0 := by simpa using List.find?_some found
        have untyped := base.files.closed f (by omega)
        exact balances_setFile _ (untyped_inode untyped) (untyped_inode (by simpa [File.setRef] using untyped))
      rw [done.2]
      exact fun _ => rfl
    case fdalloc f =>
      have untyped := untyped_inode (base.files.alloc t f ok.2).2
      simp only [exec] at done
      split at done
      · rename_i fd found
        obtain ⟨-, rfl⟩ := done
        have empty : s.ofile t fd = none := by simpa using List.find?_some found
        refine balances_same _ (fun _ => rfl) ?_
        intro fd'
        by_cases same : fd' = fd
        · subst fd'
          simp [fdInode, Shared.setFd, empty, untyped]
        · simp [fdInode, Shared.setFd, same]
      rw [done.2]
      exact fun _ => rfl
    case setFile f file =>
      obtain ⟨-, ⟨fd, mine⟩, -⟩ := ok
      rw [show s' = _ from done]
      exact balances_open base.files mine _
    case fileclose f =>
      obtain ⟨-, mine⟩ := ok
      obtain ⟨single, untyped⟩ := base.files.alloc t f (mine.resolve_right (opens f))
      obtain ⟨-, done⟩ := done
      rw [single, if_neg (by decide)] at done
      rw [done.2]
      exact balances_setFile _ (untyped_inode untyped) (by simp [File.inode, File.closed])
    case takeFd fd => exact absurd rfl (keeps fd)
  obtain ⟨ftable, ofile⟩ := files_untouched done files
  refine balances_same _ (fun f => by rw [ftable]) ?_
  intro fd
  simp only [fdInode, ftable, ofile]

/- Only sys_close takes a descriptor away. -/

def Op.Opens : Op → Prop
  | .takeFd _ => False
  | _ => True

abbrev Opens {A : Type} (x : P A) : Prop := x.All Op.Opens

theorem opens_then {A : Type} {f : Ans o → P A} (opens : o.Opens)
    (next : ∀ a, Opens (f a)) : Opens (act o >>= f) := ⟨opens, next⟩

theorem opens_act (opens : o.Opens) : Opens (act o) := ⟨opens, fun _ => trivial⟩

theorem opens_panic {A : Type} {msg : String} : Opens (panic msg : P A) :=
  opens_then trivial fun never => never.elim

theorem opens_ilock : Opens (ilock ip) := opens_then trivial fun _ => opens_act trivial

theorem opens_iput : Opens (iput ip) := by
  refine opens_then trivial fun frees => ?_
  cases frees with
  | true =>
    refine opens_then trivial fun _ => opens_then trivial fun _ => opens_then trivial fun _ => ?_
    exact opens_then trivial fun _ => opens_act trivial
  | false => trivial

theorem opens_iunlockput : Opens (iunlockput ip) := opens_then trivial fun _ => opens_iput

theorem opens_ialloc {ninodes dev : Nat} : Opens (ialloc ninodes dev type) := by
  have loop : ∀ fuel inum, Opens (iallocFrom dev type fuel inum) := by
    intro fuel
    induction fuel with
    | zero => exact fun _ => opens_panic
    | succ fuel ih =>
      intro inum
      refine opens_then trivial fun free => ?_
      cases free with
      | true => exact opens_act trivial
      | false => exact ih (inum + 1)
  exact loop _ _

theorem opens_dirlookup {dp : Ip} {name : List UInt8} : Opens (dirlookup dp name) := by
  refine opens_then trivial fun found => ?_
  cases found with
  | none => trivial
  | some e => exact opens_then trivial fun _ => trivial

theorem opens_dirlink {dp : Ip} {name : List UInt8} {inum : Nat} : Opens (dirlink dp name inum) := by
  refine all_bind opens_dirlookup fun found => ?_
  cases found with
  | none => exact opens_then trivial fun _ => trivial
  | some e => exact all_bind opens_iput fun _ => trivial

theorem opens_namex {path : List UInt8} {parent : Bool} : Opens (namex path parent) := by
  have loop : ∀ fuel path ip, Opens (namexFrom parent fuel path ip) := by
    intro fuel
    induction fuel with
    | zero => exact fun _ _ => trivial
    | succ fuel ih =>
      intro path ip
      unfold namexFrom
      split
      · split
        · exact all_bind opens_iput fun _ => trivial
        · trivial
      refine all_bind opens_ilock fun _ => opens_then trivial fun dn => ?_
      split
      · exact all_bind opens_iunlockput fun _ => trivial
      split
      · exact opens_then trivial fun _ => trivial
      refine all_bind opens_dirlookup fun found => ?_
      cases found with
      | none => exact all_bind opens_iunlockput fun _ => trivial
      | some e => exact all_bind opens_iunlockput fun _ => ih _ _
  refine all_bind ?_ fun ip => loop _ _ ip
  unfold namexStart
  split
  · exact opens_act trivial
  · exact opens_then trivial fun _ => opens_then trivial fun _ => trivial

theorem opens_namei {path : List UInt8} : Opens (namei path) := by
  refine all_bind opens_namex fun found => ?_
  cases found with
  | none => trivial
  | some e => trivial

theorem opens_endWith {r : Int} : Opens (endWith r) := opens_then trivial fun _ => trivial

theorem opens_putEnd {r : Int} : Opens (do iunlockput ip; endWith r) :=
  all_bind opens_iunlockput fun _ => opens_endWith

theorem opens_update {A : Type} {f : Dinode → Dinode} {rest : P A} (next : Opens rest) :
    Opens (do act (.store ip f); act (.iupdate ip); rest) :=
  opens_then trivial fun _ => opens_then trivial fun _ => next

theorem opens_createDots {dp ip : Ip} : Opens (createDots dp ip type) := by
  unfold createDots
  split
  · refine opens_update (opens_then trivial fun i => all_bind opens_dirlink fun r => ?_)
    split
    · exact opens_panic
    refine opens_then trivial fun d => all_bind opens_dirlink fun r => ?_
    split
    · exact opens_panic
    · trivial
  · trivial

theorem opens_create {path : List UInt8} {major minor : Int16} : Opens (create ninodes path type major minor) := by
  refine all_bind opens_namex fun found => ?_
  cases found with
  | none => trivial
  | some e =>
    refine all_bind opens_ilock fun _ => all_bind opens_dirlookup fun found => ?_
    cases found with
    | none =>
      refine opens_then trivial fun d => all_bind opens_ialloc fun ip => all_bind opens_ilock fun _ => ?_
      refine opens_update (all_bind opens_createDots fun _ => opens_then trivial fun i => ?_)
      refine all_bind opens_dirlink fun r => ?_
      split
      · exact opens_panic
      · exact all_bind opens_iunlockput fun _ => trivial
    | some e =>
      refine all_bind opens_iunlockput fun _ => all_bind opens_ilock fun _ => ?_
      refine opens_then trivial fun dn => ?_
      split
      · trivial
      · exact all_bind opens_iunlockput fun _ => trivial

theorem opens_sysMkdir : Opens (sysMkdir ninodes path) := by
  refine opens_then trivial fun _ => ?_
  cases path with
  | none => exact opens_endWith
  | some path =>
    refine all_bind opens_create fun ip => ?_
    cases ip with
    | none => exact opens_endWith
    | some ip => exact opens_putEnd

theorem opens_sysMknod {major minor : Int32} : Opens (sysMknod ninodes path major minor) := by
  refine opens_then trivial fun _ => ?_
  cases path with
  | none => exact opens_endWith
  | some path =>
    refine all_bind opens_create fun ip => ?_
    cases ip with
    | none => exact opens_endWith
    | some ip => exact opens_putEnd

theorem opens_linkBad : Opens (linkBad ip) :=
  all_bind opens_ilock fun _ => opens_update opens_putEnd

theorem opens_sysLink {old new : Option (List UInt8)} : Opens (sysLink old new) := by
  cases old with
  | none => trivial
  | some old => cases new with
    | none => trivial
    | some new =>
      refine opens_then trivial fun _ => all_bind opens_namei fun ip => ?_
      cases ip with
      | none => exact opens_endWith
      | some ip =>
        refine all_bind opens_ilock fun _ => opens_then trivial fun dn => ?_
        split
        · exact opens_putEnd
        refine opens_update (opens_then trivial fun _ => all_bind opens_namex fun found => ?_)
        cases found with
        | none => exact opens_linkBad
        | some e =>
          refine all_bind opens_ilock fun _ => opens_then trivial fun d => opens_then trivial fun i => ?_
          split
          · exact all_bind opens_iunlockput fun _ => opens_linkBad
          refine all_bind opens_dirlink fun r => ?_
          split
          · exact all_bind opens_iunlockput fun _ => opens_linkBad
          · exact all_bind opens_iunlockput fun _ => all_bind opens_iput fun _ => opens_endWith

theorem opens_unlinkFound {dp ip : Ip} {k : Nat} : Opens (unlinkFound dp ip k) := by
  refine all_bind opens_ilock fun _ => opens_then trivial fun dn => ?_
  split
  · exact opens_panic
  refine all_bind (opens_then trivial fun dn => ?_) fun keep => ?_
  · split
    · exact opens_then trivial fun _ => trivial
    · trivial
  split
  · exact all_bind opens_iunlockput fun _ => opens_putEnd
  refine opens_then trivial fun _ => all_bind (opens_then trivial fun dn => ?_) fun _ => ?_
  · split
    · exact opens_then trivial fun _ => opens_act trivial
    · trivial
  · exact all_bind opens_iunlockput fun _ => opens_update opens_putEnd

theorem opens_sysUnlink : Opens (sysUnlink path) := by
  cases path with
  | none => trivial
  | some path =>
    refine opens_then trivial fun _ => all_bind opens_namex fun found => ?_
    cases found with
    | none => exact opens_endWith
    | some e =>
      refine all_bind opens_ilock fun _ => ?_
      split
      · exact opens_putEnd
      refine all_bind opens_dirlookup fun found => ?_
      cases found with
      | none => exact opens_putEnd
      | some e => exact opens_unlinkFound

theorem opens_openInode {path : List UInt8} : Opens (openInode ninodes path omode) := by
  unfold openInode
  split
  · exact opens_create
  refine all_bind opens_namei fun ip => ?_
  cases ip with
  | none => trivial
  | some ip =>
    refine all_bind opens_ilock fun _ => opens_then trivial fun dn => ?_
    split
    · exact all_bind opens_iunlockput fun _ => trivial
    · trivial

theorem opens_openFd {dn : Dinode} : Opens (openFd ip dn omode) := by
  refine opens_then trivial fun f => ?_
  cases f with
  | none => exact opens_putEnd
  | some f =>
    refine opens_then trivial fun fd => ?_
    cases fd with
    | none => exact opens_then trivial fun _ => opens_putEnd
    | some fd =>
      refine opens_then trivial fun _ => ?_
      split
      · exact opens_then trivial fun _ => opens_then trivial fun _ => opens_endWith
      · exact opens_then trivial fun _ => opens_endWith

theorem opens_sysOpen : Opens (sysOpen ninodes path omode) := by
  cases path with
  | none => trivial
  | some path =>
    refine opens_then trivial fun _ => all_bind opens_openInode fun ip => ?_
    cases ip with
    | none => exact opens_endWith
    | some ip =>
      refine opens_then trivial fun dn => ?_
      split
      · exact opens_putEnd
      · exact opens_openFd

theorem opens_sysChdir : Opens (sysChdir path) := by
  refine opens_then trivial fun _ => ?_
  cases path with
  | none => exact opens_endWith
  | some path =>
    refine all_bind opens_namei fun ip => ?_
    cases ip with
    | none => exact opens_endWith
    | some ip =>
      refine all_bind opens_ilock fun _ => opens_then trivial fun dn => ?_
      split
      · exact opens_putEnd
      refine opens_then trivial fun _ => opens_then trivial fun cwd => all_bind opens_iput fun _ => ?_
      exact opens_then trivial fun _ => opens_then trivial fun _ => trivial

theorem opens_sysExec : Opens (sysExec path) := by
  cases path with
  | none => trivial
  | some path =>
    refine opens_then trivial fun _ => all_bind opens_namei fun ip => ?_
    cases ip with
    | none => exact opens_endWith
    | some ip =>
      refine all_bind opens_ilock fun _ => opens_then trivial fun bad => ?_
      split
      · exact opens_putEnd
      refine all_bind opens_iunlockput fun _ => opens_then trivial fun _ => opens_then trivial fun bad => ?_
      split
      · trivial
      · trivial

theorem opens_onFile {fd : Option (Fin nofile)} {f : File → P Int} (next : ∀ file, Opens (f file)) :
    Opens (onFile fd f) := by
  cases fd with
  | none => trivial
  | some fd =>
    refine opens_then trivial fun file => ?_
    cases file with
    | none => trivial
    | some file => exact next file

theorem opens_fileread (file : File) : Opens (fileread file) := by
  unfold fileread
  split
  · trivial
  cases file.type with
  | inode => exact all_bind opens_ilock fun _ => opens_then trivial fun _ => opens_act trivial
  | pipe => exact opens_act trivial
  | device => exact opens_act trivial
  | none => exact opens_panic

theorem opens_filewrite (data : List (List Dirent)) (file : File) : Opens (filewrite file data) := by
  have loop : ∀ data, Opens (filewriteFrom file.ip data) := by
    intro data
    induction data with
    | nil => trivial
    | cons es data ih =>
      refine opens_then trivial fun _ => all_bind opens_ilock fun _ => opens_then trivial fun _ => ?_
      refine opens_then trivial fun _ => opens_then trivial fun _ => opens_then trivial fun short => ?_
      split
      · trivial
      · exact ih
  unfold filewrite
  split
  · trivial
  cases file.type with
  | inode => exact loop data
  | pipe => exact opens_act trivial
  | device => exact opens_act trivial
  | none => exact opens_panic

theorem opens_run {call : FsCall} (keeps : ∀ fd, call ≠ .close fd) : Opens (call.run ninodes) := by
  have code : Opens (call.code ninodes) := by
    cases call with
    | «open» path omode => exact opens_sysOpen
    | mkdir path => exact opens_sysMkdir
    | mknod path major minor => exact opens_sysMknod
    | link old new => exact opens_sysLink
    | unlink path => exact opens_sysUnlink
    | chdir path => exact opens_sysChdir
    | exec path => exact opens_sysExec
    | read fd => exact opens_onFile opens_fileread
    | write fd data => exact opens_onFile (opens_filewrite data)
    | close fd => exact absurd rfl (keeps fd)
  exact all_bind code fun _ => trivial

/- Whole calls. -/

theorem opens_book {h : Hold} {a : Ans o} (opens : o.Opens) (prev : ∀ f, h.file ≠ some (f, .closing))
    (f : Fin nFile) : (book h o a).file ≠ some (f, .closing) := by
  have old := prev f
  cases o
  case filealloc =>
    simp only [book, Hold.setFile, ne_eq, Option.map_eq_some_iff, Prod.mk.injEq]
    rintro ⟨g, -, -, other⟩
    cases other
  case takeFd fd => exact opens.elim
  all_goals
    simp only [book]
    grind [Hold.setCell, Hold.setOps, Hold.setFile, Hold.setCwd, Hold.setKnown, Hold.addRef, Hold.dropRef]

structure Calling (c : Config T Op Ans (Shared T) (Hold × Know)) (t : T)
    (d : Config T Op Ans (Shared T) (Hold × Know)) : Prop where
  base : Base d.state fun t => (d.ledger t).1
  code : wp (callRules False) t (d.code t) (d.ledger t) fun _ => Rest
  opens : Opens (d.code t)
  closes : ∀ f, (d.ledger t).1.file ≠ some (f, .closing)
  others : ∀ u, u ≠ t → d.ledger u = c.ledger u
  balances : Balances c.state d.state t

theorem balances_trans {s s' s'' : Shared T} (first : Balances s s' t) (snd : Balances s' s'' t) :
    Balances s s'' t := by
  intro ip
  have one := first ip
  have two := snd ip
  omega

theorem calling_step {c d e : Config T Op Ans (Shared T) (Hold × Know)} (calling : Calling c t d)
    (step : Step (callRules False) (fun _ : T => FsCall.run ninodes) d (.step t) e) : Calling c t e := by
  cases step with
  | @step _ o k a s next done =>
    have code := calling.code
    have opens := calling.opens
    rw [next] at code opens
    obtain ⟨ok, more⟩ := code
    obtain ⟨fits, base⟩ := call_sound d.state d.ledger t o a s calling.base trivial ok done
    constructor
    · exact base
    · simp only [update_self]
      exact more a fits
    · simp only [update_self]
      exact opens.2 a
    · simp only [update_self]
      exact opens_book opens.1 calling.closes
    · intro u other
      simp only [update_of_ne other]
      exact calling.others u other
    apply balances_trans calling.balances
    refine balances_step calling.base ok.1 done ?_ calling.closes
    rintro fd rfl
    exact opens.1

theorem ledger_update {l m : T → Hold × Know} (others : ∀ u, u ≠ t → m u = l u) : m = update l t (m t) := by
  funext u
  by_cases mine : u = t
  · subst u
    simp
  · simp [mine, others u mine]

theorem rest_holds {l : T → Hold × Know} (base : Base s fun t => (l t).1) (idle : Rest (l t)) :
    (l t).1.ops = 0 ∧ (∀ ip, (s.entry ip).holder ≠ some t) ∧ ∀ ip, ((l t).1.cell ip).refs = one (s.cwd t) ip := by
  obtain ⟨v, ⟨ops, refs, locks, -⟩, hold, -⟩ := idle
  have cwd : s.cwd t = v.cwd := by
    have same := base.cwd t
    rwa [hold] at same
  refine ⟨by rw [hold]; exact ops, ?_, ?_⟩
  · intro ip holder
    have held := ((base.cells ip).holder t).mp holder
    simp [hold, View.hold, locks] at held
  intro ip
  rw [hold, cwd, ← count_cwd]
  simp [View.hold, restView, refs]

theorem calling_done {c d : Config T Op Ans (Shared T) (Hold × Know)}
    (base : Base c.state fun t => (c.ledger t).1) (start : Rest (c.ledger t)) (calling : Calling c t d)
    (stop : d.code t = .ret ()) :
    d.state.outstanding = c.state.outstanding ∧ (∀ ip, (d.state.entry ip).holder ≠ some t) ∧
      ∀ ip, (d.state.entry ip).ref + own c.state t ip = (c.state.entry ip).ref + own d.state t ip := by
  have idle : Rest (d.ledger t) := by
    have code := calling.code
    rw [stop] at code
    exact code
  obtain ⟨ops, -, refs⟩ := rest_holds base start
  obtain ⟨ops', unlocked, refs'⟩ := rest_holds calling.base idle
  have ledger := ledger_update calling.others
  refine ⟨?_, unlocked, ?_⟩
  · have sum := sum_update c.ledger (fun _ l => l.1.ops) t (d.ledger t)
    have prev := base.outstanding
    have after := calling.base.outstanding
    rw [← ledger] at sum
    omega
  intro ip
  have sum := sum_update c.ledger (fun _ l => (l.1.cell ip).refs) t (d.ledger t)
  have prev := (base.cells ip).refs
  have after := (calling.base.cells ip).refs
  have files := calling.balances ip
  rw [← ledger] at sum
  rw [refs ip, refs' ip] at sum
  simp only [own]
  omega

/-- The file system's calls, in any interleaving from a state between calls. A transaction is
    never begun inside another, and every process has its share of what is held: none of the
    transactions and locks when it is at rest, and only the reference to its current directory.
    A call other than close that nothing comes between leaves the transactions as they were and
    gets the references that its process has more in descriptors and current directory. -/
theorem calls_balanced {ninodes : Nat} {s₀ : Shared T} (between : Between s₀) {es : List (Event T FsCall)}
    {c : Config T Op Ans (Shared T) (Hold × Know)}
    (run : Runs.Run (Step (callRules False) fun _ : T => FsCall.run ninodes) (atRest s₀) es c) :
    (∀ t o k, c.code t = .op o k → (o = .beginOp → (c.ledger t).1.ops = 0) ∧
      (o = .endOp → (c.ledger t).1.ops = 1)) ∧ c.state.outstanding = ∑ t, (c.ledger t).1.ops ∧
    (∀ ip, (c.state.entry ip).ref = (∑ t, ((c.ledger t).1.cell ip).refs + fileRefs c.state.ftable ip : Nat)) ∧
    (∀ t, c.code t = .ret () → (c.ledger t).1.ops = 0 ∧ (∀ ip, (c.state.entry ip).holder ≠ some t) ∧
      ∀ ip, ((c.ledger t).1.cell ip).refs = one (c.state.cwd t) ip) ∧
    ∀ t call n d, (∀ fd, call ≠ .close fd) → c.code t = .ret () →
      Runs.Run (Step (callRules False) fun _ : T => FsCall.run ninodes) c
        (.start t call :: List.replicate n (.step t)) d → d.code t = .ret () →
      d.state.outstanding = c.state.outstanding ∧ (∀ ip, (d.state.entry ip).holder ≠ some t) ∧
      ∀ ip, (d.state.entry ip).ref + own c.state t ip = (c.state.entry ip).ref + own d.state t ip := by
  have safe : Safe (callRules False) (fun s l => Base s fun t => (l t).1) (fun _ => Rest) c := by
    refine safe_run call_sound (fun t call l idle => call_rest False.elim call idle) ?_ run
    exact ⟨base_between between, fun t => rest_ledger s₀ t⟩
  refine ⟨?_, safe.inv.outstanding, fun ip => (safe.inv.cells ip).refs, ?_, ?_⟩
  · intro t o k next
    have allowed := (safe_allows safe next).1
    constructor
    · rintro rfl
      exact allowed.2
    rintro rfl
    exact allowed.2
  · intro t idle
    exact rest_holds safe.inv (safe_rest safe idle)
  intro t call n d keeps idle alone stop
  have rest := safe_rest safe idle
  have start : Calling c t ⟨c.state, update c.code t (call.run ninodes), c.ledger⟩ := by
    refine ⟨safe.inv, ?_, ?_, ?_, fun _ _ => rfl, fun _ => rfl⟩
    · simpa using call_rest False.elim call rest
    · simpa using opens_run keeps
    · obtain ⟨v, ⟨-, -, -, file⟩, hold, -⟩ := rest
      simp [hold, View.hold, file]
  exact calling_done safe.inv rest (alone_run (Calling c t) (fun _ _ => calling_step) start alone) stop

/-- In the same interleavings: once all calls have returned, the state is one between calls again. -/
theorem calls_end_between {ninodes : Nat} {s₀ : Shared T} (between : Between s₀) {es : List (Event T FsCall)}
    {c : Config T Op Ans (Shared T) (Hold × Know)}
    (run : Runs.Run (Step (callRules False) fun _ : T => FsCall.run ninodes) (atRest s₀) es c)
    (returned : ∀ t, c.code t = .ret ()) : Between c.state := by
  have safe : Safe (callRules False) (fun s l => Base s fun t => (l t).1) (fun _ => Rest) c := by
    refine safe_run call_sound (fun t call l idle => call_rest False.elim call idle) ?_ run
    exact ⟨base_between between, fun t => rest_ledger s₀ t⟩
  have base := safe.inv
  have holds := fun t => rest_holds base (safe_rest safe (returned t))
  have calm : ∀ t, (c.ledger t).1.file = none ∧ ∀ ip, ((c.ledger t).1.cell ip).put = none ∧
      ((c.ledger t).1.cell ip).dirty = false := by
    intro t
    obtain ⟨v, idle, hold, -⟩ := safe_rest safe (returned t)
    rw [hold]
    exact ⟨idle.file, fun _ => ⟨rfl, rfl⟩⟩
  have settled : ∀ ip, ¬ Wiping fun t => (c.ledger t).1.cell ip := by
    rintro ip ⟨t, wiping | wiping⟩
    · cases ((calm t).2 ip).1.symm.trans wiping
    · cases ((calm t).2 ip).1.symm.trans wiping
  constructor
  · exact base.unique
  · intro ip
    rw [(base.cells ip).refs]
    simp only [(holds _).2.2 ip]
  · exact fun ip => Option.eq_none_iff_forall_ne_some.mpr fun t => (holds t).2.1 ip
  · intro ip live valid
    have typed := ((base.cells ip).typed live valid).resolve_left (settled ip)
    have synced := ((base.cells ip).synced live valid).resolve_left (settled ip)
    exact ⟨typed.1, synced.resolve_right fun ⟨t, dirty⟩ => Bool.false_ne_true (((calm t).2 ip).2.symm.trans dirty)⟩
  · intro f
    have idle : inHand none f = 0 := if_neg (by simp)
    rw [base.files.count f]
    simp only [fileUses, (calm _).1, idle, Nat.add_zero]
  · exact base.files.closed
  · rw [base.outstanding]
    exact Finset.sum_eq_zero fun t _ => (holds t).1

end

def emptyRoot : Shared (Fin 2) where
  outstanding := 0
  entry := fun ip => ⟨⟨rootDev, rootIno⟩, if ip = 0 then 2 else 0, false, none, blankDinode 0⟩
  disk := fun i => if i = ⟨rootDev, rootIno⟩ then blankDinode tDir else blankDinode 0
  ents := fun i => if i = ⟨rootDev, rootIno⟩ then [⟨1, dot⟩, ⟨1, dotdot⟩] else []
  ftable := fun _ => ⟨.none, 0, false, false, 0, 0, 0⟩
  ofile := fun _ _ => none
  cwd := fun _ => 0

theorem between_emptyRoot : Between emptyRoot where
  unique := by
    intro ip jp first snd _
    simp only [emptyRoot] at first snd
    split at first <;> split at snd <;> simp_all
  refs := by
    intro ip
    have none : fileRefs emptyRoot.ftable ip = 0 := by
      simp [fileRefs, tally, Finset.sum_apply, emptyRoot, File.inode, oneOf_none]
    rw [none]
    by_cases same : ip = 0
    · simp [emptyRoot, one, same]
    · simp [emptyRoot, one, same]
  unlocked := fun _ => rfl
  synced := fun _ _ valid => by cases valid
  files := by simp [emptyRoot, fdsOf]
  closed := fun _ _ => rfl
  outstanding := rfl

def makeFile : List (Event (Fin 2) FsCall) :=
  .start 0 (.open (some [102]) (oCreate ||| oRdWr)) :: List.replicate 29 (.step 0)

def fileMade : Config (Fin 2) Op Ans (Shared (Fin 2)) (Hold × Know) :=
  Runs.after (stepNext (callRules False) next fun _ => FsCall.run 8) (atRest emptyRoot) makeFile

theorem calls_balanced_open : fileMade.code 0 = .ret () ∧ inFiles fileMade.state 0 1 = 1 ∧
    fileMade.state.outstanding = emptyRoot.outstanding ∧ (fileMade.state.entry 1).ref + own emptyRoot 0 1 =
      (emptyRoot.entry 1).ref + own fileMade.state 0 1 := by
  have run : Runs.Run (Step (callRules False) fun _ => FsCall.run 8) (atRest emptyRoot) makeFile fileMade :=
    Runs.run_after (stepNext_step next_exec _) (by decide +kernel)
  have done : fileMade.code 0 = .ret () := eq_ret (by decide +kernel)
  obtain ⟨-, -, -, -, alone⟩ := calls_balanced between_emptyRoot .nil
  obtain ⟨outstanding, -, refs⟩ := alone 0 _ 29 _ (by simp) rfl run done
  exact ⟨done, by decide +kernel, outstanding, refs 1⟩

theorem calls_end_between_open : inFiles fileMade.state 0 1 = 1 ∧ Between fileMade.state := by
  have run : Runs.Run (Step (callRules False) fun _ => FsCall.run 8) (atRest emptyRoot) makeFile fileMade :=
    Runs.run_after (stepNext_step next_exec _) (by decide +kernel)
  exact ⟨by decide +kernel, calls_end_between between_emptyRoot run fun t => eq_ret (by revert t; decide +kernel)⟩

end Xv6Conc
