import Xv6.CallSpecs

/- Every call of the file system ends as it began: outside of transactions, without locks, and
   with no reference but the one to the current directory. -/
namespace Xv6Conc
open Xv6 Xv6Fs Threads Prog Finset

/-- Between the parts of a call, in as many transactions. -/
structure View.Idle (v : View) (ops : Nat) : Prop where
  ops : v.ops = ops
  refs : v.refs = {v.cwd}
  locks : v.locks = ∅
  file : v.file = none

def Rest (l : Hold × Know) : Prop := ∃ v : View, v.Idle 0 ∧ l.1 = v.hold ∧ l.2.fresh = none

namespace View
variable {v : View}

def setKnown (v : View) (fd : Fin nofile) (ip : Option Ip) : View :=
  { v with files := Function.update v.files fd ip }

theorem Idle.home (idle : v.Idle 1) : v.cwd ∈ v.refs := by simp [idle.refs]

theorem Idle.unlocked (idle : v.Idle 1) (ip : Ip) : ip ∉ v.locks := by simp [idle.locks]

end View

section
variable {T : Type} [DecidableEq T] {strict : Prop} {t : T} {v : View} {k : Know} {ip : Ip}
variable {l : Hold × Know} {post : Unit → Hold × Know → Prop} {path : Option (List UInt8)} {ninodes : Nat}
  {dp : Ip} {omode : UInt32} {f : Fin nFile} {dn : Dinode} {fd : Fin nofile}

theorem wp_transaction {A : Type} {rest : P A} {post : A → Hold × Know → Prop}
    (idle : Rest l) (next : ∀ v : View, v.Idle 1 → ∀ k, k.fresh = none → callWp strict t rest (v.hold, k) post) :
    callWp strict t (do act .beginOp; rest) l post := by
  obtain ⟨⟨h, k⟩, v, ⟨ops, refs, locks, file⟩, rfl, stale⟩ := l, idle
  exact wp_bind.mpr (wp_beginOp ops (next (v.setOps 1) ⟨rfl, refs, locks, file⟩ k stale))

theorem rest_end (idle : v.Idle 1) (stale : k.fresh = none) : Rest ((v.setOps 0).hold, k) :=
  ⟨v.setOps 0, ⟨rfl, idle.refs, idle.locks, idle.file⟩, rfl, stale⟩

theorem wp_end {r : Int} (idle : v.Idle 1) (stale : k.fresh = none) :
    callWp strict t (endWith r) (v.hold, k) fun _ => Rest :=
  wp_endWith idle.ops (rest_end idle stale)

theorem wp_ilock_first (unlocked : v.locks = ∅) (has : v.Has ip) (stale : k.fresh = none)
    (next : post () ((v.lock ip).hold, k)) : callWp strict t (ilock ip) (v.hold, k) post := by
  refine wp_ilock has ?_ fun _ => ?_
  · intro _ dp locked
    simp [unlocked] at locked
  · rwa [Know.load_stale stale]

theorem wp_ilock_got (idle : v.Idle 1) (stale : k.fresh = none) (next : post () (((v.addRef ip).lock ip).hold, k)) :
    callWp strict t (ilock ip) ((v.addRef ip).hold, k) post :=
  wp_ilock_first idle.locks (.inl (Multiset.mem_cons_self ip v.refs)) stale next

theorem wp_putEnd {r : Int} (idle : v.Idle 1) (stale : k.fresh = none) : callWp strict t (do iunlockput ip; endWith r)
      (((v.addRef ip).lock ip).hold, k) fun _ => Rest :=
  wp_bind.mpr (wp_iunlockput (idle.unlocked ip) (wp_end idle stale))

theorem wp_sysMkdir (small : strict → ninodes ≤ 0x10000) (idle : Rest l) :
    callWp strict t (sysMkdir ninodes path) l fun _ => Rest := by
  refine wp_transaction idle fun v idle k stale => ?_
  cases path with
  | none => exact wp_end idle stale
  | some path =>
    refine wp_bind.mpr (wp_create (by decide) small idle.locks idle.home stale ?_ ?_)
    · exact fun k stale => wp_end idle stale
    · exact fun ip k stale _ => wp_putEnd idle stale

theorem wp_sysMknod {major minor : Int32} (small : strict → ninodes ≤ 0x10000) (idle : Rest l) :
    callWp strict t (sysMknod ninodes path major minor) l fun _ => Rest := by
  refine wp_transaction idle fun v idle k stale => ?_
  cases path with
  | none => exact wp_end idle stale
  | some path =>
    refine wp_bind.mpr (wp_create (by decide) small idle.locks idle.home stale ?_ ?_)
    · exact fun k stale => wp_end idle stale
    · exact fun ip k stale _ => wp_putEnd idle stale

/- sys_link. -/

theorem wp_linkBad (idle : v.Idle 1) (stale : k.fresh = none) :
    callWp strict t (linkBad ip) ((v.addRef ip).hold, k) fun _ => Rest := by
  refine wp_bind.mpr (wp_ilock_got idle stale ?_)
  exact wp_update (mem_insert_self ip v.locks) (wp_putEnd idle stale)

theorem wp_linkNew {new : List UInt8} (idle : v.Idle 1) (stale : k.fresh = none) (leaf : k.kind ip = .leaf) :
    callWp strict t (linkNew ip new) ((v.addRef ip).hold, k) fun _ => Rest := by
  have unlocked : (v.addRef ip).locks = ∅ := idle.locks
  have home : v.cwd ∈ (v.addRef ip).refs := Multiset.mem_cons_of_mem idle.home
  refine wp_bind.mpr (wp_namex unlocked home stale (fun k stale => wp_linkBad idle stale) ?_)
  intro dp name k' stale' leaves dir
  refine wp_bind.mpr (wp_ilock_first unlocked (.inl (Multiset.mem_cons_self dp _)) stale' ?_)
  have owns : (((v.addRef ip).addRef dp).lock dp).Owns := by
    intro jp locked
    have same : jp = dp := by simpa [View.lock, View.addRef, idle.locks] using locked
    subst jp
    exact .inl (Multiset.mem_cons_self dp _)
  have free : dp ∉ (v.addRef ip).locks := idle.unlocked dp
  have has : (((v.addRef ip).addRef dp).lock dp).Has ip :=
    .inl (Multiset.mem_cons_of_mem (Multiset.mem_cons_self ip _))
  refine wp_bind.mpr (wp_ident (owns dp (mem_insert_self dp _)) fun d _ => ?_)
  refine wp_bind.mpr (wp_ident has fun i here => ?_)
  split
  · exact wp_bind.mpr (wp_iunlockput free (wp_linkBad idle stale'))
  rename_i device
  rw [not_not] at device
  refine wp_bind.mpr (wp_dirlink (mem_insert_self dp _) owns ?_ ?_ ?_)
  · intro ranked
    -- a leaf is not the directory that gets the name
    have known : k'.kind ip = .leaf := leaves ranked ip leaf
    have other : ip ≠ dp := by
      rintro rfl
      rw [dir rfl] at known
      cases known
    refine .inr ⟨(here ranked).1, d, ?_, .inr ⟨ip, ?_, ?_⟩⟩
    · simp [Know.setIno, Know.setKind, other.symm]
    · simp [Know.setIno, Know.setKind, device]
    · simpa [Know.setIno, Know.setKind, other] using known
  · intro k bad
    exact wp_bind.mpr (wp_iunlockput free (wp_linkBad idle (bad.trans stale')))
  refine wp_bind.mpr (wp_iunlockput free ?_)
  refine wp_bind.mpr (wp_iput (fun locked => absurd locked (idle.unlocked ip)) ?_)
  exact wp_end idle stale'

theorem wp_sysLink {old new : Option (List UInt8)} (idle : Rest l) :
    callWp strict t (sysLink old new) l fun _ => Rest := by
  cases old with
  | none => exact wp_pure idle
  | some old => cases new with
    | none => exact wp_pure idle
    | some new =>
      refine wp_transaction idle fun v idle k stale => ?_
      refine wp_bind.mpr (wp_namei idle.locks idle.home stale ?_ ?_)
      · exact fun k stale => wp_end idle stale
      intro ip k stale
      have mine : (v.addRef ip).Has ip := .inl (Multiset.mem_cons_self ip v.refs)
      have locked : ip ∈ ((v.addRef ip).lock ip).locks := mem_insert_self ip v.locks
      refine wp_bind.mpr (wp_ilock_first idle.locks mine stale ?_)
      refine wp_bind.mpr (wp_fields locked fun dn _ => ?_)
      split
      · exact wp_putEnd idle stale
      rename_i plain
      refine wp_update locked (wp_bind.mpr (wp_unlock (idle.unlocked ip) ?_))
      refine wp_linkNew idle stale ?_
      simp [Know.unsee, Know.setSeen, Know.setKind, kindOf, plain]

/- sys_unlink. -/

theorem wp_clear {n : Nat} (locked : dp ∈ v.locks) (next : post () (v.hold, k)) :
    callWp strict t (act (.clear dp n)) (v.hold, k) post := by
  refine wp_perform ⟨⟨View.calm_hold, ?_⟩, fun _ => trivial⟩ fun _ _ => ?_
  · simp [View.hold, locked]
  rw [← View.hold_clean v dp] at next
  exact next

theorem wp_unlinkKeeps {post : Bool → Hold × Know → Prop} (locked : ip ∈ v.locks)
    (next : ∀ keep k', k'.fresh = k.fresh → post keep (v.hold, k')) :
    callWp strict t (unlinkKeeps ip) (v.hold, k) post := by
  refine wp_bind.mpr (wp_fields locked fun dn _ => ?_)
  split
  · refine wp_op ⟨⟨View.calm_hold, ?_⟩, fun _ => trivial⟩ fun empty _ => wp_pure (next _ _ rfl)
    simp [View.hold, locked]
  · exact wp_pure (next false _ rfl)

theorem wp_unlinkParent (parent : dp ∈ v.locks)
    (locked : ip ∈ v.locks) (next : ∀ k', k'.fresh = k.fresh → post () (v.hold, k')) :
    callWp strict t (unlinkParent dp ip) (v.hold, k) post := by
  refine wp_bind.mpr (wp_fields locked fun dn _ => ?_)
  split
  · have done : callWp strict t (pure () : P Unit)
        (v.hold, k.setKind ip (kindOf dn.type)) post := wp_pure (next _ rfl)
    exact wp_update parent done
  · exact wp_pure (next _ rfl)

theorem wp_unlinkEntry {n : Nat} (idle : v.Idle 1) (stale : k.fresh = none) (other : dp ≠ ip) :
    callWp strict t (unlinkEntry dp ip n) (((((v.addRef dp).lock dp).addRef ip).lock ip).hold, k) fun _ => Rest := by
  have parent : dp ∈ ((((v.addRef ip).lock ip).addRef dp).lock dp).locks := mem_insert_self dp _
  have child : ip ∈ ((v.addRef ip).lock ip).locks := mem_insert_self ip _
  have free : dp ∉ ((v.addRef ip).lock ip).locks := by
    simp [View.lock, View.addRef, idle.locks, other]
  rw [View.lock_comm]
  refine wp_bind.mpr (wp_clear parent ?_)
  refine wp_bind.mpr (wp_unlinkParent parent (mem_insert_of_mem child) fun k' same => ?_)
  refine wp_bind.mpr (wp_iunlockput free ?_)
  exact wp_update child (wp_putEnd idle (same.trans stale))

theorem wp_unlinkBad (idle : v.Idle 1) (stale : k.fresh = none) :
    callWp strict t (unlinkBad dp) (((v.addRef dp).lock dp).hold, k) fun _ => Rest :=
  wp_putEnd idle stale

theorem wp_unlinkFound {n : Nat} (idle : v.Idle 1) (stale : k.fresh = none)
    (order : ∃ i, k.ino ip = some i ∧ k.seen dp i) : callWp strict t (unlinkFound dp ip n)
      ((((v.addRef dp).lock dp).addRef ip).hold, k) fun _ => Rest := by
  refine wp_bind.mpr (wp_ilock (.inl (Multiset.mem_cons_self ip _)) ?_ fun fresh => ?_)
  · intro _ jp locked
    have same : jp = dp := by simpa [View.lock, View.addRef, idle.locks] using locked
    subst jp
    exact order
  have other : dp ≠ ip := by
    rintro rfl
    simp [View.lock, View.addRef] at fresh
  have child : ip ∈ ((((v.addRef dp).lock dp).addRef ip).lock ip).locks := mem_insert_self ip _
  rw [Know.load_stale stale]
  refine wp_bind.mpr (wp_fields child fun dn _ => ?_)
  split
  · exact wp_panic
  refine wp_bind.mpr (wp_unlinkKeeps child fun keep k' same => ?_)
  split
  · exact wp_bind.mpr (wp_iunlockput fresh (wp_unlinkBad idle (same.trans stale)))
  · exact wp_unlinkEntry idle (same.trans stale) other

theorem wp_sysUnlink (idle : Rest l) : callWp strict t (sysUnlink path) l fun _ => Rest := by
  cases path with
  | none => exact wp_pure idle
  | some path =>
    refine wp_transaction idle fun v idle k stale => ?_
    refine wp_bind.mpr (wp_namex idle.locks idle.home stale (fun k stale => wp_end idle stale) ?_)
    intro dp name k stale _ _
    refine wp_bind.mpr (wp_ilock_got idle stale ?_)
    split
    · exact wp_unlinkBad idle stale
    rename_i plain
    refine wp_bind.mpr (wp_dirlookup (mem_insert_self dp _) (wp_unlinkBad idle stale) ?_)
    intro i ip n
    refine wp_unlinkFound idle stale ⟨i, ?_, .inr ⟨plain, rfl, rfl⟩⟩
    simp [Know.found, Know.setIno]

/- sys_open. -/

theorem wp_openInode {path : List UInt8} {post : Option Ip → Hold × Know → Prop} (small : strict → ninodes ≤ 0x10000)
    (idle : v.Idle 1) (stale : k.fresh = none) (fails : ∀ k, k.fresh = none → post none (v.hold, k))
    (done : ∀ ip k', k'.fresh = none → (omode ≠ 0 → k'.kind ip = .leaf) →
      post (some ip) (((v.addRef ip).lock ip).hold, k')) :
    callWp strict t (openInode ninodes path omode) (v.hold, k) post := by
  unfold openInode
  split
  · apply wp_create (by decide) small idle.locks idle.home stale fails
    exact fun ip k' stale leaf => done ip k' stale fun _ => leaf (by decide)
  refine wp_bind.mpr (wp_namei idle.locks idle.home stale ?_ ?_)
  · exact fun k stale => wp_pure (fails k stale)
  intro ip k stale
  refine wp_bind.mpr (wp_ilock_got idle stale ?_)
  refine wp_bind.mpr (wp_fields (mem_insert_self ip _) fun dn _ => ?_)
  split
  · exact wp_bind.mpr (wp_iunlockput (idle.unlocked ip) (wp_pure (fails _ stale)))
  rename_i plain
  refine wp_pure (done ip _ stale fun mode => ?_)
  have leaf : dn.type ≠ tDir := fun dir => plain ⟨dir, mode⟩
  simp [Know.setKind, kindOf, leaf]

theorem writable_mode {ip : Ip} (writable : (newFile ip dn omode).writable = true) : omode ≠ 0 := by
  rintro rfl
  simp [newFile, openFile] at writable

theorem wp_filealloc {post : Option (Fin nFile) → Hold × Know → Prop} (free : v.file = none)
    (full : post none (v.hold, k)) (next : ∀ f, post (some f) ((v.setFile (some (f, .alloc))).hold, k)) :
    callWp strict t (act .filealloc) (v.hold, k) post := by
  refine wp_perform ⟨⟨View.calm_hold, free⟩, fun _ => trivial⟩ fun found _ => ?_
  cases found with
  | none =>
    obtain ⟨ops, refs, locks, file, files, cwd⟩ := v
    subst free
    exact full
  | some f => exact next f

theorem wp_fdalloc {post : Option (Fin nofile) → Hold × Know → Prop}
    (alloc : v.file = some (f, .alloc)) (full : post none (v.hold, k))
    (next : ∀ fd, post (some fd) ((v.setFile (some (f, .opening fd))).hold, k)) :
    callWp strict t (act (.fdalloc f)) (v.hold, k) post := by
  refine wp_perform ⟨⟨View.calm_hold, alloc⟩, fun _ => trivial⟩ fun found _ => ?_
  cases found with
  | none => exact full
  | some fd => exact next fd

theorem wp_setFile (file : File) (kind : file.type = .inode ∨ file.type = .device)
    (leaf : strict → file.writable = true → k.kind file.ip = .leaf)
    (next : post () (((v.setFile none).setKnown fd (some file.ip)).hold, k)) : callWp strict t (act (.setFile f file))
      (((v.addRef file.ip).setFile (some (f, .opening fd))).hold, k) post := by
  have mine : 0 < (((v.addRef file.ip).setFile (some (f, .opening fd))).hold.cell file.ip).refs := by
    simp [View.hold, View.addRef, View.setFile]
  refine wp_perform ⟨⟨View.calm_hold, ⟨fd, rfl⟩, kind, mine⟩, leaf⟩ fun _ _ => ?_
  have same : book ((v.addRef file.ip).setFile (some (f, .opening fd))).hold (.setFile f file) () =
      ((v.setFile none).setKnown fd (some file.ip)).hold := by
    have dropped := View.hold_dropRef (v.setFile (some (f, .opening fd))) file.ip
    change ((((v.setFile (some (f, .opening fd))).addRef file.ip).hold.dropRef file.ip).setFile
      none).setKnown fd (some file.ip) = _
    rw [dropped]
    rfl
  rw [← same] at next
  exact next

theorem wp_trunc (locked : ip ∈ v.locks) (next : post () (v.hold, k)) :
    callWp strict t (act (.trunc ip)) (v.hold, k) post := by
  refine wp_perform ⟨⟨?_, .inl rfl⟩, fun _ => trivial⟩ fun _ _ => ?_
  · simp [View.hold, locked]
  rw [← View.hold_clean v ip] at next
  exact next

theorem newFile_type (ip : Ip) (dn : Dinode) (omode : UInt32) :
    (newFile ip dn omode).type = .inode ∨ (newFile ip dn omode).type = .device := by
  simp only [newFile, openFile]
  split
  · exact .inr rfl
  · exact .inl rfl

theorem wp_openDone (idle : v.Idle 1) (stale : k.fresh = none)
    (leaf : strict → omode ≠ 0 → k.kind ip = .leaf) : callWp strict t (openDone f fd ip dn omode)
      ((((v.addRef ip).lock ip).setFile (some (f, .opening fd))).hold, k) fun _ => Rest := by
  have idle' : ((v.setFile none).setKnown fd (some ip)).Idle 1 := ⟨idle.ops, idle.refs, idle.locks, rfl⟩
  refine wp_bind.mpr (wp_setFile (v := v.lock ip) (newFile ip dn omode)
    (newFile_type ip dn omode) (fun ranked writable => leaf ranked (writable_mode writable)) ?_)
  have unlock : ∀ r, callWp strict t (do act (.unlock ip); endWith r)
      ((((v.setFile none).setKnown fd (some ip)).lock ip).hold, k) fun _ => Rest := fun r =>
    wp_bind.mpr (wp_unlock (idle'.unlocked ip) (wp_end idle' stale))
  split
  · exact wp_bind.mpr (wp_trunc (mem_insert_self ip _) (unlock _))
  · exact unlock _

theorem wp_openFd (idle : v.Idle 1) (stale : k.fresh = none) (leaf : strict → omode ≠ 0 → k.kind ip = .leaf) :
    callWp strict t (openFd ip dn omode) (((v.addRef ip).lock ip).hold, k) fun _ => Rest := by
  refine wp_bind.mpr (wp_filealloc idle.file (wp_putEnd idle stale) fun f => ?_)
  refine wp_bind.mpr (wp_fdalloc rfl ?_ fun fd => wp_openDone idle stale leaf)
  refine wp_op ⟨⟨View.calm_hold, .inl rfl⟩, fun _ => trivial⟩ fun last fits => ?_
  have shut : last.bind File.inode = none := by
    cases last with
    | none => rfl
    | some file => exact fits.1 rfl file rfl
  have free : ((v.addRef ip).lock ip).file = none := idle.file
  have same : book (((v.addRef ip).lock ip).setFile (some (f, .alloc))).hold (.fileclose f) last =
      ((v.addRef ip).lock ip).hold := by
    simp only [book, shut]
    exact congrArg View.hold (View.setFile_back free _)
  change wp _ t (openBad ip) (book _ (.fileclose f) last, k) _
  rw [same]
  exact wp_putEnd idle stale

theorem wp_sysOpen (small : strict → ninodes ≤ 0x10000) (idle : Rest l) :
    callWp strict t (sysOpen ninodes path omode) l fun _ => Rest := by
  cases path with
  | none => exact wp_pure idle
  | some path =>
    refine wp_transaction idle fun v idle k stale => ?_
    refine wp_bind.mpr (wp_openInode small idle stale (fun k stale => wp_end idle stale) ?_)
    intro ip k stale leaf
    refine wp_bind.mpr (wp_fields (mem_insert_self ip _) fun dn fits => ?_)
    split
    · exact wp_putEnd idle stale
    refine wp_openFd idle stale fun ranked mode => ?_
    have plain := fits ranked
    rw [leaf mode] at plain
    simp [Know.setKind, kindOf, plain.1]

theorem wp_sysChdir (idle : Rest l) : callWp strict t (sysChdir path) l fun _ => Rest := by
  refine wp_transaction idle fun v idle k stale => ?_
  cases path with
  | none => exact wp_end idle stale
  | some path =>
    refine wp_bind.mpr (wp_namei idle.locks idle.home stale (fun k stale => wp_end idle stale) ?_)
    intro ip k stale
    refine wp_bind.mpr (wp_ilock_got idle stale ?_)
    refine wp_bind.mpr (wp_fields (mem_insert_self ip _) fun dn _ => ?_)
    split
    · exact wp_putEnd idle stale
    refine wp_bind.mpr (wp_unlock (idle.unlocked ip) ?_)
    refine wp_op ⟨trivial, fun _ => trivial⟩ fun cwd fits => ?_
    have same : cwd = v.cwd := fits.1
    subst same
    -- the reference to the old directory is given back, that to the new one stays
    have swap : v.addRef ip = View.addRef ⟨v.ops, {ip}, v.locks, v.file, v.files, v.cwd⟩ v.cwd := by
      simp only [View.addRef, idle.refs, View.mk.injEq, true_and, and_true]
      exact Multiset.cons_swap ip v.cwd 0
    change wp _ t _ ((v.addRef ip).hold, _) _
    rw [swap]
    refine wp_bind.mpr (wp_iput (fun locked => absurd locked (idle.unlocked v.cwd)) ?_)
    refine wp_bind.mpr (wp_endOp idle.ops ?_)
    refine wp_op ⟨trivial, fun _ => trivial⟩ fun _ _ => wp_pure ?_
    exact ⟨⟨0, {ip}, v.locks, v.file, v.files, ip⟩, ⟨rfl, rfl, idle.locks, idle.file⟩, rfl, stale⟩

theorem wp_sysExec (idle : Rest l) : callWp strict t (sysExec path) l fun _ => Rest := by
  cases path with
  | none => exact wp_pure idle
  | some path =>
    refine wp_transaction idle fun v idle k stale => ?_
    refine wp_bind.mpr (wp_namei idle.locks idle.home stale (fun k stale => wp_end idle stale) ?_)
    intro ip k stale
    refine wp_bind.mpr (wp_ilock_got idle stale ?_)
    refine wp_op ⟨trivial, fun _ => trivial⟩ fun bad _ => ?_
    split
    · exact wp_putEnd idle stale
    refine wp_bind.mpr (wp_iunlockput (idle.unlocked ip) (wp_bind.mpr (wp_endOp idle.ops ?_)))
    refine wp_op ⟨trivial, fun _ => trivial⟩ fun bad _ => ?_
    split
    · exact wp_pure (rest_end idle stale)
    · exact wp_pure (rest_end idle stale)

/- kernel/file.c. -/

theorem wp_ask {what : String} {post : Int → Hold × Know → Prop}
    (next : ∀ n, post n l) : callWp strict t (ask what) l post :=
  wp_perform ⟨trivial, fun _ => trivial⟩ fun n _ => next n

theorem wp_fileclose (idle : v.Idle 0) (stale : k.fresh = none) :
    callWp strict t (fileclose f) ((v.setFile (some (f, .closing))).hold, k) fun _ => Rest := by
  refine wp_op ⟨⟨View.calm_hold, .inr rfl⟩, fun _ => trivial⟩ fun last _ => ?_
  have back := View.setFile_back idle.file (some (f, .closing))
  change wp _ t _ (book (v.setFile (some (f, .closing))).hold (.fileclose f) last, k) _
  cases inode : (last : Option File).bind File.inode with
  | none =>
    have same : book (v.setFile (some (f, .closing))).hold (.fileclose f) last = v.hold := by
      simp only [book, inode]
      exact congrArg View.hold back
    rw [same]
    exact wp_pure ⟨v, idle, rfl, stale⟩
  | some ip =>
    have same : book (v.setFile (some (f, .closing))).hold (.fileclose f) last = (v.addRef ip).hold := by
      simp only [book, inode]
      rw [← View.hold_addRef]
      exact congrArg (fun u : View => u.hold.addRef ip) back
    have idle' : (v.setOps 1).Idle 1 := ⟨rfl, idle.refs, idle.locks, idle.file⟩
    rw [same]
    refine wp_bind.mpr (wp_beginOp idle.ops ?_)
    refine wp_bind.mpr (wp_iput (fun locked => absurd locked (idle'.unlocked ip)) ?_)
    exact wp_endOp rfl (rest_end idle' stale)

theorem wp_sysClose {fd : Option (Fin nofile)} (idle : Rest l) : callWp strict t (sysClose fd) l fun _ => Rest := by
  cases fd with
  | none => exact wp_pure idle
  | some fd =>
    obtain ⟨⟨h, k⟩, v, idle, rfl, stale⟩ := l, idle
    have unlocked : ∀ ip, (v.hold.cell ip).held = .no := by simp [View.hold, idle.locks]
    have idle' : (v.setKnown fd none).Idle 0 := ⟨idle.ops, idle.refs, idle.locks, idle.file⟩
    refine wp_op ⟨⟨View.calm_hold, idle.file, unlocked⟩, fun _ => trivial⟩ fun f _ => ?_
    cases f with
    | none =>
      refine wp_pure ⟨(v.setKnown fd none).setFile none, ?_, rfl, stale⟩
      exact ⟨idle.ops, idle.refs, idle.locks, rfl⟩
    | some f => exact wp_bind.mpr (wp_mono (wp_fileclose idle' stale) fun _ _ rest => wp_pure rest)

theorem wp_getFile {post : Option File → Hold × Know → Prop} (idle : v.Idle 0)
    (stale : k.fresh = none) (bad : post none (v.hold, k))
    (next : ∀ (file : File) (v : View) (k : Know), v.Idle 0 → k.fresh = none →
      (file.type = .inode → v.Has file.ip ∧ (file.writable = true → k.kind file.ip = .leaf)) →
      post (some file) (v.hold, k)) : callWp strict t (act (.getFile fd)) (v.hold, k) post := by
  refine wp_perform ⟨View.calm_hold, fun _ => trivial⟩ fun answer fits => ?_
  cases answer with
  | none => exact bad
  | some file =>
    have learned : k.book v.hold (.getFile fd) (some file) =
        if file.type = .inode ∧ file.writable = true then k.setKind file.ip .leaf else k := rfl
    have stale' : (k.book v.hold (.getFile fd) (some file)).fresh = none := by
      rw [learned]
      split
      · exact stale
      · exact stale
    have leaf : file.type = .inode → file.writable = true →
        (k.book v.hold (.getFile fd) (some file)).kind file.ip = .leaf := by
      intro inode writable
      simp [learned, inode, writable, Know.setKind]
    change post (some file) (book v.hold (.getFile fd) (some file), k.book v.hold (.getFile fd) (some file))
    cases inode : file.inode with
    | none =>
      have same : book v.hold (.getFile fd) (some file) = v.hold := by simp [book, inode]
      rw [same]
      refine next file v _ idle stale' fun type => ?_
      have unused : file.ref ≤ 0 := by
        by_contra used
        simp [File.inode, type, not_le.mp used] at inode
      have none := fits.1 file rfl unused
      rw [type] at none
      cases none
    | some ip =>
      have same : book v.hold (.getFile fd) (some file) = (v.setKnown fd (some ip)).hold := by
        simp only [book, Option.bind_some, inode]
        rfl
      rw [same]
      refine next file _ _ ⟨idle.ops, idle.refs, idle.locks, idle.file⟩ stale' fun type => ⟨?_, leaf type⟩
      have here : ip = file.ip := by
        simp only [File.inode] at inode
        split at inode
        · exact (Option.some.inj inode).symm
        · cases inode
      subst here
      exact .inr ⟨fd, by simp [View.setKnown]⟩

theorem wp_fileread {file : File} (idle : v.Idle 0) (stale : k.fresh = none)
    (has : file.type = .inode → v.Has file.ip) : callWp strict t (fileread file) (v.hold, k) fun _ => Rest := by
  have done : Rest (v.hold, k) := ⟨v, idle, rfl, stale⟩
  have free : file.ip ∉ v.locks := by simp [idle.locks]
  unfold fileread
  split
  · exact wp_pure done
  cases type : file.type with
  | inode =>
    refine wp_bind.mpr (wp_ilock_first idle.locks (has type) stale ?_)
    exact wp_bind.mpr (wp_unlock free (wp_ask fun _ => ⟨v, idle, rfl, stale⟩))
  | pipe | device => exact wp_ask fun _ => done
  | none => exact wp_panic

theorem wp_write {es : List Dirent} (locked : ip ∈ v.locks) (leaf : strict → k.kind ip = .leaf)
    (next : post () (v.hold, k)) : callWp strict t (act (.write ip es)) (v.hold, k) post := by
  refine wp_perform ⟨⟨View.calm_hold, ?_⟩, leaf⟩ fun _ _ => ?_
  · simp [View.hold, locked]
  rw [← View.hold_clean v ip] at next
  exact next

theorem wp_filewriteFrom {data : List (List Dirent)} (idle : v.Idle 0) (stale : k.fresh = none)
    (has : v.Has ip) (leaf : k.kind ip = .leaf) :
    callWp strict t (filewriteFrom ip data) (v.hold, k) fun _ => Rest := by
  have free : ip ∉ v.locks := by simp [idle.locks]
  induction data generalizing k with
  | nil => exact wp_pure ⟨v, idle, rfl, stale⟩
  | cons es data ih =>
    refine wp_bind.mpr (wp_beginOp idle.ops ?_)
    refine wp_bind.mpr (wp_ilock_first idle.locks has stale ?_)
    refine wp_bind.mpr (wp_write (mem_insert_self ip _) (fun _ => leaf) ?_)
    refine wp_bind.mpr (wp_unlock free (wp_bind.mpr (wp_endOp rfl ?_)))
    rw [View.setOps_back idle.ops]
    refine wp_bind.mpr (wp_ask fun short => ?_)
    split
    · exact wp_pure ⟨v, idle, rfl, stale⟩
    · exact ih stale leaf

theorem wp_filewrite {file : File} {data : List (List Dirent)} (idle : v.Idle 0) (stale : k.fresh = none)
    (has : file.type = .inode → v.Has file.ip ∧ (file.writable = true → k.kind file.ip = .leaf)) :
    callWp strict t (filewrite file data) (v.hold, k) fun _ => Rest := by
  have done : Rest (v.hold, k) := ⟨v, idle, rfl, stale⟩
  unfold filewrite
  split
  · exact wp_pure done
  rename_i writable
  cases type : file.type with
  | inode =>
    obtain ⟨has, leaf⟩ := has type
    exact wp_filewriteFrom idle stale has (leaf (by simpa using writable))
  | pipe | device => exact wp_ask fun _ => done
  | none => exact wp_panic

theorem wp_onFile {fd : Option (Fin nofile)} {f : File → P Int} (idle : Rest l)
    (next : ∀ (file : File) (v : View) (k : Know), v.Idle 0 → k.fresh = none →
      (file.type = .inode → v.Has file.ip ∧ (file.writable = true → k.kind file.ip = .leaf)) →
      callWp strict t (f file) (v.hold, k) fun _ => Rest) : callWp strict t (onFile fd f) l fun _ => Rest := by
  cases fd with
  | none => exact wp_pure idle
  | some fd =>
    obtain ⟨⟨h, k⟩, v, idle, rfl, stale⟩ := l, idle
    exact wp_bind.mpr (wp_getFile idle stale (wp_pure ⟨v, idle, rfl, stale⟩) next)

/-- Every call takes a process at rest to rest, under both rules. -/
theorem call_rest (small : strict → ninodes ≤ 0x10000) (call : FsCall)
    (idle : Rest l) : callWp strict t (call.run ninodes) l fun _ => Rest := by
  have code : callWp strict t (call.code ninodes) l fun _ => Rest := by
    cases call with
    | «open» path omode => exact wp_sysOpen small idle
    | mkdir path => exact wp_sysMkdir small idle
    | mknod path major minor => exact wp_sysMknod small idle
    | link old new => exact wp_sysLink idle
    | unlink path => exact wp_sysUnlink idle
    | chdir path => exact wp_sysChdir idle
    | exec path => exact wp_sysExec idle
    | read fd =>
      exact wp_onFile idle fun file v k idle stale has => wp_fileread idle stale fun type => (has type).1
    | write fd data =>
      exact wp_onFile idle fun file v k idle stale has => wp_filewrite idle stale has
    | close fd => exact wp_sysClose idle
  exact wp_seq code fun _ _ rest => wp_pure rest

end

end Xv6Conc
