import Mathlib.Data.Multiset.AddSub
import Xv6.FsCalls
import Xv6.LockOrder

/- The calls of the file system, checked against the ledger of one process. A view is the
   ledger of a process between the parts of a call: its references, and the locks it has. -/
namespace Xv6Conc
open Xv6 Xv6Fs Threads Prog Function

abbrev callWp {T A : Type} [DecidableEq T] (strict : Prop) (t : T) (code : Prog Op Ans A)
    (l : Hold × Know) (post : A → Hold × Know → Prop) : Prop :=
  wp (callRules strict) t code l post

structure View where
  ops : Nat
  refs : Multiset Ip
  locks : Finset Ip
  file : Option (Fin nFile × FileUse)
  files : Fin nofile → Option Ip
  cwd : Ip

namespace View

def hold (v : View) : Hold where
  ops := v.ops
  cell := fun ip => ⟨v.refs.count ip, if ip ∈ v.locks then .loaded else .no, false, none⟩
  file := v.file
  files := v.files
  cwd := v.cwd

def addRef (v : View) (ip : Ip) : View := { v with refs := ip ::ₘ v.refs }
def lock (v : View) (ip : Ip) : View := { v with locks := insert ip v.locks }
def setOps (v : View) (ops : Nat) : View := { v with ops := ops }
def setFile (v : View) (file : Option (Fin nFile × FileUse)) : View := { v with file := file }

def Has (v : View) (ip : Ip) : Prop := ip ∈ v.refs ∨ ∃ fd, v.files fd = some ip

def Owns (v : View) : Prop := ∀ ip ∈ v.locks, v.Has ip

variable {v : View} {ip : Ip}

theorem addRef_comm (jp : Ip) : (v.addRef ip).addRef jp = (v.addRef jp).addRef ip := by
  simp [addRef, Multiset.cons_swap]

theorem lock_comm (jp : Ip) : (((v.addRef ip).lock ip).addRef jp).lock jp =
    (((v.addRef jp).lock jp).addRef ip).lock ip := by
  simp [addRef, lock, Multiset.cons_swap, Finset.insert_comm]

theorem lock_addRef (jp : Ip) : (v.lock ip).addRef jp = (v.addRef jp).lock ip := rfl

theorem setOps_back (outside : v.ops = 0) : (v.setOps 1).setOps 0 = v := by
  obtain ⟨ops, refs, locks, file, files, cwd⟩ := v
  subst outside
  rfl

theorem setFile_back (free : v.file = none) (file : Option (Fin nFile × FileUse)) :
    (v.setFile file).setFile none = v := by
  obtain ⟨ops, refs, locks, old, files, cwd⟩ := v
  subst free
  rfl

theorem calm_hold : v.hold.Calm := fun _ => rfl

theorem has_hold : v.hold.Has ip ↔ v.Has ip := by
  simp [Hold.Has, Hold.Via, Has, hold, Multiset.count_pos]

theorem hold_addRef : v.hold.addRef ip = (v.addRef ip).hold := by
  simp only [Hold.addRef, Hold.setCell, hold, addRef, Hold.mk.injEq, true_and, and_true]
  funext jp
  by_cases same : jp = ip
  · subst jp
    simp [Cell.setRefs]
    rfl
  simp [same]
  rfl

theorem hold_dropRef (v : View) (ip : Ip) : (v.addRef ip).hold.dropRef ip = v.hold := by
  simp only [Hold.dropRef, Hold.setCell, hold, addRef, Hold.mk.injEq, true_and, and_true]
  funext jp
  by_cases same : jp = ip
  · subst jp
    simp [Cell.setRefs]
    rfl
  simp [same]
  rfl

theorem hold_lock (v : View) (ip : Ip) (c : Cell) (locked : c = (v.hold.cell ip).setHeld .locked) :
    (v.hold.setCell ip c).setCell ip (((v.hold.setCell ip c).cell ip).setHeld .loaded) = (v.lock ip).hold := by
  subst locked
  simp only [Hold.setCell, hold, lock, Hold.mk.injEq, true_and, and_true]
  funext jp
  by_cases same : jp = ip
  · subst jp
    simp [Cell.setHeld]
  · simp [same]

theorem hold_unlock (unlocked : ip ∉ v.locks) :
    (v.lock ip).hold.setCell ip (((v.lock ip).hold.cell ip).setHeld .no) = v.hold := by
  simp only [Hold.setCell, hold, lock, Hold.mk.injEq, true_and, and_true]
  funext jp
  by_cases same : jp = ip
  · subst jp
    simp [Cell.setHeld, unlocked]
  · simp [same]

theorem hold_clean (v : View) (ip : Ip) : v.hold.setCell ip ((v.hold.cell ip).setDirty false) = v.hold := by
  have same : (v.hold.cell ip).setDirty false = v.hold.cell ip := rfl
  rw [same, Hold.setCell, update_eq_self]

end View

namespace Know

def forget (k : Know) (ip : Ip) : Know := (k.setIno ip none).setKind ip .unknown

def unsee (k : Know) (ip : Ip) : Know := k.setSeen fun dp i => k.seen dp i ∧ dp ≠ ip

def load (k : Know) (ip : Ip) : Know :=
  match k.fresh with
  | some (i, type) => if k.ino ip = some i then (k.setKind ip (kindOf type)).setFresh none else k
  | none => k

theorem load_stale {k : Know} (stale : k.fresh = none) (ip : Ip) : k.load ip = k := by
  simp [load, stale]

theorem load_fresh {k : Know} {i : Ino} {type : UInt16} {ip : Ip} (fresh : k.fresh = some (i, type))
    (here : k.ino ip = some i) : k.load ip = (k.setKind ip (kindOf type)).setFresh none := by
  simp [load, fresh, here]

def Leaves (k k' : Know) : Prop := ∀ ip, k.kind ip = .leaf → k'.kind ip = .leaf

theorem leaves_trans {k k' k'' : Know} (first : Leaves k k') (snd : Leaves k' k'') : Leaves k k'' :=
  fun ip leaf => snd ip (first ip leaf)

theorem leaves_update {k k' : Know} {ip : Ip} (new : k.kind ip ≠ .leaf) {kind : Kind}
    (kinds : k'.kind = update k.kind ip kind) : Leaves k k' := by
  intro jp leaf
  have other : jp ≠ ip := by
    rintro rfl
    exact new leaf
  rw [kinds, update_of_ne other, leaf]

theorem forget_forget (k : Know) (ip : Ip) : (k.forget ip).forget ip = k.forget ip := by
  simp [forget, setIno, setKind]

end Know

section
variable {T : Type} [DecidableEq T] {strict : Prop} {t : T} {v : View} {k : Know} {ip : Ip}
variable {post : Unit → Hold × Know → Prop} {dp : Ip} {type : UInt16} {name : List UInt8}
  {path : List UInt8}

/- The operations. -/

theorem wp_beginOp (start : v.ops = 0) (next : post () ((v.setOps 1).hold, k)) :
    callWp strict t (act .beginOp) (v.hold, k) post := by
  obtain ⟨ops, refs, locks, file, files, cwd⟩ := v
  subst start
  exact wp_perform ⟨⟨View.calm_hold, rfl⟩, fun _ => trivial⟩ fun _ _ => next

theorem wp_endOp (inside : v.ops = 1) (next : post () ((v.setOps 0).hold, k)) :
    callWp strict t (act .endOp) (v.hold, k) post := by
  obtain ⟨ops, refs, locks, file, files, cwd⟩ := v
  subst inside
  exact wp_perform ⟨⟨View.calm_hold, rfl⟩, fun _ => trivial⟩ fun _ _ => next

theorem wp_iget {i : Ino} {post : Ip → Hold × Know → Prop} (small : strict → i.inum < 0x10000)
    (next : ∀ ip, post ip ((v.addRef ip).hold, k.setIno ip (some i))) :
    callWp strict t (act (.iget i)) (v.hold, k) post := by
  have done : ∀ ip, post ip (v.hold.addRef ip, k.setIno ip (some i)) := by
    intro ip
    rw [View.hold_addRef]
    exact next ip
  exact wp_perform ⟨View.calm_hold, small⟩ fun ip _ => done ip

theorem wp_idup (has : v.Has ip) (next : post () ((v.addRef ip).hold, k)) :
    callWp strict t (act (.idup ip)) (v.hold, k) post := by
  refine wp_perform ⟨⟨View.calm_hold, View.has_hold.mpr has⟩, fun _ => trivial⟩ fun _ _ => ?_
  rw [← View.hold_addRef] at next
  exact next

theorem wp_ilock (has : v.Has ip) (order : strict → ∀ dp ∈ v.locks, ∃ i, k.ino ip = some i ∧ k.seen dp i)
    (next : ip ∉ v.locks → post () ((v.lock ip).hold, k.load ip)) : callWp strict t (ilock ip) (v.hold, k) post := by
  refine wp_op ⟨⟨View.calm_hold, View.has_hold.mpr has⟩, ?_⟩ fun _ fits => ?_
  · intro ranked dp held
    apply order ranked
    by_contra free
    simp [View.hold, free] at held
  have unlocked : ip ∉ v.locks := by
    intro locked
    have free : (v.hold.cell ip).held = .no := fits.1
    simp [View.hold, locked] at free
  refine wp_perform ⟨?_, fun _ => trivial⟩ fun _ _ => ?_
  · simp [callRules, book, allows, Hold.setCell, Cell.setHeld]
  have same := View.hold_lock v ip _ rfl
  have done := next unlocked
  rw [← same] at done
  exact done

theorem wp_unlock (unlocked : ip ∉ v.locks) (next : post () (v.hold, k.unsee ip)) :
    callWp strict t (act (.unlock ip)) ((v.lock ip).hold, k) post := by
  refine wp_perform ⟨⟨View.calm_hold, ?_, rfl⟩, fun _ => trivial⟩ fun _ _ => ?_
  · simp [View.hold, View.lock]
  rw [← View.hold_unlock unlocked] at next
  exact next

theorem wp_fields {post : Dinode → Hold × Know → Prop} (locked : ip ∈ v.locks)
    (next : ∀ dn : Dinode, (strict → (k.kind ip).Fits dn.type) → post dn (v.hold, k.setKind ip (kindOf dn.type))) :
    callWp strict t (act (.fields ip)) (v.hold, k) post := by
  refine wp_perform ⟨⟨View.calm_hold, ?_⟩, fun _ => trivial⟩ fun dn fits => ?_
  · simp [View.hold, locked]
  · exact next dn fits.2

theorem wp_ident {post : Ino → Hold × Know → Prop} (has : v.Has ip)
    (next : ∀ i : Ino, (strict → i.inum < 0x10000 ∧ ∀ j, k.ino ip = some j → i = j) →
      post i (v.hold, k.setIno ip (some i))) : callWp strict t (act (.ident ip)) (v.hold, k) post := by
  refine wp_perform ⟨View.has_hold.mpr has, fun _ => trivial⟩ fun i fits => ?_
  exact next i fits.2

theorem wp_update {f : Dinode → Dinode} {A : Type} {rest : P A} {post : A → Hold × Know → Prop}
    (locked : ip ∈ v.locks) (next : callWp strict t rest (v.hold, k) post) :
    callWp strict t (do act (.store ip f); act (.iupdate ip); rest) (v.hold, k) post := by
  have held : (v.hold.cell ip).held = .loaded := by simp [View.hold, locked]
  refine wp_op ⟨⟨View.calm_hold, held⟩, fun _ => trivial⟩ fun _ _ => ?_
  refine wp_op ⟨⟨?_, .inl ?_⟩, fun _ => trivial⟩ fun _ _ => ?_
  · simp [callRules, book, Hold.setCell, Cell.setDirty, held]
  · simp [callRules, book, Hold.setCell, Cell.setDirty, View.hold]
  have same : book (book v.hold (.store ip f) ()) (.iupdate ip) () = v.hold := by
    simp only [book, Hold.setCell, update_self, update_idem]
    have cell : ({ (v.hold.cell ip).setDirty true with
        dirty := false, put := ((v.hold.cell ip).setDirty true).put.map fun _ => .flushed } : Cell) =
        v.hold.cell ip := rfl
    rw [cell, update_eq_self]
  change wp _ t rest (book (book v.hold (.store ip f) ()) (.iupdate ip) (), k) post
  rwa [same]

/- fs.c. -/

theorem wp_iput (keeps : ip ∈ v.locks → v.Has ip) (next : post () (v.hold, k.forget ip)) :
    callWp strict t (iput ip) ((v.addRef ip).hold, k) post := by
  have refs : ((v.addRef ip).hold.cell ip).refs = v.refs.count ip + 1 := by
    simp [View.hold, View.addRef]
  have mine : 0 < ((v.addRef ip).hold.cell ip).refs := by omega
  refine wp_op ⟨⟨View.calm_hold, mine, ?_⟩, fun _ => trivial⟩ fun frees fits => ?_
  · intro held
    have locked : ip ∈ v.locks := by
      by_contra free
      exact held (if_neg free)
    rcases keeps locked with more | file
    · have pos := Multiset.count_pos.mpr more
      have two : 2 ≤ ((v.addRef ip).hold.cell ip).refs := by omega
      exact .inl two
    · exact .inr file
  cases frees with
  | false =>
    rw [← View.hold_dropRef v ip] at next
    exact wp_pure next
  | true =>
    have unlocked : ((v.addRef ip).hold.cell ip).held = .no := fits.1 rfl
    -- the inode is freed, and its entry is then as at the test but for one reference
    have same : book (book (book (book (book (book (v.addRef ip).hold (.test ip) true) (.trunc ip) ())
        (.clearType ip) ()) (.iupdate ip) ()) (.expire ip) ()) (.drop ip) () = v.hold := by
      rw [← View.hold_dropRef v ip]
      simp only [book, Hold.dropRef, Hold.setCell, update_self, update_idem]
      congr 2
      simp only [Cell.setRefs, Cell.mk.injEq]
      exact ⟨rfl, unlocked.symm, rfl, rfl⟩
    refine wp_op ⟨⟨?_, .inr ?_⟩, fun _ => trivial⟩ fun _ _ => ?_
    · simp [callRules, book, Hold.setCell]
    · simp [callRules, book, Hold.setCell]
    refine wp_op ⟨?_, fun _ => trivial⟩ fun _ _ => ?_
    · simp [callRules, book, allows, Hold.setCell, Cell.setDirty]
    refine wp_op ⟨⟨?_, .inr ?_⟩, fun _ => trivial⟩ fun _ _ => ?_
    · simp [callRules, book, Hold.setCell, Cell.setDirty, Cell.setPut]
    · simp [callRules, book, Hold.setCell, Cell.setDirty, Cell.setPut]
    refine wp_op ⟨?_, fun _ => trivial⟩ fun _ _ => ?_
    · simp [callRules, book, allows, Hold.setCell, Cell.setDirty, Cell.setPut]
    refine wp_perform ⟨?_, fun _ => trivial⟩ fun _ _ => ?_
    · simp [callRules, book, allows, Hold.setCell]
    rw [← same, ← Know.forget_forget] at next
    exact next

theorem wp_iunlockput (unlocked : ip ∉ v.locks) (next : post () (v.hold, (k.unsee ip).forget ip)) :
    callWp strict t (iunlockput ip) (((v.addRef ip).lock ip).hold, k) post := by
  refine wp_bind.mpr (wp_unlock unlocked ?_)
  exact wp_iput (fun locked => absurd locked unlocked) next

theorem wp_look {post : Option (Ino × Nat) → Hold × Know → Prop}
    (locked : dp ∈ v.locks) (absent : post none (v.hold, k.setKind dp .dir))
    (found : ∀ i n, (strict → i.inum < 0x10000) → post (some (i, n)) (v.hold,
      (k.setKind dp .dir).setSeen fun d j => k.seen d j ∨ ¬ Dots name ∧ d = dp ∧ j = i)) :
    callWp strict t (act (.look dp name)) (v.hold, k) post := by
  refine wp_perform ⟨⟨View.calm_hold, ?_⟩, fun _ => trivial⟩ fun answer fits => ?_
  · simp [View.hold, locked]
  cases answer with
  | none => exact absent
  | some e => exact found e.1 e.2 fun ranked => fits.2 ranked e rfl

def Know.found (k : Know) (dp : Ip) (name : List UInt8) (i : Ino) (ip : Ip) : Know :=
  ((k.setKind dp .dir).setSeen fun d j => k.seen d j ∨ ¬ Dots name ∧ d = dp ∧ j = i).setIno ip (some i)

theorem wp_dirlookup {post : Option (Ip × Nat) → Hold × Know → Prop}
    (locked : dp ∈ v.locks) (absent : post none (v.hold, k.setKind dp .dir))
    (found : ∀ i ip n, post (some (ip, n)) ((v.addRef ip).hold, k.found dp name i ip)) :
    callWp strict t (dirlookup dp name) (v.hold, k) post := by
  refine wp_bind.mpr (wp_look locked (wp_pure absent) ?_)
  intro i n small
  refine wp_bind.mpr (wp_iget small ?_)
  exact fun ip => wp_pure (found i ip n)

theorem wp_dirlink {inum : Nat} {post : Int → Hold × Know → Prop} (locked : dp ∈ v.locks) (owns : v.Owns)
    (order : strict → (k.setKind dp .dir).Allows v.hold (.enter dp name inum))
    (bad : ∀ k', k'.fresh = k.fresh → post (-1) (v.hold, k')) (done : post 0 (v.hold, k.setKind dp .dir)) :
    callWp strict t (dirlink dp name inum) (v.hold, k) post := by
  refine wp_bind.mpr (wp_dirlookup locked ?_ ?_)
  · refine wp_op ⟨⟨View.calm_hold, ?_⟩, order⟩ fun _ _ => wp_pure ?_
    · simp [View.hold, locked]
    change post 0 (v.hold.setCell dp ((v.hold.cell dp).setDirty false), k.setKind dp .dir)
    rwa [View.hold_clean]
  intro i ip n
  exact wp_bind.mpr (wp_iput (owns ip) (wp_pure (bad _ rfl)))

theorem wp_namexFrom {parent : Bool} {post : Option (Ip × List UInt8) → Hold × Know → Prop}
    (unlocked : v.locks = ∅) (fuel : Nat) (path : List UInt8) (ip : Ip) (k : Know)
    (enough : path.length < fuel) (stale : k.fresh = none) (fails : ∀ k, k.fresh = none → post none (v.hold, k))
    (done : ∀ dp name k', k'.fresh = none → (strict → k.Leaves k') →
      (parent = true → k'.kind dp = .dir) → post (some (dp, name)) ((v.addRef dp).hold, k')) :
    callWp strict t (namexFrom parent fuel path ip) ((v.addRef ip).hold, k) post := by
  have free : ∀ jp, jp ∉ v.locks := by simp [unlocked]
  induction fuel generalizing path ip k with
  | zero => omega
  | succ fuel ih =>
    unfold namexFrom
    cases elem : skipelem path with
    | none =>
      simp only
      split
      · exact wp_bind.mpr (wp_iput (fun locked => absurd locked (free ip)) (wp_pure (fails _ stale)))
      rename_i plain
      exact wp_pure (done ip [] k stale (fun _ _ leaf => leaf) fun parent => absurd parent plain)
    | some pair =>
      obtain ⟨name, rest⟩ := pair
      simp only
      refine wp_bind.mpr (wp_ilock (.inl (Multiset.mem_cons_self ip v.refs)) ?_ fun _ => ?_)
      · intro _ dp locked
        exact absurd locked (free dp)
      rw [Know.load_stale stale]
      refine wp_bind.mpr (wp_fields (Finset.mem_insert_self ip v.locks) fun dn fits => ?_)
      split
      · exact wp_bind.mpr (wp_iunlockput (free ip) (wp_pure (fails _ stale)))
      rename_i dir
      rw [not_not] at dir
      have new : strict → k.kind ip ≠ .leaf := by
        intro ranked leaf
        have wrong := fits ranked
        rw [leaf] at wrong
        exact wrong.1 dir
      split
      · refine wp_bind.mpr (wp_unlock (free ip) (wp_pure (done ip name _ stale ?_ fun _ => ?_)))
        · exact fun ranked => Know.leaves_update (new ranked) rfl
        · simp [Know.unsee, Know.setSeen, Know.setKind, kindOf, dir]
      refine wp_bind.mpr (wp_dirlookup (Finset.mem_insert_self ip v.locks) ?_ ?_)
      · exact wp_bind.mpr (wp_iunlockput (free ip) (wp_pure (fails _ stale)))
      intro i fp n
      rw [View.lock_addRef, View.addRef_comm]
      refine wp_bind.mpr (wp_iunlockput (free ip) ?_)
      have shorter := skipelem_shorter elem
      refine ih rest fp _ (by omega) stale fun dp name k' stale' leaves dir => ?_
      refine done dp name k' stale' (fun ranked => Know.leaves_trans ?_ (leaves ranked)) dir
      refine Know.leaves_update (new ranked) (?_ : _ = update k.kind ip .unknown)
      simp [Know.found, Know.forget, Know.unsee, Know.setKind, Know.setSeen, Know.setIno]

theorem wp_namexStart {post : Ip → Hold × Know → Prop} (home : v.cwd ∈ v.refs) (stale : k.fresh = none)
    (next : ∀ ip k', k'.fresh = none → k.Leaves k' → post ip ((v.addRef ip).hold, k')) :
    callWp strict t (namexStart path) (v.hold, k) post := by
  unfold namexStart
  split
  · exact wp_iget (fun _ => by decide) fun ip => next ip _ stale fun _ leaf => leaf
  refine wp_op ⟨trivial, fun _ => trivial⟩ fun cwd fits => ?_
  have same : cwd = v.cwd := fits.1
  subst same
  exact wp_bind.mpr (wp_idup (.inl home) (wp_pure (next _ k stale fun _ leaf => leaf)))

theorem wp_namex {parent : Bool} {post : Option (Ip × List UInt8) → Hold × Know → Prop} (unlocked : v.locks = ∅)
    (home : v.cwd ∈ v.refs) (stale : k.fresh = none) (fails : ∀ k, k.fresh = none → post none (v.hold, k))
    (done : ∀ dp name k', k'.fresh = none → (strict → k.Leaves k') →
      (parent = true → k'.kind dp = .dir) → post (some (dp, name)) ((v.addRef dp).hold, k')) :
    callWp strict t (namex path parent) (v.hold, k) post := by
  refine wp_bind.mpr (wp_namexStart home stale fun ip k' stale' leaves => ?_)
  apply wp_namexFrom unlocked _ path ip k' (Nat.lt_succ_self _) stale' fails
  intro dp name k'' stale'' later
  exact done dp name k'' stale'' fun ranked => Know.leaves_trans leaves (later ranked)

theorem wp_namei {post : Option Ip → Hold × Know → Prop} (unlocked : v.locks = ∅) (home : v.cwd ∈ v.refs)
    (stale : k.fresh = none) (fails : ∀ k, k.fresh = none → post none (v.hold, k))
    (done : ∀ ip k, k.fresh = none → post (some ip) ((v.addRef ip).hold, k)) :
    callWp strict t (namei path) (v.hold, k) post := by
  refine wp_bind.mpr (wp_namex unlocked home stale ?_ ?_)
  · exact fun k stale => wp_pure (fails k stale)
  · exact fun ip name k stale _ _ => wp_pure (done ip k stale)

theorem wp_endWith {r : Int} {post : Int → Hold × Know → Prop} (inside : v.ops = 1)
    (done : post r ((v.setOps 0).hold, k)) : callWp strict t (endWith r) (v.hold, k) post :=
  wp_bind.mpr (wp_endOp inside (wp_pure done))

theorem wp_panic {A : Type} {msg : String} {l : Hold × Know} {post : A → Hold × Know → Prop} :
    callWp strict t (panic msg) l post :=
  wp_op ⟨trivial, fun _ => trivial⟩ fun never _ => never.elim

/- create. -/

theorem wp_createFound {post : Option Ip → Hold × Know → Prop} (unlocked : v.locks = ∅)
    (stale : k.fresh = none) (fails : ∀ k, k.fresh = none → post none (v.hold, k))
    (done : ∀ k', k'.fresh = none → k'.kind ip = .leaf → post (some ip) (((v.addRef ip).lock ip).hold, k')) :
    callWp strict t (createFound dp ip type) ((((v.addRef ip).addRef dp).lock dp).hold, k) post := by
  have free : ∀ jp, jp ∉ v.locks := by simp [unlocked]
  refine wp_bind.mpr (wp_iunlockput (free dp) ?_)
  refine wp_bind.mpr (wp_ilock (.inl (Multiset.mem_cons_self ip v.refs)) ?_ fun _ => ?_)
  · intro _ jp locked
    exact absurd locked (free jp)
  rw [Know.load_stale (show ((k.unsee dp).forget dp).fresh = none from stale)]
  refine wp_bind.mpr (wp_fields (Finset.mem_insert_self ip v.locks) fun dn _ => ?_)
  split
  · rename_i plain
    refine wp_pure (done _ stale ?_)
    have leaf : kindOf dn.type = .leaf := by
      rcases plain.2 with file | device
      · rw [file]
        decide
      rw [device]
      decide
    simpa [Know.setKind] using leaf
  · exact wp_bind.mpr (wp_iunlockput (free ip) (wp_pure (fails _ stale)))

theorem wp_iallocFrom {dev : Nat} {post : Ip → Hold × Know → Prop} (used : type ≠ 0)
    (fuel inum : Nat) (small : strict → inum + fuel ≤ 0x10000)
    (next : ∀ n ip, (strict → n < 0x10000) → post ip ((v.addRef ip).hold,
      ((k.setSeen fun d j => k.seen d j ∨ (j = ⟨dev, n⟩ ∧ k.kind d = .dir ∧
        (v.hold.cell d).held = .loaded)).setFresh (some (⟨dev, n⟩, type))).setIno ip (some ⟨dev, n⟩))) :
    callWp strict t (iallocFrom dev type fuel inum) (v.hold, k) post := by
  induction fuel generalizing inum with
  | zero => exact wp_panic
  | succ fuel ih =>
    refine wp_op ⟨⟨View.calm_hold, used⟩, fun _ => trivial⟩ fun free _ => ?_
    cases free with
    | true =>
      refine wp_iget (fun ranked => ?_) fun ip => next inum ip fun ranked => ?_
      · have bound := small ranked
        simp only
        omega
      have bound := small ranked
      omega
    | false =>
      refine ih (inum + 1) fun ranked => ?_
      have bound := small ranked
      omega

theorem ino_learned {k : Know} {jp : Ip} {i j : Ino} (right : ∀ j, k.ino ip = some j → i = j)
    (known : k.ino jp = some j) : (k.setIno ip (some i)).ino jp = some j := by
  by_cases same : jp = ip
  · subst jp
    simp [Know.setIno, right j known]
  · simpa [Know.setIno, same] using known

theorem wp_createDots (parent : dp ∈ v.locks) (child : ip ∈ v.locks) (owns : v.Owns)
    (next : ∀ k', (type ≠ tDir → k' = k) → k'.fresh = k.fresh → k'.seen = k.seen →
      (strict → ∀ jp j, k.ino jp = some j → k'.ino jp = some j) → post () (v.hold, k')) :
    callWp strict t (createDots dp ip type) (v.hold, k) post := by
  have dots : Dots dot ∧ Dots dotdot := by decide
  unfold createDots
  split
  · rename_i dir
    apply wp_update parent
    refine wp_bind.mpr (wp_ident (owns ip child) fun i here => ?_)
    refine wp_bind.mpr (wp_dirlink child owns (fun _ => .inl dots.1) (fun _ _ => wp_panic) ?_)
    refine wp_bind.mpr (wp_ident (owns dp parent) fun d above => ?_)
    refine wp_bind.mpr (wp_dirlink child owns (fun _ => .inl dots.2) (fun _ _ => wp_panic) ?_)
    refine wp_pure (next _ (fun other => absurd dir other) rfl rfl fun ranked jp j known => ?_)
    exact ino_learned (k := (k.setIno ip (some i)).setKind ip .dir) (above ranked).2
      (ino_learned (here ranked).2 known)
  · exact wp_pure (next k (fun _ => rfl) rfl rfl fun _ _ _ known => known)

theorem wp_createNew {ninodes : Nat} {major minor : Int16}
    {post : Option Ip → Hold × Know → Prop} (used : type ≠ 0) (small : strict → ninodes ≤ 0x10000)
    (unlocked : v.locks = ∅) (dir : k.kind dp = .dir)
    (done : ∀ ip k', k'.fresh = none → (type ≠ tDir → k'.kind ip = .leaf) →
      post (some ip) (((v.addRef ip).lock ip).hold, k')) : callWp strict t (createNew ninodes dp name type major minor)
      (((v.addRef dp).lock dp).hold, k) post := by
  refine wp_bind.mpr (wp_ident (.inl (Multiset.mem_cons_self dp v.refs)) fun d _ => ?_)
  refine wp_bind.mpr (wp_iallocFrom used (ninodes - 1) 1 ?_ fun n ip num => ?_)
  · intro ranked
    have bound := small ranked
    omega
  have above : ((((v.addRef dp).lock dp).hold.cell dp)).held = .loaded := by simp [View.hold, View.lock]
  refine wp_bind.mpr (wp_ilock (.inl (Multiset.mem_cons_self ip _)) ?_ fun fresh => ?_)
  · intro _ jp locked
    have same : jp = dp := by
      simpa [View.lock, View.addRef, unlocked] using locked
    subst jp
    exact ⟨⟨d.dev, n⟩, by simp [Know.setIno], .inr ⟨rfl, dir, above⟩⟩
  rw [Know.load_fresh rfl (by simp [Know.setIno])]
  have other : dp ≠ ip := by
    rintro rfl
    simp [View.lock, View.addRef] at fresh
  have child : ip ∈ ((((v.addRef dp).lock dp).addRef ip).lock ip).locks := Finset.mem_insert_self _ _
  have parent : dp ∈ ((((v.addRef dp).lock dp).addRef ip).lock ip).locks := by
    simp [View.lock, View.addRef]
  have owns : ((((v.addRef dp).lock dp).addRef ip).lock ip).Owns := by
    intro jp locked
    refine .inl ?_
    simp only [View.lock, View.addRef, unlocked] at locked ⊢
    simp at locked ⊢
    tauto
  refine wp_update child ?_
  refine wp_bind.mpr (wp_createDots parent child owns fun k' same stale seen inos => ?_)
  refine wp_bind.mpr (wp_ident (owns ip child) fun i here => ?_)
  refine wp_bind.mpr (wp_dirlink parent owns ?_ (fun _ _ => wp_panic) ?_)
  · intro ranked
    have place : i = ⟨d.dev, n⟩ := by
      apply (here ranked).2
      apply inos ranked
      simp [Know.setIno, Know.setKind, Know.setFresh]
    have home : k'.ino dp = some d := by
      apply inos ranked
      simp [Know.setIno, Know.setKind, Know.setFresh, Know.setSeen, other]
    refine .inr ⟨(here ranked).1, d, ?_, .inl ?_⟩
    · simpa [Know.setIno, Know.setKind, other] using home
    subst place
    change k'.seen dp ⟨d.dev, n⟩
    rw [seen]
    exact .inr ⟨rfl, dir, above⟩
  rw [View.lock_comm]
  refine wp_bind.mpr (wp_iunlockput ?_ (wp_pure (done ip _ stale fun leaf => ?_)))
  · simp [View.lock, View.addRef, unlocked, other]
  have kind : kindOf type = .leaf := if_neg leaf
  rw [same leaf]
  simp [Know.forget, Know.unsee, Know.setIno, Know.setKind, Know.setSeen, Know.setFresh, kind, other.symm]

theorem wp_create {ninodes : Nat} {major minor : Int16}
    {post : Option Ip → Hold × Know → Prop} (used : type ≠ 0) (small : strict → ninodes ≤ 0x10000)
    (unlocked : v.locks = ∅) (home : v.cwd ∈ v.refs) (stale : k.fresh = none)
    (fails : ∀ k, k.fresh = none → post none (v.hold, k))
    (done : ∀ ip k', k'.fresh = none → (type ≠ tDir → k'.kind ip = .leaf) →
      post (some ip) (((v.addRef ip).lock ip).hold, k')) :
    callWp strict t (create ninodes path type major minor) (v.hold, k) post := by
  have free : ∀ jp, jp ∉ v.locks := by simp [unlocked]
  refine wp_bind.mpr (wp_namex unlocked home stale (fun k stale => wp_pure (fails k stale)) ?_)
  intro dp name k' stale' _ _
  refine wp_bind.mpr (wp_ilock (.inl (Multiset.mem_cons_self dp v.refs)) ?_ fun _ => ?_)
  · intro _ jp locked
    exact absurd locked (free jp)
  rw [Know.load_stale stale']
  refine wp_bind.mpr (wp_dirlookup (Finset.mem_insert_self dp v.locks) ?_ ?_)
  · exact wp_createNew used small unlocked (by simp [Know.setKind]) done
  intro i ip n
  rw [View.lock_addRef, View.addRef_comm]
  exact wp_createFound unlocked stale' fails fun k' stale'' leaf => done ip k' stale'' fun _ => leaf

end

end Xv6Conc
