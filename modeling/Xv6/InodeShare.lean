import Xv6.InodeCells
import Xv6.OpenFiles

/- The inode table under any interleaving of the operations that processes may do. -/
namespace Xv6Conc
open Xv6 Xv6Fs Threads Function
set_option linter.unusedSectionVars false

section
variable {T : Type} [Fintype T] [DecidableEq T]
variable {ip : Ip} {f : Fin nFile} {fd : Fin nofile} {x : Cell} {i : Ino}

structure Base (s : Shared T) (l : T → Hold) : Prop where
  unique : ∀ ip jp, 0 < (s.entry ip).ref → 0 < (s.entry jp).ref →
    (s.entry ip).ino = (s.entry jp).ino → ip = jp
  cells : ∀ ip, CellOk (s.entry ip) (s.disk (s.entry ip).ino) (fun t => (l t).cell ip)
    (fun t => (l t).Via ip) (fileRefs s.ftable ip)
  files : FilesOk s.ftable s.ofile l
  outstanding : s.outstanding = ∑ t, (l t).ops
  cwd : ∀ t, s.cwd t = (l t).cwd

variable {s : Shared T} {l : T → Hold} {ftable : Fin nFile → File}
  {ofile : T → Fin nofile → Option (Fin nFile)}

theorem cells_setCell (t : T) (ip : Ip) (x : Cell) : (fun u => (update l t ((l t).setCell ip x) u).cell ip) =
      update (fun u => (l u).cell ip) t x := by
  funext u
  by_cases mine : u = t
  · subst u
    simp [Hold.setCell]
  · simp [mine]

theorem cells_other {t : T} {ip jp : Ip} (other : jp ≠ ip) (x : Cell) :
    (fun u => (update l t ((l t).setCell ip x) u).cell jp) = fun u => (l u).cell jp := by
  funext u
  by_cases mine : u = t
  · subst u
    simp [Hold.setCell, other]
  · simp [mine]

theorem base_entry (base : Base s l) {t : T} (e : Entry T) (disk : Ino → Dinode)
    (ents : Ino → List Dirent) (live : 0 < (s.entry ip).ref)
    (ino : e.ino = (s.entry ip).ino) (others : ∀ i, i ≠ (s.entry ip).ino → disk i = s.disk i)
    (ok : CellOk e (disk (s.entry ip).ino) (update (fun u => (l u).cell ip) t x)
      (fun u => (l u).Via ip) (fileRefs s.ftable ip)) :
    Base { s with entry := update s.entry ip e, disk := disk, ents := ents } (update l t ((l t).setCell ip x)) := by
  have via : ∀ jp u, (update l t ((l t).setCell ip x) u).Via jp = (l u).Via jp := by
    intro jp u
    simp only [Hold.Via, ledger_same Hold.files (t := t) (h := (l t).setCell ip x) rfl u]
  refine ⟨?_, ?_, ?_, ?_, ?_⟩
  · intro jp kp
    have unique := base.unique
    simp only [update_apply]
    grind
  · intro jp
    simp only [via]
    by_cases same : jp = ip
    · subst jp
      rw [cells_setCell]
      simpa [ino] using ok
    rw [cells_other same]
    simp only [update_of_ne same]
    by_cases used : 0 < (s.entry jp).ref
    · have apart : (s.entry jp).ino ≠ (s.entry ip).ino :=
        fun eq => same (base.unique jp ip used live eq)
      rw [others _ apart]
      exact base.cells jp
    · exact cell_dead (base.cells jp) used _
  · exact files_same base.files rfl rfl
  · simp only [ledger_same Hold.ops (l := l) (t := t) (h := (l t).setCell ip x) rfl]
    exact base.outstanding
  simp only [ledger_same Hold.cwd (l := l) (t := t) (h := (l t).setCell ip x) rfl]
  exact base.cwd

theorem iget_spec {e : Entry T} (found : s.iget i = some (ip, e)) :
    (0 < (s.entry ip).ref ∧ (s.entry ip).ino = i ∧ e = (s.entry ip).setRef ((s.entry ip).ref + 1)) ∨
      (s.entry ip).ref = 0 ∧ (∀ jp, 0 < (s.entry jp).ref → (s.entry jp).ino ≠ i) ∧ e = (s.entry ip).recycle i := by
  unfold Shared.iget at found
  split at found
  · rename_i jp hit
    have is := List.find?_some hit
    simp only [Option.some.injEq, Prod.mk.injEq] at found
    obtain ⟨rfl, rfl⟩ := found
    simp only [decide_eq_true_eq] at is
    exact .inl ⟨is.1, is.2, rfl⟩
  rename_i miss
  simp only [Option.map_eq_some_iff] at found
  obtain ⟨jp, empty, pair⟩ := found
  obtain ⟨rfl, rfl⟩ := Prod.mk.inj pair
  have is := List.find?_some empty
  refine .inr ⟨by simpa using is, ?_, rfl⟩
  intro kp live ino
  have none := List.find?_eq_none.mp miss kp (List.mem_finRange kp)
  simp [live, ino] at none

theorem base_recycle (base : Base s l) {t : T} (empty : (s.entry ip).ref = 0)
    (fresh : ∀ jp, 0 < (s.entry jp).ref → (s.entry jp).ino ≠ i) : Base (s.setEntry ip ((s.entry ip).recycle i))
      (update l t ((l t).setCell ip (((l t).cell ip).setRefs (((l t).cell ip).refs + 1)))) := by
  generalize there : ((l t).cell ip).setRefs (((l t).cell ip).refs + 1) = x
  have via : ∀ jp u, (update l t ((l t).setCell ip x) u).Via jp = (l u).Via jp := by
    intro jp u
    simp only [Hold.Via, ledger_same Hold.files (t := t) (h := (l t).setCell ip x) rfl u]
  refine ⟨?_, ?_, ?_, ?_, ?_⟩
  · intro jp kp
    have unique := base.unique
    simp only [Shared.setEntry, update_apply, Entry.recycle]
    grind
  · intro jp
    simp only [via]
    by_cases same : jp = ip
    · subst jp
      rw [cells_setCell, ← there]
      simpa [Shared.setEntry] using cell_recycle (base.cells ip) empty i _
    rw [cells_other same]
    simpa [Shared.setEntry, same] using base.cells jp
  · exact files_same base.files rfl rfl
  · simp only [ledger_same Hold.ops (l := l) (t := t) (h := (l t).setCell ip x) rfl]
    exact base.outstanding
  simp only [ledger_same Hold.cwd (l := l) (t := t) (h := (l t).setCell ip x) rfl]
  exact base.cwd

theorem base_claim (base : Base s l) (free : (s.disk i).type = 0) {dn : Dinode}
    (unlinked : dn.nlink = 0) (es : List Dirent) : Base ((s.setDisk i dn).setEnts i es) l := by
  refine ⟨base.unique, ?_, base.files, base.outstanding, base.cwd⟩
  intro ip
  by_cases same : (s.entry ip).ino = i
  · have ok := base.cells ip
    rw [same] at ok
    simpa [Shared.setDisk, Shared.setEnts, same] using cell_claim ok free unlinked
  · simpa [Shared.setDisk, Shared.setEnts, same] using base.cells ip

theorem base_files (base : Base s l) {t : T} (h : Hold) (r : Ip → Nat)
    (files : FilesOk ftable ofile (update l t h)) (ops : h.ops = (l t).ops)
    (cwd : h.cwd = (l t).cwd) (cell : ∀ ip, h.cell ip = ((l t).cell ip).setRefs (r ip))
    (count : ∀ ip, ((l t).cell ip).refs + fileRefs s.ftable ip = r ip + fileRefs ftable ip)
    (calm : (l t).Calm) (has : ∀ ip, ((l t).cell ip).held ≠ .no → 0 < r ip ∨ h.Via ip) :
    Base { s with ftable := ftable, ofile := ofile } (update l t h) := by
  refine ⟨base.unique, ?_, files, ?_, ?_⟩
  · intro ip
    have moved := count ip
    have ok : CellOk ((s.entry ip).setRef (s.entry ip).ref) (s.disk (s.entry ip).ino)
        (update (fun u => (l u).cell ip) t (((l t).cell ip).setRefs (r ip)))
        (fun u => (update l t h u).Via ip) (fileRefs ftable ip) := by
      apply cell_refs (base.cells ip) _ _ _ (fun u => via_pos files) (calm ip) id
      · omega
      · intro u other
        simp [other]
      · simpa using has ip
    have same : (fun u => (update l t h u).cell ip) =
        update (fun u => (l u).cell ip) t (((l t).cell ip).setRefs (r ip)) := by
      funext u
      by_cases mine : u = t
      · subst u
        simpa using cell ip
      · simp [mine]
    rw [same]
    exact ok
  · simp only [ledger_same Hold.ops ops]
    exact base.outstanding
  simp only [ledger_same Hold.cwd cwd]
  exact base.cwd

/- All operations. -/

/-- What processes may do, with ledgers of what they hold. -/
def holdRules : Rules T Op Ans (Shared T) Hold where
  exec := exec
  allows := fun _ o h => allows h o
  fits := fun _ o h a => fits h o a
  book := fun _ o h a => book h o a

instance (t : T) (o : Op) (h : Hold) : Decidable ((holdRules (T := T)).allows t o h) :=
  inferInstanceAs (Decidable (allows h o))

variable {t : T}

section
variable (base : Base s l)
include base

theorem live_of_has (has : (l t).Has ip) : 0 < (s.entry ip).ref :=
  cell_ref_pos (base.cells ip) has

theorem live_of_held (held : ((l t).cell ip).held ≠ .no) : 0 < (s.entry ip).ref :=
  live_of_has base ((base.cells ip).has t held)

theorem base_setEntry (e : Entry T) (live : 0 < (s.entry ip).ref)
    (ok : CellOk e (s.disk (s.entry ip).ino) (update (fun u => (l u).cell ip) t x)
      (fun u => (l u).Via ip) (fileRefs s.ftable ip)) (ino : e.ino = (s.entry ip).ino) :
    Base (s.setEntry ip e) (update l t ((l t).setCell ip x)) :=
  base_entry base e s.disk s.ents live ino (fun _ _ => rfl) ok

theorem base_held (live : 0 < (s.entry ip).ref)
    (ok : CellOk (s.entry ip) (s.disk (s.entry ip).ino) (update (fun u => (l u).cell ip) t x)
      (fun u => (l u).Via ip) (fileRefs s.ftable ip)) : Base s (update l t ((l t).setCell ip x)) := by
  have same := base_setEntry base (s.entry ip) live ok rfl
  rwa [Shared.setEntry, update_eq_self] at same

theorem base_iupdate (live : 0 < (s.entry ip).ref)
    (ok : CellOk (s.entry ip) (s.entry ip).dn (update (fun u => (l u).cell ip) t x)
      (fun u => (l u).Via ip) (fileRefs s.ftable ip)) : Base (s.setDisk (s.entry ip).ino (s.entry ip).dn)
      (update l t ((l t).setCell ip x)) := by
  have moved := base_entry (t := t) (x := x) base (s.entry ip)
    (update s.disk (s.entry ip).ino (s.entry ip).dn) s.ents live rfl
    (fun i other => update_of_ne other _ _) (by rwa [update_self])
  rw [update_eq_self] at moved
  exact moved

theorem base_refs {ref : Int} {refs : Nat} (live : 0 < (s.entry ip).ref)
    (count : ref + ((l t).cell ip).refs = (s.entry ip).ref + refs) (calm : (l t).Calm)
    (has : ((l t).cell ip).held ≠ .no → 0 < refs ∨ (l t).Via ip) : Base (s.setEntry ip ((s.entry ip).setRef ref))
      (update l t ((l t).setCell ip (((l t).cell ip).setRefs refs))) := by
  apply base_setEntry base ((s.entry ip).setRef ref) live _ rfl
  apply cell_refs (base.cells ip) _ (fun _ _ => Iff.rfl) has (base.cells ip).open_file (calm ip)
    (fun _ => live)
  omega

theorem base_write (mine : ((l t).cell ip).held = .loaded)
    (calm : ((l t).cell ip).put = none ∨ ((l t).cell ip).put = some .tested) (size : UInt32)
    (addrs : Fin (nDirect + 1) → UInt32) (es : List Dirent) :
    Base ((s.put ip (resized (s.entry ip).dn size addrs)).setEnts (s.entry ip).ino es)
      (update l t ((l t).setCell ip (((l t).cell ip).setDirty false))) := by
  have live : 0 < (s.entry ip).ref := live_of_held (t := t) base (by simp [mine])
  have type : (resized (s.entry ip).dn size addrs).type = (s.entry ip).dn.type := rfl
  have ok := cell_write (t := t) (base.cells ip) mine calm type rfl
  apply base_entry base ((s.entry ip).setDn (resized (s.entry ip).dn size addrs))
    (update s.disk (s.entry ip).ino (resized (s.entry ip).dn size addrs))
    (update s.ents (s.entry ip).ino es) live rfl
  · intro i other
    exact update_of_ne other _ _
  rw [update_self]
  exact ok

theorem test_alone (mine : 0 < ((l t).cell ip).refs)
    (locked : ((l t).cell ip).held ≠ .no → 2 ≤ ((l t).cell ip).refs ∨ (l t).Via ip)
    (single : (s.entry ip).ref = 1) : (s.entry ip).holder = none := by
  have ok := base.cells ip
  cases taken : (s.entry ip).holder with
  | none => rfl
  | some u =>
    have held := (ok.holder u).mp taken
    have has := ok.has u held
    by_cases same : u = t
    · subst u
      have sum := ok.refs
      have part := le_sum (fun u => ((l u).cell ip).refs) t
      rcases locked held with two | file
      · omega
      have files := ok.open_file t file
      omega
    have two := cell_ref_two ok same mine has
    omega

theorem base_ops {outstanding ops : Nat} (count : outstanding + (l t).ops = s.outstanding + ops) :
    Base { s with outstanding := outstanding } (update l t ((l t).setOps ops)) := by
  refine ⟨base.unique, ?_, files_same base.files rfl rfl, ?_, ?_⟩
  · intro ip
    simp only [Hold.Via, ledger_same Hold.cell (l := l) (h := (l t).setOps ops) rfl,
      ledger_same Hold.files (l := l) (h := (l t).setOps ops) rfl]
    exact base.cells ip
  · have sum := sum_update l (fun _ h => h.ops) t ((l t).setOps ops)
    have old := base.outstanding
    simp only [Hold.setOps] at sum ⊢
    omega
  simp only [ledger_same Hold.cwd (l := l) (h := (l t).setOps ops) rfl]
  exact base.cwd

theorem base_cwd (ip : Ip) : Base { s with cwd := update s.cwd t ip } (update l t ((l t).setCwd ip)) := by
  refine ⟨base.unique, ?_, files_same base.files rfl rfl, ?_, ?_⟩
  · intro jp
    simp only [Hold.Via, ledger_same Hold.cell (l := l) (h := (l t).setCwd ip) rfl,
      ledger_same Hold.files (l := l) (h := (l t).setCwd ip) rfl]
    exact base.cells jp
  · simp only [ledger_same Hold.ops (l := l) (h := (l t).setCwd ip) rfl]
    exact base.outstanding
  intro u
  by_cases mine : u = t
  · subst u
    simp [Hold.setCwd]
  · simpa [mine] using base.cwd u

theorem base_still {h : Hold} (same : h = l t) : Base s (update l t h) := by
  rwa [same, update_eq_self]

theorem base_filealloc (free : (s.ftable f).ref = 0) (calm : (l t).Calm) (none : (l t).file = none) :
    Base (s.setFile f ((s.ftable f).setRef 1)) (update l t ((l t).setFile (some (f, .alloc)))) := by
  have shut := base.files.closed f (by omega)
  apply base_files base ((l t).setFile (some (f, .alloc))) (fun ip => ((l t).cell ip).refs)
    (files_alloc base.files free none rfl rfl) rfl rfl (fun _ => rfl) _ calm
  · exact fun ip held => (base.cells ip).has t held
  intro ip
  have change := fileRefs_update s.ftable f ((s.ftable f).setRef 1) ip
  have prev : (s.ftable f).inode = Option.none := by simp [File.inode, free]
  have after : ((s.ftable f).setRef 1).inode = Option.none := by simp [File.inode, File.setRef, shut]
  rw [prev, after] at change
  omega

theorem base_fdalloc (calm : (l t).Calm) (mine : (l t).file = some (f, .alloc)) (empty : s.ofile t fd = none) :
    Base (s.setFd t fd (some f)) (update l t ((l t).setFile (some (f, .opening fd)))) :=
  base_files base ((l t).setFile (some (f, .opening fd))) (fun ip => ((l t).cell ip).refs)
    (files_fdalloc base.files mine empty rfl rfl) rfl rfl (fun _ => rfl) (fun _ => rfl) calm
    fun ip held => (base.cells ip).has t held

theorem has_setFile (mine : (l t).file = some (f, .opening fd)) (has : (l t).Has ip) (jp : Ip) :
    ((((l t).dropRef jp).setFile none).setKnown fd (some jp)).Has ip := by
  obtain ⟨slot, -, untyped⟩ := base.files.opening t f fd mine
  by_cases same : ip = jp
  · exact .inr ⟨fd, by simp [Hold.setKnown, same]⟩
  rcases has with refs | ⟨fd', there⟩
  · refine .inl ?_
    simpa [Hold.setKnown, Hold.setFile, Hold.dropRef, Hold.setCell, same] using refs
  refine .inr ⟨fd', ?_⟩
  have other : fd' ≠ fd := by
    intro eq
    subst fd'
    obtain ⟨g, at_fd, old⟩ := base.files.known t fd ip there
    rw [slot, Option.some.injEq] at at_fd
    subst g
    simp [File.inode, untyped] at old
  simpa [Hold.setKnown, Hold.setFile, Hold.dropRef, Hold.setCell, other] using there

theorem base_setFile {file : File} (calm : (l t).Calm) (mine : (l t).file = some (f, .opening fd))
    (kind : file.type = .inode ∨ file.type = .device) (has : 0 < ((l t).cell file.ip).refs) :
    Base (s.setFile f (file.setRef (s.ftable f).ref)) (update l t
      ((((l t).dropRef file.ip).setFile none).setKnown fd (some file.ip))) := by
  obtain ⟨slot, single, untyped⟩ := base.files.opening t f fd mine
  have inode : (file.setRef (s.ftable f).ref).inode = some file.ip := by
    simp [File.inode, File.setRef, single, kind]
  apply base_files base ((((l t).dropRef file.ip).setFile none).setKnown fd (some file.ip))
    (fun ip => ((l t).cell ip).refs - one file.ip ip)
    (files_set base.files mine (file.setRef (s.ftable f).ref) single rfl rfl inode) rfl rfl _ _ calm
  · intro ip held
    have has := has_setFile base mine ((base.cells ip).has t held) file.ip
    by_cases same : ip = file.ip
    · exact .inr ⟨fd, by simp [Hold.setKnown, same]⟩
    rcases has with refs | via
    · refine .inl ?_
      simpa [Hold.setKnown, Hold.setFile, Hold.dropRef, Hold.setCell, one, same] using refs
    · exact .inr via
  · intro ip
    by_cases same : ip = file.ip
    · subst ip
      simp [Hold.setKnown, Hold.setFile, Hold.dropRef, Hold.setCell, one]
    · simp [Hold.setKnown, Hold.setFile, Hold.dropRef, Hold.setCell, one, same, Cell.setRefs]
  intro ip
  have change := fileRefs_update s.ftable f (file.setRef (s.ftable f).ref) ip
  have prev : (s.ftable f).inode = none := by simp [File.inode, untyped]
  rw [prev, inode, oneOf_none, oneOf_some] at change
  by_cases same : ip = file.ip
  · subst ip
    simp [one] at change ⊢
    omega
  simp [one, same] at change ⊢
  omega

end

theorem fileclose_book (h : Hold) (last : Option File) :
    (book h (.fileclose f) last).file = none ∧ (book h (.fileclose f) last).files = h.files ∧
      (book h (.fileclose f) last).ops = h.ops ∧ (book h (.fileclose f) last).cwd = h.cwd ∧
      ∀ ip, (book h (.fileclose f) last).cell ip =
        (h.cell ip).setRefs ((h.cell ip).refs + oneOf (last.bind File.inode) ip) := by
  simp only [book]
  cases inode : last.bind File.inode with
  | none => simp [Hold.setFile, oneOf_none, Cell.setRefs]
  | some jp =>
    refine ⟨rfl, rfl, rfl, rfl, ?_⟩
    intro ip
    by_cases same : ip = jp
    · subst ip
      simp [Hold.setFile, Hold.addRef, Hold.setCell, oneOf_some, one]
    · simp [Hold.setFile, Hold.addRef, Hold.setCell, oneOf_some, one, same, Cell.setRefs]

theorem base_fileclose (base : Base s l) (calm : (l t).Calm)
    (mine : (l t).file = some (f, .alloc) ∨ (l t).file = some (f, .closing)) (last : Option File)
    (file : File) (ref : file.ref = (s.ftable f).ref - 1)
    (moved : ∀ ip, oneOf (last.bind File.inode) ip + oneOf file.inode ip = oneOf (s.ftable f).inode ip)
    (kept : 1 < (s.ftable f).ref → file.inode = (s.ftable f).inode ∧ file.type = (s.ftable f).type)
    (shut : (s.ftable f).ref ≤ 1 → file.type = .none) :
    Base (s.setFile f file) (update l t (book (l t) (.fileclose f) last)) := by
  obtain ⟨done, known, ops, cwd, cell⟩ := fileclose_book (f := f) (l t) last
  apply base_files base _ _ (files_close base.files mine ref done known kept shut) ops cwd cell _ calm
  · intro ip held
    rcases (base.cells ip).has t held with refs | ⟨fd, there⟩
    · exact .inl (by omega)
    · exact .inr ⟨fd, known ▸ there⟩
  intro ip
  have change := fileRefs_update s.ftable f file ip
  have moves := moved ip
  omega

theorem has_getFile (base : Base s l) {ip jp : Ip} (slot : s.ofile t fd = some f)
    (inode : (s.ftable f).inode = some ip) (has : (l t).Has jp) : ((l t).setKnown fd (some ip)).Has jp := by
  rcases has with refs | ⟨fd', there⟩
  · exact .inl refs
  refine .inr ⟨fd', ?_⟩
  by_cases same : fd' = fd
  · subst fd'
    obtain ⟨g, at_fd, old⟩ := base.files.known t fd jp there
    rw [slot, Option.some.injEq] at at_fd
    subst g
    simpa [Hold.setKnown] using inode.symm.trans old
  · simpa [Hold.setKnown, same] using there

theorem base_getFile (base : Base s l) (calm : (l t).Calm) (slot : s.ofile t fd = some f)
    (inode : (s.ftable f).inode = some ip) : Base s (update l t ((l t).setKnown fd (some ip))) := by
  apply base_files base ((l t).setKnown fd (some ip)) (fun ip => ((l t).cell ip).refs)
    (files_know base.files slot inode rfl rfl) rfl rfl (fun _ => rfl) (fun _ => rfl) calm
  exact fun jp held => has_getFile base slot inode ((base.cells jp).has t held)

theorem base_takeFd (base : Base s l) (calm : (l t).Calm) (none : (l t).file = none)
    (unlocked : ∀ ip, ((l t).cell ip).held = .no) : Base (s.setFd t fd Option.none) (update l t
      (((l t).setFile ((s.ofile t fd).map fun f => (f, .closing))).setKnown fd Option.none)) := by
  apply base_files base (((l t).setFile ((s.ofile t fd).map fun f => (f, .closing))).setKnown fd Option.none)
    (fun ip => ((l t).cell ip).refs) (files_take base.files none rfl rfl) rfl rfl (fun _ => rfl)
    (fun _ => rfl) calm
  intro ip held
  exact absurd (unlocked ip) held

/-- Base is an invariant of what processes may do. -/
theorem base_sound : Threads.Sound (holdRules (T := T)) free Base := by
  intro s l t o a s' base _ ok done
  change allows (l t) o at ok
  change exec t o s a s' at done
  change fits (l t) o a ∧ Base s' (update l t (book (l t) o a))
  cases o with
  | beginOp =>
    subst done
    exact ⟨trivial, base_ops base (by omega)⟩
  | endOp =>
    subst done
    have mine := ok.2
    have outstanding := base.outstanding
    have part := le_sum (fun u => (l u).ops) t
    exact ⟨trivial, base_ops base (by omega)⟩
  | iget i =>
    obtain ⟨e, found, rfl⟩ := done
    refine ⟨trivial, ?_⟩
    rcases iget_spec found with ⟨live, -, rfl⟩ | ⟨empty, fresh, rfl⟩
    · exact base_refs base live (by push_cast; omega) ok fun _ => .inl (by omega)
    · exact base_recycle base empty fresh
  | idup ip =>
    subst done
    exact ⟨trivial, base_refs base (live_of_has base ok.2) (by push_cast; omega) ok.1
      fun _ => .inl (by omega)⟩
  | lock ip =>
    obtain ⟨live, free, rfl⟩ := done
    refine ⟨cell_free (base.cells ip) free t, ?_⟩
    exact base_setEntry base _ live (cell_lock (base.cells ip) free ok.2 (ok.1 ip)) rfl
  | load ip =>
    have live : 0 < (s.entry ip).ref := live_of_held (t := t) base (by simp [show _ = _ from ok])
    have calm := cell_locked (base.cells ip) ok
    refine ⟨trivial, ?_⟩
    simp only [exec] at done
    split at done
    · rename_i valid
      subst done
      exact base_held base live (cell_load (base.cells ip) ok calm valid)
    obtain ⟨used, rfl⟩ := done
    exact base_setEntry base _ live (cell_read (base.cells ip) ok calm used) rfl
  | unlock ip =>
    obtain ⟨-, live, rfl⟩ := done
    refine ⟨trivial, ?_⟩
    exact base_setEntry base _ live (cell_unlock (base.cells ip) ok.2.1 (ok.1 ip) ok.2.2) rfl
  | ident ip | fields ip =>
    obtain ⟨-, rfl⟩ := done
    exact ⟨trivial, base_still base rfl⟩
  | store ip f =>
    subst done
    have live : 0 < (s.entry ip).ref := live_of_held (t := t) base (by simp [ok.2])
    exact ⟨trivial, base_setEntry base _ live (cell_store (base.cells ip) ok.2 (ok.1 ip) rfl) rfl⟩
  | iupdate ip =>
    subst done
    have live : 0 < (s.entry ip).ref := live_of_held (t := t) base (by simp [ok.1])
    exact ⟨trivial, base_iupdate base live (cell_iupdate (base.cells ip) ok.1 ok.2)⟩
  | write ip es =>
    obtain ⟨size, addrs, rfl⟩ := done
    exact ⟨trivial, base_write base ok.2 (.inl (ok.1 ip)) size addrs es⟩
  | trunc ip =>
    subst done
    exact ⟨trivial, base_write base ok.1 ok.2 0 (fun _ => 0) []⟩
  | test ip =>
    obtain ⟨calm, mine, locked⟩ := ok
    have live := live_of_has base (.inl mine)
    simp only [exec] at done
    split at done
    · rename_i frees
      obtain ⟨rfl, free, rfl⟩ := done
      exact ⟨fun _ => cell_free (base.cells ip) free t,
        base_setEntry base _ live (cell_test (base.cells ip) free frees mine) rfl⟩
    obtain ⟨rfl, rfl⟩ := done
    refine ⟨fun frees => absurd frees Bool.false_ne_true, ?_⟩
    apply base_refs base live _ calm
    · intro held
      rcases locked held with two | file
      · exact .inl (by omega)
      · exact .inr file
    push_cast [Nat.one_le_iff_ne_zero.mpr (by omega : ((l t).cell ip).refs ≠ 0)]
    omega
  | clearType ip =>
    subst done
    have mine := ((base.cells ip).put t _ ok).1
    exact ⟨trivial, base_setEntry base _ (live_of_has base (.inl mine))
      (cell_clearType (base.cells ip) ok) rfl⟩
  | expire ip =>
    subst done
    have mine := ((base.cells ip).put t _ ok).1
    exact ⟨trivial, base_setEntry base _ (live_of_has base (.inl mine))
      (cell_expire (base.cells ip) ok) rfl⟩
  | drop ip =>
    subst done
    have mine := ((base.cells ip).put t _ ok).1
    exact ⟨trivial, base_setEntry base _ (live_of_has base (.inl mine))
      (cell_drop (base.cells ip) ok) rfl⟩
  | claim i type =>
    refine ⟨trivial, ?_⟩
    simp only [exec] at done
    split at done
    · rename_i free
      obtain ⟨-, rfl⟩ := done
      exact base_still (base_claim base free rfl _) rfl
    obtain ⟨-, rfl⟩ := done
    exact base_still base rfl
  | look dp name =>
    obtain ⟨-, rfl, -⟩ := done
    exact ⟨trivial, base_still base rfl⟩
  | enter dp name inum | clear dp k =>
    obtain ⟨size, addrs, rfl⟩ := done
    exact ⟨trivial, base_write base ok.2 (.inl (ok.1 dp)) size addrs _⟩
  | isdirempty ip =>
    obtain ⟨rfl, -⟩ := done
    exact ⟨trivial, base_still base rfl⟩
  | getCwd =>
    obtain ⟨rfl, rfl⟩ := done
    exact ⟨base.cwd t, base_still base rfl⟩
  | setCwd ip =>
    subst done
    exact ⟨trivial, base_cwd base ip⟩
  | filealloc =>
    refine ⟨trivial, ?_⟩
    simp only [exec] at done
    split at done
    · rename_i f found
      obtain ⟨rfl, rfl⟩ := done
      have free := List.find?_some found
      exact base_filealloc base (by simpa using free) ok.1 ok.2
    obtain ⟨rfl, rfl⟩ := done
    apply base_still base
    simp only [book, Hold.setFile, Option.map_none, ← ok.2]
  | fdalloc f =>
    refine ⟨trivial, ?_⟩
    simp only [exec] at done
    split at done
    · rename_i fd found
      obtain ⟨rfl, rfl⟩ := done
      have empty := List.find?_some found
      exact base_fdalloc base ok.1 ok.2 (by simpa using empty)
    obtain ⟨rfl, rfl⟩ := done
    exact base_still base rfl
  | setFile f file =>
    subst done
    obtain ⟨calm, ⟨fd, mine⟩, kind, has⟩ := ok
    refine ⟨trivial, ?_⟩
    simp only [book, mine]
    exact base_setFile base calm mine kind has
  | fileclose f =>
    obtain ⟨calm, mine⟩ := ok
    obtain ⟨live, done⟩ := done
    split at done
    · rename_i more
      obtain ⟨rfl, rfl⟩ := done
      have still : ((s.ftable f).setRef ((s.ftable f).ref - 1)).inode = (s.ftable f).inode := by
        simp only [File.inode, File.setRef, more, true_and]
        simp [show 0 < (s.ftable f).ref by omega]
      refine ⟨fun _ file last => absurd last (Option.some_ne_none file).symm, ?_⟩
      apply base_fileclose base calm mine none _ rfl
      · intro ip
        simp [still, oneOf_none]
      · exact fun _ => ⟨still, rfl⟩
      intro low
      omega
    rename_i more
    obtain ⟨rfl, rfl⟩ := done
    refine ⟨?_, ?_⟩
    · intro fresh file last
      rw [← Option.some.inj last]
      simp [File.inode, (base.files.alloc t f fresh).2]
    apply base_fileclose base calm mine (some (s.ftable f)) (s.ftable f).closed
    · simp only [File.closed]
      omega
    · intro ip
      have shut : (s.ftable f).closed.inode = none := by simp [File.inode, File.closed]
      simp [shut, oneOf_none]
    · intro many
      omega
    · exact fun _ => rfl
  | getFile fd =>
    obtain ⟨rfl, rfl⟩ := done
    refine ⟨?_, ?_⟩
    · intro file found unused
      obtain ⟨f, -, rfl⟩ := Option.map_eq_some_iff.mp found
      exact base.files.closed f unused
    cases slot : s'.ofile t fd with
    | none => exact base_still base (by simp [book])
    | some f =>
      cases inode : (s'.ftable f).inode with
      | none => exact base_still base (by simp [book, inode])
      | some ip =>
        simp only [book, Option.map_some, Option.bind_some, inode]
        exact base_getFile base ok slot inode
  | takeFd fd =>
    obtain ⟨rfl, rfl⟩ := done
    exact ⟨trivial, base_takeFd base ok.1 ok.2.1 ok.2.2⟩
  | ask what =>
    subst done
    exact ⟨trivial, base_still base rfl⟩
  | panic msg => exact done.elim

/- What the invariant says about the inode table. -/

def Hold.empty (cwd : Ip) : Hold := ⟨0, fun _ => ⟨0, .no, false, none⟩, none, fun _ => none, cwd⟩

/-- The state after iinit, with any disk. -/
structure Fresh (s : Shared T) (l : T → Hold) : Prop where
  entries : ∀ ip, (s.entry ip).ref = 0 ∧ (s.entry ip).holder = none
  files : ∀ f, (s.ftable f).ref = 0 ∧ (s.ftable f).type = .none
  slots : ∀ t fd, s.ofile t fd = none
  outstanding : s.outstanding = 0
  ledgers : ∀ t, l t = Hold.empty (s.cwd t)

theorem base_fresh (fresh : Fresh s l) : Base s l := by
  have refs : ∀ ip, fileRefs s.ftable ip = 0 := by
    intro ip
    simp [fileRefs, tally, Finset.sum_apply, File.inode, fresh.files, oneOf_none]
  refine ⟨?_, ?_, ?_, ?_, ?_⟩
  · intro ip jp live
    simp [fresh.entries] at live
  · intro ip
    constructor <;>
      simp [fresh.ledgers, fresh.entries, refs, Hold.empty, Hold.Via]
  · constructor <;>
      simp [fresh.ledgers, fresh.files, fresh.slots, Hold.empty, fileUses, fdsOf]
  · simp [fresh.ledgers, fresh.outstanding, Hold.empty]
  · simp [fresh.ledgers, Hold.empty]

theorem entry_synced (base : Base s l) (live : 0 < (s.entry ip).ref) (valid : (s.entry ip).valid = true)
    (free : (s.entry ip).holder = none) : s.disk (s.entry ip).ino = (s.entry ip).dn := by
  have ok := base.cells ip
  have nobody := cell_free ok free
  rcases ok.synced live valid with wiping | same | ⟨u, dirty⟩
  · obtain ⟨u, held, -⟩ := cell_wiping ok wiping
    simp [nobody u] at held
  · exact same
  have held := ok.dirty u dirty
  simp [nobody u] at held

theorem write_type (base : Base s l) (mine : ((l t).cell ip).held = .loaded)
    (calm : ((l t).cell ip).put = none ∨ ((l t).cell ip).put = some .tested) {size : UInt32}
    {addrs : Fin (nDirect + 1) → UInt32} {es : List Dirent} (i : Ino) :
    (((s.put ip (resized (s.entry ip).dn size addrs)).setEnts (s.entry ip).ino es).disk i).type = (s.disk i).type := by
  have live : 0 < (s.entry ip).ref := live_of_held (t := t) base (by simp [mine])
  have typed := (cell_typed (base.cells ip) mine live calm).2
  by_cases here : i = (s.entry ip).ino
  · subst i
    simp [Shared.put, Shared.setDisk, Shared.setEnts, resized, typed]
  · simp [Shared.put, Shared.setDisk, Shared.setEnts, Shared.setEntry, here]

theorem frees_inode (base : Base s l) {o : Op} {a : Ans o} {s' : Shared T} (ok : allows (l t) o)
    (done : exec t o s a s') (used : (s.disk i).type ≠ 0) (freed : (s'.disk i).type = 0) :
    ∃ ip, o = .iupdate ip ∧ (s.entry ip).ino = i ∧ ((l t).cell ip).put = some .cleared := by
  have same : s'.disk i ≠ s.disk i := by
    intro same
    rw [same] at freed
    exact used freed
  cases o with
  | iupdate ip =>
    subst done
    refine ⟨ip, rfl, ?_⟩
    have here : (s.entry ip).ino = i := by
      by_contra other
      exact same (update_of_ne (Ne.symm other) _ _)
    subst i
    refine ⟨rfl, ?_⟩
    rcases ok.2 with calm | cleared
    · have live : 0 < (s.entry ip).ref := live_of_held (t := t) base (by simp [ok.1])
      have typed := (cell_typed (base.cells ip) ok.1 live (.inl calm)).1
      simp [Shared.setDisk] at freed
      exact absurd freed typed
    · exact cleared
  | write ip es =>
    obtain ⟨size, addrs, rfl⟩ := done
    rw [write_type base ok.2 (.inl (ok.1 ip))] at freed
    exact absurd freed used
  | trunc ip =>
    subst done
    rw [write_type base ok.1 ok.2] at freed
    exact absurd freed used
  | enter dp name inum | clear dp k =>
    obtain ⟨size, addrs, rfl⟩ := done
    rw [write_type base ok.2 (.inl (ok.1 dp))] at freed
    exact absurd freed used
  | claim j type =>
    simp only [exec] at done
    split at done
    · rename_i free
      obtain ⟨-, rfl⟩ := done
      have other : i ≠ j := by
        intro here
        subst j
        exact used free
      exact absurd (update_of_ne other _ _) same
    obtain ⟨-, rfl⟩ := done
    exact absurd rfl same
  | load ip =>
    simp only [exec] at done
    split at done
    · subst done
      exact absurd rfl same
    obtain ⟨-, rfl⟩ := done
    exact absurd rfl same
  | test ip =>
    simp only [exec] at done
    split at done
    · obtain ⟨-, -, rfl⟩ := done
      exact absurd rfl same
    obtain ⟨-, rfl⟩ := done
    exact absurd rfl same
  | filealloc | fdalloc f =>
    simp only [exec] at done
    split at done
    all_goals
      obtain ⟨-, rfl⟩ := done
      exact absurd rfl same
  | fileclose f =>
    obtain ⟨-, done⟩ := done
    split at done
    all_goals
      obtain ⟨-, rfl⟩ := done
      exact absurd rfl same
  | iget i =>
    obtain ⟨e, -, rfl⟩ := done
    exact absurd rfl same
  | lock ip | unlock ip =>
    obtain ⟨-, -, rfl⟩ := done
    exact absurd rfl same
  | look dp name =>
    obtain ⟨-, rfl, -⟩ := done
    exact absurd rfl same
  | beginOp | endOp | idup | store | clearType | expire | drop | setCwd | setFile | ask =>
    subst done
    exact absurd rfl same
  | ident | fields | getCwd | takeFd =>
    obtain ⟨-, rfl⟩ := done
    exact absurd rfl same
  | isdirempty | getFile =>
    obtain ⟨rfl, -⟩ := done
    exact absurd rfl same
  | panic msg => exact done.elim

/-- The inode table, in every state that any interleaving reaches. A process holds what its
    ledger says; it calls iupdate between a change and the iunlock, and drops no reference
    that it does not have. -/
theorem inode_table_agrees {s₀ : Shared T} {l₀ : T → Hold} (fresh : Fresh s₀ l₀)
    {es : List (T × Op)} (run : Runs.Run (OpenStep holdRules) (s₀, l₀) es (s, l)) :
    (∀ ip jp, 0 < (s.entry ip).ref → 0 < (s.entry jp).ref →
      (s.entry ip).ino = (s.entry jp).ino → ip = jp) ∧
    (∀ ip, (s.entry ip).ref = ((∑ t, ((l t).cell ip).refs) + fileRefs s.ftable ip : Nat)) ∧
    (∀ ip, 0 < (s.entry ip).ref → (s.entry ip).valid = true → (s.entry ip).holder = none →
      (s.entry ip).dn = s.disk (s.entry ip).ino) ∧
    -- iput's test
    (∀ t ip, allows (l t) (.test ip) → (s.entry ip).Frees → (s.entry ip).holder = none ∧
      (s.disk (s.entry ip).ino).nlink = 0 ∧ ((l t).cell ip).refs = 1 ∧
      (∀ u, u ≠ t → ((l u).cell ip).refs = 0) ∧ fileRefs s.ftable ip = 0) ∧
    -- an inode goes free on the disk
    (∀ t o z, OpenStep holdRules (s, l) (t, o) z → ∀ i, (s.disk i).type ≠ 0 →
      (z.1.disk i).type = 0 → (s.disk i).nlink = 0 ∧
        ∃ ip, o = .iupdate ip ∧ (s.entry ip).ino = i ∧ ((l t).cell ip).put = some .cleared) := by
  have base : Base s l := open_run base_sound (base_fresh fresh) run
  refine ⟨base.unique, fun ip => (base.cells ip).refs, ?_, ?_, ?_⟩
  · exact fun ip live valid free => (entry_synced base live valid free).symm
  · intro t ip allowed frees
    obtain ⟨-, mine, locked⟩ := allowed
    have free := test_alone base mine locked frees.1
    have count := (base.cells ip).refs
    have part := le_sum (fun u => ((l u).cell ip).refs) t
    have single := frees.1
    refine ⟨free, ?_, by omega, ?_, by omega⟩
    · rw [entry_synced base (by omega) frees.2.1 free]
      exact frees.2.2
    intro u other
    have two := two_le_sum (fun u => ((l u).cell ip).refs) other
    omega
  · rintro t o z ⟨allowed, a, done, -⟩ i used freed
    obtain ⟨ip, rfl, rfl, cleared⟩ := frees_inode base allowed done used freed
    refine ⟨?_, ip, rfl, rfl, cleared⟩
    have phase := ((base.cells ip).put t _ cleared).2
    simpa using phase.2.2.1

end

def freshShared : Shared (Fin 2) where
  outstanding := 0
  entry := fun _ => ⟨⟨0, 0⟩, 0, false, none, blankDinode 0⟩
  disk := fun i => if i = ⟨1, 2⟩ then blankDinode tFile else blankDinode 0
  ents := fun _ => []
  ftable := fun _ => ⟨.none, 0, false, false, 0, 0, 0⟩
  ofile := fun _ _ => none
  cwd := fun _ => 0

def readIn : List (Fin 2 × Op) := [(0, .iget ⟨1, 2⟩), (0, .lock 0), (0, .load 0), (0, .unlock 0)]

def afterRead : Shared (Fin 2) × (Fin 2 → Hold) :=
  Runs.after (openNext holdRules next) (freshShared, fun _ => Hold.empty 0) readIn

theorem inode_table_agrees_read : allows (afterRead.2 0) (.test 0) ∧ (afterRead.1.entry 0).Frees ∧
    (afterRead.1.entry 0).holder = none ∧ (afterRead.1.disk (afterRead.1.entry 0).ino).nlink = 0 := by
  have fresh : Fresh freshShared (fun _ => Hold.empty 0) :=
    ⟨fun _ => ⟨rfl, rfl⟩, fun _ => ⟨rfl, rfl⟩, fun _ _ => rfl, rfl, fun _ => rfl⟩
  have run : Runs.Run (OpenStep holdRules) (freshShared, fun _ => Hold.empty 0) readIn afterRead :=
    Runs.run_after (openNext_step next_exec) (by decide +kernel)
  obtain ⟨-, -, -, test, -⟩ := inode_table_agrees fresh run
  have allowed : allows (afterRead.2 0) (.test 0) := by decide +kernel
  have frees : (afterRead.1.entry 0).Frees := by decide +kernel
  obtain ⟨free, unlinked, -⟩ := test 0 0 allowed frees
  exact ⟨allowed, frees, free, unlinked⟩

end Xv6Conc
