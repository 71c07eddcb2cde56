import Xv6.InodeShare

/- The order in which processes take inode locks: a directory before the directories that it
   names. A ledger also says what a process knows about the inodes it refers to, and the
   directories have ranks that grow from a directory to those below it. -/
namespace Xv6Conc
open Xv6 Xv6Fs Threads Function
set_option linter.unusedSectionVars false

/-- "." and "..", as sys_unlink tests for them. -/
def Dots (name : List UInt8) : Prop := namecmp name dot = 0 ∨ namecmp name dotdot = 0

instance (name : List UInt8) : Decidable (Dots name) := inferInstanceAs (Decidable (_ ∨ _))

theorem dots_congr {name other : List UInt8} (same : cname name = cname other) : Dots name ↔ Dots other := by
  simp only [Dots, namecmp_eq_zero, same]

inductive Kind where
  | unknown | dir | leaf
  deriving DecidableEq

def Kind.Fits : Kind → UInt16 → Prop
  | .unknown, _ => True
  | .dir, type => type = tDir
  | .leaf, type => type ≠ tDir ∧ type ≠ 0

def kindOf (type : UInt16) : Kind := if type = tDir then .dir else .leaf

/-- What a process knows: the inode of an entry, and its kind; that a directory which it has
    locked names an inode, or is older; and the inode that its ialloc has just taken. -/
structure Know where
  ino : Ip → Option Ino
  kind : Ip → Kind
  seen : Ip → Ino → Prop
  fresh : Option (Ino × UInt16)

namespace Know

def nothing : Know := ⟨fun _ => none, fun _ => .unknown, fun _ _ => False, none⟩

def setIno (k : Know) (ip : Ip) (i : Option Ino) : Know := { k with ino := Function.update k.ino ip i }

def setKind (k : Know) (ip : Ip) (kind : Kind) : Know :=
  { k with kind := Function.update k.kind ip kind }

def setSeen (k : Know) (seen : Ip → Ino → Prop) : Know := { k with seen := seen }

def setFresh (k : Know) (fresh : Option (Ino × UInt16)) : Know := { k with fresh := fresh }

def Allows (h : Hold) (k : Know) : Op → Prop
  | .iget i => i.inum < 0x10000
  | .lock ip => ∀ dp, (h.cell dp).held ≠ .no → ∃ i, k.ino ip = some i ∧ k.seen dp i
  | .enter dp name inum => Dots name ∨ inum < 0x10000 ∧ ∃ d, k.ino dp = some d ∧
    (k.seen dp ⟨d.dev, inum⟩ ∨ ∃ ip, k.ino ip = some ⟨d.dev, inum⟩ ∧ k.kind ip = .leaf)
  | .write ip _ => k.kind ip = .leaf
  | .setFile _ file => file.writable = true → k.kind file.ip = .leaf
  | _ => True

def Fits (k : Know) : (o : Op) → Ans o → Prop
  | .ident ip, i => (i : Ino).inum < 0x10000 ∧ ∀ j, k.ino ip = some j → i = j
  | .fields ip, dn => (k.kind ip).Fits (dn : Dinode).type
  | .look _ _, found => ∀ e : Ino × Nat, found = some e → e.1.inum < 0x10000
  | _, _ => True

def book (h : Hold) (k : Know) : (o : Op) → Ans o → Know
  | .iget i, ip => k.setIno ip (some i)
  | .ident ip, i => k.setIno ip (some i)
  | .fields ip, dn => k.setKind ip (kindOf (dn : Dinode).type)
  | .load ip, _ => match k.fresh with
    | some (i, type) =>
      if k.ino ip = some i then (k.setKind ip (kindOf type)).setFresh none else k
    | none => k
  | .unlock ip, _ => k.setSeen fun dp i => k.seen dp i ∧ dp ≠ ip
  | .look dp name, found => match found with
    | some (i, _) => (k.setKind dp .dir).setSeen fun d j => k.seen d j ∨ ¬ Dots name ∧ d = dp ∧ j = i
    | none => k.setKind dp .dir
  | .claim i type, true => (k.setSeen fun d j => k.seen d j ∨
      (j = i ∧ k.kind d = .dir ∧ (h.cell d).held = .loaded)).setFresh (some (i, type))
  | .test ip, _ => (k.setIno ip none).setKind ip .unknown
  | .drop ip, _ => (k.setIno ip none).setKind ip .unknown
  | .getFile _, some file =>
    if (file : File).type = .inode ∧ file.writable = true then k.setKind file.ip .leaf else k
  | .takeFd _, _ => { k with ino := fun _ => none, kind := fun _ => .unknown }
  | _, _ => k

end Know

section
variable {T : Type} [Fintype T] [DecidableEq T]
variable {h : Hold} {x : Cell} {f : Fin nFile} {e : Entry T} {name : List UInt8}

/-- What processes may do, where a strict rule also looks at what they know. -/
def callRules (strict : Prop) : Rules T Op Ans (Shared T) (Hold × Know) where
  exec := exec
  allows := fun _ o l => allows l.1 o ∧ (strict → l.2.Allows l.1 o)
  fits := fun _ o l a => fits l.1 o a ∧ (strict → l.2.Fits o a)
  book := fun _ o l a => (book l.1 o a, l.2.book l.1 o a)

/-- Directory d has an entry, other than "." and "..", for directory j. -/
def Edge (s : Shared T) (d j : Ino) : Prop :=
  (s.disk d).type = tDir ∧ (s.disk j).type = tDir ∧
    ∃ e ∈ s.ents d, e.inum ≠ 0 ∧ ¬ Dots e.name ∧ j = ⟨d.dev, e.inum.toNat⟩

def Shared.typeOf (s : Shared T) (ip : Ip) : UInt16 := (s.disk (s.entry ip).ino).type

/-- An iput that has not come to freeing the inode, or has done with it. -/
def Settled (put : Option Put) : Prop := put = none ∨ put = some .expired

def Steady (l : T → Hold × Know) (ip : Ip) : Prop := ∀ u, Settled ((l u).1.cell ip).put

def SeenOk (s : Shared T) (rank : Ino → Nat) (h : Hold) (dp : Ip) (i : Ino) : Prop :=
  (h.cell dp).held = .loaded ∧ (h.cell dp).put = none ∧ s.typeOf dp = tDir ∧
    ((s.disk i).type = tDir → rank (s.entry dp).ino < rank i)

def InoOk (s : Shared T) (h : Hold) (ip : Ip) (i : Ino) : Prop :=
  h.Has ip ∧ (s.entry ip).ino = i

def KindOk (s : Shared T) (l : T → Hold × Know) (h : Hold) (ip : Ip) (kind : Kind) : Prop :=
  kind ≠ .unknown → h.Has ip ∧ Steady l ip ∧ kind.Fits (s.typeOf ip)

def Writes (file : File) (ip : Ip) : Prop :=
  file.inode = some ip ∧ file.type = .inode ∧ file.writable = true

structure Order (s : Shared T) (l : T → Hold × Know) (rank : Ino → Nat) (b : Nat) : Prop where
  small : ∀ ip, 0 < (s.entry ip).ref → (s.entry ip).ino.inum < 0x10000
  bound : ∀ i, rank i ≤ b
  edges : ∀ d j, Edge s d j → rank d < rank j
  seen : ∀ t dp i, (l t).2.seen dp i → SeenOk s rank (l t).1 dp i
  ino : ∀ t ip i, (l t).2.ino ip = some i → InoOk s (l t).1 ip i
  kind : ∀ t ip, KindOk s l (l t).1 ip ((l t).2.kind ip)
  files : ∀ f ip, Writes (s.ftable f) ip → Steady l ip ∧ Kind.leaf.Fits (s.typeOf ip)

structure Ranked (s : Shared T) (l : T → Hold × Know) : Prop where
  base : Base s fun t => (l t).1
  order : ∃ rank b, Order s l rank b

variable {s s' : Shared T} {l : T → Hold × Know} {rank : Ino → Nat} {b : Nat} {t : T}

theorem holds_update (x : Hold × Know) : (fun u => (update l t x u).1) = update (fun u => (l u).1) t x.1 := by
  funext u
  by_cases mine : u = t
  · subst u
    simp
  · simp [mine]

theorem live_has (base : Base s fun t => (l t).1) {ip : Ip} (has : (l t).1.Has ip) : 0 < (s.entry ip).ref :=
  live_of_has (l := fun t => (l t).1) base has

theorem live_loaded (base : Base s fun t => (l t).1) {ip : Ip}
    (mine : ((l t).1.cell ip).held = .loaded) : 0 < (s.entry ip).ref :=
  live_of_held (l := fun t => (l t).1) (t := t) base (by simp [mine])

theorem live_of_file (base : Base s fun t => (l t).1) {ip : Ip}
    (inode : (s.ftable f).inode = some ip) : 0 < (s.entry ip).ref := by
  have count := (base.cells ip).refs
  have file := fileRefs_pos inode
  omega

def Unused (s : Shared T) (l : T → Hold × Know) (ip : Ip) : Prop :=
  (∀ u, (l u).2.kind ip = .unknown) ∧ ∀ f, ¬ Writes (s.ftable f) ip

section
omit [Fintype T] [DecidableEq T]

theorem edge_mono {d j : Ino} (types : ∀ i, (s'.disk i).type = tDir → (s.disk i).type = tDir)
    (ents : (s'.disk d).type = tDir → ∀ e ∈ s'.ents d, e.inum ≠ 0 → e ∈ s.ents d)
    (edge : Edge s' d j) : Edge s d j := by
  obtain ⟨dir, below, e, entry, used, name, rfl⟩ := edge
  exact ⟨types d dir, types _ below, e, ents dir e entry used, used, name, rfl⟩

/-- A state with the same inodes, types and directories, and no new file to write to. -/
structure SameFs (s s' : Shared T) : Prop where
  inos : ∀ ip, (s'.entry ip).ino = (s.entry ip).ino
  refs : ∀ ip, 0 < (s'.entry ip).ref → 0 < (s.entry ip).ref
  types : ∀ i, (s'.disk i).type = (s.disk i).type
  ents : ∀ d, ∀ e ∈ s'.ents d, e.inum ≠ 0 → e ∈ s.ents d
  files : ∀ f ip, Writes (s'.ftable f) ip → Writes (s.ftable f) ip

theorem sameFs_of_eq (entry : s'.entry = s.entry) (disk : s'.disk = s.disk)
    (ents : s'.ents = s.ents) (files : s'.ftable = s.ftable) : SameFs s s' := by
  refine ⟨?_, ?_, ?_, ?_, ?_⟩ <;> simp [entry, disk, ents, files]
  exact fun _ _ there _ => there

theorem sameFs_refl : SameFs s s := sameFs_of_eq rfl rfl rfl rfl

theorem sameFs_setFile {file : File} (old : ∀ ip, Writes file ip → Writes (s.ftable f) ip) :
    SameFs s (s.setFile f file) := by
  refine ⟨fun _ => rfl, fun _ => id, fun _ => rfl, fun _ _ there _ => there, ?_⟩
  intro g ip writes
  by_cases here : g = f
  · subst g
    exact old ip (by simpa [Shared.setFile] using writes)
  · simpa [Shared.setFile, here] using writes

theorem sameFs_setEntry {ip : Ip} (ino : e.ino = (s.entry ip).ino)
    (ref : 0 < e.ref → 0 < (s.entry ip).ref) : SameFs s (s.setEntry ip e) := by
  refine ⟨?_, ?_, fun _ => rfl, fun _ _ there _ => there, fun _ _ => id⟩
  · intro jp
    by_cases same : jp = ip
    · subst jp
      simpa [Shared.setEntry] using ino
    · simp [Shared.setEntry, same]
  intro jp
  by_cases same : jp = ip
  · subst jp
    simpa [Shared.setEntry] using ref
  · simp [Shared.setEntry, same]

theorem has_setCell {ip jp : Ip} (refs : 0 < (h.cell ip).refs → 0 < x.refs)
    (has : h.Has jp) : (h.setCell ip x).Has jp := by
  rcases has with mine | file
  · refine .inl ?_
    by_cases here : jp = ip
    · subst jp
      simpa [Hold.setCell] using refs mine
    · simpa [Hold.setCell, here] using mine
  · exact .inr file

/-- What a process counts on stays when it has h' instead of h. -/
structure Keeps (h h' : Hold) : Prop where
  puts : ∀ ip, Settled (h.cell ip).put → Settled (h'.cell ip).put
  seen : ∀ ip, (h.cell ip).held = .loaded → (h.cell ip).put = none →
    (h'.cell ip).held = .loaded ∧ (h'.cell ip).put = none
  has : ∀ ip, h.Has ip → h'.Has ip

theorem keeps_of_eq {h' : Hold} (cell : h'.cell = h.cell) (files : h'.files = h.files) : Keeps h h' := by
  refine ⟨?_, ?_, ?_⟩ <;> simp only [cell, files, Hold.Has, Hold.Via]
  · exact fun _ => id
  · exact fun _ => And.intro
  · exact fun _ => id

theorem settled_cell {ip jp : Ip} (put : Settled (h.cell ip).put → Settled x.put)
    (settled : Settled (h.cell jp).put) : Settled ((h.setCell ip x).cell jp).put := by
  by_cases here : jp = ip
  · subst jp
    simpa [Hold.setCell] using put settled
  · simpa [Hold.setCell, here] using settled

theorem seen_cell {ip jp : Ip}
    (seen : (h.cell ip).held = .loaded → (h.cell ip).put = none → x.held = .loaded ∧ x.put = none)
    (held : (h.cell jp).held = .loaded) (put : (h.cell jp).put = none) :
    ((h.setCell ip x).cell jp).held = .loaded ∧ ((h.setCell ip x).cell jp).put = none := by
  by_cases here : jp = ip
  · subst jp
    simpa [Hold.setCell] using seen held put
  · simpa [Hold.setCell, here] using ⟨held, put⟩

theorem keeps_cell {ip : Ip} (put : Settled (h.cell ip).put → Settled x.put)
    (seen : (h.cell ip).held = .loaded → (h.cell ip).put = none → x.held = .loaded ∧ x.put = none)
    (refs : 0 < (h.cell ip).refs → 0 < x.refs) : Keeps h (h.setCell ip x) :=
  ⟨fun _ => settled_cell put, fun _ => seen_cell seen, fun _ => has_setCell refs⟩

theorem kindOf_fits {type : UInt16} (used : type ≠ 0) : (kindOf type).Fits type := by
  unfold kindOf
  split
  · rename_i dir
    exact dir
  rename_i leaf
  exact ⟨leaf, used⟩

theorem findEnt_spec {es : List Dirent} {inum : UInt16} {k : Nat} (found : findEnt name es = some (inum, k)) :
    ∃ e ∈ es, e.inum ≠ 0 ∧ namecmp name e.name = 0 ∧ e.inum = inum := by
  obtain ⟨⟨e, j⟩, there, same⟩ := Option.map_eq_some_iff.mp found
  have is := List.find?_some there
  have mem := List.mem_of_find?_eq_some there
  obtain ⟨rfl, -⟩ := Prod.mk.inj same
  simp only [decide_eq_true_eq] at is
  exact ⟨e, (List.mem_zipIdx' mem).2 ▸ List.getElem_mem _, is.1, is.2, rfl⟩

theorem mem_putEnt {es : List Dirent} {de e : Dirent} (there : e ∈ putEnt es de) : e ∈ es ∨ e = de := by
  unfold putEnt at there
  split at there
  · exact List.mem_or_eq_of_mem_set there
  rcases List.mem_append.mp there with old | new
  · exact .inl old
  · exact .inr (List.mem_singleton.mp new)

end

theorem steady_of_held (base : Base s fun t => (l t).1) {ip : Ip}
    (mine : ((l t).1.cell ip).held ≠ .no) (calm : Settled ((l t).1.cell ip).put) : Steady l ip := by
  intro u
  cases phase : ((l u).1.cell ip).put with
  | none => exact .inl rfl
  | some p =>
    have held := ((base.cells ip).put u p phase).2
    by_cases last : p = .expired
    · exact .inr (congrArg some last)
    rw [if_neg last] at held
    have same := cell_alone (base.cells ip) (t := t) (u := u) mine (by simp [held.1])
    rwa [same, phase] at calm

/-- The guard of strict rules: create locks the inode that its ialloc has taken while that
    still has the type that ialloc gave it. -/
def KeepsType (s : Shared T) (l : T → Hold × Know) (t : T) : Op → Prop
  | .load ip => ∀ i type, (l t).2.fresh = some (i, type) → (s.entry ip).ino = i → s.typeOf ip = type
  | _ => True

theorem order_claim (order : Order s l rank b) {i : Ino} {type : UInt16} (free : (s.disk i).type = 0)
    (calm : (l t).1.Calm) : Order ((s.setDisk i (blankDinode type)).setEnts i []) (update l t ((l t).1,
      (l t).2.book (l t).1 (.claim i type) true)) (update rank i (b + 1)) (b + 1) := by
  have other : ∀ {j : Ino}, (s.disk j).type ≠ 0 → j ≠ i := by
    rintro j used rfl
    exact used free
  have kept : ∀ {ip : Ip}, s.typeOf ip ≠ 0 →
      ((s.setDisk i (blankDinode type)).setEnts i []).typeOf ip = s.typeOf ip := by
    intro ip used
    simp [Shared.typeOf, Shared.setDisk, Shared.setEnts, other used]
  have dir_used : (tDir : UInt16) ≠ 0 := by decide
  have holds : ∀ u, (update l t ((l t).1, (l t).2.book (l t).1 (.claim i type) true) u).1 = (l u).1 := by
    intro u
    by_cases mine : u = t
    · subst u
      simp
    · simp [mine]
  have kinds : ∀ u, (update l t ((l t).1, (l t).2.book (l t).1 (.claim i type) true) u).2.kind = (l u).2.kind := by
    intro u
    by_cases mine : u = t
    · subst u
      simp [Know.book, Know.setSeen, Know.setFresh]
    · simp [mine]
  have steady : ∀ ip, Steady l ip → Steady (update l t ((l t).1, (l t).2.book (l t).1 (.claim i type) true)) ip := by
    intro ip steady u
    rw [holds]
    exact steady u
  have fits : ∀ {kind : Kind} {ip : Ip}, kind ≠ .unknown → kind.Fits (s.typeOf ip) → s.typeOf ip ≠ 0 := by
    rintro (_ | _ | _) ip known fits
    · exact absurd rfl known
    · exact fun free => dir_used (fits.symm.trans free)
    · exact fits.2
  have above : ∀ {d j : Ino}, (s.disk d).type = tDir → (j ≠ i → rank d < rank j) →
      update rank i (b + 1) d < update rank i (b + 1) j := by
    intro d j dir below
    rw [update_of_ne (other (by rw [dir]; exact dir_used))]
    by_cases new : j = i
    · subst j
      rw [update_self]
      have bound := order.bound d
      omega
    rw [update_of_ne new]
    exact below new
  refine ⟨order.small, ?_, ?_, ?_, ?_, ?_, ?_⟩
  · intro j
    by_cases new : j = i
    · subst j
      simp
    rw [update_of_ne new]
    have bound := order.bound j
    omega
  · rintro d j ⟨dir, below, e, there, used, name, rfl⟩
    have old : d ≠ i := by
      rintro rfl
      simp [Shared.setEnts] at there
    simp only [Shared.setEnts, Shared.setDisk, update_of_ne old] at dir there
    apply above dir
    intro same
    simp only [Shared.setEnts, Shared.setDisk, update_of_ne same] at below
    exact order.edges _ _ ⟨dir, below, e, there, used, name, rfl⟩
  · intro u dp j known
    have ok : ((l u).1.cell dp).held = .loaded ∧ ((l u).1.cell dp).put = none ∧
        s.typeOf dp = tDir ∧ (j ≠ i → (s.disk j).type = tDir → rank (s.entry dp).ino < rank j) := by
      by_cases mine : u = t
      · subst u
        simp only [update_self] at known
        rcases known with old | ⟨rfl, dir, held⟩
        · have ok := order.seen t dp j old
          exact ⟨ok.1, ok.2.1, ok.2.2.1, fun _ => ok.2.2.2⟩
        have ok := order.kind t dp (by simp [dir])
        rw [dir] at ok
        exact ⟨held, calm dp, ok.2.2, fun new => absurd rfl new⟩
      simp only [update_of_ne mine] at known
      have ok := order.seen u dp j known
      exact ⟨ok.1, ok.2.1, ok.2.2.1, fun _ => ok.2.2.2⟩
    obtain ⟨held, put, dir, below⟩ := ok
    rw [SeenOk, holds]
    refine ⟨held, put, ?_, ?_⟩
    · exact (kept (by rw [dir]; exact dir_used)).trans dir
    intro deeper
    apply above dir
    intro new
    apply below new
    simpa [Shared.setDisk, Shared.setEnts, new] using deeper
  · intro u ip j known
    rw [InoOk, holds]
    apply order.ino u ip j
    by_cases mine : u = t
    · subst u
      simpa [Know.book, Know.setSeen, Know.setFresh] using known
    · simpa [mine] using known
  · intro u ip known
    rw [kinds] at known ⊢
    have ok := order.kind u ip known
    rw [holds]
    refine ⟨ok.1, steady ip ok.2.1, ?_⟩
    rw [kept (fits known ok.2.2)]
    exact ok.2.2
  intro f ip writes
  have ok := order.files f ip writes
  refine ⟨steady ip ok.1, ?_⟩
  rw [kept ok.2.2]
  exact ok.2

section
variable (base : Base s fun t => (l t).1) (order : Order s l rank b)
include base order

theorem files_live {ip : Ip} (writes : Writes (s.ftable f) ip) :
    0 < (s.entry ip).ref ∧ Steady l ip ∧ Kind.leaf.Fits (s.typeOf ip) :=
  ⟨live_of_file base writes.1, order.files f ip writes⟩

theorem order_step (s' : Shared T) {k : Know} (inos : ∀ ip, 0 < (s.entry ip).ref → (s'.entry ip).ino = (s.entry ip).ino)
    (small : ∀ ip, 0 < (s'.entry ip).ref → (s'.entry ip).ino.inum < 0x10000)
    (types : ∀ i, (s'.disk i).type = (s.disk i).type ∨ (s'.disk i).type = 0 ∧
      ∃ ip, 0 < (s.entry ip).ref ∧ (s.entry ip).ino = i ∧ ((l t).1.cell ip).put = some .cleared)
    (puts : ∀ ip, Settled ((l t).1.cell ip).put → Settled (h.cell ip).put ∨ Unused s' (update l t (h, k)) ip)
    (edges : ∀ d j, Edge s' d j → rank d < rank j)
    (seen : ∀ dp i, k.seen dp i → 0 < (s.entry dp).ref ∧ SeenOk s rank h dp i ∧ ((l t).1.cell dp).put ≠ some .cleared)
    (ino : ∀ ip i, k.ino ip = some i → InoOk s' h ip i) (kind : ∀ ip, k.kind ip ≠ .unknown →
      0 < (s.entry ip).ref ∧ h.Has ip ∧ Steady l ip ∧ (k.kind ip).Fits (s.typeOf ip))
    (files : ∀ f ip, Writes (s'.ftable f) ip → 0 < (s.entry ip).ref ∧ Steady l ip ∧ Kind.leaf.Fits (s.typeOf ip)) :
    Order s' (update l t (h, k)) rank b := by
  have steady : ∀ ip, Steady l ip → ¬ Unused s' (update l t (h, k)) ip → Steady (update l t (h, k)) ip := by
    intro ip steady used u
    by_cases mine : u = t
    · subst u
      simpa using (puts ip (steady t)).resolve_right used
    · simpa [mine] using steady u
  -- an inode loses its type only while its entry is in the hands of an iput
  have type : ∀ ip, 0 < (s.entry ip).ref → ((l t).1.cell ip).put ≠ some .cleared → s'.typeOf ip = s.typeOf ip := by
    intro ip live calm
    simp only [Shared.typeOf, inos ip live]
    rcases types (s.entry ip).ino with same | ⟨-, jp, other, here, cleared⟩
    · exact same
    rw [base.unique jp ip other live here] at cleared
    exact absurd cleared calm
  have untouched : ∀ ip, Steady l ip → ((l t).1.cell ip).put ≠ some .cleared := by
    intro ip steady cleared
    have settled := steady t
    simp [Settled, cleared] at settled
  have below : ∀ i, (s'.disk i).type = tDir → (s.disk i).type = tDir := by
    intro i dir
    rcases types i with same | ⟨freed, -⟩
    · rwa [same] at dir
    rw [freed] at dir
    exact absurd dir (by decide)
  refine ⟨small, order.bound, edges, ?_, ?_, ?_, ?_⟩
  · intro u dp i known
    have old : 0 < (s.entry dp).ref ∧ SeenOk s rank (update l t (h, k) u).1 dp i ∧
        ((l t).1.cell dp).put ≠ some .cleared := by
      by_cases mine : u = t
      · subst u
        simpa using seen dp i (by simpa using known)
      simp only [update_of_ne mine] at known ⊢
      have ok := order.seen u dp i known
      refine ⟨live_loaded base ok.1, ok, ?_⟩
      intro cleared
      have mine := ((base.cells dp).put t _ cleared).2
      have alone := cell_alone (base.cells dp) (t := t) (u := u)
        (by simp at mine; simp [mine]) (by simp [ok.1])
      exact absurd alone.symm (by assumption)
    obtain ⟨live, ⟨held, put, dir, order⟩, calm⟩ := old
    refine ⟨held, put, (type dp live calm).trans dir, ?_⟩
    intro deeper
    rw [inos dp live]
    exact order (below i deeper)
  · intro u ip i known
    by_cases mine : u = t
    · subst u
      simpa using ino ip i (by simpa using known)
    simp only [update_of_ne mine] at known ⊢
    obtain ⟨has, same⟩ := order.ino u ip i known
    exact ⟨has, (inos ip (live_has base has)).trans same⟩
  · intro u ip known
    have used : ¬ Unused s' (update l t (h, k)) ip := fun unused => known (unused.1 u)
    have old : 0 < (s.entry ip).ref ∧ (update l t (h, k) u).1.Has ip ∧ Steady l ip ∧
        ((update l t (h, k) u).2.kind ip).Fits (s.typeOf ip) := by
      by_cases mine : u = t
      · subst u
        simpa using kind ip (by simpa using known)
      simp only [update_of_ne mine] at known ⊢
      have ok := order.kind u ip known
      exact ⟨live_has base ok.1, ok⟩
    obtain ⟨live, has, still, fits⟩ := old
    rw [← type ip live (untouched ip still)] at fits
    exact ⟨has, steady ip still used, fits⟩
  intro f ip writes
  have used : ¬ Unused s' (update l t (h, k)) ip := fun unused => unused.2 f writes
  obtain ⟨live, still, fits⟩ := files f ip writes
  rw [← type ip live (untouched ip still)] at fits
  exact ⟨steady ip still used, fits⟩

theorem order_learns {k : Know} (same : SameFs s s')
    (puts : ∀ ip, Settled ((l t).1.cell ip).put → Settled (h.cell ip).put ∨ Unused s' (update l t (h, k)) ip)
    (seen : ∀ dp i, k.seen dp i → (h.cell dp).held = .loaded ∧ (h.cell dp).put = none ∧
      ((l t).1.cell dp).put ≠ some .cleared ∧ ((l t).2.seen dp i ∨ 0 < (s.entry dp).ref ∧ s.typeOf dp = tDir ∧
          ((s.disk i).type = tDir → rank (s.entry dp).ino < rank i))) (ino : ∀ ip i, k.ino ip = some i → InoOk s h ip i)
    (kind : ∀ ip, k.kind ip ≠ .unknown → h.Has ip ∧ (k.kind ip = (l t).2.kind ip ∨
      0 < (s.entry ip).ref ∧ Steady l ip ∧ (k.kind ip).Fits (s.typeOf ip))) : Order s' (update l t (h, k)) rank b := by
  apply order_step base order s' (fun ip _ => same.inos ip) _ (fun i => .inl (same.types i)) puts
  · intro d j edge
    exact order.edges d j (edge_mono (fun i dir => same.types i ▸ dir) (fun _ => same.ents d) edge)
  · intro dp i known
    obtain ⟨held, put, calm, right⟩ := seen dp i known
    rcases right with old | ⟨live, new⟩
    · have ok := order.seen t dp i old
      exact ⟨live_loaded base ok.1, ⟨held, put, ok.2.2⟩, calm⟩
    · exact ⟨live, ⟨held, put, new⟩, calm⟩
  · intro ip i known
    have ok := ino ip i known
    exact ⟨ok.1, (same.inos ip).trans ok.2⟩
  · intro ip known
    obtain ⟨has, right⟩ := kind ip known
    rcases right with old | ⟨live, new⟩
    · rw [old] at known ⊢
      have ok := order.kind t ip known
      exact ⟨live_has base ok.1, has, ok.2⟩
    · exact ⟨live, has, new⟩
  · intro f ip writes
    have old := same.files f ip writes
    exact ⟨live_of_file base old.1, order.files f ip old⟩
  intro ip live
  rw [same.inos]
  exact order.small ip (same.refs ip live)

theorem order_keeps (s' : Shared T) {k : Know}
    (inos : ∀ ip, 0 < (s.entry ip).ref → (s'.entry ip).ino = (s.entry ip).ino)
    (small : ∀ ip, 0 < (s'.entry ip).ref → (s'.entry ip).ino.inum < 0x10000)
    (types : ∀ i, (s'.disk i).type = (s.disk i).type ∨ (s'.disk i).type = 0 ∧
      ∃ ip, 0 < (s.entry ip).ref ∧ (s.entry ip).ino = i ∧ ((l t).1.cell ip).put = some .cleared)
    (edges : ∀ d j, Edge s' d j → rank d < rank j) (files : ∀ f ip, Writes (s'.ftable f) ip →
      0 < (s.entry ip).ref ∧ Steady l ip ∧ Kind.leaf.Fits (s.typeOf ip))
    (keeps : Keeps (l t).1 h) (seen : k.seen = (l t).2.seen) (kind : k.kind = (l t).2.kind)
    (ino : ∀ ip i, k.ino ip = some i → (l t).2.ino ip = some i ∨ InoOk s' h ip i) :
    Order s' (update l t (h, k)) rank b := by
  apply order_step base order s' inos small types (fun ip settled => .inl (keeps.puts ip settled)) edges
  · intro dp i known
    rw [seen] at known
    obtain ⟨held, put, ok⟩ := order.seen t dp i known
    obtain ⟨held', put'⟩ := keeps.seen dp held put
    exact ⟨live_loaded base held, ⟨held', put', ok⟩, by simp [put]⟩
  · intro ip i known
    rcases ino ip i known with old | new
    · have ok := order.ino t ip i old
      exact ⟨keeps.has ip ok.1, (inos ip (live_has base ok.1)).trans ok.2⟩
    · exact new
  · intro ip known
    rw [kind] at known ⊢
    have ok := order.kind t ip known
    exact ⟨live_has base ok.1, keeps.has ip ok.1, ok.2⟩
  · exact files

theorem order_same (same : SameFs s s') (keeps : Keeps (l t).1 h) : Order s' (update l t (h, (l t).2)) rank b := by
  apply order_keeps base order s' (fun ip _ => same.inos ip) _ (fun i => .inl (same.types i)) _ _ keeps
    rfl rfl (fun _ _ => .inl)
  · intro ip live
    rw [same.inos]
    exact order.small ip (same.refs ip live)
  · intro d j edge
    exact order.edges d j (edge_mono (fun i dir => same.types i ▸ dir) (fun _ => same.ents d) edge)
  · exact fun f ip writes => files_live base order (same.files f ip writes)

/- One operation after the other. -/

theorem order_unlock {ip : Ip} (ino : e.ino = (s.entry ip).ino) (ref : 0 < e.ref → 0 < (s.entry ip).ref) :
    Order (s.setEntry ip e) (update l t ((l t).1.setCell ip (((l t).1.cell ip).setHeld .no),
        (l t).2.setSeen fun dp i => (l t).2.seen dp i ∧ dp ≠ ip)) rank b := by
  apply order_learns base order (sameFs_setEntry ino ref)
  · exact fun jp settled => .inl (settled_cell id settled)
  · rintro dp i ⟨known, other⟩
    have ok := order.seen t dp i known
    simp only [Hold.setCell, update_of_ne other]
    exact ⟨ok.1, ok.2.1, by simp [ok.2.1], .inl known⟩
  · intro jp i known
    have ok := order.ino t jp i known
    exact ⟨has_setCell id ok.1, ok.2⟩
  · exact fun jp known => ⟨has_setCell id (order.kind t jp known).1, .inl rfl⟩

theorem order_knows (ip : Ip) {k : Know}
    (ino : k.ino = (l t).2.ino ∨ (l t).1.Has ip ∧ k.ino = update (l t).2.ino ip (some (s.entry ip).ino))
    (seen : ∀ dp i, k.seen dp i → (l t).2.seen dp i ∨ ((l t).1.cell dp).held = .loaded ∧
      ((l t).1.cell dp).put = none ∧ s.typeOf dp = tDir ∧ ((s.disk i).type = tDir → rank (s.entry dp).ino < rank i))
    (kind : k.kind = (l t).2.kind ∨ ∃ new, (l t).1.Has ip ∧ Steady l ip ∧ new.Fits (s.typeOf ip) ∧
      k.kind = update (l t).2.kind ip new) : Order s (update l t ((l t).1, k)) rank b := by
  apply order_learns base order sameFs_refl (fun _ settled => .inl settled)
  · intro dp i known
    rcases seen dp i known with old | ⟨held, put, dir, below⟩
    · have ok := order.seen t dp i old
      exact ⟨ok.1, ok.2.1, by simp [ok.2.1], .inl old⟩
    exact ⟨held, put, by simp [put], .inr ⟨live_loaded base held, dir, below⟩⟩
  · intro jp i known
    rcases ino with same | ⟨has, new⟩
    · rw [same] at known
      exact order.ino t jp i known
    rw [new] at known
    by_cases here : jp = ip
    · subst jp
      exact ⟨has, by simpa using known⟩
    rw [update_of_ne here] at known
    exact order.ino t jp i known
  intro jp known
  rcases kind with same | ⟨new, has, steady, fits, learned⟩
  · rw [same] at known ⊢
    exact ⟨(order.kind t jp known).1, .inl rfl⟩
  rw [learned] at known ⊢
  by_cases here : jp = ip
  · subst jp
    simp only [update_self]
    exact ⟨has, .inr ⟨live_has base has, steady, fits⟩⟩
  rw [update_of_ne here] at known ⊢
  exact ⟨(order.kind t jp known).1, .inl rfl⟩

theorem order_look {dp : Ip} (calm : ((l t).1.cell dp).put = none) (mine : ((l t).1.cell dp).held = .loaded)
    (dir : (s.entry dp).dn.type = tDir) : Order s (update l t ((l t).1, (l t).2.book (l t).1 (.look dp name)
      ((findEnt name (s.ents (s.entry dp).ino)).map fun e =>
        (⟨(s.entry dp).ino.dev, e.1.toNat⟩, e.2)))) rank b := by
  have live : 0 < (s.entry dp).ref := live_loaded base mine
  have type : s.typeOf dp = tDir := (cell_typed (base.cells dp) mine live (.inl calm)).2.trans dir
  have has := (base.cells dp).has t (by simp [mine])
  have steady : Steady l dp := steady_of_held (t := t) base (by simp [mine]) (.inl calm)
  cases found : findEnt name (s.ents (s.entry dp).ino) with
  | none =>
    exact order_knows base order dp (.inl rfl) (fun _ _ => .inl) (.inr ⟨.dir, has, steady, type, rfl⟩)
  | some e =>
    obtain ⟨inum, k⟩ := e
    refine order_knows base order dp (.inl ?_) ?_ (.inr ⟨.dir, has, steady, type, ?_⟩)
    · rfl
    · rintro d j (old | ⟨name_ok, rfl, rfl⟩)
      · exact .inl old
      refine .inr ⟨mine, calm, type, ?_⟩
      intro below
      obtain ⟨e, there, used, named, rfl⟩ := findEnt_spec found
      apply order.edges
      exact ⟨type, below, e, there, used,
        fun dots => name_ok ((dots_congr ((namecmp_eq_zero _ _).mp named)).mpr dots), rfl⟩
    · rfl

theorem order_forget {ip : Ip} (same : SameFs s s') (put : Settled ((l t).1.cell ip).put → Settled x.put ∨
      (∀ u, u ≠ t → (l u).2.kind ip = .unknown) ∧ ∀ f, ¬ Writes (s'.ftable f) ip)
    (seen : ((l t).1.cell ip).held = .loaded → ((l t).1.cell ip).put = none → x.held = .loaded ∧ x.put = none) :
    Order s' (update l t ((l t).1.setCell ip x, ((l t).2.setIno ip none).setKind ip .unknown)) rank b := by
  apply order_learns base order same
  · intro jp settled
    by_cases here : jp = ip
    · subst jp
      rcases put settled with new | ⟨unknown, nofile⟩
      · exact .inl (by simpa [Hold.setCell] using new)
      refine .inr ⟨?_, nofile⟩
      intro u
      by_cases mine : u = t
      · subst u
        simp [Know.setKind]
      · simpa [mine] using unknown u mine
    · exact .inl (by simpa [Hold.setCell, here] using settled)
  · intro dp i known
    have ok := order.seen t dp i known
    obtain ⟨held, none⟩ := seen_cell seen ok.1 ok.2.1
    exact ⟨held, none, by simp [ok.2.1], .inl known⟩
  · intro jp i known
    by_cases here : jp = ip
    · subst jp
      simp [Know.setIno, Know.setKind] at known
    simp only [Know.setIno, Know.setKind, update_of_ne here] at known
    have ok := order.ino t jp i known
    exact ⟨by simpa [Hold.Has, Hold.Via, Hold.setCell, here] using ok.1, ok.2⟩
  intro jp known
  by_cases here : jp = ip
  · subst jp
    simp [Know.setKind] at known
  have same : (((l t).2.setIno ip none).setKind ip .unknown).kind jp = (l t).2.kind jp :=
    update_of_ne here _ _
  rw [same] at known
  refine ⟨?_, .inl same⟩
  simpa [Hold.Has, Hold.Via, Hold.setCell, here] using (order.kind t jp known).1

theorem unused_of_frees {ip : Ip} (mine : 0 < ((l t).1.cell ip).refs) (single : (s.entry ip).ref = 1) :
    (∀ u, u ≠ t → (l u).2.kind ip = .unknown) ∧ ∀ f, ¬ Writes (s.ftable f) ip := by
  refine ⟨?_, ?_⟩
  · intro u other
    by_contra known
    have two := cell_ref_two (base.cells ip) other mine (order.kind u ip known).1
    omega
  intro f writes
  have count := (base.cells ip).refs
  have part := le_sum (fun u => ((l u).1.cell ip).refs) t
  have file := fileRefs_pos writes.1
  omega

theorem order_iget {i : Ino} {ip : Ip} (found : s.iget i = some (ip, e)) (small : i.inum < 0x10000) :
    Order (s.setEntry ip e) (update l t ((l t).1.addRef ip, (l t).2.setIno ip (some i))) rank b := by
  have ino : e.ino = i := by
    rcases iget_spec found with ⟨-, same, rfl⟩ | ⟨-, -, rfl⟩
    · exact same
    · rfl
  have inos : ∀ jp, 0 < (s.entry jp).ref → ((s.setEntry ip e).entry jp).ino = (s.entry jp).ino := by
    intro jp live
    by_cases here : jp = ip
    · subst jp
      rcases iget_spec found with ⟨-, -, rfl⟩ | ⟨empty, -⟩
      · simp [Shared.setEntry, Entry.setRef]
      · omega
    · simp [Shared.setEntry, here]
  refine order_keeps base order _ inos ?_ (fun _ => .inl rfl) order.edges
    (fun f jp => files_live base order) (keeps_cell id And.intro fun _ => Nat.succ_pos _) rfl rfl ?_
  · intro jp live
    by_cases here : jp = ip
    · subst jp
      simpa [Shared.setEntry, ino] using small
    simp only [Shared.setEntry, update_of_ne here] at live ⊢
    exact order.small jp live
  intro jp j known
  by_cases here : jp = ip
  · subst jp
    simp only [Know.setIno, update_self, Option.some.injEq] at known
    subst j
    refine .inr ⟨.inl ?_, by simpa [Shared.setEntry] using ino⟩
    simp [Hold.addRef, Hold.setCell, Cell.setRefs]
  simp only [Know.setIno, update_of_ne here] at known
  exact .inl known

theorem order_write {ip : Ip} (mine : ((l t).1.cell ip).held = .loaded)
    (calm : ((l t).1.cell ip).put = none ∨ ((l t).1.cell ip).put = some .tested) (size : UInt32)
    (addrs : Fin (nDirect + 1) → UInt32) (es : List Dirent)
    (new : s.typeOf ip = tDir → ∀ e ∈ es, e.inum ≠ 0 → ¬ Dots e.name → e ∈ s.ents (s.entry ip).ino ∨
      ∀ j, j = Ino.mk (s.entry ip).ino.dev e.inum.toNat → (s.disk j).type = tDir → rank (s.entry ip).ino < rank j) :
    Order ((s.put ip (resized (s.entry ip).dn size addrs)).setEnts (s.entry ip).ino es)
      (update l t ((l t).1.setCell ip (((l t).1.cell ip).setDirty false), (l t).2)) rank b := by
  have types : ∀ i, (((s.put ip (resized (s.entry ip).dn size addrs)).setEnts (s.entry ip).ino
      es).disk i).type = (s.disk i).type :=
    fun i => write_type (l := fun t => (l t).1) (t := t) base mine calm i
  have entry : ∀ jp, ((s.put ip (resized (s.entry ip).dn size addrs)).entry jp).ino = (s.entry jp).ino ∧
      ((s.put ip (resized (s.entry ip).dn size addrs)).entry jp).ref = (s.entry jp).ref := by
    intro jp
    by_cases here : jp = ip
    · subst jp
      simp [Shared.put, Shared.setDisk, Shared.setEntry, Entry.setDn]
    · simp [Shared.put, Shared.setDisk, Shared.setEntry, here]
  refine order_keeps base order _ (fun jp _ => (entry jp).1) ?_ (fun i => .inl (types i)) ?_
    (fun f jp => files_live base order) (keeps_cell id And.intro id) rfl rfl (fun _ _ => .inl)
  · intro jp live
    have old := (entry jp)
    simp only [Shared.setEnts] at live ⊢
    rw [old.1]
    exact order.small jp (old.2 ▸ live)
  rintro d j ⟨dir, below, e, there, used, name, rfl⟩
  rw [types] at dir below
  by_cases here : d = (s.entry ip).ino
  · subst d
    simp only [Shared.setEnts, update_self] at there
    rcases new dir e there used name with old | ranked
    · exact order.edges _ _ ⟨dir, below, e, old, used, name, rfl⟩
    · exact ranked _ rfl below
  simp only [Shared.setEnts, update_of_ne here] at there
  exact order.edges _ _ ⟨dir, below, e, there, used, name, rfl⟩

theorem order_enter {dp : Ip} {inum : Nat} (mine : ((l t).1.cell dp).held = .loaded)
    (calm : ((l t).1.cell dp).put = none) (ok : (l t).2.Allows (l t).1 (.enter dp name inum))
    (size : UInt32) (addrs : Fin (nDirect + 1) → UInt32) :
    Order ((s.put dp (resized (s.entry dp).dn size addrs)).setEnts (s.entry dp).ino
        (putEnt (s.ents (s.entry dp).ino) ⟨UInt16.ofNat inum, strncpy dirSiz name⟩))
      (update l t ((l t).1.setCell dp (((l t).1.cell dp).setDirty false), (l t).2)) rank b := by
  apply order_write base order mine (.inl calm)
  intro dir e there used plain
  rcases mem_putEnt there with old | rfl
  · exact .inl old
  refine .inr ?_
  rintro j rfl below
  have notdots : ¬ Dots name := fun dots => plain ((dots_congr (cname_strncpy name)).mpr dots)
  obtain ⟨small, d, ino, known⟩ := ok.resolve_left notdots
  have here := (order.ino t dp d ino).2
  subst d
  have num : (UInt16.ofNat inum).toNat = inum := by
    rw [UInt16.toNat_ofNat']
    omega
  rw [num] at below ⊢
  rcases known with seen | ⟨ip, there, leaf⟩
  · exact (order.seen t dp _ seen).2.2.2 below
  have kind := order.kind t ip (by simp [leaf])
  rw [leaf] at kind
  have place := (order.ino t ip _ there).2
  exact absurd below (by simpa [Shared.typeOf, place] using kind.2.2.1)

theorem order_load {ip : Ip} (same : SameFs s s') (mine : ((l t).1.cell ip).held = .locked)
    (used : s.typeOf ip ≠ 0) (keeps : KeepsType s l t (.load ip)) :
    Order s' (update l t ((l t).1.setCell ip (((l t).1.cell ip).setHeld .loaded),
      (l t).2.book (l t).1 (.load ip) ())) rank b := by
  have calm := cell_locked (t := t) (base.cells ip) mine
  have steady : Steady l ip := steady_of_held (t := t) base (by simp [mine]) (.inl calm)
  have known : ∀ k : Know, k.seen = (l t).2.seen → k.ino = (l t).2.ino →
      (∀ jp, k.kind jp ≠ .unknown → k.kind jp = (l t).2.kind jp ∨ jp = ip ∧ (k.kind jp).Fits (s.typeOf ip)) →
      Order s' (update l t ((l t).1.setCell ip (((l t).1.cell ip).setHeld .loaded), k)) rank b := by
    intro k seen ino kind
    apply order_learns base order same
    · exact fun jp settled => .inl (settled_cell id settled)
    · intro dp i known
      rw [seen] at known
      have ok := order.seen t dp i known
      have kept := @seen_cell _ (((l t).1.cell ip).setHeld .loaded) ip dp (fun _ put => ⟨rfl, put⟩) ok.1 ok.2.1
      exact ⟨kept.1, kept.2, by simp [ok.2.1], .inl known⟩
    · intro jp i known
      rw [ino] at known
      have ok := order.ino t jp i known
      exact ⟨has_setCell id ok.1, ok.2⟩
    intro jp known
    rcases kind jp known with old | ⟨rfl, fits⟩
    · rw [old] at known
      exact ⟨has_setCell id (order.kind t jp known).1, .inl old⟩
    have mine' := (base.cells jp).has t (by simp [mine])
    exact ⟨has_setCell id mine', .inr ⟨live_has base mine', steady, fits⟩⟩
  cases fresh : (l t).2.fresh with
  | none =>
    simp only [Know.book, fresh]
    exact known _ rfl rfl fun _ _ => .inl rfl
  | some new =>
    obtain ⟨i, type⟩ := new
    simp only [Know.book, fresh]
    split
    · rename_i here
      apply known (((l t).2.setKind ip (kindOf type)).setFresh none) rfl rfl
      intro jp _
      by_cases same : jp = ip
      · subst jp
        have type := keeps i type fresh (order.ino t ip i here).2
        refine .inr ⟨rfl, ?_⟩
        simp only [Know.setKind, Know.setFresh, update_self]
        rw [type] at used ⊢
        exact kindOf_fits used
      · exact .inl (update_of_ne same _ _)
    · exact known _ rfl rfl fun _ _ => .inl rfl

theorem order_setFile {fd : Fin nofile} {file : File} (mine : (l t).1.file = some (f, .opening fd))
    (has : 0 < ((l t).1.cell file.ip).refs) (leaf : file.writable = true → (l t).2.kind file.ip = .leaf) :
    Order (s.setFile f (file.setRef (s.ftable f).ref)) (update l t
      ((((l t).1.dropRef file.ip).setFile none).setKnown fd (some file.ip), (l t).2)) rank b := by
  refine order_keeps base order _ (fun _ _ => rfl) order.small (fun _ => .inl rfl) order.edges ?_
    ⟨fun _ => @settled_cell _ (((l t).1.cell file.ip).setRefs _) file.ip _ id,
      fun _ => @seen_cell _ (((l t).1.cell file.ip).setRefs _) file.ip _ And.intro,
      fun ip has => has_setFile (l := fun t => (l t).1) base mine has file.ip⟩ rfl rfl (fun _ _ => .inl)
  · intro g ip writes
    by_cases here : g = f
    · subst g
      obtain ⟨inode, -, writable⟩ := writes
      simp only [Shared.setFile, update_self] at inode writable
      have same : file.ip = ip := by
        unfold File.inode at inode
        split at inode
        · exact Option.some.inj inode
        · cases inode
      subst ip
      have known := leaf writable
      have ok := order.kind t file.ip (by simp [known])
      rw [known] at ok
      exact ⟨live_has base (.inl has), ok.2⟩
    have old : Writes (s.ftable g) ip := by simpa [Shared.setFile, here] using writes
    exact ⟨live_of_file base old.1, order.files g ip old⟩

theorem order_getFile {fd : Fin nofile} (slot : s.ofile t fd = some f) :
    Order s (update l t (book (l t).1 (.getFile fd) (some (s.ftable f)),
      (l t).2.book (l t).1 (.getFile fd) (some (s.ftable f)))) rank b := by
  have open_file : 0 < (s.ftable f).ref := by
    have uses := uses_le base.files t f
    have here := fdsOf_pos slot
    omega
  have cell : (book (l t).1 (.getFile fd) (some (s.ftable f))).cell = (l t).1.cell := by
    simp only [book]
    split <;> rfl
  have has : ∀ ip, (l t).1.Has ip → (book (l t).1 (.getFile fd) (some (s.ftable f))).Has ip := by
    intro ip has
    simp only [book, Option.bind_some]
    cases inode : (s.ftable f).inode with
    | none => exact has
    | some jp => exact has_getFile (l := fun t => (l t).1) base slot inode has
  apply order_learns base order sameFs_refl
  · intro ip settled
    rw [cell]
    exact .inl settled
  · intro dp i known
    have old : (l t).2.seen dp i := by
      simp only [Know.book] at known
      split at known <;> exact known
    have ok := order.seen t dp i old
    rw [cell]
    exact ⟨ok.1, ok.2.1, by simp [ok.2.1], .inl old⟩
  · intro ip i known
    have old : (l t).2.ino ip = some i := by
      simp only [Know.book] at known
      split at known <;> exact known
    have ok := order.ino t ip i old
    exact ⟨has ip ok.1, ok.2⟩
  intro ip known
  simp only [Know.book] at known ⊢
  split at known
  · rename_i writable
    rw [if_pos writable]
    by_cases here : ip = (s.ftable f).ip
    · subst ip
      have inode : (s.ftable f).inode = some (s.ftable f).ip := by
        simp [File.inode, open_file, writable.1]
      have ok := order.files f _ ⟨inode, writable⟩
      refine ⟨?_, .inr ⟨live_of_file base inode, ok.1, ?_⟩⟩
      · simp only [book, Option.bind_some, inode]
        exact .inr ⟨fd, by simp [Hold.setKnown]⟩
      · simpa [Know.setKind] using ok.2
    have same : ((l t).2.setKind (s.ftable f).ip .leaf).kind ip = (l t).2.kind ip := update_of_ne here _ _
    rw [same] at known
    exact ⟨has ip (order.kind t ip known).1, .inl same⟩
  rename_i not
  rw [if_neg not]
  exact ⟨has ip (order.kind t ip known).1, .inl rfl⟩

theorem order_freed {ip : Ip} (cleared : ((l t).1.cell ip).put = some .cleared)
    (refs : x.refs = ((l t).1.cell ip).refs) (freed : (s.entry ip).dn.type = 0) :
    Order (s.setDisk (s.entry ip).ino (s.entry ip).dn) (update l t ((l t).1.setCell ip x, (l t).2)) rank b := by
  have live : 0 < (s.entry ip).ref := live_has base (.inl ((base.cells ip).put t _ cleared).1)
  refine order_keeps base order _ (fun _ _ => rfl) order.small ?_ ?_
    (fun f jp => files_live base order) (keeps_cell ?_ ?_ fun some => refs ▸ some) rfl rfl (fun _ _ => .inl)
  · intro i
    by_cases here : i = (s.entry ip).ino
    · subst i
      exact .inr ⟨by simpa [Shared.setDisk] using freed, ip, live, rfl, cleared⟩
    · exact .inl (by simp [Shared.setDisk, here])
  · intro d j edge
    refine order.edges d j (edge_mono ?_ ?_ edge)
    swap
    · exact fun _ _ there _ => there
    intro i dir
    by_cases here : i = (s.entry ip).ino
    · subst i
      simp only [Shared.setDisk, update_self, freed] at dir
      exact absurd dir (by decide)
    · simpa [Shared.setDisk, here] using dir
  · intro settled
    simp [Settled, cleared] at settled
  intro _ none
  simp [cleared] at none

end

/-- Ranked is an invariant of strict rules. -/
theorem ranked_sound : Threads.Sound (callRules (T := T) True) KeepsType Ranked := by
  intro s l t o a s' ranked keeps ok done
  obtain ⟨base, rank, b, order⟩ := ranked
  obtain ⟨may, knows⟩ := ok
  have knows := knows trivial
  change exec t o s a s' at done
  obtain ⟨fits, kept⟩ := base_sound s (fun t => (l t).1) t o a s' base trivial may done
  suffices goal : (l t).2.Fits o a ∧ ∃ rank b, Order s' (update l t
      (book (l t).1 o a, (l t).2.book (l t).1 o a)) rank b by
    refine ⟨⟨fits, fun _ => goal.1⟩, ?_, goal.2⟩
    rw [holds_update]
    exact kept
  change allows (l t).1 o at may
  cases o with
  | beginOp | endOp | setCwd ip =>
    subst done
    exact ⟨trivial, rank, b, order_same base order (sameFs_of_eq rfl rfl rfl rfl) (keeps_of_eq rfl rfl)⟩
  | iget i =>
    obtain ⟨e, found, rfl⟩ := done
    exact ⟨trivial, rank, b, order_iget base order found knows⟩
  | idup ip =>
    subst done
    have live : 0 < (s.entry ip).ref := live_has base may.2
    exact ⟨trivial, rank, b, order_same base order (sameFs_setEntry rfl fun _ => live)
      (keeps_cell id And.intro fun _ => Nat.succ_pos _)⟩
  | lock ip =>
    obtain ⟨live, free, rfl⟩ := done
    refine ⟨trivial, rank, b, order_same base order (sameFs_setEntry rfl id) (keeps_cell id ?_ id)⟩
    intro held
    have unheld : ((l t).1.cell ip).held = .no := fits
    simp [unheld] at held
  | load ip =>
    have live : 0 < (s.entry ip).ref :=
      live_of_held (l := fun t => (l t).1) (t := t) base (by simp [show _ = _ from may])
    have calm := cell_locked (t := t) (base.cells ip) may
    refine ⟨trivial, rank, b, ?_⟩
    simp only [exec] at done
    split at done
    · rename_i valid
      subst done
      have quiet := cell_quiet (t := t) (base.cells ip) (by simp [show _ = _ from may]) (.inl calm)
      obtain ⟨used, same⟩ := ((base.cells ip).typed live valid).resolve_left quiet
      exact order_load base order sameFs_refl may (by rwa [← same] at used) keeps
    obtain ⟨used, rfl⟩ := done
    exact order_load base order (sameFs_setEntry rfl id) may used keeps
  | unlock ip =>
    obtain ⟨-, live, rfl⟩ := done
    exact ⟨trivial, rank, b, order_unlock base order rfl id⟩
  | ident ip =>
    obtain ⟨rfl, rfl⟩ := done
    have live : 0 < (s'.entry ip).ref := live_has base may
    refine ⟨⟨order.small ip live, ?_⟩, rank, b, ?_⟩
    · intro j known
      exact (order.ino t ip j known).2
    · exact order_knows base order ip (.inr ⟨may, rfl⟩) (fun _ _ => .inl) (.inl rfl)
  | fields ip =>
    obtain ⟨rfl, rfl⟩ := done
    obtain ⟨calm, mine⟩ := may
    have live : 0 < (s'.entry ip).ref := live_loaded base mine
    obtain ⟨used, same⟩ := cell_typed (t := t) (base.cells ip) mine live (.inl (calm ip))
    have has := (base.cells ip).has t (by simp [mine])
    have steady : Steady l ip := steady_of_held (t := t) base (by simp [mine]) (.inl (calm ip))
    refine ⟨?_, rank, b, ?_⟩
    · by_cases known : (l t).2.kind ip = .unknown
      · simp [Know.Fits, known, Kind.Fits]
      have fits := (order.kind t ip known).2.2
      rwa [Shared.typeOf, same] at fits
    refine order_knows base order ip (.inl rfl) (fun _ _ => .inl) (.inr ⟨_, has, steady, ?_, rfl⟩)
    rw [Shared.typeOf, same]
    exact kindOf_fits used
  | store ip f =>
    subst done
    exact ⟨trivial, rank, b, order_same base order (sameFs_setEntry rfl id) (keeps_cell id And.intro id)⟩
  | iupdate ip =>
    subst done
    obtain ⟨mine, calm | cleared⟩ := may
    · have live : 0 < (s.entry ip).ref := live_loaded base mine
      have same := (cell_typed (t := t) (base.cells ip) mine live (.inl calm)).2
      refine ⟨trivial, rank, b, order_same base order ⟨fun _ => rfl, fun _ => id, ?_,
        fun _ _ there _ => there, fun _ _ => id⟩ (keeps_cell ?_ ?_ id)⟩
      · intro i
        by_cases here : i = (s.entry ip).ino
        · subst i
          simpa [Shared.setDisk] using same.symm
        · simp [Shared.setDisk, here]
      · intro _
        simp [Settled, calm]
      intro held _
      simp [held, calm]
    have phase := ((base.cells ip).put t _ cleared).2
    simp only [reduceCtorEq, if_false, false_or] at phase
    exact ⟨trivial, rank, b, order_freed base order cleared rfl phase.2.2.2⟩
  | write ip es =>
    obtain ⟨size, addrs, rfl⟩ := done
    obtain ⟨calm, mine⟩ := may
    refine ⟨trivial, rank, b, order_write base order mine (.inl (calm ip)) size addrs es ?_⟩
    intro dir
    have leaf : (l t).2.kind ip = .leaf := knows
    have kind := order.kind t ip (by simp [leaf])
    rw [leaf] at kind
    exact absurd dir kind.2.2.1
  | trunc ip =>
    subst done
    refine ⟨trivial, rank, b, order_write base order may.1 may.2 0 (fun _ => 0) [] ?_⟩
    intro dir e there
    simp at there
  | test ip =>
    obtain ⟨calm, mine, locked⟩ := may
    refine ⟨trivial, rank, b, ?_⟩
    simp only [exec] at done
    split at done
    · rename_i frees
      obtain ⟨rfl, free, rfl⟩ := done
      have unheld : ((l t).1.cell ip).held = .no := fits rfl
      refine order_forget base order (sameFs_setEntry rfl id)
        (fun _ => .inr (unused_of_frees base order mine frees.1)) ?_
      intro held
      simp [unheld] at held
    obtain ⟨rfl, rfl⟩ := done
    have live : 0 < (s.entry ip).ref := live_has base (.inl mine)
    exact order_forget base order (sameFs_setEntry rfl fun _ => live) .inl (fun held put => ⟨held, put⟩)
  | clearType ip =>
    subst done
    refine ⟨trivial, rank, b, order_same base order (sameFs_setEntry rfl id) (keeps_cell ?_ ?_ id)⟩
    · intro settled
      simp [Settled, show _ = _ from may] at settled
    intro _ none
    simp [show _ = _ from may] at none
  | expire ip =>
    subst done
    refine ⟨trivial, rank, b, order_same base order (sameFs_setEntry rfl id) (keeps_cell ?_ ?_ id)⟩
    · exact fun _ => .inr rfl
    intro _ none
    simp [show _ = _ from may] at none
  | drop ip =>
    subst done
    have live : 0 < (s.entry ip).ref := live_has base (.inl ((base.cells ip).put t _ may).1)
    refine ⟨trivial, rank, b, order_forget base order (sameFs_setEntry rfl fun _ => live) ?_ ?_⟩
    · exact fun _ => .inl (.inl rfl)
    intro _ none
    simp [show _ = _ from may] at none
  | claim i type =>
    refine ⟨trivial, ?_⟩
    simp only [exec] at done
    split at done
    · rename_i free
      obtain ⟨rfl, rfl⟩ := done
      exact ⟨_, _, order_claim order free may.1⟩
    obtain ⟨rfl, rfl⟩ := done
    exact ⟨rank, b, order_same base order sameFs_refl (keeps_of_eq rfl rfl)⟩
  | look dp name =>
    obtain ⟨dir, rfl, rfl⟩ := done
    refine ⟨?_, rank, b, order_look base order (may.1 dp) may.2 dir⟩
    rintro e found
    obtain ⟨x, -, rfl⟩ := Option.map_eq_some_iff.mp found
    exact x.1.toNat_lt
  | enter dp name inum =>
    obtain ⟨size, addrs, rfl⟩ := done
    exact ⟨trivial, rank, b, order_enter base order may.2 (may.1 dp) knows size addrs⟩
  | clear dp k =>
    obtain ⟨size, addrs, rfl⟩ := done
    refine ⟨trivial, rank, b, order_write base order may.2 (.inl (may.1 dp)) size addrs _ ?_⟩
    intro _ e there used _
    rcases List.mem_or_eq_of_mem_set there with old | rfl
    · exact .inl old
    · exact absurd rfl used
  | isdirempty ip =>
    obtain ⟨rfl, -⟩ := done
    exact ⟨trivial, rank, b, order_same base order sameFs_refl (keeps_of_eq rfl rfl)⟩
  | getCwd =>
    obtain ⟨rfl, rfl⟩ := done
    exact ⟨trivial, rank, b, order_same base order sameFs_refl (keeps_of_eq rfl rfl)⟩
  | filealloc =>
    refine ⟨trivial, rank, b, ?_⟩
    simp only [exec] at done
    split at done
    · rename_i f found
      obtain ⟨rfl, rfl⟩ := done
      have free : (s.ftable f).ref = 0 := by simpa using List.find?_some found
      have shut := base.files.closed f (by omega)
      refine order_same base order (sameFs_setFile ?_) (keeps_of_eq rfl rfl)
      intro ip writes
      have typed := writes.2.1
      simp [File.setRef, shut] at typed
    obtain ⟨rfl, rfl⟩ := done
    exact order_same base order sameFs_refl (keeps_of_eq rfl rfl)
  | fdalloc f =>
    refine ⟨trivial, rank, b, ?_⟩
    simp only [exec] at done
    split at done
    · obtain ⟨rfl, rfl⟩ := done
      exact order_same base order (sameFs_of_eq rfl rfl rfl rfl) (keeps_of_eq rfl rfl)
    obtain ⟨rfl, rfl⟩ := done
    exact order_same base order sameFs_refl (keeps_of_eq rfl rfl)
  | setFile f file => 
    subst done
    obtain ⟨calm, ⟨fd, mine⟩, kind, has⟩ := may
    refine ⟨trivial, rank, b, ?_⟩
    simp only [book, mine]
    exact order_setFile base order mine has knows
  | fileclose f =>
    obtain ⟨live, done⟩ := done
    obtain ⟨-, known, -, -, cell⟩ := fileclose_book (f := f) (l t).1 a
    refine ⟨trivial, rank, b, ?_⟩
    have same : SameFs s s' := by
      split at done
      · obtain ⟨-, rfl⟩ := done
        refine sameFs_setFile fun ip writes => ?_
        simp only [Writes, File.setRef, File.inode] at writes ⊢
        grind
      obtain ⟨-, rfl⟩ := done
      refine sameFs_setFile fun ip writes => ?_
      have typed := writes.2.1
      simp [File.closed] at typed
    refine order_same base order same ⟨?_, ?_, ?_⟩
    · intro ip
      rw [cell]
      exact id
    · intro ip
      rw [cell]
      exact And.intro
    intro ip has
    rcases has with refs | ⟨fd, there⟩
    · refine .inl ?_
      rw [cell]
      exact Nat.add_pos_left refs _
    · exact .inr ⟨fd, by rw [known]; exact there⟩
  | getFile fd =>
    obtain ⟨rfl, rfl⟩ := done
    refine ⟨trivial, rank, b, ?_⟩
    cases slot : s'.ofile t fd with
    | none => exact order_same base order sameFs_refl (keeps_of_eq rfl rfl)
    | some f => exact order_getFile base order slot
  | takeFd fd =>
    obtain ⟨rfl, rfl⟩ := done
    refine ⟨trivial, rank, b, order_learns base order (sameFs_of_eq rfl rfl rfl rfl) (fun _ => .inl) ?_ ?_ ?_⟩
    · intro dp i known
      have held := (order.seen t dp i known).1
      simp [may.2.2 dp] at held
    · intro ip i known
      cases known
    intro ip known
    exact absurd rfl known
  | ask what =>
    subst done
    exact ⟨trivial, rank, b, order_same base order sameFs_refl (keeps_of_eq rfl rfl)⟩
  | panic msg => exact done.elim

end

end Xv6Conc
