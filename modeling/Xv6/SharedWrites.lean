import Xv6.Lib.Threads
import Xv6.LogBudget

/- filewrite by several processes through one struct file. A turn of its loop runs under the lock
   of the inode; between the turns others come in. -/
namespace Xv6Fs
open Xv6 Bytes Outcome Ownership

/- Free blocks for what is still to be written. -/

section
variable {sb : Superblock} {d d' : Disk} {dn dn' : Dinode}

theorem missing_present {bn : Nat} (present : fileBlock d dn bn ≠ 0) (rest : List Nat) :
    missing d dn (bn :: rest) = missing d dn rest := by
  unfold missing
  rw [List.countP_cons, if_neg (by simpa using present), Nat.add_zero]
  congr 1
  by_cases far : nDirect ≤ bn
  · have there : dn.indirect ≠ 0 := fun absent => present (fileBlock_no_indirect (Nat.not_lt.mpr far) absent)
    rw [if_neg fun needs => there needs.1, if_neg fun needs => there needs.1]
  have same : (dn.indirect = 0 ∧ ∃ bm ∈ bn :: rest, nDirect ≤ bm) ↔ (dn.indirect = 0 ∧ ∃ bm ∈ rest, nDirect ≤ bm) := by
    simp [far]
  simp only [same]

def behind (off n m : Nat) : List Nat :=
  List.range' ((off + n - 1) / bSize + 1) ((off + n + m - 1) / bSize - (off + n - 1) / bSize)

theorem touched_add {off n : Nat} (pos : 0 < n) (m : Nat) : touched off (n + m) = touched off n ++ behind off n m := by
  rw [touched, if_neg (by omega), touched, if_neg (by omega), behind]
  have start : (off + n - 1) / bSize + 1 = off / bSize + ((off + n - 1) / bSize - off / bSize + 1) := by
    simp only [bSize] at *
    omega
  have count : (off + (n + m) - 1) / bSize - off / bSize + 1 = ((off + n - 1) / bSize - off / bSize + 1) +
      ((off + n + m - 1) / bSize - (off + n - 1) / bSize) := by
    simp only [bSize] at *
    omega
  rw [start, count, List.range'_append_1]

theorem touched_behind (off : Nat) {n : Nat} (m : Nat) (pos : 0 < n) :
    touched (off + n) m = behind off n m ∨ touched (off + n) m = (off + n - 1) / bSize :: behind off n m := by
  by_cases none : m = 0
  · left
    rw [touched, if_pos none, behind, none]
    simp
  rw [touched, if_neg none, behind]
  by_cases fresh : (off + n) % bSize = 0
  · left
    congr 1
    · simp only [bSize] at *
      omega
    simp only [bSize] at *
    omega
  right
  rw [List.range'_succ]
  have start : (off + n) / bSize = (off + n - 1) / bSize := by
    simp only [bSize] at *
    omega
  have count : (off + n + m - 1) / bSize - (off + n) / bSize =
      (off + n + m - 1) / bSize - (off + n - 1) / bSize := by rw [start]
  rw [count, start]

end

section
variable {s : Fs} {ip : Ip}
variable {i : Nat} {s t : Fs} {ip : Ip}

theorem missing_congr {d d' : Disk} {dn dn' : Dinode} (blocks : ∀ bn, fileBlock d' dn' bn = fileBlock d dn bn)
    (addrs : dn'.addrs = dn.addrs) (bns : List Nat) : missing d' dn' bns = missing d dn bns := by
  unfold missing Dinode.indirect
  simp only [blocks, addrs]

theorem freeBlocks_putDinode {sb : Superblock} {d : Disk} (lt : i < sb.ninodes) (dn : Dinode) :
    freeBlocks sb (putDinode sb d i dn) = freeBlocks sb d := by
  refine Finset.filter_congr fun c _ => ?_
  have low := sb.iblock_lt lt
  have map := sb.bblock_le c
  rw [putDinode, bit_update sb (by omega)]

theorem putDinode_missing {sb : Superblock} {dns : Nat → Dinode} {d : Disk} {dn dn' : Dinode}
    (lt : i < sb.ninodes) (owned : Owned sb (Function.update dns i dn) d) (live : dn.type ≠ 0)
    (addrs : dn'.addrs = dn.addrs) (bns : List Nat) : missing (putDinode sb d i dn') dn' bns = missing d dn bns := by
  have kept := contents_of_data owned (fun b => putDinode_data lt dn') lt
    (by rw [Function.update_self]; exact live)
  rw [Function.update_self] at kept
  refine missing_congr (fun bn => ?_) addrs bns
  rw [fileBlock_addrs addrs, kept.1 bn]

theorem writei_blocks (inv : Inv s) (held : Held s ip) (src : Buffer) {off n : Nat} (small : n < 0x100000000)
    (bns : List Nat) : Ends (writei ip src off n) s (fun _ t => ¬ writeiRefused (s.itable ip).dn off n →
        missing t.disk (t.itable ip).dn bns + (freeBlocks s.sb s.disk).card ≤
          missing s.disk (s.itable ip).dn (touched off n ++ bns) + (freeBlocks s.sb t.disk).card) (fun _ => True) := by
  have inside := held_bounded inv held
  have spec := writei_spec s ip src off n rfl inside held.live small (held_owned inv held)
  rw [put_self] at spec
  refine ends_mono spec ?_ fun _ _ => trivial
  rintro r t (refused | ⟨accepted, d, dn, e, k, cost, rfl, -, -, written, size, pays⟩) accepted
  · exact absurd refused.1 accepted
  have live : e.type ≠ 0 := by
    rw [written.fields]
    exact held.live
  rw [put_dn]
  change missing (putDinode s.sb d (s.itable ip).inum dn) dn bns + _ ≤
    _ + (freeBlocks s.sb (putDinode s.sb d (s.itable ip).inum dn)).card
  rw [putDinode_missing inside written.owned live (by rw [size]; rfl), freeBlocks_putDinode inside]
  exact pays bns

structure Opened (s : Fs) (ip : Ip) (i : Nat) : Prop where
  inv : Inv s
  active : 0 < (s.itable ip).ref
  number : (s.itable ip).inum = i
  known : i < s.sb.ninodes
  live : (view s i).type ≠ 0
  held : (s.itable ip).locked = true → Held s ip

def Room (s : Fs) (i more : Nat) : Prop :=
  missing s.disk (view s i) (touched (view s i).size.toNat more) ≤ (freeBlocks s.sb s.disk).card

theorem splice_end (old new : List UInt8) : splice old old.length new = old ++ new := by
  unfold splice
  rw [List.take_length, List.drop_of_length_le (Nat.le_add_right _ _), List.append_nil]

theorem contents_length (s : Fs) (i : Nat) : (contents s i).length = (view s i).size.toNat := fileBytes_length ..

theorem contents_same (same : SameFiles s t ip) (j : Nat) : contents t j = contents s j := by
  unfold contents
  rw [same.disk, same.view]

theorem room_same (same : SameFiles s t ip) {i more : Nat} (room : Room s i more) : Room t i more := by
  unfold Room
  rw [same.disk, same.view, same.sb]
  exact room

theorem opened_same (opened : Opened s ip i) (same : SameFiles s t ip)
    (held : (t.itable ip).locked = true → Held t ip) : Opened t ip i := by
  refine ⟨same.inv, ?_, same.entry.1.trans opened.number, ?_, ?_, held⟩
  · rw [same.entry.2]
    exact opened.active
  · rw [same.sb]
    exact opened.known
  rw [same.view]
  exact opened.live

theorem ilock_opened (opened : Opened s ip i) (unlocked : (s.itable ip).locked = false) :
    Ends (ilock ip) s (fun _ t => Opened t ip i ∧ (t.itable ip).locked = true ∧ SameFiles s t ip) (fun _ => False) := by
  have locks := ilock_held opened.inv opened.active (opened.number ▸ opened.known) (opened.number ▸ opened.live)
  refine ends_mono locks ?_ ?_
  · rintro _ t ⟨same, held, locked⟩
    exact ⟨opened_same opened same fun _ => held, locked, same⟩
  rintro msg ⟨_, locked⟩
  rw [unlocked] at locked
  cases locked

theorem iunlock_opened (opened : Opened s ip i) (locked : (s.itable ip).locked = true) :
    Ends (iunlock ip) s (fun _ t => Opened t ip i ∧ (t.itable ip).locked = false ∧ SameFiles s t ip) (fun _ => False) := by
  apply ends_better (iunlock_held opened.inv (opened.held locked) locked)
  rintro _ t ⟨same, unlocked⟩
  refine ⟨opened_same opened same fun locked' => ?_, unlocked, same⟩
  rw [unlocked] at locked'
  cases locked'

theorem room_left {size n1 more : Nat} (pos : 0 < n1) (inv : Inv t) (held : Held t ip)
    (longer : (t.itable ip).dn.size.toNat = size + n1) {dn : Dinode}
    (few : missing t.disk (t.itable ip).dn (behind size n1 more) + (freeBlocks s.sb s.disk).card ≤
      missing s.disk dn (touched size n1 ++ behind size n1 more) + (freeBlocks s.sb t.disk).card)
    (room : missing s.disk dn (touched size (n1 + more)) ≤ (freeBlocks s.sb s.disk).card) :
    missing t.disk (t.itable ip).dn (touched (size + n1) more) ≤ (freeBlocks s.sb t.disk).card := by
  rw [touched_add pos] at room
  have present : fileBlock t.disk (t.itable ip).dn ((size + n1 - 1) / bSize) ≠ 0 :=
    full_byte (held_full inv held) (by omega)
  have same : missing t.disk (t.itable ip).dn (touched (size + n1) more) =
      missing t.disk (t.itable ip).dn (behind size n1 more) := by
    rcases touched_behind size more pos with first | first
    · rw [first]
    · rw [first, missing_present present]
  omega

theorem writei_appends (opened : Opened s ip i) (locked : (s.itable ip).locked = true) (src : Buffer)
    (all : src.limit = none) {n1 more : Nat} (pos : 0 < n1)
    (fits : (view s i).size.toNat + (n1 + more) ≤ maxFile * bSize) (room : Room s i (n1 + more)) :
    Ends (writei ip src (view s i).size.toNat n1) s (fun r t => r = n1 ∧ Opened t ip i ∧ (t.itable ip).locked = true ∧
        (view t i).size.toNat = (view s i).size.toNat + n1 ∧ contents t i = contents s i ++ src.first n1 ∧
        Room t i more) (fun _ => False) := by
  have large : maxFile * bSize < 0x100000000 := by decide
  have small : n1 < 0x100000000 := by omega
  have held := opened.held locked
  obtain ⟨inv, active, rfl, known, live, -⟩ := opened
  have shown := held_view inv held
  unfold Room at room
  rw [shown] at fits room ⊢
  generalize size : (s.itable ip).dn.size.toNat = off at *
  have aligned : Aligned src 0 off := by
    intro l limit
    rw [all] at limit
    cases limit
  have accepted : ¬ writeiRefused (s.itable ip).dn off n1 := by
    unfold writeiRefused addU32
    omega
  have writes := ends_and (ends_and (writei_contents inv held src small aligned) (writei_entry inv held src small))
    (writei_blocks inv held src small (behind off n1 more))
  refine ends_mono writes ?_ ?_
  · rintro r t ⟨⟨refused | ⟨-, nonneg, whole, spliced⟩, lock, held'⟩, few⟩
    · exact absurd refused.1 accepted
    have count : r.toNat = n1 := whole all
    rw [count] at spliced
    have num := spliced.same.1
    have shown' : view t (s.itable ip).inum = (t.itable ip).dn := by
      rw [← num, held_view spliced.inv held']
    have longer : (t.itable ip).dn.size.toNat = off + n1 := by
      rw [spliced.size, size]
      omega
    refine ⟨by omega, ⟨spliced.inv, held'.cached.1, num, ?_, ?_, fun _ => held'⟩, lock.trans locked, ?_, ?_, ?_⟩
    · rw [spliced.same.2]
      exact known
    · rw [shown']
      exact held'.live
    · rw [shown', longer]
    · rw [spliced.file]
      have length : off = (contents s (s.itable ip).inum).length := by rw [contents_length, shown, size]
      rw [length, splice_end]
    unfold Room
    rw [shown', longer, spliced.same.2]
    exact room_left pos spliced.inv held' longer (few accepted) room
  rintro msg ⟨⟨⟨-, short⟩, -⟩, -⟩
  have few : missing s.disk (s.itable ip).dn (touched off n1) ≤ missing s.disk (s.itable ip).dn (touched off (n1 + more)) := by
    rw [touched_add pos]
    exact missing_mono (List.sublist_append_left _ _)
  unfold writeiNeed at short
  rw [if_neg accepted] at short
  omega

end

end Xv6Fs

/- The calls. -/

namespace Xv6Filewrite
open Xv6 Xv6Fs Outcome Runs Threads Function
open Xv6Logged (maxWrite)

/-- Where a call of filewrite is: at the loop's test, in ilock's shadow before writei, after writei
    returned r, after f->off moved, behind the loop. -/
inductive Pc where
  | loop | hold | wrote (r : Int) | moved (r : Int) | ended | returned (ret : Int)
  deriving DecidableEq

structure Call where
  pc : Pc
  i : Nat
  deriving DecidableEq

structure Shared (C : Type) where
  fs : Fs
  off : UInt32
  call : C → Call

def turnLength (n i : Nat) : Nat := if maxWrite < n - i then maxWrite else n - i

def addrFrom (data : List UInt8) (i : Nat) : Buffer := ⟨fun t => data.getD (i + t) 0, none⟩

section
variable {C : Type} [DecidableEq C]
variable {c : C}

def Shared.goto (x : Shared C) (c : C) (k : Call) : Shared C := { x with call := update x.call c k }

def Shared.setFs (x : Shared C) (fs : Fs) : Shared C := { x with fs := fs }

def Shared.setOff (x : Shared C) (off : UInt32) : Shared C := { x with off := off }

def onFs {A : Type} (m : M A) : StateT (Shared C) (Except String) A := fun x =>
  match m x.fs with
  | .ok (a, fs) => .ok (a, x.setFs fs)
  | .error msg => .error msg

/-- A step of call c; false when it sleeps in ilock or has returned. -/
def filewriteStep (ip : Ip) (data : C → List UInt8) (c : C) : StateT (Shared C) (Except String) Bool := do
  let x ← get
  let n := (data c).length
  let i := (x.call c).i
  let n1 := turnLength n i
  match (x.call c).pc with
  | .loop =>
    if i < n then
      if (x.fs.itable ip).locked = true then
        pure false
      else
        onFs (ilock ip)
        modify (·.goto c ⟨.hold, i⟩)
        pure true
    else
      modify (·.goto c ⟨.ended, i⟩)
      pure true
  | .hold =>
    let r ← onFs (writei ip (addrFrom (data c) i) x.off.toNat n1)
    modify (·.goto c ⟨.wrote r, i⟩)
    pure true
  | .wrote r =>
    if 0 < r then
      modify (·.setOff (x.off + UInt32.ofInt r))
      modify (·.goto c ⟨.moved r, i⟩)
      pure true
    else
      modify (·.goto c ⟨.moved r, i⟩)
      pure true
  | .moved r =>
    onFs (iunlock ip)
    if r ≠ n1 then
      modify (·.goto c ⟨.ended, i⟩)
      pure true
    else
      modify (·.goto c ⟨.loop, i + r.toNat⟩)
      pure true
  | .ended =>
    modify (·.goto c ⟨.returned (if i = n then n else -1), i⟩)
    pure true
  | .returned _ => pure false

def Steps (ip : Ip) (data : C → List UInt8) (x : Shared C) (c : C) (y : Shared C) : Prop :=
  filewriteStep ip data c x = .ok (true, y)

def Call.written : Call → Nat
  | ⟨.wrote r, i⟩ | ⟨.moved r, i⟩ => i + r.toNat
  | ⟨_, i⟩ => i

def Call.unmoved : Call → Nat
  | ⟨.wrote r, _⟩ => r.toNat
  | _ => 0

def Call.inside : Call → Nat
  | ⟨.hold, _⟩ | ⟨.wrote _, _⟩ | ⟨.moved _, _⟩ => 1
  | _ => 0

/-- Where a call can be that writes all its bytes. -/
def Call.ok (n : Nat) : Call → Prop
  | ⟨.loop, i⟩ => i ≤ n
  | ⟨.hold, i⟩ => i < n
  | ⟨.wrote r, i⟩ | ⟨.moved r, i⟩ => i < n ∧ r = turnLength n i
  | ⟨.ended, i⟩ => i = n
  | ⟨.returned ret, i⟩ => i = n ∧ ret = n

/-- The file got the parts in pieces of at most 3 blocks, those of each call in order. -/
def Merged (old new : List UInt8) (part : C → List UInt8) : Prop :=
  ∃ chunks : List (C × List UInt8), new = old ++ (chunks.map Prod.snd).flatten ∧
    (∀ chunk ∈ chunks, chunk.2.length ≤ 3 * bSize) ∧
    ∀ c, ((chunks.filter fun chunk => chunk.1 = c).map Prod.snd).flatten = part c

variable {ip : Ip} {i : Nat} {data : C → List UInt8} {old : List UInt8} {x : Shared C}

omit [DecidableEq C] in
theorem onFs_ends {A : Type} {m : M A} {good : A → Fs → Prop} {bad : String → Prop} (ends : Ends m x.fs good bad) :
    Ends (onFs m) x (fun a y => ∃ fs, good a fs ∧ y = x.setFs fs) bad := by
  unfold Ends onFs at *
  cases res : m x.fs with
  | error msg =>
    rw [res] at ends
    exact ends
  | ok pair =>
    rw [res] at ends
    exact ⟨pair.2, ends, rfl⟩

theorem sameFiles_refl {s : Fs} (inv : Inv s) (ip : Ip) : SameFiles s s ip := ⟨inv, ⟨rfl, rfl⟩, rfl, rfl, fun _ => rfl⟩

theorem merged_snoc {new piece : List UInt8} {part part' : C → List UInt8} (merged : Merged old new part)
    (short : piece.length ≤ 3 * bSize) (mine : part' c = part c ++ piece) (others : ∀ d, d ≠ c → part' d = part d) :
    Merged old (new ++ piece) part' := by
  obtain ⟨chunks, all, bounded, each⟩ := merged
  refine ⟨chunks ++ [(c, piece)], ?_, ?_, ?_⟩
  · rw [all]
    simp
  · intro chunk mem
    rcases List.mem_append.mp mem with prev | last
    · exact bounded chunk prev
    rw [List.mem_singleton.mp last]
    exact short
  intro d
  rw [List.filter_append, List.map_append, List.flatten_append, each d]
  by_cases me : d = c
  · rw [me, mine]
    simp
  rw [others d me]
  simp [Ne.symm me]

theorem addrFrom_first (data : List UInt8) {i m : Nat} (lt : i + m ≤ data.length) :
    (addrFrom data i).first m = (data.drop i).take m := by
  refine List.ext_getElem ?_ fun t first snd => ?_
  · simp [Buffer.first]
    omega
  simp [Buffer.first] at first snd
  simp [Buffer.first, addrFrom]
  rw [List.getElem?_eq_getElem (by omega), Option.getD_some]

theorem turnLength_bounds {n j : Nat} (more : j < n) :
    0 < turnLength n j ∧ j + turnLength n j ≤ n ∧ turnLength n j ≤ 3 * bSize := by
  have limit : maxWrite = 3 * bSize := rfl
  have pos : 0 < maxWrite := by decide
  unfold turnLength
  split <;> omega

theorem written_rest {n : Nat} {k : Call} (ok : k.ok n) : k.written + (n - k.written) = n := by
  obtain ⟨pc, i⟩ := k
  cases pc with
  | loop => exact Nat.add_sub_cancel' ok
  | hold => exact Nat.add_sub_cancel' (Nat.le_of_lt ok)
  | wrote r | moved r =>
    obtain ⟨more, rfl⟩ := ok
    have bounds := turnLength_bounds more
    simp only [Call.written]
    omega
  | ended => exact Nat.add_sub_cancel' (Nat.le_of_eq ok)
  | returned ret => exact Nat.add_sub_cancel' (Nat.le_of_eq ok.1)

variable [Fintype C]

structure Good (ip : Ip) (i : Nat) (data : C → List UInt8) (old : List UInt8) (x : Shared C) : Prop where
  opened : Opened x.fs ip i
  lock : ∑ c, (x.call c).inside = (x.fs.itable ip).locked.toNat
  calls : ∀ c, (x.call c).ok (data c).length
  size : (view x.fs i).size.toNat = old.length + ∑ c, (x.call c).written
  off : x.off.toNat + ∑ c, (x.call c).unmoved = (view x.fs i).size.toNat
  room : Room x.fs i (∑ c, ((data c).length - (x.call c).written))
  merged : Merged old (contents x.fs i) fun c => (data c).take (x.call c).written

theorem good_quiet (good : Good ip i data old x) {fs : Fs} {off : UInt32} {k : Call} (opened : Opened fs ip i)
    (same : SameFiles x.fs fs ip) (ok : k.ok (data c).length) (written : k.written = (x.call c).written)
    (lock : (x.fs.itable ip).locked.toNat + k.inside = (fs.itable ip).locked.toNat + (x.call c).inside)
    (moved : off.toNat + k.unmoved = x.off.toNat + (x.call c).unmoved) :
    Good ip i data old (((x.setFs fs).setOff off).goto c k) := by
  have kept : ∀ d, (update x.call c k d).written = (x.call d).written := by
    intro d
    by_cases me : d = c
    · rw [me, update_self, written]
    · rw [update_of_ne me]
  refine ⟨opened, ?_, ?_, ?_, ?_, ?_, ?_⟩
  · have count := sum_update x.call (fun _ => Call.inside) c k
    have prev := good.lock
    change ∑ d, (update x.call c k d).inside = (fs.itable ip).locked.toNat
    omega
  · intro d
    change (update x.call c k d).ok _
    by_cases me : d = c
    · rw [me, update_self]
      exact ok
    rw [update_of_ne me]
    exact good.calls d
  · change (view fs i).size.toNat = _ + ∑ d, (update x.call c k d).written
    rw [same.view, good.size, Finset.sum_congr rfl fun d _ => kept d]
  · have count := sum_update x.call (fun _ => Call.unmoved) c k
    have prev := good.off
    change off.toNat + ∑ d, (update x.call c k d).unmoved = (view fs i).size.toNat
    rw [same.view]
    omega
  · change Room fs i (∑ d, ((data d).length - (update x.call c k d).written))
    rw [Finset.sum_congr rfl fun d _ => by rw [kept d]]
    exact room_same same good.room
  change Merged old (contents fs i) fun d => (data d).take (update x.call c k d).written
  simp only [kept]
  rw [contents_same same]
  exact good.merged

theorem good_locked (good : Good ip i data old x) (mine : (x.call c).inside = 1) : (x.fs.itable ip).locked = true := by
  have one := le_sum (fun d => (x.call d).inside) c
  have count := good.lock
  cases lock : (x.fs.itable ip).locked with
  | true => rfl
  | false =>
    rw [lock] at count
    simp only [Bool.toNat_false] at count
    omega

theorem good_off (good : Good ip i data old x) (mine : (x.call c).inside = 1)
    (prev : (x.call c).unmoved = 0) : x.off.toNat = (view x.fs i).size.toNat := by
  have count := good.lock
  have bound := (x.fs.itable ip).locked.toNat_le
  have none : ∑ d, (x.call d).unmoved = 0 := by
    refine Finset.sum_eq_zero fun d _ => ?_
    by_cases me : d = c
    · rw [me]
      exact prev
    have two := two_le_sum (fun d => (x.call d).inside) me
    have out : (x.call d).inside = 0 := by omega
    generalize x.call d = k at out
    obtain ⟨pc, j⟩ := k
    cases pc with
    | wrote r => cases out
    | _ => rfl
  have off := good.off
  omega

theorem good_writes (fits : old.length + ∑ c, (data c).length ≤ maxFile * bSize) (good : Good ip i data old x)
    {j : Nat} (hold : x.call c = ⟨.hold, j⟩) :
    Ends (writei ip (addrFrom (data c) j) x.off.toNat (turnLength (data c).length j)) x.fs
      (fun r fs => r = turnLength (data c).length j ∧ Good ip i data old ((x.setFs fs).goto c ⟨.wrote r, j⟩))
      (fun _ => False) := by
  have more : j < (data c).length := by
    have ok := good.calls c
    rw [hold] at ok
    exact ok
  have pos := turnLength_bounds more
  generalize length : turnLength (data c).length j = n1 at pos
  have locked := good_locked good (c := c) (by rw [hold]; rfl)
  have atEnd := good_off good (c := c) (by rw [hold]; rfl) (by rw [hold]; rfl)
  -- The bytes still to come, with and without those of this turn.
  let k : Call := ⟨.wrote n1, j⟩
  have mine : (x.call c).written = j ∧ k.written = j + n1 ∧ (x.call c).unmoved = 0 ∧ (x.call c).inside = 1 := by
    rw [hold]
    exact ⟨rfl, rfl, rfl, rfl⟩
  have count := sum_update x.call (fun _ => Call.written) c k
  have rest := sum_update x.call (fun d k => (data d).length - k.written) c k
  have others : ∑ d, (update x.call c k d).written + ∑ d, ((data d).length - (update x.call c k d).written) =
      ∑ d, (data d).length := by
    rw [← Finset.sum_add_distrib]
    refine Finset.sum_congr rfl fun d _ => ?_
    have ok := good.calls d
    by_cases me : d = c
    · rw [me, update_self]
      omega
    rw [update_of_ne me]
    exact written_rest ok
  generalize after : ∑ d, ((data d).length - (update x.call c k d).written) = left at rest others
  have room : Room x.fs i (n1 + left) := by
    have same : n1 + left = ∑ d, ((data d).length - (x.call d).written) := by omega
    rw [same]
    exact good.room
  have size := good.size
  rw [atEnd]
  apply ends_better (writei_appends good.opened locked (addrFrom (data c) j) rfl pos.1 (by omega) room)
  rintro r fs ⟨rfl, opened, locked', longer, file, room'⟩
  refine ⟨rfl, opened, ?_, ?_, ?_, ?_, ?_, ?_⟩
  · have inside := sum_update x.call (fun _ => Call.inside) c k
    have prev := good.lock
    have one : k.inside = 1 := rfl
    change ∑ d, (update x.call c k d).inside = (fs.itable ip).locked.toNat
    rw [locked'] 
    rw [locked] at prev
    omega
  · intro d
    change (update x.call c k d).ok _
    by_cases me : d = c
    · rw [me, update_self]
      exact ⟨more, by rw [length]⟩
    rw [update_of_ne me]
    exact good.calls d
  · change (view fs i).size.toNat = _ + ∑ d, (update x.call c k d).written
    omega
  · have unmoved := sum_update x.call (fun _ => Call.unmoved) c k
    have off := good.off
    have some : k.unmoved = n1 := rfl
    change x.off.toNat + ∑ d, (update x.call c k d).unmoved = (view fs i).size.toNat
    omega
  · change Room fs i (∑ d, ((data d).length - (update x.call c k d).written))
    rw [after]
    exact room'
  change Merged old (contents fs i) fun d => (data d).take (update x.call c k d).written
  rw [file]
  refine merged_snoc (c := c) good.merged ?_ ?_ fun d other => ?_
  · simp only [Buffer.first, List.length_map, List.length_range]
    exact pos.2.2
  · rw [update_self, mine.1, mine.2.1, addrFrom_first _ pos.2.1, List.take_add]
  · rw [update_of_ne other]

def Call.rank (n : Nat) : Call → Nat
  | ⟨.loop, i⟩ => 4 * (n - i) + 2
  | ⟨.hold, i⟩ => 4 * (n - i) + 1
  | ⟨.wrote _, i⟩ => 4 * (n - i)
  | ⟨.moved _, i⟩ => 4 * (n - i) - 1
  | ⟨.ended, _⟩ => 1
  | ⟨.returned _, _⟩ => 0

/-- Every step brings its call nearer to the return. -/
def rank (data : C → List UInt8) (x : Shared C) : Nat := ∑ c, (x.call c).rank (data c).length

theorem rank_goto {y : Shared C} {k : Call} (same : y.call = x.call)
    (less : k.rank (data c).length < (x.call c).rank (data c).length) : rank data (y.goto c k) < rank data x := by
  have count := sum_update x.call (fun d k => k.rank (data d).length) c k
  change ∑ d, (update y.call c k d).rank (data d).length < ∑ d, (x.call d).rank (data d).length
  rw [same]
  omega

theorem off_moves {off : UInt32} {r : Int} (pos : 0 ≤ r) (small : off.toNat + r.toNat < 0x100000000) :
    (off + UInt32.ofInt r).toNat = off.toNat + r.toNat := by
  obtain ⟨n, rfl⟩ := Int.eq_ofNat_of_zero_le pos
  rw [Int.toNat_natCast] at small ⊢
  rw [UInt32.toNat_add, UInt32.ofInt, UInt32.toNat_ofNat']
  omega

theorem good_step (fits : old.length + ∑ c, (data c).length ≤ maxFile * bSize) (good : Good ip i data old x) (c : C) :
    Ends (filewriteStep ip data c) x (fun moved y => (moved = true → Good ip i data old y ∧ rank data y < rank data x) ∧
        (moved = false → (x.call c).pc = .returned (data c).length ∨ (x.call c).pc = .loop ∧ (x.fs.itable ip).locked = true))
      (fun _ => False) := by
  have ok := good.calls c
  have start := sameFiles_refl good.opened.inv ip
  generalize call : x.call c = k at ok
  obtain ⟨pc, j⟩ := k
  have at_pc : (x.call c).pc = pc := by rw [call]
  unfold filewriteStep
  apply get_then
  simp only [call]
  cases pc with
  | loop =>
    refine ends_ite (fun more => ends_ite (fun locked => ?_) fun unlocked => ?_) fun done => modify_then (ends_pure ?_)
    · exact ends_pure ⟨by rintro ⟨⟩, fun _ => .inr ⟨rfl, locked⟩⟩
    · have free := eq_false_of_ne_true unlocked
      apply ends_bind (onFs_ends (ilock_opened good.opened free))
      rintro _ y ⟨fs, ⟨opened, locked, same⟩, rfl⟩
      refine modify_then (ends_pure ⟨fun _ => ⟨?_, rank_goto rfl ?_⟩, nofun⟩)
      · refine good_quiet good opened same more ?_ ?_ ?_
        · rw [call]
          rfl
        · rw [call, free, locked]
          rfl
        rw [call]
        rfl
      rw [call]
      exact Nat.lt_succ_self _
    have whole : j = (data c).length := Nat.le_antisymm ok (Nat.not_lt.mp done)
    refine ⟨fun _ => ⟨?_, rank_goto rfl ?_⟩, nofun⟩
    · refine good_quiet good good.opened start whole ?_ ?_ ?_ <;> rw [call] <;> rfl
    rw [call]
    change 1 < _ + 2
    omega
  | hold =>
    apply ends_bind (onFs_ends (good_writes fits good call))
    rintro r y ⟨fs, ⟨-, good'⟩, rfl⟩
    refine modify_then (ends_pure ⟨fun _ => ⟨good', rank_goto rfl ?_⟩, nofun⟩)
    rw [call]
    exact Nat.lt_succ_self _
  | wrote r =>
    obtain ⟨more, length⟩ := ok
    have pos : 0 < r := by
      rw [length]
      exact_mod_cast (turnLength_bounds more).1
    have small : x.off.toNat + r.toNat < 0x100000000 := by
      have part := le_sum (fun d => (x.call d).unmoved) c
      have total := good.off
      have bound := (view x.fs i).size.toNat_lt
      have mine : (x.call c).unmoved = r.toNat := by
        rw [call]
        rfl
      omega
    refine ends_ite (fun _ => modify_then (modify_then (ends_pure ?_))) fun none => absurd pos none
    refine ⟨fun _ => ⟨?_, rank_goto rfl ?_⟩, nofun⟩
    · refine good_quiet good good.opened start ⟨more, length⟩ ?_ ?_ ?_
      · rw [call]
        rfl
      · rw [call]
        rfl
      rw [call]
      exact off_moves (Int.le_of_lt pos) small
    rw [call]
    change 4 * (_ - _) - 1 < 4 * (_ - _)
    omega
  | moved r =>
    obtain ⟨more, length⟩ := ok
    have locked := good_locked good (c := c) (by rw [call]; rfl)
    apply ends_bind (onFs_ends (iunlock_opened good.opened locked))
    rintro _ y ⟨fs, ⟨opened, unlocked, same⟩, rfl⟩
    refine ends_ite (fun stops => absurd length stops) fun _ => modify_then (ends_pure ⟨fun _ => ⟨?_, rank_goto rfl ?_⟩, nofun⟩)
    · refine good_quiet good opened same ?_ ?_ ?_ ?_
      · have bounds := turnLength_bounds more
        change j + r.toNat ≤ _
        omega
      · rw [call]
        rfl
      · rw [call, locked, unlocked]
        rfl
      rw [call]
      rfl
    rw [call]
    change 4 * (_ - _) + 2 < 4 * (_ - _) - 1
    have bounds := turnLength_bounds more
    omega
  | ended =>
    have whole : j = (data c).length := ok
    refine modify_then (ends_pure ⟨fun _ => ⟨?_, rank_goto rfl ?_⟩, nofun⟩)
    · refine good_quiet good good.opened start ⟨whole, if_pos whole⟩ ?_ ?_ ?_ <;> rw [call] <;> rfl
    rw [call]
    exact Nat.zero_lt_one
  | returned ret =>
    obtain ⟨-, all⟩ := ok
    exact ends_pure ⟨by rintro ⟨⟩, fun _ => .inl (by rw [all])⟩

theorem good_start {x₀ : Shared C} (fresh : ∀ c, x₀.call c = ⟨.loop, 0⟩) (opened : Opened x₀.fs ip i)
    (unlocked : (x₀.fs.itable ip).locked = false) (atEnd : x₀.off = (view x₀.fs i).size)
    (room : Room x₀.fs i (∑ c, (data c).length)) : Good ip i data (contents x₀.fs i) x₀ := by
  refine ⟨opened, ?_, fun c => ?_, ?_, ?_, ?_, ?_⟩
  · rw [unlocked]
    exact Finset.sum_eq_zero fun c _ => by rw [fresh c]; rfl
  · rw [fresh c]
    exact Nat.zero_le _
  · rw [contents_length, Finset.sum_eq_zero fun c _ => by rw [fresh c]; rfl, Nat.add_zero]
  · rw [atEnd, Finset.sum_eq_zero fun c _ => by rw [fresh c]; rfl, Nat.add_zero]
  · simp only [fresh]
    exact room
  simp only [fresh]
  exact ⟨[], by simp, by simp, fun c => rfl⟩

theorem good_run (fits : old.length + ∑ c, (data c).length ≤ maxFile * bSize) {x₀ : Shared C}
    (good : Good ip i data old x₀) {cs : List C} (run : Run (Steps ip data) x₀ cs x) :
    Good ip i data old x ∧ cs.length + rank data x ≤ rank data x₀ := by
  induction run with
  | nil => exact ⟨good, by simp⟩
  | snoc prev last ih =>
    obtain ⟨good', less⟩ := (ends_ok (good_step fits ih.1 _) last).1 rfl
    refine ⟨good', ?_⟩
    rw [List.length_append, List.length_singleton]
    omega

theorem good_progress (fits : old.length + ∑ c, (data c).length ≤ maxFile * bSize) (good : Good ip i data old x) :
    (∃ c y, Steps ip data x c y) ∨ ∀ c, (x.call c).pc = .returned (data c).length := by
  have go : ∀ c, (x.call c).pc ≠ .returned (data c).length →
      ((x.call c).pc = .loop → (x.fs.itable ip).locked = false) → ∃ c y, Steps ip data x c y := by
    intro c unfinished free
    obtain ⟨moved, y, res, -, waits⟩ := ends_total (good_step fits good c)
    cases moved with
    | true => exact ⟨c, y, res⟩
    | false =>
      rcases waits rfl with done | ⟨loop, locked⟩
      · exact absurd done unfinished
      rw [free loop] at locked
      cases locked
  by_cases done : ∀ c, (x.call c).pc = .returned (data c).length
  · exact .inr done
  refine .inl ?_
  cases lock : (x.fs.itable ip).locked with
  | false =>
    rw [not_forall] at done
    obtain ⟨c, unfinished⟩ := done
    exact go c unfinished fun _ => lock
  | true =>
    have count := good.lock
    rw [lock] at count
    obtain ⟨c, -, mine⟩ := Finset.exists_ne_zero_of_sum_ne_zero (count.trans_ne Nat.one_ne_zero)
    generalize call : x.call c = k at mine
    obtain ⟨pc, j⟩ := k
    refine go c ?_ ?_ <;> rw [call] <;> rintro rfl <;> exact absurd rfl mine

end

def twoCalls : Shared Bool := ⟨Xv6Logged.tinyOpen, 0, fun _ => ⟨.loop, 0⟩⟩

def twoBytes : Bool → List UInt8
  | true => [7]
  | false => [9]

def filewriteNext (x : Shared Bool) (c : Bool) : Option (Shared Bool) :=
  match filewriteStep 0 twoBytes c x with
  | .ok (true, y) => some y
  | _ => none

theorem filewriteNext_steps (x : Shared Bool) (c : Bool) (y : Shared Bool) (next : filewriteNext x c = some y) :
    Steps 0 twoBytes x c y := by
  unfold filewriteNext at next
  unfold Steps
  split at next
  · next res =>
    cases next
    exact res
  · cases next

def twoTurns : List Bool := [true, true, true, true, false, true, false, false, true, false, false, false]

end Xv6Filewrite
