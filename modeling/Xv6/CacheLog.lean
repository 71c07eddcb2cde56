import Xv6.CacheTransparent

/- Whole runs of the buffer cache with the log: what bread returns, which buffers stay, and
   what install_trans copies. -/
namespace Xv6Store
open Xv6 Xv6Bio Threads Prog Function
set_option linter.unusedSectionVars false

section
variable {T D : Type} [Fintype T] [DecidableEq T] {area : Area} {s s' : Store T D} {l : T → Ledger} {t : T}

def Area.Holds (area : Area) (n : Nat) : Prop := area.start ≤ n ∧ n < area.start + area.size

/-- Nobody gives log_write a block of the log itself, or new contents to a place of the log,
    or, during a commit, to a block that is listed. -/
def undisturbed (area : Area) (s : Store T D) (_ : T → Ledger) (_ : T) : Op D → Prop
  | .modify b _ => ¬ (area.start < (s.buf b).blockno ∧ (s.buf b).blockno < area.start + area.size) ∧
    (s.committing = true → (s.buf b).blockno ∉ s.lh)
  | .logWrite b => ¬ area.Holds (s.buf b).blockno
  | _ => True

/-- What write_log has copied is in the log as long as the commit runs. -/
structure Copied (area : Area) (s : Store T D) (l : T → Ledger) : Prop where
  outside : ∀ n ∈ s.lh, ¬ area.Holds n
  room : s.lh ≠ [] → s.lh.length < area.size
  copies : ∀ t i n, (l t).commit ≠ none → i < (l t).copied → s.lh[i]? = some n →
    s.given area.dev (area.start + i + 1) = s.given area.dev n

theorem copied_place (copied : Copied area s l) {i n : Nat} (block : s.lh[i]? = some n) :
    area.start < area.start + i + 1 ∧ area.start + i + 1 < area.start + area.size := by
  have inside := (List.getElem?_eq_some_iff.mp block).1
  have room := copied.room (by
    intro empty
    rw [empty] at inside
    cases inside)
  omega

theorem copied_listed (copied : Copied area s l) {i n : Nat} (block : s.lh[i]? = some n) : ¬ area.Holds n := by
  obtain ⟨inside, rfl⟩ := List.getElem?_eq_some_iff.mp block
  exact copied.outside _ (List.getElem_mem inside)

theorem copied_same (copied : Copied area s l) (s' : Store T D) {h : Ledger} (lh : s'.lh = s.lh)
    (given : s'.given area.dev = s.given area.dev)
    (commit : h.commit ≠ none → (l t).commit ≠ none ∧ h.copied = (l t).copied) : Copied area s' (update l t h) := by
  constructor
  · rw [lh]
    exact copied.outside
  · rw [lh]
    exact copied.room
  intro u i n
  rw [lh, given]
  by_cases me : u = t
  · rw [me, update_self]
    intro stage
    rw [(commit stage).2]
    exact copied.copies t i n (commit stage).1
  rw [update_of_ne me]
  exact copied.copies u i n

theorem copied_give (copied : Copied area s l) {b : Buf} (data : D) {h : Ledger}
    (place : ∀ i n, s.lh[i]? = some n → (s.buf b).blockno ≠ area.start + i + 1)
    (listed : (∃ u, (l u).commit ≠ none) → (s.buf b).blockno ∉ s.lh) (dev : (s.buf b).dev = area.dev)
    (commit : h.commit = (l t).commit) (same : h.copied = (l t).copied) :
    Copied area (s.give b data) (update l t h) := by
  refine ⟨copied.outside, copied.room, ?_⟩
  intro u i n stage prev block
  have old : (l u).commit ≠ none ∧ i < (l u).copied := by
    by_cases me : u = t
    · rw [me, update_self] at stage prev
      rw [me]
      exact ⟨commit ▸ stage, same ▸ prev⟩
    rw [update_of_ne me] at stage prev
    exact ⟨stage, prev⟩
  have other : n ≠ (s.buf b).blockno := by
    rintro rfl
    exact listed ⟨u, old.1⟩ (List.mem_of_getElem? block)
  have kept := copied.copies u i n old.1 old.2 block
  simp only [Store.give, dev, update_self, update_of_ne other, update_of_ne (place i n block).symm]
  exact kept

theorem copied_toLog (inv : Inv area s l) (copied : Copied area s l) {tail n : Nat} {lh : List Nat} {dst src : Buf}
    (stage : (l t).commit ≠ none) (here : tail = (l t).copied) (known : (l t).lh = some lh)
    (block : lh[tail]? = some n) (reads : (l t).Reads src n)
    (place : (l t).Reads dst (area.start + tail + 1)) {h : Ledger} (more : h.copied = (l t).copied + 1) :
    Copied area (s.give dst (s.buf src).data) (update l t h) := by
  obtain ⟨shape, contents, transactions⟩ := inv
  obtain ⟨k, at_k⟩ := Option.ne_none_iff_exists'.mp stage
  have lh_same := (transactions.commit t k at_k).2.2 lh known
  rw [← lh_same] at block
  obtain ⟨use, mine, ready, rfl⟩ := reads
  obtain ⟨use', mine', -, at_dst⟩ := place
  have there := shape.held t dst use' mine'
  rw [at_dst] at there
  have data : (s.buf src).data = s.given area.dev use.blockno := by
    have caches := shape.held t src use mine
    rw [contents.given src caches.1 (contents.ready t src use mine ready), caches.2]
  refine ⟨copied.outside, copied.room, ?_⟩
  intro u i m at_u prev block'
  have me : u = t := by
    by_contra other
    rw [update_of_ne other] at at_u
    exact other (transactions.alone u t at_u stage)
  rw [me, update_self, more] at prev
  have apart : ∀ (j m : Nat), s.lh[j]? = some m → m ≠ area.start + tail + 1 := by
    rintro j m at_j rfl
    have inside := copied_place copied block
    exact copied_listed copied at_j ⟨by omega, inside.2⟩
  simp only [Store.give, there.1, there.2, update_self, update_of_ne (apart i m block')]
  change (s.lh)[i]? = some m at block'
  by_cases last : i = tail
  · subst i
    rw [update_self, data]
    rw [block] at block'
    rw [Option.some.inj block']
  rw [update_of_ne (by omega)]
  exact copied.copies t i m stage (by omega) block'

theorem toHome_same (inv : Inv area s l) (copied : Copied area s l) {tail : Nat} {dst src : Buf}
    (prev : tail < (l t).copied) (pairs : (l t).Pairs area tail src dst) :
    (s.buf dst).dev = area.dev ∧ (s.buf dst).data = (s.buf src).data ∧
      (s.buf src).data = s.given area.dev (s.buf dst).blockno := by
  obtain ⟨shape, contents, transactions⟩ := inv
  obtain ⟨stage, lh, n, known, block, ⟨use, mine, ready, rfl⟩, ⟨use', mine', ready', at_src⟩⟩ := pairs
  obtain ⟨k, at_k⟩ := Option.ne_none_iff_exists'.mp stage
  rw [← (transactions.commit t k at_k).2.2 lh known] at block
  have there := shape.held t dst use mine
  have here := shape.held t src use' mine'
  have dataDst := contents.given dst there.1 (contents.ready t dst use mine ready)
  have dataSrc := contents.given src here.1 (contents.ready t src use' mine' ready')
  have eq := copied.copies t tail use.blockno stage prev block
  rw [there.2] at dataDst
  rw [here.2, at_src, eq] at dataSrc
  refine ⟨there.1, ?_, ?_⟩
  · rw [dataDst, dataSrc]
  · rw [there.2, dataSrc]

theorem given_self {b : Buf} {data : D} (same : data = s.given (s.buf b).dev (s.buf b).blockno) :
    (s.give b data).given = s.given := by
  simp [Store.give, same]

theorem copied_sound (dev : area.dev ≠ 0) : Threads.Sound (storeRules (T := T) (D := D) area)
    (undisturbed area) fun s l => Inv area s l ∧ Copied area s l := by
  rintro s l t o a s' ⟨inv, copied⟩ calm ok done
  obtain ⟨fits, kept⟩ := store_sound dev s l t o a s' inv trivial ok done
  refine ⟨fits, kept, ?_⟩
  cases o with
  | bget dev n =>
    obtain ⟨r, found, made⟩ := Option.map_eq_some_iff.mp done
    cases made
    exact copied_same copied _ rfl rfl fun stage => ⟨stage, rfl⟩
  | acquiresleep b =>
    obtain ⟨n, wait⟩ := ok
    simp only [storeRules, next] at done
    split at done
    · cases done
      simp only [storeRules, book, wait]
      exact copied_same copied _ rfl rfl fun stage => ⟨stage, rfl⟩
    · cases done
  | readIn b =>
    simp only [storeRules, next] at done
    split at done
    · cases done
      exact copied_same copied _ rfl rfl fun stage => ⟨stage, rfl⟩
    cases done
    exact copied_same copied _ rfl rfl fun stage => ⟨stage, rfl⟩
  | modify b f =>
    obtain ⟨use, mine, -⟩ := ok
    cases done
    refine copied_give copied _ ?_ ?_ (inv.shape.held t b use mine).1 rfl rfl
    · intro i n block eq
      have place := copied_place copied block
      rw [← eq] at place
      exact calm.1 place
    rintro ⟨u, stage⟩
    obtain ⟨i, stage⟩ := Option.ne_none_iff_exists'.mp stage
    exact calm.2 (inv.transactions.commit u i stage).1
  | toLog tail dst src =>
    obtain ⟨here, stage, lh, n, known, block, home, place⟩ := ok
    cases done
    exact copied_toLog inv copied stage here known block home place rfl
  | toHome tail dst src =>
    obtain ⟨prev, pairs⟩ := ok
    obtain ⟨onDev, -, data⟩ := toHome_same inv copied prev pairs
    cases done
    refine copied_same copied _ rfl ?_ fun stage => ⟨stage, rfl⟩
    rw [given_self (by rw [onDev, data])]
  | bwrite b | releasesleep b =>
    simp only [storeRules, next] at done
    split at done
    · cases done
      exact copied_same copied _ rfl rfl fun stage => ⟨stage, rfl⟩
    · cases done
  | brelse b | getLh =>
    cases done
    exact copied_same copied _ rfl rfl fun stage => ⟨stage, rfl⟩
  | bunpin b =>
    obtain ⟨i, lh, use, stage, -⟩ := ok
    cases done
    exact copied_same copied _ rfl rfl fun _ => ⟨by simp [stage], rfl⟩
  | logWrite b =>
    simp only [storeRules, next] at done
    split at done
    · cases done
    rename_i room
    split at done
    · cases done
    rename_i inside
    have nobody : ∀ u, (l u).commit = none := by
      intro u
      by_contra stage
      obtain ⟨i, stage⟩ := Option.ne_none_iff_exists'.mp stage
      have none := inv.transactions.quiet (inv.transactions.commit u i stage).1
      omega
    split at done
    · cases done
      exact copied_same copied _ rfl rfl fun stage => ⟨stage, rfl⟩
    cases done
    refine ⟨?_, ?_, ?_⟩
    · intro n listed
      rcases List.mem_append.mp listed with listed | last
      · exact copied.outside n listed
      rw [List.mem_singleton.mp last]
      exact calm
    · intro _
      change (s.lh ++ [_]).length < area.size
      simp only [List.length_append, List.length_singleton]
      omega
    intro u i n stage
    refine absurd ?_ stage
    by_cases me : u = t
    · rw [me, update_self]
      exact nobody t
    rw [update_of_ne me]
    exact nobody u
  | beginOp =>
    simp only [storeRules, next] at done
    split at done
    · cases done
    cases done
    exact copied_same copied _ rfl rfl fun stage => ⟨stage, rfl⟩
  | endOp =>
    simp only [storeRules, next] at done
    split at done
    · cases done
    split at done
    · cases done
      refine ⟨copied.outside, copied.room, ?_⟩
      intro u i n
      by_cases me : u = t
      · rw [me, update_self]
        intro _ prev
        cases prev
      rw [update_of_ne me]
      exact copied.copies u i n
    cases done
    exact copied_same copied _ rfl rfl fun stage => ⟨stage, rfl⟩
  | endCommit =>
    cases done
    exact copied_same copied _ rfl rfl fun stage => absurd rfl stage
  | clearLh =>
    cases done
    refine ⟨?_, ?_, ?_⟩
    · intro n listed
      cases listed
    · intro some
      exact absurd rfl some
    intro u i n _ _ block
    cases block

theorem next_keeps (inv : Inv area s l) {o : Op D} {a : Ans o} (done : next area t o s = some (a, s'))
    {b : Buf} {n : Nat} (here : (s.buf b).Caches area.dev n) (listed : n ∈ s.pinned) :
    (s'.buf b).Caches area.dev n := by
  have count := inv.shape.count b
  rw [pin_of here listed] at count
  have same : ∀ b' x, x.Caches (s.buf b').dev (s.buf b').blockno → ((s.setBuf b' x).buf b).Caches area.dev n := by
    intro b' x caches
    rw [buf_setBuf]
    by_cases eq : b = b'
    · subst b'
      rw [update_self]
      exact ⟨caches.1.trans here.1, caches.2.trans here.2⟩
    rw [update_of_ne eq]
    exact here
  cases o with
  | bget dev m =>
    obtain ⟨⟨b', cache⟩, found, made⟩ := Option.map_eq_some_iff.mp done
    cases made
    rcases bget_spec inv.shape.sound found with ⟨-, rfl⟩ | ⟨-, unused, rfl⟩
    · exact same b' _ ⟨rfl, rfl⟩
    have other : b ≠ b' := by
      rintro rfl
      change (s.buf b).refcnt = 0 at unused
      omega
    have kept := buf_setBuf s b' ((s.buf b').recycle dev m)
    change ((s.setBuf b' ((s.buf b').recycle dev m)).buf b).Caches area.dev n
    rw [kept, update_of_ne other]
    exact here
  | acquiresleep b' | releasesleep b' =>
    simp only [next] at done
    split at done
    · cases done
      exact same b' _ ⟨rfl, rfl⟩
    · cases done
  | readIn b' =>
    simp only [next] at done
    split at done
    · cases done
      exact here
    cases done
    exact same b' _ ⟨rfl, rfl⟩
  | modify dst f | toLog tail dst src | toHome tail dst src =>
    cases done
    exact same dst _ ⟨rfl, rfl⟩
  | bwrite b' =>
    simp only [next] at done
    split at done
    · cases done
      exact here
    · cases done
  | brelse b' =>
    cases done
    have kept := same b' ((s.buf b').setRefcnt ((s.buf b').refcnt - 1)) ⟨rfl, rfl⟩
    rw [buf_setBuf] at kept
    unfold Store.buf Store.setCache
    rw [brelse_buf]
    exact kept
  | bunpin b' =>
    cases done
    exact same b' _ ⟨rfl, rfl⟩
  | logWrite b' =>
    simp only [next] at done
    split at done
    · cases done
    split at done
    · cases done
    split at done
    · cases done
      exact here
    cases done
    exact same b' _ ⟨rfl, rfl⟩
  | beginOp =>
    simp only [next] at done
    split at done
    · cases done
    cases done
    exact here
  | endOp =>
    simp only [next] at done
    split at done
    · cases done
    split at done
    · cases done
      exact here
    cases done
    exact here
  | endCommit | getLh | clearLh =>
    cases done
    exact here

end

/- Whole runs. -/

section
variable {T D : Type} [DecidableEq T]

def startStore (ptrs : Ring.Ptrs (Option Buf)) (data : Buf → D) (disk : Nat → D) : Store T D :=
  ⟨binit (blankCache ptrs data), disk, 0, false, [], fun _ => disk, 0⟩

def emptyLedger : Ledger := ⟨0, none, fun _ => none, none, none, none, 0⟩

abbrev Machine (T D : Type) := Config T (Op D) Ans (Store T D) Ledger

def startMachine (ptrs : Ring.Ptrs (Option Buf)) (data : Buf → D) (disk : Nat → D) : Machine T D :=
  ⟨startStore ptrs data disk, fun _ => .ret (), fun _ => emptyLedger⟩

variable (area : Area) (putHead : List Nat → D → D)

def StoreStep : Machine T D → Event T (Call D) → Machine T D → Prop :=
  Step (storeRules area) fun _ what => what.code area putHead

/-- The process that starts a call keeps to the rule of the interface, on the log's device. -/
def Keeps (c : Machine T D) (e : Event T (Call D)) : Prop :=
  Permits (fun _ what l => what.Obeys l ∧ what.OnDevice area.dev) c e

variable [Fintype T] {area putHead}

theorem inv_start (dev : area.dev ≠ 0) (ptrs : Ring.Ptrs (Option Buf)) (data : Buf → D) (disk : Nat → D) :
    Inv area (startStore ptrs data disk : Store T D) fun _ => emptyLedger := by
  have sound : Sound (binit (blankCache ptrs data : Cache T D)) := sound_binit fun _ => rfl
  have zero : ∀ b, ((startStore ptrs data disk : Store T D).buf b).dev = 0 := fun _ => rfl
  have away : ∀ b n, ¬ ((startStore ptrs data disk : Store T D).buf b).Caches area.dev n := by
    rintro b n ⟨onDev, -⟩
    exact dev (onDev.symm.trans (zero b))
  refine ⟨⟨sound, ?_, ?_, ?_, ?_, ?_⟩, ⟨?_, ?_, ?_, ?_⟩, ?_⟩
  · intro t b
    constructor
    · intro held
      cases held
    intro held
    exact absurd rfl held
  · intro t b n waits
    cases waits
  · intro t b use held
    cases held
  · intro b
    have loose : pin area (startStore ptrs data disk : Store T D) b = 0 := if_neg fun there => away b _ there.1
    rw [loose]
    simp [uses, emptyLedger, isAt, oneUse]
    rfl
  · intro n listed
    cases listed
  · intro t b use held
    cases held
  · intro t b use held
    cases held
  · intro b onDev
    exact absurd ⟨onDev, rfl⟩ (away b _)
  · exact fun n => .inl rfl
  refine ⟨List.nodup_nil, Nat.zero_le _, ?_, ?_, ?_, ?_, fun _ => rfl⟩
  · simp [emptyLedger]
    rfl
  · intro t i stage
    cases stage
  · intro t u stage
    exact absurd rfl stage
  intro committing
  cases committing

theorem safe_start {inv : Store T D → (T → Ledger) → Prop} {ptrs : Ring.Ptrs (Option Buf)}
    {data : Buf → D} {disk : Nat → D} (holds : inv (startStore ptrs data disk) fun _ => emptyLedger) :
    Safe (storeRules (T := T) (D := D) area) inv (fun _ l => Rest l) (startMachine ptrs data disk) := by
  refine ⟨holds, ?_⟩
  intro t
  refine wp_pure ⟨⟨rfl, rfl⟩, rfl, ?_⟩
  intro b use held
  cases held

theorem install_copies (dev : area.dev ≠ 0) {ptrs : Ring.Ptrs (Option Buf)} {data : Buf → D}
    {disk : Nat → D} {es : List (Event T (Call D))} {c : Machine T D}
    (run : Runs.Run (Runs.Guarded (StoreStep area putHead) fun c e =>
      Keeps area c e ∧ Meets (undisturbed area) c e) (startMachine ptrs data disk) es c)
    {t : T} {tail : Nat} {dst src : Buf} {k : Unit → P D Unit} (now : c.code t = .op (.toHome tail dst src) k) :
    (c.state.buf dst).data = (c.state.buf src).data := by
  have empty : Copied area (startStore ptrs data disk : Store T D) fun _ => emptyLedger := by
    refine ⟨?_, fun some => absurd rfl some, ?_⟩
    · intro n listed
      cases listed
    intro t i n stage
    exact absurd rfl stage
  have safe := safe_within (copied_sound dev) (fun t what l rest may =>
    wp_call putHead what rest may.1 may.2) (safe_start ⟨inv_start dev ptrs data disk, empty⟩) run
  obtain ⟨prev, pairs⟩ := safe_allows safe now
  exact (toHome_same safe.inv.1 safe.inv.2 prev pairs).2.1

end

/- Closed runs, with contents that are numbers. -/

def Permitted (may : Fin 2 → Call Nat → Ledger → Prop) : Machine (Fin 2) Nat →
    Threads.Event (Fin 2) (Call Nat) → Machine (Fin 2) Nat → Prop :=
  Runs.Guarded (StoreStep ⟨1, 2, 30⟩ fun _ n => n) (Permits may)

def storeNext (may : Fin 2 → Call Nat → Ledger → Prop) [∀ t what l, Decidable (may t what l)]
    (c : Machine (Fin 2) Nat) (e : Threads.Event (Fin 2) (Call Nat)) : Option (Machine (Fin 2) Nat) :=
  permittedNext (storeRules ⟨1, 2, 30⟩) (fun t o s => next ⟨1, 2, 30⟩ t o s) may
    (fun _ what => what.code ⟨1, 2, 30⟩ fun _ n => n) c e

theorem storeNext_real (may : Fin 2 → Call Nat → Ledger → Prop) [∀ t what l, Decidable (may t what l)]
    (c : Machine (Fin 2) Nat) (e : Threads.Event (Fin 2) (Call Nat)) (d : Machine (Fin 2) Nat)
    (done : storeNext may c e = some d) : Permitted may c e d :=
  permittedNext_step (fun _ _ _ _ _ made => made) may _ c e d done

def onLogDevice (_ : Fin 2) (what : Call Nat) (l : Ledger) : Prop := what.Obeys l ∧ what.OnDevice 1

instance (t : Fin 2) (what : Call Nat) (l : Ledger) : Decidable (onLogDevice t what l) :=
  inferInstanceAs (Decidable (_ ∧ _))

def onAnyDevice (_ : Fin 2) (what : Call Nat) (l : Ledger) : Prop := what.Obeys l

instance (t : Fin 2) (what : Call Nat) (l : Ledger) : Decidable (onAnyDevice t what l) :=
  inferInstanceAs (Decidable (what.Obeys l))

def blankMachine : Machine (Fin 2) Nat :=
  startMachine ⟨fun _ => none, fun _ => none⟩ (fun _ => 0) fun _ => 0

def whole (t : Fin 2) (what : Call Nat) (n : Nat) : List (Threads.Event (Fin 2) (Call Nat)) :=
  .start t what :: List.replicate n (.step t)

def buf0 : Buf := ⟨0, by decide⟩
def buf1 : Buf := ⟨1, by decide⟩

def loggedWrite : List (Threads.Event (Fin 2) (Call Nat)) :=
  whole 0 .beginOp 1 ++ whole 0 (.bread 1 5) 3 ++ whole 0 (.modify buf0 fun _ => 7) 1 ++
    whole 0 (.logWrite buf0) 1 ++ whole 0 (.brelse buf0) 2 ++ whole 1 (.bread 1 5) 3

def afterLogged : Machine (Fin 2) Nat := Runs.after (storeNext onLogDevice) blankMachine loggedWrite

def firstDevice : List (Threads.Event (Fin 2) (Call Nat)) :=
  whole 0 (.bread 1 5) 3 ++ whole 0 (.modify buf0 fun _ => 1) 1 ++ whole 0 (.bwrite buf0) 1 ++
    whole 0 (.brelse buf0) 2 ++ whole 1 (.bread 2 5) 3

def secondDevice : List (Threads.Event (Fin 2) (Call Nat)) :=
  whole 1 (.modify buf1 fun _ => 2) 1 ++ whole 1 (.bwrite buf1) 1 ++ whole 1 (.brelse buf1) 2 ++
    whole 0 (.bread 1 5) 3

def afterFirst : Machine (Fin 2) Nat := Runs.after (storeNext onAnyDevice) blankMachine firstDevice

def afterSecond : Machine (Fin 2) Nat :=
  Runs.after (storeNext onAnyDevice) blankMachine (firstDevice ++ secondDevice)

end Xv6Store
