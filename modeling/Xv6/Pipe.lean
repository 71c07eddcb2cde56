import Xv6.KernelData
import Xv6.Lib.Circular

/- kernel/pipe.c: pipewrite, piperead and pipeclose on one pipe by any processes, with kill, fork,
   exit and interrupts. The page of the pipe is there throughout. -/
namespace Xv6Pipe
open Threads Prog Xv6Kern Xv6Proc

abbrev PIPESIZE : Nat := 512

instance neZeroPipe : NeZero PIPESIZE := ⟨by decide⟩

/-- A byte put in: by which process, in which of its pipewrites that put any, and at which index. -/
structure Put (n : Nat) where
  writer : Fin n
  call : Nat
  index : Nat
  byte : UInt8

/-- struct pipe. As history: what the pipewrites of a process had to write (copyin by index, none
    where it fails), the bytes put in, and those taken out. -/
structure Pipe (n : Nat) where
  data : Fin PIPESIZE → UInt8
  nread : UInt32
  nwrite : UInt32
  readopen : Bool
  writeopen : Bool
  calls : Fin n → List (Nat → Option UInt8)
  puts : List (Put n)
  takes : List UInt8

inductive PipeChan where
  | nread | nwrite
  deriving DecidableEq

/-- The pipewrite that a process is in, or was in last: how many bytes it has put, and what it
    had to write. -/
structure Writing where
  count : Nat
  bytes : Nat → Option UInt8

section
variable {n m : Nat}
variable {puts : List (Put n)}

def Pipe.alloc (data : Fin PIPESIZE → UInt8) : Pipe n := ⟨data, 0, 0, true, true, fun _ => [], [], []⟩

namespace Pipe

def full (x : Pipe n) : Bool := x.nwrite == x.nread + 512

def empty (x : Pipe n) : Bool := x.nread == x.nwrite

def callsAt (x : Pipe n) (p : Fin n) (bytes : Nat → Option UInt8) (i : Nat) : Fin n → List (Nat → Option UInt8) :=
  if i = 0 then Function.update x.calls p (x.calls p ++ [bytes]) else x.calls

def put (x : Pipe n) (p : Fin n) (bytes : Nat → Option UInt8) (i : Nat) (ch : UInt8) : Pipe n :=
  { x with
    data := Function.update x.data (Fin.ofNat PIPESIZE x.nwrite.toNat) ch
    nwrite := x.nwrite + 1
    calls := x.callsAt p bytes i
    puts := x.puts ++ [⟨p, (x.callsAt p bytes i p).length - 1, i, ch⟩] }

def take (x : Pipe n) : Pipe n :=
  { x with nread := x.nread + 1, takes := x.takes ++ [x.data (Fin.ofNat PIPESIZE x.nread.toNat)] }

def close (x : Pipe n) (writable : Bool) : Pipe n :=
  if writable then { x with writeopen := false } else { x with readopen := false }

def of (puts : List (Put n)) (p : Fin n) (k : Nat) : List (Put n) :=
  puts.filter fun e => e.writer = p ∧ e.call = k

end Pipe

/- The code. -/

abbrev R (n : Nat) := P n (Pipe n) (Option Writing) PipeChan

/-- The end of pipewrite: wakeup(&pi->nread); release(&pi->lock); return i. -/
def pipewriteEnd (p : Fin n) (i : Nat) : R n Int := do
  wakeup (some p) (some (.ext .nread)) (List.finRange n)
  act (.release .ext)
  pure i

def pipewriteLoop (p : Fin n) (bytes : Nat → Option UInt8) (count : Int) : Nat → Nat → R n Int
  | 0, i => do
    act .never
    pure i
  | turns + 1, i =>
    if (i : Int) < count then do
      let x ← act .get
      if Pipe.readopen x = false then do
        act (.release .ext)
        pure (-1)
      else if ← act .killed then do
        act (.release .ext)
        pure (-1)
      else do
        let x ← act .get
        if Pipe.full x then do
          wakeup (some p) (some (.ext .nread)) (List.finRange n)
          sleep p (.ext .nwrite) .ext
          pipewriteLoop p bytes count turns i
        else match bytes i with
          | none => pipewriteEnd p i
          | some ch => do
            act (.put (Pipe.put x p bytes i ch) (some ⟨i + 1, bytes⟩))
            pipewriteLoop p bytes count turns (i + 1)
    else pipewriteEnd p i

def pipewrite (p : Fin n) (bytes : Nat → Option UInt8) (count : Int) (turns : Nat) : R n Int := do
  act (.acquire .ext)
  pipewriteLoop p bytes count turns 0

/-- The loop of piperead that copies, with `left` bytes to go; copyout may fail. -/
def pipereadCopy (stores : Nat → Bool) : Nat → Nat → R n Nat
  | 0, i => pure i
  | left + 1, i => do
    let x ← act .get
    if Pipe.empty x then pure i
    else do
      act (.put (Pipe.take x) none)
      if stores i then pipereadCopy stores left (i + 1) else pure i

/-- The loop of piperead that waits, followed for a number of turns: whether it was killed. -/
def pipereadWait (p : Fin n) : Nat → R n Bool
  | 0 => do
    act .never
    pure false
  | turns + 1 => do
    let x ← act .get
    if Pipe.empty x && Pipe.writeopen x then
      if ← act .killed then pure true
      else do
        sleep p (.ext .nread) .ext
        pipereadWait p turns
    else pure false

def piperead (p : Fin n) (stores : Nat → Bool) (count : Int) (turns : Nat) : R n Int := do
  act (.acquire .ext)
  if ← pipereadWait p turns then do
    act (.release .ext)
    pure (-1)
  else do
    let i ← pipereadCopy stores count.toNat 0
    wakeup (some p) (some (.ext .nwrite)) (List.finRange n)
    act (.release .ext)
    pure i

def pipeclose (p : Fin n) (writable : Bool) : R n Unit := do
  act (.acquire .ext)
  let x ← act .get
  act (.put (Pipe.close x writable) none)
  wakeup (some p) (some (.ext (if writable then .nread else .nwrite))) (List.finRange n)
  -- the page is freed after this where both ends are closed
  act (.release .ext)

/- What is kept. -/

def InOrder (puts : List (Put n)) (calls : Fin n → List (Nat → Option UInt8)) (p : Fin n) (k : Nat) : Prop :=
  (Pipe.of puts p k).map (fun e => (e.index, some e.byte)) =
    (List.range (Pipe.of puts p k).length).map fun i => (i, (calls p)[k]?.bind fun bytes => bytes i)

/-- The circular buffer holds what was put in and not taken out. -/
structure PipeOk (x : Pipe n) : Prop where
  holds : Circular.Holds x.data (x.puts.map Put.byte) x.takes.length
  nread : x.nread.toNat = x.takes.length % 2 ^ 32
  nwrite : x.nwrite.toNat = x.puts.length % 2 ^ 32
  taken : x.takes = (x.puts.map Put.byte).take x.takes.length
  known : ∀ e ∈ x.puts, e.call < (x.calls e.writer).length
  order : ∀ p k, InOrder x.puts x.calls p k

def Noted (p : Fin n) (y : Option Writing) (x : Pipe n) : Prop :=
  ∀ w, y = some w → (x.calls p).getLast? = some w.bytes ∧
    (Pipe.of x.puts p ((x.calls p).length - 1)).length = w.count

inductive Moves (p : Fin n) (x : Pipe n) (y : Option Writing) : Pipe n → Option Writing → Prop where
  | put (bytes : Nat → Option UInt8) (i : Nat) (ch : UInt8) (room : x.full = false) (byte : bytes i = some ch)
      (mine : i = 0 ∨ y = some ⟨i, bytes⟩) : Moves p x y (x.put p bytes i ch) (some ⟨i + 1, bytes⟩)
  | take (more : x.empty = false) : Moves p x y x.take none
  | close (writable : Bool) : Moves p x y (x.close writable) none

variable {p q : Fin n} {x : Pipe n} {bytes : Nat → Option UInt8} {i k : Nat} {ch : UInt8}

theorem room_of (ok : PipeOk x) (room : x.full = false) : x.puts.length < x.takes.length + PIPESIZE := by
  have high := ok.holds.high
  rw [List.length_map] at high
  apply Nat.lt_of_le_of_ne high
  intro same
  have full : x.nwrite = x.nread + 512 := by
    apply UInt32.toNat_inj.mp
    rw [UInt32.toNat_add, ok.nread, ok.nwrite, same]
    simp
  simp [Pipe.full, full] at room

theorem more_of (ok : PipeOk x) (more : x.empty = false) : x.takes.length < x.puts.length := by
  have low := ok.holds.low
  rw [List.length_map] at low
  apply Nat.lt_of_le_of_ne low
  intro same
  have empty : x.nread = x.nwrite := by
    apply UInt32.toNat_inj.mp
    rw [ok.nread, ok.nwrite, same]
  simp [Pipe.empty, empty] at more

theorem cell_of {counter : UInt32} {count : Nat} (same : counter.toNat = count % 2 ^ 32) :
    Fin.ofNat PIPESIZE counter.toNat = Fin.ofNat PIPESIZE count := by
  rw [same]
  exact Circular.cell_counter (by decide) count

theorem of_append_other {e : Put n} (other : ¬ (e.writer = p ∧ e.call = k)) (puts : List (Put n)) :
    Pipe.of (puts ++ [e]) p k = Pipe.of puts p k := by
  simp [Pipe.of, List.filter_append, other]

theorem of_append_own {e : Put n} (own : e.writer = p ∧ e.call = k) (puts : List (Put n)) :
    Pipe.of (puts ++ [e]) p k = Pipe.of puts p k ++ [e] := by
  simp [Pipe.of, List.filter_append, own]

theorem order_own {calls : Fin n → List (Nat → Option UInt8)} (order : InOrder puts calls p k)
    (current : (calls p)[k]? = some bytes) (count : (Pipe.of puts p k).length = i)
    (byte : bytes i = some ch) : InOrder (puts ++ [⟨p, k, i, ch⟩]) calls p k := by
  unfold InOrder at *
  rw [of_append_own ⟨rfl, rfl⟩, List.map_append, order, List.length_append, List.length_singleton,
    List.range_succ, List.map_append, count]
  simp [current, byte]

theorem order_other {calls calls' : Fin n → List (Nat → Option UInt8)} {e : Put n}
    (order : InOrder puts calls p k) (other : ¬ (e.writer = p ∧ e.call = k))
    (same : (calls' p)[k]? = (calls p)[k]?) : InOrder (puts ++ [e]) calls' p k := by
  unfold InOrder at *
  rw [of_append_other other, same]
  exact order

structure Current (x : Pipe n) (p : Fin n) (bytes : Nat → Option UInt8) (i : Nat)
    (calls : Fin n → List (Nat → Option UInt8)) : Prop where
  last : (calls p)[(calls p).length - 1]? = some bytes
  count : (Pipe.of x.puts p ((calls p).length - 1)).length = i
  order : InOrder x.puts calls p ((calls p).length - 1)
  same : ∀ q k, ¬ (p = q ∧ (calls p).length - 1 = k) → (calls q)[k]? = (x.calls q)[k]?
  grows : ∀ q, (x.calls q).length ≤ (calls q).length

theorem current_first (ok : PipeOk x) (p : Fin n) (bytes : Nat → Option UInt8) :
    Current x p bytes 0 (x.callsAt p bytes 0) := by
  have calls : x.callsAt p bytes 0 = Function.update x.calls p (x.calls p ++ [bytes]) := if_pos rfl
  have length : (x.callsAt p bytes 0 p).length - 1 = (x.calls p).length := by simp [calls]
  have none : Pipe.of x.puts p (x.calls p).length = [] := by
    refine List.filter_eq_nil_iff.mpr fun e mem => ?_
    have less := ok.known e mem
    simp only [decide_eq_true_eq, not_and]
    rintro rfl same
    omega
  refine ⟨?_, ?_, ?_, ?_, ?_⟩
  · rw [length, calls]
    simp
  · rw [length, none]
    rfl
  · rw [length, InOrder, none]
    rfl
  · intro q k other
    rw [length] at other
    rw [calls]
    by_cases same : q = p
    · rw [same, Function.update_self]
      have apart : k ≠ (x.calls p).length := fun eq => other ⟨same.symm, eq.symm⟩
      rcases Nat.lt_or_gt_of_ne apart with less | more
      · rw [List.getElem?_append_left less]
      · rw [List.getElem?_eq_none (by simp; omega), List.getElem?_eq_none (by omega)]
    · rw [Function.update_of_ne same]
  intro q
  rw [calls]
  by_cases same : q = p
  · rw [same, Function.update_self]
    simp
  · rw [Function.update_of_ne same]

theorem current_next (ok : PipeOk x) (noted : Noted p (some ⟨i + 1, bytes⟩) x) :
    Current x p bytes (i + 1) (x.callsAt p bytes (i + 1)) := by
  have calls : x.callsAt p bytes (i + 1) = x.calls := if_neg (Nat.succ_ne_zero i)
  obtain ⟨last, count⟩ := noted _ rfl
  rw [calls]
  refine ⟨?_, count, ok.order p _, fun _ _ _ => rfl, fun _ => Nat.le_refl _⟩
  rw [← List.getLast?_eq_getElem?]
  exact last

theorem current_of (ok : PipeOk x) {y : Option Writing} (noted : Noted p y x)
    (mine : i = 0 ∨ y = some ⟨i, bytes⟩) : Current x p bytes i (x.callsAt p bytes i) := by
  cases i with
  | zero => exact current_first ok p bytes
  | succ i =>
    rcases mine with zero | rfl
    · cases zero
    · exact current_next ok noted

theorem put_ok (ok : PipeOk x) (room : x.full = false) (byte : bytes i = some ch)
    (current : Current x p bytes i (x.callsAt p bytes i)) : PipeOk (x.put p bytes i ch) := by
  have space := room_of ok room
  have below : (x.callsAt p bytes i p).length - 1 < (x.callsAt p bytes i p).length :=
    (List.getElem?_eq_some_iff.mp current.last).1
  refine ⟨?_, ok.nread, ?_, ?_, ?_, ?_⟩
  · change Circular.Holds (Function.update x.data _ ch) ((x.puts ++ [_]).map Put.byte) x.takes.length
    rw [cell_of ok.nwrite, List.map_append]
    have put := Circular.holds_put ok.holds (by rw [List.length_map]; exact space) ch
    rw [List.length_map] at put
    exact put
  · change (x.nwrite + 1).toNat = (x.puts ++ [_]).length % 2 ^ 32
    rw [UInt32.toNat_add, ok.nwrite, List.length_append, List.length_singleton]
    simp
  · change x.takes = ((x.puts ++ [_]).map Put.byte).take x.takes.length
    have low := ok.holds.low
    rw [List.map_append, List.take_append_of_le_length low]
    exact ok.taken
  · intro e mem
    change e.call < (x.callsAt p bytes i e.writer).length
    rcases List.mem_append.mp mem with old | new
    · exact Nat.lt_of_lt_of_le (ok.known e old) (current.grows e.writer)
    rw [List.mem_singleton.mp new]
    exact below
  intro q k
  by_cases own : p = q ∧ (x.callsAt p bytes i p).length - 1 = k
  · obtain ⟨rfl, rfl⟩ := own
    exact order_own current.order current.last current.count byte
  · exact order_other (ok.order q k) own (current.same q k own)

theorem take_ok (ok : PipeOk x) (more : x.empty = false) : PipeOk x.take := by
  have less := more_of ok more
  have lt : x.takes.length < (x.puts.map Put.byte).length := by
    rw [List.length_map]
    exact less
  have next := ok.holds.cell _ lt (Nat.le_refl _)
  refine ⟨?_, ?_, ok.nwrite, ?_, ok.known, ok.order⟩
  · change Circular.Holds x.data (x.puts.map Put.byte) (x.takes ++ [_]).length
    rw [List.length_append]
    exact Circular.holds_take ok.holds lt
  · change (x.nread + 1).toNat = (x.takes ++ [_]).length % 2 ^ 32
    rw [UInt32.toNat_add, ok.nread, List.length_append, List.length_singleton]
    simp
  change x.takes ++ [x.data (Fin.ofNat PIPESIZE x.nread.toNat)] = (x.puts.map Put.byte).take (x.takes ++ [_]).length
  rw [List.length_append, List.length_singleton, List.take_succ_eq_append_getElem lt, ← ok.taken,
    cell_of ok.nread, next]

theorem close_ok (ok : PipeOk x) (writable : Bool) : PipeOk (x.close writable) := by
  cases writable with
  | false | true => exact ⟨ok.holds, ok.nread, ok.nwrite, ok.taken, ok.known, ok.order⟩

theorem callsAt_other (other : q ≠ p) : x.callsAt p bytes i q = x.calls q := by
  unfold Pipe.callsAt
  split
  · exact Function.update_of_ne other _ _
  · rfl

theorem put_noted (current : Current x p bytes i (x.callsAt p bytes i)) :
    Noted p (some ⟨i + 1, bytes⟩) (x.put p bytes i ch) := by
  rintro w same
  cases same
  refine ⟨?_, ?_⟩
  · change (x.callsAt p bytes i p).getLast? = some bytes
    rw [List.getLast?_eq_getElem?]
    exact current.last
  change (Pipe.of (x.puts ++ [_]) p ((x.callsAt p bytes i p).length - 1)).length = i + 1
  rw [of_append_own ⟨rfl, rfl⟩, List.length_append, current.count]
  rfl

theorem put_noted_other {z : Option Writing} (other : q ≠ p) (noted : Noted q z x) :
    Noted q z (x.put p bytes i ch) := by
  intro w same
  obtain ⟨last, count⟩ := noted w same
  have calls : (x.put p bytes i ch).calls q = x.calls q := callsAt_other other
  rw [calls]
  refine ⟨last, ?_⟩
  change (Pipe.of (x.puts ++ [_]) q ((x.calls q).length - 1)).length = w.count
  rw [of_append_other fun own => other own.1.symm]
  exact count

theorem close_noted {z : Option Writing} (noted : Noted q z x) (writable : Bool) : Noted q z (x.close writable) := by
  cases writable with
  | false => exact noted
  | true => exact noted

/-- What processes wait for: readers on &pi->nread, writers on &pi->nwrite. -/
def Awaited (x : Pipe n) : PipeChan → Prop
  | .nread => x.nread ≠ x.nwrite ∨ x.writeopen = false
  | .nwrite => x.nwrite ≠ x.nread + 512 ∨ x.readopen = false

/-- The rules of the pipe. Where it is not watched, the conditions of its sleepers are not. -/
def pipeExt (watched : Bool) : Ext n (Pipe n) (Option Writing) PipeChan where
  ready := fun v x => watched = true ∧ Awaited x v
  inv := PipeOk
  noted := fun p _ y x => Noted p y x
  may := fun p _ x y x' y' => Moves p x y x' y'
  quits := fun _ => True
  inv_may := by
    intro p k x y x' y' ok noted moves
    cases moves with
    | put bytes i ch room byte mine => exact put_ok ok room byte (current_of ok noted mine)
    | take more => exact take_ok ok more
    | close writable => exact close_ok ok writable
  noted_may := by
    intro p k x y x' y' ok noted moves
    cases moves with
    | put bytes i ch room byte mine => exact put_noted (current_of ok noted mine)
    | take more => exact nofun
    | close writable => exact nofun
  noted_other := by
    intro p k x y x' y' q j z ok noted moves other mine
    cases moves with
    | put bytes i ch room byte _ => exact put_noted_other other mine
    | take more => exact mine
    | close writable => exact close_noted mine writable
  noted_quits := fun _ _ _ _ _ _ noted => noted

inductive PipeCall where
  | pipewrite (bytes : Nat → Option UInt8) (count : Int) (turns : Nat)
  | piperead (stores : Nat → Bool) (count : Int) (turns : Nat)
  | pipeclose (writable : Bool)

def pipeCalls : Calls n (Pipe n) (Option Writing) PipeChan PipeCall where
  code := fun p a => match a with
    | .pipewrite bytes count turns => do
      let _ ← pipewrite p bytes count turns
      pure ()
    | .piperead stores count turns => do
      let _ ← piperead p stores count turns
      pure ()
    | .pipeclose writable => pipeclose p writable
  may := fun _ _ _ => True

variable {init : Fin n} {calm : Chan n PipeChan → Prop} {l : Ledger n (Pipe n) (Option Writing) PipeChan}
  {y : Option Writing} {watched : Bool}

theorem pipewriteEnd_spec (i : Nat) (inside : Inside y l) (owes : ∀ v, l.dirty (.ext v) → v = .nread) :
    procWp m (pipeExt watched) init calm p (pipewriteEnd p i) l fun _ k => ∃ y, Home y k := by
  refine wp_announce .nread inside fun k inside' _ dirty told => ?_
  refine wp_leave inside' ?_ fun _ home => wp_pure ⟨y, home⟩
  intro v owed
  rw [dirty] at owed
  obtain rfl := owes v owed
  exact told

/-- The bytes that pipewrite has put in unannounced, it has put in with the lock held throughout, so
    it finds readopen as it was. -/
structure Owes (watched : Bool) (l : Ledger n (Pipe n) (Option Writing) PipeChan) : Prop where
  nread : ∀ v, l.dirty (.ext v) → v = .nread ∧ watched = true
  readopen : ∀ v, l.dirty (.ext v) → ∃ x, l.view = some x ∧ x.readopen = true

theorem pipewriteLoop_spec (bytes : Nat → Option UInt8) (count : Int) (turns i : Nat)
    (announces : watched = true → calm (.ext .nread)) (inside : Inside y l) (owes : Owes watched l)
    (mine : i = 0 ∨ y = some ⟨i, bytes⟩) :
    procWp m (pipeExt watched) init calm p (pipewriteLoop p bytes count turns i) l fun _ k => ∃ y, Home y k := by
  induction turns generalizing l i y with
  | zero => exact wp_op trivial fun _ never => absurd never id
  | succ turns ih =>
    unfold pipewriteLoop
    split
    · refine wp_get inside fun x k same inside₁ view₁ dirty₁ _ => ?_
      by_cases closed : x.readopen = false
      · rw [if_pos closed]
        refine wp_leave inside₁ ?_ fun _ home => wp_pure ⟨y, home⟩
        intro v owed
        rw [dirty₁] at owed
        obtain ⟨x₀, view, still⟩ := owes.readopen v owed
        rw [same x₀ view, still] at closed
        cases closed
      rw [if_neg closed]
      refine wp_killed fun killed calms => ?_
      cases killed with
      | true =>
        refine wp_leave inside₁ ?_ fun _ home => wp_pure ⟨y, home⟩
        intro v owed
        have old := owed
        rw [dirty₁] at old
        obtain ⟨rfl, watches⟩ := owes.nread v old
        exact absurd owed (calms rfl _ (announces watches))
      | false =>
        refine wp_get inside₁ fun x' k' same' inside₂ view₂ dirty₂ _ => ?_
        obtain rfl := same' x view₁
        by_cases full : x'.full = true
        · rw [if_pos full]
          refine wp_announce .nread inside₂ fun k₃ inside₃ view₃ dirty₃ told => ?_
          refine wp_wait inside₃ (view₃.trans view₂) ?_ ?_ ?_
          · rintro ⟨-, room | shut⟩
            · exact room (eq_of_beq full)
            · exact closed shut
          · intro v owed
            rw [dirty₃, dirty₂, dirty₁] at owed
            obtain ⟨rfl, -⟩ := owes.nread v owed
            exact told
          intro k₄ inside₄ _ clean
          exact ih i inside₄ ⟨fun v owed => absurd owed (clean _), fun v owed => absurd owed (clean _)⟩ mine
        rw [if_neg full]
        have room : x'.full = false := Bool.eq_false_iff.mpr full
        have owes' : ∀ v, k'.dirty (.ext v) → v = .nread ∧ watched = true := by
          rw [dirty₂, dirty₁]
          exact owes.nread
        split
        · exact pipewriteEnd_spec i inside₂ fun v owed => (owes' v owed).1
        rename_i ch byte
        refine wp_put inside₂ view₂ (fun _ => .put bytes i ch room byte mine) ?_
        intro k₃ inside₃ view₃ dirty₃
        refine ih (i + 1) inside₃ ⟨?_, ?_⟩ (.inr rfl)
        · intro v owed
          rcases dirty₃ v owed with prev | ⟨ready, not⟩
          · exact owes' v prev
          refine ⟨?_, ready.1⟩
          cases v with
          | nread => rfl
          | nwrite =>
            refine absurd ⟨ready.1, .inl ?_⟩ not
            exact fun eq => full (beq_iff_eq.mpr eq)
        · exact fun v _ => ⟨_, view₃, Bool.eq_true_of_not_eq_false closed⟩
    · exact pipewriteEnd_spec i inside fun v owed => (owes.nread v owed).1

theorem pipewrite_spec (bytes : Nat → Option UInt8) (count : Int) (turns : Nat)
    (announces : watched = true → calm (.ext .nread)) (home : Home y l) :
    procWp m (pipeExt watched) init calm p (pipewrite p bytes count turns) l fun _ k => ∃ y, Home y k := by
  refine wp_enter home fun k inside _ clean => ?_
  exact pipewriteLoop_spec bytes count turns 0 announces inside
    ⟨fun v owed => absurd owed (clean _), fun v owed => absurd owed (clean _)⟩ (.inl rfl)

theorem pipereadWait_spec (turns : Nat) (inside : Inside y l) (clean : ∀ w, ¬ l.dirty w) :
    procWp m (pipeExt watched) init calm p (pipereadWait p turns) l fun _ k => Inside y k ∧ ∀ w, ¬ k.dirty w := by
  induction turns generalizing l with
  | zero => exact wp_op trivial fun _ never => absurd never id
  | succ turns ih =>
    refine wp_get inside fun x k _ inside₁ view₁ dirty₁ _ => ?_
    rw [← dirty₁] at clean
    by_cases waits : (x.empty && x.writeopen) = true
    · rw [if_pos waits]
      refine wp_killed fun killed _ => ?_
      cases killed with
      | true => exact wp_pure ⟨inside₁, clean⟩
      | false =>
        refine wp_wait inside₁ view₁ ?_ (fun v owed => absurd owed (clean _)) ?_
        · rw [Bool.and_eq_true] at waits
          rintro ⟨-, more | shut⟩
          · exact more (eq_of_beq waits.1)
          rw [waits.2] at shut
          cases shut
        · exact fun k₂ inside₂ _ clean₂ => ih inside₂ clean₂
    rw [if_neg waits]
    exact wp_pure ⟨inside₁, clean⟩

theorem pipereadCopy_spec (stores : Nat → Bool) (left i : Nat) (inside : Inside y l)
    (owes : ∀ v, l.dirty (.ext v) → v = .nwrite) : procWp m (pipeExt watched) init calm p (pipereadCopy stores left i) l
      fun _ k => ∃ y, Inside y k ∧ ∀ v, k.dirty (.ext v) → v = .nwrite := by
  induction left generalizing l i y with
  | zero => exact wp_pure ⟨y, inside, owes⟩
  | succ left ih =>
    refine wp_get inside fun x k _ inside₁ view₁ dirty₁ _ => ?_
    rw [← dirty₁] at owes
    by_cases empty : x.empty = true
    · rw [if_pos empty]
      exact wp_pure ⟨y, inside₁, owes⟩
    rw [if_neg empty]
    refine wp_put inside₁ view₁ (fun _ => .take (Bool.eq_false_iff.mpr empty)) ?_
    intro k₂ inside₂ _ dirty₂
    have owes₂ : ∀ v, k₂.dirty (.ext v) → v = .nwrite := by
      intro v owed
      rcases dirty₂ v owed with prev | ⟨ready, not⟩
      · exact owes v prev
      cases v with
      | nwrite => rfl
      | nread =>
        refine absurd ⟨ready.1, .inl ?_⟩ not
        exact fun eq => empty (beq_iff_eq.mpr eq)
    split
    · exact ih (i + 1) inside₂ owes₂
    · exact wp_pure ⟨none, inside₂, owes₂⟩

theorem piperead_spec (stores : Nat → Bool) (count : Int) (turns : Nat) (home : Home y l) :
    procWp m (pipeExt watched) init calm p (piperead p stores count turns) l fun _ k => ∃ y, Home y k := by
  refine wp_enter home fun k inside _ clean => ?_
  apply wp_seq (pipereadWait_spec turns inside clean)
  rintro killed k₁ ⟨inside₁, clean₁⟩
  cases killed with
  | true => exact wp_leave inside₁ (fun v owed => absurd owed (clean₁ _)) fun _ home => wp_pure ⟨y, home⟩
  | false =>
    refine wp_seq (pipereadCopy_spec stores count.toNat 0 inside₁ fun v owed => absurd owed (clean₁ _)) ?_
    rintro i k₂ ⟨y', inside₂, owes⟩
    refine wp_announce .nwrite inside₂ fun k₃ inside₃ _ dirty₃ told => ?_
    refine wp_leave inside₃ ?_ fun _ home => wp_pure ⟨y', home⟩
    intro v owed
    rw [dirty₃] at owed
    obtain rfl := owes v owed
    exact told

theorem pipeclose_spec (writable : Bool) (home : Home y l) :
    procWp m (pipeExt watched) init calm p (pipeclose p writable) l fun _ k => ∃ y, Home y k := by
  refine wp_enter home fun k inside _ clean => ?_
  refine wp_get inside fun x k₁ _ inside₁ view₁ dirty₁ _ => ?_
  rw [← dirty₁] at clean
  refine wp_put inside₁ view₁ (fun _ => .close writable) fun k₂ inside₂ _ dirty₂ => ?_
  refine wp_announce _ inside₂ fun k₃ inside₃ _ dirty₃ told => ?_
  refine wp_last (wp_leave inside₃ ?_ fun _ home => wp_pure ⟨none, home⟩)
  intro v owed
  rw [dirty₃] at owed
  obtain rfl : v = if writable then PipeChan.nread else .nwrite := by
    rcases dirty₂ v owed with prev | ⟨ready, not⟩
    · exact absurd prev (clean _)
    cases writable with
    | true =>
      cases v with
      | nread => rfl
      | nwrite => exact absurd ready not
    | false =>
      cases v with
      | nwrite => rfl
      | nread => exact absurd ready not
  exact told

/- The runs. -/

abbrev PipeConf (n m : Nat) := Conf n m (Pipe n) (Option Writing) PipeChan

abbrev PipeEvent (n m : Nat) := Signal (Thread n m) (Call PipeCall) Irq

/-- What a killed writer of a watched pipe has announced. -/
def tells (watched : Bool) : Chan n PipeChan → Prop := fun w => watched = true ∧ w = .ext .nread

def PipeRun (watched : Bool) (guard : Kernel n m (Pipe n) PipeChan →
      (Thread n m → Ledger n (Pipe n) (Option Writing) PipeChan) → Thread n m →
      Op n (Pipe n) (Option Writing) PipeChan → Prop)
    (init : Fin n) (data : Fin PIPESIZE → UInt8) : List (PipeEvent n m) → PipeConf n m → Prop :=
  Runs.Run (KernStep (pipeExt watched) pipeCalls init (tells watched) guard) (bootConf init (Pipe.alloc data) none)

theorem alloc_ok (data : Fin PIPESIZE → UInt8) : PipeOk (Pipe.alloc data : Pipe n) :=
  ⟨Circular.holds_nil data, rfl, rfl, rfl, nofun, fun _ _ => rfl⟩

variable {data : Fin PIPESIZE → UInt8} {es : List (PipeEvent n m)} {c : PipeConf n m}
  {guard : Kernel n m (Pipe n) PipeChan → (Thread n m → Ledger n (Pipe n) (Option Writing) PipeChan) →
    Thread n m → Op n (Pipe n) (Option Writing) PipeChan → Prop}

theorem pipe_good (within : ∀ s l t o, guard s l t o → announced (tells watched) s l t o)
    (run : PipeRun watched guard init data es c) : Good (pipeExt watched) init c.state c.ledger := by
  refine (kern_runs within (alloc_ok data) (fun _ _ w none => nomatch none) trivial ?_ run).inv
  intro p a y l home _
  cases a with
  | pipewrite bytes count turns =>
    exact wp_seq (pipewrite_spec bytes count turns (fun on => ⟨on, rfl⟩) home) fun _ _ home => wp_pure home
  | piperead stores count turns =>
    exact wp_seq (piperead_spec stores count turns home) fun _ _ home => wp_pure home
  | pipeclose writable => exact pipeclose_spec writable home

example : ((bootConf 0 (Pipe.alloc fun _ => 0) none : PipeConf 3 2).state.slot 0).state = .runnable := by decide +kernel

/- Slot 1 writes two bytes and is killed by slot 2, on the other CPU, after the first one is in the
   pipe; init, in slot 0, sleeps in piperead. -/

instance (watched : Bool) : DecidablePred (pipeExt watched : Ext n (Pipe n) (Option Writing) PipeChan).quits :=
  fun _ => .isTrue trivial

instance (p : Fin n) (a : PipeCall) (y : Option Writing) : Decidable (pipeCalls.may p a y) := .isTrue trivial

def steps (t : Thread n m) (count : Nat) : List (PipeEvent n m) := List.replicate count (.own (.step t))

def call (t : Thread n m) (what : Call PipeCall) : List (PipeEvent n m) := [.own (.start t what)]

def waits : List (PipeEvent 3 2) :=
  call (.sched 0) .scheduler ++ steps (.sched 0) 5 ++ call (.proc 0) .forkret ++ steps (.proc 0) 1 ++
  call (.proc 0) (.fork true true true) ++ steps (.proc 0) 17 ++
  call (.proc 0) (.fork true true true) ++ steps (.proc 0) 20 ++
  call (.proc 0) (.ext (.piperead (fun _ => true) 1 1)) ++ steps (.proc 0) 9

def writes : List (PipeEvent 3 2) :=
  waits ++ steps (.sched 0) 7 ++ call (.proc 1) .forkret ++ steps (.proc 1) 1 ++ call (.sched 1) .scheduler ++ steps (.sched 1) 11 ++
  call (.proc 2) .forkret ++ steps (.proc 2) 1 ++
  call (.proc 1) (.ext (.pipewrite (fun _ => some 7) 2 2)) ++ steps (.proc 1) 5

def strands : List (PipeEvent 3 2) :=
  writes ++ call (.proc 2) (.kill 2) ++ steps (.proc 2) 6 ++ steps (.proc 1) 3

def stranded : PipeConf 3 2 :=
  Runs.after (kernNext (pipeExt true) pipeCalls 0 (tells true)) (bootConf 0 (Pipe.alloc fun _ => 0) none) strands

/-- A killed writer leaves a reader asleep on a pipe that is not empty. -/
theorem killed_writer_strands : PipeRun true free 0 (fun _ => 0) strands stranded ∧
    stranded.state.owner .ext = none ∧ (stranded.state.slot 0).state = .sleeping ∧
    (stranded.state.slot 0).chan = some (.ext .nread) ∧
    stranded.state.ext.nread ≠ stranded.state.ext.nwrite :=
  ⟨Runs.run_after (kernNext_step (pipeExt true) pipeCalls 0 _) (by decide +kernel), by decide +kernel,
    by decide +kernel, by decide +kernel, by decide +kernel⟩

/-- Where every test of pr->killed that finds it set comes from a process that has put no byte into
    the empty pipe since it took pi->lock: with the lock free, nobody sleeps on a condition that is
    true. -/
theorem pipes_wake (run : PipeRun true (announced (tells true)) init data es c)
    (free : c.state.owner .ext = none) (q : Fin n) (asleep : (c.state.slot q).state = .sleeping) :
    ((c.state.slot q).chan = some (.ext .nread) →
      c.state.ext.nread = c.state.ext.nwrite ∧ c.state.ext.writeopen = true) ∧
    ((c.state.slot q).chan = some (.ext .nwrite) →
      c.state.ext.nwrite = c.state.ext.nread + 512 ∧ c.state.ext.readopen = true) := by
  have good := pipe_good (fun _ _ _ _ => id) run
  have quiet : ∀ v, (c.state.slot q).chan = some (.ext v) → ¬ Awaited c.state.ext v :=
    fun v chan awaited => not_stranded good rfl free asleep chan ⟨rfl, awaited⟩
  refine ⟨fun chan => ?_, fun chan => ?_⟩
  · have not := quiet .nread chan
    simp only [Awaited, not_or, not_not, Bool.not_eq_false] at not
    exact not
  have not := quiet .nwrite chan
  simp only [Awaited, not_or, not_not, Bool.not_eq_false] at not
  exact not

def waiting : PipeConf 3 2 :=
  Runs.after (calmNext (pipeExt true) pipeCalls 0 (tells true)) (bootConf 0 (Pipe.alloc fun _ => 0) none) waits

theorem waiting_run : PipeRun true (announced (tells true)) 0 (fun _ => 0) waits waiting :=
  Runs.run_after (calmNext_step (pipeExt true) pipeCalls 0 _) (by decide +kernel)

theorem pipes_wake_waiting : (waiting.state.slot 0).state = .sleeping ∧
    waiting.state.ext.nread = waiting.state.ext.nwrite ∧ waiting.state.ext.writeopen = true :=
  ⟨by decide +kernel, (pipes_wake waiting_run (by decide +kernel) 0 (by decide +kernel)).1 (by decide +kernel)⟩

theorem distance (ok : PipeOk x) : (x.nwrite - x.nread).toNat = x.puts.length - x.takes.length := by
  have low := ok.holds.low
  have high : (x.puts.map Put.byte).length ≤ x.takes.length + 512 := ok.holds.high
  rw [List.length_map] at low high
  rw [UInt32.toNat_sub, ok.nread, ok.nwrite]
  omega

example : (Pipe.alloc fun _ => 0 : Pipe 3).nwrite - (Pipe.alloc fun _ => 0 : Pipe 3).nread = 0 := by decide +kernel

theorem order_take {calls : Fin n → List (Nat → Option UInt8)}
    (order : InOrder puts calls p k) (count : Nat) : InOrder (puts.take count) calls p k := by
  have split : Pipe.of puts p k = Pipe.of (puts.take count) p k ++ Pipe.of (puts.drop count) p k := by
    rw [Pipe.of, Pipe.of, Pipe.of, ← List.filter_append, List.take_append_drop]
  have first := congrArg (List.take (Pipe.of (puts.take count) p k).length) order
  rw [split, List.map_append, List.take_left' (by simp), List.length_append, ← List.map_take, List.take_range,
    Nat.min_eq_left (Nat.le_add_right _ _)] at first
  exact first

/-- The pipe is a bounded queue: what was taken out is a prefix of what was put in, the counters differ
    by what is left, and the bytes of each pipewrite are taken in their order. -/
theorem pipe_fifo (run : PipeRun false free init data es c) :
    (c.state.ext.nwrite - c.state.ext.nread).toNat ≤ PIPESIZE ∧
    (c.state.ext.nwrite - c.state.ext.nread).toNat = c.state.ext.puts.length - c.state.ext.takes.length ∧
    c.state.ext.takes <+: c.state.ext.puts.map Put.byte ∧
    ∀ p k, InOrder (c.state.ext.puts.take c.state.ext.takes.length) c.state.ext.calls p k := by
  have ok : PipeOk c.state.ext := by
    refine (pipe_good ?_ run).ext.inv
    intro s l t o _ _ p _ _ w tell
    exact absurd tell.1 Bool.false_ne_true
  have high := ok.holds.high
  rw [List.length_map] at high
  refine ⟨?_, distance ok, ?_, fun p k => order_take (ok.order p k) _⟩
  · rw [distance ok]
    omega
  rw [ok.taken]
  exact List.take_prefix _ _

def passes : List (PipeEvent 1 1) :=
  call (.sched 0) .scheduler ++ steps (.sched 0) 5 ++ call (.proc 0) .forkret ++ steps (.proc 0) 1 ++
  call (.proc 0) (.ext (.pipewrite (fun i => some (7 + i.toUInt8)) 2 3)) ++ steps (.proc 0) 11 ++
  call (.proc 0) (.ext (.piperead (fun _ => true) 1 1)) ++ steps (.proc 0) 6

def passed : PipeConf 1 1 :=
  Runs.after (kernNext (pipeExt false) pipeCalls 0 (tells false)) (bootConf 0 (Pipe.alloc fun _ => 0) none) passes

theorem passed_run : PipeRun false free 0 (fun _ => 0) passes passed :=
  Runs.run_after (kernNext_step (pipeExt false) pipeCalls 0 _) (by decide +kernel)

theorem pipe_fifo_passed : passed.state.ext.takes = [7] ∧ passed.state.ext.takes <+: passed.state.ext.puts.map Put.byte :=
  ⟨by decide +kernel, (pipe_fifo passed_run).2.2.1⟩

end

end Xv6Pipe
