import Xv6.Lib.Circular
import Xv6.Lib.Runs
import Mathlib.Data.Option.Basic

/- The console input of kernel/console.c: consoleintr edits a line in a circular buffer, consoleread
   takes committed bytes out of it. Both run under cons.lock, which consoleread gives up while it
   sleeps; here other calls may also come between two of its bytes. -/
namespace Xv6Console
open Runs

abbrev ctrlD : UInt8 := 4
abbrev ctrlH : UInt8 := 8
abbrev newline : UInt8 := 10
abbrev enter : UInt8 := 13
abbrev ctrlP : UInt8 := 16
abbrev ctrlU : UInt8 := 21
abbrev delete : UInt8 := 127

structure Cons where
  buf : Fin 128 → UInt8
  r : UInt32
  w : UInt32
  e : UInt32

def cell (i : UInt32) : Fin 128 := Fin.ofNat 128 i.toNat

/-- The loop of ^U, which makes at most e - w turns. -/
def killLine : Nat → Cons → Cons
  | 0, s => s
  | fuel + 1, s =>
      if s.e ≠ s.w ∧ s.buf (cell (s.e - 1)) ≠ newline then killLine fuel { s with e := s.e - 1 } else s

def consoleintr (s : Cons) (c : UInt8) : Cons :=
  if c = ctrlP then s
  else if c = ctrlU then killLine (s.e - s.w).toNat s
  else if c = ctrlH ∨ c = delete then
    if s.e ≠ s.w then { s with e := s.e - 1 } else s
  else if c ≠ 0 ∧ s.e - s.r < 128 then
    let c := if c = enter then newline else c
    let s := { s with buf := Function.update s.buf (cell s.e) c, e := s.e + 1 }
    if c = newline ∨ c = ctrlD ∨ s.e = s.r + 128 then { s with w := s.e } else s
  else s

/-- A call of consoleread, with the bytes that it has copied out. -/
structure Call where
  target : Nat
  n : Nat
  got : List UInt8

/-- A turn of the loop of consoleread, and whether it was the last; none while the call sleeps. -/
def consoleread (s : Cons) (x : Call) : Option (Cons × Call × Bool) :=
  if x.n = 0 then some (s, x, true)
  else if s.r = s.w then none
  else
    let c := s.buf (cell s.r)
    let s := { s with r := s.r + 1 }
    if c = ctrlD then some (if x.n < x.target then { s with r := s.r - 1 } else s, x, true)
    else some (s, { x with n := x.n - 1, got := x.got ++ [c] }, c = newline)

/-- The edited line: what has been committed, what has been typed since, and how many of the
    committed bytes readers have taken. -/
structure Line where
  committed : List UInt8
  line : List UInt8
  taken : Nat

def Line.pending (a : Line) : Nat := (a.committed ++ a.line).length - a.taken

def Line.type (a : Line) (c : UInt8) : Line :=
  if c = ctrlP then a
  else if c = ctrlU then { a with line := [] }
  else if c = ctrlH ∨ c = delete then { a with line := a.line.dropLast }
  else if c = 0 ∨ 128 ≤ a.pending then a
  else
    let c := if c = enter then newline else c
    if c = newline ∨ c = ctrlD ∨ a.pending + 1 = 128 then
      { a with committed := a.committed ++ (a.line ++ [c]), line := [] }
    else { a with line := a.line ++ [c] }

/-- A read ends at its last byte, after a newline, or at a ^D, which it takes if it has no byte. -/
def Line.read (a : Line) (x : Call) : Option (Line × Call × Bool) :=
  if x.got.length = x.target then some (a, x, true)
  else match a.committed[a.taken]? with
    | none => none
    | some c =>
        if c = ctrlD then some (if x.got = [] then { a with taken := a.taken + 1 } else a, x, true)
        else some ({ a with taken := a.taken + 1 }, { x with n := x.n - 1, got := x.got ++ [c] }, c = newline)

section
variable {D E T : Type} [DecidableEq T]

/-- Calls of consoleread by threads. A finished call leaves its bytes, or none where it was killed. -/
structure State (D T : Type) where
  device : D
  calls : T → Option Call
  delivered : List UInt8
  returned : List (T × Option (List UInt8))

inductive Event (T : Type) where
  | intr (c : UInt8)
  | call (t : T) (n : Int)
  | turn (t : T)
  | killed (t : T)

def State.next (type : D → UInt8 → D) (read : D → Call → Option (D × Call × Bool)) (s : State D T) :
    Event T → Option (State D T)
  | .intr c => some { s with device := type s.device c }
  | .call t n =>
      if (s.calls t).isSome then none
      else some { s with calls := Function.update s.calls t (some ⟨n.toNat, n.toNat, []⟩) }
  | .turn t => do
      let x ← s.calls t
      let (device, y, ends) ← read s.device x
      some {
        device
        calls := Function.update s.calls t (if ends then none else some y)
        delivered := s.delivered ++ y.got.drop x.got.length
        returned := if ends then s.returned ++ [(t, some y.got)] else s.returned }
  | .killed t => do
      let x ← s.calls t
      if (read s.device x).isSome then none
      else some { s with
        calls := Function.update s.calls t none
        returned := s.returned ++ [(t, none)] }

end

/-- The buffer holds the line, at counters modulo 2^32. -/
structure Sim (s : Cons) (a : Line) : Prop where
  r : s.r = .ofNat a.taken
  w : s.w = .ofNat a.committed.length
  e : s.e = .ofNat (a.committed ++ a.line).length
  holds : Circular.Holds s.buf (a.committed ++ a.line) a.taken
  low : a.taken ≤ a.committed.length
  unended : newline ∉ a.line

theorem cell_ofNat (k : Nat) : cell (.ofNat k) = Fin.ofNat 128 k := by
  rw [cell, UInt32.toNat_ofNat']
  exact Circular.cell_counter (by decide) k

theorem distance {i j : Nat} (low : i ≤ j) (high : j ≤ i + 128) : (UInt32.ofNat j - .ofNat i).toNat = j - i := by
  rw [UInt32.toNat_sub, UInt32.toNat_ofNat', UInt32.toNat_ofNat']
  omega

theorem counter_ne {i j : Nat} (low : i < j) (high : j ≤ i + 128) : UInt32.ofNat j ≠ .ofNat i := by
  intro same
  have apart := distance (Nat.le_of_lt low) high
  rw [same, UInt32.sub_self, UInt32.toNat_zero] at apart
  omega

section
variable {s : Cons} {a : Line}

theorem Sim.read_write (sim : Sim s a) : (s.w - s.r).toNat = a.committed.length - a.taken := by
  have high := sim.holds.high
  rw [List.length_append] at high
  rw [sim.w, sim.r, distance sim.low (by omega)]

theorem Sim.read_edit (sim : Sim s a) : (s.e - s.r).toNat = a.pending := by
  rw [sim.e, sim.r, distance sim.holds.low sim.holds.high, Line.pending]

theorem Sim.write_edit (sim : Sim s a) : (s.e - s.w).toNat = a.line.length := by
  have high := sim.holds.high
  have low := sim.low
  rw [List.length_append] at high
  rw [sim.e, sim.w, List.length_append, distance (by omega) (by omega), Nat.add_sub_cancel_left]

theorem sim_erase {line : List UInt8} {last : UInt8} (sim : Sim s { a with line := line ++ [last] }) :
    s.e ≠ s.w ∧ s.buf (cell (s.e - 1)) ≠ newline ∧ Sim { s with e := s.e - 1 } { a with line } := by
  obtain ⟨r, w, e, holds, low, unended⟩ := sim
  simp only [← List.append_assoc] at e holds low
  have pred : s.e - 1 = .ofNat (a.committed ++ line).length := by
    rw [e, List.length_append, UInt32.ofNat_add]
    simp
  have lt : a.taken ≤ (a.committed ++ line).length := by
    rw [List.length_append]
    omega
  have high := holds.high
  refine ⟨?_, ?_, r, w, pred, Circular.holds_init holds lt, low, fun typed => unended (by simp [typed])⟩
  · rw [e, w]
    simp only [List.length_append, List.length_singleton] at high ⊢
    exact counter_ne (by omega) (by omega)
  rw [pred, cell_ofNat, holds.cell _ (by simp) lt, List.getElem_concat_length rfl]
  rintro rfl
  simp at unended

theorem sim_kill {line : List UInt8} (sim : Sim s { a with line }) :
    Sim (killLine line.length s) { a with line := [] } := by
  induction line using List.reverseRecOn generalizing s with
  | nil => exact sim
  | append_singleton line last ih =>
    obtain ⟨more, open_, shorter⟩ := sim_erase sim
    rw [List.length_append, List.length_singleton, killLine, if_pos ⟨more, open_⟩]
    exact ih shorter

theorem sim_back (sim : Sim s a) :
    Sim (if s.e ≠ s.w then { s with e := s.e - 1 } else s) { a with line := a.line.dropLast } := by
  obtain ⟨committed, line, taken⟩ := a
  rcases List.eq_nil_or_concat line with rfl | ⟨line, last, rfl⟩
  · have same : s.e = s.w := by rw [sim.e, sim.w, List.append_nil]
    simpa [same] using sim
  rw [List.concat_eq_append] at sim ⊢
  obtain ⟨more, -, shorter⟩ := sim_erase (a := ⟨committed, line, taken⟩) sim
  rw [if_pos more, List.dropLast_concat]
  exact shorter

theorem sim_put (sim : Sim s a) (room : a.pending < 128) (c : UInt8) :
    s.e + 1 = .ofNat (a.committed ++ (a.line ++ [c])).length ∧
      Circular.Holds (Function.update s.buf (cell s.e) c) (a.committed ++ (a.line ++ [c])) a.taken ∧
      (s.e + 1 = s.r + 128 ↔ a.pending + 1 = 128) := by
  have low := sim.holds.low
  rw [Line.pending] at room
  have edit : s.e + 1 = .ofNat ((a.committed ++ a.line).length + 1) := by
    rw [sim.e, UInt32.ofNat_add]
    rfl
  simp only [← List.append_assoc]
  refine ⟨?_, ?_, ?_⟩
  · rw [edit]
    simp [UInt32.add_assoc]
  · rw [sim.e, cell_ofNat]
    exact Circular.holds_put sim.holds (by omega) c
  have full : s.r + 128 = .ofNat (a.taken + 128) := by
    rw [sim.r, UInt32.ofNat_add]
    rfl
  rw [edit, full, Line.pending]
  constructor
  · intro same
    by_contra differ
    exact counter_ne (by omega) (by omega) same.symm
  intro same
  congr 1
  omega

theorem sim_type (sim : Sim s a) (c : UInt8) : Sim (consoleintr s c) (a.type c) := by
  rw [consoleintr, Line.type]
  by_cases print : c = ctrlP
  · simpa [print] using sim
  by_cases kill : c = ctrlU
  · simp only [if_neg print, if_pos kill, sim.write_edit]
    exact sim_kill sim
  by_cases back : c = ctrlH ∨ c = delete
  · simp only [if_neg print, if_neg kill, if_pos back]
    exact sim_back sim
  simp only [if_neg print, if_neg kill, if_neg back]
  have fits : s.e - s.r < 128 ↔ a.pending < 128 := by
    rw [UInt32.lt_iff_toNat_lt, sim.read_edit]
    rfl
  by_cases room : c ≠ 0 ∧ a.pending < 128
  · have keeps : ¬(c = 0 ∨ 128 ≤ a.pending) := by simpa using room
    rw [if_pos ⟨room.1, fits.mpr room.2⟩, if_neg keeps]
    generalize (if c = enter then newline else c) = c
    obtain ⟨edit, holds, full⟩ := sim_put sim room.2 c
    simp only [full]
    split_ifs with commits
    · refine ⟨sim.r, edit, ?_, ?_, ?_, by simp⟩
      · simpa using edit
      · simpa using holds
      · exact Nat.le_trans sim.low (by simp)
    refine ⟨sim.r, sim.w, edit, holds, sim.low, ?_⟩
    intro typed
    rcases List.mem_append.mp typed with old | new
    · exact sim.unended old
    · exact commits (.inl (List.mem_singleton.mp new).symm)
  have drops : c = 0 ∨ 128 ≤ a.pending := (not_and_or.mp room).imp not_not.mp Nat.not_lt.mp
  rw [if_neg (by rwa [fits]), if_pos drops]
  exact sim

theorem sim_take (sim : Sim s a) (more : a.taken < a.committed.length) :
    Sim { s with r := s.r + 1 } { a with taken := a.taken + 1 } := by
  refine ⟨?_, sim.w, sim.e, Circular.holds_take sim.holds ?_, more, sim.unended⟩
  · rw [sim.r, UInt32.ofNat_add]
    rfl
  · exact Nat.lt_of_lt_of_le more (by simp)

/-- What a call meets at r: nothing committed, or the next committed byte. -/
theorem sim_front (sim : Sim s a) : s.r = s.w ∧ a.committed[a.taken]? = none ∨
    s.r ≠ s.w ∧ a.committed[a.taken]? = some (s.buf (cell s.r)) ∧ a.taken < a.committed.length := by
  have low := sim.low
  rcases Nat.lt_or_ge a.taken a.committed.length with more | done
  · have high := sim.holds.high
    have lt : a.taken < (a.committed ++ a.line).length := by
      rw [List.length_append]
      omega
    refine .inr ⟨?_, ?_, more⟩
    · rw [sim.r, sim.w]
      exact (counter_ne more (by rw [List.length_append] at high; omega)).symm
    rw [sim.r, cell_ofNat, sim.holds.cell _ lt (Nat.le_refl _), List.getElem_append_left more,
      List.getElem?_eq_getElem more]
  have all : a.taken = a.committed.length := by omega
  exact .inl ⟨by rw [sim.r, sim.w, all], List.getElem?_eq_none done⟩

theorem sim_read (sim : Sim s a) {x : Call} (fits : x.n + x.got.length = x.target) :
    Option.Rel (fun y z => Sim y.1 z.1 ∧ y.2 = z.2) (consoleread s x) (a.read x) := by
  rw [consoleread, Line.read]
  by_cases ended : x.n = 0
  · rw [if_pos ended, if_pos (by omega)]
    exact .some ⟨sim, rfl⟩
  have short : x.got.length ≠ x.target := by omega
  rw [if_neg ended, if_neg short]
  rcases sim_front sim with ⟨empty, none⟩ | ⟨some, front, more⟩
  · rw [if_pos empty, none]
    exact .none
  simp only [if_neg some, front]
  by_cases eof : s.buf (cell s.r) = ctrlD
  · have first : x.n < x.target ↔ ¬ x.got = [] := by
      rw [← List.length_eq_zero_iff]
      omega
    simp only [if_pos eof]
    refine .some ⟨?_, rfl⟩
    by_cases got : x.got = []
    · rw [if_neg (by simpa [first] using got), if_pos got]
      exact sim_take sim more
    rw [if_pos (first.mpr got), if_neg got]
    simpa using sim
  simp only [if_neg eof]
  exact .some ⟨sim_take sim more, rfl⟩

end

section
variable {T : Type} [DecidableEq T]

/-- Both machines have the same calls, and delivered the committed bytes taken, in their order; a ^D
    among these ended a read. -/
structure Agree (s : State Cons T) (b : State Line T) : Prop where
  device : Sim s.device b.device
  calls : s.calls = b.calls
  returned : s.returned = b.returned
  delivered : s.delivered = b.delivered
  order : b.delivered = (b.device.committed.take b.device.taken).filter (· != ctrlD)
  fits : ∀ t x, b.calls t = some x → x.n + x.got.length = x.target

theorem take_type (a : Line) (c : UInt8) (low : a.taken ≤ a.committed.length) :
    (a.type c).committed.take (a.type c).taken = a.committed.take a.taken := by
  simp only [Line.type]
  split_ifs
  all_goals first | rfl | exact List.take_append_of_le_length low

theorem order_read {a b : Line} {x y : Call} {ends : Bool} (turn : a.read x = some (b, y, ends))
    (fits : x.n + x.got.length = x.target) : (b.committed.take b.taken).filter (· != ctrlD) =
        (a.committed.take a.taken).filter (· != ctrlD) ++ y.got.drop x.got.length ∧ y.n + y.got.length = y.target := by
  unfold Line.read at turn
  by_cases full : x.got.length = x.target
  · rw [if_pos full] at turn
    cases turn
    simpa using fits
  rw [if_neg full] at turn
  cases front : a.committed[a.taken]? with
  | none => simp [front] at turn
  | some c =>
    have longer : a.committed.take (a.taken + 1) = a.committed.take a.taken ++ [c] := by
      rw [List.take_add_one, front, Option.toList_some]
    simp only [front] at turn
    by_cases eof : c = ctrlD
    · rw [if_pos eof] at turn
      cases turn
      split_ifs
      · simp [longer, eof, fits]
      · simp [fits]
    rw [if_neg eof] at turn
    cases turn
    simp [longer, eof]
    omega

theorem fits_update {calls : T → Option Call} {call : Option Call} {t : T}
    (fits : ∀ t x, calls t = some x → x.n + x.got.length = x.target)
    (new : ∀ x, call = some x → x.n + x.got.length = x.target) (u : T) (x : Call)
    (called : Function.update calls t call u = some x) : x.n + x.got.length = x.target := by
  by_cases same : u = t
  · subst u
    rw [Function.update_self] at called
    exact new x called
  rw [Function.update_of_ne same] at called
  exact fits u x called

theorem agree_step {s : State Cons T} {b : State Line T} (agree : Agree s b) (e : Event T) :
    Option.Rel Agree (s.next consoleintr consoleread e) (b.next Line.type Line.read e) := by
  obtain ⟨device, calls, returned, delivered, order, fits⟩ := agree
  cases e with
  | intr c =>
    refine .some ⟨sim_type device c, calls, returned, delivered, ?_, fits⟩
    rw [take_type _ _ device.low]
    exact order
  | call t n =>
    simp only [State.next, calls]
    split_ifs
    · exact .none
    refine .some ⟨device, rfl, returned, delivered, order, fits_update fits ?_⟩
    rintro x ⟨⟩
    rfl
  | turn t =>
    cases called : b.calls t with
    | none =>
      simp only [State.next, calls, called]
      exact .none
    | some x =>
      have turn := sim_read device (fits t x called)
      simp only [State.next, calls, called, Option.bind_eq_bind, Option.bind_some]
      generalize consoleread s.device x = left at turn ⊢
      cases right : b.device.read x with
      | none =>
        rw [right] at turn
        cases turn
        exact .none
      | some res =>
        rw [right] at turn
        obtain ⟨line, y, ends⟩ := res
        cases turn with
        | @some res _ rel =>
          obtain ⟨cons, y', ends'⟩ := res
          obtain ⟨sim, ⟨⟩⟩ := rel
          obtain ⟨taken, fit⟩ := order_read right (fits t x called)
          refine .some ⟨sim, rfl, by rw [returned], by rw [delivered], by rw [taken, order], ?_⟩
          apply fits_update fits
          intro z goes
          cases ends
          · cases goes
            exact fit
          · cases goes
  | killed t =>
    cases called : b.calls t with
    | none =>
      simp only [State.next, calls, called]
      exact .none
    | some x =>
      have turn := sim_read device (fits t x called)
      have same : (consoleread s.device x).isSome = (b.device.read x).isSome := by
        generalize consoleread s.device x = left, b.device.read x = right at turn
        cases turn <;> rfl
      simp only [State.next, calls, called, Option.bind_eq_bind, Option.bind_some, same]
      split_ifs
      · exact .none
      · refine .some ⟨device, rfl, by rw [returned], delivered, order, fits_update fits nofun⟩

def boot {D : Type} (device : D) : State D T := ⟨device, fun _ => none, [], []⟩

/-- The distances of the indices, and what readers get. -/
structure Refines (s : State Cons T) (b : State Line T) : Prop where
  write : (s.device.w - s.device.r).toNat ≤ (s.device.e - s.device.r).toNat
  edit : (s.device.e - s.device.r).toNat ≤ 128
  calls : s.calls = b.calls
  returned : s.returned = b.returned
  delivered : s.delivered = b.delivered
  order : s.delivered = (b.device.committed.take b.device.taken).filter (· != ctrlD)

/-- The console runs as the edited line does, whatever is typed and read, and whatever the cells
    hold at first. -/
theorem console_edits_lines (cells : Fin 128 → UInt8) (es : List (Event T)) :
    Option.Rel Refines (exec (State.next consoleintr consoleread) (boot ⟨cells, 0, 0, 0⟩) es)
      (exec (State.next Line.type Line.read) (boot ⟨[], [], 0⟩) es) := by
  have start : Agree (T := T) (boot ⟨cells, 0, 0, 0⟩) (boot ⟨[], [], 0⟩) :=
    ⟨⟨rfl, rfl, rfl, Circular.holds_nil cells, Nat.le_refl 0, nofun⟩, rfl, rfl, rfl, rfl, nofun⟩
  have run := exec_rel agree_step start es
  generalize exec (State.next consoleintr consoleread) (boot ⟨cells, 0, 0, 0⟩) es = left at run ⊢
  generalize exec (State.next Line.type Line.read) (boot ⟨[], [], 0⟩) es = right at run ⊢
  cases run with
  | none => exact .none
  | some agree =>
    have low := agree.device.low
    have high := agree.device.holds.high
    refine .some ⟨?_, ?_, agree.calls, agree.returned, agree.delivered, agree.delivered.trans agree.order⟩
    · rw [agree.device.read_write, agree.device.read_edit, Line.pending, List.length_append]
      omega
    rw [agree.device.read_edit, Line.pending]
    omega

end

end Xv6Console
