import Mathlib.Data.List.Basic

/- user/grep.c. A string is the list of its bytes, its NUL is the end of the list. -/
namespace Xv6Grep

abbrev star : UInt8 := 42
abbrev dot : UInt8 := 46
abbrev dollar : UInt8 := 36
abbrev caret : UInt8 := 94
abbrev newline : UInt8 := 10

/-- The loop of matchstar, with matchhere of the rest of the pattern. -/
def starLoop (c : UInt8) (here : List UInt8 → Bool) : List UInt8 → Bool
  | [] => here []
  | x :: text => here (x :: text) || ((x == c || c == dot) && starLoop c here text)

/-- The last test of matchhere, with matchhere of the rest of the pattern. -/
def oneChar (c : UInt8) (here : List UInt8 → Bool) : List UInt8 → Bool
  | [] => false
  | x :: text => (c == dot || c == x) && here text

def matchhere : List UInt8 → List UInt8 → Bool
  | [], _ => true
  | [c], text => if c = dollar then text.isEmpty else oneChar c (fun text => matchhere [] text) text
  | c :: d :: re, text =>
      if d = star then starLoop c (fun text => matchhere re text) text
      else oneChar c (fun text => matchhere (d :: re) text) text

def matchstar (c : UInt8) (re text : List UInt8) : Bool := starLoop c (matchhere re) text

theorem matchhere_star (c : UInt8) (re text : List UInt8) : matchhere (c :: star :: re) text = matchstar c re text := by
  rw [matchhere, if_pos rfl]
  rfl

/-- The loop of match, which also looks at the empty string. -/
def matchLoop (re : List UInt8) : List UInt8 → Bool
  | [] => matchhere re []
  | x :: text => matchhere re (x :: text) || matchLoop re text

def matchText (re text : List UInt8) : Bool :=
  match re with
  | [] => matchLoop [] text
  | c :: rest => if c = caret then matchhere rest text else matchLoop (c :: rest) text

/- What a pattern means. -/
inductive Item where
  | one (c : UInt8)
  | many (c : UInt8)

/-- The items of a pattern from left to right, and whether a last `$` anchors it. -/
def items : List UInt8 → List Item × Bool
  | [] => ([], false)
  | [c] => if c = dollar then ([], true) else ([.one c], false)
  | c :: d :: re =>
      if d = star then (.many c :: (items re).1, (items re).2)
      else (.one c :: (items (d :: re)).1, (items (d :: re)).2)

def Fits (c x : UInt8) : Prop := c = dot ∨ c = x

inductive Spells : List Item → List UInt8 → Prop where
  | nil : Spells [] []
  | one {c x : UInt8} {rest : List Item} {text : List UInt8} (fits : Fits c x)
      (more : Spells rest text) : Spells (.one c :: rest) (x :: text)
  | many {c : UInt8} {rest : List Item} {text : List UInt8} (run : List UInt8)
      (fits : ∀ x ∈ run, Fits c x) (more : Spells rest text) : Spells (.many c :: rest) (run ++ text)

/-- The text begins with what the items spell and, if anchored, ends there. -/
def Begins (pattern : List Item × Bool) (text : List UInt8) : Prop :=
  ∃ found rest, text = found ++ rest ∧ Spells pattern.1 found ∧ (pattern.2 = true → rest = [])

/-- A substring is spelled, at the start after a leading `^`. -/
def Matches (re text : List UInt8) : Prop :=
  if re.head? = some caret then Begins (items re.tail) text
  else ∃ before rest, text = before ++ rest ∧ Begins (items re) rest

theorem begins_nil {anchored : Bool} {text : List UInt8} :
    Begins ([], anchored) text ↔ (anchored = true → text = []) := by
  constructor
  · rintro ⟨found, rest, rfl, spelled, ends⟩
    cases spelled
    exact ends
  · exact fun ends => ⟨[], text, rfl, .nil, ends⟩

theorem begins_one {c : UInt8} {rest : List Item} {anchored : Bool} {text : List UInt8} :
    Begins (.one c :: rest, anchored) text ↔ ∃ x tail, text = x :: tail ∧ Fits c x ∧ Begins (rest, anchored) tail := by
  constructor
  · rintro ⟨found, after, rfl, spelled, ends⟩
    cases spelled with
    | one fits more => exact ⟨_, _, rfl, fits, _, after, rfl, more, ends⟩
  rintro ⟨x, tail, rfl, fits, found, after, rfl, more, ends⟩
  exact ⟨x :: found, after, rfl, .one fits more, ends⟩

theorem begins_many {c : UInt8} {rest : List Item} {anchored : Bool} {text : List UInt8} :
    Begins (.many c :: rest, anchored) text ↔
      ∃ run tail, text = run ++ tail ∧ (∀ x ∈ run, Fits c x) ∧ Begins (rest, anchored) tail := by
  constructor
  · rintro ⟨found, after, rfl, spelled, ends⟩
    cases spelled with
    | many run fits more => exact ⟨run, _, List.append_assoc .., fits, _, after, rfl, more, ends⟩
  rintro ⟨run, tail, rfl, fits, found, after, rfl, more, ends⟩
  exact ⟨run ++ found, after, (List.append_assoc ..).symm, .many run fits more, ends⟩

theorem starLoop_iff (c : UInt8) (here : List UInt8 → Bool) (text : List UInt8) : starLoop c here text = true ↔
      ∃ run tail, text = run ++ tail ∧ (∀ x ∈ run, Fits c x) ∧ here tail = true := by
  induction text with
  | nil => simp [starLoop, and_assoc]
  | cons x text ih =>
    simp only [starLoop, Bool.or_eq_true, Bool.and_eq_true, beq_iff_eq, ih]
    constructor
    · rintro (now | ⟨fits, run, tail, rfl, all, later⟩)
      · exact ⟨[], x :: text, rfl, nofun, now⟩
      refine ⟨x :: run, tail, rfl, ?_, later⟩
      rw [List.forall_mem_cons]
      exact ⟨fits.symm.imp_right Eq.symm, all⟩
    rintro ⟨run, tail, split, all, later⟩
    cases run with
    | nil => exact .inl (by rwa [split])
    | cons y run =>
      obtain ⟨rfl, rfl⟩ := List.cons.inj split
      rw [List.forall_mem_cons] at all
      exact .inr ⟨(all.1.imp_right Eq.symm).symm, run, tail, rfl, all.2, later⟩

theorem oneChar_iff (c : UInt8) (here : List UInt8 → Bool) (text : List UInt8) :
    oneChar c here text = true ↔ ∃ x tail, text = x :: tail ∧ Fits c x ∧ here tail = true := by
  cases text with
  | nil => simp [oneChar]
  | cons x text => simp [oneChar, Fits]

theorem matchhere_iff (re text : List UInt8) : matchhere re text = true ↔ Begins (items re) text := by
  fun_induction items re generalizing text with
  | case1 | case2 => simp [matchhere, begins_nil]
  | case3 c other =>
    rw [matchhere, if_neg other, oneChar_iff, begins_one]
    simp [matchhere, begins_nil]
  | case4 c re ih =>
    rw [matchhere, if_pos rfl, starLoop_iff, begins_many]
    simp only [ih]
  | case5 c d re other ih =>
    rw [matchhere, if_neg other, oneChar_iff, begins_one]
    simp only [ih]

theorem matchLoop_iff (re text : List UInt8) : matchLoop re text = true ↔
    ∃ prev rest, text = prev ++ rest ∧ Begins (items re) rest := by
  induction text with
  | nil => simp [matchLoop, matchhere_iff, and_assoc]
  | cons x text ih =>
    rw [matchLoop, Bool.or_eq_true, ih, matchhere_iff]
    constructor
    · rintro (now | ⟨prev, rest, rfl, later⟩)
      · exact ⟨[], x :: text, rfl, now⟩
      · exact ⟨x :: prev, rest, rfl, later⟩
    rintro ⟨prev, rest, split, later⟩
    cases prev with
    | nil => exact .inl (by rwa [split])
    | cons y prev =>
      obtain ⟨rfl, rfl⟩ := List.cons.inj split
      exact .inr ⟨prev, rest, rfl, later⟩

theorem match_iff (re text : List UInt8) : matchText re text = true ↔ Matches re text := by
  cases re with
  | nil => simp [matchText, Matches, matchLoop_iff]
  | cons c rest =>
    by_cases leading : c = caret
    · simp [matchText, Matches, leading, matchhere_iff]
    · simp [matchText, Matches, leading, matchLoop_iff]

/- The lines. -/
def strchr (c : UInt8) : List UInt8 → Option Nat
  | [] => none
  | x :: s => if x = c then some 0 else (strchr c s).map (· + 1)

/-- The inner loop of grep: what it writes, and the bytes after the last newline. -/
def scan (pattern : List UInt8) : Nat → List UInt8 → List (List UInt8) × List UInt8
  | 0, p => ([], p)
  | fuel + 1, p =>
      match strchr newline p with
      | none => ([], p)
      | some q =>
          let (written, rest) := scan pattern fuel (p.drop (q + 1))
          (if matchText pattern (p.take q) then p.take (q + 1) :: written else written, rest)

/-- The loop of grep over the bytes in the buffer and those still to be read; `sizes` says how many
    bytes each read returns, which are at least one where some are asked for and left. -/
def grepLoop (pattern : List UInt8) :
    Nat → (Nat → Nat) → List UInt8 → List UInt8 → Option (List (List UInt8))
  | 0, _, _, _ => none
  | fuel + 1, sizes, buf, stream =>
      let n := min (max 1 (sizes 0)) (min (1024 - buf.length - 1) stream.length)
      if n > 0 then
        let (written, rest) := scan pattern (buf.length + n) (buf ++ stream.take n)
        (grepLoop pattern fuel (fun k => sizes (k + 1)) rest (stream.drop n)).map (written ++ ·)
      else some []

def grep (pattern : List UInt8) (sizes : Nat → Nat) (stream : List UInt8) : Option (List (List UInt8)) :=
  grepLoop pattern (stream.length + 1) sizes [] stream

/-- The lines of a stream without their newlines, and what follows the last newline. -/
def lines : List UInt8 → List (List UInt8) × List UInt8
  | [] => ([], [])
  | x :: s =>
      if x = newline then ([] :: (lines s).1, (lines s).2)
      else match (lines s).1 with
        | [] => ([], x :: (lines s).2)
        | line :: more => ((x :: line) :: more, (lines s).2)

def matching (pattern : List UInt8) (ls : List (List UInt8)) : List (List UInt8) :=
  (ls.filter (matchText pattern ·)).map (· ++ [newline])

theorem lines_append (a b : List UInt8) : lines (a ++ b) =
    ((lines a).1 ++ (lines ((lines a).2 ++ b)).1, (lines ((lines a).2 ++ b)).2) := by
  induction a with
  | nil => rfl
  | cons x a ih =>
    by_cases ends : x = newline
    · simp [lines, ends, ih]
    cases first : (lines a).1 with
    | nil | cons line more => simp [lines, ends, ih, first]

theorem lines_rest (a : List UInt8) : lines (lines a).2 = ([], (lines a).2) := by
  induction a with
  | nil => rfl
  | cons x a ih =>
    by_cases ends : x = newline
    · simp [lines, ends, ih]
    cases first : (lines a).1 with
    | nil | cons line more => simp [lines, ends, ih, first]

theorem lines_none {p : List UInt8} (missing : strchr newline p = none) : lines p = ([], p) := by
  induction p with
  | nil => rfl
  | cons x p ih =>
    by_cases ends : x = newline
    · simp [strchr, ends] at missing
    · simp [lines, ends, ih (by simpa [strchr, ends] using missing)]

theorem lines_some {p : List UInt8} {q : Nat} (found : strchr newline p = some q) :
    q < p.length ∧ p.take (q + 1) = p.take q ++ [newline] ∧
      lines p = (p.take q :: (lines (p.drop (q + 1))).1, (lines (p.drop (q + 1))).2) := by
  induction p generalizing q with
  | nil => simp [strchr] at found
  | cons x p ih =>
    by_cases ends : x = newline
    · obtain rfl : 0 = q := by simpa [strchr, ends] using found
      simp [lines, ends]
    simp only [strchr, if_neg ends, Option.map_eq_some_iff] at found
    obtain ⟨k, later, rfl⟩ := found
    obtain ⟨inside, taken, rest⟩ := ih later
    refine ⟨by simpa using inside, by simp [taken], ?_⟩
    simp [lines, ends, rest]

theorem scan_lines (pattern : List UInt8) (fuel : Nat) (p : List UInt8) (enough : p.length ≤ fuel) :
    scan pattern fuel p = (matching pattern (lines p).1, (lines p).2) := by
  induction fuel generalizing p with
  | zero =>
    obtain rfl : p = [] := List.eq_nil_of_length_eq_zero (Nat.le_zero.mp enough)
    rfl
  | succ fuel ih =>
    cases found : strchr newline p with
    | none => simp [scan, found, lines_none found, matching]
    | some q =>
      obtain ⟨inside, taken, rest⟩ := lines_some found
      have fewer : (p.drop (q + 1)).length ≤ fuel := by
        rw [List.length_drop]
        omega
      by_cases good : matchText pattern (p.take q) = true
      · simp [scan, found, ih _ fewer, rest, matching, good, taken]
      · simp [scan, found, ih _ fewer, rest, matching, good]

theorem first_line {buf stream line : List UInt8} {more : List (List UInt8)}
    (whole : lines buf = ([], buf)) (first : (lines (buf ++ stream)).1 = line :: more) : buf.length ≤ line.length := by
  induction buf generalizing line more with
  | nil => exact Nat.zero_le _
  | cons x buf ih =>
    by_cases ends : x = newline
    · simp [lines, ends] at whole
    have inner : lines buf = ([], buf) := by
      cases start : (lines buf).1 with
      | nil => exact Prod.ext start (by simpa [lines, ends, start] using whole)
      | cons line more => simp [lines, ends, start] at whole
    cases next : (lines (buf ++ stream)).1 with
    | nil => simp [lines, ends, next] at first
    | cons longer rest =>
      obtain ⟨rfl, rfl⟩ : x :: longer = line ∧ rest = more := by simpa [lines, ends, next] using first
      simpa using ih inner next

theorem grepLoop_lines (pattern : List UInt8) (fuel : Nat) (sizes : Nat → Nat) (buf stream : List UInt8)
    (whole : lines buf = ([], buf)) (short : ∀ line ∈ (lines (buf ++ stream)).1, line.length < 1023)
    (enough : stream.length < fuel) :
    grepLoop pattern fuel sizes buf stream = some (matching pattern (lines (buf ++ stream)).1) := by
  induction fuel generalizing sizes buf stream with
  | zero => omega
  | succ fuel ih =>
    generalize size : min (max 1 (sizes 0)) (min (1024 - buf.length - 1) stream.length) = n
    by_cases got : n > 0
    · have split : buf ++ stream = (buf ++ stream.take n) ++ stream.drop n := by
        rw [List.append_assoc, List.take_append_drop]
      have parts := lines_append (buf ++ stream.take n) (stream.drop n)
      rw [← split] at parts
      have scanned := scan_lines pattern (buf.length + n) (buf ++ stream.take n)
        (by rw [List.length_append, List.length_take]; omega)
      have later : (stream.drop n).length < fuel := by
        rw [List.length_drop]
        omega
      rw [parts] at short
      have rest := ih (fun k => sizes (k + 1)) _ _ (lines_rest (buf ++ stream.take n))
        (fun line mem => short line (List.mem_append_right _ mem)) later
      simp [grepLoop, size, got, scanned, rest, parts, matching]
    -- nothing is asked for, or nothing is left
    · have none : (lines (buf ++ stream)).1 = [] := by
        cases first : (lines (buf ++ stream)).1 with
        | nil => rfl
        | cons line more =>
          have long := first_line whole first
          have bound := short line (by simp [first])
          have ended : stream.length = 0 := by omega
          rw [List.eq_nil_of_length_eq_zero ended, List.append_nil, whole] at first
          cases first
      simp [grepLoop, size, got, none, matching]

end Xv6Grep
