import Xv6.Params
import Xv6.Vm
import Xv6.Lib.Bytes

/- copyout, copyin and copyinstr of kernel/vm.c, and fetchstr, over a page table and what is in the
   frames. User addresses are 64-bit numbers: additions to them are modulo 2^64. -/
namespace Xv6Vm
open Bytes Function

abbrev Ram (N : Nat) := Frame N → Store

def pgrounddown (va : Nat) : Nat := va / PGSIZE * PGSIZE

section
variable {N : Nat} {S : Type}

/-- The PTE of a page, if walk without alloc finds it and it has PTE_V. -/
def Table.pte (t : Table N) (v : Nat) : Option (Leaf N) :=
  if (t.mid (v / 2 ^ 18)).isSome ∧ (t.low (v / 2 ^ 9)).isSome then t.leaf v else none

def walkaddr (t : Table N) (va : Nat) : Option (Frame N) :=
  if va ≥ MAXVA then none
  else match t.pte (va / PGSIZE) with
    | none => none
    | some leaf => if leaf.perm.u then some leaf.frame else none

/-- The loop of copyout and copyin at va, with `done` bytes moved and `len` to go; memmove is what
    they do with a part of a page. -/
def copyLoop (t : Table N) (memmove : Frame N → Nat → Nat → Nat → S → S) : Nat → Nat → Nat → Nat → S → Bool × S
  | 0, _, _, _, s => (true, s)
  | fuel + 1, va, done, len, s =>
    if len = 0 then (true, s)
    else match walkaddr t (pgrounddown va) with
      | none => (false, s)
      | some pa0 =>
        let n := min (PGSIZE - (va - pgrounddown va)) len
        copyLoop t memmove fuel ((pgrounddown va + PGSIZE) % 2 ^ 64) (done + n) (len - n)
          (memmove pa0 (va - pgrounddown va) n done s)

def copyout (t : Table N) (mem : Ram N) (dstva : Nat) (src : Store) (len : Nat) : Bool × Ram N :=
  copyLoop t (fun pa off n done mem => update mem pa (putBytes (mem pa) off n fun k => src (done + k)))
    len dstva 0 len mem

def copyin (t : Table N) (mem : Ram N) (dst : Store) (srcva len : Nat) : Bool × Store :=
  copyLoop t (fun pa off n done dst => putBytes dst done n fun k => mem pa (off + k)) len srcva 0 len dst

/-- The inner loop of copyinstr, over n bytes of a page from p on: got_null, and what is at dst. -/
def copyChars (page : Store) : Nat → Nat → Nat → Store → Bool × Store
  | 0, _, _, dst => (false, dst)
  | n + 1, p, done, dst =>
    if page p = 0 then (true, update dst done 0)
    else copyChars page n (p + 1) (done + 1) (update dst done (page p))

def copyinstrLoop (t : Table N) (mem : Ram N) : Nat → Nat → Nat → Nat → Store → Bool × Store
  | 0, _, _, _, dst => (false, dst)
  | fuel + 1, srcva, done, max, dst =>
    if max = 0 then (false, dst)
    else match walkaddr t (pgrounddown srcva) with
      | none => (false, dst)
      | some pa0 =>
        let n := min (PGSIZE - (srcva - pgrounddown srcva)) max
        match copyChars (mem pa0) n (srcva - pgrounddown srcva) done dst with
        | (true, dst) => (true, dst)
        | (false, dst) =>
          copyinstrLoop t mem fuel ((pgrounddown srcva + PGSIZE) % 2 ^ 64) (done + n) (max - n) dst

def copyinstr (t : Table N) (mem : Ram N) (dst : Store) (srcva max : Nat) : Bool × Store :=
  copyinstrLoop t mem max srcva 0 max dst

def strlen (s : Store) (size : Nat) : Option Nat := (List.range size).find? fun k => s k = 0

/-- fetchstr into a buffer of max bytes: -1, or the result of strlen; none if strlen leaves it. -/
def fetchstr (t : Table N) (mem : Ram N) (buf : Store) (addr max : Nat) : Option Int × Store :=
  match copyinstr t mem buf addr max with
  | (false, buf) => (some (-1), buf)
  | (true, buf) => ((strlen buf max).map (↑), buf)

variable {t : Table N} {mem : Ram N} {va len a b max : Nat}

theorem walkaddr_page (same : a / PGSIZE = b / PGSIZE) : walkaddr t a = walkaddr t b := by
  have bound : a ≥ MAXVA ↔ b ≥ MAXVA := by
    simp only [MAXVA, PGSIZE] at *
    omega
  simp only [walkaddr, bound, same]

theorem walkaddr_start (a : Nat) : walkaddr t (pgrounddown a) = walkaddr t a :=
  walkaddr_page (Nat.mul_div_cancel _ (by decide))

theorem walkaddr_below {f : Frame N} (found : walkaddr t a = some f) : a < MAXVA := by
  unfold walkaddr at found
  split at found
  · cases found
  · omega

theorem offset_eq (a : Nat) : a - pgrounddown a = a % PGSIZE := by
  have parts := Nat.div_add_mod a PGSIZE
  rw [pgrounddown, Nat.mul_comm]
  omega

theorem next_page {m n rest : Nat} (below : va + m < MAXVA) (size : n = min (PGSIZE - (va + m) % PGSIZE) rest)
    (more : rest - n ≠ 0) : (pgrounddown (va + m) + PGSIZE) % 2 ^ 64 = va + (m + n) := by
  have offset := Nat.mod_lt (va + m) (show 0 < PGSIZE by decide)
  have start := offset_eq (va + m)
  simp only [pgrounddown, PGSIZE, MAXVA] at *
  omega

theorem same_page {m k n : Nat} (inside : (va + m) % PGSIZE + n ≤ PGSIZE) (small : k < n) :
    (va + (m + k)) / PGSIZE = (va + m) / PGSIZE ∧ (va + (m + k)) % PGSIZE = (va + m) % PGSIZE + k := by
  simp only [PGSIZE] at *
  omega

theorem page_mapped {m n : Nat} {f : Frame N} (mapped : ∀ j < m, walkaddr t (va + j) ≠ none)
    (found : walkaddr t (va + m) = some f) (inside : (va + m) % PGSIZE + n ≤ PGSIZE) :
    ∀ j < m + n, walkaddr t (va + j) ≠ none := by
  intro j less
  by_cases earlier : j < m
  · exact mapped j earlier
  obtain ⟨k, rfl⟩ := Nat.exists_eq_add_of_le (Nat.not_lt.mp earlier)
  rw [walkaddr_page (same_page inside (by omega)).1, found]
  simp

def Meets (v va len : Nat) : Prop := ∃ k < len, v = (va + k) / PGSIZE

def UserPage (t : Table N) (v : Nat) : Prop :=
  v * PGSIZE < MAXVA ∧ ∃ leaf, t.pte v = some leaf ∧ leaf.perm.u = true

theorem walkaddr_user : walkaddr t a ≠ none ↔ UserPage t (a / PGSIZE) := by
  have bound : a / PGSIZE * PGSIZE < MAXVA ↔ a < MAXVA := by
    simp only [MAXVA, PGSIZE]
    omega
  unfold walkaddr UserPage
  rw [bound]
  by_cases below : a < MAXVA
  · rw [if_neg (by omega)]
    cases t.pte (a / PGSIZE) with
    | none => simp
    | some leaf => cases user : leaf.perm.u <;> simp [user, below]
  · simp [below, Nat.not_lt.mp below]

theorem mapped_iff : (∀ k < len, walkaddr t (va + k) ≠ none) ↔ ∀ v, Meets v va len → UserPage t v := by
  constructor
  · rintro mapped v ⟨k, less, rfl⟩
    exact walkaddr_user.mp (mapped k less)
  intro users k less
  exact walkaddr_user.mpr (users _ ⟨k, less, rfl⟩)

/-- The first k bytes are in user pages, and if there are more, the next one is not. -/
structure Reach (t : Table N) (va len k : Nat) : Prop where
  le : k ≤ len
  mapped : ∀ j < k, walkaddr t (va + j) ≠ none
  hole : k < len → walkaddr t (va + k) = none

theorem reach_all {k : Nat} (reach : Reach t va len k) : k = len ↔ ∀ v, Meets v va len → UserPage t v := by
  rw [← mapped_iff]
  constructor
  · rintro rfl
    exact reach.mapped
  intro mapped
  by_contra short
  have less := Nat.lt_of_le_of_ne reach.le short
  exact mapped k less (reach.hole less)

theorem copyLoop_rule {memmove : Frame N → Nat → Nat → Nat → S → S} {P : Nat → S → Prop}
    (step : ∀ m n f s, m + n ≤ len → (va + m) % PGSIZE + n ≤ PGSIZE → walkaddr t (va + m) = some f →
      P m s → P (m + n) (memmove f ((va + m) % PGSIZE) n m s))
    {fuel cur m rest : Nat} {s : S} (enough : rest ≤ fuel) (total : m + rest = len)
    (at_cur : rest ≠ 0 → cur = va + m) (mapped : ∀ j < m, walkaddr t (va + j) ≠ none) (start : P m s) :
    ∃ k, Reach t va len k ∧ (copyLoop t memmove fuel cur m rest s).1 = decide (k = len) ∧
      P k (copyLoop t memmove fuel cur m rest s).2 := by
  induction fuel generalizing cur m rest s with
  | zero => exact ⟨m, ⟨by omega, mapped, by omega⟩, (decide_eq_true (by omega)).symm, start⟩
  | succ fuel ih =>
    rw [copyLoop]
    by_cases finished : rest = 0
    · rw [if_pos finished]
      exact ⟨m, ⟨by omega, mapped, by omega⟩, (decide_eq_true (by omega)).symm, start⟩
    obtain rfl := at_cur finished
    rw [if_neg finished, walkaddr_start, offset_eq]
    cases found : walkaddr t (va + m) with
    | none => exact ⟨m, ⟨by omega, mapped, fun _ => found⟩, (decide_eq_false (by omega)).symm, start⟩
    | some f =>
      have offset := Nat.mod_lt (va + m) (show 0 < PGSIZE by decide)
      have below := walkaddr_below found
      simp only
      generalize size : min (PGSIZE - (va + m) % PGSIZE) rest = n
      have inside : (va + m) % PGSIZE + n ≤ PGSIZE := by omega
      exact ih (by omega) (by omega) (next_page below size.symm) (page_mapped mapped found inside)
        (step m n f s (by omega) inside found start)

def Distinct (t : Table N) : Prop :=
  ∀ a b f, walkaddr t a = some f → walkaddr t b = some f → a / PGSIZE = b / PGSIZE

/-- The first m bytes of src are at va, and nothing else has changed. -/
structure Stored (t : Table N) (va : Nat) (src : Store) (mem : Ram N) (m : Nat) (mem' : Ram N) : Prop where
  bytes : ∀ k < m, ∀ f, walkaddr t (va + k) = some f → mem' f ((va + k) % PGSIZE) = src k
  frame : ∀ f o, (∀ k < m, walkaddr t (va + k) = some f → (va + k) % PGSIZE ≠ o) → mem' f o = mem f o

theorem copyout_rule (distinct : Distinct t) (va : Nat) (src : Store) (len : Nat) (mem : Ram N) :
    ∃ k, Reach t va len k ∧ (copyout t mem va src len).1 = decide (k = len) ∧
      Stored t va src mem k (copyout t mem va src len).2 := by
  refine copyLoop_rule ?_ le_rfl (Nat.zero_add len) (fun _ => rfl) (by omega) ⟨by omega, fun _ _ _ => rfl⟩
  intro m n f mem' small inside found stored
  constructor
  · intro k less g there
    by_cases earlier : k < m
    · by_cases same : g = f
      · subst g
        have page := distinct _ _ f there found
        rw [update_self, putBytes_outside _ _ _ _ _ (by simp only [PGSIZE] at *; omega)]
        exact stored.bytes k earlier f there
      rw [update_of_ne same]
      exact stored.bytes k earlier g there
    obtain ⟨j, rfl⟩ := Nat.exists_eq_add_of_le (Nat.not_lt.mp earlier)
    obtain ⟨page, place⟩ := same_page inside (show j < n by omega)
    rw [walkaddr_page page, found] at there
    cases there
    rw [update_self, place, putBytes_inside _ _ _ _ _ (by omega)]
  intro g o away
  by_cases same : g = f
  · subst g
    rw [update_self, putBytes_outside]
    · exact stored.frame f o fun k less => away k (by omega)
    by_contra inner
    obtain ⟨page, place⟩ := same_page inside (show o - (va + m) % PGSIZE < n by omega)
    refine away (m + (o - (va + m) % PGSIZE)) (by omega) ?_ (by omega)
    rw [walkaddr_page page, found]
  rw [update_of_ne same]
  exact stored.frame g o fun k less => away k (by omega)

def userByte (t : Table N) (mem : Ram N) (a : Nat) : UInt8 :=
  (walkaddr t a).elim 0 fun f => mem f (a % PGSIZE)

theorem copyin_rule (t : Table N) (mem : Ram N) (dst : Store) (va len : Nat) :
    ∃ k, Reach t va len k ∧ (copyin t mem dst va len).1 = decide (k = len) ∧
      (copyin t mem dst va len).2 = putBytes dst 0 k fun j => userByte t mem (va + j) := by
  refine copyLoop_rule (P := fun m s => s = putBytes dst 0 m fun k => userByte t mem (va + k)) ?_ le_rfl
    (Nat.zero_add len) (fun _ => rfl) (by omega) (putBytes_none _ _ _).symm
  rintro m n f s small inside found rfl
  refine putBytes_append _ _ _ _ _ (Nat.zero_add m).symm fun k less => ?_
  obtain ⟨page, place⟩ := same_page inside less
  rw [userByte, walkaddr_page page, found, Option.elim_some, place]

theorem copyLoop_congr {move move' : Frame N → Nat → Nat → Nat → S → S}
    (same : ∀ a f, walkaddr t a = some f → move f = move' f) (fuel va done len : Nat) (s : S) :
    copyLoop t move fuel va done len s = copyLoop t move' fuel va done len s := by
  induction fuel generalizing va done len s with
  | zero => rfl
  | succ fuel ih =>
    rw [copyLoop, copyLoop]
    cases found : walkaddr t (pgrounddown va) with
    | none => rfl
    | some f => simp only [same _ f found, ih]

def NotUser (t : Table N) (f : Frame N) : Prop :=
  ∀ v leaf, t.pte v = some leaf → leaf.perm.u = true → leaf.frame ≠ f

theorem not_user {f : Frame N} (apart : NotUser t f) (a : Nat) : walkaddr t a ≠ some f := by
  intro found
  unfold walkaddr at found
  split at found
  · cases found
  split at found
  · cases found
  split at found
  · exact apart _ _ ‹_› ‹_› (Option.some.inj found)
  · cases found

theorem stored_at {src : Store} {mem' : Ram N} {f : Frame N} (distinct : Distinct t)
    (stored : Stored t va src mem len mem') (found : walkaddr t a = some f) :
    mem' f (a % PGSIZE) = if va ≤ a ∧ a < va + len then src (a - va) else mem f (a % PGSIZE) := by
  split
  · obtain ⟨k, rfl⟩ := Nat.exists_eq_add_of_le (show va ≤ a by omega)
    rw [Nat.add_sub_cancel_left]
    exact stored.bytes k (by omega) f found
  refine stored.frame f _ fun k less there place => ?_
  have page := distinct _ _ f there found
  simp only [PGSIZE] at *
  omega

theorem copy_moves_user_bytes (distinct : Distinct t) (mem : Ram N) (src dst : Store) (va len : Nat) :
    ((copyout t mem va src len).1 = true ↔ ∀ v, Meets v va len → UserPage t v) ∧
    ((copyin t mem dst va len).1 = true ↔ ∀ v, Meets v va len → UserPage t v) ∧
    ((copyout t mem va src len).1 = true →
      (∀ a f, walkaddr t a = some f → (copyout t mem va src len).2 f (a % PGSIZE) =
        if va ≤ a ∧ a < va + len then src (a - va) else mem f (a % PGSIZE)) ∧
      copyin t (copyout t mem va src len).2 dst va len = (true, putBytes dst 0 len src)) ∧
    ((copyin t mem dst va len).1 = true →
      (copyin t mem dst va len).2 = putBytes dst 0 len fun k => userByte t mem (va + k)) ∧
    (∀ f, NotUser t f → (copyout t mem va src len).2 f = mem f) ∧
    ∀ mem', (∀ f, ¬ NotUser t f → mem' f = mem f) → copyin t mem' dst va len = copyin t mem dst va len := by
  obtain ⟨k, reach, ok, stored⟩ := copyout_rule distinct va src len mem
  obtain ⟨j, reach', ok', bytes⟩ := copyin_rule t mem dst va len
  rw [ok, ok', decide_eq_true_iff, decide_eq_true_iff]
  refine ⟨reach_all reach, reach_all reach', ?_, ?_, ?_, ?_⟩
  · rintro rfl
    refine ⟨fun a f => stored_at distinct stored, ?_⟩
    obtain ⟨i, reach', ok', bytes⟩ := copyin_rule t (copyout t mem va src k).2 dst va k
    obtain rfl := (reach_all reach').mpr ((reach_all reach).mp rfl)
    refine Prod.ext (ok'.trans (decide_eq_true rfl)) (bytes.trans ?_)
    refine putBytes_congr _ _ fun a less => ?_
    obtain ⟨f, found⟩ := Option.ne_none_iff_exists'.mp (reach.mapped a less)
    rw [userByte, found, Option.elim_some, stored.bytes a less f found]
  · rintro rfl
    exact bytes
  · intro f apart
    funext o
    exact stored.frame f o fun a _ found => absurd found (not_user apart _)
  · intro mem' same
    refine copyLoop_congr (fun a f found => ?_) _ _ _ _ _
    funext off n done dst
    rw [same f fun apart => not_user apart a found]

def onePage : Table 1 :=
  ⟨fun k => if k = 0 then some 0 else none, fun k => if k = 0 then some 0 else none,
    fun v => if v = 0 then some ⟨.page 0, userPerm⟩ else none⟩

theorem onePage_distinct : Distinct onePage := by
  have first : ∀ a f, walkaddr onePage a = some f → a / PGSIZE = 0 := by
    intro a f found
    by_contra other
    have absent : onePage.pte (a / PGSIZE) = none := by
      simp only [Table.pte, onePage, other, if_false, ite_self]
    simp only [walkaddr, absent, ite_self] at found
    cases found
  intro a b f here there
  rw [first a f here, first b f there]

theorem copy_moves_two_bytes : Distinct onePage ∧
    (copyout onePage (fun _ _ => 0) 5 (fun k => UInt8.ofNat (k + 7)) 2).1 = true ∧
    copyin onePage (copyout onePage (fun _ _ => 0) 5 (fun k => UInt8.ofNat (k + 7)) 2).2 (fun _ => 0) 5 2 =
      (true, putBytes (fun _ => 0) 0 2 fun k => UInt8.ofNat (k + 7)) := by
  have ok : (copyout onePage (fun _ _ => 0) 5 (fun k => UInt8.ofNat (k + 7)) 2).1 = true := by decide +kernel
  exact ⟨onePage_distinct, ok, ((copy_moves_user_bytes onePage_distinct (fun _ _ => 0)
    (fun k => UInt8.ofNat (k + 7)) (fun _ => 0) 5 2).2.2.1 ok).2⟩

/- copyinstr. -/

theorem copyChars_rule {page f dst : Store} {p m n : Nat} (bytes : ∀ j < n, page (p + j) = f (m + j))
    (prev : ∀ j < m, f j ≠ 0) : (∃ k < m + n, f k = 0 ∧ (∀ j < k, f j ≠ 0) ∧
      copyChars page n p m (putBytes dst 0 m f) = (true, putBytes dst 0 (k + 1) f)) ∨
    ((∀ j < m + n, f j ≠ 0) ∧ copyChars page n p m (putBytes dst 0 m f) = (false, putBytes dst 0 (m + n) f)) := by
  induction n generalizing p m with
  | zero => exact .inr ⟨prev, rfl⟩
  | succ n ih =>
    have here : page p = f m := bytes 0 (by omega)
    have stored := putBytes_snoc dst 0 m f
    rw [Nat.zero_add] at stored
    rw [copyChars, here]
    by_cases null : f m = 0
    · refine .inl ⟨m, by omega, null, prev, ?_⟩
      rw [if_pos null, ← null, stored]
    have rest := ih (p := p + 1) (m := m + 1)
      (fun j less => by rw [Nat.add_assoc, Nat.add_assoc, Nat.add_comm 1, bytes (j + 1) (by omega)])
      (fun j less => by
        rcases Nat.lt_succ_iff_lt_or_eq.mp less with earlier | rfl
        · exact prev j earlier
        · exact null)
    rw [if_neg null, stored, show m + (n + 1) = m + 1 + n by omega]
    exact rest

theorem copyinstrLoop_rule {dst : Store} {fuel cur m rest : Nat} (enough : rest ≤ fuel) (total : m + rest = max)
    (at_cur : rest ≠ 0 → cur = va + m) (mapped : ∀ j < m, walkaddr t (va + j) ≠ none)
    (prev : ∀ j < m, userByte t mem (va + j) ≠ 0) :
    (∃ k < max, userByte t mem (va + k) = 0 ∧ (∀ j < k, userByte t mem (va + j) ≠ 0) ∧
      (∀ j < k + 1, walkaddr t (va + j) ≠ none) ∧
      copyinstrLoop t mem fuel cur m rest (putBytes dst 0 m fun j => userByte t mem (va + j)) =
        (true, putBytes dst 0 (k + 1) fun j => userByte t mem (va + j))) ∨
    ∃ k ≤ max, (k < max → walkaddr t (va + k) = none) ∧ (∀ j < k, userByte t mem (va + j) ≠ 0) ∧
      copyinstrLoop t mem fuel cur m rest (putBytes dst 0 m fun j => userByte t mem (va + j)) =
        (false, putBytes dst 0 k fun j => userByte t mem (va + j)) := by
  induction fuel generalizing cur m rest with
  | zero => exact .inr ⟨m, by omega, fun less => absurd less (by omega), prev, rfl⟩
  | succ fuel ih =>
    by_cases finished : rest = 0
    · rw [copyinstrLoop, if_pos finished]
      exact .inr ⟨m, by omega, fun less => absurd less (by omega), prev, rfl⟩
    obtain rfl := at_cur finished
    rw [copyinstrLoop, if_neg finished, walkaddr_start, offset_eq]
    cases found : walkaddr t (va + m) with
    | none => exact .inr ⟨m, by omega, fun _ => found, prev, rfl⟩
    | some f =>
      have offset := Nat.mod_lt (va + m) (show 0 < PGSIZE by decide)
      have below := walkaddr_below found
      simp only
      generalize size : min (PGSIZE - (va + m) % PGSIZE) rest = n
      have inside : (va + m) % PGSIZE + n ≤ PGSIZE := by omega
      have there := page_mapped mapped found inside
      have bytes : ∀ j < n, mem f ((va + m) % PGSIZE + j) = userByte t mem (va + (m + j)) := by
        intro j less
        rw [userByte, walkaddr_page (same_page inside less).1, found, Option.elim_some, (same_page inside less).2]
      rcases copyChars_rule (f := fun j => userByte t mem (va + j)) bytes prev with
        ⟨k, less, zero, first, res⟩ | ⟨all, res⟩
      · rw [res]
        exact .inl ⟨k, by omega, zero, first, fun j early => there j (by omega), rfl⟩
      rw [res]
      exact ih (by omega) (by omega) (next_page below size.symm) there all

/-- The string at srcva ends after k bytes, inside of max bytes of user pages. -/
def EndsAt (t : Table N) (mem : Ram N) (srcva max k : Nat) : Prop :=
  k < max ∧ userByte t mem (srcva + k) = 0 ∧ (∀ j < k, userByte t mem (srcva + j) ≠ 0) ∧
    ∀ v, Meets v srcva (k + 1) → UserPage t v

theorem copyinstr_result (t : Table N) (mem : Ram N) (dst : Store) (srcva max : Nat) :
    (∃ k, EndsAt t mem srcva max k ∧ copyinstr t mem dst srcva max =
      (true, putBytes dst 0 (k + 1) fun j => userByte t mem (srcva + j))) ∨
    ((∀ k, ¬ EndsAt t mem srcva max k) ∧ ∃ k ≤ max, copyinstr t mem dst srcva max =
      (false, putBytes dst 0 k fun j => userByte t mem (srcva + j))) := by
  have rule := @copyinstrLoop_rule N t mem srcva max dst max srcva 0 max le_rfl (Nat.zero_add max) (fun _ => rfl)
    (by omega) (by omega)
  rw [putBytes_none] at rule
  rcases rule with ⟨k, less, zero, first, mapped, res⟩ | ⟨k, le, hole, first, res⟩
  · exact .inl ⟨k, ⟨less, zero, first, mapped_iff.mp mapped⟩, res⟩
  refine .inr ⟨?_, k, le, res⟩
  rintro j ⟨less, zero, -, users⟩
  by_cases early : j < k
  · exact first j early zero
  · exact mapped_iff.mpr users k (by omega) (hole (by omega))

theorem endsAt_unique {j k : Nat} (first : EndsAt t mem va max j) (snd : EndsAt t mem va max k) : j = k := by
  rcases Nat.lt_trichotomy j k with less | same | less
  · exact absurd first.2.1 (snd.2.2.1 j less)
  · exact same
  · exact absurd snd.2.1 (first.2.2.1 k less)

theorem strlen_of_endsAt {dst : Store} {k : Nat} (ends : EndsAt t mem va max k) :
    strlen (putBytes dst 0 (k + 1) fun j => userByte t mem (va + j)) max = some k := by
  refine List.find?_range_eq_some.mpr ⟨?_, List.mem_range.mpr ends.1, ?_⟩
  · rw [putBytes, if_pos (by omega), Nat.sub_zero, ends.2.1]
    rfl
  intro j less
  rw [putBytes, if_pos (by omega), Nat.sub_zero]
  simpa using ends.2.2.1 j less

theorem copyinstr_decides (t : Table N) (mem : Ram N) (dst : Store) (srcva max : Nat) :
    ((copyinstr t mem dst srcva max).1 = true ↔ ∃ k, EndsAt t mem srcva max k) ∧
    (∀ k, EndsAt t mem srcva max k →
      (copyinstr t mem dst srcva max).2 = putBytes dst 0 (k + 1) fun j => userByte t mem (srcva + j)) ∧
    (∀ o, max ≤ o → (copyinstr t mem dst srcva max).2 o = dst o) ∧
    (∀ k, EndsAt t mem srcva max k → (fetchstr t mem dst srcva max).1 = some (k : Int)) ∧
    ((∀ k, ¬ EndsAt t mem srcva max k) → (fetchstr t mem dst srcva max).1 = some (-1)) := by
  unfold fetchstr
  rcases copyinstr_result t mem dst srcva max with ⟨k, ends, result⟩ | ⟨never, k, le, result⟩
  · rw [result]
    refine ⟨iff_of_true rfl ⟨k, ends⟩, ?_, ?_, ?_, fun never => absurd ends (never k)⟩
    · intro j other
      rw [endsAt_unique other ends]
    · intro o past
      have less := ends.1
      exact putBytes_outside dst 0 (k + 1) (fun j => userByte t mem (srcva + j)) o (by omega)
    · intro j other
      rw [endsAt_unique other ends]
      simp only [strlen_of_endsAt ends, Option.map_some]
  · rw [result]
    refine ⟨iff_of_false (by simp) fun ⟨k, ends⟩ => never k ends, fun k ends => absurd ends (never k), ?_,
      fun k ends => absurd ends (never k), fun _ => rfl⟩
    intro o past
    exact putBytes_outside dst 0 k (fun j => userByte t mem (srcva + j)) o (by omega)

end

end Xv6Vm
