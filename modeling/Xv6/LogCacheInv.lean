import Xv6.LogCache

/- The invariant of the buffer cache with the log: every block has been given what its buffer
   holds, and what is not on the disk is in a buffer that somebody holds or the log pins. -/
namespace Xv6Store
open Xv6 Xv6Bio Threads Prog Function
set_option linter.unusedSectionVars false

section
variable {T D : Type}
variable {b : Buf} {h : Ledger} {n : Nat} {x : BufState T D} {use : Use}

def isAt (b : Buf) : Option Buf → Nat
  | some b' => if b' = b then 1 else 0
  | none => 0

def oneUse : Option Use → Nat
  | some _ => 1
  | none => 0

def uses (l : Ledger) (b : Buf) : Nat := isAt b (l.wait.map Prod.fst) + oneUse (l.held b) + isAt b l.free

def Store.pinned (s : Store T D) : List Nat := s.lh.drop s.unpinned

def pin (area : Area) (s : Store T D) (b : Buf) : Nat :=
  if (s.buf b).Caches area.dev (s.buf b).blockno ∧ (s.buf b).blockno ∈ s.pinned then 1 else 0

/-- The contents of block n are safe: on the disk, in the log, or with a process that still has
    to pass them on. -/
def Kept (area : Area) (s : Store T D) (l : T → Ledger) (n : Nat) : Prop :=
  s.disk n = s.given area.dev n ∨ ∃ b, (s.buf b).Caches area.dev n ∧ (s.buf b).valid = true ∧
    (n ∈ s.pinned ∨ ∃ t use, (l t).held b = some use ∧ use.dirty = true)

variable [Fintype T] [DecidableEq T]

/-- Which buffer is for which block, and who uses it. -/
structure Shape (area : Area) (s : Store T D) (l : T → Ledger) : Prop where
  sound : Sound s.cache
  holder : ∀ t b, (s.buf b).holder = some t ↔ (l t).held b ≠ none
  wait : ∀ t b n, (l t).wait = some (b, n) → (s.buf b).Caches area.dev n
  held : ∀ t b use, (l t).held b = some use → (s.buf b).Caches area.dev use.blockno
  count : ∀ b, (s.buf b).refcnt = ∑ t, uses (l t) b + pin area s b
  logged : ∀ n ∈ s.pinned, ∃ b, (s.buf b).Caches area.dev n

structure Contents (area : Area) (s : Store T D) (l : T → Ledger) : Prop where
  ready : ∀ t b use, (l t).held b = some use → use.ready = true → (s.buf b).valid = true
  home : ∀ t b use, (l t).held b = some use → use.home = true →
    s.disk use.blockno = s.given area.dev use.blockno
  given : ∀ b, (s.buf b).dev = area.dev → (s.buf b).valid = true →
    (s.buf b).data = s.given area.dev (s.buf b).blockno
  kept : ∀ n, Kept area s l n

structure Transactions (s : Store T D) (l : T → Ledger) : Prop where
  nodup : s.lh.Nodup
  short : s.lh.length ≤ logSize
  ops : s.outstanding = ∑ t, (l t).ops
  commit : ∀ t i, (l t).commit = some i → s.committing = true ∧ s.unpinned = i ∧
    ∀ lh, (l t).lh = some lh → s.lh = lh
  alone : ∀ t u, (l t).commit ≠ none → (l u).commit ≠ none → t = u
  quiet : s.committing = true → s.outstanding = 0
  idle : s.committing = false → s.unpinned = 0

structure Inv (area : Area) (s : Store T D) (l : T → Ledger) : Prop where
  shape : Shape area s l
  contents : Contents area s l
  transactions : Transactions s l

variable {area : Area} {s s' : Store T D} {l : T → Ledger} {t : T}

theorem same_buf (shape : Shape area s l) (dev : area.dev ≠ 0) {b b' : Buf}
    (first : (s.buf b).Caches area.dev n) (snd : (s.buf b').Caches area.dev n) : b = b' := by
  apply shape.sound.unique b b'
  · rw [show (s.cache.buf b).dev = area.dev from first.1]
    exact dev
  · exact ⟨snd.1.trans first.1.symm, snd.2.trans first.2.symm⟩

theorem uses_update (l : T → Ledger) (t : T) (h : Ledger) (b : Buf) :
    ∑ u, uses (update l t h u) b + uses (l t) b = ∑ u, uses (l u) b + uses h b :=
  sum_update l (fun _ l => uses l b) t h

theorem unused_buf (shape : Shape area s l) (unused : (s.buf b).refcnt = 0) :
    (∀ u, (l u).held b = none) ∧ (∀ u n, (l u).wait ≠ some (b, n)) ∧ pin area s b = 0 := by
  have count := shape.count b
  have zero : ∀ u, uses (l u) b = 0 := by
    intro u
    have part := le_sum (fun u => uses (l u) b) u
    omega
  refine ⟨?_, ?_, by omega⟩
  · intro u
    have none := zero u
    cases mine : (l u).held b with
    | none => rfl
    | some use => simp [uses, oneUse, mine] at none
  intro u n waits
  have none := zero u
  simp [uses, isAt, waits] at none

theorem pin_of (here : (s.buf b).Caches area.dev n) (listed : n ∈ s.pinned) : pin area s b = 1 := by
  obtain ⟨dev, rfl⟩ := here
  exact if_pos ⟨⟨dev, rfl⟩, listed⟩

section
variable (transactions : Transactions s l)
include transactions

theorem transactions_same (s' : Store T D) (lh : s'.lh = s.lh) (unpinned : s'.unpinned = s.unpinned)
    (outstanding : s'.outstanding = s.outstanding) (committing : s'.committing = s.committing)
    (ops : h.ops = (l t).ops) (commit : h.commit = (l t).commit) (known : h.lh = (l t).lh) :
    Transactions s' (update l t h) := by
  have same : ∀ u, (update l t h u).ops = (l u).ops ∧
      (update l t h u).commit = (l u).commit ∧ (update l t h u).lh = (l u).lh := by
    intro u
    by_cases mine : u = t
    · subst u
      simp [ops, commit, known]
    · simp [mine]
  obtain ⟨nodup, short, sum, stage, alone, quiet, idle⟩ := transactions
  constructor
  · rwa [lh]
  · rwa [lh]
  · simp only [outstanding, same, sum]
  · intro u i
    rw [(same u).2.1, (same u).2.2, committing, unpinned, lh]
    exact stage u i
  · intro u v
    rw [(same u).2.1, (same v).2.1]
    exact alone u v
  · rwa [committing, outstanding]
  · rwa [committing, unpinned]

theorem transactions_commit {i j : Nat} (stage : (l t).commit = some i)
    (s' : Store T D) (nodup : s'.lh.Nodup) (short : s'.lh.length ≤ logSize)
    (outstanding : s'.outstanding = s.outstanding) (committing : s'.committing = s.committing)
    (ops : h.ops = (l t).ops) (commit : h.commit = some j) (unpinned : s'.unpinned = j)
    (known : ∀ lh, h.lh = some lh → s'.lh = lh) : Transactions s' (update l t h) := by
  have busy := (transactions.commit t i stage).1
  have mine : ∀ u, (update l t h u).commit ≠ none → u = t := by
    intro u there
    by_contra me
    rw [update_of_ne me] at there
    exact me (transactions.alone u t there (by simp [stage]))
  refine ⟨nodup, short, ?_, ?_, ?_, ?_, ?_⟩
  · have sum := sum_update l (fun _ l => l.ops) t h
    have old := transactions.ops
    simp only [ops] at sum
    omega
  · intro u k there
    obtain rfl := mine u (by simp [there])
    rw [update_self] at there ⊢
    rw [commit] at there
    cases there
    exact ⟨committing.trans busy, unpinned, known⟩
  · intro u v first snd
    rw [mine u first, mine v snd]
  · rw [committing, outstanding]
    exact transactions.quiet
  rw [committing, busy]
  intro calm
  cases calm

theorem nobody_commits (calm : s.committing = false) (u : T) : (l u).commit = none := by
  by_contra stage
  obtain ⟨i, stage⟩ := Option.ne_none_iff_exists'.mp stage
  rw [(transactions.commit u i stage).1] at calm
  cases calm

theorem transactions_calm (s' : Store T D) (nodup : s'.lh.Nodup) (short : s'.lh.length ≤ logSize)
    (committing : s'.committing = false) (unpinned : s'.unpinned = 0)
    (ops : s'.outstanding + (l t).ops = s.outstanding + h.ops)
    (nobody : ∀ u, (update l t h u).commit = none) : Transactions s' (update l t h) := by
  refine ⟨nodup, short, ?_, ?_, ?_, ?_, fun _ => unpinned⟩
  · have sum := sum_update l (fun _ l => l.ops) t h
    have old := transactions.ops
    omega
  · intro u k there
    rw [nobody u] at there
    cases there
  · intro u v there
    exact absurd (nobody u) there
  rw [committing]
  intro busy
  cases busy

theorem transactions_open (calm : s.committing = false) (s' : Store T D) (nodup : s'.lh.Nodup)
    (short : s'.lh.length ≤ logSize) (committing : s'.committing = false) (unpinned : s'.unpinned = 0)
    (ops : s'.outstanding + (l t).ops = s.outstanding + h.ops) (commit : h.commit = (l t).commit) :
    Transactions s' (update l t h) := by
  apply transactions_calm transactions s' nodup short committing unpinned ops
  intro u
  by_cases me : u = t
  · rw [me, update_self, commit, nobody_commits transactions calm]
  · rw [update_of_ne me, nobody_commits transactions calm]

end

theorem caches_update (bufs : s'.buf = update s.buf b x) (same : x.Caches (s.buf b).dev (s.buf b).blockno)
    (b' : Buf) : (s'.buf b').Caches (s.buf b').dev (s.buf b').blockno := by
  by_cases here : b' = b
  · subst b'
    rwa [bufs, update_self]
  rw [bufs, update_of_ne here]
  exact ⟨rfl, rfl⟩

theorem shape_change (shape : Shape area s l) (s' : Store T D) (sound : Sound s'.cache)
    (fields : ∀ b, (s'.buf b).Caches (s.buf b).dev (s.buf b).blockno)
    (holder : ∀ u b, (s'.buf b).holder = some u ↔ (update l t h u).held b ≠ none)
    (wait : ∀ b n, h.wait = some (b, n) → (s.buf b).Caches area.dev n)
    (held : ∀ b use, h.held b = some use → (s.buf b).Caches area.dev use.blockno)
    (count : ∀ b, (s'.buf b).refcnt + uses (l t) b + pin area s b = (s.buf b).refcnt + uses h b + pin area s' b)
    (logged : ∀ n ∈ s'.pinned, ∃ b, (s.buf b).Caches area.dev n) : Shape area s' (update l t h) := by
  have caches : ∀ b n, (s'.buf b).Caches area.dev n ↔ (s.buf b).Caches area.dev n := by
    intro b n
    simp only [BufState.Caches, (fields b).1, (fields b).2]
  refine ⟨sound, holder, ?_, ?_, ?_, ?_⟩
  · intro u b n waits
    rw [caches]
    by_cases me : u = t
    · rw [me, update_self] at waits
      exact wait b n waits
    rw [update_of_ne me] at waits
    exact shape.wait u b n waits
  · intro u b use there
    rw [caches]
    by_cases me : u = t
    · rw [me, update_self] at there
      exact held b use there
    rw [update_of_ne me] at there
    exact shape.held u b use there
  · intro b
    have sum := uses_update l t h b
    have old := shape.count b
    have new := count b
    omega
  intro n listed
  obtain ⟨b, here⟩ := logged n listed
  exact ⟨b, (caches b n).mpr here⟩

theorem shape_step (shape : Shape area s l) (s' : Store T D)
    (sound : Sound s'.cache) (lh : s'.pinned = s.pinned) (bufs : s'.buf = update s.buf b x)
    (same : x.Caches (s.buf b).dev (s.buf b).blockno) (refcnt : x.refcnt + uses (l t) b = (s.buf b).refcnt + uses h b)
    (others : ∀ b', b' ≠ b → uses h b' = uses (l t) b' ∧ h.held b' = (l t).held b')
    (holder : ∀ u, x.holder = some u ↔ (update l t h u).held b ≠ none)
    (wait : ∀ b' n, h.wait = some (b', n) → (s.buf b').Caches area.dev n)
    (held : ∀ use, h.held b = some use → (s.buf b).Caches area.dev use.blockno) : Shape area s' (update l t h) := by
  have fields := caches_update bufs same
  refine shape_change shape s' sound fields ?_ wait ?_ ?_ (lh ▸ shape.logged)
  · intro u b'
    by_cases here : b' = b
    · subst b'
      simpa [bufs] using holder u
    rw [bufs, update_of_ne here, shape.holder]
    by_cases mine : u = t
    · subst u
      simp [(others b' here).2]
    · simp [mine]
  · intro b' use mine
    by_cases here : b' = b
    · subst b'
      exact held use mine
    · exact shape.held t b' use ((others b' here).2 ▸ mine)
  intro b'
  have pins : pin area s' b' = pin area s b' := by
    simp only [pin, BufState.Caches, (fields b').1, (fields b').2, lh]
  rw [pins, Nat.add_right_cancel_iff]
  by_cases here : b' = b
  · subst b'
    rwa [bufs, update_self]
  · rw [bufs, update_of_ne here, (others b' here).1]

theorem kept_step (kept : Kept area s l n)
    (disk : s'.disk n = s.disk n) (given : s'.given area.dev n = s.given area.dev n)
    (listed : n ∈ s.pinned → n ∈ s'.pinned) (bufs : ∀ b, (s.buf b).Caches area.dev n → (s.buf b).valid = true →
      (n ∈ s.pinned ∨ ∃ u use, (l u).held b = some use) → (s'.buf b).Caches area.dev n ∧ (s'.buf b).valid = true)
    (dirty : ∀ b use, (s.buf b).Caches area.dev n → (l t).held b = some use → use.dirty = true →
      ∃ use', h.held b = some use' ∧ use'.dirty = true) : Kept area s' (update l t h) n := by
  rcases kept with same | ⟨b, here, valid, safe⟩
  · exact .inl (by rw [disk, given, same])
  obtain ⟨here', valid'⟩ := bufs b here valid (safe.imp_right fun ⟨u, use, mine, _⟩ => ⟨u, use, mine⟩)
  refine .inr ⟨b, here', valid', ?_⟩
  rcases safe with inLog | ⟨u, use, mine, changed⟩
  · exact .inl (listed inLog)
  refine .inr ?_
  by_cases me : u = t
  · subst me
    obtain ⟨use', mine', changed'⟩ := dirty b use here mine changed
    exact ⟨u, use', by simpa using mine', changed'⟩
  · exact ⟨u, use, by simpa [me] using mine, changed⟩

theorem contents_same (contents : Contents area s l) (s' : Store T D)
    (disk : s'.disk = s.disk) (given : s'.given = s.given)
    (pinned : ∀ n, n ∈ s.pinned → n ∈ s'.pinned ∨ s.disk n = s.given area.dev n)
    (fields : ∀ b, (s'.buf b).Caches (s.buf b).dev (s.buf b).blockno ∧
      (s'.buf b).valid = (s.buf b).valid ∧ (s'.buf b).data = (s.buf b).data)
    (ready : ∀ b use, h.held b = some use → use.ready = true → (s.buf b).valid = true)
    (home : ∀ b use, h.held b = some use → use.home = true → s.disk use.blockno = s.given area.dev use.blockno)
    (dirty : ∀ b use, (l t).held b = some use → use.dirty = true → ∃ use', h.held b = some use' ∧ use'.dirty = true) :
    Contents area s' (update l t h) := by
  constructor
  · intro u b use mine
    rw [(fields b).2.1]
    by_cases me : u = t
    · rw [me, update_self] at mine
      exact ready b use mine
    rw [update_of_ne me] at mine
    exact contents.ready u b use mine
  · intro u b use mine
    rw [disk, given]
    by_cases me : u = t
    · rw [me, update_self] at mine
      exact home b use mine
    rw [update_of_ne me] at mine
    exact contents.home u b use mine
  · intro b dev
    obtain ⟨⟨dev', block⟩, valid, data⟩ := fields b
    rw [valid, data, block, given]
    exact contents.given b (dev'.symm.trans dev)
  intro n
  by_cases written : s.disk n = s.given area.dev n
  · exact .inl (by rw [disk, given, written])
  refine kept_step (contents.kept n) (by rw [disk]) (by rw [given])
    (fun listed => (pinned n listed).resolve_right written) ?_ ?_
  · intro b here valid _
    obtain ⟨⟨dev', block⟩, valid', -⟩ := fields b
    exact ⟨⟨dev'.trans here.1, block.trans here.2⟩, valid'.trans valid⟩
  · exact fun b use _ => dirty b use

theorem contents_keep (contents : Contents area s l) (s' : Store T D)
    (disk : s'.disk = s.disk) (given : s'.given = s.given)
    (pinned : ∀ n, n ∈ s.pinned → n ∈ s'.pinned ∨ s.disk n = s.given area.dev n)
    (fields : ∀ b, (s'.buf b).Caches (s.buf b).dev (s.buf b).blockno ∧
      (s'.buf b).valid = (s.buf b).valid ∧ (s'.buf b).data = (s.buf b).data)
    (held : h.held = (l t).held) : Contents area s' (update l t h) := by
  refine contents_same contents s' disk given pinned fields ?_ ?_ ?_
  · exact fun b use mine => contents.ready t b use (held ▸ mine)
  · exact fun b use mine => contents.home t b use (held ▸ mine)
  · exact fun b use mine dirty => ⟨use, held ▸ mine, dirty⟩

/- One operation after the other. -/

theorem held_update (h : Ledger) (same : h.held = (l t).held) (u : T) : (update l t h u).held = (l u).held := by
  by_cases mine : u = t
  · subst u
    simpa using same
  · simp [mine]

theorem shape_recycle (shape : Shape area s l) (absent : ∀ b', ¬ (s.buf b').Caches area.dev n)
    (unused : (s.buf b).refcnt = 0) (held : h.held = (l t).held) (wait : h.wait = some (b, n))
    (more : ∀ b', uses h b' = uses (l t) b' + if b = b' then 1 else 0) :
    Shape area (s.setBuf b ((s.buf b).recycle area.dev n)) (update l t h) := by
  obtain ⟨free, nobody, loose⟩ := unused_buf shape unused
  have others : ∀ b', b' ≠ b → (s.setBuf b ((s.buf b).recycle area.dev n)).buf b' = s.buf b' :=
    fun b' other => update_of_ne other ..
  have mine : (s.setBuf b ((s.buf b).recycle area.dev n)).buf b = (s.buf b).recycle area.dev n := update_self ..
  have fresh : n ∉ s.pinned := by
    intro listed
    obtain ⟨b', here⟩ := shape.logged n listed
    exact absent b' here
  constructor
  · exact sound_recycle shape.sound b absent
  · intro u b'
    rw [held_update h held]
    by_cases here : b' = b
    · subst b'
      rw [mine]
      exact shape.holder u b
    rw [others b' here]
    exact shape.holder u b'
  · intro u b' m waits
    by_cases me : u = t
    · rw [me, update_self, wait] at waits
      obtain ⟨rfl, rfl⟩ := Prod.mk.inj (Option.some.inj waits)
      rw [mine]
      exact ⟨rfl, rfl⟩
    rw [update_of_ne me] at waits
    have here : b' ≠ b := by
      rintro rfl
      exact nobody u m waits
    rw [others b' here]
    exact shape.wait u b' m waits
  · intro u b' use there
    rw [held_update h held] at there
    have here : b' ≠ b := by
      rintro rfl
      rw [free u] at there
      cases there
    rw [others b' here]
    exact shape.held u b' use there
  · intro b'
    have sum := uses_update l t h b'
    have old := shape.count b'
    rw [more b'] at sum
    by_cases here : b' = b
    · subst b'
      have out : pin area (s.setBuf b ((s.buf b).recycle area.dev n)) b = 0 := by
        apply if_neg
        rw [mine]
        exact fun listed => fresh listed.2
      rw [mine, out]
      simp only [BufState.recycle, if_true] at sum ⊢
      omega
    have same : pin area (s.setBuf b ((s.buf b).recycle area.dev n)) b' = pin area s b' := by
      simp only [pin, others b' here]
      rfl
    rw [others b' here, same]
    rw [if_neg (Ne.symm here)] at sum
    omega
  intro m listed
  obtain ⟨b', here⟩ := shape.logged m listed
  have other : b' ≠ b := by
    rintro rfl
    rw [pin_of here listed] at loose
    cases loose
  exact ⟨b', by rw [others b' other]; exact here⟩

theorem disk_of_invalid (shape : Shape area s l) (contents : Contents area s l) (dev : area.dev ≠ 0)
    (here : (s.buf b).Caches area.dev n) (invalid : (s.buf b).valid = false) : s.disk n = s.given area.dev n := by
  rcases contents.kept n with same | ⟨b', there, valid, -⟩
  · exact same
  rw [same_buf shape dev there here, invalid] at valid
  cases valid

theorem contents_recycle (shape : Shape area s l) (contents : Contents area s l)
    (unused : (s.buf b).refcnt = 0) (held : h.held = (l t).held) :
    Contents area (s.setBuf b ((s.buf b).recycle area.dev n)) (update l t h) := by
  obtain ⟨free, -, loose⟩ := unused_buf shape unused
  have others : ∀ b', b' ≠ b → (s.setBuf b ((s.buf b).recycle area.dev n)).buf b' = s.buf b' :=
    fun b' other => update_of_ne other ..
  have mine : (s.setBuf b ((s.buf b).recycle area.dev n)).buf b = (s.buf b).recycle area.dev n := update_self ..
  have apart : ∀ u b' use, (l u).held b' = some use → b' ≠ b := by
    rintro u b' use there rfl
    rw [free u] at there
    cases there
  constructor
  · intro u b' use there
    rw [held_update h held] at there
    rw [others b' (apart u b' use there)]
    exact contents.ready u b' use there
  · intro u b' use there
    rw [held_update h held] at there
    exact contents.home u b' use there
  · intro b' here valid
    have other : b' ≠ b := by
      rintro rfl
      rw [mine] at valid
      cases valid
    rw [others b' other] at here valid ⊢
    exact contents.given b' here valid
  intro m
  refine kept_step (contents.kept m) rfl rfl id ?_ ?_
  · intro b' here valid safe
    have other : b' ≠ b := by
      rintro rfl
      rcases safe with listed | ⟨u, use, there⟩
      · rw [pin_of here listed] at loose
        cases loose
      · exact apart u b' use there rfl
    rw [others b' other]
    exact ⟨here, valid⟩
  intro b' use _ there dirty
  exact ⟨use, by rw [held]; exact there, dirty⟩

theorem buf_setBuf (s : Store T D) (b : Buf) (x : BufState T D) : (s.setBuf b x).buf = update s.buf b x := rfl

theorem fields_setBuf (same : x.Caches (s.buf b).dev (s.buf b).blockno) (valid : x.valid = (s.buf b).valid)
    (data : x.data = (s.buf b).data) (b' : Buf) : ((s.setBuf b x).buf b').Caches (s.buf b').dev (s.buf b').blockno ∧
      ((s.setBuf b x).buf b').valid = (s.buf b').valid ∧ ((s.setBuf b x).buf b').data = (s.buf b').data := by
  rw [buf_setBuf]
  by_cases here : b' = b
  · subst b'
    rw [update_self]
    exact ⟨same, valid, data⟩
  rw [update_of_ne here]
  exact ⟨⟨rfl, rfl⟩, rfl, rfl⟩

theorem held_setHeld {b b' : Buf} {use use' : Use} (there : (h.setHeld b (some use')).held b' = some use) :
    b' = b ∧ use = use' ∨ b' ≠ b ∧ h.held b' = some use := by
  by_cases here : b' = b
  · subst b'
    simp only [Ledger.setHeld, update_self, Option.some.injEq] at there
    exact .inl ⟨rfl, there.symm⟩
  · exact .inr ⟨here, by simpa [Ledger.setHeld, here] using there⟩

theorem inv_bget (inv : Inv area s l) (calm : (l t).wait = none)
    {cache : Cache T D} (found : bget s.cache area.dev n = some (b, cache)) :
    Inv area (s.setCache cache) (update l t ((l t).setWait (some (b, n)))) := by
  obtain ⟨shape, contents, transactions⟩ := inv
  have more : ∀ b', uses ((l t).setWait (some (b, n))) b' = uses (l t) b' + if b = b' then 1 else 0 := by
    intro b'
    simp only [uses, Ledger.setWait, calm, isAt, Option.map_some, Option.map_none]
    omega
  have log := transactions_same (t := t) (h := (l t).setWait (some (b, n))) transactions
    (s.setCache cache) rfl rfl rfl rfl rfl rfl rfl
  rcases bget_spec shape.sound found with ⟨cached, rfl⟩ | ⟨absent, unused, rfl⟩
  · refine ⟨?_, ?_, log⟩
    · refine shape_step shape _ (sound_bget shape.sound found) rfl (buf_setBuf s b _) ⟨rfl, rfl⟩ ?_ ?_ ?_ ?_ ?_
      · rw [more b, if_pos rfl]
        simp only [BufState.setRefcnt, Store.buf]
        omega
      · intro b' other
        rw [more b', if_neg other.symm]
        exact ⟨rfl, rfl⟩
      · intro u
        rw [held_update (l := l) (t := t) ((l t).setWait (some (b, n))) rfl]
        exact shape.holder u b
      · intro b' m waits
        obtain ⟨rfl, rfl⟩ := Prod.mk.inj (Option.some.inj waits)
        exact cached
      · exact fun use mine => shape.held t b use mine
    · exact contents_keep contents _ rfl rfl (fun _ => .inl) (fields_setBuf ⟨rfl, rfl⟩ rfl rfl) rfl
  · exact ⟨shape_recycle shape absent unused rfl rfl more, contents_recycle shape contents unused rfl, log⟩

theorem inv_acquiresleep (inv : Inv area s l) (wait : (l t).wait = some (b, n))
    (free : (s.buf b).holder = none) : (l t).held b = none ∧ Inv area (s.setBuf b ((s.buf b).setHolder (some t)))
      (update l t (((l t).setWait none).setHeld b (some ⟨n, false, false, false⟩))) := by
  obtain ⟨shape, contents, transactions⟩ := inv
  have nobody : ∀ u, (l u).held b = none := by
    intro u
    by_contra held
    have mine := (shape.holder u b).mpr held
    rw [free] at mine
    cases mine
  refine ⟨nobody t, ?_, ?_, transactions_same transactions _ rfl rfl rfl rfl rfl rfl rfl⟩
  · refine shape_step shape _ (sound_setBuf shape.sound ⟨rfl, rfl⟩) rfl (buf_setBuf s b _) ⟨rfl, rfl⟩
      ?_ ?_ ?_ ?_ ?_
    · simp only [uses, Ledger.setWait, Ledger.setHeld, update_self, wait, nobody t, isAt, oneUse,
        Option.map_some, Option.map_none, if_true, BufState.setHolder]
    · intro b' other
      simp [uses, Ledger.setWait, Ledger.setHeld, wait, isAt, other.symm, other]
    · intro u
      by_cases mine : u = t
      · subst u
        simp [BufState.setHolder, Ledger.setHeld]
      · simp [BufState.setHolder, mine, nobody u, Ne.symm mine]
    · intro b' m waits
      cases waits
    intro use mine
    simp only [Ledger.setHeld, update_self, Option.some.injEq] at mine
    subst use
    exact shape.wait t b n wait
  refine contents_same contents _ rfl rfl (fun _ => .inl) (fields_setBuf ⟨rfl, rfl⟩ rfl rfl) ?_ ?_ ?_
  · intro b' use mine ready
    rcases held_setHeld mine with ⟨-, rfl⟩ | ⟨-, old⟩
    · cases ready
    · exact contents.ready t b' use old ready
  · intro b' use mine home
    rcases held_setHeld mine with ⟨-, rfl⟩ | ⟨-, old⟩
    · cases home
    · exact contents.home t b' use old home
  intro b' use mine dirty
  have here : b' ≠ b := by
    rintro rfl
    rw [nobody t] at mine
    cases mine
  exact ⟨use, by simpa [Ledger.setHeld, Ledger.setWait, here] using mine, dirty⟩

theorem shape_use (shape : Shape area s l) (s' : Store T D) {use use' : Use} (mine : (l t).held b = some use)
    (block : use'.blockno = use.blockno) (sound : Sound s'.cache) (pinned : s'.pinned = s.pinned)
    (bufs : s'.buf = update s.buf b x) (same : x.Caches (s.buf b).dev (s.buf b).blockno)
    (refcnt : x.refcnt = (s.buf b).refcnt) (holder : x.holder = (s.buf b).holder) :
    Shape area s' (update l t ((l t).setHeld b (some use'))) := by
  refine shape_step shape s' sound pinned bufs same ?_ ?_ ?_ ?_ ?_
  · simp [uses, Ledger.setHeld, mine, oneUse, refcnt]
  · intro b' other
    simp [uses, Ledger.setHeld, other]
  · intro u
    rw [holder, shape.holder]
    by_cases me : u = t
    · subst u
      simp [Ledger.setHeld, mine]
    · simp [me]
  · exact fun b' n waits => shape.wait t b' n waits
  intro use'' there
  simp only [Ledger.setHeld, update_self, Option.some.injEq] at there
  subst there
  rw [block]
  exact shape.held t b use mine

theorem contents_use (shape : Shape area s l) (contents : Contents area s l) (dev : area.dev ≠ 0)
    (s' : Store T D) {use use' : Use} (mine : (l t).held b = some use) (block : use'.blockno = use.blockno)
    (bufs : s'.buf = update s.buf b x) (same : x.Caches (s.buf b).dev (s.buf b).blockno)
    (valid : x.valid = true) (data : x.data = s'.given area.dev use.blockno)
    (home : use'.home = true → s'.disk use.blockno = s'.given area.dev use.blockno)
    (elsewhere : ∀ n, n ≠ use.blockno → s'.disk n = s.disk n ∧ s'.given area.dev n = s.given area.dev n)
    (listed : ∀ n, n ∈ s.pinned → n ∈ s'.pinned)
    (kept : Kept area s' (update l t ((l t).setHeld b (some use'))) use.blockno) :
    Contents area s' (update l t ((l t).setHeld b (some use'))) := by
  have here := shape.held t b use mine
  have others : ∀ b', b' ≠ b → s'.buf b' = s.buf b' := by
    intro b' other
    rw [bufs, update_of_ne other]
  have self : s'.buf b = x := by rw [bufs, update_self]
  have apart : ∀ b' n, b' ≠ b → (s.buf b').Caches area.dev n → n ≠ use.blockno := by
    rintro b' n other there rfl
    exact other (same_buf shape dev there here)
  have owner : ∀ u use'', (l u).held b = some use'' → u = t := by
    intro u use'' there
    have first := (shape.holder u b).mpr (by simp [there])
    rw [(shape.holder t b).mpr (by simp [mine])] at first
    exact (Option.some.inj first).symm
  constructor
  · intro u b' use'' there ready
    by_cases at_b : b' = b
    · rw [at_b, self]
      exact valid
    rw [others b' at_b]
    by_cases me : u = t
    · rw [me, update_self] at there
      rcases held_setHeld there with ⟨rfl, -⟩ | ⟨-, old⟩
      · exact absurd rfl at_b
      · exact contents.ready t b' use'' old ready
    rw [update_of_ne me] at there
    exact contents.ready u b' use'' there ready
  · intro u b' use'' there athome
    have old : (b' = b ∧ use'' = use') ∨ b' ≠ b ∧ (l u).held b' = some use'' := by
      by_cases me : u = t
      · rw [me, update_self] at there
        rw [me]
        exact held_setHeld there
      rw [update_of_ne me] at there
      refine .inr ⟨?_, there⟩
      rintro rfl
      exact me (owner u use'' there)
    rcases old with ⟨rfl, rfl⟩ | ⟨other, old⟩
    · rw [block]
      exact home athome
    obtain ⟨disk, given⟩ := elsewhere _ (apart b' _ other (shape.held u b' use'' old))
    rw [disk, given]
    exact contents.home u b' use'' old athome
  · intro b' onDev ok
    by_cases at_b : b' = b
    · rw [at_b, self] at onDev ok ⊢
      rw [data, same.2, here.2]
    rw [others b' at_b] at onDev ok ⊢
    rw [(elsewhere _ (apart b' _ at_b ⟨onDev, rfl⟩)).2]
    exact contents.given b' onDev ok
  intro n
  by_cases eq : n = use.blockno
  · rw [eq]
    exact kept
  obtain ⟨disk, given⟩ := elsewhere n eq
  have away : ∀ b', (s.buf b').Caches area.dev n → b' ≠ b := by
    rintro b' there rfl
    exact eq (there.2.symm.trans here.2)
  refine kept_step (contents.kept n) disk given (listed n) ?_ ?_
  · intro b' there ok _
    rw [others b' (away b' there)]
    exact ⟨there, ok⟩
  intro b' use'' there old dirty
  exact ⟨use'', by simpa [Ledger.setHeld, away b' there] using old, dirty⟩

section
variable (inv : Inv area s l) (dev : area.dev ≠ 0) (mine : (l t).held b = some use)
include inv dev mine

theorem inv_readIn (read : x = if (s.buf b).valid then s.buf b else (s.buf b).readIn (s.disk (s.buf b).blockno)) :
    Inv area (s.setBuf b x) (update l t ((l t).setHeld b (some { use with ready := true }))) := by
  obtain ⟨shape, contents, transactions⟩ := inv
  have here := shape.held t b use mine
  have facts : x.Caches (s.buf b).dev (s.buf b).blockno ∧ x.refcnt = (s.buf b).refcnt ∧
      x.holder = (s.buf b).holder ∧ x.valid = true ∧ x.data = s.given area.dev use.blockno := by
    cases valid : (s.buf b).valid with
    | true =>
      rw [valid, if_pos rfl] at read
      subst x
      refine ⟨⟨rfl, rfl⟩, rfl, rfl, valid, ?_⟩
      rw [contents.given b here.1 valid, here.2]
    | false =>
      rw [valid, if_neg Bool.false_ne_true] at read
      subst x
      refine ⟨⟨rfl, rfl⟩, rfl, rfl, rfl, ?_⟩
      rw [← disk_of_invalid shape contents dev here valid, ← here.2]
      rfl
  obtain ⟨same, refcnt, holder, valid, data⟩ := facts
  refine ⟨?_, ?_, transactions_same transactions _ rfl rfl rfl rfl rfl rfl rfl⟩
  · exact shape_use shape _ mine rfl (sound_setBuf shape.sound same) rfl (buf_setBuf s b x) same refcnt holder
  refine contents_use shape contents dev _ mine rfl (buf_setBuf s b x) same valid data ?_
    (fun _ _ => ⟨rfl, rfl⟩) (fun _ => id) ?_
  · exact contents.home t b use mine
  refine kept_step (contents.kept use.blockno) rfl rfl id ?_ ?_
  · intro b' there _ _
    rw [same_buf shape dev there here, buf_setBuf, update_self]
    exact ⟨⟨same.1.trans here.1, same.2.trans here.2⟩, valid⟩
  intro b' use' there old dirty
  rw [same_buf shape dev there here] at old ⊢
  rw [mine] at old
  cases old
  exact ⟨{ use with ready := true }, by simp [Ledger.setHeld], dirty⟩

theorem inv_give (ready : use.ready = true) (data : D) : Inv area (s.give b data)
      (update l t ((l t).setHeld b (some { use with dirty := true, home := false }))) := by
  obtain ⟨shape, contents, transactions⟩ := inv
  have here := shape.held t b use mine
  have valid := contents.ready t b use mine ready
  have bufs : (s.give b data).buf = update s.buf b ((s.buf b).setData data) := rfl
  refine ⟨?_, ?_, transactions_same transactions _ rfl rfl rfl rfl rfl rfl rfl⟩
  · have sound : Sound (s.give b data).cache :=
      sound_setBuf (c := s.cache) (b := b) (x := (s.buf b).setData data) shape.sound ⟨rfl, rfl⟩
    exact shape_use shape _ mine rfl sound rfl bufs ⟨rfl, rfl⟩ rfl rfl
  refine contents_use shape contents dev _ mine rfl bufs ⟨rfl, rfl⟩ valid ?_ ?_ ?_ (fun _ => id) ?_
  · simp [Store.give, BufState.setData, here.1, here.2]
  · intro home
    cases home
  · intro n other
    refine ⟨rfl, ?_⟩
    simp only [Store.give, here.1, here.2, update_self, update_of_ne other]
  refine .inr ⟨b, ?_, ?_, .inr ⟨t, _, by simp [Ledger.setHeld]; rfl, rfl⟩⟩
  · rw [bufs, update_self]
    exact here
  rw [bufs, update_self]
  exact valid

theorem inv_bwrite (ready : use.ready = true) : Inv area (s.setDisk (s.buf b).blockno (s.buf b).data)
      (update l t ((l t).setHeld b (some { use with dirty := false, home := true }))) := by
  obtain ⟨shape, contents, transactions⟩ := inv
  have here := shape.held t b use mine
  have valid := contents.ready t b use mine ready
  have data : (s.buf b).data = s.given area.dev use.blockno := by
    rw [contents.given b here.1 valid, here.2]
  have bufs : (s.setDisk (s.buf b).blockno (s.buf b).data).buf = update s.buf b (s.buf b) := by
    rw [update_eq_self]
    rfl
  have written : (s.setDisk (s.buf b).blockno (s.buf b).data).disk use.blockno = s.given area.dev use.blockno := by
    rw [← data, ← here.2]
    simp [Store.setDisk]
  refine ⟨?_, ?_, transactions_same transactions _ rfl rfl rfl rfl rfl rfl rfl⟩
  · exact shape_use shape _ mine rfl shape.sound rfl bufs ⟨rfl, rfl⟩ rfl rfl
  refine contents_use shape contents dev _ mine rfl bufs ⟨rfl, rfl⟩ valid data (fun _ => written) ?_
    (fun _ => id) (.inl written)
  intro n other
  refine ⟨?_, rfl⟩
  rw [← here.2] at other
  simp [Store.setDisk, other]

end

theorem inv_releasesleep (inv : Inv area s l) (calm : (l t).free = none) (mine : (l t).held b = some use)
    (clean : use.dirty = false) : Inv area (s.setBuf b ((s.buf b).setHolder none))
      (update l t (((l t).setHeld b none).setFree (some b))) := by
  obtain ⟨shape, contents, transactions⟩ := inv
  have held : ∀ b', b' ≠ b → (((l t).setHeld b none).setFree (some b)).held b' = (l t).held b' := by
    intro b' other
    simp [Ledger.setHeld, Ledger.setFree, other]
  have gone : (((l t).setHeld b none).setFree (some b)).held b = none := by
    simp [Ledger.setHeld, Ledger.setFree]
  have old : ∀ b' use', (((l t).setHeld b none).setFree (some b)).held b' = some use' → (l t).held b' = some use' := by
    intro b' use' there
    by_cases here : b' = b
    · rw [here, gone] at there
      cases there
    rw [← held b' here]
    exact there
  refine ⟨?_, ?_, transactions_same transactions _ rfl rfl rfl rfl rfl rfl rfl⟩
  · refine shape_step shape _ (sound_setBuf shape.sound ⟨rfl, rfl⟩) rfl (buf_setBuf s b _) ⟨rfl, rfl⟩
      ?_ ?_ ?_ ?_ ?_
    · simp [uses, Ledger.setHeld, Ledger.setFree, BufState.setHolder, mine, calm, isAt, oneUse]
    · intro b' other
      refine ⟨?_, held b' other⟩
      simp [uses, Ledger.setHeld, Ledger.setFree, calm, isAt, other.symm, other]
    · intro u
      by_cases me : u = t
      · subst u
        simp [BufState.setHolder, gone]
      have nobody : (l u).held b = none := by
        by_contra there
        have first := (shape.holder u b).mpr there
        rw [(shape.holder t b).mpr (by simp [mine])] at first
        exact me (Option.some.inj first).symm
      simp [BufState.setHolder, me, nobody]
    · exact fun b' n waits => shape.wait t b' n waits
    intro use' there
    rw [gone] at there
    cases there
  refine contents_same contents _ rfl rfl (fun _ => .inl) (fields_setBuf ⟨rfl, rfl⟩ rfl rfl) ?_ ?_ ?_
  · exact fun b' use' there => contents.ready t b' use' (old b' use' there)
  · exact fun b' use' there => contents.home t b' use' (old b' use' there)
  intro b' use' there dirty
  have other : b' ≠ b := by
    rintro rfl
    rw [mine] at there
    cases there
    rw [clean] at dirty
    cases dirty
  exact ⟨use', by rw [held b' other]; exact there, dirty⟩

theorem inv_brelse (inv : Inv area s l) (leaves : (l t).free = some b) :
    Inv area (s.setCache (Xv6Bio.brelse s.cache b)) (update l t ((l t).setFree none)) := by
  obtain ⟨shape, contents, transactions⟩ := inv
  have bufs : (s.setCache (Xv6Bio.brelse s.cache b)).buf =
      update s.buf b ((s.buf b).setRefcnt ((s.buf b).refcnt - 1)) := brelse_buf s.cache b
  refine ⟨?_, ?_, transactions_same transactions _ rfl rfl rfl rfl rfl rfl rfl⟩
  · refine shape_step shape _ (sound_brelse shape.sound b) rfl bufs ⟨rfl, rfl⟩ ?_ ?_ ?_ ?_ ?_
    · have count := shape.count b
      have part := le_sum (fun u => uses (l u) b) t
      have less : uses (l t) b = uses ((l t).setFree none) b + 1 := by
        simp [uses, Ledger.setFree, leaves, isAt]
      simp only [BufState.setRefcnt]
      omega
    · intro b' other
      simp [uses, Ledger.setFree, leaves, isAt, other.symm]
    · intro u
      rw [held_update (l := l) (t := t) ((l t).setFree none) rfl]
      exact shape.holder u b
    · exact fun b' n waits => shape.wait t b' n waits
    · exact fun use mine => shape.held t b use mine
  refine contents_keep contents _ rfl rfl (fun _ => .inl) ?_ rfl
  rw [bufs]
  exact fields_setBuf (s := s) ⟨rfl, rfl⟩ rfl rfl

theorem shape_pin (shape : Shape area s l) (s' : Store T D) (sound : Sound s'.cache)
    (bufs : s'.buf = update s.buf b x) (same : x.Caches (s.buf b).dev (s.buf b).blockno)
    (holder : x.holder = (s.buf b).holder) (pins : x.refcnt + pin area s b = (s.buf b).refcnt + pin area s' b)
    (others : ∀ b', b' ≠ b → pin area s' b' = pin area s b')
    (logged : ∀ n, n ∈ s'.pinned → ∃ b', (s.buf b').Caches area.dev n)
    (uses_same : ∀ b', uses h b' = uses (l t) b') (wait : h.wait = (l t).wait)
    (held_same : ∀ b', h.held b' ≠ none ↔ (l t).held b' ≠ none)
    (held : ∀ b' use, h.held b' = some use → (s.buf b').Caches area.dev use.blockno) :
    Shape area s' (update l t h) := by
  refine shape_change shape s' sound (caches_update bufs same) ?_ (wait ▸ shape.wait t) held ?_ logged
  · intro u b'
    have kept : (s'.buf b').holder = (s.buf b').holder := by
      by_cases here : b' = b
      · rw [bufs, here, update_self, holder]
      · rw [bufs, update_of_ne here]
    rw [kept, shape.holder]
    by_cases me : u = t
    · rw [me, update_self]
      exact (held_same b').symm
    · rw [update_of_ne me]
  intro b'
  have new := uses_same b'
  by_cases here : b' = b
  · subst b'
    rw [bufs, update_self]
    omega
  · rw [bufs, update_of_ne here, others b' here, new]

theorem pin_other (fields : (s'.buf b).dev = (s.buf b).dev ∧
    (s'.buf b).blockno = (s.buf b).blockno) (only : ∀ m, m ≠ n → (m ∈ s'.pinned ↔ m ∈ s.pinned))
    (other : ¬ (s.buf b).Caches area.dev n) : pin area s' b = pin area s b := by
  unfold pin
  simp only [BufState.Caches, fields, and_true]
  by_cases dev : (s.buf b).dev = area.dev
  · have block : (s.buf b).blockno ≠ n := fun eq => other ⟨dev, eq⟩
    simp only [dev, only _ block]
  · simp only [dev, false_and]

section
variable (inv : Inv area s l)
include inv

theorem inv_bunpin (dev : area.dev ≠ 0) {i : Nat} {lh : List Nat}
    (stage : (l t).commit = some i) (known : (l t).lh = some lh)
    (mine : (l t).held b = some use) (home : use.home = true) (block : lh[i]? = some use.blockno) :
    Inv area ((s.setCache (bunpin s.cache b)).setLh s.lh (s.unpinned + 1))
      (update l t ((l t).setCommit (some (i + 1)))) := by
  obtain ⟨shape, contents, transactions⟩ := inv
  obtain ⟨committing, unpinned, same⟩ := transactions.commit t i stage
  have here := shape.held t b use mine
  rw [← same lh known, ← unpinned] at block
  obtain ⟨inside, at_i⟩ := List.getElem?_eq_some_iff.mp block
  have split : s.pinned = use.blockno :: s.lh.drop (s.unpinned + 1) := by
    rw [← at_i]
    exact List.drop_eq_getElem_cons inside
  have apart : use.blockno ∉ s.lh.drop (s.unpinned + 1) := by
    have nodup : s.pinned.Nodup := transactions.nodup.sublist (List.drop_sublist _ _)
    rw [split] at nodup
    exact (List.nodup_cons.mp nodup).1
  have only : ∀ m, m ≠ use.blockno → (m ∈ s.lh.drop (s.unpinned + 1) ↔ m ∈ s.pinned) := by
    intro m other
    simp [split, other]
  have pinned : pin area s b = 1 := pin_of here (by simp [split])
  have loose : pin area ((s.setCache (bunpin s.cache b)).setLh s.lh (s.unpinned + 1)) b = 0 := by
    apply if_neg
    rintro ⟨-, listed⟩
    have block' : (((s.setCache (bunpin s.cache b)).setLh s.lh (s.unpinned + 1)).buf b).blockno = use.blockno := by
      rw [← here.2]
      simp [Store.buf, Store.setLh, Store.setCache, bunpin, Cache.setBuf, BufState.setRefcnt]
    rw [block'] at listed
    exact apart listed
  refine ⟨?_, ?_, ?_⟩
  · refine shape_pin shape _ (sound_setBuf shape.sound ⟨rfl, rfl⟩) (buf_setBuf s b _) ⟨rfl, rfl⟩ rfl
      ?_ ?_ ?_ (fun _ => rfl) rfl (fun _ => Iff.rfl) (fun b' use' there => shape.held t b' use' there)
    · have count := shape.count b
      rw [pinned, loose]
      simp only [BufState.setRefcnt, Store.buf] at count ⊢
      omega
    · intro b' other
      refine pin_other (n := use.blockno) ?_ only ?_
      · have fields := fields_setBuf (s := s) (b := b) (x := (s.buf b).setRefcnt ((s.buf b).refcnt - 1))
          ⟨rfl, rfl⟩ rfl rfl b'
        exact fields.1
      · exact fun there => other (same_buf shape dev there here)
    intro n listed
    apply shape.logged n
    rw [split]
    exact List.mem_cons_of_mem _ listed
  · refine contents_keep contents _ rfl rfl ?_ (fields_setBuf ⟨rfl, rfl⟩ rfl rfl) rfl
    intro n listed
    rw [split, List.mem_cons] at listed
    rcases listed with rfl | listed
    · exact .inr (contents.home t b use mine home)
    · exact .inl listed
  refine transactions_commit transactions stage _ transactions.nodup transactions.short rfl rfl rfl rfl
    ?_ same
  change s.unpinned + 1 = i + 1
  rw [unpinned]

theorem inv_logWrite (dev : area.dev ≠ 0)
    (mine : (l t).held b = some use) (ready : use.ready = true) (lt : ¬ s.outstanding < 1)
    {s' : Store T D} (room : s.lh.length < logSize)
    (written : (s.buf b).blockno ∈ s.lh ∧ s' = s ∨ (s.buf b).blockno ∉ s.lh ∧
      s' = (s.setCache (bpin s.cache b)).setLh (s.lh ++ [(s.buf b).blockno]) s.unpinned) :
    Inv area s' (update l t ((l t).setHeld b (some { use with dirty := false }))) := by
  obtain ⟨shape, contents, transactions⟩ := inv
  have here := shape.held t b use mine
  have valid := contents.ready t b use mine ready
  have data : (s.buf b).data = s.given area.dev use.blockno := by
    rw [contents.given b here.1 valid, here.2]
  have calm : s.committing = false := by
    by_contra busy
    have none := transactions.quiet (by simpa using busy)
    omega
  have pinned : s.pinned = s.lh := by
    unfold Store.pinned
    rw [transactions.idle calm, List.drop_zero]
  rcases written with ⟨listed, rfl⟩ | ⟨absent, rfl⟩
  · have bufs : s'.buf = update s'.buf b (s'.buf b) := (update_eq_self b s'.buf).symm
    refine ⟨?_, ?_, transactions_same transactions _ rfl rfl rfl rfl rfl rfl rfl⟩
    · exact shape_use shape _ mine rfl shape.sound rfl bufs ⟨rfl, rfl⟩ rfl rfl
    refine contents_use shape contents dev _ mine rfl bufs ⟨rfl, rfl⟩ valid data
      (contents.home t b use mine) (fun _ _ => ⟨rfl, rfl⟩) (fun _ => id) ?_
    exact .inr ⟨b, here, valid, .inl (by rw [pinned, ← here.2]; exact listed)⟩
  rw [here.2] at absent ⊢
  have more : ((s.setCache (bpin s.cache b)).setLh (s.lh ++ [use.blockno]) s.unpinned).pinned =
      s.lh ++ [use.blockno] := by
    change (s.lh ++ [use.blockno]).drop s.unpinned = _
    rw [transactions.idle calm, List.drop_zero]
  have fields := fields_setBuf (s := s) (b := b) (x := (s.buf b).setRefcnt ((s.buf b).refcnt + 1))
    ⟨rfl, rfl⟩ rfl rfl
  refine ⟨?_, ?_, ?_⟩
  · refine shape_pin shape _ (sound_setBuf shape.sound ⟨rfl, rfl⟩) (buf_setBuf s b _) ⟨rfl, rfl⟩ rfl
      ?_ ?_ ?_ ?_ rfl ?_ ?_
    · have prev : pin area s b = 0 := by
        apply if_neg
        rintro ⟨-, listed⟩
        rw [pinned, here.2] at listed
        exact absent listed
      have after : pin area ((s.setCache (bpin s.cache b)).setLh (s.lh ++ [use.blockno]) s.unpinned) b
          = 1 := by
        refine pin_of (n := use.blockno) ?_ (by simp [more])
        rw [← here.1, ← here.2]
        exact (fields b).1
      rw [prev, after]
      rfl
    · intro b' other
      refine pin_other (n := use.blockno) ?_ ?_ ?_
      · exact (fields b').1
      · intro m distinct
        rw [more, pinned]
        simp [distinct]
      · exact fun there => other (same_buf shape dev there here)
    · intro n listed
      rw [more, List.mem_append, List.mem_singleton] at listed
      rcases listed with listed | rfl
      · exact shape.logged n (by rw [pinned]; exact listed)
      · exact ⟨b, here⟩
    · intro b'
      by_cases at_b : b' = b
      · rw [at_b]
        simp [uses, Ledger.setHeld, mine, oneUse]
      · simp [uses, Ledger.setHeld, at_b]
    · intro b'
      by_cases at_b : b' = b
      · rw [at_b]
        simp [Ledger.setHeld, mine]
      · simp [Ledger.setHeld, at_b]
    intro b' use' there
    rcases held_setHeld there with ⟨rfl, rfl⟩ | ⟨-, old⟩
    · exact here
    · exact shape.held t b' use' old
  · refine contents_use (x := (s.buf b).setRefcnt ((s.buf b).refcnt + 1)) shape contents dev _ mine rfl
      (buf_setBuf s b _) ⟨rfl, rfl⟩ valid data (contents.home t b use mine) (fun _ _ => ⟨rfl, rfl⟩) ?_ ?_
    · intro n listed
      rw [pinned] at listed
      rw [more]
      exact List.mem_append_left _ listed
    refine .inr ⟨b, ?_, ?_, .inl (by simp [more])⟩
    · rw [← here.1, ← here.2]
      exact (fields b).1
    rw [← valid]
    exact (fields b).2.1
  refine transactions_open transactions calm _ ?_ ?_ calm (transactions.idle calm) ?_ rfl
  · refine List.nodup_append.mpr ⟨transactions.nodup, List.nodup_singleton _, ?_⟩
    intro n listed m single
    rw [List.mem_singleton.mp single]
    rintro rfl
    exact absent listed
  · change (s.lh ++ [use.blockno]).length ≤ logSize
    simp only [List.length_append, List.length_singleton]
    omega
  · rfl

theorem inv_log (s' : Store T D) (cache : s'.cache = s.cache)
    (disk : s'.disk = s.disk) (given : s'.given = s.given) (pinned : s'.pinned = s.pinned)
    (held : h.held = (l t).held) (wait : h.wait = (l t).wait) (free : h.free = (l t).free)
    (transactions : Transactions s' (update l t h)) : Inv area s' (update l t h) := by
  obtain ⟨shape, contents, -⟩ := inv
  have bufs : s'.buf = s.buf := by
    unfold Store.buf
    rw [cache]
  have uses_same : ∀ b, uses h b = uses (l t) b := by
    intro b
    simp only [uses, held, wait, free]
  refine ⟨?_, ?_, transactions⟩
  · refine shape_step (b := ⟨0, by decide⟩) shape s' ?_ pinned ?_ ⟨rfl, rfl⟩ ?_ ?_ ?_ ?_ ?_
    · rw [cache]
      exact shape.sound
    · rw [bufs, update_eq_self]
    · rw [uses_same]
    · intro b' _
      exact ⟨uses_same b', by rw [held]⟩
    · intro u
      rw [held_update h held]
      exact shape.holder u _
    · rw [wait]
      exact shape.wait t
    rw [held]
    exact shape.held t _
  refine contents_keep contents s' disk given ?_ ?_ held
  · intro n listed
    rw [pinned]
    exact .inl listed
  intro b
  rw [bufs]
  exact ⟨⟨rfl, rfl⟩, rfl, rfl⟩

theorem inv_beginOp (calm : s.committing = false) :
    Inv area (s.setOutstanding (s.outstanding + 1)) (update l t ((l t).setOps ((l t).ops + 1))) := by
  have old := inv.transactions
  refine inv_log inv _ rfl rfl rfl rfl rfl rfl rfl ?_
  refine transactions_open old calm _ old.nodup old.short calm (old.idle calm) ?_ rfl
  change s.outstanding + 1 + (l t).ops = s.outstanding + ((l t).ops + 1)
  omega

theorem inv_leaveOp (calm : s.committing = false) (mine : 0 < (l t).ops) :
    Inv area (s.setOutstanding (s.outstanding - 1)) (update l t ((l t).setOps ((l t).ops - 1))) := by
  have old := inv.transactions
  have part : (l t).ops ≤ s.outstanding := by
    rw [old.ops]
    exact le_sum (fun u => (l u).ops) t
  refine inv_log inv _ rfl rfl rfl rfl rfl rfl rfl ?_
  refine transactions_open old calm _ old.nodup old.short calm (old.idle calm) ?_ rfl
  change s.outstanding - 1 + (l t).ops = s.outstanding + ((l t).ops - 1)
  omega

theorem inv_startCommit (calm : s.committing = false) (mine : 0 < (l t).ops) (last : s.outstanding - 1 = 0) :
    Inv area ((s.setOutstanding (s.outstanding - 1)).setCommitting true) (update l t
      ((((l t).setOps ((l t).ops - 1)).setCommit (some 0)).setLh none |>.setCopied 0)) := by
  have old := inv.transactions
  have part : (l t).ops ≤ s.outstanding := by
    rw [old.ops]
    exact le_sum (fun u => (l u).ops) t
  have nobody := nobody_commits old calm
  refine inv_log inv _ rfl rfl rfl rfl rfl rfl rfl ?_
  refine ⟨old.nodup, old.short, ?_, ?_, ?_, fun _ => last, ?_⟩
  · have sum := sum_update l (fun _ l => l.ops) t
      ((((l t).setOps ((l t).ops - 1)).setCommit (some 0)).setLh none |>.setCopied 0)
    have prev := old.ops
    simp only [Ledger.setCopied, Ledger.setLh, Ledger.setCommit, Ledger.setOps] at sum ⊢
    simp only [Store.setCommitting, Store.setOutstanding]
    omega
  · intro u i stage
    by_cases me : u = t
    · rw [me, update_self] at stage ⊢
      cases stage
      refine ⟨rfl, old.idle calm, ?_⟩
      intro lh known
      cases known
    rw [update_of_ne me, nobody u] at stage
    cases stage
  · intro u v first snd
    by_contra apart
    by_cases me : u = t
    · rw [update_of_ne fun eq => apart (me.trans eq.symm)] at snd
      exact snd (nobody v)
    rw [update_of_ne me] at first
    exact first (nobody u)
  intro idle
  cases idle

theorem inv_endCommit (stage : (l t).commit = some 0) :
    Inv area (s.setCommitting false) (update l t (((l t).setCommit none).setLh none)) := by
  have old := inv.transactions
  obtain ⟨busy, unpinned, -⟩ := old.commit t 0 stage
  have nobody : ∀ u, (update l t (((l t).setCommit none).setLh none) u).commit = none := by
    intro u
    by_cases me : u = t
    · rw [me, update_self]
      rfl
    rw [update_of_ne me]
    by_contra there
    exact me (old.alone u t there (by simp [stage]))
  refine inv_log inv _ rfl rfl rfl rfl rfl rfl rfl ?_
  exact transactions_calm old _ old.nodup old.short rfl unpinned rfl nobody

theorem inv_getLh {i : Nat} (stage : (l t).commit = some i) : Inv area s (update l t ((l t).setLh (some s.lh))) := by
  have old := inv.transactions
  refine inv_log inv _ rfl rfl rfl rfl rfl rfl rfl ?_
  refine transactions_commit old stage _ old.nodup old.short rfl rfl rfl stage (old.commit t i stage).2.1 ?_
  intro lh known
  exact Option.some.inj known

theorem inv_clearLh {lh : List Nat} (known : (l t).lh = some lh) (stage : (l t).commit = some lh.length) :
    Inv area (s.setLh [] 0) (update l t ((((l t).setCommit (some 0)).setLh (some [])).setCopied 0)) := by
  have old := inv.transactions
  obtain ⟨-, unpinned, same⟩ := old.commit t _ stage
  refine inv_log inv _ rfl rfl rfl ?_ rfl rfl rfl ?_
  · unfold Store.pinned
    rw [unpinned, same lh known, List.drop_length]
    rfl
  refine transactions_commit old stage _ List.nodup_nil (Nat.zero_le _) rfl rfl rfl rfl rfl ?_
  intro lh' known'
  exact Option.some.inj known'

end

end

end Xv6Store
