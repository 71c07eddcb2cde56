import Xv6.Lib.Ring
import Xv6.Lib.Threads
import Xv6.Params

/- kernel/bio.c. The buffers are linked through bcache.head, which is none. Everything that is
   done under bcache.lock is one step; T is the type of processes and D that of contents. -/
namespace Xv6Bio
open Xv6 Ring Function

abbrev Buf := Fin nBuf

/-- struct buf, and who has its sleep-lock. -/
structure BufState (T D : Type) where
  valid : Bool
  dev : Nat
  blockno : Nat
  refcnt : Nat
  holder : Option T
  data : D

structure Cache (T D : Type) where
  ptrs : Ptrs (Option Buf)
  buf : Buf → BufState T D

namespace BufState
variable {T D : Type}

def setRefcnt (x : BufState T D) (refcnt : Nat) : BufState T D := { x with refcnt := refcnt }
def setHolder (x : BufState T D) (holder : Option T) : BufState T D := { x with holder := holder }
def setData (x : BufState T D) (data : D) : BufState T D := { x with data := data }
def readIn (x : BufState T D) (data : D) : BufState T D := { x with valid := true, data := data }

def recycle (x : BufState T D) (dev blockno : Nat) : BufState T D :=
  { x with dev := dev, blockno := blockno, valid := false, refcnt := 1 }

def held (x : BufState T D) : Nat := if x.holder.isSome then 1 else 0

@[simp] theorem held_setRefcnt (x : BufState T D) (n : Nat) : (x.setRefcnt n).held = x.held := rfl

@[simp] theorem held_recycle (x : BufState T D) (dev blockno : Nat) :
    (x.recycle dev blockno).held = x.held := rfl

def Caches (x : BufState T D) (dev blockno : Nat) : Prop := x.dev = dev ∧ x.blockno = blockno

instance (x : BufState T D) (dev blockno : Nat) : Decidable (x.Caches dev blockno) :=
  inferInstanceAs (Decidable (_ ∧ _))

end BufState

namespace Cache
variable {T D : Type}

def setBuf (c : Cache T D) (b : Buf) (x : BufState T D) : Cache T D :=
  { c with buf := Function.update c.buf b x }

def setPtrs (c : Cache T D) (ptrs : Ptrs (Option Buf)) : Cache T D := { c with ptrs := ptrs }

end Cache

section
variable {T D : Type}
variable {dev blockno : Nat}

def binit (c : Cache T D) : Cache T D :=
  c.setPtrs ((List.finRange nBuf).foldl (fun p b => pushFront none p (some b))
    ((c.ptrs.setPrev none none).setNext none none))

/-- bget's two loops, from the most and from the least recently used buffer. -/
def findCached (c : Cache T D) (dev blockno : Nat) : Option Buf :=
  walk c.ptrs.next (fun b => (c.buf b).Caches dev blockno) (nBuf + 1) (c.ptrs.next none)

def findUnused (c : Cache T D) : Option Buf :=
  walk c.ptrs.prev (fun b => (c.buf b).refcnt = 0) (nBuf + 1) (c.ptrs.prev none)

/-- bget up to its acquiresleep. It panics where there is no buffer. -/
def bget (c : Cache T D) (dev blockno : Nat) : Option (Buf × Cache T D) :=
  match findCached c dev blockno with
  | some b => some (b, c.setBuf b ((c.buf b).setRefcnt ((c.buf b).refcnt + 1)))
  | none => match findUnused c with
    | some b => some (b, c.setBuf b ((c.buf b).recycle dev blockno))
    | none => none

/-- brelse after its releasesleep. -/
def brelse (c : Cache T D) (b : Buf) : Cache T D :=
  let c := c.setBuf b ((c.buf b).setRefcnt ((c.buf b).refcnt - 1))
  if (c.buf b).refcnt = 0 then c.setPtrs (pushFront none (unlink c.ptrs (some b)) (some b)) else c

def bpin (c : Cache T D) (b : Buf) : Cache T D :=
  c.setBuf b ((c.buf b).setRefcnt ((c.buf b).refcnt + 1))

def bunpin (c : Cache T D) (b : Buf) : Cache T D :=
  c.setBuf b ((c.buf b).setRefcnt ((c.buf b).refcnt - 1))

/-- The links go through every buffer, and no two buffers are for one block. -/
structure Sound (c : Cache T D) : Prop where
  ring : ∃ xs, (∀ b, b ∈ xs) ∧ IsRing c.ptrs xs
  unique : ∀ b b', (c.buf b).dev ≠ 0 → (c.buf b').Caches (c.buf b).dev (c.buf b).blockno → b = b'

variable {c : Cache T D}

theorem ring_length {xs : List Buf} (ring : IsRing c.ptrs xs) : xs.length < nBuf + 1 := by
  have bound := ring.nodup.length_le_card
  rw [Fintype.card_fin] at bound
  omega

section
variable (sound : Sound c)
include sound

theorem findCached_spec (dev blockno : Nat) : match findCached c dev blockno with
    | some b => (c.buf b).Caches dev blockno
    | none => ∀ b, ¬ (c.buf b).Caches dev blockno := by
  obtain ⟨xs, all, ring⟩ := sound.ring
  rw [findCached, ring_find ring _ (ring_length ring)]
  split
  · rename_i b found
    simpa using List.find?_some found
  rename_i absent
  intro b
  simpa using List.find?_eq_none.mp absent b (all b)

theorem findUnused_spec : match findUnused c with
    | some b => (c.buf b).refcnt = 0
    | none => ∀ b, (c.buf b).refcnt ≠ 0 := by
  obtain ⟨xs, all, ring⟩ := sound.ring
  rw [findUnused, ring_findLast ring _ (ring_length ring)]
  split
  · rename_i b found
    simpa using List.find?_some found
  rename_i absent
  intro b
  simpa using List.find?_eq_none.mp absent b (by simp [all b])

/-- bget finds the block's buffer, or takes one that nobody uses. -/
theorem bget_spec {b : Buf} {c' : Cache T D} (found : bget c dev blockno = some (b, c')) :
    ((c.buf b).Caches dev blockno ∧ c' = c.setBuf b ((c.buf b).setRefcnt ((c.buf b).refcnt + 1))) ∨
    ((∀ b', ¬ (c.buf b').Caches dev blockno) ∧ (c.buf b).refcnt = 0 ∧
      c' = c.setBuf b ((c.buf b).recycle dev blockno)) := by
  have cached := findCached_spec sound dev blockno
  have unused := findUnused_spec sound
  unfold bget at found
  cases first : findCached c dev blockno with
  | some x =>
    rw [first] at found cached
    obtain ⟨rfl, rfl⟩ := Prod.mk.inj (Option.some.inj found)
    exact .inl ⟨cached, rfl⟩
  | none =>
    rw [first] at found cached
    cases snd : findUnused c with
    | none =>
      rw [snd] at found
      cases found
    | some x =>
      rw [snd] at found unused
      obtain ⟨rfl, rfl⟩ := Prod.mk.inj (Option.some.inj found)
      exact .inr ⟨cached, unused, rfl⟩

theorem sound_setBuf {b : Buf} {x : BufState T D}
    (same : x.Caches (c.buf b).dev (c.buf b).blockno) : Sound (c.setBuf b x) := by
  refine ⟨sound.ring, ?_⟩
  have fields : ∀ b', ((c.setBuf b x).buf b').dev = (c.buf b').dev ∧
      ((c.setBuf b x).buf b').blockno = (c.buf b').blockno := by
    intro b'
    by_cases here : b' = b
    · subst b'
      simp only [Cache.setBuf, update_self]
      exact same
    · simp [Cache.setBuf, here]
  intro b₁ b₂ used holds
  rw [(fields b₁).1] at used
  apply sound.unique b₁ b₂ used
  simpa [BufState.Caches, fields] using holds

theorem sound_recycle (b : Buf) (absent : ∀ b', ¬ (c.buf b').Caches dev blockno) :
    Sound (c.setBuf b ((c.buf b).recycle dev blockno)) := by
  refine ⟨sound.ring, ?_⟩
  intro b₁ b₂ used holds
  by_cases first : b₁ = b
  · subst b₁
    by_contra other
    have same : b₂ ≠ b := fun eq => other eq.symm
    simp [Cache.setBuf, BufState.recycle, same] at holds
    exact absent b₂ holds
  by_cases snd : b₂ = b
  · subst b₂
    simp [Cache.setBuf, BufState.recycle, BufState.Caches, first] at holds
    exact absurd ⟨holds.1.symm, holds.2.symm⟩ (absent b₁)
  simp only [Cache.setBuf, update_of_ne first, update_of_ne snd] at used holds
  exact sound.unique b₁ b₂ used holds

theorem sound_bget {b : Buf} {c' : Cache T D}
    (found : bget c dev blockno = some (b, c')) : Sound c' := by
  rcases bget_spec sound found with ⟨-, rfl⟩ | ⟨absent, -, rfl⟩
  · exact sound_setBuf sound ⟨rfl, rfl⟩
  · exact sound_recycle sound b absent

theorem sound_brelse (b : Buf) : Sound (brelse c b) := by
  have kept : Sound (c.setBuf b ((c.buf b).setRefcnt ((c.buf b).refcnt - 1))) := sound_setBuf sound ⟨rfl, rfl⟩
  unfold brelse
  simp only
  split
  · refine ⟨?_, kept.unique⟩
    obtain ⟨xs, all, ring⟩ := kept.ring
    obtain ⟨prev, after, rfl⟩ := List.append_of_mem (all b)
    have apart : b ∉ prev ++ after := (List.nodup_cons.mp (List.nodup_middle.mp ring.nodup)).1
    refine ⟨b :: (prev ++ after), ?_, ring_pushFront (ring_unlink ring) apart⟩
    intro b'
    have there := all b'
    simp only [List.mem_append, List.mem_cons] at there ⊢
    tauto
  · exact kept

end

theorem brelse_buf (c : Cache T D) (b : Buf) :
    (brelse c b).buf = update c.buf b ((c.buf b).setRefcnt ((c.buf b).refcnt - 1)) := by
  unfold brelse
  simp only
  split
  · rfl
  · rfl

theorem sound_binit (zero : ∀ b, (c.buf b).dev = 0) : Sound (binit c) := by
  have pushed : ∀ (bs xs : List Buf) (p : Ptrs (Option Buf)), IsRing p xs → bs.Nodup → (∀ b ∈ bs, b ∉ xs) →
      IsRing (bs.foldl (fun p b => pushFront none p (some b)) p) (bs.reverse ++ xs) := by
    intro bs
    induction bs with
    | nil =>
      intro xs p ring _ _
      simpa using ring
    | cons b bs ih =>
      intro xs p ring nodup new
      obtain ⟨fresh, nodup⟩ := List.nodup_cons.mp nodup
      have more := ih (b :: xs) _ (ring_pushFront ring (new b List.mem_cons_self)) nodup ?_
      · simpa using more
      intro b' there
      rw [List.mem_cons, not_or]
      refine ⟨?_, new b' (List.mem_cons_of_mem b there)⟩
      rintro rfl
      exact fresh there
  have empty : IsRing ((c.ptrs.setPrev none none).setNext none none) ([] : List Buf) :=
    ⟨List.nodup_nil, by simp [Links, Ptrs.setNext, Ptrs.setPrev]⟩
  constructor
  · refine ⟨_, ?_, pushed (List.finRange nBuf) [] _ empty (List.nodup_finRange _) (by simp)⟩
    simp
  intro b b' used
  exact absurd (zero b) used

end

/- Processes that use the cache. Between bget's scan and its acquiresleep, and between brelse's
   releasesleep and its end, other processes run. -/

inductive Doing where
  | idle
  | waiting (b : Buf)
  | releasing (b : Buf)
  deriving DecidableEq

structure World (T D : Type) where
  cache : Cache T D
  doing : T → Doing
  pins : Buf → Nat

inductive Event (T : Type) where
  | bget (t : T) (dev blockno : Nat)
  | acquiresleep (t : T)
  | releasesleep (t : T) (b : Buf)
  | brelse (t : T)
  | bpin (b : Buf)
  | bunpin (b : Buf)

section
variable {T D : Type} [DecidableEq T]

def World.setDoing (w : World T D) (t : T) (what : Doing) : World T D :=
  { w with doing := Function.update w.doing t what }

def World.setCache (w : World T D) (cache : Cache T D) : World T D := { w with cache := cache }

def World.setPins (w : World T D) (b : Buf) (n : Nat) : World T D :=
  { w with pins := Function.update w.pins b n }

def World.setHolder (w : World T D) (b : Buf) (holder : Option T) : World T D :=
  w.setCache (w.cache.setBuf b ((w.cache.buf b).setHolder holder))

/-- One step. A brelse is the holder's, and a bunpin undoes a bpin. -/
def next (w : World T D) : Event T → Option (World T D)
  | .bget t dev blockno => if w.doing t = .idle then
      (bget w.cache dev blockno).map fun r => (w.setCache r.2).setDoing t (.waiting r.1)
    else none
  | .acquiresleep t => match w.doing t with
    | .waiting b => if (w.cache.buf b).holder = none then
        some ((w.setHolder b (some t)).setDoing t .idle)
      else none
    | _ => none
  | .releasesleep t b => if w.doing t = .idle ∧ (w.cache.buf b).holder = some t then
      some ((w.setHolder b none).setDoing t (.releasing b))
    else none
  | .brelse t => match w.doing t with
    | .releasing b => some ((w.setCache (brelse w.cache b)).setDoing t .idle)
    | _ => none
  | .bpin b => some ((w.setCache (bpin w.cache b)).setPins b (w.pins b + 1))
  | .bunpin b => if 0 < w.pins b then
      some ((w.setCache (bunpin w.cache b)).setPins b (w.pins b - 1))
    else none

def Doing.uses (b : Buf) : Doing → Nat
  | .idle => 0
  | .waiting b' => if b' = b then 1 else 0
  | .releasing b' => if b' = b then 1 else 0

variable [Fintype T]

def gets (w : World T D) (b : Buf) : Nat :=
  ∑ t, (w.doing t).uses b + (w.cache.buf b).held

structure Ok (w : World T D) : Prop where
  sound : Sound w.cache
  count : ∀ b, (w.cache.buf b).refcnt = gets w b + w.pins b

variable {w : World T D}

theorem uses_setDoing (w : World T D) (t : T) (what : Doing) (b : Buf) :
    ∑ u, ((w.setDoing t what).doing u).uses b + (w.doing t).uses b = ∑ u, (w.doing u).uses b + what.uses b :=
  Threads.sum_update w.doing (fun _ d => d.uses b) t what

/-- One buffer changes, and one process goes on. What is added to the buffer's count is added to
    its uses. -/
theorem count_step (ok : Ok w) (cache : Cache T D) {t : T} {what : Doing} {b : Buf} {x : BufState T D}
    (bufs : cache.buf = update w.cache.buf b x) (others : ∀ b', b' ≠ b → (w.doing t).uses b' = what.uses b')
    (mine : x.refcnt + (w.doing t).uses b + (w.cache.buf b).held =
      (w.cache.buf b).refcnt + what.uses b + x.held) (b' : Buf) :
    (((w.setCache cache).setDoing t what).cache.buf b').refcnt =
      gets ((w.setCache cache).setDoing t what) b' + w.pins b' := by
  have old := ok.count b'
  have uses := uses_setDoing (w.setCache cache) t what b'
  change ∑ u, (((w.setCache cache).setDoing t what).doing u).uses b' + (w.doing t).uses b' =
    ∑ u, (w.doing u).uses b' + what.uses b' at uses
  unfold gets at old ⊢
  change (cache.buf b').refcnt = ∑ u, (((w.setCache cache).setDoing t what).doing u).uses b' +
    (cache.buf b').held + w.pins b'
  rw [bufs]
  by_cases here : b' = b
  · subst b'
    rw [update_self]
    omega
  have same := others b' here
  rw [update_of_ne here]
  omega

omit [DecidableEq T] in
theorem count_pins (ok : Ok w) {b : Buf} {x : BufState T D} {n : Nat}
    (holder : x.holder = (w.cache.buf b).holder) (mine : x.refcnt + w.pins b = (w.cache.buf b).refcnt + n)
    (b' : Buf) : (((w.setCache (w.cache.setBuf b x)).setPins b n).cache.buf b').refcnt =
      gets ((w.setCache (w.cache.setBuf b x)).setPins b n) b' +
        ((w.setCache (w.cache.setBuf b x)).setPins b n).pins b' := by
  have old := ok.count b'
  unfold gets at old ⊢
  change ((w.cache.setBuf b x).buf b').refcnt = ∑ u, (w.doing u).uses b' +
    ((w.cache.setBuf b x).buf b').held + update w.pins b n b'
  by_cases here : b' = b
  · subst b'
    simp only [Cache.setBuf, update_self, BufState.held, holder] at old ⊢
    omega
  simp only [Cache.setBuf, update_of_ne here]
  exact old

theorem ok_next (ok : Ok w) {e : Event T} {w' : World T D} (step : next w e = some w') : Ok w' := by
  cases e with
  | bget t dev blockno =>
    simp only [next] at step
    split at step
    · rename_i idle
      obtain ⟨⟨b, cache⟩, found, rfl⟩ := Option.map_eq_some_iff.mp step
      refine ⟨sound_bget ok.sound found, ?_⟩
      rcases bget_spec ok.sound found with ⟨-, rfl⟩ | ⟨-, unused, rfl⟩
      · refine count_step ok _ rfl ?_ ?_
        · intro b' other
          simp [idle, Doing.uses, other.symm]
        rw [BufState.held_setRefcnt]
        simp [idle, Doing.uses, BufState.setRefcnt]
      refine count_step ok _ rfl ?_ ?_
      · intro b' other
        simp [idle, Doing.uses, other.symm]
      rw [BufState.held_recycle]
      simp [idle, Doing.uses, BufState.recycle, unused]
    · cases step
  | acquiresleep t =>
    simp only [next] at step
    split at step
    · rename_i b waiting
      split at step
      · rename_i free
        cases step
        refine ⟨sound_setBuf ok.sound ⟨rfl, rfl⟩, count_step ok _ rfl ?_ ?_⟩
        · intro b' other
          simp [waiting, Doing.uses, other.symm]
        · simp [waiting, Doing.uses, BufState.setHolder, BufState.held, free]
      · cases step
    · cases step
  | releasesleep t b =>
    simp only [next] at step
    split at step
    · rename_i mine
      cases step
      refine ⟨sound_setBuf ok.sound ⟨rfl, rfl⟩, count_step ok _ rfl ?_ ?_⟩
      · intro b' other
        simp [mine.1, Doing.uses, other.symm]
      · simp [mine, Doing.uses, BufState.setHolder, BufState.held]
    · cases step
  | brelse t =>
    simp only [next] at step
    split at step
    · rename_i b releasing
      cases step
      refine ⟨sound_brelse ok.sound b, count_step ok _ (brelse_buf w.cache b) ?_ ?_⟩
      · intro b' other
        simp [releasing, Doing.uses, other.symm]
      have count := ok.count b
      have part := Threads.le_sum (fun u => (w.doing u).uses b) t
      have used : (w.doing t).uses b = 1 := by simp [releasing, Doing.uses]
      simp only [gets] at count
      rw [used, BufState.held_setRefcnt]
      simp only [Doing.uses, BufState.setRefcnt]
      omega
    · cases step
  | bpin b =>
    cases step
    refine ⟨sound_setBuf ok.sound ⟨rfl, rfl⟩, count_pins ok rfl ?_⟩
    simp only [BufState.setRefcnt]
    omega
  | bunpin b =>
    simp only [next] at step
    split at step
    · rename_i pinned
      cases step
      refine ⟨sound_setBuf ok.sound ⟨rfl, rfl⟩, count_pins ok rfl ?_⟩
      have count := ok.count b
      simp only [BufState.setRefcnt]
      omega
    · cases step

theorem next_caches (ok : Ok w) {e : Event T} {w' : World T D} (step : next w e = some w') {b : Buf}
    (used : 0 < (w.cache.buf b).refcnt) : (w'.cache.buf b).Caches (w.cache.buf b).dev (w.cache.buf b).blockno := by
  have change : ∀ (b' : Buf) (x : BufState T D), x.Caches (w.cache.buf b').dev (w.cache.buf b').blockno →
      (update w.cache.buf b' x b).Caches (w.cache.buf b).dev (w.cache.buf b).blockno := by
    intro b' x same
    by_cases here : b = b'
    · subst b'
      simpa using same
    · simp [here, BufState.Caches]
  cases e with
  | bget t dev blockno =>
    simp only [next] at step
    split at step
    · obtain ⟨⟨b', cache⟩, found, rfl⟩ := Option.map_eq_some_iff.mp step
      rcases bget_spec ok.sound found with ⟨-, rfl⟩ | ⟨-, unused, rfl⟩
      · exact change b' _ ⟨rfl, rfl⟩
      have other : b ≠ b' := by
        rintro rfl
        omega
      change (update w.cache.buf b' _ b).Caches _ _
      rw [update_of_ne other]
      exact ⟨rfl, rfl⟩
    · cases step
  | acquiresleep t =>
    simp only [next] at step
    split at step
    · split at step
      · cases step
        exact change _ _ ⟨rfl, rfl⟩
      · cases step
    · cases step
  | releasesleep t b' | bunpin b' =>
    simp only [next] at step
    split at step
    · cases step
      exact change b' _ ⟨rfl, rfl⟩
    · cases step
  | brelse t =>
    simp only [next] at step
    split at step
    · rename_i b' _
      cases step
      change ((brelse w.cache b').buf b).Caches _ _
      rw [brelse_buf]
      exact change b' _ ⟨rfl, rfl⟩
    · cases step
  | bpin b' =>
    cases step
    exact change b' _ ⟨rfl, rfl⟩

def blankCache (ptrs : Ptrs (Option Buf)) (data : Buf → D) : Cache T D :=
  ⟨ptrs, fun b => ⟨false, 0, 0, 0, none, data b⟩⟩

def start (ptrs : Ptrs (Option Buf)) (data : Buf → D) : World T D :=
  ⟨binit (blankCache ptrs data), fun _ => .idle, fun _ => 0⟩

omit [DecidableEq T] in
theorem ok_start (ptrs : Ptrs (Option Buf)) (data : Buf → D) : Ok (start ptrs data : World T D) := by
  refine ⟨sound_binit fun _ => rfl, ?_⟩
  intro b
  simp [start, binit, blankCache, Cache.setPtrs, gets, Doing.uses, BufState.held]

/-- The cache after binit and any interleaving of bget, brelse, bpin and bunpin. -/
theorem cache_structure {ptrs : Ptrs (Option Buf)} {data : Buf → D} {es : List (Event T)}
    {w : World T D} (run : Runs.Run (fun w e w' => next w e = some w') (start ptrs data) es w) :
    (∃ xs : List Buf, xs.Nodup ∧ (∀ b, b ∈ xs) ∧
      Links w.cache.ptrs.next w.cache.ptrs.prev none (xs.map some) none) ∧
    (∀ b b', (w.cache.buf b).dev ≠ 0 → (w.cache.buf b').dev = (w.cache.buf b).dev →
      (w.cache.buf b').blockno = (w.cache.buf b).blockno → b = b') ∧
    (∀ b, (w.cache.buf b).refcnt = gets w b + w.pins b) ∧
    ∀ e w', next w e = some w' → ∀ b, 0 < (w.cache.buf b).refcnt →
      (w'.cache.buf b).dev = (w.cache.buf b).dev ∧ (w'.cache.buf b).blockno = (w.cache.buf b).blockno := by
  have ok : Ok w := Runs.run_invariant Ok (ok_start ptrs data) (fun _ _ _ ok step => ok_next ok step) run
  refine ⟨?_, ?_, ok.count, fun e w' step b used => next_caches ok step used⟩
  · obtain ⟨xs, all, ring⟩ := ok.sound.ring
    exact ⟨xs, ring.nodup, all, ring.links⟩
  · exact fun b b' used dev blockno => ok.sound.unique b b' used ⟨dev, blockno⟩

end

def shareBlock : List (Event (Fin 2)) :=
  [.bget 0 1 7, .acquiresleep 0, .bget 1 1 7, .bpin 0, .releasesleep 0 0, .brelse 0]

def freshWorld : World (Fin 2) Unit := start ⟨fun _ => none, fun _ => none⟩ fun _ => ()

def afterShare : World (Fin 2) Unit := Runs.after next freshWorld shareBlock

theorem cache_structure_shared : (afterShare.cache.buf 0).refcnt = 2 ∧
    (afterShare.cache.buf 0).refcnt = gets afterShare 0 + afterShare.pins 0 := by
  have run : Runs.Run (fun w e w' => next w e = some w') freshWorld shareBlock afterShare :=
    Runs.run_after (fun _ _ _ => id) (by decide +kernel)
  exact ⟨by decide +kernel, (cache_structure run).2.2.1 0⟩

end Xv6Bio
