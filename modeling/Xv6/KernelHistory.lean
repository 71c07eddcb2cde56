import Xv6.KernelSleep

/- The history of exits and waits: pids are not used twice, an exited process stays a ZOMBIE until
   its parent's wait frees it, and that wait returns its pid. -/
namespace Xv6Kern
open Threads Prog Xv6Proc Function
set_option linter.unusedSectionVars false

section
variable {n m : Nat} {X Y W : Type}
variable {k : Know n}

def Live (st : ProcState) : Prop := st ≠ .unused ∧ st ≠ .used ∧ st ≠ .zombie

def Busy (k : Know n) : Prop :=
  k.newpid ≠ none ∨ k.child ≠ none ∨ k.found ≠ none ∨ k.owed ≠ none ∨ k.leaving = true

structure Pids (init : Fin n) (s : Kernel n m X W) (K : Fin n → Know n) : Prop where
  below : ∀ q, (s.slot q).state ≠ .unused → (s.slot q).pid < s.nextpid
  distinct : ∀ q q', (s.slot q).state ≠ .unused → (s.slot q').state ≠ .unused →
    (s.slot q).pid = (s.slot q').pid → q = q'
  taken : ∀ p k, (K p).newpid = some k → k < s.nextpid ∧ s.hist.exits k = none ∧
    ∀ q, (s.slot q).state ≠ .unused → (s.slot q).pid ≠ k
  taken_one : ∀ p p' k, (K p).newpid = some k → (K p').newpid = some k → p = p'
  first : (s.slot init).pid = 1
  past : ∀ k, s.hist.exits k ≠ none → k < s.nextpid
  going : ∀ q, (s.slot q).state ≠ .unused → (s.slot q).state ≠ .zombie → s.hist.exits (s.slot q).pid = none
  zombie : ∀ q, (s.slot q).state = .zombie → s.hist.exits (s.slot q).pid = some (s.slot q).xstate
  kept : ∀ k, s.hist.exits k ≠ none → (∃ r ∈ s.hist.reaped, r.pid = k) ∨
    ∃ q, (s.slot q).state = .zombie ∧ (s.slot q).pid = k
  gone : ∀ r ∈ s.hist.reaped, s.hist.exits r.pid ≠ none ∧
    ∀ q, (s.slot q).state ≠ .unused → (s.slot q).pid ≠ r.pid
  busy : ∀ p, Busy (K p) → Live (s.slot p).state

structure Returns (s : Kernel n m X W) (K : Fin n → Know n) : Prop where
  once : (s.hist.reaped.map Reap.pid).Nodup
  paid : ∀ k ∈ s.hist.returned, ∃ r ∈ s.hist.reaped, r.pid = k
  paid_once : s.hist.returned.Nodup
  owed : ∀ p k, (K p).owed = some k → k ∉ s.hist.returned ∧ ∃ r ∈ s.hist.reaped, r.pid = k ∧
    r.waiter = (s.slot p).pid
  owed_one : ∀ p p' k, (K p).owed = some k → (K p').owed = some k → p = p'
  due : ∀ r ∈ s.hist.reaped, r.pid ∈ s.hist.returned ∨ ∃ p, (K p).owed = some r.pid
  stored : ∀ e ∈ s.hist.stored, s.hist.exits e.1.pid = some e.2
  copied : ∀ p addr, (K p).copied = some addr → ∃ q k, (K p).found = some (q, k) ∧
    (⟨k, (s.slot p).pid, addr⟩, (s.slot q).xstate) ∈ s.hist.stored
  told : ∀ r ∈ s.hist.reaped, r.addr ≠ 0 → ∃ st, (r, st) ∈ s.hist.stored

/-- Who waits for whom: the creator, and init once the creator has exited. -/
structure Lineage (init : Fin n) (s : Kernel n m X W) (K : Fin n → Know n) : Prop where
  live : ∀ q r, s.parent q = some r → Live (s.slot r).state
  creator : ∀ q r, s.parent q = some r → ∃ k, s.hist.creator (s.slot q).pid = some k ∧
    (k = (s.slot r).pid ∨ r = init ∧ (s.hist.exits k ≠ none ∨
      ∃ p, (K p).leaving = true ∧ (s.slot p).pid = k))
  waiter : ∀ r ∈ s.hist.reaped, ∃ k, s.hist.creator r.pid = some k ∧
    (k = r.waiter ∨ r.waiter = 1 ∧ s.hist.exits k ≠ none)

structure Records (init : Fin n) (s : Kernel n m X W) (K : Fin n → Know n) : Prop where
  pids : Pids init s K
  returns : Returns s K
  lineage : Lineage init s K

variable {s s' : Kernel n m X W} {K K' : Fin n → Know n} {init p q : Fin n}

/-- Slots change only between the states of a process that can act. -/
def SameKind (s s' : Kernel n m X W) : Prop :=
  ∀ q, (s'.slot q).pid = (s.slot q).pid ∧ (s'.slot q).xstate = (s.slot q).xstate ∧
    ((s'.slot q).state = (s.slot q).state ∨ (s.slot q).state ≠ .unused ∧ (s.slot q).state ≠ .zombie ∧
      Live (s'.slot q).state)

theorem sameKind_slot (slot : s'.slot = s.slot) : SameKind s s' := by
  intro q
  rw [slot]
  exact ⟨rfl, rfl, .inl rfl⟩

theorem pids_fewer (pids : Pids init s K) (slots : ∀ q, (s'.slot q).state ≠ .unused →
      (s.slot q).state ≠ .unused ∧ (s'.slot q).pid = (s.slot q).pid)
    (exits : ∀ k, (∀ q, (s.slot q).state ≠ .unused → (s.slot q).pid ≠ k) → s'.hist.exits k = s.hist.exits k)
    (nextpid : s'.nextpid = s.nextpid) (first : (s'.slot init).pid = (s.slot init).pid)
    (newpid : ∀ p, (K' p).newpid = (K p).newpid)
    (going : ∀ q, (s'.slot q).state ≠ .unused → (s'.slot q).state ≠ .zombie → s'.hist.exits (s'.slot q).pid = none)
    (zombie : ∀ q, (s'.slot q).state = .zombie → s'.hist.exits (s'.slot q).pid = some (s'.slot q).xstate)
    (kept : ∀ k, s'.hist.exits k ≠ none → (∃ r ∈ s'.hist.reaped, r.pid = k) ∨
      ∃ q, (s'.slot q).state = .zombie ∧ (s'.slot q).pid = k)
    (gone : ∀ r ∈ s'.hist.reaped, r ∈ s.hist.reaped ∨ s'.hist.exits r.pid ≠ none ∧
      ∀ q, (s'.slot q).state ≠ .unused → (s'.slot q).pid ≠ r.pid)
    (busy : ∀ p, Busy (K' p) → Live (s'.slot p).state) : Pids init s' K' := by
  have apart : ∀ k, (∀ q, (s.slot q).state ≠ .unused → (s.slot q).pid ≠ k) →
      ∀ q, (s'.slot q).state ≠ .unused → (s'.slot q).pid ≠ k := by
    intro k others q now
    rw [(slots q now).2]
    exact others q (slots q now).1
  refine ⟨?_, ?_, ?_, ?_, ?_, ?_, going, zombie, kept, ?_, busy⟩
  · intro q now
    rw [(slots q now).2, nextpid]
    exact pids.below q (slots q now).1
  · intro q q' first snd same
    rw [(slots q first).2, (slots q' snd).2] at same
    exact pids.distinct q q' (slots q first).1 (slots q' snd).1 same
  · intro p k now
    rw [newpid] at now
    obtain ⟨less, fresh, others⟩ := pids.taken p k now
    rw [nextpid, exits k others]
    exact ⟨less, fresh, apart k others⟩
  · intro p p' k first snd
    rw [newpid] at first snd
    exact pids.taken_one p p' k first snd
  · rw [first]
    exact pids.first
  · intro k now
    rw [nextpid]
    by_cases slot : ∃ q, (s.slot q).state ≠ .unused ∧ (s.slot q).pid = k
    · obtain ⟨q, used, rfl⟩ := slot
      exact pids.below q used
    rw [exits k fun q used same => slot ⟨q, used, same⟩] at now
    exact pids.past k now
  intro r mem
  rcases gone r mem with prev | new
  · obtain ⟨exited, others⟩ := pids.gone r prev
    rw [exits r.pid others]
    exact ⟨exited, apart r.pid others⟩
  · exact new

theorem pids_same (pids : Pids init s K) (exits : s'.hist.exits = s.hist.exits)
    (reaped : s'.hist.reaped = s.hist.reaped) (nextpid : s'.nextpid = s.nextpid) (slots : SameKind s s')
    (newpid : ∀ p, (K' p).newpid = (K p).newpid)
    (busy : ∀ p, Busy (K' p) → Busy (K p) ∨ Live (s.slot p).state) : Pids init s' K' := by
  have unused : ∀ q, (s'.slot q).state ≠ .unused → (s.slot q).state ≠ .unused := by
    intro q now
    rcases (slots q).2.2 with same | ⟨used, -⟩
    · rw [← same]
      exact now
    · exact used
  have dead : ∀ q, (s'.slot q).state = .zombie ↔ (s.slot q).state = .zombie := by
    intro q
    rcases (slots q).2.2 with same | ⟨-, prev, live⟩
    · rw [same]
    · exact ⟨fun now => absurd now live.2.2, fun now => absurd now prev⟩
  have alive : ∀ q, Live (s.slot q).state → Live (s'.slot q).state := by
    intro q now
    rcases (slots q).2.2 with same | ⟨-, -, live⟩
    · rw [same]
      exact now
    · exact live
  have pid : ∀ q, (s'.slot q).pid = (s.slot q).pid := fun q => (slots q).1
  refine pids_fewer pids (fun q now => ⟨unused q now, pid q⟩) (fun _ _ => by rw [exits]) nextpid (pid init)
    newpid ?_ ?_ ?_ (fun r mem => .inl (reaped ▸ mem)) ?_
  · intro q used going
    rw [exits, pid]
    exact pids.going q (unused q used) fun now => going ((dead q).mpr now)
  · intro q now
    rw [exits, pid, (slots q).2.1]
    exact pids.zombie q ((dead q).mp now)
  · intro k exited
    rw [exits] at exited
    rw [reaped]
    rcases pids.kept k exited with prev | ⟨q, now, same⟩
    · exact .inl prev
    · exact .inr ⟨q, (dead q).mpr now, (pid q).trans same⟩
  intro p now
  rcases busy p now with prev | live
  · exact alive p (pids.busy p prev)
  · exact alive p live

theorem returns_same (returns : Returns s K) (exits : ∀ k st, s.hist.exits k = some st → s'.hist.exits k = some st)
    (reaped : s'.hist.reaped = s.hist.reaped) (stored : s'.hist.stored = s.hist.stored)
    (returned : s'.hist.returned = s.hist.returned) (pid : ∀ p, Busy (K p) → (s'.slot p).pid = (s.slot p).pid)
    (xstate : ∀ p q k, (K p).found = some (q, k) → (s'.slot q).xstate = (s.slot q).xstate)
    (owed : ∀ p, (K' p).owed = (K p).owed)
    (copied : ∀ p addr, (K' p).copied = some addr → (K p).copied = some addr ∧ (K' p).found = (K p).found) :
    Returns s' K' := by
  constructor
  · rw [reaped]
    exact returns.once
  · rw [reaped, returned]
    exact returns.paid
  · rw [returned]
    exact returns.paid_once
  · intro p k now
    rw [owed] at now
    rw [returned, reaped, pid p (.inr (.inr (.inr (.inl (by rw [now]; nofun)))))]
    exact returns.owed p k now
  · intro p p' k first snd
    rw [owed] at first snd
    exact returns.owed_one p p' k first snd
  · intro r mem
    rw [reaped] at mem
    rw [returned]
    rcases returns.due r mem with paid | ⟨p, owes⟩
    · exact .inl paid
    · exact .inr ⟨p, (owed p).trans owes⟩
  · intro e mem
    rw [stored] at mem
    exact exits _ _ (returns.stored e mem)
  · intro p addr now
    obtain ⟨prev, found⟩ := copied p addr now
    obtain ⟨q, k, seen, mem⟩ := returns.copied p addr prev
    refine ⟨q, k, found.trans seen, ?_⟩
    rw [stored, pid p (.inr (.inr (.inl (by rw [seen]; nofun)))), xstate p q k seen]
    exact mem
  rw [reaped, stored]
  exact returns.told

theorem lineage_same (lineage : Lineage init s K) (creator : s'.hist.creator = s.hist.creator)
    (exits : ∀ k, s.hist.exits k ≠ none → s'.hist.exits k ≠ none) (reaped : s'.hist.reaped = s.hist.reaped)
    (parent : ∀ q r, s'.parent q = some r → s.parent q = some r)
    (kin : ∀ q r, s.parent q = some r → (s'.slot q).pid = (s.slot q).pid ∧
      (s'.slot r).pid = (s.slot r).pid ∧ Live (s'.slot r).state)
    (leaving : ∀ p, (K p).leaving = true → s'.hist.exits (s.slot p).pid ≠ none ∨
      (K' p).leaving = true ∧ (s'.slot p).pid = (s.slot p).pid) : Lineage init s' K' := by
  constructor
  · intro q r of
    exact (kin q r (parent q r of)).2.2
  · intro q r of
    obtain ⟨same, same', -⟩ := kin q r (parent q r of)
    obtain ⟨k, made, how⟩ := lineage.creator q r (parent q r of)
    rw [creator, same, same']
    refine ⟨k, made, ?_⟩
    rcases how with mine | ⟨root, exited | ⟨p, leaves, num⟩⟩
    · exact .inl mine
    · exact .inr ⟨root, .inl (exits k exited)⟩
    rcases leaving p leaves with left | ⟨still, kept⟩
    · rw [num] at left
      exact .inr ⟨root, .inl left⟩
    · exact .inr ⟨root, .inr ⟨p, still, kept.trans num⟩⟩
  intro r mem
  rw [reaped] at mem
  rw [creator]
  obtain ⟨k, made, how⟩ := lineage.waiter r mem
  refine ⟨k, made, ?_⟩
  rcases how with mine | ⟨root, exited⟩
  · exact .inl mine
  · exact .inr ⟨root, exits k exited⟩

theorem records_same (records : Records init s K) (hist : s'.hist = s.hist) (nextpid : s'.nextpid = s.nextpid)
    (parent : s'.parent = s.parent) (slots : SameKind s s') (newpid : ∀ p, (K' p).newpid = (K p).newpid)
    (owed : ∀ p, (K' p).owed = (K p).owed) (leaving : ∀ p, (K' p).leaving = (K p).leaving)
    (copied : ∀ p addr, (K' p).copied = some addr → (K p).copied = some addr ∧ (K' p).found = (K p).found)
    (busy : ∀ p, Busy (K' p) → Busy (K p) ∨ Live (s.slot p).state) : Records init s' K' := by
  obtain ⟨pids, returns, lineage⟩ := records
  refine ⟨?_, ?_, ?_⟩
  · exact pids_same pids (by rw [hist]) (by rw [hist]) nextpid slots newpid busy
  · refine returns_same returns ?_ (by rw [hist]) (by rw [hist]) (by rw [hist]) (fun p _ => (slots p).1)
      (fun _ q _ _ => (slots q).2.1) owed copied
    rw [hist]
    exact fun _ _ => id
  refine lineage_same lineage (by rw [hist]) ?_ (by rw [hist]) (by rw [parent]; exact fun _ _ => id) ?_ ?_
  · rw [hist]
    exact fun _ => id
  · intro q r of
    refine ⟨(slots q).1, (slots r).1, ?_⟩
    rcases (slots r).2.2 with same | ⟨-, -, live⟩
    · rw [same]
      exact lineage.live q r of
    · exact live
  intro p leaves
  exact .inr ⟨(leaving p).trans leaves, (slots p).1⟩

theorem update_know {B : Type} (K : Fin n → Know n) (f : Know n → B) (same : f k = f (K p))
    (r : Fin n) : f (update K p k r) = f (K r) := by
  by_cases acting : r = p
  · rw [acting, update_self, same]
  · rw [update_of_ne acting]

theorem busy_update {r : Fin n} (busy : Busy (update K p k r)) : Busy (K r) ∨ r = p := by
  by_cases acting : r = p
  · exact .inr acting
  rw [update_of_ne acting] at busy
  exact .inl busy

theorem unique_update {f : Know n → Option Nat} (one : ∀ r r' j, f (K r) = some j → f (K r') = some j → r = r')
    (fresh : ∀ r j, f k = some j → f (K r) ≠ some j) (r r' : Fin n) (j : Nat)
    (first : f (update K p k r) = some j) (snd : f (update K p k r') = some j) : r = r' := by
  by_cases acting : r = p
  · by_cases acting' : r' = p
    · rw [acting, acting']
    rw [acting, update_self] at first
    rw [update_of_ne acting'] at snd
    exact absurd snd (fresh r' j first)
  rw [update_of_ne acting] at first
  by_cases acting' : r' = p
  · rw [acting', update_self] at snd
    exact absurd first (fresh r j snd)
  rw [update_of_ne acting'] at snd
  exact one r r' j first snd

theorem pids_still (pids : Pids init s K) (exits : s'.hist.exits = s.hist.exits)
    (reaped : s'.hist.reaped = s.hist.reaped) (nextpid : s'.nextpid = s.nextpid) (slot : s'.slot = s.slot)
    (newpid : k.newpid = (K p).newpid) (live : Live (s.slot p).state) : Pids init s' (update K p k) := by
  apply pids_same pids exits reaped nextpid (sameKind_slot slot) (update_know K Know.newpid newpid)
  intro r now
  rcases busy_update now with prev | rfl
  · exact .inl prev
  · exact .inr live

theorem lineage_still (lineage : Lineage init s K) (creator : s'.hist.creator = s.hist.creator)
    (exits : s'.hist.exits = s.hist.exits) (reaped : s'.hist.reaped = s.hist.reaped)
    (parent : s'.parent = s.parent) (slot : s'.slot = s.slot) (leaving : k.leaving = (K p).leaving) :
    Lineage init s' (update K p k) := by
  refine lineage_same lineage creator (by rw [exits]; exact fun _ => id) reaped
    (by rw [parent]; exact fun _ _ => id) ?_ ?_
  · intro q r of
    rw [slot]
    exact ⟨rfl, rfl, lineage.live q r of⟩
  intro r leaves
  rw [slot]
  exact .inr ⟨(update_know K Know.leaving leaving r).trans leaves, rfl⟩

/-- The same about waits and exits. -/
structure Alike (k k' : Know n) : Prop where
  owed : k'.owed = k.owed
  found : k'.found = k.found
  copied : k'.copied = k.copied
  leaving : k'.leaving = k.leaving

theorem alike_copied (alike : Alike (K p) k) (r : Fin n) (addr : UInt64) (now : (update K p k r).copied = some addr) :
    (K r).copied = some addr ∧ (update K p k r).found = (K r).found := by
  rw [update_know K Know.copied alike.copied] at now
  exact ⟨now, update_know K Know.found alike.found r⟩

theorem records_takePid (records : Records init s K) (live : Live (s.slot p).state)
    (newpid : k.newpid = some s.nextpid) (alike : Alike (K p) k) :
    Records init (s.setNextpid (s.nextpid + 1)) (update K p k) := by
  obtain ⟨pids, returns, lineage⟩ := records
  refine ⟨?_, ?_, ?_⟩
  · refine ⟨?_, pids.distinct, ?_, ?_, pids.first, ?_, pids.going, pids.zombie, pids.kept, pids.gone, ?_⟩
    · intro q used
      exact Nat.lt_succ_of_lt (pids.below q used)
    · intro p' number now
      by_cases acting : p' = p
      · rw [acting, update_self, newpid] at now
        obtain rfl : s.nextpid = number := Option.some.inj now
        refine ⟨Nat.lt_succ_self _, ?_, ?_⟩
        · by_contra exited
          exact Nat.lt_irrefl _ (pids.past _ exited)
        intro q used same
        exact Nat.lt_irrefl _ (same ▸ pids.below q used)
      rw [update_of_ne acting] at now
      obtain ⟨less, rest⟩ := pids.taken p' number now
      exact ⟨Nat.lt_succ_of_lt less, rest⟩
    · refine unique_update (f := Know.newpid) pids.taken_one ?_
      intro r number now prev
      obtain rfl : s.nextpid = number := Option.some.inj (newpid.symm.trans now)
      exact Nat.lt_irrefl _ (pids.taken r _ prev).1
    · intro number exited
      exact Nat.lt_succ_of_lt (pids.past number exited)
    intro r busy
    rcases busy_update busy with prev | rfl
    · exact pids.busy r prev
    · exact live
  · exact returns_same returns (fun _ _ => id) rfl rfl rfl (fun _ _ => rfl) (fun _ _ _ _ => rfl)
      (update_know K Know.owed alike.owed) (alike_copied alike)
  · exact lineage_still lineage rfl rfl rfl rfl rfl alike.leaving

theorem other_of_live {r : Fin n} (live : Live (s.slot r).state) (dead : ¬ Live (s.slot q).state) : r ≠ q := by
  rintro rfl
  exact dead live

theorem returns_apart (pids : Pids init s K) (returns : Returns s K) (slot : ∀ r, r ≠ q → s'.slot r = s.slot r)
    (hist : s'.hist = s.hist) (dead : ¬ Live (s.slot q).state) (empty : (s.slot q).state ≠ .zombie)
    (found : ∀ p q' k, (K p).found = some (q', k) → (s.slot q').state = .zombie) (alike : Alike (K p) k) :
    Returns s' (update K p k) := by
  refine returns_same returns (by rw [hist]; exact fun _ _ => id) (by rw [hist]) (by rw [hist]) (by rw [hist])
    ?_ ?_ (update_know K Know.owed alike.owed) (alike_copied alike)
  · intro r busy
    rw [slot r (other_of_live (pids.busy r busy) dead)]
  intro r q' num now
  rw [slot q']
  rintro rfl
  exact empty (found r q' num now)

theorem lineage_apart (pids : Pids init s K) (lineage : Lineage init s K)
    (slot : ∀ r, r ≠ q → s'.slot r = s.slot r) (hist : s'.hist = s.hist) (dead : ¬ Live (s.slot q).state)
    (orphan : s.parent q = none) (parent : ∀ r, r ≠ q → s'.parent r = s.parent r) (still : s'.parent q = none)
    (alike : Alike (K p) k) : Lineage init s' (update K p k) := by
  refine lineage_same lineage (by rw [hist]) (by rw [hist]; exact fun _ => id) (by rw [hist]) ?_ ?_ ?_
  · intro r r' of
    rwa [parent r] at of
    rintro rfl
    cases still.symm.trans of
  · intro r r' of
    have live := lineage.live r r' of
    have other : r ≠ q := by
      rintro rfl
      cases orphan.symm.trans of
    rw [slot r other, slot r' (other_of_live live dead)]
    exact ⟨rfl, rfl, live⟩
  intro r leaves
  refine .inr ⟨(update_know K Know.leaving alike.leaving r).trans leaves, ?_⟩
  rw [slot r (other_of_live (pids.busy r (.inr (.inr (.inr (.inr leaves))))) dead)]

theorem records_setUsed (records : Records init s K) {pid : Nat} (unused : (s.slot q).state = .unused)
    (orphan : s.parent q = none) (newpid : (K p).newpid = some pid)
    (found : ∀ p q' k, (K p).found = some (q', k) → (s.slot q').state = .zombie)
    (none : k.newpid = none) (alike : Alike (K p) k) (root : Live (s.slot init).state) :
    Records init (s.setSlot q ((s.slot q).use pid)) (update K p k) := by
  obtain ⟨pids, returns, lineage⟩ := records
  have dead : ¬ Live (s.slot q).state := fun live => live.1 unused
  have slot : ∀ r, r ≠ q → (s.setSlot q ((s.slot q).use pid)).slot r = s.slot r :=
    fun r other => update_of_ne other _ _
  have here : (s.setSlot q ((s.slot q).use pid)).slot q = (s.slot q).use pid := update_self q _ _
  obtain ⟨less, fresh, apart⟩ := pids.taken p pid newpid
  refine ⟨?_, ?_, ?_⟩
  · refine ⟨?_, ?_, ?_, ?_, ?_, pids.past, ?_, ?_, ?_, ?_, ?_⟩
    · intro r used
      by_cases same : r = q
      · rw [same, here]
        exact less
      rw [slot r same] at used ⊢
      exact pids.below r used
    · intro r r' used used' same
      by_cases first : r = q
      · by_cases snd : r' = q
        · rw [first, snd]
        rw [first, here, slot r' snd] at same
        rw [slot r' snd] at used'
        exact absurd same.symm (apart r' used')
      by_cases snd : r' = q
      · rw [snd, here, slot r first] at same
        rw [slot r first] at used
        exact absurd same (apart r used)
      rw [slot r first, slot r' snd] at same
      rw [slot r first] at used
      rw [slot r' snd] at used'
      exact pids.distinct r r' used used' same
    · intro r num now
      have other : r ≠ p := by
        rintro rfl
        rw [update_self, none] at now
        cases now
      rw [update_of_ne other] at now
      obtain ⟨less', fresh', apart'⟩ := pids.taken r num now
      refine ⟨less', fresh', ?_⟩
      intro r' used
      by_cases same : r' = q
      · rw [same, here]
        rintro rfl
        exact other (pids.taken_one r p _ now newpid)
      rw [slot r' same] at used ⊢
      exact apart' r' used
    · refine unique_update (f := Know.newpid) pids.taken_one ?_
      intro r num now
      cases none.symm.trans now
    · rw [slot init (other_of_live root dead)]
      exact pids.first
    · intro r used going
      by_cases same : r = q
      · rw [same, here]
        exact fresh
      rw [slot r same] at used going ⊢
      exact pids.going r used going
    · intro r now
      have other : r ≠ q := by
        rintro rfl
        rw [here] at now
        cases now
      rw [slot r other] at now ⊢
      exact pids.zombie r now
    · intro num exited
      rcases pids.kept num exited with prev | ⟨r, now, same⟩
      · exact .inl prev
      have other : r ≠ q := by
        rintro rfl
        cases unused.symm.trans now
      refine .inr ⟨r, ?_⟩
      rw [slot r other]
      exact ⟨now, same⟩
    · intro r mem
      obtain ⟨exited, away⟩ := pids.gone r mem
      refine ⟨exited, ?_⟩
      intro r' used
      by_cases same : r' = q
      · rw [same, here]
        rintro rfl
        exact exited fresh
      rw [slot r' same] at used ⊢
      exact away r' used
    intro r busy
    have live : Live (s.slot r).state := by
      rcases busy_update busy with prev | rfl
      · exact pids.busy r prev
      · exact pids.busy r (.inl (by rw [newpid]; nofun))
    rw [slot r (other_of_live live dead)]
    exact live
  · exact returns_apart pids returns slot rfl dead (by rw [unused]; nofun) found alike
  · exact lineage_apart pids lineage slot rfl dead orphan (fun _ _ => rfl) orphan alike

theorem pids_clear (pids : Pids init s K) (slot : ∀ r, r ≠ q → s'.slot r = s.slot r)
    (cleared : (s'.slot q).state = .unused) (used : (s.slot q).state ≠ .unused)
    (dead : ¬ Live (s.slot q).state) (exits : s'.hist.exits = s.hist.exits) (nextpid : s'.nextpid = s.nextpid)
    {x : Reap} (same : x.pid = (s.slot q).pid)
    (reaped : ∀ r, r ∈ s'.hist.reaped ↔ r ∈ s.hist.reaped ∨ (s.slot q).state = .zombie ∧ r = x)
    (root : Live (s.slot init).state) (newpid : ∀ p, (K' p).newpid = (K p).newpid)
    (busy : ∀ p, Busy (K' p) → Live (s.slot p).state) : Pids init s' K' := by
  have other : ∀ r, (s'.slot r).state ≠ .unused → r ≠ q := by
    rintro r now rfl
    exact now cleared
  have kept : ∀ r, (s'.slot r).state ≠ .unused → (s.slot r).state ≠ .unused ∧ (s'.slot r).pid = (s.slot r).pid := by
    intro r now
    have same := slot r (other r now)
    rw [same] at now ⊢
    exact ⟨now, rfl⟩
  refine pids_fewer pids kept (fun _ _ => by rw [exits]) nextpid
    (congrArg Slot.pid (slot init (other_of_live root dead))) newpid ?_ ?_ ?_ ?_ ?_
  · intro r now going
    have kept := slot r (other r now)
    rw [kept] at now going ⊢
    rw [exits]
    exact pids.going r now going
  · intro r now
    have kept := slot r (other r (by rw [now]; nofun))
    rw [kept] at now ⊢
    rw [exits]
    exact pids.zombie r now
  · intro k exited
    rw [exits] at exited
    rcases pids.kept k exited with ⟨r, mem, num⟩ | ⟨r, now, num⟩
    · exact .inl ⟨r, (reaped r).mpr (.inl mem), num⟩
    by_cases here : r = q
    · rw [here] at now num
      exact .inl ⟨x, (reaped x).mpr (.inr ⟨now, rfl⟩), same.trans num⟩
    refine .inr ⟨r, ?_⟩
    rw [slot r here]
    exact ⟨now, num⟩
  · intro r mem
    rw [exits]
    rcases (reaped r).mp mem with prev | ⟨zombie, rfl⟩
    · exact .inl prev
    refine .inr ⟨?_, fun r' now num => ?_⟩
    · rw [same, pids.zombie q zombie]
      nofun
    have apart := other r' now
    rw [slot r' apart] at now num
    exact apart (pids.distinct r' q now used (num.trans same))
  intro p now
  have live := busy p now
  rw [slot p (other_of_live live dead)]
  exact live

theorem records_freeproc (records : Records init s K) (used : (s.slot q).state = .used)
    (orphan : s.parent q = none) (found : ∀ p q' k, (K p).found = some (q', k) → (s.slot q').state = .zombie)
    (newpid : k.newpid = (K p).newpid) (alike : Alike (K p) k) (busy : Busy (K p))
    (root : Live (s.slot init).state) : Records init (s.freeproc q) (update K p k) := by
  obtain ⟨pids, returns, lineage⟩ := records
  have dead : ¬ Live (s.slot q).state := fun live => live.2.1 used
  have slot : ∀ r, r ≠ q → (s.freeproc q).slot r = s.slot r := fun r other => update_of_ne other _ _
  refine ⟨?_, ?_, ?_⟩
  · refine pids_clear pids slot ?_ (by rw [used]; nofun) dead rfl rfl (x := ⟨(s.slot q).pid, 0, 0⟩) rfl ?_ root
      (update_know K Know.newpid newpid) ?_
    · simp [Kernel.freeproc, Kernel.setParent, Kernel.setSlot, Slot.clear]
    · intro r
      refine ⟨.inl, fun either => either.resolve_right ?_⟩
      rintro ⟨zombie, -⟩
      cases used.symm.trans zombie
    intro r now
    rcases busy_update now with prev | rfl
    · exact pids.busy r prev
    · exact pids.busy r busy
  · exact returns_apart pids returns slot rfl dead (by rw [used]; simp) found alike
  refine lineage_apart pids lineage slot rfl dead orphan (fun r other => update_of_ne other _ _) ?_ alike
  simp [Kernel.freeproc, Kernel.setParent]

theorem records_adopt (records : Records init s K) (used : (s.slot q).state = .used)
    (child : (K p).child = some q) (orphans : ∀ r, (s.slot r).state = .unused → s.parent r = none)
    (newpid : k.newpid = (K p).newpid) (alike : Alike (K p) k) :
    Records init ((s.setParent q (some p)).setHist (s.hist.setCreator (s.slot q).pid (s.slot p).pid))
      (update K p k) := by
  obtain ⟨pids, returns, lineage⟩ := records
  have live : Live (s.slot p).state := pids.busy p (.inr (.inl (by rw [child]; nofun)))
  have unused : (s.slot q).state ≠ .unused := by
    rw [used]
    nofun
  refine ⟨?_, ?_, ?_⟩
  · exact pids_still pids rfl rfl rfl rfl newpid live
  · exact returns_same returns (fun _ _ => id) rfl rfl rfl (fun _ _ => rfl) (fun _ _ _ _ => rfl)
      (update_know K Know.owed alike.owed) (alike_copied alike)
  constructor
  · intro r r' of
    by_cases same : r = q
    · rw [same] at of
      have mine : some p = some r' := by
        rw [← of]
        simp [Kernel.setHist, Kernel.setParent]
      rw [← Option.some.inj mine]
      exact live
    · exact lineage.live r r' ((update_of_ne same _ _).symm.trans of)
  · intro r r' of
    by_cases same : r = q
    · rw [same] at of ⊢
      have mine : some p = some r' := by
        rw [← of]
        simp [Kernel.setHist, Kernel.setParent]
      rw [← Option.some.inj mine]
      refine ⟨(s.slot p).pid, ?_, .inl rfl⟩
      simp [Kernel.setHist, Kernel.setParent, History.setCreator]
    have prev := (update_of_ne same _ _).symm.trans of
    obtain ⟨num, made, how⟩ := lineage.creator r r' prev
    refine ⟨num, ?_, ?_⟩
    · refine (update_of_ne ?_ _ _).trans made
      intro eq
      refine same (pids.distinct r q (fun none => ?_) unused eq)
      cases (orphans r none).symm.trans prev
    rcases how with mine | ⟨root, exited | ⟨p', leaves, number'⟩⟩
    · exact .inl mine
    · exact .inr ⟨root, .inl exited⟩
    exact .inr ⟨root, .inr ⟨p', (update_know K Know.leaving alike.leaving p').trans leaves, number'⟩⟩
  intro r mem
  obtain ⟨num, made, how⟩ := lineage.waiter r mem
  refine ⟨num, ?_, how⟩
  refine (update_of_ne ?_ _ _).trans made
  exact fun eq => (pids.gone r mem).2 q unused eq.symm

theorem records_passOn (records : Records init s K) (live : Live (s.slot p).state)
    (root : Live (s.slot init).state) (other : p ≠ init) (of : s.parent q = some p)
    (newpid : k.newpid = (K p).newpid) (owed : k.owed = (K p).owed) (copied : k.copied = none)
    (leaving : k.leaving = true) : Records init (s.setParent q (some init)) (update K p k) := by
  obtain ⟨pids, returns, lineage⟩ := records
  refine ⟨?_, ?_, ?_⟩
  · exact pids_still pids rfl rfl rfl rfl newpid live
  · refine returns_same returns (fun _ _ => id) rfl rfl rfl (fun _ _ => rfl) (fun _ _ _ _ => rfl)
      (update_know K Know.owed owed) ?_
    intro r addr now
    have acting : r ≠ p := by
      rintro rfl
      rw [update_self, copied] at now
      cases now
    rw [update_of_ne acting] at now ⊢
    exact ⟨now, rfl⟩
  have given : ∀ r, (s.setParent q (some init)).parent q = some r → r = init := by
    intro r now
    simp only [Kernel.setParent, update_self] at now
    exact (Option.some.inj now).symm
  refine ⟨?_, ?_, lineage.waiter⟩
  · intro r r' now
    by_cases same : r = q
    · rw [same] at now
      rw [given r' now]
      exact root
    · exact lineage.live r r' ((update_of_ne same _ _).symm.trans now)
  intro r r' now
  by_cases same : r = q
  · rw [same] at now ⊢
    obtain ⟨num, made, how⟩ := lineage.creator q p of
    refine ⟨num, made, .inr ⟨given r' now, .inr ⟨p, ?_, ?_⟩⟩⟩
    · rw [update_self]
      exact leaving
    rcases how with mine | ⟨eq, -⟩
    · exact mine.symm
    · exact absurd eq other
  obtain ⟨num, made, how⟩ := lineage.creator r r' ((update_of_ne same _ _).symm.trans now)
  refine ⟨num, made, ?_⟩
  rcases how with mine | ⟨eq, exited | ⟨p', leaves, number'⟩⟩
  · exact .inl mine
  · exact .inr ⟨eq, .inl exited⟩
  refine .inr ⟨eq, .inr ⟨p', ?_, number'⟩⟩
  by_cases acting : p' = p
  · rw [acting, update_self]
    exact leaving
  rw [update_of_ne acting]
  exact leaves

theorem pids_exit (pids : Pids init s K) (live : Live (s.slot p).state) {status : Int32}
    (slot : ∀ r, r ≠ p → s'.slot r = s.slot r) (own : s'.slot p = (s.slot p).exit status)
    (exits : ∀ k, k ≠ (s.slot p).pid → s'.hist.exits k = s.hist.exits k)
    (exited : s'.hist.exits (s.slot p).pid = some status) (reaped : s'.hist.reaped = s.hist.reaped)
    (nextpid : s'.nextpid = s.nextpid) (newpid : ∀ r, (K' r).newpid = (K r).newpid)
    (busy : ∀ r, Busy (K' r) → Busy (K r) ∧ r ≠ p) : Pids init s' K' := by
  have pid : ∀ r, (s'.slot r).pid = (s.slot r).pid := by
    intro r
    by_cases same : r = p
    · rw [same, own]
      rfl
    · rw [slot r same]
  have used : ∀ r, (s'.slot r).state ≠ .unused → (s.slot r).state ≠ .unused := by
    intro r now
    by_cases same : r = p
    · rw [same]
      exact live.1
    rw [slot r same] at now
    exact now
  have apart : ∀ r, (s.slot r).state ≠ .unused → r ≠ p → (s.slot r).pid ≠ (s.slot p).pid :=
    fun r now other eq => other (pids.distinct r p now live.1 eq)
  refine pids_fewer pids (fun r now => ⟨used r now, pid r⟩) (fun k others => exits k (others p live.1).symm)
    nextpid (pid init) newpid ?_ ?_ ?_ (fun r mem => .inl (reaped ▸ mem)) ?_
  · intro r now going
    have other : r ≠ p := by
      rintro rfl
      rw [own] at going
      exact going rfl
    rw [pid, exits _ (apart r (used r now) other)]
    rw [slot r other] at going
    exact pids.going r (used r now) going
  · intro r dead
    by_cases same : r = p
    · rw [same, pid, own]
      exact exited
    have kept := slot r same
    rw [kept] at dead ⊢
    rw [exits _ (apart r (by rw [dead]; nofun) same)]
    exact pids.zombie r dead
  · intro k now
    rw [reaped]
    by_cases same : k = (s.slot p).pid
    · refine .inr ⟨p, ?_, (pid p).trans same.symm⟩
      rw [own]
      rfl
    rw [exits k same] at now
    rcases pids.kept k now with prev | ⟨r, dead, eq⟩
    · exact .inl prev
    have other : r ≠ p := by
      rintro rfl
      exact live.2.2 dead
    refine .inr ⟨r, ?_, (pid r).trans eq⟩
    rw [slot r other]
    exact dead
  intro r now
  obtain ⟨prev, other⟩ := busy r now
  rw [slot r other]
  exact pids.busy r prev

section
variable (records : Records init s K)
include records

theorem records_exit (live : Live (s.slot p).state) (status : Int32) (strange : ∀ q, s.parent q ≠ some p)
    (found : ∀ p q' k, (K p).found = some (q', k) → (s.slot q').state = .zombie)
    (newpid : k.newpid = (K p).newpid) (owed : k.owed = (K p).owed) (copied : k.copied = (K p).copied)
    (seen : k.found = (K p).found) (idle : ¬ Busy k) :
    Records init ((s.setSlot p ((s.slot p).exit status)).setHist (s.hist.setExit (s.slot p).pid status))
      (update K p k) := by
  obtain ⟨pids, returns, lineage⟩ := records
  have slot : ∀ r, r ≠ p → (s.setSlot p ((s.slot p).exit status)).slot r = s.slot r :=
    fun r other => update_of_ne other _ _
  have own : (s.setSlot p ((s.slot p).exit status)).slot p = (s.slot p).exit status := update_self p _ _
  have pid : ∀ r, ((s.setSlot p ((s.slot p).exit status)).slot r).pid = (s.slot r).pid := by
    intro r
    by_cases same : r = p
    · rw [same, own]
      rfl
    · rw [slot r same]
  have exits : ∀ number, number ≠ (s.slot p).pid →
      (s.hist.setExit (s.slot p).pid status).exits number = s.hist.exits number :=
    fun number other => update_of_ne other _ _
  have exited : (s.hist.setExit (s.slot p).pid status).exits (s.slot p).pid = some status := update_self _ _ _
  have prev : s.hist.exits (s.slot p).pid = none := pids.going p live.1 live.2.2
  refine ⟨?_, ?_, ?_⟩
  · refine pids_exit pids live slot own exits exited rfl rfl (update_know K Know.newpid newpid) ?_
    intro r now
    have other : r ≠ p := by
      rintro rfl
      rw [update_self] at now
      exact idle now
    rw [update_of_ne other] at now
    exact ⟨now, other⟩
  · refine returns_same returns ?_ rfl rfl rfl (fun r _ => pid r) ?_ (update_know K Know.owed owed) ?_
    · intro number st now
      refine (exits number ?_).trans now
      rintro rfl
      cases prev.symm.trans now
    · intro r q' number now
      refine congrArg Slot.xstate (slot q' ?_)
      rintro rfl
      exact live.2.2 (found r q' number now)
    intro r addr now
    rw [update_know K Know.copied copied] at now
    exact ⟨now, update_know K Know.found seen r⟩
  refine lineage_same lineage rfl ?_ rfl (fun _ _ => id) ?_ ?_
  · intro number now none
    by_cases same : number = (s.slot p).pid
    · rw [same] at now
      exact now prev
    · exact now ((exits number same).symm.trans none)
  · intro r r' of
    have other : r' ≠ p := by
      rintro rfl
      exact strange r of
    refine ⟨pid r, pid r', ?_⟩
    have alive := lineage.live r r' of
    rw [← slot r' other] at alive
    exact alive
  intro r leaves
  by_cases acting : r = p
  · left
    rw [acting]
    exact fun none => Option.some_ne_none _ (exited.symm.trans none)
  right
  rw [update_of_ne acting]
  exact ⟨leaves, pid r⟩

theorem records_copyout {addr : UInt64} {num : Nat}
    (found : (K p).found = some (q, num)) (dead : (s.slot q).state = .zombie)
    (same : (s.slot q).pid = num) (newpid : k.newpid = (K p).newpid) (owed : k.owed = (K p).owed)
    (seen : k.found = (K p).found) (copied : k.copied = some addr) (leaving : k.leaving = (K p).leaving) :
    Records init (s.setHist (s.hist.addStored ⟨(s.slot q).pid, (s.slot p).pid, addr⟩ (s.slot q).xstate))
      (update K p k) := by
  obtain ⟨pids, returns, lineage⟩ := records
  refine ⟨?_, ?_, ?_⟩
  · exact pids_still pids rfl rfl rfl rfl newpid (pids.busy p (.inr (.inr (.inl (by rw [found]; nofun)))))
  · refine ⟨returns.once, returns.paid, returns.paid_once, ?_, ?_, ?_, ?_, ?_, ?_⟩
    · intro r number' now
      rw [update_know K Know.owed owed] at now
      exact returns.owed r number' now
    · intro r r' number' first snd
      rw [update_know K Know.owed owed] at first snd
      exact returns.owed_one r r' number' first snd
    · intro r mem
      rcases returns.due r mem with paid | ⟨p', owes⟩
      · exact .inl paid
      · exact .inr ⟨p', (update_know K Know.owed owed p').trans owes⟩
    · intro e mem
      rcases List.mem_append.mp mem with prev | last
      · exact returns.stored e prev
      rw [List.mem_singleton.mp last]
      exact pids.zombie q dead
    · intro r addr' now
      by_cases acting : r = p
      · rw [acting, update_self] at now ⊢
        obtain rfl : addr = addr' := Option.some.inj (copied.symm.trans now)
        refine ⟨q, num, seen.trans found, List.mem_append_right _ ?_⟩
        rw [← same]
        exact List.mem_singleton_self _
      rw [update_of_ne acting] at now ⊢
      obtain ⟨q', number', found', mem⟩ := returns.copied r addr' now
      exact ⟨q', number', found', List.mem_append_left _ mem⟩
    intro r mem set
    obtain ⟨st, prev⟩ := returns.told r mem set
    exact ⟨st, List.mem_append_left _ prev⟩
  · exact lineage_still lineage rfl rfl rfl rfl rfl leaving

theorem records_reap {addr : UInt64}
    (found : (K p).found = some (q, (s.slot q).pid)) (dead : (s.slot q).state = .zombie)
    (of : s.parent q = some p) (empty : (K p).owed = none) (copied : addr ≠ 0 → (K p).copied = some addr)
    (kin : ∀ p' q' k, (K p').found = some (q', k) → s.parent q' = some p')
    (staying : p = init → ∀ p', (K p').leaving = false) (root : Live (s.slot init).state)
    (newpid : k.newpid = (K p).newpid) (owed : k.owed = some (s.slot q).pid) (cleared : k.copied = none)
    (leaving : k.leaving = (K p).leaving) :
    Records init ((s.freeproc q).setHist (s.hist.addReaped ⟨(s.slot q).pid, (s.slot p).pid, addr⟩)) (update K p k) := by
  obtain ⟨pids, returns, lineage⟩ := records
  have used : (s.slot q).state ≠ .unused := by
    rw [dead]
    nofun
  have passed : ¬ Live (s.slot q).state := fun live => live.2.2 dead
  have slot : ∀ r, r ≠ q → (s.freeproc q).slot r = s.slot r := fun r other => update_of_ne other _ _
  have live : Live (s.slot p).state := pids.busy p (.inr (.inr (.inl (by rw [found]; nofun))))
  have fresh : ∀ r ∈ s.hist.reaped, r.pid ≠ (s.slot q).pid :=
    fun r mem eq => (pids.gone r mem).2 q used eq.symm
  refine ⟨?_, ?_, ?_⟩
  · refine pids_clear pids slot ?_ used passed rfl rfl
      (x := ⟨(s.slot q).pid, (s.slot p).pid, addr⟩) rfl ?_ root (update_know K Know.newpid newpid) ?_
    · simp [Kernel.setHist, Kernel.freeproc, Kernel.setParent, Kernel.setSlot, Slot.clear]
    · intro r
      simp only [Kernel.setHist, History.addReaped, List.mem_append, List.mem_singleton, dead, true_and]
    intro r now
    rcases busy_update now with prev | rfl
    · exact pids.busy r prev
    · exact live
  · refine ⟨?_, ?_, returns.paid_once, ?_, ?_, ?_, returns.stored, ?_, ?_⟩
    · simp only [Kernel.setHist, History.addReaped, List.map_append, List.map_cons, List.map_nil]
      refine List.nodup_append.mpr ⟨returns.once, List.nodup_singleton _, ?_⟩
      intro number mem number' last eq
      obtain ⟨r, prev, rfl⟩ := List.mem_map.mp mem
      rw [List.mem_singleton.mp last] at eq
      exact fresh r prev eq
    · intro number mem
      obtain ⟨r, prev, eq⟩ := returns.paid number mem
      exact ⟨r, List.mem_append_left _ prev, eq⟩
    · intro r number now
      by_cases acting : r = p
      · rw [acting, update_self, owed] at now
        rw [acting]
        obtain rfl : (s.slot q).pid = number := Option.some.inj now
        refine ⟨?_, ⟨_, _, addr⟩, List.mem_append_right _ (List.mem_singleton_self _), rfl, ?_⟩
        · intro paid
          obtain ⟨r', mem, eq⟩ := returns.paid _ paid
          exact fresh r' mem eq
        · exact (congrArg Slot.pid (slot p (other_of_live live passed))).symm
      rw [update_of_ne acting] at now
      obtain ⟨unpaid, r', mem, eq, waiter⟩ := returns.owed r number now
      have alive := pids.busy r (.inr (.inr (.inr (.inl (by rw [now]; simp)))))
      refine ⟨unpaid, r', List.mem_append_left _ mem, eq, waiter.trans ?_⟩
      exact (congrArg Slot.pid (slot r (other_of_live alive passed))).symm
    · -- the freed pid was not owed before
      have unowed : ∀ r, (K r).owed ≠ some (s.slot q).pid := by
        intro r now
        obtain ⟨-, r', mem, eq, -⟩ := returns.owed r _ now
        exact fresh r' mem eq
      refine unique_update (f := Know.owed) returns.owed_one ?_
      intro r number now prev
      rw [← now, owed] at prev
      exact unowed r prev
    · intro r mem
      rcases List.mem_append.mp mem with prev | last
      · rcases returns.due r prev with paid | ⟨p', owes⟩
        · exact .inl paid
        refine .inr ⟨p', ?_⟩
        rw [update_of_ne]
        · exact owes
        rintro rfl
        cases empty.symm.trans owes
      refine .inr ⟨p, ?_⟩
      rw [update_self, List.mem_singleton.mp last]
      exact owed
    · intro r addr' now
      have acting : r ≠ p := by
        rintro rfl
        rw [update_self, cleared] at now
        cases now
      rw [update_of_ne acting] at now ⊢
      obtain ⟨q', number, seen, mem⟩ := returns.copied r addr' now
      have other : q' ≠ q := by
        rintro rfl
        exact acting (Option.some.inj ((kin r q' number seen).symm.trans of))
      have alive := pids.busy r (.inr (.inr (.inl (by rw [seen]; simp))))
      refine ⟨q', number, seen, ?_⟩
      rw [← slot r (other_of_live alive passed), ← slot q' other] at mem
      exact mem
    intro r mem set
    rcases List.mem_append.mp mem with prev | last
    · exact returns.told r prev set
    rw [List.mem_singleton.mp last] at set ⊢
    obtain ⟨q', number, seen, stored⟩ := returns.copied p addr (copied set)
    rw [found] at seen
    obtain ⟨rfl, rfl⟩ := Prod.mk.inj (Option.some.inj seen)
    exact ⟨_, stored⟩
  have parent : ∀ r r', (s.freeproc q).parent r = some r' → r ≠ q ∧ s.parent r = some r' := by
    intro r r' now
    have other : r ≠ q := by
      rintro rfl
      simp [Kernel.freeproc, Kernel.setParent] at now
    exact ⟨other, (update_of_ne other _ _).symm.trans now⟩
  refine ⟨?_, ?_, ?_⟩
  · intro r r' now
    have alive := lineage.live r r' (parent r r' now).2
    rw [← slot r' (other_of_live alive passed)] at alive
    exact alive
  · intro r r' now
    obtain ⟨other, prev⟩ := parent r r' now
    have alive := lineage.live r r' prev
    obtain ⟨number, made, how⟩ := lineage.creator r r' prev
    refine ⟨number, (congrArg s.hist.creator (congrArg Slot.pid (slot r other))).trans made, ?_⟩
    rcases how with mine | ⟨eq, exited | ⟨p', leaves, number'⟩⟩
    · exact .inl (mine.trans (congrArg Slot.pid (slot r' (other_of_live alive passed))).symm)
    · exact .inr ⟨eq, .inl exited⟩
    have alive' := pids.busy p' (.inr (.inr (.inr (.inr leaves))))
    exact .inr ⟨eq, .inr ⟨p', (update_know K Know.leaving leaving p').trans leaves,
      (congrArg Slot.pid (slot p' (other_of_live alive' passed))).trans number'⟩⟩
  intro r mem
  rcases List.mem_append.mp mem with prev | last
  · exact lineage.waiter r prev
  rw [List.mem_singleton.mp last]
  obtain ⟨number, made, how⟩ := lineage.creator q p of
  refine ⟨number, made, ?_⟩
  rcases how with mine | ⟨rfl, exited | ⟨p', leaves, -⟩⟩
  · exact .inl mine
  · exact .inr ⟨pids.first, exited⟩
  rw [staying rfl p'] at leaves
  cases leaves

theorem records_waitReturn {r : Option Nat} (owes : (K p).owed = r) (newpid : k.newpid = (K p).newpid)
    (child : k.child = (K p).child) (seen : k.found = (K p).found) (copied : k.copied = (K p).copied)
    (leaving : k.leaving = (K p).leaving) (owed : k.owed = none) :
    Records init (s.setHist (s.hist.addReturned r)) (update K p k) := by
  obtain ⟨pids, returns, lineage⟩ := records
  refine ⟨?_, ?_, ?_⟩
  · refine pids_same pids rfl rfl rfl (sameKind_slot rfl) (update_know K Know.newpid newpid) ?_
    intro p' now
    left
    by_cases acting : p' = p
    · rw [acting, update_self] at now
      rw [acting]
      unfold Busy at now ⊢
      rw [newpid, child, seen, leaving, owed] at now
      rcases now with first | snd | third | fourth | fifth
      · exact .inl first
      · exact .inr (.inl snd)
      · exact .inr (.inr (.inl third))
      · exact absurd rfl fourth
      · exact .inr (.inr (.inr (.inr fifth)))
    rw [update_of_ne acting] at now
    exact now
  · have others : ∀ p' number, (update K p k p').owed = some number → p' ≠ p ∧ (K p').owed = some number := by
      intro p' number now
      have acting : p' ≠ p := by
        rintro rfl
        rw [update_self, owed] at now
        cases now
      rw [update_of_ne acting] at now
      exact ⟨acting, now⟩
    refine ⟨returns.once, ?_, ?_, ?_, ?_, ?_, returns.stored, ?_, returns.told⟩
    · intro number mem
      rcases List.mem_append.mp mem with prev | last
      · exact returns.paid number prev
      obtain ⟨-, r', reaped, eq, -⟩ := returns.owed p number (owes.trans (Option.mem_toList.mp last))
      exact ⟨r', reaped, eq⟩
    · cases r with
      | none => simpa [Kernel.setHist, History.addReturned] using returns.paid_once
      | some number =>
        refine List.nodup_append.mpr ⟨returns.paid_once, List.nodup_singleton _, ?_⟩
        intro first prev snd last eq
        rw [List.mem_singleton.mp last] at eq
        rw [eq] at prev
        exact (returns.owed p number owes).1 prev
    · intro p' number now
      obtain ⟨acting, prev⟩ := others p' number now
      obtain ⟨unpaid, rest⟩ := returns.owed p' number prev
      refine ⟨?_, rest⟩
      intro mem
      rcases List.mem_append.mp mem with paid | last
      · exact unpaid paid
      · exact acting (returns.owed_one p' p number prev (owes.trans (Option.mem_toList.mp last)))
    · intro p' p'' number first snd
      exact returns.owed_one p' p'' number (others p' number first).2 (others p'' number snd).2
    · intro r' mem
      rcases returns.due r' mem with paid | ⟨p', owes'⟩
      · exact .inl (List.mem_append_left _ paid)
      by_cases acting : p' = p
      · rw [acting, owes] at owes'
        refine .inl (List.mem_append_right _ ?_)
        rw [owes']
        exact List.mem_singleton_self _
      refine .inr ⟨p', ?_⟩
      rw [update_of_ne acting]
      exact owes'
    intro p' addr now
    rw [update_know K Know.copied copied] at now
    obtain ⟨q', number, found, mem⟩ := returns.copied p' addr now
    exact ⟨q', number, (update_know K Know.found seen p').trans found, mem⟩
  · exact lineage_still lineage rfl rfl rfl rfl rfl leaving

theorem records_learn (hist : s'.hist = s.hist) (nextpid : s'.nextpid = s.nextpid) (parent : s'.parent = s.parent)
    (slots : SameKind s s')
    (newpid : k.newpid = (K p).newpid) (owed : k.owed = (K p).owed) (leaving : k.leaving = (K p).leaving)
    (copied : ∀ addr, k.copied = some addr → (K p).copied = some addr ∧ k.found = (K p).found)
    (busy : Busy k → Busy (K p) ∨ Live (s.slot p).state) : Records init s' (update K p k) := by
  refine records_same records hist nextpid parent slots (update_know K Know.newpid newpid)
    (update_know K Know.owed owed) (update_know K Know.leaving leaving) ?_ ?_
  · intro r addr now
    by_cases acting : r = p
    · rw [acting, update_self] at now ⊢
      exact copied addr now
    rw [update_of_ne acting] at now ⊢
    exact ⟨now, rfl⟩
  intro r now
  by_cases acting : r = p
  · rw [acting, update_self] at now
    rw [acting]
    exact busy now
  rw [update_of_ne acting] at now
  exact .inl now

theorem records_still (hist : s'.hist = s.hist) (nextpid : s'.nextpid = s.nextpid)
    (parent : s'.parent = s.parent) (slot : s'.slot = s.slot) (newpid : k.newpid = (K p).newpid)
    (alike : Alike (K p) k) (busy : Busy k → Busy (K p) ∨ Live (s.slot p).state) : Records init s' (update K p k) :=
  records_learn records hist nextpid parent (sameKind_slot slot) newpid alike.owed alike.leaving
    (fun _ now => ⟨alike.copied.symm.trans now, alike.found⟩) busy

end

theorem slots_kind {x : Slot n W} (pid : x.pid = (s.slot q).pid)
    (xstate : x.xstate = (s.slot q).xstate) (state : x.state = (s.slot q).state ∨
      (s.slot q).state ≠ .unused ∧ (s.slot q).state ≠ .zombie ∧ Live x.state) : SameKind s (s.setSlot q x) := by
  intro r
  simp only [Kernel.setSlot]
  by_cases same : r = q
  · rw [same, update_self]
    exact ⟨pid, xstate, state⟩
  rw [update_of_ne same]
  exact ⟨rfl, rfl, .inl rfl⟩

end

section
variable {n m : Nat} {X Y W : Type} [DecidableEq W] {s s' : Kernel n m X W}
  {l : Thread n m → Ledger n X Y W} {c : Fin m} {t : Thread n m} {p q : Fin n} {h : Ledger n X Y W}
  {lk : Lk n} {init : Fin n} {E : Ext n X Y W} {o : Op n X Y W} {a : Ans o}

def knows (l : Thread n m → Ledger n X Y W) (p : Fin n) : Know n := (l (.proc p)).know

theorem knows_proc : knows (update l (.proc p) h) = update (knows l) p h.know := by
  funext r
  unfold knows
  by_cases acting : r = p
  · rw [acting, update_self, update_self]
  · rw [update_of_ne acting, update_of_ne fun eq => acting (Thread.proc.inj eq)]

theorem knows_sched {d : Fin m} : knows (update l (.sched d) h) = knows l := by
  funext r
  unfold knows
  rw [update_of_ne (show (.proc r : Thread n m) ≠ .sched d from nofun)]

theorem slots_wakeIf (s : Kernel n m X W) (q : Fin n) (w : Option (Chan n W)) : SameKind s (s.wakeIf q w) := by
  unfold Kernel.wakeIf
  split
  · rename_i asleep
    refine slots_kind rfl rfl (.inr ?_)
    rw [asleep.1]
    exact ⟨nofun, nofun, nofun, nofun, nofun⟩
  · exact sameKind_slot rfl

theorem records_sched (records : Records init s (knows l)) {d : Fin m}
    (ok : allowsSched (l (.sched d)) o) (done : nextSched c o s = some (a, s')) : Records init s' (knows l) := by
  have same : ∀ s₁ : Kernel n m X W, s₁.hist = s.hist → s₁.nextpid = s.nextpid → s₁.parent = s.parent →
      SameKind s s₁ → Records init s₁ (knows l) := by
    intro s₁ hist nextpid parent slots
    exact records_same records hist nextpid parent slots (fun _ => rfl) (fun _ => rfl) (fun _ => rfl)
      (fun _ _ now => ⟨now, rfl⟩) fun _ => .inl
  cases o with
  | acquire lk =>
    obtain ⟨-, rfl⟩ := acquire_done done
    exact same _ rfl rfl rfl (sameKind_slot rfl)
  | release lk =>
    obtain rfl := release_done done
    exact same _ rfl rfl rfl (sameKind_slot rfl)
  | pick q =>
    obtain ⟨state, -, rfl⟩ | ⟨-, rfl⟩ := test_done done
    · refine same _ rfl rfl rfl (slots_kind rfl rfl ?_)
      right
      rw [state]
      exact ⟨nofun, nofun, nofun, nofun, nofun⟩
    · exact same _ rfl rfl rfl (sameKind_slot rfl)
  | wakeIf q w =>
    cases done
    refine same _ ?_ ?_ (wakeIf_rest s q w).2.1 (slots_wakeIf s q w)
    all_goals
      unfold Kernel.wakeIf
      split
      · rfl
      · rfl
  | setProc q | save | loadProc q | woke w =>
    cases done
    exact same _ rfl rfl rfl (sameKind_slot rfl)
  | _ => cases ok

structure Sights (init : Fin n) (s : Kernel n m X W) (K : Fin n → Know n) : Prop where
  found : ∀ p q k, (K p).found = some (q, k) → (s.slot q).state = .zombie ∧ (s.slot q).pid = k ∧
    s.parent q = some p
  root : Live (s.slot init).state

theorem sights_of (family : Family init s l) : Sights init s (knows l) := by
  refine ⟨?_, family.alive⟩
  intro p q k found
  obtain ⟨-, -, -, dead, pid, of⟩ := (family.known p).found q k found
  exact ⟨dead, pid, of⟩

theorem drop_busy (k : Ledger n X Y W) (lk : Lk n) : (Busy (k.drop lk).know → Busy k.know) ∧
    (∀ addr, (k.drop lk).know.copied = some addr → k.know.copied = some addr ∧ (k.drop lk).know.found = k.know.found) ∧
    (k.drop lk).know.leaving = k.know.leaving := by
  cases lk with
  | proc r | wait =>
    refine ⟨?_, nofun, rfl⟩
    rintro (first | snd | third | rest)
    · exact .inl first
    · exact .inr (.inl snd)
    · exact absurd rfl third
    · exact .inr (.inr (.inr rest))
  | pid | ext | other j => exact ⟨id, fun _ now => ⟨now, rfl⟩, rfl⟩

theorem records_proc (cpus : Cpus s l) (family : Family init s l) (tidy : ∀ p, Tidy init (some p) (l (.proc p)))
    (records : Records init s (knows l)) (here : s.cur c = .proc p)
    (ok : allowsProc E init p (l (.proc p)) o) (done : nextProc init c p o s = some (a, s')) :
    Records init s' (update (knows l) p (book E init (some p) (l (.proc p)) o a).know) := by
  have known := family.known p
  have sights := sights_of family
  have live : (l (.proc p)).mode = .run → Live (s.slot p).state := by
    intro run
    rw [state_run cpus here run]
    exact ⟨nofun, nofun, nofun⟩
  cases o with
  | acquire lk =>
    obtain ⟨-, rfl⟩ := acquire_done done
    exact records_still records rfl rfl rfl rfl rfl ⟨rfl, rfl, rfl, rfl⟩ .inl
  | release lk =>
    obtain rfl := release_done done
    obtain ⟨-, -, -, -, -, -, -, -, newpid, owed⟩ := drop_know (l (.proc p)) lk
    obtain ⟨busy, copied, leaving⟩ := drop_busy (l (.proc p)) lk
    rw [(book_release_know E init (some p) (l (.proc p)) lk).1]
    exact records_learn records rfl rfl rfl (sameKind_slot rfl) newpid owed leaving copied fun now => .inl (busy now)
  | sleepRelease w lk =>
    obtain rfl := release_done done
    obtain ⟨-, -, -, -, -, -, -, -, newpid, owed⟩ := drop_know (l (.proc p)) lk
    obtain ⟨busy, copied, leaving⟩ := drop_busy (l (.proc p)) lk
    exact records_learn records rfl rfl rfl (sameKind_slot rfl) newpid owed leaving copied fun now => .inl (busy now)
  | schedCheck =>
    obtain ⟨-, rfl⟩ := check_done done
    exact records_still records rfl rfl rfl rfl rfl ⟨rfl, rfl, rfl, rfl⟩ .inl
  | checkInit =>
    obtain ⟨-, rfl⟩ := refuse_done done
    exact records_still records rfl rfl rfl rfl rfl ⟨rfl, rfl, rfl, rfl⟩ .inl
  | goSleep w | giveUp =>
    have alive := live ok.1
    cases done
    exact records_learn records rfl rfl rfl (slots_kind rfl rfl
      (.inr ⟨alive.1, alive.2.2, nofun, nofun, nofun⟩)) rfl rfl rfl (fun _ now => ⟨now, rfl⟩) .inl
  | clearChan =>
    cases done
    exact records_learn records rfl rfl rfl (slots_kind rfl rfl (.inl rfl)) rfl rfl rfl
      (fun _ now => ⟨now, rfl⟩) .inl
  | wakeIf q w =>
    cases done
    refine records_learn records ?_ ?_ (wakeIf_rest s q w).2.1 (slots_wakeIf s q w) rfl rfl rfl
      (fun _ now => ⟨now, rfl⟩) .inl
    all_goals
      unfold Kernel.wakeIf
      split
      · rfl
      · rfl
  | killIf q pid =>
    obtain ⟨-, -, rfl⟩ | ⟨-, rfl⟩ := test_done done
    · refine records_learn records rfl rfl rfl (slots_kind rfl rfl ?_) rfl rfl rfl
        (fun _ now => ⟨now, rfl⟩) .inl
      refine (kill_state (s.slot q)).imp_right fun ⟨asleep, up⟩ => ?_
      rw [asleep, up]
      exact ⟨nofun, nofun, nofun, nofun, nofun⟩
    · exact records_still records rfl rfl rfl rfl rfl ⟨rfl, rfl, rfl, rfl⟩ .inl
  | isUnused q =>
    obtain ⟨-, rfl⟩ := Prod.mk.inj (Option.some.inj done)
    cases a with
    | false | true => exact records_still records rfl rfl rfl rfl rfl ⟨rfl, rfl, rfl, rfl⟩ .inl
  | takePid =>
    cases done
    exact records_takePid records (live ok.1) rfl ⟨rfl, rfl, rfl, rfl⟩
  | setUsed q pid =>
    obtain ⟨-, vacant, newpid, -⟩ := ok
    have unused := (known.vacant q vacant).2.2
    cases done
    exact records_setUsed records unused (family.orphan q unused) newpid (fun p q k seen =>
      (sights.found p q k seen).1) rfl ⟨rfl, rfl, rfl, rfl⟩ sights.root
  | freeproc q =>
    obtain ⟨-, -, child, fresh⟩ := ok
    obtain ⟨-, used, orphan, -⟩ := known.child q child
    cases done
    exact records_freeproc records used (orphan fresh) (fun p q k seen => (sights.found p q k seen).1) rfl
      ⟨rfl, rfl, rfl, rfl⟩ (.inr (.inl (by rw [show (knows l p).child = some q from child]; nofun)))
      sights.root
  | adopt q =>
    obtain ⟨-, -, child, -⟩ := ok
    obtain ⟨-, used, -⟩ := known.child q child
    cases done
    exact records_adopt records used child family.orphan rfl ⟨rfl, rfl, rfl, rfl⟩
  | setRunnable q =>
    obtain ⟨-, -, child, -⟩ := ok
    obtain ⟨-, used, -⟩ := known.child q child
    cases done
    refine records_learn records rfl rfl rfl (slots_kind rfl rfl (.inr ?_)) rfl rfl rfl
      (fun _ now => ⟨now, rfl⟩) ?_
    · rw [used]
      exact ⟨nofun, nofun, nofun, nofun, nofun⟩
    · exact fun _ => .inl (.inr (.inl (by rw [show (knows l p).child = some q from child]; nofun)))
  | parent q =>
    cases done
    simp only [book]
    split
    all_goals
      split
      · exact records_still records rfl rfl rfl rfl rfl ⟨rfl, rfl, rfl, rfl⟩ .inl
      · exact records_still records rfl rfl rfl rfl rfl ⟨rfl, rfl, rfl, rfl⟩ .inl
  | passOn q =>
    obtain ⟨root, run, -, kid, -⟩ := ok
    cases done
    exact records_passOn records (live run) sights.root root (known.kid q kid).2 rfl rfl rfl rfl
  | setZombie status =>
    obtain ⟨-, -, run, -, -, -, child, newpid, owed, found, strange, -⟩ := ok
    cases done
    refine records_exit records (live run) status (fun q => (known.strange q (strange q)).2)
      (fun p q k seen => (sights.found p q k seen).1) rfl rfl rfl rfl ?_
    rintro (first | second | third | fourth | fifth)
    · exact first newpid
    · exact second child
    · exact third found
    · exact fourth owed
    · cases fifth
  | zombie q =>
    obtain ⟨run, -⟩ := ok
    obtain ⟨-, rfl⟩ := Prod.mk.inj (Option.some.inj done)
    cases a with
    | none => exact records_still records rfl rfl rfl rfl rfl ⟨rfl, rfl, rfl, rfl⟩ .inl
    | some pid => exact records_learn records rfl rfl rfl (sameKind_slot rfl) rfl rfl rfl (by rintro _ ⟨⟩) fun _ => .inr (live run)
  | copyout q addr =>
    obtain ⟨pid, found⟩ := ok
    obtain ⟨dead, num, -⟩ := sights.found p q pid found
    cases done
    exact records_copyout records found dead num rfl rfl rfl rfl rfl
  | reap q addr =>
    obtain ⟨-, empty, copied, pid, found⟩ := ok
    obtain ⟨dead, rfl, of⟩ := sights.found p q pid found
    have wait := (known.found q _ found).2.1
    cases done
    refine records_reap records found dead of empty copied (fun p q k seen => (sights.found p q k seen).2.2) ?_
      sights.root rfl ?_ rfl rfl
    · -- who passes children on has wait_lock
      rintro rfl p'
      by_contra leaving
      obtain ⟨holds, root⟩ := (tidy p').leaving (Bool.eq_true_of_not_eq_false leaving)
      refine not_mine cpus here ?_ holds (by simp) wait
      intro eq
      exact root (congrArg some (Thread.proc.inj eq).symm)
    change (l (.proc p)).know.found.map Prod.snd = _
    rw [found]
    rfl
  | waitReturn r =>
    cases done
    exact records_waitReturn records ok rfl rfl rfl rfl rfl rfl
  | save | loadSched | killed | pid | woke w | clearThread q | youAThread | get | put x y | stamp f y =>
    cases done
    exact records_still records rfl rfl rfl rfl rfl ⟨rfl, rfl, rfl, rfl⟩ .inl
  | never => cases done
  | pick q | setProc q | loadProc q => cases ok

theorem records_step (cpus : Cpus s l) (family : Family init s l) (tidy : ∀ t : Thread n m, Tidy init t.me (l t))
    (records : Records init s (knows l)) (here : s.cur c = t) (ok : allows E init t o (l t))
    (done : next init c t o s = some (a, s')) : Records init s' (knows (update l t (book E init t.me (l t) o a))) := by
  cases t with
  | sched d =>
    rw [knows_sched]
    exact records_sched records ok done
  | proc p =>
    rw [knows_proc]
    exact records_proc cpus family (fun p => tidy (.proc p)) records here ok done

end

end Xv6Kern
