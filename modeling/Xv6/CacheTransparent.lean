import Xv6.LogCacheInv

/- bread returns what the last holder left. -/
namespace Xv6Store
open Xv6 Xv6Bio Threads Prog Function

section
variable {T D : Type} [Fintype T] [DecidableEq T] {area : Area} {s : Store T D} {l : T → Ledger} {t : T}

theorem inv_copied {h : Ledger} (inv : Inv area s (update l t h)) (n : Nat) :
    Inv area s (update l t (h.setCopied n)) := by
  have same := inv_log (t := t) (h := h.setCopied n) inv s rfl rfl rfl rfl (by simp [Ledger.setCopied])
    (by simp [Ledger.setCopied]) (by simp [Ledger.setCopied])
    (transactions_same inv.transactions s rfl rfl rfl rfl (by simp [Ledger.setCopied])
      (by simp [Ledger.setCopied]) (by simp [Ledger.setCopied]))
  rwa [update_idem] at same

omit [Fintype T] [DecidableEq T] in
theorem setBuf_self (s : Store T D) (b : Buf) : s.setBuf b (s.buf b) = s := by
  have same : update s.cache.buf b (s.cache.buf b) = s.cache.buf := update_eq_self b _
  simp only [Store.setBuf, Store.setCache, Cache.setBuf, Store.buf, same]

theorem store_sound (dev : area.dev ≠ 0) : Threads.Sound (storeRules (T := T) (D := D) area) free (Inv area) := by
  intro s l t o a s' inv _ ok done
  cases o with
  | bget dev n =>
    obtain ⟨calm, rfl⟩ := ok
    obtain ⟨⟨b, cache⟩, found, made⟩ := Option.map_eq_some_iff.mp done
    cases made
    exact ⟨trivial, inv_bget inv calm found⟩
  | acquiresleep b =>
    obtain ⟨n, wait⟩ := ok
    simp only [storeRules, next] at done
    split at done
    · rename_i free
      cases done
      simp only [storeRules, fits, book, wait]
      exact inv_acquiresleep inv wait (Option.isNone_iff_eq_none.mp free)
    · cases done
  | readIn b =>
    obtain ⟨use, mine⟩ := Option.ne_none_iff_exists'.mp ok
    refine ⟨trivial, ?_⟩
    simp only [storeRules, book, mine, Option.map_some]
    have read := inv_readIn inv dev mine rfl
    simp only [storeRules, next] at done
    split at done
    · rename_i valid
      cases done
      rw [if_pos valid, setBuf_self] at read
      exact read
    rename_i invalid
    cases done
    rw [if_neg invalid] at read
    exact read
  | modify b f =>
    obtain ⟨use, mine, ready⟩ := ok
    cases done
    refine ⟨trivial, ?_⟩
    simp only [storeRules, book, mine, Option.map_some]
    exact inv_give inv dev mine ready _
  | toLog tail dst src =>
    obtain ⟨-, -, lh, n, -, -, -, use, mine, ready, -⟩ := ok
    cases done
    refine ⟨trivial, ?_⟩
    simp only [storeRules, book, mine, Option.map_some]
    exact inv_copied (inv_give inv dev mine ready _) _
  | toHome tail dst src =>
    obtain ⟨-, -, lh, n, -, -, ⟨use, mine, ready, -⟩, -⟩ := ok
    cases done
    refine ⟨trivial, ?_⟩
    simp only [storeRules, book, mine, Option.map_some]
    exact inv_give inv dev mine ready _
  | bwrite b =>
    obtain ⟨use, mine, ready⟩ := ok
    simp only [storeRules, next] at done
    split at done
    · cases done
      refine ⟨trivial, ?_⟩
      simp only [storeRules, book, mine, Option.map_some]
      exact inv_bwrite inv dev mine ready
    · cases done
  | releasesleep b =>
    obtain ⟨calm, use, mine, clean⟩ := ok
    simp only [storeRules, next] at done
    split at done
    · cases done
      exact ⟨trivial, inv_releasesleep inv calm mine clean⟩
    · cases done
  | brelse b =>
    cases done
    exact ⟨trivial, inv_brelse inv ok⟩
  | bunpin b =>
    obtain ⟨i, lh, use, stage, known, mine, -, home, block⟩ := ok
    cases done
    refine ⟨trivial, ?_⟩
    simp only [storeRules, book, stage, Option.map_some]
    exact inv_bunpin inv dev stage known mine home block
  | logWrite b =>
    obtain ⟨use, mine, ready⟩ := ok
    simp only [storeRules, next] at done
    split at done
    · cases done
    rename_i room
    split at done
    · cases done
    rename_i inside
    refine ⟨trivial, ?_⟩
    simp only [storeRules, book, mine, Option.map_some]
    apply inv_logWrite inv dev mine ready inside (by omega)
    split at done
    · rename_i listed
      cases done
      exact .inl ⟨listed, rfl⟩
    rename_i absent
    cases done
    exact .inr ⟨absent, rfl⟩
  | beginOp =>
    simp only [storeRules, next] at done
    split at done
    · cases done
    rename_i calm
    cases done
    exact ⟨trivial, inv_beginOp inv (by simpa using fun busy => calm (.inl busy))⟩
  | endOp =>
    obtain ⟨mine, -⟩ := ok
    simp only [storeRules, next] at done
    split at done
    · cases done
    rename_i calm
    have calm : s.committing = false := by simpa using calm
    split at done
    · rename_i last
      cases done
      exact ⟨trivial, inv_startCommit inv calm mine last⟩
    cases done
    exact ⟨trivial, inv_leaveOp inv calm mine⟩
  | endCommit =>
    cases done
    exact ⟨trivial, inv_endCommit inv ok⟩
  | getLh =>
    obtain ⟨i, stage⟩ := Option.ne_none_iff_exists'.mp ok
    cases done
    refine ⟨⟨inv.transactions.short, ?_⟩, inv_getLh inv stage⟩
    exact (inv.transactions.commit t i stage).2.2
  | clearLh =>
    obtain ⟨lh, known, stage⟩ := ok
    cases done
    exact ⟨trivial, inv_clearLh inv known stage⟩

end

/- The programs, from the ledger of the process that runs them. -/

section
variable {T D : Type} [DecidableEq T] {area : Area} {t : T} {l : Ledger}
variable {A : Type} {post : A → Ledger → Prop} {lh : List Nat}

def Calm (l : Ledger) : Prop := l.wait = none ∧ l.free = none

structure Rest (l : Ledger) : Prop where
  calm : Calm l
  idle : l.commit = none
  ready : ∀ b use, l.held b = some use → use.ready = true

theorem wp_bread {f : Buf → P D A} {n : Nat} (calm : Calm l)
    (next : ∀ b, l.held b = none → storeWp D area t (f b) (l.setHeld b (some ⟨n, true, false, false⟩)) post) :
    storeWp D area t (bread area.dev n >>= f) l post := by
  refine wp_bind.mpr ?_
  refine wp_op ⟨calm.1, rfl⟩ ?_
  intro b _
  refine wp_op ⟨n, rfl⟩ ?_
  intro _ free
  refine wp_op ?_ ?_
  · simp [storeRules, allows, book, Ledger.setWait, Ledger.setHeld]
  intro _ _
  have wait := calm.1
  have taken := next b free
  simp only [Ledger.setHeld] at taken
  refine wp_pure ?_
  simpa [storeWp, storeRules, book, Ledger.setWait, Ledger.setHeld, wait] using taken

theorem wp_brelse {f : Unit → P D A} {b : Buf} (use : Use) (calm : Calm l) (mine : l.held b = some use)
    (clean : use.dirty = false) (next : storeWp D area t (f ()) (l.setHeld b none) post) :
    storeWp D area t (brelse b >>= f) l post := by
  refine wp_bind.mpr ?_
  refine wp_op ⟨calm.2, use, mine, clean⟩ ?_
  intro _ _
  refine wp_perform rfl ?_
  intro _ _
  have free := calm.2
  simpa [storeWp, storeRules, book, Ledger.setFree, Ledger.setHeld, free] using next

theorem wp_ledger {p : P D A} {m : Ledger} (same : l = m) (next : storeWp D area t p m post) :
    storeWp D area t p l post := by
  rw [same]
  exact next

theorem second_buf {b b' : Buf} {use : Use} (free : (l.setHeld b (some use)).held b' = none) :
    b' ≠ b ∧ l.held b' = none := by
  by_cases same : b' = b
  · rw [same] at free
    simp [Ledger.setHeld] at free
  · exact ⟨same, by simpa [Ledger.setHeld, same] using free⟩

theorem held_back {b b' : Buf} (free : l.held b = none) (free' : l.held b' = none) {held : Buf → Option Use}
    (rest : ∀ c, c ≠ b → c ≠ b' → held c = l.held c) : update (update held b none) b' none = l.held := by
  funext c
  by_cases snd : c = b'
  · rw [snd, update_self, free']
  by_cases first : c = b
  · rw [update_of_ne snd, first, update_self, free]
  · rw [update_of_ne snd, update_of_ne first, rest c first snd]

theorem wp_getLh {f : List Nat → P D A} (stage : l.commit ≠ none) (known : l.lh = some lh)
    (next : storeWp D area t (f lh) l post) : storeWp D area t (act .getLh >>= f) l post := by
  apply wp_op stage
  intro found fits
  obtain rfl := fits.2 lh known
  have same : l.setLh (some found) = l := by
    rw [← known]
    rfl
  rw [show (storeRules (T := T) (D := D) area).book t .getLh l found = l from same]
  exact next

theorem wp_writeLogFrom (fuel tail : Nat) (calm : Calm l) (stage : l.commit ≠ none) (known : l.lh = some lh)
    (copied : l.copied = tail) (lt : tail ≤ lh.length) (enough : lh.length < fuel + tail) :
    storeWp D area t (writeLogFrom area fuel tail) l fun _ m => m = l.setCopied lh.length := by
  induction fuel generalizing l tail with
  | zero => omega
  | succ fuel ih =>
    refine wp_getLh stage known ?_
    cases block : lh[tail]? with
    | none =>
      have past := List.getElem?_eq_none_iff.mp block
      refine wp_pure ?_
      rw [show lh.length = l.copied by omega]
      rfl
    | some n =>
      have more := (List.getElem?_eq_some_iff.mp block).1
      refine wp_bread calm ?_
      intro dst free
      refine wp_bread calm ?_
      intro src free'
      obtain ⟨apart, freeSrc⟩ := second_buf free'
      refine wp_op ⟨copied.symm, stage, lh, n, known, block, ⟨_, update_self .., rfl, rfl⟩,
        ⟨⟨area.start + tail + 1, true, false, false⟩, by simp [Ledger.setHeld, apart.symm], rfl, rfl⟩⟩ ?_
      intro _ _
      refine wp_op ⟨⟨area.start + tail + 1, true, true, false⟩,
        by simp [storeRules, book, Ledger.setHeld, Ledger.setCopied, apart.symm], rfl⟩ ?_
      intro _ _
      refine wp_brelse ⟨n, true, false, false⟩ calm
        (by simp [storeRules, book, Ledger.setHeld, Ledger.setCopied, apart]) rfl ?_
      refine wp_brelse ⟨area.start + tail + 1, true, false, true⟩ calm
        (by simp [storeRules, book, Ledger.setHeld, Ledger.setCopied, apart.symm]) rfl ?_
      refine wp_ledger (m := l.setCopied (tail + 1)) ?_ ?_
      · ext1
        · rfl
        · rfl
        · apply held_back freeSrc free
          intro c notSrc notDst
          simp [storeRules, book, Ledger.setHeld, Ledger.setCopied, notSrc, notDst]
        · rfl
        · rfl
        · rfl
        · simp [storeRules, book, Ledger.setHeld, Ledger.setCopied, copied]
      exact ih (l := l.setCopied (tail + 1)) (tail + 1) calm stage known rfl more (by omega)

theorem wp_installTransFrom (fuel tail : Nat) (calm : Calm l) (stage : l.commit = some tail)
    (known : l.lh = some lh) (copied : l.copied = lh.length) (lt : tail ≤ lh.length)
    (enough : lh.length < fuel + tail) : storeWp D area t (installTransFrom area fuel tail) l fun _ m =>
      m = l.setCommit (some lh.length) := by
  induction fuel generalizing l tail with
  | zero => omega
  | succ fuel ih =>
    have committing : l.commit ≠ none := by simp [stage]
    refine wp_getLh committing known ?_
    cases block : lh[tail]? with
    | none =>
      have past := List.getElem?_eq_none_iff.mp block
      refine wp_pure ?_
      rw [show lh.length = tail by omega, ← stage]
      rfl
    | some n =>
      have more := (List.getElem?_eq_some_iff.mp block).1
      refine wp_bread calm ?_
      intro lbuf free
      refine wp_bread calm ?_
      intro dbuf free'
      obtain ⟨apart, freeHome⟩ := second_buf free'
      refine wp_op ⟨by rw [← copied] at more; exact more, committing, lh, n, known, block,
        ⟨_, update_self .., rfl, rfl⟩, ⟨⟨area.start + tail + 1, true, false, false⟩,
          by simp [Ledger.setHeld, apart.symm], rfl, rfl⟩⟩ ?_
      intro _ _
      refine wp_op ⟨⟨n, true, true, false⟩, by simp [storeRules, book, Ledger.setHeld], rfl⟩ ?_
      intro _ _
      refine wp_op ⟨tail, lh, ⟨n, true, false, true⟩, stage, known,
        by simp [storeRules, book, Ledger.setHeld], rfl, rfl, block⟩ ?_
      intro _ _
      refine wp_brelse ⟨area.start + tail + 1, true, false, false⟩ calm
        (by simp [storeRules, book, Ledger.setHeld, Ledger.setCommit, apart.symm]) rfl ?_
      refine wp_brelse ⟨n, true, false, true⟩ calm
        (by simp [storeRules, book, Ledger.setHeld, Ledger.setCommit, apart]) rfl ?_
      refine wp_ledger (m := l.setCommit (some (tail + 1))) ?_ ?_
      · ext1
        · rfl
        · rfl
        · apply held_back free freeHome
          intro c notLog notHome
          simp [storeRules, book, Ledger.setHeld, Ledger.setCommit, notLog, notHome]
        · rfl
        · simp [storeRules, book, Ledger.setHeld, Ledger.setCommit, stage]
        · rfl
        · rfl
      exact ih (l := l.setCommit (some (tail + 1))) (tail + 1) calm rfl known copied more (by omega)

theorem wp_writeHead {f : Unit → P D A} (putHead : List Nat → D → D) (calm : Calm l) (stage : l.commit ≠ none)
    (known : l.lh = some lh) (next : storeWp D area t (f ()) l post) :
    storeWp D area t (writeHead area putHead >>= f) l post := by
  refine wp_bind.mpr ?_
  refine wp_bread calm ?_
  intro b free
  refine wp_getLh stage known ?_
  refine wp_op ⟨_, update_self .., rfl⟩ ?_
  intro _ _
  refine wp_op ⟨⟨area.start, true, true, false⟩, by simp [storeRules, book, Ledger.setHeld], rfl⟩ ?_
  intro _ _
  have last : storeWp D area t (brelse b >>= fun _ => (pure () : P D Unit))
      (book (D := D) (book (l.setHeld b (some ⟨area.start, true, false, false⟩)) (.modify b (putHead lh)) ())
        (.bwrite b) ())
      fun _ m => storeWp D area t (f ()) m post := by
    refine wp_brelse ⟨area.start, true, false, true⟩ calm
      (by simp [book, Ledger.setHeld]) rfl ?_
    refine wp_pure (wp_ledger (m := l) ?_ next)
    ext1
    · rfl
    · rfl
    · simp [book, Ledger.setHeld, ← free]
    · rfl
    · rfl
    · rfl
    · rfl
  exact wp_mono (wp_bind.mp last) fun _ _ holds => holds

theorem wp_commit (putHead : List Nat → D → D) (calm : Calm l) (stage : l.commit = some 0)
    (copied : l.copied = 0) : storeWp D area t (commit area putHead) l fun _ m =>
      m.commit = some 0 ∧ m.held = l.held ∧ Calm m := by
  have committing : l.commit ≠ none := by simp [stage]
  refine wp_op committing ?_
  rintro lh ⟨short, -⟩
  by_cases some : 0 < (lh : List Nat).length
  · simp only [some, if_true]
    refine wp_seq (wp_writeLogFrom (l := l.setLh (.some lh)) (logSize + 1) 0 calm committing rfl copied
      (Nat.zero_le _) (by omega)) ?_
    rintro _ m rfl
    refine wp_writeHead putHead calm committing rfl ?_
    refine wp_seq (wp_installTransFrom (l := (l.setLh (.some lh)).setCopied (lh : List Nat).length)
      (logSize + 1) 0 calm stage rfl rfl (Nat.zero_le _) (by omega)) ?_
    rintro _ m rfl
    refine wp_op ⟨lh, rfl, rfl⟩ ?_
    intro _ _
    have last : storeWp D area t (writeHead area putHead >>= fun _ => pure ())
        (((((l.setLh (.some lh)).setCopied (lh : List Nat).length).setCommit
          (.some (lh : List Nat).length)).setCommit (.some 0)).setLh (.some []) |>.setCopied 0)
        fun (_ : Unit) m => m.commit = .some 0 ∧ m.held = l.held ∧ Calm m :=
      wp_writeHead putHead calm (by simp [Ledger.setCommit, Ledger.setLh, Ledger.setCopied]) rfl
        (wp_pure ⟨rfl, rfl, calm⟩)
    exact wp_mono (wp_bind.mp last) fun _ _ holds => holds
  simp only [some, if_false]
  exact wp_pure ⟨stage, rfl, calm⟩

theorem wp_endOp (putHead : List Nat → D → D) (rest : Rest l) (mine : 0 < l.ops) :
    storeWp D area t (endOp area putHead) l fun _ m => Rest m := by
  obtain ⟨calm, idle, ready⟩ := rest
  refine wp_op ⟨mine, idle⟩ ?_
  intro doCommit _
  cases doCommit with
  | true =>
    refine wp_seq (wp_commit (l := (((l.setOps (l.ops - 1)).setCommit (some 0)).setLh none).setCopied 0)
      putHead calm rfl rfl) ?_
    rintro _ m ⟨stage, held, calm'⟩
    refine wp_perform stage ?_
    intro _ _
    exact ⟨calm', rfl, fun b use there => ready b use (held ▸ there)⟩
  | false => exact wp_pure ⟨calm, idle, ready⟩

/-- Every call that obeys the interface rule, on the device of the log, ends at rest. -/
theorem wp_call (putHead : List Nat → D → D) (what : Call D) (rest : Rest l) (obeys : what.Obeys l)
    (device : what.OnDevice area.dev) : storeWp D area t (what.code area putHead) l fun _ m => Rest m := by
  obtain ⟨calm, idle, ready⟩ := rest
  have kept : ∀ (b : Buf) (use : Use), use.ready = true → Rest (l.setHeld b (some use)) := by
    intro b use good
    refine ⟨calm, idle, ?_⟩
    intro b' use' there
    rcases held_setHeld there with ⟨-, rfl⟩ | ⟨-, old⟩
    · exact good
    · exact ready b' use' old
  cases what with
  | bread dev n =>
    cases device
    refine wp_bread calm ?_
    exact fun b _ => wp_pure (kept b _ rfl)
  | modify b | logWrite b | bwrite b =>
    obtain ⟨use, mine⟩ := Option.ne_none_iff_exists'.mp obeys
    refine wp_perform ⟨use, mine, ready b use mine⟩ ?_
    intro _ _
    simp only [storeRules, book, mine, Option.map_some]
    exact kept b _ (ready b use mine)
  | brelse b =>
    obtain ⟨use, mine, clean⟩ := obeys
    have left : Rest (l.setHeld b none) := by
      refine ⟨calm, idle, ?_⟩
      intro b' use' there
      by_cases here : b' = b
      · rw [here] at there
        simp [Ledger.setHeld] at there
      · exact ready b' use' (by simpa [Ledger.setHeld, here] using there)
    have done : storeWp D area t (brelse b >>= fun _ => pure ()) l
        fun (_ : Unit) m => Rest m := wp_brelse use calm mine clean (wp_pure left)
    exact wp_mono (wp_bind.mp done) fun _ _ holds => holds
  | beginOp =>
    refine wp_perform trivial ?_
    exact fun _ _ => ⟨calm, idle, ready⟩
  | endOp => exact wp_endOp putHead ⟨calm, idle, ready⟩ obeys

end

end Xv6Store
