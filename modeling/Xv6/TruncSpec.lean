import Xv6.BmapSpec

/- What itrunc does: the bits of all blocks of the inode are cleared, then its addresses. -/
namespace Xv6Fs
open Xv6 Bytes Outcome Ownership Function

section
variable {sb : Superblock} {dns : Nat → Dinode} {d d' : Disk} {i : Nat}

theorem onlyMap_trans {d'' : Disk} (first : OnlyMap sb d d') (snd : OnlyMap sb d' d'') : OnlyMap sb d d'' := by
  intro c spared
  rw [snd c spared, first c spared]

theorem onlyMap_dinode (only : OnlyMap sb d d') {j : Nat} (lt : j < sb.ninodes) :
    getDinode sb d' j = getDinode sb d j := by
  have low := sb.iblock_lt lt
  rw [getDinode, getDinode, only]
  intro b _
  have := sb.bblock_le b
  omega

theorem withoutWords_nil (own : Nat × Slot → Option Nat) : withoutWords own i [] = own := by
  funext l
  simp [withoutWords]

theorem withoutWords_cons (own : Nat × Slot → Option Nat) (w : Fin nIndirect) (done : List Nat) :
    withoutWords own i (w.val :: done) = update (withoutWords own i done) (i, .word w) none := by
  funext l
  by_cases same : l = (i, .word w)
  · subst l
    simp [withoutWords]
  rw [update_of_ne same]
  unfold withoutWords
  have iff : (l.1 = i ∧ ∃ v : Fin nIndirect, v.val ∈ w.val :: done ∧ l.2 = .word v) ↔
      (l.1 = i ∧ ∃ v : Fin nIndirect, v.val ∈ done ∧ l.2 = .word v) := by
    constructor
    · rintro ⟨first, v, mem, snd⟩
      refine ⟨first, v, ?_, snd⟩
      rcases List.mem_cons.mp mem with eq | later
      · have vw : v = w := Fin.ext eq
        subst v
        exact absurd (Prod.ext first snd) same
      · exact later
    rintro ⟨first, v, mem, snd⟩
    exact ⟨first, v, List.mem_cons_of_mem _ mem, snd⟩
  simp only [iff]

theorem withoutWords_reverse (own : Nat × Slot → Option Nat) (done : List Nat) :
    withoutWords own i (done.reverse ++ []) = withoutWords own i done := by
  funext l
  simp [withoutWords]

structure WordsFreed (sb : Superblock) (dns : Nat → Dinode) (i : Nat) (d : Disk) (done : List Nat)
    (d' : Disk) : Prop where
  only : OnlyMap sb d d'
  reserved : ∀ b < sb.dataStart, bit sb d' b = true
  tracks : Tracks sb.Data (withoutWords (ownOf sb dns d) i done) (bit sb d')

theorem wordsFreed_step (owned : Owned sb dns d) (inside : i < sb.ninodes)
    (live : (dns i).type ≠ 0) (holder : (dns i).indirect ≠ 0) {w : Fin nIndirect} {done : List Nat}
    (fresh : w.val ∉ done) (freed : WordsFreed sb dns i d done d') :
    (word (d' (dns i).indirect) w = 0 → WordsFreed sb dns i d (w.val :: done) d') ∧
    (word (d' (dns i).indirect) w ≠ 0 → bit sb d' (word (d' (dns i).indirect) w) = true ∧
      WordsFreed sb dns i d (w.val :: done) (setFree sb d' (word (d' (dns i).indirect) w))) := by
  have kept : d' (dns i).indirect = d (dns i).indirect :=
    onlyMap_data freed.only (indirect_data owned inside live holder)
  have slot : slotOf d (dns i) (.word w) = word (d' (dns i).indirect) w := by
    rw [slotOf, if_neg holder, kept]
  have place : withoutWords (ownOf sb dns d) i done (i, .word w) = ownOf sb dns d (i, .word w) := by
    rw [withoutWords, if_neg]
    rintro ⟨_, v, mem, eq⟩
    cases eq
    exact fresh mem
  constructor
  · intro empty
    have none : ownOf sb dns d (i, .word w) = none := by
      rw [ownOf_eq_none inside live, slot, empty]
    refine ⟨freed.only, freed.reserved, ?_⟩
    have same : update (withoutWords (ownOf sb dns d) i done) (i, .word w) Option.none =
        withoutWords (ownOf sb dns d) i done := by
      rw [update_eq_self_iff, place, none]
    rw [withoutWords_cons, same]
    exact freed.tracks
  intro nz
  have held : withoutWords (ownOf sb dns d) i done (i, .word w) = some (word (d' (dns i).indirect) w) := by
    rw [place]
    exact ownOf_eq_some.mpr ⟨inside, live, nz, slot⟩
  have data := freed.tracks.inside _ _ held
  refine ⟨tracks_held freed.tracks held, onlyMap_setFree freed.only data.2, ?_, ?_⟩
  · intro b below
    have := data.1
    rw [bit_setFree, update_of_ne (by omega)]
    exact freed.reserved b below
  rw [withoutWords_cons, bit_setFree]
  exact tracks_detach freed.tracks held

theorem owned_fields {dn dn' : Dinode} (owned : Owned sb (update dns i dn) d) (type : dn'.type = dn.type)
    (addrs : dn'.addrs = dn.addrs) : Owned sb (update dns i dn') d := by
  have indirect : dn'.indirect = dn.indirect := by rw [Dinode.indirect, addrs, Dinode.indirect]
  apply owned_congr owned
  apply ownOf_congr
  · intro j _
    by_cases same : j = i
    · subst j
      rw [update_self, update_self, type]
    · rw [update_of_ne same, update_of_ne same]
  intro j _ _ slot
  by_cases same : j = i
  · subst j
    rw [update_self, update_self]
    cases slot with
    | addr k => rw [slotOf, slotOf, addrs]
    | word w => rw [slotOf, slotOf, indirect]
  · rw [update_of_ne same, update_of_ne same]

end

section
variable (s : Fs) (ip : Ip) {dns : Nat → Dinode} {i : Nat} {d : Disk} {dn : Dinode}

variable (dn) in
theorem itruncWords_spec (js : List Nat) (owned : Owned s.sb dns d) (inside : i < s.sb.ninodes)
    (live : (dns i).type ≠ 0) (holder : (dns i).indirect ≠ 0) (small : ∀ j ∈ js, j < nIndirect)
    (distinct : js.Nodup) (done : List Nat) (fresh : ∀ j ∈ js, j ∉ done) {d' : Disk}
    (freed : WordsFreed s.sb dns i d done d') : Ends (itruncWords (dns i).indirect js) (s.put ip d' dn)
      (fun _ t => ∃ d'', t = s.put ip d'' dn ∧ WordsFreed s.sb dns i d (js.reverse ++ done) d'') (fun _ => False) := by
  induction js generalizing done d' with
  | nil => exact ends_pure ⟨d', rfl, freed⟩
  | cons j rest ih =>
    have step := wordsFreed_step owned inside live holder (w := ⟨j, small j List.mem_cons_self⟩)
      (fresh j List.mem_cons_self) freed
    have next : ∀ {d''}, WordsFreed s.sb dns i d (j :: done) d'' →
        Ends (itruncWords (dns i).indirect rest) (s.put ip d'' dn)
          (fun _ t => ∃ d'', t = s.put ip d'' dn ∧
            WordsFreed s.sb dns i d ((j :: rest).reverse ++ done) d'') (fun _ => False) := by
      intro d'' later
      rw [List.reverse_cons, List.append_assoc]
      apply ih (fun k member => small k (List.mem_cons_of_mem _ member))
        (List.nodup_cons.mp distinct).2 (j :: done) _ later
      intro k member
      rw [List.mem_cons, not_or]
      refine ⟨?_, fresh k (List.mem_cons_of_mem _ member)⟩
      rintro rfl
      exact (List.nodup_cons.mp distinct).1 member
    apply bread_then
    apply ends_ite
    · intro empty
      exact next (step.1 empty)
    intro nonzero
    obtain ⟨used, later⟩ := step.2 nonzero
    apply known_then (bfree_ok used)
    exact next later

structure Clearing (sb : Superblock) (dns : Nat → Dinode) (i : Nat) (d : Disk) (dn : Dinode)
    (cleared : Fin (nDirect + 1) → Prop) (d' : Disk) (dn' : Dinode) : Prop where
  owned : Owned sb (Function.update dns i dn') d'
  only : OnlyMap sb d d'
  fields : dn' = { dn with addrs := dn'.addrs }
  zero : ∀ k, cleared k → dn'.addrs k = 0

theorem addr_zero {a : UInt32} (zero : a.toNat = 0) : a = 0 := UInt32.toNat_inj.mp zero

theorem itruncDirect_spec (ks : List (Fin (nDirect + 1))) (lt : i < s.sb.ninodes) (live : dn.type ≠ 0)
    (direct : ∀ k ∈ ks, k ≠ Fin.last nDirect) {cleared : Fin (nDirect + 1) → Prop} {d' : Disk} {dn' : Dinode}
    (clearing : Clearing s.sb dns i d dn cleared d' dn') : Ends (itruncDirect ip ks) (s.put ip d' dn')
      (fun _ t => ∃ d'' dn'', t = s.put ip d'' dn'' ∧
        Clearing s.sb dns i d dn (fun k => cleared k ∨ k ∈ ks) d'' dn'') (fun _ => False) := by
  induction ks generalizing cleared d' dn' with
  | nil =>
    refine ends_pure ⟨d', dn', rfl, clearing.owned, clearing.only, clearing.fields, ?_⟩
    intro k zero
    rcases zero with prev | none
    · exact clearing.zero k prev
    · cases none
  | cons k rest ih =>
    have later : ∀ {d'' dn''}, Clearing s.sb dns i d dn (fun l => cleared l ∨ l = k) d'' dn'' →
        Ends (itruncDirect ip rest) (s.put ip d'' dn'')
          (fun _ t => ∃ d'' dn'', t = s.put ip d'' dn'' ∧
            Clearing s.sb dns i d dn (fun l => cleared l ∨ l ∈ k :: rest) d'' dn'')
          (fun _ => False) := by
      intro d'' dn'' next
      apply ends_better (ih (fun l mem => direct l (List.mem_cons_of_mem _ mem)) next) _
      rintro _ t ⟨e, en, same, final⟩
      refine ⟨e, en, same, final.owned, final.only, final.fields, ?_⟩
      intro l zero
      apply final.zero l
      rw [List.mem_cons] at zero
      tauto
    apply get_then
    rw [put_dn]
    apply ends_ite
    · intro empty
      apply later
      refine ⟨clearing.owned, clearing.only, clearing.fields, ?_⟩
      intro l zero
      rcases zero with prev | here
      · exact clearing.zero l prev
      rw [here]
      exact addr_zero empty
    intro nz
    have here : update dns i dn' i = dn' := update_self _ _ _
    have live' : (update dns i dn' i).type ≠ 0 := by
      rw [here, clearing.fields]
      exact live
    have nonzero' : slotOf d' (update dns i dn' i) (.addr k) ≠ 0 := by
      rw [here]
      exact nz
    have used := owned_used clearing.owned lt live' nonzero'
    have data := owned_slot clearing.owned lt live' nonzero'
    have owned := owned_clearAddr clearing.owned lt live' (direct k List.mem_cons_self)
      (k := k) (by rwa [here])
    rw [here] at used data owned
    rw [update_idem] at owned
    apply known_then (bfree_ok used)
    rw [put_setDisk]
    apply known_then (updDn_put s ip _ dn' _)
    apply later
    refine ⟨owned, onlyMap_setFree clearing.only data.2, ?_, ?_⟩
    · rw [clearing.fields]
      rfl
    intro l zero
    rw [addrs_setAddr]
    split
    · rfl
    · exact clearing.zero l (zero.resolve_right ‹_›)

theorem itruncIndirect_spec (inside : i < s.sb.ninodes) (live : dn.type ≠ 0)
    {cleared : Fin (nDirect + 1) → Prop} {d' : Disk} {dn' : Dinode}
    (clearing : Clearing s.sb dns i d dn cleared d' dn') : Ends (itruncIndirect ip) (s.put ip d' dn')
      (fun _ t => ∃ d'' dn'', t = s.put ip d'' dn'' ∧
        Clearing s.sb dns i d dn (fun k => cleared k ∨ k = Fin.last nDirect) d'' dn'') (fun _ => False) := by
  apply get_then
  rw [put_dn]
  apply ends_ite
  · intro empty
    refine ends_pure ⟨d', dn', rfl, clearing.owned, clearing.only, clearing.fields, ?_⟩
    intro k zero
    rcases zero with prev | last
    · exact clearing.zero k prev
    rw [last]
    exact addr_zero empty
  intro nz
  have here : update dns i dn' i = dn' := update_self _ _ _
  have live' : (update dns i dn' i).type ≠ 0 := by
    rw [here, clearing.fields]
    exact live
  have holder : (update dns i dn' i).indirect ≠ 0 := by
    rw [here]
    exact nz
  have start : WordsFreed s.sb (update dns i dn') i d' [] d' := by
    refine ⟨onlyMap_refl, clearing.owned.reserved, ?_⟩
    rw [withoutWords_nil]
    exact clearing.owned.tracks
  have words := itruncWords_spec s ip dn' (List.range nIndirect) clearing.owned inside
    live' holder (fun j mem => List.mem_range.mp mem) List.nodup_range [] (by simp) start
  rw [here] at words
  apply ends_bind words
  rintro _ t ⟨d'', rfl, freed⟩
  have tracks := freed.tracks
  rw [withoutWords_reverse] at tracks
  have held : withoutWords (ownOf s.sb (update dns i dn') d') i (List.range nIndirect)
      (i, .addr (Fin.last nDirect)) = some dn'.indirect := by
    rw [withoutWords, if_neg (by simp)]
    exact ownOf_eq_some.mpr ⟨inside, live', nz, by rw [slotOf, here]; rfl⟩
  have owned := owned_clearIndirect clearing.owned inside live' holder freed.only freed.reserved tracks
  rw [here, update_idem] at owned
  apply known_then (bfree_ok (tracks_held tracks held))
  rw [put_setDisk]
  apply ends_known (updDn_put s ip _ dn' _)
  refine ⟨setFree s.sb d'' dn'.indirect, dn'.setAddr (Fin.last nDirect) 0, rfl, owned, ?_, ?_, ?_⟩
  · exact onlyMap_trans clearing.only (onlyMap_setFree freed.only (tracks.inside _ _ held).2)
  · rw [clearing.fields]
    rfl
  intro k zero
  rw [addrs_setAddr]
  split
  · rfl
  · exact clearing.zero k (zero.resolve_right ‹_›)

def Dinode.truncated (dn : Dinode) : Dinode := { dn with size := 0, addrs := fun _ => 0 }

theorem mem_directs {k : Fin (nDirect + 1)} : k ∈ directs ↔ k ≠ Fin.last nDirect := by
  revert k
  decide

theorem itrunc_spec (num : (s.itable ip).inum = i) (lt : i < s.sb.ninodes) (live : dn.type ≠ 0)
    (owned : Owned s.sb (update dns i dn) d) : Ends (itrunc ip) (s.put ip d dn)
      (fun _ t => ∃ d', t = s.put ip (putDinode s.sb d' i dn.truncated) dn.truncated ∧
        OnlyMap s.sb d d' ∧ Owned s.sb (update dns i dn.truncated) d') (fun _ => False) := by
  have start : Clearing s.sb dns i d dn (fun _ => False) d dn :=
    ⟨owned, onlyMap_refl, rfl, fun _ never => never.elim⟩
  apply ends_bind (itruncDirect_spec s ip directs lt live (fun _ => mem_directs.mp) start)
  rintro _ t ⟨d', dn', rfl, clearing⟩
  apply ends_bind (itruncIndirect_spec s ip lt live clearing)
  rintro _ t ⟨d'', dn'', rfl, final⟩
  have blank : dn''.setSize 0 = dn.truncated := by
    have addrs : dn''.addrs = fun _ => 0 := by
      funext k
      apply final.zero k
      by_cases last : k = Fin.last nDirect
      · exact .inr last
      · exact .inl (.inr (mem_directs.mpr last))
    rw [final.fields, addrs]
    rfl
  apply known_then (updDn_put s ip d'' dn'' _)
  rw [blank]
  apply ends_known (iupdate_put s ip d'' dn.truncated)
  refine ⟨d'', by rw [num], final.only, ?_⟩
  rw [← blank]
  exact owned_fields final.owned rfl rfl

end

end Xv6Fs
