import Xv6.Owners
import Xv6.Lib.Outcome

/- What balloc, bfree and bmap do. -/
namespace Xv6Fs
open Xv6 Bytes Outcome Ownership

theorem bread_then {A : Type} {b : Nat} {f : Block → M A} {s : Fs} {good : A → Fs → Prop}
    {bad : String → Prop} (next : Ends (f (s.disk b)) s good bad) : Ends (bread b >>= f) s good bad := next

theorem group_bit (sb : Superblock) (d : Disk) {b bi : Nat} (group : b % bpb = 0)
    (lt : bi < bpb) : bit sb d (b + bi) = !bitClear (d (sb.bblock b)) bi := by
  have block : sb.bblock (b + bi) = sb.bblock b := by
    simp only [Superblock.bblock, bpb] at *
    omega
  have index : (b + bi) % bpb = bi := by
    simp only [bpb] at *
    omega
  rw [bit, block, index]

theorem ballocBits_spec (fuel b bi : Nat) (s : Fs) (group : b % bpb = 0) (enough : bpb ≤ bi + fuel) :
    Ends (ballocBits b fuel bi) s
      (fun r t => match r with
        | some c => c < s.sb.size ∧ bit s.sb s.disk c = false ∧
            t = s.setDisk (takeBlock s.sb s.disk c)
        | none => t = s ∧
            ∀ c, b + bi ≤ c → c < b + bpb → c < s.sb.size → bit s.sb s.disk c = true)
      (fun _ => False) := by
  induction fuel generalizing bi with
  | zero =>
    refine ends_pure ⟨rfl, ?_⟩
    intro c lower upper _
    omega
  | succ fuel ih =>
    apply get_then
    apply ends_ite
    · rintro ⟨inside, small⟩
      have here := group_bit s.sb s.disk group inside
      apply bread_then
      apply ends_ite
      · intro clear
        have block : s.sb.bblock (b + bi) = s.sb.bblock b := by
          simp only [Superblock.bblock, bpb] at *
          omega
        have index : (b + bi) % bpb = bi := by
          simp only [bpb] at *
          omega
        refine ⟨small, by rw [here, clear]; rfl, ?_⟩
        rw [takeBlock, setUsed, block, index]
        rfl
      intro busy
      apply ends_better (ih (bi + 1) (by omega)) _
      intro r t holds
      cases r with
      | some c => exact holds
      | none =>
        refine ⟨holds.1, ?_⟩
        intro c lower upper bounded
        by_cases same : c = b + bi
        · subst c
          rw [here]
          simpa using busy
        · exact holds.2 c (by omega) upper bounded
    intro outside
    refine ends_pure ⟨rfl, ?_⟩
    intro c lower upper bounded
    omega

theorem ballocFrom_spec (fuel b : Nat) (s : Fs) (group : b % bpb = 0) (enough : s.sb.size ≤ b + fuel * bpb)
    (prev : ∀ c < b, c < s.sb.size → bit s.sb s.disk c = true) : Ends (ballocFrom fuel b) s
      (fun c t => c < s.sb.size ∧ bit s.sb s.disk c = false ∧ t = s.setDisk (takeBlock s.sb s.disk c))
      (fun msg => msg = "balloc: out of blocks" ∧ ∀ c < s.sb.size, bit s.sb s.disk c = true) := by
  induction fuel generalizing b with
  | zero =>
    refine ends_throw ⟨rfl, ?_⟩
    intro c small
    exact prev c (by omega) small
  | succ fuel ih =>
    apply get_then
    apply ends_ite
    · intro small
      apply ends_step (ballocBits_spec bpb b 0 s group (by omega)) (fun _ never => never.elim)
      intro r t found
      cases r with
      | some c => exact found
      | none =>
        obtain ⟨rfl, full⟩ := found
        apply ih
        · simp only [bpb] at *
          omega
        · simp only [bpb] at *
          omega
        intro c lower bounded
        by_cases earlier : c < b
        · exact prev c earlier bounded
        · exact full c (by omega) lower bounded
    intro beyond
    refine ends_throw ⟨rfl, ?_⟩
    intro c small
    exact prev c (by omega) small

theorem balloc_spec (s : Fs) : Ends balloc s (fun c t => c < s.sb.size ∧ bit s.sb s.disk c = false ∧
        t = s.setDisk (takeBlock s.sb s.disk c))
      (fun msg => msg = "balloc: out of blocks" ∧ freeBlocks s.sb s.disk = ∅) := by
  apply get_then
  have enough : s.sb.size ≤ 0 + (s.sb.size / bpb + 1) * bpb := by
    simp only [bpb]
    omega
  apply ends_mono (ballocFrom_spec _ 0 s rfl enough (by simp)) (fun _ _ => id)
  rintro msg ⟨same, full⟩
  refine ⟨same, ?_⟩
  simp only [freeBlocks, Finset.filter_eq_empty_iff, Finset.mem_range]
  intro c small
  simp [full c small]

theorem bfree_ok {s : Fs} {b : Nat} (used : bit s.sb s.disk b = true) :
    bfree b s = .ok ((), s.setDisk (setFree s.sb s.disk b)) := by
  have busy : bitClear (s.disk (s.sb.bblock b)) (b % bpb) = false := by simpa [bit] using used
  change (if bitClear (s.disk (s.sb.bblock b)) (b % bpb) = true then throw "freeing free block"
    else logWrite (s.sb.bblock b) (markFree (s.disk (s.sb.bblock b)) (b % bpb)) : M Unit) s = _
  rw [busy, if_neg Bool.false_ne_true]
  rfl

end Xv6Fs
