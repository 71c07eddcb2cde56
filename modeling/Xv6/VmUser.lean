import Xv6.VmSpec

/- User memory is the first pages of a page table: how it grows, shrinks, is copied and freed. -/
namespace Xv6Vm
open Outcome Ownership Function
set_option linter.unusedSectionVars false

section
variable {N : Nat} {O : Type}
variable {leaf₀ : Nat → Option (Leaf N)}

def pages (sz : Nat) : Nat := pgroundup sz / PGSIZE

/-- The user pages are the first k. -/
structure UserPages (leaf : Nat → Option (Leaf N)) (k : Nat) : Prop where
  bound : k ≤ userTop
  mapped : ∀ v, v < k → ∃ pg perm, leaf v = some ⟨.page pg, perm⟩
  absent : ∀ v, k ≤ v → v < userTop → leaf v = none

variable {s s' : Vm N} {live : Fin N → Bool} {other : O → Option (Fin N)} {r r' pg : Fin N}
  {o : O} {leaf leaf' : Nat → Option (Leaf N)} {k v : Nat} {bad : String → Prop}

theorem pages_mul (k : Nat) : pages (k * PGSIZE) = k := by
  unfold pages pgroundup PGSIZE
  omega

theorem pgroundup_pages (sz : Nat) : pgroundup sz = pages sz * PGSIZE := by
  unfold pages pgroundup PGSIZE
  omega

theorem users_le (book : Book s live other) (lives : live r = true) (users : UserPages (s.tables r).leaf k) :
    k ≤ N := by
  have held : ∀ i : Fin k, ∃ pg, own s live other (.user r i) = some pg := by
    intro i
    obtain ⟨pg, perm, leaf⟩ := users.mapped i i.isLt
    have below : (i : Nat) < userTop := Nat.lt_of_lt_of_le i.isLt users.bound
    refine ⟨pg, ?_⟩
    rw [own, if_pos ⟨lives, below⟩, leaf]
    rfl
  choose page spec using held
  have apart : Function.Injective page := by
    intro i j same
    have snd := spec j
    rw [← same] at snd
    have places := book.tracks.unique (.user r i) (.user r j) (page i) (spec i) snd
    exact Fin.ext (Place.user.inj places).2
  simpa using Fintype.card_le_of_injective page apart

theorem users_without (users : UserPages leaf v) (le : k ≤ v) : UserPages (without leaf k (v - k)) k := by
  refine ⟨le.trans users.bound, ?_, ?_⟩
  · intro w low
    rw [without, if_neg (by omega)]
    exact users.mapped w (by omega)
  intro w high below
  unfold without
  by_cases lt : k ≤ w ∧ w < k + (v - k)
  · rw [if_pos lt]
  rw [if_neg lt]
  exact users.absent w (by omega) below

theorem users_map (users : UserPages leaf v) (below : v < userTop) (pg : Fin N) (perm : Perm) :
    UserPages (update leaf v (some ⟨.page pg, perm⟩)) (v + 1) := by
  refine ⟨below, ?_, ?_⟩
  · intro w low
    by_cases same : w = v
    · rw [same, update_self]
      exact ⟨pg, perm, rfl⟩
    rw [update_of_ne same]
    exact users.mapped w (by omega)
  intro w high top
  rw [update_of_ne (by omega)]
  exact users.absent w (by omega) top

theorem without_restores (users : UserPages leaf v) (start : UserPages leaf₀ k)
    (agree : ∀ w, w < k ∨ v ≤ w → leaf w = leaf₀ w) : without leaf k (v - k) = leaf₀ := by
  have bound := users.bound
  funext w
  unfold without
  by_cases lt : k ≤ w ∧ w < k + (v - k)
  · rw [if_pos lt]
    exact (start.absent w lt.1 (by omega)).symm
  rw [if_neg lt]
  exact agree w (by omega)

theorem agree_map (le : k ≤ v) (agree : ∀ w, w < k ∨ v ≤ w → leaf w = leaf₀ w)
    (x : Option (Leaf N)) : ∀ w, w < k ∨ v + 1 ≤ w → update leaf v x w = leaf₀ w := by
  intro w outside
  rw [update_of_ne (by omega)]
  exact agree w (by omega)

theorem freewalkLow_spec (bare : ∀ v, (s.tables r).leaf v = none) (j : Nat) :
    Ends (freewalkLow r j pg) s (fun _ s' => s' = s.free pg) bad := by
  have clear : (entries.any fun i => ((s.tables r).leaf (j * 512 + i)).isSome) = false := by
    rw [List.any_eq_false]
    intro i _
    rw [bare]
    nofun
  unfold freewalkLow
  apply get_then
  rw [clear]
  exact ends_known rfl rfl

theorem trapframe_va : TRAPFRAME = userTop * PGSIZE := by decide

theorem trampoline_va : TRAMPOLINE = (userTop + 1) * PGSIZE := by decide

theorem unmap_top (book : Book s live other) (lives : live r = true) {va : Nat} (first : va = v * PGSIZE)
    (above : userTop ≤ v) (lt : va < MAXVA) {x : Leaf N} (mapped : (s.tables r).leaf v = some x) :
    Ends (uvmunmap r va 1 false) s
      (fun _ s' => Book s' live other ∧ Leaves r s s' (update (s.tables r).leaf v none)) bad := by
  have aligned : va % PGSIZE = 0 := by
    rw [first]
    exact Nat.mul_mod_left v PGSIZE
  have shape := book.shape r lives
  have page : va / PGSIZE = v := by
    rw [first]
    exact va_page v
  have present : (s.tables r).leaf (va / PGSIZE) ≠ none := by
    rw [page, mapped]
    nofun
  unfold uvmunmap
  rw [if_neg fun skew => skew aligned]
  apply ends_bind (walk_found shape lt present)
  rintro ok t ⟨rfl, same⟩
  rw [same]
  apply get_then
  rw [page, mapped]
  refine modify_then (ends_pure ⟨?_, fun r' apart => setTable_other _ _ apart, ?_⟩)
  · exact book_same book (own_setLeaf_top above none) rfl rfl
      (shapes_setTable book.shape (shape_setLeaf shape (shape.leaf v (by rw [mapped]; nofun)) none))
  rw [setTable_self]
  rfl

variable [DecidableEq O]

theorem unmap_users (book : Book s live other) (lives : live r = true) (users : UserPages (s.tables r).leaf v)
    (le : k ≤ v) {va npages : Nat} (first : va = k * PGSIZE) (count : npages = v - k) :
    Ends (uvmunmap r va npages true) s
      (fun _ s' => Book s' live other ∧ Leaves r s s' (without (s.tables r).leaf k (v - k))) bad := by
  have bound := users.bound
  have aligned : k * PGSIZE % PGSIZE = 0 := Nat.mul_mod_left k PGSIZE
  unfold uvmunmap
  rw [first, count, if_neg fun skew => skew aligned]
  apply uvmunmapFrom_user (v - k) k book lives (by omega)
  intro w low high
  exact users.mapped w (by omega)

theorem uvmdealloc_spec {oldsz : Nat} (book : Book s live other) (lives : live r = true)
    (users : UserPages (s.tables r).leaf (pages oldsz)) (newsz : Nat) : Ends (uvmdealloc r oldsz newsz) s
      (fun sz s' => Book s' live other ∧ sz = min oldsz newsz ∧
        Leaves r s s' (without (s.tables r).leaf (pages sz) (pages oldsz - pages sz))) bad := by
  have nothing : ∀ k, without (s.tables r).leaf k 0 = (s.tables r).leaf := by
    intro k
    funext w
    rw [without, if_neg (by omega)]
  unfold uvmdealloc
  refine ends_ite (fun grows => ends_pure ⟨book, (Nat.min_eq_left grows).symm, ?_⟩) fun shrinks => ?_
  · rw [Nat.sub_self, nothing]
    exact extends_refl r s
  have le : pages newsz ≤ pages oldsz := by
    unfold pages pgroundup PGSIZE
    omega
  have least : newsz = min oldsz newsz := (Nat.min_eq_right (by omega)).symm
  rw [pgroundup_pages newsz, pgroundup_pages oldsz]
  refine ends_ite (fun less => ?_) fun same => ?_
  · have count : (pages oldsz * PGSIZE - pages newsz * PGSIZE) / PGSIZE = pages oldsz - pages newsz := by
      rw [← Nat.sub_mul, Nat.mul_div_cancel _ (by decide)]
    apply ends_bind (unmap_users book lives users le rfl count)
    rintro _ t ⟨book', leaves⟩
    exact ends_pure ⟨book', least, leaves⟩
  have eq : pages newsz = pages oldsz := by
    unfold PGSIZE at same
    omega
  refine ends_pure ⟨book, least, ?_⟩
  rw [eq, Nat.sub_self, nothing]
  exact extends_refl r s

/- uvmalloc: what it added is taken back when it fails. -/

theorem hand_back (empty : other o = none) (x : Option (Fin N)) : update (update other o x) o none = other := by
  rw [update_idem, ← empty, update_eq_self]

/-- User memory has grown from k pages to v, or no leaf has changed. -/
def Grown (r : Fin N) (s : Vm N) (leaf₀ : Nat → Option (Leaf N)) (k v : Nat) (done failed : Prop) (s' : Vm N) :
    Prop :=
  ∃ leaf', Leaves r s s' leaf' ∧
    ((done ∧ UserPages leaf' v ∧ ∀ w, w < k ∨ v ≤ w → leaf' w = leaf₀ w) ∨ (failed ∧ leaf' = leaf₀))

theorem grown_from {t : Vm N} {done failed : Prop} (prev : Leaves r s t leaf)
    (grown : Grown r t leaf₀ k v done failed s') : Grown r s leaf₀ k v done failed s' := by
  obtain ⟨leaf', leaves, outcome⟩ := grown
  exact ⟨leaf', leaves_trans prev leaves, outcome⟩

theorem rollback_spec (start : UserPages leaf₀ k) (newsz last : Nat) (le : k ≤ v)
    (book : Book s live other) (lives : live r = true) (users : UserPages (s.tables r).leaf v)
    (agree : ∀ w, w < k ∨ v ≤ w → (s.tables r).leaf w = leaf₀ w) :
    Ends (do
      let _ ← uvmdealloc r (v * PGSIZE) (k * PGSIZE)
      pure 0) s (fun sz s' => Book s' live other ∧ Grown r s leaf₀ k last (sz = newsz) (sz = 0) s') bad := by
  have users₁ : UserPages (s.tables r).leaf (pages (v * PGSIZE)) := by
    rw [pages_mul]
    exact users
  apply ends_bind (uvmdealloc_spec book lives users₁ _)
  rintro sz t ⟨book₁, size, leaves⟩
  refine ends_pure ⟨book₁, leaf₀, ?_, .inr ⟨rfl, rfl⟩⟩
  have fewer : pages sz = k := by
    rw [size, Nat.min_eq_right (Nat.mul_le_mul_right _ le), pages_mul]
  rw [pages_mul, fewer, without_restores users start agree] at leaves
  exact leaves

theorem page_then {A : Type} {good : A → Vm N → Prop} {fail next : M N A} (empty : other o = none)
    (book : Book s live other) (lives : live r = true) (below : v < userTop)
    (absent : (s.tables r).leaf v = none) (perm : Perm)
    (failed : ∀ t, Book t live other → Extends r s t → Ends fail t good bad)
    (done : ∀ t pg, Book t live other → Leaves r s t (update (s.tables r).leaf v (some ⟨.page pg, perm⟩)) →
      Ends next t good bad) :
    Ends (do
      match ← kalloc with
      | none => fail
      | some pg =>
        if ← mappages r (v * PGSIZE) (.page pg) perm then next
        else do
          kfree pg
          fail) s good bad := by
  refine kalloc_then (fun luck => failed _ (book_luck book luck) ⟨fun _ _ => rfl, rfl⟩) ?_
  intro pg rest luck head
  have hand : update other o (some pg) o = some pg := update_self _ _ _
  apply ends_bind (mappages_user (book_grab book empty head luck) lives hand below absent perm)
  rintro ok t ⟨mapped, missed⟩
  cases ok with
  | true =>
    obtain ⟨book₁, leaves⟩ := mapped rfl
    rw [hand_back empty] at book₁
    exact done t pg book₁ ⟨leaves.tables, leaves.leaf⟩
  | false =>
    obtain ⟨book₁, kept⟩ := missed rfl
    have book₂ := book_drop book₁ hand
    rw [hand_back empty] at book₂
    exact modify_then (failed _ book₂ ⟨kept.tables, kept.leaf⟩)

theorem uvmallocFrom_spec (small : N < userTop) (empty : other o = none)
    (start : UserPages leaf₀ k) (newsz more v : Nat) (le : k ≤ v) (book : Book s live other) (lives : live r = true)
    (users : UserPages (s.tables r).leaf v) (agree : ∀ w, w < k ∨ v ≤ w → (s.tables r).leaf w = leaf₀ w) :
    Ends (uvmallocFrom r (k * PGSIZE) newsz more (v * PGSIZE)) s
      (fun sz s' => Book s' live other ∧ Grown r s leaf₀ k (v + more) (sz = newsz) (sz = 0) s') bad := by
  induction more generalizing s v with
  | zero => exact ends_pure ⟨book, _, extends_refl r s, .inl ⟨rfl, users, agree⟩⟩
  | succ more ih =>
    have below : v < userTop := Nat.lt_of_le_of_lt (users_le book lives users) small
    refine page_then empty book lives below (users.absent v (Nat.le_refl v) below) userPerm ?_ ?_
    · intro t book₁ kept
      rw [← kept.leaf] at users agree
      exact ends_better (rollback_spec start newsz _ le book₁ lives users agree) fun sz t' => And.imp_right
        (grown_from kept)
    intro t pg book₁ leaves
    have users₁ := users_map users below pg userPerm
    have agree₁ := agree_map le agree (some ⟨.page pg, userPerm⟩)
    have next : v * PGSIZE + PGSIZE = (v + 1) * PGSIZE := (Nat.succ_mul v PGSIZE).symm
    have count : v + 1 + more = v + (more + 1) := by omega
    rw [← leaves.leaf] at users₁ agree₁
    rw [next, ← count]
    exact ends_better (ih (v + 1) (by omega) book₁ users₁ agree₁) fun sz t' => And.imp_right
      (grown_from leaves)

theorem uvmalloc_spec (small : N < userTop) (empty : other o = none) {oldsz : Nat} (book : Book s live other)
    (lives : live r = true) (users : UserPages (s.tables r).leaf (pages oldsz)) (newsz : Nat) :
    Ends (uvmalloc r oldsz newsz) s (fun sz s' => Book s' live other ∧ ∃ leaf', Leaves r s s' leaf' ∧
      (∀ w, userTop ≤ w → leaf' w = (s.tables r).leaf w) ∧
      (sz ≠ 0 → sz = max oldsz newsz ∧ UserPages leaf' (pages sz)) ∧ (sz = 0 → leaf' = (s.tables r).leaf)) bad := by
  unfold uvmalloc
  refine ends_ite (fun less => ?_) fun grows => ?_
  · refine ends_pure ⟨book, _, extends_refl r s, fun _ _ => rfl, fun _ => ⟨?_, users⟩, fun _ => rfl⟩
    exact (Nat.max_eq_left (by omega)).symm
  have largest : newsz = max oldsz newsz := (Nat.max_eq_right (by omega)).symm
  by_cases zero : newsz = 0
  · have none : (newsz - pgroundup oldsz + PGSIZE - 1) / PGSIZE = 0 := by
      rw [zero]
      unfold PGSIZE
      omega
    rw [none]
    exact ends_pure ⟨book, _, extends_refl r s, fun _ _ => rfl, fun nz => absurd zero nz, fun _ => rfl⟩
  have count : pages oldsz + (newsz - pages oldsz * PGSIZE + PGSIZE - 1) / PGSIZE = pages newsz := by
    unfold pages pgroundup PGSIZE
    omega
  rw [pgroundup_pages oldsz]
  refine ends_better (uvmallocFrom_spec small empty users newsz _ (pages oldsz) (Nat.le_refl _) book lives users
    fun _ _ => rfl) ?_
  rw [count]
  rintro sz t ⟨book₁, leaf', leaves, outcome⟩
  refine ⟨book₁, leaf', leaves, ?_, ?_, ?_⟩
  · intro w above
    rcases outcome with ⟨_, users', agree⟩ | ⟨_, same⟩
    · exact agree w (.inr (users'.bound.trans above))
    · rw [same]
  · intro nz
    rcases outcome with ⟨rfl, users', _⟩ | ⟨absurd, _⟩
    · exact ⟨largest, users'⟩
    · exact (nz absurd).elim
  intro failed
  rcases outcome with ⟨same, _⟩ | ⟨_, same⟩
  · exact absurd (same.symm.trans failed) zero
  · exact same

/- uvmcopy. -/

theorem uncopy_spec (start : UserPages leaf₀ 0) (last : Nat)
    (book : Book s live other) (lives : live r = true) (users : UserPages (s.tables r).leaf v)
    (agree : ∀ w, v ≤ w → (s.tables r).leaf w = leaf₀ w) :
    Ends (do
      uvmunmap r 0 v true
      pure false) s
      (fun ok s' => Book s' live other ∧ Grown r s leaf₀ 0 last (ok = true) (ok = false) s') bad := by
  apply ends_bind (unmap_users book lives users (Nat.zero_le v) (Nat.zero_mul PGSIZE).symm rfl)
  rintro _ t ⟨book₁, leaves⟩
  refine ends_pure ⟨book₁, leaf₀, ?_, .inr ⟨rfl, rfl⟩⟩
  rw [← without_restores users start fun w outside => agree w (by omega)]
  exact leaves

theorem uvmcopyFrom_spec (empty : other o = none) {old new : Fin N} (apart : new ≠ old)
    (source : UserPages (s.tables old).leaf k) (start : UserPages leaf₀ 0) (more v : Nat)
    (count : v + more = k) (book : Book s live other) (lives : live old = true) (lives' : live new = true)
    (users : UserPages (s.tables new).leaf v) (agree : ∀ w, v ≤ w → (s.tables new).leaf w = leaf₀ w) :
    Ends (uvmcopyFrom old new more (v * PGSIZE)) s
      (fun ok s' => Book s' live other ∧ Grown new s leaf₀ 0 k (ok = true) (ok = false) s') bad := by
  induction more generalizing s v with
  | zero =>
    obtain rfl : v = k := count
    exact ends_pure ⟨book, _, extends_refl new s, .inl ⟨rfl, users, fun w outside => agree w (by omega)⟩⟩
  | succ more ih =>
    have below : v < userTop := by
      have bound := source.bound
      omega
    obtain ⟨pg₀, perm, leaf⟩ := source.mapped v (by omega)
    have present : (s.tables old).leaf (v * PGSIZE / PGSIZE) ≠ none := by
      rw [va_page, leaf]
      nofun
    apply ends_bind (walk_found (book.shape old lives) (userVa_below below) present)
    rintro ok t ⟨rfl, same⟩
    rw [same]
    apply get_then
    rw [va_page, leaf]
    refine page_then empty book lives' below (users.absent v (Nat.le_refl v) below) perm ?_ ?_
    · intro t book₁ kept
      rw [← kept.leaf] at users agree
      exact ends_better (uncopy_spec start k book₁ lives' users agree) fun ok t' => And.imp_right
        (grown_from kept)
    intro t pg book₁ leaves
    have users₁ := users_map users below pg perm
    have agree₁ := agree_map (Nat.zero_le v) (fun w outside => agree w (by omega)) (some ⟨.page pg, perm⟩)
    rw [← leaves.leaf] at users₁ agree₁
    have next : v * PGSIZE + PGSIZE = (v + 1) * PGSIZE := (Nat.succ_mul v PGSIZE).symm
    rw [next]
    have source₁ : UserPages (t.tables old).leaf k := by
      rw [leaves.tables old apart.symm]
      exact source
    exact ends_better (ih source₁ (v + 1) (by omega) book₁ users₁ fun w above => agree₁ w (.inr above))
      fun ok t' => And.imp_right (grown_from leaves)

theorem uvmcopy_spec (empty : other o = none) {old new : Fin N} {sz : Nat} (apart : new ≠ old)
    (source : UserPages (s.tables old).leaf (pages sz)) (target : UserPages (s.tables new).leaf 0)
    (book : Book s live other) (lives : live old = true) (lives' : live new = true) :
    Ends (uvmcopy old new sz) s (fun ok s' => Book s' live other ∧
        Grown new s (s.tables new).leaf 0 (pages sz) (ok = true) (ok = false) s') bad := by
  have count : 0 + (sz + PGSIZE - 1) / PGSIZE = pages sz := by
    unfold pages pgroundup PGSIZE
    omega
  have first : uvmcopy old new sz = uvmcopyFrom old new ((sz + PGSIZE - 1) / PGSIZE) (0 * PGSIZE) := by
    rw [Nat.zero_mul]
    rfl
  rw [first]
  exact uvmcopyFrom_spec empty apart source target _ 0 count book lives lives' target fun _ _ => rfl

/- freewalk: a table without leaves is taken down, node by node. -/

theorem mem_entries (i : Nat) : i ∈ entries ↔ i < 512 := by
  unfold entries
  exact List.mem_range

/-- Nodes are taken out of a table without leaves. -/
structure Pruned (r : Fin N) (s s' : Vm N) : Prop where
  tables : Elsewhere r s s'
  leaf : ∀ v, (s'.tables r).leaf v = none
  low : ∀ j, (s.tables r).low j = none → (s'.tables r).low j = none
  mid : ∀ k, (s.tables r).mid k = none → (s'.tables r).mid k = none

theorem pruned_trans {t : Vm N} (first : Pruned r s t) (snd : Pruned r t s') : Pruned r s s' where
  tables := fun r' apart => (snd.tables r' apart).trans (first.tables r' apart)
  leaf := snd.leaf
  low := fun j absent => snd.low j (first.low j absent)
  mid := fun k absent => snd.mid k (first.mid k absent)

theorem book_freeLow (book : Book s live other) (lives : live r = true) (bare : ∀ v, (s.tables r).leaf v = none)
    {j : Nat} (node : (s.tables r).low j = some pg) :
    Book ((s.free pg).setTable r ((s.tables r).setLow j none)) live other := by
  have shape := book.shape r lives
  refine book_give (l := .low r j) book ?_ ?_ rfl rfl ?_
  · rw [own, if_pos lives]
    exact node
  · exact own_setLow (s := s) lives j none fun v _ => bare v
  refine shapes_setTable (s := s.free pg) book.shape ⟨?_, ?_, shape.range⟩
  · intro j' present
    by_cases same : j' = j
    · simp [Table.setLow, same] at present
    apply shape.low j'
    rw [← update_of_ne same none (s.tables r).low]
    exact present
  intro v present
  refine absurd ?_ present
  simp [Table.setLow, bare]

theorem book_freeMid (book : Book s live other) (lives : live r = true) (bare : ∀ v, (s.tables r).leaf v = none)
    (node : (s.tables r).mid k = some pg) (under : ∀ j, j / 512 = k → (s.tables r).low j = none) :
    Book ((s.free pg).setTable r ((s.tables r).setMid k none)) live other := by
  have shape := book.shape r lives
  have kept : ∀ j, ((s.tables r).setMid k none).low j = (s.tables r).low j := by
    intro j
    by_cases below : j / 512 = k
    · simp [Table.setMid, below, under j below]
    · simp [Table.setMid, below]
  refine book_give (l := .mid r k) book ?_ ?_ rfl rfl ?_
  · rw [own, if_pos lives]
    exact node
  · exact own_setMid (s := s) lives k none under
  refine shapes_setTable (s := s.free pg) book.shape ⟨?_, fun v present => absurd (bare v) present, ?_⟩
  · intro j present
    rw [kept] at present
    have apart : j / 512 ≠ k := fun below => present (under j below)
    have above := shape.low j present
    simp only [Table.setMid, update_of_ne apart]
    exact above
  intro k' present
  by_cases same : k' = k
  · simp [Table.setMid, same] at present
  apply shape.range k'
  rw [← update_of_ne same none (s.tables r).mid]
  exact present

theorem freewalkMid_spec (k : Nat) (indices : List Nat) (book : Book s live other) (lives : live r = true)
    (bare : ∀ v, (s.tables r).leaf v = none) : Ends (freewalkMid r k indices) s
      (fun _ s' => Book s' live other ∧ Pruned r s s' ∧ (s'.tables r).mid = (s.tables r).mid ∧
        ∀ i, i ∈ indices → (s'.tables r).low (k * 512 + i) = none) bad := by
  induction indices generalizing s with
  | nil => exact ends_pure ⟨book, ⟨fun _ _ => rfl, bare, fun _ => id, fun _ => id⟩, rfl, nofun⟩
  | cons i rest ih =>
    unfold freewalkMid
    apply get_then
    cases node : (s.tables r).low (k * 512 + i) with
    | none =>
      apply ends_better (ih book bare)
      rintro _ t ⟨book₁, pruned, same, clear⟩
      refine ⟨book₁, pruned, same, ?_⟩
      intro i' mem
      rcases List.mem_cons.mp mem with rfl | later
      · exact pruned.low _ node
      · exact clear i' later
    | some pg =>
      apply ends_bind (freewalkLow_spec bare (k * 512 + i))
      rintro _ t rfl
      apply modify_then
      have book₁ := book_freeLow book lives bare node
      have first : Pruned r s ((s.free pg).setTable r ((s.tables r).setLow (k * 512 + i) none)) := by
        refine ⟨fun r' apart => setTable_other _ _ apart, ?_, ?_, ?_⟩
        · intro v
          rw [setTable_self]
          simp [Table.setLow, bare]
        · intro j absent
          rw [setTable_self]
          by_cases same : j = k * 512 + i
          · simp [Table.setLow, same]
          · simp [Table.setLow, same, absent]
        intro k' absent
        rw [setTable_self]
        exact absent
      apply ends_better (ih book₁ first.leaf)
      rintro _ t ⟨book₂, pruned, same, clear⟩
      refine ⟨book₂, pruned_trans first pruned, ?_, ?_⟩
      · rw [same, setTable_self]
        rfl
      intro i' mem
      rcases List.mem_cons.mp mem with rfl | later
      · apply pruned.low _
        rw [setTable_self]
        simp [Table.setLow]
      · exact clear i' later

theorem freewalkRoot_spec (indices : List Nat) (book : Book s live other) (lives : live r = true)
    (bare : ∀ v, (s.tables r).leaf v = none) : Ends (freewalkRoot r indices) s
      (fun _ s' => Book s' live other ∧ Pruned r s s' ∧ ∀ k, k ∈ indices → (s'.tables r).mid k = none) bad := by
  induction indices generalizing s with
  | nil => exact ends_pure ⟨book, ⟨fun _ _ => rfl, bare, fun _ => id, fun _ => id⟩, nofun⟩
  | cons k rest ih =>
    unfold freewalkRoot
    apply get_then
    cases node : (s.tables r).mid k with
    | none =>
      apply ends_better (ih book bare)
      rintro _ t ⟨book₁, pruned, clear⟩
      refine ⟨book₁, pruned, ?_⟩
      intro k' mem
      rcases List.mem_cons.mp mem with rfl | later
      · exact pruned.mid _ node
      · exact clear k' later
    | some pg =>
      apply ends_bind (freewalkMid_spec k entries book lives bare)
      rintro _ t ⟨book₁, first, same, clear⟩
      refine modify_then (modify_then ?_)
      have under : ∀ j, j / 512 = k → (t.tables r).low j = none := by
        intro j below
        have parts : k * 512 + j % 512 = j := by omega
        rw [← parts]
        exact clear (j % 512) ((mem_entries _).mpr (by omega))
      have book₂ := book_freeMid book₁ lives first.leaf (same ▸ node) under
      have snd : Pruned r t ((t.free pg).setTable r ((t.tables r).setMid k none)) := by
        refine ⟨fun r' apart => setTable_other _ _ apart, ?_, ?_, ?_⟩
        · intro v
          rw [setTable_self]
          exact first.leaf v
        · intro j absent
          rw [setTable_self]
          simp [Table.setMid, absent]
        intro k' absent
        rw [setTable_self]
        by_cases eq : k' = k
        · simp [Table.setMid, eq]
        · simp [Table.setMid, eq, absent]
      apply ends_better (ih book₂ snd.leaf)
      rintro _ t' ⟨book₃, pruned, clear'⟩
      refine ⟨book₃, pruned_trans first (pruned_trans snd pruned), ?_⟩
      intro k' mem
      rcases List.mem_cons.mp mem with rfl | later
      · apply pruned.mid _
        rw [setTable_self]
        simp [Table.setMid]
      · exact clear' k' later

structure Blank (t : Table N) : Prop where
  mid : ∀ k, t.mid k = none
  low : ∀ j, t.low j = none
  leaf : ∀ v, t.leaf v = none

theorem own_blank (blank : live r = true → Blank (s.tables r)) {l : Place N O} (root : l ≠ .root r)
    (inside : (∃ k, l = .mid r k) ∨ (∃ j, l = .low r j) ∨ ∃ v, l = .user r v) : own s live other l = none := by
  cases lives : live r with
  | false => rcases inside with ⟨k, rfl⟩ | ⟨j, rfl⟩ | ⟨v, rfl⟩ <;> simp [own, lives]
  | true =>
    have blank := blank lives
    rcases inside with ⟨k, rfl⟩ | ⟨j, rfl⟩ | ⟨v, rfl⟩
    · simp [own, blank.mid]
    · simp [own, blank.low]
    · simp [own, blank.leaf, pageOf]

theorem own_root {b : Bool} (away : Elsewhere r s s') (prev : live r = true → Blank (s.tables r))
    (after : b = true → Blank (s'.tables r)) : own s' (update live r b) other =
      update (own s live other) (.root r) (if b then some r else none) := by
  funext l
  by_cases root : l = .root r
  · rw [root, update_self, own, update_self]
  rw [update_of_ne root]
  by_cases inside : (∃ k, l = .mid r k) ∨ (∃ j, l = .low r j) ∨ ∃ v, l = .user r v
  · rw [own_blank prev root inside, own_blank (by rw [update_self]; exact after) root inside]
  cases l with
  | root r' =>
    have apart : r' ≠ r := fun same => root (by rw [same])
    simp [own, apart]
  | mid r' k =>
    have apart : r' ≠ r := fun same => inside (.inl ⟨k, by rw [same]⟩)
    simp [own, apart, away r' apart]
  | low r' j =>
    have apart : r' ≠ r := fun same => inside (.inr (.inl ⟨j, by rw [same]⟩))
    simp [own, apart, away r' apart]
  | user r' v =>
    have apart : r' ≠ r := fun same => inside (.inr (.inr ⟨v, by rw [same]⟩))
    simp [own, apart, away r' apart]
  | other o => rfl

theorem book_freeRoot (book : Book s live other) (lives : live r = true) (blank : Blank (s.tables r)) :
    Book (s.free r) (update live r false) other := by
  refine book_give (l := .root r) book ?_ ?_ rfl rfl ?_
  · rw [own, if_pos lives]
  · exact own_root (fun _ _ => rfl) (fun _ => blank) (by rintro ⟨⟩)
  intro r' lives'
  by_cases same : r' = r
  · rw [same, update_self] at lives'
    cases lives'
  rw [update_of_ne same] at lives'
  exact book.shape r' lives'

theorem freewalk_spec (book : Book s live other) (lives : live r = true) (bare : ∀ v, (s.tables r).leaf v = none) :
    Ends (freewalk r) s (fun _ s' => Book s' (update live r false) other ∧ Elsewhere r s s') bad := by
  unfold freewalk
  apply ends_bind (freewalkRoot_spec entries book lives bare)
  rintro _ t ⟨book₁, pruned, clear⟩
  have mids : ∀ k, (t.tables r).mid k = none := by
    intro k
    by_contra present
    exact present (clear k ((mem_entries k).mpr ((book₁.shape r lives).range k present)))
  have blank : Blank (t.tables r) := ⟨mids, fun j => low_of_mid (book₁.shape r lives) (mids _) rfl, pruned.leaf⟩
  exact ends_known rfl ⟨book_freeRoot book₁ lives blank, pruned.tables⟩

theorem uvmfree_spec {sz : Nat} (book : Book s live other) (lives : live r = true)
    (users : UserPages (s.tables r).leaf (pages sz)) (top : ∀ v, userTop ≤ v → (s.tables r).leaf v = none) :
    Ends (uvmfree r sz) s (fun _ s' => Book s' (update live r false) other ∧ Elsewhere r s s') bad := by
  unfold uvmfree
  refine ends_ite (fun pos => ?_) fun zero => ?_
  · apply ends_bind (unmap_users book lives users (Nat.zero_le _) (Nat.zero_mul PGSIZE).symm rfl)
    rintro _ t ⟨book₁, leaves⟩
    have bare : ∀ v, (t.tables r).leaf v = none := by
      intro v
      rw [leaves.leaf, without]
      by_cases low : v < pages sz
      · rw [if_pos (by omega)]
      rw [if_neg (by omega)]
      by_cases below : v < userTop
      · exact users.absent v (by omega) below
      · exact top v (by omega)
    apply ends_better (freewalk_spec book₁ lives bare)
    rintro _ t' ⟨book₂, away⟩
    exact ⟨book₂, fun r' apart => (away r' apart).trans (leaves.tables r' apart)⟩
  have none : pages sz = 0 := by
    unfold pages pgroundup PGSIZE
    omega
  refine freewalk_spec book lives fun v => ?_
  by_cases below : v < userTop
  · exact users.absent v (by omega) below
  · exact top v (by omega)

/- The page table of a process. -/

def topLeaves (f : Fin N) (v : Nat) : Option (Leaf N) :=
  if v = userTop then some ⟨.page f, ⟨true, false, false⟩⟩
  else if v = userTop + 1 then some ⟨.trampoline, ⟨false, true, false⟩⟩
  else none

/-- The leaves of a process with k user pages and this trapframe. -/
structure Image (leaf : Nat → Option (Leaf N)) (f : Fin N) (k : Nat) : Prop where
  users : UserPages leaf k
  top : ∀ v, userTop ≤ v → leaf v = topLeaves f v

theorem uvmcreate_spec (book : Book s live other) : Ends uvmcreate s
    (fun found s' => (found = none → Book s' live other ∧ s'.tables = s.tables) ∧
      ∀ r, found = some r → live r = false ∧ Book s' (update live r true) other ∧
        (s'.tables r).leaf = (fun _ => none) ∧ Elsewhere r s s') bad := by
  unfold uvmcreate
  refine kalloc_then (fun luck => ends_pure ⟨fun _ => ⟨book_luck book luck, rfl⟩, nofun⟩) ?_
  intro pg rest luck head
  have fresh : live pg = false := by
    by_contra lives
    have lives : live pg = true := by simpa using lives
    have held : own s live other (.root pg) = some pg := by rw [own, if_pos lives]
    have taken := of_decide_eq_true (tracks_held book.tracks held)
    rw [head] at taken
    exact taken List.mem_cons_self
  refine modify_then (ends_pure ⟨by rintro ⟨⟩, ?_⟩)
  rintro r found
  obtain rfl : pg = r := Option.some.inj found
  refine ⟨fresh, ?_, ?_, fun r' apart => setTable_other _ _ apart⟩
  · refine book_take (l := .root pg) book head ?_ ?_ rfl rfl ?_
    · rw [own, fresh]
      rfl
    · refine own_root (fun r' apart => setTable_other _ _ apart) (fun lives => ?_) fun _ => ?_
      · rw [fresh] at lives
        cases lives
      rw [setTable_self]
      exact ⟨fun _ => rfl, fun _ => rfl, fun _ => rfl⟩
    intro r' lives
    by_cases same : r' = pg
    · rw [same, setTable_self]
      exact shape_empty
    rw [update_of_ne same] at lives
    rw [setTable_other _ _ same]
    exact book.shape r' lives
  rw [setTable_self]
  rfl

theorem image_top {f : Fin N} (start : leaf = fun _ => none) : Image (update (update leaf
    (userTop + 1) (some ⟨.trampoline, ⟨false, true, false⟩⟩)) userTop (some ⟨.page f, ⟨true, false, false⟩⟩)) f 0 := by
  refine ⟨⟨Nat.zero_le _, nofun, ?_⟩, ?_⟩
  · intro v _ below
    rw [update_of_ne (by omega), update_of_ne (by omega), start]
  intro v above
  unfold topLeaves
  by_cases frame : v = userTop
  · rw [frame, update_self, if_pos rfl]
  rw [update_of_ne frame, if_neg frame]
  by_cases code : v = userTop + 1
  · rw [code, update_self, if_pos rfl]
  · rw [update_of_ne code, if_neg code, start]

theorem uvmfree_bare (book : Book s live other) (lives : live r = true) (bare : (s.tables r).leaf = fun _ => none) :
    Ends (uvmfree r 0) s (fun _ s' => Book s' (update live r false) other ∧ Elsewhere r s s') bad := by
  have none : pages 0 = 0 := by decide
  refine uvmfree_spec book lives ?_ fun v _ => by rw [bare]
  rw [none, bare]
  exact ⟨Nat.zero_le _, nofun, fun _ _ _ => rfl⟩

theorem procPagetable_spec (f : Fin N) (book : Book s live other) : Ends (procPagetable f) s
    (fun found s' => (found = none → Book s' live other ∧ ∀ r', live r' = true → s'.tables r' = s.tables r') ∧
      ∀ r, found = some r → live r = false ∧ Book s' (update live r true) other ∧
        Image (s'.tables r).leaf f 0 ∧ Elsewhere r s s') bad := by
  unfold procPagetable
  apply ends_bind (uvmcreate_spec book)
  rintro found t ⟨missing, made⟩
  cases found with
  | none =>
    obtain ⟨book₁, same⟩ := missing rfl
    exact ends_pure ⟨fun _ => ⟨book₁, fun r' _ => by rw [same]⟩, nofun⟩
  | some r =>
    obtain ⟨fresh, book₁, empty, away⟩ := made r rfl
    have lives : update live r true r = true := update_self _ _ _
    -- when a mapping fails the table is taken down again
    have undone : ∀ {t'}, Book t' (update (update live r true) r false) other → (Elsewhere r s t') →
        Book t' live other ∧ ∀ r', live r' = true → t'.tables r' = s.tables r' := by
      intro t' book' same
      rw [update_idem, ← fresh, update_eq_self] at book'
      refine ⟨book', fun r' lives' => same r' ?_⟩
      rintro rfl
      rw [fresh] at lives'
      cases lives'
    have inside : (userTop + 1) * PGSIZE < MAXVA := by decide
    have inside' : userTop * PGSIZE < MAXVA := by decide
    rw [trampoline_va, trapframe_va]
    apply ends_bind (mappages_top book₁ lives (Nat.le_succ _) inside (by rw [empty]) .trampoline _)
    rintro ok t₁ ⟨book₂, mapped, failed⟩
    cases ok with
    | false =>
      have extends₁ := failed rfl
      apply ends_bind (uvmfree_bare book₂ lives (extends₁.leaf.trans empty))
      rintro _ t₂ ⟨book₃, same⟩
      refine ends_pure ⟨fun _ => undone book₃ fun r' apart => ?_, nofun⟩
      rw [same r' apart, extends₁.tables r' apart, away r' apart]
    | true =>
      have leaves₁ := mapped rfl
      have absent : (t₁.tables r).leaf userTop = none := by
        rw [leaves₁.leaf, update_of_ne (by omega), empty]
      apply ends_bind (mappages_top book₂ lives (Nat.le_refl _) inside' absent (.page f) _)
      rintro ok t₂ ⟨book₃, mapped', failed'⟩
      cases ok with
      | false =>
        have extends₂ := failed' rfl
        have code : (t₂.tables r).leaf (userTop + 1) = some ⟨.trampoline, ⟨false, true, false⟩⟩ := by
          rw [extends₂.leaf, leaves₁.leaf, update_self]
        apply ends_bind (unmap_top book₃ lives rfl (Nat.le_succ _) inside code)
        rintro _ t₃ ⟨book₄, leaves₃⟩
        have bare : (t₃.tables r).leaf = fun _ => none := by
          rw [leaves₃.leaf, extends₂.leaf, leaves₁.leaf, update_idem, empty]
          exact update_eq_self (userTop + 1) (fun _ => none)
        apply ends_bind (uvmfree_bare book₄ lives bare)
        rintro _ t₄ ⟨book₅, same⟩
        refine ends_pure ⟨fun _ => undone book₅ fun r' apart => ?_, nofun⟩
        rw [same r' apart, leaves₃.tables r' apart, extends₂.tables r' apart, leaves₁.tables r' apart, away r' apart]
      | true =>
        have leaves₂ := mapped' rfl
        refine ends_pure ⟨by rintro ⟨⟩, fun r₁ found => ?_⟩
        obtain rfl : r = r₁ := Option.some.inj found
        refine ⟨fresh, book₃, ?_, fun r' apart => ?_⟩
        · rw [leaves₂.leaf, leaves₁.leaf]
          exact image_top empty
        · rw [leaves₂.tables r' apart, leaves₁.tables r' apart, away r' apart]

theorem procFreepagetable_spec {f : Fin N} {sz : Nat} (book : Book s live other) (lives : live r = true)
    (image : Image (s.tables r).leaf f (pages sz)) : Ends (procFreepagetable r sz) s
      (fun _ s' => Book s' (update live r false) other ∧ Elsewhere r s s') bad := by
  have inside : (userTop + 1) * PGSIZE < MAXVA := by decide
  have inside' : userTop * PGSIZE < MAXVA := by decide
  have code : (s.tables r).leaf (userTop + 1) = some ⟨.trampoline, ⟨false, true, false⟩⟩ := by
    rw [image.top _ (Nat.le_succ _), topLeaves, if_neg (by omega), if_pos rfl]
  unfold procFreepagetable
  rw [trampoline_va, trapframe_va]
  apply ends_bind (unmap_top book lives rfl (Nat.le_succ _) inside code)
  rintro _ t₁ ⟨book₁, leaves₁⟩
  have frame : (t₁.tables r).leaf userTop = some ⟨.page f, ⟨true, false, false⟩⟩ := by
    rw [leaves₁.leaf, update_of_ne (by omega), image.top _ (Nat.le_refl _), topLeaves, if_pos rfl]
  apply ends_bind (unmap_top book₁ lives rfl (Nat.le_refl _) inside' frame)
  rintro _ t₂ ⟨book₂, leaves₂⟩
  have below : ∀ v, v < userTop → (t₂.tables r).leaf v = (s.tables r).leaf v := by
    intro v low
    rw [leaves₂.leaf, update_of_ne (by omega), leaves₁.leaf, update_of_ne (by omega)]
  have bound := image.users.bound
  have users : UserPages (t₂.tables r).leaf (pages sz) := by
    refine ⟨bound, fun v low => ?_, fun v high low => ?_⟩
    · rw [below v (by omega)]
      exact image.users.mapped v low
    rw [below v low]
    exact image.users.absent v high low
  refine ends_better (uvmfree_spec book₂ lives users ?_) ?_
  · intro v above
    rw [leaves₂.leaf]
    by_cases here : v = userTop
    · rw [here, update_self]
    rw [update_of_ne here, leaves₁.leaf]
    by_cases there : v = userTop + 1
    · rw [there, update_self]
    · rw [update_of_ne there, image.top v above, topLeaves, if_neg here, if_neg there]
  rintro _ t₃ ⟨book₃, same⟩
  refine ⟨book₃, fun r' apart => ?_⟩
  rw [same r' apart, leaves₂.tables r' apart, leaves₁.tables r' apart]

theorem uvmclear_spec {f : Fin N} (book : Book s live other) (lives : live r = true)
    (image : Image (s.tables r).leaf f k) {va : Nat} (first : va = v * PGSIZE) (low : v < k) :
    Ends (uvmclear r va) s (fun _ s' => Book s' live other ∧ Image (s'.tables r).leaf f k ∧ Elsewhere r s s') bad := by
  have below : v < userTop := Nat.lt_of_lt_of_le low image.users.bound
  have shape := book.shape r lives
  obtain ⟨pg, perm, mapped⟩ := image.users.mapped v low
  have page : va / PGSIZE = v := by
    rw [first]
    exact va_page v
  have present : (s.tables r).leaf (va / PGSIZE) ≠ none := by
    rw [page, mapped]
    nofun
  have lt : va < MAXVA := by
    rw [first]
    exact userVa_below below
  unfold uvmclear
  apply ends_bind (walk_found shape lt present)
  rintro ok t ⟨rfl, same⟩
  rw [same, page]
  refine ends_known rfl ⟨?_, ?_, fun r' apart => setTable_other _ _ apart⟩
  · beta_reduce
    rw [mapped]
    refine book_same book ?_ rfl rfl
      (shapes_setTable book.shape (shape_setLeaf shape (shape.leaf v (by rw [mapped]; nofun)) _))
    have held : own s live other (.user r v) = some pg := by
      rw [own, if_pos ⟨lives, below⟩, mapped]
      rfl
    rw [own_setLeaf lives below]
    change update (own s live other) (.user r v) (some pg) = _
    rw [← held, update_eq_self]
  rw [setTable_self]
  beta_reduce
  rw [mapped]
  refine ⟨⟨image.users.bound, ?_, ?_⟩, ?_⟩
  · intro w less
    by_cases here : w = v
    · rw [here]
      exact ⟨pg, _, update_self _ _ _⟩
    obtain ⟨pg', perm', other⟩ := image.users.mapped w less
    exact ⟨pg', perm', (update_of_ne here _ _).trans other⟩
  · intro w more top
    exact (update_of_ne (by omega) _ _).trans (image.users.absent w more top)
  intro w above
  exact (update_of_ne (by omega) _ _).trans (image.top w above)

end

end Xv6Vm
