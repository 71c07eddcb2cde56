import Xv6.Lib.Outcome
import Xv6.Lib.Ownership
import Xv6.Vm

/- Every page is free or in one place, and the code of the page tables moves pages between places. -/
namespace Xv6Vm
open Outcome Ownership Function

def userTop : Nat := TRAPFRAME / PGSIZE

/-- The nodes and the user pages of the page tables, and the other places for pages. -/
inductive Place (N : Nat) (O : Type) where
  | root (r : Fin N)
  | mid (r : Fin N) (k : Nat)
  | low (r : Fin N) (j : Nat)
  | user (r : Fin N) (v : Nat)
  | other (o : O)
  deriving DecidableEq

section
variable {N : Nat} {O : Type}
variable {v : Nat} {t : Table N} {j : Nat} {l : Place N O} {k : Nat}

def pageOf : Option (Leaf N) → Option (Fin N)
  | some ⟨.page pg, _⟩ => some pg
  | _ => none

/-- What is in a place; live tells which page tables there are. -/
def own (s : Vm N) (live : Fin N → Bool) (other : O → Option (Fin N)) : Place N O → Option (Fin N)
  | .root r => if live r then some r else none
  | .mid r k => if live r then (s.tables r).mid k else none
  | .low r j => if live r then (s.tables r).low j else none
  | .user r v => if live r ∧ v < userTop then pageOf ((s.tables r).leaf v) else none
  | .other o => other o

def used (s : Vm N) (pg : Fin N) : Bool := decide (pg ∉ s.freelist)

/-- A node has its parent. -/
structure Shape (t : Table N) : Prop where
  low : ∀ j, t.low j ≠ none → t.mid (j / 512) ≠ none
  leaf : ∀ v, t.leaf v ≠ none → t.low (v / 512) ≠ none
  range : ∀ k, t.mid k ≠ none → k < 512

structure Book (s : Vm N) (live : Fin N → Bool) (other : O → Option (Fin N)) : Prop where
  tracks : Tracks (fun _ => True) (own s live other) (used s)
  nodup : s.freelist.Nodup
  once : s.twice = false
  shape : ∀ r, live r = true → Shape (s.tables r)

variable {s s' : Vm N} {live live' : Fin N → Bool} {other other' : O → Option (Fin N)}
  {r r' pg : Fin N} {rest : List (Fin N)} {o : O}

theorem book_same (book : Book s live other) (owns : own s' live' other' = own s live other)
    (freelist : s'.freelist = s.freelist) (once : s'.twice = s.twice)
    (shape : ∀ r, live' r = true → Shape (s'.tables r)) : Book s' live' other' := by
  refine ⟨?_, ?_, once.trans book.once, shape⟩
  · have marks : used s' = used s := by
      funext c
      rw [used, used, freelist]
    rw [owns, marks]
    exact book.tracks
  rw [freelist]
  exact book.nodup

@[simp]
theorem free_tables : (s.free pg).tables = s.tables := rfl

theorem setTable_self (s : Vm N) (t : Table N) : (s.setTable r t).tables r = t := update_self _ _ _

theorem setTable_other (s : Vm N) (t : Table N) (apart : r' ≠ r) : (s.setTable r t).tables r' = s.tables r' :=
  update_of_ne apart _ _

theorem book_luck (book : Book s live other) (luck : List Bool) : Book (s.setLuck luck) live other := by
  refine book_same book ?_ rfl rfl book.shape
  funext l
  cases l <;> rfl

theorem own_table {t : Table N} (mid : ∀ k, l = .mid r k → t.mid k = (s.tables r).mid k)
    (low : ∀ j, l = .low r j → t.low j = (s.tables r).low j)
    (user : ∀ v, l = .user r v → v < userTop → t.leaf v = (s.tables r).leaf v) :
    own (s.setTable r t) live other l = own s live other l := by
  cases l with
  | root r' | other o => rfl
  | mid r' k =>
    by_cases same : r' = r
    · rw [own, own, same, setTable_self, mid k (by rw [same])]
    · rw [own, own, setTable_other s t same]
  | low r' j =>
    by_cases same : r' = r
    · rw [own, own, same, setTable_self, low j (by rw [same])]
    · rw [own, own, setTable_other s t same]
  | user r' v =>
    by_cases same : r' = r
    · by_cases below : v < userTop
      · rw [own, own, same, setTable_self, user v (by rw [same]) below]
      · simp [own, below]
    · rw [own, own, setTable_other s t same]

theorem own_setLeaf_apart {leaf : Option (Leaf N)} (apart : l ≠ .user r v ∨ userTop ≤ v) :
    own (s.setTable r ((s.tables r).setLeaf v leaf)) live other l = own s live other l := by
  refine own_table (fun _ _ => rfl) (fun _ _ => rfl) fun v' same below => ?_
  have different : v' ≠ v := by
    rcases apart with other | above
    · exact fun eq => other (by rw [same, eq])
    · omega
  simp [Table.setLeaf, different]

theorem own_setLeaf_top (above : userTop ≤ v) (leaf : Option (Leaf N)) :
    own (s.setTable r ((s.tables r).setLeaf v leaf)) live other = own s live other := by
  funext l
  exact own_setLeaf_apart (.inr above)

variable [DecidableEq O]

theorem book_take (book : Book s live other) (head : s.freelist = pg :: rest)
    (empty : own s live other l = none) (owns : own s' live' other' = update (own s live other) l (some pg))
    (freelist : s'.freelist = rest) (once : s'.twice = s.twice)
    (shape : ∀ r, live' r = true → Shape (s'.tables r)) : Book s' live' other' := by
  have nodup := book.nodup
  rw [head, List.nodup_cons] at nodup
  have free : used s pg = false := by simp [used, head]
  have marks : used s' = update (used s) pg true := by
    funext c
    by_cases same : c = pg
    · rw [same, update_self, used, freelist]
      simp [nodup.1]
    rw [update_of_ne same, used, used, freelist, head]
    simp [same]
  refine ⟨?_, ?_, once.trans book.once, shape⟩
  · rw [owns, marks]
    exact tracks_attach book.tracks trivial free empty
  rw [freelist]
  exact nodup.2

theorem book_give (book : Book s live other) (held : own s live other l = some pg)
    (owns : own s' live' other' = update (own s live other) l none)
    (freelist : s'.freelist = pg :: s.freelist) (once : s'.twice = (s.twice || decide (pg ∈ s.freelist)))
    (shape : ∀ r, live' r = true → Shape (s'.tables r)) : Book s' live' other' := by
  have taken := tracks_held book.tracks held
  have missing : pg ∉ s.freelist := of_decide_eq_true taken
  have marks : used s' = update (used s) pg false := by
    funext c
    by_cases same : c = pg
    · rw [same, update_self, used, freelist]
      simp
    rw [update_of_ne same, used, used, freelist]
    simp [same]
  refine ⟨?_, ?_, ?_, shape⟩
  · rw [owns, marks]
    exact tracks_detach book.tracks held
  · rw [freelist, List.nodup_cons]
    exact ⟨missing, book.nodup⟩
  rw [once, book.once]
  simp [missing]

theorem book_move (book : Book s live other) {l k : Place N O} (held : own s live other l = some pg)
    (apart : k ≠ l) (empty : own s live other k = none)
    (owns : own s' live' other' = update (update (own s live other) l none) k (some pg))
    (freelist : s'.freelist = s.freelist) (once : s'.twice = s.twice)
    (shape : ∀ r, live' r = true → Shape (s'.tables r)) : Book s' live' other' := by
  have taken := tracks_held book.tracks held
  have free : update (used s) pg false pg = false := update_self _ _ _
  have marks : used s' = update (update (used s) pg false) pg true := by
    rw [update_idem, ← taken, update_eq_self]
    funext c
    rw [used, used, freelist]
  refine ⟨?_, ?_, once.trans book.once, shape⟩
  · rw [owns, marks]
    apply tracks_attach (tracks_detach book.tracks held) trivial free
    rw [update_of_ne apart]
    exact empty
  rw [freelist]
  exact book.nodup

/- How the places change with a page table. -/

theorem own_other (s : Vm N) (x : Option (Fin N)) :
    own s live (update other o x) = update (own s live other) (.other o) x := by
  funext l
  cases l with
  | other o' =>
    by_cases same : o' = o
    · subst same
      rw [update_self]
      exact update_self _ _ _
    rw [update_of_ne fun eq => same (Place.other.inj eq)]
    exact update_of_ne same _ _
  | root r | mid r k | low r j | user r v =>
    rw [update_of_ne (by intro eq; cases eq)]
    rfl

theorem own_setMid (lives : live r = true) (k : Nat) (x : Option (Fin N))
    (bare : ∀ j, j / 512 = k → (s.tables r).low j = none) :
    own (s.setTable r ((s.tables r).setMid k x)) live other = update (own s live other) (.mid r k) x := by
  funext l
  by_cases here : l = .mid r k
  · rw [here, update_self, own, if_pos lives, setTable_self]
    exact update_self _ _ _
  rw [update_of_ne here]
  refine own_table (fun k' same => ?_) (fun j same => ?_) fun _ _ _ => rfl
  · have apart : k' ≠ k := fun eq => here (by rw [same, eq])
    simp [Table.setMid, apart]
  rw [Table.setMid]
  by_cases under : j / 512 = k
  · simp [under, bare j under]
  · simp [under]

theorem own_setLow (lives : live r = true) (j : Nat) (x : Option (Fin N))
    (bare : ∀ v, v / 512 = j → (s.tables r).leaf v = none) :
    own (s.setTable r ((s.tables r).setLow j x)) live other = update (own s live other) (.low r j) x := by
  funext l
  by_cases here : l = .low r j
  · rw [here, update_self, own, if_pos lives, setTable_self]
    exact update_self _ _ _
  rw [update_of_ne here]
  refine own_table (fun _ _ => rfl) (fun j' same => ?_) fun v same _ => ?_
  · have apart : j' ≠ j := fun eq => here (by rw [same, eq])
    simp [Table.setLow, apart]
  rw [Table.setLow]
  by_cases under : v / 512 = j
  · simp [under, bare v under]
  · simp [under]

theorem own_setLeaf (lives : live r = true) (below : v < userTop) (leaf : Option (Leaf N)) :
    own (s.setTable r ((s.tables r).setLeaf v leaf)) live other =
      update (own s live other) (.user r v) (pageOf leaf) := by
  funext l
  by_cases here : l = .user r v
  · rw [here, update_self, own, if_pos ⟨lives, below⟩, setTable_self]
    simp [Table.setLeaf]
  rw [update_of_ne here]
  exact own_setLeaf_apart (.inl here)

/- The shape of a table. -/

theorem shape_empty : Shape (Table.empty : Table N) := ⟨nofun, nofun, nofun⟩

theorem low_of_mid (shape : Shape t) (absent : t.mid k = none) (under : j / 512 = k) : t.low j = none := by
  by_contra present
  exact shape.low j present (under ▸ absent)

theorem leaf_of_low (shape : Shape t) (absent : t.low j = none) (under : v / 512 = j) : t.leaf v = none := by
  by_contra present
  exact shape.leaf v present (under ▸ absent)

theorem shape_setMid (shape : Shape t) (range : k < 512) (absent : t.mid k = none) : Shape (t.setMid k (some pg)) := by
  have kept : ∀ j, (t.setMid k (some pg)).low j = t.low j := by
    intro j
    by_cases under : j / 512 = k
    · simp [Table.setMid, under, low_of_mid shape absent under]
    · simp [Table.setMid, under]
  refine ⟨?_, ?_, ?_⟩
  · intro j present
    rw [kept] at present
    have above := shape.low j present
    rw [Table.setMid]
    by_cases same : j / 512 = k
    · rw [same]
      simp
    simp only [update_of_ne same]
    exact above
  · intro v present
    rw [kept]
    exact shape.leaf v present
  intro k' present
  by_cases same : k' = k
  · omega
  rw [Table.setMid] at present
  simp only [update_of_ne same] at present
  exact shape.range k' present

theorem setLow_leaf (shape : Shape t) (absent : t.low j = none) : (t.setLow j (some pg)).leaf = t.leaf := by
  funext v
  by_cases under : v / 512 = j
  · simp [Table.setLow, under, leaf_of_low shape absent under]
  · simp [Table.setLow, under]

theorem shape_setLow (shape : Shape t) (above : t.mid (j / 512) ≠ none)
    (absent : t.low j = none) : Shape (t.setLow j (some pg)) := by
  refine ⟨?_, ?_, shape.range⟩
  · intro j' present
    by_cases same : j' = j
    · rw [same]
      exact above
    rw [Table.setLow] at present
    simp only [update_of_ne same] at present
    exact shape.low j' present
  intro v present
  rw [setLow_leaf shape absent] at present
  have node := shape.leaf v present
  rw [Table.setLow]
  by_cases same : v / 512 = j
  · rw [same]
    simp
  simp only [update_of_ne same]
  exact node

theorem shape_setLeaf (shape : Shape t) (node : t.low (v / 512) ≠ none)
    (leaf : Option (Leaf N)) : Shape (t.setLeaf v leaf) := by
  refine ⟨shape.low, ?_, shape.range⟩
  intro v' present
  by_cases same : v' = v
  · rw [same]
    exact node
  rw [Table.setLeaf] at present
  simp only [update_of_ne same] at present
  exact shape.leaf v' present

theorem shapes_setTable (shapes : ∀ r, live r = true → Shape (s.tables r)) (shape : Shape t) :
    ∀ r', live r' = true → Shape ((s.setTable r t).tables r') := by
  intro r' lives
  by_cases same : r' = r
  · rw [same, setTable_self]
    exact shape
  rw [setTable_other _ _ same]
  exact shapes r' lives

/- The code. -/

variable {A : Type} {good : A → Vm N → Prop} {bad : String → Prop}

theorem kalloc_then {f : Option (Fin N) → M N A} (none : ∀ luck, Ends (f none) (s.setLuck luck) good bad)
    (some : ∀ pg rest luck, s.freelist = pg :: rest → Ends (f (some pg)) ((s.setFree rest).setLuck luck) good bad) :
    Ends (kalloc >>= f) s good bad := by
  have res : kalloc s = .ok (Option.none, s.setLuck s.luck.tail) ∨ ∃ pg rest, s.freelist = pg :: rest ∧
      kalloc s = .ok (Option.some pg, (s.setFree rest).setLuck s.luck.tail) := by
    obtain ⟨freelist, tables, luck, twice⟩ := s
    match luck, freelist with
    | true :: luck, _ => exact .inl rfl
    | false :: luck, [] => exact .inl rfl
    | [], [] => exact .inl rfl
    | false :: luck, pg :: rest => exact .inr ⟨pg, rest, rfl, rfl⟩
    | [], pg :: rest => exact .inr ⟨pg, rest, rfl, rfl⟩
  rcases res with failed | ⟨pg, rest, head, took⟩
  · exact known_then failed (none _)
  · exact known_then took (some pg rest _ head)

/-- The tables but that of r are as they were. -/
abbrev Elsewhere (r : Fin N) (s s' : Vm N) : Prop := ∀ r', r' ≠ r → s'.tables r' = s.tables r'

/-- One page table gets these leaves, and perhaps other nodes. -/
structure Leaves (r : Fin N) (s s' : Vm N) (leaf : Nat → Option (Leaf N)) : Prop where
  tables : ∀ r', r' ≠ r → s'.tables r' = s.tables r'
  leaf : (s'.tables r).leaf = leaf

/-- Only nodes are added, and only to one page table. -/
abbrev Extends (r : Fin N) (s s' : Vm N) : Prop := Leaves r s s' (s.tables r).leaf

theorem extends_refl (r : Fin N) (s : Vm N) : Extends r s s := ⟨fun _ _ => rfl, rfl⟩

theorem leaves_trans {t : Vm N} {leaf leaf' : Nat → Option (Leaf N)} (first : Leaves r s t leaf)
    (snd : Leaves r t s' leaf') : Leaves r s s' leaf' :=
  ⟨fun r' other => (snd.tables r' other).trans (first.tables r' other), snd.leaf⟩

theorem extends_trans {t : Vm N} (first : Extends r s t) (snd : Extends r t s') : Extends r s s' :=
  ⟨fun r' other => (snd.tables r' other).trans (first.tables r' other), snd.leaf.trans first.leaf⟩

/-- A node that kalloc gives, in the place l of the page table. -/
theorem node_spec (node : Table N → Option (Fin N)) (book : Book s live other) {set : Fin N → Table N → Table N}
    (here : own s live other l = node (s.tables r)) (kept : ∀ pg, node (set pg (s.tables r)) = some pg)
    (owns : node (s.tables r) = none → ∀ pg, Shape (set pg (s.tables r)) ∧
      (set pg (s.tables r)).leaf = (s.tables r).leaf ∧
      own (s.setTable r (set pg (s.tables r))) live other = update (own s live other) l (some pg)) :
    Ends (walkNode (node (s.tables r)) true fun pg => setTable r (set pg)) s
      (fun ok s' => Book s' live other ∧ Extends r s s' ∧ (ok = true → node (s'.tables r) ≠ none)) bad := by
  unfold walkNode
  cases present : node (s.tables r) with
  | some pg =>
    refine ends_pure ⟨book, extends_refl r s, fun _ => ?_⟩
    rw [present]
    exact Option.some_ne_none pg
  | none =>
    refine kalloc_then (fun luck => ends_pure ⟨book_luck book luck, ⟨fun _ _ => rfl, rfl⟩, nofun⟩) ?_
    intro pg rest luck head
    obtain ⟨shape, leaf, owns⟩ := owns present pg
    refine modify_then (ends_pure ⟨?_, ⟨?_, ?_⟩, fun _ => ?_⟩)
    · refine book_take (l := l) book head (here.trans present) ?_ rfl rfl ?_
      · rw [← owns]
        funext l
        cases l <;> rfl
      · exact shapes_setTable (s := (s.setFree rest).setLuck luck) book.shape shape
    · exact fun r' apart => setTable_other _ _ apart
    · rw [setTable_self]
      exact leaf
    rw [setTable_self]
    exact (kept pg).trans_ne (Option.some_ne_none pg)

section
variable (book : Book s live other) (lives : live r = true)
include book lives

theorem walkMid_spec (range : k < 512) :
    Ends (walkNode ((s.tables r).mid k) true fun pg => setTable r fun t => t.setMid k (some pg)) s
      (fun ok s' => Book s' live other ∧ Extends r s s' ∧ (ok = true → (s'.tables r).mid k ≠ none)) bad := by
  have shape := book.shape r lives
  refine node_spec (fun t => t.mid k) book (l := .mid r k) (if_pos lives) (fun _ => update_self ..) ?_
  intro absent pg
  exact ⟨shape_setMid shape range absent, rfl, own_setMid lives k _ fun j => low_of_mid shape absent⟩

theorem walkLow_spec (above : (s.tables r).mid (j / 512) ≠ none) :
    Ends (walkNode ((s.tables r).low j) true fun pg => setTable r fun t => t.setLow j (some pg)) s
      (fun ok s' => Book s' live other ∧ Extends r s s' ∧ (ok = true → (s'.tables r).low j ≠ none)) bad := by
  have shape := book.shape r lives
  refine node_spec (fun t => t.low j) book (l := .low r j) (if_pos lives) (fun _ => update_self ..) ?_
  intro absent pg
  exact ⟨shape_setLow shape above absent, setLow_leaf shape absent, own_setLow lives j _ fun v => leaf_of_low shape absent⟩

theorem walk_spec {va : Nat} (below : va < MAXVA) : Ends (walk r va true) s
      (fun ok s' => Book s' live other ∧ Extends r s s' ∧ (ok = true → (s'.tables r).low (va / 2 ^ 21) ≠ none)) bad := by
  have path : va / 2 ^ 21 / 512 = va / 2 ^ 30 := Nat.div_div_eq_div_mul va _ _
  unfold walk
  rw [if_neg (Nat.not_le.mpr below)]
  apply get_then
  have range : va / 2 ^ 30 < 512 := by
    unfold MAXVA at below
    omega
  apply ends_bind (walkMid_spec book lives range)
  rintro ok t ⟨book₁, extends₁, node⟩
  cases ok with
  | false => exact ends_pure ⟨book₁, extends₁, nofun⟩
  | true =>
    apply get_then
    apply ends_better (walkLow_spec book₁ lives (by rw [path]; exact node rfl))
    rintro ok t' ⟨book₂, extends₂, node₂⟩
    exact ⟨book₂, extends_trans extends₁ extends₂, node₂⟩

end

theorem walk_found (shape : Shape (s.tables r)) {va : Nat} (below : va < MAXVA)
    (mapped : (s.tables r).leaf (va / PGSIZE) ≠ none) :
    Ends (walk r va false) s (fun ok s' => ok = true ∧ s' = s) bad := by
  have node : (s.tables r).low (va / 2 ^ 21) ≠ none := by
    have path : va / PGSIZE / 512 = va / 2 ^ 21 := Nat.div_div_eq_div_mul va _ _
    rw [← path]
    exact shape.leaf _ mapped
  have node' : (s.tables r).mid (va / 2 ^ 30) ≠ none := by
    have path : va / 2 ^ 21 / 512 = va / 2 ^ 30 := Nat.div_div_eq_div_mul va _ _
    rw [← path]
    exact shape.low _ node
  obtain ⟨pg, low⟩ := Option.ne_none_iff_exists'.mp node
  obtain ⟨pg', mid⟩ := Option.ne_none_iff_exists'.mp node'
  unfold walk
  rw [if_neg (Nat.not_le.mpr below)]
  apply get_then
  rw [mid]
  refine known_then rfl (get_then ?_)
  rw [low]
  exact ends_pure ⟨rfl, rfl⟩

/- Leaves. -/

theorem va_page (v : Nat) : v * PGSIZE / PGSIZE = v := Nat.mul_div_cancel v (by decide)

theorem userVa_below (below : v < userTop) : v * PGSIZE < MAXVA := by
  unfold userTop TRAPFRAME TRAMPOLINE MAXVA PGSIZE at *
  omega

theorem va_low (v : Nat) : v * PGSIZE / 2 ^ 21 = v / 512 := by
  unfold PGSIZE
  omega

section
variable (book : Book s live other)
include book

theorem book_map (lives : live r = true) (hand : other o = some pg) (below : v < userTop)
    (node : (s.tables r).low (v / 512) ≠ none) (absent : (s.tables r).leaf v = none) (perm : Perm) :
    Book (s.setTable r ((s.tables r).setLeaf v (some ⟨.page pg, perm⟩))) live (update other o none) := by
  refine book_move (l := .other o) (k := .user r v) book hand nofun ?_ ?_ rfl rfl ?_
  · rw [own, if_pos ⟨lives, below⟩, absent]
    rfl
  · rw [own_setLeaf lives below, own_other]
    rfl
  · exact shapes_setTable book.shape (shape_setLeaf (book.shape r lives) node _)

theorem mappages_user (lives : live r = true) (hand : other o = some pg) (below : v < userTop)
    (absent : (s.tables r).leaf v = none) (perm : Perm) : Ends (mappages r (v * PGSIZE) (.page pg) perm) s
      (fun ok s' => (ok = true → Book s' live (update other o none) ∧
        Leaves r s s' (update (s.tables r).leaf v (some ⟨.page pg, perm⟩))) ∧
        (ok = false → Book s' live other ∧ Extends r s s')) bad := by
  apply ends_bind (walk_spec book lives (userVa_below below))
  rintro ok t ⟨book₁, extends₁, node⟩
  cases ok with
  | false => exact ends_pure ⟨by rintro ⟨⟩, fun _ => ⟨book₁, extends₁⟩⟩
  | true =>
    have node := node rfl
    have absent₁ : (t.tables r).leaf v = none := by
      rw [extends₁.leaf]
      exact absent
    rw [va_low] at node
    apply get_then
    rw [va_page, absent₁]
    refine modify_then (ends_pure ⟨fun _ => ⟨book_map book₁ lives hand below node absent₁ perm, ?_, ?_⟩, nofun⟩)
    · exact fun r' apart => (setTable_other _ _ apart).trans (extends₁.tables r' apart)
    rw [setTable_self, ← extends₁.leaf]
    rfl

theorem mappages_top (lives : live r = true) (above : userTop ≤ v) (lt : v * PGSIZE < MAXVA)
    (absent : (s.tables r).leaf v = none) (pa : Frame N) (perm : Perm) :
    Ends (mappages r (v * PGSIZE) pa perm) s (fun ok s' => Book s' live other ∧ (ok = true →
        Leaves r s s' (update (s.tables r).leaf v (some ⟨pa, perm⟩))) ∧ (ok = false → Extends r s s')) bad := by
  apply ends_bind (walk_spec book lives lt)
  rintro ok t ⟨book₁, extends₁, node⟩
  cases ok with
  | false => exact ends_pure ⟨book₁, by rintro ⟨⟩, fun _ => extends₁⟩
  | true =>
    have node := node rfl
    have absent₁ : (t.tables r).leaf v = none := by
      rw [extends₁.leaf]
      exact absent
    rw [va_low] at node
    apply get_then
    rw [va_page, absent₁]
    refine modify_then (ends_pure ⟨?_, fun _ => ⟨?_, ?_⟩, nofun⟩)
    · exact book_same book₁ (own_setLeaf_top above _) rfl rfl
        (shapes_setTable book₁.shape (shape_setLeaf (book₁.shape r lives) node _))
    · exact fun r' apart => (setTable_other _ _ apart).trans (extends₁.tables r' apart)
    rw [setTable_self, ← extends₁.leaf]
    rfl

theorem book_drop (hand : other o = some pg) : Book (s.free pg) live (update other o none) := by
  refine book_give (l := .other o) book hand ?_ rfl rfl book.shape
  rw [own_other]
  congr 1

theorem book_grab (hand : other o = none) (head : s.freelist = pg :: rest)
    (luck : List Bool) : Book ((s.setFree rest).setLuck luck) live (update other o (some pg)) := by
  refine book_take (l := .other o) book head hand ?_ rfl rfl book.shape
  rw [own_other]
  congr 1

theorem book_unmap (lives : live r = true) (below : v < userTop) {perm : Perm}
    (mapped : (s.tables r).leaf v = some ⟨.page pg, perm⟩) :
    Book ((s.free pg).setTable r ((s.tables r).setLeaf v none)) live other := by
  have shape := book.shape r lives
  refine book_give (l := .user r v) book ?_ ?_ rfl rfl ?_
  · rw [own, if_pos ⟨lives, below⟩, mapped]
    rfl
  · change own (s.setTable r ((s.tables r).setLeaf v none)) live other = _
    rw [own_setLeaf lives below]
    rfl
  · exact shapes_setTable (s := s.free pg) book.shape (shape_setLeaf shape (shape.leaf v (by rw [mapped]; nofun)) _)

end

def without (leaf : Nat → Option (Leaf N)) (v count : Nat) : Nat → Option (Leaf N) :=
  fun w => if v ≤ w ∧ w < v + count then none else leaf w

theorem uvmunmapFrom_user (count v : Nat) (book : Book s live other) (lives : live r = true)
    (below : v + count ≤ userTop)
    (mapped : ∀ w, v ≤ w → w < v + count → ∃ pg perm, (s.tables r).leaf w = some ⟨.page pg, perm⟩) :
    Ends (uvmunmapFrom r true count (v * PGSIZE)) s
      (fun _ s' => Book s' live other ∧ Leaves r s s' (without (s.tables r).leaf v count)) bad := by
  induction count generalizing s v with
  | zero =>
    refine ends_pure ⟨book, fun _ _ => rfl, ?_⟩
    funext w
    rw [without, if_neg (by omega)]
  | succ count ih =>
    have first : v < userTop := by omega
    obtain ⟨pg, perm, leaf⟩ := mapped v (Nat.le_refl v) (by omega)
    have present : (s.tables r).leaf (v * PGSIZE / PGSIZE) ≠ none := by
      rw [va_page, leaf]
      nofun
    apply ends_bind (walk_found (book.shape r lives) (userVa_below first) present)
    rintro _ _ ⟨rfl, rfl⟩
    apply get_then
    rw [va_page, leaf]
    refine modify_then (modify_then ?_)
    have next : v * PGSIZE + PGSIZE = (v + 1) * PGSIZE := (Nat.succ_mul v PGSIZE).symm
    rw [next]
    have after := book_unmap book lives first leaf
    refine ends_better (ih (v + 1) after (by omega) ?_) ?_
    · intro w low high
      obtain ⟨pg', perm', leaf'⟩ := mapped w (by omega) (by omega)
      refine ⟨pg', perm', ?_⟩
      rw [setTable_self]
      simp [Table.setLeaf, update_of_ne (show w ≠ v by omega), leaf']
    rintro _ s' ⟨book', leaves⟩
    refine ⟨book', fun r' apart => (leaves.tables r' apart).trans (setTable_other _ _ apart), ?_⟩
    rw [leaves.leaf, setTable_self]
    funext w
    unfold without
    by_cases inner : v + 1 ≤ w ∧ w < v + 1 + count
    · rw [if_pos inner, if_pos (by omega)]
    rw [if_neg inner]
    by_cases same : w = v
    · rw [same, if_pos (by omega)]
      simp [Table.setLeaf]
    rw [if_neg (by omega)]
    simp [Table.setLeaf, same]

end

end Xv6Vm
