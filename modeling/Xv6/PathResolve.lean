import Xv6.Boot

/- namei and nameiparent follow the elements of the path through the tree. -/
namespace Xv6Fs
open Xv6 Bytes Outcome Ownership

def components (path : List UInt8) : List (List UInt8) :=
  ((path.splitOn slash).filter (· ≠ [])).map (List.take dirSiz)

def descend (N : Nodes) (i : Nat) : List (List UInt8) → Option Nat
  | [] => some i
  | name :: rest => if (N i).type ≠ tDir then none else ((N i).lookup name).bind fun j => descend N j rest

/-- The directory that all names but the last lead to, and the last. -/
def descendParent (N : Nodes) (i : Nat) (names : List (List UInt8)) : Option (Nat × List UInt8) :=
  names.getLast?.bind fun last => (descend N i names.dropLast).bind fun d =>
    if (N d).type ≠ tDir then none else some (d, last)

section
variable {path name rest : List UInt8} {N : Nodes}

theorem components_slash (path : List UInt8) : components (slash :: path) = components path := by
  simp [components, List.splitOn, List.splitOnP_cons_eq_if_modifyHead]

theorem components_dropSlashes (path : List UInt8) : components (path.dropWhile (· = slash)) = components path := by
  induction path with
  | nil => rfl
  | cons c path ih =>
    by_cases first : c = slash
    · rw [List.dropWhile_cons_of_pos (by simpa using first), ih, first, components_slash]
    · rw [List.dropWhile_cons_of_neg (by simpa using first)]

theorem components_first {c : UInt8} (first : c ≠ slash) :
    components (c :: path) = ((c :: path).takeWhile (· ≠ slash)).take dirSiz ::
      components ((c :: path).dropWhile (· ≠ slash)) := by
  have whole := List.takeWhile_append_dropWhile (p := fun x => decide (x ≠ slash)) (l := c :: path)
  have plain : ∀ x ∈ (c :: path).takeWhile (· ≠ slash), (x == slash) = false := by
    intro x mem
    simpa using List.all_eq_true.mp List.all_takeWhile x mem
  have some : (c :: path).takeWhile (· ≠ slash) ≠ [] := by simp [first]
  cases after : (c :: path).dropWhile (· ≠ slash) with
  | nil =>
    rw [after, List.append_nil] at whole
    rw [whole] at plain ⊢
    rw [components, List.splitOn, List.splitOnP_eq_singleton plain]
    simp [components]
  | cons d tail =>
    have stop : d = slash := by
      have head := List.head?_dropWhile_not (fun x => decide (x ≠ slash)) (c :: path)
      rw [after] at head
      simpa using head
    rw [after, stop] at whole
    rw [stop, components_slash]
    nth_rewrite 1 [← whole]
    rw [components, List.splitOn, List.splitOnP_append_cons_of_forall_mem plain _ (by simp)]
    simp only [components, List.splitOn, List.filter_cons, some, ne_eq, not_false_eq_true, decide_true, if_true,
      List.map_cons]

theorem skipelem_none (done : skipelem path = none) : components path = [] := by
  unfold skipelem at done
  split at done
  · rename_i empty
    rw [← components_dropSlashes, empty]
    rfl
  · cases done

theorem skipelem_some (found : skipelem path = some (name, rest)) :
    components path = name :: components rest ∧ (components rest = [] → rest = []) := by
  unfold skipelem at found
  split at found
  · cases found
  rename_i tail nonempty
  obtain ⟨rfl, rfl⟩ := Prod.mk.inj (Option.some.inj found)
  have start : ∀ c cs, path.dropWhile (· = slash) = c :: cs → c ≠ slash := by
    intro c cs head
    have stopped := List.head?_dropWhile_not (fun x : UInt8 => decide (x = slash)) path
    rw [head] at stopped
    simpa using stopped
  constructor
  · rw [components_dropSlashes, ← components_dropSlashes path]
    cases head : path.dropWhile (· = slash) with
    | nil => exact absurd head nonempty
    | cons c cs => exact components_first (start c cs head)
  intro empty
  cases head : ((path.dropWhile (· = slash)).dropWhile (· ≠ slash)).dropWhile (· = slash) with
  | nil => rfl
  | cons c cs =>
    have stopped := List.head?_dropWhile_not (fun x : UInt8 => decide (x = slash))
      ((path.dropWhile (· = slash)).dropWhile (· ≠ slash))
    rw [head] at stopped
    rw [head, components_first (by simpa using stopped)] at empty
    cases empty

theorem descendParent_next {i : Nat} {names : List (List UInt8)} (more : names ≠ []) :
    descendParent N i (name :: names) = if (N i).type ≠ tDir then none
      else ((N i).lookup name).bind fun j => descendParent N j names := by
  unfold descendParent
  rw [List.getLast?_cons_of_ne_nil more, List.dropLast_cons_of_ne_nil more, descend]
  cases last : names.getLast? with
  | none => exact absurd (List.getLast?_eq_none_iff.mp last) more
  | some l =>
    by_cases file : (N i).type ≠ tDir
    · simp only [if_pos file, Option.bind_some, Option.bind_none]
    cases (N i).lookup name with
    | none => simp only [if_neg file, Option.bind_some, Option.bind_none]
    | some j => simp only [if_neg file, Option.bind_some]

theorem walk_descends {fuel : Nat} (enough : path.length < fuel) (i : Nat) :
    walk N false fuel path i = (descend N i (components path)).map (·, []) ∧
      walk N true fuel path i = descendParent N i (components path) := by
  induction fuel generalizing path i with
  | zero => omega
  | succ fuel ih =>
    unfold walk
    cases element : skipelem path with
    | none =>
      rw [skipelem_none element]
      exact ⟨rfl, rfl⟩
    | some pair =>
      obtain ⟨name, rest⟩ := pair
      have shorter := skipelem_shorter element
      obtain ⟨split, last⟩ := skipelem_some element
      rw [split]
      constructor
      · rw [descend]
        by_cases file : (N i).type ≠ tDir
        · simp only [if_pos file, Option.map_none]
        simp only [if_neg file, Bool.false_eq_true, false_and, if_false]
        cases (N i).lookup name with
        | none => rfl
        | some j => exact (ih (by omega) j).1
      by_cases more : rest = []
      · by_cases file : (N i).type ≠ tDir
        · simp [file, more, descendParent, descend, components]
        · simp [file, more, descendParent, descend, components]
      rw [descendParent_next fun empty => more (last empty)]
      by_cases file : (N i).type ≠ tDir
      · simp only [if_pos file]
      simp only [if_neg file, more, and_false, if_false]
      cases (N i).lookup name with
      | none => rfl
      | some j => exact (ih (by omega) j).2

end

/- The walk returns. -/

def Lone (s : Fs) (l : Option Ip) : Prop := ∀ jp, (s.itable jp).locked = decide (l = some jp)

section
variable {s : Fs} {h w : Ip → Nat} {ip : Ip} {l : Option Ip} {e : Inode}

theorem lone_setIp {l' : Option Ip} (lone : Lone s l) (mine : e.locked = decide (l' = some ip))
    (others : ∀ jp, jp ≠ ip → (l' = some jp ↔ l = some jp)) : Lone (s.setIp ip e) l' := by
  intro jp
  by_cases here : jp = ip
  · rw [here, setIp_entry, mine]
  rw [setIp_other e here, lone jp, decide_eq_decide]
  exact (others jp here).symm

theorem lone_ref (lone : Lone s l) (same : e.locked = (s.itable ip).locked) : Lone (s.setIp ip e) l :=
  lone_setIp lone (same.trans (lone ip)) fun _ _ => Iff.rfl

theorem ilock_lone (lone : Lone s none) (active : 0 < (s.itable ip).ref) :
    Ends (ilock ip) s (fun _ t => Lone t (some ip)) (· = "ilock: no type") := by
  have locks : ∀ e : Inode, e.locked = true → Lone (s.setIp ip e) (some ip) := by
    intro e locked
    refine lone_setIp lone (by simp [locked]) fun jp other => ?_
    simp [Ne.symm other]
  refine get_then (ends_ite (fun idle => by omega) fun _ => ends_ite (fun busy => ?_) fun _ =>
    ends_ite (fun _ => ends_known rfl (locks _ rfl)) fun _ => modify_then ?_)
  · rw [lone ip] at busy
    cases busy
  · exact ends_ite (fun _ => ends_throw rfl) fun _ => ends_pure (locks _ rfl)

theorem iunlock_lone (lone : Lone s (some ip)) (active : 0 < (s.itable ip).ref) :
    Ends (iunlock ip) s (fun _ t => Lone t none) (fun _ => False) := by
  refine get_then (ends_ite (fun wrong => ?_) fun _ => ends_known rfl ?_)
  · rw [lone ip] at wrong
    rcases wrong with unlocked | idle
    · simp at unlocked
    · omega
  · exact lone_setIp lone rfl fun jp other => by simp [Ne.symm other]

theorem iunlockput_lone (lone : Lone s (some ip)) (books : Books s h (w + one ip)) :
    Ends (iunlockput ip) s (fun _ t => Lone t none) (fun _ => False) := by
  have active := ref_pos books (.inr (add_one_pos w ip))
  refine ends_step (ends_and (books_iunlock books ip) (iunlock_lone lone active)) (fun _ => And.right) ?_
  rintro _ t ⟨⟨kept, -⟩, free⟩
  exact ends_known (iput_stays (books_stays kept)) (lone_ref free rfl)

theorem lone_got {inum : Nat} (lone : Lone s l) (got : Got s inum ip e) : Lone (s.setIp ip e) l := by
  cases got with
  | again live num => exact lone_ref lone rfl
  | fresh empty absent => exact lone_ref lone rfl

theorem dirlookup_lone (lone : Lone s l) (books : Books s h w) (cached : Cached s ip) (name : List UInt8) :
    Ends (dirlookup ip name) s (fun _ t => Lone t l) (fun _ => True) := by
  refine ends_mono (dirlookup_spec name (held_full books.inv (held_of books cached))) ?_ fun _ _ => trivial
  rintro r t ⟨-, looked⟩
  cases looked with
  | absent unnamed => exact lone
  | found hit first got => exact lone_got lone got

def Sized (sb : Superblock) (d : Disk) : Prop :=
  ∀ i < sb.ninodes, (getDinode sb d i).type = tDir → (getDinode sb d i).size.toNat % direntSize = 0

theorem dirlookup_finds {msg : String} (books : Books s h (one ip)) (cached : Cached s ip)
    (sized : Sized s.sb s.disk) (dir : (s.itable ip).dn.type = tDir)
    (spare : ∃ a b, a ≠ b ∧ h a = 0 ∧ h b = 0) : ¬ LookupPanics s ip msg := by
  rintro ⟨-, crowded⟩
  have copy := books.sync ip cached
  have busy := crowded dir (by
    rw [← copy]
    exact sized _ (books.bounded ip cached.1) (by rw [copy]; exact dir))
  obtain ⟨a, b, apart, first, snd⟩ := spare
  by_cases here : a = ip
  · apply busy b
    rw [books.refs b, Pi.add_apply, snd, one_other (by rw [← here]; exact apart.symm)]
    rfl
  apply busy a
  rw [books.refs a, Pi.add_apply, first, one_other here]
  rfl

theorem namexFrom_returns {n : Nat} {N : Nodes} {fuel : Nat} {path : List UInt8} {parent : Bool}
    (shape : Shape n N) (tree : ∀ i, (N i).type = tDir → ¬ Orphan N i)
    (spare : ∃ a b, a ≠ b ∧ h a = 0 ∧ h b = 0) (books : Books s h (one ip)) (same : nodes s = N)
    (size : s.sb.ninodes = n) (lone : Lone s none) (sized : Sized s.sb s.disk)
    (live : (N (s.itable ip).inum).type ≠ 0) :
    Ends (namexFrom parent fuel path ip) s (fun _ _ => True) (fun _ => False) := by
  induction fuel generalizing s path ip with
  | zero => exact ends_pure trivial
  | succ fuel ih =>
    have mine : Books s h (0 + one ip) := by rwa [zero_add]
    have held := one_pos ip
    unfold namexFrom
    cases element : skipelem path with
    | none =>
      cases parent with
      | true => exact ends_bind (books_iput_work mine) fun _ _ _ => ends_pure trivial
      | false => exact ends_pure trivial
    | some pair =>
      obtain ⟨name, rest⟩ := pair
      refine ends_step (ends_and (unchanged_ilock books (.inr held))
        (ilock_lone lone (ref_pos books (.inr held)))) ?_ ?_
      · rintro msg ⟨free, text⟩
        exact live (same ▸ free text)
      rintro _ t ⟨⟨kept, steady, unchanged, cached, -⟩, locked⟩
      have here := steady_inum steady
      have tree' : nodes t = N := unchanged.1.trans same
      have mine' : Books t h (0 + one ip) := by rwa [zero_add]
      have type := type_cached kept cached
      have leave : ∀ r, Ends (do iunlockput ip; pure r : M (Option (Ip × List UInt8))) t (fun _ _ => True)
          (fun _ => False) :=
        fun r => ends_bind (iunlockput_lone locked mine') fun _ _ _ => ends_pure trivial
      refine get_then (ends_ite (fun _ => leave none) fun dir => ends_ite (fun _ => ?_) fun _ => ?_)
      · exact ends_bind (iunlock_lone locked (ref_pos kept (.inr held))) fun _ _ _ => ends_pure trivial
      rw [not_not] at dir
      have folder : (N (s.itable ip).inum).type = tDir := by rw [← tree', ← here, ← type, dir]
      have reach := slot_inside shape (by rw [steady.1, size]) tree' here folder name
      have sized' : Sized t.sb t.disk := by rwa [steady.1, unchanged.2]
      refine ends_step (ends_and (books_dirlookup kept cached name reach)
        (ends_and (dirlookup_disk kept cached name) (dirlookup_lone locked kept cached name)))
        (fun msg panic => dirlookup_finds kept cached sized' dir spare panic.1) ?_
      rw [here, tree']
      rintro r u ⟨⟨-, ⟨rfl, rfl, -⟩ | ⟨jp, k, rfl, slot, kept', unchanged', steady', named⟩⟩, disk, locked'⟩
      · exact leave none
      rw [add_comm] at kept'
      refine ends_step (ends_and (unchanged_iunlockput kept') (iunlockput_lone locked' kept'))
        (fun _ => And.right) ?_
      rintro _ v ⟨⟨kept'', steady'', unchanged''⟩, free⟩
      have there : (v.itable jp).inum = ((N (s.itable ip).inum).ent k).1 :=
        (steady_inum steady'').trans named
      have sb : v.sb = t.sb := steady''.1.trans steady'.1
      refine ih kept'' (unchanged''.1.trans unchanged') (by rw [sb, steady.1, size]) free ?_ ?_
      · rw [sb, unchanged''.2, disk]
        exact sized'
      rw [there]
      exact (slot_live shape folder slot).2.resolve_right fun removed => tree _ folder removed.1

end

theorem namexStart_lone {s : Fs} {l : Option Ip} (lone : Lone s l) (cwd : Ip) (path : List UInt8) :
    Ends (namexStart cwd path) s (fun _ t => Lone t l) (fun _ => True) := by
  refine ends_ite (fun _ => ?_) fun _ => modify_then (ends_pure (lone_ref lone rfl))
  refine ends_mono (iget_spec s rootIno) ?_ fun _ _ => trivial
  rintro ip t ⟨e, got, rfl⟩
  exact lone_got lone got

/-- What namei is called in: no inode is locked, two entries of the table are free, and every
    directory is in the tree and consists of whole entries. -/
structure Calm (s : Fs) (h : Ip → Nat) : Prop where
  lone : Lone s none
  spare : ∃ a b, a ≠ b ∧ h a = 0 ∧ h b = 0
  tree : ∀ i, (nodes s i).type = tDir → ¬ Orphan (nodes s) i
  sized : Sized s.sb s.disk

/-- namex returns what the elements of the path lead to. -/
theorem namex_follows {s : Fs} {h : Ip → Nat} {cwd : Ip} (shape : Shape s.sb.ninodes (nodes s))
    (books : Books s h 0) (mine : 0 < h cwd) (calm : Calm s h) (path : List UInt8) (parent : Bool) :
    ∃ r t, namex cwd path parent s = .ok (r, t) ∧ Unchanged s t ∧
      r.map (fun x => ((t.itable x.1).inum, x.2)) = resolve (nodes s) (s.itable cwd).inum path parent := by
  have returns : Ends (namex cwd path parent) s (fun _ _ => True) (fun _ => False) := by
    refine ends_step (ends_and (namexStart_spec shape rfl books mine path)
      (namexStart_lone calm.lone cwd path)) ?_ ?_
    · rintro msg ⟨⟨-, busy⟩, -⟩
      obtain ⟨a, b, -, first, -⟩ := calm.spare
      apply busy a
      rw [books.refs a, Pi.add_apply, first]
      rfl
    rintro ip t ⟨⟨kept, same, steady, disk, num⟩, free⟩
    refine namexFrom_returns shape calm.tree calm.spare kept same (by rw [steady.1]) free ?_ ?_
    · rw [steady.1, disk]
      exact calm.sized
    rw [num]
    exact start_live shape books mine path
  obtain ⟨r, t, res, ⟨-, disk, found⟩, -⟩ := ends_total (ends_mono
    (ends_and (namex_spec shape rfl books mine path parent) returns) (fun _ _ => id) fun _ => And.right)
  refine ⟨r, t, res, ⟨found.1, disk⟩, ?_⟩
  rcases found.2 with ⟨rfl, aim, -⟩ | ⟨jp, name, rfl, aim, -⟩
  · exact aim.symm
  · exact aim.symm

theorem namei_follows_path {s : Sys} {p : Fin nproc} {cwd : Ip} (ok : SysOk false s) (mine : s.cwd p = some cwd)
    (calm : Calm s.fs s.holders) (path : List UInt8) :
    (∃ r t, namei cwd path s.fs = .ok (r, t) ∧ Unchanged s.fs t ∧ r.map (fun ip => (t.itable ip).inum) =
      descend (nodes s.fs) (pathStart (s.fs.itable cwd).inum path) (components path)) ∧
    ∃ r t, nameiparent cwd path s.fs = .ok (r, t) ∧ Unchanged s.fs t ∧
      r.map (fun x => ((t.itable x.1).inum, x.2)) =
        descendParent (nodes s.fs) (pathStart (s.fs.itable cwd).inum path) (components path) := by
  have follows := namex_follows (sound_shape ok.sound) ok.books (holder_pos mine) calm path
  obtain ⟨whole, all_but_last⟩ := walk_descends (N := nodes s.fs) (Nat.lt_succ_self path.length)
    (pathStart (s.fs.itable cwd).inum path)
  constructor
  · obtain ⟨r, t, result, unchanged, found⟩ := follows false
    refine ⟨r.map Prod.fst, t, ?_, unchanged, ?_⟩
    · change (namex cwd path false s.fs >>= _) = _
      rw [result]
      cases r with
      | none => rfl
      | some x => rfl
    · rw [resolve, whole] at found
      have first := congrArg (Option.map Prod.fst) found
      simpa [Function.comp_def] using first
  · obtain ⟨r, t, result, unchanged, found⟩ := follows true
    refine ⟨r, t, result, unchanged, found.trans ?_⟩
    rw [resolve, all_but_last]

/-- "/a//b/", on the small image. -/
theorem namei_follows_two_names : ∃ r t, namei 0 [47, 97, 47, 47, 98, 47] smallBoot.fs = .ok (r, t) ∧
    Unchanged smallBoot.fs t ∧ r.map (fun ip => (t.itable ip).inum) = some 3 := by
  have named : ∀ d < 6, (diskNodes smallSb smallImage d).type = tDir → d = rootIno ∨
      ∃ d' < 6, ∃ k < 3, (diskNodes smallSb smallImage d').type = tDir ∧ 2 ≤ k ∧
        k < (diskNodes smallSb smallImage d').count ∧ ((diskNodes smallSb smallImage d').ent k).1 = d ∧ d ≠ 0 := by
    decide +kernel
  have unused : ∀ ip : Ip, ip ≠ 0 → smallBoot.holders ip = 0 := by
    intro ip other
    have counted := boot_ref smallSb smallImage ip
    rw [boot_idle other] at counted
    exact (Int.ofNat_inj.mp counted).symm
  have calm : Calm smallBoot.fs smallBoot.holders := by
    refine ⟨by unfold Lone; decide +kernel, ⟨1, 2, by decide, unused 1 (by decide), unused 2 (by decide)⟩, ?_, ?_⟩
    · intro d directory ⟨other, unnamed⟩
      rw [smallBoot, boot_nodes] at directory unnamed
      have inside : d < 6 := by
        by_contra beyond
        rw [small_bound d (by omega)] at directory
        cases directory
      rcases named d inside directory with root | ⟨d', -, k, -, names⟩
      · exact other root
      · exact unnamed d' k names
    · have sized : ∀ i < 6, (getDinode smallSb smallImage i).type = tDir →
          (getDinode smallSb smallImage i).size.toNat % direntSize = 0 := by decide +kernel
      exact sized
  obtain ⟨r, t, result, unchanged, found⟩ := (namei_follows_path (sysOk_lax (boot_ok small_ok))
    (rfl : smallBoot.cwd initproc = some 0) calm [47, 97, 47, 47, 98, 47]).1
  refine ⟨r, t, result, unchanged, found.trans ?_⟩
  rw [boot_nodes]
  decide +kernel

end Xv6Fs
