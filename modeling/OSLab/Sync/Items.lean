import OSLab.Sync.Mirror

set_option autoImplicit false

/-! # What the single changes do

Each system call that succeeds changes one path (`At`), and the size and the time of the directory
that holds it. From the calls come the specifications of the functions that have no recursion:
`remove_item`, `copy_file`, the copy with its time and mode, and the branch that makes a
directory.
-/

namespace OSLab.Sync

open FileTree

variable {E : Env} {k : Nat} {t t' t'' : Tree} {p q : List Name}

/-- `t'` differs from `t` at `p`, and in the size and time of the directory of `p`. -/
structure At (t t' : Tree) (p : List Name) : Prop where
  frame : ∀ q, q ≠ p → q ≠ p.tail → t'.get q = t.get q
  core : ∀ q, q ≠ p → coreAt t' q = coreAt t q

theorem At.refl (t : Tree) (p : List Name) : At t t p := ⟨fun _ _ _ => rfl, fun _ _ => rfl⟩

theorem At.trans (h : At t t' p) (h' : At t' t'' p) : At t t'' p where
  frame q hq hp := (h'.frame q hq hp).trans (h.frame q hq hp)
  core q hq := (h'.core q hq).trans (h.core q hq)

theorem ne_tail_of_cons_isSuffix {n : Name} (h : (n :: p) <:+ q) : q ≠ p.tail := by
  rintro rfl
  have := h.length_le
  rw [List.length_cons, List.length_tail] at this
  omega

/-- What lies below `p` stays. -/
theorem At.below {n : Name} (h : At t t' p) (hq : (n :: p) <:+ q) : t'.get q = t.get q :=
  h.frame q (ne_of_cons_isSuffix hq) (ne_tail_of_cons_isSuffix hq)

theorem at_modify (f : FileAttr → FileAttr) (g : DirAttr → DirAttr) : At t (t.modify p f g) p where
  frame _ hq _ := get_modify_of_ne hq
  core _ hq := coreAt_congr (get_modify_of_ne hq)

/-! ## The directory of a changed item -/

theorem get_touchParent_of_ne (h : q ≠ p.tail) : (touchParent E k t p).get q = t.get q := by
  cases p with
  | nil => rfl
  | cons n p => exact get_modify_of_ne h

theorem get_touchParent_self : (touchParent E k t p).get p = t.get p := by
  cases p with
  | nil => rfl
  | cons n p =>
      refine get_modify_of_ne ?_
      intro he
      have := congrArg List.length he
      simp at this

theorem coreAt_touchParent (q : List Name) : coreAt (touchParent E k t p) q = coreAt t q := by
  cases p with
  | nil => rfl
  | cons n p =>
      by_cases hq : q = p
      · subst hq
        unfold coreAt touchParent
        rw [get_modify, if_pos rfl]
        cases t.get q with
        | none => rfl
        | some x => cases x <;> rfl
      · exact coreAt_congr (get_modify_of_ne hq)

/-- A change at `p` alone, after which the directory of `p` is touched. -/
theorem at_touchParent (h : ∀ q, q ≠ p → t'.get q = t.get q) :
    At t (touchParent E k t' p) p where
  frame q hq hp := (get_touchParent_of_ne hp).trans (h q hq)
  core q hq := (coreAt_touchParent q).trans (coreAt_congr (h q hq))

/-! ## The calls -/

theorem mkdir_spec (hn : t.get p = none) (hp : t.HasPlace p) (mode : Nat) :
    At t (mkdir E k t p mode) p ∧ ∃ b, (mkdir E k t p mode).get p = some (.dir b) := by
  rw [mkdir, dif_pos ⟨hn, hp⟩]
  refine ⟨at_touchParent fun q hq => ?_, ⟨E.umask mode, E.size k, E.now k⟩, ?_⟩
  · rw [get_putDir, if_neg hq]
  · rw [get_touchParent_self, get_putDir, if_pos rfl]

theorem unlink_spec (hf : t.isFile p = true) :
    ∃ t', unlink E k t p = some t' ∧ At t t' p ∧ t'.get p = none := by
  refine ⟨_, dif_pos hf, at_touchParent fun q hq => ?_, ?_⟩
  · rw [get_erase, if_neg hq]
  · rw [get_touchParent_self, get_erase, if_pos rfl]

theorem rmdir_spec (hd : t.isDir p = true) (hn : t.names p = []) :
    ∃ t', rmdir E k t p = some t' ∧ At t t' p ∧ t'.get p = none := by
  refine ⟨_, dif_pos ⟨hd, hn⟩, at_touchParent fun q hq => ?_, ?_⟩
  · rw [get_erase, if_neg hq]
  · rw [get_touchParent_self, get_erase, if_pos rfl]

theorem remove_of_file (hf : t.isFile p = true) :
    ∃ t', remove E k t p = some t' ∧ At t t' p ∧ t'.get p = none := by
  rw [remove, if_pos hf]
  exact unlink_spec hf

theorem remove_of_none (hn : t.get p = none) : remove E k t p = none := by
  have hf : t.isFile p = false := by simp [FileTree.isFile, hn]
  have hd : t.isDir p = false := by simp [FileTree.isDir, hn]
  rw [remove, if_neg (by simp [hf]), rmdir, dif_neg (by simp [hd])]

/-- `if (remove(p) == 0) report_change('-', p)` on a file. -/
theorem removeItem_of_file {s : State} (hf : s.dst.isFile p = true) :
    ∃ s', removeItem E s p = s' ∧ At s.dst s'.dst p ∧ s'.dst.get p = none
      ∧ s'.reports = s.reports ++ [(.removed, p)] := by
  obtain ⟨t, ht, hat, hn⟩ := remove_of_file (E := E) (k := s.tick) hf
  rw [removeItem, ht]
  exact ⟨_, rfl, hat, hn, rfl⟩

/-- On nothing it does nothing. -/
theorem removeItem_of_none {s : State} (hn : s.dst.get p = none) :
    removeItem E s p = s.set s.dst := by
  rw [removeItem, remove_of_none hn]

theorem create_spec (hp : t.HasPlace p) (hd : t.isDir p = false) :
    ∃ t' m mode, create E k t p = some t' ∧ At t t' p ∧ t'.get p = some (.file ⟨[], m, mode⟩) := by
  rw [create, dif_pos ⟨hp, hd⟩]
  split
  · rename_i a ha
    refine ⟨_, E.now k, a.mode, rfl, ⟨fun q hq _ => ?_, fun q hq => coreAt_congr ?_⟩, ?_⟩
    · rw [get_putFile, if_neg hq]
    · rw [get_putFile, if_neg hq]
    · rw [get_putFile, if_pos rfl]
  · refine ⟨_, E.now k, E.umask 0o666, rfl, at_touchParent fun q hq => ?_, ?_⟩
    · rw [get_putFile, if_neg hq]
    · rw [get_touchParent_self, get_putFile, if_pos rfl]

theorem create_of_dir (hd : t.isDir p = true) : create E k t p = none := by
  rw [create, dif_neg (by simp [hd])]

/-! ## Copying -/

/-- **The copy loop** appends all the bytes. -/
theorem copyBlocks_spec {rounds : Nat} {bytes written : List UInt8} {m : Int} {mode : Nat}
    (hr : bytes.length ≤ rounds) (ht : t.get p = some (.file ⟨written, m, mode⟩)) :
    At t (copyBlocks E k p rounds bytes t) p
      ∧ ∃ m', (copyBlocks E k p rounds bytes t).get p
        = some (.file ⟨written ++ bytes, m', mode⟩) := by
  induction rounds generalizing bytes written m t with
  | zero =>
      have hb : bytes = [] := List.length_eq_zero_iff.mp (Nat.le_zero.mp hr)
      subst hb
      exact ⟨At.refl t p, m, by rw [List.append_nil]; exact ht⟩
  | succ rounds ih =>
      simp only [copyBlocks]
      by_cases he : bytes.take BUFFER_SIZE = []
      · rw [if_pos he]
        have hb : bytes = [] := by
          rcases List.take_eq_nil_iff.mp he with h | h
          · cases h
          · exact h
        subst hb
        exact ⟨At.refl t p, m, by rw [List.append_nil]; exact ht⟩
      · rw [if_neg he]
        have hlen : (bytes.drop BUFFER_SIZE).length ≤ rounds := by
          have hpos : bytes ≠ [] := by
            rintro rfl
            exact he (List.take_nil)
          have := List.length_pos_iff.mpr hpos
          rw [List.length_drop, BUFFER_SIZE]
          omega
        have hw : (fwrite E k t p (bytes.take BUFFER_SIZE)).get p
            = some (.file ⟨written ++ bytes.take BUFFER_SIZE, E.now k, mode⟩) := by
          rw [fwrite, get_modify, if_pos rfl, ht]
          rfl
        obtain ⟨hat, m', hget⟩ := ih hlen hw
        refine ⟨(at_modify _ _).trans hat, m', ?_⟩
        rw [hget, List.append_assoc, List.take_append_drop]

theorem copyFile_spec {src : Tree} {s : State} {a : FileAttr}
    (hs : src.get p = some (.file a)) (hp : s.dst.HasPlace p) (hd : s.dst.isDir p = false) :
    ∃ s', copyFile E src p p s = .ok s' ∧ At s.dst s'.dst p ∧ s'.reports = s.reports
      ∧ ∃ m mode, s'.dst.get p = some (.file ⟨a.bytes, m, mode⟩) := by
  obtain ⟨t, m, mode, hc, hat, ht⟩ := create_spec (E := E) (k := s.tick) hp hd
  obtain ⟨hat', m', hget⟩ := copyBlocks_spec (E := E) (k := s.tick) (Nat.le_refl _) ht
  refine ⟨s.set (copyBlocks E s.tick p a.bytes.length a.bytes t), ?_, hat.trans hat', rfl, m', mode,
    hget⟩
  simp only [copyFile, hs, hc]

theorem copyFile_of_dir (src : Tree) {s : State} (hd : s.dst.isDir p = true) :
    ∃ s', copyFile E src p p s = .error (.exit s') := by
  unfold copyFile
  split
  · rw [create_of_dir hd]
    exact ⟨s, rfl⟩
  · exact ⟨s, rfl⟩

/-- The copy of a file, with its time and its mode. -/
theorem copyItem_spec {src : Tree} {s : State} {a : FileAttr} {srcStat : Stat}
    (type : ChangeType) (dstStat : Stat) (hs : src.get p = some (.file a))
    (hstat : stat src p = some srcStat)
    (hp : s.dst.HasPlace p) (hd : s.dst.isDir p = false) :
    ∃ s' rs, copyItem E src type srcStat dstStat p p s = .ok s' ∧ At s.dst s'.dst p
      ∧ s'.dst.get p = some (.file a) ∧ s'.reports = s.reports ++ (type, p) :: rs
      ∧ (rs = [(.timestamp, p)] ∨ rs = [(.timestamp, p), (.permissions, p)]) := by
  obtain ⟨s₁, hc, hat, hrep, m, mode, hget⟩ := copyFile_spec (E := E) hs hp hd
  have hsrc : srcStat = ⟨false, a.mode, a.bytes.length, a.mtime⟩ := by
    simpa [stat, hs] using hstat.symm
  have hat' : At s.dst (chmod (utime s₁.dst p srcStat.mtime) p srcStat.mode) p :=
    hat.trans ((at_modify _ _).trans (at_modify _ _))
  have hget' : (chmod (utime s₁.dst p srcStat.mtime) p srcStat.mode).get p = some (.file a) := by
    rw [chmod, get_modify, if_pos rfl, utime, get_modify, if_pos rfl, hget, hsrc]
    rfl
  simp only [copyItem, hc, bind, Except.bind, pure, Except.pure]
  cases srcStat.modeDiffers dstStat with
  | false => exact ⟨_, [_], rfl, hat', hget', by simp [hrep], Or.inl rfl⟩
  | true => exact ⟨_, [_, _], rfl, hat', hget', by simp [hrep], Or.inr rfl⟩

theorem copyItem_of_dir (src : Tree) {s : State} (type : ChangeType)
    (srcStat dstStat : Stat) (hd : s.dst.isDir p = true) :
    ∃ s', copyItem E src type srcStat dstStat p p s = .error (.exit s') := by
  obtain ⟨s', hc⟩ := copyFile_of_dir (E := E) src hd
  exact ⟨s', by simp only [copyItem, hc, bind, Except.bind]⟩

/-! ## Making a directory -/

theorem makeDirectory_spec {s : State} (srcStat : Stat) (hn : s.dst.get p = none)
    (hp : s.dst.HasPlace p) :
    ∃ rs, At s.dst (makeDirectory E srcStat p s).dst p
      ∧ (makeDirectory E srcStat p s).dst.isDir p = true
      ∧ (makeDirectory E srcStat p s).reports = s.reports ++ (.added, p) :: rs
      ∧ (rs = [(.timestamp, p)] ∨ rs = [(.timestamp, p), (.permissions, p)]) := by
  obtain ⟨hat, b, hget⟩ := mkdir_spec (E := E) (k := s.tick) hn hp srcStat.mode
  have hdir : (utime (mkdir E s.tick s.dst p srcStat.mode) p srcStat.mtime).get p
      = some (.dir { b with mtime := srcStat.mtime }) := by
    rw [utime, get_modify, if_pos rfl, hget]
    rfl
  unfold makeDirectory
  simp only
  split
  · refine ⟨[(.timestamp, p), (.permissions, p)],
      hat.trans ((at_modify _ _).trans (at_modify _ _)), ?_, by simp, Or.inr rfl⟩
    refine isDir_iff.mpr ⟨{ b with mtime := srcStat.mtime, mode := srcStat.mode }, ?_⟩
    show (chmod (utime (mkdir E s.tick s.dst p srcStat.mode) p _) p _).get p = _
    rw [chmod, get_modify, if_pos rfl, hdir]
    rfl
  · exact ⟨[(.timestamp, p)], hat.trans (at_modify _ _), isDir_iff.mpr ⟨_, hdir⟩, by simp,
      Or.inl rfl⟩

end OSLab.Sync
