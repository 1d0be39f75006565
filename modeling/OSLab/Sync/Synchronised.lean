import OSLab.Sync.Traversal

set_option autoImplicit false

/-! # What a synchronisation achieves

At the roots the specification of a visit gives the effect of the whole program. A run with a
source directory ends early exactly when a clash blocks it; one that does not end early mirrors the
source everywhere but at and below the clashes, reports each change once, and leaves nothing to do
for a second run. Times and modes follow where a file is copied, and only there. All this where the paths
of the items fit their buffers; where one is cut short, two entries may have one path in the destination,
and what the first loop makes the second one removes (`sync_again_cut`, `sync_reports_cut`).
-/

namespace OSLab.Sync

open FileTree

variable {E E' : Env} {args : Args} {S D D' : Tree} {s s' : State} {p q : List Name}

/-! ## The program at the two roots -/

/-- A synchronisation of two directories is a visit of the root. -/
theorem sync_visits (hS : S.isDir [] = true) (hD : D.isFile [] = false) (hfit : PathsFit args S D) :
    Visits S [] ⟨D, [], 0⟩ (sync E args S D) := by
  refine syncDirectories_visits (s := ⟨D, [], 0⟩) hS trivial hD (fitBelow_nil.mpr hfit) fun q _ hq => ?_
  rw [List.length_nil, Nat.zero_add]
  exact hfit.length_lt hq

/-- A root that is not a directory cannot be opened. -/
theorem sync_of_not_dir (hS : S.get [] ≠ none) (h : S.isDir [] = false ∨ D.isFile [] = true) :
    ∃ s', sync E args S D = .error (.exit s') := by
  obtain ⟨x, hx⟩ : ∃ x, stat S [] = some x := by
    cases hx : stat S [] with
    | none => exact absurd (stat_eq_none_iff.mp hx) hS
    | some x => exact ⟨x, rfl⟩
  rw [sync, MAX_PATH_LENGTH, syncDirectories]
  simp only [hx]
  rw [if_neg]
  · exact ⟨_, rfl⟩
  · rcases h with h | h
    · simp [h]
    · -- a file is there, so that no directory is made
      have hstat : (stat D []).isNone = false := by
        obtain ⟨a, ha⟩ := isFile_iff.mp h
        simp [stat, ha]
      simp [hstat, isDir_eq_false_of_isFile h]

/-- Without a source the root is removed, if it is a file or an empty directory. -/
theorem sync_of_none (hS : S.get [] = none) :
    sync E args S D = .ok (removeItem E ⟨D, [], 0⟩ []) := by
  have hstat : stat S [] = none := stat_eq_none_iff.mpr hS
  rw [sync, MAX_PATH_LENGTH]
  simp only [syncDirectories, hstat]

/-- `remove` takes a file or an empty directory. -/
def Removable (D : Tree) : Prop :=
  D.isFile [] = true ∨ D.isDir [] = true ∧ D.names [] = []

theorem Removable.get_ne_none (h : Removable D) : D.get [] ≠ none := by
  rcases h with h | ⟨h, -⟩
  · exact get_ne_none_of_isFile h
  · exact get_ne_none_of_isDir h

theorem Removable.get_eq_none (h : Removable D) (hq : q ≠ []) : D.get q = none := by
  rcases h with h | ⟨-, h⟩
  · exact get_eq_none_of_isSuffix (isDir_eq_false_of_isFile h) List.nil_suffix hq.symm
  · rcases isSuffix_iff_eq_or_cons.mp (List.nil_suffix (l := q)) with he | ⟨n, hn⟩
    · exact absurd he hq
    · refine get_eq_none_below ?_ hn
      by_contra hne
      have := mem_names.mpr hne
      rw [h] at this
      cases this

theorem removeItem_of_removable (h : Removable s.dst) :
    (∀ q, (removeItem E s []).dst.get q = none)
      ∧ (removeItem E s []).reports = s.reports ++ [(.removed, [])] := by
  have hspec : ∃ t, remove E s.tick s.dst [] = some t ∧ At s.dst t [] ∧ t.get [] = none := by
    rcases h with hf | ⟨hd, hn⟩
    · exact remove_of_file hf
    · rw [remove, if_neg (by simp [isFile_eq_false_of_isDir hd])]
      exact rmdir_spec hd hn
  obtain ⟨t, ht, hat, hnone⟩ := hspec
  rw [removeItem, ht]
  refine ⟨fun q => ?_, rfl⟩
  by_cases hq : q = []
  · rw [hq]
    exact hnone
  · exact (hat.frame q hq hq).trans (h.get_eq_none hq)

theorem removeItem_of_not_removable (h : ¬ Removable s.dst) :
    removeItem E s [] = s.set s.dst := by
  have hf : ¬ s.dst.isFile [] = true := fun hf => h (Or.inl hf)
  rw [removeItem, remove, if_neg hf, rmdir, dif_neg fun hd => h (Or.inr hd)]

/-- What is left cannot be removed. -/
theorem not_removable_removeItem : ¬ Removable (removeItem E s []).dst := by
  by_cases h : Removable s.dst
  · exact fun h' => h'.get_ne_none ((removeItem_of_removable h).1 [])
  · rw [removeItem_of_not_removable h]
    exact h

/-- A run that does not end early: of two directories, or without a source. -/
theorem sync_cases (h : sync E args S D = .ok s') (hfit : PathsFit args S D) :
    Visited S [] ⟨D, [], 0⟩ s' ∧ S.isDir [] = true ∧ D.isFile [] = false
    ∨ S.get [] = none ∧ s' = removeItem E ⟨D, [], 0⟩ [] := by
  by_cases hn : S.get [] = none
  · rw [sync_of_none hn] at h
    exact Or.inr ⟨hn, (Except.ok.inj h).symm⟩
  · by_cases hk : S.isDir [] = false ∨ D.isFile [] = true
    · obtain ⟨t, ht⟩ := sync_of_not_dir (E := E) (D := D) hn hk
      rw [ht] at h
      cases h
    · simp only [not_or, Bool.not_eq_false, Bool.not_eq_true] at hk
      have hv := sync_visits (E := E) hk.1 hk.2 hfit
      rw [h] at hv
      exact Or.inl ⟨hv, hk⟩

/-! ## Kinds -/

/-- `p` was a directory or a file, and is that no more. -/
def Lost (D D' : Tree) (p : List Name) : Prop :=
  D.isDir p = true ∧ D'.isDir p = false ∨ D.isFile p = true ∧ D'.isFile p = false

theorem not_lost_of_get_eq (h : D'.get p = D.get p) : ¬ Lost D D' p := by
  rintro (⟨hd, hn⟩ | ⟨hf, hn⟩)
  · rw [isDir_congr h, hd] at hn
    cases hn
  · rw [isFile_congr h, hf] at hn
    cases hn

theorem Lost.get_ne_none (h : Lost D D' p) : D.get p ≠ none := by
  rcases h with ⟨h, -⟩ | ⟨h, -⟩
  · exact get_ne_none_of_isDir h
  · exact get_ne_none_of_isFile h

theorem lost_of_get_eq_none (h : D.get p ≠ none) (h' : D'.get p = none) : Lost D D' p := by
  cases hd : D.isDir p with
  | true => exact Or.inl ⟨hd, isDir_eq_false_of_get h'⟩
  | false => exact Or.inr ⟨isFile_of_isDir_eq_false h hd, isFile_eq_false_of_get h'⟩

theorem not_shadowed_of_dir (hS : S.isDir p = true) : ¬ Shadowed S D p := by
  rintro ⟨a, ha, hf, -⟩
  by_cases he : a = p
  · rw [he, isFile_eq_false_of_isDir hS] at hf
    cases hf
  · have hu := unshadowed_of_hasPlace (hasPlace_of_get (get_ne_none_of_isDir hS)) a ha he
    rw [hu] at hf
    cases hf

/-- Size and time of two files. -/
theorem sameStat_iff {a b : FileAttr} (hS : S.get p = some (.file a))
    (hD : D.get p = some (.file b)) :
    SameStat S D p ↔ a.bytes.length = b.bytes.length ∧ a.mtime = b.mtime := by
  simp [SameStat, stat, hS, hD, Stat.differs]

/-- What a visit has removed is what has lost its kind. -/
theorem Final.removed_iff (h : Final S D D' p) (hc : ¬ (Clash S D p ∧ ¬ SameStat S D p)) :
    Removed S D p ↔ Lost D D' p := by
  cases hS : S.get p with
  | none =>
      simp only [Final, hS] at h
      constructor
      · rintro ⟨hne, hsh, -⟩
        exact lost_of_get_eq_none hne (h.2 hsh)
      · intro hl
        exact ⟨hl.get_ne_none, fun hsh => not_lost_of_get_eq (h.1 hsh) hl, Or.inl hS⟩
  | some x =>
      cases x with
      | dir b =>
          have hd : S.isDir p = true := isDir_iff.mpr ⟨b, hS⟩
          simp only [Final, hS] at h
          constructor
          · rintro ⟨-, -, hn | ⟨-, hf⟩⟩
            · exact absurd hn (get_ne_none_of_isDir hd)
            · exact Or.inr ⟨hf, isFile_eq_false_of_isDir h.1⟩
          · intro hl
            refine ⟨hl.get_ne_none, not_shadowed_of_dir hd, Or.inr ⟨hd, ?_⟩⟩
            rcases hl with ⟨-, hn⟩ | ⟨hf, -⟩
            · rw [h.1] at hn
              cases hn
            · exact hf
      | file a =>
          have hf : S.isFile p = true := isFile_iff.mpr ⟨a, hS⟩
          simp only [Final, hS] at h
          constructor
          · rintro ⟨-, -, hn | ⟨hd, -⟩⟩
            · exact absurd hn (get_ne_none_of_isFile hf)
            · rw [isDir_eq_false_of_isFile hf] at hd
              cases hd
          · intro hl
            by_cases hs : SameStat S D p
            · exact absurd hl (not_lost_of_get_eq (h.1 hs))
            · rcases hl with ⟨hd, -⟩ | ⟨-, hn⟩
              · exact absurd ⟨⟨hf, hd⟩, hs⟩ hc
              · rw [isFile_iff.mpr ⟨a, h.2 hs⟩] at hn
                cases hn

/-- What it has added is what has a new kind. -/
theorem Final.added_iff (h : Final S D D' p) (hc : ¬ (Clash S D p ∧ ¬ SameStat S D p)) :
    Added S D p ↔ Lost D' D p := by
  cases hS : S.get p with
  | none =>
      simp only [Final, hS] at h
      refine iff_of_false (not_added_of_none hS) fun hl => ?_
      by_cases hsh : Shadowed S D p
      · exact not_lost_of_get_eq (h.1 hsh).symm hl
      · exact hl.get_ne_none (h.2 hsh)
  | some x =>
      cases x with
      | dir b =>
          have hd : S.isDir p = true := isDir_iff.mpr ⟨b, hS⟩
          simp only [Final, hS] at h
          constructor
          · rintro (⟨-, hn⟩ | ⟨hf, -⟩)
            · exact Or.inl ⟨h.1, hn⟩
            · rw [isFile_eq_false_of_isDir hd] at hf
              cases hf
          · rintro (⟨-, hn⟩ | ⟨hf, -⟩)
            · exact Or.inl ⟨hd, hn⟩
            · rw [isFile_eq_false_of_isDir h.1] at hf
              cases hf
      | file a =>
          have hf : S.isFile p = true := isFile_iff.mpr ⟨a, hS⟩
          simp only [Final, hS] at h
          constructor
          · rintro (⟨hd, -⟩ | ⟨-, hn⟩)
            · rw [isDir_eq_false_of_isFile hf] at hd
              cases hd
            · have hs : ¬ SameStat S D p := by
                rintro ⟨-, y, -, hy, -⟩
                rw [stat_eq_none_iff.mpr hn] at hy
                cases hy
              exact Or.inr ⟨isFile_iff.mpr ⟨a, h.2 hs⟩, isFile_eq_false_of_get hn⟩
          · intro hl
            refine Or.inr ⟨hf, ?_⟩
            by_cases hs : SameStat S D p
            · exact absurd hl (not_lost_of_get_eq (h.1 hs).symm)
            · have hf' : D'.isFile p = true := isFile_iff.mpr ⟨a, h.2 hs⟩
              rcases hl with ⟨hd, -⟩ | ⟨-, hn⟩
              · rw [isDir_eq_false_of_isFile hf'] at hd
                cases hd
              · by_contra hne
                cases hd : D.isDir p with
                | true => exact hc ⟨⟨hf, hd⟩, hs⟩
                | false =>
                    rw [isFile_of_isDir_eq_false hne hd] at hn
                    cases hn

/-- The file at `p` stays a file and is out of date. -/
def Outdated (S D D' : Tree) (p : List Name) : Prop :=
  D'.isFile p = true ∧ ∃ a b, S.get p = some (.file a) ∧ D.get p = some (.file b)
    ∧ (a.bytes.length ≠ b.bytes.length ∨ a.mtime ≠ b.mtime)

theorem Final.overwritten_iff (h : Final S D D' p) : Overwritten S D p ↔ Outdated S D D' p := by
  constructor
  · rintro ⟨hf, hf', hs⟩
    obtain ⟨a, ha⟩ := isFile_iff.mp hf
    obtain ⟨b, hb⟩ := isFile_iff.mp hf'
    simp only [Final, ha] at h
    refine ⟨isFile_iff.mpr ⟨a, h.2 hs⟩, a, b, ha, hb, ?_⟩
    rwa [sameStat_iff ha hb, not_and_or] at hs
  · rintro ⟨-, a, b, ha, hb, hne⟩
    refine ⟨isFile_iff.mpr ⟨a, ha⟩, isFile_iff.mpr ⟨b, hb⟩, ?_⟩
    rwa [sameStat_iff ha hb, not_and_or]

/-! ## The source is mirrored -/

/-- `D'` has the paths of the source with their kinds, and the bytes of its files where `D` had no
file of the same size and time. -/
structure Mirrors (S D D' : Tree) : Prop where
  dirs : ∀ q, D'.isDir q = S.isDir q
  files : ∀ q, D'.isFile q = S.isFile q
  bytes : ∀ q a b, S.get q = some (.file a) → D'.get q = some (.file b) → b.bytes = a.bytes
    ∨ ∃ c, D.get q = some (.file c) ∧ c.bytes.length = a.bytes.length ∧ c.mtime = a.mtime

/-- Where there is no clash, the specification of a visit is a mirror. -/
theorem mirrors_of_final (h : ∀ q, Final S D D' q) (hc : ∀ q, ¬ Clash S D q) :
    Mirrors S D D' := by
  have hkind : ∀ q, D'.isDir q = S.isDir q ∧ D'.isFile q = S.isFile q := by
    intro q
    have hfin := h q
    cases hS : S.get q with
    | none =>
        simp only [Final, hS] at hfin
        have hn := hfin.2 (by
          rintro ⟨_, _, ha⟩
          exact hc _ ha)
        rw [isDir_eq_false_of_get hn, isDir_eq_false_of_get hS, isFile_eq_false_of_get hn,
          isFile_eq_false_of_get hS]
        exact ⟨rfl, rfl⟩
    | some x =>
        cases x with
        | dir b =>
            simp only [Final, hS] at hfin
            have hd : S.isDir q = true := isDir_iff.mpr ⟨b, hS⟩
            rw [hfin.1, hd, isFile_eq_false_of_isDir hfin.1, isFile_eq_false_of_isDir hd]
            exact ⟨rfl, rfl⟩
        | file a =>
            simp only [Final, hS] at hfin
            have hf : S.isFile q = true := isFile_iff.mpr ⟨a, hS⟩
            have hf' : D'.isFile q = true := by
              by_cases hs : SameStat S D q
              · -- the file is kept, as a directory would be a clash
                rw [isFile_congr (hfin.1 hs)]
                obtain ⟨-, y, -, hy, -⟩ := hs
                have hne : D.get q ≠ none := fun hn => by
                  rw [stat_eq_none_iff.mpr hn] at hy
                  cases hy
                exact isFile_of_isDir_eq_false hne
                  (Bool.eq_false_iff.mpr fun hd => hc q ⟨hf, hd⟩)
              · exact isFile_iff.mpr ⟨a, hfin.2 hs⟩
            rw [hf, hf', isDir_eq_false_of_isFile hf, isDir_eq_false_of_isFile hf']
            exact ⟨rfl, rfl⟩
  refine ⟨fun q => (hkind q).1, fun q => (hkind q).2, fun q _ b ha hb => ?_⟩
  have hfin := h q
  simp only [Final, ha] at hfin
  by_cases hs : SameStat S D q
  · rw [hfin.1 hs] at hb
    obtain ⟨hlen, htime⟩ := (sameStat_iff ha hb).mp hs
    exact Or.inr ⟨b, hb, hlen.symm, htime.symm⟩
  · rw [hfin.2 hs] at hb
    cases hb
    exact Or.inl rfl

/-- **A synchronisation mirrors the source exactly where nothing clashes.** -/
theorem sync_mirrors (E : Env) (args : Args) (S D : Tree) (hS : S.isDir [] = true)
    (hfit : PathsFit args S D) :
    (∃ s', sync E args S D = .ok s' ∧ Mirrors S D s'.dst)
      ↔ D.isFile [] = false ∧ ∀ q, ¬ Clash S D q := by
  constructor
  · rintro ⟨s', hs', hm⟩
    rcases sync_cases hs' hfit with ⟨hv, -, hD⟩ | ⟨hn, -⟩
    · refine ⟨hD, ?_⟩
      rintro q ⟨hf, hd⟩
      -- a clash that does not end the program stays
      obtain ⟨a, ha⟩ := isFile_iff.mp hf
      have hs : SameStat S D q := by
        by_contra hs
        exact hv.clear ⟨q, List.nil_suffix, ⟨hf, hd⟩, hs⟩
      have hfin := hv.final q List.nil_suffix
      simp only [Final, ha] at hfin
      have hkeep := isDir_congr (hfin.1 hs)
      rw [hm.dirs q, isDir_eq_false_of_isFile hf, hd] at hkeep
      cases hkeep
    · exact absurd hn (get_ne_none_of_isDir hS)
  · rintro ⟨hD, hc⟩
    have hv := sync_visits (E := E) hS hD hfit
    cases hr : sync E args S D with
    | ok s' =>
        rw [hr] at hv
        exact ⟨s', rfl, mirrors_of_final (fun q => hv.final q List.nil_suffix) hc⟩
    | error e =>
        rw [hr] at hv
        cases e with
        | exit t =>
            obtain ⟨q, -, hq, -⟩ := hv
            exact absurd hq (hc q)
        | outOfFuel | astray t => exact hv.elim

/-- The environment of an ordinary run. -/
def sampleEnv : Env where
  junk _ := ⟨false, 0, 0, 0⟩
  order _ l := l
  order_perm _ _ := .refl _
  late _ _ := true
  umask mode := mode
  now k := k
  size _ := 4096

/-- An empty directory. -/
def emptyDir : Tree := root ⟨0o755, 4096, 0⟩

theorem get_emptyDir (q : List Name) (hq : q ≠ []) : emptyDir.get q = none := by
  have hlast : emptyDir.get [q.getLast hq] = none := rfl
  exact get_eq_none_below hlast ⟨q.dropLast, List.dropLast_append_getLast hq⟩

theorem isDir_emptyDir (n : Name) : emptyDir.isDir [n] = false :=
  isDir_eq_false_of_get (get_emptyDir [n] (List.cons_ne_nil n []))

theorem hasPlace_emptyDir (n : Name) : emptyDir.HasPlace [n] := by
  have hroot : emptyDir.isDir [] = true := rfl
  exact hroot

/-- A directory with one file. -/
def oneFile (n : Name) (a : FileAttr) : Tree :=
  emptyDir.putFile [n] a (hasPlace_emptyDir n) (isDir_emptyDir n)

/-- A directory with one empty directory. -/
def oneDir : Tree := emptyDir.putDir [['a']] ⟨0o755, 4096, 0⟩ (hasPlace_emptyDir ['a'])

theorem get_oneFile (n : Name) (a : FileAttr) (q : List Name) (hq : q ≠ [n]) (hq' : q ≠ []) :
    (oneFile n a).get q = none := by
  rw [oneFile, get_putFile, if_neg hq]
  exact get_emptyDir q hq'

theorem get_oneDir (q : List Name) (hq : q ≠ [['a']]) (hq' : q ≠ []) : oneDir.get q = none := by
  rw [oneDir, get_putDir, if_neg hq]
  exact get_emptyDir q hq'

/-- Where there is nothing but one item, its paths are all that is put together. -/
theorem pathsFit_of_one {n : Name} (hS : ∀ q, q ≠ [n] → q ≠ [] → S.get q = none)
    (hD : ∀ q, q ≠ [n] → q ≠ [] → D.get q = none) (hfit : args.Fit [n]) : PathsFit args S D := by
  intro q m _ hex
  have hq : m :: q = [n] := by
    by_contra hne
    have hnil : m :: q ≠ [] := List.cons_ne_nil m q
    rcases hex with h | h
    · exact h (hS _ hne hnil)
    · exact h (hD _ hne hnil)
  rw [hq]
  exact hfit

theorem oneFile_fit (a b : FileAttr) : PathsFit ⟨3, 3⟩ (oneFile ['a'] a) (oneFile ['a'] b) :=
  pathsFit_of_one (get_oneFile _ a) (get_oneFile _ b) (by decide)

theorem not_clash_oneFile (a b : FileAttr) (q : List Name) :
    ¬ Clash (oneFile ['a'] a) (oneFile ['a'] b) q := by
  rintro ⟨hf, hd⟩
  by_cases hq : q = [['a']]
  · rw [hq] at hd
    cases hd
  · by_cases hq' : q = []
    · rw [hq'] at hf
      cases hf
    · rw [isDir_eq_false_of_get (get_oneFile _ _ q hq hq')] at hd
      cases hd

/-- A longer file replaces a shorter one. -/
theorem sync_mirrors_oneFile :
    ∃ s', sync sampleEnv ⟨3, 3⟩ (oneFile ['a'] ⟨[1, 2], 5, 0o644⟩)
      (oneFile ['a'] ⟨[1], 5, 0o644⟩) = .ok s'
      ∧ Mirrors (oneFile ['a'] ⟨[1, 2], 5, 0o644⟩) (oneFile ['a'] ⟨[1], 5, 0o644⟩) s'.dst :=
  (sync_mirrors sampleEnv ⟨3, 3⟩ _ _ rfl (oneFile_fit _ _)).mpr ⟨rfl, not_clash_oneFile _ _⟩

/-- A file cannot replace a directory. -/
theorem sync_ends_at_clash : (oneFile ['a'] ⟨[1], 5, 0o644⟩).isDir [] = true
    ∧ ¬ ∃ s', sync sampleEnv ⟨3, 3⟩ (oneFile ['a'] ⟨[1], 5, 0o644⟩) oneDir = .ok s'
      ∧ Mirrors (oneFile ['a'] ⟨[1], 5, 0o644⟩) oneDir s'.dst := by
  refine ⟨rfl, ?_⟩
  rintro ⟨s', hs', -⟩
  have hends : ∃ t, sync sampleEnv ⟨3, 3⟩ (oneFile ['a'] ⟨[1], 5, 0o644⟩) oneDir = .error (.exit t) :=
    ⟨_, rfl⟩
  obtain ⟨t, ht⟩ := hends
  rw [ht] at hs'
  cases hs'

/-! ## A second synchronisation -/

theorem Visited.settled (h : Visited S [] ⟨D, [], 0⟩ s') : Settled S D s'.dst [] where
  unshadowed _ ha hne := absurd (List.suffix_nil.mp ha) hne
  final := h.final
  clear := h.clear

/-- **A second synchronisation changes nothing and reports nothing.** -/
theorem sync_idempotent (h : sync E args S D = .ok s') (hfit : PathsFit args S D) (E' : Env) :
    ∃ s'', sync E' args S s'.dst = .ok s'' ∧ s''.reports = []
      ∧ ∀ q, coreAt s''.dst q = coreAt s'.dst q := by
  rcases sync_cases h hfit with ⟨hv, hS, hD⟩ | ⟨hn, rfl⟩
  · have hset := hv.settled
    obtain ⟨b, hb⟩ := isDir_iff.mp hS
    have hroot := hv.final [] (List.suffix_refl _)
    simp only [Final, hb] at hroot
    have hfit' : PathsFit args S s'.dst := fitBelow_nil.mp ((fitBelow_nil.mpr hfit).of_only
      fun n q _ hne => (hv.final q List.nil_suffix).get_ne_none hne)
    have hv' := sync_visits (E := E') hS (isFile_eq_false_of_isDir hroot.1) hfit'
    cases hr : sync E' args S s'.dst with
    | ok s'' =>
        rw [hr] at hv'
        have hv' : Visited S [] ⟨s'.dst, [], 0⟩ s'' := hv'
        refine ⟨s'', rfl, ?_, fun q => ?_⟩
        · obtain ⟨rs, hrs, -, hrep⟩ := hv'.reports
          rw [hrs, List.nil_append, List.eq_nil_iff_forall_not_mem]
          rintro ⟨type, q⟩ hmem
          exact hset.not_mem List.nil_suffix (hrep q List.nil_suffix) type hmem
        · exact (hset.unchanged List.nil_suffix (hv'.final q List.nil_suffix)).1
    | error e =>
        rw [hr] at hv'
        cases e with
        | exit t => exact absurd hv' hset.not_blocked
        | outOfFuel | astray t => exact hv'.elim
  · -- without a source the first run may remove the root, and the second cannot
    refine ⟨_, sync_of_none hn, ?_⟩
    have hnot : ¬ Removable (removeItem E ⟨D, [], 0⟩ []).dst := not_removable_removeItem
    rw [removeItem_of_not_removable (s := ⟨_, [], 0⟩) hnot]
    exact ⟨rfl, fun _ => rfl⟩

/-- A file that is overwritten, and has another mode. -/
theorem oneFile_overwritten : ∃ s', sync sampleEnv ⟨3, 3⟩ (oneFile ['a'] ⟨[1, 2], 5, 0o644⟩)
    (oneFile ['a'] ⟨[1], 5, 0o600⟩) = .ok s' := ⟨_, rfl⟩

/-- The second synchronisation after the file has been overwritten. -/
theorem sync_idempotent_oneFile :
    ∃ s', sync sampleEnv ⟨3, 3⟩ (oneFile ['a'] ⟨[1, 2], 5, 0o644⟩)
      (oneFile ['a'] ⟨[1], 5, 0o600⟩) = .ok s'
      ∧ ∃ s'', sync sampleEnv ⟨3, 3⟩ (oneFile ['a'] ⟨[1, 2], 5, 0o644⟩) s'.dst = .ok s'' ∧ s''.reports = []
        ∧ ∀ q, coreAt s''.dst q = coreAt s'.dst q := by
  obtain ⟨s', hs'⟩ := oneFile_overwritten
  exact ⟨s', hs', sync_idempotent hs' (oneFile_fit _ _) sampleEnv⟩

/-- The end of the name is lost in the destination: the copy is found there without a source, and is
removed, each time. -/
theorem sync_again_cut :
    ∃ s' s'', sync sampleEnv ⟨3, 1020⟩ (oneFile ['a', 'b', 'c'] ⟨[1], 5, 0o644⟩) emptyDir = .ok s'
      ∧ sync sampleEnv ⟨3, 1020⟩ (oneFile ['a', 'b', 'c'] ⟨[1], 5, 0o644⟩) s'.dst = .ok s''
      ∧ s''.reports = [(.added, [['a', 'b']]), (.timestamp, [['a', 'b']]),
        (.permissions, [['a', 'b']]), (.removed, [['a', 'b']])] := ⟨_, _, rfl, rfl, rfl⟩

/-! ## The reports -/

theorem Once.congr {c c' : Prop} {k : Nat} (h : Once c k) (hc : c ↔ c') : Once c' k :=
  ⟨fun h' => h.1 (hc.mpr h'), fun h' => h.2 fun hn => h' (hc.mp hn)⟩

/-- **The report is exact.** -/
theorem sync_reports (h : sync E args S D = .ok s') (hfit : PathsFit args S D) (q : List Name) :
    Once (Lost D s'.dst q) (s'.reports.count (.removed, q))
      ∧ Once (Lost s'.dst D q) (s'.reports.count (.added, q))
      ∧ Once (Outdated S D s'.dst q) (s'.reports.count (.overwritten, q)) := by
  rcases sync_cases h hfit with ⟨hv, -, -⟩ | ⟨hn, rfl⟩
  · have hfin := hv.final q List.nil_suffix
    have hc : ¬ (Clash S D q ∧ ¬ SameStat S D q) := fun hc => hv.clear ⟨q, List.nil_suffix, hc⟩
    obtain ⟨rs, hrs, -, hrep⟩ := hv.reports
    rw [hrs, List.nil_append]
    have hrep := hrep q List.nil_suffix
    exact ⟨hrep.removed.congr (hfin.removed_iff hc), hrep.added.congr (hfin.added_iff hc),
      hrep.overwritten.congr hfin.overwritten_iff⟩
  · have hno : ∀ D' : Tree, ¬ Outdated S D D' q := by
      rintro D' ⟨-, a, b, ha, -⟩
      rw [get_eq_none_below hn List.nil_suffix] at ha
      cases ha
    by_cases hrm : Removable D
    · obtain ⟨hgone, hrep⟩ := removeItem_of_removable (E := E) (s := ⟨D, [], 0⟩) hrm
      rw [hrep]
      refine ⟨⟨fun hl => ?_, fun hl => ?_⟩, ⟨fun hl => ?_, fun _ => ?_⟩,
        ⟨fun ho => absurd ho (hno _), fun _ => ?_⟩⟩
      · -- only the root was there to be lost
        have hq : q = [] := by
          by_contra hq
          exact hl.get_ne_none (hrm.get_eq_none hq)
        simp [hq]
      · have hq : q ≠ [] := by
          rintro rfl
          exact hl (lost_of_get_eq_none hrm.get_ne_none (hgone _))
        simp [hq.symm]
      · exact absurd (hgone q) hl.get_ne_none
      · simp
      · simp
    · rw [removeItem_of_not_removable (s := ⟨D, [], 0⟩) hrm]
      exact ⟨⟨fun hl => absurd hl (not_lost_of_get_eq rfl), fun _ => rfl⟩,
        ⟨fun hl => absurd hl (not_lost_of_get_eq rfl), fun _ => rfl⟩,
        ⟨fun ho => absurd ho (hno _), fun _ => rfl⟩⟩

/-- A file makes way for a directory. -/
theorem sync_reports_oneDir :
    ∃ s', sync sampleEnv ⟨3, 3⟩ oneDir (oneFile ['a'] ⟨[1], 5, 0o600⟩) = .ok s'
      ∧ Once (Lost (oneFile ['a'] ⟨[1], 5, 0o600⟩) s'.dst [['a']]) (s'.reports.count (.removed, [['a']]))
      ∧ Once (Lost s'.dst (oneFile ['a'] ⟨[1], 5, 0o600⟩) [['a']]) (s'.reports.count (.added, [['a']]))
      ∧ Once (Outdated oneDir (oneFile ['a'] ⟨[1], 5, 0o600⟩) s'.dst [['a']])
        (s'.reports.count (.overwritten, [['a']])) := by
  have hok : ∃ s', sync sampleEnv ⟨3, 3⟩ oneDir (oneFile ['a'] ⟨[1], 5, 0o600⟩) = .ok s' := ⟨_, rfl⟩
  obtain ⟨s', hs'⟩ := hok
  exact ⟨s', hs', sync_reports hs' (pathsFit_of_one get_oneDir (get_oneFile _ _) (by decide)) [['a']]⟩

/-- An item that was never there is reported as removed, where the end of a name is lost. -/
theorem sync_reports_cut :
    ∃ s', sync sampleEnv ⟨3, 1020⟩ (oneFile ['a', 'b', 'c'] ⟨[1], 5, 0o644⟩) emptyDir = .ok s'
      ∧ s'.reports.count (.removed, [['a', 'b']]) = 1
      ∧ ¬ Lost emptyDir s'.dst [['a', 'b']] := by
  have hok : ∃ s', sync sampleEnv ⟨3, 1020⟩ (oneFile ['a', 'b', 'c'] ⟨[1], 5, 0o644⟩) emptyDir = .ok s'
      ∧ s'.reports.count (.removed, [['a', 'b']]) = 1 := ⟨_, rfl, rfl⟩
  obtain ⟨s', hs', hcount⟩ := hok
  exact ⟨s', hs', hcount, fun hl => hl.get_ne_none (get_emptyDir _ (List.cons_ne_nil _ _))⟩

/-! ## Times and modes -/

/-- Every file of `D'` has the mode and the time of the source's file. -/
def SameAttributes (S D' : Tree) : Prop :=
  ∀ q b, D'.get q = some (.file b) →
    ∃ a, S.get q = some (.file a) ∧ b.mode = a.mode ∧ b.mtime = a.mtime

/-- Files of one size and time have one mode, and no file of `D` is out of reach: below a clash, or
in a directory when there is no source. -/
structure Reached (S D : Tree) : Prop where
  modes : ∀ q a b, S.get q = some (.file a) → D.get q = some (.file b) →
    a.bytes.length = b.bytes.length → a.mtime = b.mtime → b.mode = a.mode
  unshadowed : ∀ q, Shadowed S D q → D.isFile q = false
  rooted : S.get [] = none → ∀ q, q ≠ [] → D.isFile q = false

/-- A visit of everything gives the files their attributes, where it reaches them. -/
theorem sameAttributes_iff (h : ∀ q, Final S D D' q) (hS : S.get [] ≠ none) :
    SameAttributes S D' ↔ Reached S D := by
  constructor
  · intro hsame
    refine ⟨fun q a b ha hb hlen htime => ?_, fun q hsh => ?_, fun hn => absurd hn hS⟩
    · have hfin := h q
      simp only [Final, ha] at hfin
      have hkeep := hfin.1 ((sameStat_iff ha hb).mpr ⟨hlen, htime⟩)
      obtain ⟨a', ha', hmode, -⟩ := hsame q b (hkeep.trans hb)
      rw [ha] at ha'
      cases ha'
      exact hmode
    · -- below a clash the source has nothing, and the file is kept
      by_contra hf
      obtain ⟨c, hcq, hcf, hcd⟩ := hsh
      obtain ⟨b, hb⟩ := isFile_iff.mp (Bool.not_eq_false _ ▸ hf)
      have hne : c ≠ q := by
        rintro rfl
        rw [isFile_eq_false_of_isDir hcd] at hf
        exact hf rfl
      have hSq : S.get q = none :=
        get_eq_none_of_isSuffix (isDir_eq_false_of_isFile hcf) hcq hne
      have hfin := h q
      simp only [Final, hSq] at hfin
      obtain ⟨a, ha, -⟩ := hsame q b ((hfin.1 ⟨c, hcq, hcf, hcd⟩).trans hb)
      rw [hSq] at ha
      cases ha
  · rintro ⟨hmodes, hun, -⟩ q b hb
    have hfin := h q
    cases hSq : S.get q with
    | none =>
        simp only [Final, hSq] at hfin
        by_cases hsh : Shadowed S D q
        · have hf := hun q hsh
          rw [isFile_iff.mpr ⟨b, (hfin.1 hsh).symm.trans hb⟩] at hf
          cases hf
        · rw [hfin.2 hsh] at hb
          cases hb
    | some x =>
        cases x with
        | dir c =>
            simp only [Final, hSq] at hfin
            have hd := hfin.1
            rw [isDir_eq_false_of_isFile (isFile_iff.mpr ⟨b, hb⟩)] at hd
            cases hd
        | file a =>
            simp only [Final, hSq] at hfin
            refine ⟨a, rfl, ?_⟩
            by_cases hs : SameStat S D q
            · have hb' : D.get q = some (.file b) := (hfin.1 hs).symm.trans hb
              obtain ⟨hlen, htime⟩ := (sameStat_iff hSq hb').mp hs
              exact ⟨hmodes q a b hSq hb' hlen htime, htime.symm⟩
            · rw [hfin.2 hs] at hb
              cases hb
              exact ⟨rfl, rfl⟩

/-- **Modes and times are those of the source exactly for the files that are reached.** -/
theorem sync_attributes (h : sync E args S D = .ok s') (hfit : PathsFit args S D) :
    SameAttributes S s'.dst ↔ Reached S D := by
  rcases sync_cases h hfit with ⟨hv, hS, -⟩ | ⟨hn, rfl⟩
  · exact sameAttributes_iff (fun q => hv.final q List.nil_suffix) (get_ne_none_of_isDir hS)
  · have hnone : ∀ q, S.get q = none := fun q => get_eq_none_below hn List.nil_suffix
    have hnot : ∀ D' : Tree, SameAttributes S D' ↔ ∀ q, D'.isFile q = false := by
      intro D'
      constructor
      · intro hsame q
        by_contra hf
        obtain ⟨b, hb⟩ := isFile_iff.mp (Bool.not_eq_false _ ▸ hf)
        obtain ⟨a, ha, -⟩ := hsame q b hb
        rw [hnone q] at ha
        cases ha
      · intro hf q b hb
        have hq := hf q
        rw [isFile_iff.mpr ⟨b, hb⟩] at hq
        cases hq
    have hreached : Reached S D ↔ ∀ q, q ≠ [] → D.isFile q = false := by
      constructor
      · exact fun hr => hr.rooted hn
      · refine fun hf => ⟨fun q a b ha => ?_, fun q hsh => ?_, fun _ => hf⟩
        · rw [hnone q] at ha
          cases ha
        · obtain ⟨a, -, ha, -⟩ := hsh
          rw [isFile_eq_false_of_get (hnone a)] at ha
          cases ha
    rw [hnot, hreached]
    by_cases hrm : Removable D
    · have hgone := (removeItem_of_removable (E := E) (s := ⟨D, [], 0⟩) hrm).1
      exact ⟨fun _ q hq => isFile_eq_false_of_get (hrm.get_eq_none hq),
        fun _ q => isFile_eq_false_of_get (hgone q)⟩
    · rw [removeItem_of_not_removable (s := ⟨D, [], 0⟩) hrm]
      refine ⟨fun hf q _ => hf q, fun hf q => ?_⟩
      by_cases hq : q = []
      · rw [hq]
        exact Bool.eq_false_iff.mpr fun h => hrm (Or.inl h)
      · exact hf q hq

theorem sync_attributes_oneFile :
    ∃ s', sync sampleEnv ⟨3, 3⟩ (oneFile ['a'] ⟨[1, 2], 5, 0o644⟩)
      (oneFile ['a'] ⟨[1], 5, 0o600⟩) = .ok s'
      ∧ (SameAttributes (oneFile ['a'] ⟨[1, 2], 5, 0o644⟩) s'.dst
        ↔ Reached (oneFile ['a'] ⟨[1, 2], 5, 0o644⟩) (oneFile ['a'] ⟨[1], 5, 0o600⟩)) := by
  obtain ⟨s', hs'⟩ := oneFile_overwritten
  exact ⟨s', hs', sync_attributes hs' (oneFile_fit _ _)⟩

/-- A file of the same size and time keeps its mode. -/
theorem sync_keeps_mode :
    ∃ s', sync sampleEnv ⟨3, 3⟩ (oneFile ['a'] ⟨[1], 5, 0o755⟩)
      (oneFile ['a'] ⟨[1], 5, 0o644⟩) = .ok s'
      ∧ ¬ SameAttributes (oneFile ['a'] ⟨[1], 5, 0o755⟩) s'.dst := by
  have hok : ∃ s', sync sampleEnv ⟨3, 3⟩ (oneFile ['a'] ⟨[1], 5, 0o755⟩)
      (oneFile ['a'] ⟨[1], 5, 0o644⟩) = .ok s'
      ∧ s'.dst.get [['a']] = some (.file ⟨[1], 5, 0o644⟩) := ⟨_, rfl, rfl⟩
  obtain ⟨s', hs', hget⟩ := hok
  refine ⟨s', hs', fun hsame => ?_⟩
  obtain ⟨a, ha, hmode, -⟩ := hsame [['a']] _ hget
  cases ha
  cases hmode

end OSLab.Sync
