import OSLab.Sync.Synchronised

set_option autoImplicit false

/-! # Trees that agree

Two trees agree when they have the same paths with the same kinds, and their files the same sizes
and times. Agreement is an equivalence. A synchronisation that meets no clash makes the destination
agree with the source, and it has nothing to report exactly when they agree before. So however many
copies are made of a tree, from it or from each other, any of them can be synchronised onto any
other, and no change is found.
-/

namespace OSLab.Sync

open FileTree

variable {E : Env} {args : Args} {S T U D D' : Tree} {s' : State} {p q : List Name}

/-! ## Agreement -/

/-- The same paths, of the same kinds, and files of the same size and time. -/
structure Agree (S D : Tree) : Prop where
  dirs : ∀ q, D.isDir q = S.isDir q
  files : ∀ q, D.isFile q = S.isFile q
  stats : ∀ q, S.isFile q = true → SameStat S D q

theorem agree_refl (S : Tree) : Agree S S where
  dirs _ := rfl
  files _ := rfl
  stats _ hf := sameStat_of_get_eq (get_ne_none_of_isFile hf) rfl

theorem SameStat.symm (h : SameStat S D q) : SameStat D S q := by
  obtain ⟨x, y, hx, hy, hd⟩ := h
  refine ⟨y, x, hy, hx, ?_⟩
  simp only [Stat.differs, Bool.or_eq_false_iff, bne_eq_false_iff_eq] at hd ⊢
  exact ⟨hd.1.symm, hd.2.symm⟩

theorem SameStat.trans (h : SameStat S T q) (h' : SameStat T U q) : SameStat S U q := by
  obtain ⟨x, y, hx, hy, hd⟩ := h
  obtain ⟨y', z, hy', hz, hd'⟩ := h'
  rw [hy] at hy'
  cases hy'
  refine ⟨x, z, hx, hz, ?_⟩
  simp only [Stat.differs, Bool.or_eq_false_iff, bne_eq_false_iff_eq] at hd hd' ⊢
  exact ⟨hd.1.trans hd'.1, hd.2.trans hd'.2⟩

theorem Agree.symm (h : Agree S D) : Agree D S where
  dirs q := (h.dirs q).symm
  files q := (h.files q).symm
  stats q hf := (h.stats q ((h.files q).symm.trans hf)).symm

theorem Agree.trans (h : Agree S T) (h' : Agree T U) : Agree S U where
  dirs q := (h'.dirs q).trans (h.dirs q)
  files q := (h'.files q).trans (h.files q)
  stats q hf := (h.stats q hf).trans (h'.stats q ((h.files q).trans hf))

theorem Agree.not_clash (h : Agree S D) (q : List Name) : ¬ Clash S D q := by
  rintro ⟨hf, hd⟩
  rw [isDir_eq_false_of_isFile ((h.files q).trans hf)] at hd
  cases hd

theorem Agree.get_eq_none_iff (h : Agree S D) (q : List Name) :
    D.get q = none ↔ S.get q = none := by
  have hkinds : ∀ t : Tree, t.get q = none ↔ t.isDir q = false ∧ t.isFile q = false := by
    intro t
    refine ⟨fun hn => ⟨isDir_eq_false_of_get hn, isFile_eq_false_of_get hn⟩, ?_⟩
    rintro ⟨hd, hf⟩
    by_contra hne
    rw [isFile_of_isDir_eq_false hne hd] at hf
    cases hf
  rw [hkinds, hkinds, h.dirs, h.files]

/-! ## Nothing to report -/

/-- Nothing is to be reported about trees that agree. -/
theorem Agree.not_mem {rs : List (ChangeType × List Name)} (h : Agree S D)
    (hr : Reported S D q rs) (type : ChangeType) : (type, q) ∉ rs := by
  refine hr.not_mem ?_ ?_ ?_ type
  · rintro ⟨hne, -, hn | ⟨hd, hf⟩⟩
    · exact hne ((h.get_eq_none_iff q).mpr hn)
    · rw [h.files, isFile_eq_false_of_isDir hd] at hf
      cases hf
  · rintro (⟨hd, hn⟩ | ⟨hf, hn⟩)
    · rw [h.dirs, hd] at hn
      cases hn
    · exact get_ne_none_of_isFile hf ((h.get_eq_none_iff q).mp hn)
  · exact fun ho => ho.2.2 (h.stats q ho.1)

/-- Trees with nothing to report about them, and without a clash, agree. -/
theorem agree_of_reported (hc : ∀ q, ¬ Clash S D q) (hr : ∀ q, Reported S D q []) :
    Agree S D := by
  have hrem : ∀ q, ¬ Removed S D q := fun q h => by
    cases (hr q).removed.1 h
  have hadd : ∀ q, ¬ Added S D q := fun q h => by
    cases (hr q).added.1 h
  have hover : ∀ q, ¬ Overwritten S D q := fun q h => by
    cases (hr q).overwritten.1 h
  have hkind : ∀ q, D.isDir q = S.isDir q ∧ D.isFile q = S.isFile q := by
    intro q
    cases hS : S.get q with
    | none =>
        -- what is not in the source would have been removed
        have hn : D.get q = none := by
          by_contra hne
          refine hrem q ⟨hne, ?_, Or.inl hS⟩
          rintro ⟨a, -, ha⟩
          exact hc a ha
        rw [isDir_eq_false_of_get hn, isDir_eq_false_of_get hS, isFile_eq_false_of_get hn,
          isFile_eq_false_of_get hS]
        exact ⟨rfl, rfl⟩
    | some x =>
        cases x with
        | dir b =>
            have hd : S.isDir q = true := isDir_iff.mpr ⟨b, hS⟩
            have hd' : D.isDir q = true := by
              by_contra hn
              exact hadd q (Or.inl ⟨hd, Bool.eq_false_iff.mpr hn⟩)
            rw [hd, hd', isFile_eq_false_of_isDir hd, isFile_eq_false_of_isDir hd']
            exact ⟨rfl, rfl⟩
        | file a =>
            have hf : S.isFile q = true := isFile_iff.mpr ⟨a, hS⟩
            have hf' : D.isFile q = true :=
              isFile_of_isDir_eq_false (fun hn => hadd q (Or.inr ⟨hf, hn⟩))
                (Bool.eq_false_iff.mpr fun hd => hc q ⟨hf, hd⟩)
            rw [hf, hf', isDir_eq_false_of_isFile hf, isDir_eq_false_of_isFile hf']
            exact ⟨rfl, rfl⟩
  refine ⟨fun q => (hkind q).1, fun q => (hkind q).2, fun q hf => ?_⟩
  by_contra hs
  exact hover q ⟨hf, (hkind q).2.trans hf, hs⟩

/-- A synchronisation of trees that agree ends, reports nothing, and changes nothing but the sizes
and times of directories. -/
theorem Agree.silent (h : Agree S D) (hS : S.isDir [] = true) (hfit : PathsFit args S D) (E : Env) :
    ∃ s', sync E args S D = .ok s' ∧ s'.reports = [] ∧ ∀ q, coreAt s'.dst q = coreAt D q := by
  have hD : D.isDir [] = true := (h.dirs []).trans hS
  have hv := sync_visits (E := E) hS (isFile_eq_false_of_isDir hD) hfit
  cases hr : sync E args S D with
  | ok s' =>
      rw [hr] at hv
      have hv : Visited S [] ⟨D, [], 0⟩ s' := hv
      refine ⟨s', rfl, ?_, fun q => ?_⟩
      · obtain ⟨rs, hrs, -, hrep⟩ := hv.reports
        rw [hrs, List.nil_append, List.eq_nil_iff_forall_not_mem]
        rintro ⟨type, q⟩ hmem
        exact h.not_mem (hrep q List.nil_suffix) type hmem
      · have hfin := hv.final q List.nil_suffix
        cases hSq : S.get q with
        | none =>
            simp only [Final, hSq] at hfin
            have hn := hfin.2 (by
              rintro ⟨a, -, ha⟩
              exact h.not_clash a ha)
            exact coreAt_congr (hn.trans ((h.get_eq_none_iff q).mpr hSq).symm)
        | some x =>
            cases x with
            | dir b =>
                simp only [Final, hSq] at hfin
                exact hfin.2 ((h.dirs q).trans (isDir_iff.mpr ⟨b, hSq⟩))
            | file a =>
                simp only [Final, hSq] at hfin
                exact coreAt_congr (hfin.1 (h.stats q (isFile_iff.mpr ⟨a, hSq⟩)))
  | error e =>
      rw [hr] at hv
      cases e with
      | exit t =>
          obtain ⟨q, -, hq, -⟩ := hv
          exact absurd hq (h.not_clash q)
      | outOfFuel | astray t => exact hv.elim

/-- **A run reports nothing exactly when the trees agree.** -/
theorem silent_iff_agree (E : Env) (args : Args) (S D : Tree) (hS : S.isDir [] = true)
    (hfit : PathsFit args S D) (hc : ∀ q, ¬ Clash S D q) :
    (∃ s', sync E args S D = .ok s' ∧ s'.reports = []) ↔ Agree S D := by
  constructor
  · rintro ⟨s', hs', hnil⟩
    rcases sync_cases hs' hfit with ⟨hv, -, -⟩ | ⟨hn, -⟩
    · obtain ⟨rs, hrs, -, hrep⟩ := hv.reports
      rw [hnil, List.nil_append] at hrs
      subst hrs
      exact agree_of_reported hc fun q => hrep q List.nil_suffix
    · exact absurd hn (get_ne_none_of_isDir hS)
  · intro h
    obtain ⟨s', hs', hnil, -⟩ := h.silent hS hfit E
    exact ⟨s', hs', hnil⟩

/-- Trees of one file of the same length and time, and of different bytes. -/
theorem silent_iff_agree_oneFile :
    (∃ s', sync sampleEnv ⟨3, 3⟩ (oneFile ['a'] ⟨[1], 5, 0o644⟩) (oneFile ['a'] ⟨[2], 5, 0o644⟩) = .ok s'
        ∧ s'.reports = [])
      ↔ Agree (oneFile ['a'] ⟨[1], 5, 0o644⟩) (oneFile ['a'] ⟨[2], 5, 0o644⟩) :=
  silent_iff_agree sampleEnv ⟨3, 3⟩ _ _ rfl (oneFile_fit _ _) (not_clash_oneFile _ _)

/-! ## Copies -/

/-- Without a clash the destination agrees with the source afterwards. -/
theorem sync_agrees (h : sync E args S D = .ok s') (hS : S.isDir [] = true)
    (hfit : PathsFit args S D) (hc : ∀ q, ¬ Clash S D q) : Agree S s'.dst := by
  rcases sync_cases h hfit with ⟨hv, -, -⟩ | ⟨hn, -⟩
  · have hm := mirrors_of_final (fun q => hv.final q List.nil_suffix) hc
    exact ⟨hm.dirs, hm.files, fun q hf => hv.settled.sameStat List.nil_suffix hf⟩
  · exact absurd hn (get_ne_none_of_isDir hS)

/-- The tree `S`, and what is made from it by synchronisations that meet no clash and whose paths fit,
of `S` or of another copy. -/
inductive Copy (S : Tree) : Tree → Prop
  | self : Copy S S
  | sync {T D : Tree} {E : Env} {args : Args} {s' : State} (hT : Copy S T) (hfit : PathsFit args T D)
      (hc : ∀ q, ¬ Clash T D q) (hs : sync E args T D = .ok s') : Copy S s'.dst

theorem Copy.agree (hS : S.isDir [] = true) (h : Copy S T) : Agree S T := by
  induction h with
  | self => exact agree_refl S
  | sync _ hfit hc hs ih => exact ih.trans (sync_agrees hs ((ih.dirs []).trans hS) hfit hc)

/-- **Between the copies of a tree there is nothing to synchronise.** -/
theorem copies_silent (hS : S.isDir [] = true) (hT : Copy S T) (hU : Copy S U)
    (hfit : PathsFit args T U) (E : Env) :
    ∃ s', sync E args T U = .ok s' ∧ s'.reports = [] ∧ ∀ q, coreAt s'.dst q = coreAt U q := by
  have h : Agree T U := (hT.agree hS).symm.trans (hU.agree hS)
  exact h.silent (((hT.agree hS).dirs []).trans hS) hfit E

theorem not_clash_emptyDir (a : FileAttr) (q : List Name) : ¬ Clash (oneFile ['a'] a) emptyDir q := by
  rintro ⟨hf, hd⟩
  by_cases hq : q = []
  · rw [hq] at hf
    cases hf
  · rw [isDir_eq_false_of_get (get_emptyDir q hq)] at hd
    cases hd

/-- There and back: the copy is synchronised onto the tree it was made of. -/
theorem copies_silent_back :
    ∃ s', sync sampleEnv ⟨3, 3⟩ (oneFile ['a'] ⟨[1, 2], 5, 0o644⟩) emptyDir = .ok s'
      ∧ ∃ s'', sync sampleEnv ⟨3, 3⟩ s'.dst (oneFile ['a'] ⟨[1, 2], 5, 0o644⟩) = .ok s''
        ∧ s''.reports = []
        ∧ ∀ q, coreAt s''.dst q = coreAt (oneFile ['a'] ⟨[1, 2], 5, 0o644⟩) q := by
  have hok : ∃ s', sync sampleEnv ⟨3, 3⟩ (oneFile ['a'] ⟨[1, 2], 5, 0o644⟩) emptyDir = .ok s' :=
    ⟨_, rfl⟩
  obtain ⟨s', hs'⟩ := hok
  have hfit : PathsFit ⟨3, 3⟩ (oneFile ['a'] ⟨[1, 2], 5, 0o644⟩) emptyDir :=
    pathsFit_of_one (get_oneFile _ _) (fun q _ => get_emptyDir q) (by decide)
  have hcopy : Copy (oneFile ['a'] ⟨[1, 2], 5, 0o644⟩) s'.dst :=
    .sync .self hfit (not_clash_emptyDir _) hs'
  -- a copy has the paths of the tree and no others
  have hback : PathsFit ⟨3, 3⟩ s'.dst (oneFile ['a'] ⟨[1, 2], 5, 0o644⟩) :=
    pathsFit_of_one (fun q hq hq' => ((hcopy.agree rfl).get_eq_none_iff q).mpr (get_oneFile _ _ q hq hq'))
      (get_oneFile _ _) (by decide)
  exact ⟨s', hs', copies_silent rfl hcopy .self hback sampleEnv⟩

end OSLab.Sync
