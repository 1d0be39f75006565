import OSLab.Sync.Directories

set_option autoImplicit false

/-! # What a synchronisation comes to

The effect of the synchroniser is stated path by path, from the source tree `S` and the
destination tree `D` before: what the destination tree `D'` has there after (`Final`), and which
changes are reported (`Reported`). A path where the source has a file and the destination a
directory is a clash; the program has no branch for it. What lies below a clash stays as it is,
and a clash whose size or time differs ends the program.

Both depend on what is at and above the path only. A second synchronisation finds nothing to do
(`Settled`), which is what makes the second of the two loops harmless.
-/

namespace OSLab.Sync

open FileTree

variable {S D D' D₁ D₂ : Tree} {p q r : List Name} {n : Name}

/-! ## The specification -/

/-- What is at `p`, without the size and the time of a directory. -/
def coreAt (t : Tree) (p : List Name) : Option (Node FileAttr Nat) :=
  (t.get p).map (Node.map id DirAttr.mode)

/-- The source has a file where the destination has a directory. -/
def Clash (S D : Tree) (p : List Name) : Prop := S.isFile p = true ∧ D.isDir p = true

/-- There is a clash at `p` or above it. -/
def Shadowed (S D : Tree) (p : List Name) : Prop := ∃ a, a <:+ p ∧ Clash S D a

/-- Both sides have something at `p`, of the same size and time. -/
def SameStat (S D : Tree) (p : List Name) : Prop :=
  ∃ x y, stat S p = some x ∧ stat D p = some y ∧ x.differs y = false

/-- At or below `p` there is a clash that ends the program. -/
def Blocked (S D : Tree) (p : List Name) : Prop :=
  ∃ q, p <:+ q ∧ Clash S D q ∧ ¬ SameStat S D q

/-- What the destination has at `p` afterwards. -/
def Final (S D D' : Tree) (p : List Name) : Prop :=
  match S.get p with
  | none => (Shadowed S D p → D'.get p = D.get p) ∧ (¬ Shadowed S D p → D'.get p = none)
  | some (.dir _) => D'.isDir p = true ∧ (D.isDir p = true → coreAt D' p = coreAt D p)
  | some (.file a) =>
      (SameStat S D p → D'.get p = D.get p) ∧ (¬ SameStat S D p → D'.get p = some (.file a))

/-- What was at `p` is removed, to be replaced or not. -/
def Removed (S D : Tree) (p : List Name) : Prop :=
  D.get p ≠ none ∧ ¬ Shadowed S D p ∧ (S.get p = none ∨ S.isDir p = true ∧ D.isFile p = true)

/-- Something new is made at `p`. -/
def Added (S D : Tree) (p : List Name) : Prop :=
  S.isDir p = true ∧ D.isDir p = false ∨ S.isFile p = true ∧ D.get p = none

/-- The file at `p` is written anew. -/
def Overwritten (S D : Tree) (p : List Name) : Prop :=
  S.isFile p = true ∧ D.isFile p = true ∧ ¬ SameStat S D p

/-- `k` is `1` or `0`, as `c` holds or not. -/
def Once (c : Prop) (k : Nat) : Prop := (c → k = 1) ∧ (¬ c → k = 0)

/-- What is reported about `p`. -/
structure Reported (S D : Tree) (p : List Name) (rs : List (ChangeType × List Name)) :
    Prop where
  removed : Once (Removed S D p) (rs.count (.removed, p))
  added : Once (Added S D p) (rs.count (.added, p))
  overwritten : Once (Overwritten S D p) (rs.count (.overwritten, p))
  only : ∀ type, (type, p) ∈ rs → Removed S D p ∨ Added S D p ∨ Overwritten S D p

/-! ## Reports -/

/-- Where nothing is to be reported, nothing is. -/
theorem Reported.not_mem {rs : List (ChangeType × List Name)} (h : Reported S D p rs)
    (hr : ¬ Removed S D p) (ha : ¬ Added S D p) (ho : ¬ Overwritten S D p) (type : ChangeType) :
    (type, p) ∉ rs := by
  intro hm
  rcases h.only type hm with h | h | h
  · exact hr h
  · exact ha h
  · exact ho h

theorem reported_of_not_mem {rs : List (ChangeType × List Name)}
    (hr : ¬ Removed S D p) (ha : ¬ Added S D p) (ho : ¬ Overwritten S D p)
    (h : ∀ type, (type, p) ∉ rs) : Reported S D p rs where
  removed := ⟨fun hc => absurd hc hr, fun _ => List.count_eq_zero.mpr (h _)⟩
  added := ⟨fun hc => absurd hc ha, fun _ => List.count_eq_zero.mpr (h _)⟩
  overwritten := ⟨fun hc => absurd hc ho, fun _ => List.count_eq_zero.mpr (h _)⟩
  only type hm := absurd hm (h type)

theorem Reported.append {rs rs' : List (ChangeType × List Name)} (h : Reported S D p rs)
    (h' : ∀ type, (type, p) ∉ rs') : Reported S D p (rs ++ rs') where
  removed := by rw [List.count_append, List.count_eq_zero.mpr (h' _)]; exact h.removed
  added := by rw [List.count_append, List.count_eq_zero.mpr (h' _)]; exact h.added
  overwritten := by rw [List.count_append, List.count_eq_zero.mpr (h' _)]; exact h.overwritten
  only type hm := by
    rcases List.mem_append.mp hm with hm | hm
    · exact h.only type hm
    · exact absurd hm (h' type)

theorem Reported.prepend {rs rs' : List (ChangeType × List Name)} (h : Reported S D p rs)
    (h' : ∀ type, (type, p) ∉ rs') : Reported S D p (rs' ++ rs) where
  removed := by
    rw [List.count_append, List.count_eq_zero.mpr (h' _), Nat.zero_add]
    exact h.removed
  added := by
    rw [List.count_append, List.count_eq_zero.mpr (h' _), Nat.zero_add]
    exact h.added
  overwritten := by
    rw [List.count_append, List.count_eq_zero.mpr (h' _), Nat.zero_add]
    exact h.overwritten
  only type hm := by
    rcases List.mem_append.mp hm with hm | hm
    · exact absurd hm (h' type)
    · exact h.only type hm

/-! ## What the specification depends on -/

theorem isDir_congr (h : D₁.get p = D₂.get p) : D₁.isDir p = D₂.isDir p := by
  unfold FileTree.isDir
  rw [h]

theorem isFile_congr (h : D₁.get p = D₂.get p) : D₁.isFile p = D₂.isFile p := by
  unfold FileTree.isFile
  rw [h]

theorem stat_congr (h : D₁.get p = D₂.get p) : stat D₁ p = stat D₂ p := by
  unfold stat
  rw [h]

theorem stat_eq_none_iff {t : Tree} : stat t p = none ↔ t.get p = none := by
  unfold stat
  cases t.get p with
  | none => simp
  | some x => cases x <;> simp

theorem sameStat_congr (h : D₁.get p = D₂.get p) : SameStat S D₁ p ↔ SameStat S D₂ p := by
  unfold SameStat
  rw [stat_congr h]

theorem coreAt_congr (h : D₁.get p = D₂.get p) : coreAt D₁ p = coreAt D₂ p := by
  unfold coreAt
  rw [h]

theorem isDir_eq_core (t : Tree) (p : List Name) :
    t.isDir p = match coreAt t p with | some (.dir _) => true | _ => false := by
  unfold FileTree.isDir coreAt
  cases t.get p with
  | none => rfl
  | some x => cases x <;> rfl

theorem isDir_of_coreAt (h : coreAt D₁ p = coreAt D₂ p) : D₁.isDir p = D₂.isDir p := by
  rw [isDir_eq_core, isDir_eq_core, h]

/-- No file of the source lies above `p`. -/
def Unshadowed (S : Tree) (p : List Name) : Prop :=
  ∀ a, a <:+ p → a ≠ p → S.isFile a = false

theorem unshadowed_of_hasPlace (h : S.HasPlace p) : Unshadowed S p := by
  intro a ha hne
  cases p with
  | nil => exact absurd (List.suffix_nil.mp ha) hne
  | cons n p =>
      rcases List.suffix_cons_iff.mp ha with rfl | ha
      · exact absurd rfl hne
      · by_cases he : a = p
        · rw [he]
          exact isFile_eq_false_of_isDir h
        · obtain ⟨b, hb⟩ := isDir_iff.mp (show S.isDir p = true from h)
          exact isFile_eq_false_of_isDir (isDir_of_isSuffix (by simp [hb]) ha he)

theorem Unshadowed.cons (h : Unshadowed S p) (hp : S.isFile p = false) :
    Unshadowed S (n :: p) := by
  intro a ha hne
  rcases List.suffix_cons_iff.mp ha with rfl | ha
  · exact absurd rfl hne
  · by_cases he : a = p
    · rw [he]
      exact hp
    · exact h a ha he

/-- A clash above something below `p` lies below `p`. -/
theorem Unshadowed.below (h : Unshadowed S p) {a : List Name} (hq : p <:+ q) (ha : a <:+ q)
    (hf : S.isFile a = true) : p <:+ a := by
  rcases List.suffix_or_suffix_of_suffix hq ha with hs | hs
  · exact hs
  · by_cases he : a = p
    · exact he ▸ List.suffix_refl _
    · rw [h a hs he] at hf
      cases hf

section Congr

variable (hu : Unshadowed S p) (hD : ∀ q, p <:+ q → D₁.get q = D₂.get q)

include hu hD in
theorem shadowed_congr (hq : p <:+ q) : Shadowed S D₁ q ↔ Shadowed S D₂ q := by
  constructor
  · rintro ⟨a, ha, hf, hd⟩
    exact ⟨a, ha, hf, (isDir_congr (hD a (hu.below hq ha hf))).symm.trans hd⟩
  · rintro ⟨a, ha, hf, hd⟩
    exact ⟨a, ha, hf, (isDir_congr (hD a (hu.below hq ha hf))).trans hd⟩

include hu hD in
theorem final_congr (hq : p <:+ q) : Final S D₁ D' q ↔ Final S D₂ D' q := by
  unfold Final
  rw [hD q hq, shadowed_congr hu hD hq, sameStat_congr (hD q hq), isDir_congr (hD q hq),
    coreAt_congr (hD q hq)]

include hu hD in
theorem removed_congr (hq : p <:+ q) : Removed S D₁ q ↔ Removed S D₂ q := by
  unfold Removed
  rw [hD q hq, shadowed_congr hu hD hq, isFile_congr (hD q hq)]

include hD in
theorem added_congr (hq : p <:+ q) : Added S D₁ q ↔ Added S D₂ q := by
  unfold Added
  rw [hD q hq, isDir_congr (hD q hq)]

include hD in
theorem overwritten_congr (hq : p <:+ q) : Overwritten S D₁ q ↔ Overwritten S D₂ q := by
  unfold Overwritten
  rw [isFile_congr (hD q hq), sameStat_congr (hD q hq)]

include hu hD in
theorem reported_congr {rs : List (ChangeType × List Name)} (hq : p <:+ q)
    (h : Reported S D₁ q rs) : Reported S D₂ q rs := by
  obtain ⟨hr, ha, ho, hm⟩ := h
  rw [removed_congr hu hD hq] at hr
  rw [added_congr hD hq] at ha
  rw [overwritten_congr hD hq] at ho
  refine ⟨hr, ha, ho, fun type h => ?_⟩
  rw [← removed_congr hu hD hq, ← added_congr hD hq, ← overwritten_congr hD hq]
  exact hm type h

include hD in
theorem blocked_congr (h : Blocked S D₁ p) : Blocked S D₂ p := by
  obtain ⟨q, hq, ⟨hf, hd⟩, hs⟩ := h
  exact ⟨q, hq, ⟨hf, (isDir_congr (hD q hq)).symm.trans hd⟩,
    fun h => hs ((sameStat_congr (hD q hq)).mpr h)⟩

end Congr

/-- `Final` looks at `D'` at the path only. -/
theorem Final.of_get (h : Final S D D₁ p) (he : D₂.get p = D₁.get p) : Final S D D₂ p := by
  unfold Final at h ⊢
  rwa [he, isDir_congr he, coreAt_congr he]

/-! ## A second synchronisation -/

theorem sameStat_of_get_eq (h : S.get p ≠ none) (he : D.get p = S.get p) : SameStat S D p := by
  obtain ⟨x, hx⟩ : ∃ x, stat S p = some x := by
    unfold stat
    cases hg : S.get p with
    | none => exact absurd hg h
    | some y => cases y <;> exact ⟨_, rfl⟩
  exact ⟨x, x, hx, (stat_congr he).trans hx, by simp [Stat.differs]⟩

/-- Below `p` nothing is left to do, in the tree `D₁` that a synchronisation of `D` has made. -/
structure Settled (S D D₁ : Tree) (p : List Name) : Prop where
  unshadowed : Unshadowed S p
  final : ∀ q, p <:+ q → Final S D D₁ q
  clear : ¬ Blocked S D p

theorem Settled.cons (h : Settled S D D₁ p) (hp : S.isFile p = false) :
    Settled S D D₁ (n :: p) where
  unshadowed := h.unshadowed.cons hp
  final q hq := h.final q (isSuffix_of_cons_isSuffix hq)
  clear hb := by
    obtain ⟨q, hq, hc⟩ := hb
    exact h.clear ⟨q, isSuffix_of_cons_isSuffix hq, hc⟩

/-- A file of the source is on the other side with its size and its time. -/
theorem Settled.sameStat (h : Settled S D D₁ p) (hq : p <:+ q) (hf : S.isFile q = true) :
    SameStat S D₁ q := by
  obtain ⟨a, ha⟩ := isFile_iff.mp hf
  have hfin := h.final q hq
  simp only [Final, ha] at hfin
  by_cases hs : SameStat S D q
  · exact (sameStat_congr (hfin.1 hs)).mpr hs
  · exact sameStat_of_get_eq (by simp [ha]) ((hfin.2 hs).trans ha.symm)

theorem Settled.clash_iff (h : Settled S D D₁ p) (hq : p <:+ q) : Clash S D₁ q ↔ Clash S D q := by
  constructor
  · rintro ⟨hf, hd⟩
    refine ⟨hf, ?_⟩
    obtain ⟨a, ha⟩ := isFile_iff.mp hf
    have hfin := h.final q hq
    simp only [Final, ha] at hfin
    by_cases hs : SameStat S D q
    · exact (isDir_congr (hfin.1 hs)).symm.trans hd
    · rw [isDir_iff, hfin.2 hs] at hd
      obtain ⟨b, hb⟩ := hd
      cases hb
  · rintro ⟨hf, hd⟩
    refine ⟨hf, ?_⟩
    obtain ⟨a, ha⟩ := isFile_iff.mp hf
    have hfin := h.final q hq
    simp only [Final, ha] at hfin
    have hs : SameStat S D q := by
      by_contra hs
      exact h.clear ⟨q, hq, ⟨hf, hd⟩, hs⟩
    exact (isDir_congr (hfin.1 hs)).trans hd

theorem Settled.shadowed_iff (h : Settled S D D₁ p) (hq : p <:+ q) :
    Shadowed S D₁ q ↔ Shadowed S D q := by
  constructor
  · rintro ⟨a, ha, hc⟩
    exact ⟨a, ha, (h.clash_iff (h.unshadowed.below hq ha hc.1)).mp hc⟩
  · rintro ⟨a, ha, hc⟩
    exact ⟨a, ha, (h.clash_iff (h.unshadowed.below hq ha hc.1)).mpr hc⟩

theorem Settled.not_blocked (h : Settled S D D₁ p) : ¬ Blocked S D₁ p := by
  rintro ⟨q, hq, hc, hs⟩
  exact hs (h.sameStat hq hc.1)

theorem Settled.not_removed (h : Settled S D D₁ p) (hq : p <:+ q) : ¬ Removed S D₁ q := by
  rintro ⟨hne, hsh, hk⟩
  have hfin := h.final q hq
  rw [h.shadowed_iff hq] at hsh
  rcases hk with hn | ⟨hd, hf⟩
  · simp only [Final, hn] at hfin
    exact hne (hfin.2 hsh)
  · obtain ⟨b, hb⟩ := isDir_iff.mp hd
    simp only [Final, hb] at hfin
    rw [isDir_eq_false_of_isFile hf] at hfin
    cases hfin.1

theorem Settled.not_added (h : Settled S D D₁ p) (hq : p <:+ q) : ¬ Added S D₁ q := by
  have hfin := h.final q hq
  rintro (⟨hd, hn⟩ | ⟨hf, hn⟩)
  · obtain ⟨b, hb⟩ := isDir_iff.mp hd
    simp only [Final, hb] at hfin
    rw [hfin.1] at hn
    cases hn
  · obtain ⟨-, y, -, hy, -⟩ := h.sameStat hq hf
    simp [stat, hn] at hy

theorem Settled.not_overwritten (h : Settled S D D₁ p) (hq : p <:+ q) : ¬ Overwritten S D₁ q :=
  fun ho => ho.2.2 (h.sameStat hq ho.1)

/-- Nothing is reported about a settled tree. -/
theorem Settled.not_mem (h : Settled S D D₁ p) (hq : p <:+ q)
    {rs : List (ChangeType × List Name)} (hr : Reported S D₁ q rs) (type : ChangeType) :
    (type, q) ∉ rs :=
  hr.not_mem (h.not_removed hq) (h.not_added hq) (h.not_overwritten hq) type

/-- A settled tree stays as it is, but for the sizes and times of directories. -/
theorem Settled.unchanged (h : Settled S D D₁ p) (hq : p <:+ q) (hf : Final S D₁ D₂ q) :
    coreAt D₂ q = coreAt D₁ q ∧ (S.isDir q = false → D₂.get q = D₁.get q) := by
  have hfin := h.final q hq
  cases hS : S.get q with
  | none =>
      simp only [Final, hS, h.shadowed_iff hq] at hfin hf
      have he : D₂.get q = D₁.get q := by
        by_cases hs : Shadowed S D q
        · exact hf.1 hs
        · rw [hf.2 hs, hfin.2 hs]
      exact ⟨coreAt_congr he, fun _ => he⟩
  | some x =>
      cases x with
      | dir b =>
          simp only [Final, hS] at hfin hf
          refine ⟨hf.2 hfin.1, fun hd => ?_⟩
          rw [isDir_iff.mpr ⟨b, hS⟩] at hd
          cases hd
      | file a =>
          have hs := h.sameStat hq (isFile_iff.mpr ⟨a, hS⟩)
          simp only [Final, hS] at hf
          exact ⟨coreAt_congr (hf.1 hs), fun _ => hf.1 hs⟩

/-- **Two synchronisations come to one.** -/
theorem Settled.trans (h : Settled S D D₁ p) (hq : p <:+ q) (hf : Final S D₁ D₂ q) :
    Final S D D₂ q := by
  have hfin := h.final q hq
  obtain ⟨hcore, hget⟩ := h.unchanged hq hf
  cases hS : S.get q with
  | none =>
      have hd : S.isDir q = false := by simp [FileTree.isDir, hS]
      exact hfin.of_get (hget hd)
  | some x =>
      cases x with
      | dir b =>
          simp only [Final, hS] at hfin hf ⊢
          exact ⟨hf.1, fun hd => hcore.trans (hfin.2 hd)⟩
      | file a =>
          exact hfin.of_get (hget (isDir_eq_false_of_isFile (isFile_iff.mpr ⟨a, hS⟩)))

end OSLab.Sync
