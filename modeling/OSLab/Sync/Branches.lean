import OSLab.Sync.Visit

set_option autoImplicit false

/-! # The branches of `sync_items`

Each branch visits its item: `remove_directory` where the source has nothing, the two copies where
it has a file, and the removal of a file that is in the place of a directory.
-/

namespace OSLab.Sync

open FileTree

variable {E : Env} {S : Tree} {s s' s₁ s₂ : State} {p q : List Name} {n : Name}
  {l : List Name}

/-! ## Where a visit starts -/

/-- A visit does not depend on the tick. -/
theorem Visited.start (h : Visited S p s₁ s') (hdst : s₁.dst = s.dst)
    (hrep : s₁.reports = s.reports) : Visited S p s s' := by
  obtain ⟨hframe, hcore, hfinal, hclear, hreports⟩ := h
  rw [hdst] at hframe hcore hfinal hclear hreports
  rw [hrep] at hreports
  exact ⟨hframe, hcore, hfinal, hclear, hreports⟩

theorem Visits.start {r : Run} (h : Visits S p s₁ r) (hdst : s₁.dst = s.dst)
    (hrep : s₁.reports = s.reports) : Visits S p s r := by
  cases r with
  | ok s' => exact Visited.start h hdst hrep
  | error e =>
      cases e with
      | exit t =>
          have h : Blocked S s₁.dst p := h
          rw [hdst] at h
          exact h
      | outOfFuel | astray t => exact h

theorem Visited.set (h : Visited S p (s.set s.dst) s') : Visited S p s s' := h.start rfl rfl

theorem Visits.set {r : Run} (h : Visits S p (s.set s.dst) r) : Visits S p s r := h.start rfl rfl

theorem At.hasPlace {t t' : Tree} (h : At t t' p) (hp : t.HasPlace p) : t'.HasPlace p := by
  cases p with
  | nil => trivial
  | cons n p =>
      have hne : p ≠ n :: p := fun he => by
        have := congrArg List.length he
        simp at this
      exact (isDir_of_coreAt (h.core p hne)).trans hp

/-- What blocks a visit after a change at `p`, where the source has no file, has blocked it
before. -/
theorem At.blocked {t t' : Tree} (h : At t t' p) (hS : S.isFile p = false)
    (hb : Blocked S t' p) : Blocked S t p := by
  obtain ⟨q, hq, ⟨hf, hd⟩, hs⟩ := hb
  rcases isSuffix_iff_eq_or_cons.mp hq with rfl | ⟨n, hn⟩
  · rw [hS] at hf
    cases hf
  · have he := h.below hn
    exact ⟨q, hq, ⟨hf, (isDir_congr he).symm.trans hd⟩, fun hs' => hs ((sameStat_congr he).mpr hs')⟩

/-! ## `remove_directory` -/

/-- A file of the destination that the source does not have. -/
theorem visited_of_removed (hu : Unshadowed S p) (hS : S.get p = none)
    (hf : s.dst.isFile p = true) (hat : At s.dst s'.dst p) (hn : s'.dst.get p = none)
    (hrep : s'.reports = s.reports ++ [(.removed, p)]) : Visited S p s s' := by
  have hnil : Swept S p [] s s := Swept.nil rfl rfl
  refine hnil.removed hu hS ?_ (get_ne_none_of_isFile hf) hat hn hrep
  intro m hm
  have hd := isDir_parent hm
  rw [isDir_eq_false_of_isFile hf] at hd
  cases hd

/-- The loop of `remove_directory`; `s₀` is the state in which it has listed the directory. -/
theorem removeEntries_swept (rm : List Name → State → State) (s₀ : State)
    (hu : ∀ n, Unshadowed S (n :: p)) (hS : ∀ n, S.get (n :: p) = none)
    (hrm : ∀ n s, (∀ q, (n :: p) <:+ q → s.dst.get q = s₀.dst.get q) →
      s.dst.isDir (n :: p) = true → Visited S (n :: p) s (rm (n :: p) s))
    (hl : l.Nodup) (hex : ∀ n ∈ l, s.dst.get (n :: p) ≠ none)
    (hs : ∀ n ∈ l, ∀ q, (n :: p) <:+ q → s.dst.get q = s₀.dst.get q) :
    Swept S p l s (removeEntries E rm p l s).1 := by
  induction l generalizing s with
  | nil => exact Swept.nil rfl rfl
  | cons n l ih =>
      obtain ⟨hn, hl⟩ := List.nodup_cons.mp hl
      obtain ⟨s₁, he, hvis⟩ : ∃ s₁, removeEntries E rm p (n :: l) s = removeEntries E rm p l s₁
          ∧ Visited S (n :: p) s s₁ := by
        cases hd : s.dst.isDir (n :: p) with
        | true =>
            exact ⟨rm (n :: p) s, by rw [removeEntries, if_pos hd],
              hrm n s (hs n List.mem_cons_self) hd⟩
        | false =>
            have hf := isFile_of_isDir_eq_false (hex n List.mem_cons_self) hd
            obtain ⟨t, ht, hat, hnone⟩ := unlink_spec (E := E) (k := s.tick) hf
            refine ⟨reportChange (s.set t) .removed (n :: p), ?_,
              visited_of_removed (hu n) (hS n) hf hat hnone rfl⟩
            rw [removeEntries, if_neg (by simp [hd]), ht]
      have hother : ∀ m ∈ l, ∀ q, (m :: p) <:+ q → s₁.dst.get q = s.dst.get q :=
        fun m hm q hq => hvis.other (fun he => hn (he ▸ hm)) hq
      rw [he]
      refine Swept.cons hu hvis (ih hl (fun m hm => ?_) fun m hm q hq => ?_) hn
      · rw [hother m hm _ (List.suffix_refl _)]
        exact hex m (List.mem_cons_of_mem _ hm)
      · rw [hother m hm q hq]
        exact hs m (List.mem_cons_of_mem _ hm) q hq

/-- **`remove_directory`** removes all that is there, and reports each item once. -/
theorem removeDirectory_visited {fuel : Nat} (hu : Unshadowed S p) (hS : S.get p = none)
    (hd : s.dst.isDir p = true)
    (hfuel : ∀ q, p <:+ q → s.dst.get q ≠ none → q.length < p.length + fuel) :
    Visited S p s (removeDirectory E fuel p s).1 := by
  induction fuel generalizing p s with
  | zero =>
      have := hfuel p (List.suffix_refl _) (get_ne_none_of_isDir hd)
      omega
  | succ fuel ih =>
      have hSf : S.isFile p = false := isFile_eq_false_of_get hS
      have hperm := E.order_perm s.tick (s.dst.names p)
      have hmem : ∀ n, n ∈ E.order s.tick (s.dst.names p) ↔ s.dst.get (n :: p) ≠ none :=
        fun n => hperm.mem_iff.trans mem_names
      have hbelow : ∀ n, S.get (n :: p) = none :=
        fun n => get_eq_none_below hS (List.suffix_cons n p)
      have hswept := removeEntries_swept (E := E) (s := s.set s.dst)
        (fun p s => (removeDirectory E fuel p s).1) s (fun n => hu.cons hSf) hbelow
        (fun n s' hs' hd' => by
          refine ih (hu.cons hSf) (hbelow n) hd' fun q hq hne => ?_
          rw [hs' q hq] at hne
          have := hfuel q (isSuffix_of_cons_isSuffix hq) hne
          rw [List.length_cons]
          omega)
        (hperm.nodup_iff.mpr (nodup_names _ _)) (fun n hn => (hmem n).mp hn) (fun _ _ _ _ => rfl)
      set s₁ := (removeEntries E (fun p s => (removeDirectory E fuel p s).1) p
        (E.order s.tick (s.dst.names p)) (s.set s.dst)).1 with hs₁
      have hd₁ : s₁.dst.isDir p = true :=
        (isDir_of_coreAt (hswept.core p fun n _ => not_cons_isSuffix_self)).trans hd
      have hempty : s₁.dst.names p = [] := by
        rw [List.eq_nil_iff_forall_not_mem]
        intro n hn
        have hne := mem_names.mp hn
        by_cases hin : n ∈ E.order s.tick (s.dst.names p)
        · have hfin := hswept.final n hin (n :: p) (List.suffix_refl _)
          simp only [Final, hbelow n] at hfin
          exact hne (hfin.2 (not_shadowed_below hu hS (List.suffix_cons n p)))
        · rw [hswept.frame (n :: p) (fun m hm hmn => hin (eq_of_cons_isSuffix hmn
            (List.suffix_refl _) ▸ hm)) (ne_of_cons_isSuffix (List.suffix_refl _))] at hne
          exact hin ((hmem n).mpr hne)
      obtain ⟨t, ht, hat, hnone⟩ := rmdir_spec (E := E) (k := s₁.tick) hd₁ hempty
      have he : (removeDirectory E (fuel + 1) p s).1 = reportChange (s₁.set t) .removed p := by
        simp only [removeDirectory, if_pos hd, ← hs₁, ht]
      rw [he]
      refine Visited.set ?_
      exact hswept.removed hu hS (fun n hn => (hmem n).mpr hn) (get_ne_none_of_isDir hd) hat hnone rfl

/-! ## Files of the source -/

/-- Below a file of the source there is nothing in the source. -/
theorem get_eq_none_below_file (hS : S.isFile p = true) (hq : (n :: p) <:+ q) : S.get q = none :=
  get_eq_none_of_isSuffix (isDir_eq_false_of_isFile hS) (isSuffix_of_cons_isSuffix hq)
    (ne_of_cons_isSuffix hq).symm

/-- The source's file is copied. -/
theorem visited_of_copied {a : FileAttr} {type : ChangeType} {rs : List (ChangeType × List Name)}
    (hu : Unshadowed S p) (hS : S.get p = some (.file a)) (hd : s.dst.isDir p = false)
    (hs : ¬ SameStat S s.dst p) (hat : At s.dst s'.dst p) (hget : s'.dst.get p = some (.file a))
    (hrep : s'.reports = s.reports ++ (type, p) :: rs)
    (hrs : rs = [(.timestamp, p)] ∨ rs = [(.timestamp, p), (.permissions, p)])
    (htype : type = .added ∧ s.dst.get p = none
      ∨ type = .overwritten ∧ s.dst.isFile p = true) : Visited S p s s' := by
  have hSf : S.isFile p = true := isFile_iff.mpr ⟨a, hS⟩
  have hSd : S.isDir p = false := isDir_eq_false_of_isFile hSf
  have hnone : ∀ n q, (n :: p) <:+ q → s.dst.get q = none := fun n q hq =>
    get_eq_none_of_isSuffix hd (isSuffix_of_cons_isSuffix hq) (ne_of_cons_isSuffix hq).symm
  have hmem : ∀ x ∈ (type, p) :: rs, x.2 = p := by
    rcases hrs with rfl | rfl <;> simp
  have hsh : ∀ n q, (n :: p) <:+ q → ¬ Shadowed S s.dst q := by
    rintro n q hq ⟨b, hb, hf, hdir⟩
    rcases isSuffix_iff_eq_or_cons.mp (hu.below (isSuffix_of_cons_isSuffix hq) hb hf) with rfl | ⟨m, hm⟩
    · rw [hd] at hdir
      cases hdir
    · simp [FileTree.isFile, get_eq_none_below_file hSf hm] at hf
  refine ⟨fun q hq => hat.frame q fun he => hq (he ▸ List.suffix_refl _),
    fun q hq => hat.core q fun he => hq (he ▸ List.suffix_refl _), ?_, ?_, ?_⟩
  · intro q hq
    rcases isSuffix_iff_eq_or_cons.mp hq with rfl | ⟨n, hn⟩
    · simp only [Final, hS]
      exact ⟨fun h => absurd h hs, fun _ => hget⟩
    · simp only [Final, get_eq_none_below_file hSf hn]
      exact ⟨fun h => absurd h (hsh n q hn), fun _ => (hat.below hn).trans (hnone n q hn)⟩
  · rintro ⟨q, hq, ⟨hf, hdir⟩, -⟩
    rcases isSuffix_iff_eq_or_cons.mp hq with rfl | ⟨n, hn⟩
    · rw [hd] at hdir
      cases hdir
    · simp [FileTree.isFile, get_eq_none_below_file hSf hn] at hf
  · refine ⟨_, hrep, fun x hx => hmem x hx ▸ List.suffix_refl _, fun q hq => ?_⟩
    rcases isSuffix_iff_eq_or_cons.mp hq with rfl | ⟨n, hn⟩
    · have hnr : ¬ Removed S s.dst q := by
        rintro ⟨-, -, h | ⟨h, -⟩⟩
        · simp [hS] at h
        · rw [hSd] at h
          cases h
      rcases htype with ⟨rfl, hD⟩ | ⟨rfl, hD⟩
      · have ha : Added S s.dst q := Or.inr ⟨hSf, hD⟩
        have hno : ¬ Overwritten S s.dst q := by
          rintro ⟨-, h, -⟩
          simp [FileTree.isFile, hD] at h
        refine ⟨⟨fun h => absurd h hnr, fun _ => ?_⟩, ⟨fun _ => ?_, fun h => absurd ha h⟩,
          ⟨fun h => absurd h hno, fun _ => ?_⟩, fun _ _ => Or.inr (Or.inl ha)⟩ <;>
        rcases hrs with rfl | rfl <;> simp
      · have ho : Overwritten S s.dst q := ⟨hSf, hD, hs⟩
        have hna : ¬ Added S s.dst q := by
          rintro (⟨h, -⟩ | ⟨-, h⟩)
          · rw [hSd] at h
            cases h
          · exact get_ne_none_of_isFile hD h
        refine ⟨⟨fun h => absurd h hnr, fun _ => ?_⟩, ⟨fun h => absurd h hna, fun _ => ?_⟩,
          ⟨fun _ => ?_, fun h => absurd ho h⟩, fun _ _ => Or.inr (Or.inr ho)⟩ <;>
        rcases hrs with rfl | rfl <;> simp
    · have hSq := get_eq_none_below_file hSf hn
      exact reported_of_not_mem (fun h => h.1 (hnone n q hn)) (not_added_of_none hSq)
        (not_overwritten_of_none hSq) fun type' hx => ne_of_cons_isSuffix hn (hmem _ hx)

/-- The source's file is taken to be there already. -/
theorem visited_of_same (hu : Unshadowed S p) (hS : S.isFile p = true)
    (hs : SameStat S s.dst p) : Visited S p s s := by
  obtain ⟨a, ha⟩ := isFile_iff.mp hS
  have hD : s.dst.get p ≠ none := by
    obtain ⟨-, y, -, hy, -⟩ := hs
    intro hn
    simp [stat, hn] at hy
  -- below `p` there is something only if the destination has a directory there, a clash
  have hbelow : ∀ n q, (n :: p) <:+ q → ¬ Shadowed S s.dst q → s.dst.get q = none := by
    intro n q hq hsh
    refine get_eq_none_of_isSuffix ?_ (isSuffix_of_cons_isSuffix hq) (ne_of_cons_isSuffix hq).symm
    rw [Bool.eq_false_iff]
    exact fun hd => hsh ⟨p, isSuffix_of_cons_isSuffix hq, hS, hd⟩
  refine ⟨fun _ _ _ => rfl, fun _ _ => rfl, ?_, ?_, [], (List.append_nil _).symm,
    fun x hx => (by cases hx), fun q hq => ?_⟩
  · intro q hq
    rcases isSuffix_iff_eq_or_cons.mp hq with rfl | ⟨n, hn⟩
    · simp only [Final, ha]
      exact ⟨fun _ => trivial, fun h => absurd hs h⟩
    · simp only [Final, get_eq_none_below_file hS hn]
      exact ⟨fun _ => trivial, hbelow n q hn⟩
  · rintro ⟨q, hq, ⟨hf, -⟩, hns⟩
    rcases isSuffix_iff_eq_or_cons.mp hq with rfl | ⟨n, hn⟩
    · exact hns hs
    · simp [FileTree.isFile, get_eq_none_below_file hS hn] at hf
  · refine reported_of_not_mem ?_ ?_ ?_ fun type hx => by cases hx
    · rcases isSuffix_iff_eq_or_cons.mp hq with rfl | ⟨n, hn⟩
      · rintro ⟨-, -, h | ⟨h, -⟩⟩
        · exact get_ne_none_of_isFile hS h
        · rw [isDir_eq_false_of_isFile hS] at h
          cases h
      · exact fun h => h.1 (hbelow n q hn h.2.1)
    · rcases isSuffix_iff_eq_or_cons.mp hq with rfl | ⟨n, hn⟩
      · rintro (⟨h, -⟩ | ⟨-, h⟩)
        · rw [isDir_eq_false_of_isFile hS] at h
          cases h
        · exact hD h
      · exact not_added_of_none (get_eq_none_below_file hS hn)
    · rcases isSuffix_iff_eq_or_cons.mp hq with rfl | ⟨n, hn⟩
      · exact fun h => h.2.2 hs
      · exact not_overwritten_of_none (get_eq_none_below_file hS hn)

/-! ## A file in the place of a directory -/

/-- The destination's file gives way to the source's directory. -/
theorem Visited.replaced (hu : Unshadowed S p) (hS : S.isDir p = true)
    (hf : s.dst.isFile p = true) (hat : At s.dst s₁.dst p) (hn : s₁.dst.get p = none)
    (hrep : s₁.reports = s.reports ++ [(.removed, p)]) (h : Visited S p s₁ s') :
    Visited S p s s' := by
  have hSf : S.isFile p = false := isFile_eq_false_of_isDir hS
  have hd : s.dst.isDir p = false := isDir_eq_false_of_isFile hf
  have hd₁ : s₁.dst.isDir p = false := isDir_eq_false_of_get hn
  refine ⟨?_, ?_, ?_, fun hb => h.clear ?_, ?_⟩
  · intro q hq ht
    rw [h.frame q hq ht, hat.frame q (fun he => hq (he ▸ List.suffix_refl _)) ht]
  · intro q hq
    rw [h.core q hq, hat.core q fun he => hq (he ▸ List.suffix_refl _)]
  · intro q hq
    have hfin := h.final q hq
    rcases isSuffix_iff_eq_or_cons.mp hq with rfl | ⟨n, hnq⟩
    · obtain ⟨b, hb⟩ := isDir_iff.mp hS
      simp only [Final, hb] at hfin ⊢
      refine ⟨hfin.1, fun hdir => ?_⟩
      rw [hd] at hdir
      cases hdir
    · exact (final_congr (hu.cons hSf) (fun q hq => hat.below hq) hnq).mp hfin
  · obtain ⟨q, hq, ⟨hqf, hqd⟩, hqs⟩ := hb
    rcases isSuffix_iff_eq_or_cons.mp hq with rfl | ⟨n, hnq⟩
    · rw [hSf] at hqf
      cases hqf
    · have he := hat.below hnq
      exact ⟨q, hq, ⟨hqf, (isDir_congr he).trans hqd⟩, fun hs => hqs ((sameStat_congr he).mp hs)⟩
  · obtain ⟨rs, hr, hin, hrs⟩ := h.reports
    refine ⟨(.removed, p) :: rs, by rw [hr, hrep, List.append_assoc]; rfl, ?_, ?_⟩
    · intro x hx
      rcases List.mem_cons.mp hx with rfl | hx
      · exact List.suffix_refl _
      · exact hin x hx
    · intro q hq
      obtain ⟨hrem, hadd, hover, honly⟩ := hrs q hq
      rcases isSuffix_iff_eq_or_cons.mp hq with rfl | ⟨n, hnq⟩
      · have hr : Removed S s.dst q := by
          refine ⟨get_ne_none_of_isFile hf, ?_, Or.inr ⟨hS, hf⟩⟩
          rintro ⟨a, ha, hc, hcd⟩
          by_cases he : a = q
          · rw [he, hd] at hcd
            cases hcd
          · rw [hu a ha he] at hc
            cases hc
        have ha : Added S s.dst q := Or.inl ⟨hS, hd⟩
        have hno : ∀ D, ¬ Overwritten S D q := by
          rintro D ⟨h, -⟩
          rw [hSf] at h
          cases h
        refine ⟨⟨fun _ => ?_, fun h => absurd hr h⟩, ⟨fun _ => ?_, fun h => absurd ha h⟩,
          ⟨fun h => absurd h (hno _), fun _ => ?_⟩, fun _ _ => Or.inl hr⟩
        · rw [List.count_cons_self, hrem.2 fun h => h.1 hn]
        · rw [List.count_cons_of_ne (by simp), hadd.1 (Or.inl ⟨hS, hd₁⟩)]
        · rw [List.count_cons_of_ne (by simp), hover.2 (hno _)]
      · rw [← List.singleton_append]
        refine Reported.prepend ?_ ?_
        · exact reported_congr (hu.cons hSf) (fun q hq => hat.below hq) hnq
            ⟨hrem, hadd, hover, honly⟩
        · intro type hx
          exact ne_of_cons_isSuffix hnq (congrArg Prod.snd (List.mem_singleton.mp hx))

end OSLab.Sync
