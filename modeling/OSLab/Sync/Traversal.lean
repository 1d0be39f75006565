import OSLab.Sync.Branches
import OSLab.Sync.Paths

set_option autoImplicit false

/-! # The traversal

The visit of an item is one of the branches. The visit of a directory makes it where it does not
exist, visits its source entries, and then the entries that the destination lists: those of the
first loop, which it finds settled, and those that the source does not have, which it removes. The
induction is on the fuel, which exceeds the depth of the source below the directory.
-/

namespace OSLab.Sync

open FileTree

variable {E : Env} {args : Args} {S : Tree} {s s' s₁ s₂ s₃ : State} {p q : List Name} {n : Name}
  {l l₁ l₂ : List Name}

/-! ## Items -/

theorem syncItems_of_none {sync : List Name → List Name → State → Run} (hu : Unshadowed S p)
    (hS : S.get p = none) (hD : s.dst.get p ≠ none) :
    Visits S p s (syncItems E S sync p p s) := by
  have hstat : stat S p = none := stat_eq_none_iff.mpr hS
  simp only [syncItems, hstat]
  cases hd : s.dst.isDir p with
  | true =>
      obtain ⟨b, hb⟩ := isDir_iff.mp hd
      rw [if_pos (by simp [stat, hb])]
      refine Visits.set ?_
      refine removeDirectory_visited (s := s.set s.dst) hu hS hd fun q hq hne => ?_
      have := length_le_height hne
      have := hq.length_le
      rw [State.set_dst] at *
      omega
  | false =>
      have hf := isFile_of_isDir_eq_false hD hd
      obtain ⟨a, ha⟩ := isFile_iff.mp hf
      rw [if_neg (by simp [stat, ha])]
      obtain ⟨s₁, rfl, hat, hn, hrep⟩ := removeItem_of_file (E := E) (s := s.set s.dst) hf
      exact visited_of_removed (s := s) hu hS hf hat hn hrep

theorem syncItems_of_file {sync : List Name → List Name → State → Run} (hu : Unshadowed S p)
    (hS : S.isFile p = true) (hp : s.dst.HasPlace p) :
    Visits S p s (syncItems E S sync p p s) := by
  obtain ⟨a, ha⟩ := isFile_iff.mp hS
  have hstat : stat S p = some ⟨false, a.mode, a.bytes.length, a.mtime⟩ := by simp [stat, ha]
  simp only [syncItems, hstat, Bool.false_and, Bool.false_eq_true, if_false, State.set_dst]
  cases hD : stat s.dst p with
  | none =>
      have hn : s.dst.get p = none := stat_eq_none_iff.mp hD
      obtain ⟨s', rs, he, hat, hget, hrep, hrs⟩ := copyItem_spec (E := E) (s := s.set s.dst)
        .added ((none : Option Stat).getD (E.junk s.tick)) ha hstat hp
        (isDir_eq_false_of_get hn)
      have hs : ¬ SameStat S s.dst p := by
        rintro ⟨-, y, -, hy, -⟩
        rw [hD] at hy
        cases hy
      simp only [he]
      exact visited_of_copied (s := s) hu ha (isDir_eq_false_of_get hn) hs hat hget hrep hrs
        (Or.inl ⟨rfl, hn⟩)
  | some y =>
      simp only
      split
      · rename_i hdiff
        have hs : ¬ SameStat S s.dst p := by
          rintro ⟨x', y', hx', hy', he⟩
          rw [hstat] at hx'
          rw [hD] at hy'
          cases hx'
          cases hy'
          rw [he] at hdiff
          cases hdiff
        cases hd : s.dst.isDir p with
        | true =>
            obtain ⟨s', he⟩ := copyItem_of_dir (E := E) (s := s.set s.dst) S .overwritten
              ⟨false, a.mode, a.bytes.length, a.mtime⟩ y hd
            rw [he]
            exact ⟨p, List.suffix_refl _, ⟨hS, hd⟩, hs⟩
        | false =>
            have hne : s.dst.get p ≠ none := by
              intro hn
              simp [stat, hn] at hD
            obtain ⟨s', rs, he, hat, hget, hrep, hrs⟩ := copyItem_spec (E := E)
              (s := s.set s.dst) .overwritten y ha hstat hp hd
            simp only [he]
            exact visited_of_copied (s := s) hu ha hd hs hat hget hrep hrs
              (Or.inr ⟨rfl, isFile_of_isDir_eq_false hne hd⟩)
      · rename_i hdiff
        have hs : SameStat S s.dst p := ⟨_, y, hstat, hD, Bool.eq_false_iff.mpr hdiff⟩
        exact (visited_of_same (s := s.set s.dst) hu hS hs).set

theorem syncItems_of_dir {sync : List Name → List Name → State → Run} (hu : Unshadowed S p)
    (hS : S.isDir p = true) (hp : s.dst.HasPlace p)
    (hsync : ∀ s', s'.dst.HasPlace p → s'.dst.isFile p = false →
      (∀ n q, (n :: p) <:+ q → s'.dst.get q = s.dst.get q) → Visits S p s' (sync p p s')) :
    Visits S p s (syncItems E S sync p p s) := by
  obtain ⟨b, hb⟩ := isDir_iff.mp hS
  have hstat : stat S p = some ⟨true, b.mode, b.size, b.mtime⟩ := by simp [stat, hb]
  simp only [syncItems, hstat, Bool.true_and, if_true]
  cases hD : s.dst.get p with
  | none =>
      have hnone : stat s.dst p = none := stat_eq_none_iff.mpr hD
      -- with an unfilled buffer both branches come to the same
      rw [hnone, removeItem_of_none (s := s.set s.dst) hD]
      have hv : ∀ s₁ : State, s₁.dst = s.dst → s₁.reports = s.reports →
          Visits S p s (sync p p s₁) := by
        intro s₁ hd hr
        refine (hsync s₁ ?_ ?_ fun n q _ => by rw [hd]).start hd hr
        · rw [hd]
          exact hp
        · rw [hd]
          exact isFile_eq_false_of_get hD
      split
      · exact hv _ rfl rfl
      · simp only [State.set_dst, hnone]
        exact hv _ rfl rfl
  | some x =>
      cases x with
      | dir c =>
          rw [if_pos (by simp [stat, hD])]
          refine (hsync (s.set s.dst) hp ?_ fun _ _ _ => rfl).set
          exact isFile_eq_false_of_isDir (isDir_iff.mpr ⟨c, hD⟩)
      | file a =>
          have hf : s.dst.isFile p = true := isFile_iff.mpr ⟨a, hD⟩
          rw [if_neg (by simp [stat, hD])]
          obtain ⟨s₁, he, hat, hn, hrep⟩ := removeItem_of_file (E := E) (s := s.set s.dst) hf
          have hnone : stat s₁.dst p = none := stat_eq_none_iff.mpr hn
          simp only [he, hnone]
          have hvis := hsync s₁ (hat.hasPlace hp) (isFile_eq_false_of_get hn)
            fun _ _ hq => hat.below hq
          cases hr : sync p p s₁ with
          | ok s' =>
              rw [hr] at hvis
              exact Visited.replaced (s := s) hu hS hf hat hn hrep hvis
          | error e =>
              rw [hr] at hvis
              cases e with
              | exit t => exact At.blocked hat (isFile_eq_false_of_isDir hS) hvis
              | outOfFuel | astray t => exact hvis

/-- **`sync_items`** visits its item, given that `sync_directories` visits a directory. -/
theorem syncItems_visits {sync : List Name → List Name → State → Run} (hu : Unshadowed S p)
    (hp : s.dst.HasPlace p) (hex : S.get p ≠ none ∨ s.dst.get p ≠ none)
    (hsync : S.isDir p = true → ∀ s', s'.dst.HasPlace p → s'.dst.isFile p = false →
      (∀ n q, (n :: p) <:+ q → s'.dst.get q = s.dst.get q) → Visits S p s' (sync p p s')) :
    Visits S p s (syncItems E S sync p p s) := by
  cases hS : S.get p with
  | none => exact syncItems_of_none hu hS (hex.resolve_left (by simp [hS]))
  | some x =>
      cases x with
      | file a => exact syncItems_of_file hu (isFile_iff.mpr ⟨a, hS⟩) hp
      | dir b =>
          have hd := isDir_iff.mpr ⟨b, hS⟩
          exact syncItems_of_dir hu hd hp (hsync hd)

/-! ## Directories -/

/-- The directory `p` is there, made if it has not been. -/
structure Made (S : Tree) (p : List Name) (s s₁ : State) : Prop where
  change : At s.dst s₁.dst p
  dir : s₁.dst.isDir p = true
  same : s.dst.isDir p = true → coreAt s₁.dst p = coreAt s.dst p
  reports : ∃ rs, s₁.reports = s.reports ++ rs ∧ (∀ x ∈ rs, x.2 = p) ∧ Reported S s.dst p rs

theorem not_removed_of_dir {D : Tree} (hS : S.isDir p = true) (hf : D.isFile p = false) :
    ¬ Removed S D p := by
  rintro ⟨-, -, h | ⟨-, h⟩⟩
  · exact get_ne_none_of_isDir hS h
  · rw [hf] at h
    cases h

theorem not_overwritten_of_dir {D : Tree} (hS : S.isDir p = true) : ¬ Overwritten S D p := by
  rintro ⟨h, -⟩
  rw [isFile_eq_false_of_isDir hS] at h
  cases h

theorem made (srcStat : Stat) (hS : S.isDir p = true) (hp : s.dst.HasPlace p)
    (hf : s.dst.isFile p = false) :
    Made S p s (if (stat s.dst p).isNone then makeDirectory E srcStat p s else s) := by
  have hnr := not_removed_of_dir hS hf
  have hno := not_overwritten_of_dir (D := s.dst) hS
  split
  · rename_i hn
    have hn : s.dst.get p = none := stat_eq_none_iff.mp (Option.isNone_iff_eq_none.mp hn)
    have hd : s.dst.isDir p = false := isDir_eq_false_of_get hn
    have ha : Added S s.dst p := Or.inl ⟨hS, hd⟩
    obtain ⟨rs, hat, hdir, hrep, hrs⟩ := makeDirectory_spec (E := E) srcStat hn hp
    refine ⟨hat, hdir, fun h => ?_, _, hrep, ?_, ⟨fun h => absurd h hnr, fun _ => ?_⟩,
      ⟨fun _ => ?_, fun h => absurd ha h⟩, ⟨fun h => absurd h hno, fun _ => ?_⟩,
      fun _ _ => Or.inr (Or.inl ha)⟩
    · rw [hd] at h
      cases h
    all_goals rcases hrs with rfl | rfl <;> simp
  · rename_i hn
    have hne : s.dst.get p ≠ none := fun h =>
      hn (Option.isNone_iff_eq_none.mpr (stat_eq_none_iff.mpr h))
    have hd : s.dst.isDir p = true := by
      by_contra hd
      rw [isFile_of_isDir_eq_false hne (Bool.eq_false_iff.mpr hd)] at hf
      cases hf
    have hna : ¬ Added S s.dst p := by
      rintro (⟨-, h⟩ | ⟨h, -⟩)
      · rw [hd] at h
        cases h
      · rw [isFile_eq_false_of_isDir hS] at h
        cases h
    exact ⟨At.refl _ _, hd, fun _ => rfl, [], (List.append_nil _).symm, fun x hx => (by cases hx),
      reported_of_not_mem hnr hna hno fun type hx => (by cases hx)⟩

/-- The two loops over directory `p`: the first visits what the source has, the second may visit
that again and visits what the source does not have. -/
structure Looped (S : Tree) (p : List Name) (s s₁ : State) (l₁ : List Name)
    (s₂ : State) (l₂ : List Name) (s₃ : State) : Prop where
  made : Made S p s s₁
  first : Swept S p l₁ s₁ s₂
  source : ∀ n, n ∈ l₁ ↔ S.get (n :: p) ≠ none
  second : Swept S p l₂ s₂ s₃
  rest : ∀ n, S.get (n :: p) = none → s.dst.get (n :: p) ≠ none → n ∈ l₂

/-- A loop leaves what is below other entries. -/
theorem Swept.keeps (h : Swept S p l s s') (hn : n ∉ l) (hq : (n :: p) <:+ q) :
    s'.dst.get q = s.dst.get q :=
  h.frame q (fun _ hm hmq => hn (eq_of_cons_isSuffix hq hmq ▸ hm)) (ne_of_cons_isSuffix hq)

theorem Swept.core_self (h : Swept S p l s s') : coreAt s'.dst p = coreAt s.dst p :=
  h.core p fun _ _ => not_cons_isSuffix_self

theorem Looped.untouched (h : Looped S p s s₁ l₁ s₂ l₂ s₃) (hn : n ∉ l₁) (hq : (n :: p) <:+ q) :
    s₂.dst.get q = s.dst.get q :=
  (h.first.keeps hn hq).trans (h.made.change.below hq)

theorem Looped.no_source (h : Looped S p s s₁ l₁ s₂ l₂ s₃) (hn : n ∉ l₁) :
    S.get (n :: p) = none := by
  by_contra hne
  exact hn ((h.source n).mpr hne)

/-- What neither loop visits is in neither tree. -/
theorem Looped.no_entry (h : Looped S p s s₁ l₁ s₂ l₂ s₃) (hn₁ : n ∉ l₁) (hn₂ : n ∉ l₂)
    (hq : (n :: p) <:+ q) : s.dst.get q = none := by
  refine get_eq_none_below ?_ hq
  by_contra hne
  exact hn₂ (h.rest n (h.no_source hn₁) hne)

theorem Looped.settled (h : Looped S p s s₁ l₁ s₂ l₂ s₃) (hu : Unshadowed S (n :: p))
    (hn : n ∈ l₁) : Settled S s₁.dst s₂.dst (n :: p) :=
  ⟨hu, h.first.final n hn, h.first.clear n hn⟩

/-- The second loop finds what the first one has visited settled. -/
theorem Looped.final (h : Looped S p s s₁ l₁ s₂ l₂ s₃) (hu : ∀ n, Unshadowed S (n :: p))
    (hS : S.isDir p = true) (hq : p <:+ q) : Final S s.dst s₃.dst q := by
  rcases isSuffix_iff_eq_or_cons.mp hq with rfl | ⟨n, hn⟩
  · obtain ⟨b, hb⟩ := isDir_iff.mp hS
    have hcore := h.second.core_self.trans h.first.core_self
    simp only [Final, hb]
    exact ⟨(isDir_of_coreAt hcore).trans h.made.dir, fun hd => hcore.trans (h.made.same hd)⟩
  · by_cases hn₁ : n ∈ l₁
    · refine (final_congr (hu n) (fun _ hq => h.made.change.below hq) hn).mp ?_
      by_cases hn₂ : n ∈ l₂
      · exact (h.settled (hu n) hn₁).trans hn (h.second.final n hn₂ q hn)
      · exact (h.first.final n hn₁ q hn).of_get (h.second.keeps hn₂ hn)
    · by_cases hn₂ : n ∈ l₂
      · exact (final_congr (hu n) (fun _ hq => h.untouched hn₁ hq) hn).mp
          (h.second.final n hn₂ q hn)
      · have hD := h.no_entry hn₁ hn₂ hn
        have hD' : s₃.dst.get q = none := by
          rw [h.second.keeps hn₂ hn, h.untouched hn₁ hn, hD]
        simp only [Final, get_eq_none_below (h.no_source hn₁) hn]
        exact ⟨fun _ => hD'.trans hD.symm, fun _ => hD'⟩

theorem Looped.clear (h : Looped S p s s₁ l₁ s₂ l₂ s₃) (hS : S.isDir p = true) :
    ¬ Blocked S s.dst p := by
  rintro ⟨q, hq, hc, hs⟩
  rcases isSuffix_iff_eq_or_cons.mp hq with rfl | ⟨n, hn⟩
  · have hSf := hc.1
    rw [isFile_eq_false_of_isDir hS] at hSf
    cases hSf
  · have hn₁ : n ∈ l₁ := by
      rw [h.source]
      intro hnone
      exact get_ne_none_of_isFile hc.1 (get_eq_none_below hnone hn)
    exact h.first.clear n hn₁
      (blocked_congr (fun _ hq => (h.made.change.below hq).symm) ⟨q, hn, hc, hs⟩)

theorem not_mem_of_entries {rs : List (ChangeType × List Name)}
    (hin : ∀ x ∈ rs, ∃ m ∈ l, (m :: p) <:+ x.2) (hn : (n :: p) <:+ q) (hnl : n ∉ l)
    (type : ChangeType) : (type, q) ∉ rs := by
  intro hx
  obtain ⟨m, hml, hmq⟩ := hin _ hx
  exact hnl (eq_of_cons_isSuffix hn hmq ▸ hml)

/-- Each change is reported by the loop that makes it, and the making of `p` before them. -/
theorem Looped.reports (h : Looped S p s s₁ l₁ s₂ l₂ s₃) (hu : ∀ n, Unshadowed S (n :: p)) :
    ∃ rs, s₃.reports = s.reports ++ rs ∧ (∀ x ∈ rs, p <:+ x.2)
      ∧ ∀ q, p <:+ q → Reported S s.dst q rs := by
  obtain ⟨rs₀, hr₀, hin₀, hrs₀⟩ := h.made.reports
  obtain ⟨rs₁, hr₁, hin₁, hrs₁⟩ := h.first.reports
  obtain ⟨rs₂, hr₂, hin₂, hrs₂⟩ := h.second.reports
  refine ⟨rs₀ ++ (rs₁ ++ rs₂), by rw [hr₂, hr₁, hr₀, List.append_assoc, List.append_assoc],
    ?_, ?_⟩
  · intro x hx
    rcases List.mem_append.mp hx with hx | hx
    · exact hin₀ x hx ▸ List.suffix_refl _
    · rcases List.mem_append.mp hx with hx | hx
      · obtain ⟨n, -, hx⟩ := hin₁ x hx
        exact isSuffix_of_cons_isSuffix hx
      · obtain ⟨n, -, hx⟩ := hin₂ x hx
        exact isSuffix_of_cons_isSuffix hx
  · intro q hq
    rcases isSuffix_iff_eq_or_cons.mp hq with rfl | ⟨n, hn⟩
    · refine hrs₀.append fun type hx => ?_
      rcases List.mem_append.mp hx with hx | hx
      · obtain ⟨n, -, hx⟩ := hin₁ _ hx
        exact not_cons_isSuffix_self hx
      · obtain ⟨n, -, hx⟩ := hin₂ _ hx
        exact not_cons_isSuffix_self hx
    · refine Reported.prepend ?_ fun type hx => ne_of_cons_isSuffix hn (hin₀ _ hx)
      by_cases hn₁ : n ∈ l₁
      · refine (reported_congr (hu n) (fun _ hq => h.made.change.below hq) hn
          (hrs₁ n hn₁ q hn)).append ?_
        by_cases hn₂ : n ∈ l₂
        · exact (h.settled (hu n) hn₁).not_mem hn (hrs₂ n hn₂ q hn)
        · exact not_mem_of_entries hin₂ hn hn₂
      · refine Reported.prepend ?_ (not_mem_of_entries hin₁ hn hn₁)
        by_cases hn₂ : n ∈ l₂
        · exact reported_congr (hu n) (fun _ hq => h.untouched hn₁ hq) hn (hrs₂ n hn₂ q hn)
        · have hSq := get_eq_none_below (h.no_source hn₁) hn
          exact reported_of_not_mem (fun hr => hr.1 (h.no_entry hn₁ hn₂ hn))
            (not_added_of_none hSq) (not_overwritten_of_none hSq) (not_mem_of_entries hin₂ hn hn₂)

/-- **The two loops** visit the directory. -/
theorem Looped.visited (h : Looped S p s s₁ l₁ s₂ l₂ s₃) (hu : Unshadowed S p)
    (hS : S.isDir p = true) : Visited S p s s₃ := by
  have hu' : ∀ n, Unshadowed S (n :: p) := fun n => hu.cons (isFile_eq_false_of_isDir hS)
  have hout : ∀ l : List Name, ∀ q, ¬ p <:+ q → ∀ n ∈ l, ¬ (n :: p) <:+ q :=
    fun l q hq n _ hnq => hq (isSuffix_of_cons_isSuffix hnq)
  refine ⟨?_, ?_, fun q hq => h.final hu' hS hq, h.clear hS, h.reports hu'⟩
  · intro q hq ht
    have hqp : q ≠ p := fun he => hq (he ▸ List.suffix_refl _)
    rw [h.second.frame q (hout l₂ q hq) hqp, h.first.frame q (hout l₁ q hq) hqp,
      h.made.change.frame q hqp ht]
  · intro q hq
    have hqp : q ≠ p := fun he => hq (he ▸ List.suffix_refl _)
    rw [h.second.core q (hout l₂ q hq), h.first.core q (hout l₁ q hq), h.made.change.core q hqp]

/-- **`sync_directories`** visits a directory of the source, if the paths of the items fit. -/
theorem syncDirectories_visits {fuel : Nat} (hS : S.isDir p = true) (hp : s.dst.HasPlace p)
    (hf : s.dst.isFile p = false) (hfit : FitBelow args S s.dst p)
    (hfuel : ∀ q, p <:+ q → S.get q ≠ none → q.length < p.length + fuel) :
    Visits S p s (syncDirectories E args S fuel p p s) := by
  induction fuel generalizing p s with
  | zero =>
      have := hfuel p (List.suffix_refl _) (get_ne_none_of_isDir hS)
      omega
  | succ fuel ih =>
      have hSf : S.isFile p = false := isFile_eq_false_of_isDir hS
      have hu : Unshadowed S p := unshadowed_of_hasPlace (hasPlace_of_get (get_ne_none_of_isDir hS))
      have hu' : ∀ n, Unshadowed S (n :: p) := fun n => hu.cons hSf
      obtain ⟨b, hb⟩ := isDir_iff.mp hS
      have hstat : stat S p = some ⟨true, b.mode, b.size, b.mtime⟩ := by simp [stat, hb]
      have hmade := made (E := E) ⟨true, b.mode, b.size, b.mtime⟩ hS hp hf
      simp only [syncDirectories, hstat]
      set s₁ := if (stat s.dst p).isNone
        then makeDirectory E ⟨true, b.mode, b.size, b.mtime⟩ p s else s with hs₁
      set visit := visitEntry E args S (syncDirectories E args S fuel) p p with hvisitdef
      have hvisit : ∀ n (s : State), s.dst.isDir p = true →
          S.get (n :: p) ≠ none ∨ s.dst.get (n :: p) ≠ none → args.Fit (n :: p) →
          FitBelow args S s.dst (n :: p) → Visits S (n :: p) s (visit s n) := by
        intro n s hd hex hfit hbelow
        rw [hvisitdef, visitEntry_of_fit hfit]
        refine syncItems_visits (hu' n) hd hex fun hSd s' hp' hf' hsame => ?_
        refine ih hSd hp' hf' (hbelow.congr hsame) fun q hq hne => ?_
        have := hfuel q (isSuffix_of_cons_isSuffix hq) hne
        rw [List.length_cons]
        omega
      rw [if_pos (by rw [hS, hmade.dir]; rfl)]
      have hperm₁ := E.order_perm s₁.tick (S.names p)
      have hl₁ : ∀ n, n ∈ E.order s₁.tick (S.names p) ↔ S.get (n :: p) ≠ none :=
        fun n => hperm₁.mem_iff.trans mem_names
      have hfit₁ : FitBelow args S s₁.dst p := hfit.congr fun _ _ hq => hmade.change.below hq
      have hloop₁ := foldlM_sweeps (s := s₁.set s₁.dst) visit s₁ hu'
        (hperm₁.nodup_iff.mpr (nodup_names _ _)) hmade.dir (fun _ _ _ _ => rfl)
        fun n hn s hd hsame => hvisit n s hd (.inl ((hl₁ n).mp hn))
          (hfit₁ p n (List.suffix_refl _) hS (.inl ((hl₁ n).mp hn)))
          (hfit₁.cons.congr fun _ q hq => hsame q (isSuffix_of_cons_isSuffix hq))
      simp only [bind, Except.bind]
      cases hr₁ : (E.order s₁.tick (S.names p)).foldlM visit (s₁.set s₁.dst) with
      | error e =>
          rw [hr₁] at hloop₁
          cases e with
          | exit t =>
              obtain ⟨n, -, hblk⟩ := hloop₁
              obtain ⟨q, hq, hc⟩ := blocked_congr (fun q hq => hmade.change.below hq) hblk
              exact ⟨q, isSuffix_of_cons_isSuffix hq, hc⟩
          | outOfFuel | astray t => exact hloop₁
      | ok s₂ =>
          rw [hr₁] at hloop₁
          have hloop₁ : Swept S p _ (s₁.set s₁.dst) s₂ := hloop₁
          have hd₂ : s₂.dst.isDir p = true :=
            (isDir_of_coreAt hloop₁.core_self).trans hmade.dir
          have hperm₂ := E.order_perm s₂.tick (listed E s₁.dst p s₂)
          have hlisted : ∀ n ∈ E.order s₂.tick (listed E s₁.dst p s₂),
              s₂.dst.get (n :: p) ≠ none :=
            fun n hn => mem_names.mp (List.mem_filter.mp (hperm₂.mem_iff.mp hn)).1
          -- the first loop has made nothing that the source does not have
          have hfit₂ : FitBelow args S s₂.dst p := by
            refine hfit₁.of_only fun n q hq hne => ?_
            by_cases hn₁ : n ∈ E.order s₁.tick (S.names p)
            · exact (hloop₁.final n hn₁ q hq).get_ne_none hne
            · exact .inr (hloop₁.keeps hn₁ hq ▸ hne)
          have hloop₂ := foldlM_sweeps (s := s₂.set s₂.dst) visit s₂ hu'
            (hperm₂.nodup_iff.mpr ((nodup_names _ _).filter _)) hd₂ (fun _ _ _ _ => rfl)
            fun n hn s hd hsame => hvisit n s hd
              (.inr (hsame _ (List.suffix_refl _) ▸ hlisted n hn))
              (hfit₂ p n (List.suffix_refl _) hS (.inr (hlisted n hn)))
              (hfit₂.cons.congr fun _ q hq => hsame q (isSuffix_of_cons_isSuffix hq))
          simp only
          cases hr₂ : (E.order s₂.tick (listed E s₁.dst p s₂)).foldlM visit (s₂.set s₂.dst) with
          | error e =>
              rw [hr₂] at hloop₂
              cases e with
              | exit t =>
                  -- the entries of the first loop are settled, the others have no source
                  obtain ⟨n, -, hblk⟩ := hloop₂
                  by_cases hn₁ : n ∈ E.order s₁.tick (S.names p)
                  · exact absurd hblk (Settled.not_blocked
                      ⟨hu' n, hloop₁.final n hn₁, hloop₁.clear n hn₁⟩)
                  · obtain ⟨q, hq, ⟨hqf, -⟩, -⟩ := hblk
                    have hnone : S.get (n :: p) = none := by
                      by_contra h
                      exact hn₁ ((hl₁ n).mpr h)
                    exact absurd (get_eq_none_below hnone hq) (get_ne_none_of_isFile hqf)
              | outOfFuel | astray t => exact hloop₂
          | ok s₃ =>
              rw [hr₂] at hloop₂
              have hopened : Made S p s (s₁.set s₁.dst) :=
                ⟨hmade.change, hmade.dir, hmade.same, hmade.reports⟩
              have hfirst : Swept S p _ (s₁.set s₁.dst) (s₂.set s₂.dst) :=
                ⟨hloop₁.frame, hloop₁.core, hloop₁.final, hloop₁.clear, hloop₁.reports⟩
              refine Looped.visited ⟨hopened, hfirst, hl₁, hloop₂, fun n hSn hDn => ?_⟩ hu hS
              -- an entry without a source is as it was when the directory was opened
              have hn₁ : n ∉ E.order s₁.tick (S.names p) := fun h => (hl₁ n).mp h hSn
              have hsame : s₂.dst.get (n :: p) = s₁.dst.get (n :: p) :=
                hloop₁.keeps hn₁ (List.suffix_refl _)
              have hne : s₂.dst.get (n :: p) ≠ none := by
                rw [hsame, hmade.change.below (List.suffix_refl _)]
                exact hDn
              refine hperm₂.mem_iff.mpr (List.mem_filter.mpr ⟨mem_names.mpr hne, ?_⟩)
              rw [isDir_congr hsame, isFile_congr hsame]
              simp

end OSLab.Sync
