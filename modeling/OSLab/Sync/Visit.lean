import OSLab.Sync.Items

set_option autoImplicit false

/-! # One visit

A visit of an item (`Visited`) has the specified effect at and below its path, and leaves the rest
alone; or it ends the program, where a clash blocks it (`Visits`). A loop over the entries of a
directory visits each of them (`Swept`), and as the entries do not touch each other, the effect of
the loop is the effect of each visit on the tree before the loop. The visit of a directory is put
together from its loops, by induction on the fuel.
-/

namespace OSLab.Sync

open FileTree

variable {E : Env} {S : Tree} {s s' s₁ s₂ : State} {p q : List Name} {n : Name}
  {l : List Name}

/-- The visit of what is at `p`, from `s` to `s'`. -/
structure Visited (S : Tree) (p : List Name) (s s' : State) : Prop where
  frame : ∀ q, ¬ p <:+ q → q ≠ p.tail → s'.dst.get q = s.dst.get q
  core : ∀ q, ¬ p <:+ q → coreAt s'.dst q = coreAt s.dst q
  final : ∀ q, p <:+ q → Final S s.dst s'.dst q
  clear : ¬ Blocked S s.dst p
  reports : ∃ rs, s'.reports = s.reports ++ rs ∧ (∀ x ∈ rs, p <:+ x.2)
    ∧ ∀ q, p <:+ q → Reported S s.dst q rs

/-- The outcome of a visit: it ends the program when a clash blocks it, and only then. -/
def Visits (S : Tree) (p : List Name) (s : State) : Run → Prop
  | .ok s' => Visited S p s s'
  | .error (.exit _) => Blocked S s.dst p
  | .error .outOfFuel | .error (.astray _) => False

/-- The visit of the entries `l` of directory `p`. -/
structure Swept (S : Tree) (p : List Name) (l : List Name) (s s' : State) : Prop where
  frame : ∀ q, (∀ n ∈ l, ¬ (n :: p) <:+ q) → q ≠ p → s'.dst.get q = s.dst.get q
  core : ∀ q, (∀ n ∈ l, ¬ (n :: p) <:+ q) → coreAt s'.dst q = coreAt s.dst q
  final : ∀ n ∈ l, ∀ q, (n :: p) <:+ q → Final S s.dst s'.dst q
  clear : ∀ n ∈ l, ¬ Blocked S s.dst (n :: p)
  reports : ∃ rs, s'.reports = s.reports ++ rs ∧ (∀ x ∈ rs, ∃ n ∈ l, (n :: p) <:+ x.2)
    ∧ ∀ n ∈ l, ∀ q, (n :: p) <:+ q → Reported S s.dst q rs

/-! ## Loops -/

theorem Swept.nil (hdst : s'.dst = s.dst) (hrep : s'.reports = s.reports) :
    Swept S p [] s s' where
  frame q _ _ := by rw [hdst]
  core q _ := by rw [hdst]
  final n hn := by cases hn
  clear n hn := by cases hn
  reports := ⟨[], by rw [hrep, List.append_nil], fun x hx => (by cases hx), fun n hn => (by cases hn)⟩

/-- What a visit of one entry leaves of the others. -/
theorem Visited.other {m : Name} (h : Visited S (n :: p) s s') (hm : m ≠ n)
    (hq : (m :: p) <:+ q) : s'.dst.get q = s.dst.get q :=
  h.frame q (fun hn => hm (eq_of_cons_isSuffix hq hn)) (ne_of_cons_isSuffix hq)

theorem Visited.isDir (h : Visited S (n :: p) s s') : s'.dst.isDir p = s.dst.isDir p :=
  isDir_of_coreAt (h.core p not_cons_isSuffix_self)

theorem Swept.cons (hu : ∀ n, Unshadowed S (n :: p)) (h : Visited S (n :: p) s s₁)
    (hl : Swept S p l s₁ s₂) (hn : n ∉ l) : Swept S p (n :: l) s s₂ := by
  have hother : ∀ m ∈ l, ∀ q, (m :: p) <:+ q → s₁.dst.get q = s.dst.get q :=
    fun m hm q hq => h.other (fun he => hn (he ▸ hm)) hq
  have hself : ∀ q, (n :: p) <:+ q → s₂.dst.get q = s₁.dst.get q := fun q hq =>
    hl.frame q (fun m hm hmq => hn (eq_of_cons_isSuffix hq hmq ▸ hm)) (ne_of_cons_isSuffix hq)
  refine ⟨?_, ?_, ?_, ?_, ?_⟩
  · intro q hq hp
    rw [hl.frame q (fun m hm => hq m (List.mem_cons_of_mem _ hm)) hp]
    exact h.frame q (hq n List.mem_cons_self) hp
  · intro q hq
    rw [hl.core q fun m hm => hq m (List.mem_cons_of_mem _ hm)]
    exact h.core q (hq n List.mem_cons_self)
  · intro m hm q hq
    rcases List.mem_cons.mp hm with rfl | hm
    · exact (h.final q hq).of_get (hself q hq)
    · exact (final_congr (hu m) (hother m hm) hq).mp (hl.final m hm q hq)
  · intro m hm hb
    rcases List.mem_cons.mp hm with rfl | hm
    · exact h.clear hb
    · exact hl.clear m hm (blocked_congr (fun q hq => (hother m hm q hq).symm) hb)
  · obtain ⟨rs₁, hr₁, hin₁, hrep₁⟩ := h.reports
    obtain ⟨rs₂, hr₂, hin₂, hrep₂⟩ := hl.reports
    refine ⟨rs₁ ++ rs₂, by rw [hr₂, hr₁, List.append_assoc], ?_, ?_⟩
    · intro x hx
      rcases List.mem_append.mp hx with hx | hx
      · exact ⟨n, List.mem_cons_self, hin₁ x hx⟩
      · obtain ⟨m, hm, hx⟩ := hin₂ x hx
        exact ⟨m, List.mem_cons_of_mem _ hm, hx⟩
    · intro m hm q hq
      rcases List.mem_cons.mp hm with rfl | hm
      · refine (hrep₁ q hq).append fun type hx => ?_
        obtain ⟨m', hm', hx⟩ := hin₂ _ hx
        exact hn (eq_of_cons_isSuffix hq hx ▸ hm')
      · refine (reported_congr (hu m) (hother m hm) hq (hrep₂ m hm q hq)).prepend fun type hx => ?_
        exact hn (eq_of_cons_isSuffix (hin₁ _ hx) hq ▸ hm)

/-- The outcome of a loop over the entries `l` of `p`. -/
def Sweeps (S : Tree) (p : List Name) (l : List Name) (s : State) : Run → Prop
  | .ok s' => Swept S p l s s'
  | .error (.exit _) => ∃ n ∈ l, Blocked S s.dst (n :: p)
  | .error .outOfFuel | .error (.astray _) => False

/-- **A loop of visits**, each of an entry that is as it was in `s₀`. -/
theorem foldlM_sweeps (visit : State → Name → Run) (s₀ : State) (hu : ∀ n, Unshadowed S (n :: p))
    (hl : l.Nodup) (hd : s.dst.isDir p = true)
    (hs : ∀ n ∈ l, ∀ q, (n :: p) <:+ q → s.dst.get q = s₀.dst.get q)
    (hv : ∀ n ∈ l, ∀ s, s.dst.isDir p = true →
      (∀ q, (n :: p) <:+ q → s.dst.get q = s₀.dst.get q) → Visits S (n :: p) s (visit s n)) :
    Sweeps S p l s (l.foldlM visit s) := by
  induction l generalizing s with
  | nil => exact Swept.nil rfl rfl
  | cons n l ih =>
      obtain ⟨hn, hl⟩ := List.nodup_cons.mp hl
      have hvis := hv n List.mem_cons_self s hd (hs n List.mem_cons_self)
      rw [List.foldlM_cons]
      cases hr : visit s n with
      | error e =>
          rw [hr] at hvis
          cases e with
          | exit t => exact ⟨n, List.mem_cons_self, hvis⟩
          | outOfFuel | astray t => exact hvis
      | ok s₁ =>
          rw [hr] at hvis
          have hvis : Visited S (n :: p) s s₁ := hvis
          have hother : ∀ m ∈ l, ∀ q, (m :: p) <:+ q → s₁.dst.get q = s.dst.get q :=
            fun m hm q hq => hvis.other (fun he => hn (he ▸ hm)) hq
          have hrest := ih (s := s₁) hl (hvis.isDir.trans hd)
            (fun m hm q hq => (hother m hm q hq).trans (hs m (List.mem_cons_of_mem _ hm) q hq))
            (fun m hm => hv m (List.mem_cons_of_mem _ hm))
          show Sweeps S p (n :: l) s (l.foldlM visit s₁)
          cases hr₂ : l.foldlM visit s₁ with
          | ok s₂ =>
              rw [hr₂] at hrest
              exact Swept.cons hu hvis hrest hn
          | error e =>
              rw [hr₂] at hrest
              cases e with
              | exit t =>
                  obtain ⟨m, hm, hb⟩ := hrest
                  exact ⟨m, List.mem_cons_of_mem _ hm, blocked_congr (hother m hm) hb⟩
              | outOfFuel | astray t => exact hrest

/-! ## Removal -/

/-- Where the source has nothing, and nothing but directories above, it has nothing below. -/
theorem get_eq_none_below (hS : S.get p = none) (hq : p <:+ q) : S.get q = none := by
  by_cases he : p = q
  · exact he ▸ hS
  · exact get_eq_none_of_isSuffix (by simp [FileTree.isDir, hS]) hq he

theorem not_shadowed_below {D : Tree} (hu : Unshadowed S p) (hS : S.get p = none)
    (hq : p <:+ q) : ¬ Shadowed S D q := by
  rintro ⟨a, ha, hf, -⟩
  have := get_eq_none_below hS (hu.below hq ha hf)
  simp [FileTree.isFile, this] at hf

theorem not_added_of_none {D : Tree} (hS : S.get q = none) : ¬ Added S D q := by
  rintro (⟨hd, -⟩ | ⟨hf, -⟩)
  · simp [FileTree.isDir, hS] at hd
  · simp [FileTree.isFile, hS] at hf

theorem not_overwritten_of_none {D : Tree} (hS : S.get q = none) : ¬ Overwritten S D q := by
  rintro ⟨hf, -⟩
  simp [FileTree.isFile, hS] at hf

/-- An item that is removed after all its entries. -/
theorem Swept.removed (hu : Unshadowed S p) (hS : S.get p = none) (h : Swept S p l s s₁)
    (hall : ∀ n, s.dst.get (n :: p) ≠ none → n ∈ l) (hp : s.dst.get p ≠ none)
    (hat : At s₁.dst s'.dst p) (hn : s'.dst.get p = none)
    (hrep : s'.reports = s₁.reports ++ [(.removed, p)]) : Visited S p s s' := by
  have hout : ∀ q, ¬ p <:+ q → ∀ n ∈ l, ¬ (n :: p) <:+ q :=
    fun q hq n _ hnq => hq (isSuffix_of_cons_isSuffix hnq)
  have hgone : ∀ n, n ∉ l → ∀ q, (n :: p) <:+ q → s.dst.get q = none := by
    intro n hnl q hq
    refine get_eq_none_below ?_ hq
    by_contra hne
    exact hnl (hall n hne)
  have hnot : ∀ n, n ∉ l → ∀ q, (n :: p) <:+ q → ∀ m ∈ l, ¬ (m :: p) <:+ q :=
    fun n hnl q hq m hm hmq => hnl (eq_of_cons_isSuffix hq hmq ▸ hm)
  refine ⟨?_, ?_, ?_, ?_, ?_⟩
  · intro q hq ht
    have hqp : q ≠ p := fun he => hq (he ▸ List.suffix_refl _)
    rw [hat.frame q hqp ht, h.frame q (hout q hq) hqp]
  · intro q hq
    have hqp : q ≠ p := fun he => hq (he ▸ List.suffix_refl _)
    rw [hat.core q hqp, h.core q (hout q hq)]
  · intro q hq
    have hsh := not_shadowed_below (D := s.dst) hu hS hq
    simp only [Final, get_eq_none_below hS hq]
    refine ⟨fun hs => absurd hs hsh, fun _ => ?_⟩
    rcases isSuffix_iff_eq_or_cons.mp hq with rfl | ⟨n, hnq⟩
    · exact hn
    · rw [hat.below hnq]
      by_cases hnl : n ∈ l
      · have hfin := h.final n hnl q hnq
        simp only [Final, get_eq_none_below hS hq] at hfin
        exact hfin.2 hsh
      · rw [h.frame q (hnot n hnl q hnq) (ne_of_cons_isSuffix hnq), hgone n hnl q hnq]
  · rintro ⟨q, hq, ⟨hf, -⟩, -⟩
    simp [FileTree.isFile, get_eq_none_below hS hq] at hf
  · obtain ⟨rs, hr, hin, hrs⟩ := h.reports
    refine ⟨rs ++ [(.removed, p)], by rw [hrep, hr, List.append_assoc], ?_, ?_⟩
    · intro x hx
      rcases List.mem_append.mp hx with hx | hx
      · obtain ⟨n, -, hx⟩ := hin x hx
        exact isSuffix_of_cons_isSuffix hx
      · rw [List.mem_singleton.mp hx]
    · intro q hq
      have hSq := get_eq_none_below hS hq
      rcases isSuffix_iff_eq_or_cons.mp hq with rfl | ⟨n, hnq⟩
      · have hself : ∀ type, (type, q) ∉ rs := by
          intro type hx
          obtain ⟨n, -, hx⟩ := hin _ hx
          exact not_cons_isSuffix_self hx
        have hrem : Removed S s.dst q :=
          ⟨hp, not_shadowed_below hu hS hq, Or.inl hSq⟩
        have hc : ∀ type, rs.count (type, q) = 0 := fun type => List.count_eq_zero.mpr (hself type)
        refine ⟨⟨fun _ => ?_, fun hr => absurd hrem hr⟩,
          ⟨fun ha => absurd ha (not_added_of_none hSq), fun _ => ?_⟩,
          ⟨fun ho => absurd ho (not_overwritten_of_none hSq), fun _ => ?_⟩, fun _ _ => Or.inl hrem⟩
        · rw [List.count_append, hc]
          simp
        · rw [List.count_append, hc]
          simp
        · rw [List.count_append, hc]
          simp
      · have hlast : ∀ type, (type, q) ∉ [((.removed : ChangeType), p)] := by
          intro type hx
          exact ne_of_cons_isSuffix hnq (congrArg Prod.snd (List.mem_singleton.mp hx))
        by_cases hnl : n ∈ l
        · exact (hrs n hnl q hnq).append hlast
        · refine reported_of_not_mem (fun hr => hr.1 (hgone n hnl q hnq)) (not_added_of_none hSq)
            (not_overwritten_of_none hSq) fun type hx => ?_
          rcases List.mem_append.mp hx with hx | hx
          · obtain ⟨m, hm, hx⟩ := hin _ hx
            exact hnot n hnl q hnq m hm hx
          · exact hlast type hx

end OSLab.Sync
