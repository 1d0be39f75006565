import OSLab.Foothread.Crew
import OSLab.Foothread.ThreadTable

set_option autoImplicit false

/-! # The thread table as a roster

What the table has to say about the threads: each of the first `m` threads whose entry has not been
released is entered, once, with its creator and its join type, and nothing else is (`Roster`). Main is
entered at index `0`. The semaphores of the threads are numbered like the threads, from `3` on, as
both numbers are given out in one critical section (`Kept`).

While a thread is created its entry is written field by field in an entry that is not valid yet, and
becomes part of the roster when its `valid` is set.
-/

namespace OSLab.Foothread

/-- What the roster is about. -/
structure Roll where
  table : Nat → ThreadEntry
  nextSem : Nat
  created : Nat
  creator : Nat → Nat
  joinType : Nat → Int
  released : Nat → Bool

def Crew.roll (s : Crew) : Roll :=
  ⟨s.mem.threadTable, s.mem.nextSem, s.created, s.creator, s.joinType, s.released⟩

/-- Entry `i` is in use, for thread `c`. -/
def Roll.Has (v : Roll) (i c : Nat) : Prop :=
  (v.table i).valid = true ∧ (v.table i).tid = gettid c

/-- The threads below `m` are entered. -/
structure Roster (m : Nat) (v : Roll) : Prop where
  entry : ∀ i, (v.table i).valid = true → i < MAX_THREADS ∧ ∃ c < m, v.released c = false
    ∧ (v.table i).tid = gettid c ∧ (v.table i).parentTid = gettid (v.creator c)
    ∧ (v.table i).joinType = v.joinType c
  unique : ∀ i k c, v.Has i c → v.Has k c → i = k
  present : ∀ c < m, v.released c = false → ∃ i, v.Has i c
  main : 0 < m → v.Has 0 0

/-- The threads below `m` are entered, and have their semaphores. -/
structure Kept (m : Nat) (v : Roll) : Prop where
  roster : Roster m v
  next : v.nextSem = 3 + m
  semaphore : ∀ i c, v.Has i c → (v.table i).semaphore = 3 + c

variable {m i k t u c : Nat} {v : Roll} {e : ThreadEntry}

theorem gettid_injective : Function.Injective gettid := by
  intro a b h
  simp only [gettid] at h
  omega

theorem gettid_ne (h : t ≠ u) : gettid t ≠ gettid u := fun he => h (gettid_injective he)

/-- An entry in use says whose it is. -/
theorem Roster.has (h : Roster m v) (hv : (v.table i).valid = true) : ∃ c < m, v.Has i c := by
  obtain ⟨-, c, hc, -, htid, -⟩ := h.entry i hv
  exact ⟨c, hc, hv, htid⟩

/-- What the entry of thread `c` says. -/
theorem Roster.entryOf (h : Roster m v) (hi : v.Has i c) : i < MAX_THREADS ∧ c < m
    ∧ v.released c = false ∧ (v.table i).parentTid = gettid (v.creator c)
    ∧ (v.table i).joinType = v.joinType c := by
  obtain ⟨hlt, d, hd, hrel, htid, hpar, hjoin⟩ := h.entry i hi.1
  obtain rfl : d = c := gettid_injective (htid.symm.trans hi.2)
  exact ⟨hlt, hd, hrel, hpar, hjoin⟩

theorem Roster.zero_invalid (h : Roster 0 v) (i : Nat) : (v.table i).valid = false := by
  by_contra hv
  obtain ⟨-, c, hc, -⟩ := h.entry i (Bool.not_eq_false _ ▸ hv)
  exact absurd hc (Nat.not_lt_zero c)

/-! ## Children -/

/-- The entry counts as a child of thread `t`. -/
def ThreadEntry.childOf (e : ThreadEntry) (t : Nat) : Bool :=
  e.valid && decide (e.parentTid = gettid t) && decide (e.joinType = FOOTHREAD_JOINABLE)
    && decide (e.tid ≠ gettid t)

/-- The entries below `i` that count as children of thread `t`. -/
def childrenBelow (table : Nat → ThreadEntry) (t i : Nat) : List Nat :=
  (List.range i).filter fun k => (table k).childOf t

/-- All of them. -/
def children (table : Nat → ThreadEntry) (t : Nat) : List Nat := childrenBelow table t MAX_THREADS

variable {table table' : Nat → ThreadEntry}

theorem childrenBelow_succ_of (h : (table i).childOf t = true) :
    childrenBelow table t (i + 1) = childrenBelow table t i ++ [i] := by
  simp [childrenBelow, List.range_succ, List.filter_append, h]

theorem childrenBelow_succ_of_not (h : (table i).childOf t = false) :
    childrenBelow table t (i + 1) = childrenBelow table t i := by
  simp [childrenBelow, List.range_succ, List.filter_append, h]

theorem childrenBelow_congr (h : ∀ k, (table' k).childOf t = (table k).childOf t) :
    childrenBelow table' t i = childrenBelow table t i := by
  unfold childrenBelow
  congr 1
  exact funext h

theorem mem_children : i ∈ children table t ↔ i < MAX_THREADS ∧ (table i).childOf t = true := by
  rw [children, childrenBelow, List.mem_filter, List.mem_range]

theorem nodup_children : (children table t).Nodup := List.nodup_range.filter _

theorem length_children_le : (children table t).length ≤ MAX_THREADS := by
  rw [children, childrenBelow]
  exact (List.length_filter_le _ _).trans (List.length_range (n := MAX_THREADS)).le

/-- A change of one entry that counts as a child of `t` as little as before. -/
theorem childOf_update (h : e.childOf t = (table i).childOf t) (k : Nat) :
    (Function.update table i e k).childOf t = (table k).childOf t := by
  by_cases hk : k = i
  · rw [hk, Function.update_self, h]
  · rw [Function.update_of_ne hk]

theorem children_update (h : e.childOf t = (table i).childOf t) :
    children (Function.update table i e) t = children table t :=
  childrenBelow_congr (childOf_update h)

theorem childOf_of_invalid (h : e.valid = false) : e.childOf t = false := by
  simp [ThreadEntry.childOf, h]

theorem childOf_of_parent (h : e.parentTid = gettid u) (hne : u ≠ t) : e.childOf t = false := by
  simp [ThreadEntry.childOf, h, gettid_ne hne]

theorem childOf_iff : e.childOf t = true ↔ e.valid = true ∧ e.parentTid = gettid t
    ∧ e.joinType = FOOTHREAD_JOINABLE ∧ e.tid ≠ gettid t := by
  simp [ThreadEntry.childOf, and_assoc]

/-! ## Changes of the table -/

variable {v' : Roll}

/-- The roster depends on the entries in use, without their semaphores, and on what is recorded of the
threads below `m`. -/
theorem Roster.of_agree (h : Roster m v) (hv : ∀ k, (v'.table k).valid = (v.table k).valid)
    (hf : ∀ k, (v.table k).valid = true → (v'.table k).tid = (v.table k).tid
      ∧ (v'.table k).parentTid = (v.table k).parentTid
      ∧ (v'.table k).joinType = (v.table k).joinType)
    (hc : ∀ c < m, v'.creator c = v.creator c ∧ v'.joinType c = v.joinType c
      ∧ v'.released c = v.released c) : Roster m v' := by
  have hhas : ∀ k c, v'.Has k c ↔ v.Has k c := by
    intro k c
    unfold Roll.Has
    rw [hv k]
    exact and_congr_right fun hk => by rw [(hf k hk).1]
  refine ⟨fun k hk => ?_, fun i k c hi hk => ?_, fun c hcm hr => ?_, fun hm => ?_⟩
  · have hk' : (v.table k).valid = true := (hv k).symm.trans hk
    obtain ⟨hlt, c, hcm, hrel, htid, hpar, hjoin⟩ := h.entry k hk'
    obtain ⟨hcr, hj, hr⟩ := hc c hcm
    obtain ⟨ht', hp', hj'⟩ := hf k hk'
    exact ⟨hlt, c, hcm, hr.trans hrel, ht'.trans htid, by rw [hp', hpar, hcr], by rw [hj', hjoin, hj]⟩
  · exact h.unique i k c ((hhas i c).mp hi) ((hhas k c).mp hk)
  · obtain ⟨k, hk⟩ := h.present c hcm ((hc c hcm).2.2.symm.trans hr)
    exact ⟨k, (hhas k c).mpr hk⟩
  · exact (hhas 0 0).mpr (h.main hm)

/-- A field of an entry that is not in use does not matter. -/
theorem Roster.setFree (h : Roster m v) (hi : (v.table i).valid = false) (he : e.valid = false) :
    Roster m { v with table := Function.update v.table i e } := by
  refine h.of_agree (fun k => ?_) (fun k hk => ?_) fun _ _ => ⟨rfl, rfl, rfl⟩
  · by_cases hk : k = i
    · rw [hk, hi]
      simpa using he
    · simp [hk]
  · have hne : k ≠ i := by
      rintro rfl
      rw [hi] at hk
      cases hk
    simp [hne]

/-- The semaphore of an entry does not matter to the roster. -/
theorem Roster.setSemaphore (h : Roster m v) (sem n : Nat) :
    Roster m { v with
      table := Function.update v.table i { v.table i with semaphore := sem }, nextSem := n } := by
  refine h.of_agree (fun k => ?_) (fun k _ => ?_) fun _ _ => ⟨rfl, rfl, rfl⟩
  · by_cases hk : k = i
    · simp [hk]
    · simp [hk]
  · by_cases hk : k = i
    · simp [hk]
    · simp [hk]

/-- When its `valid` is set, the entry of the next thread is in the roster. -/
theorem Roster.setValid (h : Roster m v) (hi : (v.table i).valid = false) (hlt : i < MAX_THREADS)
    (hmain : m = 0 → i = 0) (hself : v'.Has i m)
    (hpar : (v'.table i).parentTid = gettid (v.creator m))
    (hjoin : (v'.table i).joinType = v.joinType m) (hrel : v.released m = false)
    (hother : ∀ k, k ≠ i → v'.table k = v.table k)
    (hsame : v'.creator = v.creator ∧ v'.joinType = v.joinType ∧ v'.released = v.released) :
    Roster (m + 1) v' := by
  obtain ⟨hcr, hjt, hr⟩ := hsame
  have hbelow : ∀ k c, v.Has k c → c < m := fun k c hk => (h.entryOf hk).2.1
  -- the entries in use are those of before and the one of thread `m`
  have hhas : ∀ k c, v'.Has k c ↔ k = i ∧ c = m ∨ v.Has k c := by
    intro k c
    by_cases hk : k = i
    · subst hk
      constructor
      · exact fun hc => Or.inl ⟨rfl, gettid_injective (hc.2.symm.trans hself.2)⟩
      · rintro (⟨-, rfl⟩ | hc)
        · exact hself
        · have hv := hc.1
          rw [hi] at hv
          cases hv
    · simp [Roll.Has, hother k hk, hk]
  refine ⟨fun k hk => ?_, fun k l c hk hl => ?_, fun c hc hrc => ?_, fun _ => ?_⟩
  · rw [hr, hcr, hjt]
    by_cases hki : k = i
    · subst hki
      exact ⟨hlt, m, Nat.lt_succ_self m, hrel, hself.2, hpar, hjoin⟩
    · rw [hother k hki] at hk ⊢
      obtain ⟨hlt', c, hc, hrest⟩ := h.entry k hk
      exact ⟨hlt', c, Nat.lt_succ_of_lt hc, hrest⟩
  · rcases (hhas k c).mp hk with ⟨rfl, rfl⟩ | hk'
    · rcases (hhas l c).mp hl with ⟨rfl, -⟩ | hl'
      · rfl
      · exact absurd (hbelow l c hl') (Nat.lt_irrefl c)
    · rcases (hhas l c).mp hl with ⟨rfl, rfl⟩ | hl'
      · exact absurd (hbelow k c hk') (Nat.lt_irrefl c)
      · exact h.unique k l c hk' hl'
  · rcases Nat.lt_succ_iff_lt_or_eq.mp hc with hc | rfl
    · obtain ⟨k, hk⟩ := h.present c hc (hr ▸ hrc)
      exact ⟨k, (hhas k c).mpr (Or.inr hk)⟩
    · exact ⟨i, hself⟩
  · rw [hhas]
    rcases Nat.eq_zero_or_pos m with hm | hm
    · exact Or.inl ⟨(hmain hm).symm, hm.symm⟩
    · exact Or.inr (h.main hm)

/-- The entry of thread `c`, not main's, is taken out of the roster. -/
theorem Roster.release (h : Roster m v) (hi : v.Has i c) (hc : 0 < c)
    (hself : (v'.table i).valid = false) (hother : ∀ k, k ≠ i → v'.table k = v.table k)
    (hrel : ∀ d, v'.released d = (v.released d || (v.table i).tid == gettid d))
    (hsame : v'.creator = v.creator ∧ v'.joinType = v.joinType) : Roster m v' := by
  obtain ⟨hcr, hjt⟩ := hsame
  have hrel' : ∀ d, v'.released d = false ↔ v.released d = false ∧ d ≠ c := by
    intro d
    rw [hrel, hi.2, Bool.or_eq_false_iff, beq_eq_false_iff_ne]
    exact and_congr_right fun _ => ⟨fun hne he => hne (he ▸ rfl), fun hne => gettid_ne hne.symm⟩
  -- those of before, but the one of `c`
  have hhas : ∀ k d, v'.Has k d ↔ k ≠ i ∧ v.Has k d := by
    intro k d
    by_cases hk : k = i
    · simp [Roll.Has, hk, hself]
    · simp [Roll.Has, hk, hother k hk]
  refine ⟨fun k hk => ?_, fun k l d hk hl => ?_, fun d hd hr => ?_, fun hm => ?_⟩
  · have hki : k ≠ i := by
      rintro rfl
      rw [hself] at hk
      cases hk
    rw [hother k hki] at hk ⊢
    obtain ⟨hlt, d, hd, hr, htid, hrest⟩ := h.entry k hk
    rw [hcr, hjt]
    refine ⟨hlt, d, hd, (hrel' d).mpr ⟨hr, ?_⟩, htid, hrest⟩
    rintro rfl
    exact hki (h.unique k i d ⟨hk, htid⟩ hi)
  · exact h.unique k l d ((hhas k d).mp hk).2 ((hhas l d).mp hl).2
  · obtain ⟨hr, hne⟩ := (hrel' d).mp hr
    obtain ⟨k, hk⟩ := h.present d hd hr
    refine ⟨k, (hhas k d).mpr ⟨?_, hk⟩⟩
    rintro rfl
    exact hne (gettid_injective (hk.2.symm.trans hi.2))
  · refine (hhas 0 0).mpr ⟨?_, h.main hm⟩
    rintro rfl
    have := gettid_injective ((h.main hm).2.symm.trans hi.2)
    omega

end OSLab.Foothread
