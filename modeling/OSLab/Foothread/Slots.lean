import OSLab.Foothread.Recycling
import OSLab.Lib.Count

set_option autoImplicit false

/-! # The places of the table

A table of fifty entries has room for main and forty-nine threads. An entry is given back in one place
only, by the creator of the thread, in its `foothread_exit`, and if the thread is joinable. So the
entry of a detached thread is never given back, and after forty-nine of them the table is full,
even if all but one have finished (`table_leaks`).

Which entries have been given back is a matter of the history of the calls (`Gone`). In the runs whose
searches start with at most forty-eight created threads that have not been given back, every search ends
at a free entry (`create_finds_entry_when`).
-/

namespace OSLab.Foothread

/-- Thread `c` was created and its entry has not been given back. -/
def Entered (s : Crew) (c : Nat) : Prop := 0 < c ∧ s.released c = false

instance (s : Crew) : DecidablePred (Entered s) :=
  fun c => inferInstanceAs (Decidable (0 < c ∧ s.released c = false))

/-- How many created threads are in the table. -/
def entered (s : Crew) : Nat := Nat.count (Entered s) (s.created + 1)

/-- Thread `c` was created, and by the history of the calls its entry has not been given back. -/
def Taken (s : Crew) (lost : Nat → Bool) (c : Nat) : Prop := 0 < c ∧ ¬ Gone s lost c

instance (s : Crew) (lost : Nat → Bool) : DecidablePred (Taken s lost) :=
  fun c => inferInstanceAs (Decidable (0 < c ∧ ¬ Gone s lost c))

/-- How many entries of created threads have not been given back. -/
def taken (s : Crew) (lost : Nat → Bool) : Nat := Nat.count (Taken s lost) (s.created + 1)

def Task.searches : Task → Bool
  | .creating _ _ (.search _) => true
  | _ => false

/-- When a thread searches the table, at most `48` entries of created threads have not been given
back. -/
def SearchesWithRoom (w : Crew × (Nat → Bool)) (a : Nat × Order) : Prop :=
  (w.1.task a.1).searches = true → taken w.1 w.2 ≤ 48

instance (w : Crew × (Nat → Bool)) (a : Nat × Order) : Decidable (SearchesWithRoom w a) :=
  inferInstanceAs (Decidable (_ → _))

variable {arg : Nat → Nat} {s s' : Crew} {lost : Nat → Bool} {w : Crew × (Nat → Bool)}
  {t u c i m : Nat} {v : Roll} {a : Nat × Order}

/-! ## Entries and threads -/

/-- Main and the created threads that are in the table have one entry each, and there are no other
entries in use. -/
theorem Kept.count_entries (h : Kept (s.created + 1) s.roll) :
    Nat.count (fun k => (s.mem.threadTable k).valid = true) MAX_THREADS = entered s + 1 := by
  have hmain : s.released 0 = false := (h.roster.entryOf (h.roster.main (Nat.succ_pos _))).2.2.1
  have hthreads : Nat.count (fun c => s.released c = false) (s.created + 1) = entered s + 1 :=
    count_gain (p := Entered s) (Nat.succ_pos _)
      (fun c _ hc => ⟨fun he => he.2, fun hr => ⟨Nat.pos_of_ne_zero hc, hr⟩⟩)
      (fun he => absurd he.1 (Nat.lt_irrefl 0)) hmain
  have howner : ∀ k, (s.mem.threadTable k).valid = true → ∃ c, s.roll.Has k c := by
    intro k hk
    obtain ⟨c, -, hhas⟩ := h.roster.has hk
    exact ⟨c, hhas⟩
  -- the owner of an entry is the bijection
  choose! owner howns using howner
  rw [← hthreads, Nat.count_eq_card_filter_range, Nat.count_eq_card_filter_range]
  refine Finset.card_nbij owner (fun k hk => ?_) (fun k hk l hl he => ?_) fun c hc => ?_
  · have hhas := howns k (Finset.mem_filter.mp hk).2
    obtain ⟨-, hlt, hrel, -⟩ := h.roster.entryOf hhas
    exact Finset.mem_filter.mpr ⟨Finset.mem_range.mpr hlt, hrel⟩
  · have hk := howns k (Finset.mem_filter.mp (Finset.mem_coe.mp hk)).2
    have hl := howns l (Finset.mem_filter.mp (Finset.mem_coe.mp hl)).2
    rw [← he] at hl
    exact h.roster.unique k l _ hk hl
  · obtain ⟨hlt, hrel⟩ := Finset.mem_filter.mp (Finset.mem_coe.mp hc)
    obtain ⟨k, hk⟩ := h.roster.present c (Finset.mem_range.mp hlt) hrel
    refine ⟨k, Finset.mem_coe.mpr (Finset.mem_filter.mpr
      ⟨Finset.mem_range.mpr (h.roster.entryOf hk).1, hk.1⟩), ?_⟩
    exact gettid_injective ((howns k hk.1).2.symm.trans hk.2)

/-- So there is a free entry when there are at most forty-eight created threads in the table, and only
then. -/
theorem Kept.free_iff (h : Kept (s.created + 1) s.roll) :
    (∃ k < MAX_THREADS, (s.mem.threadTable k).valid = false) ↔ entered s ≤ 48 := by
  have hcount := h.count_entries
  have hmax : MAX_THREADS = 50 := rfl
  have hle := Nat.count_le (p := fun k => (s.mem.threadTable k).valid = true) (n := MAX_THREADS)
  constructor
  · rintro ⟨k, hk, hfree⟩
    have hne : Nat.count (fun k => (s.mem.threadTable k).valid = true) MAX_THREADS ≠ MAX_THREADS := by
      intro he
      have hvalid := Nat.count_iff_forall.mp he k hk
      rw [hfree] at hvalid
      cases hvalid
    omega
  · intro hroom
    by_contra hnone
    have hall : Nat.count (fun k => (s.mem.threadTable k).valid = true) MAX_THREADS = MAX_THREADS := by
      refine Nat.count_iff_forall.mpr fun k hk => ?_
      by_contra hinvalid
      exact hnone ⟨k, hk, Bool.eq_false_iff.mpr hinvalid⟩
    omega

/-- Main's entry is the first that main makes. -/
theorem entered_start (h : s.created = 0) : entered s = 0 := by
  unfold entered
  rw [h, Nat.count_succ, Nat.count_zero, if_neg fun he => absurd he.1 (Nat.lt_irrefl 0)]

/-- **What a search finds.** A free entry is ahead of it exactly when the table has room. -/
theorem WellRun.search_iff {j : Int} {child : Nat} (h : WellRun arg s)
    (hp : s.task t = .creating j child (.search i)) :
    (∃ k, i ≤ k ∧ k < MAX_THREADS ∧ (s.mem.threadTable k).valid = false) ↔ entered s ≤ 48 := by
  obtain ⟨hwhole, hle, hbelow⟩ := h.knowsAt hp rfl
  rcases hwhole with hk | ⟨hk, hz⟩
  · rw [← hk.free_iff]
    constructor
    · exact fun ⟨k, _, hlt, hfree⟩ => ⟨k, hlt, hfree⟩
    · rintro ⟨k, hlt, hfree⟩
      refine ⟨k, Nat.not_lt.mp fun hki => ?_, hlt, hfree⟩
      have hvalid : (s.mem.threadTable k).valid = true := hbelow k hki
      rw [hfree] at hvalid
      cases hvalid
  · have hi : i = 0 := by
      by_contra hne
      have hvalid := hbelow 0 (Nat.pos_of_ne_zero hne)
      rw [hk.roster.zero_invalid 0] at hvalid
      cases hvalid
    rw [entered_start hz]
    exact iff_of_true ⟨0, hi.le, by decide, hk.roster.zero_invalid 0⟩ (Nat.zero_le _)

/-- While a thread searches, the history says what the table holds. -/
theorem Recycling.entered_eq (h : Recycling s lost) (hw : WellRun arg s)
    (hsearch : (s.task t).searches = true) : entered s = taken s lost := by
  have hplace : (s.task t).inside = true ∧ (s.task t).releases = false := by
    cases hx : s.task t with
    | creating j child pc =>
        rw [hx] at hsearch
        cases pc <;> first | exact ⟨rfl, rfl⟩ | cases hsearch
    | _ =>
        rw [hx] at hsearch
        cases hsearch
  refine count_congr fun c hc => and_congr_right fun hpos => ?_
  rw [← h.released_iff hw hplace.1 hplace.2 hpos (Nat.lt_succ_iff.mp hc), Bool.not_eq_true]

/-! ## Runs with room -/

theorem exit_runs {m m' : Mem} {pc : ExitPc} {r : Ctl ExitPc}
    (hm : foothreadExit t m pc = some (m', r)) : (∃ pc', r = .next pc') ∨ r = .ret := by
  have hperform : ∀ id op pc', m.perform id op (.next pc') = some (m', r) → ∃ pc', r = .next pc' := by
    intro id op pc' hp
    obtain ⟨w, -, -, rfl⟩ := perform_eq_some hp
    exact ⟨pc', rfl⟩
  cases pc with
  | lockOp op => exact .inl (hperform _ _ _ hm)
  | signalOp l sem op => exact .inl (hperform _ _ _ hm)
  | unlockOp l op => exact .inl (hperform _ _ _ hm)
  | lockAgainOp l op => exact .inl (hperform _ _ _ hm)
  | unlockAgainOp op =>
      obtain ⟨w, -, -, rfl⟩ := perform_eq_some hm
      exact .inr rfl
  | joinOp l op =>
      simp only [foothreadExit] at hm
      split at hm
      · exact .inl (hperform _ _ _ hm)
      · cases hm
        exact .inl ⟨_, rfl⟩
  | forget rest =>
      cases rest <;> cases hm <;> exact .inl ⟨_, rfl⟩
  | findValid i =>
      simp only [foothreadExit] at hm
      split at hm <;> cases hm <;> exact .inl ⟨_, rfl⟩
  | parentValid l i =>
      simp only [foothreadExit] at hm
      split at hm <;> cases hm <;> exact .inl ⟨_, rfl⟩
  | childValid l i =>
      simp only [foothreadExit] at hm
      split at hm <;> cases hm <;> exact .inl ⟨_, rfl⟩
  | _ =>
      cases hm
      exact .inl ⟨_, rfl⟩

/-- No thread is at the error of the full table, and the process runs. -/
def FindsEntries (s : Crew) : Prop :=
  s.exited = false ∧ ∀ t joinType child, s.task t ≠ .creating joinType child .full

theorem FindsEntries.goto (h : FindsEntries s) {x : Task} (hx : ∀ j child, x ≠ .creating j child .full)
    (hexited : s'.exited = s.exited) (htask : s'.task = Function.update s.task t x) : FindsEntries s' := by
  refine ⟨hexited.trans h.1, fun u j child => ?_⟩
  rw [htask]
  by_cases hu : u = t
  · rw [hu, Function.update_self]
    exact hx j child
  · rw [Function.update_of_ne hu]
    exact h.2 u j child

theorem findsEntries_next (h : FindsEntries s) (hw : WellRun arg s)
    (hok : (s.task a.1).searches = true → entered s ≤ 48)
    (hs : (crewMachine arg).next s a = some s') : FindsEntries s' := by
  obtain ⟨-, hmove⟩ := crewMove_of_next hs
  obtain ⟨t, order⟩ := a
  cases hmove with
  | create joinType hp => exact h.goto (t := t) (x := .creating joinType 0 .setPop) nofun rfl rfl
  | exit hp _ => exact h.goto (t := t) (x := .exiting .setPop) nofun rfl rfl
  | creating joinType child pc mem r hp hm =>
      have hp : s.task t = .creating joinType child pc := hp
      obtain ⟨pc', rfl, hend⟩ | rfl | ⟨i, rfl, rfl, -⟩ | ⟨rfl, rfl, -⟩ := create_cases hm
      · refine h.goto (t := t) (x := .creating joinType child pc') (fun j d he => ?_) rfl rfl
        cases he
        -- the search is at the end of the table, so it had no room
        obtain ⟨i, rfl, hi⟩ := hend rfl
        have hroom : entered s ≤ 48 := hok (by rw [hp]; rfl)
        obtain ⟨k, hik, hk, -⟩ := (hw.search_iff hp).mpr hroom
        omega
      · exact h.goto (t := t) (x := .idle) nofun rfl rfl
      · exact h.goto (t := t) (x := .creating joinType (s.created + 1) (.setTid i)) nofun rfl rfl
      · exact absurd hp (h.2 t joinType child)
  | exiting pc mem r hp hm =>
      obtain ⟨pc', rfl⟩ | rfl := exit_runs hm
      · refine h.goto (t := t) (x := .exiting pc') nofun ?_ ?_
        · cases pc <;> first | rfl | (rename_i rest; cases rest <;> rfl)
        · cases pc <;> first | rfl | (rename_i rest; cases rest <;> rfl)
      · exact h.goto (t := t) (x := .done) nofun rfl rfl

/-- **With room, `foothread_create` finds an entry.** No run whose searches have room ends with the
error of the full table, whatever pairs of operands the threads share. The room is what decides in every
search: what fills it are the created threads, each from its `clone` on, a detached one for good. For the
entry of a joinable thread is free when its creator has returned from `foothread_exit`, if the creator
had not lost its own. -/
theorem create_finds_entry_when (h : (tableMachine arg).ReachableWhen SearchesWithRoom w) :
    FindsEntries w.1
      ∧ (∀ t joinType child i, w.1.task t = .creating joinType child (.search i) →
        ((∃ k, i ≤ k ∧ k < MAX_THREADS ∧ (w.1.mem.threadTable k).valid = false)
          ↔ taken w.1 w.2 ≤ 48))
      ∧ ∀ c, Gone w.1 w.2 c → ∀ k,
        ¬ ((w.1.mem.threadTable k).valid = true ∧ (w.1.mem.threadTable k).tid = gettid c) := by
  have hfinds : FindsEntries w.1 := by
    apply h.invariant_of (J := fun w => WellRun arg w.1 ∧ Recycling w.1 w.2)
      (I := fun w => FindsEntries w.1)
    · exact fun w hw => recycling hw
    · rintro ⟨s, lost⟩ ⟨rfl, -⟩
      exact ⟨rfl, nofun⟩
    · rintro w a w' ⟨hw, hI⟩ hfinds hok hs
      refine findsEntries_next hfinds hw (fun hsearch => ?_) (Machine.withHistory_next hs).1
      rw [hI.entered_eq hw hsearch]
      exact hok hsearch
  obtain ⟨hw, hI⟩ := recycling h
  refine ⟨hfinds, fun t joinType child i hp => ?_, fun c hgone => hI.gone_free hw hgone⟩
  rw [hw.search_iff hp, hI.entered_eq hw (by rw [hp]; rfl)]

/-- Main makes a joinable thread, which makes another one. Both call `foothread_exit` and return, and main
makes a detached thread. -/
def untilRecycled : List (Nat × Order) :=
  List.replicate 17 (0, .create FOOTHREAD_JOINABLE) ++ List.replicate 18 (1, .create FOOTHREAD_JOINABLE)
    ++ List.replicate 83 (2, .exit) ++ List.replicate 85 (1, .exit)
    ++ List.replicate 18 (0, .create FOOTHREAD_DETACHED)

/-- The third thread has the entry that was the second's. -/
theorem create_finds_entry_when_run : ∃ w, (tableMachine fun _ => 0).ReachableWhen SearchesWithRoom w
    ∧ w.1.created = 3 ∧ (w.1.mem.threadTable 2).tid = gettid 3 ∧ Gone w.1 w.2 2 ∧ FindsEntries w.1
    ∧ ∀ k, ¬ ((w.1.mem.threadTable k).valid = true ∧ (w.1.mem.threadTable k).tid = gettid 2) := by
  obtain ⟨w, hw, hp⟩ : ∃ w, (tableMachine fun _ => 0).ReachableWhen SearchesWithRoom w
      ∧ decide (w.1.created = 3 ∧ (w.1.mem.threadTable 2).tid = gettid 3 ∧ Gone w.1 w.2 2) = true :=
    Machine.exists_reachableWhen_of_execWhen (s := (crewStart, fun _ => false)) (l := untilRecycled)
      ⟨rfl, rfl⟩ (by decide +kernel)
  obtain ⟨hcreated, htid, hgone⟩ := of_decide_eq_true hp
  obtain ⟨hfinds, -, hfree⟩ := create_finds_entry_when hw
  exact ⟨w, hw, hcreated, htid, hgone, hfinds, hfree 2 hgone⟩

/-! ## Detached threads -/

def Task.called : Task → Bool
  | .exiting _ | .done => true
  | _ => false

/-- Thread `c` has not finished `foothread_exit`, or is joinable and its creator has not called it. -/
def Pending (s : Crew) (c : Nat) : Prop :=
  0 < c ∧ (s.task c ≠ .done
    ∨ s.joinType c = FOOTHREAD_JOINABLE ∧ (s.task (s.creator c)).called = false)

instance (s : Crew) : DecidablePred (Pending s) :=
  fun c => inferInstanceAs (Decidable (0 < c ∧ (_ ∨ _ ∧ _)))

/-- How many created threads are pending. -/
def pending (s : Crew) : Nat := Nat.count (Pending s) (s.created + 1)

/-- At most `48` created threads are pending. -/
def FewPending (s : Crew) (_ : Nat × Order) : Prop := pending s ≤ 48

instance (s : Crew) (a : Nat × Order) : Decidable (FewPending s a) :=
  inferInstanceAs (Decidable (_ ≤ _))

/-- The first of `n` detached threads has finished `foothread_exit`, and the others are in no call. -/
structure Crowd (arg : Nat → Nat) (n : Nat) (s : Crew) : Prop where
  reach : (crewMachine arg).ReachableWhen FewPending s
  running : s.exited = false
  created : s.created = n
  pos : 0 < n
  detached : ∀ c, 0 < c → c ≤ n → s.joinType c = FOOTHREAD_DETACHED
  first : s.task 1 = .done
  others : ∀ u, 0 < u → s.task u = .idle ∨ s.task u = .done

variable {n : Nat}

theorem count_pos_eq : Nat.count (fun c => 0 < c) (n + 1) = n := by
  induction n with
  | zero => rfl
  | succ n ih => rw [Nat.count_succ, ih, if_pos (Nat.succ_pos n)]

/-- None of them is released. -/
theorem Crowd.entered_eq (h : Crowd arg n s) : entered s = n := by
  have hrel : ∀ c, 0 < c → s.released c = false := by
    intro c hc
    by_contra hr
    obtain ⟨-, hle, hjoin, -⟩ := (wellRun h.reach).released c (Bool.not_eq_false _ ▸ hr)
    rw [h.detached c hc (h.created ▸ hle)] at hjoin
    cases hjoin
  have hall : Nat.count (Entered s) (n + 1) = Nat.count (fun c => 0 < c) (n + 1) :=
    count_congr fun c _ => ⟨fun he => he.1, fun hc => ⟨hc, hrel c hc⟩⟩
  unfold entered
  rw [h.created, hall, count_pos_eq]

/-- All but the first may be pending. -/
theorem Crowd.few (h : Crowd arg n s) (hn : n ≤ 49) : pending s ≤ 48 := by
  have hgain : Nat.count (fun c => 0 < c) (n + 1) = Nat.count (fun c => 0 < c ∧ c ≠ 1) (n + 1) + 1 :=
    count_gain (i := 1) (Nat.succ_lt_succ h.pos)
      (fun c _ hc => ⟨fun he => he.1, fun hpos => ⟨hpos, hc⟩⟩) (fun he => he.2 rfl) Nat.one_pos
  have hle : pending s ≤ Nat.count (fun c => 0 < c ∧ c ≠ 1) (n + 1) := by
    unfold pending
    rw [h.created]
    refine Nat.count_mono_left fun c _ hc => ⟨hc.1, ?_⟩
    rintro rfl
    rcases hc.2 with hnot | ⟨hjoin, -⟩
    · exact hnot h.first
    · rw [h.detached 1 Nat.one_pos h.pos] at hjoin
      cases hjoin
  rw [count_pos_eq] at hgain
  omega

/-! ## Main makes one more -/

variable {child : Nat} {pc pc' : CreatePc} {mem : Mem} {x : Task} {o : Order}

/-- A step of main. -/
theorem Crowd.move (h : Crowd arg n s) (hn : n ≤ 49) (hs : crewStep arg s 0 o = some s')
    (hexited : s'.exited = s.exited) (hcreated : s'.created = s.created)
    (hjoin : s'.joinType = s.joinType) (htask : s'.task = Function.update s.task 0 x) :
    Crowd arg n s' ∧ s'.task 0 = x := by
  have hnext : (crewMachine arg).next s (0, o) = some s' :=
    (if_pos ⟨Nat.zero_le _, h.running⟩).trans hs
  have hother : ∀ u, 0 < u → s'.task u = s.task u := by
    intro u hu
    rw [htask]
    exact Function.update_of_ne hu.ne' _ _
  refine ⟨⟨.step h.reach (h.few hn) hnext, hexited.trans h.running, hcreated.trans h.created, h.pos,
    ?_, (hother 1 Nat.one_pos).trans h.first, fun u hu => ?_⟩, ?_⟩
  · rw [hjoin]
    exact h.detached
  · rw [hother u hu]
    exact h.others u hu
  · rw [htask]
    exact Function.update_self ..

theorem Crowd.call (h : Crowd arg n s) (hn : n ≤ 49) (hp : s.task 0 = .idle) :
    ∃ s', Crowd arg n s' ∧ s'.task 0 = .creating FOOTHREAD_DETACHED 0 .setPop
      ∧ s'.load arg 0 = s.load arg 0 := by
  have hs : crewStep arg s 0 (.create FOOTHREAD_DETACHED)
      = some (s.goto 0 (.creating FOOTHREAD_DETACHED 0 .setPop)) := by
    unfold crewStep
    rw [hp]
  obtain ⟨hcrowd, htask⟩ := h.move hn hs rfl rfl rfl rfl
  exact ⟨_, hcrowd, htask, rfl⟩

theorem Crowd.next (h : Crowd arg n s) (hn : n ≤ 49)
    (hp : s.task 0 = .creating FOOTHREAD_DETACHED child pc)
    (hm : foothreadCreateAs FOOTHREAD_DETACHED 0 child (s.load arg 0) pc = some (mem, .next pc')) :
    ∃ s', Crowd arg n s' ∧ s'.task 0 = .creating FOOTHREAD_DETACHED child pc'
      ∧ s'.load arg 0 = mem := by
  have hs : crewStep arg s 0 (.create FOOTHREAD_DETACHED)
      = some ((s.store arg 0 mem).goto 0 (.creating FOOTHREAD_DETACHED child pc')) := by
    unfold crewStep
    rw [hp]
    simp only [hm]
    rfl
  obtain ⟨hcrowd, htask⟩ := h.move hn hs rfl rfl rfl rfl
  refine ⟨_, hcrowd, htask, ?_⟩
  simp [Crew.load, Crew.store, Crew.goto]

/-- With main in no call, nobody is in a critical section. -/
theorem Crowd.free (h : Crowd arg n s) (hp : s.task 0 = .idle) :
    s.mem.init = true ∧ s.mem.mutexSemaphore = SEM_KEY ∧ s.mem.semval SEM_KEY = 1 := by
  have hw := wellRun h.reach
  cases hw.guard with
  | unmade init alone =>
      have hpos := h.pos
      have hcreated := h.created
      omega
  | free init value => exact ⟨init, hw.key, value⟩
  | held u init value inside =>
      have hout : (s.task u).inside = false := by
        rcases Nat.eq_zero_or_pos u with rfl | hu
        · rw [hp]
          rfl
        · rcases h.others u hu with hidle | hdone
          · rw [hidle]
            rfl
          · rw [hdone]
            rfl
      rw [hout] at inside
      cases inside

/-- Main comes to the search. -/
theorem Crowd.enter (h : Crowd arg n s) (hn : n ≤ 49) (hp : s.task 0 = .idle) :
    ∃ s', Crowd arg n s' ∧ s'.task 0 = .creating FOOTHREAD_DETACHED 0 (.search 0) := by
  obtain ⟨hinit, hkey, hfree⟩ := h.free hp
  obtain ⟨s₁, h₁, p₁, m₁⟩ := h.call hn hp
  obtain ⟨s₂, h₂, p₂, m₂⟩ := h₁.next hn p₁ rfl
  obtain ⟨s₃, h₃, p₃, m₃⟩ := h₂.next hn p₂ rfl
  have hmade : (s₃.load arg 0).init = true := by
    rw [m₃, m₂, m₁]
    exact hinit
  obtain ⟨s₄, h₄, p₄, m₄⟩ := h₃.next hn p₃ (if_pos hmade)
  obtain ⟨s₅, h₅, p₅, m₅⟩ := h₄.next hn p₄ rfl
  have hpop : (s₄.load arg 0).pop = -1 := by
    rw [m₄, m₃, m₂]
  have hone : (s₅.load arg 0).semval (s₅.load arg 0).mutexSemaphore = 1 := by
    rw [m₅, m₄, m₃, m₂, m₁]
    exact hfree
  have hzero : semop 1 (-1) = some 0 := semop_neg_one.mpr rfl
  rw [hpop] at p₅
  have hlock : foothreadCreateAs FOOTHREAD_DETACHED 0 0 (s₅.load arg 0) (.lockOp (-1))
      = some ((s₅.load arg 0).setSem (s₅.load arg 0).mutexSemaphore 0, .next (.search 0)) := by
    simp [foothreadCreateAs, foothreadCreate, Mem.perform, hone, hzero]
  obtain ⟨s₆, h₆, p₆, -⟩ := h₅.next hn p₅ hlock
  exact ⟨s₆, h₆, p₆⟩

/-- The search ends. -/
theorem Crowd.search (h : Crowd arg n s) (hn : n ≤ 49)
    (hp : s.task 0 = .creating FOOTHREAD_DETACHED child (.search i)) :
    ∃ s', Crowd arg n s' ∧ (s'.task 0 = .creating FOOTHREAD_DETACHED child .full
      ∨ ∃ k, s'.task 0 = .creating FOOTHREAD_DETACHED child (.clone k)) := by
  -- by induction on the number of entries ahead
  obtain ⟨d, hd⟩ : ∃ d, d = MAX_THREADS - i := ⟨_, rfl⟩
  induction d generalizing i s with
  | zero =>
      have hend : ¬ i < MAX_THREADS := by omega
      obtain ⟨s', h', hp', -⟩ := h.next hn hp (if_neg hend)
      exact ⟨s', h', .inl hp'⟩
  | succ d ih =>
      have hlt : i < MAX_THREADS := by omega
      by_cases hvalid : ((s.load arg 0).threadTable i).valid = true
      · obtain ⟨s', h', hp', -⟩ := h.next hn hp ((if_pos hlt).trans (if_pos hvalid))
        exact ih h' hp' (by omega)
      · obtain ⟨s', h', hp', -⟩ := h.next hn hp ((if_pos hlt).trans (if_neg hvalid))
        by_cases hi : i = 0
        · -- main's own entry is in use
          rw [if_pos hi] at hp'
          obtain ⟨-, hz⟩ := (wellRun h'.reach).knowsAt hp' rfl
          have hz : s'.created = 0 := hz
          have hpos := h'.pos
          have hcreated := h'.created
          omega
        · rw [if_neg hi] at hp'
          exact ⟨s', h', .inr ⟨i, hp'⟩⟩

/-- The new thread is one of them. -/
theorem Crowd.clone (h : Crowd arg n s) (hn : n ≤ 49)
    (hp : s.task 0 = .creating FOOTHREAD_DETACHED child (.clone i)) :
    ∃ s', Crowd arg (n + 1) s'
      ∧ s'.task 0 = .creating FOOTHREAD_DETACHED (s.created + 1) (.setTid i) := by
  have hs : (crewMachine arg).next s (0, .create FOOTHREAD_DETACHED)
      = some (((s.store arg 0 (s.load arg 0)).spawn 0 FOOTHREAD_DETACHED).goto 0
        (.creating FOOTHREAD_DETACHED (s.created + 1) (.setTid i))) := by
    refine (if_pos ⟨Nat.zero_le _, h.running⟩).trans ?_
    unfold crewStep
    rw [hp]
    rfl
  have hother : ∀ u, 0 < u → Function.update s.task 0
      (.creating FOOTHREAD_DETACHED (s.created + 1) (.setTid i)) u = s.task u :=
    fun u hu => Function.update_of_ne hu.ne' _ _
  have hself : Function.update s.task 0 (.creating FOOTHREAD_DETACHED (s.created + 1) (.setTid i)) 0
      = .creating FOOTHREAD_DETACHED (s.created + 1) (.setTid i) := Function.update_self ..
  refine ⟨_, ⟨.step h.reach (h.few hn) hs, h.running, congrArg (· + 1) h.created, Nat.succ_pos n,
    fun c hc hle => ?_, (hother 1 Nat.one_pos).trans h.first, fun u hu => ?_⟩, hself⟩
  · show Function.update s.joinType (s.created + 1) FOOTHREAD_DETACHED c = FOOTHREAD_DETACHED
    by_cases hcn : c = s.created + 1
    · rw [hcn, Function.update_self]
    · rw [Function.update_of_ne hcn]
      have hcreated := h.created
      exact h.detached c hc (by omega)
  · exact (h.others u hu).imp (hother u hu).trans (hother u hu).trans

/-- Main fills in the entry and returns. -/
theorem Crowd.return (h : Crowd arg n s) (hn : n ≤ 49)
    (hp : s.task 0 = .creating FOOTHREAD_DETACHED child (.setTid i)) :
    ∃ s', Crowd arg n s' ∧ s'.task 0 = .idle := by
  obtain ⟨s₁, h₁, p₁, -⟩ := h.next hn hp rfl
  obtain ⟨s₂, h₂, p₂, -⟩ := h₁.next hn p₁ rfl
  obtain ⟨s₃, h₃, p₃, -⟩ := h₂.next hn p₂ rfl
  obtain ⟨s₄, h₄, p₄, -⟩ := h₃.next hn p₃ rfl
  obtain ⟨s₅, h₅, p₅, -⟩ := h₄.next hn p₄ rfl
  obtain ⟨s₆, h₆, p₆, -⟩ := h₅.next hn p₅ rfl
  obtain ⟨s₇, h₇, p₇, -⟩ := h₆.next hn p₆ rfl
  have hop : (s₆.load arg 0).vop = 1 := by
    have hop := (wellRun h₇.reach).op 0
    rw [p₇] at hop
    exact hop
  rw [hop] at p₇
  obtain ⟨w, hw⟩ : ∃ w, semop ((s₇.load arg 0).semval (s₇.load arg 0).mutexSemaphore) 1 = some w :=
    ⟨_, if_pos (by decide)⟩
  have hs : crewStep arg s₇ 0 (.create FOOTHREAD_DETACHED) = some ((s₇.store arg 0
      ((s₇.load arg 0).setSem (s₇.load arg 0).mutexSemaphore w)).goto 0 .idle) := by
    unfold crewStep
    rw [p₇]
    simp only [foothreadCreateAs, foothreadCreate, Mem.perform, hw]
    rfl
  obtain ⟨hcrowd, htask⟩ := h₇.move hn hs rfl rfl rfl rfl
  exact ⟨_, hcrowd, htask⟩

/-- As long as there is room, main can make one more. -/
theorem Crowd.grow (h : Crowd arg n s) (hn : n ≤ 48) (hp : s.task 0 = .idle) :
    ∃ s', Crowd arg (n + 1) s' ∧ s'.task 0 = .idle := by
  obtain ⟨s₁, h₁, p₁⟩ := h.enter (by omega) hp
  obtain ⟨s₂, h₂, p₂ | ⟨k, p₂⟩⟩ := h₁.search (by omega) p₁
  · obtain ⟨hkept, hfull⟩ := (wellRun h₂.reach).knowsAt p₂ rfl
    obtain ⟨k, hk, hfree⟩ := hkept.free_iff.mpr (h₂.entered_eq.le.trans hn)
    have hvalid : (s₂.mem.threadTable k).valid = true := hfull k hk
    rw [hfree] at hvalid
    cases hvalid
  · obtain ⟨s₃, h₃, p₃⟩ := h₂.clone (by omega) p₂
    exact h₃.return (by omega) p₃

theorem Crowd.grows (h : Crowd arg n s) (hp : s.task 0 = .idle) (hm : n ≤ m) (hle : m ≤ 49) :
    ∃ s', Crowd arg m s' ∧ s'.task 0 = .idle := by
  induction m, hm using Nat.le_induction with
  | base => exact ⟨s, h, hp⟩
  | succ m _ ih =>
      obtain ⟨s', h', p'⟩ := ih (by omega)
      exact h'.grow (by omega) p'

/-- With forty-nine there is none. -/
theorem Crowd.full (h : Crowd arg 49 s) (hp : s.task 0 = .idle) :
    ∃ s', Crowd arg 49 s' ∧ s'.task 0 = .creating FOOTHREAD_DETACHED 0 .full := by
  obtain ⟨s₁, h₁, p₁⟩ := h.enter le_rfl hp
  obtain ⟨s₂, h₂, p₂ | ⟨k, p₂⟩⟩ := h₁.search le_rfl p₁
  · exact ⟨s₂, h₂, p₂⟩
  · obtain ⟨hkept, ⟨-, hk⟩, hfree⟩ := (wellRun h₂.reach).knowsAt p₂ rfl
    have hroom := hkept.free_iff.mp ⟨k, hk, hfree⟩
    rw [h₂.entered_eq] at hroom
    omega

/-- Main makes a detached thread, which calls `foothread_exit` and returns. -/
theorem crowd_one : ∃ s, Crowd (fun _ => 0) 1 s ∧ s.task 0 = .idle := by
  obtain ⟨s, hs, hp⟩ : ∃ s, (crewMachine fun _ => 0).ReachableWhen FewPending s
      ∧ decide (s.exited = false ∧ s.created = 1 ∧ s.joinType 1 = FOOTHREAD_DETACHED
        ∧ s.task 1 = .done ∧ s.task 0 = .idle) = true :=
    Machine.exists_reachableWhen_of_execWhen (s := crewStart)
      (l := List.replicate 17 (0, .create FOOTHREAD_DETACHED) ++ List.replicate 73 (1, .exit)) rfl
      (by decide +kernel)
  obtain ⟨hrunning, hcreated, hjoin, hdone, hidle⟩ := of_decide_eq_true hp
  refine ⟨s, ⟨hs, hrunning, hcreated, Nat.one_pos, fun c hc hle => ?_, hdone, fun u hu => ?_⟩, hidle⟩
  · obtain rfl : c = 1 := by omega
    exact hjoin
  · by_cases hu1 : u = 1
    · rw [hu1]
      exact .inr hdone
    · exact .inl ((wellRun hs).unborn u (by omega))

/-- **The table leaks.** A detached thread has finished; main has made forty-eight more, so at most
forty-eight created threads were pending at any time; and `foothread_create` finds the table full. -/
theorem table_leaks :
    (∃ s, (crewMachine fun _ => 0).ReachableWhen FewPending s ∧ pending s ≤ 48
        ∧ s.task 0 = .creating FOOTHREAD_DETACHED 0 .full)
      ∧ ¬ ∀ s, (crewMachine fun _ => 0).ReachableWhen FewPending s → pending s ≤ 48 →
        FindsEntries s := by
  obtain ⟨s₁, h₁, p₁⟩ := crowd_one
  obtain ⟨s₂, h₂, p₂⟩ := h₁.grows (m := 49) p₁ (by decide) le_rfl
  obtain ⟨s, h, hp⟩ := h₂.full p₂
  have hfew := h.few le_rfl
  exact ⟨⟨s, h.reach, hfew, hp⟩, fun hall => (hall s h.reach hfew).2 0 _ _ hp⟩

end OSLab.Foothread
