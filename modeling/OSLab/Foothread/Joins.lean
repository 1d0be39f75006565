import OSLab.Foothread.Leaving
import OSLab.Lib.Count

set_option autoImplicit false

/-! # What `foothread_exit` waits for

With operands of its own, a thread whose `foothread_exit` returns has taken one from its semaphore for
each joinable thread it created, and nobody adds to it but these threads, each once. So each of them
has called `foothread_exit` and is past the `V` there (`exit_joins`).

That `V` comes early, before the thread waits for its own children. So when `foothread_exit` returns
the joinable children may still be in theirs, and their children may not have called it
(`exit_before_children`).
-/

namespace OSLab.Foothread

/-- `c` is a joinable thread that `t` created. -/
def Kid (s : Crew) (t c : Nat) : Prop :=
  (0 < c ∧ c ≤ s.created) ∧ s.creator c = t ∧ s.joinType c = FOOTHREAD_JOINABLE

instance (s : Crew) (t : Nat) : DecidablePred (Kid s t) :=
  fun c => inferInstanceAs (Decidable ((0 < c ∧ c ≤ s.created) ∧ _ ∧ _))

/-- Past the place in `foothread_exit` where the creator is signalled. -/
def ExitPc.signalled : ExitPc → Bool
  | .setPop | .setVop | .lock | .lockOp _ | .findValid _ | .findTid _ | .findJoin _ | .findSem _ _
  | .findParent _ _ _ | .parentValid _ _ | .parentTid _ _ | .parentSem _ _ | .signal _ _
  | .signalOp _ _ _ => false
  | _ => true

def Task.signalled : Task → Bool
  | .exiting pc => pc.signalled
  | .done => true
  | _ => false

/-- Past the `P` that waits for the children. -/
def ExitPc.joined : ExitPc → Bool
  | .setPopAgain _ | .lockAgain _ | .lockAgainOp _ _ | .forget _ | .unlockAgain | .unlockAgainOp _ =>
      true
  | _ => false

def Task.joined : Task → Bool
  | .exiting pc => pc.joined
  | .done => true
  | _ => false

/-- Until the thread has waited it knows its own semaphore, and how many children it waits for: the
operand is loaded from `pop`. -/
def ExitPc.Waits (pop : Int) : ExitPc → Prop
  | .childValid l _ | .childParent l _ | .childJoin l _ | .childTid l _ | .unlock l | .unlockOp l _
  | .setJoin l => l.semaphore ≠ none
  | .join l => l.semaphore ≠ none ∧ pop = -(l.mychild.length : Int)
  | .joinOp l op => l.semaphore ≠ none ∧ op = -(l.mychild.length : Int)
  | _ => True

def Task.Waits (pop : Int) : Task → Prop
  | .exiting pc => pc.Waits pop
  | _ => True

/-- How many joinable threads that `t` created are past their `V`. -/
def signals (s : Crew) (t : Nat) : Nat :=
  Nat.count (fun c => Kid s t c ∧ (s.task c).signalled = true) (s.created + 1)

structure Joining (s : Crew) : Prop where
  tokens : ∀ t, s.mem.semval (3 + t) ≤ signals s t
  waits : ∀ t, (s.task t).Waits (s.args t).pop
  joined : ∀ t, (s.task t).joined = true → ∀ c, Kid s t c → (s.task c).signalled = true

variable {s s' : Crew} {t u c i : Nat} {x y : Task} {mem : Mem} {released : Nat → Bool} {l : ExitLocals}
  {pc pc' : ExitPc} {r : Ctl ExitPc} {arg : Nat → Nat} {v : Roll}

/-! ## The children in the table -/

/-- In the critical section of `foothread_create` the roster lacks at most the thread that the caller
makes; before main's entry there is only main. -/
theorem CreatePc.Inside.roster {j : Int} {child : Nat} {pc : CreatePc} (h : pc.Inside v t j child)
    (hin : (Task.creating j child pc).inside = true) :
    Roster (v.created + 1) v ∨ Roster v.created v ∧ (v.created = 0 ∨ v.creator v.created = t) := by
  have hbuild : ∀ i, Building v t j child i → Roster (v.created + 1) v
      ∨ Roster v.created v ∧ (v.created = 0 ∨ v.creator v.created = t) := by
    intro i hb
    refine .inr ⟨hb.kept.roster, .inr ?_⟩
    rw [← hb.newest]
    exact hb.creator
  cases pc with
  | search i =>
      rcases h.1 with hk | ⟨hk, hz⟩
      · exact .inl hk.roster
      · exact .inr ⟨hz ▸ hk.roster, .inl hz⟩
  | ownEntry => exact .inr ⟨h.2 ▸ h.1.roster, .inl h.2⟩
  | setTid i => exact hbuild i h
  | setParent i | setJoin i | setValid i => exact hbuild i h.1
  | setSem i => exact .inl h.1
  | clone i | setVal i | full => exact .inl h.1.roster
  | unlock | unlockOp op => exact .inl (Kept.roster h)
  | _ => cases hin

/-- In the critical sections of `foothread_exit` it is whole. -/
theorem ExitPc.Inside.kept (h : pc.Inside v t) : Kept (v.created + 1) v := by
  cases pc <;> first
    | exact h.1
    | exact h

/-- While a thread is in `foothread_exit` the roster lacks at most the thread that is being made. -/
theorem WellRun.rostered (h : WellRun arg s) (ht : t ≤ s.created) (hp : s.task t = .exiting pc) :
    Roster (s.created + 1) s.roll
      ∨ Roster s.created s.roll ∧ ∃ j c pc, s.task (s.creator s.created) = .creating j c pc := by
  cases h.guard with
  | unmade init alone early =>
      obtain rfl : t = 0 := by omega
      rw [hp] at early
      cases early
  | free init value outside whole => exact .inl (kept_of_whole ht hp whole).roster
  | held u init value inside outside knows =>
      cases hx : s.task u with
      | idle => rw [hx] at inside; cases inside
      | done => rw [hx] at inside; cases inside
      | exiting pc' =>
          rw [hx] at knows
          exact .inl (ExitPc.Inside.kept knows).roster
      | creating j child pc' =>
          rw [hx] at inside knows
          -- a thread that lacks has been made by `u`, which is in `foothread_create`
          obtain hr | ⟨hr, hmaker⟩ := CreatePc.Inside.roster knows inside
          · exact .inl hr
          · have hu : s.creator s.created = u := by
              rcases hmaker with hz | hcreator
              · have hz : s.created = 0 := hz
                rw [hz, h.root.1]
                by_contra hne
                rw [h.unborn u (by omega)] at hx
                cases hx
              · exact hcreator
            exact .inr ⟨hr, j, child, pc', hu ▸ hx⟩

/-- A thread in `foothread_exit` has all its joinable children in the table, but those it released. -/
theorem WellRun.present (h : WellRun arg s) (ht : t ≤ s.created) (hp : s.task t = .exiting pc)
    (hkid : Kid s t c) (hrel : s.released c = false) :
    ∃ i ∈ children s.mem.threadTable t, s.roll.Has i c := by
  obtain ⟨⟨hpos, hle⟩, hcreator, hjoin⟩ := hkid
  obtain ⟨m, hroster, hc⟩ : ∃ m, Roster m s.roll ∧ c < m := by
    rcases h.rostered ht hp with hr | ⟨hr, j, d, pc', hmaking⟩
    · exact ⟨_, hr, Nat.lt_succ_of_le hle⟩
    · refine ⟨_, hr, lt_of_le_of_ne hle fun he => ?_⟩
      rw [← he, hcreator, hp] at hmaking
      cases hmaking
  obtain ⟨i, hhas⟩ := hroster.present c hc hrel
  obtain ⟨hlt, -, -, hparent, hj⟩ := hroster.entryOf hhas
  have holder := h.older c hpos hle
  refine ⟨i, mem_children.mpr ⟨hlt, childOf_iff.mpr ⟨hhas.1, ?_, hj.trans hjoin, ?_⟩⟩, hhas⟩
  · exact hparent.trans (congrArg gettid hcreator)
  · have hne : c ≠ t := by omega
    exact fun he => gettid_ne hne (hhas.2.symm.trans he)

/-- It released none before it has waited. -/
theorem WellRun.unreleased (h : WellRun arg s) (hp : (s.task t).releases = false) (hkid : Kid s t c) :
    s.released c = false := by
  by_contra hr
  have hrel := (h.released c (Bool.not_eq_false _ ▸ hr)).2.2.2
  rw [hkid.2.1, hp] at hrel
  cases hrel

/-- So it has as many joinable children as it noted, at most. -/
theorem WellRun.kids_le (h : WellRun arg s) (ht : t ≤ s.created) (hp : s.task t = .exiting pc)
    (hnot : (Task.exiting pc).releases = false) :
    Nat.count (Kid s t) (s.created + 1) ≤ (children s.mem.threadTable t).length := by
  have hnot : (s.task t).releases = false := hp ▸ hnot
  rw [Nat.count_eq_card_filter_range, ← List.toFinset_card_of_nodup nodup_children]
  have hentry : ∀ c, Kid s t c → ∃ i ∈ children s.mem.threadTable t, s.roll.Has i c :=
    fun c hc => h.present ht hp hc (h.unreleased hnot hc)
  choose! entry hmem hhas using hentry
  refine Finset.card_le_card_of_injOn entry (fun c hc => ?_) fun c hc d hd he => ?_
  · have hkid := (Finset.mem_filter.mp (Finset.mem_coe.mp hc)).2
    exact List.mem_toFinset.mpr (hmem c hkid)
  · have hkc := (Finset.mem_filter.mp (Finset.mem_coe.mp hc)).2
    have hkd := (Finset.mem_filter.mp (Finset.mem_coe.mp hd)).2
    have htc := (hhas c hkc).2
    have htd := (hhas d hkd).2
    rw [he] at htc
    exact gettid_injective (htc.symm.trans htd)

/-! ## Steps -/

/-- Nothing but the `V` for the creator adds to the semaphore of a thread. -/
theorem semval_create_le {j : Int} {m m' : Mem} {pc : CreatePc} {r : Ctl CreatePc}
    (hkey : m.mutexSemaphore = SEM_KEY) (hm : foothreadCreateAs j t c m pc = some (m', r)) :
    m'.semval (3 + u) ≤ m.semval (3 + u) := by
  have hne : 3 + u ≠ SEM_KEY := by
    rw [SEM_KEY]
    omega
  -- `semctl` sets to zero
  have hzero : ∀ id, Function.update m.semval id 0 (3 + u) ≤ m.semval (3 + u) := by
    intro id
    by_cases hid : 3 + u = id
    · rw [← hid, Function.update_self]
      exact Nat.zero_le _
    · rw [Function.update_of_ne hid]
  cases pc with
  | getSem =>
      simp only [foothreadCreateAs, foothreadCreate] at hm
      split_ifs at hm
      · cases hm
        exact le_rfl
      · cases hm
        exact (Function.update_of_ne hne _ _).le
  | lockOp op =>
      obtain ⟨w, -, rfl, -⟩ := perform_eq_some hm
      rw [hkey]
      exact (Function.update_of_ne hne _ _).le
  | unlockOp op =>
      obtain ⟨w, -, rfl, -⟩ := perform_eq_some hm
      rw [hkey]
      exact (Function.update_of_ne hne _ _).le
  | search i =>
      simp only [foothreadCreateAs, foothreadCreate] at hm
      split_ifs at hm <;> cases hm <;> exact le_rfl
  | ownEntry =>
      cases hm
      exact hzero _
  | setVal i =>
      cases hm
      exact hzero _
  | _ =>
      cases hm
      exact le_rfl

theorem signals_mono (h : ∀ c, Kid s t c → (s.task c).signalled = true →
    Kid s' t c ∧ (s'.task c).signalled = true) (hle : s.created ≤ s'.created) :
    signals s t ≤ signals s' t := by
  unfold signals
  exact (Nat.count_monotone _ (Nat.succ_le_succ hle)).trans
    (Nat.count_mono_left fun c _ hc => h c hc.1 hc.2)

/-- A step takes no signal back. -/
theorem signalled_after (hy : s.task t = y) (hsig : y.signalled = true → x.signalled = true)
    (hc : (s.task c).signalled = true) :
    ((s.after arg t mem released x).task c).signalled = true := by
  by_cases hct : c = t
  · subst hct
    rw [Crew.after_task_self]
    exact hsig (hy ▸ hc)
  · rw [Crew.after_task_ne hct]
    exact hc

theorem signals_after (hy : s.task t = y) (hsig : y.signalled = true → x.signalled = true) :
    signals s u ≤ signals (s.after arg t mem released x) u :=
  signals_mono (fun _ hc hs => ⟨hc, signalled_after hy hsig hs⟩) le_rfl

/-- A step of thread `t`. -/
theorem Joining.advance (h : Joining s) (hy : s.task t = y)
    (hsig : y.signalled = true → x.signalled = true)
    (htokens : ∀ u, mem.semval (3 + u) ≤ signals (s.after id t mem released x) u)
    (hwaits : x.Waits mem.pop)
    (hjoined : x.joined = true → ∀ c, Kid s t c → (s.task c).signalled = true) :
    Joining (s.after id t mem released x) := by
  refine ⟨htokens, fun u => ?_, fun u hu c hc => signalled_after hy hsig ?_⟩
  · show ((s.after id t mem released x).task u).Waits
      (Function.update s.args t ⟨mem.pop, mem.vop⟩ u).pop
    by_cases hut : u = t
    · subst hut
      rw [Crew.after_task_self, Function.update_self]
      exact hwaits
    · rw [Crew.after_task_ne hut, Function.update_of_ne hut]
      exact h.waits u
  · by_cases hut : u = t
    · subst hut
      rw [Crew.after_task_self] at hu
      exact hjoined hu c hc
    · rw [Crew.after_task_ne hut] at hu
      exact h.joined u hu c hc

/-- One that adds to no semaphore of a thread. -/
theorem Joining.move (h : Joining s) (hy : s.task t = y)
    (hsem : ∀ u, mem.semval (3 + u) ≤ s.mem.semval (3 + u))
    (hsig : y.signalled = true → x.signalled = true) (hwaits : x.Waits mem.pop)
    (hjoined : x.joined = true → y.joined = true) : Joining (s.after id t mem released x) := by
  exact h.advance hy hsig (fun u => (hsem u).trans ((h.tokens u).trans (signals_after hy hsig)))
    hwaits fun hx c hc => h.joined t (hy ▸ hjoined hx) c hc

theorem Joining.alike (h : Joining s) (ha : Alike s s') : Joining s' := by
  have hcreated : s'.created = s.created := congrArg Roll.created ha.roll
  have hcreator : s'.creator = s.creator := congrArg Roll.creator ha.roll
  have hjoin : s'.joinType = s.joinType := congrArg Roll.joinType ha.roll
  have hkid : ∀ t c, Kid s' t c ↔ Kid s t c := by
    intro t c
    unfold Kid
    rw [hcreated, hcreator, hjoin]
  refine ⟨fun t => ?_, fun t => ?_, fun t ht c hc => ?_⟩
  · rw [ha.semval]
    refine (h.tokens t).trans (signals_mono (fun c hc hcs => ⟨(hkid t c).mpr hc, ?_⟩) hcreated.ge)
    rw [ha.task]
    exact hcs
  · rw [ha.task, ha.args]
    exact h.waits t
  · rw [ha.task] at ht ⊢
    exact h.joined t ht c ((hkid t c).mp hc)

/-- A new thread has signalled nobody. -/
theorem Joining.spawn {j : Int} {child : Nat} {pc pc' : CreatePc} (h : Joining s)
    (hp : s.task t = .creating j child pc) :
    Joining (s.cloned id t j (.creating j (s.created + 1) pc')) := by
  -- the children of before are children still, and the new one is not past its `V`
  have hkid : ∀ u d, d ≠ s.created + 1 →
      (Kid (s.cloned id t j (.creating j (s.created + 1) pc')) u d ↔ Kid s u d) := by
    intro u d hd
    unfold Kid
    rw [Crew.cloned_creator hd, Crew.cloned_joinType hd, Crew.cloned_created]
    exact and_congr_left fun _ => and_congr_right fun _ => by omega
  have hstill : ∀ d, (s.task d).signalled = true →
      ((s.cloned id t j (.creating j (s.created + 1) pc')).task d).signalled = true := by
    intro d hd
    have hdt : d ≠ t := by
      rintro rfl
      rw [hp] at hd
      cases hd
    rw [Crew.cloned_task_ne hdt]
    exact hd
  refine ⟨fun u => ?_, ?_, fun u hu d hd => ?_⟩
  · refine (h.tokens u).trans (signals_mono (fun d hd hs => ⟨(hkid u d ?_).mpr hd, hstill d hs⟩)
      (Nat.le_succ _))
    have := hd.1.2
    omega
  · rw [Crew.cloned_args]
    exact Crew.cloned_task_forall (q := fun u y => y.Waits (s.args u).pop) trivial fun u _ => h.waits u
  · have hut : u ≠ t := by
      rintro rfl
      rw [Crew.cloned_task_self] at hu
      cases hu
    rw [Crew.cloned_task_ne hut] at hu
    have hne : d ≠ s.created + 1 := by
      rintro rfl
      exact hut (hd.2.1.symm.trans Crew.cloned_creator_new)
    exact hstill d (h.joined u hu d ((hkid u d hne).mp hd))

theorem joining_create {j : Int} {child : Nat} {pc : CreatePc} {r : Ctl CreatePc}
    (h : Joining s) (hw : WellRun id s) (hp : s.task t = .creating j child pc)
    (hm : foothreadCreateAs j t child (s.load id t) pc = some (mem, r)) :
    Joining (s.resumeCreate id t j child (mem, r)) := by
  have hsem : ∀ u, mem.semval (3 + u) ≤ s.mem.semval (3 + u) :=
    fun u => semval_create_le (m := s.load id t) hw.key hm
  obtain ⟨pc', rfl, -⟩ | rfl | ⟨i, rfl, rfl, rfl⟩ | ⟨rfl, rfl, rfl⟩ := create_cases hm
  · exact h.move (x := .creating j child pc') hp hsem nofun trivial nofun
  · exact h.move (x := .idle) hp hsem nofun trivial nofun
  · exact h.spawn hp
  · exact h.alike alike_exit

/-! ## The steps of `foothread_exit` -/

theorem Task.joined_of_releases (h : x.releases = true) : x.joined = true := by
  cases x with
  | exiting pc => cases pc <;> first | rfl | cases h
  | done => rfl
  | _ => cases h

/-- A released thread is past its `V`. -/
theorem Joining.signalled_of_released (h : Joining s) (hw : WellRun id s)
    (hr : s.released c = true) : (s.task c).signalled = true := by
  obtain ⟨hpos, hle, hjoin, hrel⟩ := hw.released c hr
  exact h.joined _ (Task.joined_of_releases hrel) c ⟨⟨hpos, hle⟩, rfl, hjoin⟩

/-- So a thread finds its own entry. -/
theorem Joining.finds (h : Joining s) (hw : WellRun id s) (ht : t ≤ s.created)
    (hp : (s.task t).signalled = false) (hkept : Kept (s.created + 1) s.roll)
    (hi : MAX_THREADS ≤ i) : ¬ ∀ k < i, ¬ s.roll.Has k t := by
  intro hnone
  have hrel : s.released t = false := by
    by_contra hr
    rw [h.signalled_of_released hw (Bool.not_eq_false _ ▸ hr)] at hp
    cases hp
  obtain ⟨k, hk⟩ := hkept.roster.present t (Nat.lt_succ_of_le ht) hrel
  exact hnone k ((hkept.roster.entryOf hk).1.trans_le hi) hk

/-- The `V` for the creator. -/
theorem Joining.signal {op : Int} {w sem : Nat} (h : Joining s) (hw : WellRun id s)
    (ht : t ≤ s.created) (hp : s.task t = .exiting (.signalOp l sem op))
    (hv : semop (s.mem.semval sem) op = some w) :
    Joining (s.after id t ((s.load id t).setSem sem w) s.released (.exiting (.childValid l 0))) := by
  obtain ⟨-, hasks, hsem⟩ := hw.knowsAt hp rfl
  have hsem : sem = 3 + s.creator t := hsem
  have hop : op = 1 := by
    have := hw.op t
    rw [hp] at this
    exact this
  have hfound : l.semaphore ≠ none := by
    rw [hasks.found.semaphore]
    nofun
  refine h.advance hp nofun (fun u => ?_) hfound nofun
  by_cases hu : u = s.creator t
  · -- the thread is one of those that have signalled `u` from now on
    have hkid : Kid s u t := by
      refine ⟨⟨Nat.pos_of_ne_zero ?_, ht⟩, hu.symm, hasks.joinable⟩
      rintro rfl
      exact hasks.creator hw.root.1
    have hle : w ≤ s.mem.semval (3 + u) + 1 := by
      rw [hsem, ← hu, hop, semop, if_pos (by decide)] at hv
      have hv := Option.some.inj hv
      have hone : (1 : Int).toNat = 1 := rfl
      rw [hone] at hv
      split_ifs at hv <;> omega
    have hgain : signals (s.after id t ((s.load id t).setSem sem w) s.released
        (.exiting (.childValid l 0))) u = signals s u + 1 := by
      refine count_gain (i := t) (Nat.lt_succ_of_le ht) (fun c _ hc => ?_) (fun hc => ?_) ⟨hkid, ?_⟩
      · rw [Crew.after_task_ne hc]
        exact Iff.rfl
      · rw [hp] at hc
        cases hc.2
      · rw [Crew.after_task_self]
        rfl
    have htokens := h.tokens u
    have hat : ((s.load id t).setSem sem w).semval (3 + u) = w := by
      rw [hu, ← hsem]
      exact Function.update_self ..
    rw [hat, hgain]
    omega
  · have hne : 3 + u ≠ sem := by omega
    have hat : ((s.load id t).setSem sem w).semval (3 + u) = s.mem.semval (3 + u) :=
      Function.update_of_ne hne _ _
    rw [hat]
    exact (h.tokens u).trans (signals_after hp nofun)

/-- The `P` that waits for the children. -/
theorem Joining.join {op : Int} {w sem : Nat} (h : Joining s) (hw : WellRun id s)
    (ht : t ≤ s.created) (hp : s.task t = .exiting (.joinOp l op)) (hsem : l.semaphore = some sem)
    (hv : semop (s.mem.semval sem) op = some w) :
    Joining (s.after id t ((s.load id t).setSem sem w) s.released (.exiting (.setPopAgain l))) := by
  have hrem := hw.remembers t
  have hwaits := h.waits t
  rw [hp] at hrem hwaits
  obtain ⟨hfound, hchild, hnone⟩ := hrem
  have hat : sem = 3 + t := by
    rcases hfound with hf | hu
    · exact Option.some.inj (hsem.symm.trans hf.semaphore)
    · rw [hu.semaphore] at hsem
      cases hsem
  have hpos : 0 < l.mychild.length := List.length_pos_iff.mpr hnone
  have hneg : (-(-(l.mychild.length : Int))).toNat = l.mychild.length := by omega
  have hlen : l.mychild.length = (children s.mem.threadTable t).length := congrArg List.length hchild
  rw [hwaits.2, semop, if_neg (by omega), if_neg (by omega), hneg, hat] at hv
  split_ifs at hv with henough
  have hv := Option.some.inj hv
  refine h.advance hp (fun _ => rfl) (fun u => ?_) trivial fun _ => ?_
  · refine le_trans ?_ ((h.tokens u).trans (signals_after hp fun _ => rfl))
    by_cases hu : 3 + u = sem
    · have hself : ((s.load id t).setSem sem w).semval (3 + u) = w := by
        rw [hu]
        exact Function.update_self ..
      rw [hself, hu, hat]
      omega
    · exact (Function.update_of_ne hu _ _).le
  · -- as many tokens as noted children, and no more joinable children than those
    have hkids := hw.kids_le ht hp rfl
    have htokens := h.tokens t
    intro c hc
    have hall := of_count_le (p := fun c => Kid s t c ∧ (s.task c).signalled = true) (q := Kid s t)
      (fun _ _ hc => hc.1) (n := s.created + 1) (by unfold signals at htokens; omega)
    exact (hall c (Nat.lt_succ_of_le hc.1.2) hc).2

theorem waits_afterFind {pop : Int} (h : l.semaphore ≠ none) : (afterFind t l).Waits pop := by
  unfold afterFind
  split_ifs
  · trivial
  · exact h

theorem joining_exit (h : Joining s) (hw : WellRun id s) (ht : t ≤ s.created)
    (hp : s.task t = .exiting pc) (hm : foothreadExit t (s.load id t) pc = some (mem, r)) :
    Joining (s.resumeExit id t pc (mem, r)) := by
  have hwaits := h.waits t
  rw [hp] at hwaits
  have hkey : (s.load id t).mutexSemaphore = SEM_KEY := hw.key
  -- a step that changes no semaphore, and one of the mutex
  have hgo : ∀ mem' pc' released', mem'.semval = s.mem.semval →
      (pc.signalled = true → pc'.signalled = true) → pc'.Waits mem'.pop →
      (pc'.joined = true → pc.joined = true) →
      Joining (s.after id t mem' released' (.exiting pc')) :=
    fun mem' pc' released' hsem hsig hwaits' hjoined =>
      h.move hp (fun u => (congrFun hsem (3 + u)).le) hsig hwaits' hjoined
  have hmutex : ∀ w u, ((s.load id t).setSem SEM_KEY w).semval (3 + u) ≤ s.mem.semval (3 + u) := by
    intro w u
    have hne : 3 + u ≠ SEM_KEY := by
      rw [SEM_KEY]
      omega
    exact (Function.update_of_ne hne _ _).le
  cases pc with
  | lockOp op =>
      obtain ⟨w, -, rfl, rfl⟩ := perform_eq_some hm
      rw [hkey]
      exact h.move (x := .exiting (.findValid 0)) hp (hmutex w) (absurd · Bool.false_ne_true) trivial (absurd · Bool.false_ne_true)
  | findValid i =>
      obtain ⟨hkept, hbelow⟩ := hw.knowsAt hp rfl
      simp only [foothreadExit] at hm
      split_ifs at hm with hlt hvalid
      · cases hm
        exact hgo _ _ _ rfl (absurd · Bool.false_ne_true) trivial (absurd · Bool.false_ne_true)
      · cases hm
        exact hgo _ _ _ rfl (absurd · Bool.false_ne_true) trivial (absurd · Bool.false_ne_true)
      · exact absurd hbelow (h.finds hw ht (by rw [hp]; rfl) hkept (Nat.not_lt.mp hlt))
  | findTid i | parentTid l i =>
      simp only [foothreadExit] at hm
      split_ifs at hm <;> cases hm <;> exact hgo _ _ _ rfl (absurd · Bool.false_ne_true) trivial (absurd · Bool.false_ne_true)
  | findParent i j sem =>
      cases hm
      exact hgo _ _ _ rfl (absurd · Bool.false_ne_true) (waits_afterFind (Option.some_ne_none _)) (by unfold afterFind; split_ifs <;> exact (absurd · Bool.false_ne_true))
  | parentValid l i =>
      obtain ⟨-, hasks⟩ := hw.knowsAt hp rfl
      simp only [foothreadExit] at hm
      split_ifs at hm
      · cases hm
        exact hgo _ _ _ rfl (absurd · Bool.false_ne_true) trivial (absurd · Bool.false_ne_true)
      · cases hm
        exact hgo _ _ _ rfl (absurd · Bool.false_ne_true) trivial (absurd · Bool.false_ne_true)
      · cases hm
        refine hgo _ _ _ rfl (absurd · Bool.false_ne_true) ?_ (absurd · Bool.false_ne_true)
        show l.semaphore ≠ none
        rw [hasks.found.semaphore]
        exact Option.some_ne_none _
  | signalOp l sem op =>
      obtain ⟨w, hv, rfl, rfl⟩ := perform_eq_some hm
      exact h.signal hw ht hp hv
  | childValid l i | childParent l i | childJoin l i | childTid l i =>
      simp only [foothreadExit] at hm
      split_ifs at hm <;> cases hm <;> exact hgo _ _ _ rfl (fun _ => rfl) hwaits (absurd · Bool.false_ne_true)
  | unlock l | join l =>
      cases hm
      exact hgo _ _ _ rfl (fun _ => rfl) hwaits (absurd · Bool.false_ne_true)
  | unlockOp l op =>
      have hrem := hw.remembersAt hp
      obtain ⟨w, -, rfl, rfl⟩ := perform_eq_some hm
      rw [hkey]
      by_cases hnone : l.mychild = []
      · simp only [if_pos hnone]
        refine h.advance (x := .exiting (.setPopAgain l)) hp (fun _ => rfl) (fun u =>
          ((hmutex w u).trans (h.tokens u)).trans (signals_after hp fun _ => rfl)) trivial
          fun _ c hc => ?_
        -- none noted, so none created
        have hkids := hw.kids_le ht hp rfl
        have hnil : children s.mem.threadTable t = [] := hrem.2.symm.trans hnone
        rw [hnil] at hkids
        have hpos := count_pos (p := Kid s t) (Nat.lt_succ_of_le hc.1.2) hc
        exact absurd (hpos.trans_le hkids) (Nat.lt_irrefl 0)
      · simp only [if_neg hnone]
        exact h.move (x := .exiting (.setJoin l)) hp (hmutex w) (fun _ => rfl) hwaits (absurd · Bool.false_ne_true)
  | setJoin l =>
      cases hm
      have hrem := hw.remembersAt hp
      refine hgo _ _ _ rfl (fun _ => rfl) ⟨hwaits, toShort_neg ?_⟩ (absurd · Bool.false_ne_true)
      rw [hrem.2.1]
      exact length_children_le
  | joinOp l op =>
      cases hsem : l.semaphore with
      | none => exact absurd hsem hwaits.1
      | some sem =>
          simp only [foothreadExit, hsem] at hm
          obtain ⟨w, hv, rfl, rfl⟩ := perform_eq_some hm
          exact h.join hw ht hp hsem hv
  | lockAgainOp l op =>
      obtain ⟨w, -, rfl, rfl⟩ := perform_eq_some hm
      rw [hkey]
      exact h.move (x := .exiting (.forget _)) hp (hmutex w) (fun _ => rfl) trivial fun _ => rfl
  | forget rest =>
      cases rest with
      | nil =>
          cases hm
          exact hgo _ _ _ rfl (fun _ => rfl) trivial fun _ => rfl
      | cons i rest =>
          cases hm
          exact hgo _ _ _ rfl (fun _ => rfl) trivial fun _ => rfl
  | unlockAgainOp op =>
      obtain ⟨w, -, rfl, rfl⟩ := perform_eq_some hm
      rw [hkey]
      exact h.move (x := .done) hp (hmutex w) (fun _ => rfl) trivial fun _ => rfl
  | setPopAgain l | lockAgain l | unlockAgain =>
      cases hm
      exact hgo _ _ _ rfl (fun _ => rfl) trivial fun _ => rfl
  | _ =>
      cases hm
      exact hgo _ _ _ rfl (absurd · Bool.false_ne_true) trivial (absurd · Bool.false_ne_true)

theorem joining_start : Joining crewStart where
  tokens _ := Nat.zero_le _
  waits _ := trivial
  joined _ h := by cases h

theorem Joining.begin (h : Joining s) (hp : s.task t = .idle) (hx : x.Waits (s.args t).pop)
    (hjoined : x.joined = false) : Joining (s.goto t x) := by
  have hafter : Joining (s.after id t (s.load id t) s.released x) :=
    h.move hp (fun _ => le_rfl) nofun hx (by rw [hjoined]; nofun)
  exact hafter.alike alike_goto

theorem joining_next {a : Nat × Order} (h : Joining s) (hw : WellRun id s)
    (hs : (crewMachine id).next s a = some s') : Joining s' := by
  obtain ⟨ht, hmove⟩ := crewMove_of_next hs
  cases hmove with
  | create joinType hp => exact h.begin hp trivial rfl
  | exit hp _ => exact h.begin hp trivial rfl
  | creating joinType child pc mem r hp hm => exact joining_create h hw hp hm
  | exiting pc mem r hp hm => exact joining_exit h hw ht hp hm

/-- **When `foothread_exit` returns**, each joinable thread that the caller created is in its
`foothread_exit`, past the place where it signals its creator, or has returned from it. -/
theorem exit_joins (h : (crewMachine id).Reachable s) (ht : s.task t = .done) (hc : Kid s t c) :
    (s.task c).signalled = true := by
  have hjoining : Joining s := by
    apply h.invariant_of (J := WellRun id)
    · exact fun s hs => wellRun hs
    · rintro s rfl
      exact joining_start
    · exact fun s a s' hw hI _ hs => joining_next hI hw hs
  exact hjoining.joined t (by rw [ht]; rfl) c hc

/-- Main creates thread `1`, which creates thread `2` and comes to wait for it in `foothread_exit`; main
calls `foothread_exit` and returns. -/
def untilMainReturns : List (Nat × Order) :=
  List.replicate 17 (0, .create FOOTHREAD_JOINABLE) ++ List.replicate 18 (1, .create FOOTHREAD_JOINABLE)
    ++ List.replicate 75 (1, .exit) ++ List.replicate 80 (0, .exit)

theorem main_returns : ∃ s, (crewMachine id).Reachable s ∧ s.created = 2
    ∧ s.joinType 1 = FOOTHREAD_JOINABLE ∧ s.joinType 2 = FOOTHREAD_JOINABLE ∧ s.creator 1 = 0
    ∧ s.creator 2 = 1 ∧ s.task 0 = .done ∧ s.task 1 ≠ .done ∧ s.task 2 = .idle := by
  obtain ⟨s, hs, hp⟩ := Machine.exists_reachable_of_exec (M := crewMachine id) (s := crewStart)
    (l := untilMainReturns)
    (p := fun s => decide (s.created = 2 ∧ s.joinType 1 = FOOTHREAD_JOINABLE
      ∧ s.joinType 2 = FOOTHREAD_JOINABLE ∧ s.creator 1 = 0 ∧ s.creator 2 = 1 ∧ s.task 0 = .done
      ∧ s.task 1 ≠ .done ∧ s.task 2 = .idle))
    rfl (by decide +kernel)
  exact ⟨s, hs, of_decide_eq_true hp⟩

theorem exit_joins_run : ∃ s, (crewMachine id).Reachable s ∧ s.task 0 = .done ∧ Kid s 0 1
    ∧ (s.task 1).signalled = true := by
  obtain ⟨s, hs, hcreated, hjoin, -, hcreator, -, hdone, -⟩ := main_returns
  have hkid : Kid s 0 1 := ⟨⟨Nat.one_pos, by omega⟩, hcreator, hjoin⟩
  exact ⟨s, hs, hdone, hkid, exit_joins hs hdone hkid⟩

/-- **But it may not have returned.** Main's `foothread_exit` returns while its one child waits for a
thread of its own, which has not called `foothread_exit` yet. All threads are joinable. -/
theorem exit_before_children :
    (∃ s, (crewMachine id).Reachable s ∧ s.task 0 = .done ∧ Kid s 0 1 ∧ s.task 1 ≠ .done
        ∧ Kid s 1 2 ∧ s.task 2 = .idle)
      ∧ ¬ ∀ s, (crewMachine id).Reachable s → s.created ≤ 49 →
        (∀ c, 0 < c → c ≤ s.created → s.joinType c = FOOTHREAD_JOINABLE) →
        ∀ t c, s.task t = .done → Kid s t c → s.task c = .done := by
  obtain ⟨s, hs, hcreated, hone, htwo, hmain, hchild, hdone, hnot, hidle⟩ := main_returns
  have hkid : Kid s 0 1 := ⟨⟨Nat.one_pos, by omega⟩, hmain, hone⟩
  refine ⟨⟨s, hs, hdone, hkid, hnot, ⟨⟨Nat.two_pos, hcreated.ge⟩, hchild, htwo⟩, hidle⟩,
    fun hall => ?_⟩
  have hjoinable : ∀ c, 0 < c → c ≤ s.created → s.joinType c = FOOTHREAD_JOINABLE := by
    intro c hpos hle
    obtain rfl | rfl : c = 1 ∨ c = 2 := by omega
    · exact hone
    · exact htwo
  exact hnot (hall s hs (by omega) hjoinable 0 1 hdone hkid)

end OSLab.Foothread
