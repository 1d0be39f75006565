import OSLab.Jobs.Targets

set_option autoImplicit false

/-! # The statuses in the table when the manager is at its prompt

The loop works on one entry at a time: the one it has made for a new job, or a suspended one that
`c` or `k` has picked (`State.busy`). Every store of the loop goes to that entry, and the loop does
not let go of it while it reads `RUNNING` (`Turn`). A handler stores to the entry at
`currentJobIndex`, and only if that entry reads `RUNNING`, so it is the one in work as well, or
slot 0. All this is independent of where between two statements a handler runs.

A status that is final at one prompt is therefore never touched again: to be taken up, the entry
would have to be new or `SUSPENDED`.
-/

namespace OSLab.Jobs

/-- `fork()` does not fail. -/
def ForkSucceeds (_ : State) (a : Label) : Prop := a ≠ .fork none

instance (s : State) (a : Label) : Decidable (ForkSucceeds s a) :=
  inferInstanceAs (Decidable (a ≠ .fork none))

/-- `FINISHED`, `TERMINATED` and `KILLED`. -/
def Status.final : Status → Bool
  | .finished | .terminated | .killed => true
  | .running | .suspended => false

/-- The entry that the next statement stores to. -/
def State.store (s : State) : Option Nat :=
  match s.frames with
  | ⟨_, .mark⟩ :: _ => some s.currentJobIndex
  | _ :: _ => none
  | [] =>
      match s.pc with
      | .setPid | .setStatus => some 0
      | .storePid _ | .storeStatus _ | .finish _ => some s.currentJobIndex
      | .setRunning i | .setKilled i => some i
      | _ => none

/-- The entry that the command loop works on. -/
def State.busy (s : State) : Option Nat :=
  match s.pc with
  | .setPid | .setStatus => some 0
  | .setCurrent => some s.totalJobs
  | .fork | .storePid _ | .storeStatus _ | .waitSpawn _ | .check _ | .finish _ =>
      some s.currentJobIndex
  | .setRunning i | .contCurrent i | .killCont i | .waitCont i | .killJob i | .setKilled i => some i
  | _ => none

variable {s s' : State} {own i : Nat}

theorem busy_of_store (hf : s.frames = []) (h : s.store = some i) : s.busy = some i := by
  unfold State.store at h
  rw [hf] at h
  unfold State.busy
  cases hpc : s.pc <;> simp only [hpc, reduceCtorEq] at h ⊢ <;> exact h

/-! ## The bounds of the table -/

/-- What the place of the loop says about the two counters and the entry at hand. -/
def Stage (s : State) : Prop :=
  match s.pc with
  | .incTotal => s.totalJobs < MAX_JOBS
  | .setCurrent => s.totalJobs ≠ 0 ∧ (s.PT s.totalJobs).pid = 0
  | .fork | .storePid _ => s.currentJobIndex ≠ 0 ∧ s.current.pid = 0
  | .storeStatus pid => s.currentJobIndex ≠ 0 ∧ s.current.pid = pid
  | .setRunning i | .contCurrent i | .killJob i | .setKilled i => i ≤ s.totalJobs
  | .killCont i | .waitCont i => s.currentJobIndex = i
  | _ => True

/-- The table is used up to `totalJobs`, and beyond it is as it was at the start. -/
structure Table (s : State) : Prop where
  total : s.totalJobs ≤ MAX_JOBS
  current : s.currentJobIndex ≤ s.totalJobs
  fresh : ∀ i, s.totalJobs < i → s.PT i = ⟨0, .running⟩
  stage : Stage s

theorem table_start : Table (start own) where
  total := Nat.zero_le _
  current := Nat.le_refl _
  fresh _ _ := rfl
  stage := trivial

/-- The loop moves on. -/
theorem Table.goto (h : Table s) (pc : Pc) (hst : Stage (s.goto pc)) : Table (s.goto pc) :=
  ⟨h.total, h.current, h.fresh, hst⟩

/-- An entry that is in use is stored to. -/
theorem Table.write (h : Table s) (hi : i ≤ s.totalJobs) (e : ProcessTableEntry) (pc : Pc)
    (hst : Stage { s with PT := Function.update s.PT i e, pc := pc }) :
    Table { s with PT := Function.update s.PT i e, pc := pc } where
  total := h.total
  current := h.current
  fresh j hj := by
    have hne : j ≠ i := by
      rintro rfl
      exact absurd hj (Nat.not_lt.mpr hi)
    exact (Function.update_of_ne hne _ _).trans (h.fresh j hj)
  stage := hst

theorem Table.wait (h : Table s) {pid : Nat} {after : Bool → Pc}
    (hs : waitpid s pid after = some s') (hst : ∀ (s : State) e, Stage (s.goto (after e))) :
    Table s' := by
  obtain ⟨e, he⟩ := waitpid_eq_some hs
  rw [he]
  exact ⟨h.total, h.current, h.fresh, hst { s with child := s'.child } e⟩

/-- The store of a handler, which the loop's place does not depend on. -/
theorem Table.mark (h : Table s) (status : Status) :
    Table (s.setStatus s.currentJobIndex status) := by
  have hpid : ∀ j, ((s.setStatus s.currentJobIndex status).PT j).pid = (s.PT j).pid :=
    fun j => setStatus_pid s _ j status
  refine h.write h.current _ s.pc ?_
  have hst := h.stage
  show Stage { s.setStatus s.currentJobIndex status with pc := s.pc }
  unfold Stage at hst ⊢
  cases hpc : s.pc <;> simp only [hpc] at hst ⊢ <;> try exact hst
  case setCurrent => exact ⟨hst.1, (hpid _).trans hst.2⟩
  all_goals exact ⟨hst.1, (hpid _).trans hst.2⟩

theorem handler_table (h : Table s) (hs : handlerStep s = some s') : Table s' := by
  obtain ⟨g, fs, -, rfl⟩ | ⟨g, fs, -, rfl⟩ | ⟨g, fs, -, rfl⟩ := handlerStep_eq_some hs
  · exact ⟨h.total, h.current, h.fresh, h.stage⟩
  · have hm := h.mark g.status
    exact ⟨hm.total, hm.current, hm.fresh, hm.stage⟩
  · exact ⟨h.total, h.current, h.fresh, h.stage⟩

theorem main_table (h : Table s) (hs : mainStep s = some s') : Table s' := by
  have hst := h.stage
  unfold mainStep at hs
  unfold Stage at hst
  cases hpc : s.pc <;> simp only [hpc, Option.some.injEq, reduceCtorEq] at hs hst
  case setPid => exact hs ▸ h.write (Nat.zero_le _) _ .setStatus trivial
  case setStatus => exact hs ▸ h.write (Nat.zero_le _) _ .prompt trivial
  case incTotal =>
    subst hs
    refine ⟨hst, Nat.le_succ_of_le h.current, fun i hi => h.fresh i (Nat.lt_of_succ_lt hi), ?_⟩
    exact ⟨Nat.succ_ne_zero _, congrArg ProcessTableEntry.pid (h.fresh _ (Nat.lt_succ_self _))⟩
  case setCurrent => exact hs ▸ ⟨h.total, Nat.le_refl _, h.fresh, hst⟩
  case storePid pid =>
    refine hs ▸ h.write h.current _ (.storeStatus pid) ⟨hst.1, ?_⟩
    show (Function.update s.PT s.currentJobIndex _ s.currentJobIndex).pid = pid
    rw [Function.update_self]
  case storeStatus pid => exact hs ▸ h.write h.current _ (.waitSpawn pid) trivial
  case waitSpawn pid => exact h.wait hs fun _ _ => trivial
  case check e =>
    subst hs
    split
    · exact h.goto (.finish e) trivial
    · exact h.goto .prompt trivial
  case finish e => exact hs ▸ h.write h.current _ .prompt trivial
  case list c i found =>
    split at hs <;> cases hs
    · exact h.goto _ trivial
    · cases found with
      | false => exact h.goto .prompt trivial
      | true => exact h.goto (.choose c) trivial
  case setRunning i => exact hs ▸ h.write hst _ (.contCurrent i) hst
  case contCurrent i => exact hs ▸ ⟨h.total, hst, h.fresh, rfl⟩
  case killCont i => exact hs ▸ h.goto (.waitCont i) hst
  case waitCont i => exact h.wait hs fun _ _ => trivial
  case killJob i =>
    subst hs
    unfold State.afterKill
    split
    · exact h.goto .exited trivial
    · exact h.goto (.setKilled i) hst
  case setKilled i => exact hs ▸ h.write hst _ (.waitKilled i) trivial
  case waitKilled i => exact h.wait hs fun _ _ => trivial
  case cleanup i =>
    split at hs
    · split at hs <;> cases hs
      · exact h.goto _ trivial
      · exact h.goto _ trivial
    · cases hs
      exact h.goto .exited trivial
  case killCleanup i =>
    subst hs
    unfold State.afterKill
    split
    · exact h.goto .exited trivial
    · exact h.goto _ trivial

theorem command_table (h : Table s) {userInput : Char} (hs : commandStep s userInput = some s') :
    Table s' := by
  obtain ⟨-, rfl | ⟨hlt, rfl⟩ | rfl | ⟨c, rfl⟩ | rfl⟩ := commandStep_eq_some hs
  · exact h.goto .prompt trivial
  · exact h.goto .incTotal hlt
  · exact h.goto .exited trivial
  · exact h.goto _ trivial
  · exact h.goto _ trivial

theorem choose_table (h : Table s) {k : Int} (hs : chooseStep s k = some s') : Table s' := by
  obtain ⟨c, -, rfl | ⟨hk, -, rfl | rfl⟩⟩ := chooseStep_eq_some hs
  · exact h.goto .prompt trivial
  · exact h.goto _ hk
  · exact h.goto _ hk

theorem fork_table (h : Table s) {pid : Option Nat} (hs : forkStep s pid = some s') :
    Table s' := by
  have hst := h.stage
  obtain ⟨hpc, ⟨-, rfl⟩ | ⟨p, -, -, rfl⟩⟩ := forkStep_eq_some hs
  · exact h.goto .prompt trivial
  · unfold Stage at hst
    rw [hpc] at hst
    exact ⟨h.total, h.current, h.fresh, hst⟩

/-- Every step keeps the bounds of the table. -/
theorem table_step {a : Label} (h : Table s) (hs : (machine own).next s a = some s') :
    Table s' := by
  have hm : Moves s a s' := moves_of_next hs
  cases a with
  | main => exact main_table h hm.2
  | command userInput => exact command_table h hm.2
  | choose k => exact choose_table h hm.2
  | fork pid => exact fork_table h hm.2
  | signal g =>
      obtain ⟨-, rfl⟩ := hm
      exact ⟨h.total, h.current, h.fresh, h.stage⟩
  | handler => exact handler_table h hm.2
  | job p e =>
      obtain ⟨c, c', -, -, rfl⟩ := hm
      exact ⟨h.total, h.current, h.fresh, h.stage⟩

theorem table {ok : State → Label → Prop} (h : (machine own).ReachableWhen ok s) : Table s := by
  refine h.invariant ?_ ?_
  · rintro s rfl
    exact table_start
  · intro s a s' hi _ hs
    exact table_step hi hs

/-! ## Turns of the command loop -/

/-- What a step of the command loop does to the table, seen from the entry in work. -/
structure Turn (s s' : State) : Prop where
  frames : s.frames = [] ∧ s'.frames = []
  table : ∀ i, s.store ≠ some i → s'.PT i = s.PT i
  /-- An entry is taken up when it is new or reads `SUSPENDED`. -/
  taken : ∀ i, s'.busy = some i →
    s.busy = some i ∨ s.totalJobs < i ∨ (s.PT i).status = .suspended
  /-- No job's entry is left that reads `RUNNING`. -/
  left : ∀ i, i ≠ 0 → s.busy = some i → (s'.PT i).status = .running →
    s'.busy = some i ∨ s'.pc = .exited
  total : s'.totalJobs = s.totalJobs
    ∨ (s'.totalJobs = s.totalJobs + 1 ∧ s'.busy = some s'.totalJobs)

/-- The loop keeps working on the same entry, or on none. -/
theorem Turn.keep (hf : s.frames = []) (hf' : s'.frames = [])
    (ht : ∀ i, s.store ≠ some i → s'.PT i = s.PT i) (hb : s'.busy = s.busy)
    (hn : s'.totalJobs = s.totalJobs) : Turn s s' where
  frames := ⟨hf, hf'⟩
  table := ht
  taken _ hi := Or.inl (hb ▸ hi)
  left _ _ hi _ := Or.inl (hb.trans hi)
  total := Or.inl hn

/-- The loop lets go of its entry, which does not read `RUNNING` any more. -/
theorem Turn.release (hf : s.frames = []) (hf' : s'.frames = [])
    (ht : ∀ i, s.store ≠ some i → s'.PT i = s.PT i) (hb : s'.busy = none)
    (hl : ∀ i, i ≠ 0 → s.busy = some i → (s'.PT i).status ≠ .running ∨ s'.pc = .exited)
    (hn : s'.totalJobs = s.totalJobs) : Turn s s' where
  frames := ⟨hf, hf'⟩
  table := ht
  taken i hi := by
    rw [hb] at hi
    cases hi
  left i h0 hi hr := (hl i h0 hi).elim (fun h => absurd hr h) Or.inr
  total := Or.inl hn

/-- After a status is stored, the other entries are as they were. -/
theorem setStatus_PT_of_ne (s : State) (status : Status) {i j : Nat} (h : some i ≠ some j) :
    (s.setStatus i status).PT j = s.PT j :=
  Function.update_of_ne (fun he => h (congrArg some he.symm)) _ _

theorem setPid_PT_of_ne (s : State) (pid : Nat) {i j : Nat} (h : some i ≠ some j) :
    (s.setPid i pid).PT j = s.PT j :=
  Function.update_of_ne (fun he => h (congrArg some he.symm)) _ _

/-- `waitpid` moves on within the work on one entry. -/
theorem Turn.wait (hf : s.frames = []) {pid : Nat} {after : Bool → Pc}
    (hs : waitpid s pid after = some s') (hb : ∀ e, (s.goto (after e)).busy = s.busy) :
    Turn s s' := by
  obtain ⟨e, he⟩ := waitpid_eq_some hs
  rw [he]
  exact Turn.keep hf hf (fun _ _ => rfl) (hb e) rfl

theorem main_turn (h : Table s) (hf : s.frames = []) (hs : mainStep s = some s') : Turn s s' := by
  have hst := h.stage
  unfold mainStep at hs
  unfold Stage at hst
  cases hpc : s.pc <;> simp only [hpc, Option.some.injEq, reduceCtorEq] at hs hst
  case setPid =>
    have hw : s.store = some 0 := by simp [State.store, hf, hpc]
    refine hs ▸ Turn.keep hf hf (fun j hj => ?_) (by simp [State.busy, State.goto, hpc]) rfl
    rw [hw] at hj
    exact setPid_PT_of_ne s s.own hj
  case setStatus =>
    have hw : s.store = some 0 := by simp [State.store, hf, hpc]
    have hb : s.busy = some 0 := by simp [State.busy, hpc]
    refine hs ▸ Turn.release hf hf (fun j hj => ?_) rfl (fun j h0 hj => ?_) rfl
    · rw [hw] at hj
      exact setStatus_PT_of_ne s .running hj
    · exact absurd (Option.some.inj (hb.symm.trans hj)).symm h0
  case incTotal =>
    have hb : s.busy = none := by simp [State.busy, hpc]
    subst hs
    refine ⟨⟨hf, hf⟩, fun _ _ => rfl, fun j hj => ?_, fun j _ hj => ?_, Or.inr ⟨rfl, rfl⟩⟩
    · have hj : s.totalJobs + 1 = j := Option.some.inj hj
      exact Or.inr (Or.inl (hj ▸ Nat.lt_succ_self _))
    · rw [hb] at hj
      cases hj
  case setCurrent =>
    exact hs ▸ Turn.keep hf hf (fun _ _ => rfl) (by simp [State.busy, State.goto, hpc]) rfl
  case storePid pid =>
    have hw : s.store = some s.currentJobIndex := by simp [State.store, hf, hpc]
    refine hs ▸ Turn.keep hf hf (fun j hj => ?_)
      (by simp [State.busy, State.goto, State.setPid, hpc]) rfl
    rw [hw] at hj
    exact setPid_PT_of_ne s pid hj
  case storeStatus pid =>
    have hw : s.store = some s.currentJobIndex := by simp [State.store, hf, hpc]
    refine hs ▸ Turn.keep hf hf (fun j hj => ?_)
      (by simp [State.busy, State.goto, State.setStatus, hpc]) rfl
    rw [hw] at hj
    exact setStatus_PT_of_ne s .running hj
  case waitSpawn pid => exact Turn.wait hf hs fun e => by simp [State.busy, State.goto, hpc]
  case check e =>
    have hb : s.busy = some s.currentJobIndex := by simp [State.busy, hpc]
    subst hs
    split
    · exact Turn.keep hf hf (fun _ _ => rfl) (by simp [State.busy, State.goto, hpc]) rfl
    · rename_i hne
      refine Turn.release hf hf (fun _ _ => rfl) rfl (fun j _ hj => Or.inl ?_) rfl
      obtain rfl : s.currentJobIndex = j := Option.some.inj (hb.symm.trans hj)
      exact hne
  case finish e =>
    have hw : s.store = some s.currentJobIndex := by simp [State.store, hf, hpc]
    have hb : s.busy = some s.currentJobIndex := by simp [State.busy, hpc]
    refine hs ▸ Turn.release hf hf (fun j hj => ?_) rfl (fun j _ hj => Or.inl ?_) rfl
    · rw [hw] at hj
      exact setStatus_PT_of_ne s .finished hj
    · obtain rfl : s.currentJobIndex = j := Option.some.inj (hb.symm.trans hj)
      exact fun he => absurd ((setStatus_status_self s _ .finished).symm.trans he) (by simp)
  case list c i found =>
    have hb : s.busy = none := by simp [State.busy, hpc]
    split at hs <;> cases hs
    · exact Turn.keep hf hf (fun _ _ => rfl) hb.symm rfl
    · cases found <;> exact Turn.keep hf hf (fun _ _ => rfl) hb.symm rfl
  case setRunning i =>
    have hw : s.store = some i := by simp [State.store, hf, hpc]
    refine hs ▸ Turn.keep hf hf (fun j hj => ?_) (by simp [State.busy, State.goto, hpc]) rfl
    rw [hw] at hj
    exact setStatus_PT_of_ne s .running hj
  case contCurrent i =>
    exact hs ▸ Turn.keep hf hf (fun _ _ => rfl) (by simp [State.busy, State.goto, hpc]) rfl
  case killCont i =>
    exact hs ▸ Turn.keep hf hf (fun _ _ => rfl) (by simp [State.busy, State.goto, hpc]) rfl
  case waitCont i => exact Turn.wait hf hs fun e => by simp [State.busy, State.goto, hpc, hst]
  case killJob i =>
    subst hs
    unfold State.afterKill
    split
    · exact Turn.release hf hf (fun _ _ => rfl) rfl (fun _ _ _ => Or.inr rfl) rfl
    · exact Turn.keep hf hf (fun _ _ => rfl) (by simp [State.busy, State.goto, hpc]) rfl
  case setKilled i =>
    have hw : s.store = some i := by simp [State.store, hf, hpc]
    have hb : s.busy = some i := by simp [State.busy, hpc]
    refine hs ▸ Turn.release hf hf (fun j hj => ?_) rfl (fun j _ hj => Or.inl ?_) rfl
    · rw [hw] at hj
      exact setStatus_PT_of_ne s .killed hj
    · obtain rfl : i = j := Option.some.inj (hb.symm.trans hj)
      exact fun he => absurd ((setStatus_status_self s _ .killed).symm.trans he) (by simp)
  case waitKilled i => exact Turn.wait hf hs fun e => by simp [State.busy, State.goto, hpc]
  case cleanup i =>
    have hb : s.busy = none := by simp [State.busy, hpc]
    split at hs
    · split at hs <;> cases hs <;> exact Turn.keep hf hf (fun _ _ => rfl) hb.symm rfl
    · cases hs
      exact Turn.keep hf hf (fun _ _ => rfl) hb.symm rfl
  case killCleanup i =>
    have hb : s.busy = none := by simp [State.busy, hpc]
    subst hs
    unfold State.afterKill
    split <;> exact Turn.keep hf hf (fun _ _ => rfl) hb.symm rfl

theorem command_turn (hf : s.frames = []) {userInput : Char}
    (hs : commandStep s userInput = some s') : Turn s s' := by
  obtain ⟨hpc, hs⟩ := commandStep_eq_some hs
  have hb : s.busy = none := by simp [State.busy, hpc]
  obtain rfl | ⟨-, rfl⟩ | rfl | ⟨c, rfl⟩ | rfl := hs
  all_goals exact Turn.keep hf hf (fun _ _ => rfl) hb.symm rfl

theorem choose_turn (hf : s.frames = []) {k : Int} (hs : chooseStep s k = some s') :
    Turn s s' := by
  obtain ⟨c, hpc, hs⟩ := chooseStep_eq_some hs
  have hb : s.busy = none := by simp [State.busy, hpc]
  rcases hs with rfl | ⟨-, hst, hk⟩
  · exact Turn.keep hf hf (fun _ _ => rfl) hb.symm rfl
  · -- the entry picked reads `SUSPENDED`
    have htaken : ∀ j, some k.toNat = some j → (s.PT j).status = .suspended := by
      intro j hj
      exact Option.some.inj hj ▸ hst
    have hleft : ∀ j, s.busy ≠ some j := by simp [hb]
    rcases hk with rfl | rfl
    all_goals exact ⟨⟨hf, hf⟩, fun _ _ => rfl, fun j hj => Or.inr (Or.inr (htaken j hj)),
      fun j _ hj => absurd hj (hleft j), Or.inl rfl⟩

theorem fork_turn (hf : s.frames = []) {pid : Option Nat} (hok : pid ≠ none)
    (hs : forkStep s pid = some s') : Turn s s' := by
  obtain ⟨hpc, ⟨hn, -⟩ | ⟨p, -, -, rfl⟩⟩ := forkStep_eq_some hs
  · exact absurd hn hok
  · exact Turn.keep hf hf (fun _ _ => rfl) (by simp [State.busy, hpc]) rfl

/-- **One step**, the fork succeeding: a turn of the loop, a statement of a handler, a signal, or
a move of a job. -/
theorem next_cases {a : Label} (h : Table s) (hok : ForkSucceeds s a)
    (hs : (machine own).next s a = some s') :
    (s.pc ≠ .exited ∧ Turn s s') ∨ (s.pc ≠ .exited ∧ handlerStep s = some s')
      ∨ (∃ g, s' = { s with frames := ⟨g, .test⟩ :: s.frames })
      ∨ ∃ child, s' = { s with child := child } := by
  have hm : Moves s a s' := moves_of_next hs
  cases a with
  | main =>
      refine Or.inl ⟨fun hx => ?_, main_turn h hm.1 hm.2⟩
      simp [Moves, mainStep, hx] at hm
  | command userInput =>
      refine Or.inl ⟨fun hx => ?_, command_turn hm.1 hm.2⟩
      simp [Moves, commandStep, hx] at hm
  | choose k =>
      refine Or.inl ⟨fun hx => ?_, choose_turn hm.1 hm.2⟩
      simp [Moves, chooseStep, hx] at hm
  | fork pid =>
      refine Or.inl ⟨fun hx => ?_, fork_turn hm.1 (fun hn => hok (hn ▸ rfl)) hm.2⟩
      simp [Moves, forkStep, hx] at hm
  | signal g => exact Or.inr (Or.inr (Or.inl ⟨g, hm.2⟩))
  | handler => exact Or.inr (Or.inl hm)
  | job p e =>
      obtain ⟨c, c', -, -, rfl⟩ := hm
      exact Or.inr (Or.inr (Or.inr ⟨_, rfl⟩))

/-! ## No entry but the one in work reads `RUNNING` -/

structure Quiet (s : State) : Prop where
  running : ∀ i, i ≠ 0 → i ≤ s.totalJobs → (s.PT i).status = .running →
    s.busy = some i ∨ s.pc = .exited
  /-- A handler that has passed its test stores to slot 0 or to the entry in work. -/
  frames : ∀ f ∈ s.frames, f.pc = .mark →
    s.currentJobIndex = 0 ∨ s.busy = some s.currentJobIndex

theorem quiet_start : Quiet (start own) where
  running i h0 hi := absurd (Nat.le_zero.mp hi) h0
  frames f hf := by simp [start] at hf

theorem Quiet.turn (h : Quiet s) (hx : s.pc ≠ .exited) (ht : Turn s s') : Quiet s' where
  running i h0 hi hr := by
    by_cases hb : s.busy = some i
    · exact ht.left i h0 hb hr
    · -- an entry that was not in work is as it was
      rw [ht.table i fun hw => hb (busy_of_store ht.frames.1 hw)] at hr
      have hold : ¬ i ≤ s.totalJobs := fun hle => (h.running i h0 hle hr).elim hb hx
      rcases ht.total with hn | ⟨hn, hnew⟩
      · exact absurd (hn ▸ hi) hold
      · have hi : i = s'.totalJobs := by omega
        exact Or.inl (hi ▸ hnew)
  frames f hf := by
    rw [ht.frames.2] at hf
    cases hf

theorem Quiet.handler (h : Quiet s) (ht : Table s) (hx : s.pc ≠ .exited)
    (hs : handlerStep s = some s') : Quiet s' := by
  obtain ⟨g, fs, hf, rfl⟩ | ⟨g, fs, hf, rfl⟩ | ⟨g, fs, hf, rfl⟩ := handlerStep_eq_some hs
  · refine ⟨h.running, fun f hm hpc => ?_⟩
    by_cases hr : s.current.status = .running
    · -- the test is passed
      by_cases h0 : s.currentJobIndex = 0
      · exact Or.inl h0
      · exact Or.inr ((h.running _ h0 ht.current hr).resolve_right hx)
    · rw [if_neg hr] at hm
      exact h.frames f (hf ▸ List.mem_cons_of_mem _ hm) hpc
  · have hg : g.status ≠ .running := by cases g <;> simp [Signo.status]
    refine ⟨fun i h0 hi hr => ?_, fun f hm hpc => ?_⟩
    · have hne : i ≠ s.currentJobIndex := by
        rintro rfl
        exact hg ((setStatus_status_self s _ g.status).symm.trans hr)
      exact h.running i h0 hi ((setStatus_status_ne s g.status hne).symm.trans hr)
    · rcases List.mem_cons.mp hm with rfl | hm
      · cases hpc
      · exact h.frames f (hf ▸ List.mem_cons_of_mem _ hm) hpc
  · exact ⟨h.running, fun f hm => h.frames f (hf ▸ List.mem_cons_of_mem _ hm)⟩

theorem quiet_step {a : Label} (h : Quiet s) (ht : Table s) (hok : ForkSucceeds s a)
    (hs : (machine own).next s a = some s') : Quiet s' := by
  rcases next_cases ht hok hs with ⟨hx, ht⟩ | ⟨hx, hs⟩ | ⟨g, rfl⟩ | ⟨child, rfl⟩
  · exact h.turn hx ht
  · exact h.handler ht hx hs
  · refine ⟨h.running, fun f hm hpc => ?_⟩
    rcases List.mem_cons.mp hm with rfl | hm
    · cases hpc
    · exact h.frames f hm hpc
  · exact ⟨h.running, h.frames⟩

theorem quiet (h : (machine own).ReachableWhen ForkSucceeds s) : Quiet s := by
  refine h.invariant_of (fun _ => table) ?_ ?_
  · rintro s rfl
    exact quiet_start
  · intro s a s' ht hq hok hs
    exact quiet_step hq ht hok hs

/-! ## A final status stays -/

/-- Entry `i` is in use with a final status, and neither the loop nor a handler works on it. -/
structure Rests (i : Nat) (status : Status) (s : State) : Prop where
  status : (s.PT i).status = status
  used : i ≤ s.totalJobs
  free : s.busy ≠ some i
  frames : ∀ f ∈ s.frames, f.pc = .mark → s.currentJobIndex ≠ i

variable {status : Status}

/-- At the prompt a final entry rests; slot 0 does if no handler is halfway. -/
theorem Quiet.rests (h : Quiet s) (ht : Table s) (hpc : s.pc = .prompt)
    (h0 : i = 0 → s.frames = []) (hfin : (s.PT i).status.final = true) :
    Rests i (s.PT i).status s := by
  have hb : s.busy = none := by simp [State.busy, hpc]
  refine ⟨rfl, ?_, by simp [hb], fun f hm hf hc => ?_⟩
  · by_contra hi
    rw [ht.fresh i (Nat.lt_of_not_le hi)] at hfin
    cases hfin
  · rcases h.frames f hm hf with hz | hz
    · rw [h0 (hc.symm.trans hz)] at hm
      cases hm
    · rw [hb] at hz
      cases hz

theorem Rests.turn (h : Rests i status s) (hfin : status.final = true) (ht : Turn s s') :
    Rests i status s' where
  status := by
    rw [ht.table i fun hw => h.free (busy_of_store ht.frames.1 hw)]
    exact h.status
  used := by
    have := h.used
    rcases ht.total with hn | ⟨hn, -⟩ <;> omega
  free hb := by
    rcases ht.taken i hb with hb | hi | hsus
    · exact h.free hb
    · exact absurd h.used (Nat.not_le_of_lt hi)
    · rw [h.status] at hsus
      rw [hsus] at hfin
      cases hfin
  frames f hm := by
    rw [ht.frames.2] at hm
    cases hm

theorem Rests.handler (h : Rests i status s) (hfin : status.final = true)
    (hs : handlerStep s = some s') : Rests i status s' := by
  obtain ⟨g, fs, hf, rfl⟩ | ⟨g, fs, hf, rfl⟩ | ⟨g, fs, hf, rfl⟩ := handlerStep_eq_some hs
  · refine ⟨h.status, h.used, h.free, fun f hm hpc hc => ?_⟩
    have hc : s.currentJobIndex = i := hc
    by_cases hr : s.current.status = .running
    · -- an entry that reads `RUNNING` has no final status
      rw [State.current, hc, h.status] at hr
      rw [hr] at hfin
      cases hfin
    · rw [if_neg hr] at hm
      exact h.frames f (hf ▸ List.mem_cons_of_mem _ hm) hpc hc
  · have hne : i ≠ s.currentJobIndex :=
      (h.frames ⟨g, .mark⟩ (hf ▸ List.mem_cons_self) rfl).symm
    refine ⟨(setStatus_status_ne s g.status hne).trans h.status, h.used, h.free, fun f hm => ?_⟩
    rcases List.mem_cons.mp hm with rfl | hm
    · intro hpc
      cases hpc
    · exact h.frames f (hf ▸ List.mem_cons_of_mem _ hm)
  · exact ⟨h.status, h.used, h.free, fun f hm => h.frames f (hf ▸ List.mem_cons_of_mem _ hm)⟩

theorem rests_step {a : Label} (h : Rests i status s) (hfin : status.final = true) (ht : Table s)
    (hok : ForkSucceeds s a) (hs : (machine own).next s a = some s') : Rests i status s' := by
  rcases next_cases ht hok hs with ⟨-, ht⟩ | ⟨-, hs⟩ | ⟨g, rfl⟩ | ⟨child, rfl⟩
  · exact h.turn hfin ht
  · exact h.handler hfin hs
  · refine ⟨h.status, h.used, h.free, fun f hm => ?_⟩
    rcases List.mem_cons.mp hm with rfl | hm
    · intro hpc
      cases hpc
    · exact h.frames f hm
  · exact ⟨h.status, h.used, h.free, h.frames⟩

/-! ## The statuses over whole sessions -/

/-- What a statement stores to is in use. -/
theorem Table.store_le (h : Table s) (hi : s.store = some i) : i ≤ s.totalJobs := by
  have hst := h.stage
  have hc := h.current
  unfold State.store at hi
  split at hi
  · cases hi
    exact hc
  · cases hi
  · unfold Stage at hst
    cases hpc : s.pc <;> simp only [hpc, reduceCtorEq, Option.some.injEq] at hi hst <;> omega

/-- What is said of the table in a state `s` of a session. -/
structure Statuses (own : Nat) (s : State) : Prop where
  /-- At the prompt no job reads `RUNNING`. -/
  idle : s.pc = .prompt → ∀ i, 1 ≤ i → i ≤ s.totalJobs → (s.PT i).status ≠ .running
  /-- What is final at the prompt stays so; for slot 0, the manager itself, this is the prompt
  with no handler halfway. -/
  final : s.pc = .prompt → ∀ i, (i = 0 → s.frames = []) → (s.PT i).status.final = true →
    ∀ s', ((machine own).startedIn s).ReachableWhen ForkSucceeds s' →
      (s'.PT i).status = (s.PT i).status
  total : s.totalJobs ≤ MAX_JOBS
  /-- No statement stores beyond `totalJobs`, where the table is as it was at the start. -/
  store : ∀ i, s.store = some i → i ≤ s.totalJobs
  fresh : ∀ i, s.totalJobs < i → s.PT i = ⟨0, .running⟩

/-- **The statuses at the prompt**, wherever the handlers run. -/
theorem prompt_statuses (own : Nat) (s : State) (h : (machine own).ReachableWhen ForkSucceeds s) :
    Statuses own s := by
  have ht : Table s := table h
  have hq : Quiet s := quiet h
  refine ⟨fun hpc i h1 hi hr => ?_, fun hpc i h0 hfin s' hs' => ?_, ht.total,
    fun _ => ht.store_le, ht.fresh⟩
  · rcases hq.running i (Nat.one_le_iff_ne_zero.mp h1) hi hr with hb | hx
    · simp [State.busy, hpc] at hb
    · rw [hpc] at hx
      cases hx
  · have hrest := h.later (hq.rests ht hpc h0 hfin)
      (fun s a s' hs hr hok hn => rests_step hr hfin (table hs) hok hn) hs'
    exact hrest.status

/-- `r`, up to the `waitpid` on the new job. -/
def starts (pid : Nat) : List Label :=
  [.command 'r', .main, .main, .fork (some pid), .main, .main]

/-- The job in hand exits, and `waitpid` returns it. -/
def ends (pid : Nat) : List Label := [.job pid .exit, .main, .main, .main]

/-- SIGTSTP stops the job in hand, and `waitpid` returns it. -/
def suspends (pid : Nat) : List Label :=
  [.signal .SIGTSTP, .handler, .handler, .handler, .job pid .stop, .main, .main]

/-- A session with a job that exits and one that is suspended. -/
theorem prompt_statuses_session :
    ∃ s, (s.pc = .prompt ∧ s.totalJobs = 2 ∧ (s.PT 1).status = .finished
      ∧ (s.PT 2).status = .suspended) ∧ Statuses 5 s := by
  obtain ⟨s, hr, hs⟩ : ∃ s, (machine 5).ReachableWhen ForkSucceeds s
      ∧ decide (s.pc = .prompt ∧ s.totalJobs = 2 ∧ (s.PT 1).status = .finished
        ∧ (s.PT 2).status = .suspended) = true :=
    Machine.exists_reachableWhen_of_execWhen (s := start 5)
      (l := [.main, .main] ++ starts 6 ++ ends 6 ++ starts 7 ++ suspends 7) rfl (by decide +kernel)
  exact ⟨s, of_decide_eq_true hs, prompt_statuses 5 s hr⟩

end OSLab.Jobs
