import OSLab.Jobs.Prompt

set_option autoImplicit false

/-! # The jobs that are left when the manager exits

The command loop calls `exit` at two places: after `cleanup`, which sends SIGKILL to every entry
that reads `RUNNING` or `SUSPENDED`, and for an `r` with a full table, where it does not clean up.
So a suspended job outlives the manager when the exit is of the second kind. `cleanup` itself
misses a job whose entry says that it is done when it is not: one whose stop `waitpid` has returned
while its entry read `RUNNING`, and one that SIGTSTP has stopped before the SIGINT of a handler
that had passed its test earlier.

In the runs without these three (`Thorough`), every job that has been sent neither SIGKILL nor, as
it ran, SIGINT is held by an entry that reads `SUSPENDED` or by the loop (`Held`), and a loop that
exits holds none (`none_left_when`).
-/

namespace OSLab.Jobs

/-! ## What has been sent -/

/-- What has been sent to the processes since they were forked, by pid, and whether the command
loop has called `exit`. -/
structure Sent where
  /-- SIGKILL. -/
  killed : Nat → Bool
  /-- SIGINT, when the process was running. -/
  interrupted : Nat → Bool
  exit : Bool

def nothingSent : Sent := ⟨fun _ => false, fun _ => false, false⟩

/-- The target of the SIGKILL that is the loop's next statement. -/
def State.killing (s : State) : Option Nat :=
  match s.pc with
  | .killJob i | .killCleanup i => some (s.PT i).pid
  | _ => none

/-- The target of the SIGINT that is the innermost handler's next statement. -/
def State.interrupting (s : State) : Option Nat :=
  match s.frames with
  | ⟨.SIGINT, .kill⟩ :: _ => some s.current.pid
  | _ => none

/-- The step is a call of `exit`: the one after `cleanup`, or the one for a full table. -/
def State.exits (s : State) : Label → Bool
  | .main =>
      match s.pc with
      | .cleanup i => decide (s.totalJobs < i)
      | _ => false
  | .command userInput => decide (userInput = 'r' ∧ ¬ s.totalJobs < MAX_JOBS)
  | _ => false

def sent (s : State) (a : Label) (h : Sent) : Sent where
  killed pid :=
    match a with
    | .fork new => if new = some pid then false else h.killed pid
    | .main => h.killed pid || decide (s.killing = some pid)
    | _ => h.killed pid
  interrupted pid :=
    match a with
    | .fork new => if new = some pid then false else h.interrupted pid
    | .handler =>
        h.interrupted pid || decide (s.interrupting = some pid ∧ s.child pid = some .running)
    | _ => h.interrupted pid
  exit := h.exit || s.exits a

/-- The manager with a record of what it sends. -/
def watched (own : Nat) : Machine (State × Sent) Label :=
  (machine own).withHistory nothingSent sent

/-- The process has been forked and has not exited. -/
def State.alive (s : State) (pid : Nat) : Bool :=
  match s.child pid with
  | some .running | some (.stopped _) => true
  | some .zombie | none => false

/-- A job that has not exited and has been sent neither SIGKILL nor, as it ran, SIGINT. -/
def Loose (t : State × Sent) (pid : Nat) : Prop :=
  t.1.alive pid = true ∧ t.2.killed pid = false ∧ t.2.interrupted pid = false

/-! ## The condition -/

/-- The process is stopped. -/
def State.halted (s : State) (pid : Nat) : Bool :=
  match s.child pid with
  | some (.stopped _) => true
  | _ => false

/-- The loop is about to store `FINISHED`. -/
def State.finishing (s : State) : Bool :=
  match s.pc with
  | .finish _ => true
  | _ => false

/-- `r` does not come with a full table while a suspended job is there, `FINISHED` is stored for a
job that has exited, and the SIGINT of a handler does not go to a job that is stopped. -/
def Thorough (s : State) : Label → Prop
  | .command userInput => userInput = 'r' → ¬ s.totalJobs < MAX_JOBS →
      ∀ i, i ≤ s.totalJobs → (s.PT i).status = .suspended → s.alive (s.PT i).pid = false
  | .main => s.finishing = true → s.alive s.current.pid = false
  | .handler => ∀ pid ∈ s.interrupting, s.halted pid = false
  | _ => True

instance (s : State) : (a : Label) → Decidable (Thorough s a)
  | .command _ => inferInstanceAs (Decidable (_ → _ → _))
  | .main => inferInstanceAs (Decidable (_ → _))
  | .handler => inferInstanceAs (Decidable (∀ _ ∈ _, _))
  | .choose _ | .fork _ | .signal _ | .job _ _ => inferInstanceAs (Decidable True)

variable {s s' : State} {h : Sent} {own pid : Nat} {a : Label}

/-! ## Who is loose before and after a step -/

/-- `waitpid` brings nobody to life. -/
theorem waitpid_alive {p : Nat} {after : Bool → Pc} (hs : waitpid s p after = some s')
    (hl : s'.alive pid = true) : s.alive pid = true := by
  unfold waitpid at hs
  split at hs <;> cases hs <;> rename_i hc
  · exact hl
  all_goals
    by_cases hp : pid = p
    · subst hp
      simp [State.alive, hc] at hl ⊢
    · simpa [State.alive, Function.update_of_ne hp] using hl

/-- The loop leaves the children alone, `waitpid` apart. -/
theorem mainStep_child (hs : mainStep s = some s') :
    s'.child = s.child ∨ ∃ p after, waitpid s p after = some s' := by
  unfold mainStep at hs
  cases hpc : s.pc <;> simp only [hpc, Option.some.injEq, reduceCtorEq] at hs
  case waitSpawn p => exact Or.inr ⟨p, _, hs⟩
  case waitCont i => exact Or.inr ⟨_, _, hs⟩
  case waitKilled i => exact Or.inr ⟨_, _, hs⟩
  case list c i found =>
    split at hs <;> cases hs <;> exact Or.inl rfl
  case cleanup i =>
    split at hs
    · split at hs <;> cases hs <;> exact Or.inl rfl
    · cases hs
      exact Or.inl rfl
  all_goals exact hs ▸ Or.inl rfl

/-- A process that is alive after a step was so before, or has just been forked. -/
theorem alive_of_next (hs : (machine own).next s a = some s') (hl : s'.alive pid = true) :
    s.alive pid = true ∨ a = .fork (some pid) := by
  have hsame : s'.child = s.child → s.alive pid = true := by
    intro hc
    rw [State.alive, ← hc]
    exact hl
  have hm : Moves s a s' := moves_of_next hs
  cases a with
  | main =>
      rcases mainStep_child hm.2 with hc | ⟨p, after, hw⟩
      · exact Or.inl (hsame hc)
      · exact Or.inl (waitpid_alive hw hl)
  | command userInput =>
      refine Or.inl (hsame ?_)
      obtain ⟨-, rfl | ⟨-, rfl⟩ | rfl | ⟨c, rfl⟩ | rfl⟩ := commandStep_eq_some hm.2 <;> rfl
  | choose k =>
      refine Or.inl (hsame ?_)
      obtain ⟨c, -, rfl | ⟨-, -, rfl | rfl⟩⟩ := chooseStep_eq_some hm.2 <;> rfl
  | fork new =>
      obtain ⟨-, ⟨-, rfl⟩ | ⟨p, rfl, -, rfl⟩⟩ := forkStep_eq_some hm.2
      · exact Or.inl (hsame rfl)
      · by_cases hp : pid = p
        · exact Or.inr (hp ▸ rfl)
        · exact Or.inl (by simpa [State.alive, Function.update_of_ne hp] using hl)
  | signal g =>
      obtain ⟨-, rfl⟩ := hm
      exact Or.inl hl
  | handler =>
      refine Or.inl (hsame ?_)
      obtain ⟨g, fs, -, rfl⟩ | ⟨g, fs, -, rfl⟩ | ⟨g, fs, -, rfl⟩ := handlerStep_eq_some hm.2 <;> rfl
  | job p e =>
      obtain ⟨c, c', hc, hj, rfl⟩ := hm
      by_cases hp : pid = p
      · -- a process that has exited does nothing more on its own account
        left
        rw [hp, State.alive, hc]
        cases c with
        | running => rfl
        | stopped reported => rfl
        | zombie => cases hj
      · exact Or.inl (by simpa [State.alive, Function.update_of_ne hp] using hl)

/-- Who is loose after a step was so before, or has just been forked. -/
theorem Loose.before (hs : (machine own).next s a = some s') (hl : Loose (s', sent s a h) pid) :
    Loose (s, h) pid ∨ a = .fork (some pid) := by
  obtain ⟨hlive, hk, hi⟩ := hl
  rcases alive_of_next hs hlive with hlive | hfork
  · refine (em (a = .fork (some pid))).symm.imp_left fun hne => ⟨hlive, ?_, ?_⟩
    · cases a <;> simp_all [sent]
    · cases a <;> simp_all [sent]
  · exact Or.inr hfork

/-- Who is loose is not killed by the step. -/
theorem Loose.not_killing (hl : Loose (s', sent s .main h) pid) : s.killing ≠ some pid := by
  intro hk
  have := hl.2.1
  simp [sent, hk] at this

/-- Who is loose is not interrupted as it runs. -/
theorem Loose.not_interrupting (hl : Loose (s', sent s .handler h) pid)
    (hk : s.interrupting = some pid) : s.child pid ≠ some .running := by
  intro hc
  have := hl.2.2
  simp [sent, hk, hc] at this

/-- A process that neither runs nor is stopped has exited. -/
theorem not_alive (hr : s.child pid ≠ some .running) (hh : s.halted pid = false) :
    s.alive pid = false := by
  simp only [State.alive, State.halted] at hh ⊢
  split
  · exact absurd ‹_› hr
  · rename_i hc
    rw [hc] at hh
    cases hh
  · rfl
  · rfl

/-! ## Who is held by the table or by the loop -/

/-- The process just forked, which the loop is about to enter in the table. -/
def State.starting (s : State) : Option Nat :=
  match s.pc with
  | .storePid pid | .storeStatus pid => some pid
  | _ => none

/-- `cleanup` has been at the entries before this one. -/
def State.cleaned (s : State) : Nat :=
  match s.pc with
  | .cleanup i | .killCleanup i => i
  | _ => 0

/-- Entry `i` holds the process: `cleanup` is still to come to it, and it reads `SUSPENDED`, or
`RUNNING` while the loop has it in hand, or a handler is about to send SIGINT to it. -/
def Holds (s : State) (pid i : Nat) : Prop :=
  i ≠ 0 ∧ i ≤ s.totalJobs ∧ s.cleaned ≤ i ∧ (s.PT i).pid = pid
    ∧ ((s.PT i).status = .suspended ∨ ((s.PT i).status = .running ∧ s.inHand = some i)
      ∨ (i = s.currentJobIndex ∧ ⟨.SIGINT, .kill⟩ ∈ s.frames))

def Held (s : State) (pid : Nat) : Prop := s.starting = some pid ∨ ∃ i, Holds s pid i

/-- The entry reads `SUSPENDED`, or `RUNNING` and is in hand: what holds a process when no handler
runs. -/
def State.holding (s : State) (i : Nat) : Prop :=
  (s.PT i).status = .suspended ∨ ((s.PT i).status = .running ∧ s.inHand = some i)

/-- Between two statements of the loop an entry holds the process by what it reads. -/
theorem Held.entry (h : Held s pid) (hf : s.frames = []) (hst : s.starting ≠ some pid) :
    ∃ i, i ≠ 0 ∧ i ≤ s.totalJobs ∧ s.cleaned ≤ i ∧ (s.PT i).pid = pid ∧ s.holding i := by
  obtain ⟨i, h0, hi, hc, hp, hs⟩ := h.resolve_left hst
  refine ⟨i, h0, hi, hc, hp, ?_⟩
  rcases hs with hs | hs | ⟨-, hm⟩
  · exact Or.inl hs
  · exact Or.inr hs
  · rw [hf] at hm
    cases hm

theorem held_of_holding {i : Nat} (h0 : i ≠ 0) (hi : i ≤ s.totalJobs) (hc : s.cleaned ≤ i)
    (hp : (s.PT i).pid = pid) (hs : s.holding i) : Held s pid :=
  Or.inr ⟨i, h0, hi, hc, hp, hs.imp_right Or.inl⟩

/-- The loop moves on, the table being as it is, and `cleanup` does not pass over the entry. -/
theorem Held.pass (h : Held s pid) (hf : s.frames = []) (hst : s.starting ≠ some pid)
    (hPT : s'.PT = s.PT) (hn : s.totalJobs ≤ s'.totalJobs)
    (hin : ∀ i, (s.PT i).status = .running → s.inHand = some i → s'.inHand = some i)
    (hc : ∀ i, s.cleaned ≤ i → (s.PT i).pid = pid → s.holding i → s'.cleaned ≤ i) :
    Held s' pid := by
  obtain ⟨i, h0, hi, hcl, hp, hs⟩ := h.entry hf hst
  refine held_of_holding h0 (Nat.le_trans hi hn) (hc i hcl hp hs) (hPT ▸ hp) ?_
  rcases hs with hs | ⟨hr, hh⟩
  · exact Or.inl (hPT ▸ hs)
  · exact Or.inr ⟨hPT ▸ hr, hin i hr hh⟩

/-- The loop moves on outside `cleanup`. -/
theorem Held.move (h : Held s pid) (hf : s.frames = []) (hst : s.starting ≠ some pid)
    (hPT : s'.PT = s.PT) (hn : s.totalJobs ≤ s'.totalJobs)
    (hin : ∀ i, (s.PT i).status = .running → s.inHand = some i → s'.inHand = some i)
    (hc : s'.cleaned = 0) : Held s' pid :=
  h.pass hf hst hPT hn hin fun i _ _ _ => hc ▸ Nat.zero_le i

/-- `waitpid` moves on. -/
theorem Held.wait (h : Held s pid) (hf : s.frames = []) (hst : s.starting ≠ some pid) {p : Nat}
    {after : Bool → Pc} (hs : waitpid s p after = some s')
    (hin : ∀ e i, s.inHand = some i → (s.goto (after e)).inHand = some i)
    (hc : ∀ e, (s.goto (after e)).cleaned = 0) : Held s' pid := by
  obtain ⟨e, he⟩ := waitpid_eq_some hs
  rw [he]
  exact h.move hf hst rfl (Nat.le_refl _) (fun i _ => hin e i) (hc e)

/-- The loop stores to an entry that does not hold the process, and has no other in hand. -/
theorem Held.write (h : Held s pid) (hf : s.frames = []) (hst : s.starting ≠ some pid) {j : Nat}
    (hj : ∀ i, i ≠ 0 → (s.PT i).pid = pid → i ≠ j) (hPT : ∀ i, i ≠ j → s'.PT i = s.PT i)
    (hn : s'.totalJobs = s.totalJobs) (hin : ∀ i, i ≠ j → s.inHand ≠ some i)
    (hc : s'.cleaned = 0) : Held s' pid := by
  obtain ⟨i, h0, hi, hcl, hp, hs⟩ := h.entry hf hst
  have hne : i ≠ j := hj i h0 hp
  refine held_of_holding h0 (hn ▸ hi) (hc ▸ Nat.zero_le i) (hPT i hne ▸ hp) (Or.inl ?_)
  rw [hPT i hne]
  exact hs.resolve_right fun hh => hin i hne hh.2

/-- The loop takes an entry in hand. -/
theorem Held.take (h : Held s pid) (hf : s.frames = []) (hst : s.starting ≠ some pid) {j : Nat}
    {pc : Pc} (hin : ∀ i, i ≠ j → s.inHand ≠ some i)
    (hin' : ((s.setStatus j .running).goto pc).inHand = some j)
    (hc : ((s.setStatus j .running).goto pc).cleaned = 0) :
    Held ((s.setStatus j .running).goto pc) pid := by
  obtain ⟨i, h0, hi, hcl, hp, hs⟩ := h.entry hf hst
  refine held_of_holding h0 hi (hc ▸ Nat.zero_le i) ((setStatus_pid s j i .running).trans hp) ?_
  by_cases hij : i = j
  · subst hij
    exact Or.inr ⟨setStatus_status_self s i .running, hin'⟩
  · refine Or.inl ((setStatus_status_ne s .running hij).trans ?_)
    exact hs.resolve_right fun hh => hin i hij hh.2

theorem main_held (h : Held s pid) (ht : Table s) (hf : s.frames = [])
    (hs : mainStep s = some s') (h0 : pid ≠ 0) (hk : s.killing ≠ some pid)
    (hfin : s.finishing = true → s.current.pid ≠ pid)
    (hset : ∀ i, s.pc = .setKilled i → (s.PT i).pid ≠ pid) : Held s' pid := by
  have hst := ht.stage
  unfold mainStep at hs
  unfold Stage at hst
  cases hpc : s.pc <;> simp only [hpc, Option.some.injEq, reduceCtorEq] at hs hst
  case storePid p =>
    subst hs
    by_cases hp : p = pid
    · exact Or.inl (congrArg some hp)
    · -- the entry of the new job has no pid yet, so it holds nobody
      have hh : s.inHand = none := by simp [State.inHand, hpc]
      refine h.write hf (by simpa [State.starting, hpc] using hp) (j := s.currentJobIndex) ?_ ?_ rfl
        (fun i _ => by simp [hh]) rfl
      · rintro i - hi rfl
        exact h0 (hi.symm.trans hst.2)
      · exact fun i hi => Function.update_of_ne hi _ _
  case storeStatus p =>
    subst hs
    have hh : s.inHand = some s.currentJobIndex := by simp [State.inHand, hpc]
    by_cases hp : p = pid
    · exact held_of_holding hst.1 ht.current (Nat.zero_le _)
        ((setStatus_pid s _ _ .running).trans (hst.2.trans hp))
        (Or.inr ⟨setStatus_status_self s _ .running, rfl⟩)
    · refine h.take hf (by simpa [State.starting, hpc] using hp) ?_ rfl rfl
      exact fun i hi he => hi (Option.some.inj (he.symm.trans hh))
  all_goals have hstart : s.starting ≠ some pid := by simp [State.starting, hpc]
  case setPid =>
    have hh : s.inHand = none := by simp [State.inHand, hpc]
    exact hs ▸ h.write hf hstart (fun i hi _ => hi) (fun i hi => Function.update_of_ne hi _ _) rfl
      (fun i _ => by simp [hh]) rfl
  case setStatus =>
    have hh : s.inHand = none := by simp [State.inHand, hpc]
    exact hs ▸ h.write hf hstart (fun i hi _ => hi) (fun i hi => Function.update_of_ne hi _ _) rfl
      (fun i _ => by simp [hh]) rfl
  case incTotal =>
    have hh : s.inHand = none := by simp [State.inHand, hpc]
    exact hs ▸ h.move hf hstart rfl (Nat.le_succ _) (by simp [hh]) rfl
  case setCurrent =>
    have hh : s.inHand = none := by simp [State.inHand, hpc]
    exact hs ▸ h.move hf hstart rfl (Nat.le_refl _) (by simp [hh]) rfl
  case waitSpawn p =>
    have hh : s.inHand = some s.currentJobIndex := by simp [State.inHand, hpc]
    exact h.wait hf hstart hs (fun e i hi => hh.symm.trans hi) fun _ => rfl
  case check e =>
    have hh : s.inHand = some s.currentJobIndex := by simp [State.inHand, hpc]
    subst hs
    split
    · exact h.move hf hstart rfl (Nat.le_refl _) (fun i _ hi => hh.symm.trans hi) rfl
    · rename_i hne
      refine h.move hf hstart rfl (Nat.le_refl _) (fun i hr hi => ?_) rfl
      obtain rfl : s.currentJobIndex = i := Option.some.inj (hh.symm.trans hi)
      exact absurd hr hne
  case finish e =>
    have hh : s.inHand = some s.currentJobIndex := by simp [State.inHand, hpc]
    refine hs ▸ h.write hf hstart ?_ (fun i hi => Function.update_of_ne hi _ _) rfl ?_ rfl
    · rintro i - hi rfl
      exact hfin (by simp [State.finishing, hpc]) hi
    · exact fun i hi he => hi (Option.some.inj (he.symm.trans hh))
  case list c i found =>
    have hh : s.inHand = none := by simp [State.inHand, hpc]
    split at hs <;> cases hs
    · exact h.move hf hstart rfl (Nat.le_refl _) (by simp [hh]) rfl
    · cases found <;> exact h.move hf hstart rfl (Nat.le_refl _) (by simp [hh]) rfl
  case setRunning j =>
    have hh : s.inHand = none := by simp [State.inHand, hpc]
    exact hs ▸ h.take hf hstart (fun i _ => by simp [hh]) rfl rfl
  case contCurrent j =>
    have hh : s.inHand = some j := by simp [State.inHand, hpc]
    exact hs ▸ h.move hf hstart rfl (Nat.le_refl _) (fun i _ hi => hh.symm.trans hi) rfl
  case killCont j =>
    have hh : s.inHand = some j := by simp [State.inHand, hpc]
    exact hs ▸ h.move hf hstart rfl (Nat.le_refl _) (fun i _ hi => hh.symm.trans hi) rfl
  case waitCont j =>
    have hh : s.inHand = some s.currentJobIndex := by simp [State.inHand, hpc, hst]
    exact h.wait hf hstart hs (fun e i hi => hh.symm.trans hi) fun _ => rfl
  case killJob j =>
    have hh : s.inHand = none := by simp [State.inHand, hpc]
    subst hs
    unfold State.afterKill
    split <;> exact h.move hf hstart rfl (Nat.le_refl _) (by simp [hh]) rfl
  case setKilled j =>
    have hh : s.inHand = none := by simp [State.inHand, hpc]
    refine hs ▸ h.write hf hstart ?_ (fun i hi => Function.update_of_ne hi _ _) rfl
      (fun i _ => by simp [hh]) rfl
    rintro i - hi rfl
    exact hset i hpc hi
  case waitKilled j =>
    have hh : s.inHand = none := by simp [State.inHand, hpc]
    exact h.wait hf hstart hs (by simp [hh]) fun _ => rfl
  case cleanup j =>
    have hh : s.inHand = none := by simp [State.inHand, hpc]
    have hcl : s.cleaned = j := by simp [State.cleaned, hpc]
    split at hs
    · split at hs <;> cases hs
      · exact h.pass hf hstart rfl (Nat.le_refl _) (by simp [hh]) fun i hi _ _ => hcl ▸ hi
      · rename_i hne
        refine h.pass hf hstart rfl (Nat.le_refl _) (by simp [hh]) fun i hi _ hold => ?_
        -- the entry just passed over reads neither `RUNNING` nor `SUSPENDED`
        have hij : i ≠ j := by
          rintro rfl
          exact hne (hold.elim Or.inr fun hr => Or.inl hr.1)
        show j + 1 ≤ i
        omega
    · cases hs
      exact h.move hf hstart rfl (Nat.le_refl _) (by simp [hh]) rfl
  case killCleanup j =>
    have hh : s.inHand = none := by simp [State.inHand, hpc]
    have hcl : s.cleaned = j := by simp [State.cleaned, hpc]
    subst hs
    unfold State.afterKill
    split
    · exact h.move hf hstart rfl (Nat.le_refl _) (by simp [hh]) rfl
    · refine h.pass hf hstart rfl (Nat.le_refl _) (by simp [hh]) fun i hi hp _ => ?_
      have hij : i ≠ j := by
        rintro rfl
        exact hk (by simp [State.killing, hpc, hp])
      show j + 1 ≤ i
      omega

/-- At the prompt and in `c` and `k` up to the choice, the loop has nothing in hand. -/
theorem command_held (h : Held s pid) (hf : s.frames = []) {userInput : Char}
    (hs : commandStep s userInput = some s') : Held s' pid := by
  obtain ⟨hpc, hs⟩ := commandStep_eq_some hs
  have hstart : s.starting ≠ some pid := by simp [State.starting, hpc]
  have hh : s.inHand = none := by simp [State.inHand, hpc]
  obtain rfl | ⟨-, rfl⟩ | rfl | ⟨c, rfl⟩ | rfl := hs
  · exact h.move hf hstart rfl (Nat.le_refl _) (by simp [hh]) rfl
  · exact h.move hf hstart rfl (Nat.le_refl _) (by simp [hh]) rfl
  · exact h.move hf hstart rfl (Nat.le_refl _) (by simp [hh]) rfl
  · exact h.move hf hstart rfl (Nat.le_refl _) (by simp [hh]) rfl
  · -- `cleanup` starts at entry 1
    obtain ⟨i, h0, hi, -, hp, hold⟩ := h.entry hf hstart
    exact held_of_holding h0 hi (Nat.one_le_iff_ne_zero.mpr h0) hp
      (hold.imp_right fun hr => by simp [hh] at hr)

theorem choose_held (h : Held s pid) (hf : s.frames = []) {k : Int}
    (hs : chooseStep s k = some s') : Held s' pid := by
  obtain ⟨c, hpc, hs⟩ := chooseStep_eq_some hs
  have hstart : s.starting ≠ some pid := by simp [State.starting, hpc]
  have hh : s.inHand = none := by simp [State.inHand, hpc]
  rcases hs with rfl | ⟨-, -, rfl | rfl⟩ <;>
    exact h.move hf hstart rfl (Nat.le_refl _) (by simp [hh]) rfl

theorem fork_held (h : Held s pid) (hf : s.frames = []) {new : Option Nat}
    (hs : forkStep s new = some s') : Held s' pid := by
  obtain ⟨hpc, hs⟩ := forkStep_eq_some hs
  have hstart : s.starting ≠ some pid := by simp [State.starting, hpc]
  have hh : s.inHand = none := by simp [State.inHand, hpc]
  rcases hs with ⟨-, rfl⟩ | ⟨p, -, -, rfl⟩
  · exact h.move hf hstart rfl (Nat.le_refl _) (by simp [hh]) rfl
  · exact h.move hf hstart rfl (Nat.le_refl _) (by simp [hh]) rfl

/-- The child just forked is held by the loop. -/
theorem fork_held_new (hs : forkStep s (some pid) = some s') : Held s' pid := by
  obtain ⟨-, ⟨hn, -⟩ | ⟨p, hp, -, rfl⟩⟩ := forkStep_eq_some hs
  · cases hn
  · exact Or.inl hp.symm

/-- A handler keeps the process held until it sends SIGINT to it. -/
theorem handler_held (h : Held s pid) (hi : s.interrupting ≠ some pid)
    (hs : handlerStep s = some s') : Held s' pid := by
  have hmoves := handlerStep_eq_some hs
  rcases h with hst | ⟨i, h0, hle, hc, hp, hold⟩
  · left
    obtain ⟨g, fs, -, rfl⟩ | ⟨g, fs, -, rfl⟩ | ⟨g, fs, -, rfl⟩ := hmoves <;> exact hst
  · refine Or.inr ⟨i, ?_⟩
    obtain ⟨g, fs, hf, rfl⟩ | ⟨g, fs, hf, rfl⟩ | ⟨g, fs, hf, rfl⟩ := hmoves
    · refine ⟨h0, hle, hc, hp, hold.imp_right (Or.imp_right fun hm => ⟨hm.1, ?_⟩)⟩
      have hm : ⟨.SIGINT, .kill⟩ ∈ fs := by simpa [hf] using hm.2
      show _ ∈ ite _ _ _
      split
      · exact List.mem_cons_of_mem _ hm
      · exact hm
    · refine ⟨h0, hle, hc, (setStatus_pid s _ i g.status).trans hp, ?_⟩
      by_cases hic : i = s.currentJobIndex
      · -- the store of this handler
        subst hic
        cases g with
        | SIGINT => exact Or.inr (Or.inr ⟨rfl, List.mem_cons_self⟩)
        | SIGTSTP => exact Or.inl (setStatus_status_self s _ .suspended)
      · have hsame : ((s.setStatus s.currentJobIndex g.status).PT i).status = (s.PT i).status :=
          setStatus_status_ne s g.status hic
        rcases hold with hsus | ⟨hr, hh⟩ | ⟨hic', -⟩
        · exact Or.inl (hsame.trans hsus)
        · exact Or.inr (Or.inl ⟨hsame.trans hr, hh⟩)
        · exact absurd hic' hic
    · refine ⟨h0, hle, hc, hp, hold.imp_right (Or.imp_right fun ⟨hic, hm⟩ => ⟨hic, ?_⟩)⟩
      rw [hf] at hm
      rcases List.mem_cons.mp hm with he | hm
      · -- the SIGINT would go to the process itself
        cases he
        refine absurd ?_ hi
        rw [State.interrupting, hf]
        exact congrArg some ((congrArg (fun j => (s.PT j).pid) hic).symm.trans hp)
      · exact hm

/-! ## The run -/

/-- What holds as long as the steps are thorough. -/
structure Kept (t : State × Sent) : Prop where
  /-- `0` is no process. -/
  zero : t.1.alive 0 = false
  held : ∀ pid, Loose t pid → Held t.1 pid
  killed : ∀ i, t.1.pc = .setKilled i → t.2.killed (t.1.PT i).pid = true
  exit : t.2.exit = true → t.1.pc = .exited ∧ ∀ pid, ¬ Loose t pid

theorem kept_start : Kept (start own, nothingSent) where
  zero := rfl
  held pid hl := by cases hl.1
  killed i hi := by cases hi
  exit he := by cases he

/-- A thorough step leaves who is loose held. -/
theorem held_step (hk : Kept (s, h)) (ht : Table s) (hok : Thorough s a)
    (hs : (machine own).next s a = some s') (hl : Loose (s', sent s a h) pid) : Held s' pid := by
  have hm : Moves s a s' := moves_of_next hs
  rcases hl.before hs with hold | rfl
  · have hh : Held s pid := hk.held pid hold
    have hne : ∀ p, s.alive p = false → p ≠ pid := by
      rintro p hp rfl
      rw [hold.1] at hp
      cases hp
    cases a with
    | main =>
        refine main_held hh ht hm.1 hm.2 (hne 0 hk.zero).symm hl.not_killing
          (fun hfin => hne _ (hok hfin)) fun i hpc hp => ?_
        have hkilled := hk.killed i hpc
        rw [hp, hold.2.1] at hkilled
        cases hkilled
    | command userInput => exact command_held hh hm.1 hm.2
    | choose k => exact choose_held hh hm.1 hm.2
    | fork new => exact fork_held hh hm.1 hm.2
    | signal g =>
        obtain ⟨-, rfl⟩ := hm
        refine hh.imp_right fun ⟨i, h0, hi, hc, hp, hold⟩ => ⟨i, h0, hi, hc, hp, ?_⟩
        exact hold.imp_right (Or.imp_right fun hm => ⟨hm.1, List.mem_cons_of_mem _ hm.2⟩)
    | handler =>
        refine handler_held hh (fun hi => ?_) hm.2
        -- neither running nor stopped, it would have exited
        have hdead := not_alive (hl.not_interrupting hi) (hok pid hi)
        rw [hold.1] at hdead
        cases hdead
    | job p e =>
        obtain ⟨c, c', -, -, rfl⟩ := hm
        exact hh
  · exact fork_held_new hm.2

/-- The manager does nothing more after its exit. -/
theorem exited_next (hx : s.pc = .exited) (hm : Moves s a s') :
    ∃ p e, a = .job p e ∧ s'.pc = .exited := by
  cases a with
  | main => simp [Moves, mainStep, hx] at hm
  | command userInput => simp [Moves, commandStep, hx] at hm
  | choose k => simp [Moves, chooseStep, hx] at hm
  | fork new => simp [Moves, forkStep, hx] at hm
  | signal g => exact absurd hx hm.1
  | handler => exact absurd hx hm.1
  | job p e =>
      obtain ⟨c, c', -, -, rfl⟩ := hm
      exact ⟨p, e, rfl, hx⟩

/-- A call of `exit` that is thorough leaves nobody held. -/
theorem not_held_of_exits (hx : s.exits a = true) (hok : Thorough s a) (hm : Moves s a s') :
    s'.pc = .exited ∧ ∀ pid, s.alive pid = true → ¬ Held s pid := by
  cases a with
  | main =>
      obtain ⟨hf, hs⟩ := hm
      simp only [State.exits] at hx
      split at hx
      · rename_i i hpc
        have hi : ¬ i ≤ s.totalJobs := Nat.not_le.mpr (of_decide_eq_true hx)
        simp only [mainStep, hpc, if_neg hi, Option.some.injEq] at hs
        refine ⟨hs ▸ rfl, fun pid _ hheld => ?_⟩
        obtain ⟨j, -, hj, hc, -⟩ := hheld.entry hf (by simp [State.starting, hpc])
        -- `cleanup` has been at all entries
        have hcl : s.cleaned = i := by simp [State.cleaned, hpc]
        omega
      · cases hx
  | command userInput =>
      obtain ⟨hf, hs⟩ := hm
      obtain ⟨hr, hfull⟩ := of_decide_eq_true hx
      obtain ⟨hpc, -⟩ := commandStep_eq_some hs
      simp only [commandStep, hpc, if_true, hr, if_neg hfull, Option.some.injEq] at hs
      refine ⟨hs ▸ rfl, fun pid hlive hheld => ?_⟩
      obtain ⟨i, -, hi, -, hp, hold⟩ := hheld.entry hf (by simp [State.starting, hpc])
      have hsus : (s.PT i).status = .suspended :=
        hold.resolve_right fun hr => by simp [State.inHand, hpc] at hr
      have hdead := hok hr hfull i hi hsus
      rw [hp, hlive] at hdead
      cases hdead
  | choose k => cases hx
  | fork new => cases hx
  | signal g => cases hx
  | handler => cases hx
  | job p e => cases hx

/-- Before `setKilled` comes the SIGKILL. -/
theorem mainStep_setKilled {i : Nat} (hs : mainStep s = some s') (hpc : s'.pc = .setKilled i) :
    s.pc = .killJob i ∧ s'.PT = s.PT := by
  unfold mainStep at hs
  cases hp : s.pc <;> simp only [hp, Option.some.injEq, reduceCtorEq] at hs
  case killJob j =>
    subst hs
    unfold State.afterKill at hpc
    split at hpc
    · cases hpc
    · cases hpc
      exact ⟨rfl, rfl⟩
  case waitSpawn p =>
    obtain ⟨e, he⟩ := waitpid_eq_some hs
    rw [he] at hpc
    cases hpc
  case waitCont j =>
    obtain ⟨e, he⟩ := waitpid_eq_some hs
    rw [he] at hpc
    cases hpc
  case waitKilled j =>
    obtain ⟨e, he⟩ := waitpid_eq_some hs
    rw [he] at hpc
    cases hpc
  case check e =>
    subst hs
    split at hpc <;> cases hpc
  case list c j found =>
    split at hs <;> cases hs
    · cases hpc
    · cases found <;> cases hpc
  case cleanup j =>
    split at hs
    · split at hs <;> cases hs <;> cases hpc
    · cases hs
      cases hpc
  case killCleanup j =>
    subst hs
    unfold State.afterKill at hpc
    split at hpc <;> cases hpc
  all_goals
    subst hs
    cases hpc

/-- The SIGKILL of `k` stays on record up to the store of `KILLED`. -/
theorem killed_step {i : Nat} (hk : Kept (s, h)) (hm : Moves s a s') (hpc : s'.pc = .setKilled i) :
    (sent s a h).killed (s'.PT i).pid = true := by
  cases a with
  | main =>
      obtain ⟨hpc, hPT⟩ := mainStep_setKilled hm.2 hpc
      rw [hPT]
      simp [sent, State.killing, hpc]
  | command userInput =>
      obtain ⟨-, rfl | ⟨-, rfl⟩ | rfl | ⟨c, rfl⟩ | rfl⟩ := commandStep_eq_some hm.2 <;> cases hpc
  | choose k =>
      obtain ⟨c, -, rfl | ⟨-, -, rfl | rfl⟩⟩ := chooseStep_eq_some hm.2 <;> cases hpc
  | fork new =>
      obtain ⟨-, ⟨-, rfl⟩ | ⟨p, -, -, rfl⟩⟩ := forkStep_eq_some hm.2 <;> cases hpc
  | signal g =>
      obtain ⟨-, rfl⟩ := hm
      exact hk.killed i hpc
  | handler =>
      obtain ⟨g, fs, -, rfl⟩ | ⟨g, fs, -, rfl⟩ | ⟨g, fs, -, rfl⟩ := handlerStep_eq_some hm.2
      · exact hk.killed i hpc
      · show h.killed ((s.setStatus s.currentJobIndex g.status).PT i).pid = true
        rw [setStatus_pid]
        exact hk.killed i hpc
      · exact hk.killed i hpc
  | job p e =>
      obtain ⟨c, c', -, -, rfl⟩ := hm
      exact hk.killed i hpc

/-- **One step.** A thorough step keeps who is loose held. -/
theorem kept_step (hk : Kept (s, h)) (ht : Table s) (hok : Thorough s a)
    (hs : (machine own).next s a = some s') : Kept (s', sent s a h) where
  zero := by
    by_contra hl
    have hl : s'.alive 0 = true := (Bool.not_eq_false _).mp hl
    rcases alive_of_next hs hl with h0 | rfl
    · rw [hk.zero] at h0
      cases h0
    · have hm : Moves s (.fork (some 0)) s' := moves_of_next hs
      obtain ⟨-, ⟨hn, -⟩ | ⟨p, hp, ⟨h0, -⟩, -⟩⟩ := forkStep_eq_some hm.2
      · cases hn
      · exact h0 (Option.some.inj hp).symm
  held pid hl := held_step hk ht hok hs hl
  killed i hpc := killed_step hk (moves_of_next hs) hpc
  exit he := by
    rcases (Bool.or_eq_true _ _).mp he with he | hx
    · obtain ⟨hpc, hnone⟩ := hk.exit he
      obtain ⟨p, e, rfl, hpc'⟩ := exited_next hpc (moves_of_next hs)
      refine ⟨hpc', fun pid hl => ?_⟩
      rcases hl.before hs with hl | hf
      · exact hnone pid hl
      · cases hf
    · obtain ⟨hpc, hnone⟩ := not_held_of_exits hx hok (moves_of_next hs)
      refine ⟨hpc, fun pid hl => ?_⟩
      rcases hl.before hs with hl | rfl
      · exact hnone pid hl.1 (hk.held pid hl)
      · cases hx

/-- **The jobs when the manager exits**: in every run whose steps are thorough, a job that has not
exited when the command loop calls `exit` has been sent SIGKILL, or SIGINT as it ran. -/
theorem none_left_when (own : Nat) (t : State × Sent)
    (h : (watched own).ReachableWhen (fun t => Thorough t.1) t) :
    t.2.exit = true → ∀ pid, ¬ Loose t pid := by
  have hkept : Kept t := by
    refine h.invariant_of (J := fun t => Table t.1) (fun t ht => table ht.of_withHistory) ?_ ?_
    · rintro ⟨s, r⟩ ⟨rfl, rfl⟩
      exact kept_start
    · rintro ⟨s, r⟩ a ⟨s', r'⟩ ht hi hok hs
      obtain ⟨hs, rfl⟩ := Machine.withHistory_next hs
      exact kept_step hi ht hok hs
  exact fun he => (hkept.exit he).2

/-- A suspended job, and `q` with its cleanup. -/
theorem none_left_quit :
    ∃ t : State × Sent, (t.2.exit = true ∧ t.1.alive 7 = true ∧ t.2.killed 7 = true)
      ∧ ∀ pid, ¬ Loose t pid := by
  obtain ⟨t, hr, ht⟩ : ∃ t, (watched 5).ReachableWhen (fun t => Thorough t.1) t
      ∧ decide (t.2.exit = true ∧ t.1.alive 7 = true ∧ t.2.killed 7 = true) = true :=
    Machine.exists_reachableWhen_of_execWhen (s := (start 5, nothingSent))
      (l := [.main, .main] ++ starts 7 ++ suspends 7 ++ [.command 'q', .main, .main, .main])
      ⟨rfl, rfl⟩ (by decide +kernel)
  have ht := of_decide_eq_true ht
  exact ⟨t, ht, none_left_when 5 t hr ht.1⟩

/-- What the sessions are: fork succeeds, and a signal comes at the prompt or while the current job
runs. -/
def Delivered (s : State) : Label → Prop
  | .fork new => new ≠ none
  | .signal _ => s.pc = .prompt ∨ s.child s.current.pid = some .running
  | _ => True

instance (s : State) : (a : Label) → Decidable (Delivered s a)
  | .fork _ => inferInstanceAs (Decidable (_ ≠ _))
  | .signal _ => inferInstanceAs (Decidable (_ ∨ _))
  | .main | .command _ | .choose _ | .handler | .job _ _ => inferInstanceAs (Decidable True)

/-- A session ends with an exit of the command loop that leaves job 1, whose entry reads so. -/
def LeftReading (status : Status) : Prop :=
  ∃ t, (watched 5).ReachableWhen (fun t => Delivered t.1) t
    ∧ t.2.exit = true ∧ (t.1.PT 1).status = status ∧ Loose t (t.1.PT 1).pid

theorem leftReading_of_exec {status : Status} {l : List Label}
    (h : ((watched 5).execWhen (fun t => Delivered t.1)
      (start 5, nothingSent) l).any (fun t =>
        decide (t.2.exit = true ∧ (t.1.PT 1).status = status ∧ t.1.alive (t.1.PT 1).pid = true
          ∧ t.2.killed (t.1.PT 1).pid = false ∧ t.2.interrupted (t.1.PT 1).pid = false)) = true) :
    LeftReading status := by
  have hinit : (watched 5).init (start 5, nothingSent) := ⟨rfl, rfl⟩
  obtain ⟨t, hr, ht⟩ := Machine.exists_reachableWhen_of_execWhen hinit h
  have ht := of_decide_eq_true ht
  exact ⟨t, hr, ht⟩

/-- A suspended job, nine jobs that exit, and an `r` for which the table is full. And before a `q`:
SIGTSTP just ahead of the store of `RUNNING`, and SIGTSTP within the handler of SIGINT. -/
theorem jobs_left :
    LeftReading .suspended ∧ LeftReading .finished ∧ LeftReading .terminated
    ∧ ¬ ∀ t, (watched 5).ReachableWhen (fun t => Delivered t.1) t →
        t.2.exit = true → ∀ pid, ¬ Loose t pid := by
  have hsuspended : LeftReading .suspended :=
    leftReading_of_exec
      (l := [.main, .main] ++ starts 7 ++ suspends 7
        ++ (List.range 9).flatMap (fun i => starts (8 + i) ++ ends (8 + i)) ++ [.command 'r'])
      (by decide +kernel)
  have hfinished : LeftReading .finished :=
    leftReading_of_exec
      (l := [.main, .main, .command 'r', .main, .main, .fork (some 7), .main, .signal .SIGTSTP,
        .handler, .handler, .handler, .main, .job 7 .stop, .main, .main, .main, .command 'q',
        .main, .main])
      (by decide +kernel)
  have hterminated : LeftReading .terminated :=
    leftReading_of_exec
      (l := [.main, .main] ++ starts 7 ++ [.signal .SIGINT, .handler, .signal .SIGTSTP, .handler,
        .handler, .handler, .job 7 .stop, .handler, .handler, .main, .main, .command 'q', .main,
        .main])
      (by decide +kernel)
  refine ⟨hsuspended, hfinished, hterminated, fun h => ?_⟩
  obtain ⟨t, hr, he, -, hl⟩ := hsuspended
  exact h t hr he _ hl

end OSLab.Jobs
