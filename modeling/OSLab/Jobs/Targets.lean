import OSLab.Jobs.Manager
import Mathlib.Tactic.Common

set_option autoImplicit false

/-! # Whom the job manager signals

A handler signals whatever `PT[currentJobIndex]` holds when its status reads `RUNNING`, which is
also what slot 0 and a zeroed entry read, and what the entry of a job reads until the statement
after the `waitpid` that reaped it. `c`, `k` and `q` signal whatever reads `SUSPENDED`, which is
also what the handler of SIGTSTP leaves on a job that exits all the same. In the runs that keep
clear of these places (`Clear`), every signal reaches a job of the manager
(`signals_own_when`).

The invariant says of every listed job, and of the job in hand, that its process is there, and
that no two of them share one.
-/

namespace OSLab.Jobs

/-! ## The condition -/

/-- The entry whose job's exit the next statement, a `waitpid`, returns. -/
def State.reaping (s : State) : Option Nat :=
  match s.pc with
  | .waitSpawn pid => if s.child pid = some .zombie then some s.currentJobIndex else none
  | .waitCont i => if s.child (s.PT i).pid = some .zombie then some i else none
  | _ => none

/-- The entries whose job was reaped while they read `SUSPENDED`. -/
def record (s : State) (a : Label) (gone : Nat → Bool) : Nat → Bool :=
  match a, s.reaping with
  | .main, some i =>
      if (s.PT i).status = .suspended then Function.update gone i true else gone
  | _, _ => gone

/-- The manager with a record of the jobs that are gone although listed as suspended. -/
def tracked (own : Nat) : Machine (State × (Nat → Bool)) Label :=
  (machine own).withHistory (fun _ => false) record

/-- `waitpid` has returned the exit of the current job and its status is still to be updated. -/
def State.reaped (s : State) : Prop := s.pc = .check true ∨ s.pc = .finish true

instance (s : State) : Decidable s.reaped := inferInstanceAs (Decidable (_ ∨ _))

/-- The innermost handler is at its test. -/
def State.testing (s : State) : Bool :=
  match s.frames with
  | ⟨_, .test⟩ :: _ => true
  | _ => false

/-- The entry that the test of `cleanup` looks at; at the end of its loop it looks at none. -/
def State.cleaning (s : State) : Option Nat :=
  match s.pc with
  | .cleanup i => if i ≤ s.totalJobs then some i else none
  | _ => none

/-- A step keeps clear of the entries whose status says what is not so: a handler does not find
`RUNNING` in slot 0, in an entry without a pid, or in the entry of a job just reaped; and neither
a choice nor the cleanup meets an entry whose job was reaped while `SUSPENDED`, nor the cleanup
one whose fork failed. -/
def Clear (t : State × (Nat → Bool)) : Label → Prop
  | .handler => t.1.testing = true → t.1.current.status = .running →
      t.1.currentJobIndex ≠ 0 ∧ t.1.current.pid ≠ 0 ∧ ¬ t.1.reaped
  | .choose i => (t.1.PT i.toNat).status = .suspended → t.2 i.toNat = false
  | .main => ∀ i ∈ t.1.cleaning,
      ((t.1.PT i).status = .running → (t.1.PT i).pid ≠ 0)
        ∧ ((t.1.PT i).status = .suspended → t.2 i = false)
  | _ => True

instance (t : State × (Nat → Bool)) : (a : Label) → Decidable (Clear t a)
  | .handler => inferInstanceAs (Decidable (_ → _ → _))
  | .choose _ => inferInstanceAs (Decidable (_ → _))
  | .main => inferInstanceAs (Decidable (∀ _ ∈ _, _))
  | .command _ | .fork _ | .signal _ | .job _ _ => inferInstanceAs (Decidable True)

/-! ## The invariant -/

/-- Entry `i` reads `SUSPENDED` and its job has not been reaped. -/
def Listed (s : State) (gone : Nat → Bool) (i : Nat) : Prop :=
  (s.PT i).status = .suspended ∧ gone i = false

/-- The entry whose job the manager starts, continues or waits for. -/
def State.inHand (s : State) : Option Nat :=
  match s.pc with
  | .storeStatus _ | .waitSpawn _ | .check _ | .finish _ => some s.currentJobIndex
  | .contCurrent i | .killCont i | .waitCont i => some i
  | _ => none

/-- What the place of the command loop says about the entries it works on. -/
def Place (s : State) (gone : Nat → Bool) : Prop :=
  match s.pc with
  | .setCurrent => s.totalJobs ≠ 0
  | .fork | .check _ | .finish _ => s.currentJobIndex ≠ 0
  | .storePid pid => s.currentJobIndex ≠ 0 ∧ (s.child pid).isSome
      ∧ ∀ i, Listed s gone i → (s.PT i).pid ≠ pid
  | .storeStatus pid | .waitSpawn pid => s.current.pid = pid
  | .setRunning i | .killJob i | .setKilled i => i ≠ 0 ∧ Listed s gone i
  | .killCont i | .waitCont i => s.currentJobIndex = i
  | .waitKilled i => (s.PT i).status = .killed
      ∧ ∀ j, Listed s gone j → (s.PT j).pid ≠ (s.PT i).pid
  | .cleanup i => i ≠ 0
  | .killCleanup i => (s.child (s.PT i).pid).isSome
  | _ => True

/-- What holds as long as the steps keep clear. -/
structure Sound (s : State) (gone : Nat → Bool) : Prop where
  /-- Neither the manager's pid nor `0` is a child's. -/
  strangers : s.child s.own = none ∧ s.child 0 = none
  self : (s.PT 0).status = .running
  /-- A listed job is there. -/
  listed : ∀ i, Listed s gone i → (s.child (s.PT i).pid).isSome
  /-- Listed jobs are different processes. -/
  apart : ∀ i j, Listed s gone i → Listed s gone j → (s.PT i).pid = (s.PT j).pid → i = j
  /-- The job in hand is there until it is reaped, and is none of the other listed jobs. -/
  hand : ∀ i, s.inHand = some i → ¬ s.reaped →
    i ≠ 0 ∧ (s.child (s.PT i).pid).isSome
      ∧ ∀ j, Listed s gone j → (s.PT j).pid = (s.PT i).pid → j = i
  /-- An entry with a pid that reads `RUNNING` is in hand. -/
  running : ∀ i, i ≠ 0 → (s.PT i).status = .running → (s.PT i).pid ≠ 0 → s.inHand = some i
  place : Place s gone
  /-- A handler that has passed its test works on the job in hand. -/
  frames : ∀ f ∈ s.frames, f.pc ≠ .test → s.inHand = some s.currentJobIndex ∧ ¬ s.reaped

variable {s s' : State} {gone : Nat → Bool} {i : Nat} {own : Nat}

theorem sound_start : Sound (start own) (fun _ => false) where
  strangers := ⟨rfl, rfl⟩
  self := rfl
  listed i hi := by simp [Listed, start] at hi
  apart i j hi := by simp [Listed, start] at hi
  hand i hi := by simp [State.inHand, start] at hi
  running i _ _ hp := absurd rfl hp
  place := trivial
  frames f hf := by simp [start] at hf

theorem Sound.listed_ne_zero (h : Sound s gone) (hi : Listed s gone i) : i ≠ 0 := by
  rintro rfl
  have := h.self
  rw [hi.1] at this
  cases this

/-- **What is signalled is there.** -/
theorem Sound.signals (h : Sound s gone) : SignalsOwnJobs s := by
  have hlive : ∀ pid, (s.child pid).isSome → pid ≠ s.own ∧ pid ≠ 0 ∧ (s.child pid).isSome := by
    intro pid hp
    refine ⟨?_, ?_, hp⟩
    · rintro rfl
      simp [h.strangers.1] at hp
    · rintro rfl
      simp [h.strangers.2] at hp
  intro pid hk
  have hplace := h.place
  unfold State.killTarget at hk
  split at hk
  · -- a handler at its `kill` works on the job in hand
    rename_i g fs hf
    obtain ⟨hh, hr⟩ := h.frames ⟨g, .kill⟩ (by rw [hf]; exact List.mem_cons_self) (by simp)
    cases hk
    exact hlive _ (h.hand _ hh hr).2.1
  · cases hk
  · unfold Place at hplace
    split at hk
    · rename_i i hpc
      cases hk
      have hr : ¬ s.reaped := by simp [State.reaped, hpc]
      exact hlive _ (h.hand i (by simp [State.inHand, hpc]) hr).2.1
    · rename_i i hpc
      simp only [hpc] at hplace
      cases hk
      exact hlive _ (h.listed i hplace.2)
    · rename_i i hpc
      simp only [hpc] at hplace
      cases hk
      exact hlive _ hplace
    · cases hk

/-! ## What a step is -/

theorem loopStep_eq_some {f : State → Option State} (h : loopStep s f = some s') :
    s.frames = [] ∧ f s = some s' := by
  unfold loopStep at h
  split at h
  · exact ⟨‹_›, h⟩
  · cases h

/-- `waitpid` changes a child and moves on. -/
theorem waitpid_eq_some {pid : Nat} {after : Bool → Pc} (h : waitpid s pid after = some s') :
    ∃ e, s' = { s with child := s'.child, pc := after e } := by
  unfold waitpid at h
  split at h <;> cases h
  · exact ⟨false, rfl⟩
  · exact ⟨true, rfl⟩
  · exact ⟨false, rfl⟩

/-- A command is read at the prompt, and the loop goes to its first statement. -/
theorem commandStep_eq_some {userInput : Char} (h : commandStep s userInput = some s') :
    s.pc = .prompt ∧ (s' = s.goto .prompt ∨ (s.totalJobs < MAX_JOBS ∧ s' = s.goto .incTotal)
      ∨ s' = s.goto .exited ∨ (∃ c, s' = s.goto (.list c 0 false)) ∨ s' = s.goto (.cleanup 1)) := by
  unfold commandStep at h
  split at h
  · rename_i hpc
    refine ⟨hpc, ?_⟩
    split at h <;> cases h
    · split
      · exact Or.inr (Or.inl ⟨‹_›, rfl⟩)
      · exact Or.inr (Or.inr (Or.inl rfl))
    · exact Or.inr (Or.inr (Or.inr (Or.inl ⟨.cont, rfl⟩)))
    · exact Or.inr (Or.inr (Or.inr (Or.inl ⟨.kill, rfl⟩)))
    · exact Or.inr (Or.inr (Or.inr (Or.inr rfl)))
    · left
      rw [State.goto, ← hpc]
  · cases h

/-- A choice is accepted where the entry is in use and reads `SUSPENDED`. -/
theorem chooseStep_eq_some {k : Int} (h : chooseStep s k = some s') :
    ∃ c, s.pc = .choose c ∧ (s' = s.goto .prompt
      ∨ (k.toNat ≤ s.totalJobs ∧ (s.PT k.toNat).status = .suspended
        ∧ (s' = s.goto (.setRunning k.toNat) ∨ s' = s.goto (.killJob k.toNat)))) := by
  unfold chooseStep at h
  split at h
  · rename_i c hpc
    refine ⟨c, hpc, ?_⟩
    split at h
    · cases h
      exact Or.inl rfl
    · rename_i hk
      have hle : k.toNat ≤ s.totalJobs := by omega
      have hst : (s.PT k.toNat).status = .suspended := by
        by_contra hne
        exact hk (Or.inr (Or.inr hne))
      refine Or.inr ⟨hle, hst, ?_⟩
      cases c with
      | cont => exact Or.inl (Option.some.inj h).symm
      | kill => exact Or.inr (Option.some.inj h).symm
  · cases h

/-- A fork that succeeds brings a child that is none of the processes there are. -/
theorem forkStep_eq_some {pid : Option Nat} (h : forkStep s pid = some s') :
    s.pc = .fork ∧ ((pid = none ∧ s' = s.goto .prompt)
      ∨ ∃ p, pid = some p ∧ (p ≠ 0 ∧ p ≠ s.own ∧ s.child p = none)
        ∧ s' = { s with
            child := Function.update s.child p (some .running), pc := .storePid p }) := by
  unfold forkStep at h
  split at h
  · rename_i hpc
    refine ⟨hpc, ?_⟩
    cases pid with
    | none => exact Or.inl ⟨rfl, (Option.some.inj h).symm⟩
    | some p =>
        simp only at h
        split at h
        · rename_i hp
          exact Or.inr ⟨p, rfl, hp, (Option.some.inj h).symm⟩
        · cases h
  · cases h

/-- The three statements of a handler. -/
theorem handlerStep_eq_some (h : handlerStep s = some s') :
    (∃ g fs, s.frames = ⟨g, .test⟩ :: fs ∧ s' = { s with
        frames := if s.current.status = .running then ⟨g, .mark⟩ :: fs else fs })
      ∨ (∃ g fs, s.frames = ⟨g, .mark⟩ :: fs ∧ s' = { s.setStatus s.currentJobIndex g.status with
          frames := ⟨g, .kill⟩ :: fs })
      ∨ ∃ g fs, s.frames = ⟨g, .kill⟩ :: fs ∧ s' = { s with frames := fs } := by
  unfold handlerStep at h
  split at h
  · cases h
  · rename_i g fs hf
    exact Or.inl ⟨g, fs, hf, (Option.some.inj h).symm⟩
  · rename_i g fs hf
    exact Or.inr (Or.inl ⟨g, fs, hf, (Option.some.inj h).symm⟩)
  · rename_i g fs hf
    exact Or.inr (Or.inr ⟨g, fs, hf, (Option.some.inj h).symm⟩)

/-- What the label of a step says of it. -/
def Moves (s : State) (a : Label) (s' : State) : Prop :=
  match a with
  | .main => s.frames = [] ∧ mainStep s = some s'
  | .command userInput => s.frames = [] ∧ commandStep s userInput = some s'
  | .choose chosenIndex => s.frames = [] ∧ chooseStep s chosenIndex = some s'
  | .fork pid => s.frames = [] ∧ forkStep s pid = some s'
  | .signal signo => s.pc ≠ .exited ∧ s' = { s with frames := ⟨signo, .test⟩ :: s.frames }
  | .handler => s.pc ≠ .exited ∧ handlerStep s = some s'
  | .job pid e => ∃ c c', s.child pid = some c ∧ jobStep c e = some c'
      ∧ s' = { s with child := Function.update s.child pid (some c') }

theorem moves_of_next {a : Label} (h : (machine own).next s a = some s') : Moves s a s' := by
  cases a with
  | main => exact loopStep_eq_some h
  | command userInput => exact loopStep_eq_some (f := fun s => commandStep s userInput) h
  | choose k => exact loopStep_eq_some (f := fun s => chooseStep s k) h
  | fork pid => exact loopStep_eq_some (f := fun s => forkStep s pid) h
  | signal g =>
      simp only [machine] at h
      split at h
      · rename_i hpc
        exact ⟨hpc.1, (Option.some.inj h).symm⟩
      · cases h
  | handler =>
      simp only [machine] at h
      split at h
      · rename_i hpc
        exact ⟨hpc, h⟩
      · cases h
  | job p e =>
      simp only [machine] at h
      split at h
      · cases h
      · rename_i c hc
        obtain ⟨c', hj, rfl⟩ := Option.map_eq_some_iff.mp h
        exact ⟨c, c', hc, hj, rfl⟩

/-! ## The table after a store -/

@[simp] theorem setStatus_pid (s : State) (i j : Nat) (status : Status) :
    ((s.setStatus i status).PT j).pid = (s.PT j).pid := by
  by_cases hj : j = i
  · rw [hj]
    simp [State.setStatus]
  · simp [State.setStatus, hj]

theorem setStatus_status_ne (s : State) {i j : Nat} (status : Status) (hj : j ≠ i) :
    ((s.setStatus i status).PT j).status = (s.PT j).status := by
  simp [State.setStatus, hj]

@[simp] theorem setStatus_status_self (s : State) (i : Nat) (status : Status) :
    ((s.setStatus i status).PT i).status = status := by
  simp [State.setStatus]

/-! ## Steps that leave the table alone -/

/-- Children may change what they do, as long as none appears or disappears. -/
theorem Sound.child (h : Sound s gone) (child : Nat → Option Child)
    (hc : ∀ p, (child p).isSome = (s.child p).isSome) : Sound { s with child := child } gone where
  strangers := by
    have h0 := hc s.own
    have h1 := hc 0
    rw [h.strangers.1, Option.isSome_none, Option.isSome_eq_false_iff, Option.isNone_iff_eq_none]
      at h0
    rw [h.strangers.2, Option.isSome_none, Option.isSome_eq_false_iff, Option.isNone_iff_eq_none]
      at h1
    exact ⟨h0, h1⟩
  self := h.self
  listed i hi := (hc _).trans (h.listed i hi)
  apart := h.apart
  hand i hi hr := by
    obtain ⟨h0, hs, ha⟩ := h.hand i hi hr
    exact ⟨h0, (hc _).trans hs, ha⟩
  running := h.running
  place := by
    have hp := h.place
    show Place { s with child := child } gone
    unfold Place at hp ⊢
    cases hpc : s.pc <;> simp only [hpc] at hp ⊢ <;> try exact hp
    case storePid pid => exact ⟨hp.1, (hc _).trans hp.2.1, hp.2.2⟩
    case killCleanup i => exact (hc _).trans hp
  frames := h.frames

/-- The loop moves on and may change the two counters, the table being as it is. -/
theorem Sound.move (h : Sound s gone) (hf : s.frames = []) (c t : Nat) (pc : Pc)
    (hhand : ∀ i, { s with currentJobIndex := c, totalJobs := t, pc := pc }.inHand = some i →
      ¬ (s.goto pc).reaped → s.inHand = some i ∧ ¬ s.reaped)
    (hrun : ∀ i, i ≠ 0 → (s.PT i).status = .running → s.inHand = some i →
      { s with currentJobIndex := c, totalJobs := t, pc := pc }.inHand = some i)
    (hplace : Place { s with currentJobIndex := c, totalJobs := t, pc := pc } gone) :
    Sound { s with currentJobIndex := c, totalJobs := t, pc := pc } gone where
  strangers := h.strangers
  self := h.self
  listed := h.listed
  apart := h.apart
  hand i hi hr := h.hand i (hhand i hi hr).1 (hhand i hi hr).2
  running i h0 hs hp := hrun i h0 hs (h.running i h0 hs hp)
  place := hplace
  frames f hm := by
    rw [hf] at hm
    cases hm

/-- The loop only moves on. -/
theorem Sound.goto (h : Sound s gone) (hf : s.frames = []) (pc : Pc)
    (hhand : ∀ i, (s.goto pc).inHand = some i → ¬ (s.goto pc).reaped →
      s.inHand = some i ∧ ¬ s.reaped)
    (hrun : ∀ i, i ≠ 0 → (s.PT i).status = .running → s.inHand = some i →
      (s.goto pc).inHand = some i)
    (hplace : Place (s.goto pc) gone) : Sound (s.goto pc) gone :=
  h.move hf s.currentJobIndex s.totalJobs pc hhand hrun hplace

/-- Between two places with nothing in hand. -/
theorem Sound.idle (h : Sound s gone) (hf : s.frames = []) (pc : Pc) (hi : s.inHand = none)
    (hi' : (s.goto pc).inHand = none) (hplace : Place (s.goto pc) gone) :
    Sound (s.goto pc) gone :=
  h.goto hf pc (fun i hh => by rw [hi'] at hh; cases hh) (fun i _ _ hh => by rw [hi] at hh; cases hh)
    hplace

theorem job_sound (h : Sound s gone) {p : Nat} {c c' : Child}
    (hc : s.child p = some c) :
    Sound { s with child := Function.update s.child p (some c') } gone := by
  refine h.child _ fun q => ?_
  by_cases hq : q = p
  · rw [hq, Function.update_self, hc]
    rfl
  · rw [Function.update_of_ne hq]

theorem signal_sound (h : Sound s gone) (g : Signo) :
    Sound { s with frames := ⟨g, .test⟩ :: s.frames } gone where
  strangers := h.strangers
  self := h.self
  listed := h.listed
  apart := h.apart
  hand := h.hand
  running := h.running
  place := h.place
  frames f hf ht := by
    rcases List.mem_cons.mp hf with rfl | hf
    · exact absurd rfl ht
    · exact h.frames f hf ht

/-! ## The handlers -/

/-- Frames go, or come where the job in hand is the current one. -/
theorem Sound.frame (h : Sound s gone) (fs : List Frame)
    (hfs : ∀ f ∈ fs, f.pc ≠ .test → s.inHand = some s.currentJobIndex ∧ ¬ s.reaped) :
    Sound { s with frames := fs } gone :=
  { h with frames := hfs }

/-- The store of a handler that has passed its test. -/
theorem Sound.mark (h : Sound s gone) (status : Status) (hst : status ≠ .running)
    (hh : s.inHand = some s.currentJobIndex) (hr : ¬ s.reaped) :
    Sound (s.setStatus s.currentJobIndex status) gone := by
  obtain ⟨h0, halive, hapart⟩ := h.hand _ hh hr
  have hpid : ∀ j, ((s.setStatus s.currentJobIndex status).PT j).pid = (s.PT j).pid :=
    fun j => setStatus_pid s _ j status
  have hlisted : ∀ j, Listed (s.setStatus s.currentJobIndex status) gone j →
      j = s.currentJobIndex ∨ Listed s gone j := by
    intro j hj
    by_cases hc : j = s.currentJobIndex
    · exact Or.inl hc
    · right
      simpa [Listed, State.setStatus, hc] using hj
  refine ⟨h.strangers, ?_, ?_, ?_, ?_, ?_, ?_, h.frames⟩
  · simpa [State.setStatus, h0.symm] using h.self
  · intro i hi
    rw [hpid]
    rcases hlisted i hi with rfl | hi
    · exact halive
    · exact h.listed i hi
  · intro i j hi hj hij
    rw [hpid, hpid] at hij
    rcases hlisted i hi with rfl | hi <;> rcases hlisted j hj with rfl | hj
    · rfl
    · exact (hapart j hj hij.symm).symm
    · exact hapart i hi hij
    · exact h.apart i j hi hj hij
  · intro i hi hr'
    rw [show i = s.currentJobIndex from Option.some.inj (hi.symm.trans hh)]
    refine ⟨h0, (hpid _).symm ▸ halive, fun j hj hij => ?_⟩
    rw [hpid, hpid] at hij
    rcases hlisted j hj with rfl | hj
    · rfl
    · exact hapart j hj hij
  · intro i hi hs hp
    have hic : i ≠ s.currentJobIndex := by
      rintro rfl
      simp [State.setStatus, hst] at hs
    refine h.running i hi ?_ ((hpid i) ▸ hp)
    simpa [State.setStatus, hic] using hs
  · -- the job in hand is the current one, so the loop is at none of the other places
    have hp := h.place
    show Place { s.setStatus s.currentJobIndex status with pc := s.pc } gone
    unfold State.inHand at hh
    unfold Place at hp ⊢
    cases hpc : s.pc <;> simp only [hpc, reduceCtorEq] at hh hp ⊢
    case storeStatus pid => exact (hpid _).trans hp
    case waitSpawn pid => exact (hpid _).trans hp
    all_goals exact hp

theorem handler_sound (h : Sound s gone) (hc : Clear (s, gone) .handler)
    (hs : handlerStep s = some s') : Sound s' gone := by
  obtain ⟨g, fs, hf, rfl⟩ | ⟨g, fs, hf, rfl⟩ | ⟨g, fs, hf, rfl⟩ := handlerStep_eq_some hs
  · refine h.frame _ ?_
    have hc := hc (by simp [State.testing, hf])
    have hrest : ∀ f ∈ fs, f.pc ≠ .test → s.inHand = some s.currentJobIndex ∧ ¬ s.reaped :=
      fun f hm => h.frames f (by rw [hf]; exact List.mem_cons_of_mem _ hm)
    split
    · rename_i hrun
      obtain ⟨h0, hp, hr⟩ := hc hrun
      intro f hm _
      exact ⟨h.running _ h0 hrun hp, hr⟩
    · exact hrest
  · obtain ⟨hh, hr⟩ := h.frames ⟨g, .mark⟩ (by rw [hf]; exact List.mem_cons_self) (by simp)
    have hg : g.status ≠ .running := by cases g <;> simp [Signo.status]
    exact (h.mark g.status hg hh hr).frame _ fun _ _ _ => ⟨hh, hr⟩
  · exact h.frame _ fun f hm => h.frames f (by rw [hf]; exact List.mem_cons_of_mem _ hm)

/-! ## The command loop -/

/-- The loop stores a status other than `SUSPENDED`. -/
theorem Sound.store (h : Sound s gone) (hf : s.frames = []) (i : Nat) (status : Status) (pc : Pc)
    (hst : status ≠ .suspended) (hself : i = 0 → status = .running)
    (hhand : ∀ k, ((s.setStatus i status).goto pc).inHand = some k →
      ¬ ((s.setStatus i status).goto pc).reaped →
      k ≠ 0 ∧ (s.child (s.PT k).pid).isSome
        ∧ ∀ j, Listed s gone j → (s.PT j).pid = (s.PT k).pid → j = k)
    (hrun : ∀ k, k ≠ 0 → ((s.setStatus i status).PT k).status = .running → (s.PT k).pid ≠ 0 →
      ((s.setStatus i status).goto pc).inHand = some k)
    (hplace : (∀ j, Listed ((s.setStatus i status).goto pc) gone j → j ≠ i ∧ Listed s gone j) →
      Place ((s.setStatus i status).goto pc) gone) :
    Sound ((s.setStatus i status).goto pc) gone := by
  have hlisted : ∀ j, Listed ((s.setStatus i status).goto pc) gone j → j ≠ i ∧ Listed s gone j := by
    intro j hj
    by_cases hji : j = i
    · subst hji
      exact absurd ((setStatus_status_self s j status).symm.trans hj.1) hst
    · exact ⟨hji, (setStatus_status_ne s status hji).symm.trans hj.1, hj.2⟩
  have hpid : ∀ j, (((s.setStatus i status).goto pc).PT j).pid = (s.PT j).pid :=
    fun j => setStatus_pid s i j status
  refine ⟨h.strangers, ?_, ?_, ?_, ?_, ?_, hplace hlisted, ?_⟩
  · by_cases h0 : 0 = i
    · rw [← h0]
      exact (setStatus_status_self s 0 status).trans (hself h0.symm)
    · exact (setStatus_status_ne s status h0).trans h.self
  · intro j hj
    rw [hpid]
    exact h.listed j (hlisted j hj).2
  · intro j k hj hk hjk
    rw [hpid, hpid] at hjk
    exact h.apart j k (hlisted j hj).2 (hlisted k hk).2 hjk
  · intro k hk hr
    obtain ⟨h0, hs, ha⟩ := hhand k hk hr
    refine ⟨h0, ?_, fun j hj hjk => ?_⟩
    · rw [hpid]
      exact hs
    · rw [hpid, hpid] at hjk
      exact ha j (hlisted j hj).2 hjk
  · intro k h0 hs hp
    rw [hpid] at hp
    exact hrun k h0 hs hp
  · intro f hm
    have hm : f ∈ s.frames := hm
    rw [hf] at hm
    cases hm

/-- `waitpid` on the job in hand. What it reaps is recorded where it matters. -/
theorem Sound.wait (h : Sound s gone) (hf : s.frames = [])
    (hh : s.inHand = some s.currentJobIndex) (hr : ¬ s.reaped)
    (hs : waitpid s s.current.pid .check = some s') :
    Sound s' (if s.child s.current.pid = some .zombie ∧ s.current.status = .suspended
      then Function.update gone s.currentJobIndex true else gone) := by
  obtain ⟨h0, halive, hapart⟩ := h.hand _ hh hr
  have hrun : ∀ i, i ≠ 0 → (s.PT i).status = .running → (s.PT i).pid ≠ 0 →
      s.currentJobIndex = i := by
    intro i hi hst hp
    exact Option.some.inj (hh.symm.trans (h.running i hi hst hp))
  unfold waitpid at hs
  split at hs <;> rename_i hc
  · rw [State.current] at hc
    simp [hc] at halive
  · cases hs
    -- the reaped child was none of the other listed jobs
    set gone' := if s.child s.current.pid = some .zombie ∧ s.current.status = .suspended
      then Function.update gone s.currentJobIndex true else gone with hgone
    have hlisted : ∀ j, Listed s gone' j → Listed s gone j ∧ (s.PT j).pid ≠ s.current.pid := by
      intro j hj
      have hjc : j ≠ s.currentJobIndex := by
        rintro rfl
        have := hj.2
        rw [hgone, if_pos ⟨hc, hj.1⟩, Function.update_self] at this
        cases this
      have hl : Listed s gone j := by
        refine ⟨hj.1, ?_⟩
        have := hj.2
        rw [hgone] at this
        split at this
        · rwa [Function.update_of_ne hjc] at this
        · exact this
      exact ⟨hl, fun he => hjc (hapart j hl he)⟩
    refine ⟨⟨?_, ?_⟩, h.self, ?_, ?_, ?_, ?_, h0, ?_⟩
    · show Function.update s.child s.current.pid none s.own = none
      by_cases ho : s.own = s.current.pid
      · rw [ho, Function.update_self]
      · rw [Function.update_of_ne ho]
        exact h.strangers.1
    · show Function.update s.child s.current.pid none 0 = none
      by_cases ho : 0 = s.current.pid
      · rw [← ho, Function.update_self]
      · rw [Function.update_of_ne ho]
        exact h.strangers.2
    · intro j hj
      obtain ⟨hl, hp⟩ := hlisted j hj
      show (Function.update s.child s.current.pid none (s.PT j).pid).isSome
      rw [Function.update_of_ne hp]
      exact h.listed j hl
    · intro j k hj hk
      exact h.apart j k (hlisted j hj).1 (hlisted k hk).1
    · intro k _ hr'
      exact absurd (Or.inl rfl) hr'
    · intro i hi hst hp
      exact congrArg some (hrun i hi hst hp)
    · intro f hm
      have hm : f ∈ s.frames := hm
      rw [hf] at hm
      cases hm
  · cases hs
    rw [if_neg (by rw [hc]; simp)]
    have hstop := h.child (Function.update s.child s.current.pid (some (.stopped true)))
      fun p => by
        by_cases hp : p = s.current.pid
        · rw [hp, Function.update_self, hc]
          rfl
        · rw [Function.update_of_ne hp]
    refine hstop.goto hf (.check false) (fun i hi _ => ⟨hh.trans hi, hr⟩) ?_ h0
    intro i _ _ hi
    exact hh.symm.trans hi
  · cases hs
  · cases hs

/-- `waitpid` on the job that `k` has killed, which is not listed any more. -/
theorem Sound.waitKilled (h : Sound s gone) (hf : s.frames = []) {i : Nat}
    (hpc : s.pc = .waitKilled i) (hs : waitpid s (s.PT i).pid (fun _ => .prompt) = some s') :
    Sound s' gone := by
  have hp := h.place
  simp only [Place, hpc] at hp
  have hh : s.inHand = none := by simp [State.inHand, hpc]
  unfold waitpid at hs
  split at hs <;> rename_i hc
  · cases hs
    exact h.idle hf .prompt hh rfl trivial
  · cases hs
    have hgone : ∀ p, p ≠ (s.PT i).pid →
        Function.update s.child (s.PT i).pid none p = s.child p :=
      fun p hne => Function.update_of_ne hne _ _
    have hnone : ∀ p, s.child p = none → Function.update s.child (s.PT i).pid none p = none := by
      intro p hn
      by_cases he : p = (s.PT i).pid
      · rw [he, Function.update_self]
      · rw [hgone p he, hn]
    refine ⟨⟨hnone _ h.strangers.1, hnone _ h.strangers.2⟩, h.self, ?_, h.apart, ?_, ?_, trivial, ?_⟩
    · intro j hj
      show (Function.update s.child (s.PT i).pid none (s.PT j).pid).isSome
      rw [hgone _ (hp.2 j hj)]
      exact h.listed j hj
    · intro k hk
      cases hk
    · intro k h0 hst hpid
      have := h.running k h0 hst hpid
      rw [hh] at this
      cases this
    · intro f hm
      have hm : f ∈ s.frames := hm
      rw [hf] at hm
      cases hm
  · cases hs
    have hstop := h.child (Function.update s.child (s.PT i).pid (some (.stopped true)))
      fun p => by
        by_cases hq : p = (s.PT i).pid
        · rw [hq, Function.update_self, hc]
          rfl
        · rw [Function.update_of_ne hq]
    exact hstop.idle hf .prompt hh rfl trivial
  · cases hs
  · cases hs

/-- The loop stores a pid in the entry of the current job. -/
theorem Sound.storePid (h : Sound s gone) (hf : s.frames = []) {pid : Nat}
    (hpc : s.pc = .storePid pid) :
    Sound ((s.setPid s.currentJobIndex pid).goto (.storeStatus pid)) gone := by
  have hp := h.place
  simp only [Place, hpc] at hp
  obtain ⟨h0, halive, hfresh⟩ := hp
  have hh : s.inHand = none := by simp [State.inHand, hpc]
  set s' := (s.setPid s.currentJobIndex pid).goto (.storeStatus pid) with hs'
  have hstatus : ∀ j, (s'.PT j).status = (s.PT j).status := by
    intro j
    by_cases hj : j = s.currentJobIndex
    · rw [hj]
      simp [hs', State.goto, State.setPid]
    · simp [hs', State.goto, State.setPid, hj]
  have hself : (s'.PT s.currentJobIndex).pid = pid := by
    simp [hs', State.goto, State.setPid]
  have hother : ∀ j, j ≠ s.currentJobIndex → (s'.PT j).pid = (s.PT j).pid := by
    intro j hj
    simp [hs', State.goto, State.setPid, hj]
  have hlisted : ∀ j, Listed s' gone j → Listed s gone j :=
    fun j hj => ⟨(hstatus j).symm.trans hj.1, hj.2⟩
  refine ⟨h.strangers, (hstatus 0).trans h.self, ?_, ?_, ?_, ?_, hself, ?_⟩
  · intro j hj
    by_cases hjc : j = s.currentJobIndex
    · rw [hjc, hself]
      exact halive
    · rw [hother j hjc]
      exact h.listed j (hlisted j hj)
  · intro j k hj hk hjk
    by_cases hjc : j = s.currentJobIndex <;> by_cases hkc : k = s.currentJobIndex
    · exact hjc.trans hkc.symm
    · rw [hjc, hself, hother k hkc] at hjk
      exact absurd hjk.symm (hfresh k (hlisted k hk))
    · rw [hkc, hself, hother j hjc] at hjk
      exact absurd hjk (hfresh j (hlisted j hj))
    · rw [hother j hjc, hother k hkc] at hjk
      exact h.apart j k (hlisted j hj) (hlisted k hk) hjk
  · intro k hk _
    obtain rfl : s.currentJobIndex = k := Option.some.inj hk
    refine ⟨h0, by rw [hself]; exact halive, fun j hj hjk => ?_⟩
    by_contra hjc
    rw [hself, hother j hjc] at hjk
    exact hfresh j (hlisted j hj) hjk
  · intro k hk hst hpid
    by_cases hkc : k = s.currentJobIndex
    · exact congrArg some hkc.symm
    · rw [hother k hkc] at hpid
      have := h.running k hk ((hstatus k).symm.trans hst) hpid
      rw [hh] at this
      cases this
  · intro f hm
    have hm : f ∈ s.frames := hm
    rw [hf] at hm
    cases hm

/-- The pid of slot 0 is nobody's concern. -/
theorem Sound.setPid_zero (h : Sound s gone) (hf : s.frames = []) (hpc : s.pc = .setPid) :
    Sound ((s.setPid 0 s.own).goto .setStatus) gone := by
  have hh : s.inHand = none := by simp [State.inHand, hpc]
  have hother : ∀ j, j ≠ 0 → ((s.setPid 0 s.own).goto .setStatus).PT j = s.PT j := by
    intro j hj
    simp [State.goto, State.setPid, hj]
  have hlisted : ∀ j, Listed ((s.setPid 0 s.own).goto .setStatus) gone j →
      j ≠ 0 ∧ Listed s gone j := by
    intro j hj
    have h0 : j ≠ 0 := by
      rintro rfl
      have := hj.1
      simp [State.goto, State.setPid, h.self] at this
    exact ⟨h0, by rw [Listed, hother j h0] at hj; exact hj⟩
  refine ⟨h.strangers, ?_, ?_, ?_, ?_, ?_, trivial, ?_⟩
  · simpa [State.goto, State.setPid] using h.self
  · intro j hj
    obtain ⟨h0, hl⟩ := hlisted j hj
    rw [hother j h0]
    exact h.listed j hl
  · intro j k hj hk hjk
    obtain ⟨hj0, hjl⟩ := hlisted j hj
    obtain ⟨hk0, hkl⟩ := hlisted k hk
    rw [hother j hj0, hother k hk0] at hjk
    exact h.apart j k hjl hkl hjk
  · intro k hk
    cases hk
  · intro k h0 hst hp
    rw [hother k h0] at hst hp
    have := h.running k h0 hst hp
    rw [hh] at this
    cases this
  · intro f hm
    have hm : f ∈ s.frames := hm
    rw [hf] at hm
    cases hm

/-- With nothing in hand an entry that reads `RUNNING` has no pid. -/
theorem Sound.no_pid (h : Sound s gone) (hh : s.inHand = none) {k : Nat} (h0 : k ≠ 0)
    (hst : (s.PT k).status = .running) : (s.PT k).pid = 0 := by
  by_contra hp
  have := h.running k h0 hst hp
  rw [hh] at this
  cases this

/-- After a status is stored in the entry in hand, no other reads `RUNNING` with a pid. -/
theorem Sound.running_setStatus (h : Sound s gone) {status : Status}
    (hin : ∀ k, s.inHand = some k → k = i) {k : Nat} (h0 : k ≠ 0)
    (hst : ((s.setStatus i status).PT k).status = .running) (hpid : (s.PT k).pid ≠ 0) :
    k = i ∧ status = .running := by
  by_cases hki : k = i
  · subst hki
    exact ⟨rfl, (setStatus_status_self s k status).symm.trans hst⟩
  · rw [setStatus_status_ne s status hki] at hst
    exact absurd (hin k (h.running k h0 hst hpid)) hki

theorem record_of_not_reaping (h : s.reaping = none) (a : Label) : record s a gone = gone := by
  unfold record
  rw [h]
  split
  · rename_i he
    cases he
  · rfl

/-- What `waitpid` on the current job records. -/
theorem record_of_reaping {p : Prop} [Decidable p]
    (h : s.reaping = if p then some s.currentJobIndex else none) :
    record s .main gone = if p ∧ s.current.status = .suspended
      then Function.update gone s.currentJobIndex true else gone := by
  unfold record
  rw [h]
  by_cases hp : p
  · simp [hp, State.current]
  · simp [hp]

theorem main_sound (h : Sound s gone) (hf : s.frames = []) (hc : Clear (s, gone) .main)
    (hs : mainStep s = some s') : Sound s' (record s .main gone) := by
  have hp := h.place
  unfold mainStep at hs
  unfold Place at hp
  cases hpc : s.pc <;> simp only [hpc, Option.some.injEq, reduceCtorEq] at hs hp
  case waitSpawn pid =>
    have hr : ¬ s.reaped := by simp [State.reaped, hpc]
    rw [record_of_reaping (p := s.child s.current.pid = some .zombie)
      (by simp only [State.reaping, hpc, hp])]
    rw [← hp] at hs
    exact h.wait hf (by simp [State.inHand, hpc]) hr hs
  case waitCont i =>
    have hr : ¬ s.reaped := by simp [State.reaped, hpc]
    subst hp
    rw [record_of_reaping (p := s.child s.current.pid = some .zombie)
      (by rw [State.reaping, hpc]; rfl)]
    exact h.wait hf (by simp [State.inHand, hpc]) hr hs
  all_goals rw [record_of_not_reaping (by simp [State.reaping, hpc])]
  case setPid =>
    exact hs ▸ h.setPid_zero hf hpc
  case setStatus =>
    have hh : s.inHand = none := by simp [State.inHand, hpc]
    have hin : ∀ k, s.inHand = some k → k = 0 := fun k hk => by rw [hh] at hk; cases hk
    exact hs ▸ h.store hf 0 .running .prompt (by simp) (fun _ => rfl) (fun k hk => by cases hk)
      (fun k h0 hst hpid => absurd (h.running_setStatus hin h0 hst hpid).1 h0) fun _ => trivial
  case incTotal =>
    have hh : s.inHand = none := by simp [State.inHand, hpc]
    exact hs ▸ h.move hf s.currentJobIndex (s.totalJobs + 1) .setCurrent (fun k hk => by cases hk)
      (fun k _ _ hk => by rw [hh] at hk; cases hk) (Nat.succ_ne_zero _)
  case setCurrent =>
    have hh : s.inHand = none := by simp [State.inHand, hpc]
    exact hs ▸ h.move hf s.totalJobs s.totalJobs .fork (fun k hk => by cases hk)
      (fun k _ _ hk => by rw [hh] at hk; cases hk) hp
  case storePid pid => exact hs ▸ h.storePid hf hpc
  case storeStatus pid =>
    have hh : s.inHand = some s.currentJobIndex := by simp [State.inHand, hpc]
    have hin : ∀ k, s.inHand = some k → k = s.currentJobIndex :=
      fun k hk => (Option.some.inj (hh.symm.trans hk)).symm
    have hr : ¬ s.reaped := by simp [State.reaped, hpc]
    obtain ⟨h0, halive, hapart⟩ := h.hand _ hh hr
    refine hs ▸ h.store hf s.currentJobIndex .running (.waitSpawn pid) (by simp)
      (fun hz => absurd hz h0) ?_ ?_ fun _ => (setStatus_pid s _ _ _).trans hp
    · intro k hk _
      obtain rfl : s.currentJobIndex = k := Option.some.inj hk
      exact ⟨h0, halive, hapart⟩
    · intro k hk hst hpid
      exact congrArg some (h.running_setStatus hin hk hst hpid).1.symm
  case check e =>
    have hh : s.inHand = some s.currentJobIndex := by simp [State.inHand, hpc]
    subst hs
    split
    · refine h.goto hf (.finish e) (fun k hk hr => ⟨hh.trans hk, ?_⟩)
        (fun k _ _ hk => hh.symm.trans hk) hp
      rintro (he | he) <;> rw [hpc] at he <;> cases he
      exact hr (Or.inr rfl)
    · rename_i hst
      refine h.goto hf .prompt (fun k hk => by cases hk) (fun k _ hs hk => ?_) trivial
      obtain rfl : s.currentJobIndex = k := Option.some.inj (hh.symm.trans hk)
      exact absurd hs hst
  case finish e =>
    have hh : s.inHand = some s.currentJobIndex := by simp [State.inHand, hpc]
    have hin : ∀ k, s.inHand = some k → k = s.currentJobIndex :=
      fun k hk => (Option.some.inj (hh.symm.trans hk)).symm
    refine hs ▸ h.store hf s.currentJobIndex .finished .prompt (by simp) (fun hz => absurd hz hp)
      (fun k hk => by cases hk) ?_ fun _ => trivial
    intro k hk hst hpid
    cases (h.running_setStatus hin hk hst hpid).2
  case list c i found =>
    have hh : s.inHand = none := by simp [State.inHand, hpc]
    split at hs
    · cases hs
      exact h.idle hf _ hh rfl trivial
    · cases hs
      cases found with
      | false => exact h.idle hf .prompt hh rfl trivial
      | true => exact h.idle hf (.choose c) hh rfl trivial
  case setRunning i =>
    have hh : s.inHand = none := by simp [State.inHand, hpc]
    have hin : ∀ k, s.inHand = some k → k = i := fun k hk => by rw [hh] at hk; cases hk
    refine hs ▸ h.store hf i .running (.contCurrent i) (by simp) (fun hz => absurd hz hp.1) ?_ ?_
      fun _ => trivial
    · intro k hk _
      obtain rfl : i = k := Option.some.inj hk
      exact ⟨hp.1, h.listed i hp.2, fun j hj hji => h.apart j i hj hp.2 hji⟩
    · intro k hk hst hpid
      exact congrArg some (h.running_setStatus hin hk hst hpid).1.symm
  case contCurrent i =>
    have hh : s.inHand = some i := by simp [State.inHand, hpc]
    exact hs ▸ h.move hf i s.totalJobs (.killCont i)
      (fun k hk _ => ⟨hh.trans hk, by simp [State.reaped, hpc]⟩) (fun k _ _ hk => hh.symm.trans hk)
      rfl
  case killCont i =>
    have hh : s.inHand = some i := by simp [State.inHand, hpc]
    refine hs ▸ h.goto hf (.waitCont i) (fun k hk _ => ⟨hh.trans hk, by simp [State.reaped, hpc]⟩)
      (fun k _ _ hk => hh.symm.trans hk) hp
  case killJob i =>
    have hh : s.inHand = none := by simp [State.inHand, hpc]
    subst hs
    unfold State.afterKill
    split
    · exact h.idle hf .exited hh rfl trivial
    · exact h.idle hf (.setKilled i) hh rfl hp
  case setKilled i =>
    have hh : s.inHand = none := by simp [State.inHand, hpc]
    have hin : ∀ k, s.inHand = some k → k = i := fun k hk => by rw [hh] at hk; cases hk
    refine hs ▸ h.store hf i .killed (.waitKilled i) (by simp) (fun hz => absurd hz hp.1)
      (fun k hk => by cases hk) ?_ ?_
    · intro k hk hst hpid
      cases (h.running_setStatus hin hk hst hpid).2
    · intro hl
      refine ⟨setStatus_status_self s i .killed, fun j hj hji => ?_⟩
      obtain ⟨hne, hj⟩ := hl j hj
      have hji : (s.PT j).pid = (s.PT i).pid := by simpa [State.goto] using hji
      exact hne (h.apart j i hj hp.2 hji)
  case waitKilled i => exact h.waitKilled hf hpc hs
  case cleanup i =>
    have hh : s.inHand = none := by simp [State.inHand, hpc]
    split at hs
    · rename_i hi
      have hc := hc i (by simp [State.cleaning, hpc, hi])
      split at hs
      · rename_i hst
        cases hs
        refine h.idle hf _ hh rfl ?_
        -- nothing is in hand, so the entry does not read `RUNNING` with a pid
        rcases hst with hst | hst
        · exact absurd (h.no_pid hh hp hst) (hc.1 hst)
        · exact h.listed i ⟨hst, hc.2 hst⟩
      · cases hs
        exact h.idle hf _ hh rfl (Nat.succ_ne_zero i)
    · cases hs
      exact h.idle hf .exited hh rfl trivial
  case killCleanup i =>
    have hh : s.inHand = none := by simp [State.inHand, hpc]
    subst hs
    unfold State.afterKill
    split
    · exact h.idle hf .exited hh rfl trivial
    · exact h.idle hf _ hh rfl (Nat.succ_ne_zero i)

theorem command_sound (h : Sound s gone) (hf : s.frames = []) {userInput : Char}
    (hs : commandStep s userInput = some s') : Sound s' gone := by
  obtain ⟨hpc, hs⟩ := commandStep_eq_some hs
  have hh : s.inHand = none := by simp [State.inHand, hpc]
  obtain rfl | ⟨-, rfl⟩ | rfl | ⟨c, rfl⟩ | rfl := hs
  · exact h.idle hf .prompt hh rfl trivial
  · exact h.idle hf .incTotal hh rfl trivial
  · exact h.idle hf .exited hh rfl trivial
  · exact h.idle hf _ hh rfl trivial
  · exact h.idle hf (.cleanup 1) hh rfl Nat.one_ne_zero

theorem choose_sound (h : Sound s gone) (hf : s.frames = []) {k : Int}
    (hc : Clear (s, gone) (.choose k)) (hs : chooseStep s k = some s') : Sound s' gone := by
  obtain ⟨c, hpc, hs⟩ := chooseStep_eq_some hs
  have hh : s.inHand = none := by simp [State.inHand, hpc]
  obtain rfl | ⟨-, hst, hk⟩ := hs
  · exact h.idle hf .prompt hh rfl trivial
  · have hl : Listed s gone k.toNat := ⟨hst, hc hst⟩
    rcases hk with rfl | rfl
    · exact h.idle hf (.setRunning _) hh rfl ⟨h.listed_ne_zero hl, hl⟩
    · exact h.idle hf (.killJob _) hh rfl ⟨h.listed_ne_zero hl, hl⟩

theorem fork_sound (h : Sound s gone) (hf : s.frames = []) {pid : Option Nat}
    (hs : forkStep s pid = some s') : Sound s' gone := by
  obtain ⟨hpc, hs⟩ := forkStep_eq_some hs
  have hh : s.inHand = none := by simp [State.inHand, hpc]
  have hp := h.place
  simp only [Place, hpc] at hp
  obtain ⟨-, rfl⟩ | ⟨pid, -, ⟨hpos, hown, hfree⟩, rfl⟩ := hs
  · exact h.idle hf .prompt hh rfl trivial
  · have hold : ∀ p, (s.child p).isSome →
        p ≠ pid ∧ (Function.update s.child pid (some .running) p).isSome := by
      intro p hsome
      have hne : p ≠ pid := by
        rintro rfl
        simp [hfree] at hsome
      exact ⟨hne, by rwa [Function.update_of_ne hne]⟩
    refine ⟨⟨?_, ?_⟩, h.self, fun i hi => (hold _ (h.listed i hi)).2, h.apart,
      fun i hi => (by cases hi), ?_, ⟨hp, ?_, fun i hi => (hold _ (h.listed i hi)).1⟩, ?_⟩
    · exact (Function.update_of_ne hown.symm _ _).trans h.strangers.1
    · exact (Function.update_of_ne hpos.symm _ _).trans h.strangers.2
    · intro k h0 hst hpid
      exact absurd (h.no_pid hh h0 hst) hpid
    · show (Function.update s.child pid (some .running) pid).isSome
      rw [Function.update_self]
      rfl
    · intro f hm
      have hm : f ∈ s.frames := hm
      rw [hf] at hm
      cases hm

/-- **One step.** A step that keeps clear keeps the table sound. -/
theorem sound_step {a : Label} (h : Sound s gone) (hc : Clear (s, gone) a)
    (hs : (machine own).next s a = some s') : Sound s' (record s a gone) := by
  have hm : Moves s a s' := moves_of_next hs
  cases a with
  | main => exact main_sound h hm.1 hc hm.2
  | command userInput => exact command_sound h hm.1 hm.2
  | choose k => exact choose_sound h hm.1 hc hm.2
  | fork pid => exact fork_sound h hm.1 hm.2
  | signal g =>
      obtain ⟨-, rfl⟩ := hm
      exact signal_sound h g
  | handler => exact handler_sound h hc hm.2
  | job p e =>
      obtain ⟨c, c', hchild, -, rfl⟩ := hm
      exact job_sound h hchild

/-- **The manager signals its own jobs** in every run that keeps clear of the entries whose status
says what is not so. -/
theorem signals_own_when (own : Nat) (t : State × (Nat → Bool))
    (h : (tracked own).ReachableWhen Clear t) : SignalsOwnJobs t.1 := by
  have hsound : Sound t.1 t.2 := by
    refine h.invariant (I := fun t => Sound t.1 t.2) ?_ ?_
    · rintro ⟨s, gone⟩ ⟨rfl, rfl⟩
      exact sound_start
    · rintro ⟨s, gone⟩ a ⟨s', gone'⟩ hi hc hs
      obtain ⟨hs, rfl⟩ := Machine.withHistory_next hs
      exact sound_step hi hc hs
  exact hsound.signals

/-- A job is started and suspended by SIGTSTP, and `c` picks it. -/
def session : List Label :=
  [.main, .main, .command 'r', .main, .main, .fork (some 7), .main, .main, .signal .SIGTSTP,
    .handler, .handler, .handler, .job 7 .stop, .main, .main, .command 'c', .main, .main, .main,
    .choose 1, .main, .main]

/-- The job runs on and exits, a second one is started and suspended, and `q` goes through the table to
its end. -/
def wholeSession : List Label :=
  session ++ [.main, .job 7 .cont, .job 7 .exit, .main, .main, .main, .command 'r', .main, .main,
    .fork (some 8), .main, .main, .signal .SIGTSTP, .handler, .handler, .handler, .job 8 .stop, .main,
    .main, .command 'q', .main, .main, .main, .main]

/-- A run that keeps clear comes to signal the job it continues, and one to the end of `q`. -/
theorem signals_own_session :
    (∃ t : State × (Nat → Bool), t.1.killTarget = some 7 ∧ SignalsOwnJobs t.1)
    ∧ ∃ t : State × (Nat → Bool), t.1.pc = .exited ∧ SignalsOwnJobs t.1 := by
  constructor
  · obtain ⟨t, hr, hk⟩ : ∃ t, (tracked 5).ReachableWhen Clear t
        ∧ decide (t.1.killTarget = some 7) = true :=
      Machine.exists_reachableWhen_of_execWhen (s := (start 5, fun _ => false)) (l := session)
        ⟨rfl, rfl⟩ (by decide +kernel)
    exact ⟨t, of_decide_eq_true hk, signals_own_when 5 t hr⟩
  · obtain ⟨t, hr, hk⟩ : ∃ t, (tracked 5).ReachableWhen Clear t ∧ decide (t.1.pc = .exited) = true :=
      Machine.exists_reachableWhen_of_execWhen (s := (start 5, fun _ => false)) (l := wholeSession)
        ⟨rfl, rfl⟩ (by decide +kernel)
    exact ⟨t, of_decide_eq_true hk, signals_own_when 5 t hr⟩

/-- SIGINT at the first prompt, a fork that fails and then `q`, and a job that SIGTSTP finds when
it has exited and that `k` picks. -/
theorem signals_strangers :
    (∃ s, (machine 5).Reachable s ∧ s.killTarget = some s.own)
    ∧ (∃ s, (machine 5).Reachable s ∧ s.killTarget = some 0)
    ∧ (∃ s, (machine 5).Reachable s ∧ s.killTarget = some 7 ∧ s.child 7 = none)
    ∧ ¬ ∀ s, (machine 5).Reachable s → SignalsOwnJobs s := by
  have hown : ∃ s, (machine 5).Reachable s ∧ s.killTarget = some s.own := by
    obtain ⟨s, hr, hk⟩ := Machine.exists_reachable_of_exec (M := machine 5) (s := start 5)
      (l := [.main, .main, .signal .SIGINT, .handler, .handler])
      (p := fun s => decide (s.killTarget = some s.own)) rfl (by decide)
    exact ⟨s, hr, of_decide_eq_true hk⟩
  refine ⟨hown, ?_, ?_, ?_⟩
  · obtain ⟨s, hr, hk⟩ := Machine.exists_reachable_of_exec (M := machine 5) (s := start 5)
      (l := [.main, .main, .command 'r', .main, .main, .fork none, .command 'q', .main])
      (p := fun s => decide (s.killTarget = some 0)) rfl (by decide)
    exact ⟨s, hr, of_decide_eq_true hk⟩
  · obtain ⟨s, hr, hk⟩ := Machine.exists_reachable_of_exec (M := machine 5) (s := start 5)
      (l := [.main, .main, .command 'r', .main, .main, .fork (some 7), .main, .main, .job 7 .exit,
        .signal .SIGTSTP, .handler, .handler, .handler, .main, .main, .command 'k', .main, .main,
        .main, .choose 1])
      (p := fun s => decide (s.killTarget = some 7) && decide (s.child 7 = none)) rfl (by decide)
    rw [Bool.and_eq_true, decide_eq_true_eq, decide_eq_true_eq] at hk
    exact ⟨s, hr, hk⟩
  · intro h
    obtain ⟨s, hr, hk⟩ := hown
    exact (h s hr s.own hk).1 rfl

end OSLab.Jobs
