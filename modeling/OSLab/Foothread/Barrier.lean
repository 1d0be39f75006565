import OSLab.Foothread.Library
import OSLab.Lib.Count

set_option autoImplicit false

/-! # Threads that meet at one barrier again and again

`foothread_barrier_wait` counts arrivals in `reached`, and the thread that finds
`reached == count` adds `count` to the barrier's semaphore, from which every thread takes one.
The semaphore and the counter serve all phases: a thread that is through may call again while
others have not taken theirs, arrive in the new phase, take the token of a slower one and return
(`barrier_overtaken`).

So the runs are considered in which a thread gets the barrier's mutex only when all threads have
returned from the phase before. They go round three phases. While a phase is `Filling`, the
mutex does its work, since `pop` is `-1` and `vop` is `1` for everybody who uses it: `reached`
is the number of threads that have arrived. The last of them then opens the barrier alone
(`Opening`), and what it adds to the semaphore is enough for each thread once and no more
(`Draining`).
-/

namespace OSLab.Foothread

/-- Where a thread is: in a call, or between two calls. -/
abbrev Place := Option BarrierPc

structure State where
  mem : Mem
  place : Nat → Place
  entered : Nat → Nat
  returned : Nat → Nat

/-- Thread `t` moves to a place within its call. -/
def State.goto (s : State) (t : Nat) (mem : Mem) (p : BarrierPc) : State :=
  { s with mem := mem, place := Function.update s.place t (some p) }

/-- Thread `t` calls `foothread_barrier_wait`. -/
def State.enter (s : State) (t : Nat) : State :=
  { s with
    place := Function.update s.place t (some .setPop)
    entered := Function.update s.entered t (s.entered t + 1) }

/-- The call of thread `t` returns. -/
def State.return (s : State) (t : Nat) (mem : Mem) : State :=
  { s with
    mem := mem
    place := Function.update s.place t none
    returned := Function.update s.returned t (s.returned t + 1) }

/-- `n` threads that call `foothread_barrier_wait` on barrier `0`, of count `n`, any number of
times. The rest of the memory is arbitrary. -/
def barrierMachine (n : Nat) : Machine State Nat where
  init s := ∃ mem : Mem, 3 ≤ mem.nextSem ∧
    s = ⟨foothreadBarrierInit mem 0 n, fun _ => none, fun _ => 0, fun _ => 0⟩
  next s t :=
    if t < n then
      match s.place t with
      | none => some (s.enter t)
      | some pc =>
          match barrierWait 0 s.mem pc with
          | some (mem, .next pc') => some (s.goto t mem pc')
          | some (mem, .ret) => some (s.return t mem)
          | _ => none
    else none

/-- No thread has returned from its `g`-th call before all have entered theirs. -/
def PhaseSafe (n : Nat) (s : State) : Prop := ∀ t < n, ∀ u < n, s.returned t ≤ s.entered u

/-- The thread holds a `P` operation on the barrier's mutex. -/
def atLock : Place → Bool
  | some (.lockOp _) => true
  | _ => false

/-- A thread that performs its `P` on the barrier's mutex does so when all threads have returned
from the call before. -/
def PreviousPhaseOver (n : Nat) (s : State) (t : Nat) : Prop :=
  atLock (s.place t) = true → ∀ u < n, s.entered t ≤ s.returned u + 1

instance (n : Nat) (s : State) (t : Nat) : Decidable (PreviousPhaseOver n s t) :=
  inferInstanceAs (Decidable (_ → _))

variable {n g t u : Nat} {s s' : State}

/-- **The steps of the threads.** -/
theorem barrierMachine_cases (h : (barrierMachine n).next s t = some s') :
    t < n ∧ ((s.place t = none ∧ s' = s.enter t)
      ∨ (∃ pc mem pc', s.place t = some pc ∧ BarrierMove 0 s.mem pc mem (.next pc')
          ∧ s' = s.goto t mem pc')
      ∨ ∃ pc mem, s.place t = some pc ∧ BarrierMove 0 s.mem pc mem .ret ∧ s' = s.return t mem) := by
  simp only [barrierMachine] at h
  split at h
  · refine ⟨‹_›, ?_⟩
    split at h
    · exact .inl ⟨‹_›, (Option.some.inj h).symm⟩
    · split at h
      · exact .inr (.inl ⟨_, _, _, ‹_›, barrierMove_of_wait ‹_›, (Option.some.inj h).symm⟩)
      · exact .inr (.inr ⟨_, _, ‹_›, barrierMove_of_wait ‹_›, (Option.some.inj h).symm⟩)
      · cases h
  · cases h

/-! ## Places -/

/-- The thread holds the barrier's mutex. -/
def holds : Place → Bool
  | some .readReached | some (.writeReached _) | some .test | some (.unlock _)
  | some (.unlockOp _ _) => true
  | _ => false

/-- The thread has counted itself in `reached` and not returned. -/
def wrote : Place → Bool
  | some .test | some (.unlock _) | some (.unlockOp _ _) | some .setRelease | some .release
  | some (.releaseOp _) | some .reset | some .pass | some (.passOp _) => true
  | _ => false

/-- The thread will use `pop` in its call, and has set it. -/
def popSet : Place → Bool
  | none | some .setPop => false
  | _ => true

/-- The thread has set `vop` and not read it yet for the mutex. -/
def vopSet : Place → Bool
  | some .lock | some (.lockOp _) | some .readReached | some (.writeReached _) | some .test
  | some (.unlock _) => true
  | _ => false

/-- The thread is not in a call, or does not have the mutex yet. -/
def Early : Place → Prop
  | none | some .setPop | some .setVop | some .lock => True
  | some (.lockOp op) => op = -1
  | _ => False

/-- The thread has found the barrier closed, or opened it. -/
def Waiting : Place → Prop
  | some .pass => True
  | some (.passOp op) => op = -1
  | _ => False

/-- A place before the barrier opens, when `reached` is `r`. -/
def FillPlace (r : Int) : Place → Prop
  | some .readReached | some .test | some (.unlock false) => True
  | some (.writeReached r') => r' = r
  | some (.unlockOp false op) => op = 1
  | p => Early p ∨ Waiting p

/-- The places of the thread that opens the barrier. -/
def OpenPlace (n : Nat) : Place → Prop
  | some (.unlock true) | some .setRelease | some .release => True
  | some (.unlockOp true op) => op = 1
  | some (.releaseOp op) => op = toShort n
  | _ => False

theorem Early.classify {p : Place} (h : Early p) : holds p = false ∧ wrote p = false := by
  rcases p with _ | pc
  · exact ⟨rfl, rfl⟩
  · cases pc <;> first | exact h.elim | exact ⟨rfl, rfl⟩

theorem Early.fillPlace {p : Place} (h : Early p) (r : Int) : FillPlace r p := by
  rcases p with _ | pc
  · exact .inl h
  · cases pc <;> first | exact h.elim | exact .inl h

theorem Waiting.classify {p : Place} (h : Waiting p) :
    holds p = false ∧ wrote p = true ∧ vopSet p = false := by
  rcases p with _ | pc
  · exact h.elim
  · cases pc <;> first | exact h.elim | exact ⟨rfl, rfl, rfl⟩

/-- Who has arrived and does not hold the mutex, waits. -/
theorem FillPlace.waiting {r : Int} {p : Place} (h : FillPlace r p) (hw : wrote p = true)
    (hh : holds p = false) : Waiting p := by
  rcases p with _ | pc
  · cases hw
  · cases pc with
    | pass => trivial
    | passOp op => exact h.resolve_left id
    | setRelease | release | releaseOp _ | reset => exact (h.elim id id).elim
    | test | unlock _ | unlockOp _ _ => exact nomatch hh
    | _ => exact nomatch hw

/-! ## The barrier and its semaphores -/

/-- What does not change: the count, and which semaphores the barrier uses. -/
structure Fixed (n : Nat) (s : Mem) : Prop where
  count : (s.barriers 0).count = n
  mutex : (s.barriers 0).mutexSemaphore = BAR_SEM_KEY
  apart : (s.barriers 0).semaphore ≠ BAR_SEM_KEY

/-- The tokens in the barrier's semaphore. -/
def Mem.tokens (s : Mem) : Nat := s.semval (s.barriers 0).semaphore

/-- The value of the barrier's mutex. -/
def Mem.mutexValue (s : Mem) : Nat := s.semval (s.barriers 0).mutexSemaphore

def Mem.reached (s : Mem) : Int := (s.barriers 0).reached

theorem fixed_move {mem mem' : Mem} {pc : BarrierPc} {c : Ctl BarrierPc} (h : Fixed n mem)
    (hm : BarrierMove 0 mem pc mem' c) : Fixed n mem' := by
  cases hm with
  | writeReached r => exact ⟨by simp [Mem.setReached, h.count], by simp [Mem.setReached, h.mutex],
      by simp [Mem.setReached, h.apart]⟩
  | reset => exact ⟨by simp [Mem.setReached, h.count], by simp [Mem.setReached, h.mutex],
      by simp [Mem.setReached, h.apart]⟩
  | _ => exact ⟨h.count, h.mutex, h.apart⟩

theorem setReached_reached (s : Mem) (r : Int) : (s.setReached 0 r).reached = r := by
  simp [Mem.reached, Mem.setReached]

theorem setReached_tokens (s : Mem) (r : Int) : (s.setReached 0 r).tokens = s.tokens := by
  simp [Mem.tokens, Mem.setReached]

theorem setReached_mutexValue (s : Mem) (r : Int) :
    (s.setReached 0 r).mutexValue = s.mutexValue := by
  simp [Mem.mutexValue, Mem.setReached]

theorem setMutex_values {mem : Mem} (h : Fixed n mem) (v : Nat) :
    (mem.setSem (mem.barriers 0).mutexSemaphore v).tokens = mem.tokens
      ∧ (mem.setSem (mem.barriers 0).mutexSemaphore v).mutexValue = v := by
  have hne : (mem.barriers 0).semaphore ≠ (mem.barriers 0).mutexSemaphore := h.mutex ▸ h.apart
  simp [Mem.tokens, Mem.mutexValue, Mem.setSem, Function.update_of_ne hne]

/-- The mutex goes back up to one. -/
theorem mutex_up {mem : Mem} {v : Nat} (hzero : mem.mutexValue = 0)
    (hsem : semop (mem.semval (mem.barriers 0).mutexSemaphore) 1 = some v) : v = 1 := by
  rw [← Mem.mutexValue, hzero, semop_one (by decide)] at hsem
  exact (Option.some.inj hsem).symm

theorem setTokens_values {mem : Mem} (h : Fixed n mem) (v : Nat) :
    (mem.setSem (mem.barriers 0).semaphore v).tokens = v
      ∧ (mem.setSem (mem.barriers 0).semaphore v).mutexValue = mem.mutexValue := by
  have hne : (mem.barriers 0).mutexSemaphore ≠ (mem.barriers 0).semaphore :=
    h.mutex ▸ Ne.symm h.apart
  simp [Mem.tokens, Mem.mutexValue, Mem.setSem, Function.update_of_ne hne]

theorem goto_place_self (s : State) (t : Nat) (mem : Mem) (p : BarrierPc) :
    (s.goto t mem p).place t = some p := by simp [State.goto]

theorem goto_place_ne (s : State) {t u : Nat} (mem : Mem) (p : BarrierPc) (h : u ≠ t) :
    (s.goto t mem p).place u = s.place u := by simp [State.goto, Function.update_of_ne h]

/-- One thread moves, and a count of places moves by what that thread contributes. -/
theorem count_goto (f : Place → Bool) (ht : t < n) (mem : Mem) (p : BarrierPc) :
    Nat.count (fun u => f ((s.goto t mem p).place u) = true) n
        + (if f (s.place t) = true then 1 else 0)
      = Nat.count (fun u => f (s.place u) = true) n + (if f (some p) = true then 1 else 0) := by
  have h := count_change (p := fun u => f (s.place u) = true)
    (q := fun u => f ((s.goto t mem p).place u) = true) ht
    (fun u _ hu => by rw [goto_place_ne s mem p hu])
  rw [goto_place_self] at h
  exact h

/-- What holds while a thread is at certain places still holds if the step makes it hold, or
keeps it and takes nobody there. -/
theorem flag_goto {f : Place → Bool} {q : Mem → Prop} {mem : Mem} {p : BarrierPc} (ht : t < n)
    (h : ∀ u < n, f (s.place u) = true → q s.mem)
    (hq : q mem ∨ ((q s.mem → q mem) ∧ (f (some p) = true → f (s.place t) = true))) :
    ∀ u < n, f ((s.goto t mem p).place u) = true → q mem := by
  intro u hu hf
  rcases hq with hnow | ⟨hkeep, hset⟩
  · exact hnow
  · by_cases hut : u = t
    · rw [hut, goto_place_self] at hf
      exact hkeep (h t ht (hset hf))
    · rw [goto_place_ne s mem p hut] at hf
      exact hkeep (h u hu hf)

/-! ## The three phases -/

/-- All threads have returned `g` times and are about to arrive, or have arrived. -/
structure Filling (n g : Nat) (s : State) : Prop where
  fixed : Fixed n s.mem
  returned : ∀ t < n, s.returned t = g
  tokens : s.mem.tokens = 0
  mutex : s.mem.mutexValue + Nat.count (fun t => holds (s.place t) = true) n = 1
  reached : s.mem.reached = Nat.count (fun t => wrote (s.place t) = true) n
  place : ∀ t < n, FillPlace s.mem.reached (s.place t)
  vop : ∀ t < n, vopSet (s.place t) = true → s.mem.vop = 1
  pop : ∀ t < n, popSet (s.place t) = true → s.mem.pop = -1

/-- All have arrived, and thread `l` is about to open the barrier. -/
structure Opening (n g l : Nat) (s : State) : Prop where
  fixed : Fixed n s.mem
  returned : ∀ t < n, s.returned t = g
  tokens : s.mem.tokens = 0
  opener : OpenPlace n (s.place l)
  others : ∀ t < n, t ≠ l → Waiting (s.place t)
  mutex : s.mem.mutexValue + (if holds (s.place l) = true then 1 else 0) = 1
  vop : vopSet (s.place l) = true → s.mem.vop = 1
  release : s.place l = some .release → s.mem.vop = toShort n
  pop : s.mem.pop = -1

/-- The barrier is open, some have returned `g + 1` times and some are still to take a token. -/
structure Draining (n g : Nat) (s : State) : Prop where
  fixed : Fixed n s.mem
  place : ∀ t < n, (s.returned t = g ∧ (s.place t = some .reset ∨ Waiting (s.place t)))
    ∨ (s.returned t = g + 1 ∧ Early (s.place t))
  behind : ∃ t < n, s.returned t = g
  tokens : s.mem.tokens + Nat.count (fun t => s.returned t = g + 1) n ≤ n
  mutex : s.mem.mutexValue = 1
  reached : s.mem.reached = 0 ∨ ∃ t < n, s.place t = some .reset
  vop : ∀ t < n, vopSet (s.place t) = true → s.mem.vop = 1
  pop : ∀ t < n, popSet (s.place t) = true → s.mem.pop = -1

inductive Phase (n : Nat) (s : State) : Prop
  | filling (g : Nat) : Filling n g s → Phase n s
  | opening (g l : Nat) : l < n → Opening n g l s → Phase n s
  | draining (g : Nat) : Draining n g s → Phase n s

/-! ### Filling -/

theorem FillPlace.congr {r r' : Int} {p : Place} (h : FillPlace r p) (hh : holds p = false) :
    FillPlace r' p := by
  rcases p with _ | pc
  · exact h
  · cases pc with
    | writeReached _ => exact nomatch hh
    | unlock last => exact nomatch hh
    | unlockOp last op => exact nomatch hh
    | _ => exact h

/-- Only one thread holds the mutex. -/
theorem Filling.alone (h : Filling n g s) (ht : t < n) (hh : holds (s.place t) = true) (hu : u < n)
    (hut : u ≠ t) : holds (s.place u) = false := by
  by_contra hc
  have hle : Nat.count (fun t => holds (s.place t) = true) n ≤ 1 := by
    have := h.mutex
    omega
  exact hut (eq_of_count_le_one hle hu ht (by simpa using hc) hh)

/-- **A step that keeps the phase filling.** The mutex passes between the semaphore and the
thread, and `reached` grows with the thread that arrives. -/
theorem Filling.goto {mem : Mem} {p : BarrierPc} (h : Filling n g s) (ht : t < n)
    (hfix : Fixed n mem) (htok : mem.tokens = 0)
    (hmut : mem.mutexValue + (if holds (some p) = true then 1 else 0)
      = s.mem.mutexValue + if holds (s.place t) = true then 1 else 0)
    (hreach : mem.reached + (if wrote (s.place t) = true then 1 else 0)
      = s.mem.reached + if wrote (some p) = true then 1 else 0)
    (hplace : FillPlace mem.reached (some p))
    (hothers : ∀ u < n, u ≠ t → FillPlace mem.reached (s.place u))
    (hvop : mem.vop = 1 ∨ (mem.vop = s.mem.vop ∧ (vopSet (some p) = true → vopSet (s.place t) = true)))
    (hpop : mem.pop = -1 ∨ (mem.pop = s.mem.pop ∧ (popSet (some p) = true → popSet (s.place t) = true))) :
    Filling n g (s.goto t mem p) where
  fixed := hfix
  returned := h.returned
  tokens := htok
  mutex := by
    have hc := count_goto holds ht (s := s) mem p
    have := h.mutex
    show mem.mutexValue + _ = 1
    omega
  reached := by
    have hc := count_goto wrote ht (s := s) mem p
    have := h.reached
    show mem.reached = _
    split_ifs at hc hreach <;> omega
  place := by
    intro u hu
    by_cases hut : u = t
    · subst hut
      rw [goto_place_self]
      exact hplace
    · rw [goto_place_ne s mem p hut]
      exact hothers u hu hut
  vop := flag_goto (f := vopSet) (q := (·.vop = 1)) ht h.vop
    (hvop.imp id fun hv => ⟨hv.1.trans, hv.2⟩)
  pop := flag_goto (f := popSet) (q := (·.pop = -1)) ht h.pop
    (hpop.imp id fun hv => ⟨hv.1.trans, hv.2⟩)

/-- The last to arrive finds `reached == count` and everybody else waiting. -/
theorem Filling.opens (h : Filling n g s) (ht : t < n) (hp : s.place t = some .test)
    (hfull : s.mem.reached = n) : Opening n g t (s.goto t s.mem (.unlock true)) := by
  have hh : holds (s.place t) = true := by rw [hp]; rfl
  have hall : ∀ u < n, wrote (s.place u) = true := by
    have hcount : Nat.count (fun t => wrote (s.place t) = true) n = n := by
      have := h.reached
      omega
    exact fun u hu => Nat.count_iff_forall.mp hcount u hu
  have hv := h.vop t ht (by rw [hp]; rfl)
  have hpop := h.pop t ht (by rw [hp]; rfl)
  refine ⟨h.fixed, h.returned, h.tokens, ?_, fun u hu hut => ?_, ?_, fun _ => hv, fun hc => ?_, hpop⟩
  · rw [goto_place_self]
    trivial
  · rw [goto_place_ne s s.mem _ hut]
    exact (h.place u hu).waiting (hall u hu) (h.alone ht hh hu hut)
  · have hm := h.mutex
    have hc := count_pos (p := fun t => holds (s.place t) = true) ht hh
    rw [goto_place_self]
    show s.mem.mutexValue + 1 = 1
    omega
  · rw [goto_place_self] at hc
    cases hc

/-- A step keeps the phase filling, or is that of the last to arrive. -/
theorem filling_next {pc p : BarrierPc} {mem : Mem} (h : Filling n g s) (ht : t < n)
    (hp : s.place t = some pc) (hm : BarrierMove 0 s.mem pc mem (.next p)) :
    Filling n g (s.goto t mem p) ∨ Opening n g t (s.goto t mem p) := by
  have hfix := fixed_move h.fixed hm
  have hpl := h.place t ht
  have hmutex := h.mutex
  rw [hp] at hpl
  cases hm with
  | setPop =>
      exact .inl (h.goto ht hfix h.tokens (by rw [hp]; rfl) (by rw [hp]; rfl) (.inl trivial)
        (fun u hu _ => h.place u hu) (.inr ⟨rfl, fun hc => nomatch hc⟩) (.inl rfl))
  | setVop =>
      exact .inl (h.goto ht hfix h.tokens (by rw [hp]; rfl) (by rw [hp]; rfl) (.inl trivial)
        (fun u hu _ => h.place u hu) (.inl rfl) (.inr ⟨rfl, fun _ => by rw [hp]; rfl⟩))
  | lock =>
      have hpop : s.mem.pop = -1 := h.pop t ht (by rw [hp]; rfl)
      exact .inl (h.goto ht hfix h.tokens (by rw [hp]; rfl) (by rw [hp]; rfl) (.inl hpop)
        (fun u hu _ => h.place u hu) (.inr ⟨rfl, fun _ => by rw [hp]; rfl⟩)
        (.inr ⟨rfl, fun _ => by rw [hp]; rfl⟩))
  -- the mutex passes from the semaphore to the thread
  | lockOp op v hsem =>
      obtain ⟨htok, hval⟩ := setMutex_values h.fixed v
      obtain rfl : op = -1 := (hpl.resolve_right id)
      have hv : s.mem.mutexValue = v + 1 := semop_neg_one.mp hsem
      refine .inl (h.goto ht hfix (htok.trans h.tokens) ?_ (by rw [hp]; rfl) trivial
        (fun u hu _ => h.place u hu) (.inr ⟨rfl, fun _ => by rw [hp]; rfl⟩)
        (.inr ⟨rfl, fun _ => by rw [hp]; rfl⟩))
      rw [hval, hp, hv]
      rfl
  | readReached =>
      exact .inl (h.goto ht hfix h.tokens (by rw [hp]; rfl) (by rw [hp]; rfl) rfl
        (fun u hu _ => h.place u hu) (.inr ⟨rfl, fun _ => by rw [hp]; rfl⟩)
        (.inr ⟨rfl, fun _ => by rw [hp]; rfl⟩))
  | writeReached r =>
      obtain rfl : r = s.mem.reached := hpl
      have hh : holds (s.place t) = true := by rw [hp]; rfl
      -- the thread has the mutex, so what it read is still there
      refine .inl (h.goto ht hfix ((setReached_tokens _ _).trans h.tokens) ?_ ?_ trivial
        (fun u hu hut => (h.place u hu).congr (h.alone ht hh hu hut))
        (.inr ⟨rfl, fun _ => by rw [hp]; rfl⟩) (.inr ⟨rfl, fun _ => by rw [hp]; rfl⟩))
      · rw [setReached_mutexValue, hp]
        rfl
      · rw [setReached_reached, hp]
        simp [wrote]
  -- the last to arrive goes on to open the barrier
  | test =>
      by_cases hfull : s.mem.reached = n
      · have hlast : (decide ((s.mem.barriers 0).reached = (s.mem.barriers 0).count)) = true := by
          rw [h.fixed.count]
          exact decide_eq_true hfull
        rw [hlast]
        exact .inr (h.opens ht hp hfull)
      · have hlast : (decide ((s.mem.barriers 0).reached = (s.mem.barriers 0).count)) = false := by
          rw [h.fixed.count]
          exact decide_eq_false hfull
        rw [hlast]
        exact .inl (h.goto ht hfix h.tokens (by rw [hp]; rfl) (by rw [hp]; rfl) trivial
          (fun u hu _ => h.place u hu) (.inr ⟨rfl, fun _ => by rw [hp]; rfl⟩)
          (.inr ⟨rfl, fun _ => by rw [hp]; rfl⟩))
  | unlock last =>
      have hv : s.mem.vop = 1 := h.vop t ht (by rw [hp]; rfl)
      cases last with
      | true => exact (hpl.elim id id).elim
      | false =>
          exact .inl (h.goto ht hfix h.tokens (by rw [hp]; rfl) (by rw [hp]; rfl) hv
            (fun u hu _ => h.place u hu) (.inl hv) (.inr ⟨rfl, fun _ => by rw [hp]; rfl⟩))
  | unlockOp last op v hsem =>
      cases last with
      | true => exact (hpl.elim id id).elim
      | false =>
          obtain rfl : op = 1 := hpl
          have hc := count_pos (p := fun t => holds (s.place t) = true) ht (by rw [hp]; rfl)
          have hzero : s.mem.mutexValue = 0 := by omega
          obtain ⟨htok, hval⟩ := setMutex_values h.fixed v
          have hv : v = 1 := mutex_up hzero hsem
          refine .inl (h.goto ht hfix (htok.trans h.tokens) ?_ (by rw [hp]; rfl)
            (.inr trivial) (fun u hu _ => h.place u hu) (.inr ⟨rfl, fun hc => nomatch hc⟩)
            (.inr ⟨rfl, fun _ => by rw [hp]; rfl⟩))
          rw [hval, hp, hzero, hv]
          rfl
  | pass =>
      have hpop : s.mem.pop = -1 := h.pop t ht (by rw [hp]; rfl)
      exact .inl (h.goto ht hfix h.tokens (by rw [hp]; rfl) (by rw [hp]; rfl) (.inr hpop)
        (fun u hu _ => h.place u hu) (.inr ⟨rfl, fun hc => nomatch hc⟩)
        (.inr ⟨rfl, fun _ => by rw [hp]; rfl⟩))
  | setRelease => exact (hpl.elim id id).elim
  | release => exact (hpl.elim id id).elim
  | releaseOp => exact (hpl.elim id id).elim
  | reset => exact (hpl.elim id id).elim

theorem phase_filling {pc p : BarrierPc} {mem : Mem} (h : Filling n g s) (ht : t < n)
    (hp : s.place t = some pc) (hm : BarrierMove 0 s.mem pc mem (.next p)) :
    Phase n (s.goto t mem p) :=
  (filling_next h ht hp hm).elim (.filling g) (.opening g t ht)

/-! ### Opening -/

theorem toShort_le (n : Nat) : toShort n ≤ n := by
  unfold toShort Int.bmod
  simp only
  split <;> omega

/-- An empty semaphore takes what the `short` comes to, unless it is negative. -/
theorem semop_zero_toShort {v : Nat} (h : semop 0 (toShort n) = some v) : v = (toShort n).toNat := by
  have hlt : toShort n < 32768 := by
    unfold toShort Int.bmod
    simp only
    split <;> omega
  unfold semop at h
  split_ifs at h with hpos hmax hzero
  · obtain rfl := Option.some.inj h
    omega
  · rw [SEMVMX] at hmax
    omega
  · obtain rfl := Option.some.inj h
    omega
  · omega

/-- What the opener adds to the semaphore is at most one token for each thread. -/
theorem Opening.drains {v : Nat} {l : Nat} (h : Opening n g l s) (hl : l < n)
    (hp : s.place l = some (.releaseOp (toShort n)))
    (hsem : semop (s.mem.semval (s.mem.barriers 0).semaphore) (toShort n) = some v) :
    Draining n g (s.goto l (s.mem.setSem (s.mem.barriers 0).semaphore v) .reset) := by
  obtain ⟨htok, hval⟩ := setTokens_values h.fixed v
  have hzero : s.mem.semval (s.mem.barriers 0).semaphore = 0 := h.tokens
  have hv : v ≤ n := by
    rw [hzero] at hsem
    have := semop_zero_le hsem
    have := toShort_le n
    omega
  have hmutex := h.mutex
  rw [hp] at hmutex
  have hwait : ∀ u < n, u ≠ l → Waiting ((s.goto l
      (s.mem.setSem (s.mem.barriers 0).semaphore v) .reset).place u) := by
    intro u hu hul
    rw [goto_place_ne s _ _ hul]
    exact h.others u hu hul
  -- nobody has returned yet, and the opener is the only one who does not wait
  refine ⟨⟨h.fixed.count, h.fixed.mutex, h.fixed.apart⟩, fun u hu => .inl ⟨h.returned u hu, ?_⟩,
    ⟨l, hl, h.returned l hl⟩, ?_, ?_, .inr ⟨l, hl, goto_place_self s l _ _⟩, fun u hu hset => ?_,
    fun _ _ _ => h.pop⟩
  · by_cases hul : u = l
    · exact .inl (hul ▸ goto_place_self s l _ _)
    · exact .inr (hwait u hu hul)
  · have hnone : Nat.count (fun t => s.returned t = g + 1) n = 0 := by
      refine Nat.count_iff_forall_not.mpr fun u hu => ?_
      rw [h.returned u hu]
      omega
    show (s.mem.setSem (s.mem.barriers 0).semaphore v).tokens
      + Nat.count (fun t => s.returned t = g + 1) n ≤ n
    rw [htok, hnone]
    exact hv
  · exact hval.trans (by simpa [holds] using hmutex)
  · by_cases hul : u = l
    · subst hul
      rw [goto_place_self] at hset
      cases hset
    · rw [(hwait u hu hul).classify.2.2] at hset
      cases hset

/-- **A step of the opener that keeps the barrier closed.** -/
theorem Opening.goto {mem : Mem} {p : BarrierPc} {l : Nat} (h : Opening n g l s)
    (hfix : Fixed n mem) (htok : mem.tokens = 0) (hopen : OpenPlace n (some p))
    (hmut : mem.mutexValue + (if holds (some p) = true then 1 else 0) = 1)
    (hvop : vopSet (some p) = false) (hrel : p = .release → mem.vop = toShort n)
    (hpop : mem.pop = s.mem.pop) : Opening n g l (s.goto l mem p) where
  fixed := hfix
  returned := h.returned
  tokens := htok
  opener := by rw [goto_place_self]; exact hopen
  others := by
    intro u hu hul
    rw [goto_place_ne s mem p hul]
    exact h.others u hu hul
  mutex := by rw [goto_place_self]; exact hmut
  vop := by
    intro hset
    rw [goto_place_self, hvop] at hset
    cases hset
  release := by
    intro hp
    rw [goto_place_self] at hp
    exact hrel (Option.some.inj hp)
  pop := hpop.trans h.pop

/-- The opener goes on, or has released the tokens. -/
theorem opener_next {pc p : BarrierPc} {mem : Mem} {l : Nat} (h : Opening n g l s) (hl : l < n)
    (hp : s.place l = some pc) (hm : BarrierMove 0 s.mem pc mem (.next p)) :
    Opening n g l (s.goto l mem p)
      ∨ Draining n g (s.goto l mem p) ∧ mem.tokens = (toShort n).toNat := by
  have hfix := fixed_move h.fixed hm
  have hopen := h.opener
  have hmutex := h.mutex
  rw [hp] at hopen hmutex
  cases hm with
  | unlock last =>
      cases last with
      | false => exact hopen.elim
      | true =>
          have hv : s.mem.vop = 1 := h.vop (by rw [hp]; rfl)
          exact .inl (h.goto hfix h.tokens hv hmutex rfl (fun hc => nomatch hc) rfl)
  | unlockOp last op v hsem =>
      cases last with
      | false => exact hopen.elim
      | true =>
          obtain rfl : op = 1 := hopen
          obtain ⟨htok, hval⟩ := setMutex_values h.fixed v
          have hzero : s.mem.mutexValue = 0 := by simpa [holds] using hmutex
          have hv : v = 1 := mutex_up hzero hsem
          refine .inl (h.goto hfix (htok.trans h.tokens) trivial ?_ rfl
            (fun hc => nomatch hc) rfl)
          rw [hval, hv]
          rfl
  | setRelease =>
      have hrel : toShort (s.mem.barriers 0).count = toShort n := by rw [h.fixed.count]
      exact .inl (h.goto hfix h.tokens trivial hmutex rfl (fun _ => hrel) rfl)
  | release =>
      have hrel : s.mem.vop = toShort n := h.release hp
      exact .inl (h.goto hfix h.tokens hrel hmutex rfl (fun hc => nomatch hc) rfl)
  -- the tokens are released, and the others can pass
  | releaseOp op v hsem =>
      have hop : op = toShort n := hopen
      rw [hop] at hp hsem
      refine .inr ⟨h.drains hl hp hsem, ?_⟩
      have hzero : s.mem.semval (s.mem.barriers 0).semaphore = 0 := h.tokens
      rw [hzero] at hsem
      exact (setTokens_values h.fixed v).1.trans (semop_zero_toShort hsem)
  | _ => exact absurd hopen (by simp [OpenPlace])

theorem phase_opener {pc p : BarrierPc} {mem : Mem} {l : Nat} (h : Opening n g l s) (hl : l < n)
    (hp : s.place l = some pc) (hm : BarrierMove 0 s.mem pc mem (.next p)) :
    Phase n (s.goto l mem p) :=
  (opener_next h hl hp hm).elim (.opening g l hl) fun hd => .draining g hd.1

/-- The others can only ask for a token, of which there is none. -/
theorem opening_other {pc p : BarrierPc} {mem : Mem} {l : Nat} (h : Opening n g l s)
    (ht : t < n) (htl : t ≠ l) (hp : s.place t = some pc)
    (hm : BarrierMove 0 s.mem pc mem (.next p)) : Opening n g l (s.goto t mem p) := by
  have hwait := h.others t ht htl
  rw [hp] at hwait
  cases hm with
  | pass =>
      have hlt := Ne.symm htl
      refine ⟨h.fixed, h.returned, h.tokens, ?_, fun u hu hul => ?_, ?_, ?_, ?_, h.pop⟩
      · rw [goto_place_ne s _ _ hlt]
        exact h.opener
      · by_cases hut : u = t
        · subst hut
          rw [goto_place_self]
          exact h.pop
        · rw [goto_place_ne s _ _ hut]
          exact h.others u hu hul
      · rw [goto_place_ne s _ _ hlt]
        exact h.mutex
      · rw [goto_place_ne s _ _ hlt]
        exact h.vop
      · rw [goto_place_ne s _ _ hlt]
        exact h.release
  | _ => exact hwait.elim

/-- Nobody returns while the semaphore is empty. -/
theorem not_return_of_empty {pc : BarrierPc} {mem : Mem} (htok : s.mem.tokens = 0)
    (hwait : ∀ op, pc = .passOp op → op = -1) : ¬ BarrierMove 0 s.mem pc mem .ret := by
  intro hm
  cases hm with
  | passOp op v hsem =>
      obtain rfl := hwait op rfl
      have hpos : s.mem.tokens = v + 1 := semop_neg_one.mp hsem
      omega

/-! ### Draining -/

/-- A thread without the mutex goes on in its new call, or looks at its token. -/
theorem Draining.goto {mem : Mem} {p : BarrierPc} (h : Draining n g s) (ht : t < n)
    (hfix : Fixed n mem) (htok : mem.tokens = s.mem.tokens)
    (hmut : mem.mutexValue = s.mem.mutexValue)
    (hplace : (s.returned t = g ∧ Waiting (some p)) ∨ (s.returned t = g + 1 ∧ Early (some p)))
    (hreach : mem.reached = 0 ∨ (mem.reached = s.mem.reached ∧ s.place t ≠ some .reset))
    (hvop : mem.vop = 1 ∨ (mem.vop = s.mem.vop ∧ (vopSet (some p) = true → vopSet (s.place t) = true)))
    (hpop : mem.pop = -1 ∨ (mem.pop = s.mem.pop ∧ (popSet (some p) = true → popSet (s.place t) = true))) :
    Draining n g (s.goto t mem p) where
  fixed := hfix
  place := by
    intro u hu
    by_cases hut : u = t
    · subst hut
      rw [goto_place_self]
      exact hplace.imp (fun hw => ⟨hw.1, .inr hw.2⟩) id
    · rw [goto_place_ne s mem p hut]
      exact h.place u hu
  behind := h.behind
  tokens := by
    show mem.tokens + _ ≤ n
    rw [htok]
    exact h.tokens
  mutex := hmut.trans h.mutex
  reached := by
    rcases hreach with hzero | ⟨heq, hne⟩
    · exact .inl hzero
    · refine h.reached.imp heq.trans fun ⟨u, hu, hp⟩ => ⟨u, hu, ?_⟩
      have hut : u ≠ t := fun hc => hne (hc ▸ hp)
      rw [goto_place_ne s mem p hut]
      exact hp
  vop := flag_goto (f := vopSet) (q := (·.vop = 1)) ht h.vop
    (hvop.imp id fun hv => ⟨hv.1.trans, hv.2⟩)
  pop := flag_goto (f := popSet) (q := (·.pop = -1)) ht h.pop
    (hpop.imp id fun hv => ⟨hv.1.trans, hv.2⟩)

theorem draining_next {pc p : BarrierPc} {mem : Mem} (h : Draining n g s) (ht : t < n)
    (hp : s.place t = some pc) (hm : BarrierMove 0 s.mem pc mem (.next p))
    (hlock : ∀ op, pc ≠ .lockOp op) : Draining n g (s.goto t mem p) := by
  have hfix := fixed_move h.fixed hm
  have hpl := h.place t ht
  rw [hp] at hpl
  cases hm with
  | setPop =>
      have hret := hpl.resolve_left (fun hc => by simp [Waiting] at hc)
      exact h.goto ht hfix rfl rfl (.inr ⟨hret.1, trivial⟩) (.inr ⟨rfl, by simp [hp]⟩)
        (.inr ⟨rfl, fun hc => nomatch hc⟩) (.inl rfl)
  | setVop =>
      have hret := hpl.resolve_left (fun hc => by simp [Waiting] at hc)
      exact h.goto ht hfix rfl rfl (.inr ⟨hret.1, trivial⟩) (.inr ⟨rfl, by simp [hp]⟩)
        (.inl rfl) (.inr ⟨rfl, fun _ => by rw [hp]; rfl⟩)
  | lock =>
      have hret := hpl.resolve_left (fun hc => by simp [Waiting] at hc)
      have hpop : s.mem.pop = -1 := h.pop t ht (by rw [hp]; rfl)
      exact h.goto ht hfix rfl rfl (.inr ⟨hret.1, hpop⟩) (.inr ⟨rfl, by simp [hp]⟩)
        (.inr ⟨rfl, fun _ => by rw [hp]; rfl⟩) (.inr ⟨rfl, fun _ => by rw [hp]; rfl⟩)
  | lockOp op _ _ => exact absurd rfl (hlock op)
  -- the opener resets `reached`, and waits like the others
  | reset =>
      have hret := hpl.resolve_right (fun hc => hc.2)
      exact h.goto ht hfix (setReached_tokens _ _) (setReached_mutexValue _ _)
        (.inl ⟨hret.1, trivial⟩) (.inl (setReached_reached _ _))
        (.inr ⟨rfl, fun hc => nomatch hc⟩) (.inr ⟨rfl, fun _ => by rw [hp]; rfl⟩)
  | pass =>
      have hret := hpl.resolve_right (fun hc => hc.2)
      have hpop : s.mem.pop = -1 := h.pop t ht (by rw [hp]; rfl)
      exact h.goto ht hfix rfl rfl (.inl ⟨hret.1, hpop⟩) (.inr ⟨rfl, by simp [hp]⟩)
        (.inr ⟨rfl, fun hc => nomatch hc⟩) (.inr ⟨rfl, fun _ => by rw [hp]; rfl⟩)
  | _ => exact absurd hpl (by simp [Waiting, Early])

/-! A thread takes its token. -/

theorem return_place_self (s : State) (t : Nat) (mem : Mem) : (s.return t mem).place t = none := by
  simp [State.return]

theorem return_place_ne (s : State) {t u : Nat} (mem : Mem) (h : u ≠ t) :
    (s.return t mem).place u = s.place u := by simp [State.return, Function.update_of_ne h]

theorem return_returned_self (s : State) (t : Nat) (mem : Mem) :
    (s.return t mem).returned t = s.returned t + 1 := by simp [State.return]

theorem return_returned_ne (s : State) {t u : Nat} (mem : Mem) (h : u ≠ t) :
    (s.return t mem).returned u = s.returned u := by simp [State.return, Function.update_of_ne h]

/-- What holds of the threads at certain places does not depend on a thread that left. -/
theorem flag_return {f : Place → Bool} {q : Prop} {mem : Mem} (hnone : f none = false)
    (h : ∀ u < n, f (s.place u) = true → q) :
    ∀ u < n, f ((s.return t mem).place u) = true → q := by
  intro u hu hf
  by_cases hut : u = t
  · rw [hut, return_place_self, hnone] at hf
    cases hf
  · rw [return_place_ne s mem hut] at hf
    exact h u hu hf

/-- A token is taken while others are behind. -/
theorem Draining.return_behind {mem : Mem} {op : Int} {w : Nat} (h : Draining n g s) (ht : t < n)
    (hp : s.place t = some (.passOp op)) (hret : s.returned t = g) (hfix : Fixed n mem)
    (htok : s.mem.tokens = mem.tokens + 1) (hmut : mem.mutexValue = s.mem.mutexValue)
    (hreach : mem.reached = s.mem.reached) (hvop : mem.vop = s.mem.vop) (hpop : mem.pop = s.mem.pop)
    (hw : w < n) (hwt : w ≠ t) (hwg : s.returned w = g) : Draining n g (s.return t mem) where
  fixed := hfix
  place := by
    intro u hu
    by_cases hut : u = t
    · rw [hut, return_place_self, return_returned_self, hret]
      exact .inr ⟨rfl, trivial⟩
    · rw [return_place_ne s mem hut, return_returned_ne s mem hut]
      exact h.place u hu
  behind := ⟨w, hw, (return_returned_ne s mem hwt).trans hwg⟩
  tokens := by
    have hcount : Nat.count (fun u => (s.return t mem).returned u = g + 1) n
        = Nat.count (fun u => s.returned u = g + 1) n + 1 :=
      count_gain ht (fun u _ hut => by rw [return_returned_ne s mem hut]) (by omega)
        (by rw [return_returned_self, hret])
    have htokens := h.tokens
    show mem.tokens + _ ≤ n
    omega
  mutex := hmut.trans h.mutex
  reached := by
    refine h.reached.imp hreach.trans fun ⟨u, hu, hpu⟩ => ⟨u, hu, ?_⟩
    have hut : u ≠ t := fun hc => by rw [hc, hp] at hpu; cases hpu
    rw [return_place_ne s mem hut]
    exact hpu
  vop := flag_return rfl fun u hu hv => hvop.trans (h.vop u hu hv)
  pop := flag_return rfl fun u hu hv => hpop.trans (h.pop u hu hv)

/-- The last token is taken: the semaphore is empty and `reached` is reset. -/
theorem Draining.return_last {mem : Mem} {op : Int} (h : Draining n g s) (ht : t < n)
    (hp : s.place t = some (.passOp op)) (hret : s.returned t = g) (hfix : Fixed n mem)
    (htok : s.mem.tokens = mem.tokens + 1) (hmut : mem.mutexValue = s.mem.mutexValue)
    (hreach : mem.reached = s.mem.reached) (hvop : mem.vop = s.mem.vop) (hpop : mem.pop = s.mem.pop)
    (hall : ∀ u < n, u ≠ t → s.returned u = g + 1 ∧ Early (s.place u)) :
    Filling n (g + 1) (s.return t mem) := by
  have hearly : ∀ u < n, Early ((s.return t mem).place u) := by
    intro u hu
    by_cases hut : u = t
    · rw [hut, return_place_self]
      trivial
    · rw [return_place_ne s mem hut]
      exact (hall u hu hut).2
  have hreturned : ∀ u < n, (s.return t mem).returned u = g + 1 := by
    intro u hu
    by_cases hut : u = t
    · rw [hut, return_returned_self, hret]
    · rw [return_returned_ne s mem hut]
      exact (hall u hu hut).1
  -- whoever was to reset `reached` would be behind
  have hzero : s.mem.reached = 0 := by
    refine h.reached.resolve_right fun ⟨u, hu, hpu⟩ => ?_
    by_cases hut : u = t
    · rw [hut, hp] at hpu
      cases hpu
    · have := (hall u hu hut).2
      rw [hpu] at this
      exact this
  -- all but this thread have returned, which takes all the tokens
  have hcount : Nat.count (fun u => s.returned u = g + 1) n + 1 = n := by
    have hfull : Nat.count (fun u => (s.return t mem).returned u = g + 1) n = n :=
      Nat.count_iff_forall.mpr hreturned
    have hgain := count_gain (p := fun u => s.returned u = g + 1)
      (q := fun u => (s.return t mem).returned u = g + 1) ht
      (fun u _ hut => by rw [return_returned_ne s mem hut]) (by omega)
      (by rw [return_returned_self, hret])
    omega
  have hholds : Nat.count (fun u => holds ((s.return t mem).place u) = true) n = 0 :=
    Nat.count_iff_forall_not.mpr fun u hu => by simp [(hearly u hu).classify.1]
  have hwrote : Nat.count (fun u => wrote ((s.return t mem).place u) = true) n = 0 :=
    Nat.count_iff_forall_not.mpr fun u hu => by simp [(hearly u hu).classify.2]
  have htokens := h.tokens
  refine ⟨hfix, hreturned, ?_, ?_, ?_, fun u hu => (hearly u hu).fillPlace _,
    flag_return rfl fun u hu hv => hvop.trans (h.vop u hu hv),
    flag_return rfl fun u hu hv => hpop.trans (h.pop u hu hv)⟩
  · show mem.tokens = 0
    omega
  · rw [hholds]
    exact hmut.trans h.mutex
  · rw [hwrote]
    exact hreach.trans hzero

/-- A thread takes a token, and the phase goes on or is over. -/
theorem draining_return {pc : BarrierPc} {mem : Mem} (h : Draining n g s) (ht : t < n)
    (hp : s.place t = some pc) (hm : BarrierMove 0 s.mem pc mem .ret) :
    (Draining n g (s.return t mem) ∨ Filling n (g + 1) (s.return t mem))
      ∧ s.returned t = g ∧ s.mem.tokens = mem.tokens + 1 := by
  have hfix := fixed_move h.fixed hm
  cases hm with
  | passOp op v hsem =>
      have hpl := h.place t ht
      rw [hp] at hpl
      obtain ⟨hret, hwait⟩ := hpl.resolve_right (fun hc => hc.2)
      obtain rfl : op = -1 := hwait.resolve_left (fun hc => by cases hc)
      obtain ⟨hval, hmut⟩ := setTokens_values h.fixed v
      have htok : s.mem.tokens = v + 1 := semop_neg_one.mp hsem
      rw [← hval] at htok
      refine ⟨?_, hret, htok⟩
      by_cases hbehind : ∃ u < n, u ≠ t ∧ s.returned u = g
      · obtain ⟨w, hw, hwt, hwg⟩ := hbehind
        exact .inl (h.return_behind ht hp hret hfix htok hmut rfl rfl rfl hw hwt hwg)
      · refine .inr (h.return_last ht hp hret hfix htok hmut rfl rfl rfl ?_)
        intro u hu hut
        exact (h.place u hu).resolve_left fun hc => hbehind ⟨u, hu, hut, hc.1⟩

theorem phase_return {pc : BarrierPc} {mem : Mem} (h : Draining n g s) (ht : t < n)
    (hp : s.place t = some pc) (hm : BarrierMove 0 s.mem pc mem .ret) :
    Phase n (s.return t mem) :=
  (draining_return h ht hp hm).1.elim (.draining g) (.filling (g + 1))

/-- Nobody returns while the phase is filling. -/
theorem Filling.not_return {pc : BarrierPc} {mem : Mem} (h : Filling n g s) (ht : t < n)
    (hp : s.place t = some pc) : ¬ BarrierMove 0 s.mem pc mem .ret := by
  have hpl := h.place t ht
  rw [hp] at hpl
  refine not_return_of_empty h.tokens fun op hop => ?_
  subst hop
  exact hpl.resolve_left id

/-- All are in a call when the barrier is opened. -/
theorem Opening.in_call {l : Nat} (h : Opening n g l s) (ht : t < n) : s.place t ≠ none := by
  intro hp
  by_cases htl : t = l
  · have hopen := h.opener
    rw [← htl, hp] at hopen
    exact hopen
  · have hwait := h.others t ht htl
    rw [hp] at hwait
    exact hwait

/-- Nobody returns before the tokens are there. -/
theorem Opening.not_return {pc : BarrierPc} {mem : Mem} {l : Nat} (h : Opening n g l s)
    (ht : t < n) (hp : s.place t = some pc) : ¬ BarrierMove 0 s.mem pc mem .ret := by
  refine not_return_of_empty h.tokens fun op hop => ?_
  subst hop
  by_cases htl : t = l
  · have hopen := h.opener
    rw [← htl, hp] at hopen
    exact absurd hopen (by simp [OpenPlace])
  · have hwait := h.others t ht htl
    rw [hp] at hwait
    exact hwait

/-! ## The run -/

/-- A thread has entered one call more than it has returned from while it is in one. -/
def Calls (s : State) : Prop :=
  ∀ t, s.entered t = s.returned t + if s.place t = none then 0 else 1

theorem calls_next (h : Calls s) (hs : (barrierMachine n).next s t = some s') : Calls s' := by
  obtain ⟨-, ⟨hp, rfl⟩ | ⟨pc, mem, p, hp, -, rfl⟩ | ⟨pc, mem, hp, -, rfl⟩⟩ := barrierMachine_cases hs
  all_goals
    intro u
    have hu := h u
    by_cases hut : u = t
    · subst hut
      simp [State.enter, State.goto, State.return, hp] at hu ⊢
      omega
    · simpa [State.enter, State.goto, State.return, Function.update_of_ne hut] using hu

/-- Entering a call is a step to its first place. -/
theorem Filling.enter (h : Filling n g s) (ht : t < n) (hp : s.place t = none) :
    Filling n g (s.enter t) := by
  have hgo := h.goto (p := .setPop) ht h.fixed h.tokens (by rw [hp]; rfl)
    (by rw [hp]; rfl) (.inl trivial) (fun u hu _ => h.place u hu)
    (.inr ⟨rfl, fun hc => nomatch hc⟩) (.inr ⟨rfl, fun hc => nomatch hc⟩)
  exact ⟨hgo.fixed, hgo.returned, hgo.tokens, hgo.mutex, hgo.reached, hgo.place, hgo.vop, hgo.pop⟩

theorem Draining.enter (h : Draining n g s) (ht : t < n) (hp : s.place t = none) :
    Draining n g (s.enter t) := by
  have hpl := h.place t ht
  rw [hp] at hpl
  have hret := hpl.resolve_left (fun hc => by simp [Waiting] at hc)
  have hgo := h.goto (p := .setPop) ht h.fixed rfl rfl (.inr ⟨hret.1, trivial⟩)
    (.inr ⟨rfl, by simp [hp]⟩) (.inr ⟨rfl, fun hc => nomatch hc⟩) (.inr ⟨rfl, fun hc => nomatch hc⟩)
  exact ⟨hgo.fixed, hgo.place, hgo.behind, hgo.tokens, hgo.mutex, hgo.reached, hgo.vop, hgo.pop⟩

/-- **One step keeps to the phases.** -/
theorem phase_next (hc : Calls s) (h : Phase n s) (hok : PreviousPhaseOver n s t)
    (hs : (barrierMachine n).next s t = some s') : Phase n s' := by
  obtain ⟨ht, ⟨hp, rfl⟩ | ⟨pc, mem, p, hp, hm, rfl⟩ | ⟨pc, mem, hp, hm, rfl⟩⟩ :=
    barrierMachine_cases hs
  · cases h with
    | filling g hf => exact .filling g (hf.enter ht hp)
    | opening g l hl ho => exact absurd hp (ho.in_call ht)
    | draining g hd => exact .draining g (hd.enter ht hp)
  · cases h with
    | filling g hf => exact phase_filling hf ht hp hm
    | opening g l hl ho =>
        by_cases htl : t = l
        · subst htl
          exact phase_opener ho hl hp hm
        · exact .opening g l hl (opening_other ho ht htl hp hm)
    | draining g hd =>
        refine .draining g (draining_next hd ht hp hm fun op hop => ?_)
        -- a thread at the mutex has returned once more than one that is behind
        subst hop
        obtain ⟨w, hw, hwg⟩ := hd.behind
        have hret : s.returned t = g + 1 := by
          have hpl := hd.place t ht
          rw [hp] at hpl
          exact (hpl.resolve_left (fun hc => by simp [Waiting] at hc)).1
        have hle := hok (by rw [hp]; rfl) w hw
        have hent := hc t
        rw [if_neg (by simp [hp])] at hent
        omega
  · cases h with
    | filling g hf => exact absurd hm (hf.not_return ht hp)
    | opening g l hl ho => exact absurd hm (ho.not_return ht hp)
    | draining g hd => exact phase_return hd ht hp hm

theorem calls_reachable (h : (barrierMachine n).ReachableWhen (PreviousPhaseOver n) s) :
    Calls s := by
  refine h.invariant ?_ fun s t s' hc _ hs => calls_next hc hs
  rintro s ⟨mem, -, rfl⟩ t
  rfl

theorem phase_reachable (h : (barrierMachine n).ReachableWhen (PreviousPhaseOver n) s) :
    Phase n s := by
  refine h.invariant_of (I := Phase n) (fun s hr => calls_reachable hr) ?_ fun s t s' hc hp hok hs =>
    phase_next hc hp hok hs
  rintro s ⟨mem, hsem, rfl⟩
  have hne : mem.nextSem ≠ BAR_SEM_KEY := by
    rw [BAR_SEM_KEY]
    omega
  have hnone : Nat.count (fun _ : Nat => False) n = 0 := Nat.count_iff_forall_not.mpr fun _ _ => id
  refine .filling 0 ⟨⟨?_, ?_, ?_⟩, fun _ _ => rfl, ?_, ?_, ?_, fun _ _ => .inl trivial,
    (fun _ _ hc => nomatch hc), fun _ _ hc => nomatch hc⟩
  all_goals simp [foothreadBarrierInit, Mem.tokens, Mem.mutexValue, Mem.reached, hne, holds, wrote,
    hnone]

/-- **Phase safety.** In the runs in which a thread gets the barrier's mutex only when all threads
have returned from the phase before, no thread returns from its `g`-th call before all have
entered theirs. -/
theorem barrier_phase_safe {n : Nat} {s : State}
    (h : (barrierMachine n).ReachableWhen (PreviousPhaseOver n) s) : PhaseSafe n s := by
  intro t ht u hu
  have hu' := calls_reachable h u
  cases phase_reachable h with
  | filling g hf =>
      have := hf.returned t ht
      have := hf.returned u hu
      omega
  | opening g l hl ho =>
      have := ho.returned t ht
      have := ho.returned u hu
      omega
  | draining g hd =>
      have hret : s.returned t ≤ g + 1 := by
        rcases hd.place t ht with hpl | hpl
        · omega
        · omega
      rcases hd.place u hu with ⟨hug, hpl⟩ | ⟨hug, -⟩
      · have hne : s.place u ≠ none := by
          rintro hc
          rw [hc] at hpl
          exact hpl.elim (fun h => nomatch h) id
        rw [if_neg hne] at hu'
        omega
      · omega

/-- Two threads go through the barrier twice, in phase. -/
theorem barrier_phase_safe_run :
    ∃ s, (barrierMachine 2).ReachableWhen (PreviousPhaseOver 2) s
      ∧ s.returned 0 = 2 ∧ PhaseSafe 2 s := by
  obtain ⟨s, hs, hp⟩ : ∃ s, (barrierMachine 2).ReachableWhen (PreviousPhaseOver 2) s
      ∧ (s.returned 0 == 2) = true := Machine.exists_reachableWhen_of_execWhen
    (s := ⟨foothreadBarrierInit zeroMem 0 2, fun _ => none, fun _ => 0, fun _ => 0⟩)
    (l := List.replicate 11 0 ++ List.replicate 16 1 ++ [0] ++ List.replicate 11 1
      ++ List.replicate 16 0)
    ⟨zeroMem, by decide, rfl⟩ (by decide +kernel)
  exact ⟨s, hs, by simpa using hp, barrier_phase_safe hs⟩

/-- **A thread overtakes otherwise.** Thread `0` takes its token, calls again, arrives and takes
the token of thread `1`, which has not entered its second call. -/
theorem barrier_overtaken : ¬ ∀ s, (barrierMachine 2).Reachable s → PhaseSafe 2 s := by
  intro h
  obtain ⟨s, hs, hp⟩ := Machine.exists_reachable_of_exec (M := barrierMachine 2)
    (s := ⟨foothreadBarrierInit zeroMem 0 2, fun _ => none, fun _ => 0, fun _ => 0⟩)
    (p := fun s => s.returned 0 == 2 && s.entered 1 == 1)
    (l := List.replicate 11 0 ++ List.replicate 15 1 ++ List.replicate 15 0)
    ⟨zeroMem, by decide, rfl⟩ (by decide)
  simp only [Bool.and_eq_true, beq_iff_eq] at hp
  have := h s hs 0 (by decide) 1 (by decide)
  omega

end OSLab.Foothread
