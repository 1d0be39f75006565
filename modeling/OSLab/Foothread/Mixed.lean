import OSLab.Foothread.MutexOwner

set_option autoImplicit false

/-! # A mutex beside barriers

Threads lock and unlock one mutex and wait at barriers, inside and outside of the mutex. The barriers
have other semaphores, but all calls pass their operand through the same two variables. `pop` only
ever gets `-1`. `vop` gets the count of a barrier from the thread that arrives there last, and a
thread that is about to unlock may read it: its `V` then adds the count, and the mutex lets in more
than one thread (`mutex_shared`).

In the runs whose unlocks find no count in `vop` (`UnlocksByOne`), the mutex excludes
(`mutex_excludes_when`). An unlock that finds a count of `0` or less does not let in anybody.
-/

namespace OSLab.Foothread

/-- A client of the mutex, or a thread in `foothread_barrier_wait(&barriers[b])`, which goes on as
`back` afterwards. -/
inductive MixedPlace
  | client (p : Client)
  | waiting (back : Client) (b : Nat) (pc : BarrierPc)
  deriving DecidableEq, Repr

structure Mixed where
  mem : Mem
  place : Nat → MixedPlace
  exited : Bool

def Mixed.goto (s : Mixed) (t : Nat) (mem : Mem) (p : MixedPlace) : Mixed :=
  { s with mem := mem, place := Function.update s.place t p }

/-- Thread `t` after a step of a call, at `call pc` within it and at `after` when it returns. -/
def Mixed.resume {P : Type} (s : Mixed) (t : Nat) (call : P → MixedPlace) (after : Client) :
    Mem × Ctl P → Mixed
  | (mem, .next pc) => s.goto t mem (call pc)
  | (mem, .clone pc) => s.goto t mem (call pc)
  | (mem, .ret) => s.goto t mem (.client after)
  | (mem, .exit) => { s with mem := mem, exited := true }

/-- What a thread that is in no call does next: it locks or unlocks, whichever is its turn, or it
waits at barrier `b`. -/
inductive Choice
  | mutex
  | barrier (b : Nat)
  deriving DecidableEq, Repr

/-- One step of thread `t`. -/
def mixedStep (x : Nat) (s : Mixed) (t : Nat) (choice : Choice) : Option Mixed :=
  match s.place t, choice with
  | .client .idle, .mutex => some (s.goto t s.mem (.client (.locking .setPop)))
  | .client .holding, .mutex => some (s.goto t s.mem (.client (.unlocking .setPop)))
  | .client .idle, .barrier b => some (s.goto t s.mem (.waiting .idle b .setPop))
  | .client .holding, .barrier b => some (s.goto t s.mem (.waiting .holding b .setPop))
  | .client (.locking pc), _ =>
      (mutexLock x t s.mem pc).map (s.resume t (fun pc => .client (.locking pc)) .holding)
  | .client (.unlocking pc), _ =>
      (mutexUnlock x t s.mem pc).map (s.resume t (fun pc => .client (.unlocking pc)) .idle)
  | .waiting back b pc, _ => (barrierWait b s.mem pc).map (s.resume t (.waiting back b) back)

/-- No barrier has the semaphore of the mutex. -/
def Apart (mem : Mem) : Prop :=
  ∀ b, (mem.barriers b).semaphore ≠ MUTEX_KEY ∧ (mem.barriers b).mutexSemaphore ≠ MUTEX_KEY

/-- `n` threads, the mutex `x`, initialised, and barriers in any state. -/
def mixedMachine (n x : Nat) : Machine Mixed (Nat × Choice) where
  init s := ∃ mem : Mem, Apart mem
    ∧ s = ⟨foothreadMutexInit mem x, fun _ => .client .idle, false⟩
  next s a := if a.1 < n ∧ s.exited = false then mixedStep x s a.1 a.2 else none

/-- Between the return of the lock and the `semop` of the unlock. -/
def Client.inside : Client → Bool
  | .holding => true
  | .unlocking .clearTid | .unlocking .clearStatus => false
  | .unlocking _ => true
  | _ => false

def MixedPlace.inside : MixedPlace → Bool
  | .client p => p.inside
  | .waiting back _ _ => back.inside

/-- The semaphore is at most `1`, and at most one thread is inside. -/
def Excludes (n x : Nat) (s : Mixed) : Prop :=
  s.mem.semval (s.mem.mutexes x).semaphore ≤ 1
    ∧ ∀ t < n, ∀ u < n, (s.place t).inside = true → (s.place u).inside = true → t = u

/-- A thread that takes `vop` for the `semop` of its unlock does not find a count above one. -/
def UnlocksByOne (s : Mixed) (a : Nat × Choice) : Prop :=
  s.place a.1 = .client (.unlocking .unlock) → s.mem.vop ≤ 1

instance (s : Mixed) (a : Nat × Choice) : Decidable (UnlocksByOne s a) :=
  inferInstanceAs (Decidable (_ → _))

/-! ## Places -/

/-- Between `P` and `V`. -/
def MixedPlace.owns : MixedPlace → Bool
  | .client p => p.owns
  | .waiting back _ _ => back.owns

/-- The thread has set `pop` once. -/
def MixedPlace.popSet : MixedPlace → Bool
  | .client p => p.popSet
  | .waiting back _ .setPop => back.popSet
  | .waiting _ _ _ => true

/-- The operation read for the mutex is a `P` of one, or a `V` of one at most. -/
def Client.OpBounded : Client → Prop
  | .locking (.lockOp op) => op = -1
  | .unlocking (.unlockOp op) => op ≤ 1
  | _ => True

def MixedPlace.OpOk : MixedPlace → Prop
  | .client p => p.OpBounded
  | .waiting back _ _ => back.OpBounded

theorem Client.owns_of_inside {p : Client} (h : p.inside = true) : p.owns = true := by
  cases p with
  | idle => cases h
  | holding => rfl
  | locking pc => cases h
  | unlocking pc => cases pc <;> first | rfl | cases h

theorem MixedPlace.owns_of_inside {p : MixedPlace} (h : p.inside = true) : p.owns = true := by
  cases p with
  | client p => exact Client.owns_of_inside h
  | waiting back b pc => exact Client.owns_of_inside (p := back) h

/-! ## The invariant -/

structure Excluded (n x : Nat) (s : Mixed) : Prop where
  semaphore : (s.mem.mutexes x).semaphore = MUTEX_KEY
  apart : Apart s.mem
  count : s.mem.semval MUTEX_KEY + Nat.count (fun t => (s.place t).owns = true) n ≤ 1
  pop : ∀ t < n, (s.place t).popSet = true → s.mem.pop = -1
  op : ∀ t < n, (s.place t).OpOk

variable {n x t u b : Nat} {s s' : Mixed} {mem : Mem} {p : MixedPlace} {back : Client}

theorem excluded_start (hmem : Apart mem) :
    Excluded n x ⟨foothreadMutexInit mem x, fun _ => .client .idle, false⟩ := by
  have hnone : Nat.count (fun _ : Nat => False) n = 0 := Nat.count_iff_forall_not.mpr fun _ _ => id
  constructor
  case semaphore => simp [foothreadMutexInit]
  case apart => exact hmem
  case count => simp [foothreadMutexInit, MixedPlace.owns, Client.owns, hnone]
  case pop => exact fun _ _ h => by cases h
  case op => exact fun _ _ => trivial

theorem Mixed.goto_self (s : Mixed) (t : Nat) (mem : Mem) (p : MixedPlace) :
    (s.goto t mem p).place t = p := Function.update_self ..

theorem Mixed.goto_ne (s : Mixed) (mem : Mem) (p : MixedPlace) (h : u ≠ t) :
    (s.goto t mem p).place u = s.place u := Function.update_of_ne h ..

theorem Excluded.excludes (h : Excluded n x s) : Excludes n x s := by
  have hcount := h.count
  constructor
  · rw [h.semaphore]
    omega
  · intro t ht u hu hit hiu
    have hle : Nat.count (fun t => (s.place t).owns = true) n ≤ 1 := by omega
    exact eq_of_count_le_one (p := fun t => (s.place t).owns = true) hle ht hu
      (MixedPlace.owns_of_inside hit) (MixedPlace.owns_of_inside hiu)

/-- **A step of one thread.** The semaphore and the thread's ownership add up to no more than they
did. -/
theorem Excluded.goto (h : Excluded n x s) (ht : t < n)
    (hsem : (mem.mutexes x).semaphore = MUTEX_KEY) (hapart : Apart mem)
    (hcount : mem.semval MUTEX_KEY + (if p.owns = true then 1 else 0)
      ≤ s.mem.semval MUTEX_KEY + if (s.place t).owns = true then 1 else 0)
    (hpop : mem.pop = -1 ∨ mem.pop = s.mem.pop ∧ (p.popSet = true → (s.place t).popSet = true))
    (hop : p.OpOk) : Excluded n x (s.goto t mem p) := by
  constructor
  case semaphore => exact hsem
  case apart => exact hapart
  case count =>
    have hc := count_change (p := fun u => (s.place u).owns = true)
      (q := fun u => ((s.goto t mem p).place u).owns = true) ht
      (fun u _ hu => by rw [Mixed.goto_ne _ _ _ hu])
    rw [Mixed.goto_self] at hc
    have := h.count
    show mem.semval MUTEX_KEY + _ ≤ 1
    omega
  case pop =>
    intro u hu hset
    rcases hpop with heq | ⟨heq, hkeep⟩
    · exact heq
    · by_cases hut : u = t
      · subst hut
        rw [Mixed.goto_self] at hset
        exact heq.trans (h.pop u hu (hkeep hset))
      · rw [Mixed.goto_ne _ _ _ hut] at hset
        exact heq.trans (h.pop u hu hset)
  case op =>
    intro u hu
    by_cases hut : u = t
    · subst hut
      rw [Mixed.goto_self]
      exact hop
    · rw [Mixed.goto_ne _ _ _ hut]
      exact h.op u hu

/-- A step that leaves the mutex and the barriers' semaphores alone. -/
theorem Excluded.quiet {m : Mem} (h : Excluded n x s) (ht : t < n) (hmutex : m.mutexes = s.mem.mutexes)
    (hapart : Apart m) (hval : m.semval MUTEX_KEY = s.mem.semval MUTEX_KEY)
    (howns : p.owns = (s.place t).owns)
    (hpop : m.pop = -1 ∨ m.pop = s.mem.pop ∧ (p.popSet = true → (s.place t).popSet = true))
    (hop : p.OpOk) : Excluded n x (s.goto t m p) := by
  refine h.goto ht ?_ hapart ?_ hpop hop
  · rw [hmutex]
    exact h.semaphore
  · rw [hval, howns]

/-! ## The steps -/

theorem excluded_lock {pc : LockPc} {c : Ctl LockPc} (h : Excluded n x s) (ht : t < n)
    (hp : s.place t = .client (.locking pc)) (hm : mutexLock x t s.mem pc = some (mem, c)) :
    Excluded n x (s.resume t (fun pc => .client (.locking pc)) .holding (mem, c)) := by
  have hpop := h.pop t ht
  have hop := h.op t ht
  rw [hp] at hpop hop
  cases pc with
  | setPop =>
      cases hm
      exact h.quiet (m := { s.mem with pop := -1 }) ht rfl h.apart rfl (by rw [hp]; rfl)
        (.inl rfl) trivial
  | setVop =>
      cases hm
      exact h.quiet (m := { s.mem with vop := 1 }) ht rfl h.apart rfl (by rw [hp]; rfl)
        (.inr ⟨rfl, fun _ => by rw [hp]; rfl⟩) trivial
  | lock =>
      cases hm
      exact h.quiet ht rfl h.apart rfl (by rw [hp]; rfl) (.inr ⟨rfl, fun _ => by rw [hp]; rfl⟩)
        (hpop rfl)
  | lockOp op =>
      obtain ⟨v, hv, rfl, rfl⟩ := perform_eq_some hm
      obtain rfl : op = -1 := hop
      rw [h.semaphore, semop_neg_one] at hv
      show Excluded n x (s.goto t (s.mem.setSem _ v) (.client (.locking .setTid)))
      refine h.goto ht h.semaphore h.apart ?_ (.inr ⟨rfl, fun _ => by rw [hp]; rfl⟩) trivial
      rw [h.semaphore, hp, hv]
      simp [Mem.setSem, MixedPlace.owns, Client.owns]
  | setTid =>
      cases hm
      refine h.goto ht ?_ h.apart ?_ (.inr ⟨rfl, fun _ => by rw [hp]; rfl⟩) trivial
      · simpa [Mem.setMutex] using h.semaphore
      · rw [hp]
        exact le_rfl
  | setStatus =>
      cases hm
      refine h.goto ht ?_ h.apart ?_ (.inr ⟨rfl, fun _ => by rw [hp]; rfl⟩) trivial
      · simpa [Mem.setMutex] using h.semaphore
      · rw [hp]
        exact le_rfl

/-- The process ends; the semaphore stays. -/
theorem Excluded.exit (h : Excluded n x s) : Excluded n x { s with exited := true } :=
  ⟨h.semaphore, h.apart, h.count, h.pop, h.op⟩

theorem excluded_unlock {pc : UnlockPc} {c : Ctl UnlockPc} (h : Excluded n x s) (ht : t < n)
    (hp : s.place t = .client (.unlocking pc)) (hok : pc = .unlock → s.mem.vop ≤ 1)
    (hm : mutexUnlock x t s.mem pc = some (mem, c)) :
    Excluded n x (s.resume t (fun pc => .client (.unlocking pc)) .idle (mem, c)) := by
  have hop := h.op t ht
  rw [hp] at hop
  have hset : ∀ q : MixedPlace, q.popSet = true → (s.place t).popSet = true :=
    fun _ _ => by rw [hp]; rfl
  cases pc with
  | setPop =>
      cases hm
      exact h.quiet (m := { s.mem with pop := -1 }) ht rfl h.apart rfl (by rw [hp]; rfl)
        (.inl rfl) trivial
  | setVop =>
      cases hm
      exact h.quiet (m := { s.mem with vop := 1 }) ht rfl h.apart rfl (by rw [hp]; rfl)
        (.inr ⟨rfl, hset _⟩) trivial
  | checkTid =>
      simp only [mutexUnlock, Option.some.injEq, Prod.mk.injEq] at hm
      obtain ⟨rfl, rfl⟩ := hm
      split
      · exact h.exit
      · exact h.quiet ht rfl h.apart rfl (by rw [hp]; rfl) (.inr ⟨rfl, hset _⟩) trivial
  | checkStatus =>
      simp only [mutexUnlock, Option.some.injEq, Prod.mk.injEq] at hm
      obtain ⟨rfl, rfl⟩ := hm
      split
      · exact h.exit
      · exact h.quiet ht rfl h.apart rfl (by rw [hp]; rfl) (.inr ⟨rfl, hset _⟩) trivial
  | unlock =>
      cases hm
      exact h.quiet ht rfl h.apart rfl (by rw [hp]; rfl) (.inr ⟨rfl, hset _⟩) (hok rfl)
  | unlockOp op =>
      obtain ⟨v, hv, rfl, rfl⟩ := perform_eq_some hm
      have hop : op ≤ 1 := hop
      -- the mutex is taken, so the `V` finds `0`
      have hzero : s.mem.semval MUTEX_KEY = 0 := by
        have hpos := count_pos (p := fun t => (s.place t).owns = true) ht (by rw [hp]; rfl)
        have := h.count
        omega
      rw [h.semaphore, hzero] at hv
      have hle := semop_zero_le hv
      show Excluded n x (s.goto t (s.mem.setSem _ v) (.client (.unlocking .clearTid)))
      refine h.goto ht h.semaphore h.apart ?_ (.inr ⟨rfl, hset _⟩) trivial
      rw [h.semaphore, hp, hzero]
      simp only [Mem.setSem, Function.update_self, MixedPlace.owns, Client.owns, if_true,
        Bool.false_eq_true, if_false]
      omega
  | clearTid =>
      cases hm
      refine h.goto ht ?_ h.apart ?_ (.inr ⟨rfl, hset _⟩) trivial
      · simpa [Mem.setMutex] using h.semaphore
      · rw [hp]
        exact le_rfl
  | clearStatus =>
      cases hm
      refine h.goto ht ?_ h.apart ?_ (.inr ⟨rfl, hset _⟩) trivial
      · simpa [Mem.setMutex] using h.semaphore
      · rw [hp]
        exact le_rfl

/-- What a step of a barrier call leaves alone. -/
theorem apart_move {s mem : Mem} {pc : BarrierPc} {c : Ctl BarrierPc} (h : Apart s)
    (hm : BarrierMove b s pc mem c) : mem.mutexes = s.mutexes ∧ Apart mem
      ∧ mem.semval MUTEX_KEY = s.semval MUTEX_KEY ∧ (mem.pop = -1 ∨ mem.pop = s.pop ∧ pc ≠ .setPop) := by
  have hset : ∀ r, Apart (s.setReached b r) := by
    intro r b'
    by_cases hb : b' = b
    · subst hb
      simpa [Mem.setReached] using h b'
    · simpa [Mem.setReached, hb] using h b'
  cases hm with
  | setPop => exact ⟨rfl, h, rfl, .inl rfl⟩
  | writeReached r => exact ⟨rfl, hset _, rfl, .inr ⟨rfl, nofun⟩⟩
  | reset => exact ⟨rfl, hset _, rfl, .inr ⟨rfl, nofun⟩⟩
  | lockOp op v hv => exact ⟨rfl, h, Function.update_of_ne (h b).2.symm _ _, .inr ⟨rfl, nofun⟩⟩
  | unlockOp last op v hv =>
      exact ⟨rfl, h, Function.update_of_ne (h b).2.symm _ _, .inr ⟨rfl, nofun⟩⟩
  | releaseOp op v hv => exact ⟨rfl, h, Function.update_of_ne (h b).1.symm _ _, .inr ⟨rfl, nofun⟩⟩
  | passOp op v hv => exact ⟨rfl, h, Function.update_of_ne (h b).1.symm _ _, .inr ⟨rfl, nofun⟩⟩
  | _ => exact ⟨rfl, h, rfl, .inr ⟨rfl, nofun⟩⟩

theorem MixedPlace.popSet_waiting {pc : BarrierPc} (h : pc ≠ .setPop) :
    (MixedPlace.waiting back b pc).popSet = true := by
  cases pc <;> first | rfl | exact absurd rfl h

theorem excluded_wait {pc : BarrierPc} {c : Ctl BarrierPc} (h : Excluded n x s) (ht : t < n)
    (hp : s.place t = .waiting back b pc) (hm : BarrierMove b s.mem pc mem c) :
    Excluded n x (s.resume t (.waiting back b) back (mem, c)) := by
  have hop := h.op t ht
  rw [hp] at hop
  obtain ⟨hmutex, hapart, hval, hpop⟩ := apart_move h.apart hm
  have hgo : ∀ q : MixedPlace, q.owns = back.owns → q.OpOk → Excluded n x (s.goto t mem q) := by
    intro q howns hq
    refine h.quiet ht hmutex hapart hval (by rw [hp, howns]; rfl) ?_ hq
    rcases hpop with hpop | ⟨hpop, hpc⟩
    · exact .inl hpop
    · exact .inr ⟨hpop, fun _ => by rw [hp]; exact MixedPlace.popSet_waiting hpc⟩
  have hgo' : ∀ pc', Excluded n x (s.goto t mem (.waiting back b pc')) := fun _ => hgo _ rfl hop
  cases hm with
  | passOp op v hv => exact hgo _ rfl hop
  | _ => exact hgo' _

theorem excluded_next {a : Nat × Choice} (h : Excluded n x s) (hok : UnlocksByOne s a)
    (hs : (mixedMachine n x).next s a = some s') : Excluded n x s' := by
  simp only [mixedMachine] at hs
  split_ifs at hs with hmoves
  obtain ⟨t, choice⟩ := a
  have ht : t < n := hmoves.1
  have hsame : ∀ q : MixedPlace, q.owns = (s.place t).owns →
      (q.popSet = true → (s.place t).popSet = true) → q.OpOk → Excluded n x (s.goto t s.mem q) :=
    fun q howns hset hq => h.quiet ht rfl h.apart rfl howns (.inr ⟨rfl, hset⟩) hq
  unfold mixedStep at hs
  split at hs
  · rename_i hp _
    cases hs
    exact hsame _ (by rw [hp]; rfl) nofun trivial
  · rename_i hp _
    cases hs
    exact hsame _ (by rw [hp]; rfl) (fun _ => by rw [hp]; rfl) trivial
  · rename_i hp _
    cases hs
    exact hsame _ (by rw [hp]; rfl) nofun trivial
  · rename_i hp _
    cases hs
    exact hsame _ (by rw [hp]; rfl) (fun _ => by rw [hp]; rfl) trivial
  · rename_i pc _ hp
    obtain ⟨⟨mem, c⟩, hm, rfl⟩ := Option.map_eq_some_iff.mp hs
    exact excluded_lock h ht hp hm
  · rename_i pc _ hp
    obtain ⟨⟨mem, c⟩, hm, rfl⟩ := Option.map_eq_some_iff.mp hs
    exact excluded_unlock h ht hp (fun hpc => hok (hpc ▸ hp)) hm
  · rename_i back b pc _ hp
    obtain ⟨⟨mem, c⟩, hm, rfl⟩ := Option.map_eq_some_iff.mp hs
    exact excluded_wait h ht hp (barrierMove_of_wait hm)

/-- **The mutex excludes** in the runs whose unlocks find no count in `vop`. -/
theorem mutex_excludes_when (h : (mixedMachine n x).ReachableWhen UnlocksByOne s) :
    Excludes n x s := by
  have hexcluded : Excluded n x s := by
    apply h.invariant
    · rintro s ⟨mem, hmem, rfl⟩
      exact excluded_start hmem
    · exact fun s a s' hI hok hs => excluded_next hI hok hs
  exact hexcluded.excludes

/-- Three threads, the mutex and a barrier of count `2`. -/
def mixedStart : Mixed :=
  ⟨foothreadMutexInit (foothreadBarrierInit zeroMem 0 2) 0, fun _ => .client .idle, false⟩

theorem mixedStart_init : (mixedMachine 3 0).init mixedStart := by
  refine ⟨foothreadBarrierInit zeroMem 0 2, fun b => ?_, rfl⟩
  by_cases hb : b = 0
  · subst hb
    exact ⟨by decide, by decide⟩
  · simp [foothreadBarrierInit, hb, zeroMem, MUTEX_KEY]

/-- Thread `0` waits at the barrier, thread `2` locks and comes to the `V` of its unlock. -/
def untilUnlock : List (Nat × Choice) :=
  (0, .barrier 0) :: List.replicate 10 (0, .mutex) ++ List.replicate 12 (2, .mutex)

/-- When thread `2` unlocks before the others arrive at the barrier, thread `1` is alone inside. -/
theorem mutex_excludes_when_run :
    ∃ s, (mixedMachine 3 0).ReachableWhen UnlocksByOne s ∧ (s.place 1).inside = true
      ∧ Excludes 3 0 s := by
  obtain ⟨s, hs, hp⟩ : ∃ s, (mixedMachine 3 0).ReachableWhen UnlocksByOne s
      ∧ (s.place 1).inside = true := Machine.exists_reachableWhen_of_execWhen
    (s := mixedStart) (l := untilUnlock ++ List.replicate 2 (2, .mutex)
      ++ List.replicate 7 (1, .mutex)) mixedStart_init (by decide +kernel)
  exact ⟨s, hs, hp, mutex_excludes_when hs⟩

/-- **Otherwise the mutex is shared.** Thread `1` arrives last at the barrier and sets `vop` to `2`
before thread `2` takes it for its `V`: the semaphore is `2`, and when threads `0` and `1` have left
the barrier, both get the mutex. -/
theorem mutex_shared :
    (∃ s, (mixedMachine 3 0).Reachable s ∧ s.mem.semval (s.mem.mutexes 0).semaphore = 2)
      ∧ (∃ s, (mixedMachine 3 0).Reachable s ∧ (s.place 0).inside = true
        ∧ (s.place 1).inside = true)
      ∧ ¬ ∀ s, (mixedMachine 3 0).Reachable s → Excludes 3 0 s := by
  have htwo : ∃ s, (mixedMachine 3 0).Reachable s
      ∧ s.mem.semval (s.mem.mutexes 0).semaphore = 2 := by
    obtain ⟨s, hs, hp⟩ := Machine.exists_reachable_of_exec (M := mixedMachine 3 0)
      (l := untilUnlock ++ (1, .barrier 0) :: List.replicate 10 (1, .mutex)
        ++ List.replicate 2 (2, .mutex))
      (p := fun s => s.mem.semval (s.mem.mutexes 0).semaphore == 2) mixedStart_init
      (by decide +kernel)
    exact ⟨s, hs, by simpa using hp⟩
  have hboth : ∃ s, (mixedMachine 3 0).Reachable s ∧ (s.place 0).inside = true
      ∧ (s.place 1).inside = true := by
    obtain ⟨s, hs, hp⟩ := Machine.exists_reachable_of_exec (M := mixedMachine 3 0)
      (l := untilUnlock ++ (1, .barrier 0) :: List.replicate 10 (1, .mutex)
        ++ List.replicate 2 (2, .mutex) ++ List.replicate 4 (1, .mutex) ++ [(0, .mutex), (1, .mutex)]
        ++ List.replicate 7 (0, .mutex) ++ List.replicate 7 (1, .mutex))
      (p := fun s => (s.place 0).inside && (s.place 1).inside) mixedStart_init (by decide +kernel)
    exact ⟨s, hs, by simpa using hp⟩
  refine ⟨htwo, hboth, fun hall => ?_⟩
  obtain ⟨s, hs, h0, h1⟩ := hboth
  have hsame := (hall s hs).2 0 (by decide) 1 (by decide) h0 h1
  cases hsame

end OSLab.Foothread
