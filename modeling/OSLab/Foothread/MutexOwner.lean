import OSLab.Foothread.Library
import OSLab.Lib.Count

set_option autoImplicit false

/-! # Threads that contend for one mutex

A thread that locks writes `tid` and `status` after its `P`, so inside the region that the semaphore
protects; a thread that unlocks resets them after its `V`, outside of it. Between the two another
thread may lock: its `tid` and `status` are overwritten, and its own unlock ends the process
(`owner_forgotten`).

A reset does no harm when it comes in time (`ResetInTime`): before the next owner writes the field,
or after the next owner has checked it. In the runs whose resets all do, every thread that holds the
mutex is known as its owner (`owner_known_when`). The semaphore itself does its work in every run: it
and the threads between `P` and `V` add up to one.
-/

namespace OSLab.Foothread

/-- Where a client of the mutex is: between two rounds, in a call, or between its two calls. -/
inductive Client
  | idle
  | locking (pc : LockPc)
  | holding
  | unlocking (pc : UnlockPc)
  deriving DecidableEq, Repr

/-- The clients, and whether a failed unlock has ended the process. -/
structure Clients where
  mem : Mem
  place : Nat → Client
  exited : Bool

def Clients.goto (s : Clients) (t : Nat) (mem : Mem) (p : Client) : Clients :=
  { s with mem := mem, place := Function.update s.place t p }

/-- Thread `t` after a step of a call, at `call pc` within it and at `after` when it returns. -/
def Clients.resume {P : Type} (s : Clients) (t : Nat) (call : P → Client) (after : Client) :
    Mem × Ctl P → Clients
  | (mem, .next pc) => s.goto t mem (call pc)
  | (mem, .clone pc) => s.goto t mem (call pc)
  | (mem, .ret) => s.goto t mem after
  | (mem, .exit) => { s with mem := mem, exited := true }

/-- One step of thread `t`, which locks and unlocks mutex `x` again and again. -/
def clientStep (x : Nat) (s : Clients) (t : Nat) : Option Clients :=
  match s.place t with
  | .idle => some (s.goto t s.mem (.locking .setPop))
  | .locking pc => (mutexLock x t s.mem pc).map (s.resume t .locking .holding)
  | .holding => some (s.goto t s.mem (.unlocking .setPop))
  | .unlocking pc => (mutexUnlock x t s.mem pc).map (s.resume t .unlocking .idle)

/-- `n` threads and the mutex `x`, initialised in an arbitrary memory. -/
def mutexMachine (n x : Nat) : Machine Clients Nat where
  init s := ∃ mem : Mem, s = ⟨foothreadMutexInit mem x, fun _ => .idle, false⟩
  next s t := if t < n ∧ s.exited = false then clientStep x s t else none

/-- Nobody has failed to unlock, and a thread between its two calls is the known owner. -/
def OwnerKnown (n x : Nat) (s : Clients) : Prop :=
  s.exited = false ∧ ∀ t < n, s.place t = .holding →
    (s.mem.mutexes x).tid = gettid t ∧ (s.mem.mutexes x).status = 1

/-! ## Places -/

/-- Between `P` and `V`. -/
def Client.owns : Client → Bool
  | .locking .setTid | .locking .setStatus | .holding => true
  | .unlocking .clearTid | .unlocking .clearStatus => false
  | .unlocking _ => true
  | _ => false

/-- Between the write of `tid` in the lock and its check in the unlock. -/
def Client.needsTid : Client → Bool
  | .locking .setStatus | .holding => true
  | .unlocking .setPop | .unlocking .setVop | .unlocking .checkTid => true
  | _ => false

/-- Between the write of `status` in the lock and its check in the unlock. -/
def Client.needsStatus : Client → Bool
  | .holding => true
  | .unlocking .setPop | .unlocking .setVop | .unlocking .checkTid | .unlocking .checkStatus => true
  | _ => false

/-- The thread has set `pop` once. -/
def Client.popSet : Client → Bool
  | .idle | .locking .setPop => false
  | _ => true

/-- The thread has set `vop` once. -/
def Client.vopSet : Client → Bool
  | .idle | .locking .setPop | .locking .setVop => false
  | _ => true

/-- The operation a thread has read is a `P` or a `V` of one. -/
def Client.OpOk : Client → Prop
  | .locking (.lockOp op) => op = -1
  | .unlocking (.unlockOp op) => op = 1
  | _ => True

theorem Client.owns_of_needsTid {p : Client} (h : p.needsTid = true) : p.owns = true := by
  cases p with
  | idle => cases h
  | holding => rfl
  | locking pc => cases pc <;> first | rfl | cases h
  | unlocking pc => cases pc <;> first | rfl | cases h

theorem Client.owns_of_needsStatus {p : Client} (h : p.needsStatus = true) : p.owns = true := by
  cases p with
  | idle => cases h
  | holding => rfl
  | locking pc => cases pc <;> cases h
  | unlocking pc => cases pc <;> first | rfl | cases h

/-- A thread that resets a field of the mutex does so while nobody relies on it. -/
def ResetInTime (n : Nat) (s : Clients) (t : Nat) : Prop :=
  (s.place t = .unlocking .clearTid → ∀ u < n, (s.place u).needsTid = false)
    ∧ (s.place t = .unlocking .clearStatus → ∀ u < n, (s.place u).needsStatus = false)

instance (n : Nat) (s : Clients) (t : Nat) : Decidable (ResetInTime n s t) :=
  inferInstanceAs (Decidable (_ ∧ _))

/-! ## The invariant -/

/-- What holds of the mutex and of every client, as long as the resets come in time. -/
structure Attributed (n x : Nat) (s : Clients) : Prop where
  running : s.exited = false
  semaphore : (s.mem.mutexes x).semaphore = MUTEX_KEY
  count : s.mem.semval MUTEX_KEY + Nat.count (fun t => (s.place t).owns = true) n = 1
  pop : ∀ t < n, (s.place t).popSet = true → s.mem.pop = -1
  vop : ∀ t < n, (s.place t).vopSet = true → s.mem.vop = 1
  op : ∀ t < n, (s.place t).OpOk
  tid : ∀ t < n, (s.place t).needsTid = true → (s.mem.mutexes x).tid = gettid t
  status : ∀ t < n, (s.place t).needsStatus = true → (s.mem.mutexes x).status = 1

variable {n x t u : Nat} {s s' : Clients} {mem : Mem} {p p' : Client}

theorem attributed_start (mem : Mem) :
    Attributed n x ⟨foothreadMutexInit mem x, fun _ => .idle, false⟩ := by
  have hnone : Nat.count (fun _ : Nat => False) n = 0 := Nat.count_iff_forall_not.mpr fun _ _ => id
  constructor
  case running => rfl
  case semaphore => simp [foothreadMutexInit]
  case count => simp [foothreadMutexInit, Client.owns, hnone]
  case op => exact fun _ _ => trivial
  all_goals exact fun _ _ h => by cases h

theorem Clients.goto_self (s : Clients) (t : Nat) (mem : Mem) (p : Client) :
    (s.goto t mem p).place t = p := Function.update_self ..

theorem Clients.goto_ne (s : Clients) (mem : Mem) (p : Client) (h : u ≠ t) :
    (s.goto t mem p).place u = s.place u := Function.update_of_ne h ..

/-- Two threads between `P` and `V` are the same. -/
theorem Attributed.unique (h : Attributed n x s) (ht : t < n) (hu : u < n)
    (hot : (s.place t).owns = true) (hou : (s.place u).owns = true) : t = u := by
  apply eq_of_count_le_one (p := fun t => (s.place t).owns = true) _ ht hu hot hou
  have := h.count
  omega

/-- **A step of one thread.** The semaphore and the thread's ownership add up to what they were;
what the thread newly relies on it finds, and what the others rely on stays. -/
theorem Attributed.goto (h : Attributed n x s) (ht : t < n)
    (hsem : (mem.mutexes x).semaphore = MUTEX_KEY)
    (hcount : mem.semval MUTEX_KEY + (if p.owns = true then 1 else 0)
      = s.mem.semval MUTEX_KEY + if (s.place t).owns = true then 1 else 0)
    (hpop : mem.pop = -1 ∨ mem.pop = s.mem.pop ∧ (p.popSet = true → (s.place t).popSet = true))
    (hvop : mem.vop = 1 ∨ mem.vop = s.mem.vop ∧ (p.vopSet = true → (s.place t).vopSet = true))
    (hop : p.OpOk)
    (htid : p.needsTid = true → (mem.mutexes x).tid = gettid t)
    (htids : ∀ u < n, u ≠ t → (s.place u).needsTid = true → (mem.mutexes x).tid = gettid u)
    (hstatus : p.needsStatus = true → (mem.mutexes x).status = 1)
    (hstatuses : ∀ u < n, u ≠ t → (s.place u).needsStatus = true → (mem.mutexes x).status = 1) :
    Attributed n x (s.goto t mem p) := by
  -- what holds of the mover and of the others holds of all
  have hall : ∀ Q : Nat → Client → Prop, Q t p → (∀ u < n, u ≠ t → Q u (s.place u)) →
      ∀ u < n, Q u ((s.goto t mem p).place u) := by
    intro Q hmover hothers u hu
    by_cases hut : u = t
    · subst hut
      rw [Clients.goto_self]
      exact hmover
    · rw [Clients.goto_ne _ _ _ hut]
      exact hothers u hu hut
  constructor
  case running => exact h.running
  case semaphore => exact hsem
  case count =>
    have hc := count_change (p := fun u => (s.place u).owns = true)
      (q := fun u => ((s.goto t mem p).place u).owns = true) ht
      (fun u _ hu => by rw [Clients.goto_ne _ _ _ hu])
    rw [Clients.goto_self] at hc
    have := h.count
    show mem.semval MUTEX_KEY + _ = 1
    omega
  case pop =>
    rcases hpop with heq | ⟨heq, hset⟩
    · exact fun _ _ _ => heq
    · apply hall fun _ q => q.popSet = true → mem.pop = -1
      · exact fun hp => heq.trans (h.pop t ht (hset hp))
      · exact fun u hu _ hq => heq.trans (h.pop u hu hq)
  case vop =>
    rcases hvop with heq | ⟨heq, hset⟩
    · exact fun _ _ _ => heq
    · apply hall fun _ q => q.vopSet = true → mem.vop = 1
      · exact fun hp => heq.trans (h.vop t ht (hset hp))
      · exact fun u hu _ hq => heq.trans (h.vop u hu hq)
  case op => exact hall (fun _ q => q.OpOk) hop fun u hu _ => h.op u hu
  case tid => exact hall (fun u q => q.needsTid = true → (mem.mutexes x).tid = gettid u) htid htids
  case status =>
    exact hall (fun _ q => q.needsStatus = true → (mem.mutexes x).status = 1) hstatus hstatuses

/-- A step that leaves the mutex alone. -/
theorem Attributed.quiet (h : Attributed n x s) (ht : t < n) (hmutex : mem.mutexes = s.mem.mutexes)
    (hcount : mem.semval MUTEX_KEY + (if p.owns = true then 1 else 0)
      = s.mem.semval MUTEX_KEY + if (s.place t).owns = true then 1 else 0)
    (hpop : mem.pop = -1 ∨ mem.pop = s.mem.pop ∧ (p.popSet = true → (s.place t).popSet = true))
    (hvop : mem.vop = 1 ∨ mem.vop = s.mem.vop ∧ (p.vopSet = true → (s.place t).vopSet = true))
    (hop : p.OpOk) (htid : p.needsTid = true → (s.place t).needsTid = true)
    (hstatus : p.needsStatus = true → (s.place t).needsStatus = true) :
    Attributed n x (s.goto t mem p) := by
  apply h.goto ht _ hcount hpop hvop hop
  · exact fun hp => hmutex ▸ h.tid t ht (htid hp)
  · exact fun u hu _ hq => hmutex ▸ h.tid u hu hq
  · exact fun hp => hmutex ▸ h.status t ht (hstatus hp)
  · exact fun u hu _ hq => hmutex ▸ h.status u hu hq
  · exact hmutex ▸ h.semaphore

/-- A step of the owner before its `V`, or of a thread before its `P`, within its local work. -/
theorem Attributed.same (h : Attributed n x s) (ht : t < n)
    (howns : p.owns = (s.place t).owns) (hop : p.OpOk)
    (hpop : p.popSet = true → (s.place t).popSet = true)
    (hvop : p.vopSet = true → (s.place t).vopSet = true)
    (htid : p.needsTid = true → (s.place t).needsTid = true)
    (hstatus : p.needsStatus = true → (s.place t).needsStatus = true) :
    Attributed n x (s.goto t s.mem p) :=
  h.quiet ht rfl (by rw [howns]) (.inr ⟨rfl, hpop⟩) (.inr ⟨rfl, hvop⟩) hop htid hstatus

/-! ## The steps -/

theorem attributed_lock {pc : LockPc} {c : Ctl LockPc} (h : Attributed n x s) (ht : t < n)
    (hp : s.place t = .locking pc) (hm : mutexLock x t s.mem pc = some (mem, c)) :
    Attributed n x (s.resume t .locking .holding (mem, c)) := by
  have hpop := h.pop t ht
  have hop := h.op t ht
  rw [hp] at hpop hop
  cases pc with
  | setPop =>
      cases hm
      show Attributed n x (s.goto t { s.mem with pop := -1 } (.locking .setVop))
      refine h.quiet ht rfl ?_ (.inl rfl) (.inr ⟨rfl, nofun⟩) trivial nofun nofun
      rw [hp]
      rfl
  | setVop =>
      cases hm
      show Attributed n x (s.goto t { s.mem with vop := 1 } (.locking .lock))
      refine h.quiet ht rfl ?_ (.inr ⟨rfl, fun _ => by rw [hp]; rfl⟩) (.inl rfl) trivial nofun nofun
      rw [hp]
      rfl
  | lock =>
      cases hm
      apply h.same ht
      case howns => rw [hp]; rfl
      case hop => exact hpop rfl
      case hpop => exact fun _ => by rw [hp]; rfl
      case hvop => exact fun _ => by rw [hp]; rfl
      all_goals nofun
  | lockOp op =>
      obtain ⟨v, hv, rfl, rfl⟩ := perform_eq_some hm
      obtain rfl : op = -1 := hop
      rw [h.semaphore, semop_neg_one] at hv
      show Attributed n x (s.goto t (s.mem.setSem _ v) (.locking .setTid))
      refine h.quiet ht rfl ?_ (.inr ⟨rfl, fun _ => by rw [hp]; rfl⟩)
        (.inr ⟨rfl, fun _ => by rw [hp]; rfl⟩) trivial nofun nofun
      rw [h.semaphore, hp, hv]
      simp [Mem.setSem, Client.owns]
  | setTid =>
      cases hm
      have hown : (s.place t).owns = true := by rw [hp]; rfl
      apply h.goto ht
      case hsem => simpa [Mem.setMutex] using h.semaphore
      case hcount => rw [hp]; rfl
      case hpop => exact .inr ⟨rfl, fun _ => by rw [hp]; rfl⟩
      case hvop => exact .inr ⟨rfl, fun _ => by rw [hp]; rfl⟩
      case hop => trivial
      case htid => exact fun _ => by simp [Mem.setMutex]
      -- nobody else relies on `tid`, since nobody else owns the mutex
      case htids =>
        exact fun u hu hut hq => absurd (h.unique hu ht (Client.owns_of_needsTid hq) hown) hut
      case hstatus => nofun
      case hstatuses =>
        exact fun u hu hut hq => absurd (h.unique hu ht (Client.owns_of_needsStatus hq) hown) hut
  | setStatus =>
      cases hm
      have hown : (s.place t).owns = true := by rw [hp]; rfl
      apply h.goto ht
      case hsem => simpa [Mem.setMutex] using h.semaphore
      case hcount => rw [hp]; rfl
      case hpop => exact .inr ⟨rfl, fun _ => by rw [hp]; rfl⟩
      case hvop => exact .inr ⟨rfl, fun _ => by rw [hp]; rfl⟩
      case hop => trivial
      case htid =>
        intro _
        simpa [Mem.setMutex] using h.tid t ht (by rw [hp]; rfl)
      case htids =>
        exact fun u hu hut hq => absurd (h.unique hu ht (Client.owns_of_needsTid hq) hown) hut
      case hstatus => exact fun _ => by simp [Mem.setMutex]
      case hstatuses => exact fun u hu hut hq => by simp [Mem.setMutex]

theorem attributed_unlock {pc : UnlockPc} {c : Ctl UnlockPc} (h : Attributed n x s) (ht : t < n)
    (hp : s.place t = .unlocking pc) (hok : ResetInTime n s t)
    (hm : mutexUnlock x t s.mem pc = some (mem, c)) :
    Attributed n x (s.resume t .unlocking .idle (mem, c)) := by
  have htid := h.tid t ht
  have hstatus := h.status t ht
  have hvop := h.vop t ht
  have hop := h.op t ht
  rw [hp] at htid hstatus hvop hop
  cases pc with
  | setPop =>
      cases hm
      show Attributed n x (s.goto t { s.mem with pop := -1 } (.unlocking .setVop))
      refine h.quiet ht rfl ?_ (.inl rfl) (.inr ⟨rfl, fun _ => by rw [hp]; rfl⟩) trivial
        (fun _ => by rw [hp]; rfl) (fun _ => by rw [hp]; rfl)
      rw [hp]
      rfl
  | setVop =>
      cases hm
      show Attributed n x (s.goto t { s.mem with vop := 1 } (.unlocking .checkTid))
      refine h.quiet ht rfl ?_ (.inr ⟨rfl, fun _ => by rw [hp]; rfl⟩) (.inl rfl) trivial
        (fun _ => by rw [hp]; rfl) (fun _ => by rw [hp]; rfl)
      rw [hp]
      rfl
  | checkTid =>
      -- the check is passed
      have hown : (s.mem.mutexes x).tid = gettid t := htid rfl
      simp only [mutexUnlock, hown, ne_eq, not_true_eq_false, if_false, Option.some.injEq,
        Prod.mk.injEq] at hm
      obtain ⟨rfl, rfl⟩ := hm
      apply h.same ht
      case howns => rw [hp]; rfl
      case hop => trivial
      case htid => nofun
      all_goals exact fun _ => by rw [hp]; rfl
  | checkStatus =>
      have hlocked : (s.mem.mutexes x).status = 1 := hstatus rfl
      simp only [mutexUnlock, hlocked, one_ne_zero, if_false, Option.some.injEq,
        Prod.mk.injEq] at hm
      obtain ⟨rfl, rfl⟩ := hm
      apply h.same ht
      case howns => rw [hp]; rfl
      case hop => trivial
      case htid => nofun
      case hstatus => nofun
      all_goals exact fun _ => by rw [hp]; rfl
  | unlock =>
      cases hm
      apply h.same ht
      case howns => rw [hp]; rfl
      case hop => exact hvop rfl
      case htid => nofun
      case hstatus => nofun
      all_goals exact fun _ => by rw [hp]; rfl
  | unlockOp op =>
      obtain ⟨v, hv, rfl, rfl⟩ := perform_eq_some hm
      obtain rfl : op = 1 := hop
      -- the mutex is taken, so the `V` finds `0`
      have hzero : s.mem.semval MUTEX_KEY = 0 := by
        have hpos := count_pos (p := fun t => (s.place t).owns = true) ht (by rw [hp]; rfl)
        have := h.count
        omega
      rw [h.semaphore, hzero, semop_one (by decide)] at hv
      show Attributed n x (s.goto t (s.mem.setSem _ v) (.unlocking .clearTid))
      refine h.quiet ht rfl ?_ (.inr ⟨rfl, fun _ => by rw [hp]; rfl⟩)
        (.inr ⟨rfl, fun _ => by rw [hp]; rfl⟩) trivial nofun nofun
      rw [h.semaphore, hp, hzero, ← Option.some.inj hv]
      simp [Mem.setSem, Client.owns]
  | clearTid =>
      cases hm
      apply h.goto ht
      case hsem => simpa [Mem.setMutex] using h.semaphore
      case hcount => rw [hp]; rfl
      case hpop => exact .inr ⟨rfl, fun _ => by rw [hp]; rfl⟩
      case hvop => exact .inr ⟨rfl, fun _ => by rw [hp]; rfl⟩
      case hop => trivial
      case htid => nofun
      case htids =>
        intro u hu _ hq
        rw [hok.1 hp u hu] at hq
        cases hq
      case hstatus => nofun
      case hstatuses => exact fun u hu _ hq => by simpa [Mem.setMutex] using h.status u hu hq
  | clearStatus =>
      cases hm
      apply h.goto ht
      case hsem => simpa [Mem.setMutex] using h.semaphore
      case hcount => rw [hp]; rfl
      case hpop => exact .inr ⟨rfl, nofun⟩
      case hvop => exact .inr ⟨rfl, nofun⟩
      case hop => trivial
      case htid => nofun
      case htids => exact fun u hu _ hq => by simpa [Mem.setMutex] using h.tid u hu hq
      case hstatus => nofun
      case hstatuses =>
        intro u hu _ hq
        rw [hok.2 hp u hu] at hq
        cases hq

theorem attributed_next (h : Attributed n x s) (hok : ResetInTime n s t)
    (hs : (mutexMachine n x).next s t = some s') : Attributed n x s' := by
  simp only [mutexMachine] at hs
  split_ifs at hs with hmoves
  have ht := hmoves.1
  unfold clientStep at hs
  cases hp : s.place t with
  | idle =>
      rw [hp] at hs
      cases hs
      apply h.same ht
      case howns => rw [hp]; rfl
      case hop => trivial
      all_goals nofun
  | locking pc =>
      rw [hp] at hs
      obtain ⟨⟨mem, c⟩, hm, rfl⟩ := Option.map_eq_some_iff.mp hs
      exact attributed_lock h ht hp hm
  | holding =>
      rw [hp] at hs
      cases hs
      apply h.same ht
      case howns => rw [hp]; rfl
      case hop => trivial
      all_goals exact fun _ => by rw [hp]; rfl
  | unlocking pc =>
      rw [hp] at hs
      obtain ⟨⟨mem, c⟩, hm, rfl⟩ := Option.map_eq_some_iff.mp hs
      exact attributed_unlock h ht hp hok hm

theorem attributed_reachable (h : (mutexMachine n x).ReachableWhen (ResetInTime n) s) :
    Attributed n x s := by
  apply h.invariant
  · rintro s ⟨mem, rfl⟩
    exact attributed_start mem
  · exact fun s t s' hI hok hs => attributed_next hI hok hs

/-- **Ownership.** In the runs whose resets come in time no unlock fails, and whoever is between the
return of the lock and the call of the unlock is the known owner. -/
theorem owner_known_when (h : (mutexMachine n x).ReachableWhen (ResetInTime n) s) :
    OwnerKnown n x s := by
  have ha := attributed_reachable h
  refine ⟨ha.running, fun t ht hp => ⟨?_, ?_⟩⟩
  · exact ha.tid t ht (by rw [hp]; rfl)
  · exact ha.status t ht (by rw [hp]; rfl)

/-- Thread `1` waits for the mutex, and gets it when thread `0` has reset the fields. -/
theorem owner_known_when_run :
    ∃ s, (mutexMachine 2 0).ReachableWhen (ResetInTime 2) s ∧ s.place 1 = .holding
      ∧ OwnerKnown 2 0 s := by
  obtain ⟨s, hs, hp⟩ : ∃ s, (mutexMachine 2 0).ReachableWhen (ResetInTime 2) s
      ∧ (s.place 1 == .holding) = true := Machine.exists_reachableWhen_of_execWhen
    (s := ⟨foothreadMutexInit zeroMem 0, fun _ => .idle, false⟩)
    (l := List.replicate 7 0 ++ List.replicate 4 1 ++ List.replicate 9 0 ++ List.replicate 3 1)
    ⟨zeroMem, rfl⟩ (by decide)
  exact ⟨s, hs, by simpa using hp, owner_known_when hs⟩

/-- **The owner is forgotten otherwise.** Thread `1` locks between the `V` of thread `0` and its
reset of `tid`, and then cannot unlock. -/
theorem owner_forgotten : ∃ s, (mutexMachine 2 0).Reachable s ∧ s.exited = true := by
  obtain ⟨s, hs, hp⟩ := Machine.exists_reachable_of_exec (M := mutexMachine 2 0)
    (s := ⟨foothreadMutexInit zeroMem 0, fun _ => .idle, false⟩) (p := fun s => s.exited)
    (l := List.replicate 14 0 ++ List.replicate 7 1 ++ [0] ++ List.replicate 4 1)
    ⟨zeroMem, rfl⟩ (by decide)
  exact ⟨s, hs, hp⟩

end OSLab.Foothread
