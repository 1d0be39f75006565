import OSLab.Foothread.MutexOwner

set_option autoImplicit false

/-! # What the semaphore of a mutex does in every run

The owner's `tid` may be forgotten (`owner_forgotten`), but the semaphore counts: it and the threads
between `P` and `V` add up to one in every run (`Guarded`), also in those in which a reset comes late. So
a thread whose `P` blocks has another one before it that does not (`Guarded.ahead`).
-/

namespace OSLab.Foothread

/-- What holds of the semaphore, and of what the threads pass to `semop`. -/
structure Guarded (n x : Nat) (s : Clients) : Prop where
  semaphore : (s.mem.mutexes x).semaphore = MUTEX_KEY
  count : s.mem.semval MUTEX_KEY + Nat.count (fun t => (s.place t).owns = true) n = 1
  pop : ∀ t < n, (s.place t).popSet = true → s.mem.pop = -1
  vop : ∀ t < n, (s.place t).vopSet = true → s.mem.vop = 1
  op : ∀ t < n, (s.place t).OpOk

variable {n x t u : Nat} {s s' : Clients} {mem : Mem} {p p' : Client}

theorem guarded_start (mem : Mem) :
    Guarded n x ⟨foothreadMutexInit mem x, fun _ => .idle, false⟩ where
  semaphore := by simp [foothreadMutexInit]
  count := (attributed_start mem).count
  pop := (attributed_start mem).pop
  vop := (attributed_start mem).vop
  op := (attributed_start mem).op

/-- Two threads between `P` and `V` are the same. -/
theorem Guarded.unique (h : Guarded n x s) (ht : t < n) (hu : u < n)
    (hot : (s.place t).owns = true) (hou : (s.place u).owns = true) : t = u := by
  apply eq_of_count_le_one (p := fun t => (s.place t).owns = true) _ ht hu hot hou
  have := h.count
  omega

/-- When the semaphore is `0`, somebody is between `P` and `V`. -/
theorem Guarded.owner (h : Guarded n x s) (hzero : s.mem.semval MUTEX_KEY = 0) :
    ∃ t < n, (s.place t).owns = true := by
  by_contra hnone
  push Not at hnone
  have hcount : Nat.count (fun t => (s.place t).owns = true) n = 0 :=
    Nat.count_iff_forall_not.mpr fun t ht => by simpa using hnone t ht
  have := h.count
  omega

/-- A step of one thread: the semaphore and the thread's ownership add up to what they were. -/
theorem Guarded.goto (h : Guarded n x s) (ht : t < n)
    (hsem : (mem.mutexes x).semaphore = MUTEX_KEY)
    (hcount : mem.semval MUTEX_KEY + (if p.owns = true then 1 else 0)
      = s.mem.semval MUTEX_KEY + if (s.place t).owns = true then 1 else 0)
    (hpop : mem.pop = -1 ∨ mem.pop = s.mem.pop ∧ (p.popSet = true → (s.place t).popSet = true))
    (hvop : mem.vop = 1 ∨ mem.vop = s.mem.vop ∧ (p.vopSet = true → (s.place t).vopSet = true))
    (hop : p.OpOk) : Guarded n x (s.goto t mem p) := by
  -- what holds of the mover and of the others holds of all
  have hall : ∀ Q : Client → Prop, Q p → (∀ u < n, Q (s.place u)) →
      ∀ u < n, Q ((s.goto t mem p).place u) := by
    intro Q hmover hothers u hu
    by_cases hut : u = t
    · subst hut
      rwa [Clients.goto_self]
    · rw [Clients.goto_ne _ _ _ hut]
      exact hothers u hu
  constructor
  case semaphore => exact hsem
  case count =>
    have hc := count_change (p := fun u => (s.place u).owns = true)
      (q := fun u => ((s.goto t mem p).place u).owns = true) ht
      (fun u _ hu => by rw [Clients.goto_ne _ _ _ hu])
    rw [Clients.goto_self] at hc
    have := h.count
    show mem.semval MUTEX_KEY + _ = 1
    omega
  case pop =>
    rcases hpop with heq | ⟨heq, hset⟩
    · exact fun _ _ _ => heq
    · apply hall fun q => q.popSet = true → mem.pop = -1
      · exact fun hp => heq.trans (h.pop t ht (hset hp))
      · exact fun u hu hq => heq.trans (h.pop u hu hq)
  case vop =>
    rcases hvop with heq | ⟨heq, hset⟩
    · exact fun _ _ _ => heq
    · apply hall fun q => q.vopSet = true → mem.vop = 1
      · exact fun hp => heq.trans (h.vop t ht (hset hp))
      · exact fun u hu hq => heq.trans (h.vop u hu hq)
  case op => exact hall Client.OpOk hop h.op

/-- A step that leaves the semaphore, `pop` and `vop` alone. -/
theorem Guarded.same (h : Guarded n x s) (ht : t < n)
    (hsem : (mem.mutexes x).semaphore = MUTEX_KEY)
    (hval : mem.semval = s.mem.semval) (hmempop : mem.pop = s.mem.pop)
    (hmemvop : mem.vop = s.mem.vop) (howns : p.owns = (s.place t).owns)
    (hpop : p.popSet = true → (s.place t).popSet = true)
    (hvop : p.vopSet = true → (s.place t).vopSet = true) (hop : p.OpOk) :
    Guarded n x (s.goto t mem p) :=
  h.goto ht hsem (by rw [hval, howns]) (.inr ⟨hmempop, hpop⟩) (.inr ⟨hmemvop, hvop⟩) hop

theorem guarded_lock {pc : LockPc} {c : Ctl LockPc} (h : Guarded n x s) (ht : t < n)
    (hp : s.place t = .locking pc) (hm : mutexLock x t s.mem pc = some (mem, c)) :
    Guarded n x (s.resume t .locking .holding (mem, c)) := by
  have hpop := h.pop t ht
  have hop := h.op t ht
  have hsem := h.semaphore
  rw [hp] at hpop hop
  cases pc with
  | setPop =>
      cases hm
      refine h.goto ht hsem ?_ (.inl rfl) (.inr ⟨rfl, fun hq => by cases hq⟩) trivial
      rw [hp]
      rfl
  | setVop =>
      cases hm
      refine h.goto ht hsem ?_ (.inr ⟨rfl, fun _ => by rw [hp]; rfl⟩) (.inl rfl) trivial
      rw [hp]
      rfl
  | lock =>
      cases hm
      apply h.same ht hsem rfl rfl rfl
      case hop => exact hpop rfl
      all_goals rw [hp]; first | rfl | exact fun _ => rfl
  | lockOp op =>
      obtain ⟨v, hv, rfl, rfl⟩ := perform_eq_some hm
      obtain rfl : op = -1 := hop
      rw [hsem, semop_neg_one] at hv
      refine h.goto ht hsem ?_ (.inr ⟨rfl, fun _ => by rw [hp]; rfl⟩)
        (.inr ⟨rfl, fun _ => by rw [hp]; rfl⟩) trivial
      rw [hsem, hp, hv]
      simp [Mem.setSem, Client.owns]
  | setTid =>
      cases hm
      apply h.same ht
      case hsem => simpa [Mem.setMutex] using hsem
      case hop => trivial
      all_goals first | rfl | (rw [hp]; first | rfl | exact fun _ => rfl)
  | setStatus =>
      cases hm
      apply h.same ht
      case hsem => simpa [Mem.setMutex] using hsem
      case hop => trivial
      all_goals first | rfl | (rw [hp]; first | rfl | exact fun _ => rfl)

theorem guarded_unlock {pc : UnlockPc} {c : Ctl UnlockPc} (h : Guarded n x s) (ht : t < n)
    (hp : s.place t = .unlocking pc) (hm : mutexUnlock x t s.mem pc = some (mem, c)) :
    Guarded n x (s.resume t .unlocking .idle (mem, c)) := by
  have hvop := h.vop t ht
  have hop := h.op t ht
  have hsem := h.semaphore
  rw [hp] at hvop hop
  cases pc with
  | setPop =>
      cases hm
      refine h.goto ht hsem ?_ (.inl rfl) (.inr ⟨rfl, fun _ => by rw [hp]; rfl⟩) trivial
      rw [hp]
      rfl
  | setVop =>
      cases hm
      refine h.goto ht hsem ?_ (.inr ⟨rfl, fun _ => by rw [hp]; rfl⟩) (.inl rfl) trivial
      rw [hp]
      rfl
  | checkTid =>
      cases hm
      -- the check is passed, or ends the process
      by_cases htid : (s.mem.mutexes x).tid = gettid t
      · rw [if_neg (not_not_intro htid)]
        apply h.same ht hsem rfl rfl rfl
        case hop => trivial
        all_goals rw [hp]; first | rfl | exact fun _ => rfl
      · rw [if_pos htid]
        exact ⟨hsem, h.count, h.pop, h.vop, h.op⟩
  | checkStatus =>
      cases hm
      by_cases hstatus : (s.mem.mutexes x).status = 0
      · rw [if_pos hstatus]
        exact ⟨hsem, h.count, h.pop, h.vop, h.op⟩
      · rw [if_neg hstatus]
        apply h.same ht hsem rfl rfl rfl
        case hop => trivial
        all_goals rw [hp]; first | rfl | exact fun _ => rfl
  | unlock =>
      cases hm
      apply h.same ht hsem rfl rfl rfl
      case hop => exact hvop rfl
      all_goals rw [hp]; first | rfl | exact fun _ => rfl
  | unlockOp op =>
      obtain ⟨v, hv, rfl, rfl⟩ := perform_eq_some hm
      obtain rfl : op = 1 := hop
      -- the mutex is taken, so the `V` finds `0`
      have hzero : s.mem.semval MUTEX_KEY = 0 := by
        have hpos := count_pos (p := fun t => (s.place t).owns = true) ht (by rw [hp]; rfl)
        have := h.count
        omega
      rw [hsem, hzero, semop_one (by decide)] at hv
      refine h.goto ht hsem ?_ (.inr ⟨rfl, fun _ => by rw [hp]; rfl⟩)
        (.inr ⟨rfl, fun _ => by rw [hp]; rfl⟩) trivial
      rw [hsem, hp, hzero, ← Option.some.inj hv]
      simp [Mem.setSem, Client.owns]
  | clearTid =>
      cases hm
      apply h.same ht
      case hsem => simpa [Mem.setMutex] using hsem
      case hop => trivial
      all_goals first | rfl | (rw [hp]; first | rfl | exact fun _ => rfl)
  | clearStatus =>
      cases hm
      apply h.same ht
      case hsem => simpa [Mem.setMutex] using hsem
      case hop => trivial
      case hpop => exact fun hq => by cases hq
      case hvop => exact fun hq => by cases hq
      all_goals first | rfl | (rw [hp]; rfl)

theorem guarded_next (h : Guarded n x s) (hs : (mutexMachine n x).next s t = some s') :
    Guarded n x s' := by
  simp only [mutexMachine] at hs
  split_ifs at hs with hmoves
  have ht := hmoves.1
  unfold clientStep at hs
  cases hp : s.place t with
  | idle =>
      rw [hp] at hs
      cases hs
      apply h.same ht h.semaphore rfl rfl rfl
      case hop => trivial
      case howns => rw [hp]; rfl
      all_goals exact fun hq => by cases hq
  | locking pc =>
      rw [hp] at hs
      obtain ⟨⟨mem, c⟩, hm, rfl⟩ := Option.map_eq_some_iff.mp hs
      exact guarded_lock h ht hp hm
  | holding =>
      rw [hp] at hs
      cases hs
      apply h.same ht h.semaphore rfl rfl rfl
      case hop => trivial
      all_goals rw [hp]; first | rfl | exact fun _ => rfl
  | unlocking pc =>
      rw [hp] at hs
      obtain ⟨⟨mem, c⟩, hm, rfl⟩ := Option.map_eq_some_iff.mp hs
      exact guarded_unlock h ht hp hm

/-! ## Who can move -/

theorem mutexLock_eq_none {pc : LockPc} (h : mutexLock x t mem pc = none) :
    ∃ op, pc = .lockOp op ∧ semop (mem.semval (mem.mutexes x).semaphore) op = none := by
  cases pc with
  | lockOp op =>
      refine ⟨op, rfl, ?_⟩
      simpa [mutexLock, Mem.perform] using h
  | _ => cases h

theorem mutexUnlock_eq_none {pc : UnlockPc} (h : mutexUnlock x t mem pc = none) :
    ∃ op, pc = .unlockOp op ∧ semop (mem.semval (mem.mutexes x).semaphore) op = none := by
  cases pc with
  | unlockOp op =>
      refine ⟨op, rfl, ?_⟩
      simpa [mutexUnlock, Mem.perform] using h
  | _ => cases h

/-- A thread that cannot move waits for the mutex, which is taken. -/
theorem Guarded.blocked (h : Guarded n x s) (ht : t < n) (hs : clientStep x s t = none) :
    s.place t = .locking (.lockOp (-1)) ∧ s.mem.semval MUTEX_KEY = 0 := by
  have hop := h.op t ht
  unfold clientStep at hs
  cases hp : s.place t with
  | idle => rw [hp] at hs; cases hs
  | holding => rw [hp] at hs; cases hs
  | locking pc =>
      rw [hp] at hs hop
      obtain ⟨op, rfl, hnone⟩ := mutexLock_eq_none (Option.map_eq_none_iff.mp hs)
      obtain rfl : op = -1 := hop
      refine ⟨rfl, ?_⟩
      rw [h.semaphore] at hnone
      by_contra hpos
      obtain ⟨v, hv⟩ := Nat.exists_eq_succ_of_ne_zero hpos
      rw [semop_neg_one.mpr hv] at hnone
      cases hnone
  | unlocking pc =>
      rw [hp] at hs hop
      obtain ⟨op, rfl, hnone⟩ := mutexUnlock_eq_none (Option.map_eq_none_iff.mp hs)
      obtain rfl : op = 1 := hop
      simp [semop] at hnone

/-- **Somebody can move**: who waits for the mutex has somebody before it that does not. -/
theorem Guarded.ahead (h : Guarded n x s) (ht : t < n) (hs : clientStep x s t = none) :
    ∃ u < n, (s.place u).owns = true ∧ clientStep x s u ≠ none := by
  obtain ⟨u, hu, howns⟩ := h.owner (h.blocked ht hs).2
  refine ⟨u, hu, howns, fun hnone => ?_⟩
  rw [(h.blocked hu hnone).1] at howns
  cases howns

end OSLab.Foothread
