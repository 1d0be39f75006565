import OSLab.Foothread.Library

set_option autoImplicit false

/-! # What the calls of the library leave alone

Mutexes, `foothread_create` and `foothread_exit` work on keyed semaphores and on those of the
thread table. The semaphores the barriers were given before the first thread are neither: they
are the private ones below some number `lo`, and every semaphore in the thread table is made
later. So none of these calls touches a barrier, and none makes `pop` anything but negative.
-/

namespace OSLab.Foothread

/-- Not one of the private semaphores below `lo`. -/
def Outside (lo id : Nat) : Prop := id < 3 ∨ lo ≤ id

/-- The semaphores the library uses for itself are not those of the barriers. -/
structure MemOk (lo : Nat) (s : Mem) : Prop where
  mutexSemaphore : s.mutexSemaphore = SEM_KEY
  mutex : (s.mutexes 0).semaphore = MUTEX_KEY
  table : ∀ i, Outside lo (s.threadTable i).semaphore
  next : 3 ≤ lo ∧ lo ≤ s.nextSem

/-- A step that leaves the barriers and their semaphores alone. -/
structure Benign (lo : Nat) (s s' : Mem) : Prop where
  ok : MemOk lo s'
  barriers : s'.barriers = s.barriers
  semval : ∀ id, ¬ Outside lo id → s'.semval id = s.semval id
  pop : s'.pop = s.pop ∨ s'.pop < 0

variable {P : Type} {lo t child : Nat} {s s' : Mem}

theorem outside_key {id : Nat} (h : id < 3) : Outside lo id := .inl h

theorem benign_refl (h : MemOk lo s) : Benign lo s s := ⟨h, rfl, fun _ _ => rfl, .inl rfl⟩

theorem benign_setPop (h : MemOk lo s) {x : Int} (hx : x < 0) : Benign lo s { s with pop := x } :=
  ⟨⟨h.mutexSemaphore, h.mutex, h.table, h.next⟩, rfl, fun _ _ => rfl, .inr hx⟩

theorem benign_setVop (h : MemOk lo s) (x : Int) : Benign lo s { s with vop := x } :=
  ⟨⟨h.mutexSemaphore, h.mutex, h.table, h.next⟩, rfl, fun _ _ => rfl, .inl rfl⟩

theorem benign_setSem (h : MemOk lo s) {id : Nat} (hid : Outside lo id) (v : Nat) :
    Benign lo s (s.setSem id v) := by
  refine ⟨⟨h.mutexSemaphore, h.mutex, h.table, h.next⟩, rfl, fun id' hid' => ?_, .inl rfl⟩
  have hne : id' ≠ id := fun hc => hid' (hc ▸ hid)
  exact Function.update_of_ne hne _ _

theorem benign_perform {id : Nat} {op : Int} {c c' : Ctl P} (h : MemOk lo s)
    (hid : Outside lo id) (hm : s.perform id op c = some (s', c')) :
    Benign lo s s' ∧ c' = c := by
  obtain ⟨v, -, rfl, rfl⟩ := perform_eq_some hm
  exact ⟨benign_setSem h hid v, rfl⟩

theorem benign_setMutex (h : MemOk lo s) {m : Mutex} (hm : m.semaphore = (s.mutexes 0).semaphore) :
    Benign lo s (s.setMutex 0 m) := by
  refine ⟨⟨h.mutexSemaphore, ?_, h.table, h.next⟩, rfl, fun _ _ => rfl, .inl rfl⟩
  simpa [Mem.setMutex] using hm.trans h.mutex

theorem benign_setEntry (h : MemOk lo s) (i : Nat) {e : ThreadEntry}
    (he : Outside lo e.semaphore) : Benign lo s (s.setEntry i e) := by
  refine ⟨⟨h.mutexSemaphore, h.mutex, fun j => ?_, h.next⟩, rfl, fun _ _ => rfl, .inl rfl⟩
  by_cases hj : j = i
  · subst hj
    simpa [Mem.setEntry] using he
  · simpa [Mem.setEntry, Function.update_of_ne hj] using h.table j

theorem benign_newSem (h : MemOk lo s) : Benign lo s s.newSem :=
  ⟨⟨h.mutexSemaphore, h.mutex, h.table, ⟨h.next.1, h.next.2.trans (Nat.le_succ _)⟩⟩, rfl,
    fun _ _ => rfl, .inl rfl⟩

theorem Benign.trans {s'' : Mem} (h : Benign lo s s') (h' : Benign lo s' s'') :
    Benign lo s s'' where
  ok := h'.ok
  barriers := h'.barriers.trans h.barriers
  semval := fun id hid => (h'.semval id hid).trans (h.semval id hid)
  pop := by
    rcases h'.pop with heq | hneg
    · rw [heq]
      exact h.pop
    · exact .inr hneg

/-! ## Mutexes -/

theorem mutexLock_benign (h : MemOk lo s) {pc : LockPc} {c : Ctl LockPc}
    (hm : mutexLock 0 t s pc = some (s', c)) : Benign lo s s' := by
  have hkey : Outside lo (s.mutexes 0).semaphore := h.mutex ▸ outside_key (by decide)
  cases pc with
  | lockOp op => exact (benign_perform h hkey hm).1
  | setPop =>
      cases hm
      exact benign_setPop h (by decide)
  | setVop =>
      cases hm
      exact benign_setVop h 1
  | lock =>
      cases hm
      exact benign_refl h
  | setTid =>
      cases hm
      exact benign_setMutex h rfl
  | setStatus =>
      cases hm
      exact benign_setMutex h rfl

theorem mutexUnlock_benign (h : MemOk lo s) {pc : UnlockPc} {c : Ctl UnlockPc}
    (hm : mutexUnlock 0 t s pc = some (s', c)) : Benign lo s s' := by
  have hkey : Outside lo (s.mutexes 0).semaphore := h.mutex ▸ outside_key (by decide)
  cases pc with
  | unlockOp op => exact (benign_perform h hkey hm).1
  | setPop =>
      cases hm
      exact benign_setPop h (by decide)
  | setVop =>
      cases hm
      exact benign_setVop h 1
  | checkTid =>
      cases hm
      exact benign_refl h
  | checkStatus =>
      cases hm
      exact benign_refl h
  | unlock =>
      cases hm
      exact benign_refl h
  | clearTid =>
      cases hm
      exact benign_setMutex h rfl
  | clearStatus =>
      cases hm
      exact benign_setMutex h rfl

/-! ## Threads -/

theorem foothreadCreate_benign (h : MemOk lo s) {pc : CreatePc} {c : Ctl CreatePc}
    (hm : foothreadCreate t child s pc = some (s', c)) : Benign lo s s' := by
  have hkey : Outside lo s.mutexSemaphore := h.mutexSemaphore ▸ outside_key (by decide)
  have hnew : Outside lo s.nextSem := .inr h.next.2
  cases pc with
  | lockOp op => exact (benign_perform h hkey hm).1
  | unlockOp op => exact (benign_perform h hkey hm).1
  | setPop =>
      cases hm
      exact benign_setPop h (by decide)
  | setVop =>
      cases hm
      exact benign_setVop h 1
  | getSem =>
      simp only [foothreadCreate] at hm
      -- the first call makes the table's own semaphore
      split at hm
      · cases hm
        exact ⟨⟨rfl, h.mutex, h.table, h.next⟩, rfl, fun _ _ => rfl, .inl rfl⟩
      · cases hm
        have hset : Benign lo s (s.setSem SEM_KEY 1) := benign_setSem h (outside_key (by decide)) 1
        refine ⟨⟨rfl, h.mutex, fun i => ?_, h.next⟩, rfl, hset.semval, .inl rfl⟩
        show Outside lo (if i < MAX_THREADS then _ else _ : ThreadEntry).semaphore
        split
        · exact h.table i
        · exact h.table i
  | search i =>
      simp only [foothreadCreate] at hm
      split at hm
      · split at hm
        · cases hm
          exact benign_refl h
        · cases hm
          exact benign_refl h
      · cases hm
        exact benign_refl h
  -- the semaphores of the entries are new ones
  | ownEntry =>
      cases hm
      have hsem := (benign_newSem h).trans (benign_setSem (benign_newSem h).ok hnew 0)
      exact hsem.trans (benign_setEntry hsem.ok 0 hnew)
  | setSem i =>
      cases hm
      exact (benign_newSem h).trans (benign_setEntry (benign_newSem h).ok i hnew)
  | setVal i =>
      cases hm
      exact benign_setSem h (h.table i) 0
  | setTid i =>
      cases hm
      exact benign_setEntry h i (h.table i)
  | setParent i =>
      cases hm
      exact benign_setEntry h i (h.table i)
  | setJoin i =>
      cases hm
      exact benign_setEntry h i (h.table i)
  | setValid i =>
      cases hm
      exact benign_setEntry h i (h.table i)
  | lock =>
      cases hm
      exact benign_refl h
  | clone i =>
      cases hm
      exact benign_refl h
  | unlock =>
      cases hm
      exact benign_refl h
  | full =>
      cases hm
      exact benign_refl h

/-- The own entry's semaphore is one of the thread table, and as many children are noted as
entries have been looked at. -/
structure LocalsOk (lo i : Nat) (l : ExitLocals) : Prop where
  semaphore : ∀ sem ∈ l.semaphore, Outside lo sem
  mychild : l.mychild.length ≤ i
  bound : i ≤ MAX_THREADS

/-- The same for the places of `foothread_exit`. -/
def ExitOk (lo : Nat) : ExitPc → Prop
  | .findParent _ _ sem => Outside lo sem
  | .parentValid l _ | .parentTid l _ | .parentSem l _ => LocalsOk lo 0 l
  | .signal l sem | .signalOp l sem _ => LocalsOk lo 0 l ∧ Outside lo sem
  | .childValid l i => LocalsOk lo i l
  | .childParent l i | .childJoin l i | .childTid l i => LocalsOk lo i l ∧ i < MAX_THREADS
  | .unlock l | .unlockOp l _ | .join l | .joinOp l _ | .setPopAgain l | .lockAgain l
  | .lockAgainOp l _ => LocalsOk lo MAX_THREADS l
  | .setJoin l => LocalsOk lo MAX_THREADS l ∧ l.mychild ≠ []
  | _ => True

theorem LocalsOk.mono {i j : Nat} {l : ExitLocals} (h : LocalsOk lo i l) (hij : i ≤ j)
    (hj : j ≤ MAX_THREADS) : LocalsOk lo j l := ⟨h.semaphore, h.mychild.trans hij, hj⟩

theorem exitOk_afterFind {l : ExitLocals} (h : LocalsOk lo 0 l) : ExitOk lo (afterFind t l) := by
  unfold afterFind
  split
  · exact h
  · exact h

/-- The number of children is small enough to be stored as it is. -/
theorem toShort_neg {i : Nat} (hi : i ≤ MAX_THREADS) : toShort (-(i : Int)) = -(i : Int) := by
  have hi' : i ≤ 50 := hi
  unfold toShort Int.bmod
  simp only
  split <;> omega

/-- A step that leaves the barriers alone and goes on at a place that is in order. -/
theorem Benign.goes {Ok : P → Prop} {c : Ctl P} {s₁ : Mem} {next : P} (hb : Benign lo s s₁)
    (hm : some (s₁, .next next) = some (s', c)) (hok : Ok next) :
    Benign lo s s' ∧ ∀ pc, c = .next pc → Ok pc := by
  cases hm
  refine ⟨hb, fun pc hc => ?_⟩
  cases hc
  exact hok

/-- The same for a `semop` on a semaphore that is not one of the barriers'. -/
theorem performs_goes {Ok : P → Prop} {id : Nat} {op : Int} {c : Ctl P} {next : P}
    (h : MemOk lo s) (hid : Outside lo id) (hm : s.perform id op (.next next) = some (s', c))
    (hok : Ok next) :
    Benign lo s s' ∧ ∀ pc, c = .next pc → Ok pc := by
  obtain ⟨hb, rfl⟩ := benign_perform h hid hm
  exact hb.goes rfl hok

theorem foothreadExit_benign (h : MemOk lo s) {pc : ExitPc} {c : Ctl ExitPc}
    (hpc : ExitOk lo pc) (hm : foothreadExit t s pc = some (s', c)) :
    Benign lo s s' ∧ ∀ pc', c = .next pc' → ExitOk lo pc' := by
  have hkey : Outside lo s.mutexSemaphore := h.mutexSemaphore ▸ outside_key (by decide)
  have hrefl := benign_refl h
  cases pc with
  | setPop => exact (benign_setPop h (by decide)).goes hm trivial
  | setVop => exact (benign_setVop h 1).goes hm trivial
  | lock => exact hrefl.goes hm trivial
  | lockOp op => exact performs_goes h hkey hm trivial
  -- the own entry: its semaphore is one of the table
  | findValid i =>
      have hnone : LocalsOk lo 0 ⟨false, none, -1, none, []⟩ :=
        ⟨(fun _ hs => by cases hs), by simp, by simp⟩
      simp only [foothreadExit] at hm
      split at hm
      · refine hrefl.goes hm ?_
        split <;> trivial
      · exact hrefl.goes hm (exitOk_afterFind hnone)
  | findTid i =>
      refine hrefl.goes hm ?_
      split <;> trivial
  | findJoin i => exact hrefl.goes hm trivial
  | findSem i j => exact hrefl.goes hm (h.table i)
  | findParent i j sem =>
      refine hrefl.goes hm (exitOk_afterFind ⟨fun sem' hs => ?_, by simp, by simp⟩)
      cases hs
      exact hpc
  -- the parent's entry, and the signal to the parent
  | parentValid l i =>
      simp only [foothreadExit] at hm
      split at hm
      · refine hrefl.goes hm ?_
        split <;> exact hpc
      · exact hrefl.goes hm hpc
  | parentTid l i =>
      refine hrefl.goes hm ?_
      split <;> exact hpc
  | parentSem l i => exact hrefl.goes hm ⟨hpc, h.table i⟩
  | signal l sem => exact hrefl.goes hm hpc
  | signalOp l sem op => exact performs_goes h hpc.2 hm hpc.1
  -- the entries of the children: at most one is noted for each index
  | childValid l i =>
      simp only [foothreadExit] at hm
      split at hm
      case isTrue hi =>
        refine hrefl.goes hm ?_
        split
        · exact ⟨hpc, hi⟩
        · exact hpc.mono (Nat.le_succ i) hi
      case isFalse => exact hrefl.goes hm (hpc.mono hpc.bound le_rfl)
  | childParent l i =>
      refine hrefl.goes hm ?_
      split
      · exact hpc
      · exact hpc.1.mono (Nat.le_succ i) hpc.2
  | childJoin l i =>
      refine hrefl.goes hm ?_
      split
      · exact hpc
      · exact hpc.1.mono (Nat.le_succ i) hpc.2
  | childTid l i =>
      refine hrefl.goes hm ?_
      split
      · exact ⟨hpc.1.semaphore, by simpa using hpc.1.mychild, hpc.2⟩
      · exact hpc.1.mono (Nat.le_succ i) hpc.2
  | unlock l => exact hrefl.goes hm hpc
  | unlockOp l op =>
      refine performs_goes h hkey hm ?_
      split
      · exact hpc
      · exact ⟨hpc, ‹_›⟩
  -- `pop` is set to minus the number of children, which is not zero here
  | setJoin l =>
      have hpos := List.length_pos_iff.mpr hpc.2
      have hneg : toShort (-(l.mychild.length : Int)) < 0 := by
        rw [toShort_neg hpc.1.mychild]
        omega
      exact (benign_setPop h hneg).goes hm hpc.1
  | join l => exact hrefl.goes hm hpc
  | joinOp l op =>
      simp only [foothreadExit] at hm
      split at hm
      · exact performs_goes h (hpc.semaphore _ ‹_›) hm hpc
      · exact hrefl.goes hm hpc
  | setPopAgain l => exact (benign_setPop h (by decide)).goes hm hpc
  | lockAgain l => exact hrefl.goes hm hpc
  | lockAgainOp l op => exact performs_goes h hkey hm trivial
  | forget l =>
      cases l with
      | nil => exact hrefl.goes hm trivial
      | cons i l =>
          have hset : Benign lo s (s.setEntry i { s.threadTable i with valid := false }) :=
            benign_setEntry h i (h.table i)
          exact hset.goes hm trivial
  | unlockAgain => exact hrefl.goes hm trivial
  | unlockAgainOp op =>
      obtain ⟨hb, rfl⟩ := benign_perform h hkey hm
      exact ⟨hb, fun _ hc => by cases hc⟩

end OSLab.Foothread
