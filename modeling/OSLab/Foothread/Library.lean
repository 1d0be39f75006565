import OSLab.Lib.Machine
import Mathlib.Tactic

set_option autoImplicit false

/-! # The thread library of `foothread.c`

Threads made by `clone(CLONE_VM)` share all memory, so also the two `sembuf`s `pop` and `vop`
that the macros `wait` and `signal` pass to `semop`. A call of the library is modelled as a
little program of its own: a `…Pc` says where in the function a thread is, and a step function
does one access to a shared variable or one `semop`, with the local work that follows it.

A `semop` is two steps. The system call copies the `sembuf` first; the thread then holds the
operation it read and waits until it can be performed (`…Op op`). What `semop` returns is never
looked at, so a `V` that would take the value past `SEMVMX` has no effect.

Of `pop` and `vop` only `sem_op` is kept: the other two fields are written with `0` and nothing
else. The keyed semaphores of the library have fixed numbers, `semget(IPC_PRIVATE)` takes the
next free one.
-/

namespace OSLab.Foothread

/-- `foothread_barrier_t`. -/
structure Barrier where
  count : Int
  reached : Int
  semaphore : Nat
  mutexSemaphore : Nat
  deriving DecidableEq, Repr

/-- `foothread_mutex_t`. -/
structure Mutex where
  semaphore : Nat
  tid : Int
  status : Int
  deriving DecidableEq, Repr

/-- `ThreadEntry`, without the `stack_size` that nobody reads. -/
structure ThreadEntry where
  tid : Int
  parentTid : Int
  joinType : Int
  valid : Bool
  semaphore : Nat
  deriving DecidableEq, Repr

/-- The memory all threads share, and the semaphores of the kernel. Barriers and mutexes are
told apart by number, as pointers to them are in the source. -/
structure Mem where
  pop : Int
  vop : Int
  init : Bool
  mutexSemaphore : Nat
  threadTable : Nat → ThreadEntry
  barriers : Nat → Barrier
  mutexes : Nat → Mutex
  semval : Nat → Nat
  nextSem : Nat

def MAX_THREADS : Nat := 50
def FOOTHREAD_JOINABLE : Int := 1

/-- The largest value of a semaphore. -/
def SEMVMX : Nat := 32767

/-- The semaphore of the key `SEM_KEY`. -/
def SEM_KEY : Nat := 0
/-- The semaphore `foothread_barrier_init` makes its mutex of. -/
def BAR_SEM_KEY : Nat := 1
/-- The semaphore of `foothread_mutex_init`. -/
def MUTEX_KEY : Nat := 2

/-- Memory before the program has run: zeros. -/
def zeroMem : Mem where
  pop := 0
  vop := 0
  init := false
  mutexSemaphore := 0
  threadTable := fun _ => ⟨0, 0, 0, false, 0⟩
  barriers := fun _ => ⟨0, 0, 0, 0⟩
  mutexes := fun _ => ⟨0, 0, 0⟩
  semval := fun _ => 0
  nextSem := 3

/-- The kernel's number for thread `t`. -/
def gettid (t : Nat) : Int := t + 1

/-- What an `int` is when it is stored in `sem_op`, which is a `short`. -/
def toShort (x : Int) : Int := Int.bmod x 65536

/-- How a step of a call ends: at another place in the call, with a new thread started there,
by returning, or by ending the process. -/
inductive Ctl (P : Type)
  | next (pc : P)
  | clone (pc : P)
  | ret
  | exit

/-! ## Semaphores -/

/-- `semop` on a value: blocked (`none`) or the new value. -/
def semop (v : Nat) (op : Int) : Option Nat :=
  if 0 < op then some (if v + op.toNat ≤ SEMVMX then v + op.toNat else v)
  else if op = 0 then if v = 0 then some 0 else none
  else if (-op).toNat ≤ v then some (v - (-op).toNat) else none

def Mem.setSem (s : Mem) (id : Nat) (v : Nat) : Mem :=
  { s with semval := Function.update s.semval id v }

/-- `op` performed on semaphore `id`, and the thread goes on with `c`. -/
def Mem.perform {P : Type} (s : Mem) (id : Nat) (op : Int) (c : Ctl P) : Option (Mem × Ctl P) :=
  (semop (s.semval id) op).map fun v => (s.setSem id v, c)

/-! ## Barriers -/

/-- `foothread_barrier_init`. -/
def foothreadBarrierInit (s : Mem) (b : Nat) (count : Int) : Mem :=
  { s with
    barriers := Function.update s.barriers b ⟨count, 0, s.nextSem, BAR_SEM_KEY⟩
    semval := Function.update (Function.update s.semval s.nextSem 0) BAR_SEM_KEY 1
    nextSem := s.nextSem + 1 }

def Mem.setReached (s : Mem) (b : Nat) (r : Int) : Mem :=
  { s with barriers := Function.update s.barriers b { s.barriers b with reached := r } }

/-- Where a thread is in `foothread_barrier_wait`; `last` is whether it found
`reached == count`. -/
inductive BarrierPc
  | setPop | setVop
  | lock | lockOp (op : Int)
  | readReached | writeReached (r : Int)
  | test
  | unlock (last : Bool) | unlockOp (last : Bool) (op : Int)
  | setRelease
  | release | releaseOp (op : Int)
  | reset
  | pass | passOp (op : Int)
  deriving DecidableEq, Repr

/-- One step of `foothread_barrier_wait(&barriers[b])`. -/
def barrierWait (b : Nat) (s : Mem) : BarrierPc → Option (Mem × Ctl BarrierPc)
  | .setPop => some ({ s with pop := -1 }, .next .setVop)
  | .setVop => some ({ s with vop := 1 }, .next .lock)
  | .lock => some (s, .next (.lockOp s.pop))
  | .lockOp op => s.perform (s.barriers b).mutexSemaphore op (.next .readReached)
  | .readReached => some (s, .next (.writeReached (s.barriers b).reached))
  | .writeReached r => some (s.setReached b (r + 1), .next .test)
  | .test => some (s, .next (.unlock ((s.barriers b).reached = (s.barriers b).count)))
  | .unlock last => some (s, .next (.unlockOp last s.vop))
  | .unlockOp last op =>
      s.perform (s.barriers b).mutexSemaphore op (.next (if last then .setRelease else .pass))
  | .setRelease => some ({ s with vop := toShort (s.barriers b).count }, .next .release)
  | .release => some (s, .next (.releaseOp s.vop))
  | .releaseOp op => s.perform (s.barriers b).semaphore op (.next .reset)
  | .reset => some (s.setReached b 0, .next .pass)
  | .pass => some (s, .next (.passOp s.pop))
  | .passOp op => s.perform (s.barriers b).semaphore op .ret

/-! ## Mutexes -/

/-- `foothread_mutex_init`. -/
def foothreadMutexInit (s : Mem) (x : Nat) : Mem :=
  { s with
    mutexes := Function.update s.mutexes x ⟨MUTEX_KEY, -1, 0⟩
    semval := Function.update s.semval MUTEX_KEY 1 }

def Mem.setMutex (s : Mem) (x : Nat) (m : Mutex) : Mem :=
  { s with mutexes := Function.update s.mutexes x m }

inductive LockPc
  | setPop | setVop
  | lock | lockOp (op : Int)
  | setTid | setStatus
  deriving DecidableEq, Repr

/-- One step of `foothread_mutex_lock(&mutexes[x])` by thread `t`. -/
def mutexLock (x t : Nat) (s : Mem) : LockPc → Option (Mem × Ctl LockPc)
  | .setPop => some ({ s with pop := -1 }, .next .setVop)
  | .setVop => some ({ s with vop := 1 }, .next .lock)
  | .lock => some (s, .next (.lockOp s.pop))
  | .lockOp op => s.perform (s.mutexes x).semaphore op (.next .setTid)
  | .setTid => some (s.setMutex x { s.mutexes x with tid := gettid t }, .next .setStatus)
  | .setStatus => some (s.setMutex x { s.mutexes x with status := 1 }, .ret)

inductive UnlockPc
  | setPop | setVop
  | checkTid | checkStatus
  | unlock | unlockOp (op : Int)
  | clearTid | clearStatus
  deriving DecidableEq, Repr

/-- One step of `foothread_mutex_unlock(&mutexes[x])` by thread `t`, which ends the process if
the mutex is not its own. -/
def mutexUnlock (x t : Nat) (s : Mem) : UnlockPc → Option (Mem × Ctl UnlockPc)
  | .setPop => some ({ s with pop := -1 }, .next .setVop)
  | .setVop => some ({ s with vop := 1 }, .next .checkTid)
  | .checkTid => some (s, if (s.mutexes x).tid ≠ gettid t then .exit else .next .checkStatus)
  | .checkStatus => some (s, if (s.mutexes x).status = 0 then .exit else .next .unlock)
  | .unlock => some (s, .next (.unlockOp s.vop))
  | .unlockOp op => s.perform (s.mutexes x).semaphore op (.next .clearTid)
  | .clearTid => some (s.setMutex x { s.mutexes x with tid := -1 }, .next .clearStatus)
  | .clearStatus => some (s.setMutex x { s.mutexes x with status := 0 }, .ret)

/-! ## Threads -/

def Mem.setEntry (s : Mem) (i : Nat) (e : ThreadEntry) : Mem :=
  { s with threadTable := Function.update s.threadTable i e }

/-- `semget(IPC_PRIVATE)`: semaphore `nextSem` is in use from now on. -/
def Mem.newSem (s : Mem) : Mem := { s with nextSem := s.nextSem + 1 }

/-- Where a thread is in `foothread_create`; `i` is the index in `thread_table`. -/
inductive CreatePc
  | setPop | setVop
  | getSem
  | lock | lockOp (op : Int)
  | search (i : Nat)
  | ownEntry
  | clone (i : Nat)
  | setTid (i : Nat) | setParent (i : Nat) | setJoin (i : Nat) | setValid (i : Nat)
  | setSem (i : Nat) | setVal (i : Nat)
  | unlock | unlockOp (op : Int)
  | full
  deriving DecidableEq, Repr

/-- One step of `foothread_create` by thread `t`, with a joinable attribute; the new thread is
`child`. The first call makes the mutex semaphore and clears the table, and the first search
that ends at index `0` fills in the caller's own entry; nobody else runs then. -/
def foothreadCreate (t child : Nat) (s : Mem) : CreatePc → Option (Mem × Ctl CreatePc)
  | .setPop => some ({ s with pop := -1 }, .next .setVop)
  | .setVop => some ({ s with vop := 1 }, .next .getSem)
  | .getSem =>
      if s.init then some ({ s with mutexSemaphore := SEM_KEY }, .next .lock)
      else some ({ s.setSem SEM_KEY 1 with
        mutexSemaphore := SEM_KEY
        init := true
        threadTable := fun i =>
          if i < MAX_THREADS then { s.threadTable i with valid := false } else s.threadTable i },
        .next .lock)
  | .lock => some (s, .next (.lockOp s.pop))
  | .lockOp op => s.perform s.mutexSemaphore op (.next (.search 0))
  | .search i =>
      if i < MAX_THREADS then
        if (s.threadTable i).valid then some (s, .next (.search (i + 1)))
        else some (s, .next (if i = 0 then .ownEntry else .clone i))
      else some (s, .next .full)
  | .ownEntry => some ((s.newSem.setSem s.nextSem 0).setEntry 0
      ⟨gettid t, gettid t, FOOTHREAD_JOINABLE, true, s.nextSem⟩, .next (.clone 1))
  | .clone i => some (s, .clone (.setTid i))
  | .setTid i => some (s.setEntry i { s.threadTable i with tid := gettid child },
      .next (.setParent i))
  | .setParent i => some (s.setEntry i { s.threadTable i with parentTid := gettid t },
      .next (.setJoin i))
  | .setJoin i => some (s.setEntry i { s.threadTable i with joinType := FOOTHREAD_JOINABLE },
      .next (.setValid i))
  | .setValid i => some (s.setEntry i { s.threadTable i with valid := true }, .next (.setSem i))
  | .setSem i => some (s.newSem.setEntry i { s.threadTable i with semaphore := s.nextSem },
      .next (.setVal i))
  | .setVal i => some (s.setSem (s.threadTable i).semaphore 0, .next .unlock)
  | .unlock => some (s, .next (.unlockOp s.vop))
  | .unlockOp op => s.perform s.mutexSemaphore op .ret
  | .full => some (s, .exit)

/-- The local variables of `foothread_exit`. An entry not found leaves `semaphore` and `index`
at `-1`, here `none`. -/
structure ExitLocals where
  isJoinable : Bool
  semaphore : Option Nat
  parentTid : Int
  index : Option Nat
  mychild : List Nat
  deriving DecidableEq, Repr

/-- Where a thread is in `foothread_exit`. -/
inductive ExitPc
  | setPop | setVop
  | lock | lockOp (op : Int)
  | findValid (i : Nat) | findTid (i : Nat) | findJoin (i : Nat) | findSem (i : Nat) (j : Bool)
  | findParent (i : Nat) (j : Bool) (sem : Nat)
  | parentValid (l : ExitLocals) (i : Nat) | parentTid (l : ExitLocals) (i : Nat)
  | parentSem (l : ExitLocals) (i : Nat)
  | signal (l : ExitLocals) (sem : Nat) | signalOp (l : ExitLocals) (sem : Nat) (op : Int)
  | childValid (l : ExitLocals) (i : Nat) | childParent (l : ExitLocals) (i : Nat)
  | childJoin (l : ExitLocals) (i : Nat) | childTid (l : ExitLocals) (i : Nat)
  | unlock (l : ExitLocals) | unlockOp (l : ExitLocals) (op : Int)
  | setJoin (l : ExitLocals) | join (l : ExitLocals) | joinOp (l : ExitLocals) (op : Int)
  | setPopAgain (l : ExitLocals)
  | lockAgain (l : ExitLocals) | lockAgainOp (l : ExitLocals) (op : Int)
  | forget (l : List Nat)
  | unlockAgain | unlockAgainOp (op : Int)
  deriving DecidableEq, Repr

/-- Past the search for the own entry: the parent is to be signalled, or not. -/
def afterFind (t : Nat) (l : ExitLocals) : ExitPc :=
  if l.isJoinable ∧ l.parentTid ≠ gettid t then .parentValid l 0 else .childValid l 0

/-- One step of `foothread_exit` by thread `t`. -/
def foothreadExit (t : Nat) (s : Mem) : ExitPc → Option (Mem × Ctl ExitPc)
  | .setPop => some ({ s with pop := -1 }, .next .setVop)
  | .setVop => some ({ s with vop := 1 }, .next .lock)
  | .lock => some (s, .next (.lockOp s.pop))
  | .lockOp op => s.perform s.mutexSemaphore op (.next (.findValid 0))
  | .findValid i =>
      if i < MAX_THREADS then
        some (s, .next (if (s.threadTable i).valid then .findTid i else .findValid (i + 1)))
      else some (s, .next (afterFind t ⟨false, none, -1, none, []⟩))
  | .findTid i =>
      some (s, .next (if (s.threadTable i).tid = gettid t then .findJoin i else .findValid (i + 1)))
  | .findJoin i => some (s, .next (.findSem i ((s.threadTable i).joinType = FOOTHREAD_JOINABLE)))
  | .findSem i j => some (s, .next (.findParent i j (s.threadTable i).semaphore))
  | .findParent i j sem =>
      some (s, .next (afterFind t ⟨j, some sem, (s.threadTable i).parentTid, some i, []⟩))
  | .parentValid l i =>
      if i < MAX_THREADS then
        some (s, .next (if (s.threadTable i).valid then .parentTid l i else .parentValid l (i + 1)))
      else some (s, .next (.childValid l 0))
  | .parentTid l i =>
      some (s, .next (if (s.threadTable i).tid = l.parentTid then .parentSem l i
        else .parentValid l (i + 1)))
  | .parentSem l i => some (s, .next (.signal l (s.threadTable i).semaphore))
  | .signal l sem => some (s, .next (.signalOp l sem s.vop))
  | .signalOp l sem op => s.perform sem op (.next (.childValid l 0))
  | .childValid l i =>
      if i < MAX_THREADS then
        some (s, .next (if (s.threadTable i).valid then .childParent l i else .childValid l (i + 1)))
      else some (s, .next (.unlock l))
  | .childParent l i =>
      some (s, .next (if (s.threadTable i).parentTid = gettid t then .childJoin l i
        else .childValid l (i + 1)))
  | .childJoin l i =>
      some (s, .next (if (s.threadTable i).joinType = FOOTHREAD_JOINABLE then .childTid l i
        else .childValid l (i + 1)))
  | .childTid l i =>
      some (s, .next (if (s.threadTable i).tid ≠ gettid t
        then .childValid { l with mychild := l.mychild ++ [i] } (i + 1) else .childValid l (i + 1)))
  | .unlock l => some (s, .next (.unlockOp l s.vop))
  | .unlockOp l op =>
      s.perform s.mutexSemaphore op (.next (if l.mychild = [] then .setPopAgain l else .setJoin l))
  | .setJoin l => some ({ s with pop := toShort (-l.mychild.length) }, .next (.join l))
  | .join l => some (s, .next (.joinOp l s.pop))
  | .joinOp l op =>
      match l.semaphore with
      | some sem => s.perform sem op (.next (.setPopAgain l))
      | none => some (s, .next (.setPopAgain l))
  | .setPopAgain l => some ({ s with pop := -1 }, .next (.lockAgain l))
  | .lockAgain l => some (s, .next (.lockAgainOp l s.pop))
  | .lockAgainOp l op =>
      s.perform s.mutexSemaphore op (.next (.forget (if l.index.isSome then l.mychild else [])))
  | .forget [] => some (s, .next .unlockAgain)
  | .forget (i :: l) =>
      some (s.setEntry i { s.threadTable i with valid := false }, .next (.forget l))
  | .unlockAgain => some (s, .next (.unlockAgainOp s.vop))
  | .unlockAgainOp op => s.perform s.mutexSemaphore op .ret

/-! ## What a step of a barrier call is

One constructor for each statement of `foothread_barrier_wait`. -/

variable {P : Type} {b : Nat} {s s' : Mem}

inductive BarrierMove (b : Nat) (s : Mem) : BarrierPc → Mem → Ctl BarrierPc → Prop
  | setPop : BarrierMove b s .setPop { s with pop := -1 } (.next .setVop)
  | setVop : BarrierMove b s .setVop { s with vop := 1 } (.next .lock)
  | lock : BarrierMove b s .lock s (.next (.lockOp s.pop))
  | lockOp (op : Int) (v : Nat) : semop (s.semval (s.barriers b).mutexSemaphore) op = some v →
      BarrierMove b s (.lockOp op) (s.setSem (s.barriers b).mutexSemaphore v) (.next .readReached)
  | readReached :
      BarrierMove b s .readReached s (.next (.writeReached (s.barriers b).reached))
  | writeReached (r : Int) :
      BarrierMove b s (.writeReached r) (s.setReached b (r + 1)) (.next .test)
  | test : BarrierMove b s .test s
      (.next (.unlock ((s.barriers b).reached = (s.barriers b).count)))
  | unlock (last : Bool) : BarrierMove b s (.unlock last) s (.next (.unlockOp last s.vop))
  | unlockOp (last : Bool) (op : Int) (v : Nat) :
      semop (s.semval (s.barriers b).mutexSemaphore) op = some v →
      BarrierMove b s (.unlockOp last op) (s.setSem (s.barriers b).mutexSemaphore v)
        (.next (if last then .setRelease else .pass))
  | setRelease : BarrierMove b s .setRelease { s with vop := toShort (s.barriers b).count }
      (.next .release)
  | release : BarrierMove b s .release s (.next (.releaseOp s.vop))
  | releaseOp (op : Int) (v : Nat) : semop (s.semval (s.barriers b).semaphore) op = some v →
      BarrierMove b s (.releaseOp op) (s.setSem (s.barriers b).semaphore v) (.next .reset)
  | reset : BarrierMove b s .reset (s.setReached b 0) (.next .pass)
  | pass : BarrierMove b s .pass s (.next (.passOp s.pop))
  | passOp (op : Int) (v : Nat) : semop (s.semval (s.barriers b).semaphore) op = some v →
      BarrierMove b s (.passOp op) (s.setSem (s.barriers b).semaphore v) .ret

theorem perform_eq_some {id : Nat} {op : Int} {c c' : Ctl P}
    (h : s.perform id op c = some (s', c')) :
    ∃ v, semop (s.semval id) op = some v ∧ s' = s.setSem id v ∧ c' = c := by
  simp only [Mem.perform, Option.map_eq_some_iff, Prod.mk.injEq] at h
  obtain ⟨v, hv, rfl, rfl⟩ := h
  exact ⟨v, hv, rfl, rfl⟩

theorem barrierMove_of_wait {pc : BarrierPc} {c : Ctl BarrierPc}
    (h : barrierWait b s pc = some (s', c)) : BarrierMove b s pc s' c := by
  cases pc with
  | lockOp op =>
      obtain ⟨v, hv, rfl, rfl⟩ := perform_eq_some h
      exact .lockOp op v hv
  | unlockOp last op =>
      obtain ⟨v, hv, rfl, rfl⟩ := perform_eq_some h
      exact .unlockOp last op v hv
  | releaseOp op =>
      obtain ⟨v, hv, rfl, rfl⟩ := perform_eq_some h
      exact .releaseOp op v hv
  | passOp op =>
      obtain ⟨v, hv, rfl, rfl⟩ := perform_eq_some h
      exact .passOp op v hv
  | _ =>
      simp only [barrierWait, Option.some.injEq, Prod.mk.injEq] at h
      obtain ⟨rfl, rfl⟩ := h
      constructor

/-! ## The operations of a semaphore -/

/-- A `P` of one. -/
theorem semop_neg_one {v v' : Nat} : semop v (-1) = some v' ↔ v = v' + 1 := by
  have hone : (-(-1 : Int)).toNat = 1 := rfl
  rw [semop, if_neg (by decide), if_neg (by decide), hone]
  by_cases hv : 1 ≤ v
  · rw [if_pos hv, Option.some.injEq]
    omega
  · rw [if_neg hv]
    exact ⟨(fun h => by cases h), fun h => by omega⟩

/-- A `V` of one, below the largest value. -/
theorem semop_one {v : Nat} (hv : v < SEMVMX) : semop v 1 = some (v + 1) := by
  have hone : (1 : Int).toNat = 1 := rfl
  rw [semop, if_pos (by decide), hone, if_pos (Nat.succ_le_of_lt hv)]

/-- A `P` needs a positive value. -/
theorem pos_of_semop_neg {v v' : Nat} {op : Int} (hop : op < 0) (h : semop v op = some v') :
    0 < v := by
  simp only [semop] at h
  rw [if_neg (by omega), if_neg (by omega)] at h
  split at h
  · omega
  · cases h

/-- No operation on `0` leads past its operand. -/
theorem semop_zero_le {v : Nat} {op : Int} (h : semop 0 op = some v) : (v : Int) ≤ max op 0 := by
  simp only [semop] at h
  split_ifs at h <;> simp at h <;> omega

end OSLab.Foothread
