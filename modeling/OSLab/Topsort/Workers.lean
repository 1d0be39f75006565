import OSLab.Lib.Machine
import OSLab.Lib.Count

set_option autoImplicit false

/-! # The topological-sort workers of `LA5/boss.c` and `LA5/worker.c`

One worker process per vertex and one boss share the matrix `A`, the array `T`, the index
`*idx` and the semaphores `sem_mtx`, `sem_ntfy` and `sem_sync[0..n-1]`. The model starts where
the boss's setup ends: `*idx` is `0`, `sem_mtx` is `1`, every other semaphore is `0`, and `T`
holds whatever the segment held.

A step is one semaphore operation or one read or write of `*idx` or `T`; `A` is only read after
the setup, so testing an entry of it is part of the loop step that tests it. A `P` on a
semaphore that is `0` cannot move, which is how blocking shows.
-/

namespace OSLab.Topsort

/-- `A[i * n + j] == 1 && i != j`: the edge `i → j` as both loops of a worker test it. -/
def edge (n : Nat) (A : Nat → Int) (i j : Nat) : Bool := A (i * n + j) == 1 && i != j

/-- Where worker `id` is in its `main`. -/
inductive WorkerPc
  /-- The loop over the incoming edges, at index `i`. -/
  | await (i : Nat)
  /-- `P(sem_mtx)`. -/
  | lock
  /-- The read of `*idx` in `T[*idx] = id`. -/
  | loadSlot
  /-- The write `T[slot] = id`. -/
  | store (slot : Nat)
  /-- The read of `*idx` in `(*idx)++`. -/
  | loadIdx
  /-- The write of `value + 1` to `*idx`. -/
  | bump (value : Nat)
  /-- `V(sem_mtx)`. -/
  | unlock
  /-- The loop over the outgoing edges, at index `i`. -/
  | signal (i : Nat)
  /-- `V(sem_ntfy)`. -/
  | notify
  | exited
  deriving DecidableEq, Repr

/-- The shared memory, the semaphore values, and where each process is. `boss` counts the
`P(sem_ntfy)` operations the boss has completed. -/
structure State where
  T : Nat → Nat
  idx : Nat
  semMtx : Nat
  semNtfy : Nat
  semSync : Nat → Nat
  worker : Nat → WorkerPc
  boss : Nat

/-- The state the boss's setup leaves behind. -/
def setup (T : Nat → Nat) : State where
  T := T
  idx := 0
  semMtx := 1
  semNtfy := 0
  semSync := fun _ => 0
  worker := fun _ => .await 0
  boss := 0

def State.goto (s : State) (id : Nat) (pc : WorkerPc) : State :=
  { s with worker := Function.update s.worker id pc }

@[simp] theorem State.goto_T (s : State) (id : Nat) (pc : WorkerPc) : (s.goto id pc).T = s.T := rfl
@[simp] theorem State.goto_idx (s : State) (id : Nat) (pc : WorkerPc) :
    (s.goto id pc).idx = s.idx := rfl
@[simp] theorem State.goto_semMtx (s : State) (id : Nat) (pc : WorkerPc) :
    (s.goto id pc).semMtx = s.semMtx := rfl
@[simp] theorem State.goto_semNtfy (s : State) (id : Nat) (pc : WorkerPc) :
    (s.goto id pc).semNtfy = s.semNtfy := rfl
@[simp] theorem State.goto_semSync (s : State) (id : Nat) (pc : WorkerPc) :
    (s.goto id pc).semSync = s.semSync := rfl
@[simp] theorem State.goto_boss (s : State) (id : Nat) (pc : WorkerPc) :
    (s.goto id pc).boss = s.boss := rfl
@[simp] theorem State.goto_worker_self (s : State) (id : Nat) (pc : WorkerPc) :
    (s.goto id pc).worker id = pc := by simp [State.goto]

theorem State.goto_worker_ne (s : State) {id j : Nat} (pc : WorkerPc) (h : j ≠ id) :
    (s.goto id pc).worker j = s.worker j := by simp [State.goto, h]

/-- One step of worker `id`. -/
def workerStep (n : Nat) (A : Nat → Int) (s : State) (id : Nat) : Option State :=
  match s.worker id with
  | .await i =>
      if i < n then
        if edge n A i id then
          if 0 < s.semSync id then
            some ({ s with semSync := Function.update s.semSync id (s.semSync id - 1) }.goto id
              (.await (i + 1)))
          else none
        else some (s.goto id (.await (i + 1)))
      else some (s.goto id .lock)
  | .lock =>
      if 0 < s.semMtx then some ({ s with semMtx := s.semMtx - 1 }.goto id .loadSlot) else none
  | .loadSlot => some (s.goto id (.store s.idx))
  | .store slot => some ({ s with T := Function.update s.T slot id }.goto id .loadIdx)
  | .loadIdx => some (s.goto id (.bump s.idx))
  | .bump value => some ({ s with idx := value + 1 }.goto id .unlock)
  | .unlock => some ({ s with semMtx := s.semMtx + 1 }.goto id (.signal 0))
  | .signal i =>
      if i < n then
        if edge n A id i then
          some ({ s with semSync := Function.update s.semSync i (s.semSync i + 1) }.goto id
            (.signal (i + 1)))
        else some (s.goto id (.signal (i + 1)))
      else some (s.goto id .notify)
  | .notify => some ({ s with semNtfy := s.semNtfy + 1 }.goto id .exited)
  | .exited => none

/-- One `P(sem_ntfy)` of the boss's loop, while the loop has not ended. -/
def bossStep (n : Nat) (s : State) : Option State :=
  if s.boss < n ∧ 0 < s.semNtfy then
    some { s with semNtfy := s.semNtfy - 1, boss := s.boss + 1 }
  else none

/-- Who moves. -/
inductive Party
  | worker (id : Nat)
  | boss

/-- The boss and the `n` workers on the matrix `A`. -/
def machine (n : Nat) (A : Nat → Int) : Machine State Party where
  init s := ∃ T, s = setup T
  next s
    | .worker id => if id < n then workerStep n A s id else none
    | .boss => bossStep n s

end OSLab.Topsort
