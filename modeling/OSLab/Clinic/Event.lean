import OSLab.Lib.BinaryHeap
import Mathlib.Data.Prod.Lex

set_option autoImplicit false

/-! # The event queue of `event.c`

An `eventQ` is a count `n` and a block of `event` cells; the queue is the cells `Q[0..n-1]`,
kept as a binary heap by `eventcmp`. The loops of `initEQ`, `addevent` and `delevent` are those of
`Lib/BinaryHeap.lean` with the test `eventcmp(x, y) < 0`. The cells are modelled as an unbounded
array; the source allocates 128 of them, so what is said here about a queue holds of the source
as long as `n` stays at most 128, and no operation touches a cell above `n`
(`addevent_frame`, `delevent_frame`).
-/

namespace OSLab.Clinic

/-- The C `event`: `type` is any character, `time` and `duration` any integers. -/
structure Event where
  type : Char
  time : Int
  duration : Int
  deriving DecidableEq, Repr

/-- The C `eventQ`. -/
structure EventQ where
  n : Nat
  Q : Nat → Event

/-- By time; at equal times, `R` before `P` before `S` before any other type. Two events of
equal time whose type is the same one of these three compare as less both ways; two of any
other types compare as equal. -/
def eventcmp (e1 e2 : Event) : Int :=
  if e1.time < e2.time then -1
  else if e2.time < e1.time then 1
  else if e1.type = 'R' then -1
  else if e2.type = 'R' then 1
  else if e1.type = 'P' then -1
  else if e2.type = 'P' then 1
  else if e1.type = 'S' then -1
  else if e2.type = 'S' then 1
  else 0

/-- The test the heap loops make. -/
def less (e1 e2 : Event) : Bool := eventcmp e1 e2 < 0

def emptyQ (E : EventQ) : Bool := E.n == 0

/-- What the read loop of `initEQ` leaves: the records in file order, in a block `mem` that
`malloc` returned. -/
def readRecords (mem : Nat → Event) (records : List Event) : EventQ where
  n := records.length
  Q := fun i => records.getD i (mem i)

/-- `initEQ` on a file with these records: read them, then sift down from the last parent. -/
def initEQ (mem : Nat → Event) (records : List Event) : EventQ :=
  let E := readRecords mem records
  { E with Q := Heap.heapify less E.n (E.n / 2) E.Q }

def addevent (E : EventQ) (e : Event) : EventQ where
  n := E.n + 1
  Q := Heap.siftUp less E.n (Function.update E.Q E.n e) E.n

def delevent (E : EventQ) : EventQ :=
  if 0 < E.n then
    { n := E.n - 1
      Q := Heap.siftDown less (E.n - 1) (E.n - 1) (Function.update E.Q 0 (E.Q (E.n - 1))) 0 }
  else E

def nextevent (E : EventQ) : Event :=
  if E.n = 0 then ⟨'E', 0, 0⟩ else E.Q 0

/-- The events in `Q[0..n-1]`, as a multiset. -/
def EventQ.events (E : EventQ) : Multiset Event := Heap.contents E.n E.Q

/-! ## The order of the events -/

/-- The rank of a type among events of equal time. -/
def rank (type : Char) : Nat :=
  if type = 'R' then 0 else if type = 'P' then 1 else if type = 'S' then 2 else 3

/-- The key of an event: its time, then the rank of its type. -/
def Event.key (e : Event) : Lex (Int × Nat) := toLex (e.time, rank e.type)

theorem key_le_iff {x y : Event} :
    x.key ≤ y.key ↔ x.time < y.time ∨ x.time = y.time ∧ rank x.type ≤ rank y.type := by
  rw [Event.key, Event.key, Prod.Lex.toLex_le_toLex]

/-- `eventcmp` answers by the keys, however it breaks a tie. -/
theorem less_comparator : Heap.Comparator less (fun x y => x.key ≤ y.key) where
  of_lt := by
    intro x y h
    simp only [less, eventcmp] at h
    rw [key_le_iff]
    unfold rank
    split_ifs at h ⊢ <;> simp_all
    all_goals omega
  of_not_lt := by
    intro x y h
    simp only [less, eventcmp] at h
    rw [key_le_iff]
    unfold rank
    split_ifs at h ⊢ <;> simp_all
    all_goals omega
  trans := le_trans

end OSLab.Clinic
