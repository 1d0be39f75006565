import OSLab.Foothread.Library

set_option autoImplicit false

/-! # Threads that create threads

Main and the threads that it and they create, to any depth. A thread that is in no call may call
`foothread_create`, with any join type, or `foothread_exit`, once and as its last call. Threads are
numbered in the order of their `clone`, main is `0`.

Which pair of `pop` and `vop` a thread passes to `semop` is a parameter: `arg t` is the number of the
pair that thread `t` uses, so `fun _ => 0` is the source, and `id` gives each thread a pair of its
own. The two fields of `Mem` are loaded before a step of the library and stored after it.

Who created a thread, with which join type, and whether its entry has been taken out of the table by
`thread_table[i].valid = 0` is recorded beside, and read by no step.
-/

namespace OSLab.Foothread

def FOOTHREAD_DETACHED : Int := 0

/-- `foothread_create` with the join type of `attr`. -/
def foothreadCreateAs (joinType : Int) (t child : Nat) (s : Mem) :
    CreatePc → Option (Mem × Ctl CreatePc)
  | .setJoin i => some (s.setEntry i { s.threadTable i with joinType := joinType },
      .next (.setValid i))
  | pc => foothreadCreate t child s pc

/-- What a thread does; `child` is the thread it creates, from the `clone` on. -/
inductive Task
  | idle
  | creating (joinType : Int) (child : Nat) (pc : CreatePc)
  | exiting (pc : ExitPc)
  | done
  deriving DecidableEq, Repr

/-- The `sem_op` of a pair of operands. -/
structure Args where
  pop : Int
  vop : Int
  deriving DecidableEq, Repr

structure Crew where
  mem : Mem
  args : Nat → Args
  task : Nat → Task
  /-- The last thread created. -/
  created : Nat
  creator : Nat → Nat
  joinType : Nat → Int
  released : Nat → Bool
  exited : Bool

def Crew.goto (s : Crew) (t : Nat) (x : Task) : Crew :=
  { s with task := Function.update s.task t x }

/-- The memory as thread `t` sees it. -/
def Crew.load (arg : Nat → Nat) (s : Crew) (t : Nat) : Mem :=
  { s.mem with pop := (s.args (arg t)).pop, vop := (s.args (arg t)).vop }

def Crew.store (arg : Nat → Nat) (s : Crew) (t : Nat) (mem : Mem) : Crew :=
  { s with mem := mem, args := Function.update s.args (arg t) ⟨mem.pop, mem.vop⟩ }

/-- Thread `t` has made a new thread. -/
def Crew.spawn (s : Crew) (t : Nat) (joinType : Int) : Crew :=
  { s with
    created := s.created + 1
    creator := Function.update s.creator (s.created + 1) t
    joinType := Function.update s.joinType (s.created + 1) joinType }

/-- The record of a release: the entry whose `valid` is cleared next. -/
def Crew.release (s : Crew) : ExitPc → Crew
  | .forget (i :: _) =>
      { s with released := fun c => s.released c || (s.mem.threadTable i).tid == gettid c }
  | _ => s

/-- What a thread in no call calls next. -/
inductive Order
  | create (joinType : Int)
  | exit
  deriving DecidableEq, Repr

/-- Thread `t` after a step of its `foothread_create`. -/
def Crew.resumeCreate (arg : Nat → Nat) (s : Crew) (t : Nat) (joinType : Int) (child : Nat) :
    Mem × Ctl CreatePc → Crew
  | (mem, .next pc) => (s.store arg t mem).goto t (.creating joinType child pc)
  | (mem, .clone pc) =>
      ((s.store arg t mem).spawn t joinType).goto t (.creating joinType (s.created + 1) pc)
  | (mem, .ret) => (s.store arg t mem).goto t .idle
  | (mem, .exit) => { s.store arg t mem with exited := true }

/-- Thread `t` after a step of its `foothread_exit`, from `pc`. -/
def Crew.resumeExit (arg : Nat → Nat) (s : Crew) (t : Nat) (pc : ExitPc) : Mem × Ctl ExitPc → Crew
  | (mem, .next pc') => ((s.release pc).store arg t mem).goto t (.exiting pc')
  | (mem, .clone pc') => ((s.release pc).store arg t mem).goto t (.exiting pc')
  | (mem, .ret) => (s.store arg t mem).goto t .done
  | (mem, .exit) => { s.store arg t mem with exited := true }

/-- One step of thread `t`. Before the first `foothread_create` there is no table to exit from. -/
def crewStep (arg : Nat → Nat) (s : Crew) (t : Nat) (order : Order) : Option Crew :=
  match s.task t with
  | .idle =>
      match order with
      | .create joinType => some (s.goto t (.creating joinType 0 .setPop))
      | .exit => if s.mem.init then some (s.goto t (.exiting .setPop)) else none
  | .creating joinType child pc =>
      (foothreadCreateAs joinType t child (s.load arg t) pc).map
        (s.resumeCreate arg t joinType child)
  | .exiting pc =>
      (foothreadExit t (s.load arg t) pc).map (s.resumeExit arg t pc)
  | .done => none

/-- Main before its first call. -/
def crewStart : Crew where
  mem := zeroMem
  args _ := ⟨0, 0⟩
  task _ := .idle
  created := 0
  creator _ := 0
  joinType _ := FOOTHREAD_JOINABLE
  released _ := false
  exited := false

def crewMachine (arg : Nat → Nat) : Machine Crew (Nat × Order) where
  init s := s = crewStart
  next s a := if a.1 ≤ s.created ∧ s.exited = false then crewStep arg s a.1 a.2 else none

/-! ## What a step is -/

inductive CrewMove (arg : Nat → Nat) (s : Crew) (t : Nat) : Crew → Prop
  | create (joinType : Int) : s.task t = .idle →
      CrewMove arg s t (s.goto t (.creating joinType 0 .setPop))
  | exit : s.task t = .idle → s.mem.init = true → CrewMove arg s t (s.goto t (.exiting .setPop))
  | creating (joinType : Int) (child : Nat) (pc : CreatePc) (mem : Mem) (r : Ctl CreatePc) :
      s.task t = .creating joinType child pc →
      foothreadCreateAs joinType t child (s.load arg t) pc = some (mem, r) →
      CrewMove arg s t (s.resumeCreate arg t joinType child (mem, r))
  | exiting (pc : ExitPc) (mem : Mem) (r : Ctl ExitPc) : s.task t = .exiting pc →
      foothreadExit t (s.load arg t) pc = some (mem, r) →
      CrewMove arg s t (s.resumeExit arg t pc (mem, r))

theorem crewMove_of_next {arg : Nat → Nat} {s s' : Crew} {a : Nat × Order}
    (h : (crewMachine arg).next s a = some s') : a.1 ≤ s.created ∧ CrewMove arg s a.1 s' := by
  simp only [crewMachine] at h
  split_ifs at h with hmoves
  refine ⟨hmoves.1, ?_⟩
  obtain ⟨t, order⟩ := a
  simp only [crewStep] at h
  cases hp : s.task t with
  | idle =>
      simp only [hp] at h
      cases order with
      | create joinType =>
          cases h
          exact .create joinType hp
      | exit =>
          simp only at h
          split_ifs at h with hinit
          cases h
          exact .exit hp hinit
  | creating joinType child pc =>
      simp only [hp] at h
      obtain ⟨⟨mem, r⟩, hm, rfl⟩ := Option.map_eq_some_iff.mp h
      exact .creating joinType child pc mem r hp hm
  | exiting pc =>
      simp only [hp] at h
      obtain ⟨⟨mem, r⟩, hm, rfl⟩ := Option.map_eq_some_iff.mp h
      exact .exiting pc mem r hp hm
  | done =>
      simp only [hp] at h
      cases h

end OSLab.Foothread
