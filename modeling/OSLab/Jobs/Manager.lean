import OSLab.Lib.Machine
import Mathlib.Logic.Function.Basic

set_option autoImplicit false

/-! # The job manager of `Assignment_02/mgr.c`

The manager reads commands and keeps the table `PT` of its jobs. Two signal handlers look up
the foreground job in the same table, between any two statements of the command loop. The model
starts where both handlers are installed, at the initialisation of `PT[0]`.

A step is one statement of the command loop or of a handler, the arrival of a signal, or a job
that stops, continues or exits on its own account. The handlers run on a stack above the loop; a
signal is blocked while its own handler runs. `kill` adds nothing to what the jobs may do anyway,
unless it ends the manager itself. `waitpid` is restarted after a handler.

Of a table entry the model keeps the `pid` and the `status`; nothing tests the other two fields.
-/

namespace OSLab.Jobs

def MAX_JOBS : Nat := 10

inductive Status
  | running
  | finished
  | terminated
  | suspended
  | killed
  deriving DecidableEq, Repr

structure ProcessTableEntry where
  pid : Nat
  status : Status
  deriving DecidableEq, Repr

/-- The two commands that pick a suspended job. -/
inductive Pick
  | cont
  | kill
  deriving DecidableEq, Repr

/-- The next statement of the command loop. `exited` is what the local `status` says after
`waitpid`: the job's exit was returned. -/
inductive Pc
  /-- `PT[0].pid = getpid()`. -/
  | setPid
  /-- `PT[0].status = RUNNING`. -/
  | setStatus
  | prompt
  /-- `totalJobs++`. -/
  | incTotal
  /-- `currentJobIndex = totalJobs`. -/
  | setCurrent
  | fork
  /-- `PT[currentJobIndex].pid = pid`. -/
  | storePid (pid : Nat)
  /-- `PT[currentJobIndex].status = RUNNING`. -/
  | storeStatus (pid : Nat)
  /-- `waitpid(pid, &status, WUNTRACED)`. -/
  | waitSpawn (pid : Nat)
  /-- `if (PT[currentJobIndex].status == RUNNING)`. -/
  | check (exited : Bool)
  /-- `PT[currentJobIndex].status = FINISHED`. -/
  | finish (exited : Bool)
  /-- The loop that lists the suspended jobs, at index `i`. -/
  | list (c : Pick) (i : Nat) (found : Bool)
  /-- `scanf("%d", &chosenIndex)` and the test of the choice. -/
  | choose (c : Pick)
  /-- `PT[chosenIndex].status = RUNNING`. -/
  | setRunning (i : Nat)
  /-- `currentJobIndex = chosenIndex`. -/
  | contCurrent (i : Nat)
  /-- `kill(PT[chosenIndex].pid, SIGCONT)`. -/
  | killCont (i : Nat)
  | waitCont (i : Nat)
  /-- `kill(PT[chosenIndex].pid, SIGKILL)`. -/
  | killJob (i : Nat)
  /-- `PT[chosenIndex].status = KILLED`. -/
  | setKilled (i : Nat)
  | waitKilled (i : Nat)
  /-- The test of `cleanup`, at index `i`. -/
  | cleanup (i : Nat)
  /-- The `kill` of `cleanup`. -/
  | killCleanup (i : Nat)
  | exited
  deriving DecidableEq, Repr

inductive Signo
  | SIGINT
  | SIGTSTP
  deriving DecidableEq, Repr

/-- The next statement of a handler: the test, the store of the status, the `kill`. -/
inductive HandlerPc
  | test
  | mark
  | kill
  deriving DecidableEq, Repr

structure Frame where
  signo : Signo
  pc : HandlerPc
  deriving DecidableEq, Repr

/-- A forked child that has not been reaped. `reported`: `waitpid` has returned this stop. -/
inductive Child
  | running
  | stopped (reported : Bool)
  | zombie
  deriving DecidableEq, Repr

/-- The manager's globals, its loop and its handlers, the innermost first, and its children by
pid. -/
structure State where
  own : Nat
  PT : Nat → ProcessTableEntry
  currentJobIndex : Nat
  totalJobs : Nat
  pc : Pc
  frames : List Frame
  child : Nat → Option Child

/-- The zeroed globals: every entry has pid `0` and status `RUNNING`. -/
def start (own : Nat) : State where
  own := own
  PT := fun _ => ⟨0, .running⟩
  currentJobIndex := 0
  totalJobs := 0
  pc := .setPid
  frames := []
  child := fun _ => none

def State.goto (s : State) (pc : Pc) : State := { s with pc := pc }

def State.setPid (s : State) (i pid : Nat) : State :=
  { s with PT := Function.update s.PT i { s.PT i with pid := pid } }

def State.setStatus (s : State) (i : Nat) (status : Status) : State :=
  { s with PT := Function.update s.PT i { s.PT i with status := status } }

/-- `PT[currentJobIndex]`. -/
def State.current (s : State) : ProcessTableEntry := s.PT s.currentJobIndex

/-- `waitpid(pid, &status, WUNTRACED)`: it returns an exit and reaps the child, returns a stop
once, fails on a pid that is not a child, and otherwise blocks. -/
def waitpid (s : State) (pid : Nat) (after : Bool → Pc) : Option State :=
  match s.child pid with
  | none => some (s.goto (after false))
  | some .zombie => some { s with child := Function.update s.child pid none, pc := after true }
  | some (.stopped false) =>
      some { s with
        child := Function.update s.child pid (some (.stopped true)), pc := after false }
  | some (.stopped true) | some .running => none

/-- After `kill(pid, SIGKILL)`, which ends the manager when it is meant as well. -/
def State.afterKill (s : State) (pid : Nat) (pc : Pc) : State :=
  s.goto (if pid = s.own ∨ pid = 0 then .exited else pc)

/-- The statements of the command loop that take no input. -/
def mainStep (s : State) : Option State :=
  match s.pc with
  | .setPid => some ((s.setPid 0 s.own).goto .setStatus)
  | .setStatus => some ((s.setStatus 0 .running).goto .prompt)
  | .incTotal => some ({ s with totalJobs := s.totalJobs + 1 }.goto .setCurrent)
  | .setCurrent => some ({ s with currentJobIndex := s.totalJobs }.goto .fork)
  | .storePid pid => some ((s.setPid s.currentJobIndex pid).goto (.storeStatus pid))
  | .storeStatus pid => some ((s.setStatus s.currentJobIndex .running).goto (.waitSpawn pid))
  | .waitSpawn pid => waitpid s pid .check
  | .check exited =>
      some (s.goto (if s.current.status = .running then .finish exited else .prompt))
  | .finish _ => some ((s.setStatus s.currentJobIndex .finished).goto .prompt)
  | .list c i found =>
      if i ≤ s.totalJobs then
        some (s.goto (.list c (i + 1) (found || decide ((s.PT i).status = .suspended))))
      else some (s.goto (if found then .choose c else .prompt))
  | .setRunning i => some ((s.setStatus i .running).goto (.contCurrent i))
  | .contCurrent i => some ({ s with currentJobIndex := i }.goto (.killCont i))
  | .killCont i => some (s.goto (.waitCont i))
  | .waitCont i => waitpid s (s.PT i).pid .check
  | .killJob i => some (s.afterKill (s.PT i).pid (.setKilled i))
  | .setKilled i => some ((s.setStatus i .killed).goto (.waitKilled i))
  | .waitKilled i => waitpid s (s.PT i).pid fun _ => .prompt
  | .cleanup i =>
      if i ≤ s.totalJobs then
        if (s.PT i).status = .running ∨ (s.PT i).status = .suspended then
          some (s.goto (.killCleanup i))
        else some (s.goto (.cleanup (i + 1)))
      else some (s.goto .exited)
  | .killCleanup i => some (s.afterKill (s.PT i).pid (.cleanup (i + 1)))
  | .prompt | .fork | .choose _ | .exited => none

/-- The character read at the prompt. -/
def commandStep (s : State) (userInput : Char) : Option State :=
  if s.pc = .prompt then
    match userInput with
    | 'r' => some (s.goto (if s.totalJobs < MAX_JOBS then .incTotal else .exited))
    | 'c' => some (s.goto (.list .cont 0 false))
    | 'k' => some (s.goto (.list .kill 0 false))
    | 'q' => some (s.goto (.cleanup 1))
    | _ => some s
  else none

/-- The index read for `c` or `k`, with the test of the choice. -/
def chooseStep (s : State) (chosenIndex : Int) : Option State :=
  match s.pc with
  | .choose c =>
      if chosenIndex < 0 ∨ s.totalJobs < chosenIndex
          ∨ (s.PT chosenIndex.toNat).status ≠ .suspended then
        some (s.goto .prompt)
      else
        match c with
        | .cont => some (s.goto (.setRunning chosenIndex.toNat))
        | .kill => some (s.goto (.killJob chosenIndex.toNat))
  | _ => none

/-- `fork()`: it fails, or it returns a positive pid that no process of the model has. -/
def forkStep (s : State) (pid : Option Nat) : Option State :=
  if s.pc = .fork then
    match pid with
    | none => some (s.goto .prompt)
    | some pid =>
        if pid ≠ 0 ∧ pid ≠ s.own ∧ s.child pid = none then
          some { s with child := Function.update s.child pid (some .running), pc := .storePid pid }
        else none
  else none

/-- `handleSIGINT` and `handleSIGTSTP` differ in the status they store. -/
def Signo.status : Signo → Status
  | .SIGINT => .terminated
  | .SIGTSTP => .suspended

/-- One statement of the innermost handler. `currentJobIndex` is never `-1`. -/
def handlerStep (s : State) : Option State :=
  match s.frames with
  | [] => none
  | ⟨g, .test⟩ :: fs =>
      some { s with frames := if s.current.status = .running then ⟨g, .mark⟩ :: fs else fs }
  | ⟨g, .mark⟩ :: fs =>
      some { s.setStatus s.currentJobIndex g.status with frames := ⟨g, .kill⟩ :: fs }
  | ⟨_, .kill⟩ :: fs => some { s with frames := fs }

/-- What a job does by itself. -/
inductive JobEvent
  | stop
  | cont
  | exit
  deriving DecidableEq, Repr

def jobStep : Child → JobEvent → Option Child
  | .running, .stop => some (.stopped false)
  | .stopped _, .cont => some .running
  | .running, .exit | .stopped _, .exit => some .zombie
  | _, _ => none

/-- Who moves, and on what input. -/
inductive Label
  | main
  | command (userInput : Char)
  | choose (chosenIndex : Int)
  | fork (pid : Option Nat)
  | signal (signo : Signo)
  | handler
  | job (pid : Nat) (e : JobEvent)
  deriving DecidableEq, Repr

/-- The command loop runs when no handler does. -/
def loopStep (s : State) (f : State → Option State) : Option State :=
  if s.frames = [] then f s else none

/-- The manager with its jobs. -/
def machine (own : Nat) : Machine State Label where
  init s := s = start own
  next s
    | .main => loopStep s mainStep
    | .command userInput => loopStep s fun s => commandStep s userInput
    | .choose chosenIndex => loopStep s fun s => chooseStep s chosenIndex
    | .fork pid => loopStep s fun s => forkStep s pid
    | .signal signo =>
        if s.pc ≠ .exited ∧ signo ∉ s.frames.map Frame.signo then
          some { s with frames := ⟨signo, .test⟩ :: s.frames }
        else none
    | .handler => if s.pc ≠ .exited then handlerStep s else none
    | .job pid e =>
        match s.child pid with
        | none => none
        | some c =>
            (jobStep c e).map fun c' => { s with child := Function.update s.child pid (some c') }

/-! ## What is signalled -/

/-- The target of the `kill` that the running code has reached. -/
def State.killTarget (s : State) : Option Nat :=
  match s.frames with
  | ⟨_, .kill⟩ :: _ => some s.current.pid
  | _ :: _ => none
  | [] =>
      match s.pc with
      | .killCont i | .killJob i | .killCleanup i => some (s.PT i).pid
      | _ => none

/-- Whatever is signalled is a child that the manager has forked and not yet reaped. -/
def SignalsOwnJobs (s : State) : Prop :=
  ∀ pid, s.killTarget = some pid → pid ≠ s.own ∧ pid ≠ 0 ∧ (s.child pid).isSome

end OSLab.Jobs
