import OSLab.Lib.Pthread
import OSLab.Clinic.Assistant

set_option autoImplicit false

/-! # The threads of the clinic

`session.c` as it runs: the assistant, the doctor and one thread for each visitor who is admitted,
with the mutexes, the condition variables and the flags `doctor_free`, `doctor_enter`, `doctor_met`
and `doctor_done`. The three visitor functions have the same body up to their names, so
`current_reporter`, `mutex_reporter` and `cond_reporter` are those of the class `reporter`.

The assistant waits for `doctor_done` in two places, which `Call` tells apart: at the end of the
session and after each call. What `mutex` guards is only written by the assistant, who alone takes
it, so it never blocks anybody and is left out; a step of the assistant reads or writes one variable
that another thread can see.
-/

namespace OSLab.Clinic

open Pthread

inductive Tid
  | assistant
  | doctor
  | visitor (k : Kind) (n : Nat)
  deriving DecidableEq, Repr

/-- `mutex_doc`, `mutex_doc_finish`, `mutex_enter`, `mutex_doc_meet`, and one for each class. -/
inductive MutexId
  | doc
  | finish
  | enter
  | meet
  | own (k : Kind)
  deriving DecidableEq, Repr

/-- `cond_doctor`, `doctor_completed`, `doctor_entered`, `cond_doctor_meet`, and one for each
class. -/
inductive CondId
  | doctor
  | completed
  | entered
  | meet
  | own (k : Kind)
  deriving DecidableEq, Repr

/-- A visitor called in: the token that `current_reporter`, … was set to, and `current_time`. -/
structure CalledIn where
  kind : Kind
  token : Nat
  time : Int
  deriving DecidableEq, Repr

/-- The variables; `tempTime` is the assistant's `temp.time`. The last three record what has
happened and are read by no thread: the visitors called in, those who have consumed `doctor_enter`,
and how often the doctor has printed `Doctor has next visitor`. -/
structure Shared where
  desk : Desk
  tempTime : Int
  doctorFirstcase : Bool
  doctorFree : Bool
  doctorDone : Bool
  doctorEnter : Bool
  doctorMet : Bool
  called : List CalledIn
  entered : List (Kind × Nat)
  hasNext : Nat

/-- What the assistant waits for the doctor for. -/
inductive Call
  | last
  | visit (k : Kind)
  deriving DecidableEq, Repr

inductive AssistantPc
  | loop
  | lockLast
  | setLast
  | signalLast
  | unlockLast
  | await (c : Call) (w : Await)
  | clearDone (c : Call)
  | unlockDone (c : Call)
  | lockFree
  | setFree
  | unlockFree
  | choose
  | signalDoctor (k : Kind)
  | signalVisitor (k : Kind)
  | testTime (k : Kind)
  | putBack
  | testSession
  | lockEnd
  | clearFree
  | setEnd
  | signalEnd
  | unlockEnd
  | join
  | finished
  deriving DecidableEq, Repr

/-- At `lockDone` and after it, `last` says whether the doctor leaves. -/
inductive DoctorPc
  | await (w : Await)
  | clearFree
  | unlockFree
  | testSession
  | lockEnter
  | setEnter
  | signalEnter
  | unlockEnter
  | meet (w : Await)
  | clearMet
  | unlockMeet
  | lockDone (last : Bool)
  | setDone (last : Bool)
  | signalDone (last : Bool)
  | unlockDone (last : Bool)
  | finished
  deriving DecidableEq, Repr

inductive VisitorPc
  | own (w : Await)
  | unlockOwn
  | enter (w : Await)
  | clearEnter
  | unlockEnter
  | lockMeet
  | setMet
  | signalMet
  | unlockMeet
  | finished
  deriving DecidableEq, Repr

@[reducible] def PlaceOf : Tid → Type
  | .assistant => AssistantPc
  | .doctor => DoctorPc
  | .visitor _ _ => VisitorPc

abbrev Code (t : Tid) : Type := Instr Shared MutexId CondId PlaceOf t

abbrev Session : Type := Sys Shared MutexId PlaceOf

/-! ## The assistant -/

/-- The assistant handles the next event; a visitor who is admitted gets a thread. -/
def handle (x : Shared) : Effect Shared PlaceOf .assistant :=
  let next := nextevent x.desk.eventQueue
  if emptyQ x.desk.eventQueue then ⟨x, .testSession, none⟩
  else if next.type = 'D' then
    let d := x.desk.takeTurn
    if !x.doctorFirstcase && d.sessionDone then
      ⟨{ x with desk := d, doctorFirstcase := true }, .lockLast, none⟩
    else ⟨{ x with desk := d }, .lockFree, none⟩
  else
    match Kind.ofType next.type with
    | some k => ⟨{ x with desk := x.desk.arrive k next }, .loop,
        if x.desk.admits k then some ⟨.visitor k (x.desk.token k + 1), .own .lock⟩ else none⟩
    | none => ⟨{ x with desk := x.desk.skip next }, .loop, none⟩

/-- The five ways the next event can go. -/
inductive Handled (x : Shared) : Effect Shared PlaceOf .assistant → Prop
  | empty : x.desk.eventQueue.n = 0 → Handled x ⟨x, .testSession, none⟩
  | last : (nextevent x.desk.eventQueue).type = 'D' → x.doctorFirstcase = false →
      x.desk.takeTurn.sessionDone = true →
      Handled x ⟨{ x with desk := x.desk.takeTurn, doctorFirstcase := true }, .lockLast, none⟩
  | turn : (nextevent x.desk.eventQueue).type = 'D' →
      x.doctorFirstcase = true ∨ x.desk.takeTurn.sessionDone = false →
      Handled x ⟨{ x with desk := x.desk.takeTurn }, .lockFree, none⟩
  | arrive {k : Kind} : (nextevent x.desk.eventQueue).type = k.type →
      Handled x ⟨{ x with desk := x.desk.arrive k (nextevent x.desk.eventQueue) }, .loop,
        if x.desk.admits k then some ⟨.visitor k (x.desk.token k + 1), .own .lock⟩ else none⟩
  | skip : (nextevent x.desk.eventQueue).type ≠ 'D' →
      Kind.ofType (nextevent x.desk.eventQueue).type = none →
      Handled x ⟨{ x with desk := x.desk.skip (nextevent x.desk.eventQueue) }, .loop, none⟩

theorem handle_cases (x : Shared) : Handled x (handle x) := by
  by_cases hn : x.desk.eventQueue.n = 0
  · have he : handle x = ⟨x, .testSession, none⟩ := by simp [handle, emptyQ, hn]
    rw [he]
    exact .empty hn
  · by_cases hD : (nextevent x.desk.eventQueue).type = 'D'
    · by_cases hlast : x.doctorFirstcase = false ∧ x.desk.takeTurn.sessionDone = true
      · have he : handle x = ⟨{ x with desk := x.desk.takeTurn, doctorFirstcase := true },
            .lockLast, none⟩ := by simp [handle, emptyQ, hn, hD, hlast]
        rw [he]
        exact .last hD hlast.1 hlast.2
      · have he : handle x = ⟨{ x with desk := x.desk.takeTurn }, .lockFree, none⟩ := by
          simp [handle, emptyQ, hn, hD, hlast]
        rw [he]
        refine .turn hD ?_
        cases hf : x.doctorFirstcase with
        | true => exact .inl rfl
        | false => exact .inr (by simpa [hf] using hlast)
    · cases hk : Kind.ofType (nextevent x.desk.eventQueue).type with
      | none =>
          have he : handle x = ⟨{ x with desk := x.desk.skip (nextevent x.desk.eventQueue) },
              .loop, none⟩ := by simp [handle, emptyQ, hn, hD, hk]
          rw [he]
          exact .skip hD hk
      | some k =>
          have he : handle x = ⟨{ x with desk := x.desk.arrive k (nextevent x.desk.eventQueue) },
              .loop, if x.desk.admits k then some ⟨.visitor k (x.desk.token k + 1), .own .lock⟩
              else none⟩ := by simp [handle, emptyQ, hn, hD, hk]
          rw [he]
          exact .arrive (Kind.ofType_eq_some.mp hk)

/-- Somebody waits to see the doctor. -/
def Desk.anyWaiting (d : Desk) : Bool :=
  decide (0 < d.num .patient) || decide (0 < d.num .reporter) || decide (0 < d.num .salesRep)

/-- The assistant calls a visitor in, if somebody waits. -/
def call (x : Shared) : Effect Shared PlaceOf .assistant :=
  match x.desk.chosen with
  | some k => ⟨{ x with
      tempTime := x.desk.visitEnd k
      desk := x.desk.callIn k
      called := x.called ++ [⟨k, x.desk.current k + 1, x.desk.currentTime⟩] }, .signalDoctor k, none⟩
  | none => ⟨{ x with tempTime := 0 }, .putBack, none⟩

/-- The doctor's event goes back into the queue. -/
def resume (x : Shared) : Effect Shared PlaceOf .assistant :=
  match x.desk.putBack x.tempTime with
  | some d => ⟨{ x with desk := d }, .loop, none⟩
  | none => ⟨x, .testSession, none⟩

def afterDone : Call → AssistantPc
  | .last => .lockFree
  | .visit _ => .putBack

def assistant : AssistantPc → Code .assistant
  | .loop => .act handle
  | .lockLast => .lock .doc .setLast
  | .setLast => .act fun x => ⟨{ x with doctorFree := true }, .signalLast, none⟩
  | .signalLast => .signal .doctor .unlockLast
  | .unlockLast => .unlock .doc (.await .last .lock)
  | .await c w => w.instr .finish .completed Shared.doctorDone (.await c) (.clearDone c)
  | .clearDone c => .act fun x => ⟨{ x with doctorDone := false }, .unlockDone c, none⟩
  | .unlockDone c => .unlock .finish (afterDone c)
  | .lockFree => .lock .doc .setFree
  | .setFree => .act fun x =>
      ⟨if x.desk.anyWaiting then { x with doctorFree := true } else x, .unlockFree, none⟩
  | .unlockFree => .unlock .doc .choose
  | .choose => .act call
  | .signalDoctor k => .signal .doctor (.signalVisitor k)
  | .signalVisitor k => .signal (.own k) (.testTime k)
  | .testTime k => .act fun x =>
      ⟨x, if x.tempTime = 0 then .putBack else .await (.visit k) .lock, none⟩
  | .putBack => .act resume
  | .testSession => .act fun x => ⟨x, if x.desk.sessionDone then .join else .lockEnd, none⟩
  | .lockEnd => .lock .doc .clearFree
  | .clearFree => .act fun x => ⟨{ x with doctorFree := false }, .setEnd, none⟩
  | .setEnd => .act fun x =>
      ⟨{ x with desk := { x.desk with sessionDone := true } }, .signalEnd, none⟩
  | .signalEnd => .signal .doctor .unlockEnd
  | .unlockEnd => .unlock .doc .join
  | .join => .join .doctor .finished
  | .finished => .halt

/-! ## The doctor and the visitors -/

/-- The doctor who is freed leaves or has the next visitor. -/
def proceed (x : Shared) : Effect Shared PlaceOf .doctor :=
  if x.desk.sessionDone then ⟨x, .lockDone true, none⟩
  else ⟨{ x with hasNext := x.hasNext + 1 }, .lockEnter, none⟩

def doctor : DoctorPc → Code .doctor
  | .await w => w.instr .doc .doctor Shared.doctorFree .await .clearFree
  | .clearFree => .act fun x => ⟨{ x with doctorFree := false }, .unlockFree, none⟩
  | .unlockFree => .unlock .doc .testSession
  | .testSession => .act proceed
  | .lockEnter => .lock .enter .setEnter
  | .setEnter => .act fun x => ⟨{ x with doctorEnter := true }, .signalEnter, none⟩
  | .signalEnter => .signal .entered .unlockEnter
  | .unlockEnter => .unlock .enter (.meet .lock)
  | .meet w => w.instr .meet .meet Shared.doctorMet .meet .clearMet
  | .clearMet => .act fun x => ⟨{ x with doctorMet := false }, .unlockMeet, none⟩
  | .unlockMeet => .unlock .meet (.lockDone false)
  | .lockDone last => .lock .finish (.setDone last)
  | .setDone last => .act fun x => ⟨{ x with doctorDone := true }, .signalDone last, none⟩
  | .signalDone last => .signal .completed (.unlockDone last)
  | .unlockDone last => .unlock .finish (if last then .finished else .await .lock)
  | .finished => .halt

/-- `reporter`, `patient` and `sales_rep`, with token `n`. -/
def visitor (k : Kind) (n : Nat) : VisitorPc → Code (.visitor k n)
  | .own w => w.instr (.own k) (.own k) (fun x => n == x.desk.current k) .own .unlockOwn
  | .unlockOwn => .unlock (.own k) (.enter .lock)
  | .enter w => w.instr .enter .entered Shared.doctorEnter .enter .clearEnter
  | .clearEnter => .act fun x =>
      ⟨{ x with doctorEnter := false, entered := x.entered ++ [(k, n)] }, .unlockEnter, none⟩
  | .unlockEnter => .unlock .enter .lockMeet
  | .lockMeet => .lock .meet .setMet
  | .setMet => .act fun x => ⟨{ x with doctorMet := true }, .signalMet, none⟩
  | .signalMet => .signal .meet .unlockMeet
  | .unlockMeet => .unlock .meet .finished
  | .finished => .halt

def code : (t : Tid) → PlaceOf t → Code t
  | .assistant => assistant
  | .doctor => doctor
  | .visitor k n => visitor k n

/-- The assistant has made the doctor and put the doctor's first event into the queue. -/
def startSession (mem : Nat → Event) (arrivals : List Arrival) : Session where
  data := ⟨openDesk mem arrivals, 0, false, false, false, false, false, [], [], 0⟩
  owner := fun _ => none
  place
    | .assistant => some .loop
    | .doctor => some (.await .lock)
    | .visitor _ _ => none
  threads := [.assistant, .doctor]

/-- The clinic on a file of arrivals. -/
def clinic (mem : Nat → Event) (arrivals : List Arrival) : Machine Session (Tid × Option Tid) :=
  machine code (startSession mem arrivals)

/-- The assistant waits for the visit of whoever is called in: a visit that ends at time `0` would
be taken for no visit. -/
def Awaited (s : Session) (a : Tid × Option Tid) : Prop :=
  a.1 = .assistant → ∀ k, s.place .assistant = some (.testTime k) → s.data.tempTime ≠ 0

/-- The visitor called in hears the assistant's signal: is not between the test and the wait, and is
the one woken if asleep. -/
def Heard (s : Session) (a : Tid × Option Tid) : Prop :=
  a.1 = .assistant → ∀ k, s.place .assistant = some (.signalVisitor k) →
    s.place (.visitor k (s.data.desk.current k)) ≠ some (.own .sleep)
      ∧ (s.place (.visitor k (s.data.desk.current k)) = some (.own .asleep) →
        a.2 = some (.visitor k (s.data.desk.current k)))

def CallHeard (s : Session) (a : Tid × Option Tid) : Prop := Heard s a ∧ Awaited s a

instance (s : Session) (a : Tid × Option Tid) : Decidable (Awaited s a) := by
  unfold Awaited
  infer_instance

instance (s : Session) (a : Tid × Option Tid) : Decidable (Heard s a) := by
  unfold Heard
  infer_instance

instance (s : Session) (a : Tid × Option Tid) : Decidable (CallHeard s a) :=
  inferInstanceAs (Decidable (_ ∧ _))

/-- Enough patients and sales representatives for the session to be done. -/
def Enough (arrivals : List Arrival) : Prop :=
  NUM_PATIENTS ≤ arrivals.countP (·.kind = .patient)
    ∧ NUM_SALES_REPS ≤ arrivals.countP (·.kind = .salesRep)

/-! ## Who holds which mutex -/

def AssistantPc.holds : AssistantPc → Option MutexId
  | .setLast | .signalLast | .unlockLast => some .doc
  | .await _ w => w.held .finish
  | .clearDone _ | .unlockDone _ => some .finish
  | .setFree | .unlockFree => some .doc
  | .clearFree | .setEnd | .signalEnd | .unlockEnd => some .doc
  | _ => none

def DoctorPc.holds : DoctorPc → Option MutexId
  | .await w => w.held .doc
  | .clearFree | .unlockFree => some .doc
  | .setEnter | .signalEnter | .unlockEnter => some .enter
  | .meet w => w.held .meet
  | .clearMet | .unlockMeet => some .meet
  | .setDone _ | .signalDone _ | .unlockDone _ => some .finish
  | _ => none

def VisitorPc.holds (k : Kind) : VisitorPc → Option MutexId
  | .own w => w.held (.own k)
  | .unlockOwn => some (.own k)
  | .enter w => w.held .enter
  | .clearEnter | .unlockEnter => some .enter
  | .setMet | .signalMet | .unlockMeet => some .meet
  | _ => none

def holds : (t : Tid) → PlaceOf t → Option MutexId
  | .assistant => AssistantPc.holds
  | .doctor => DoctorPc.holds
  | .visitor k _ => VisitorPc.holds k

theorem assistant_fits (a : AssistantPc) : (assistant a).Fits holds a.holds := by
  cases a with
  | await c w => exact Await.fits (fun _ => rfl) rfl w
  | loop =>
      intro x
      have hcases := handle_cases x
      generalize handle x = e at hcases ⊢
      cases hcases with
      | arrive hk =>
          refine ⟨rfl, fun y hy => ?_⟩
          split at hy <;> cases hy
          rfl
      | _ => exact ⟨rfl, fun y hy => by cases hy⟩
  | choose =>
      intro x
      unfold call
      split <;> exact ⟨rfl, fun y hy => by cases hy⟩
  | putBack =>
      intro x
      unfold resume
      split <;> exact ⟨rfl, fun y hy => by cases hy⟩
  | testTime k =>
      intro x
      refine ⟨?_, fun y hy => by cases hy⟩
      show AssistantPc.holds (if _ then _ else _) = _
      split <;> rfl
  | testSession =>
      intro x
      refine ⟨?_, fun y hy => by cases hy⟩
      show AssistantPc.holds (if _ then _ else _) = _
      split <;> rfl
  | unlockDone c => cases c <;> exact ⟨rfl, rfl⟩
  | setLast | clearDone c | setFree | clearFree | setEnd =>
      exact fun x => ⟨rfl, fun y hy => by cases hy⟩
  | lockLast | unlockLast | lockFree | unlockFree | lockEnd | unlockEnd | join => exact ⟨rfl, rfl⟩
  | signalLast | signalDoctor k | signalVisitor k | signalEnd | finished => rfl

theorem doctor_fits (d : DoctorPc) : (doctor d).Fits holds d.holds := by
  cases d with
  | await w => exact Await.fits (fun _ => rfl) rfl w
  | meet w => exact Await.fits (fun _ => rfl) rfl w
  | testSession =>
      intro x
      unfold proceed
      split <;> exact ⟨rfl, fun y hy => by cases hy⟩
  | unlockDone last => cases last <;> exact ⟨rfl, rfl⟩
  | clearFree | setEnter | clearMet | setDone last =>
      exact fun x => ⟨rfl, fun y hy => by cases hy⟩
  | unlockFree | lockEnter | unlockEnter | unlockMeet | lockDone last => exact ⟨rfl, rfl⟩
  | signalEnter | signalDone last | finished => rfl

theorem visitor_fits (k : Kind) (n : Nat) (v : VisitorPc) :
    (visitor k n v).Fits holds (v.holds k) := by
  cases v with
  | own w => exact Await.fits (fun _ => rfl) rfl w
  | enter w => exact Await.fits (fun _ => rfl) rfl w
  | clearEnter | setMet => exact fun x => ⟨rfl, fun y hy => by cases hy⟩
  | unlockOwn | unlockEnter | lockMeet | unlockMeet => exact ⟨rfl, rfl⟩
  | signalMet | finished => rfl

theorem disciplined : Disciplined code holds := by
  intro t p
  cases t with
  | assistant => exact assistant_fits p
  | doctor => exact doctor_fits p
  | visitor k n => exact visitor_fits k n p

end OSLab.Clinic
