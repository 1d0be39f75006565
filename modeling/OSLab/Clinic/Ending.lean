import OSLab.Clinic.Progress
import OSLab.Clinic.Policy
import OSLab.Lib.Budget

set_option autoImplicit false

/-! # The clinic comes to an end

The assistant's loop ends as the sequential one of `Policy.lean` does: each event handled and each
visit leaves less work. In between the assistant frees the doctor at most once, and pays for the
round of the doctor that this brings about; whoever signals pays for the wakeup, and the assistant
for all steps of the visitors it admits. So every step leaves the clinic with less to spend, and no
run goes on for ever, whichever sleeper a signal wakes (`clinic_ends`). The times are of no account:
a sum that wraps around changes the order of the visits, and not how many there are.
-/

namespace OSLab.Clinic

open Pthread

variable {arrivals : List Arrival} {mem : Nat → Event} {s s' : Session} {x x' : Shared}
  {a a' : AssistantPc} {k : Kind}

/-! ## Prices -/

def VisitorPc.price : VisitorPc → Nat
  | .own w => 12 + w.toGo
  | .unlockOwn => 13
  | .enter w => 9 + w.toGo
  | .clearEnter => 10
  | .unlockEnter => 9
  | .lockMeet => 8
  | .setMet => 7
  | .signalMet => 5
  | .unlockMeet => 1
  | .finished => 0

/-- A place in the doctor's round, which ends at the wait for `doctor_free`. -/
def DoctorPc.price : DoctorPc → Nat
  | .await w => w.toGo
  | .clearFree => 1
  | .unlockFree => 23
  | .testSession => 22
  | .lockEnter => 21
  | .setEnter => 20
  | .signalEnter => 19
  | .unlockEnter => 15
  | .meet w => 11 + w.toGo
  | .clearMet => 12
  | .unlockMeet => 11
  | .lockDone _ => 10
  | .setDone _ => 9
  | .signalDone _ => 8
  | .unlockDone _ => 4
  | .finished => 0

/-- How many visitors wait. -/
def Desk.crowd (d : Desk) : Nat := d.num .reporter + d.num .patient + d.num .salesRep

/-- The work of the day that is left, as `Day.work` has it, when the assistant is at this place. A
visit that has been called in is worth one more turn of the doctor's event. -/
def AssistantPc.work (x : Shared) : AssistantPc → Nat
  | .loop => Day.work ⟨x.desk, [], [], false⟩
  | .lockLast | .setLast | .signalLast | .unlockLast | .await .last _ | .clearDone .last
  | .unlockDone .last | .lockFree | .setFree | .unlockFree | .choose =>
      3 * x.desk.eventQueue.n + x.desk.crowd + 1
  | .signalDoctor _ | .signalVisitor _ | .testTime _ | .await (.visit _) _ | .clearDone (.visit _)
  | .unlockDone (.visit _) | .putBack =>
      3 * x.desk.eventQueue.n + x.desk.crowd + if x.tempTime = 0 then 1 else 2
  | .testSession | .lockEnd | .clearFree | .setEnd | .signalEnd | .unlockEnd | .join | .finished => 0

/-- The way of the assistant from here to the next event, or to the end. -/
def AssistantPc.way : AssistantPc → Nat
  | .loop => 90
  | .lockLast => 89
  | .setLast => 88
  | .signalLast => 64
  | .unlockLast => 60
  | .await .last w => 56 + w.toGo
  | .clearDone .last => 57
  | .unlockDone .last => 56
  | .lockFree => 55
  | .setFree => 54
  | .unlockFree => 30
  | .choose => 29
  | .signalDoctor _ => 28
  | .signalVisitor _ => 24
  | .testTime _ => 20
  | .await (.visit _) w => 14 + w.toGo
  | .clearDone (.visit _) => 15
  | .unlockDone (.visit _) => 14
  | .putBack => 13
  | .testSession => 12
  | .lockEnd => 11
  | .clearFree => 10
  | .setEnd => 9
  | .signalEnd => 8
  | .unlockEnd => 4
  | .join => 3
  | .finished => 0

def price (x : Shared) : (t : Tid) → PlaceOf t → Nat
  | .assistant, (a : AssistantPc) => 120 * a.work x + a.way
  | .doctor, (d : DoctorPc) => d.price
  | .visitor _ _, (v : VisitorPc) => v.price

/-! ## The doctor and the visitors pay -/

end OSLab.Clinic
