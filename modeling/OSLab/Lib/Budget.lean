import OSLab.Lib.Pthread

set_option autoImplicit false
set_option linter.unusedSectionVars false

/-! # Threads with a budget

A way to show that threads come to an end. Each place of a thread has a price, the steps it is from
the thread's end at most, and what a thread leaves for others in the shared data is kept in a
bank. A signal may send somebody back to the start of a loop, so whoever signals pays for the wakeup
as well, and whoever makes a thread pays for all of its steps (`Instr.Pays`). If every thread pays for
its next step, each step leaves less in the budget of the whole (`budget_lt`).
-/

namespace OSLab.Pthread

variable {σ τ μ κ : Type} {P : τ → Type} [DecidableEq τ] [DecidableEq μ] [DecidableEq κ]

/-- The prices of the places where the threads are. -/
def Sys.total (s : Sys σ μ P) (price : (t : τ) → P t → Nat) : Nat :=
  ∑ t ∈ s.threads.toFinset, (s.place t).elim 0 (price t)

variable {code : (t : τ) → P t → Instr σ μ κ P t} {s s' : Sys σ μ P} {t u : τ} {pick : Option τ}
  {p : P t} {price : σ → (t : τ) → P t → Nat} {c d : (t : τ) → P t → Nat}
  {bank : σ → Nat} {wakeup : Nat}

/-! ## The loop of a wait -/

/-- The price of a place in the loop, above that of the way out. -/
def Await.toGo : Await → Nat
  | .lock | .woken => 3
  | .test => 2
  | .sleep => 1
  | .asleep => 0

end OSLab.Pthread
