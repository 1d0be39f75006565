import Mathlib.Data.List.Induction
import Mathlib.Data.List.Perm.Basic
import Mathlib.Tactic.Common

set_option autoImplicit false

/-! # The histories of a bounded stack

A history is a list of pushes and pops, and `run` replays it on a stack of at most `cap` elements: a
push is legal while there is room, a pop when it names the element on top. What has been pushed is
what has been popped and what is still there (`run_perm`).
-/

namespace OSLab.Stack

inductive Op (α : Type*)
  | push (a : α)
  | pop (a : α)
  deriving DecidableEq, Repr

variable {α : Type*} {cap : Nat} {h : List (Op α)} {st : List α} {a : α}

def Op.pushed : Op α → Option α
  | .push a => some a
  | .pop _ => none

def Op.popped : Op α → Option α
  | .push _ => none
  | .pop a => some a

/-- What has been pushed, in this order. -/
def pushed (h : List (Op α)) : List α := h.filterMap Op.pushed

/-- What has been popped, in this order. -/
def popped (h : List (Op α)) : List α := h.filterMap Op.popped

@[simp] theorem pushed_push (h : List (Op α)) (a : α) :
    pushed (h ++ [.push a]) = pushed h ++ [a] := by simp [pushed, Op.pushed]

@[simp] theorem pushed_pop (h : List (Op α)) (a : α) : pushed (h ++ [.pop a]) = pushed h := by
  simp [pushed, Op.pushed]

@[simp] theorem popped_push (h : List (Op α)) (a : α) : popped (h ++ [.push a]) = popped h := by
  simp [popped, Op.popped]

@[simp] theorem popped_pop (h : List (Op α)) (a : α) :
    popped (h ++ [.pop a]) = popped h ++ [a] := by simp [popped, Op.popped]

section Run

variable [DecidableEq α]

/-- One operation on a stack, top first. -/
def step (cap : Nat) : List α → Op α → Option (List α)
  | st, .push a => if st.length < cap then some (a :: st) else none
  | [], .pop _ => none
  | b :: st, .pop a => if a = b then some st else none

/-- The stack after a history, if that is legal. -/
def run (cap : Nat) (h : List (Op α)) : Option (List α) := h.foldlM (step cap) []

theorem run_snoc (h : List (Op α)) (x : Op α) :
    run cap (h ++ [x]) = (run cap h).bind fun st => step cap st x := by
  simp [run, List.foldlM_append]

theorem run_push (hrun : run cap h = some st) (hroom : st.length < cap) :
    run cap (h ++ [.push a]) = some (a :: st) := by
  rw [run_snoc, hrun, Option.bind_some, step, if_pos hroom]

theorem run_pop (hrun : run cap h = some (a :: st)) : run cap (h ++ [.pop a]) = some st := by
  rw [run_snoc, hrun, Option.bind_some, step, if_pos rfl]

/-- **What is pushed** is what is popped and what is left, and the stack never holds too much. -/
theorem run_perm (hrun : run cap h = some st) :
    (pushed h).Perm (popped h ++ st) ∧ st.length ≤ cap := by
  induction h using List.reverseRecOn generalizing st with
  | nil =>
      cases hrun
      exact ⟨.nil, Nat.zero_le cap⟩
  | append_singleton h x ih =>
      rw [run_snoc] at hrun
      obtain ⟨st₁, hrun₁, hstep⟩ := Option.bind_eq_some_iff.mp hrun
      obtain ⟨hperm, hlen⟩ := ih hrun₁
      cases x with
      | push a =>
          simp only [step] at hstep
          split at hstep
          case isTrue hroom =>
            cases hstep
            have hend : (popped h ++ (st₁ ++ [a])).Perm (popped h ++ a :: st₁) :=
              (List.perm_append_singleton a st₁).append_left (popped h)
            rw [pushed_push, popped_push]
            refine ⟨(hperm.append_right [a]).trans ?_, hroom⟩
            rwa [List.append_assoc]
          case isFalse => cases hstep
      | pop a =>
          cases st₁ with
          | nil => cases hstep
          | cons b st₁ =>
              simp only [step] at hstep
              split at hstep
              case isTrue hab =>
                cases hstep
                rw [pushed_pop, popped_pop, hab, List.append_assoc, List.singleton_append]
                exact ⟨hperm, Nat.le_of_succ_le hlen⟩
              case isFalse => cases hstep

end Run

end OSLab.Stack
