import OSLab.Lib.Pthread

set_option autoImplicit false
set_option linter.unusedSectionVars false

/-! # Broadcasts and spurious wakeups

The threads of `Pthread.lean` with the rest of what a condition variable does: the signals at the
places `all` are broadcasts and wake everybody asleep on the variable, and a sleeper may wake up by
itself. To a program both look the same. A step takes the thread that makes it past its instruction
and leaves every other thread where it is, wakes it, or makes it (`Advance`); a spurious wakeup moves
one sleeper and touches nothing else. Owners stay the threads that hold (`exclusive_next`), and a
state in which only spurious wakeups are left is one in which every thread is asleep, waits for
another to end, or has ended (`quiet_cases`).
-/

namespace OSLab.Pthread

variable {σ τ μ κ : Type} {P : τ → Type} [DecidableEq τ] [DecidableEq μ] [DecidableEq κ]

/-- A step of a thread, with the thread that a signal wakes, or a wakeup of its own. -/
inductive Label (τ : Type)
  | step (t : τ) (pick : Option τ)
  | spurious (t : τ)
  deriving DecidableEq, Repr

section Step

variable (code : (t : τ) → P t → Instr σ μ κ P t) (all : (t : τ) → P t → Bool)

/-- Everybody asleep on `c` is woken. -/
def Sys.wakeAll (s : Sys σ μ P) (c : κ) : Sys σ μ P :=
  { s with place := fun t => (s.asleepOn code c t).or (s.place t) }

def Sys.next (s : Sys σ μ P) : Label τ → Option (Sys σ μ P)
  | .step t pick =>
      match s.place t with
      | none => none
      | some p =>
          match code t p with
          | .signal c next =>
              if all t p then some ((s.wakeAll code c).goto t next) else s.step code t pick
          | _ => s.step code t pick
  | .spurious t =>
      match s.place t with
      | none => none
      | some p =>
          match code t p with
          | .asleep _ woken => some (s.goto t woken)
          | _ => none

/-- The threads as a machine, with broadcasts and spurious wakeups. -/
def wakeMachine (s₀ : Sys σ μ P) : Machine (Sys σ μ P) (Label τ) where
  init := fun s => s = s₀
  next := fun s a => s.next code all a

/-- The runs in which nobody wakes up by itself. -/
def NotSpurious : Sys σ μ P → Label τ → Prop
  | _, .step _ _ => True
  | _, .spurious _ => False

instance (s : Sys σ μ P) : (a : Label τ) → Decidable (NotSpurious s a)
  | .step _ _ => .isTrue trivial
  | .spurious _ => .isFalse id

end Step

variable {code : (t : τ) → P t → Instr σ μ κ P t} {all : (t : τ) → P t → Bool}
  {s s' : Sys σ μ P} {t u : τ} {pick : Option τ} {p p' : P t} {m : μ} {c : κ}
  {holds : (t : τ) → P t → Option μ}

theorem wakeAll_asleep {woken : P u} (h : s.asleepOn code c u = some woken) :
    (s.wakeAll code c).place u = some woken := by
  simp [Sys.wakeAll, h]

theorem wakeAll_awake (h : s.asleepOn code c u = none) :
    (s.wakeAll code c).place u = s.place u := by
  simp [Sys.wakeAll, h]

/-! ## What a step does -/

/-- What becomes of another thread `u` when `t` makes a step from `p`: it stays, is woken by a signal,
or is made. -/
def Elsewhere (code : (t : τ) → P t → Instr σ μ κ P t) (s s' : Sys σ μ P) (t : τ) (p : P t)
    (u : τ) : Prop :=
  s'.place u = s.place u
    ∨ (∃ q c next woken, code t p = .signal c next ∧ s.place u = some q ∧ code u q = .asleep c woken
      ∧ s'.place u = some woken)
    ∨ ∃ f q, code t p = .act f ∧ (f s.data).spawned = some ⟨u, q⟩ ∧ s'.place u = some q

/-- Thread `t` gets past its instruction at `p` and on to `p'`. -/
structure Advance (code : (t : τ) → P t → Instr σ μ κ P t) (s s' : Sys σ μ P) (t : τ) (p p' : P t) :
    Prop where
  before : s.place t = some p
  after : s'.place t = some p'
  result : (code t p).result s.data = some (s'.data, p')
  others : ∀ u, u ≠ t → Elsewhere code s s' t p u

/-- The kinds of step. -/
inductive Steps (code : (t : τ) → P t → Instr σ μ κ P t) (all : (t : τ) → P t → Bool)
    (s : Sys σ μ P) : Label τ → Sys σ μ P → Prop
  | move {t : τ} {pick : Option τ} {p : P t} {s' : Sys σ μ P} : s.place t = some p →
      Moves code s t pick p s' →
      (∀ c next, code t p = .signal c next → all t p = false) → Steps code all s (.step t pick) s'
  | broadcast {t : τ} {pick : Option τ} {p : P t} {c : κ} {next : P t} : s.place t = some p →
      code t p = .signal c next → all t p = true →
      Steps code all s (.step t pick) ((s.wakeAll code c).goto t next)
  | spurious {t : τ} {p : P t} {c : κ} {woken : P t} : s.place t = some p →
      code t p = .asleep c woken → Steps code all s (.spurious t) (s.goto t woken)

theorem steps_of_next {a : Label τ} (h : s.next code all a = some s') : Steps code all s a s' := by
  cases a with
  | step t pick =>
      simp only [Sys.next] at h
      split at h
      · cases h
      · rename_i p hp
        have hmove : s.step code t pick = some s' → Moves code s t pick p s' := by
          intro hs
          obtain ⟨q, hq, hm⟩ := moves_of_step hs
          obtain rfl := Option.some.inj (hq.symm.trans hp)
          exact hm
        split at h
        · rename_i c next hc
          split at h
          · rename_i hall
            cases h
            exact .broadcast hp hc hall
          · rename_i hall
            exact .move hp (hmove h) fun _ _ _ => by simpa using hall
        · rename_i hsignal
          exact .move hp (hmove h) fun c next hc => absurd hc (hsignal c next)
  | spurious t =>
      simp only [Sys.next] at h
      split at h
      · cases h
      · rename_i p hp
        split at h
        · rename_i c woken hc
          cases h
          exact .spurious hp hc
        · cases h

theorem perform_place (s : Sys σ μ P) (e : Effect σ P t) (hu : u ≠ t) :
    (s.perform t e).place u = s.place u
      ∨ ∃ q, e.spawned = some ⟨u, q⟩ ∧ (s.perform t e).place u = some q := by
  rw [Sys.perform, goto_place_ne _ _ hu]
  cases hs : e.spawned with
  | none => exact .inl rfl
  | some y =>
      -- `u` may be the thread that is started
      by_cases hy : u = y.1
      · obtain ⟨_, q⟩ := y
        subst hy
        exact .inr ⟨q, rfl, goto_place_self { s with data := e.data } _ q⟩
      · exact .inl (goto_place_ne { s with data := e.data } _ hy)

theorem Moves.elsewhere (hm : Moves code s t pick p s') (hu : u ≠ t) :
    Elsewhere code s s' t p u := by
  cases hm with
  | lock _ _ => exact .inl (goto_place_ne _ _ hu)
  | give _ => exact .inl (goto_place_ne _ _ hu)
  | @wake c next v woken hc _ hw =>
      by_cases huv : u = v
      · subst huv
        obtain ⟨q, hq, hcq⟩ := asleepOn_eq_some hw
        refine .inr (.inl ⟨q, c, next, woken, hc, hq, hcq, ?_⟩)
        rw [goto_place_ne _ _ hu, goto_place_self]
      · exact .inl ((goto_place_ne _ _ hu).trans (goto_place_ne _ _ huv))
  | lost _ _ _ => exact .inl (goto_place_ne _ _ hu)
  | @act f hc =>
      rcases perform_place s (f s.data) hu with hsame | ⟨q, hs, hq⟩
      · exact .inl hsame
      · exact .inr (.inr ⟨f, q, hc, hs, hq⟩)
  | join _ _ => exact .inl (goto_place_ne _ _ hu)

/-- A broadcast wakes the others. -/
theorem advance_broadcast {next : P t} (hp : s.place t = some p) (hc : code t p = .signal c next) :
    Advance code s ((s.wakeAll code c).goto t next) t p next where
  before := hp
  after := goto_place_self _ _ _
  result := by rw [hc]; rfl
  others u hu := by
    rw [Elsewhere, goto_place_ne _ _ hu]
    cases hw : s.asleepOn code c u with
    | none => exact .inl (wakeAll_awake hw)
    | some woken =>
        obtain ⟨q, hq, hcq⟩ := asleepOn_eq_some hw
        exact .inr (.inl ⟨q, c, next, woken, hc, hq, hcq, wakeAll_asleep hw⟩)

/-! ## Who there is -/

theorem wakeAll_ne_none (s : Sys σ μ P) (c : κ) (u : τ) :
    (s.wakeAll code c).place u ≠ none ↔ s.place u ≠ none := by
  cases hw : s.asleepOn code c u with
  | none => rw [wakeAll_awake hw]
  | some woken =>
      obtain ⟨q, hq, -⟩ := asleepOn_eq_some hw
      simp [wakeAll_asleep hw, hq]

theorem listed_next {a : Label τ} (h : s.Listed) (hs : Steps code all s a s') : s'.Listed := by
  cases hs with
  | move hp hm _ => exact listed_step h hp hm
  | @broadcast t pick p c next hp _ _ =>
      have hall : (s.wakeAll code c).Listed := fun u hu => h u ((wakeAll_ne_none s c u).mp hu)
      refine hall.goto ((wakeAll_ne_none s c t).mpr ?_) next
      rw [hp]
      exact Option.some_ne_none p
  | @spurious t p c woken hp _ =>
      refine h.goto ?_ woken
      rw [hp]
      exact Option.some_ne_none p

theorem listed_wakeMachine {s₀ : Sys σ μ P} {ok : Sys σ μ P → Label τ → Prop} (h₀ : s₀.Listed)
    (h : (wakeMachine code all s₀).ReachableWhen ok s) : s.Listed := by
  refine h.invariant ?_ ?_
  · rintro s rfl
    exact h₀
  · intro s a s' hl _ hs
    have hnext : s.next code all a = some s' := hs
    exact listed_next hl (steps_of_next hnext)

/-! ## Who holds what -/

theorem Exclusive.wakeAll (hd : Disciplined code holds) (h : Exclusive holds s) (c : κ) :
    Exclusive holds (s.wakeAll code c) := by
  have hsame : ∀ u, (s.wakeAll code c).holding holds u = s.holding holds u := by
    intro u
    cases hw : s.asleepOn code c u with
    | none => rw [Sys.holding, wakeAll_awake hw, Sys.holding]
    | some woken =>
        -- a sleeper holds nothing, and nothing when it is woken
        obtain ⟨q, hq, hcq⟩ := asleepOn_eq_some hw
        have hfits := hd u q
        rw [hcq] at hfits
        rw [holding_of (wakeAll_asleep hw), holding_of hq, hfits.2, hfits.1]
  intro m u
  rw [hsame]
  exact h m u

/-- **A step of a disciplined program keeps the owners right.** -/
theorem exclusive_next {a : Label τ} (hd : Disciplined code holds) (h : Exclusive holds s)
    (hs : Steps code all s a s') (hnew : ∀ t p, s.place t = some p → Fresh code s t p) :
    Exclusive holds s' := by
  cases hs with
  | move hp hm _ => exact exclusive_step hd h hp hm (hnew _ _ hp)
  | @broadcast t pick p c next hp hc _ =>
      have hfits := hd t p
      rw [hc] at hfits
      have hp' : (s.wakeAll code c).place t = some p := by
        rw [wakeAll_awake, hp]
        cases hw : s.asleepOn code c t with
        | none => rfl
        | some woken =>
            obtain ⟨q, hq, hcq⟩ := asleepOn_eq_some hw
            obtain rfl := Option.some.inj (hq.symm.trans hp)
            rw [hc] at hcq
            cases hcq
      exact (h.wakeAll hd c).goto hp' hfits
  | @spurious t p c woken hp hc =>
      have hfits := hd t p
      rw [hc] at hfits
      exact h.goto hp (hfits.2.trans hfits.1.symm)

/-! ## When only spurious wakeups are left -/

/-- No thread can make a step. -/
def Quiet (code : (t : τ) → P t → Instr σ μ κ P t) (all : (t : τ) → P t → Bool) (s : Sys σ μ P) :
    Prop := ∀ t pick, s.next code all (.step t pick) = none

theorem step_of_quiet (h : Quiet code all s) (t : τ) (pick : Option τ) :
    s.step code t pick = none := by
  have hnext := h t pick
  simp only [Sys.next] at hnext
  split at hnext
  · rename_i hp
    simp [Sys.step, hp]
  · split at hnext
    · split at hnext
      · cases hnext
      · exact hnext
    · exact hnext

/-- **When nothing moves but spurious wakeups**, every thread is asleep, waits for one that has not
ended, or has ended. -/
theorem quiet_cases (hd : Disciplined code holds) (h : Exclusive holds s) (hq : Quiet code all s)
    (hp : s.place t = some p) :
    (∃ c woken, code t p = .asleep c woken)
      ∨ (∃ u next, code t p = .join u next ∧ s.halted code u = false) ∨ code t p = .halt :=
  stuck_cases hd h (step_of_quiet hq) hp

theorem quiet_of_blocked (hl : s.Listed) (h : s.threads.all (s.blocked code) = true) :
    Quiet code all s := by
  intro t pick
  have hblocked : s.blocked code t = true := by
    by_cases hp : s.place t = none
    · simp [Sys.blocked, hp]
    · exact List.all_eq_true.mp h t (hl t hp)
  have hstep := step_of_blocked hblocked pick
  simp only [Sys.next]
  split
  · rfl
  · rename_i p hp
    split
    · rename_i c next hc
      simp [Sys.blocked, hp, hc] at hblocked
    · exact hstep

end OSLab.Pthread
