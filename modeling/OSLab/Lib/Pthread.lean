import OSLab.Lib.Machine
import Mathlib.Tactic

set_option autoImplicit false
set_option linter.unusedSectionVars false

/-! # Threads with mutexes and condition variables

Each thread is at a place of its own kind, and a program (`code`) says what it does there: take or
give back a mutex, fall asleep on a condition variable (which gives the mutex back in the same
step), wake one sleeper, work on the shared data, make a thread, or wait for one to end. A signal
wakes an arbitrary sleeper if there is one, which the label of the step chooses, and is lost
otherwise; nobody wakes up by himself. A woken thread goes on at a place where it takes its mutex
again.

A program is disciplined if what a thread holds can be told from its place. Then the owners of
the mutexes are the threads that hold them (`Exclusive`), so two threads never hold the same one
(`Exclusive.unique`). Threads that hold a mutex do not wait for anything, so in a state in which
nothing moves every thread is asleep, waits for another to end, or has ended (`stuck_cases`).
-/

namespace OSLab.Pthread

variable {σ τ μ κ : Type} {P : τ → Type}

/-- What a step on the shared data leaves: the data, the next place and perhaps a new thread. -/
structure Effect (σ : Type) {τ : Type} (P : τ → Type) (t : τ) where
  data : σ
  next : P t
  spawned : Option (Sigma P)

/-- What thread `t` does at a place. -/
inductive Instr (σ μ κ : Type) {τ : Type} (P : τ → Type) (t : τ)
  | lock (m : μ) (next : P t)
  | unlock (m : μ) (next : P t)
  | wait (m : μ) (next : P t)
  | asleep (c : κ) (woken : P t)
  | signal (c : κ) (next : P t)
  | act (f : σ → Effect σ P t)
  | join (u : τ) (next : P t)
  | halt

/-- The shared data, who owns the mutexes, where the threads are, and which there are. -/
structure Sys (σ μ : Type) {τ : Type} (P : τ → Type) where
  data : σ
  owner : μ → Option τ
  place : (t : τ) → Option (P t)
  threads : List τ

variable [DecidableEq τ] [DecidableEq μ] [DecidableEq κ]

def Sys.goto (s : Sys σ μ P) (t : τ) (p : P t) : Sys σ μ P :=
  { s with place := Function.update s.place t (some p) }

def Sys.take (s : Sys σ μ P) (m : μ) (t : τ) : Sys σ μ P :=
  { s with owner := Function.update s.owner m (some t) }

def Sys.give (s : Sys σ μ P) (m : μ) : Sys σ μ P :=
  { s with owner := Function.update s.owner m none }

def Sys.spawn (s : Sys σ μ P) : Option (Sigma P) → Sys σ μ P
  | none => s
  | some ⟨t, p⟩ => { s.goto t p with threads := s.threads ++ [t] }

def Sys.perform (s : Sys σ μ P) (t : τ) (e : Effect σ P t) : Sys σ μ P :=
  ({ s with data := e.data }.spawn e.spawned).goto t e.next

variable (code : (t : τ) → P t → Instr σ μ κ P t)

/-- Where `t` goes when it is woken, if it is asleep on `c`. -/
def Sys.asleepOn (s : Sys σ μ P) (c : κ) (t : τ) : Option (P t) :=
  match s.place t with
  | none => none
  | some p =>
      match code t p with
      | .asleep c' woken => if c' = c then some woken else none
      | _ => none

/-- The thread has ended. -/
def Sys.halted (s : Sys σ μ P) (t : τ) : Bool :=
  match s.place t with
  | none => false
  | some p =>
      match code t p with
      | .halt => true
      | _ => false

/-- Thread `t` makes a step; a signal wakes the thread picked, if any is asleep. -/
def Sys.step (s : Sys σ μ P) (t : τ) (pick : Option τ) : Option (Sys σ μ P) :=
  match s.place t with
  | none => none
  | some p =>
      match code t p with
      | .lock m next => if s.owner m = none then some ((s.take m t).goto t next) else none
      | .unlock m next => some ((s.give m).goto t next)
      | .wait m next => some ((s.give m).goto t next)
      | .asleep _ _ => none
      | .signal c next =>
          match pick with
          | none =>
              if s.threads.all fun u => (s.asleepOn code c u).isNone then some (s.goto t next)
              else none
          | some u => (s.asleepOn code c u).map fun woken => (s.goto u woken).goto t next
      | .act f => some (s.perform t (f s.data))
      | .join u next => if s.halted code u then some (s.goto t next) else none
      | .halt => none

/-! ## The steps -/

variable {code}

/-- The steps of thread `t` from place `p`, by the instruction there. -/
inductive Moves (code : (t : τ) → P t → Instr σ μ κ P t) (s : Sys σ μ P) (t : τ) (pick : Option τ)
    (p : P t) : Sys σ μ P → Prop
  | lock {m : μ} {next : P t} : code t p = .lock m next → s.owner m = none →
      Moves code s t pick p ((s.take m t).goto t next)
  | give {m : μ} {next : P t} : code t p = .unlock m next ∨ code t p = .wait m next →
      Moves code s t pick p ((s.give m).goto t next)
  | wake {c : κ} {next : P t} {u : τ} {woken : P u} : code t p = .signal c next →
      pick = some u → s.asleepOn code c u = some woken →
      Moves code s t pick p ((s.goto u woken).goto t next)
  | lost {c : κ} {next : P t} : code t p = .signal c next → pick = none →
      (∀ u ∈ s.threads, s.asleepOn code c u = none) → Moves code s t pick p (s.goto t next)
  | act {f : σ → Effect σ P t} : code t p = .act f →
      Moves code s t pick p (s.perform t (f s.data))
  | join {u : τ} {next : P t} : code t p = .join u next → s.halted code u = true →
      Moves code s t pick p (s.goto t next)

variable {s s' : Sys σ μ P} {t u : τ} {pick : Option τ} {p : P t} {m : μ}

theorem moves_of_step (h : s.step code t pick = some s') :
    ∃ p, s.place t = some p ∧ Moves code s t pick p s' := by
  unfold Sys.step at h
  -- one case for each instruction
  split at h
  · cases h
  · rename_i p hp
    refine ⟨p, hp, ?_⟩
    split at h
    · rename_i hc
      split at h
      · cases h
        exact .lock hc ‹_›
      · cases h
    · rename_i hc
      cases h
      exact .give (.inl hc)
    · rename_i hc
      cases h
      exact .give (.inr hc)
    · cases h
    · rename_i hc
      split at h
      · split at h
        · rename_i hall
          cases h
          exact .lost hc rfl fun u ht' => by simpa using List.all_eq_true.mp hall u ht'
        · cases h
      · obtain ⟨woken, hw, rfl⟩ := Option.map_eq_some_iff.mp h
        exact .wake hc rfl hw
    · rename_i hc
      cases h
      exact .act hc
    · rename_i hc
      split at h
      · cases h
        exact .join hc ‹_›
      · cases h
    · cases h

theorem asleepOn_eq_some {c : κ} {woken : P t} (h : s.asleepOn code c t = some woken) :
    ∃ p, s.place t = some p ∧ code t p = .asleep c woken := by
  unfold Sys.asleepOn at h
  split at h
  · cases h
  · rename_i p hp
    split at h
    · rename_i hc
      split at h
      · rename_i heq
        subst heq
        cases h
        exact ⟨p, hp, hc⟩
      · cases h
    · cases h

theorem asleepOn_of {c : κ} {woken : P t} (hp : s.place t = some p)
    (hc : code t p = .asleep c woken) : s.asleepOn code c t = some woken := by
  simp [Sys.asleepOn, hp, hc]

theorem halted_iff : s.halted code t = true ↔ ∃ p, s.place t = some p ∧ code t p = .halt := by
  unfold Sys.halted
  constructor
  · intro h
    split at h
    · cases h
    · rename_i p hp
      split at h
      · exact ⟨p, hp, ‹_›⟩
      · cases h
  · rintro ⟨p, hp, hc⟩
    simp [hp, hc]

@[simp] theorem goto_place_self (s : Sys σ μ P) (t : τ) (p : P t) :
    (s.goto t p).place t = some p := Function.update_self _ _ _

theorem goto_place_ne (s : Sys σ μ P) {t u : τ} (p : P t) (h : u ≠ t) :
    (s.goto t p).place u = s.place u := Function.update_of_ne h _ _

/-! ## What a step does to the thread that makes it, and to the others -/

/-- The data and the next place of a thread that gets past its instruction. -/
def Instr.result (x : σ) : Instr σ μ κ P t → Option (σ × P t)
  | .lock _ next => some (x, next)
  | .unlock _ next => some (x, next)
  | .wait _ next => some (x, next)
  | .asleep _ _ => none
  | .signal _ next => some (x, next)
  | .act f => some ((f x).data, (f x).next)
  | .join _ next => some (x, next)
  | .halt => none

theorem Moves.result (hm : Moves code s t pick p s') :
    ∃ p', s'.place t = some p' ∧ (code t p).result s.data = some (s'.data, p') := by
  cases hm with
  | lock hc _ => exact ⟨_, goto_place_self _ _ _, by rw [hc]; rfl⟩
  | give hc => rcases hc with hc | hc <;> exact ⟨_, goto_place_self _ _ _, by rw [hc]; rfl⟩
  | wake hc _ _ => exact ⟨_, goto_place_self _ _ _, by rw [hc]; rfl⟩
  | lost hc _ _ => exact ⟨_, goto_place_self _ _ _, by rw [hc]; rfl⟩
  | @act f hc =>
      refine ⟨_, goto_place_self _ _ _, ?_⟩
      have hdata : (s.perform t (f s.data)).data = (f s.data).data := by
        unfold Sys.perform Sys.spawn
        split <;> rfl
      rw [hc, hdata]
      rfl
  | join hc _ => exact ⟨_, goto_place_self _ _ _, by rw [hc]; rfl⟩

/-- The step leaves another thread where it is, wakes it up, or makes it. -/
theorem Moves.other (hm : Moves code s t pick p s') (hne : u ≠ t) :
    s'.place u = s.place u
      ∨ (∃ q c woken, s.place u = some q ∧ code u q = .asleep c woken ∧ s'.place u = some woken)
      ∨ ∃ f q, code t p = .act f ∧ (f s.data).spawned = some ⟨u, q⟩ ∧ s'.place u = some q := by
  cases hm with
  | lock _ _ => exact .inl (goto_place_ne _ _ hne)
  | give _ => exact .inl (goto_place_ne _ _ hne)
  | @wake c next t'' woken hc _ hw =>
      -- `u` may be the thread that is woken
      by_cases ht : u = t''
      · subst ht
        obtain ⟨q, hq, hc'⟩ := asleepOn_eq_some hw
        exact .inr (.inl ⟨q, c, woken, hq, hc', (goto_place_ne _ _ hne).trans
          (goto_place_self _ _ _)⟩)
      · exact .inl ((goto_place_ne _ _ hne).trans (goto_place_ne _ _ ht))
  | lost _ _ _ => exact .inl (goto_place_ne _ _ hne)
  | @act f hc =>
      have hplace : (s.perform t (f s.data)).place u
          = ({ s with data := (f s.data).data }.spawn (f s.data).spawned).place u :=
        goto_place_ne _ _ hne
      rw [hplace]
      cases hs : (f s.data).spawned with
      | none => exact .inl rfl
      | some y =>
          -- `u` may be the thread that is started
          by_cases hy : u = y.1
          · obtain ⟨_, q⟩ := y
            subst hy
            exact .inr (.inr ⟨f, q, hc, hs, goto_place_self _ _ _⟩)
          · exact .inl (goto_place_ne _ _ hy)
  | join _ _ => exact .inl (goto_place_ne _ _ hne)

theorem Moves.spawned {f : σ → Effect σ P t} {q : P u} (hm : Moves code s t pick p s')
    (hc : code t p = .act f) (hs : (f s.data).spawned = some ⟨u, q⟩) (hne : u ≠ t) :
    s'.place u = some q := by
  cases hm with
  | @act f' hc' =>
      rw [hc] at hc'
      cases hc'
      have hplace : (s.perform t (f s.data)).place u
          = ({ s with data := (f s.data).data }.spawn (f s.data).spawned).place u :=
        goto_place_ne _ _ hne
      rw [hplace, hs]
      exact goto_place_self _ _ _
  | lock hc' _ => rw [hc] at hc'; cases hc'
  | give hc' => rcases hc' with hc' | hc' <;> rw [hc] at hc' <;> cases hc'
  | wake hc' _ _ => rw [hc] at hc'; cases hc'
  | lost hc' _ _ => rw [hc] at hc'; cases hc'
  | join hc' _ => rw [hc] at hc'; cases hc'

theorem Moves.joined {next : P t} (hm : Moves code s t pick p s') (hc : code t p = .join u next) :
    s.halted code u = true := by
  cases hm with
  | lock hc' _ => rw [hc] at hc'; cases hc'
  | give hc' => rcases hc' with hc' | hc' <;> rw [hc] at hc' <;> cases hc'
  | wake hc' _ _ => rw [hc] at hc'; cases hc'
  | lost hc' _ _ => rw [hc] at hc'; cases hc'
  | act hc' => rw [hc] at hc'; cases hc'
  | join hc' hh =>
      rw [hc] at hc'
      cases hc'
      exact hh

/-- A thread that exists goes on existing. -/
theorem Moves.place_ne_none (hm : Moves code s t pick p s') (hne : s.place u ≠ none) :
    s'.place u ≠ none := by
  by_cases heq : u = t
  · subst heq
    obtain ⟨p', hp', -⟩ := hm.result
    rw [hp']
    exact Option.some_ne_none _
  · rcases hm.other heq with hsame | ⟨_, _, _, _, _, hw⟩ | ⟨_, _, _, _, hq⟩
    · rwa [hsame]
    · rw [hw]
      exact Option.some_ne_none _
    · rw [hq]
      exact Option.some_ne_none _

/-- A thread that is made is new. -/
def Fresh (code : (t : τ) → P t → Instr σ μ κ P t) (s : Sys σ μ P) (t : τ) (p : P t) : Prop :=
  ∀ f, code t p = .act f → ∀ y, (f s.data).spawned = some y → s.place y.1 = none

/-- What the steps of others can do to a thread: it stays, or is woken. -/
def Wakes (code : (t : τ) → P t → Instr σ μ κ P t) (t : τ) (q q' : P t) : Prop :=
  q' = q ∨ ∃ c, code t q = .asleep c q'

theorem Moves.wakes_other {q : P u} (hm : Moves code s t pick p s') (hnew : Fresh code s t p)
    (hne : u ≠ t) (hq : s.place u = some q) : ∃ q', s'.place u = some q' ∧ Wakes code u q q' := by
  rcases hm.other hne with hsame | ⟨r, c, woken, hr, hc, hw⟩ | ⟨f, r, hc, hs, -⟩
  · exact ⟨q, hsame.trans hq, .inl rfl⟩
  · rw [hq] at hr
    cases hr
    exact ⟨woken, hw, .inr ⟨c, hc⟩⟩
  · have hnone := hnew f hc _ hs
    rw [hq] at hnone
    cases hnone

/-- Every thread there is is in the list. -/
def Sys.Listed (s : Sys σ μ P) : Prop := ∀ t, s.place t ≠ none → t ∈ s.threads

theorem Sys.Listed.goto (h : s.Listed) (hp : s.place t ≠ none) (q : P t) : (s.goto t q).Listed := by
  intro u ht'
  by_cases heq : u = t
  · rw [heq]
    exact h t hp
  · rw [goto_place_ne _ _ heq] at ht'
    exact h u ht'

theorem listed_step (h : s.Listed) (hp : s.place t = some p) (hm : Moves code s t pick p s') :
    s'.Listed := by
  have hne : s.place t ≠ none := by rw [hp]; exact Option.some_ne_none _
  cases hm with
  | lock _ _ => exact Sys.Listed.goto (s := s.take _ t) h hne _
  | give _ => exact Sys.Listed.goto (s := s.give _) h hne _
  | @wake c next u woken _ _ hw =>
      obtain ⟨q, hq, -⟩ := asleepOn_eq_some hw
      have hq' : s.place u ≠ none := by rw [hq]; exact Option.some_ne_none _
      refine (h.goto hq' woken).goto ?_ _
      by_cases heq : t = u
      · subst heq
        rw [goto_place_self]
        exact Option.some_ne_none _
      · rwa [goto_place_ne _ _ heq]
  | lost _ _ _ => exact h.goto hne _
  | @act f _ =>
      intro u ht'
      unfold Sys.perform at ht' ⊢
      cases hs : (f s.data).spawned with
      | none =>
          rw [hs] at ht'
          exact Sys.Listed.goto (s := { s with data := (f s.data).data }) h hne _ u ht'
      | some y =>
          rw [hs] at ht'
          -- the thread started is added at the end
          show u ∈ s.threads ++ [y.1]
          rw [List.mem_append, List.mem_singleton]
          by_cases heq : u = t
          · subst heq
            exact .inl (h u hne)
          · by_cases hy : u = y.1
            · exact .inr hy
            · refine .inl (h u ?_)
              rw [goto_place_ne _ _ heq] at ht'
              have hplace : ({ s with data := (f s.data).data }.spawn (some y)).place u
                  = s.place u := goto_place_ne _ _ hy
              rwa [hplace] at ht'
  | join _ _ => exact h.goto hne _

/-- A signal wakes the only thread asleep on its condition variable. -/
theorem Moves.wakes {c : κ} {next : P t} {q woken : P u} (hm : Moves code s t pick p s')
    (hc : code t p = .signal c next) (hl : s.Listed) (hq : s.place u = some q)
    (hc' : code u q = .asleep c woken)
    (honly : ∀ t'', s.asleepOn code c t'' ≠ none → pick = some t'' → t'' = u) (hne : u ≠ t) :
    s'.place u = some woken := by
  have hasleep := asleepOn_of hq hc'
  cases hm with
  | lock h _ => rw [hc] at h; cases h
  | give h => rcases h with h | h <;> rw [hc] at h <;> cases h
  | @wake c' _ t'' woken' h hpick hw =>
      rw [hc] at h
      cases h
      have ht'' : t'' = u := honly t'' (by rw [hw]; exact Option.some_ne_none _) hpick
      subst ht''
      rw [hasleep] at hw
      cases hw
      rw [goto_place_ne _ _ hne, goto_place_self]
  | @lost c' _ h _ hall =>
      rw [hc] at h
      cases h
      have hnone := hall u (hl u (by rw [hq]; exact Option.some_ne_none _))
      rw [hasleep] at hnone
      cases hnone
  | act h => rw [hc] at h; cases h
  | join h _ => rw [hc] at h; cases h

/-! ## Who holds what -/

/-- A place with this instruction and with `h` held there. -/
def Instr.Fits (holds : (t : τ) → P t → Option μ) (h : Option μ) : Instr σ μ κ P t → Prop
  | .lock m next => h = none ∧ holds t next = some m
  | .unlock m next => h = some m ∧ holds t next = none
  | .wait m next => h = some m ∧ holds t next = none
  | .asleep _ woken => h = none ∧ holds t woken = none
  | .signal _ next => holds t next = h
  | .act f => ∀ x, holds t (f x).next = h ∧ ∀ y, (f x).spawned = some y → holds y.1 y.2 = none
  | .join _ next => h = none ∧ holds t next = none
  | .halt => h = none

/-- What a thread holds can be told from its place. -/
def Disciplined (code : (t : τ) → P t → Instr σ μ κ P t) (holds : (t : τ) → P t → Option μ) :
    Prop :=
  ∀ t p, (code t p).Fits holds (holds t p)

variable {holds : (t : τ) → P t → Option μ}

def Sys.holding (holds : (t : τ) → P t → Option μ) (s : Sys σ μ P) (t : τ) : Option μ :=
  (s.place t).bind (holds t)

/-- The owners are those who hold. -/
def Exclusive (holds : (t : τ) → P t → Option μ) (s : Sys σ μ P) : Prop :=
  ∀ m t, s.owner m = some t ↔ s.holding holds t = some m

theorem holding_of (hp : s.place t = some p) : s.holding holds t = holds t p := by
  rw [Sys.holding, hp, Option.bind_some]

/-- **Mutual exclusion.** -/
theorem Exclusive.unique (h : Exclusive holds s) {p' : P u} (hp : s.place t = some p)
    (hp' : s.place u = some p') (hm : holds t p = some m) (hm' : holds u p' = some m) :
    t = u := by
  have ht := (h m t).mpr ((holding_of hp).trans hm)
  have ht' := (h m u).mpr ((holding_of hp').trans hm')
  exact Option.some.inj (ht.symm.trans ht')

/-- Nobody's holding changes but that of `t`, which takes or gives back `m`, or neither. -/
theorem Exclusive.change (h : Exclusive holds s)
    (hother : ∀ u, u ≠ t → s'.holding holds u = s.holding holds u)
    (hself : (s'.owner = s.owner ∧ s'.holding holds t = s.holding holds t)
      ∨ (∃ m, s.owner m = none ∧ s.holding holds t = none
        ∧ s'.owner = Function.update s.owner m (some t) ∧ s'.holding holds t = some m)
      ∨ ∃ m, s.holding holds t = some m ∧ s'.owner = Function.update s.owner m none
        ∧ s'.holding holds t = none) : Exclusive holds s' := by
  intro m' u
  by_cases htt : u = t
  · subst htt
    -- the thread that moves keeps, takes or gives back one mutex
    rcases hself with ⟨ho, hh⟩ | ⟨m, hfree, hnone, ho, hh⟩ | ⟨m, hm, ho, hh⟩
    · rw [ho, hh]
      exact h m' u
    · rw [ho, hh]
      by_cases hmm : m' = m
      · subst hmm
        simp
      · rw [Function.update_of_ne hmm, h m' u, hnone]
        simp [Ne.symm hmm]
    · rw [ho, hh]
      by_cases hmm : m' = m
      · subst hmm
        simp
      · rw [Function.update_of_ne hmm, h m' u, hm]
        simp [Ne.symm hmm]
  · rw [hother u htt]
    -- another thread holds none of those taken or given back
    rcases hself with ⟨ho, -⟩ | ⟨m, hfree, -, ho, -⟩ | ⟨m, hm, ho, -⟩
    · rw [ho]
      exact h m' u
    · rw [ho]
      by_cases hmm : m' = m
      · subst hmm
        have hnot : ¬ s.owner m' = some u := by rw [hfree]; simp
        rw [h m' u] at hnot
        simp [Ne.symm htt, hnot]
      · rw [Function.update_of_ne hmm]
        exact h m' u
    · rw [ho]
      by_cases hmm : m' = m
      · subst hmm
        have hown := (h m' t).mpr hm
        have hnot : ¬ s.owner m' = some u := by
          rw [hown]
          simpa using Ne.symm htt
        rw [h m' u] at hnot
        simp [hnot]
      · rw [Function.update_of_ne hmm]
        exact h m' u

theorem holding_goto_self (s : Sys σ μ P) (t : τ) (q : P t) :
    (s.goto t q).holding holds t = holds t q := holding_of (goto_place_self s t q)

theorem holding_goto_ne (s : Sys σ μ P) {t u : τ} (q : P t) (h : u ≠ t) :
    (s.goto t q).holding holds u = s.holding holds u := by
  rw [Sys.holding, goto_place_ne s q h, Sys.holding]

/-- A thread that exists moves to a place where it holds what it held. -/
theorem Exclusive.goto (h : Exclusive holds s) {q : P t} (hp : s.place t = some p)
    (hq : holds t q = holds t p) : Exclusive holds (s.goto t q) := by
  refine h.change (t := t) (fun u ht' => holding_goto_ne s q ht') (.inl ⟨rfl, ?_⟩)
  rw [holding_goto_self, hq, holding_of hp]

/-- A new thread holds nothing. -/
theorem Exclusive.spawn (h : Exclusive holds s) {y : Sigma P} (hnew : s.place y.1 = none)
    (hy : holds y.1 y.2 = none) : Exclusive holds (s.spawn (some y)) := by
  refine h.change (t := y.1) (fun u ht' => holding_goto_ne _ _ ht') (.inl ⟨rfl, ?_⟩)
  have hnone : s.holding holds y.1 = none := by rw [Sys.holding, hnew, Option.bind_none]
  rw [hnone]
  exact (holding_goto_self s y.1 y.2).trans hy

/-- **A step of a disciplined program keeps the owners right**; a new thread is new. -/
theorem exclusive_step (hd : Disciplined code holds) (h : Exclusive holds s)
    (hp : s.place t = some p) (hm : Moves code s t pick p s') (hnew : Fresh code s t p) :
    Exclusive holds s' := by
  have hfits := hd t p
  cases hm with
  | @lock m next hc hfree =>
      rw [hc] at hfits
      refine h.change (t := t) (fun u ht' => holding_goto_ne _ _ ht') (.inr (.inl ⟨m, hfree, ?_,
        rfl, ?_⟩))
      · rw [holding_of hp, hfits.1]
      · exact (holding_goto_self _ _ _).trans hfits.2
  | @give m next hc =>
      have hgive : holds t p = some m ∧ holds t next = none := by
        rcases hc with hc | hc <;> rw [hc] at hfits <;> exact hfits
      refine h.change (t := t) (fun u ht' => holding_goto_ne _ _ ht') (.inr (.inr ⟨m, ?_, rfl, ?_⟩))
      · rw [holding_of hp, hgive.1]
      · exact (holding_goto_self _ _ _).trans hgive.2
  | @wake c next u woken hc _ hw =>
      rw [hc] at hfits
      obtain ⟨p', hp', hc'⟩ := asleepOn_eq_some hw
      have hfits' := hd u p'
      rw [hc'] at hfits'
      have hne : t ≠ u := by
        rintro rfl
        rw [hp] at hp'
        cases hp'
        rw [hc] at hc'
        cases hc'
      -- neither holds a mutex, before or after
      have hwoken := h.goto hp' (q := woken) (hfits'.2.trans hfits'.1.symm)
      exact hwoken.goto (t := t) (p := p) (by rw [goto_place_ne _ _ hne, hp]) hfits
  | lost hc _ _ =>
      rw [hc] at hfits
      exact h.goto hp hfits
  | @act f hc =>
      rw [hc] at hfits
      obtain ⟨hnext, hspawn⟩ := hfits s.data
      have hdata : Exclusive holds { s with data := (f s.data).data } := h
      unfold Sys.perform
      cases hs : (f s.data).spawned with
      | none => exact hdata.goto hp hnext
      | some y =>
          have hy := hnew f hc y hs
          have hne : t ≠ y.1 := fun heq => by
            rw [← heq, hp] at hy
            cases hy
          refine (hdata.spawn hy (hspawn y hs)).goto ?_ hnext
          exact (goto_place_ne _ _ hne).trans hp
  | join hc _ =>
      rw [hc] at hfits
      exact h.goto hp (hfits.2.trans hfits.1.symm)

/-! ## When nothing moves -/

/-- A signal never blocks: it wakes somebody or is lost. -/
theorem signal_moves {c : κ} {next : P t} (hp : s.place t = some p)
    (hc : code t p = .signal c next) : ∃ pick, s.step code t pick ≠ none := by
  by_cases hall : ∀ u ∈ s.threads, s.asleepOn code c u = none
  · refine ⟨none, ?_⟩
    have hall' : (s.threads.all fun u => (s.asleepOn code c u).isNone) = true := by
      rw [List.all_eq_true]
      intro u ht'
      rw [hall u ht']
      rfl
    simp [Sys.step, hp, hc, hall']
  · push Not at hall
    obtain ⟨u, -, hne⟩ := hall
    obtain ⟨woken, hw⟩ := Option.ne_none_iff_exists'.mp hne
    exact ⟨some u, by simp [Sys.step, hp, hc, hw]⟩

/-- **In a state without a step** every thread is asleep, waits for one that has not ended, or has
ended. -/
theorem stuck_cases (hd : Disciplined code holds) (h : Exclusive holds s)
    (hstuck : ∀ t pick, s.step code t pick = none) (hp : s.place t = some p) :
    (∃ c woken, code t p = .asleep c woken)
      ∨ (∃ u next, code t p = .join u next ∧ s.halted code u = false) ∨ code t p = .halt := by
  -- whoever holds a mutex can go on
  have hnone : ∀ t p, s.place t = some p → holds t p = none := by
    intro t p hp
    cases hh : holds t p with
    | none => rfl
    | some m =>
        have hfits := hd t p
        rw [hh] at hfits
        have hst := hstuck t
        cases hc : code t p with
        | lock m' next => rw [hc] at hfits; cases hfits.1
        | asleep c woken => rw [hc] at hfits; cases hfits.1
        | join u next => rw [hc] at hfits; cases hfits.1
        | halt => rw [hc] at hfits; cases hfits
        | unlock m' next => have := hst none; simp [Sys.step, hp, hc] at this
        | wait m' next => have := hst none; simp [Sys.step, hp, hc] at this
        | act f => have := hst none; simp [Sys.step, hp, hc] at this
        | signal c next => exact absurd (signal_moves hp hc) (by simp [hst])
  cases hc : code t p with
  | lock m next =>
      have hfree : s.owner m = none := by
        cases ho : s.owner m with
        | none => rfl
        | some u =>
            have hhold := (h m u).mp ho
            obtain ⟨p', hp', hm'⟩ := Option.bind_eq_some_iff.mp hhold
            rw [hnone u p' hp'] at hm'
            cases hm'
      have := hstuck t none
      simp [Sys.step, hp, hc, hfree] at this
  | unlock m next => have := hstuck t none; simp [Sys.step, hp, hc] at this
  | wait m next => have := hstuck t none; simp [Sys.step, hp, hc] at this
  | asleep c woken => exact .inl ⟨c, woken, rfl⟩
  | signal c next => exact absurd (signal_moves hp hc) (by simp [hstuck])
  | act f => have := hstuck t none; simp [Sys.step, hp, hc] at this
  | join u next =>
      refine .inr (.inl ⟨u, next, rfl, ?_⟩)
      have := hstuck t none
      cases hh : s.halted code u with
      | false => rfl
      | true => simp [Sys.step, hp, hc, hh] at this
  | halt => exact .inr (.inr rfl)

/-- The thread cannot make a step, as can be seen from its place. -/
def Sys.blocked (code : (t : τ) → P t → Instr σ μ κ P t) (s : Sys σ μ P) (t : τ) : Bool :=
  match s.place t with
  | none => true
  | some p =>
      match code t p with
      | .lock m _ => (s.owner m).isSome
      | .asleep _ _ => true
      | .join u _ => !s.halted code u
      | .halt => true
      | _ => false

theorem step_of_blocked (h : s.blocked code t = true) (pick : Option τ) :
    s.step code t pick = none := by
  unfold Sys.blocked at h
  unfold Sys.step
  cases hp : s.place t with
  | none => rfl
  | some p =>
      rw [hp] at h
      simp only at h ⊢
      cases hc : code t p with
      | lock m next =>
          rw [hc] at h
          obtain ⟨o, ho⟩ := Option.isSome_iff_exists.mp h
          simp [ho]
      | asleep c woken => rfl
      | join u next =>
          rw [hc] at h
          have hnot : s.halted code u = false := by simpa using h
          simp [hnot]
      | halt => rfl
      | _ => rw [hc] at h; cases h

/-! ## As a machine -/

/-- A label names the thread that moves and the thread that is woken. -/
def machine (code : (t : τ) → P t → Instr σ μ κ P t) (s₀ : Sys σ μ P) :
    Machine (Sys σ μ P) (τ × Option τ) where
  init := fun s => s = s₀
  next := fun s a => s.step code a.1 a.2

variable {s₀ : Sys σ μ P}

theorem listed_reachable (h₀ : s₀.Listed) (h : (machine code s₀).Reachable s) : s.Listed := by
  refine h.invariant (fun s hs => ?_) fun s a s' hl _ hs => ?_
  · rw [hs]
    exact h₀
  · obtain ⟨p, hp, hm⟩ := moves_of_step hs
    exact listed_step hl hp hm

theorem stuck_of_blocked (hl : s.Listed) (h : s.threads.all (s.blocked code) = true) :
    (machine code s₀).Stuck s := by
  intro a
  by_cases hp : s.place a.1 = none
  · exact step_of_blocked (by simp [Sys.blocked, hp]) a.2
  · exact step_of_blocked (List.all_eq_true.mp h a.1 (hl a.1 hp)) a.2

/-! ## The loop around a wait -/

/-- Where a thread is in `lock; while (!flag) wait; …`. -/
inductive Await
  | lock
  | test
  | sleep
  | asleep
  | woken
  deriving DecidableEq, Repr

/-- The loop, at a thread whose places in it are `place`, and which goes on at `out`. -/
def Await.instr (m : μ) (c : κ) (flag : σ → Bool) (place : Await → P t) (out : P t) :
    Await → Instr σ μ κ P t
  | .lock => .lock m (place .test)
  | .test => .act fun x => ⟨x, if flag x then out else place .sleep, none⟩
  | .sleep => .wait m (place .asleep)
  | .asleep => .asleep c (place .woken)
  | .woken => .lock m (place .test)

/-- What comes next in the loop, when the flag has this value; `none` is the way out. -/
inductive Await.Next (flag : Bool) : Await → Option Await → Prop
  | lock : Next flag .lock (some .test)
  | pass : flag = true → Next flag .test none
  | stay : flag = false → Next flag .test (some .sleep)
  | sleep : Next flag .sleep (some .asleep)
  | woken : Next flag .woken (some .test)

theorem Await.result_next {x x' : σ} {c : κ} {flag : σ → Bool} {place : Await → P t} {out p' : P t}
    {w : Await} (hr : (w.instr m c flag place out).result x = some (x', p')) :
    x' = x ∧ ∃ o, Await.Next (flag x) w o ∧ p' = o.elim out place := by
  cases w with
  | lock => cases hr; exact ⟨rfl, _, .lock, rfl⟩
  | test =>
      cases hr
      refine ⟨rfl, ?_⟩
      cases hf : flag x with
      | true => exact ⟨none, .pass rfl, by simp [hf]⟩
      | false => exact ⟨some .sleep, .stay rfl, by simp [hf]⟩
  | sleep => cases hr; exact ⟨rfl, _, .sleep, rfl⟩
  | asleep => cases hr
  | woken => cases hr; exact ⟨rfl, _, .woken, rfl⟩

theorem Await.spawned {x : σ} {c : κ} {flag : σ → Bool} {place : Await → P t} {out : P t}
    {w : Await} {f : σ → Effect σ P t} (hc : w.instr m c flag place out = .act f) :
    (f x).spawned = none := by
  cases w <;> cases hc
  rfl

/-- The mutex held in the loop. -/
def Await.held (m : μ) : Await → Option μ
  | .test => some m
  | .sleep => some m
  | _ => none

theorem Await.fits {c : κ} {flag : σ → Bool} {place : Await → P t} {out : P t}
    (hplace : ∀ w, holds t (place w) = w.held m) (hout : holds t out = some m) (w : Await) :
    (w.instr m c flag place out).Fits holds (w.held m) := by
  cases w with
  | lock => exact ⟨rfl, hplace .test⟩
  | test =>
      intro x
      refine ⟨?_, fun y hy => by cases hy⟩
      by_cases hf : flag x = true
      · simp [hf, hout, Await.held]
      · simp [hf, hplace, Await.held]
  | sleep => exact ⟨rfl, hplace .asleep⟩
  | asleep => exact ⟨rfl, hplace .woken⟩
  | woken => exact ⟨rfl, hplace .test⟩

/-- Thread `u` has this loop, and only enters it at its lock. -/
structure HasLoop (code : (t : τ) → P t → Instr σ μ κ P t) (u : τ) (m : μ) (c : κ) (flag : σ → Bool)
    (place : Await → P u) (out : P u) : Prop where
  instr : ∀ w, code u (place w) = w.instr m c flag place out
  enters : ∀ p x x' w, (code u p).result x = some (x', place w) →
    w = .lock ∨ x' = x ∧ ∃ w', p = place w' ∧ Await.Next (flag x) w' (some w)
  wakes : ∀ q c' w, code u q = .asleep c' (place w) → w = .woken
  makes : ∀ t p f x w, code t p = .act f → (f x).spawned ≠ some ⟨u, place w⟩

/-- No wakeup is lost: before `u` falls asleep the flag is not set, and while it sleeps the flag is
not set, or a thread is on its way to the signal. -/
structure NoLostWakeup (u : τ) (flag : σ → Bool) (place : Await → P u)
    (posting : (t : τ) → P t → Prop) (s : Sys σ μ P) : Prop where
  sleep : s.place u = some (place .sleep) → flag s.data = false
  asleep : s.place u = some (place .asleep) →
    flag s.data = false ∨ ∃ t p, s.place t = some p ∧ posting t p

variable {c : κ} {flag : σ → Bool} {place : Await → P u} {out : P u}
  {posting : (t : τ) → P t → Prop}

/-- The loop's own steps. -/
theorem NoLostWakeup.own (hloop : HasLoop code u m c flag place out)
    (h : NoLostWakeup u flag place posting s) {p : P u} (hp : s.place u = some p)
    (hm : Moves code s u pick p s') : NoLostWakeup u flag place posting s' := by
  obtain ⟨p', hp', hr⟩ := hm.result
  refine ⟨fun hs => ?_, fun hs => .inl ?_⟩
  · rw [hp'] at hs
    cases hs
    obtain hw | ⟨hdata, w, -, hnext⟩ := hloop.enters p _ _ _ hr
    · cases hw
    · cases hnext with
      | stay hflag => rwa [hdata]
  · rw [hp'] at hs
    cases hs
    obtain hw | ⟨hdata, w, rfl, hnext⟩ := hloop.enters p _ _ _ hr
    · cases hw
    · cases hnext
      rw [hdata]
      exact h.sleep hp

/-- **No wakeup gets lost** if whoever sets the flag holds the mutex and is on the way to the signal
then, and stays on the way until the signal, or until the flag is taken back. -/
theorem NoLostWakeup.other (hloop : HasLoop code u m c flag place out)
    (h : NoLostWakeup u flag place posting s) (hd : Disciplined code holds)
    (hex : Exclusive holds s) (hl : s.Listed) (hp : s.place t = some p)
    (hm : Moves code s t pick p s') (hnew : Fresh code s t p) (hne : u ≠ t)
    (hset : ∀ p', (code t p).result s.data = some (s'.data, p') → flag s.data = false →
      flag s'.data = true → holds t p = some m ∧ posting t p')
    (hpost : ∀ p', (code t p).result s.data = some (s'.data, p') → posting t p →
      posting t p' ∨ code t p = .signal c p' ∨ flag s'.data = false)
    (hawake : ∀ t p, posting t p → ∀ c' w, code t p ≠ .asleep c' w)
    (honly : ∀ t'', s.place u = some (place .asleep) → s.asleepOn code c t'' ≠ none →
      pick = some t'' → t'' = u) : NoLostWakeup u flag place posting s' := by
  obtain ⟨p', hp', hr⟩ := hm.result
  -- nobody but `u` gets to `u`'s places
  have hold : ∀ w, w ≠ .woken → s'.place u = some (place w) → s.place u = some (place w) := by
    intro w hw hs
    rcases hm.other hne with hsame | ⟨q, c', woken, _, hc', hq'⟩ | ⟨f, q, hc', hs', hq'⟩
    · exact hsame ▸ hs
    · rw [hs] at hq'
      cases hq'
      exact absurd (hloop.wakes q c' w hc') hw
    · rw [hs] at hq'
      cases hq'
      exact absurd hs' (hloop.makes _ _ _ _ _ hc')
  refine ⟨fun hs => ?_, fun hs => ?_⟩
  · have hs' := hold .sleep nofun hs
    have hflag := h.sleep hs'
    by_contra hnot
    have hholds := (hset p' hr hflag (by simpa using hnot)).1
    have hfits := hd u (place .sleep)
    rw [hloop.instr] at hfits
    exact hne (hex.unique hs' hp hfits.1 hholds)
  · have hs' := hold .asleep nofun hs
    rcases h.asleep hs' with hflag | ⟨t₁, p₁, hp₁, hposting⟩
    · cases hflag' : flag s'.data with
      | false => exact .inl rfl
      | true => exact .inr ⟨t, p', hp', (hset p' hr hflag hflag').2⟩
    · by_cases ht : t₁ = t
      · subst ht
        obtain rfl : p₁ = p := Option.some.inj (hp₁.symm.trans hp)
        rcases hpost p' hr hposting with hnext | hsignal | hflag
        · exact .inr ⟨t₁, p', hp', hnext⟩
        · -- the signal wakes `u`
          have hwoken := hm.wakes hsignal hl hs' (hloop.instr .asleep) (fun t'' => honly t'' hs') hne
          rw [hs] at hwoken
          have heq := Option.some.inj hwoken
          have hc : code u (place .asleep) = .asleep c (place .woken) := hloop.instr .asleep
          rw [heq] at hc
          have hc' : code u (place .woken) = .lock m (place .test) := hloop.instr .woken
          rw [hc'] at hc
          cases hc
        · exact .inl hflag
      · obtain ⟨q, hq, rfl | ⟨c', hc'⟩⟩ := hm.wakes_other hnew ht hp₁
        · exact .inr ⟨t₁, q, hq, hposting⟩
        · exact absurd hc' (hawake _ _ hposting _ _)

end OSLab.Pthread
