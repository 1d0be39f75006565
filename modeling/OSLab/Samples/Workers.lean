import OSLab.Lib.Wakeups
import OSLab.Lib.Count

set_option autoImplicit false

/-! # The worker threads of `pthread/pthread.c`

The master makes `N` workers, sleeps, sets `mdone` and joins them. A worker looks at `mdone` under
`donemutex`. As long as it is not set, the worker picks an index and works on the arrays `A` and `C`
under `csmutex`. Once it is set, the worker adds one to `wdone` and waits for `donecond`, unless it is
the last, which broadcasts; the wait is not in a loop, so a spurious wakeup lets a worker through.

A step reads or writes one shared variable once, so a read-modify-write is two steps. `rand` gives
the results of `rand()` in the order of the calls: `init_arrays` makes the first `S` of them, the
name of each worker takes four. `count` holds the local variable of that name of each worker. The
model starts when the arrays have been initialised; a `pthread_create` that fails is left out.
-/

namespace OSLab.Samples.Workers

open Pthread

/-- The number of worker threads. -/
def N : Nat := 4

/-- The array size. -/
def S : Nat := 100

inductive Tid
  | master
  | worker (w : Nat)
  deriving DecidableEq, Repr

/-- `csmutex` and `donemutex`. -/
inductive MutexId
  | cs
  | done
  deriving DecidableEq, Repr

inductive MasterPc
  | create (i : Nat)
  | lock
  | setMdone
  | unlock
  | join (i : Nat)
  deriving DecidableEq, Repr

/-- Where a worker is in `tmain`: at the test of `mdone`, on the way out, or in a round. -/
inductive WorkerPc
  | lockDone
  | testMdone
  | readWdone
  | writeWdone (v : Nat)
  | testWdone
  | wait
  | asleep
  | woken
  | broadcast
  | unlockExit
  | exited
  | unlockDone
  | draw
  | lockCs (i : Nat)
  | readA (i : Nat)
  | writeA (i s : Nat)
  | readC (i : Nat)
  | writeC (i v : Nat)
  | unlockCs
  | addCount
  deriving DecidableEq, Repr

@[reducible] def PlaceOf : Tid → Type
  | .master => MasterPc
  | .worker _ => WorkerPc

/-- The variables, and how often `rand()` has been called. The entries of `C` and `count` are as in the
program as long as they are below `2 ^ 31`. -/
structure Shared where
  A : Nat → Nat
  C : Nat → Nat
  mdone : Bool
  wdone : Nat
  count : Nat → Nat
  calls : Nat

abbrev Code (t : Tid) : Type := Instr Shared MutexId Unit PlaceOf t

abbrev State : Type := Sys Shared MutexId PlaceOf

/-- `t = (s % 2 == 0) ? (s / 2) : (3 * s + 1)`. -/
def newValue (s : Nat) : Nat := if s % 2 = 0 then s / 2 else 3 * s + 1

def masterCode : MasterPc → Code .master
  | .create i => .act fun x =>
      if i < N then ⟨{ x with calls := x.calls + 4 }, .create (i + 1), some ⟨.worker i, .lockDone⟩⟩
      else ⟨x, .lock, none⟩
  | .lock => .lock .done .setMdone
  | .setMdone => .act fun x => ⟨{ x with mdone := true }, .unlock, none⟩
  | .unlock => .unlock .done (.join 0)
  | .join i => if i < N then .join (.worker i) (.join (i + 1)) else .halt

def workerCode (rand : Nat → Nat) (w : Nat) : WorkerPc → Code (.worker w)
  | .lockDone => .lock .done .testMdone
  | .testMdone => .act fun x => ⟨x, if x.mdone then .readWdone else .unlockDone, none⟩
  | .readWdone => .act fun x => ⟨x, .writeWdone x.wdone, none⟩
  | .writeWdone v => .act fun x => ⟨{ x with wdone := v + 1 }, .testWdone, none⟩
  | .testWdone => .act fun x => ⟨x, if x.wdone < N then .wait else .broadcast, none⟩
  | .wait => .wait .done .asleep
  | .asleep => .asleep () .woken
  | .woken => .lock .done .unlockExit
  | .broadcast => .signal () .unlockExit
  | .unlockExit => .unlock .done .exited
  | .exited => .halt
  | .unlockDone => .unlock .done .draw
  | .draw => .act fun x => ⟨{ x with calls := x.calls + 1 }, .lockCs (rand x.calls % S), none⟩
  | .lockCs i => .lock .cs (.readA i)
  | .readA i => .act fun x => ⟨x, .writeA i (x.A i), none⟩
  | .writeA i s => .act fun x =>
      ⟨{ x with A := Function.update x.A i (newValue s) }, .readC i, none⟩
  | .readC i => .act fun x => ⟨x, .writeC i (x.C i), none⟩
  | .writeC i v => .act fun x => ⟨{ x with C := Function.update x.C i (v + 1) }, .unlockCs, none⟩
  | .unlockCs => .unlock .cs .addCount
  | .addCount => .act fun x =>
      ⟨{ x with count := Function.update x.count w (x.count w + 1) }, .lockDone, none⟩

def code (rand : Nat → Nat) : (t : Tid) → PlaceOf t → Code t
  | .master => masterCode
  | .worker w => workerCode rand w

/-- The only signal is a broadcast. -/
def all : (t : Tid) → PlaceOf t → Bool := fun _ _ => true

/-- `A[i]` after `init_arrays`. -/
def initArrays (rand : Nat → Nat) (i : Nat) : Nat := 1 + rand i % 999

/-- The state `create_mutex` and `init_arrays` leave behind. -/
def start (rand : Nat → Nat) : State where
  data := ⟨initArrays rand, fun _ => 0, false, 0, fun _ => 0, S⟩
  owner := fun _ => none
  place
    | .master => some (.create 0)
    | .worker _ => none
  threads := [.master]

def machine (rand : Nat → Nat) : Machine State (Label Tid) := wakeMachine (code rand) all (start rand)

/-- The mutex a thread holds at a place. -/
def holds : (t : Tid) → PlaceOf t → Option MutexId
  | .master, .setMdone | .master, .unlock => some .done
  | .master, _ => none
  | .worker _, .testMdone | .worker _, .readWdone | .worker _, .writeWdone _
  | .worker _, .testWdone | .worker _, .wait | .worker _, .broadcast | .worker _, .unlockExit
  | .worker _, .unlockDone => some .done
  | .worker _, .readA _ | .worker _, .writeA _ _ | .worker _, .readC _ | .worker _, .writeC _ _
  | .worker _, .unlockCs => some .cs
  | .worker _, _ => none

variable {rand : Nat → Nat} {s s' : State} {w : Nat} {p p' : WorkerPc}

theorem disciplined : Disciplined (code rand) holds := by
  intro t p
  cases t with
  | master =>
      cases p with
      | create i =>
          intro x
          by_cases hi : i < N
          · simp only [hi, if_true]
            exact ⟨rfl, fun y hy => by cases hy; rfl⟩
          · simp only [hi, if_false]
            exact ⟨rfl, fun y hy => by cases hy⟩
      | join i =>
          by_cases hi : i < N
          · simp only [code, masterCode, hi, if_true]
            exact ⟨rfl, rfl⟩
          · simp only [code, masterCode, hi, if_false]
            exact rfl
      | setMdone => exact fun x => ⟨rfl, fun y hy => by cases hy⟩
      | lock => exact ⟨rfl, rfl⟩
      | unlock => exact ⟨rfl, rfl⟩
  | worker w =>
      cases p with
      | testMdone =>
          intro x
          refine ⟨?_, fun y hy => by cases hy⟩
          by_cases hm : x.mdone = true
          · simp [hm, holds]
          · simp [hm, holds]
      | testWdone =>
          intro x
          refine ⟨?_, fun y hy => by cases hy⟩
          by_cases hw : x.wdone < N
          · simp [hw, holds]
          · simp [hw, holds]
      | lockDone | wait | asleep | woken | unlockExit | unlockDone | lockCs i | unlockCs =>
          exact ⟨rfl, rfl⟩
      | broadcast | exited => exact rfl
      | _ => exact fun x => ⟨rfl, fun y hy => by cases hy⟩

/-! ## The steps -/

/-- What the master's step does to the variables, and where it leads. -/
inductive MasterMove (x : Shared) : MasterPc → Shared → MasterPc → Prop
  | create {i : Nat} : i < N →
      MasterMove x (.create i) { x with calls := x.calls + 4 } (.create (i + 1))
  | created {i : Nat} : ¬ i < N → MasterMove x (.create i) x .lock
  | lock : MasterMove x .lock x .setMdone
  | setMdone : MasterMove x .setMdone { x with mdone := true } .unlock
  | unlock : MasterMove x .unlock x (.join 0)
  | join {i : Nat} : i < N → MasterMove x (.join i) x (.join (i + 1))

/-- The same for worker `w`. -/
inductive WorkerMove (rand : Nat → Nat) (w : Nat) (x : Shared) : WorkerPc → Shared → WorkerPc → Prop
  | lockDone : WorkerMove rand w x .lockDone x .testMdone
  | leave : x.mdone = true → WorkerMove rand w x .testMdone x .readWdone
  | work : x.mdone = false → WorkerMove rand w x .testMdone x .unlockDone
  | readWdone : WorkerMove rand w x .readWdone x (.writeWdone x.wdone)
  | writeWdone {v : Nat} :
      WorkerMove rand w x (.writeWdone v) { x with wdone := v + 1 } .testWdone
  | notLast : x.wdone < N → WorkerMove rand w x .testWdone x .wait
  | last : ¬ x.wdone < N → WorkerMove rand w x .testWdone x .broadcast
  | wait : WorkerMove rand w x .wait x .asleep
  | woken : WorkerMove rand w x .woken x .unlockExit
  | broadcast : WorkerMove rand w x .broadcast x .unlockExit
  | unlockExit : WorkerMove rand w x .unlockExit x .exited
  | unlockDone : WorkerMove rand w x .unlockDone x .draw
  | draw : WorkerMove rand w x .draw { x with calls := x.calls + 1 } (.lockCs (rand x.calls % S))
  | lockCs {i : Nat} : WorkerMove rand w x (.lockCs i) x (.readA i)
  | readA {i : Nat} : WorkerMove rand w x (.readA i) x (.writeA i (x.A i))
  | writeA {i v : Nat} : WorkerMove rand w x (.writeA i v)
      { x with A := Function.update x.A i (newValue v) } (.readC i)
  | readC {i : Nat} : WorkerMove rand w x (.readC i) x (.writeC i (x.C i))
  | writeC {i v : Nat} : WorkerMove rand w x (.writeC i v)
      { x with C := Function.update x.C i (v + 1) } .unlockCs
  | unlockCs : WorkerMove rand w x .unlockCs x .addCount
  | addCount : WorkerMove rand w x .addCount
      { x with count := Function.update x.count w (x.count w + 1) } .lockDone

theorem masterMove_of_result {x x' : Shared} {p p' : MasterPc}
    (h : (masterCode p).result x = some (x', p')) : MasterMove x p x' p' := by
  cases p with
  | create i =>
      by_cases hi : i < N
      · simp only [masterCode, Instr.result, hi, if_true, Option.some.injEq, Prod.mk.injEq] at h
        obtain ⟨rfl, rfl⟩ := h
        exact .create hi
      · simp only [masterCode, Instr.result, hi, if_false, Option.some.injEq, Prod.mk.injEq] at h
        obtain ⟨rfl, rfl⟩ := h
        exact .created hi
  | lock => cases h; exact .lock
  | setMdone => cases h; exact .setMdone
  | unlock => cases h; exact .unlock
  | join i =>
      by_cases hi : i < N
      · simp only [masterCode, hi, if_true] at h
        cases h
        exact .join hi
      · simp only [masterCode, hi, if_false] at h
        cases h

theorem workerMove_of_result {x x' : Shared} (h : (workerCode rand w p).result x = some (x', p')) :
    WorkerMove rand w x p x' p' := by
  cases p with
  | testMdone =>
      cases h
      cases hm : x.mdone with
      | true =>
          simp only [hm, if_true]
          exact .leave hm
      | false =>
          simp only [hm, Bool.false_eq_true, if_false]
          exact .work hm
  | testWdone =>
      cases h
      by_cases hw : x.wdone < N
      · simp only [hw, if_true]
        exact .notLast hw
      · simp only [hw, if_false]
        exact .last hw
  | lockDone => cases h; exact .lockDone
  | readWdone => cases h; exact .readWdone
  | writeWdone v => cases h; exact .writeWdone
  | wait => cases h; exact .wait
  | asleep => cases h
  | woken => cases h; exact .woken
  | broadcast => cases h; exact .broadcast
  | unlockExit => cases h; exact .unlockExit
  | exited => cases h
  | unlockDone => cases h; exact .unlockDone
  | draw => cases h; exact .draw
  | lockCs i => cases h; exact .lockCs
  | readA i => cases h; exact .readA
  | writeA i v => cases h; exact .writeA
  | readC i => cases h; exact .readC
  | writeC i v => cases h; exact .writeC
  | unlockCs => cases h; exact .unlockCs
  | addCount => cases h; exact .addCount

theorem asleep_cases {t : Tid} {q woken : PlaceOf t} {c : Unit}
    (h : code rand t q = .asleep c woken) :
    ∃ w, (⟨t, q⟩ : Sigma PlaceOf) = ⟨.worker w, .asleep⟩
      ∧ (⟨t, woken⟩ : Sigma PlaceOf) = ⟨.worker w, .woken⟩ := by
  cases t with
  | master =>
      cases q with
      | join i =>
          simp only [code, masterCode] at h
          split at h
          · cases h
          · cases h
      | _ => cases h
  | worker w =>
      cases q with
      | asleep =>
          cases h
          exact ⟨w, rfl, rfl⟩
      | _ => cases h

/-- Only the master makes threads. -/
theorem spawned_cases {t : Tid} {q : PlaceOf t} {x : Shared} {f : Shared → Effect Shared PlaceOf t}
    {y : Sigma PlaceOf} (h : code rand t q = .act f) (hy : (f x).spawned = some y) :
    ∃ i, i < N ∧ (⟨t, q⟩ : Sigma PlaceOf) = ⟨.master, .create i⟩ ∧ y = ⟨.worker i, .lockDone⟩ := by
  cases t with
  | master =>
      cases q with
      | create i =>
          cases h
          by_cases hi : i < N
          · simp only [hi, if_true] at hy
            cases hy
            exact ⟨i, hi, rfl, rfl⟩
          · simp only [hi, if_false] at hy
            cases hy
      | join i =>
          simp only [code, masterCode] at h
          split at h
          · cases h
          · cases h
      | setMdone =>
          cases h
          cases hy
      | _ => cases h
  | worker w =>
      cases q with
      | lockDone | wait | asleep | woken | broadcast | unlockExit | exited | unlockDone | lockCs i
      | unlockCs => cases h
      | _ =>
          cases h
          cases hy

/-- **The steps of the program.** Only a broadcast wakes others, and then all that are asleep. -/
inductive Change (rand : Nat → Nat) (s s' : State) : Label Tid → Prop
  | master {pick : Option Tid} {p p' : MasterPc} (before : s.place .master = some p)
      (after : s'.place .master = some p') (move : MasterMove s.data p s'.data p')
      (makes : ∀ u, p = .create u → u < N → s'.place (.worker u) = some .lockDone)
      (others : ∀ u, p = .create u ∧ u < N ∨ s'.place (.worker u) = s.place (.worker u)) :
      Change rand s s' (.step .master pick)
  | worker {pick : Option Tid} {w : Nat} {p p' : WorkerPc}
      (before : s.place (.worker w) = some p) (after : s'.place (.worker w) = some p')
      (move : WorkerMove rand w s.data p s'.data p')
      (others : ∀ u, u ≠ w → s'.place (.worker u) = s.place (.worker u)
        ∨ p = .broadcast ∧ s.place (.worker u) = some .asleep ∧ s'.place (.worker u) = some .woken)
      (wakes : p = .broadcast → ∀ u, u ≠ w → s'.place (.worker u) ≠ some .asleep)
      (master : s'.place .master = s.place .master) : Change rand s s' (.step (.worker w) pick)
  | spurious {w : Nat} (before : s.place (.worker w) = some .asleep)
      (after : s'.place (.worker w) = some .woken) (same : s'.data = s.data)
      (others : ∀ u, u ≠ w → s'.place (.worker u) = s.place (.worker u))
      (master : s'.place .master = s.place .master) : Change rand s s' (.spurious (.worker w))

/-- Only a worker signals, at its broadcast. -/
theorem signal_cases {t : Tid} {q next : PlaceOf t} {c : Unit} (h : code rand t q = .signal c next) :
    ∃ w, (⟨t, q⟩ : Sigma PlaceOf) = ⟨.worker w, .broadcast⟩ := by
  cases t with
  | master =>
      cases q with
      | join i =>
          simp only [code, masterCode] at h
          split at h
          · cases h
          · cases h
      | _ => cases h
  | worker w =>
      cases q with
      | broadcast => exact ⟨w, rfl⟩
      | _ => cases h

theorem worker_elsewhere {u : Nat} (h : Elsewhere (code rand) s s' (.worker w) p (.worker u)) :
    s'.place (.worker u) = s.place (.worker u)
      ∨ p = .broadcast ∧ s.place (.worker u) = some .asleep ∧ s'.place (.worker u) = some .woken := by
  rcases h with hsame | ⟨r, c, _, next, hsignal, hr, hc, hw⟩ | ⟨f, r, hc, hs, -⟩
  · exact .inl hsame
  · obtain ⟨v, hq⟩ := signal_cases hsignal
    cases hq
    obtain ⟨v, hq, hnext⟩ := asleep_cases hc
    cases hq
    cases hnext
    exact .inr ⟨rfl, hr, hw⟩
  · obtain ⟨i, -, hq, -⟩ := spawned_cases hc hs
    cases hq

theorem master_elsewhere (h : Elsewhere (code rand) s s' (.worker w) p .master) :
    s'.place .master = s.place .master := by
  rcases h with hsame | ⟨r, c, _, next, -, hr, hc, hw⟩ | ⟨f, r, hc, hs, -⟩
  · exact hsame
  · obtain ⟨v, hq, -⟩ := asleep_cases hc
    cases hq
  · obtain ⟨i, -, -, hy⟩ := spawned_cases hc hs
    cases hy

theorem change_of_next {a : Label Tid} (h : (machine rand).next s a = some s') :
    Change rand s s' a := by
  rcases steps_of_next h with ⟨hp, hm, hsignal⟩ | ⟨hp, hc, -⟩ | ⟨hp, hc⟩
  case move t pick p =>
    obtain ⟨p', hp', hr⟩ := hm.result
    cases t with
    | master =>
        refine .master hp hp' (masterMove_of_result hr) (fun u hu hN => ?_) fun u => ?_
        · subst hu
          refine hm.spawned (u := .worker u) rfl ?_ Tid.noConfusion
          simp [hN]
        · rcases hm.elsewhere (u := .worker u) Tid.noConfusion with
            hsame | ⟨r, c, _, next, hc, -⟩ | ⟨f, r, hc, hs, -⟩
          · exact .inr hsame
          · obtain ⟨v, hq⟩ := signal_cases hc
            cases hq
          · obtain ⟨i, hi, hq, hy⟩ := spawned_cases hc hs
            cases hq
            cases hy
            exact .inl ⟨rfl, hi⟩
    | worker w =>
        refine .worker hp hp' (workerMove_of_result hr) (fun u hu => ?_) (fun hb => ?_) ?_
        · exact worker_elsewhere (hm.elsewhere fun hc => hu (Tid.worker.inj hc))
        · subst hb
          exact Bool.noConfusion (hsignal () .unlockExit rfl)
        · exact master_elsewhere (hm.elsewhere Tid.noConfusion)
  case broadcast t pick p c next =>
    obtain ⟨w, hq⟩ := signal_cases hc
    cases hq
    have hadv := advance_broadcast hp hc
    refine .worker hp hadv.after (workerMove_of_result hadv.result) (fun u hu => ?_)
      (fun _ u hu hs => ?_) ?_
    · exact worker_elsewhere (hadv.others _ fun hc => hu (Tid.worker.inj hc))
    · -- who is asleep after the broadcast was asleep before, and has been woken
      have hne : (Tid.worker u) ≠ .worker w := fun hc => hu (Tid.worker.inj hc)
      rw [goto_place_ne _ _ hne] at hs
      cases hw : s.asleepOn (code rand) c (.worker u) with
      | none =>
          rw [wakeAll_awake hw] at hs
          rw [asleepOn_of hs rfl] at hw
          cases hw
      | some next =>
          rw [wakeAll_asleep hw] at hs
          obtain ⟨q, -, hcq⟩ := asleepOn_eq_some hw
          obtain ⟨v, -, hnext⟩ := asleep_cases hcq
          cases hnext
          cases hs
    · exact master_elsewhere (hadv.others _ Tid.noConfusion)
  case spurious t p c woken =>
    obtain ⟨w, hq, hnext⟩ := asleep_cases hc
    cases hq
    cases hnext
    refine .spurious hp (goto_place_self _ _ _) rfl (fun u hu => ?_) ?_
    · exact goto_place_ne _ _ fun hc => hu (Tid.worker.inj hc)
    · exact goto_place_ne _ _ Tid.noConfusion

/-! ## Who there is, and who holds what -/

/-- How many workers have been made. -/
def MasterPc.made : MasterPc → Nat
  | .create i => i
  | _ => N

/-- The owners of the mutexes are those who hold them, and the workers made are there. -/
structure Basic (s : State) : Prop where
  exclusive : Exclusive holds s
  master : ∃ p, s.place .master = some p ∧ p.made ≤ N
    ∧ ∀ w, s.place (.worker w) ≠ none ↔ w < p.made

theorem basic_start : Basic (start rand) where
  exclusive := by
    intro m t
    cases t with
    | master => simp [start, Sys.holding, holds]
    | worker w => simp [start, Sys.holding]
  master := ⟨.create 0, rfl, Nat.zero_le N, fun w => by simp [start, MasterPc.made]⟩

theorem Basic.fresh (h : Basic s) (t : Tid) (p : PlaceOf t) (hp : s.place t = some p) :
    Fresh (code rand) s t p := by
  intro f hc y hy
  obtain ⟨i, hi, hq, rfl⟩ := spawned_cases hc hy
  cases hq
  obtain ⟨p, hp', -, hmade⟩ := h.master
  obtain rfl := Option.some.inj (hp.symm.trans hp')
  by_contra hne
  exact absurd ((hmade i).mp hne) (Nat.lt_irrefl i)

theorem Basic.worker_lt (h : Basic s) (hp : s.place (.worker w) = some p) : w < N := by
  obtain ⟨q, -, hle, hmade⟩ := h.master
  have hlt := (hmade w).mp (by rw [hp]; exact Option.some_ne_none p)
  omega

theorem MasterMove.made {x x' : Shared} {p p' : MasterPc} (h : MasterMove x p x' p')
    (hle : p.made ≤ N) : p'.made ≤ N
      ∧ ∀ u, u < p'.made ↔ u < p.made ∨ p = .create u ∧ u < N := by
  cases h with
  | @create i hi =>
      refine ⟨hi, fun u => ?_⟩
      simp only [MasterPc.made, MasterPc.create.injEq]
      omega
  | @created i hi =>
      refine ⟨Nat.le_refl N, fun u => ?_⟩
      simp only [MasterPc.made, MasterPc.create.injEq] at hle ⊢
      omega
  | _ => exact ⟨Nat.le_refl N, fun u => by simp [MasterPc.made]⟩

theorem basic_next {a : Label Tid} (h : Basic s) (hs : (machine rand).next s a = some s') :
    Basic s' := by
  refine ⟨exclusive_next disciplined h.exclusive (steps_of_next hs) h.fresh, ?_⟩
  obtain ⟨q, hq, hle, hmade⟩ := h.master
  cases change_of_next hs with
  | @master pick p p' before after move makes others =>
      obtain rfl := Option.some.inj (before.symm.trans hq)
      obtain ⟨hle', hmade'⟩ := move.made hle
      refine ⟨p', after, hle', fun u => ?_⟩
      rw [hmade', ← hmade]
      by_cases hnew : p = .create u ∧ u < N
      · simp [makes u hnew.1 hnew.2, hnew]
      · rw [(others u).resolve_left hnew]
        simp [hnew]
  | @worker pick w p p' before after move others wakes hmaster =>
      refine ⟨q, hmaster.trans hq, hle, fun u => ?_⟩
      rw [← hmade]
      by_cases hu : u = w
      · subst hu
        simp [before, after]
      · rcases others u hu with hsame | ⟨-, hb, ha⟩
        · rw [hsame]
        · simp [hb, ha]
  | @spurious w before after same others hmaster =>
      refine ⟨q, hmaster.trans hq, hle, fun u => ?_⟩
      rw [← hmade]
      by_cases hu : u = w
      · subst hu
        simp [before, after]
      · rw [others u hu]

theorem basic_reachable {ok : State → Label Tid → Prop} (h : (machine rand).ReachableWhen ok s) :
    Basic s := by
  refine h.invariant ?_ fun s a s' hb _ hs => basic_next hb hs
  rintro s rfl
  exact basic_start

/-! ## Counting the workers in a place -/

/-- Worker `w` is at a place with `f`. -/
def isAt (f : WorkerPc → Bool) (s : State) (w : Nat) : Bool := (s.place (.worker w)).any f

theorem isAt_iff {f : WorkerPc → Bool} :
    isAt f s w = true ↔ ∃ p, s.place (.worker w) = some p ∧ f p = true := by
  unfold isAt
  cases s.place (.worker w) <;> simp

/-- How many workers are at a place with `f`. -/
def number (f : WorkerPc → Bool) (s : State) : Nat := Nat.count (fun w => isAt f s w = true) N

/-- What becomes of a worker that does not move: it stays, is woken, or is new. -/
def Stays (s s' : State) (u : Nat) : Prop :=
  s'.place (.worker u) = s.place (.worker u)
    ∨ s.place (.worker u) = some .asleep ∧ s'.place (.worker u) = some .woken
    ∨ s.place (.worker u) = none ∧ s'.place (.worker u) = some .lockDone

/-- **A step is one of a worker, or changes neither the arrays nor the counts.** -/
theorem change_cases {a : Label Tid} (hb : Basic s) (h : (machine rand).next s a = some s') :
    (∃ w p p', w < N ∧ s.place (.worker w) = some p ∧ s'.place (.worker w) = some p'
        ∧ WorkerMove rand w s.data p s'.data p' ∧ (∀ u, u ≠ w → Stays s s' u)
        ∧ (p = .broadcast → ∀ u, u ≠ w → s'.place (.worker u) ≠ some .asleep))
      ∨ (∃ b k, s'.data = { s.data with mdone := b, calls := k }) ∧ ∀ u, Stays s s' u := by
  cases change_of_next h with
  | @master pick p p' before after move makes others =>
      refine .inr ⟨?_, fun u => ?_⟩
      · generalize s'.data = x' at move ⊢
        cases move with
        | create => exact ⟨_, _, rfl⟩
        | setMdone => exact ⟨_, _, rfl⟩
        | _ => exact ⟨s.data.mdone, s.data.calls, rfl⟩
      · rcases others u with ⟨hp, hu⟩ | hsame
        · obtain ⟨q, hq, -, hmade⟩ := hb.master
          obtain rfl := Option.some.inj (before.symm.trans hq)
          refine .inr (.inr ⟨?_, makes u hp hu⟩)
          by_contra hne
          have hlt := (hmade u).mp hne
          rw [hp] at hlt
          exact Nat.lt_irrefl u hlt
        · exact .inl hsame
  | worker before after move others wakes hmaster =>
      refine .inl ⟨_, _, _, hb.worker_lt before, before, after, move, fun u hu => ?_, wakes⟩
      exact (others u hu).imp_right fun h => .inl h.2
  | @spurious w before after same others hmaster =>
      refine .inr ⟨⟨s.data.mdone, s.data.calls, same⟩, fun u => ?_⟩
      by_cases hu : u = w
      · subst hu
        exact .inr (.inl ⟨before, after⟩)
      · exact .inl (others u hu)

variable {f : WorkerPc → Bool}

theorem Stays.isAt {u : Nat} (h : Stays s s' u) (hwoken : f .woken = f .asleep)
    (hnew : f .lockDone = false) : isAt f s' u = isAt f s u := by
  rcases h with hsame | ⟨hb, ha⟩ | ⟨hb, ha⟩
  · rw [Workers.isAt, hsame, Workers.isAt]
  · simp [Workers.isAt, hb, ha, hwoken]
  · simp [Workers.isAt, hb, ha, hnew]

theorem number_stays (h : ∀ u, Stays s s' u) (hwoken : f .woken = f .asleep)
    (hnew : f .lockDone = false) : number f s' = number f s := by
  apply count_congr
  intro u _
  rw [(h u).isAt hwoken hnew]

/-- One worker moves. -/
theorem number_move (hw : w < N) (hp : s.place (.worker w) = some p)
    (hp' : s'.place (.worker w) = some p') (h : ∀ u, u ≠ w → Stays s s' u)
    (hwoken : f .woken = f .asleep) (hnew : f .lockDone = false) :
    number f s' + (if f p = true then 1 else 0) = number f s + if f p' = true then 1 else 0 := by
  have hchange := count_change (p := fun u => isAt f s u = true) (q := fun u => isAt f s' u = true)
    hw fun u _ hu => by rw [(h u hu).isAt hwoken hnew]
  simpa [number, isAt, hp, hp'] using hchange

/-- A worker that is still at a place where it would not be new or woken has not moved. -/
theorem Stays.same {u : Nat} {q : WorkerPc} (h : Stays s s' u) (hq : s'.place (.worker u) = some q)
    (hwoken : q ≠ .woken) (hnew : q ≠ .lockDone) : s.place (.worker u) = some q := by
  rcases h with hsame | ⟨-, ha⟩ | ⟨-, ha⟩
  · exact hsame.symm.trans hq
  · exact absurd (Option.some.inj (hq.symm.trans ha)) hwoken
  · exact absurd (Option.some.inj (hq.symm.trans ha)) hnew

end OSLab.Samples.Workers
