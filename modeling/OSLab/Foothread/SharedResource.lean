import OSLab.Foothread.Guard

set_option autoImplicit false

/-! # The counter of `Assignment_07/mutex.c`

`NUM_THREADS` threads add one to `shared_resource` under the mutex, `rounds` times each; in the source
there are `3` of them and `5` rounds. The mutex is that of `foothread.c`, with the same race between its
`V` and its resets, so an unlock may end the process. To the mutex the program is one of its clients
(`Program.clients`), so what the semaphore does holds here too: no increment is lost and the values are
printed in order, in every run. Every run ends, with the full count or thrown out by the mutex. The value
of `shared_resource` is an exact integer, as in the program for less than `2 ^ 31` rounds in all.
-/

namespace OSLab.Foothread.Counter

/-- Where a thread is in round `i` of `thread_function`; at `loop i` it tests `i`. -/
inductive ThreadPc
  | absent
  | loop (i : Nat)
  | locking (i : Nat) (pc : LockPc)
  | readShared (i : Nat)
  | writeShared (i : Nat) (v : Int)
  | print (i : Nat)
  | unlocking (i : Nat) (pc : UnlockPc)
  | finished
  deriving DecidableEq, Repr

/-- Where `main` is; `done v` has printed `v`. -/
inductive MainPc
  | create (i : Nat)
  | join (i : Nat)
  | print
  | done (v : Int)
  deriving DecidableEq, Repr

/-- `printed` is what the threads print, the round and the value. -/
structure Program where
  mem : Mem
  sharedResource : Int
  printed : List (Nat × Int)
  place : Nat → ThreadPc
  main : MainPc
  exited : Bool

inductive Party
  | main
  | thread (t : Nat)
  deriving DecidableEq, Repr

def Program.goto (s : Program) (t : Nat) (mem : Mem) (p : ThreadPc) : Program :=
  { s with mem := mem, place := Function.update s.place t p }

/-- Thread `t` after a step of a call, at `call pc` within it and at `after` when it returns. -/
def Program.resume {P : Type} (s : Program) (t : Nat) (call : P → ThreadPc) (after : ThreadPc) :
    Mem × Ctl P → Program
  | (mem, .next pc) => s.goto t mem (call pc)
  | (mem, .clone pc) => s.goto t mem (call pc)
  | (mem, .ret) => s.goto t mem after
  | (mem, .exit) => { s with mem := mem, exited := true }

/-- One step of `thread_function`. -/
def threadFunction (rounds : Nat) (s : Program) (t : Nat) : Option Program :=
  match s.place t with
  | .absent => none
  | .loop i => some (s.goto t s.mem (if i < rounds then .locking i .setPop else .finished))
  | .locking i pc => (mutexLock 0 t s.mem pc).map (s.resume t (.locking i) (.readShared i))
  | .readShared i => some (s.goto t s.mem (.writeShared i s.sharedResource))
  | .writeShared i v => some { s.goto t s.mem (.print i) with sharedResource := v + 1 }
  | .print i => some { s.goto t s.mem (.unlocking i .setPop) with
      printed := s.printed ++ [(i, s.sharedResource)] }
  | .unlocking i pc => (mutexUnlock 0 t s.mem pc).map (s.resume t (.unlocking i) (.loop (i + 1)))
  | .finished => none

/-- One step of `main`, after the initialisation of the mutex. -/
def main (numThreads : Nat) (s : Program) : Option Program :=
  match s.main with
  | .create i =>
      if i < numThreads then some { s.goto i s.mem (.loop 0) with main := .create (i + 1) }
      else some { s with main := .join 0 }
  | .join i =>
      if i < numThreads then
        if s.place i = .finished then some { s with main := .join (i + 1) } else none
      else some { s with main := .print }
  | .print => some { s with main := .done s.sharedResource }
  | .done _ => none

def start : Program :=
  ⟨foothreadMutexInit zeroMem 0, 0, [], fun _ => .absent, .create 0, false⟩

def machine (N rounds : Nat) : Machine Program Party where
  init s := s = start
  next s a :=
    if s.exited then none
    else match a with
      | .main => main N s
      | .thread t => threadFunction rounds s t

variable {N rounds i t u : Nat} {s s' : Program} {mem : Mem} {p p' : ThreadPc}

theorem Program.goto_self (s : Program) (t : Nat) (mem : Mem) (p : ThreadPc) :
    (s.goto t mem p).place t = p := Function.update_self ..

theorem Program.goto_ne (s : Program) (mem : Mem) (p : ThreadPc) (h : u ≠ t) :
    (s.goto t mem p).place u = s.place u := Function.update_of_ne h ..

/-! ## As clients of the mutex -/

def ThreadPc.client : ThreadPc → Client
  | .locking _ pc => .locking pc
  | .readShared _ | .writeShared _ _ | .print _ => .holding
  | .unlocking _ pc => .unlocking pc
  | .absent | .loop _ | .finished => .idle

def Program.clients (s : Program) : Clients := ⟨s.mem, fun t => (s.place t).client, s.exited⟩

theorem Program.clients_goto (s : Program) (t : Nat) (mem : Mem) (p : ThreadPc) :
    (s.goto t mem p).clients = s.clients.goto t mem p.client := by
  have hplace : (fun u => ((s.goto t mem p).place u).client)
      = Function.update s.clients.place t p.client := by
    funext u
    by_cases hu : u = t
    · subst hu
      rw [Program.goto_self, Function.update_self]
    · rw [Program.goto_ne _ _ _ hu, Function.update_of_ne hu]
      rfl
  rw [Program.clients, hplace]
  rfl

theorem Program.clients_resume {P : Type} (s : Program) (t : Nat) (call : P → ThreadPc)
    (after : ThreadPc) (r : Mem × Ctl P) :
    (s.resume t call after r).clients
      = s.clients.resume t (fun pc => (call pc).client) after.client r := by
  obtain ⟨mem, c⟩ := r
  cases c with
  | exit => rfl
  | _ => exact s.clients_goto t mem _

/-- A step that the clients do not see. -/
theorem Program.clients_same (hp : s.place t = p) (hclient : p'.client = p.client) :
    (s.goto t s.mem p').clients = s.clients := by
  have hself : s.clients.place t = p'.client := by
    show (s.place t).client = p'.client
    rw [hp, hclient]
  rw [Program.clients_goto, ← hself]
  show (⟨s.mem, Function.update s.clients.place t (s.clients.place t), s.exited⟩ : Clients) = _
  rw [Function.update_eq_self]
  rfl

/-- **A step of a thread is a step of a client, or nothing to the mutex.** -/
theorem clients_thread (hs : threadFunction rounds s t = some s') :
    s'.clients = s.clients ∨ clientStep 0 s.clients t = some s'.clients := by
  unfold threadFunction at hs
  have hplace : s.clients.place t = (s.place t).client := rfl
  simp only [clientStep, hplace]
  cases hp : s.place t with
  | absent => rw [hp] at hs; cases hs
  | finished => rw [hp] at hs; cases hs
  | loop i =>
      rw [hp] at hs
      cases hs
      by_cases hi : i < rounds
      · rw [if_pos hi]
        exact .inr (congrArg some (s.clients_goto t s.mem (.locking i .setPop)).symm)
      · rw [if_neg hi]
        exact .inl (Program.clients_same hp rfl)
  | locking i pc =>
      rw [hp] at hs
      obtain ⟨r, hr, rfl⟩ := Option.map_eq_some_iff.mp hs
      refine .inr ?_
      rw [Program.clients_resume]
      exact Option.map_eq_some_iff.mpr ⟨r, hr, rfl⟩
  | readShared i =>
      rw [hp] at hs
      cases hs
      exact .inl (Program.clients_same hp rfl)
  | writeShared i v =>
      rw [hp] at hs
      cases hs
      exact .inl (Program.clients_same hp rfl)
  | print i =>
      rw [hp] at hs
      cases hs
      exact .inr (congrArg some (s.clients_goto t s.mem (.unlocking i .setPop)).symm)
  | unlocking i pc =>
      rw [hp] at hs
      obtain ⟨r, hr, rfl⟩ := Option.map_eq_some_iff.mp hs
      refine .inr ?_
      rw [Program.clients_resume]
      exact Option.map_eq_some_iff.mpr ⟨r, hr, rfl⟩

/-! ## The steps -/

/-- How many steps are left of a lock. -/
def lockLeft : LockPc → Nat
  | .setPop => 6
  | .setVop => 5
  | .lock => 4
  | .lockOp _ => 3
  | .setTid => 2
  | .setStatus => 1

/-- The same for an unlock. -/
def unlockLeft : UnlockPc → Nat
  | .setPop => 8
  | .setVop => 7
  | .checkTid => 6
  | .checkStatus => 5
  | .unlock => 4
  | .unlockOp _ => 3
  | .clearTid => 2
  | .clearStatus => 1

/-- What a thread does to the counter `x` and to what is printed, and where it goes. -/
inductive Move (rounds : Nat) (x : Int) (l : List (Nat × Int)) :
    ThreadPc → Int → List (Nat × Int) → ThreadPc → Prop
  | enter {i : Nat} : i < rounds → Move rounds x l (.loop i) x l (.locking i .setPop)
  | leave {i : Nat} : ¬ i < rounds → Move rounds x l (.loop i) x l .finished
  | locking {i : Nat} {pc pc' : LockPc} : lockLeft pc' < lockLeft pc →
      Move rounds x l (.locking i pc) x l (.locking i pc')
  | locked {i : Nat} {pc : LockPc} : Move rounds x l (.locking i pc) x l (.readShared i)
  | readShared {i : Nat} : Move rounds x l (.readShared i) x l (.writeShared i x)
  | writeShared {i : Nat} {v : Int} : Move rounds x l (.writeShared i v) (v + 1) l (.print i)
  | print {i : Nat} : Move rounds x l (.print i) x (l ++ [(i, x)]) (.unlocking i .setPop)
  | unlocking {i : Nat} {pc pc' : UnlockPc} : unlockLeft pc' < unlockLeft pc →
      Move rounds x l (.unlocking i pc) x l (.unlocking i pc')
  | unlocked {i : Nat} {pc : UnlockPc} : Move rounds x l (.unlocking i pc) x l (.loop (i + 1))

/-- **The steps of a thread**, which moves or is thrown out by an unlock. -/
inductive Step (rounds : Nat) (s s' : Program) (t : Nat) : Prop
  | move {p' : ThreadPc} (place : s'.place = Function.update s.place t p')
      (move : Move rounds s.sharedResource s.printed (s.place t) s'.sharedResource s'.printed p')
      (main : s'.main = s.main) (exited : s'.exited = s.exited)
  | thrown (place : s'.place = s.place) (shared : s'.sharedResource = s.sharedResource)
      (printed : s'.printed = s.printed) (main : s'.main = s.main) (exited : s'.exited = true)

theorem step_lock {pc : LockPc} {c : Ctl LockPc} (hp : s.place t = .locking i pc)
    (hm : mutexLock 0 t s.mem pc = some (mem, c)) :
    Step rounds s (s.resume t (.locking i) (.readShared i) (mem, c)) t := by
  cases c with
  | next pc' =>
      refine .move rfl ?_ rfl rfl
      rw [hp]
      refine .locking ?_
      cases pc with
      | lockOp op =>
          obtain ⟨v, -, -, hc⟩ := perform_eq_some hm
          cases hc
          exact Nat.lt_succ_self 2
      | setStatus => cases hm
      | _ =>
          cases hm
          simp [lockLeft]
  | ret =>
      refine .move rfl ?_ rfl rfl
      rw [hp]
      exact .locked
  | clone pc' =>
      cases pc with
      | lockOp op => obtain ⟨v, -, -, hc⟩ := perform_eq_some hm; cases hc
      | _ => cases hm
  | exit =>
      cases pc with
      | lockOp op => obtain ⟨v, -, -, hc⟩ := perform_eq_some hm; cases hc
      | _ => cases hm

theorem step_unlock {pc : UnlockPc} {c : Ctl UnlockPc} (hp : s.place t = .unlocking i pc)
    (hm : mutexUnlock 0 t s.mem pc = some (mem, c)) :
    Step rounds s (s.resume t (.unlocking i) (.loop (i + 1)) (mem, c)) t := by
  cases c with
  | next pc' =>
      refine .move rfl ?_ rfl rfl
      rw [hp]
      refine .unlocking ?_
      cases pc with
      | checkTid =>
          simp only [mutexUnlock, Option.some.injEq, Prod.mk.injEq] at hm
          split_ifs at hm with htid
          · cases hm.2
          · cases hm.2
            simp [unlockLeft]
      | checkStatus =>
          simp only [mutexUnlock, Option.some.injEq, Prod.mk.injEq] at hm
          split_ifs at hm with hstatus
          · cases hm.2
          · cases hm.2
            simp [unlockLeft]
      | unlockOp op =>
          obtain ⟨v, -, -, hc⟩ := perform_eq_some hm
          cases hc
          exact Nat.lt_succ_self 2
      | clearStatus => cases hm
      | _ =>
          cases hm
          simp [unlockLeft]
  | ret =>
      refine .move rfl ?_ rfl rfl
      rw [hp]
      exact .unlocked
  | exit => exact .thrown rfl rfl rfl rfl rfl
  | clone pc' =>
      cases pc with
      | unlockOp op => obtain ⟨v, -, -, hc⟩ := perform_eq_some hm; cases hc
      | checkTid =>
          simp only [mutexUnlock, Option.some.injEq, Prod.mk.injEq] at hm
          split_ifs at hm <;> cases hm.2
      | checkStatus =>
          simp only [mutexUnlock, Option.some.injEq, Prod.mk.injEq] at hm
          split_ifs at hm <;> cases hm.2
      | _ => cases hm

theorem step_of_thread (hs : threadFunction rounds s t = some s') : Step rounds s s' t := by
  unfold threadFunction at hs
  cases hp : s.place t with
  | absent => rw [hp] at hs; cases hs
  | finished => rw [hp] at hs; cases hs
  | loop i =>
      rw [hp] at hs
      cases hs
      refine .move rfl ?_ rfl rfl
      rw [hp]
      by_cases hi : i < rounds
      · rw [if_pos hi]
        exact .enter hi
      · rw [if_neg hi]
        exact .leave hi
  | locking i pc =>
      rw [hp] at hs
      obtain ⟨⟨mem, c⟩, hm, rfl⟩ := Option.map_eq_some_iff.mp hs
      exact step_lock hp hm
  | readShared i =>
      rw [hp] at hs
      cases hs
      refine .move rfl ?_ rfl rfl
      rw [hp]
      exact .readShared
  | writeShared i v =>
      rw [hp] at hs
      cases hs
      refine .move rfl ?_ rfl rfl
      rw [hp]
      exact .writeShared
  | print i =>
      rw [hp] at hs
      cases hs
      refine .move rfl ?_ rfl rfl
      rw [hp]
      exact .print
  | unlocking i pc =>
      rw [hp] at hs
      obtain ⟨⟨mem, c⟩, hm, rfl⟩ := Option.map_eq_some_iff.mp hs
      exact step_unlock hp hm

/-- **The steps of `main`.** -/
inductive MainStep (N : Nat) (s s' : Program) : Prop
  | create {i : Nat} (hi : i < N) (before : s.main = .create i)
      (after : s' = { s.goto i s.mem (.loop 0) with main := .create (i + 1) })
  | created {i : Nat} (hi : ¬ i < N) (before : s.main = .create i)
      (after : s' = { s with main := .join 0 })
  | join {i : Nat} (hi : i < N) (before : s.main = .join i) (ended : s.place i = .finished)
      (after : s' = { s with main := .join (i + 1) })
  | joined {i : Nat} (hi : ¬ i < N) (before : s.main = .join i)
      (after : s' = { s with main := .print })
  | print (before : s.main = .print) (after : s' = { s with main := .done s.sharedResource })

theorem mainStep_of_main (hs : main N s = some s') : MainStep N s s' := by
  unfold main at hs
  cases hm : s.main with
  | create i =>
      rw [hm] at hs
      simp only at hs
      split_ifs at hs with hi
      · cases hs
        exact .create hi hm rfl
      · cases hs
        exact .created hi hm rfl
  | join i =>
      rw [hm] at hs
      simp only at hs
      split_ifs at hs with hi hended
      · cases hs
        exact .join hi hm hended rfl
      · cases hs
        exact .joined hi hm rfl
  | print =>
      rw [hm] at hs
      cases hs
      exact .print hm rfl
  | done v => rw [hm] at hs; cases hs

/-! ## Who there is, and what the mutex does -/

/-- How many threads `main` has made. -/
def MainPc.made (N : Nat) : MainPc → Nat
  | .create i => i
  | _ => N

/-- How many threads `main` has joined. -/
def MainPc.joined (N : Nat) : MainPc → Nat
  | .create _ => 0
  | .join i => i
  | _ => N

structure Basic (N : Nat) (s : Program) : Prop where
  made_le : s.main.made N ≤ N
  made : ∀ t, s.place t ≠ .absent ↔ t < s.main.made N
  joined : ∀ t < s.main.joined N, s.place t = .finished
  guard : Guarded N 0 s.clients
  value : ∀ t i v, s.place t = .writeShared i v → v = s.sharedResource

theorem basic_start : Basic N start where
  made_le := Nat.zero_le N
  made t := by simp [start, MainPc.made]
  joined t ht := by cases ht
  guard := guarded_start zeroMem
  value t i v h := by cases h

theorem Basic.lt (h : Basic N s) (hp : s.place t ≠ .absent) : t < N :=
  Nat.lt_of_lt_of_le ((h.made t).mp hp) h.made_le

theorem Move.not_absent {x x' : Int} {l l' : List (Nat × Int)}
    (h : Move rounds x l p x' l' p') : p ≠ .absent ∧ p' ≠ .absent ∧ p ≠ .finished := by
  cases h <;> simp

theorem Move.reads {x x' : Int} {l l' : List (Nat × Int)} {v : Int}
    (h : Move rounds x l p x' l' (.writeShared i v)) : v = x' := by
  cases h
  rfl

/-- Only the owner writes the counter, or prints. -/
theorem Move.keeps {x x' : Int} {l l' : List (Nat × Int)} (h : Move rounds x l p x' l' p') :
    (x' = x ∧ l' = l) ∨ p.client.owns = true := by
  cases h with
  | writeShared => exact .inr rfl
  | print => exact .inr rfl
  | _ => exact .inl ⟨rfl, rfl⟩

/-- Nobody else is between `P` and `V`. -/
theorem Basic.alone (h : Basic N s) (ht : (s.place t).client.owns = true)
    (hu : (s.place u).client.owns = true) : u = t := by
  have hlt : ∀ t, (s.place t).client.owns = true → t < N := by
    intro t ht
    refine h.lt fun hp => ?_
    rw [hp] at ht
    cases ht
  exact h.guard.unique (hlt u hu) (hlt t ht) hu ht

theorem basic_thread (h : Basic N s) (hrun : s.exited = false)
    (hs : threadFunction rounds s t = some s') : Basic N s' := by
  have hguard : Guarded N 0 s'.clients := by
    rcases clients_thread hs with hsame | hstep
    · rw [hsame]
      exact h.guard
    · have ht : t < N := by
        refine h.lt fun hp => ?_
        rw [threadFunction, hp] at hs
        cases hs
      refine guarded_next (t := t) h.guard ?_
      simp only [mutexMachine]
      rw [if_pos ⟨ht, hrun⟩]
      exact hstep
  cases step_of_thread hs with
  | @move p' place move main exited =>
      obtain ⟨hp, hp', hend⟩ := move.not_absent
      refine ⟨main ▸ h.made_le, fun u => ?_, fun u hu => ?_, hguard, fun u i v hu => ?_⟩
      · rw [main, ← h.made u, place]
        by_cases hut : u = t
        · subst hut
          rw [Function.update_self]
          exact iff_of_true hp' hp
        · rw [Function.update_of_ne hut]
      · rw [main] at hu
        have hut : u ≠ t := by
          rintro rfl
          exact hend (h.joined u hu)
        rw [place, Function.update_of_ne hut]
        exact h.joined u hu
      · rw [place] at hu
        by_cases hut : u = t
        · subst hut
          rw [Function.update_self] at hu
          subst hu
          exact move.reads
        · rw [Function.update_of_ne hut] at hu
          rcases move.keeps with ⟨hx, -⟩ | howns
          · rw [hx]
            exact h.value u i v hu
          · exact absurd (h.alone howns (by rw [hu]; rfl)) hut
  | thrown place shared printed main exited =>
      refine ⟨main ▸ h.made_le, fun u => ?_, fun u hu => ?_, hguard, fun u i v hu => ?_⟩
      · rw [main, place]
        exact h.made u
      · rw [place]
        exact h.joined u (main ▸ hu)
      · rw [shared]
        exact h.value u i v (place ▸ hu)

theorem basic_main (h : Basic N s) (hs : main N s = some s') : Basic N s' := by
  obtain ⟨hle, hmade, hjoined, hguard, hvalue⟩ := h
  cases mainStep_of_main hs with
  | @create i hi before after =>
      subst after
      rw [before] at hle hmade
      have habsent : s.place i = .absent := by
        by_contra hne
        exact Nat.lt_irrefl i ((hmade i).mp hne)
      refine ⟨hi, fun u => ?_, fun u hu => (by cases hu), ?_, fun u j v hu => ?_⟩
      · show (s.goto i s.mem (.loop 0)).place u ≠ .absent ↔ u < i + 1
        by_cases hui : u = i
        · subst hui
          rw [Program.goto_self]
          simp
        · rw [Program.goto_ne _ _ _ hui, hmade u]
          show u < i ↔ u < i + 1
          omega
      · have hsame : (s.goto i s.mem (.loop 0)).clients = s.clients :=
          Program.clients_same habsent rfl
        show Guarded N 0 (s.goto i s.mem (.loop 0)).clients
        rw [hsame]
        exact hguard
      · by_cases hui : u = i
        · subst hui
          change (s.goto u s.mem (.loop 0)).place u = _ at hu
          rw [Program.goto_self] at hu
          cases hu
        · change (s.goto i s.mem (.loop 0)).place u = _ at hu
          rw [Program.goto_ne _ _ _ hui] at hu
          exact hvalue u j v hu
  | @created i hi before after =>
      subst after
      rw [before] at hle hmade
      have hin : i = N := Nat.le_antisymm hle (Nat.le_of_not_lt hi)
      exact ⟨Nat.le_refl N, hin ▸ hmade, fun u hu => (by cases hu), hguard, hvalue⟩
  | @join i hi before ended after =>
      subst after
      rw [before] at hle hmade hjoined
      refine ⟨Nat.le_refl N, hmade, fun u hu => ?_, hguard, hvalue⟩
      rcases Nat.lt_succ_iff_lt_or_eq.mp hu with hlt | rfl
      · exact hjoined u hlt
      · exact ended
  | @joined i hi before after =>
      subst after
      rw [before] at hle hmade hjoined
      exact ⟨Nat.le_refl N, hmade, fun u hu => hjoined u (Nat.lt_of_lt_of_le hu (Nat.le_of_not_lt hi)),
        hguard, hvalue⟩
  | print before after =>
      subst after
      rw [before] at hle hmade hjoined
      exact ⟨Nat.le_refl N, hmade, hjoined, hguard, hvalue⟩

theorem next_cases {a : Party} (hs : (machine N rounds).next s a = some s') :
    s.exited = false ∧ (main N s = some s' ∨ ∃ t, threadFunction rounds s t = some s') := by
  simp only [machine] at hs
  split_ifs at hs with hexited
  refine ⟨by simpa using hexited, ?_⟩
  cases a with
  | main => exact .inl hs
  | thread t => exact .inr ⟨t, hs⟩

theorem basic_next {a : Party} (h : Basic N s) (hs : (machine N rounds).next s a = some s') :
    Basic N s' := by
  obtain ⟨hrun, hmain | ⟨t, hthread⟩⟩ := next_cases hs
  · exact basic_main h hmain
  · exact basic_thread h hrun hthread

theorem basic_reachable (h : (machine N rounds).Reachable s) : Basic N s := by
  refine h.invariant ?_ fun s a s' hb _ hs => basic_next hb hs
  rintro s rfl
  exact basic_start

/-! ## What is counted -/

/-- How often a thread has added one. -/
def added (rounds : Nat) : ThreadPc → Nat
  | .absent => 0
  | .loop i | .locking i _ | .readShared i | .writeShared i _ => i
  | .print i | .unlocking i _ => i + 1
  | .finished => rounds

/-- How often a thread has printed. -/
def told (rounds : Nat) : ThreadPc → Nat
  | .absent => 0
  | .loop i | .locking i _ | .readShared i | .writeShared i _ | .print i => i
  | .unlocking i _ => i + 1
  | .finished => rounds

def Within (rounds : Nat) : ThreadPc → Prop
  | .loop i => i ≤ rounds
  | .locking i _ | .readShared i | .writeShared i _ | .print i | .unlocking i _ => i < rounds
  | _ => True

def total (f : ThreadPc → Nat) (N : Nat) (s : Program) : Nat :=
  ∑ t ∈ Finset.range N, f (s.place t)

/-- The numbers from `1` to `k`. -/
def upTo (k : Nat) : List Int := (List.range k).map fun j => (j : Int) + 1

theorem upTo_succ (k : Nat) : upTo (k + 1) = upTo k ++ [(k : Int) + 1] := by
  simp [upTo, List.range_succ]

structure Tally (N rounds : Nat) (s : Program) : Prop where
  within : ∀ t, Within rounds (s.place t)
  shared : s.sharedResource = total (added rounds) N s
  printed : s.printed.map Prod.snd = upTo (total (told rounds) N s)

theorem tally_start : Tally N rounds start where
  within t := trivial
  shared := by simp [start, total, added]
  printed := by simp [start, total, told, upTo]

theorem total_update {f : ThreadPc → Nat} (ht : t < N)
    (hplace : s'.place = Function.update s.place t p') :
    total f N s' + f (s.place t) = total f N s + f p' := by
  have hchange := sum_change (f := fun u => f (s.place u)) (g := fun u => f (s'.place u)) ht
    fun u _ hu => by rw [hplace, Function.update_of_ne hu]
  simpa [total, hplace] using hchange

section Move

variable {x x' : Int} {l l' : List (Nat × Int)} (h : Move rounds x l p x' l' p')
include h

theorem Move.added (hw : Within rounds p) (hvalue : ∀ i v, p = .writeShared i v → v = x) :
    x' + Counter.added rounds p = x + Counter.added rounds p' ∧ Within rounds p' := by
  cases h with
  | enter hi => exact ⟨rfl, hi⟩
  | @leave i hi =>
      have hin : i = rounds := Nat.le_antisymm hw (Nat.le_of_not_lt hi)
      exact ⟨by rw [hin]; rfl, trivial⟩
  | @writeShared i v =>
      rw [hvalue i v rfl]
      refine ⟨?_, hw⟩
      simp only [Counter.added, Nat.cast_add, Nat.cast_one]
      omega
  | unlocked => exact ⟨rfl, hw⟩
  | _ => exact ⟨rfl, hw⟩

theorem Move.told (hw : Within rounds p) :
    (l' = l ∧ Counter.told rounds p' = Counter.told rounds p)
      ∨ ∃ i, p = .print i ∧ p' = .unlocking i .setPop ∧ l' = l ++ [(i, x)] ∧ x' = x := by
  cases h with
  | print => exact .inr ⟨_, rfl, rfl, rfl, rfl⟩
  | @leave i hi =>
      have hin : i = rounds := Nat.le_antisymm hw (Nat.le_of_not_lt hi)
      exact .inl ⟨rfl, hin.symm⟩
  | _ => exact .inl ⟨rfl, rfl⟩

end Move

/-- A thread has told what it has added, unless it is about to. -/
theorem told_eq_added (hp : ∀ i, p ≠ .print i) : told rounds p = added rounds p := by
  cases p with
  | print i => exact absurd rfl (hp i)
  | _ => rfl

theorem tally_thread (hb : Basic N s) (h : Tally N rounds s)
    (hs : threadFunction rounds s t = some s') : Tally N rounds s' := by
  cases step_of_thread hs with
  | thrown place shared printed main exited =>
      refine ⟨fun u => place ▸ h.within u, ?_, ?_⟩
      · rw [shared, h.shared, total, total, place]
      · rw [printed, h.printed, total, total, place]
  | @move p' place move main exited =>
      obtain ⟨hp, hp', -⟩ := move.not_absent
      have ht := hb.lt hp
      obtain ⟨hadded, hwithin⟩ := move.added (h.within t) (hb.value t)
      have hsum := total_update (f := added rounds) ht place
      have htold := total_update (f := told rounds) ht place
      have hshared := h.shared
      refine ⟨fun u => ?_, by omega, ?_⟩
      · rw [place]
        by_cases hut : u = t
        · subst hut
          rwa [Function.update_self]
        · rw [Function.update_of_ne hut]
          exact h.within u
      · rcases move.told (h.within t) with ⟨hl, heq⟩ | ⟨i, hprint, rfl, hl, hx⟩
        · rw [hl, h.printed, show total (told rounds) N s' = total (told rounds) N s by omega]
        · -- nobody else is about to print, so the value is the number of all prints
          have hall : total (told rounds) N s' = total (added rounds) N s' := by
            refine Finset.sum_congr rfl fun u _ => told_eq_added fun j hj => ?_
            rw [place] at hj
            by_cases hut : u = t
            · subst hut
              rw [Function.update_self] at hj
              cases hj
            · rw [Function.update_of_ne hut] at hj
              exact hut (hb.alone (by rw [hprint]; rfl) (by rw [hj]; rfl))
          rw [hprint] at hsum htold
          simp only [added, told] at hsum htold
          have hnext : total (told rounds) N s' = total (told rounds) N s + 1 := by omega
          have hvalue : s.sharedResource = (total (told rounds) N s : Int) + 1 := by omega
          rw [hl, List.map_append, h.printed, hnext, upTo_succ, List.map_singleton, hvalue]

theorem tally_main (hb : Basic N s) (h : Tally N rounds s) (hs : main N s = some s') :
    Tally N rounds s' := by
  cases mainStep_of_main hs with
  | @create i hi before after =>
      have habsent : s.place i = .absent := by
        by_contra hne
        have hlt := (hb.made i).mp hne
        rw [before] at hlt
        exact Nat.lt_irrefl i hlt
      have hplace : s'.place = Function.update s.place i (.loop 0) := by rw [after]; rfl
      have hsum := total_update (f := added rounds) hi hplace
      have htold := total_update (f := told rounds) hi hplace
      rw [habsent] at hsum htold
      simp only [added, told, Nat.add_zero] at hsum htold
      refine ⟨fun u => ?_, ?_, ?_⟩
      · rw [hplace]
        by_cases hui : u = i
        · subst hui
          rw [Function.update_self]
          exact Nat.zero_le rounds
        · rw [Function.update_of_ne hui]
          exact h.within u
      · rw [hsum, after]
        exact h.shared
      · rw [htold, after]
        exact h.printed
  | _ =>
      rename_i after
      subst after
      exact ⟨h.within, h.shared, h.printed⟩

theorem tally_reachable (h : (machine N rounds).Reachable s) : Tally N rounds s := by
  refine h.invariant_of (J := Basic N) (fun s hs => basic_reachable hs) ?_ ?_
  · rintro s rfl
    exact tally_start
  · intro s a s' hb ht _ hs
    obtain ⟨-, hmain | ⟨t, hthread⟩⟩ := next_cases hs
    · exact tally_main hb ht hmain
    · exact tally_thread hb ht hthread

theorem Within.added_le (h : Within rounds p) : added rounds p ≤ rounds := by
  cases p with
  | absent => exact Nat.zero_le rounds
  | finished => exact Nat.le_refl rounds
  | loop i => exact h
  | print i | unlocking i pc => exact Nat.succ_le_of_lt h
  | locking i pc | readShared i | writeShared i v => exact Nat.le_of_lt h

theorem Tally.total_le (h : Tally N rounds s) : total (added rounds) N s ≤ N * rounds := by
  calc total (added rounds) N s ≤ ∑ _t ∈ Finset.range N, rounds :=
        Finset.sum_le_sum fun t _ => (h.within t).added_le
    _ = N * rounds := by rw [Finset.sum_const, Finset.card_range, smul_eq_mul]

theorem total_finished (h : ∀ t < N, s.place t = .finished) :
    total (added rounds) N s = N * rounds := by
  calc total (added rounds) N s = ∑ _t ∈ Finset.range N, rounds :=
        Finset.sum_congr rfl fun t ht => by rw [h t (Finset.mem_range.mp ht)]; rfl
    _ = N * rounds := by rw [Finset.sum_const, Finset.card_range, smul_eq_mul]

theorem result_reachable (h : (machine N rounds).Reachable s) :
    ∀ v, s.main = .done v → v = (N * rounds : Nat) := by
  refine h.invariant_of (J := fun s => Basic N s ∧ Tally N rounds s)
    (I := fun s => ∀ v, s.main = .done v → v = (N * rounds : Nat))
    (fun s hs => ⟨basic_reachable hs, tally_reachable hs⟩) ?_ ?_
  · rintro s rfl v hv
    cases hv
  · rintro s a s' ⟨hb, ht⟩ hi - hs v hv
    obtain ⟨-, hmain | ⟨t, hthread⟩⟩ := next_cases hs
    · cases mainStep_of_main hmain with
      | print before after =>
          subst after
          cases hv
          have hjoined := hb.joined
          rw [before] at hjoined
          rw [ht.shared, total_finished (N := N) hjoined]
      | _ =>
          rename_i after
          subst after
          cases hv
    · cases step_of_thread hthread with
      | move place move main exited => exact hi v (main ▸ hv)
      | thrown place shared printed main exited => exact hi v (main ▸ hv)

/-- **No increment is lost**, although the mutex may forget its owner: at most one thread is between lock
and unlock, the values printed are `1, 2, 3, …` in this order, and what `main` prints in the end is the
number of all rounds. -/
theorem values_in_order (h : (machine N rounds).Reachable s) :
    (∀ t u, (s.place t).client = .holding → (s.place u).client = .holding → t = u)
      ∧ (∃ k, s.printed.map Prod.snd = upTo k) ∧ s.sharedResource ≤ (N * rounds : Nat)
      ∧ ∀ v, s.main = .done v → v = (N * rounds : Nat) := by
  have hb := basic_reachable h
  have ht := tally_reachable h
  refine ⟨fun t u hpt hpu => ?_, ⟨_, ht.printed⟩, ?_, result_reachable h⟩
  · exact hb.alone (by rw [hpu]; rfl) (by rw [hpt]; rfl)
  · have := ht.total_le
    rw [ht.shared]
    omega

/-- Two threads of one round each; the second waits for the first. -/
def shortRun : List Party :=
  List.replicate 3 .main ++ List.replicate 7 (.thread 0) ++ List.replicate 4 (.thread 1)
    ++ List.replicate 12 (.thread 0) ++ List.replicate 15 (.thread 1) ++ List.replicate 4 .main

theorem values_in_order_run : ∃ s, (machine 2 1).Reachable s ∧ s.main = .done 2
    ∧ (∃ k, s.printed.map Prod.snd = upTo k) ∧ s.sharedResource ≤ 2 := by
  obtain ⟨s, hr, hs⟩ := Machine.exists_reachable_of_exec (M := machine 2 1) (s := start)
    (l := shortRun) (p := fun s => decide (s.main = .done 2)) rfl (by decide +kernel)
  obtain ⟨-, hprinted, hle, -⟩ := values_in_order hr
  exact ⟨s, hr, of_decide_eq_true hs, hprinted, hle⟩

/-! ## Every run ends -/

/-- A thread without a step is not there, has finished, or waits for the mutex. -/
theorem thread_none (h : threadFunction rounds s t = none) :
    s.place t = .absent ∨ s.place t = .finished ∨ clientStep 0 s.clients t = none := by
  have hplace : s.clients.place t = (s.place t).client := rfl
  unfold threadFunction at h
  simp only [clientStep, hplace]
  cases hp : s.place t with
  | absent => exact .inl rfl
  | finished => exact .inr (.inl rfl)
  | locking i pc =>
      rw [hp] at h
      refine .inr (.inr (Option.map_eq_none_iff.mpr ?_))
      exact Option.map_eq_none_iff.mp h
  | unlocking i pc =>
      rw [hp] at h
      refine .inr (.inr (Option.map_eq_none_iff.mpr ?_))
      exact Option.map_eq_none_iff.mp h
  | _ =>
      rw [hp] at h
      cases h

/-- As long as a thread is there and has not finished, some thread has a step. -/
theorem Basic.moves (rounds : Nat) (h : Basic N s) (ht : s.place t ≠ .absent)
    (hend : s.place t ≠ .finished) :
    ∃ u, threadFunction rounds s u ≠ none := by
  by_contra hnone
  push Not at hnone
  have hstuck := ((thread_none (hnone t)).resolve_left ht).resolve_left hend
  obtain ⟨u, hu, howns, hmoves⟩ := h.guard.ahead (h.lt ht) hstuck
  rcases thread_none (hnone u) with hp | hp | hp
  · change (s.place u).client.owns = true at howns
    rw [hp] at howns
    cases howns
  · change (s.place u).client.owns = true at howns
    rw [hp] at howns
    cases howns
  · exact hmoves hp

/-- **Where a run ends**, `main` has printed the number of all rounds, or an unlock has ended the
process. -/
theorem ends_counted (h : (machine N rounds).Reachable s) (hs : (machine N rounds).Stuck s) :
    s.exited = true ∨ s.main = .done (N * rounds : Nat) := by
  have hb := basic_reachable h
  cases hexited : s.exited with
  | true => exact .inl rfl
  | false =>
      have hmain : main N s = none := by simpa [machine, hexited] using hs .main
      have hthread : ∀ t, threadFunction rounds s t = none := fun t => by
        simpa [machine, hexited] using hs (.thread t)
      refine .inr ?_
      unfold main at hmain
      cases hm : s.main with
      | create i =>
          rw [hm] at hmain
          simp only at hmain
          split_ifs at hmain
      | join i =>
          rw [hm] at hmain
          simp only at hmain
          split_ifs at hmain with hi hended
          have hmade : s.place i ≠ .absent := (hb.made i).mpr (by rw [hm]; exact hi)
          obtain ⟨u, hu⟩ := hb.moves rounds hmade hended
          exact absurd (hthread u) hu
      | print => rw [hm] at hmain; cases hmain
      | done v => rw [result_reachable h v hm]

theorem stuck_of_done {v : Int} (h : Basic N s) (hd : s.main = .done v) :
    (machine N rounds).Stuck s := by
  intro a
  simp only [machine]
  split_ifs
  · rfl
  · cases a with
    | main => simp only [main, hd]
    | thread t =>
        have hplace : s.place t = .absent ∨ s.place t = .finished := by
          by_cases ht : t < N
          · exact .inr (h.joined t (by rw [hd]; exact ht))
          · by_contra hne
            push Not at hne
            exact ht (h.lt hne.1)
        rcases hplace with hp | hp <;> simp only [threadFunction, hp]

theorem ends_counted_run : ∃ s, (machine 2 1).Reachable s ∧ s.exited = false
    ∧ (s.exited = true ∨ s.main = .done 2) := by
  obtain ⟨s, hr, hs⟩ := Machine.exists_reachable_of_exec (M := machine 2 1) (s := start)
    (l := shortRun) (p := fun s => decide (s.main = .done 2 ∧ s.exited = false)) rfl
    (by decide +kernel)
  obtain ⟨hdone, hexited⟩ := of_decide_eq_true hs
  exact ⟨s, hr, hexited, ends_counted hr (stuck_of_done (basic_reachable hr) hdone)⟩

/-- How many steps a thread is from its end at most. -/
def left (rounds : Nat) : ThreadPc → Nat
  | .absent | .finished => 0
  | .loop i => 20 * (rounds - i) + 1
  | .locking i pc => 20 * (rounds - (i + 1)) + 13 + lockLeft pc
  | .readShared i => 20 * (rounds - (i + 1)) + 13
  | .writeShared i _ => 20 * (rounds - (i + 1)) + 12
  | .print i => 20 * (rounds - (i + 1)) + 11
  | .unlocking i pc => 20 * (rounds - (i + 1)) + 1 + unlockLeft pc

def MainPc.left (N rounds : Nat) : MainPc → Nat
  | .create i => (N - i) * (20 * rounds + 2) + N + 3
  | .join i => N - i + 2
  | .print => 1
  | .done _ => 0

def rank (N rounds : Nat) (s : Program) : Nat :=
  s.main.left N rounds + total (left rounds) N s + if s.exited then 0 else 1

theorem lockLeft_pos (pc : LockPc) : 0 < lockLeft pc := by cases pc <;> exact Nat.succ_pos _

theorem unlockLeft_pos (pc : UnlockPc) : 0 < unlockLeft pc := by cases pc <;> exact Nat.succ_pos _

theorem Move.left_lt {x x' : Int} {l l' : List (Nat × Int)} (h : Move rounds x l p x' l' p') :
    left rounds p' < left rounds p := by
  cases h with
  | enter hi =>
      simp only [left, lockLeft]
      omega
  | leave hi => exact Nat.succ_pos _
  | locking hlt =>
      simp only [left]
      omega
  | @locked i pc =>
      have := lockLeft_pos pc
      simp only [left]
      omega
  | unlocking hlt =>
      simp only [left]
      omega
  | @unlocked i pc =>
      have := unlockLeft_pos pc
      simp only [left]
      omega
  | _ => simp [left, unlockLeft]

theorem rank_lt {a : Party} (hb : Basic N s) (hs : (machine N rounds).next s a = some s') :
    rank N rounds s' < rank N rounds s := by
  obtain ⟨hrun, hmain | ⟨t, hthread⟩⟩ := next_cases hs
  · cases mainStep_of_main hmain with
    | @create i hi before after =>
        have habsent : s.place i = .absent := by
          by_contra hne
          have hlt := (hb.made i).mp hne
          rw [before] at hlt
          exact Nat.lt_irrefl i hlt
        have hplace : s'.place = Function.update s.place i (.loop 0) := by rw [after]; rfl
        have hsum := total_update (f := left rounds) hi hplace
        rw [habsent] at hsum
        have hstep : (N - i) * (20 * rounds + 2)
            = (N - (i + 1)) * (20 * rounds + 2) + (20 * rounds + 2) := by
          rw [← Nat.succ_mul]
          congr 1
          omega
        have hm : s'.main = .create (i + 1) := by rw [after]
        have hexited : s'.exited = false := by rw [after]; exact hrun
        simp only [rank, hm, before, hexited, hrun, MainPc.left, hstep, left] at hsum ⊢
        omega
    | @created i hi before after =>
        subst after
        simp only [rank, before, MainPc.left, total]
        omega
    | @join i hi before ended after =>
        subst after
        simp only [rank, before, MainPc.left, total]
        omega
    | @joined i hi before after =>
        subst after
        simp only [rank, before, MainPc.left, total]
        omega
    | print before after =>
        subst after
        simp only [rank, before, MainPc.left, total]
        omega
  · cases step_of_thread hthread with
    | move place move main exited =>
        have hsum := total_update (f := left rounds) (hb.lt move.not_absent.1) place
        have := move.left_lt
        simp only [rank, main, exited]
        omega
    | thrown place shared printed main exited =>
        simp only [rank, main, exited, hrun, total, place]
        simp

/-- **Every run ends.** -/
theorem counter_ends : ¬ ∃ run : Nat → Program, run 0 = start
    ∧ ∀ i, ∃ a, (machine N rounds).next (run i) a = some (run (i + 1)) := by
  rintro ⟨run, hstart, hrun⟩
  refine Machine.not_infinite_from (I := Basic N) (fun _ _ => True) (rank N rounds) ?_
    (hstart ▸ basic_start) fun i => (hrun i).imp fun a ha => ⟨trivial, ha⟩
  exact fun s a s' hb _ hs => ⟨basic_next hb hs, rank_lt hb hs⟩

end OSLab.Foothread.Counter
