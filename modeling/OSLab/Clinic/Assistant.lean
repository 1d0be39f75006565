import OSLab.Clinic.EventQueue
import OSLab.Lib.Text

set_option autoImplicit false

/-! # The assistant's desk

The variables of `session.c` that the assistant works with, and the blocks of its loop as
functions on them. The three classes of visitors have each the same counters, so `current_reporter`
is `current .reporter`, and so on: the last token called, the number waiting and the last token
given out. Patients and sales representatives have a quota.

The counters tie up (`Counts`): as long as the session goes on, those called and those waiting
are all who were admitted, and when it is closed nobody waits and the quotas are used up.

The times are of type `int`. The assistant adds durations to them, and on a day that is short enough
(`FitsDay`) no sum wraps around.
-/

namespace OSLab.Clinic

/-- The three classes of visitors. -/
inductive Kind
  | reporter
  | patient
  | salesRep
  deriving DecidableEq, Repr

instance : Fintype Kind where
  elems := {.reporter, .patient, .salesRep}
  complete := by intro k; cases k <;> decide

def Kind.type : Kind → Char
  | .reporter => 'R'
  | .patient => 'P'
  | .salesRep => 'S'

/-- The tests of `next.type`. -/
def Kind.ofType (type : Char) : Option Kind :=
  if type = 'R' then some .reporter
  else if type = 'P' then some .patient
  else if type = 'S' then some .salesRep
  else none

def NUM_PATIENTS : Nat := 25
def NUM_SALES_REPS : Nat := 3

/-- How many of a class are admitted at most. -/
def Kind.quota : Kind → Option Nat
  | .reporter => none
  | .patient => some NUM_PATIENTS
  | .salesRep => some NUM_SALES_REPS

/-- Of `n` who have come, those within the quota. -/
def Kind.within (k : Kind) (n : Nat) : Nat :=
  match k.quota with
  | none => n
  | some q => min n q

/-- One line of the file of arrivals. -/
structure Arrival where
  kind : Kind
  time : Int
  duration : Int
  deriving DecidableEq, Repr

def Arrival.event (a : Arrival) : Event := ⟨a.kind.type, a.time, a.duration⟩

/-- `wreporter`, `wpatient` and `wsales_rep`. -/
structure Waiting where
  time : Int
  duration : Int
  deriving DecidableEq, Repr

/-- The assistant's variables. -/
structure Desk where
  eventQueue : EventQ
  currentTime : Int
  sessionDone : Bool
  current : Kind → Nat
  num : Kind → Nat
  token : Kind → Nat
  waiting : Kind → Nat → Waiting

/-- The visitor who comes next is admitted. -/
def Desk.admits (d : Desk) (k : Kind) : Bool :=
  !d.sessionDone && decide (k.within (d.token k + 1) = d.token k + 1)

/-- A visitor arrives: gets a token, and is admitted or leaves. -/
def Desk.arrive (d : Desk) (k : Kind) (next : Event) : Desk where
  eventQueue := delevent d.eventQueue
  currentTime := next.time
  sessionDone := d.sessionDone
  current := d.current
  token := Function.update d.token k (d.token k + 1)
  waiting :=
    if d.admits k then
      Function.update d.waiting k
        (Function.update (d.waiting k) (d.token k + 1) ⟨next.time, next.duration⟩)
    else d.waiting
  num := if d.admits k then Function.update d.num k (d.num k + 1) else d.num

/-- An event of no known type. -/
def Desk.skip (d : Desk) (next : Event) : Desk :=
  { d with eventQueue := delevent d.eventQueue, currentTime := next.time }

/-- The assistant finds the quotas used up and no reporter waiting. -/
def Desk.finds (d : Desk) : Bool :=
  d.num .reporter == 0
    && (decide (NUM_PATIENTS ≤ d.current .patient) && decide (NUM_SALES_REPS ≤ d.current .salesRep))

/-- The doctor's event is taken out of the queue, and `session_done` is set if it is time. -/
def Desk.takeTurn (d : Desk) : Desk :=
  { d with
    eventQueue := delevent d.eventQueue
    currentTime := (nextevent d.eventQueue).time
    sessionDone := d.sessionDone || d.finds }

/-- Whom the assistant calls in: reporters before patients before sales representatives. -/
def Desk.chosen (d : Desk) : Option Kind :=
  if 0 < d.num .reporter then some .reporter
  else if 0 < d.num .patient then some .patient
  else if 0 < d.num .salesRep then some .salesRep
  else none

/-- `temp.time` for the visitor called in: the sum of two `int`s, which wraps around. -/
def Desk.visitEnd (d : Desk) (k : Kind) : Int :=
  Int.bmod (d.currentTime + (d.waiting k (d.current k + 1)).duration) (2 ^ 32)

/-- The counters when a visitor is called in. -/
def Desk.callIn (d : Desk) (k : Kind) : Desk :=
  { d with
    num := Function.update d.num k (d.num k - 1)
    current := Function.update d.current k (d.current k + 1) }

/-- The doctor's event goes back, at `temp.time`, or with `temp.time == 0` at the time of the
next event; without one the loop ends. -/
def Desk.putBack (d : Desk) (time : Int) : Option Desk :=
  if time = 0 then
    if emptyQ d.eventQueue then none
    else some { d with
      eventQueue := addevent d.eventQueue ⟨'D', (nextevent d.eventQueue).time, 0⟩ }
  else some { d with eventQueue := addevent d.eventQueue ⟨'D', time, 0⟩ }

/-- The desk before the loop, with the doctor's first event at `0`. -/
def openDesk (mem : Nat → Event) (arrivals : List Arrival) : Desk where
  eventQueue := addevent (initEQ mem (arrivals.map Arrival.event)) ⟨'D', 0, 0⟩
  currentTime := 0
  sessionDone := false
  current := fun _ => 0
  num := fun _ => 0
  token := fun _ => 0
  waiting := fun _ _ => ⟨0, 0⟩

/-- The time of the last arrival, or `0` if that is later. -/
def latest (arrivals : List Arrival) : Int := (arrivals.map Arrival.time).foldr max 0

/-- When the doctor would be through with everybody, starting after the last arrival. -/
def dayBound (arrivals : List Arrival) : Int :=
  latest arrivals + (arrivals.map Arrival.duration).sum

/-- All times of the day are within the range of `int`. -/
def FitsDay (arrivals : List Arrival) : Prop := dayBound arrivals < 2 ^ 31

instance (arrivals : List Arrival) : Decidable (FitsDay arrivals) :=
  inferInstanceAs (Decidable (_ < _))

/-! ## Times -/

theorem le_latest {arrivals : List Arrival} {a : Arrival} (ha : a ∈ arrivals) :
    a.time ≤ latest arrivals := by
  unfold latest
  induction arrivals with
  | nil => cases ha
  | cons b rest ih =>
      rcases List.mem_cons.mp ha with rfl | hrest
      · exact le_max_left _ _
      · exact (ih hrest).trans (le_max_right _ _)

theorem latest_nonneg (arrivals : List Arrival) : 0 ≤ latest arrivals := by
  unfold latest
  induction arrivals with
  | nil => exact le_rfl
  | cons b rest ih => exact ih.trans (le_max_right _ _)

/-- A visit that ends within the range of `int` ends when it should. -/
theorem Desk.visitEnd_eq {d : Desk} {k : Kind}
    (h : Text.IsInt (d.currentTime + (d.waiting k (d.current k + 1)).duration)) :
    d.visitEnd k = d.currentTime + (d.waiting k (d.current k + 1)).duration := by
  obtain ⟨hlow, hhigh⟩ := h
  apply Int.bmod_eq_of_le
  · omega
  · omega

/-! ## Classes -/

theorem Kind.ofType_eq_some {k : Kind} {type : Char} : Kind.ofType type = some k ↔ type = k.type := by
  unfold Kind.ofType
  constructor
  · intro h
    split_ifs at h <;> cases h <;> assumption
  · rintro rfl
    cases k <;> rfl

theorem Kind.type_ne (k : Kind) : k.type ≠ 'D' := by cases k <;> decide

theorem Kind.type_injective : Function.Injective Kind.type := by
  intro k k' h
  have hk := Kind.ofType_eq_some.mpr (rfl : k.type = k.type)
  rw [h, Kind.ofType_eq_some.mpr rfl] at hk
  exact (Option.some.inj hk).symm

theorem Kind.rank_lt (k : Kind) : rank k.type < rank 'D' := by cases k <;> decide

theorem Kind.within_le (k : Kind) (n : Nat) : k.within n ≤ n := by
  unfold Kind.within
  split
  · exact le_rfl
  · exact min_le_left _ _

theorem Kind.within_succ (k : Kind) (n : Nat) :
    k.within (n + 1) = if k.within (n + 1) = n + 1 then k.within n + 1 else k.within n := by
  unfold Kind.within
  split
  · rw [if_pos rfl]
  · split <;> omega

/-! ## The front of the queue -/

section Front

variable {E : EventQ} {t : Int} {pending : Multiset Arrival}

theorem queue_nonempty (h : E.events = ⟨'D', t, 0⟩ ::ₘ pending.map Arrival.event) : E.n ≠ 0 := by
  intro hn
  have hzero := events_eq_zero_iff.mpr hn
  rw [h] at hzero
  exact Multiset.cons_ne_zero hzero

/-- The front is somebody who arrives, or the doctor's event. -/
theorem queue_front (h : E.events = ⟨'D', t, 0⟩ ::ₘ pending.map Arrival.event) :
    (∃ a rest, pending = a ::ₘ rest ∧ nextevent E = a.event
        ∧ (delevent E).events = ⟨'D', t, 0⟩ ::ₘ rest.map Arrival.event)
      ∨ (nextevent E = ⟨'D', t, 0⟩ ∧ (delevent E).events = pending.map Arrival.event) := by
  have hn := queue_nonempty h
  have hcons := delevent_events hn
  have hmem := nextevent_mem hn
  rw [h] at hcons hmem
  rcases Multiset.mem_cons.mp hmem with hD | hA
  · rw [hD] at hcons
    exact .inr ⟨hD, ((Multiset.cons_inj_right _).mp hcons).symm⟩
  · obtain ⟨a, ha, hev⟩ := Multiset.mem_map.mp hA
    obtain ⟨rest, rfl⟩ := Multiset.exists_cons_of_mem ha
    rw [Multiset.map_cons, Multiset.cons_swap, ← hev] at hcons
    exact .inl ⟨a, rest, rfl, hev.symm, ((Multiset.cons_inj_right _).mp hcons).symm⟩

end Front

/-! ## The counters -/

theorem range'_snoc (n : Nat) : List.range' 1 (n + 1) = List.range' 1 n ++ [n + 1] := by
  rw [List.range'_concat, Nat.one_mul, Nat.add_comm 1 n]

/-- What the counters say. -/
structure Counts (d : Desk) : Prop where
  opened : d.sessionDone = false → ∀ k, d.current k + d.num k = k.within (d.token k)
  closed : d.sessionDone = true → ∀ k, d.num k = 0 ∧ d.current k ≤ d.token k
    ∧ ∀ q, k.quota = some q → d.current k = q

variable {d : Desk} {k : Kind} {next : Event}

theorem Counts.le (h : Counts d) (k : Kind) : d.current k + d.num k ≤ d.token k := by
  cases hs : d.sessionDone with
  | false => exact (h.opened hs k).trans_le (k.within_le _)
  | true =>
      obtain ⟨hnum, hle, -⟩ := h.closed hs k
      omega

theorem counts_open (mem : Nat → Event) (arrivals : List Arrival) :
    Counts (openDesk mem arrivals) where
  opened := fun _ k => by cases k <;> rfl
  closed := fun hs => by cases hs

theorem Desk.arrive_token_self : (d.arrive k next).token k = d.token k + 1 :=
  Function.update_self ..

theorem Desk.arrive_token_ne {k' : Kind} (hk : k' ≠ k) : (d.arrive k next).token k' = d.token k' :=
  Function.update_of_ne hk ..

theorem Desk.arrive_num_admitted (h : d.admits k = true) :
    (d.arrive k next).num k = d.num k + 1 := by
  simp [Desk.arrive, h]

theorem Desk.arrive_num_refused {k' : Kind} (h : d.admits k = false) :
    (d.arrive k next).num k' = d.num k' := by
  simp [Desk.arrive, h]

theorem Desk.arrive_num_ne {k' : Kind} (hk : k' ≠ k) : (d.arrive k next).num k' = d.num k' := by
  unfold Desk.arrive
  simp only
  split
  · exact Function.update_of_ne hk _ _
  · rfl

theorem counts_arrive (h : Counts d) : Counts (d.arrive k next) where
  opened := by
    intro hs k'
    have hs' : d.sessionDone = false := hs
    have hold := h.opened hs' k'
    show d.current k' + _ = _
    by_cases hk : k' = k
    · subst hk
      have hsucc := k'.within_succ (d.token k')
      rw [Desk.arrive_token_self]
      -- within the quota the visitor is admitted
      by_cases ha : k'.within (d.token k' + 1) = d.token k' + 1
      · rw [if_pos ha] at hsucc
        rw [Desk.arrive_num_admitted (by simp [Desk.admits, hs', ha])]
        omega
      · rw [if_neg ha] at hsucc
        rw [Desk.arrive_num_refused (by simp [Desk.admits, ha])]
        omega
    · rw [Desk.arrive_num_ne hk, Desk.arrive_token_ne hk]
      exact hold
  closed := by
    intro hs k'
    have hs' : d.sessionDone = true := hs
    obtain ⟨hnum, hle, hq⟩ := h.closed hs' k'
    refine ⟨(Desk.arrive_num_refused (by simp [Desk.admits, hs'])).trans hnum, ?_, hq⟩
    show d.current k' ≤ _
    by_cases hk : k' = k
    · subst hk
      rw [Desk.arrive_token_self]
      omega
    · rw [Desk.arrive_token_ne hk]
      exact hle

/-- The session is closed only when nobody waits. -/
theorem counts_takeTurn (h : Counts d) : Counts d.takeTurn where
  opened := by
    intro hs
    exact h.opened (Bool.or_eq_false_iff.mp hs).1
  closed := by
    intro hs k
    cases hd : d.sessionDone with
    | true => exact h.closed hd k
    | false =>
        have hfinds : d.finds = true := by simpa [Desk.takeTurn, hd] using hs
        have hle : d.current k ≤ d.token k := (Nat.le_add_right _ _).trans (h.le k)
        have hopen := h.opened hd k
        simp only [Desk.finds, Bool.and_eq_true, beq_iff_eq, decide_eq_true_eq] at hfinds
        obtain ⟨hrep, hpat, hsales⟩ := hfinds
        -- a class that has been called up to its quota has nobody waiting
        have hfull : ∀ q, k.quota = some q → q ≤ d.current k → d.num k = 0 ∧ d.current k = q := by
          intro q hq hle'
          rw [Kind.within, hq] at hopen
          simp only at hopen
          omega
        cases k with
        | reporter => exact ⟨hrep, hle, fun _ hq => by cases hq⟩
        | patient =>
            obtain ⟨hnum, hcur⟩ := hfull _ rfl hpat
            exact ⟨hnum, hle, fun q hq => by cases hq; exact hcur⟩
        | salesRep =>
            obtain ⟨hnum, hcur⟩ := hfull _ rfl hsales
            exact ⟨hnum, hle, fun q hq => by cases hq; exact hcur⟩

theorem Desk.chosen_pos (h : d.chosen = some k) : 0 < d.num k := by
  unfold Desk.chosen at h
  split_ifs at h <;> cases h <;> assumption

theorem Desk.chosen_none (h : d.chosen = none) (k : Kind) : d.num k = 0 := by
  unfold Desk.chosen at h
  split_ifs at h with hr hp hs
  cases k <;> omega

/-- Nobody of a class that comes before is waiting. -/
theorem chosen_first {k' : Kind} {n : Nat} (h : d.chosen = some k) (hpos : 0 < d.num k')
    (hle : d.current k' + 1 ≤ n) :
    rank k.type < rank k'.type ∨ k = k' ∧ d.current k + 1 ≤ n := by
  have hcases : rank k.type < rank k'.type ∨ k = k' := by
    unfold Desk.chosen at h
    split_ifs at h with hr hp hs <;> cases h <;> cases k' <;> first | exact .inr rfl | skip
    · exact .inl (by decide)
    · exact .inl (by decide)
    · exact absurd hpos hr
    · exact .inl (by decide)
    · exact absurd hpos hr
    · exact absurd hpos hp
  rcases hcases with hlt | rfl
  · exact .inl hlt
  · exact .inr ⟨rfl, hle⟩

theorem Desk.admits_iff {d : Desk} (h : Counts d) (k : Kind) :
    d.admits k = true ↔ d.sessionDone = false ∧ d.current k + d.num k = d.token k
      ∧ k.within (d.token k + 1) = d.token k + 1 := by
  have hle := k.within_le (d.token k)
  have hsucc := k.within_succ (d.token k)
  simp only [Desk.admits, Bool.and_eq_true, Bool.not_eq_true', decide_eq_true_eq]
  constructor
  · rintro ⟨hs, ha⟩
    rw [if_pos ha] at hsucc
    have := h.opened hs k
    exact ⟨hs, by omega, ha⟩
  · rintro ⟨hs, -, ha⟩
    exact ⟨hs, ha⟩

/-- Whoever is called in was waiting. -/
theorem callIn_sum (hpos : 0 < d.num k) (k' : Kind) :
    (d.callIn k).current k' + (d.callIn k).num k' = d.current k' + d.num k' := by
  by_cases hkk : k' = k
  · subst hkk
    simp only [Desk.callIn, Function.update_self]
    omega
  · simp only [Desk.callIn, Function.update_of_ne hkk]

theorem counts_callIn (h : Counts d) (hk : d.chosen = some k) : Counts (d.callIn k) where
  opened := by
    intro hs k'
    exact (callIn_sum (d.chosen_pos hk) k').trans (h.opened hs k')
  closed := by
    intro hs k'
    have hpos := d.chosen_pos hk
    have hnum := (h.closed hs k).1
    omega

theorem counts_putBack {d' : Desk} {time : Int} (h : Counts d) (hd : d.putBack time = some d') :
    Counts d' := by
  unfold Desk.putBack at hd
  split_ifs at hd <;> cases hd <;> exact ⟨h.opened, h.closed⟩

end OSLab.Clinic
