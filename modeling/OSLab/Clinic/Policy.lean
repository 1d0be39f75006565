import OSLab.Clinic.Assistant

set_option autoImplicit false

/-! # The policy of the clinic

The loop of `assistant` as a sequential program: each handshake with the doctor completes, so a
visit takes the time the assistant adds up for it. One `Day.turn` handles one event of the
queue. The day keeps what the threads print: the arrivals in the order in which they are taken
from the queue, each with its token and whether `session_done` was set, and the visits with their
times. A loop that has ended stays as it is, and it ends (`session_ended`).

The schedule that comes out follows the clinic's policy (`session_policy`). Two facts carry the
proof. The doctor's event, the only `D` in the queue, is never later than the previous visit's
end or the arrival of somebody who is still unserved (`Agenda.prompt`). And at equal times it
comes after all arrivals, so whoever has arrived by the start of a visit has been taken in.

The day has to fit the range of `int` (`FitsDay`): what is left to do of it always does
(`Agenda.room`), so a visit ends when it should. On a longer day a visit may end before it has begun
(`session_overflows`).
-/

namespace OSLab.Clinic

/-- What is printed of an arrival. -/
structure Entry where
  arrival : Arrival
  token : Nat
  late : Bool
  deriving DecidableEq, Repr

/-- What is printed of a visit. -/
structure Visit where
  kind : Kind
  token : Nat
  start : Int
  finish : Int
  deriving DecidableEq, Repr

structure Day where
  desk : Desk
  log : List Entry
  visits : List Visit
  ended : Bool

def startDay (mem : Nat → Event) (arrivals : List Arrival) : Day :=
  ⟨openDesk mem arrivals, [], [], false⟩

/-- The doctor's event is put back, or the loop ends. -/
def Day.resume (x : Day) (d : Desk) (visits : List Visit) (time : Int) : Day :=
  match d.putBack time with
  | some d' => { x with desk := d', visits := visits }
  | none => { x with desk := d, visits := visits, ended := true }

/-- The assistant handles the next event. -/
def Day.turn (x : Day) : Day :=
  if x.ended then x
  else if emptyQ x.desk.eventQueue then { x with ended := true }
  else
    let next := nextevent x.desk.eventQueue
    if next.type = 'D' then
      let d := x.desk.takeTurn
      match d.chosen with
      | some k => x.resume (d.callIn k)
          (x.visits ++ [⟨k, d.current k + 1, d.currentTime, d.visitEnd k⟩]) (d.visitEnd k)
      | none => x.resume d x.visits 0
    else
      match Kind.ofType next.type with
      | some k => { x with
          desk := x.desk.arrive k next
          log := x.log ++ [⟨⟨k, next.time, next.duration⟩, x.desk.token k + 1, x.desk.sessionDone⟩] }
      | none => { x with desk := x.desk.skip next }

/-- The loop, with enough turns for it to end. -/
def session (mem : Nat → Event) (arrivals : List Arrival) : Day :=
  Day.turn^[3 * arrivals.length + 2] (startDay mem arrivals)

/-! ## The policy -/

/-- The visitor is admitted: not after the end of the session, and within the quota. -/
def Entry.admitted (e : Entry) : Bool :=
  !e.late && decide (e.arrival.kind.within e.token = e.token)

/-- The visitor has been to the doctor. -/
def Served (visits : List Visit) (e : Entry) : Prop :=
  ∃ v ∈ visits, v.kind = e.arrival.kind ∧ v.token = e.token

/-- The visitor waits at time `t`, after these visits. -/
def WaitsAt (visits : List Visit) (t : Int) (e : Entry) : Prop :=
  e.admitted = true ∧ e.arrival.time ≤ t ∧ ¬ Served visits e

/-- When the last visit ends; `0` before the first. -/
def lastEnd (visits : List Visit) : Int := (visits.getLast?.map Visit.finish).getD 0

/-- The visit after `pre` is as the policy has it. -/
structure GoodVisit (log : List Entry) (pre : List Visit) (v : Visit) : Prop where
  nonneg : 0 ≤ v.start
  afterLast : lastEnd pre ≤ v.start
  visitor : ∃ e ∈ log, e.arrival.kind = v.kind ∧ e.token = v.token ∧ WaitsAt pre v.start e
    ∧ v.finish = v.start + e.arrival.duration
  first : ∀ e ∈ log, WaitsAt pre v.start e → rank v.kind.type < rank e.arrival.kind.type
    ∨ v.kind = e.arrival.kind ∧ v.token ≤ e.token
  prompt : ∀ e ∈ log, e.admitted = true → ¬ Served pre e →
    v.start ≤ max (max (lastEnd pre) 0) e.arrival.time

/-- Who is to be served: reporters who come before the session is done, the first `25` patients
and the first `3` sales representatives. -/
def ToBeServed (e : Entry) : Prop :=
  match e.arrival.kind with
  | .reporter => e.late = false
  | .patient => e.token ≤ 25
  | .salesRep => e.token ≤ 3

/-- **The policy.** Everybody who comes gets the next token of the class, in the order of arrival;
each visit is good; and who is to be served is served, once, and nobody else. -/
structure Policy (arrivals : List Arrival) (x : Day) : Prop where
  log : (x.log.map Entry.arrival).Perm arrivals
  sorted : x.log.Pairwise fun e e' => e.arrival.time ≤ e'.arrival.time
  tokens : ∀ k, ∃ n, (x.log.filter fun e => e.arrival.kind = k).map Entry.token = List.range' 1 n
  visits : ∀ pre v, pre ++ [v] <+: x.visits → GoodVisit x.log pre v
  once : (x.visits.map fun v => (v.kind, v.token)).Nodup
  served : ∀ e ∈ x.log, Served x.visits e ↔ ToBeServed e

/-! ## What the desk knows of the day -/

structure History (x : Day) : Prop where
  counts : Counts x.desk
  tokens : ∀ k, (x.log.filter fun e => e.arrival.kind = k).map Entry.token
    = List.range' 1 (x.desk.token k)
  served : ∀ k, (x.visits.filter fun v => v.kind = k).map Visit.token
    = List.range' 1 (x.desk.current k)
  admitted : ∀ e ∈ x.log, e.admitted = true
    ↔ e.token ≤ x.desk.current e.arrival.kind + x.desk.num e.arrival.kind
  waiting : ∀ e ∈ x.log, e.admitted = true →
    x.desk.waiting e.arrival.kind e.token = ⟨e.arrival.time, e.arrival.duration⟩
  late : ∀ e ∈ x.log, e.late = true → ∀ q, e.arrival.kind.quota = some q → q < e.token

variable {x : Day} {arrivals : List Arrival} {k : Kind} {e : Entry} {n : Nat}

theorem History.token_mem (h : History x) (he : e ∈ x.log) :
    1 ≤ e.token ∧ e.token ≤ x.desk.token e.arrival.kind := by
  have hmem : e.token ∈ (x.log.filter fun e' => e'.arrival.kind = e.arrival.kind).map Entry.token :=
    List.mem_map.mpr ⟨e, List.mem_filter.mpr ⟨he, by simp⟩, rfl⟩
  rw [h.tokens, List.mem_range'_1] at hmem
  omega

/-- Every token given out is in the log. -/
theorem History.exists_token (h : History x) (h1 : 1 ≤ n) (hn : n ≤ x.desk.token k) :
    ∃ e ∈ x.log, e.arrival.kind = k ∧ e.token = n := by
  have hmem : n ∈ List.range' 1 (x.desk.token k) := List.mem_range'_1.mpr (by omega)
  rw [← h.tokens] at hmem
  obtain ⟨e, he, rfl⟩ := List.mem_map.mp hmem
  obtain ⟨hlog, hk⟩ := List.mem_filter.mp he
  exact ⟨e, hlog, of_decide_eq_true hk, rfl⟩

/-- Whoever has been called has been served. -/
theorem History.served_iff (h : History x) (he : e ∈ x.log) :
    Served x.visits e ↔ e.token ≤ x.desk.current e.arrival.kind := by
  have h1 := (h.token_mem he).1
  have hmem : Served x.visits e
      ↔ e.token ∈ (x.visits.filter fun v => v.kind = e.arrival.kind).map Visit.token := by
    simp only [Served, List.mem_map, List.mem_filter, decide_eq_true_eq]
    constructor
    · rintro ⟨v, hv, hk, ht⟩
      exact ⟨v, ⟨hv, hk⟩, ht⟩
    · rintro ⟨v, ⟨hv, hk⟩, ht⟩
      exact ⟨v, hv, hk, ht⟩
  rw [hmem, h.served, List.mem_range'_1]
  omega

theorem history_start (mem : Nat → Event) (arrivals : List Arrival) :
    History (startDay mem arrivals) where
  counts := counts_open mem arrivals
  tokens := fun _ => rfl
  served := fun _ => rfl
  admitted := fun _ he => by cases he
  waiting := fun _ he => by cases he
  late := fun _ he => by cases he

/-- Changes of the queue, the clock and `ended` are of no account. -/
theorem History.of_same {y : Day} (h : History x) (hc : Counts y.desk) (hlog : y.log = x.log)
    (hvisits : y.visits = x.visits) (hcur : y.desk.current = x.desk.current)
    (hnum : y.desk.num = x.desk.num) (htoken : y.desk.token = x.desk.token)
    (hwaiting : y.desk.waiting = x.desk.waiting) : History y where
  counts := hc
  tokens := by rw [hlog, htoken]; exact h.tokens
  served := by rw [hvisits, hcur]; exact h.served
  admitted := by rw [hlog, hcur, hnum]; exact h.admitted
  waiting := by rw [hlog, hwaiting]; exact h.waiting
  late := by rw [hlog]; exact h.late

theorem history_arrive (h : History x) (next : Event) :
    History { x with
      desk := x.desk.arrive k next
      log := x.log ++ [⟨⟨k, next.time, next.duration⟩, x.desk.token k + 1, x.desk.sessionDone⟩] } := by
  have hiff := x.desk.admits_iff h.counts k
  have hle := h.counts.le k
  refine ⟨counts_arrive h.counts, fun k' => ?_, h.served, fun e he => ?_, fun e he ha => ?_,
    fun e he hl q hq => ?_⟩
  · rw [List.filter_append, List.map_append, h.tokens]
    by_cases hk : k = k'
    · subst hk
      simp [Desk.arrive, range'_snoc]
    · simp [Desk.arrive, hk, Function.update_of_ne (Ne.symm hk)]
  · rcases List.mem_append.mp he with hold | hnew
    · have htok := (h.token_mem hold).2
      rw [h.admitted e hold]
      by_cases hk : e.arrival.kind = k
      · subst hk
        show _ ↔ e.token ≤ x.desk.current _ + (x.desk.arrive _ next).num _
        cases hadm : x.desk.admits e.arrival.kind with
        | true =>
            have hall := (hiff.mp hadm).2.1
            rw [Desk.arrive_num_admitted hadm]
            omega
        | false => rw [Desk.arrive_num_refused hadm]
      · show _ ↔ e.token ≤ x.desk.current _ + (x.desk.arrive k next).num _
        rw [Desk.arrive_num_ne hk]
    · obtain rfl := List.mem_singleton.mp hnew
      have hadm : Entry.admitted ⟨⟨k, next.time, next.duration⟩, x.desk.token k + 1,
          x.desk.sessionDone⟩ = x.desk.admits k := rfl
      rw [hadm]
      show _ ↔ x.desk.token k + 1 ≤ x.desk.current k + (x.desk.arrive k next).num k
      cases hd : x.desk.admits k with
      | true =>
          have hall := (hiff.mp hd).2.1
          rw [Desk.arrive_num_admitted hd]
          exact iff_of_true rfl (by omega)
      | false =>
          rw [Desk.arrive_num_refused hd]
          exact iff_of_false Bool.false_ne_true (by omega)
  · rcases List.mem_append.mp he with hold | hnew
    · have htok := (h.token_mem hold).2
      rw [← h.waiting e hold ha]
      -- the new token is above every token there is
      show (x.desk.arrive k next).waiting e.arrival.kind e.token = _
      unfold Desk.arrive
      simp only
      split
      · by_cases hk : e.arrival.kind = k
        · subst hk
          rw [Function.update_self, Function.update_of_ne (by omega)]
        · rw [Function.update_of_ne hk]
      · rfl
    · obtain rfl := List.mem_singleton.mp hnew
      have hadm : x.desk.admits k = true := ha
      simp [Desk.arrive, hadm]
  · rcases List.mem_append.mp he with hold | hnew
    · exact h.late e hold hl q hq
    · obtain rfl := List.mem_singleton.mp hnew
      obtain ⟨-, hcur, hquota⟩ := h.counts.closed hl k
      have := hquota q hq
      show q < x.desk.token k + 1
      omega

theorem history_takeTurn (h : History x) : History { x with desk := x.desk.takeTurn } :=
  h.of_same (counts_takeTurn h.counts) rfl rfl rfl rfl rfl rfl

theorem history_callIn (h : History x) (hk : x.desk.chosen = some k) (start finish : Int) :
    History { x with
      desk := x.desk.callIn k
      visits := x.visits ++ [⟨k, x.desk.current k + 1, start, finish⟩] } := by
  have hpos := x.desk.chosen_pos hk
  refine ⟨counts_callIn h.counts hk, h.tokens, fun k' => ?_, fun e he => ?_, h.waiting, h.late⟩
  · rw [List.filter_append, List.map_append, h.served]
    by_cases hkk : k = k'
    · subst hkk
      simp [Desk.callIn, range'_snoc]
    · simp [Desk.callIn, hkk, Function.update_of_ne (Ne.symm hkk)]
  · rw [h.admitted e he]
    exact (callIn_sum hpos e.arrival.kind) ▸ Iff.rfl

/-- With a place free in the queue of a class, its next visitor is in the log. -/
theorem History.next (h : History x) (hpos : 0 < x.desk.num k) :
    ∃ e ∈ x.log, e.arrival.kind = k ∧ e.token = x.desk.current k + 1 ∧ e.admitted = true
      ∧ x.desk.waiting k (x.desk.current k + 1) = ⟨e.arrival.time, e.arrival.duration⟩ := by
  have hle := h.counts.le k
  obtain ⟨e, he, rfl, htok⟩ := h.exists_token (k := k) (n := x.desk.current k + 1) (by omega)
    (by omega)
  have hadm : e.admitted = true := (h.admitted e he).mpr (by omega)
  exact ⟨e, he, rfl, htok, hadm, htok ▸ h.waiting e he hadm⟩

/-- Whoever is admitted and not served is counted as waiting. -/
theorem History.num_pos (h : History x) (he : e ∈ x.log) (ha : e.admitted = true)
    (hs : ¬ Served x.visits e) : 0 < x.desk.num e.arrival.kind
      ∧ x.desk.current e.arrival.kind + 1 ≤ e.token := by
  have hle := (h.admitted e he).mp ha
  rw [h.served_iff he] at hs
  omega

/-! ## What is left of the day -/

/-- How long the visitor still has to be with the doctor. -/
def Desk.owed (d : Desk) (e : Entry) : Int :=
  if e.token ≤ d.current e.arrival.kind then 0 else e.arrival.duration

/-- The durations of all visits to come, of those in the log and of those who are still to come. -/
def Day.ahead (x : Day) (pending : Multiset Arrival) : Int :=
  (x.log.map x.desk.owed).sum + (pending.map Arrival.duration).sum

theorem Desk.owed_le (d : Desk) (h : 0 < e.arrival.duration) :
    0 ≤ d.owed e ∧ d.owed e ≤ e.arrival.duration := by
  unfold Desk.owed
  split
  · exact ⟨le_rfl, h.le⟩
  · exact ⟨h.le, le_rfl⟩

/-- Whoever is called in is owed nothing more. -/
theorem Desk.owed_callIn (d : Desk) (h : 0 < e.arrival.duration) :
    (d.callIn k).owed e ≤ d.owed e := by
  have hcur : d.current e.arrival.kind ≤ (d.callIn k).current e.arrival.kind := by
    by_cases hk : e.arrival.kind = k
    · subst hk
      simp [Desk.callIn]
    · simp [Desk.callIn, Function.update_of_ne hk]
  unfold Desk.owed
  split_ifs <;> omega

theorem owed_sum_callIn {d : Desk} {log : List Entry} (hpos : ∀ e ∈ log, 0 < e.arrival.duration)
    (he : e ∈ log) (htok : e.token = d.current e.arrival.kind + 1) :
    (log.map (d.callIn e.arrival.kind).owed).sum + e.arrival.duration
      ≤ (log.map d.owed).sum := by
  have hle : ∀ l : List Entry, (∀ e' ∈ l, e' ∈ log) →
      (l.map (d.callIn e.arrival.kind).owed).sum ≤ (l.map d.owed).sum := fun l hl =>
    List.sum_le_sum fun e' he' => d.owed_callIn (hpos e' (hl e' he'))
  obtain ⟨before, after, rfl⟩ := List.append_of_mem he
  have hbefore := hle before fun e' he' => List.mem_append_left _ he'
  have hafter := hle after fun e' he' => List.mem_append_right _ (List.mem_cons_of_mem _ he')
  have howed : d.owed e = e.arrival.duration := if_neg (by omega)
  have hnow : (d.callIn e.arrival.kind).owed e = 0 := if_pos (by simp [Desk.callIn, htok])
  simp only [List.map_append, List.map_cons, List.sum_append, List.sum_cons, howed, hnow]
  omega

theorem owed_sum_nonneg {log : List Entry} (d : Desk) (hpos : ∀ e ∈ log, 0 < e.arrival.duration) :
    0 ≤ (log.map d.owed).sum := by
  apply List.sum_nonneg
  intro z hz
  obtain ⟨e, he, rfl⟩ := List.mem_map.mp hz
  exact (d.owed_le (hpos e he)).1

/-! ## The queue and the clock -/

/-- While the loop goes on: the queue holds the doctor's event, at `t`, and those who are still to
come; `t` is neither too early nor too late. -/
structure Agenda (arrivals : List Arrival) (x : Day) (t : Int) (pending : Multiset Arrival) :
    Prop where
  ordered : x.desk.eventQueue.Ordered
  queue : x.desk.eventQueue.events = ⟨'D', t, 0⟩ ::ₘ pending.map Arrival.event
  all : (x.log.map Entry.arrival : Multiset Arrival) + pending = arrivals
  nonneg : 0 ≤ t
  past : ∀ e ∈ x.log, e.arrival.time ≤ t
  later : ∀ e ∈ x.log, ∀ a ∈ pending, e.arrival.time ≤ a.time
  future : ∀ a ∈ pending, ∀ v ∈ x.visits, v.start < a.time
  afterLast : lastEnd x.visits ≤ t
  prompt : ∀ e ∈ x.log, e.admitted = true → ¬ Served x.visits e →
    t ≤ max (lastEnd x.visits) e.arrival.time
  promptPending : ∀ a ∈ pending, t ≤ max (lastEnd x.visits) a.time
  room : t + x.ahead pending ≤ dayBound arrivals

variable {t : Int} {pending : Multiset Arrival}

theorem Arrival.event_type_ne (a : Arrival) : a.event.type ≠ 'D' := a.kind.type_ne

/-- An arrival at the time of the doctor's event comes before it. -/
theorem Arrival.lt_of_key {a : Arrival} (h : (⟨'D', t, 0⟩ : Event).key ≤ a.event.key) :
    t < a.time := by
  have hrank := a.kind.rank_lt
  rcases key_le_iff.mp h with hlt | ⟨-, hle⟩
  · exact hlt
  · have : rank 'D' ≤ rank a.kind.type := hle
    omega

theorem Arrival.le_of_key {a : Arrival} {e : Event} (h : e.key ≤ a.event.key) :
    e.time ≤ a.time := by
  rcases key_le_iff.mp h with hlt | ⟨heq, -⟩
  · exact hlt.le
  · exact heq.le

theorem Agenda.nonempty (h : Agenda arrivals x t pending) : x.desk.eventQueue.n ≠ 0 :=
  queue_nonempty h.queue

/-- The front of the queue is somebody who arrives, or the doctor's event when everybody else
comes later. -/
theorem Agenda.front (h : Agenda arrivals x t pending) :
    (∃ a rest, pending = a ::ₘ rest ∧ nextevent x.desk.eventQueue = a.event ∧ a.time ≤ t
        ∧ (∀ b ∈ pending, a.time ≤ b.time)
        ∧ (delevent x.desk.eventQueue).events = ⟨'D', t, 0⟩ ::ₘ rest.map Arrival.event)
      ∨ (nextevent x.desk.eventQueue = ⟨'D', t, 0⟩ ∧ (∀ b ∈ pending, t < b.time)
        ∧ (delevent x.desk.eventQueue).events = pending.map Arrival.event) := by
  have hleast : ∀ b ∈ pending, (nextevent x.desk.eventQueue).key ≤ b.event.key := by
    intro b hb
    apply nextevent_le h.ordered
    rw [h.queue]
    exact Multiset.mem_cons_of_mem (Multiset.mem_map_of_mem _ hb)
  rcases queue_front h.queue with ⟨a, rest, hpending, hfront, hrest⟩ | ⟨hfront, hrest⟩
  · refine .inl ⟨a, rest, hpending, hfront, ?_, fun b hb => ?_, hrest⟩
    · have hD := nextevent_le h.ordered (h.queue ▸ Multiset.mem_cons_self _ _)
      rw [hfront] at hD
      rcases key_le_iff.mp hD with hlt | ⟨heq, -⟩
      · exact hlt.le
      · exact heq.le
    · exact Arrival.le_of_key (hfront ▸ hleast b hb)
  · exact .inr ⟨hfront, fun b hb => Arrival.lt_of_key (hfront ▸ hleast b hb), hrest⟩

theorem agenda_start (mem : Nat → Event) (arrivals : List Arrival) :
    Agenda arrivals (startDay mem arrivals) 0 arrivals where
  ordered := addevent_ordered (initEQ_ordered mem _) _
  queue := by
    show (addevent _ _).events = _
    rw [addevent_events, initEQ_events]
    rfl
  all := rfl
  nonneg := le_rfl
  past := fun _ he => by cases he
  later := fun _ he => by cases he
  future := fun _ _ _ hv => by cases hv
  afterLast := le_rfl
  prompt := fun _ he => by cases he
  promptPending := fun _ _ => le_max_left _ _
  room := by
    have hlatest := latest_nonneg arrivals
    have hahead : (startDay mem arrivals).ahead arrivals = (arrivals.map Arrival.duration).sum := by
      simp [Day.ahead, startDay]
    rw [hahead, dayBound]
    omega

theorem Agenda.mem_arrivals (h : Agenda arrivals x t pending) (he : e ∈ x.log) :
    e.arrival ∈ arrivals := by
  have hmem : e.arrival ∈ (arrivals : Multiset Arrival) := by
    rw [← h.all]
    exact Multiset.mem_add.mpr (.inl (List.mem_map_of_mem he))
  exact hmem

theorem Agenda.mem_pending (h : Agenda arrivals x t pending) {a : Arrival} (ha : a ∈ pending) :
    a ∈ arrivals := by
  have hmem : a ∈ (arrivals : Multiset Arrival) := by
    rw [← h.all]
    exact Multiset.mem_add.mpr (.inr ha)
  exact hmem

/-- All visits to come are visits of the file. -/
theorem Agenda.ahead_le (h : Agenda arrivals x t pending) (hpos : ∀ a ∈ arrivals, 0 < a.duration) :
    x.ahead pending ≤ (arrivals.map Arrival.duration).sum := by
  have hall := congrArg (fun m : Multiset Arrival => (m.map Arrival.duration).sum) h.all
  have howed : (x.log.map x.desk.owed).sum ≤ (x.log.map fun e => e.arrival.duration).sum :=
    List.sum_le_sum fun e he => (x.desk.owed_le (hpos _ (h.mem_arrivals he))).2
  simp only [Multiset.map_add, Multiset.sum_add, Multiset.map_coe, Multiset.sum_coe,
    List.map_map] at hall
  have hall' : (x.log.map fun e => e.arrival.duration).sum + (pending.map Arrival.duration).sum
      = (arrivals.map Arrival.duration).sum := hall
  rw [Day.ahead]
  omega

/-- With the visit of whoever is next, there is room for those that are left. -/
theorem Agenda.room_call (h : Agenda arrivals x t pending) (hpos : ∀ a ∈ arrivals, 0 < a.duration)
    {d : Desk} (hcur : d.current = x.desk.current) (he : e ∈ x.log)
    (htok : e.token = d.current e.arrival.kind + 1) :
    0 ≤ Day.ahead { x with desk := d.callIn e.arrival.kind } pending
      ∧ t + e.arrival.duration + Day.ahead { x with desk := d.callIn e.arrival.kind } pending
        ≤ dayBound arrivals := by
  have hlog : ∀ e ∈ x.log, 0 < e.arrival.duration := fun e he => hpos _ (h.mem_arrivals he)
  have hsum := owed_sum_callIn hlog he htok
  have hnonneg := owed_sum_nonneg (d.callIn e.arrival.kind) hlog
  have hpending : 0 ≤ (pending.map Arrival.duration).sum := by
    apply Multiset.sum_nonneg
    intro z hz
    obtain ⟨a, ha, rfl⟩ := Multiset.mem_map.mp hz
    exact (hpos a (h.mem_pending ha)).le
  have howed : d.owed = x.desk.owed := by
    funext e
    rw [Desk.owed, Desk.owed, hcur]
  have hroom := h.room
  rw [howed] at hsum
  simp only [Day.ahead] at hroom ⊢
  omega

/-- **The next visit ends when it should**, and there is room for the visits that are left. -/
theorem Agenda.next_visit (h : Agenda arrivals x t pending)
    (hist : History { x with desk := x.desk.takeTurn }) (hpos : ∀ a ∈ arrivals, 0 < a.duration)
    (hfits : FitsDay arrivals) (hk : x.desk.takeTurn.chosen = some k)
    (ht : x.desk.takeTurn.currentTime = t) :
    x.desk.takeTurn.visitEnd k = x.desk.takeTurn.currentTime
        + (x.desk.takeTurn.waiting k (x.desk.takeTurn.current k + 1)).duration
      ∧ t < x.desk.takeTurn.visitEnd k
      ∧ x.desk.takeTurn.visitEnd k
          + Day.ahead { x with desk := x.desk.takeTurn.callIn k } pending ≤ dayBound arrivals := by
  obtain ⟨e, he, rfl, htok, -, hwait⟩ := hist.next (Desk.chosen_pos hk)
  have hdur : 0 < e.arrival.duration := hpos _ (h.mem_arrivals he)
  obtain ⟨hnonneg, hroom⟩ := h.room_call hpos (d := x.desk.takeTurn) rfl he htok
  have hstart := h.nonneg
  have hbound : dayBound arrivals < 2 ^ 31 := hfits
  have hduration : (x.desk.takeTurn.waiting e.arrival.kind
      (x.desk.takeTurn.current e.arrival.kind + 1)).duration = e.arrival.duration := by
    rw [show x.desk.takeTurn.waiting e.arrival.kind (x.desk.takeTurn.current e.arrival.kind + 1)
      = _ from hwait]
  have hend := Desk.visitEnd_eq (d := x.desk.takeTurn) (k := e.arrival.kind)
    ⟨by rw [ht, hduration]; omega, by rw [ht, hduration]; omega⟩
  refine ⟨hend, ?_, ?_⟩
  · rw [hend, ht, hduration]
    omega
  · rw [hend, ht, hduration]
    exact hroom

/-! ## The visits are good -/

theorem lastEnd_snoc (visits : List Visit) (v : Visit) : lastEnd (visits ++ [v]) = v.finish := by
  simp [lastEnd]

/-- **The next visit**: the visitor called in at the time of the doctor's event. -/
theorem goodVisit_call {d : Desk} (h : History { x with desk := d })
    (ha : Agenda arrivals x t pending) (hk : d.chosen = some k) (ht : d.currentTime = t)
    (hend : d.visitEnd k = d.currentTime + (d.waiting k (d.current k + 1)).duration) :
    GoodVisit x.log x.visits ⟨k, d.current k + 1, d.currentTime, d.visitEnd k⟩ := by
  obtain ⟨e, he, rfl, htok, hadm, hwait⟩ := h.next (d.chosen_pos hk)
  have hserved : Served x.visits e ↔ e.token ≤ d.current e.arrival.kind := h.served_iff he
  refine ⟨ht ▸ ha.nonneg, ht ▸ ha.afterLast, ⟨e, he, rfl, htok, ⟨hadm, ?_, ?_⟩, ?_⟩,
    fun e' he' hw => ?_, fun e' he' ha' hs' => ?_⟩
  · exact ht ▸ ha.past e he
  · rw [hserved]
    have htok' : e.token = d.current e.arrival.kind + 1 := htok
    omega
  · rw [show d.waiting e.arrival.kind (d.current e.arrival.kind + 1) = _ from hwait] at hend
    exact hend
  · obtain ⟨hpos, hle⟩ := h.num_pos he' hw.1 hw.2.2
    exact chosen_first hk hpos hle
  · have hprompt := ha.prompt e' he' ha' hs'
    rw [ht]
    exact hprompt.trans (max_le_max (le_max_left _ _) le_rfl)

/-- Somebody who comes after the visit changes nothing about it. -/
theorem GoodVisit.log_snoc {pre : List Visit} {v : Visit} (h : GoodVisit x.log pre v)
    (hlate : v.start < e.arrival.time) : GoodVisit (x.log ++ [e]) pre v where
  nonneg := h.nonneg
  afterLast := h.afterLast
  visitor := by
    obtain ⟨e', he', hrest⟩ := h.visitor
    exact ⟨e', List.mem_append_left _ he', hrest⟩
  first := by
    intro e' he' hw
    rcases List.mem_append.mp he' with hold | hnew
    · exact h.first e' hold hw
    · obtain rfl := List.mem_singleton.mp hnew
      have := hw.2.1
      omega
  prompt := by
    intro e' he' ha hs
    rcases List.mem_append.mp he' with hold | hnew
    · exact h.prompt e' hold ha hs
    · obtain rfl := List.mem_singleton.mp hnew
      exact hlate.le.trans (le_max_right _ _)

/-! ## One turn -/

/-- The invariant of the day. -/
structure DayOk (arrivals : List Arrival) (x : Day) : Prop where
  history : History x
  sorted : x.log.Pairwise fun e e' => e.arrival.time ≤ e'.arrival.time
  visits : ∀ pre v, pre ++ [v] <+: x.visits → GoodVisit x.log pre v
  going : x.ended = false → ∃ t pending, Agenda arrivals x t pending
  done : x.ended = true → (x.log.map Entry.arrival).Perm arrivals ∧ ∀ k, x.desk.num k = 0

theorem dayOk_start (mem : Nat → Event) (arrivals : List Arrival) :
    DayOk arrivals (startDay mem arrivals) where
  history := history_start mem arrivals
  sorted := List.Pairwise.nil
  visits := by
    intro pre v hp
    have hlen := hp.length_le
    simp [startDay] at hlen
  going := fun _ => ⟨0, arrivals, agenda_start mem arrivals⟩
  done := fun he => by cases he

/-- Somebody arrives. -/
theorem dayOk_arrive (h : DayOk arrivals x) (hx : x.ended = false) {a : Arrival}
    {rest : Multiset Arrival} (ha : Agenda arrivals x t (a ::ₘ rest)) (htime : a.time ≤ t)
    (hleast : ∀ b ∈ a ::ₘ rest, a.time ≤ b.time)
    (hqueue : (delevent x.desk.eventQueue).events = ⟨'D', t, 0⟩ ::ₘ rest.map Arrival.event) :
    DayOk arrivals { x with
      desk := x.desk.arrive a.kind a.event
      log := x.log ++ [⟨a, x.desk.token a.kind + 1, x.desk.sessionDone⟩] } where
  history := history_arrive h.history a.event
  sorted := by
    rw [List.pairwise_append]
    refine ⟨h.sorted, List.pairwise_singleton _ _, fun e he e' he' => ?_⟩
    obtain rfl := List.mem_singleton.mp he'
    exact ha.later e he a (Multiset.mem_cons_self a rest)
  visits := by
    intro pre v hp
    have hv : v ∈ x.visits := hp.subset (by simp)
    exact (h.visits pre v hp).log_snoc (ha.future a (Multiset.mem_cons_self a rest) v hv)
  going := by
    intro _
    -- the arrival leaves the agenda, and the doctor's event stays
    refine ⟨t, rest, delevent_ordered ha.ordered, hqueue, ?_, ha.nonneg, fun e he => ?_,
      fun e he b hb => ?_, fun b hb => ha.future b (Multiset.mem_cons_of_mem hb), ha.afterLast,
      fun e he hadm hs => ?_, fun b hb => ha.promptPending b (Multiset.mem_cons_of_mem hb), ?_⟩
    · rw [← ha.all, List.map_append, ← Multiset.coe_add, add_assoc]
      rfl
    · rcases List.mem_append.mp he with hold | hnew
      · exact ha.past e hold
      · obtain rfl := List.mem_singleton.mp hnew
        exact htime
    · rcases List.mem_append.mp he with hold | hnew
      · exact ha.later e hold b (Multiset.mem_cons_of_mem hb)
      · obtain rfl := List.mem_singleton.mp hnew
        exact hleast b (Multiset.mem_cons_of_mem hb)
    · rcases List.mem_append.mp he with hold | hnew
      · exact ha.prompt e hold hadm hs
      · obtain rfl := List.mem_singleton.mp hnew
        exact ha.promptPending a (Multiset.mem_cons_self a rest)
    · -- the visit of whoever has come is still ahead
      have hle := h.history.counts.le a.kind
      have howed : Desk.owed (x.desk.arrive a.kind a.event)
          ⟨a, x.desk.token a.kind + 1, x.desk.sessionDone⟩ = a.duration := by
        refine if_neg ?_
        show ¬ x.desk.token a.kind + 1 ≤ x.desk.current a.kind
        omega
      have hroom := ha.room
      simp only [Day.ahead, List.map_append, List.sum_append, List.map_cons, List.map_nil,
        List.sum_singleton, howed, Multiset.map_cons, Multiset.sum_cons] at hroom ⊢
      show t + ((x.log.map x.desk.owed).sum + a.duration + _) ≤ _
      omega
  done := fun he => by
    rw [show x.ended = true from he] at hx
    cases hx

theorem Desk.putBack_of_ne {d : Desk} {time : Int} (h : time ≠ 0) :
    d.putBack time = some { d with eventQueue := addevent d.eventQueue ⟨'D', time, 0⟩ } :=
  if_neg h

/-- The doctor's turn, with a visitor to call in. -/
theorem dayOk_call (h : DayOk arrivals x) (hx : x.ended = false)
    (ha : Agenda arrivals x t pending) (hpos : ∀ a ∈ arrivals, 0 < a.duration)
    (hfits : FitsDay arrivals) (hfront : nextevent x.desk.eventQueue = ⟨'D', t, 0⟩)
    (hlater : ∀ b ∈ pending, t < b.time)
    (hqueue : (delevent x.desk.eventQueue).events = pending.map Arrival.event)
    (hk : x.desk.takeTurn.chosen = some k) :
    DayOk arrivals (x.resume (x.desk.takeTurn.callIn k)
      (x.visits ++ [⟨k, x.desk.takeTurn.current k + 1, x.desk.takeTurn.currentTime,
        x.desk.takeTurn.visitEnd k⟩]) (x.desk.takeTurn.visitEnd k)) := by
  have hist := history_takeTurn h.history
  have ht : x.desk.takeTurn.currentTime = t := congrArg Event.time hfront
  obtain ⟨hsum, hlong, hroom⟩ := ha.next_visit hist hpos hfits hk ht
  have hgood := goodVisit_call hist ha hk ht hsum
  have hvisit := history_callIn hist hk x.desk.takeTurn.currentTime (x.desk.takeTurn.visitEnd k)
  have hne : x.desk.takeTurn.visitEnd k ≠ 0 := (ha.nonneg.trans_lt hlong).ne'
  rw [Day.resume, Desk.putBack_of_ne hne]
  clear hsum
  generalize x.desk.takeTurn.visitEnd k = finish at hgood hvisit hlong hroom
  have hend := lastEnd_snoc x.visits ⟨k, x.desk.takeTurn.current k + 1,
    x.desk.takeTurn.currentTime, finish⟩
  refine ⟨hvisit.of_same ⟨hvisit.counts.opened, hvisit.counts.closed⟩ rfl rfl rfl rfl rfl rfl,
    h.sorted, fun pre v hp => ?_, fun _ => ?_, fun he => ?_⟩
  · rcases List.prefix_concat_iff.mp hp with heq | hold
    · obtain ⟨rfl, hv⟩ := List.append_inj' heq rfl
      obtain rfl := List.singleton_injective hv
      exact hgood
    · exact h.visits pre v hold
  · refine ⟨finish, pending, addevent_ordered (delevent_ordered ha.ordered) _, ?_, ha.all,
      ha.nonneg.trans hlong.le, fun e he => (ha.past e he).trans hlong.le, ha.later,
      fun b hb v hv => ?_, hend.le, fun _ _ _ _ => hend.ge.trans (le_max_left _ _),
      fun _ _ => hend.ge.trans (le_max_left _ _), hroom⟩
    · show (addevent (delevent x.desk.eventQueue) _).events = _
      rw [addevent_events, hqueue]
    · rcases List.mem_append.mp hv with hold | hnew
      · exact ha.future b hb v hold
      · obtain rfl := List.mem_singleton.mp hnew
        exact ht ▸ hlater b hb
  · rw [show x.ended = true from he] at hx
    cases hx

/-- The doctor's turn, with nobody there: the doctor's event goes to the next arrival, and
without one the loop ends. -/
theorem dayOk_idle (h : DayOk arrivals x) (hx : x.ended = false)
    (ha : Agenda arrivals x t pending) (hpos : ∀ a ∈ arrivals, 0 < a.duration)
    (hlater : ∀ b ∈ pending, t < b.time)
    (hqueue : (delevent x.desk.eventQueue).events = pending.map Arrival.event)
    (hk : x.desk.takeTurn.chosen = none) :
    DayOk arrivals (x.resume x.desk.takeTurn x.visits 0) := by
  have hist := history_takeTurn h.history
  have hnone : ∀ k, x.desk.takeTurn.num k = 0 := Desk.chosen_none hk
  have hempty : emptyQ x.desk.takeTurn.eventQueue = true ↔ pending = 0 := by
    show (delevent x.desk.eventQueue).n == 0 ↔ _
    rw [beq_iff_eq, ← events_eq_zero_iff, hqueue, Multiset.map_eq_zero]
  by_cases hp : pending = 0
  · have hback : x.desk.takeTurn.putBack 0 = none := by
      rw [Desk.putBack, if_pos rfl, if_pos (hempty.mpr hp)]
    rw [Day.resume, hback]
    refine ⟨hist.of_same hist.counts rfl rfl rfl rfl rfl rfl, h.sorted, h.visits,
      (fun he => by cases he), fun _ => ⟨?_, hnone⟩⟩
    have hall := ha.all
    rw [hp, add_zero] at hall
    exact Multiset.coe_eq_coe.mp hall
  · have hsome : ¬ emptyQ x.desk.takeTurn.eventQueue = true := fun he => hp (hempty.mp he)
    rw [Day.resume, Desk.putBack, if_pos rfl, if_neg hsome]
    -- the next arrival is the earliest
    have hord := delevent_ordered ha.ordered
    have hmem := nextevent_mem (E := delevent x.desk.eventQueue) fun hn =>
      hp (Multiset.map_eq_zero.mp (hqueue ▸ events_eq_zero_iff.mpr hn))
    have hleast : ∀ e ∈ (delevent x.desk.eventQueue).events,
        (nextevent (delevent x.desk.eventQueue)).key ≤ e.key := fun e he => nextevent_le hord he
    rw [hqueue] at hmem hleast
    obtain ⟨a, hmema, hev⟩ := Multiset.mem_map.mp hmem
    have htime : (nextevent (delevent x.desk.eventQueue)).time = a.time := by rw [← hev]; rfl
    have hnext : t < a.time := hlater a hmema
    refine ⟨hist.of_same ⟨hist.counts.opened, hist.counts.closed⟩ rfl rfl rfl rfl rfl rfl,
      h.sorted, h.visits, fun _ => ?_, fun he => ?_⟩
    · refine ⟨a.time, pending, addevent_ordered hord _, ?_, ha.all, ha.nonneg.trans hnext.le,
        fun e he => (ha.past e he).trans hnext.le, ha.later, ha.future,
        ha.afterLast.trans hnext.le, fun e he hadm hs => ?_, fun b hb => ?_, ?_⟩
      · show (addevent (delevent x.desk.eventQueue) ⟨'D', _, 0⟩).events = _
        rw [addevent_events, hqueue, show (nextevent x.desk.takeTurn.eventQueue).time = _ from htime]
      · -- whoever is admitted has been served
        have hpos := (hist.num_pos he hadm hs).1
        have hzero : x.desk.takeTurn.num e.arrival.kind = 0 := hnone e.arrival.kind
        exact absurd hpos (by simp [hzero])
      · have hle := Arrival.le_of_key (hleast b.event (Multiset.mem_map_of_mem _ hb))
        rw [htime] at hle
        exact hle.trans (le_max_right _ _)
      · have hlatest := le_latest (ha.mem_pending hmema)
        have hahead := ha.ahead_le hpos
        show a.time + x.ahead pending ≤ dayBound arrivals
        rw [dayBound]
        omega
    · rw [show x.ended = true from he] at hx
      cases hx

/-- **A turn keeps the invariant.** -/
theorem dayOk_turn (hpos : ∀ a ∈ arrivals, 0 < a.duration) (hfits : FitsDay arrivals)
    (h : DayOk arrivals x) : DayOk arrivals x.turn := by
  unfold Day.turn
  by_cases hended : x.ended = true
  · rw [if_pos hended]
    exact h
  · have hx : x.ended = false := by simpa using hended
    obtain ⟨t, pending, ha⟩ := h.going hx
    have hne : ¬ emptyQ x.desk.eventQueue = true := by
      simpa [emptyQ] using ha.nonempty
    rw [if_neg hended, if_neg hne]
    rcases ha.front with ⟨a, rest, rfl, hnext, htime, hleast, hqueue⟩ | ⟨hnext, hlater, hqueue⟩
    · have htype : Kind.ofType a.event.type = some a.kind := Kind.ofType_eq_some.mpr rfl
      rw [hnext]
      simp only [if_neg a.event_type_ne, htype]
      exact dayOk_arrive h hx ha htime hleast hqueue
    · rw [hnext]
      simp only [if_true]
      split
      · exact dayOk_call h hx ha hpos hfits hnext hlater hqueue ‹_›
      · exact dayOk_idle h hx ha hpos hlater hqueue ‹_›

/-! ## The loop ends -/

/-- What is left to do: a turn for each arrival and each visit, and one for each time the doctor's
event has to be moved. -/
def Day.work (x : Day) : Nat :=
  3 * (x.desk.eventQueue.n - 1)
    + (x.desk.num .reporter + x.desk.num .patient + x.desk.num .salesRep)
    + if (nextevent x.desk.eventQueue).type = 'D' then 1 else 0

theorem delevent_n {E : EventQ} (hn : E.n ≠ 0) : (delevent E).n = E.n - 1 := by
  rw [delevent, if_pos (Nat.pos_of_ne_zero hn)]

/-- The doctor's event at the time of the next arrival comes after that arrival. -/
theorem front_moved {E : EventQ} (hord : E.Ordered) (hE : E.events = pending.map Arrival.event)
    (hn : E.n ≠ 0) :
    (nextevent (addevent E ⟨'D', (nextevent E).time, 0⟩)).type ≠ 'D' := by
  intro hD
  have hmem := nextevent_mem hn
  rw [hE] at hmem
  obtain ⟨a, ha, hev⟩ := Multiset.mem_map.mp hmem
  have htime : (nextevent E).time = a.time := by rw [← hev]; rfl
  have hord' := addevent_ordered hord ⟨'D', (nextevent E).time, 0⟩
  have hfront := nextevent_mem (E := addevent E ⟨'D', (nextevent E).time, 0⟩) (Nat.succ_ne_zero _)
  have hle : (nextevent (addevent E ⟨'D', (nextevent E).time, 0⟩)).key ≤ a.event.key := by
    refine nextevent_le hord' ?_
    rw [addevent_events, hE]
    exact Multiset.mem_cons_of_mem (Multiset.mem_map_of_mem _ ha)
  rw [addevent_events, hE] at hfront
  rcases Multiset.mem_cons.mp hfront with heq | hA
  · rw [heq, htime] at hle
    exact absurd (Arrival.lt_of_key hle) (lt_irrefl _)
  · obtain ⟨b, -, hb⟩ := Multiset.mem_map.mp hA
    rw [← hb] at hD
    exact b.event_type_ne hD

theorem Desk.arrive_num_le (d : Desk) (k : Kind) (next : Event) :
    (d.arrive k next).num .reporter + (d.arrive k next).num .patient
        + (d.arrive k next).num .salesRep
      ≤ d.num .reporter + d.num .patient + d.num .salesRep + 1 := by
  unfold Desk.arrive
  simp only
  split
  · cases k <;> simp <;> omega
  · omega

theorem Desk.callIn_num {d : Desk} (hpos : 0 < d.num k) :
    (d.callIn k).num .reporter + (d.callIn k).num .patient + (d.callIn k).num .salesRep + 1
      = d.num .reporter + d.num .patient + d.num .salesRep := by
  unfold Desk.callIn
  cases k <;> simp <;> omega

theorem flag_le (E : EventQ) : (if (nextevent E).type = 'D' then 1 else 0) ≤ 1 := by
  split <;> omega

/-- An arrival leaves the queue, and may have to wait. -/
theorem work_arrive (hn : 2 ≤ x.desk.eventQueue.n)
    (hD : (nextevent x.desk.eventQueue).type ≠ 'D') (next : Event) (log : List Entry) :
    Day.work { x with desk := x.desk.arrive k next, log := log } < x.work := by
  have hnum := x.desk.arrive_num_le k next
  have hflag := flag_le (x.desk.arrive k next).eventQueue
  have hlen : (x.desk.arrive k next).eventQueue.n = x.desk.eventQueue.n - 1 :=
    delevent_n (by omega)
  simp only [Day.work, if_neg hD, hlen]
  omega

/-- The work when the doctor's event is the next one. -/
theorem work_of_doctor (hD : (nextevent x.desk.eventQueue).type = 'D') :
    x.work = 3 * (x.desk.eventQueue.n - 1)
      + (x.desk.num .reporter + x.desk.num .patient + x.desk.num .salesRep) + 1 := by
  rw [Day.work, if_pos hD]

/-- The visitor called in waits no more, and the doctor's event is put back. -/
theorem work_visit (hn : x.desk.eventQueue.n ≠ 0) (hD : (nextevent x.desk.eventQueue).type = 'D')
    (hk : x.desk.takeTurn.chosen = some k) (visits : List Visit) (time : Int) :
    (x.resume (x.desk.takeTurn.callIn k) visits time).ended = true
      ∨ (x.resume (x.desk.takeTurn.callIn k) visits time).work < x.work := by
  have hwork := work_of_doctor hD
  have hnum : (x.desk.takeTurn.callIn k).num .reporter + (x.desk.takeTurn.callIn k).num .patient
      + (x.desk.takeTurn.callIn k).num .salesRep + 1
      = x.desk.num .reporter + x.desk.num .patient + x.desk.num .salesRep :=
    Desk.callIn_num (Desk.chosen_pos hk)
  have hlen : (x.desk.takeTurn.callIn k).eventQueue.n = x.desk.eventQueue.n - 1 := delevent_n hn
  rw [Day.resume]
  split
  · rename_i d' hback
    right
    have hsame : d'.num = (x.desk.takeTurn.callIn k).num
        ∧ d'.eventQueue.n = (x.desk.takeTurn.callIn k).eventQueue.n + 1 := by
      unfold Desk.putBack at hback
      split_ifs at hback <;> cases hback <;> exact ⟨rfl, rfl⟩
    have hflag := flag_le d'.eventQueue
    rw [hwork]
    simp only [Day.work, hsame.1, hsame.2]
    omega
  · exact .inl rfl

/-- The doctor's event moves behind the next arrival, if there is one. -/
theorem work_idle (hn : x.desk.eventQueue.n ≠ 0) (hD : (nextevent x.desk.eventQueue).type = 'D')
    (hord : x.desk.eventQueue.Ordered)
    (hqueue : (delevent x.desk.eventQueue).events = pending.map Arrival.event)
    (visits : List Visit) :
    (x.resume x.desk.takeTurn visits 0).ended = true
      ∨ (x.resume x.desk.takeTurn visits 0).work < x.work := by
  have hwork := work_of_doctor hD
  have hlen : (delevent x.desk.eventQueue).n = x.desk.eventQueue.n - 1 := delevent_n hn
  rw [Day.resume]
  split
  · rename_i d' hback
    right
    rw [Desk.putBack, if_pos rfl] at hback
    split at hback
    · cases hback
    · rename_i hsome
      cases hback
      have hne : (delevent x.desk.eventQueue).n ≠ 0 := by
        intro hzero
        exact hsome (by simp [emptyQ, Desk.takeTurn, hzero])
      have hmoved := front_moved (delevent_ordered hord) hqueue hne
      have hback : (addevent (delevent x.desk.eventQueue) ⟨'D',
          (nextevent (delevent x.desk.eventQueue)).time, 0⟩).n = x.desk.eventQueue.n := by
        show (delevent x.desk.eventQueue).n + 1 = _
        omega
      -- the doctor's event is the next one no more
      rw [hwork]
      show 3 * ((addevent (delevent x.desk.eventQueue) ⟨'D',
          (nextevent (delevent x.desk.eventQueue)).time, 0⟩).n - 1)
        + (x.desk.num .reporter + x.desk.num .patient + x.desk.num .salesRep)
        + (if (nextevent (addevent (delevent x.desk.eventQueue) ⟨'D',
          (nextevent (delevent x.desk.eventQueue)).time, 0⟩)).type = 'D' then 1 else 0) < _
      rw [hback, if_neg hmoved]
      omega
  · exact .inl rfl

/-- **Each turn ends the loop or leaves less to do.** -/
theorem work_turn (h : DayOk arrivals x) (hx : x.ended = false) :
    x.turn.ended = true ∨ x.turn.work < x.work := by
  obtain ⟨t, pending, ha⟩ := h.going hx
  have hn := ha.nonempty
  rw [Day.turn, if_neg (by simp [hx]), if_neg (by simpa [emptyQ] using hn)]
  rcases ha.front with ⟨a, rest, rfl, hnext, -, -, -⟩ | ⟨hnext, -, hqueue⟩
  · have htype : Kind.ofType a.event.type = some a.kind := Kind.ofType_eq_some.mpr rfl
    have hcard : x.desk.eventQueue.n = rest.card + 1 + 1 := by
      have := congrArg Multiset.card ha.queue
      simpa [EventQ.events, Heap.contents] using this
    rw [hnext]
    simp only [if_neg a.event_type_ne, htype]
    exact .inr (work_arrive (by omega) (by rw [hnext]; exact a.event_type_ne) _ _)
  · have hD : (nextevent x.desk.eventQueue).type = 'D' := by rw [hnext]
    simp only [if_pos hD]
    split
    · exact work_visit hn hD ‹_› _ _
    · exact work_idle hn hD ha.ordered hqueue _

theorem turn_of_ended (hx : x.ended = true) (n : Nat) : Day.turn^[n] x = x := by
  induction n with
  | zero => rfl
  | succ n ih =>
      have hturn : x.turn = x := if_pos hx
      rw [Function.iterate_succ_apply, hturn, ih]

theorem dayOk_iterate (hpos : ∀ a ∈ arrivals, 0 < a.duration) (hfits : FitsDay arrivals)
    (h : DayOk arrivals x) (n : Nat) : DayOk arrivals (Day.turn^[n] x) := by
  induction n generalizing x with
  | zero => exact h
  | succ n ih => exact ih (dayOk_turn hpos hfits h)

theorem ended_iterate (hpos : ∀ a ∈ arrivals, 0 < a.duration) (hfits : FitsDay arrivals)
    (h : DayOk arrivals x) (hwork : x.work ≤ n) : (Day.turn^[n + 1] x).ended = true := by
  induction n generalizing x with
  | zero =>
      cases hx : x.ended with
      | true =>
          rw [turn_of_ended hx]
          exact hx
      | false =>
          rcases work_turn h hx with hended | hless
          · exact hended
          · omega
  | succ n ih =>
      cases hx : x.ended with
      | true =>
          rw [turn_of_ended hx]
          exact hx
      | false =>
          rw [Function.iterate_succ_apply]
          rcases work_turn h hx with hended | hless
          · rw [turn_of_ended hended]
            exact hended
          · exact ih (dayOk_turn hpos hfits h) (by omega)

theorem session_ended (mem : Nat → Event) (hpos : ∀ a ∈ arrivals, 0 < a.duration)
    (hfits : FitsDay arrivals) : (session mem arrivals).ended = true := by
  refine ended_iterate hpos hfits (dayOk_start mem arrivals) ?_
  have hflag := flag_le (startDay mem arrivals).desk.eventQueue
  have hlen : (startDay mem arrivals).desk.eventQueue.n = arrivals.length + 1 := by
    show (arrivals.map Arrival.event).length + 1 = _
    rw [List.length_map]
  have hnum : ∀ k, (startDay mem arrivals).desk.num k = 0 := fun _ => rfl
  simp only [Day.work, hlen, hnum, Nat.add_sub_cancel]
  omega

/-! ## The policy is met -/

/-- Each class's tokens are called once, so nobody is called twice. -/
theorem History.once (h : History x) : (x.visits.map fun v => (v.kind, v.token)).Nodup := by
  rw [List.nodup_iff_count_le_one]
  rintro ⟨k, n⟩
  have hnodup : (List.range' 1 (x.desk.current k)).count n ≤ 1 :=
    List.nodup_iff_count_le_one.mp List.nodup_range' n
  rw [← h.served k, List.count_eq_countP, List.countP_map, List.countP_filter] at hnodup
  rw [List.count_eq_countP, List.countP_map]
  refine le_of_eq_of_le (List.countP_congr fun v _ => ?_) hnodup
  simp [and_comm]

theorem History.toBeServed_iff (h : History x) (he : e ∈ x.log) :
    e.admitted = true ↔ ToBeServed e := by
  have hlate := h.late e he
  unfold Entry.admitted ToBeServed Kind.within
  rw [Bool.and_eq_true, Bool.not_eq_true', decide_eq_true_eq]
  cases hk : e.arrival.kind with
  | reporter => simp [Kind.quota]
  | patient =>
      have hq : e.late = true → NUM_PATIENTS < e.token := fun hl => hlate hl _ (by rw [hk]; rfl)
      simp only [Kind.quota, NUM_PATIENTS] at hq ⊢
      cases hl : e.late with
      | true =>
          have := hq hl
          simp only [Bool.true_eq_false, false_and, false_iff]
          omega
      | false => simp only [true_and]; omega
  | salesRep =>
      have hq : e.late = true → NUM_SALES_REPS < e.token := fun hl => hlate hl _ (by rw [hk]; rfl)
      simp only [Kind.quota, NUM_SALES_REPS] at hq ⊢
      cases hl : e.late with
      | true =>
          have := hq hl
          simp only [Bool.true_eq_false, false_and, false_iff]
          omega
      | false => simp only [true_and]; omega

/-- **The assistant's schedule meets the clinic's policy** on a day within the range of `int`: the
loop ends, and what it has done by then is as the policy has it. -/
theorem session_policy (mem : Nat → Event) (arrivals : List Arrival)
    (hpos : ∀ a ∈ arrivals, 0 < a.duration) (hfits : FitsDay arrivals) :
    (session mem arrivals).ended = true ∧ Policy arrivals (session mem arrivals) := by
  have hended := session_ended mem hpos hfits
  have hok : DayOk arrivals (session mem arrivals) :=
    dayOk_iterate hpos hfits (dayOk_start mem arrivals) _
  obtain ⟨hlog, hnum⟩ := hok.done hended
  refine ⟨hended, hlog, hok.sorted, fun k => ⟨_, hok.history.tokens k⟩, hok.visits,
    hok.history.once, fun e he => ?_⟩
  rw [hok.history.served_iff he, ← hok.history.toBeServed_iff he, hok.history.admitted e he, hnum,
    Nat.add_zero]

/-- A patient who comes before the doctor, and a reporter who comes during the visit. -/
theorem session_policy_two :
    (session (fun _ => ⟨'E', 0, 0⟩) [⟨.patient, -3, 10⟩, ⟨.reporter, 4, 2⟩]).visits
        = [⟨.patient, 1, 0, 10⟩, ⟨.reporter, 1, 10, 12⟩]
      ∧ Policy [⟨.patient, -3, 10⟩, ⟨.reporter, 4, 2⟩]
        (session (fun _ => ⟨'E', 0, 0⟩) [⟨.patient, -3, 10⟩, ⟨.reporter, 4, 2⟩]) :=
  ⟨by decide, (session_policy _ _ (by decide) (by decide)).2⟩

/-- Two patients at the last moment that an `int` holds: the first visit ends before `0`, and the
second one starts there. -/
theorem session_overflows :
    (∀ a ∈ [(⟨.patient, 2147483647, 1⟩ : Arrival), ⟨.patient, 2147483647, 1⟩],
        Text.IsInt a.time ∧ Text.IsInt a.duration ∧ 0 < a.duration)
      ∧ (session (fun _ => ⟨'E', 0, 0⟩) [⟨.patient, 2147483647, 1⟩, ⟨.patient, 2147483647, 1⟩]).visits
        = [⟨.patient, 1, 2147483647, -2147483648⟩, ⟨.patient, 2, -2147483648, -2147483647⟩]
      ∧ ¬ Policy [⟨.patient, 2147483647, 1⟩, ⟨.patient, 2147483647, 1⟩]
        (session (fun _ => ⟨'E', 0, 0⟩)
          [⟨.patient, 2147483647, 1⟩, ⟨.patient, 2147483647, 1⟩]) := by
  have hvisits : (session (fun _ => ⟨'E', 0, 0⟩)
      [⟨.patient, 2147483647, 1⟩, ⟨.patient, 2147483647, 1⟩]).visits
      = [⟨.patient, 1, 2147483647, -2147483648⟩, ⟨.patient, 2, -2147483648, -2147483647⟩] := by
    decide
  refine ⟨by decide, hvisits, fun h => ?_⟩
  have hgood := h.visits [⟨.patient, 1, 2147483647, -2147483648⟩]
    ⟨.patient, 2, -2147483648, -2147483647⟩ (hvisits ▸ List.prefix_refl _)
  exact absurd hgood.nonneg (by decide)

end OSLab.Clinic
