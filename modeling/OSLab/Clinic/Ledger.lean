import OSLab.Clinic.Threads

set_option autoImplicit false

/-! # The assistant's own variables, while the threads run

Nobody but the assistant writes the queue, the counters and `temp.time`, so what they say at each
place of the assistant's loop can be followed without the other threads. The queue and the counters
are right in every run (`Books`). The rest holds if the assistant waits for every visit (`Ledger`):
then, with enough patients and sales representatives, the queue does not run empty before the session
is done, and the assistant does not get to `lockEnd`.

A visitor's thread exists if and only if the visitor has been admitted (`Orderly`).
-/

namespace OSLab.Clinic

open Pthread

/-- What the assistant's variables say at a place; `lockEnd` is only reached without `Enough`. -/
def AssistantPc.Says (arrivals : List Arrival) (x : Shared) : AssistantPc → Prop
  | .loop => True
  | .lockLast | .setLast | .signalLast | .unlockLast => x.desk.sessionDone = true
  | .await .last _ | .clearDone .last | .unlockDone .last => x.desk.sessionDone = true
  | .lockFree | .setFree | .unlockFree | .choose =>
      x.desk.sessionDone = false → x.desk.finds = false
  | .signalDoctor _ | .signalVisitor _ | .testTime _ => x.desk.sessionDone = false
  | .await (.visit _) _ | .clearDone (.visit _) | .unlockDone (.visit _) =>
      x.desk.sessionDone = false ∧ x.tempTime ≠ 0
  | .putBack => x.tempTime = 0 →
      x.desk.chosen = none ∧ (x.desk.sessionDone = false → x.desk.finds = false)
  | .testSession => Enough arrivals → x.desk.sessionDone = true
  | .lockEnd | .clearFree | .setEnd | .signalEnd | .unlockEnd =>
      ¬ Enough arrivals ∧ x.doctorFirstcase = false
  | .join | .finished => Enough arrivals ↔ x.doctorFirstcase = true

/-- The queue holds those who are still to come, and at `loop` the doctor's event. -/
def AssistantPc.Holds (d : Desk) (pending : Multiset Arrival) : AssistantPc → Prop
  | .loop => ∃ t, d.eventQueue.events = ⟨'D', t, 0⟩ ::ₘ pending.map Arrival.event
  | _ => d.eventQueue.events = pending.map Arrival.event

/-- After the loop the session is done, whatever the counters say. -/
def AssistantPc.closed : AssistantPc → Bool
  | .signalEnd | .unlockEnd | .join | .finished => true
  | _ => false

/-- The queue and the counters at a place. -/
structure Books (arrivals : List Arrival) (x : Shared) (a : AssistantPc) : Prop where
  counts : a.closed = false → Counts x.desk
  firstcase : a.closed = false → x.doctorFirstcase = x.desk.sessionDone
  ordered : x.desk.eventQueue.Ordered
  queue : ∃ pending : Multiset Arrival, a.Holds x.desk pending
    ∧ ∀ k, x.desk.token k + pending.countP (·.kind = k) = arrivals.countP (·.kind = k)

structure Ledger (arrivals : List Arrival) (x : Shared) (a : AssistantPc) : Prop
    extends Books arrivals x a where
  here : a.Says arrivals x

variable {arrivals : List Arrival} {x x' : Shared} {a a' : AssistantPc} {k : Kind}

theorem AssistantPc.Holds.of_ne {d : Desk} {pending : Multiset Arrival} (h : a.Holds d pending)
    (ha : a ≠ .loop) : d.eventQueue.events = pending.map Arrival.event := by
  cases a with
  | loop => exact absurd rfl ha
  | _ => exact h

theorem AssistantPc.holds_of {d : Desk} {pending : Multiset Arrival}
    (h : d.eventQueue.events = pending.map Arrival.event) (ha : a ≠ .loop) : a.Holds d pending := by
  cases a with
  | loop => exact absurd rfl ha
  | _ => exact h

/-- A step away from `loop` that leaves the desk. -/
theorem Books.quiet (h : Books arrivals x a) (hdesk : x'.desk = x.desk)
    (hfirst : x'.doctorFirstcase = x.doctorFirstcase) (ha : a ≠ .loop) (ha' : a' ≠ .loop)
    (hclosed : a'.closed = false → a.closed = false) : Books arrivals x' a' where
  counts := by rw [hdesk]; exact fun hc => h.counts (hclosed hc)
  firstcase := by rw [hdesk, hfirst]; exact fun hc => h.firstcase (hclosed hc)
  ordered := by rw [hdesk]; exact h.ordered
  queue := by
    obtain ⟨pending, hholds, htoken⟩ := h.queue
    refine ⟨pending, AssistantPc.holds_of ?_ ha', ?_⟩
    · rw [hdesk]
      exact hholds.of_ne ha
    · rw [hdesk]
      exact htoken

/-- **The queue runs empty only when the session is done.** -/
theorem Books.done_of_empty (h : Books arrivals x a) (he : Enough arrivals)
    (hn : x.desk.eventQueue.n = 0) (ha : a ≠ .loop) (hc : a.closed = false)
    (hnone : x.desk.chosen = none)
    (hfinds : x.desk.sessionDone = false → x.desk.finds = false) : x.desk.sessionDone = true := by
  by_contra hnot
  have hs : x.desk.sessionDone = false := by simpa using hnot
  obtain ⟨pending, hholds, htoken⟩ := h.queue
  have hzero := hholds.of_ne ha
  rw [events_eq_zero_iff.mpr hn] at hzero
  have hpending : pending = 0 := Multiset.map_eq_zero.mp hzero.symm
  subst hpending
  -- everybody has come and been called
  have hall : ∀ k, x.desk.current k = k.within (arrivals.countP (·.kind = k)) := by
    intro k
    have hcount := (h.counts hc).opened hs k
    have hnum := x.desk.chosen_none hnone k
    have htok := htoken k
    rw [Multiset.countP_zero, Nat.add_zero] at htok
    rw [← htok]
    omega
  have hpat : x.desk.current .patient = NUM_PATIENTS := (hall .patient).trans (min_eq_right he.1)
  have hsales : x.desk.current .salesRep = NUM_SALES_REPS :=
    (hall .salesRep).trans (min_eq_right he.2)
  have hfound : x.desk.finds = true := by
    simp [Desk.finds, x.desk.chosen_none hnone, hpat, hsales]
  rw [hfinds hs] at hfound
  cases hfound

theorem Counts.not_done {d : Desk} (h : Counts d) (hk : d.chosen = some k) :
    d.sessionDone = false := by
  cases hs : d.sessionDone with
  | false => rfl
  | true =>
      have hpos := d.chosen_pos hk
      have hzero := (h.closed hs k).1
      omega

/-- The next event is handled. -/
theorem books_handle (h : Books arrivals x .loop) :
    Books arrivals (handle x).data (handle x).next := by
  obtain ⟨pending, ⟨t, hqueue⟩, htoken⟩ := h.queue
  have hcounts := h.counts rfl
  have hfirst := h.firstcase rfl
  have hordered := delevent_ordered h.ordered
  have hcases := handle_cases x
  generalize handle x = e at hcases ⊢
  have hfront := queue_front hqueue
  -- the doctor's event is the only one that is not an arrival
  have hD : (nextevent x.desk.eventQueue).type = 'D' →
      (delevent x.desk.eventQueue).events = pending.map Arrival.event := by
    intro htype
    rcases hfront with ⟨b, rest, -, hb, -⟩ | ⟨-, hrest⟩
    · rw [hb] at htype
      exact absurd htype b.kind.type_ne
    · exact hrest
  cases hcases with
  | empty hn => exact absurd hn (queue_nonempty hqueue)
  | last htype _ hdone =>
      exact ⟨fun _ => counts_takeTurn hcounts, fun _ => hdone.symm, hordered,
        ⟨pending, hD htype, htoken⟩⟩
  | turn htype hdone =>
      have hsession : x.doctorFirstcase = x.desk.takeTurn.sessionDone := by
        rcases hdone with hdone | hdone
        · rw [hdone] at hfirst
          simp [Desk.takeTurn, hdone, ← hfirst]
        · have hopen : x.desk.sessionDone = false := (Bool.or_eq_false_iff.mp hdone).1
          rw [hfirst, hdone, hopen]
      exact ⟨fun _ => counts_takeTurn hcounts, fun _ => hsession, hordered,
        ⟨pending, hD htype, htoken⟩⟩
  | @arrive k htype =>
      refine ⟨fun _ => counts_arrive hcounts, h.firstcase, hordered, ?_⟩
      rcases hfront with ⟨b, rest, rfl, hb, hrest⟩ | ⟨hD', -⟩
      · -- the arrival moves from the queue to the tokens
        have hkind : b.kind = k := by
          rw [hb] at htype
          exact Kind.type_injective htype
        refine ⟨rest, ⟨t, hrest⟩, fun k' => ?_⟩
        have htok := htoken k'
        rw [Multiset.countP_cons] at htok
        by_cases hk : k' = k
        · subst hk
          rw [if_pos hkind] at htok
          show (x.desk.arrive k' _).token k' + _ = _
          rw [Desk.arrive_token_self]
          omega
        · show (x.desk.arrive k _).token k' + _ = _
          rw [Desk.arrive_token_ne hk]
          rw [if_neg (fun heq => hk (heq.symm.trans hkind))] at htok
          exact htok
      · rw [hD'] at htype
        exact absurd htype.symm k.type_ne
  | skip htype hnone =>
      rcases hfront with ⟨b, rest, -, hb, -⟩ | ⟨hD', -⟩
      · rw [hb, show b.event.type = b.kind.type from rfl, Kind.ofType_eq_some.mpr rfl] at hnone
        cases hnone
      · rw [hD'] at htype
        exact absurd rfl htype

theorem books_call (h : Books arrivals x .choose) :
    Books arrivals (call x).data (call x).next := by
  obtain ⟨pending, hholds, htoken⟩ := h.queue
  unfold call
  cases hk : x.desk.chosen with
  | some k => exact ⟨fun _ => counts_callIn (h.counts rfl) hk, h.firstcase, h.ordered,
      ⟨pending, hholds, htoken⟩⟩
  | none =>
      show Books arrivals { x with tempTime := 0 } .putBack
      exact h.quiet rfl rfl nofun nofun id

theorem books_resume (h : Books arrivals x .putBack) :
    Books arrivals (resume x).data (resume x).next := by
  obtain ⟨pending, hholds, htoken⟩ := h.queue
  have hqueue : x.desk.eventQueue.events = pending.map Arrival.event := hholds
  unfold resume
  cases hd : x.desk.putBack x.tempTime with
  | some d =>
      refine ⟨fun _ => counts_putBack (h.counts rfl) hd, fun _ => ?_, ?_, ⟨pending, ?_, ?_⟩⟩
      all_goals
        unfold Desk.putBack at hd
        split_ifs at hd <;> cases hd
      · exact h.firstcase rfl
      · exact h.firstcase rfl
      · exact addevent_ordered h.ordered _
      · exact addevent_ordered h.ordered _
      · exact ⟨_, (addevent_events _ _).trans (by rw [hqueue])⟩
      · exact ⟨_, (addevent_events _ _).trans (by rw [hqueue])⟩
      · exact htoken
      · exact htoken
  | none =>
      show Books arrivals x .testSession
      exact h.quiet rfl rfl nofun nofun id

/-- The session is done only when enough visitors have come. -/
theorem Books.enough (h : Books arrivals x a) (hc : a.closed = false)
    (hdone : x.desk.sessionDone = true) : Enough arrivals := by
  obtain ⟨pending, -, htoken⟩ := h.queue
  have hclosed := (h.counts hc).closed hdone
  obtain ⟨-, hpat, hquota⟩ := hclosed .patient
  obtain ⟨-, hsales, hquota'⟩ := hclosed .salesRep
  have htok := htoken .patient
  have htok' := htoken .salesRep
  rw [hquota _ rfl] at hpat
  rw [hquota' _ rfl] at hsales
  exact ⟨by omega, by omega⟩

theorem books_setEnd (h : Books arrivals x .setEnd) :
    Books arrivals { x with desk := { x.desk with sessionDone := true } } .signalEnd where
  counts := nofun
  firstcase := nofun
  ordered := h.ordered
  queue := h.queue

/-- **The books along the assistant's steps.** -/
theorem books_result (h : Books arrivals x a) (hr : (assistant a).result x = some (x', a')) :
    Books arrivals x' a' := by
  cases a with
  | loop =>
      cases hr
      exact books_handle h
  | choose =>
      cases hr
      exact books_call h
  | putBack =>
      cases hr
      exact books_resume h
  | setEnd =>
      cases hr
      exact books_setEnd h
  | await c w =>
      obtain ⟨rfl, o, hnext, rfl⟩ := Await.result_next hr
      cases hnext <;> exact h.quiet rfl rfl nofun nofun (fun _ => rfl)
  | setFree =>
      cases hr
      show Books arrivals (if _ then _ else _) _
      split <;> exact h.quiet rfl rfl nofun nofun (fun _ => rfl)
  | testTime k =>
      cases hr
      show Books arrivals x (if _ then _ else _)
      split <;> exact h.quiet rfl rfl nofun nofun (fun _ => rfl)
  | testSession =>
      cases hr
      show Books arrivals x (if _ then _ else _)
      split <;> exact h.quiet rfl rfl nofun nofun (fun _ => rfl)
  | unlockDone c =>
      cases hr
      cases c <;> exact h.quiet rfl rfl nofun nofun (fun _ => rfl)
  | unlockEnd | signalEnd | join =>
      cases hr
      exact h.quiet rfl rfl nofun nofun nofun
  | finished => cases hr
  | lockLast | setLast | signalLast | unlockLast | clearDone c | lockFree | unlockFree
  | signalDoctor k | signalVisitor k | lockEnd | clearFree =>
      cases hr
      exact h.quiet rfl rfl nofun nofun (fun _ => rfl)

/-! ## What the assistant's variables say -/

theorem says_handle (h : Books arrivals x .loop) : (handle x).next.Says arrivals (handle x).data := by
  obtain ⟨pending, ⟨t, hqueue⟩, -⟩ := h.queue
  have hcases := handle_cases x
  generalize handle x = e at hcases ⊢
  cases hcases with
  | empty hn => exact absurd hn (queue_nonempty hqueue)
  | last _ _ hdone => exact hdone
  | turn _ _ => exact fun hopen => (Bool.or_eq_false_iff.mp hopen).2
  | arrive _ => exact trivial
  | skip _ _ => exact trivial

theorem says_call (h : Ledger arrivals x .choose) : (call x).next.Says arrivals (call x).data := by
  unfold call
  cases hk : x.desk.chosen with
  | some k => exact (h.counts rfl).not_done hk
  | none => exact fun _ => ⟨hk, h.here⟩

theorem says_resume (h : Ledger arrivals x .putBack) :
    (resume x).next.Says arrivals (resume x).data := by
  unfold resume
  cases hd : x.desk.putBack x.tempTime with
  | some d => exact trivial
  | none =>
      unfold Desk.putBack at hd
      split_ifs at hd with htime hempty
      obtain ⟨hnone, hfinds⟩ := h.here htime
      have hn : x.desk.eventQueue.n = 0 := by simpa [emptyQ] using hempty
      exact fun he => h.done_of_empty he hn (fun hc => by cases hc) rfl hnone hfinds

/-- After the loop the session is done, or is set to be. -/
theorem says_testSession (h : Ledger arrivals x .testSession) :
    (if x.desk.sessionDone then AssistantPc.join else .lockEnd).Says arrivals x := by
  have hfirst := h.firstcase rfl
  cases hdone : x.desk.sessionDone with
  | true =>
      rw [hdone] at hfirst
      exact iff_of_true (h.enough rfl hdone) hfirst
  | false =>
      rw [hdone] at hfirst
      refine ⟨fun he => ?_, hfirst⟩
      rw [h.here he] at hdone
      cases hdone

/-- **The ledger along the assistant's steps**, if no visit ends at time `0`. -/
theorem says_result (h : Ledger arrivals x a) (htime : ∀ k, a = .testTime k → x.tempTime ≠ 0)
    (hr : (assistant a).result x = some (x', a')) : a'.Says arrivals x' := by
  have hhere := h.here
  cases a with
  | loop =>
      cases hr
      exact says_handle h.toBooks
  | choose =>
      cases hr
      exact says_call h
  | putBack =>
      cases hr
      exact says_resume h
  | testSession =>
      cases hr
      exact says_testSession h
  | await c w =>
      obtain ⟨rfl, o, hnext, rfl⟩ := Await.result_next hr
      cases hnext <;> cases c <;> exact hhere
  | setFree =>
      cases hr
      show AssistantPc.Says arrivals (if _ then _ else _) _
      split <;> exact hhere
  | testTime k =>
      cases hr
      have hne := htime k rfl
      show (if _ then _ else _ : AssistantPc).Says arrivals x
      rw [if_neg hne]
      exact ⟨hhere, hne⟩
  | unlockDone c =>
      cases hr
      cases c with
      | last =>
          -- after the last call the session is closed
          intro hopen
          rw [show x.desk.sessionDone = true from hhere] at hopen
          cases hopen
      | visit k => exact fun hzero => absurd hzero hhere.2
  | clearDone c =>
      cases hr
      cases c <;> exact hhere
  | unlockEnd =>
      cases hr
      refine iff_of_false hhere.1 ?_
      rw [hhere.2]
      exact Bool.false_ne_true
  | finished => cases hr
  | lockLast | setLast | signalLast | unlockLast | lockFree | unlockFree | signalDoctor k
  | signalVisitor k | lockEnd | clearFree | setEnd | signalEnd | join =>
      cases hr
      exact hhere

/-! ## The other threads leave the desk alone -/

theorem doctor_result {d d' : DoctorPc} (hr : (doctor d).result x = some (x', d')) :
    x'.desk = x.desk ∧ x'.tempTime = x.tempTime ∧ x'.doctorFirstcase = x.doctorFirstcase := by
  cases d with
  | await w =>
      obtain ⟨rfl, -⟩ := Await.result_next hr
      exact ⟨rfl, rfl, rfl⟩
  | meet w =>
      obtain ⟨rfl, -⟩ := Await.result_next hr
      exact ⟨rfl, rfl, rfl⟩
  | testSession =>
      cases hr
      unfold proceed
      split <;> exact ⟨rfl, rfl, rfl⟩
  | finished => cases hr
  | _ =>
      cases hr
      exact ⟨rfl, rfl, rfl⟩

theorem visitor_result {n : Nat} {v v' : VisitorPc} (hr : (visitor k n v).result x = some (x', v')) :
    x'.desk = x.desk ∧ x'.tempTime = x.tempTime ∧ x'.doctorFirstcase = x.doctorFirstcase := by
  cases v with
  | own w =>
      obtain ⟨rfl, -⟩ := Await.result_next hr
      exact ⟨rfl, rfl, rfl⟩
  | enter w =>
      obtain ⟨rfl, -⟩ := Await.result_next hr
      exact ⟨rfl, rfl, rfl⟩
  | finished => cases hr
  | _ =>
      cases hr
      exact ⟨rfl, rfl, rfl⟩

/-- A step of another thread. -/
theorem Books.congr (h : Books arrivals x a) (hdesk : x'.desk = x.desk)
    (hfirst : x'.doctorFirstcase = x.doctorFirstcase) : Books arrivals x' a where
  counts := by rw [hdesk]; exact h.counts
  firstcase := by rw [hdesk, hfirst]; exact h.firstcase
  ordered := by rw [hdesk]; exact h.ordered
  queue := by rw [hdesk]; exact h.queue

theorem Ledger.congr (h : Ledger arrivals x a) (hdesk : x'.desk = x.desk)
    (htime : x'.tempTime = x.tempTime) (hfirst : x'.doctorFirstcase = x.doctorFirstcase) :
    Ledger arrivals x' a where
  toBooks := h.toBooks.congr hdesk hfirst
  here := by
    have hhere := h.here
    cases a with
    | await c w => cases c <;> simpa only [AssistantPc.Says, hdesk, htime] using hhere
    | clearDone c => cases c <;> simpa only [AssistantPc.Says, hdesk, htime] using hhere
    | unlockDone c => cases c <;> simpa only [AssistantPc.Says, hdesk, htime] using hhere
    | loop => trivial
    | join => simpa only [AssistantPc.Says, hfirst] using hhere
    | finished => simpa only [AssistantPc.Says, hfirst] using hhere
    | lockEnd | clearFree | setEnd | signalEnd | unlockEnd =>
        simpa only [AssistantPc.Says, hfirst] using hhere
    | _ => simpa only [AssistantPc.Says, hdesk, htime] using hhere

theorem Books.woken {c : Call} (h : Books arrivals x (.await c .asleep)) :
    Books arrivals x (.await c .woken) :=
  h.quiet rfl rfl nofun nofun (fun _ => rfl)

theorem Ledger.woken {c : Call} (h : Ledger arrivals x (.await c .asleep)) :
    Ledger arrivals x (.await c .woken) :=
  ⟨h.toBooks.woken, by cases c <;> exact h.here⟩

/-! ## Who sleeps where -/

theorem assistant_asleep {c : CondId} {woken : AssistantPc} (hc : assistant a = .asleep c woken) :
    ∃ c', a = .await c' .asleep ∧ woken = .await c' .woken := by
  cases a with
  | await c' w =>
      cases w <;> cases hc
      exact ⟨c', rfl, rfl⟩
  | _ => cases hc

/-! ## New threads -/

theorem assistant_spawned {f : Shared → Effect Shared PlaceOf .assistant} {y : Sigma PlaceOf}
    (hc : assistant a = .act f) (hs : (f x).spawned = some y) : a = .loop ∧ f = handle := by
  cases a with
  | loop => cases hc; exact ⟨rfl, rfl⟩
  | await c w => rw [Await.spawned hc] at hs; cases hs
  | choose =>
      cases hc
      unfold call at hs
      split at hs <;> cases hs
  | putBack =>
      cases hc
      unfold resume at hs
      split at hs <;> cases hs
  | _ => cases hc <;> cases hs

theorem doctor_spawned {d : DoctorPc} {f : Shared → Effect Shared PlaceOf .doctor}
    (hc : doctor d = .act f) : (f x).spawned = none := by
  cases d with
  | await w => exact Await.spawned hc
  | meet w => exact Await.spawned hc
  | testSession =>
      cases hc
      unfold proceed
      split <;> rfl
  | _ => cases hc <;> rfl

theorem visitor_spawned {n : Nat} {v : VisitorPc}
    {f : Shared → Effect Shared PlaceOf (.visitor k n)} (hc : visitor k n v = .act f) :
    (f x).spawned = none := by
  cases v with
  | own w => exact Await.spawned hc
  | enter w => exact Await.spawned hc
  | _ => cases hc <;> rfl

/-- The new thread is that of the visitor with the next token of a class. -/
theorem handle_spawned {t : Tid} {p : PlaceOf t} (hs : (handle x).spawned = some ⟨t, p⟩) :
    ∃ k, t = .visitor k (x.desk.token k + 1) ∧ HEq p (VisitorPc.own .lock) := by
  have hcases := handle_cases x
  generalize handle x = e at hcases hs
  cases hcases with
  | @arrive k _ =>
      simp only at hs
      split at hs <;> cases hs
      exact ⟨k, rfl, HEq.rfl⟩
  | _ => cases hs

/-- Those admitted are those admitted before and the one who gets a thread. -/
theorem handle_admitted (hc : Counts x.desk) (k : Kind) (n : Nat) :
    (1 ≤ n ∧ n ≤ (handle x).data.desk.current k + (handle x).data.desk.num k)
      ↔ (1 ≤ n ∧ n ≤ x.desk.current k + x.desk.num k)
        ∨ (handle x).spawned = some ⟨.visitor k n, .own .lock⟩ := by
  have hcases := handle_cases x
  generalize handle x = e at hcases ⊢
  cases hcases with
  | @arrive k' _ =>
      have hiff := x.desk.admits_iff hc k'
      cases hadm : x.desk.admits k' with
      | false => simp [Desk.arrive, hadm]
      | true =>
          have hall := (hiff.mp hadm).2.1
          by_cases hk : k = k'
          · subst hk
            simp only [Desk.arrive, hadm, if_true, Function.update_self, Option.some.injEq,
              Sigma.mk.injEq, Tid.visitor.injEq, true_and, and_true, heq_eq_eq]
            omega
          · simp [Desk.arrive, hadm, Function.update_of_ne hk, Ne.symm hk]
  | _ => simp [Desk.takeTurn, Desk.skip]

theorem admitted_result (ha : a ≠ .loop) (hr : (assistant a).result x = some (x', a')) (k : Kind) :
    x'.desk.current k + x'.desk.num k = x.desk.current k + x.desk.num k := by
  cases a with
  | loop => exact absurd rfl ha
  | await c w =>
      obtain ⟨rfl, -⟩ := Await.result_next hr
      rfl
  | choose =>
      cases hr
      unfold call
      split
      · exact callIn_sum (Desk.chosen_pos ‹_›) k
      · rfl
  | putBack =>
      cases hr
      unfold resume
      split
      · rename_i d hd
        unfold Desk.putBack at hd
        split_ifs at hd <;> cases hd <;> rfl
      · rfl
  | setFree =>
      cases hr
      show (ite _ _ _ : Shared).desk.current k + (ite _ _ _ : Shared).desk.num k = _
      split <;> rfl
  | finished => cases hr
  | _ => cases hr; rfl

/-! ## Along a run -/

/-- The assistant's books are right, and whoever was admitted has a thread. -/
structure Orderly (arrivals : List Arrival) (s : Session) : Prop where
  assistant : ∃ a, s.place .assistant = some a ∧ Books arrivals s.data a
  doctor : ∃ d : DoctorPc, s.place .doctor = some d
  visitors : ∀ k n, s.place (.visitor k n) ≠ none
    ↔ 1 ≤ n ∧ n ≤ s.data.desk.current k + s.data.desk.num k
  exclusive : Exclusive holds s
  listed : s.Listed

variable {s s' : Session} {mem : Nat → Event}

theorem books_start (mem : Nat → Event) (arrivals : List Arrival) :
    Books arrivals (startSession mem arrivals).data .loop where
  counts := fun _ => counts_open mem arrivals
  firstcase := fun _ => rfl
  ordered := addevent_ordered (initEQ_ordered mem _) _
  queue := by
    refine ⟨arrivals, ⟨0, ?_⟩, fun k => ?_⟩
    · show (addevent _ _).events = _
      rw [addevent_events, initEQ_events]
      rfl
    · show 0 + Multiset.countP _ (arrivals : Multiset Arrival) = _
      rw [Multiset.coe_countP, Nat.zero_add]

theorem orderly_start (mem : Nat → Event) (arrivals : List Arrival) :
    Orderly arrivals (startSession mem arrivals) where
  assistant := ⟨.loop, rfl, books_start mem arrivals⟩
  doctor := ⟨_, rfl⟩
  visitors := by
    intro k n
    have hnone : (startSession mem arrivals).place (.visitor k n) = none := rfl
    have hcur : (startSession mem arrivals).data.desk.current k = 0 := rfl
    have hnum : (startSession mem arrivals).data.desk.num k = 0 := rfl
    rw [hnone, hcur, hnum]
    constructor
    · intro h
      exact absurd rfl h
    · omega
  exclusive := by
    intro m t
    constructor
    · intro h
      cases h
    · intro h
      cases t with
      | assistant => cases h
      | doctor => cases h
      | visitor k n => cases h
  listed := by
    intro t ht
    cases t with
    | assistant => exact List.mem_cons_self
    | doctor => exact List.mem_cons_of_mem _ List.mem_cons_self
    | visitor k n => exact absurd rfl ht

/-- Only the assistant makes threads, for visitors who are new. -/
theorem Orderly.fresh (h : Orderly arrivals s) {t : Tid} {p : PlaceOf t}
    (hp : s.place t = some p) : Fresh code s t p := by
  intro f hc y hs
  cases t with
  | doctor =>
      rw [doctor_spawned hc] at hs
      cases hs
  | visitor k n =>
      rw [visitor_spawned hc] at hs
      cases hs
  | assistant =>
      obtain ⟨a, ha, hbooks⟩ := h.assistant
      obtain rfl : p = a := Option.some.inj (hp.symm.trans ha)
      obtain ⟨rfl, rfl⟩ := assistant_spawned hc hs
      obtain ⟨t', q⟩ := y
      obtain ⟨k, rfl, -⟩ := handle_spawned hs
      by_contra hne
      have hle := ((h.visitors k _).mp hne).2
      have hcount := (hbooks.counts rfl).le k
      omega

/-- The threads of the visitors, when those admitted are the old ones and the new thread. -/
theorem Orderly.visitors_step (h : Orderly arrivals s) {t : Tid} {pick : Option Tid} {p : PlaceOf t}
    (hp : s.place t = some p) (hm : Moves code s t pick p s')
    (hadmitted : ∀ k n, (1 ≤ n ∧ n ≤ s'.data.desk.current k + s'.data.desk.num k)
      ↔ (1 ≤ n ∧ n ≤ s.data.desk.current k + s.data.desk.num k)
        ∨ ∃ f q, code t p = .act f ∧ (f s.data).spawned = some ⟨.visitor k n, q⟩) (k : Kind) (n : Nat) :
    s'.place (.visitor k n) ≠ none
      ↔ 1 ≤ n ∧ n ≤ s'.data.desk.current k + s'.data.desk.num k := by
  rw [hadmitted, ← h.visitors]
  constructor
  · intro hne
    by_cases heq : .visitor k n = t
    · subst heq
      exact .inl (by rw [hp]; exact Option.some_ne_none _)
    · rcases hm.other heq with hsame | ⟨_, _, _, hq, _, _⟩ | ⟨f, q, hc, hs, _⟩
      · exact .inl (hsame ▸ hne)
      · exact .inl (by rw [hq]; exact Option.some_ne_none _)
      · exact .inr ⟨f, q, hc, hs⟩
  · rintro (hne | ⟨f, q, hc, hs⟩)
    · exact hm.place_ne_none hne
    · have hnew := h.fresh hp f hc _ hs
      have hne : .visitor k n ≠ t := by
        intro heq
        subst heq
        rw [hp] at hnew
        cases hnew
      rw [hm.spawned hc hs hne]
      exact Option.some_ne_none _

/-- A thread that starts none and leaves the desk alone admits nobody. -/
theorem Orderly.visitors_quiet (h : Orderly arrivals s) {t : Tid} {pick : Option Tid}
    {p : PlaceOf t} (hp : s.place t = some p) (hm : Moves code s t pick p s')
    (hdesk : s'.data.desk = s.data.desk)
    (hnone : ∀ f, code t p = .act f → (f s.data).spawned = none) (k : Kind) (n : Nat) :
    s'.place (.visitor k n) ≠ none
      ↔ 1 ≤ n ∧ n ≤ s'.data.desk.current k + s'.data.desk.num k := by
  refine h.visitors_step hp hm (fun k n => ?_) k n
  rw [hdesk]
  refine ⟨.inl, ?_⟩
  rintro (hold | ⟨f, q, hc, hspawn⟩)
  · exact hold
  · rw [hnone f hc] at hspawn
    cases hspawn

/-- The assistant starts the thread of the visitor it admits. -/
theorem Orderly.visitors_assistant (h : Orderly arrivals s) {pick : Option Tid}
    (ha : s.place .assistant = some a) (hl : Books arrivals s.data a)
    (hm : Moves code s .assistant pick a s')
    (hr : (Clinic.assistant a).result s.data = some (s'.data, a')) (k : Kind) (n : Nat) :
    s'.place (.visitor k n) ≠ none
      ↔ 1 ≤ n ∧ n ≤ s'.data.desk.current k + s'.data.desk.num k := by
  refine h.visitors_step ha hm (fun k n => ?_) k n
  by_cases hloop : a = .loop
  · subst hloop
    have hdata : (handle s.data).data = s'.data := (Prod.mk.inj (Option.some.inj hr)).1
    rw [← hdata, handle_admitted (hl.counts rfl) k n]
    refine or_congr_right ⟨fun hspawn => ⟨handle, _, rfl, hspawn⟩, ?_⟩
    rintro ⟨f, q, hc, hspawn⟩
    cases hc
    obtain ⟨k', heq, hq⟩ := handle_spawned hspawn
    cases heq
    cases hq
    exact hspawn
  · rw [admitted_result hloop hr k]
    refine ⟨.inl, ?_⟩
    rintro (hold | ⟨f, q, hc, hspawn⟩)
    · exact hold
    · exact absurd (assistant_spawned hc hspawn).1 hloop

/-- Another thread leaves the assistant where it is, or wakes it up. -/
theorem Orderly.books_step (h : Orderly arrivals s) {t : Tid} {pick : Option Tid} {p : PlaceOf t}
    (hp : s.place t = some p) (hm : Moves code s t pick p s') (ht : t ≠ .assistant)
    (hdesk : s'.data.desk = s.data.desk)
    (hfirst : s'.data.doctorFirstcase = s.data.doctorFirstcase) :
    ∃ a, s'.place .assistant = some a ∧ Books arrivals s'.data a := by
  obtain ⟨a, ha, hbooks⟩ := h.assistant
  have hbooks' := hbooks.congr hdesk hfirst
  obtain ⟨a', ha', rfl | ⟨c, hc⟩⟩ := hm.wakes_other (h.fresh hp) (Ne.symm ht) ha
  · exact ⟨a', ha', hbooks'⟩
  · obtain ⟨c', rfl, rfl⟩ := assistant_asleep hc
    exact ⟨_, ha', hbooks'.woken⟩

/-- **Each step of the clinic keeps the order.** -/
theorem orderly_step (h : Orderly arrivals s) {l : Tid × Option Tid}
    (hs : s.step code l.1 l.2 = some s') : Orderly arrivals s' := by
  obtain ⟨t, pick⟩ := l
  obtain ⟨p, hp, hm⟩ := moves_of_step hs
  obtain ⟨p', hp', hr⟩ := hm.result
  have hexclusive : Exclusive holds s' :=
    exclusive_step disciplined h.exclusive hp hm (h.fresh hp)
  have hlisted := listed_step h.listed hp hm
  have hdoctor : ∃ d : DoctorPc, s'.place .doctor = some d := by
    obtain ⟨d, hd⟩ := h.doctor
    exact Option.ne_none_iff_exists'.mp
      (hm.place_ne_none (u := .doctor) (by rw [hd]; exact Option.some_ne_none _))
  cases t with
  | assistant =>
      obtain ⟨a, ha, hbooks⟩ := h.assistant
      obtain rfl : p = a := Option.some.inj (hp.symm.trans ha)
      -- only the assistant writes the desk and starts threads
      exact ⟨⟨p', hp', books_result hbooks hr⟩, hdoctor, h.visitors_assistant ha hbooks hm hr,
        hexclusive, hlisted⟩
  | doctor =>
      obtain ⟨hdesk, -, hfirst⟩ := doctor_result hr
      exact ⟨h.books_step hp hm nofun hdesk hfirst, hdoctor,
        h.visitors_quiet hp hm hdesk fun _ => doctor_spawned, hexclusive, hlisted⟩
  | visitor k' n' =>
      obtain ⟨hdesk, -, hfirst⟩ := visitor_result hr
      exact ⟨h.books_step hp hm nofun hdesk hfirst, hdoctor,
        h.visitors_quiet hp hm hdesk fun _ => visitor_spawned, hexclusive, hlisted⟩

theorem orderly_reachable (h : (clinic mem arrivals).Reachable s) : Orderly arrivals s := by
  induction h with
  | init hs => exact hs ▸ orderly_start mem arrivals
  | step _ _ hs ih => exact orderly_step ih hs

/-- **The ledger along a run** in which the assistant waits for every visit. -/
theorem ledger_step (ho : Orderly arrivals s) (ha : s.place .assistant = some a)
    (hl : Ledger arrivals s.data a) {l : Tid × Option Tid} (hok : Awaited s l)
    (hs : s.step code l.1 l.2 = some s') :
    ∃ a', s'.place .assistant = some a' ∧ Ledger arrivals s'.data a' := by
  obtain ⟨t, pick⟩ := l
  obtain ⟨p, hp, hm⟩ := moves_of_step hs
  obtain ⟨p', hp', hr⟩ := hm.result
  by_cases ht : t = .assistant
  · subst ht
    obtain rfl : p = a := Option.some.inj (hp.symm.trans ha)
    refine ⟨p', hp', books_result hl.toBooks hr, says_result hl (fun k hk => ?_) hr⟩
    subst hk
    exact hok rfl k hp
  · have hother : s'.data.desk = s.data.desk ∧ s'.data.tempTime = s.data.tempTime
        ∧ s'.data.doctorFirstcase = s.data.doctorFirstcase := by
      cases t with
      | assistant => exact absurd rfl ht
      | doctor => exact doctor_result hr
      | visitor k n => exact visitor_result hr
    have hl' := hl.congr hother.1 hother.2.1 hother.2.2
    obtain ⟨a', ha', rfl | ⟨c, hc⟩⟩ := hm.wakes_other (ho.fresh hp) (Ne.symm ht) ha
    · exact ⟨a', ha', hl'⟩
    · obtain ⟨c', rfl, rfl⟩ := assistant_asleep hc
      exact ⟨_, ha', hl'.woken⟩

theorem ledger_reachable (h : (clinic mem arrivals).ReachableWhen Awaited s) :
    ∃ a, s.place .assistant = some a ∧ Ledger arrivals s.data a := by
  refine h.invariant_of (J := fun s => Orderly arrivals s)
    (I := fun s => ∃ a, s.place .assistant = some a ∧ Ledger arrivals s.data a)
    (fun s hs => orderly_reachable hs.reachable) (fun s hs => ⟨.loop, hs ▸ rfl, hs ▸ ⟨books_start mem arrivals, trivial⟩⟩) ?_
  rintro s l s' ho ⟨a, ha, hl⟩ hok hs
  exact ledger_step ho ha hl hok hs

end OSLab.Clinic
