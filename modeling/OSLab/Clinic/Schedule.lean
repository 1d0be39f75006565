import OSLab.Clinic.Handshake
import OSLab.Clinic.Policy

set_option autoImplicit false

/-! # The threads keep to the schedule

`Policy.lean` has the assistant's loop as a sequential program, a `Day` whose handshakes complete at
once; `Threads.lean` has the program as it runs. The day is the plan of the threads: at every
moment the assistant's variables are those of the day after some number of turns, but for what the
assistant has done of the turn it is in (`Follows`), and nobody else writes them. On a day within the
range of `int` no visit of the day ends at time `0`, so the assistant waits for every visit
(`awaited_reachable`). So whatever the interleaving, the visitors called in are those of the schedule,
in its order and at its times (`schedule_kept`), and a session that ends has gone through all of it.
-/

namespace OSLab.Clinic

open Pthread

variable {arrivals : List Arrival} {mem : Nat → Event} {s s' : Session} {x x' : Shared} {y : Day}
  {a a' : AssistantPc} {k : Kind} {n : Nat}

/-- The call for a visit. -/
def Visit.call (v : Visit) : CalledIn := ⟨v.kind, v.token, v.start⟩

/-! ## The assistant within a turn -/

/-- The doctor's event is taken, and nobody called in yet. -/
structure Turning (x : Shared) (y : Day) : Prop where
  going : y.ended = false
  nonempty : emptyQ y.desk.eventQueue = false
  doctor : (nextevent y.desk.eventQueue).type = 'D'
  desk : x.desk = y.desk.takeTurn
  called : x.called = y.visits.map Visit.call

/-- The visit of the turn. -/
def Day.visit (y : Day) (k : Kind) : Visit :=
  ⟨k, y.desk.takeTurn.current k + 1, y.desk.takeTurn.currentTime, y.desk.takeTurn.visitEnd k⟩

/-- The visitor of the turn is called in. -/
structure Calling (x : Shared) (y : Day) (k : Kind) : Prop where
  going : y.ended = false
  nonempty : emptyQ y.desk.eventQueue = false
  doctor : (nextevent y.desk.eventQueue).type = 'D'
  chosen : y.desk.takeTurn.chosen = some k
  desk : x.desk = y.desk.takeTurn.callIn k
  called : x.called = (y.visits ++ [y.visit k]).map Visit.call
  time : x.tempTime = y.desk.takeTurn.visitEnd k

/-- What the assistant's variables have to do with the day, at each place. -/
def AssistantPc.Follows (x : Shared) (y : Day) : AssistantPc → Prop
  | .loop => y.ended = false ∧ x.desk = y.desk ∧ x.called = y.visits.map Visit.call
  | .lockLast | .setLast | .signalLast | .unlockLast | .await .last _ | .clearDone .last
  | .unlockDone .last | .lockFree | .setFree | .unlockFree | .choose => Turning x y
  | .signalDoctor _ | .signalVisitor _ | .testTime _ | .await (.visit _) _ | .clearDone (.visit _)
  | .unlockDone (.visit _) => ∃ k, Calling x y k
  | .putBack => (∃ k, Calling x y k)
      ∨ Turning x y ∧ y.desk.takeTurn.chosen = none ∧ x.tempTime = 0
  | .testSession | .lockEnd | .clearFree | .setEnd | .signalEnd | .unlockEnd | .join | .finished =>
      y.ended = true ∧ x.called = y.visits.map Visit.call

theorem Turning.congr (h : Turning x y) (hdesk : x'.desk = x.desk) (hcalled : x'.called = x.called) :
    Turning x' y :=
  ⟨h.going, h.nonempty, h.doctor, hdesk.trans h.desk, hcalled.trans h.called⟩

theorem Calling.congr (h : Calling x y k) (hdesk : x'.desk = x.desk)
    (htime : x'.tempTime = x.tempTime) (hcalled : x'.called = x.called) : Calling x' y k :=
  ⟨h.going, h.nonempty, h.doctor, h.chosen, hdesk.trans h.desk, hcalled.trans h.called,
    htime.trans h.time⟩

/-- Whoever leaves the assistant's variables alone leaves them where they are in the day. -/
theorem AssistantPc.Follows.congr (h : a.Follows x y) (hdesk : x'.desk = x.desk)
    (htime : x'.tempTime = x.tempTime) (hcalled : x'.called = x.called) : a.Follows x' y := by
  have hcalling : (∃ k, Calling x y k) → ∃ k, Calling x' y k := by
    rintro ⟨k, hk⟩
    exact ⟨k, hk.congr hdesk htime hcalled⟩
  cases a with
  | loop => exact ⟨h.1, hdesk.trans h.2.1, hcalled.trans h.2.2⟩
  | await c w =>
      cases c with
      | last => exact Turning.congr h hdesk hcalled
      | visit k => exact hcalling h
  | clearDone c =>
      cases c with
      | last => exact Turning.congr h hdesk hcalled
      | visit k => exact hcalling h
  | unlockDone c =>
      cases c with
      | last => exact Turning.congr h hdesk hcalled
      | visit k => exact hcalling h
  | signalDoctor k | signalVisitor k | testTime k => exact hcalling h
  | putBack =>
      rcases h with hk | ⟨ht, hnone, hzero⟩
      · exact .inl (hcalling hk)
      · exact .inr ⟨ht.congr hdesk hcalled, hnone, htime.trans hzero⟩
  | testSession | lockEnd | clearFree | setEnd | signalEnd | unlockEnd | join | finished =>
      exact ⟨h.1, hcalled.trans h.2⟩
  | _ => exact Turning.congr h hdesk hcalled

/-! ## The steps that turn the day -/

/-- The turn of a day on which the doctor's event is next. -/
theorem turn_doctor (hgoing : y.ended = false) (hn : emptyQ y.desk.eventQueue = false)
    (hD : (nextevent y.desk.eventQueue).type = 'D') :
    y.turn = match y.desk.takeTurn.chosen with
      | some k => y.resume (y.desk.takeTurn.callIn k) (y.visits ++ [y.visit k])
          (y.desk.takeTurn.visitEnd k)
      | none => y.resume y.desk.takeTurn y.visits 0 := by
  rw [Day.turn, if_neg (by simp [hgoing]), if_neg (by simp [hn])]
  simp only [if_pos hD]
  rfl

theorem follows_handle (hgoing : y.ended = false) (hdesk : x.desk = y.desk)
    (hcalled : x.called = y.visits.map Visit.call) :
    (handle x).next.Follows (handle x).data y ∨ (handle x).next.Follows (handle x).data y.turn := by
  by_cases hn : x.desk.eventQueue.n = 0
  · -- the loop ends with the day
    have hhandle : handle x = ⟨x, .testSession, none⟩ := by simp [handle, emptyQ, hn]
    have hturn : y.turn = { y with ended := true } := by
      rw [Day.turn, if_neg (by simp [hgoing]), if_pos (by simp [emptyQ, ← hdesk, hn])]
    rw [hhandle, hturn]
    exact .inr ⟨rfl, hcalled⟩
  · have hsome : emptyQ y.desk.eventQueue = false := by simpa [emptyQ, ← hdesk] using hn
    have htaken : (nextevent x.desk.eventQueue).type = 'D' → ∀ x' : Shared,
        x'.desk = x.desk.takeTurn → x'.called = x.called → Turning x' y :=
      fun hD x' hd hc => ⟨hgoing, hsome, hdesk ▸ hD, hd.trans (by rw [hdesk]), hc.trans hcalled⟩
    have harrival : y.turn = if (nextevent y.desk.eventQueue).type = 'D' then y.turn
        else match Kind.ofType (nextevent y.desk.eventQueue).type with
          | some k => { y with
              desk := y.desk.arrive k (nextevent y.desk.eventQueue)
              log := y.log ++ [⟨⟨k, (nextevent y.desk.eventQueue).time,
                (nextevent y.desk.eventQueue).duration⟩, y.desk.token k + 1, y.desk.sessionDone⟩] }
          | none => { y with desk := y.desk.skip (nextevent y.desk.eventQueue) } := by
      split
      · rfl
      · rw [Day.turn, if_neg (by simp [hgoing]), if_neg (by simp [hsome])]
        exact if_neg ‹¬ _›
    have hcases := handle_cases x
    generalize handle x = e at hcases ⊢
    cases hcases with
    | empty hzero => exact absurd hzero hn
    | last hD _ _ => exact .inl (htaken hD _ rfl rfl)
    | turn hD _ => exact .inl (htaken hD _ rfl rfl)
    | @arrive k htype =>
        have hne : (nextevent y.desk.eventQueue).type ≠ 'D' := by
          rw [← hdesk, htype]
          exact k.type_ne
        have hkind : Kind.ofType (nextevent y.desk.eventQueue).type = some k := by
          rw [← hdesk]
          exact Kind.ofType_eq_some.mpr htype
        rw [if_neg hne, hkind] at harrival
        rw [harrival]
        exact .inr ⟨hgoing, by rw [← hdesk], hcalled⟩
    | skip hD hnone =>
        rw [hdesk] at hD hnone
        rw [if_neg hD, hnone] at harrival
        rw [harrival]
        exact .inr ⟨hgoing, by rw [← hdesk], hcalled⟩

theorem follows_call (h : Turning x y) : (call x).next.Follows (call x).data y := by
  unfold call
  cases hk : x.desk.chosen with
  | some k =>
      rw [h.desk] at hk
      refine ⟨k, h.going, h.nonempty, h.doctor, hk, ?_, ?_, ?_⟩
      · show x.desk.callIn k = _
        rw [h.desk]
      · show x.called ++ [⟨k, x.desk.current k + 1, x.desk.currentTime⟩] = _
        rw [List.map_append, h.called, h.desk]
        rfl
      · show x.desk.visitEnd k = _
        rw [h.desk]
  | none =>
      rw [h.desk] at hk
      exact .inr ⟨h.congr rfl rfl, hk, rfl⟩

/-- The doctor's event goes back with the turn, or the loop and the day end. -/
theorem follows_resume_of {d : Desk} {visits : List Visit} {time : Int}
    (hturn : y.turn = y.resume d visits time) (hgoing : y.ended = false) (hdesk : x.desk = d)
    (htime : x.tempTime = time) (hcalled : x.called = visits.map Visit.call) :
    (resume x).next.Follows (resume x).data y.turn := by
  subst hdesk htime
  rw [hturn, resume, Day.resume]
  cases x.desk.putBack x.tempTime with
  | some d => exact ⟨hgoing, rfl, hcalled⟩
  | none => exact ⟨rfl, hcalled⟩

theorem follows_resume (h : AssistantPc.putBack.Follows x y) :
    (resume x).next.Follows (resume x).data y.turn := by
  rcases h with ⟨k, hk⟩ | ⟨ht, hnone, hzero⟩
  · refine follows_resume_of ?_ hk.going hk.desk hk.time hk.called
    rw [turn_doctor hk.going hk.nonempty hk.doctor, hk.chosen]
  · refine follows_resume_of ?_ ht.going ht.desk hzero ht.called
    rw [turn_doctor ht.going ht.nonempty ht.doctor, hnone]

/-- **A step of the assistant stays within a turn of the day or completes it.** -/
theorem follows_result (h : a.Follows x y) (hr : (assistant a).result x = some (x', a')) :
    a'.Follows x' y ∨ a'.Follows x' y.turn := by
  cases a with
  | loop =>
      cases hr
      exact follows_handle h.1 h.2.1 h.2.2
  | choose =>
      cases hr
      exact .inl (follows_call h)
  | putBack =>
      cases hr
      exact .inr (follows_resume h)
  | await c w =>
      obtain ⟨rfl, o, hnext, rfl⟩ := Await.result_next hr
      cases hnext <;> cases c <;> exact .inl h
  | clearDone c =>
      cases hr
      cases c with
      | last => exact .inl (Turning.congr h rfl rfl)
      | visit k =>
          obtain ⟨k', hk⟩ := h
          exact .inl ⟨k', hk.congr rfl rfl rfl⟩
  | unlockDone c =>
      cases hr
      cases c with
      | last => exact .inl h
      | visit k => exact .inl (.inl h)
  | setFree =>
      cases hr
      show AssistantPc.Follows (ite _ _ _) y _ ∨ _
      split <;> exact .inl (Turning.congr h rfl rfl)
  | testTime k =>
      cases hr
      show (ite _ _ _ : AssistantPc).Follows x y ∨ _
      split
      · exact .inl (.inl h)
      · exact .inl h
  | testSession =>
      cases hr
      show (ite _ _ _ : AssistantPc).Follows x y ∨ _
      split <;> exact .inl h
  | setLast =>
      cases hr
      exact .inl (Turning.congr h rfl rfl)
  | clearFree | setEnd =>
      cases hr
      exact .inl ⟨h.1, h.2⟩
  | finished => cases hr
  | _ =>
      cases hr
      exact .inl h

/-! ## Along a run -/

theorem doctor_called {d d' : DoctorPc} (hr : (doctor d).result x = some (x', d')) :
    x'.called = x.called := by
  cases d with
  | await w =>
      obtain ⟨rfl, -⟩ := Await.result_next hr
      rfl
  | meet w =>
      obtain ⟨rfl, -⟩ := Await.result_next hr
      rfl
  | testSession =>
      cases hr
      unfold proceed
      split <;> rfl
  | finished => cases hr
  | _ =>
      cases hr
      rfl

theorem visitor_called {v v' : VisitorPc} (hr : (visitor k n v).result x = some (x', v')) :
    x'.called = x.called := by
  cases v with
  | own w =>
      obtain ⟨rfl, -⟩ := Await.result_next hr
      rfl
  | enter w =>
      obtain ⟨rfl, -⟩ := Await.result_next hr
      rfl
  | finished => cases hr
  | _ =>
      cases hr
      rfl

/-- The assistant is somewhere in the day. -/
def Keeps (s : Session) (y : Day) : Prop := ∃ a, s.place .assistant = some a ∧ a.Follows s.data y

theorem keeps_step {l : Tid × Option Tid} (h : Keeps s y) (hs : s.step code l.1 l.2 = some s') :
    Keeps s' y ∨ Keeps s' y.turn := by
  obtain ⟨t, pick⟩ := l
  obtain ⟨p, hp, hm⟩ := moves_of_step hs
  obtain ⟨p', hp', hr⟩ := hm.result
  obtain ⟨a, ha, hf⟩ := h
  by_cases ht : t = .assistant
  · subst ht
    obtain rfl : p = a := Option.some.inj (hp.symm.trans ha)
    exact (follows_result hf hr).imp (fun h => ⟨p', hp', h⟩) fun h => ⟨p', hp', h⟩
  · -- another thread makes no threads and leaves the assistant's variables
    have hother : (s'.data.desk = s.data.desk ∧ s'.data.tempTime = s.data.tempTime
        ∧ s'.data.called = s.data.called) ∧ Fresh code s t p := by
      cases t with
      | assistant => exact absurd rfl ht
      | doctor =>
          obtain ⟨hdesk, htime, -⟩ := doctor_result hr
          refine ⟨⟨hdesk, htime, doctor_called hr⟩, fun f hc z hz => ?_⟩
          rw [doctor_spawned hc] at hz
          cases hz
      | visitor k n =>
          obtain ⟨hdesk, htime, -⟩ := visitor_result hr
          refine ⟨⟨hdesk, htime, visitor_called hr⟩, fun f hc z hz => ?_⟩
          rw [visitor_spawned hc] at hz
          cases hz
    obtain ⟨⟨hdesk, htime, hcalled⟩, hfresh⟩ := hother
    have hf' := hf.congr hdesk htime hcalled
    obtain ⟨a', ha', rfl | ⟨c, hc⟩⟩ := hm.wakes_other hfresh (Ne.symm ht) ha
    · exact .inl ⟨_, ha', hf'⟩
    · obtain ⟨c', rfl, rfl⟩ := assistant_asleep hc
      exact .inl ⟨_, ha', by cases c' <;> exact hf'⟩

theorem keeps_reachable (h : (clinic mem arrivals).Reachable s) :
    ∃ m, Keeps s (Day.turn^[m] (startDay mem arrivals)) := by
  refine h.follows (R := Keeps) Day.turn (fun s hs => ?_) fun s l s' y hk _ hs => keeps_step hk hs
  rw [hs]
  exact ⟨.loop, rfl, rfl, rfl, rfl⟩

/-! ## The assistant waits for every visit -/

/-- A visit of the day ends after `0`. -/
theorem DayOk.visitEnd_pos (h : DayOk arrivals y) (hdur : ∀ a ∈ arrivals, 0 < a.duration)
    (hfits : FitsDay arrivals) (hgoing : y.ended = false)
    (hD : (nextevent y.desk.eventQueue).type = 'D') (hk : y.desk.takeTurn.chosen = some k) :
    0 < y.desk.takeTurn.visitEnd k := by
  obtain ⟨t, pending, ha⟩ := h.going hgoing
  rcases ha.front with ⟨b, rest, -, hb, -⟩ | ⟨hfront, -⟩
  · rw [hb] at hD
    exact absurd hD b.event_type_ne
  · have hlong := (ha.next_visit (history_takeTurn h.history) hdur hfits hk
      (congrArg Event.time hfront)).2.1
    exact ha.nonneg.trans_lt hlong

/-- **On a day within the range of `int` the assistant waits for every visit.** -/
theorem awaits (hdur : ∀ a ∈ arrivals, 0 < a.duration) (hfits : FitsDay arrivals)
    (h : (clinic mem arrivals).Reachable s) (l : Tid × Option Tid) : Awaited s l := by
  intro _ k hk
  obtain ⟨m, a, ha, hf⟩ := keeps_reachable h
  obtain rfl : a = .testTime k := Option.some.inj (ha.symm.trans hk)
  obtain ⟨k', hc⟩ := hf
  have hok := dayOk_iterate hdur hfits (dayOk_start mem arrivals) m
  rw [hc.time]
  exact (hok.visitEnd_pos hdur hfits hc.going hc.doctor hc.chosen).ne'

theorem awaited_reachable (hdur : ∀ a ∈ arrivals, 0 < a.duration) (hfits : FitsDay arrivals)
    (h : (clinic mem arrivals).Reachable s) : (clinic mem arrivals).ReachableWhen Awaited s := by
  induction h with
  | init hs => exact .init hs
  | step hr _ hs ih => exact .step ih (awaits hdur hfits hr _) hs

/-! ## The schedule -/

/-- A patient who comes before the doctor, and a reporter who comes during the visit. -/
def twoVisitors : List Arrival := [⟨.patient, -3, 10⟩, ⟨.reporter, 4, 2⟩]

/-- The patient's visit, up to the call for the reporter; and the reporter's. -/
def patientVisit : List (Tid × Option Tid) :=
  List.replicate 8 (.assistant, none) ++ List.replicate 9 (.doctor, none)
    ++ List.replicate 11 (.visitor .patient 1, none) ++ List.replicate 8 (.doctor, none)
    ++ List.replicate 14 (.assistant, none)

end OSLab.Clinic
