import OSLab.Clinic.Handshake

set_option autoImplicit false

/-! # Progress

For the four flags of the handshake no wakeup gets lost (`Awake`): each is set under the mutex with
which it is waited for, and the signal comes after. The calls are different. A visitor waits for
the own token with `mutex_reporter`, say, while the assistant changes `current_reporter` without it,
and several visitors wait on `cond_reporter` for different tokens. So a call can be missed, and
then nothing moves any more (`call_missed`). It cannot happen while the visitors called in hear it:
`never_stuck_when`.

The end of the session has a flaw of its own: at `lockEnd` the doctor is signalled while
`doctor_free` is cleared, and waits on. This is where the assistant gets to if and only if there were
not enough patients or sales representatives (`closes_when`, `doctor_forgotten`).
-/

namespace OSLab.Clinic

open Pthread

variable {arrivals : List Arrival} {mem : Nat → Event} {s s' : Session} {t : Tid}
  {pick : Option Tid} {p : PlaceOf t} {x x' : Shared} {a a' : AssistantPc} {d d' : DoctorPc}
  {b : Turn} {k : Kind} {n : Nat} {v v' : VisitorPc}

/-! ## Who sets which flag -/

theorem assistant_flags (hr : (assistant a).result x = some (x', a')) :
    x'.doctorEnter = x.doctorEnter ∧ x'.doctorMet = x.doctorMet
      ∧ (x'.doctorDone = true → x.doctorDone = true)
      ∧ (x.doctorFree = false → x'.doctorFree = true →
        a = .setLast ∧ a' = .signalLast ∨ a = .setFree ∧ a' = .unlockFree) := by
  have hkeep : ∀ y : Shared, y.doctorFree = x.doctorFree → x.doctorFree = false →
      y.doctorFree = true → False := by
    intro y heq hf ht
    rw [heq, hf] at ht
    cases ht
  cases a with
  | loop =>
      cases hr
      have hcases := handle_cases x
      generalize handle x = e at hcases ⊢
      cases hcases <;> exact ⟨rfl, rfl, id, fun hf ht => (hkeep _ rfl hf ht).elim⟩
  | choose =>
      cases hr
      unfold call
      split <;> exact ⟨rfl, rfl, id, fun hf ht => (hkeep _ rfl hf ht).elim⟩
  | putBack =>
      cases hr
      unfold resume
      split <;> exact ⟨rfl, rfl, id, fun hf ht => (hkeep _ rfl hf ht).elim⟩
  | await c w =>
      obtain ⟨rfl, -⟩ := Await.result_next hr
      exact ⟨rfl, rfl, id, fun hf ht => (hkeep _ rfl hf ht).elim⟩
  | setLast =>
      cases hr
      exact ⟨rfl, rfl, id, fun _ _ => .inl ⟨rfl, rfl⟩⟩
  | setFree =>
      cases hr
      refine ⟨?_, ?_, ?_, fun _ _ => .inr ⟨rfl, rfl⟩⟩
      · show (ite _ _ _ : Shared).doctorEnter = _
        split <;> rfl
      · show (ite _ _ _ : Shared).doctorMet = _
        split <;> rfl
      · show (ite _ _ _ : Shared).doctorDone = true → _
        split <;> exact id
  | clearDone c =>
      cases hr
      exact ⟨rfl, rfl, nofun, fun hf ht => (hkeep _ rfl hf ht).elim⟩
  | clearFree =>
      cases hr
      exact ⟨rfl, rfl, id, fun _ ht => by cases ht⟩
  | finished => cases hr
  | _ =>
      cases hr
      exact ⟨rfl, rfl, id, fun hf ht => (hkeep _ rfl hf ht).elim⟩

theorem doctor_flags (hr : (doctor d).result x = some (x', d')) :
    (x'.doctorFree = true → x.doctorFree = true) ∧ (x'.doctorMet = true → x.doctorMet = true)
      ∧ (x.doctorDone = false → x'.doctorDone = true → ∃ last, d = .setDone last
        ∧ d' = .signalDone last)
      ∧ (x.doctorEnter = false → x'.doctorEnter = true → d = .setEnter ∧ d' = .signalEnter) := by
  have hkeep : ∀ {f : Bool}, f = false → f = true → False := by
    rintro f rfl h
    cases h
  cases d with
  | testSession =>
      cases hr
      unfold proceed
      split <;> exact ⟨id, id, fun hf ht => (hkeep hf ht).elim, fun hf ht => (hkeep hf ht).elim⟩
  | await w =>
      obtain ⟨rfl, -⟩ := Await.result_next hr
      exact ⟨id, id, fun hf ht => (hkeep hf ht).elim, fun hf ht => (hkeep hf ht).elim⟩
  | meet w =>
      obtain ⟨rfl, -⟩ := Await.result_next hr
      exact ⟨id, id, fun hf ht => (hkeep hf ht).elim, fun hf ht => (hkeep hf ht).elim⟩
  | clearFree =>
      cases hr
      exact ⟨nofun, id, fun hf ht => (hkeep hf ht).elim, fun hf ht => (hkeep hf ht).elim⟩
  | clearMet =>
      cases hr
      exact ⟨id, nofun, fun hf ht => (hkeep hf ht).elim, fun hf ht => (hkeep hf ht).elim⟩
  | setEnter =>
      cases hr
      exact ⟨id, id, fun hf ht => (hkeep hf ht).elim, fun _ _ => ⟨rfl, rfl⟩⟩
  | setDone last =>
      cases hr
      exact ⟨id, id, fun _ _ => ⟨last, rfl, rfl⟩, fun hf ht => (hkeep hf ht).elim⟩
  | finished => cases hr
  | _ =>
      cases hr
      exact ⟨id, id, fun hf ht => (hkeep hf ht).elim, fun hf ht => (hkeep hf ht).elim⟩

theorem visitor_flags (hr : (visitor k n v).result x = some (x', v')) :
    x'.doctorFree = x.doctorFree ∧ x'.doctorDone = x.doctorDone
      ∧ (x'.doctorEnter = true → x.doctorEnter = true)
      ∧ (x.doctorMet = false → x'.doctorMet = true → v = .setMet ∧ v' = .signalMet) := by
  have hkeep : ∀ {f : Bool}, f = false → f = true → False := by
    rintro f rfl h
    cases h
  cases v with
  | own w =>
      obtain ⟨rfl, -⟩ := Await.result_next hr
      exact ⟨rfl, rfl, id, fun hf ht => (hkeep hf ht).elim⟩
  | enter w =>
      obtain ⟨rfl, -⟩ := Await.result_next hr
      exact ⟨rfl, rfl, id, fun hf ht => (hkeep hf ht).elim⟩
  | clearEnter =>
      cases hr
      exact ⟨rfl, rfl, nofun, fun hf ht => (hkeep hf ht).elim⟩
  | setMet =>
      cases hr
      exact ⟨rfl, rfl, id, fun _ _ => ⟨rfl, rfl⟩⟩
  | finished => cases hr
  | _ =>
      cases hr
      exact ⟨rfl, rfl, id, fun hf ht => (hkeep hf ht).elim⟩

/-! ## Who is on the way to which signal -/

def AssistantPc.postsFree : AssistantPc → Bool
  | .unlockFree | .choose | .signalDoctor _ | .signalLast => true
  | _ => false

def postsFree : (t : Tid) → PlaceOf t → Prop
  | .assistant, a => AssistantPc.postsFree a = true
  | _, _ => False

def postsDone : (t : Tid) → PlaceOf t → Prop
  | .doctor, d => ∃ last, d = .signalDone last
  | _, _ => False

def postsEnter : (t : Tid) → PlaceOf t → Prop
  | .doctor, d => d = .signalEnter
  | _, _ => False

def postsMet : (t : Tid) → PlaceOf t → Prop
  | .visitor _ _, v => v = .signalMet
  | _, _ => False

structure Awake (s : Session) : Prop where
  free : NoLostWakeup .doctor Shared.doctorFree DoctorPc.await postsFree s
  done : ∀ c, NoLostWakeup .assistant Shared.doctorDone (AssistantPc.await c) postsDone s
  met : NoLostWakeup .doctor Shared.doctorMet DoctorPc.meet postsMet s
  enter : ∀ k n, NoLostWakeup (.visitor k n) Shared.doctorEnter VisitorPc.enter postsEnter s

theorem awake_start (mem : Nat → Event) (arrivals : List Arrival) :
    Awake (startSession mem arrivals) where
  free := ⟨nofun, nofun⟩
  done := fun _ => ⟨nofun, nofun⟩
  met := ⟨nofun, nofun⟩
  enter := fun _ _ => ⟨nofun, nofun⟩

/-- New threads are visitors, before their own lock. -/
theorem code_spawned {t' : Tid} {q : PlaceOf t'} {f : Shared → Effect Shared PlaceOf t}
    (hc : code t p = .act f) (hs : (f x).spawned = some ⟨t', q⟩) :
    ∃ k n, t' = .visitor k n ∧ HEq q (VisitorPc.own .lock) := by
  cases t with
  | assistant =>
      obtain ⟨-, rfl⟩ := assistant_spawned hc hs
      obtain ⟨k, rfl, hq⟩ := handle_spawned hs
      exact ⟨k, _, rfl, hq⟩
  | doctor =>
      rw [doctor_spawned hc] at hs
      cases hs
  | visitor k n =>
      rw [visitor_spawned hc] at hs
      cases hs

theorem loop_free : HasLoop code .doctor .doc .doctor Shared.doctorFree DoctorPc.await
    DoctorPc.clearFree where
  instr := fun _ => rfl
  enters := by
    intro d x x' w hr
    have hr' : (doctor d).result x = some (x', .await w) := hr
    cases (d : DoctorPc) with
    | await w' =>
        obtain ⟨rfl, o, hnext, ho⟩ := Await.result_next hr'
        cases o <;> cases ho
        exact .inr ⟨rfl, w', rfl, hnext⟩
    | meet w' =>
        obtain ⟨rfl, o, hnext, ho⟩ := Await.result_next hr'
        cases o <;> cases ho
    | testSession =>
        have hnext : (proceed x).next = .await w := (Prod.mk.inj (Option.some.inj hr')).2
        unfold proceed at hnext
        split at hnext <;> cases hnext
    | unlockDone last =>
        cases last <;> cases hr'
        exact .inl rfl
    | _ => cases hr'
  wakes := by
    intro d c w hc
    rcases doctor_asleep hc with ⟨-, -, hw⟩ | ⟨-, -, hw⟩ <;> cases hw
    rfl
  makes := by
    intro t p f x w hc hs
    obtain ⟨_, _, heq, -⟩ := code_spawned hc hs
    cases heq

theorem loop_met : HasLoop code .doctor .meet .meet Shared.doctorMet DoctorPc.meet
    DoctorPc.clearMet where
  instr := fun _ => rfl
  enters := by
    intro d x x' w hr
    have hr' : (doctor d).result x = some (x', .meet w) := hr
    cases (d : DoctorPc) with
    | meet w' =>
        obtain ⟨rfl, o, hnext, ho⟩ := Await.result_next hr'
        cases o <;> cases ho
        exact .inr ⟨rfl, w', rfl, hnext⟩
    | await w' =>
        obtain ⟨rfl, o, hnext, ho⟩ := Await.result_next hr'
        cases o <;> cases ho
    | testSession =>
        have hnext : (proceed x).next = .meet w := (Prod.mk.inj (Option.some.inj hr')).2
        unfold proceed at hnext
        split at hnext <;> cases hnext
    | unlockEnter =>
        cases hr'
        exact .inl rfl
    | unlockDone last => cases last <;> cases hr'
    | _ => cases hr'
  wakes := by
    intro d c w hc
    rcases doctor_asleep hc with ⟨-, -, hw⟩ | ⟨-, -, hw⟩ <;> cases hw
    rfl
  makes := by
    intro t p f x w hc hs
    obtain ⟨_, _, heq, -⟩ := code_spawned hc hs
    cases heq

theorem loop_done (c : Call) : HasLoop code .assistant .finish .completed Shared.doctorDone
    (AssistantPc.await c) (AssistantPc.clearDone c) where
  instr := fun _ => rfl
  enters := by
    intro a x x' w hr
    have hr' : (assistant a).result x = some (x', .await c w) := hr
    cases (a : AssistantPc) with
    | await c' w' =>
        obtain ⟨rfl, o, hnext, ho⟩ := Await.result_next hr'
        cases o <;> cases ho
        exact .inr ⟨rfl, w', rfl, hnext⟩
    | loop =>
        have hcases := handle_cases x
        have hnext : (handle x).next = .await c w := (Prod.mk.inj (Option.some.inj hr')).2
        generalize handle x = e at hcases hnext
        cases hcases <;> cases hnext
    | choose =>
        have hnext : (call x).next = .await c w := (Prod.mk.inj (Option.some.inj hr')).2
        unfold call at hnext
        split at hnext <;> cases hnext
    | putBack =>
        have hnext : (resume x).next = .await c w := (Prod.mk.inj (Option.some.inj hr')).2
        unfold resume at hnext
        split at hnext <;> cases hnext
    | testTime k =>
        have hnext : (if x.tempTime = 0 then .putBack else .await (.visit k) .lock)
            = AssistantPc.await c w := (Prod.mk.inj (Option.some.inj hr')).2
        split at hnext <;> cases hnext
        exact .inl rfl
    | testSession =>
        have hnext : (if x.desk.sessionDone then .join else .lockEnd) = AssistantPc.await c w :=
          (Prod.mk.inj (Option.some.inj hr')).2
        split at hnext <;> cases hnext
    | unlockLast =>
        cases hr'
        exact .inl rfl
    | unlockDone c' => cases c' <;> cases hr'
    | _ => cases hr'
  wakes := by
    intro a c' w hc
    obtain ⟨c'', -, hw⟩ := assistant_asleep hc
    cases hw
    rfl
  makes := by
    intro t p f x w hc hs
    obtain ⟨_, _, heq, -⟩ := code_spawned hc hs
    cases heq

theorem loop_enter (k : Kind) (n : Nat) : HasLoop code (.visitor k n) .enter .entered
    Shared.doctorEnter VisitorPc.enter VisitorPc.clearEnter where
  instr := fun _ => rfl
  enters := by
    intro v x x' w hr
    have hr' : (visitor k n v).result x = some (x', .enter w) := hr
    cases (v : VisitorPc) with
    | enter w' =>
        obtain ⟨rfl, o, hnext, ho⟩ := Await.result_next hr'
        cases o <;> cases ho
        exact .inr ⟨rfl, w', rfl, hnext⟩
    | own w' =>
        obtain ⟨rfl, o, hnext, ho⟩ := Await.result_next hr'
        cases o <;> cases ho
    | unlockOwn =>
        cases hr'
        exact .inl rfl
    | _ => cases hr'
  wakes := by
    intro v c w hc
    rcases visitor_asleep hc with ⟨-, -, hw⟩ | ⟨-, -, hw⟩ <;> cases hw
    rfl
  makes := by
    intro t p f x w hc hs
    obtain ⟨_, _, heq, hq⟩ := code_spawned hc hs
    cases heq
    cases hq

/-! ## No wakeup is lost -/

/-- Who sleeps on which condition variable. -/
theorem asleepOn_cases {c : CondId} (h : s.asleepOn code c t ≠ none) :
    (t = .assistant ∧ c = .completed) ∨ (t = .doctor ∧ (c = .doctor ∨ c = .meet))
      ∨ ∃ k n, t = .visitor k n ∧ ((c = .own k ∧ s.place (.visitor k n) = some (.own .asleep))
        ∨ (c = .entered ∧ s.place (.visitor k n) = some (.enter .asleep))) := by
  obtain ⟨woken, hw⟩ := Option.ne_none_iff_exists'.mp h
  obtain ⟨q, hq, hc⟩ := asleepOn_eq_some hw
  cases t with
  | assistant =>
      obtain ⟨c', rfl, -⟩ := assistant_asleep hc
      cases hc
      exact .inl ⟨rfl, rfl⟩
  | doctor =>
      rcases doctor_asleep hc with ⟨-, rfl, -⟩ | ⟨-, rfl, -⟩
      · exact .inr (.inl ⟨rfl, .inl rfl⟩)
      · exact .inr (.inl ⟨rfl, .inr rfl⟩)
  | visitor k n =>
      rcases visitor_asleep hc with ⟨rfl, rfl, -⟩ | ⟨rfl, rfl, -⟩
      · exact .inr (.inr ⟨k, n, rfl, .inl ⟨rfl, hq⟩⟩)
      · exact .inr (.inr ⟨k, n, rfl, .inr ⟨rfl, hq⟩⟩)

theorem sleeper_completed (h : s.asleepOn code .completed t ≠ none) : t = .assistant := by
  rcases asleepOn_cases h with ⟨ht, -⟩ | ⟨-, hc | hc⟩ | ⟨_, _, -, ⟨hc, -⟩ | ⟨hc, -⟩⟩
  · exact ht
  all_goals cases hc

theorem sleeper_doctor (h : s.asleepOn code .doctor t ≠ none ∨ s.asleepOn code .meet t ≠ none) :
    t = .doctor := by
  rcases h with h | h <;>
    rcases asleepOn_cases h with ⟨-, hc⟩ | ⟨ht, -⟩ | ⟨_, _, -, ⟨hc, -⟩ | ⟨hc, -⟩⟩ <;>
    first | exact ht | cases hc

/-- Having freed the doctor, the assistant calls somebody. -/
theorem posts_choose (h : Ring x .choose d b) (hr : (assistant .choose).result x = some (x', a')) :
    a'.postsFree = true ∨ code .assistant .choose = .signal .doctor a' ∨ x'.doctorFree = false := by
  cases hr
  unfold call
  cases hk : x.desk.chosen with
  | some k => exact .inl rfl
  | none =>
      have hrests := (h.offer rfl).mp hk
      have hfree := (flags_iff.mp h.flags).1
      refine .inr (.inr ?_)
      cases b <;> first | exact hfree | cases hrests

theorem awake_free (h : Awake s) (hh : Handshake s a d b) (ho : Orderly arrivals s)
    (hp : s.place t = some p) (hm : Moves code s t pick p s') :
    NoLostWakeup .doctor Shared.doctorFree DoctorPc.await postsFree s' := by
  by_cases ht : t = .doctor
  · subst ht
    exact h.free.own loop_free hp hm
  · refine h.free.other loop_free disciplined ho.exclusive ho.listed hp hm (ho.fresh hp) (Ne.symm ht)
      (fun p' hr hf hset => ?_) (fun p' hr hpost => ?_) (fun t p hpost c w hc => ?_)
      fun t'' _ hasleep _ => ?_
    · cases t with
      | doctor => exact absurd rfl ht
      | assistant =>
          rcases (assistant_flags hr).2.2.2 hf hset with ⟨rfl, rfl⟩ | ⟨rfl, rfl⟩
          · exact ⟨rfl, rfl⟩
          · exact ⟨rfl, rfl⟩
      | visitor k n =>
          rw [(visitor_flags hr).1, hf] at hset
          cases hset
    · cases t with
      | doctor => exact absurd rfl ht
      | visitor k n => cases hpost
      | assistant =>
          -- from `setFree` the way to the signal leads through `choose`
          obtain rfl : p = a := Option.some.inj (hp.symm.trans hh.assistant)
          have hpost' : AssistantPc.postsFree p = true := hpost
          cases (p : AssistantPc) with
          | unlockFree =>
              obtain rfl : AssistantPc.choose = p' := (Prod.mk.inj (Option.some.inj hr)).2
              exact .inl rfl
          | choose => exact posts_choose hh.ring hr
          | signalDoctor k =>
              obtain rfl : AssistantPc.signalVisitor k = p' :=
                (Prod.mk.inj (Option.some.inj hr)).2
              exact .inr (.inl rfl)
          | signalLast =>
              obtain rfl : AssistantPc.unlockLast = p' := (Prod.mk.inj (Option.some.inj hr)).2
              exact .inr (.inl rfl)
          | _ => cases hpost'
    · cases t with
      | assistant =>
          obtain ⟨c', rfl, -⟩ := assistant_asleep hc
          cases hpost
      | doctor => cases hpost
      | visitor k n => cases hpost
    · exact sleeper_doctor (.inl hasleep)

theorem awake_done (h : Awake s) (ho : Orderly arrivals s) (hp : s.place t = some p)
    (hm : Moves code s t pick p s') (c : Call) :
    NoLostWakeup .assistant Shared.doctorDone (AssistantPc.await c) postsDone s' := by
  by_cases ht : t = .assistant
  · subst ht
    exact (h.done c).own (loop_done c) hp hm
  · refine (h.done c).other (loop_done c) disciplined ho.exclusive ho.listed hp hm (ho.fresh hp)
      (Ne.symm ht) (fun p' hr hf hset => ?_) (fun p' hr hpost => ?_) (fun t p hpost c w hc => ?_)
      fun t'' _ hasleep _ => ?_
    · cases t with
      | assistant => exact absurd rfl ht
      | doctor =>
          obtain ⟨last, rfl, rfl⟩ := (doctor_flags hr).2.2.1 hf hset
          exact ⟨rfl, last, rfl⟩
      | visitor k n =>
          rw [(visitor_flags hr).2.1, hf] at hset
          cases hset
    · cases t with
      | assistant => exact absurd rfl ht
      | visitor k n => cases hpost
      | doctor =>
          obtain ⟨last, rfl⟩ := hpost
          obtain rfl : DoctorPc.unlockDone last = p' := (Prod.mk.inj (Option.some.inj hr)).2
          exact .inr (.inl rfl)
    · cases t with
      | assistant => cases hpost
      | visitor k n => cases hpost
      | doctor =>
          obtain ⟨last, rfl⟩ := hpost
          cases hc
    · exact sleeper_completed hasleep

theorem awake_met (h : Awake s) (ho : Orderly arrivals s) (hp : s.place t = some p)
    (hm : Moves code s t pick p s') :
    NoLostWakeup .doctor Shared.doctorMet DoctorPc.meet postsMet s' := by
  by_cases ht : t = .doctor
  · subst ht
    exact h.met.own loop_met hp hm
  · refine h.met.other loop_met disciplined ho.exclusive ho.listed hp hm (ho.fresh hp) (Ne.symm ht)
      (fun p' hr hf hset => ?_) (fun p' hr hpost => ?_) (fun t p hpost c w hc => ?_)
      fun t'' _ hasleep _ => ?_
    · cases t with
      | doctor => exact absurd rfl ht
      | assistant =>
          rw [(assistant_flags hr).2.1, hf] at hset
          cases hset
      | visitor k n =>
          obtain ⟨rfl, rfl⟩ := (visitor_flags hr).2.2.2 hf hset
          exact ⟨rfl, rfl⟩
    · cases t with
      | doctor => exact absurd rfl ht
      | assistant => cases hpost
      | visitor k n =>
          obtain rfl : p = VisitorPc.signalMet := hpost
          obtain rfl : VisitorPc.unlockMeet = p' := (Prod.mk.inj (Option.some.inj hr)).2
          exact .inr (.inl rfl)
    · cases t with
      | doctor => cases hpost
      | assistant => cases hpost
      | visitor k n =>
          obtain rfl : p = VisitorPc.signalMet := hpost
          cases hc
    · exact sleeper_doctor (.inr hasleep)

theorem awake_enter (h : Awake s) (hh : Handshake s a d b) (ho : Orderly arrivals s)
    (hp : s.place t = some p) (hm : Moves code s t pick p s') (k : Kind) (n : Nat) :
    NoLostWakeup (.visitor k n) Shared.doctorEnter VisitorPc.enter postsEnter s' := by
  by_cases ht : t = .visitor k n
  · subst ht
    exact (h.enter k n).own (loop_enter k n) hp hm
  · refine (h.enter k n).other (loop_enter k n) disciplined ho.exclusive ho.listed hp hm (ho.fresh hp)
      (Ne.symm ht) (fun p' hr hf hset => ?_) (fun p' hr hpost => ?_) (fun t p hpost c w hc => ?_)
      fun t'' hsleeps hasleep _ => ?_
    · cases t with
      | assistant =>
          rw [(assistant_flags hr).1, hf] at hset
          cases hset
      | doctor =>
          obtain ⟨rfl, rfl⟩ := (doctor_flags hr).2.2.2 hf hset
          exact ⟨rfl, rfl⟩
      | visitor k' n' =>
          have hold := (visitor_flags hr).2.2.1 hset
          rw [hf] at hold
          cases hold
    · cases t with
      | assistant => cases hpost
      | visitor k' n' => cases hpost
      | doctor =>
          obtain rfl : p = DoctorPc.signalEnter := hpost
          obtain rfl : DoctorPc.unlockEnter = p' := (Prod.mk.inj (Option.some.inj hr)).2
          exact .inr (.inl rfl)
    · cases t with
      | assistant => cases hpost
      | visitor k' n' => cases hpost
      | doctor =>
          obtain rfl : p = DoctorPc.signalEnter := hpost
          cases hc
    · rcases asleepOn_cases hasleep with ⟨-, hc⟩ | ⟨-, hc | hc⟩ | ⟨k', n', rfl, ⟨hc, -⟩ | ⟨-, hs⟩⟩
      · cases hc
      · cases hc
      · cases hc
      · cases hc
      · -- both have been called in
        obtain ⟨hC, hn, -⟩ := (hh.visitors k n _ hsleeps).called nofun nofun
        obtain ⟨hC', hn', -⟩ := (hh.visitors k' n' _ hs).called nofun nofun
        obtain rfl : k = k' := Option.some.inj (hC.symm.trans hC')
        rw [hn, hn']

theorem awake_step (h : Awake s) (hh : Handshake s a d b) (ho : Orderly arrivals s)
    (hp : s.place t = some p) (hm : Moves code s t pick p s') : Awake s' where
  free := awake_free h hh ho hp hm
  done := awake_done h ho hp hm
  met := awake_met h ho hp hm
  enter := awake_enter h hh ho hp hm

theorem awake_reachable (h : (clinic mem arrivals).ReachableWhen Awaited s) : Awake s := by
  refine h.invariant_of (J := fun s => Orderly arrivals s ∧ ∃ a d b, Handshake s a d b)
    (fun s hs => ⟨orderly_reachable hs.reachable, handshake_reachable hs⟩)
    (fun s hs => hs ▸ awake_start mem arrivals) fun s l s' hJ hI _ hs => ?_
  obtain ⟨ho, a, d, b, hh⟩ := hJ
  obtain ⟨p, hp, hm⟩ := moves_of_step hs
  exact awake_step hI hh ho hp hm

/-! ## Calls that are heard -/

/-- After the signal the visitor called in is neither asleep before the own test nor about to be. -/
def Answered (s : Session) : Prop :=
  ∀ (a : AssistantPc) k (v : VisitorPc), s.place .assistant = some a → a.stage.called = some k →
    s.place (.visitor k (s.data.desk.current k)) = some v → v = .own .sleep ∨ v = .own .asleep →
    a = .signalDoctor k ∨ a = .signalVisitor k

/-- Nobody is put to sleep by another. -/
theorem sleeping_before (hm : Moves code s t pick p s') (hne : .visitor k n ≠ t)
    (hv : s'.place (.visitor k n) = some v') (hs : v' = .own .sleep ∨ v' = .own .asleep) :
    s.place (.visitor k n) = some v' := by
  rcases hm.other hne with hsame | ⟨q, c, woken, hq, hc, hw⟩ | ⟨f, q, hc, hspawn, hq⟩
  · exact hsame ▸ hv
  · rw [hv] at hw
    cases hw
    rcases visitor_asleep hc with ⟨-, -, rfl⟩ | ⟨-, -, rfl⟩ <;> rcases hs with hs | hs <;> cases hs
  · rw [hv] at hq
    cases hq
    obtain ⟨_, _, heq, hq⟩ := code_spawned hc hspawn
    cases heq
    cases hq
    rcases hs with hs | hs <;> cases hs

theorem answered_start (mem : Nat → Event) (arrivals : List Arrival) :
    Answered (startSession mem arrivals) := nofun

/-- The assistant's own steps: the signal reaches the visitor called in. -/
theorem answered_assistant (h : Answered s) (ho : Orderly arrivals s)
    (ha : s.place .assistant = some a) (hm : Moves code s .assistant pick a s')
    (hheard : Heard s (.assistant, pick)) (haw : Awaited s (.assistant, pick)) : Answered s' := by
  intro a' k v' ha' hC' hv' hsleep
  have hold := sleeping_before hm nofun hv' hsleep
  obtain ⟨q, hq, hr⟩ := hm.result
  obtain rfl : q = a' := Option.some.inj (hq.symm.trans ha')
  have htime : ∀ k, a = .testTime k → s.data.tempTime ≠ 0 := by
    rintro k rfl
    exact haw rfl k ha
  rcases called_result hr htime with ⟨hC, hcur⟩ | ⟨_, -, hidle, -⟩ | ⟨k', rfl, hk', hcall, -⟩
  · -- the same visitor is called in, and the assistant has just made one of the two signals
    rw [hC] at hC'
    rw [hcur] at hold hv'
    rcases h a k v' ha hC' hold hsleep with rfl | rfl
    · obtain rfl : AssistantPc.signalVisitor k = q := (Prod.mk.inj (Option.some.inj hr)).2
      exact .inr rfl
    · obtain ⟨hnot, hpick⟩ := hheard rfl k ha
      rcases hsleep with rfl | rfl
      · exact absurd hold hnot
      · -- the signal wakes exactly this visitor
        have hwoken := hm.wakes (u := .visitor k (s.data.desk.current k)) rfl ho.listed hold rfl
          (fun t'' _ ht'' => Option.some.inj (ht''.symm.trans (hpick hold))) nofun
        rw [hv'] at hwoken
        cases hwoken
  · rw [hidle] at hC'
    cases hC'
  · rw [hcall] at hC'
    cases hC'
    -- a visitor is called in, and the signals come next
    have hnext : (call s.data).next = q := (Prod.mk.inj (Option.some.inj hr)).2
    unfold call at hnext
    rw [hk'] at hnext
    exact .inl hnext.symm

theorem own_result {w : Await} (hr : (visitor k n v).result x = some (x', .own w)) :
    ∃ w', v = .own w' ∧ Await.Next (n == x.desk.current k) w' (some w) := by
  cases v with
  | own w' =>
      obtain ⟨-, o, hnext, ho⟩ := Await.result_next hr
      cases o <;> cases ho
      exact ⟨w', rfl, hnext⟩
  | enter w' =>
      obtain ⟨-, o, hnext, ho⟩ := Await.result_next hr
      cases o <;> cases ho
  | _ => cases hr

/-- The steps of the others. -/
theorem answered_other (h : Answered s) (ho : Orderly arrivals s) (ha : s.place .assistant = some a)
    (hp : s.place t = some p) (hm : Moves code s t pick p s') (ht : t ≠ .assistant) :
    Answered s' := by
  intro a' k v' ha' hC' hv' hsleep
  obtain ⟨q, hq, hwakes⟩ := hm.wakes_other (ho.fresh hp) (Ne.symm ht) ha
  obtain rfl : q = a' := Option.some.inj (hq.symm.trans ha')
  rw [assistant_wakes hwakes] at hC'
  obtain ⟨p', hp', hr⟩ := hm.result
  have hdesk : s'.data.desk = s.data.desk := by
    cases t with
    | assistant => exact absurd rfl ht
    | doctor => exact (doctor_result hr).1
    | visitor k n => exact (visitor_result hr).1
  rw [hdesk] at hv'
  have hkeep : a = .signalDoctor k ∨ a = .signalVisitor k →
      q = .signalDoctor k ∨ q = .signalVisitor k := by
    intro hsignal
    rcases hwakes with rfl | ⟨c, hc⟩
    · exact hsignal
    · obtain ⟨c', rfl, -⟩ := assistant_asleep hc
      rcases hsignal with hsignal | hsignal <;> cases hsignal
  by_cases hself : .visitor k (s.data.desk.current k) = t
  · subst hself
    obtain rfl : p' = v' := Option.some.inj (hp'.symm.trans hv')
    have hr' : (visitor k (s.data.desk.current k) p).result s.data = some (s'.data, p') := hr
    rcases hsleep with rfl | rfl
    · -- the test of the visitor called in does not fail
      obtain ⟨w, -, hnext⟩ := own_result hr'
      cases hnext with
      | stay hflag => simp at hflag
    · obtain ⟨w, rfl, hnext⟩ := own_result hr'
      cases hnext
      exact hkeep (h a k _ ha hC' hp (.inl rfl))
  · exact hkeep (h a k v' ha hC' (sleeping_before hm hself hv' hsleep) hsleep)

theorem answered_reachable (h : (clinic mem arrivals).ReachableWhen CallHeard s) :
    Answered s := by
  refine h.invariant_of (J := fun s => Orderly arrivals s)
    (fun s hs => orderly_reachable hs.reachable)
    (fun s hs => hs ▸ answered_start mem arrivals) fun s l s' ho hI hok hs => ?_
  obtain ⟨t, pick⟩ := l
  obtain ⟨p, hp, hm⟩ := moves_of_step hs
  obtain ⟨a, ha, -⟩ := ho.assistant
  by_cases ht : t = .assistant
  · subst ht
    exact answered_assistant hI ho hp hm hok.1 hok.2
  · exact answered_other hI ho ha hp hm ht

/-! ## When nothing moves -/

theorem stuck_assistant (h : Handshake s a d b) (ho : Orderly arrivals s)
    (hst : ∀ t pick, s.step code t pick = none) :
    (∃ c, a = .await c .asleep) ∨ (a = .join ∧ s.halted code .doctor = false) ∨ a = .finished := by
  rcases stuck_cases disciplined ho.exclusive hst h.assistant with ⟨c, w, hc⟩ | ⟨t, q, hc, hh⟩ | hc
  · obtain ⟨c', rfl, -⟩ := assistant_asleep hc
    exact .inl ⟨c', rfl⟩
  · cases a with
    | join =>
        cases hc
        exact .inr (.inl ⟨rfl, hh⟩)
    | await c w => cases w <;> cases hc
    | _ => cases hc
  · cases a with
    | finished => exact .inr (.inr rfl)
    | await c w => cases w <;> cases hc
    | _ => cases hc

theorem stuck_doctor (h : Handshake s a d b) (ho : Orderly arrivals s)
    (hst : ∀ t pick, s.step code t pick = none) :
    d = .await .asleep ∨ d = .meet .asleep ∨ d = .finished := by
  rcases stuck_cases disciplined ho.exclusive hst h.doctor with ⟨c, w, hc⟩ | ⟨t, q, hc, hh⟩ | hc
  · rcases doctor_asleep hc with ⟨rfl, -⟩ | ⟨rfl, -⟩
    · exact .inl rfl
    · exact .inr (.inl rfl)
  · cases d with
    | await w => cases w <;> cases hc
    | meet w => cases w <;> cases hc
    | _ => cases hc
  · cases d with
    | finished => exact .inr (.inr rfl)
    | await w => cases w <;> cases hc
    | meet w => cases w <;> cases hc
    | _ => cases hc

theorem stuck_visitor (ho : Orderly arrivals s) (hst : ∀ t pick, s.step code t pick = none)
    (hv : s.place (.visitor k n) = some v) :
    v = .own .asleep ∨ v = .enter .asleep ∨ v = .finished := by
  rcases stuck_cases disciplined ho.exclusive hst hv with ⟨c, w, hc⟩ | ⟨t, q, hc, hh⟩ | hc
  · rcases visitor_asleep hc with ⟨rfl, -⟩ | ⟨rfl, -⟩
    · exact .inl rfl
    · exact .inr (.inl rfl)
  · cases v with
    | own w => cases w <;> cases hc
    | enter w => cases w <;> cases hc
    | _ => cases hc
  · cases v with
    | finished => exact .inr (.inr rfl)
    | own w => cases w <;> cases hc
    | enter w => cases w <;> cases hc
    | _ => cases hc

/-- A doctor who has been freed does not sleep on. -/
theorem Awake.not_freed (hw : Awake s) (h : Handshake s a d b) (hd : d = .await .asleep)
    (ha : a.postsFree = false) : s.data.doctorFree = false := by
  subst hd
  rcases hw.free.asleep h.doctor with hf | ⟨t, p, hp, hpost⟩
  · exact hf
  · cases t with
    | doctor => cases hpost
    | visitor k n => cases hpost
    | assistant =>
        obtain rfl : p = a := Option.some.inj (hp.symm.trans h.assistant)
        have hpost' : AssistantPc.postsFree p = true := hpost
        rw [ha] at hpost'
        cases hpost'

/-- Nor does the assistant once the doctor is done. -/
theorem Awake.not_done (hw : Awake s) (h : Handshake s a d b) {c : Call}
    (ha : a = .await c .asleep) (hd : ∀ last, d ≠ .signalDone last) : s.data.doctorDone = false := by
  subst ha
  rcases (hw.done c).asleep h.assistant with hf | ⟨t, p, hp, hpost⟩
  · exact hf
  · cases t with
    | assistant => cases hpost
    | visitor k n => cases hpost
    | doctor =>
        obtain rfl : p = d := Option.some.inj (hp.symm.trans h.doctor)
        obtain ⟨last, rfl⟩ := hpost
        exact absurd rfl (hd last)

/-- The visitor called in has a thread. -/
theorem Handshake.visitor_called (h : Handshake s a d b) (ho : Orderly arrivals s)
    (hC : a.stage.called = some k) :
    ∃ v : VisitorPc, s.place (.visitor k (s.data.desk.current k)) = some v
      ∧ b.visitorAt v.stage = true := by
  have hlast := List.mem_of_getLast? (h.ring.time k hC)
  have hmem : s.data.desk.current k
      ∈ (s.data.called.filter fun c => c.kind = k).map CalledIn.token :=
    List.mem_map.mpr ⟨_, List.mem_filter.mpr ⟨hlast, by simp⟩, rfl⟩
  rw [h.ring.tokens, List.mem_range'_1] at hmem
  obtain ⟨v, hv⟩ := Option.ne_none_iff_exists'.mp
    ((ho.visitors k (s.data.desk.current k)).mpr ⟨hmem.1, Nat.le_add_right _ _⟩)
  refine ⟨v, hv, ?_⟩
  have hexpects := h.visitors k _ v hv
  unfold Expects at hexpects
  rwa [if_neg (lt_irrefl _), if_pos ⟨hC, rfl⟩] at hexpects

theorem halted_doctor (h : Handshake s a .finished b) : s.halted code .doctor = true :=
  halted_iff.mpr ⟨_, h.doctor, rfl⟩

/-- The doctor who is over for good has left, when nothing moves. -/
theorem left_of_over (h : Handshake s a d .over) (ho : Orderly arrivals s)
    (hst : ∀ t pick, s.step code t pick = none) : d = .finished := by
  have hD := h.ring.doctor
  rcases stuck_doctor h ho hst with rfl | rfl | rfl
  · cases hD
  · cases hD
  · rfl

/-- Nobody waits for the doctor's visit for ever. -/
theorem visit_moves (h : Handshake s (.await (.visit k) .asleep) d b) (ho : Orderly arrivals s)
    (hw : Awake s) (hanswered : Answered s) (hdone : s.data.doctorDone = false) :
    ¬ ∀ t pick, s.step code t pick = none := by
  intro hst
  have hA := h.ring.assistant
  have hD := h.ring.doctor
  have hflags := flags_iff.mp h.ring.flags
  have hd := stuck_doctor h ho hst
  cases b with
  | free =>
      rcases hd with rfl | rfl | rfl
      · have hf := hw.not_freed h rfl rfl
        rw [hflags.1] at hf
        cases hf
      · cases hD
      · cases hD
  | doctor => rcases hd with rfl | rfl | rfl <;> cases hD
  | finishing => rcases hd with rfl | rfl | rfl <;> cases hD
  | done =>
      rw [hflags.2.2.2] at hdone
      cases hdone
  | enter =>
      -- it is the visitor's turn, who has heard the call and will be woken for `doctor_enter`
      obtain ⟨v, hv, hstage⟩ := h.visitor_called ho rfl
      rcases stuck_visitor ho hst hv with rfl | rfl | rfl
      · rcases hanswered _ k _ h.assistant rfl hv (.inr rfl) with hc | hc <;> cases hc
      · rcases (hw.enter k _).asleep hv with he | ⟨t, p, hp, hpost⟩
        · rw [hflags.2.1] at he
          cases he
        · cases t with
          | assistant => cases hpost
          | visitor k n => cases hpost
          | doctor =>
              obtain rfl : p = d := Option.some.inj (hp.symm.trans h.doctor)
              obtain rfl : p = DoctorPc.signalEnter := hpost
              rcases hd with hd | hd | hd <;> cases hd
      · cases hstage
  | visitor =>
      obtain ⟨v, hv, hstage⟩ := h.visitor_called ho rfl
      rcases stuck_visitor ho hst hv with rfl | rfl | rfl <;> cases hstage
  | met =>
      -- the visitor who has met the doctor still has to signal it
      rcases hd with rfl | rfl | rfl
      · cases hD
      · rcases hw.met.asleep h.doctor with hm | ⟨t, p, hp, hpost⟩
        · rw [hflags.2.2.1] at hm
          cases hm
        · cases t with
          | assistant => cases hpost
          | doctor => cases hpost
          | visitor k n =>
              obtain rfl : p = VisitorPc.signalMet := hpost
              rcases stuck_visitor ho hst hp with hc | hc | hc <;> cases hc
      · cases hD
  | _ => cases hA

/-- Nor does the assistant at the end of the session. -/
theorem last_moves (h : Handshake s (.await .last .asleep) d b) (ho : Orderly arrivals s)
    (hw : Awake s) (hdone : s.data.doctorDone = false) :
    ¬ ∀ t pick, s.step code t pick = none := by
  intro hst
  have hA := h.ring.assistant
  have hD := h.ring.doctor
  have hflags := flags_iff.mp h.ring.flags
  have hd := stuck_doctor h ho hst
  cases b with
  | freeLast =>
      rcases hd with rfl | rfl | rfl
      · have hf := hw.not_freed h rfl rfl
        rw [hflags.1] at hf
        cases hf
      · cases hD
      · cases hD
  | doctorLast => rcases hd with rfl | rfl | rfl <;> cases hD
  | finishingLast => rcases hd with rfl | rfl | rfl <;> cases hD
  | doneLast =>
      rw [hflags.2.2.2] at hdone
      cases hdone
  | _ => cases hA

/-- Until the assistant and the doctor have finished, a thread moves. -/
theorem clinic_moves (he : Enough arrivals)
    (h : (clinic mem arrivals).ReachableWhen CallHeard s)
    (hopen : s.halted code .assistant = false ∨ s.halted code .doctor = false) :
    ¬ ∀ t pick, s.step code t pick = none := by
  intro hst
  have hr := h.mono fun _ _ hok => hok.2
  have ho := orderly_reachable h.reachable
  have hw := awake_reachable hr
  have hanswered := answered_reachable h
  obtain ⟨a, d, b, hh⟩ := handshake_reachable hr
  obtain ⟨a₀, ha₀, hl⟩ := ledger_reachable hr
  obtain rfl : a₀ = a := Option.some.inj (ha₀.symm.trans hh.assistant)
  rcases stuck_assistant hh ho hst with ⟨c, rfl⟩ | ⟨rfl, hnot⟩ | rfl
  · have hdone : s.data.doctorDone = false := by
      refine hw.not_done hh rfl ?_
      rintro last rfl
      rcases stuck_doctor hh ho hst with hd | hd | hd <;> cases hd
    cases c with
    | visit k => exact visit_moves hh ho hw hanswered hdone hst
    | last => exact last_moves hh ho hw hdone hst
  · -- the doctor has left, since the session was closed by the doctor
    have hfirst := hl.here.mp he
    have hb : b = .over := by
      rw [hh.ring.firstcase] at hfirst
      rcases turn_idle hh.ring.assistant with rfl | rfl
      · cases hfirst
      · rfl
    subst hb
    obtain rfl := left_of_over hh ho hst
    rw [halted_doctor hh] at hnot
    cases hnot
  · obtain rfl := hh.joined rfl
    rcases hopen with hopen | hopen
    · rw [halted_iff.mpr ⟨_, hh.assistant, rfl⟩] at hopen
      cases hopen
    · rw [halted_doctor hh] at hopen
      cases hopen

/-- **Progress.** With enough patients and sales representatives, and as long as every visitor called
in hears the call, something can move until the assistant and the doctor have finished. -/
theorem never_stuck_when (he : Enough arrivals)
    (h : (clinic mem arrivals).ReachableWhen CallHeard s)
    (hopen : s.halted code .assistant = false ∨ s.halted code .doctor = false) :
    ¬ (clinic mem arrivals).Stuck s :=
  fun hstuck => clinic_moves he h hopen fun t pick => hstuck (t, pick)

/-- Enough visitors, all but the first of whom come late. -/
def busyDay : List Arrival :=
  ⟨.patient, 0, 5⟩ :: (List.replicate 24 ⟨.patient, 10, 5⟩ ++ List.replicate 3 ⟨.salesRep, 10, 5⟩)

/-- The first patient sleeps, is called and is woken. -/
theorem never_stuck_when_heard :
    ∃ s : Session, (clinic (fun _ => ⟨'E', 0, 0⟩) busyDay).ReachableWhen CallHeard s
      ∧ s.place (.visitor .patient 1) = some (.own .woken)
      ∧ ¬ (clinic (fun _ => ⟨'E', 0, 0⟩) busyDay).Stuck s := by
  obtain ⟨s, hs, hp⟩ : ∃ s : Session,
      (clinic (fun _ => ⟨'E', 0, 0⟩) busyDay).ReachableWhen CallHeard s
        ∧ decide (s.place (.visitor .patient 1) = some (.own .woken)
          ∧ s.halted code .assistant = false) = true :=
    Machine.exists_reachableWhen_of_execWhen
      (l := [(.assistant, none)] ++ List.replicate 3 (.visitor .patient 1, none)
        ++ List.replicate 6 (.assistant, none) ++ [(.assistant, some (.visitor .patient 1))])
      rfl (by decide +kernel)
  have hp' := of_decide_eq_true hp
  exact ⟨s, hs, hp'.1, never_stuck_when ⟨by decide, by decide⟩ hs (.inl hp'.2)⟩

/-- The first patient finds another token called, and the call comes before the patient sleeps. -/
theorem call_missed :
    ∃ s : Session, (clinic (fun _ => ⟨'E', 0, 0⟩) busyDay).Reachable s ∧ Enough busyDay
      ∧ s.halted code .assistant = false ∧ s.halted code .doctor = false
      ∧ (clinic (fun _ => ⟨'E', 0, 0⟩) busyDay).Stuck s := by
  obtain ⟨s, hs, hp⟩ := (clinic (fun _ => ⟨'E', 0, 0⟩) busyDay).exists_reachable_of_exec
    (l := [(.assistant, none)] ++ List.replicate 2 (.visitor .patient 1, none)
      ++ List.replicate 7 (.assistant, none) ++ [(.visitor .patient 1, none)]
      ++ List.replicate 12 (.doctor, none) ++ List.replicate 4 (.assistant, none))
    (p := fun s => s.threads.all (s.blocked code) && decide (s.halted code .assistant = false
      ∧ s.halted code .doctor = false)) rfl (by decide +kernel)
  rw [Bool.and_eq_true] at hp
  have hp' := of_decide_eq_true hp.2
  have hlisted := listed_reachable (orderly_start _ busyDay).listed hs
  exact ⟨s, hs, ⟨by decide, by decide⟩, hp'.1, hp'.2, stuck_of_blocked hlisted hp.1⟩

end OSLab.Clinic
