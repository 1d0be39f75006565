import OSLab.Clinic.Ledger

set_option autoImplicit false

/-! # The handshake

The assistant, the doctor and the visitor called in pass the turn round in a ring: the assistant
frees the doctor, the doctor lets the visitor enter, the visitor meets the doctor, and the doctor is
done. Each of the four flags is a message to the next one in the ring, which that one takes. So there
is one turn (`Turn`), and it says which flag is set, and between which of their places the parties
are (`Turn.assistantAt`, `Turn.doctorAt`, `Turn.visitorAt`). At the end of the session the ring is shorter:
the doctor who is freed sees `session_done` and leaves.

Visitors not called yet are before their own test, and those called earlier are past the doctor.
A thread asleep and the same thread woken are at the same stage, so waking does not matter here.
-/

namespace OSLab.Clinic

open Pthread

/-! ## Stages -/

inductive AssistantStage
  | idle
  | closing
  | offer
  | call (k : Kind)
  | take (k : Kind)
  | last
  | takeLast
  deriving DecidableEq

def AssistantPc.stage : AssistantPc → AssistantStage
  | .lockLast | .setLast => .closing
  | .signalLast | .unlockLast | .await .last _ => .last
  | .clearDone .last => .takeLast
  | .unlockFree | .choose => .offer
  | .signalDoctor k | .signalVisitor k | .testTime k | .await (.visit k) _ => .call k
  | .clearDone (.visit k) => .take k
  | _ => .idle

/-- The class of the visitor called in. -/
def AssistantStage.called : AssistantStage → Option Kind
  | .call k | .take k => some k
  | _ => none

inductive DoctorStage
  | waiting
  | takeFree
  | busy
  | letIn
  | meeting
  | takeMet
  | finishing (last : Bool)
  | over (last : Bool)
  deriving DecidableEq

def DoctorPc.stage : DoctorPc → DoctorStage
  | .await _ => .waiting
  | .clearFree => .takeFree
  | .unlockFree | .testSession => .busy
  | .lockEnter | .setEnter => .letIn
  | .signalEnter | .unlockEnter | .meet _ => .meeting
  | .clearMet => .takeMet
  | .unlockMeet => .finishing false
  | .lockDone last | .setDone last => .finishing last
  | .signalDone last | .unlockDone last => .over last
  | .finished => .over true

inductive VisitorStage
  | waiting
  | coming
  | takeEnter
  | inside
  | served
  deriving DecidableEq

def VisitorPc.stage : VisitorPc → VisitorStage
  | .own _ => .waiting
  | .unlockOwn | .enter _ => .coming
  | .clearEnter => .takeEnter
  | .unlockEnter | .lockMeet | .setMet => .inside
  | .signalMet | .unlockMeet | .finished => .served

/-! ## Whose turn it is -/

/-- `free`, `enter`, `met` and `done` are the flags; at `rest` and at `over` it is the assistant's
turn, before and after the doctor has left. -/
inductive Turn
  | rest
  | free
  | doctor
  | enter
  | visitor
  | met
  | finishing
  | done
  | freeLast
  | doctorLast
  | finishingLast
  | doneLast
  | over
  deriving DecidableEq

/-- `doctor_free`, `doctor_enter`, `doctor_met` and `doctor_done`. -/
def Shared.flags (x : Shared) : Bool × Bool × Bool × Bool :=
  (x.doctorFree, x.doctorEnter, x.doctorMet, x.doctorDone)

def Turn.flags : Turn → Bool × Bool × Bool × Bool
  | .free | .freeLast => (true, false, false, false)
  | .enter => (false, true, false, false)
  | .met => (false, false, true, false)
  | .done | .doneLast => (false, false, false, true)
  | _ => (false, false, false, false)

/-- `doctor_firstcase`. -/
def Turn.firstcase : Turn → AssistantStage → Bool
  | .rest, .closing => true
  | .freeLast, _ | .doctorLast, _ | .finishingLast, _ | .doneLast, _ | .over, _ => true
  | _, _ => false

/-- The assistant has the turn. -/
def Turn.rests : Turn → Bool
  | .rest | .over => true
  | _ => false

def Turn.assistantAt : Turn → AssistantStage → Bool
  | .rest, .idle | .rest, .closing | .rest, .offer => true
  | .free, .offer | .doctor, .offer | .enter, .offer => true
  | .free, .call _ | .doctor, .call _ | .enter, .call _ | .visitor, .call _ | .met, .call _
  | .finishing, .call _ | .done, .call _ => true
  | .done, .take _ => true
  | .freeLast, .last | .doctorLast, .last | .finishingLast, .last | .doneLast, .last => true
  | .doneLast, .takeLast => true
  | .over, .idle | .over, .offer => true
  | _, _ => false

def Turn.doctorAt : Turn → DoctorStage → Bool
  | .rest, .waiting | .rest, .over false => true
  | .free, .waiting | .free, .takeFree | .free, .over false => true
  | .freeLast, .waiting | .freeLast, .takeFree | .freeLast, .over false => true
  | .doctor, .busy | .doctor, .letIn | .doctorLast, .busy => true
  | .enter, .meeting | .visitor, .meeting | .met, .meeting | .met, .takeMet => true
  | .finishing, .finishing false | .finishingLast, .finishing true => true
  | .done, .over false | .done, .waiting | .doneLast, .over true | .over, .over true => true
  | _, _ => false

/-- The stages of the visitor called in. -/
def Turn.visitorAt : Turn → VisitorStage → Bool
  | .free, .waiting | .free, .coming | .doctor, .waiting | .doctor, .coming => true
  | .enter, .waiting | .enter, .coming | .enter, .takeEnter => true
  | .visitor, .inside => true
  | .rest, .served | .met, .served | .finishing, .served | .done, .served => true
  | _, _ => false

/-- Where visitor `n` of class `k` can be. -/
def Expects (b : Turn) (called : Option Kind) (current : Kind → Nat) (k : Kind) (n : Nat)
    (v : VisitorStage) : Prop :=
  if current k < n then v = .waiting
  else if called = some k ∧ n = current k then b.visitorAt v = true
  else v = .served

/-- A visitor has been called in and has not consumed `doctor_enter`. -/
def Turn.outside : Turn → Bool
  | .free | .doctor | .enter => true
  | _ => false

def CalledIn.visitor (c : CalledIn) : Kind × Nat := (c.kind, c.token)

/-- The visitor called in who is still outside. -/
def outsider (b : Turn) (called : Option Kind) (current : Kind → Nat) : List (Kind × Nat) :=
  match called with
  | some k => if b.outside then [(k, current k)] else []
  | none => []

/-- `has next visitor` has been printed for a visitor who has not consumed `doctor_enter`. -/
def expected (b : Turn) (d : DoctorStage) : Nat := if b = .enter ∨ d = .letIn then 1 else 0

/-- The variables, the assistant and the doctor, with the turn. -/
structure Ring (x : Shared) (a : AssistantPc) (d : DoctorPc) (b : Turn) : Prop where
  flags : x.flags = b.flags
  firstcase : x.doctorFirstcase = b.firstcase a.stage
  offer : a.stage = .offer → (x.desk.chosen = none ↔ b.rests = true)
  assistant : b.assistantAt a.stage = true
  doctor : b.doctorAt d.stage = true
  entered : x.called.map CalledIn.visitor = x.entered ++ outsider b a.stage.called x.desk.current
  printed : x.hasNext = x.entered.length + expected b d.stage
  time : ∀ k, a.stage.called = some k →
    x.called.getLast? = some ⟨k, x.desk.current k, x.desk.currentTime⟩
  tokens : ∀ k, (x.called.filter fun c => c.kind = k).map CalledIn.token
    = List.range' 1 (x.desk.current k)

structure Handshake (s : Session) (a : AssistantPc) (d : DoctorPc) (b : Turn) : Prop where
  assistant : s.place .assistant = some a
  doctor : s.place .doctor = some d
  ring : Ring s.data a d b
  visitors : ∀ k n v, s.place (.visitor k n) = some v →
    Expects b a.stage.called s.data.desk.current k n v.stage
  joined : a = .finished → d = .finished

variable {arrivals : List Arrival} {mem : Nat → Event} {s s' : Session} {t : Tid}
  {pick : Option Tid} {p : PlaceOf t} {x x' : Shared} {a a' : AssistantPc} {d d' : DoctorPc}
  {b b' : Turn} {k : Kind} {n : Nat} {v v' : VisitorPc}

theorem handshake_start (mem : Nat → Event) (arrivals : List Arrival) :
    Handshake (startSession mem arrivals) .loop (.await .lock) .rest where
  assistant := rfl
  doctor := rfl
  ring := ⟨rfl, rfl, nofun, rfl, rfl, rfl, rfl, nofun, fun _ => rfl⟩
  visitors := nofun
  joined := nofun

/-! ## The assistant's steps -/

/-- A step between places of one stage that leaves the counters, the clock, the flags and the
records. -/
theorem Ring.quiet (h : Ring x a d b) (hflags : x'.flags = x.flags)
    (hfirst : x'.doctorFirstcase = x.doctorFirstcase)
    (hoffer : a.stage = .offer → x'.desk.chosen = x.desk.chosen)
    (hcur : x'.desk.current = x.desk.current)
    (htime : a.stage.called ≠ none → x'.desk.currentTime = x.desk.currentTime)
    (hcalled : x'.called = x.called) (hentered : x'.entered = x.entered)
    (hnext : x'.hasNext = x.hasNext) (ha : a'.stage = a.stage) (hd : d'.stage = d.stage) :
    Ring x' a' d' b where
  flags := hflags.trans h.flags
  firstcase := by rw [hfirst, ha]; exact h.firstcase
  offer := by
    rw [ha]
    intro ho
    rw [hoffer ho]
    exact h.offer ho
  assistant := by rw [ha]; exact h.assistant
  doctor := by rw [hd]; exact h.doctor
  entered := by rw [hcalled, hentered, ha, hcur]; exact h.entered
  printed := by rw [hnext, hentered, hd]; exact h.printed
  time := by
    rw [ha, hcalled, hcur]
    intro k hk
    rw [htime (by rw [hk]; exact Option.some_ne_none _)]
    exact h.time k hk
  tokens := by rw [hcalled, hcur]; exact h.tokens

theorem flags_iff {f e m o : Bool} : x.flags = (f, e, m, o)
    ↔ x.doctorFree = f ∧ x.doctorEnter = e ∧ x.doctorMet = m ∧ x.doctorDone = o := by
  simp [Shared.flags]

theorem turn_idle (h : b.assistantAt .idle = true) : b = .rest ∨ b = .over := by
  cases b <;> first | exact .inl rfl | exact .inr rfl | cases h

/-- A flag that is set tells whose turn it is. -/
theorem Ring.turn_free (h : Ring x a d b) (hf : x.doctorFree = true) :
    b = .free ∨ b = .freeLast := by
  have hflags := h.flags
  cases b <;> simp [Shared.flags, Turn.flags, hf] at hflags ⊢

theorem Ring.turn_enter (h : Ring x a d b) (he : x.doctorEnter = true) : b = .enter := by
  have hflags := h.flags
  cases b <;> simp [Shared.flags, Turn.flags, he] at hflags ⊢

theorem Ring.turn_met (h : Ring x a d b) (hm : x.doctorMet = true) : b = .met := by
  have hflags := h.flags
  cases b <;> simp [Shared.flags, Turn.flags, hm] at hflags ⊢

theorem Ring.turn_done (h : Ring x a d b) (ho : x.doctorDone = true) :
    b = .done ∨ b = .doneLast := by
  have hflags := h.flags
  cases b <;> simp [Shared.flags, Turn.flags, ho] at hflags ⊢

theorem doctorAt_freed {D : DoctorStage} (h : Turn.rest.doctorAt D = true) :
    Turn.free.doctorAt D = true ∧ Turn.freeLast.doctorAt D = true := by
  rcases D with _ | _ | _ | _ | _ | _ | (_ | _) | (_ | _) <;> first | exact ⟨rfl, rfl⟩ | cases h

theorem doctorAt_taken {D : DoctorStage} (h : Turn.done.doctorAt D = true) :
    Turn.rest.doctorAt D = true := by
  rcases D with _ | _ | _ | _ | _ | _ | (_ | _) | (_ | _) <;> first | rfl | cases h

theorem doctorAt_left {D : DoctorStage} (h : Turn.doneLast.doctorAt D = true) :
    D = .over true := by
  rcases D with _ | _ | _ | _ | _ | _ | (_ | _) | (_ | _) <;> first | rfl | cases h

theorem expected_zero {D : DoctorStage} (h : b.doctorAt D = true) (hdoctor : b ≠ .doctor)
    (henter : b ≠ .enter) : expected b D = 0 := by
  refine if_neg ?_
  rintro (rfl | rfl)
  · exact henter rfl
  · cases b <;> first | exact hdoctor rfl | cases h

/-- The turn passes from one who leaves the records alone to another, and nobody is outside or
expected before or after. -/
theorem Ring.pass (h : Ring x a d b) (hflags : x'.flags = b'.flags)
    (hfirst : x'.doctorFirstcase = b'.firstcase a'.stage)
    (hoffer : a'.stage = .offer → (x'.desk.chosen = none ↔ b'.rests = true))
    (hA : b'.assistantAt a'.stage = true) (hD : b'.doctorAt d'.stage = true)
    (hdesk : x'.desk = x.desk) (hcalled : x'.called = x.called) (hentered : x'.entered = x.entered)
    (hnext : x'.hasNext = x.hasNext)
    (hout : outsider b' a'.stage.called x.desk.current = outsider b a.stage.called x.desk.current)
    (hexp : expected b' d'.stage = expected b d.stage)
    (hcall : ∀ k, a'.stage.called = some k → a.stage.called = some k) : Ring x' a' d' b' where
  flags := hflags
  firstcase := hfirst
  offer := hoffer
  assistant := hA
  doctor := hD
  entered := by rw [hcalled, hentered, hdesk, hout]; exact h.entered
  printed := by rw [hnext, hentered, hexp]; exact h.printed
  time := by rw [hcalled, hdesk]; exact fun k hk => h.time k (hcall k hk)
  tokens := by rw [hcalled, hdesk]; exact h.tokens

/-- `setLast`: the doctor is freed for the last time. -/
theorem Ring.setLast (h : Ring x .setLast d b) :
    b = .rest ∧ Ring { x with doctorFree := true } .signalLast d .freeLast := by
  have hb : b = .rest := by
    have hA := h.assistant
    cases b <;> first | rfl | cases hA
  subst hb
  obtain ⟨-, he, hm, ho⟩ := flags_iff.mp h.flags
  have hD := (doctorAt_freed h.doctor).2
  refine ⟨rfl, h.pass (flags_iff.mpr ⟨rfl, he, hm, ho⟩) h.firstcase nofun rfl hD rfl rfl rfl rfl rfl
    ?_ nofun⟩
  rw [expected_zero hD nofun nofun, expected_zero h.doctor nofun nofun]

theorem anyWaiting_iff {D : Desk} : D.anyWaiting = true ↔ D.chosen ≠ none := by
  unfold Desk.anyWaiting Desk.chosen
  split_ifs <;> simp <;> omega

/-- `setFree`: the doctor is freed if somebody waits. -/
theorem Ring.setFree (h : Ring x .setFree d b) (hl : Books arrivals x .setFree) :
    ∃ b', Ring (if x.desk.anyWaiting then { x with doctorFree := true } else x) .unlockFree d b'
      ∧ (b' = b ∨ b = .rest ∧ b' = .free) := by
  by_cases hw : x.desk.anyWaiting = true
  · rw [if_pos hw]
    obtain ⟨k, hk⟩ := Option.ne_none_iff_exists'.mp (anyWaiting_iff.mp hw)
    have hopen := (hl.counts rfl).not_done hk
    rw [← hl.firstcase rfl, h.firstcase] at hopen
    have hb : b = .rest := by
      rcases turn_idle h.assistant with rfl | rfl
      · rfl
      · cases hopen
    subst hb
    obtain ⟨-, he, hm, ho⟩ := flags_iff.mp h.flags
    have hD := (doctorAt_freed h.doctor).1
    refine ⟨.free, h.pass (flags_iff.mpr ⟨rfl, he, hm, ho⟩) h.firstcase (fun _ => ?_) rfl hD rfl rfl
      rfl rfl rfl ?_ nofun, .inr ⟨rfl, rfl⟩⟩
    · show x.desk.chosen = none ↔ false = true
      simp [hk]
    · rw [expected_zero hD nofun nofun, expected_zero h.doctor nofun nofun]
  · rw [if_neg hw]
    have hnone : x.desk.chosen = none := by
      by_contra hne
      exact hw (anyWaiting_iff.mpr hne)
    refine ⟨b, ?_, .inl rfl⟩
    rcases turn_idle h.assistant with rfl | rfl
    · exact h.pass h.flags h.firstcase (fun _ => by simp [hnone, Turn.rests]) rfl h.doctor rfl rfl
        rfl rfl rfl rfl nofun
    · exact h.pass h.flags h.firstcase (fun _ => by simp [hnone, Turn.rests]) rfl h.doctor rfl rfl
        rfl rfl rfl rfl nofun

theorem Ring.outside_of_chosen (h : Ring x .choose d b) (hk : x.desk.chosen = some k) :
    b.outside = true := by
  have hoffer := h.offer rfl
  have hA := h.assistant
  rw [hk] at hoffer
  cases b <;> first | rfl | exact absurd (hoffer.mpr rfl) (Option.some_ne_none k) | cases hA

/-- `choose`: the doctor has been freed if and only if somebody is called. -/
theorem Ring.choose (h : Ring x .choose d b) : Ring (call x).data (call x).next d b := by
  have hoffer := h.offer rfl
  have hA := h.assistant
  unfold call
  cases hk : x.desk.chosen with
  | none =>
      have hrests := hoffer.mp hk
      have hb : b = .rest ∨ b = .over := by
        cases b <;> first | exact .inl rfl | exact .inr rfl | cases hrests
      rcases hb with rfl | rfl
      · exact h.pass h.flags h.firstcase nofun rfl h.doctor rfl rfl rfl rfl rfl rfl nofun
      · exact h.pass h.flags h.firstcase nofun rfl h.doctor rfl rfl rfl rfl rfl rfl nofun
  | some k =>
      have hb := h.outside_of_chosen hk
      have hstage : b.assistantAt (.call k) = true := by
        cases b <;> first | rfl | cases hb
      have hcur : (x.desk.callIn k).current k = x.desk.current k + 1 := Function.update_self _ _ _
      refine ⟨h.flags, ?_, nofun, hstage, h.doctor, ?_, h.printed, ?_, fun k' => ?_⟩
      · rw [h.firstcase]
        cases b <;> rfl
      · have hentered := h.entered
        show (x.called ++ [_]).map CalledIn.visitor = x.entered ++ outsider b (some k) _
        rw [List.map_append, hentered, outsider, if_pos hb, hcur]
        simp [AssistantPc.stage, AssistantStage.called, outsider, CalledIn.visitor]
      · rintro k' ⟨⟩
        rw [hcur]
        exact List.getLast?_concat
      · show ((x.called ++ [_]).filter _).map _ = _
        rw [List.filter_append, List.map_append, h.tokens]
        by_cases hkk : k = k'
        · subst hkk
          rw [hcur]
          simp [range'_snoc]
        · have hne : (x.desk.callIn k).current k' = x.desk.current k' :=
            Function.update_of_ne (Ne.symm hkk) _ _
          simp [hkk, hne]

/-- The next event is handled. -/
theorem Ring.handle (h : Ring x .loop d b) : Ring (handle x).data (handle x).next d b := by
  have hcases := handle_cases x
  have hidle := turn_idle h.assistant
  generalize Clinic.handle x = e at hcases ⊢
  cases hcases with
  | empty _ => exact h.quiet rfl rfl nofun rfl (absurd rfl) rfl rfl rfl rfl rfl
  | last _ hfirst _ =>
      rw [h.firstcase] at hfirst
      rcases hidle with rfl | rfl
      · exact ⟨h.flags, rfl, nofun, rfl, h.doctor, h.entered, h.printed, nofun, h.tokens⟩
      · cases hfirst
  | turn _ _ => exact h.quiet rfl rfl nofun rfl (absurd rfl) rfl rfl rfl rfl rfl
  | arrive _ => exact h.quiet rfl rfl nofun rfl (absurd rfl) rfl rfl rfl rfl rfl
  | skip _ _ => exact h.quiet rfl rfl nofun rfl (absurd rfl) rfl rfl rfl rfl rfl

/-- `clearDone`: the assistant has the turn again, or has it for good. -/
theorem Ring.clearDone {c : Call} (h : Ring x (.clearDone c) d b) :
    ∃ b', Ring { x with doctorDone := false } (.unlockDone c) d b'
      ∧ (b = .done ∧ b' = .rest ∨ b = .doneLast ∧ b' = .over) := by
  cases c with
  | visit k =>
      have hb : b = .done := by
        have hA := h.assistant
        cases b <;> first | rfl | cases hA
      subst hb
      obtain ⟨hf, he, hm, -⟩ := flags_iff.mp h.flags
      have hD := doctorAt_taken h.doctor
      refine ⟨.rest, h.pass (flags_iff.mpr ⟨hf, he, hm, rfl⟩) h.firstcase nofun rfl hD rfl rfl rfl
        rfl rfl ?_ nofun, .inl ⟨rfl, rfl⟩⟩
      rw [expected_zero hD nofun nofun, expected_zero h.doctor nofun nofun]
  | last =>
      have hb : b = .doneLast := by
        have hA := h.assistant
        cases b <;> first | rfl | cases hA
      subst hb
      obtain ⟨hf, he, hm, -⟩ := flags_iff.mp h.flags
      have hD := doctorAt_left h.doctor
      refine ⟨.over, h.pass (flags_iff.mpr ⟨hf, he, hm, rfl⟩) h.firstcase nofun rfl ?_ rfl rfl rfl
        rfl rfl ?_ nofun, .inr ⟨rfl, rfl⟩⟩
      · rw [hD]
        rfl
      · rw [hD]
        rfl

/-- The assistant finds `doctor_done` set. -/
theorem Ring.foundDone {c : Call} {w : Await} (h : Ring x (.await c w) d b)
    (ho : x.doctorDone = true) : Ring x (.clearDone c) d b := by
  have hA := h.assistant
  cases c with
  | visit k =>
      have hb : b = .done := by
        rcases h.turn_done ho with rfl | rfl
        · rfl
        · cases hA
      subst hb
      exact h.pass h.flags h.firstcase nofun rfl h.doctor rfl rfl rfl rfl rfl rfl fun _ hk => hk
  | last =>
      have hb : b = .doneLast := by
        rcases h.turn_done ho with rfl | rfl
        · cases hA
        · rfl
      subst hb
      exact h.pass h.flags h.firstcase nofun rfl h.doctor rfl rfl rfl rfl rfl rfl nofun

/-- How the turn changes when the assistant moves. -/
inductive Turn.ByAssistant : Turn → Turn → Prop
  | stay (b : Turn) : ByAssistant b b
  | freed : ByAssistant .rest .free
  | freedLast : ByAssistant .rest .freeLast
  | taken : ByAssistant .done .rest
  | left : ByAssistant .doneLast .over

/-- **The ring along the assistant's steps.** -/
theorem ring_assistant (h : Ring x a d b) (hl : Books arrivals x a)
    (htime : ∀ k, a = .testTime k → x.tempTime ≠ 0)
    (hr : (assistant a).result x = some (x', a')) : ∃ b', Ring x' a' d b' ∧ b.ByAssistant b' := by
  cases a with
  | loop =>
      cases hr
      exact ⟨b, h.handle, .stay b⟩
  | setLast =>
      cases hr
      obtain ⟨rfl, hring⟩ := h.setLast
      exact ⟨_, hring, .freedLast⟩
  | setFree =>
      cases hr
      obtain ⟨b', hring, rfl | ⟨rfl, rfl⟩⟩ := h.setFree hl
      · exact ⟨_, hring, .stay _⟩
      · exact ⟨_, hring, .freed⟩
  | choose =>
      cases hr
      exact ⟨b, h.choose, .stay b⟩
  | clearDone c =>
      cases hr
      obtain ⟨b', hring, ⟨rfl, rfl⟩ | ⟨rfl, rfl⟩⟩ := h.clearDone
      · exact ⟨_, hring, .taken⟩
      · exact ⟨_, hring, .left⟩
  | await c w =>
      obtain ⟨rfl, o, hnext, rfl⟩ := Await.result_next hr
      cases hnext with
      | pass ho => exact ⟨b, h.foundDone ho, .stay b⟩
      | lock | stay _ | sleep | woken =>
          refine ⟨b, h.quiet rfl rfl (fun _ => rfl) rfl (fun _ => rfl) rfl rfl rfl ?_ rfl, .stay b⟩
          cases c <;> rfl
  | unlockDone c =>
      cases hr
      cases c <;>
        exact ⟨b, h.quiet rfl rfl nofun rfl (absurd rfl) rfl rfl rfl rfl rfl, .stay b⟩
  | testTime k =>
      cases hr
      have hne := htime k rfl
      refine ⟨b, h.quiet rfl rfl nofun rfl (fun _ => rfl) rfl rfl rfl ?_ rfl, .stay b⟩
      show AssistantPc.stage (if _ then _ else _) = _
      rw [if_neg hne]
      rfl
  | putBack =>
      cases hr
      refine ⟨b, ?_, .stay b⟩
      unfold resume
      split
      · rename_i D hD
        unfold Desk.putBack at hD
        split_ifs at hD <;> cases hD <;>
          exact h.quiet rfl rfl nofun rfl (absurd rfl) rfl rfl rfl rfl rfl
      · exact h.quiet rfl rfl nofun rfl (absurd rfl) rfl rfl rfl rfl rfl
  | testSession =>
      cases hr
      refine ⟨b, h.quiet rfl rfl nofun rfl (absurd rfl) rfl rfl rfl ?_ rfl, .stay b⟩
      show AssistantPc.stage (if _ then _ else _) = _
      split <;> rfl
  | clearFree =>
      cases hr
      refine ⟨b, h.quiet ?_ rfl nofun rfl (absurd rfl) rfl rfl rfl rfl rfl, .stay b⟩
      have hflags := h.flags
      -- nobody has been freed, so the flag is clear already
      have hidle := turn_idle h.assistant
      rcases hidle with rfl | rfl
      · exact flags_iff.mpr ⟨(flags_iff.mp hflags).1.symm, rfl, rfl, rfl⟩
      · exact flags_iff.mpr ⟨(flags_iff.mp hflags).1.symm, rfl, rfl, rfl⟩
  | finished => cases hr
  | unlockFree =>
      cases hr
      exact ⟨b, h.quiet rfl rfl (fun _ => rfl) rfl (absurd rfl) rfl rfl rfl rfl rfl, .stay b⟩
  | signalDoctor k | signalVisitor k =>
      cases hr
      exact ⟨b, h.quiet rfl rfl nofun rfl (fun _ => rfl) rfl rfl rfl rfl rfl, .stay b⟩
  | lockLast | signalLast | unlockLast | lockFree | lockEnd | setEnd | signalEnd | unlockEnd
  | join =>
      cases hr
      exact ⟨b, h.quiet rfl rfl nofun rfl (absurd rfl) rfl rfl rfl rfl rfl, .stay b⟩

/-- The visitor called in changes when one is called, and when the visit is done. -/
theorem called_result (hr : (assistant a).result x = some (x', a'))
    (htime : ∀ k, a = .testTime k → x.tempTime ≠ 0) :
    (a'.stage.called = a.stage.called ∧ x'.desk.current = x.desk.current)
      ∨ (∃ k, a = .clearDone (.visit k) ∧ a'.stage = .idle ∧ x'.desk.current = x.desk.current)
      ∨ ∃ k, a = .choose ∧ x.desk.chosen = some k ∧ a'.stage = .call k
        ∧ x'.desk.current = Function.update x.desk.current k (x.desk.current k + 1) := by
  cases a with
  | loop =>
      cases hr
      have hcases := handle_cases x
      generalize Clinic.handle x = e at hcases ⊢
      cases hcases <;> exact .inl ⟨rfl, rfl⟩
  -- the only step that calls somebody in
  | choose =>
      cases hr
      unfold call
      cases hk : x.desk.chosen with
      | none => exact .inl ⟨rfl, rfl⟩
      | some k => exact .inr (.inr ⟨k, rfl, rfl, rfl, rfl⟩)
  | clearDone c =>
      cases hr
      cases c with
      | last => exact .inl ⟨rfl, rfl⟩
      | visit k => exact .inr (.inl ⟨k, rfl, rfl, rfl⟩)
  | await c w =>
      obtain ⟨rfl, o, hnext, rfl⟩ := Await.result_next hr
      cases hnext <;> cases c <;> exact .inl ⟨rfl, rfl⟩
  | unlockDone c =>
      cases hr
      cases c <;> exact .inl ⟨rfl, rfl⟩
  | setFree =>
      cases hr
      refine .inl ⟨rfl, ?_⟩
      show (ite _ _ _ : Shared).desk.current = _
      split <;> rfl
  | testTime k =>
      cases hr
      have hne := htime k rfl
      refine .inl ⟨?_, rfl⟩
      show (AssistantPc.stage (if _ then _ else _)).called = _
      rw [if_neg hne]
      rfl
  | putBack =>
      cases hr
      unfold resume
      split
      · rename_i D hD
        unfold Desk.putBack at hD
        split_ifs at hD <;> cases hD <;> exact .inl ⟨rfl, rfl⟩
      · exact .inl ⟨rfl, rfl⟩
  | testSession =>
      cases hr
      refine .inl ⟨?_, rfl⟩
      show (AssistantPc.stage (if _ then _ else _)).called = _
      split <;> rfl
  | finished => cases hr
  | _ =>
      cases hr
      exact .inl ⟨rfl, rfl⟩

theorem called_rest {A : AssistantStage} (h : Turn.rest.assistantAt A = true) : A.called = none := by
  cases A <;> first | rfl | cases h

theorem called_doneLast {A : AssistantStage} (h : Turn.doneLast.assistantAt A = true) :
    A.called = none := by
  cases A <;> first | rfl | cases h

/-- What is expected of the visitors stays when the assistant moves. -/
theorem expects_assistant {w : VisitorStage} (h : Ring x a d b) (h' : Ring x' a' d b')
    (hb : b.ByAssistant b') (hr : (assistant a).result x = some (x', a'))
    (htime : ∀ k, a = .testTime k → x.tempTime ≠ 0)
    (hw : Expects b a.stage.called x.desk.current k n w) :
    Expects b' a'.stage.called x'.desk.current k n w := by
  rcases called_result hr htime with ⟨hcalled, hcur⟩ | ⟨k', rfl, hidle, hcur⟩
      | ⟨k', rfl, hk', hcall, hcur⟩
  · rw [hcalled, hcur]
    -- if somebody is called in, the turn is the same
    cases hc : a.stage.called with
    | none =>
        rw [hc] at hw
        simpa [Expects] using hw
    | some k' =>
        rw [hc] at hw hcalled
        cases hb with
        | stay => exact hw
        | freed | freedLast => rw [called_rest h.assistant] at hc; cases hc
        | taken => rw [called_rest h'.assistant] at hcalled; cases hcalled
        | left => rw [called_doneLast h.assistant] at hc; cases hc
  · have hA := h.assistant
    have hA' := h'.assistant
    have hturn : b = .done ∧ b' = .rest := by
      rw [hidle] at hA'
      cases hb with
      | stay => cases b <;> first | (cases hA; done) | cases hA'
      | taken => exact ⟨rfl, rfl⟩
      | freed | freedLast | left => cases hA
    obtain ⟨rfl, rfl⟩ := hturn
    rw [hidle, hcur]
    unfold Expects at hw ⊢
    by_cases hlt : x.desk.current k < n
    · rw [if_pos hlt] at hw ⊢
      exact hw
    · rw [if_neg hlt] at hw ⊢
      rw [if_neg (fun hh => by cases hh.1)]
      split_ifs at hw
      · cases w <;> first | rfl | cases hw
      · exact hw
  · have hout := h.outside_of_chosen hk'
    have hA := h.assistant
    have hturn : b' = b := by
      cases hb with
      | stay => rfl
      | freed | freedLast | taken | left => cases hout
    subst hturn
    rw [hcall, hcur]
    unfold Expects at hw ⊢
    by_cases hkk : k = k'
    · subst hkk
      rw [Function.update_self]
      by_cases hlt : x.desk.current k < n
      · rw [if_pos hlt] at hw
        subst hw
        by_cases hn : n = x.desk.current k + 1
        · rw [if_neg (by omega), if_pos ⟨rfl, hn⟩]
          cases b' <;> first | rfl | cases hout
        · rw [if_pos (by omega)]
      · rw [if_neg hlt, if_neg (fun hh => by cases hh.1)] at hw
        rw [if_neg (by omega), if_neg (fun hh => by omega)]
        exact hw
    · rw [Function.update_of_ne hkk]
      by_cases hlt : x.desk.current k < n
      · rw [if_pos hlt] at hw ⊢
        exact hw
      · rw [if_neg hlt, if_neg (fun hh => by cases hh.1)] at hw
        rw [if_neg hlt, if_neg (fun hh => by cases hh.1; exact hkk rfl)]
        exact hw

/-! ## The doctor's steps -/

/-- How the turn changes when the doctor moves. -/
inductive Turn.ByDoctor : Turn → Turn → Prop
  | stay (b : Turn) : ByDoctor b b
  | freed : ByDoctor .free .doctor
  | freedLast : ByDoctor .freeLast .doctorLast
  | leave : ByDoctor .doctorLast .finishingLast
  | letIn : ByDoctor .doctor .enter
  | met : ByDoctor .met .finishing
  | done : ByDoctor .finishing .done
  | doneLast : ByDoctor .finishingLast .doneLast

theorem Turn.ByDoctor.assistantAt {A : AssistantStage} (hb : b.ByDoctor b')
    (hA : b.assistantAt A = true) : b'.assistantAt A = true := by
  cases hb with
  | stay => exact hA
  | _ => cases A <;> first | rfl | cases hA

theorem Turn.ByDoctor.firstcase (hb : b.ByDoctor b') (A : AssistantStage) :
    b'.firstcase A = b.firstcase A := by
  cases hb with
  | stay => rfl
  | _ => cases A <;> rfl

theorem Turn.ByDoctor.rests (hb : b.ByDoctor b') : b'.rests = b.rests := by
  cases hb <;> rfl

theorem Turn.ByDoctor.outside (hb : b.ByDoctor b') : b'.outside = b.outside := by
  cases hb <;> rfl

/-- The doctor changes the flags as the turn asks, and nothing else. -/
theorem Ring.byDoctor (h : Ring x a d b) (hb : b.ByDoctor b') (hflags : x'.flags = b'.flags)
    (hD : b'.doctorAt d'.stage = true) (hfirst : x'.doctorFirstcase = x.doctorFirstcase)
    (hdesk : x'.desk = x.desk) (hcalled : x'.called = x.called) (hentered : x'.entered = x.entered)
    (hnext : x'.hasNext = x.hasNext) (hexp : expected b' d'.stage = expected b d.stage) :
    Ring x' a d' b' := by
  refine h.pass hflags ?_ (fun ho => ?_) (hb.assistantAt h.assistant) hD hdesk hcalled hentered
    hnext ?_ hexp fun _ hk => hk
  · rw [hfirst, h.firstcase, hb.firstcase]
  · rw [hdesk, hb.rests]
    exact h.offer ho
  · unfold outsider
    rw [hb.outside]

theorem expects_doctor {A : AssistantStage} {current : Kind → Nat} {w : VisitorStage}
    (hA : b.assistantAt A = true) (hb : b.ByDoctor b')
    (hw : Expects b A.called current k n w) : Expects b' A.called current k n w := by
  unfold Expects at hw ⊢
  split_ifs at hw ⊢ with hlt hcalled
  · exact hw
  · cases hb with
    | stay => exact hw
    | freed | letIn | met | done => cases w <;> first | rfl | cases hw
    | freedLast | leave | doneLast => cases A <;> first | (cases hA; done) | cases hcalled.1
  · exact hw

theorem expected_eq {D D' : DoctorStage} (hD : D ≠ .letIn) (hD' : D' ≠ .letIn) :
    expected b D = expected b D' := by
  simp [expected, hD, hD']

theorem closed_idle (h : a.closed = true) : a.stage = .idle := by
  cases a <;> first | rfl | cases h

/-- The doctor goes on, or leaves. -/
theorem Ring.proceed (h : Ring x a .testSession b) (hl : Books arrivals x a) :
    ∃ b', Ring (proceed x).data a (Clinic.proceed x).next b' ∧ b.ByDoctor b' := by
  have hfirst := h.firstcase
  have hA := h.assistant
  have hb : b = .doctor ∨ b = .doctorLast := by
    have hD := h.doctor
    cases b <;> first | exact .inl rfl | exact .inr rfl | cases hD
  -- the doctor is at work, so the assistant has not closed the session
  have hopen : a.closed = false := by
    by_contra hc
    rw [closed_idle (by simpa using hc)] at hA
    rcases hb with rfl | rfl <;> cases hA
  rw [hl.firstcase hopen] at hfirst
  unfold Clinic.proceed
  rcases hb with rfl | rfl
  · have hgo : x.desk.sessionDone = false := by
      rw [hfirst]
      cases a.stage <;> rfl
    rw [if_neg (by rw [hgo]; exact Bool.false_ne_true)]
    refine ⟨.doctor, ⟨h.flags, h.firstcase, h.offer, h.assistant, rfl, h.entered, ?_, h.time,
      h.tokens⟩, .stay _⟩
    show x.hasNext + 1 = x.entered.length + 1
    rw [h.printed]
    rfl
  · have hdone : x.desk.sessionDone = true := hfirst
    rw [if_pos hdone]
    exact ⟨.finishingLast, h.byDoctor .leave h.flags rfl rfl rfl rfl rfl rfl rfl, .leave⟩

/-- **The ring along the doctor's steps.** -/
theorem ring_doctor (h : Ring x a d b) (hl : Books arrivals x a)
    (hr : (doctor d).result x = some (x', d')) : ∃ b', Ring x' a d' b' ∧ b.ByDoctor b' := by
  have hA := h.assistant
  have hD := h.doctor
  cases d with
  | testSession =>
      cases hr
      exact h.proceed hl
  | await w =>
      obtain ⟨rfl, o, hnext, rfl⟩ := Await.result_next hr
      cases hnext with
      | pass hf =>
          refine ⟨b, ⟨h.flags, h.firstcase, h.offer, hA, ?_, h.entered, ?_, h.time, h.tokens⟩,
            .stay b⟩
          · rcases h.turn_free hf with rfl | rfl <;> rfl
          · exact h.printed.trans (congrArg _ (expected_eq nofun nofun))
      | lock | stay _ | sleep | woken =>
          exact ⟨b, h.quiet rfl rfl (fun _ => rfl) rfl (fun _ => rfl) rfl rfl rfl rfl rfl, .stay b⟩
  | meet w =>
      obtain ⟨rfl, o, hnext, rfl⟩ := Await.result_next hr
      cases hnext with
      | pass hm =>
          obtain rfl := h.turn_met hm
          exact ⟨.met, ⟨h.flags, h.firstcase, h.offer, hA, rfl, h.entered, h.printed, h.time,
            h.tokens⟩, .stay _⟩
      | lock | stay _ | sleep | woken =>
          exact ⟨b, h.quiet rfl rfl (fun _ => rfl) rfl (fun _ => rfl) rfl rfl rfl rfl rfl, .stay b⟩
  | clearFree =>
      cases hr
      have hb : b = .free ∨ b = .freeLast := by
        cases b <;> first | exact .inl rfl | exact .inr rfl | cases hD
      rcases hb with rfl | rfl
      · obtain ⟨-, he, hm, ho⟩ := flags_iff.mp h.flags
        exact ⟨.doctor, h.byDoctor .freed (flags_iff.mpr ⟨rfl, he, hm, ho⟩) rfl rfl rfl rfl rfl rfl
          rfl, .freed⟩
      · obtain ⟨-, he, hm, ho⟩ := flags_iff.mp h.flags
        exact ⟨.doctorLast, h.byDoctor .freedLast (flags_iff.mpr ⟨rfl, he, hm, ho⟩) rfl rfl rfl rfl
          rfl rfl rfl, .freedLast⟩
  | setEnter =>
      cases hr
      have hb : b = .doctor := by
        cases b <;> first | rfl | cases hD
      subst hb
      obtain ⟨hf, -, hm, ho⟩ := flags_iff.mp h.flags
      exact ⟨.enter, h.byDoctor .letIn (flags_iff.mpr ⟨hf, rfl, hm, ho⟩) rfl rfl rfl rfl rfl rfl
        rfl, .letIn⟩
  | clearMet =>
      cases hr
      have hb : b = .met := by
        cases b <;> first | rfl | cases hD
      subst hb
      obtain ⟨hf, he, -, ho⟩ := flags_iff.mp h.flags
      exact ⟨.finishing, h.byDoctor .met (flags_iff.mpr ⟨hf, he, rfl, ho⟩) rfl rfl rfl rfl rfl rfl
        rfl, .met⟩
  | setDone last =>
      cases hr
      have hb : b = .finishing ∧ last = false ∨ b = .finishingLast ∧ last = true := by
        cases last <;> cases b <;> first | exact .inl ⟨rfl, rfl⟩ | exact .inr ⟨rfl, rfl⟩ | cases hD
      obtain ⟨hf, he, hm, -⟩ := flags_iff.mp h.flags
      rcases hb with ⟨rfl, rfl⟩ | ⟨rfl, rfl⟩
      · exact ⟨.done, h.byDoctor .done (flags_iff.mpr ⟨hf, he, hm, rfl⟩) rfl rfl rfl rfl rfl rfl rfl,
          .done⟩
      · exact ⟨.doneLast, h.byDoctor .doneLast (flags_iff.mpr ⟨hf, he, hm, rfl⟩) rfl rfl rfl rfl rfl
          rfl rfl, .doneLast⟩
  | unlockDone last =>
      cases hr
      cases last with
      | true =>
          exact ⟨b, h.quiet rfl rfl (fun _ => rfl) rfl (fun _ => rfl) rfl rfl rfl rfl rfl, .stay b⟩
      | false =>
          refine ⟨b, ⟨h.flags, h.firstcase, h.offer, hA, ?_, h.entered, ?_, h.time, h.tokens⟩,
            .stay b⟩
          · cases b <;> first | rfl | cases hD
          · exact h.printed.trans (congrArg _ (expected_eq nofun nofun))
  | finished => cases hr
  | _ =>
      cases hr
      exact ⟨b, h.quiet rfl rfl (fun _ => rfl) rfl (fun _ => rfl) rfl rfl rfl rfl rfl, .stay b⟩

/-! ## The visitors' steps -/

/-- A visitor between the own test and the doctor is the one called in. -/
theorem Expects.called {C : Option Kind} {current : Kind → Nat} {w : VisitorStage}
    (h : Expects b C current k n w) (hw : w ≠ .waiting) (hs : w ≠ .served) :
    C = some k ∧ n = current k ∧ b.visitorAt w = true := by
  unfold Expects at h
  split_ifs at h with hlt hc
  · exact absurd h hw
  · exact ⟨hc.1, hc.2, h⟩
  · exact absurd h hs

theorem Expects.of_called {C : Option Kind} {current : Kind → Nat} {w : VisitorStage}
    (hC : C = some k) (hn : n = current k) (hw : b.visitorAt w = true) :
    Expects b C current k n w := by
  unfold Expects
  rw [if_neg (by omega), if_pos ⟨hC, hn⟩]
  exact hw

/-- A visitor who passes the own test has been called in. -/
theorem Expects.pass {C : Option Kind} {current : Kind → Nat}
    (h : Expects b C current k n .waiting) (hn : n = current k) : Expects b C current k n .coming := by
  unfold Expects at h ⊢
  rw [if_neg (by omega)] at h ⊢
  split_ifs at h ⊢
  cases b <;> first | rfl | cases h

theorem expects_visitor {C : Option Kind} {current : Kind → Nat} {w : VisitorStage} {k' : Kind}
    {n' : Nat} (hC : C = some k) (hn : n = current k) (hne : ¬ (k' = k ∧ n' = n))
    (hw : Expects b C current k' n' w) : Expects b' C current k' n' w := by
  unfold Expects at hw ⊢
  have hnot : ¬ (C = some k' ∧ n' = current k') := by
    rintro ⟨hC', hn'⟩
    obtain rfl : k = k' := Option.some.inj (hC.symm.trans hC')
    exact hne ⟨rfl, hn'.trans hn.symm⟩
  rw [if_neg hnot] at hw ⊢
  exact hw

theorem enter_called {A : AssistantStage} (h : Turn.enter.assistantAt A = true)
    (hc : A.called = some k) : A = .call k := by
  cases A <;> first | (cases h; done) | cases hc
  rfl

theorem doctorAt_enter {D : DoctorStage} (h : Turn.enter.doctorAt D = true) : D = .meeting := by
  rcases D with _ | _ | _ | _ | _ | _ | (_ | _) | (_ | _) <;> first | rfl | cases h

theorem assistantAt_visitor {A : AssistantStage} (h : Turn.visitor.assistantAt A = true) :
    ∃ k, A = .call k := by
  cases A with
  | call k => exact ⟨k, rfl⟩
  | _ => cases h

theorem doctorAt_visitor {D : DoctorStage} (h : Turn.visitor.doctorAt D = true) :
    D = .meeting := by
  rcases D with _ | _ | _ | _ | _ | _ | (_ | _) | (_ | _) <;> first | rfl | cases h

/-- `clearEnter`: the visitor called in is inside. -/
theorem Ring.clearEnter (h : Ring x a d .enter) (hC : a.stage.called = some k)
    (hn : n = x.desk.current k) :
    Ring { x with doctorEnter := false, entered := x.entered ++ [(k, n)] } a d .visitor := by
  obtain ⟨hf, -, hm, ho⟩ := flags_iff.mp h.flags
  have hstage := enter_called h.assistant hC
  have hmeeting := doctorAt_enter h.doctor
  have hentered := h.entered
  have hprinted := h.printed
  rw [hstage] at hentered
  rw [hmeeting] at hprinted
  refine ⟨flags_iff.mpr ⟨hf, rfl, hm, ho⟩, ?_, ?_, ?_, ?_, ?_, ?_, h.time, h.tokens⟩
  · rw [h.firstcase, hstage]
    rfl
  · rw [hstage]
    nofun
  · rw [hstage]
    rfl
  · rw [hmeeting]
    rfl
  · rw [hstage]
    show x.called.map CalledIn.visitor = (x.entered ++ [(k, n)]) ++ []
    rw [List.append_nil, hentered, hn]
    rfl
  · rw [hmeeting]
    show x.hasNext = (x.entered ++ [(k, n)]).length + 0
    rw [hprinted, List.length_append]
    rfl

/-- `setMet`: the doctor has been met. -/
theorem Ring.setMet (h : Ring x a d .visitor) : Ring { x with doctorMet := true } a d .met := by
  obtain ⟨hf, he, -, ho⟩ := flags_iff.mp h.flags
  obtain ⟨k, hstage⟩ := assistantAt_visitor h.assistant
  have hmeeting := doctorAt_visitor h.doctor
  have hentered := h.entered
  have hprinted := h.printed
  rw [hstage] at hentered
  rw [hmeeting] at hprinted
  refine ⟨flags_iff.mpr ⟨hf, he, rfl, ho⟩, ?_, ?_, ?_, ?_, ?_, ?_, h.time, h.tokens⟩
  · rw [h.firstcase, hstage]
    rfl
  · rw [hstage]
    nofun
  · rw [hstage]
    rfl
  · rw [hmeeting]
    rfl
  · rw [hstage]
    exact hentered
  · rw [hmeeting]
    exact hprinted

/-- **The ring along a visitor's steps.** -/
theorem ring_visitor (h : Ring x a d b)
    (hw : Expects b a.stage.called x.desk.current k n v.stage)
    (hr : (visitor k n v).result x = some (x', v')) :
    ∃ b', Ring x' a d b' ∧ Expects b' a.stage.called x.desk.current k n v'.stage
      ∧ (b' = b ∨ a.stage.called = some k ∧ n = x.desk.current k) := by
  cases v with
  | own w =>
      obtain ⟨rfl, o, hnext, rfl⟩ := Await.result_next hr
      cases hnext with
      | pass hn => exact ⟨b, h, hw.pass (by simpa using hn), .inl rfl⟩
      | lock | stay _ | sleep | woken => exact ⟨b, h, hw, .inl rfl⟩
  | enter w =>
      obtain ⟨rfl, o, hnext, rfl⟩ := Await.result_next hr
      cases hnext with
      | pass he =>
          obtain rfl := h.turn_enter he
          obtain ⟨hC, hn, -⟩ := hw.called nofun nofun
          exact ⟨.enter, h, .of_called hC hn rfl, .inl rfl⟩
      | lock | stay _ | sleep | woken => exact ⟨b, h, hw, .inl rfl⟩
  | clearEnter =>
      cases hr
      obtain ⟨hC, hn, hb⟩ := hw.called nofun nofun
      have hturn : b = .enter := by
        cases b <;> first | rfl | cases hb
      subst hturn
      exact ⟨.visitor, h.clearEnter hC hn, .of_called hC hn rfl, .inr ⟨hC, hn⟩⟩
  | setMet =>
      cases hr
      obtain ⟨hC, hn, hb⟩ := hw.called nofun nofun
      have hturn : b = .visitor := by
        cases b <;> first | rfl | cases hb
      subst hturn
      exact ⟨.met, h.setMet, .of_called hC hn rfl, .inr ⟨hC, hn⟩⟩
  | finished => cases hr
  | unlockOwn | unlockEnter | lockMeet | signalMet | unlockMeet =>
      cases hr
      exact ⟨b, h, hw, .inl rfl⟩

/-! ## Threads that are woken or made -/

theorem doctor_asleep {c : CondId} {woken : DoctorPc} (hc : doctor d = .asleep c woken) :
    (d = .await .asleep ∧ c = .doctor ∧ woken = .await .woken)
      ∨ (d = .meet .asleep ∧ c = .meet ∧ woken = .meet .woken) := by
  cases d with
  | await w =>
      cases w <;> cases hc
      exact .inl ⟨rfl, rfl, rfl⟩
  | meet w =>
      cases w <;> cases hc
      exact .inr ⟨rfl, rfl, rfl⟩
  | _ => cases hc

theorem visitor_asleep {c : CondId} {woken : VisitorPc} (hc : visitor k n v = .asleep c woken) :
    (v = .own .asleep ∧ c = .own k ∧ woken = .own .woken)
      ∨ (v = .enter .asleep ∧ c = .entered ∧ woken = .enter .woken) := by
  cases v with
  | own w =>
      cases w <;> cases hc
      exact .inl ⟨rfl, rfl, rfl⟩
  | enter w =>
      cases w <;> cases hc
      exact .inr ⟨rfl, rfl, rfl⟩
  | _ => cases hc

theorem assistant_wakes (h : Wakes code .assistant a a') : a'.stage = a.stage := by
  rcases h with rfl | ⟨c, hc⟩
  · rfl
  · obtain ⟨c', rfl, rfl⟩ := assistant_asleep hc
    cases c' <;> rfl

theorem doctor_wakes (h : Wakes code .doctor d d') : d'.stage = d.stage := by
  rcases h with rfl | ⟨c, hc⟩
  · rfl
  · rcases doctor_asleep hc with ⟨rfl, -, rfl⟩ | ⟨rfl, -, rfl⟩ <;> rfl

theorem visitor_wakes (h : Wakes code (.visitor k n) v v') : v'.stage = v.stage := by
  rcases h with rfl | ⟨c, hc⟩
  · rfl
  · rcases visitor_asleep hc with ⟨rfl, -, rfl⟩ | ⟨rfl, -, rfl⟩ <;> rfl

/-- Another visitor's thread is at the stage it was at, or is new and not called yet. -/
theorem visitor_before (h : Orderly arrivals s) (h' : Orderly arrivals s') (hp : s.place t = some p)
    (hm : Moves code s t pick p s') (hne : .visitor k n ≠ t)
    (hcur : ∀ k, s'.data.desk.current k ≤ s.data.desk.current k + s.data.desk.num k)
    (hv : s'.place (.visitor k n) = some v') :
    (∃ v : VisitorPc, s.place (.visitor k n) = some v ∧ v'.stage = v.stage)
      ∨ v'.stage = .waiting ∧ s'.data.desk.current k < n := by
  cases hold : s.place (.visitor k n) with
  | some v =>
      obtain ⟨w, hw, hwakes⟩ := hm.wakes_other (h.fresh hp) hne hold
      rw [hv] at hw
      cases hw
      exact .inl ⟨v, rfl, visitor_wakes hwakes⟩
  | none =>
      refine .inr ⟨?_, ?_⟩
      · rcases hm.other hne with hsame | ⟨_, _, _, hq, _⟩ | ⟨f, q, hc, hs, hq⟩
        · rw [hsame, hold] at hv
          cases hv
        · rw [hold] at hq
          cases hq
        · rw [hv] at hq
          cases hq
          cases t with
          | doctor => rw [doctor_spawned hc] at hs; cases hs
          | visitor k' n' => rw [visitor_spawned hc] at hs; cases hs
          | assistant =>
              obtain ⟨-, rfl⟩ := assistant_spawned hc hs
              obtain ⟨k', heq, hq⟩ := handle_spawned hs
              cases heq
              cases hq
              rfl
      · have hadm := (h'.visitors k n).mp (by rw [hv]; exact Option.some_ne_none _)
        have hnot := mt (h.visitors k n).mpr (not_not.mpr hold)
        have hle := hcur k
        omega

/-! ## Along a run -/

theorem Ring.congr (h : Ring x a d b) (ha : a'.stage = a.stage) (hd : d'.stage = d.stage) :
    Ring x a' d' b :=
  h.quiet rfl rfl (fun _ => rfl) rfl (fun _ => rfl) rfl rfl rfl ha hd

/-- No visitor is called before being admitted. -/
theorem current_le (hr : (assistant a).result x = some (x', a')) (k : Kind) :
    x'.desk.current k ≤ x.desk.current k + x.desk.num k := by
  by_cases ha : a = .loop
  · subst ha
    cases hr
    have hcases := handle_cases x
    generalize Clinic.handle x = e at hcases ⊢
    cases hcases <;> exact Nat.le_add_right _ _
  · have hsum := admitted_result ha hr k
    omega

theorem assistant_finished (hr : (assistant a).result x = some (x', .finished)) : a = .join := by
  cases a with
  | join => rfl
  | loop =>
      have hcases := handle_cases x
      have hnext : (Clinic.handle x).next = .finished := (Prod.mk.inj (Option.some.inj hr)).2
      generalize Clinic.handle x = e at hcases hnext
      cases hcases <;> cases hnext
  | await c w =>
      obtain ⟨-, o, hnext, ho⟩ := Await.result_next hr
      cases o <;> cases ho
  | choose =>
      have hnext : (call x).next = .finished := (Prod.mk.inj (Option.some.inj hr)).2
      unfold call at hnext
      split at hnext <;> cases hnext
  | putBack =>
      have hnext : (resume x).next = .finished := (Prod.mk.inj (Option.some.inj hr)).2
      unfold resume at hnext
      split at hnext <;> cases hnext
  | testTime k =>
      have hnext : (if x.tempTime = 0 then .putBack else .await (.visit k) .lock) =
          AssistantPc.finished := (Prod.mk.inj (Option.some.inj hr)).2
      split at hnext <;> cases hnext
  | testSession =>
      have hnext : (if x.desk.sessionDone then .join else .lockEnd) = AssistantPc.finished :=
        (Prod.mk.inj (Option.some.inj hr)).2
      split at hnext <;> cases hnext
  | unlockDone c => cases c <;> cases hr
  | _ => cases hr

theorem Expects.new {C : Option Kind} {current : Kind → Nat} {w : VisitorStage}
    (hw : w = .waiting) (hn : current k < n) : Expects b C current k n w := by
  unfold Expects
  rw [if_pos hn]
  exact hw

/-- Who was woken has not ended. -/
theorem assistant_ended (h : Wakes code .assistant a a') (hfin : a' = .finished) :
    a = .finished := by
  subst hfin
  rcases h with rfl | ⟨c, hc⟩
  · rfl
  · obtain ⟨c', -, hwoken⟩ := assistant_asleep hc
    cases hwoken

theorem doctor_ended (h : Wakes code .doctor d d') (hfin : d = .finished) : d' = .finished := by
  subst hfin
  rcases h with rfl | ⟨c, hc⟩
  · rfl
  · cases hc

theorem doctor_halted (h : doctor d = .halt) : d = .finished := by
  cases d with
  | finished => rfl
  | await w | meet w => cases w <;> cases h
  | _ => cases h

/-- The desk belongs to the assistant. -/
theorem current_le_of_desk (h : x'.desk = x.desk) (k : Kind) :
    x'.desk.current k ≤ x.desk.current k + x.desk.num k := by
  rw [h]
  exact Nat.le_add_right _ _

/-- The assistant passes the turn, and ends only after the doctor. -/
theorem handshake_assistant (h : Handshake s a d b) (ho : Orderly arrivals s)
    (ho' : Orderly arrivals s') (hl : Books arrivals s.data a)
    (htime : ∀ k, a = .testTime k → s.data.tempTime ≠ 0)
    (hm : Moves code s .assistant pick a s') : ∃ a' d' b', Handshake s' a' d' b' := by
  have hfresh := ho.fresh h.assistant
  obtain ⟨a', ha', hr⟩ := hm.result
  obtain ⟨d', hd', hwakes⟩ := hm.wakes_other (u := .doctor) hfresh nofun h.doctor
  obtain ⟨b', hring, hb⟩ := ring_assistant h.ring hl htime hr
  refine ⟨a', d', b', ha', hd', hring.congr rfl (doctor_wakes hwakes), fun k n v' hv' => ?_,
    fun hfin => ?_⟩
  · rcases visitor_before ho ho' h.assistant hm nofun (current_le hr) hv'
        with ⟨v, hv, hstage⟩ | ⟨hw, hn⟩
    · rw [hstage]
      exact expects_assistant h.ring hring hb hr htime (h.visitors k n v hv)
    · exact .new hw hn
  · -- the last step is the join of the doctor
    subst hfin
    obtain rfl := assistant_finished hr
    obtain ⟨q, hq, hhalt⟩ := halted_iff.mp (hm.joined rfl)
    obtain rfl : q = d := Option.some.inj (hq.symm.trans h.doctor)
    exact doctor_ended hwakes (doctor_halted hhalt)

theorem handshake_doctor (h : Handshake s a d b) (ho : Orderly arrivals s)
    (ho' : Orderly arrivals s') (hl : Books arrivals s.data a)
    (hm : Moves code s .doctor pick d s') : ∃ a' d' b', Handshake s' a' d' b' := by
  have hfresh := ho.fresh h.doctor
  obtain ⟨d', hd', hr⟩ := hm.result
  obtain ⟨a', ha', hwakes⟩ := hm.wakes_other (u := .assistant) hfresh nofun h.assistant
  obtain ⟨hdesk, -, -⟩ := doctor_result hr
  obtain ⟨b', hring, hb⟩ := ring_doctor h.ring hl hr
  have hstage := assistant_wakes hwakes
  refine ⟨a', d', b', ha', hd', hring.congr hstage rfl, fun k n v' hv' => ?_, fun hfin => ?_⟩
  · rcases visitor_before ho ho' h.doctor hm nofun (current_le_of_desk hdesk) hv'
        with ⟨v, hv, hsame⟩ | ⟨hw, hn⟩
    · rw [hsame, hstage, hdesk]
      exact expects_doctor h.ring.assistant hb (h.visitors k n v hv)
    · exact .new hw hn
  · -- a doctor who has ended makes no step
    obtain rfl := h.joined (assistant_ended hwakes hfin)
    cases hr

theorem handshake_visitor (h : Handshake s a d b) (ho : Orderly arrivals s)
    (ho' : Orderly arrivals s') (hv : s.place (.visitor k n) = some v)
    (hm : Moves code s (.visitor k n) pick v s') : ∃ a' d' b', Handshake s' a' d' b' := by
  have hfresh := ho.fresh hv
  obtain ⟨w, hw, hr⟩ := hm.result
  obtain ⟨a', ha', hwakes⟩ := hm.wakes_other (u := .assistant) hfresh nofun h.assistant
  obtain ⟨d', hd', hwakes'⟩ := hm.wakes_other (u := .doctor) hfresh nofun h.doctor
  obtain ⟨hdesk, -, -⟩ := visitor_result hr
  obtain ⟨b', hring, hself, hb⟩ := ring_visitor h.ring (h.visitors k n v hv) hr
  have hstage := assistant_wakes hwakes
  refine ⟨a', d', b', ha', hd', hring.congr hstage (doctor_wakes hwakes'), fun k' n' v' hv' => ?_,
    fun hfin => doctor_ended hwakes' (h.joined (assistant_ended hwakes hfin))⟩
  rw [hstage, hdesk]
  by_cases hsame : k' = k ∧ n' = n
  · obtain ⟨rfl, rfl⟩ := hsame
    obtain rfl : v' = w := Option.some.inj (hv'.symm.trans hw)
    exact hself
  · have hne : (Tid.visitor k' n') ≠ Tid.visitor k n := by
      rintro ⟨⟩
      exact hsame ⟨rfl, rfl⟩
    rcases visitor_before ho ho' hv hm hne (current_le_of_desk hdesk) hv'
        with ⟨u, hu, hu'⟩ | ⟨hu, hn⟩
    · rw [hu']
      have hold := h.visitors k' n' u hu
      rcases hb with rfl | ⟨hC, hn⟩
      · exact hold
      · exact expects_visitor hC hn hsame hold
    · rw [hdesk] at hn
      exact .new hu hn

/-- **Each step passes the turn on as it should be.** -/
theorem handshake_step (h : Handshake s a d b) (ho : Orderly arrivals s) (ho' : Orderly arrivals s')
    {l : Tid × Option Tid} (hok : Awaited s l) (hs : s.step code l.1 l.2 = some s') :
    ∃ a' d' b', Handshake s' a' d' b' := by
  obtain ⟨t, pick⟩ := l
  obtain ⟨p, hp, hm⟩ := moves_of_step hs
  obtain ⟨a₀, ha₀, hl⟩ := ho.assistant
  obtain rfl : a₀ = a := Option.some.inj (ha₀.symm.trans h.assistant)
  cases t with
  | assistant =>
      obtain rfl : p = a₀ := Option.some.inj (hp.symm.trans h.assistant)
      refine handshake_assistant h ho ho' hl ?_ hm
      rintro k rfl
      exact hok rfl k hp
  | doctor =>
      obtain rfl : p = d := Option.some.inj (hp.symm.trans h.doctor)
      exact handshake_doctor h ho ho' hl hm
  | visitor k n => exact handshake_visitor h ho ho' hp hm

theorem handshake_reachable (h : (clinic mem arrivals).ReachableWhen Awaited s) :
    ∃ a d b, Handshake s a d b := by
  induction h with
  | init hs => exact hs ▸ ⟨_, _, _, handshake_start mem arrivals⟩
  | step hr hok hs ih =>
      obtain ⟨a, d, b, h⟩ := ih
      exact handshake_step h (orderly_reachable hr.reachable)
        (orderly_reachable (.step hr.reachable trivial hs)) hok hs

end OSLab.Clinic
