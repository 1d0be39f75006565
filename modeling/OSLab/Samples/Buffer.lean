import OSLab.Samples.ProducerConsumer

set_option autoImplicit false

/-! # What the buffer holds

`buffer[0 .. count)` is a stack: the last item produced is the first consumed. `Holds` says what the
history leaves and what the cells hold, which agree when nobody has the mutex (`Settled`) and differ by
the item on its way inside a body (`Mid`). So what has been printed is a legal history of a stack of
`BUFFER_SIZE` items, in every run, and no index leaves the array.

A side that sleeps cannot go on, or the other is on its way to the signal (`Awake`): one condition
variable is enough for two threads, and when nothing moves all items have been consumed.
-/

namespace OSLab.Samples.Buffer

open Pthread

variable {n i j : Nat} {s s' : State} {d e : Side} {p p' : Pc (Body d)} {x x' : Shared}

/-! ## The cells -/

/-- The cells of `b` from the bottom up hold the stack `st`, top first. -/
def Stored (b : Int → Nat) : List Nat → Prop
  | [] => True
  | a :: st => b st.length = a ∧ Stored b st

theorem Stored.update {b : Int → Nat} {st : List Nat} (h : Stored b st) {k : Int} {v : Nat}
    (hk : (st.length : Int) ≤ k) : Stored (Function.update b k v) st := by
  induction st with
  | nil => trivial
  | cons a st ih =>
      have hlt : (st.length : Int) < k := by
        rw [List.length_cons] at hk
        omega
      exact ⟨(Function.update_of_ne hlt.ne v b).trans h.1, ih h.2 hlt.le⟩

/-- The history leaves `st`, the cells hold `held`, and `count` is `c`. -/
structure Holds (x : Shared) (st held : List Nat) (c : Nat) : Prop where
  run : Stack.run BUFFER_SIZE x.log = some st
  count : x.count = c
  stored : Stored x.buffer held

/-- Nothing is on its way. -/
def Settled (x : Shared) : Prop := ∃ st, Holds x st st st.length

/-- What a body has done so far. -/
def Mid (x : Shared) : (d : Side) → Nat → Body d → Prop
  | .producer, _, .readSlot => ∃ st, st.length < BUFFER_SIZE ∧ Holds x st st st.length
  | .producer, _, .store slot =>
      ∃ st, st.length < BUFFER_SIZE ∧ Holds x st st st.length ∧ slot = st.length
  | .producer, i, .readCount => ∃ st, st.length < BUFFER_SIZE ∧ Holds x st (i :: st) st.length
  | .producer, i, .writeCount v =>
      ∃ st, st.length < BUFFER_SIZE ∧ Holds x st (i :: st) st.length ∧ v = st.length
  | .producer, i, .print => ∃ st, st.length < BUFFER_SIZE ∧ Holds x st (i :: st) (st.length + 1)
  | .consumer, _, .readCount => ∃ a st, Holds x (a :: st) (a :: st) (st.length + 1)
  | .consumer, _, .writeCount v =>
      ∃ a st, Holds x (a :: st) (a :: st) (st.length + 1) ∧ v = st.length + 1
  | .consumer, _, .readSlot => ∃ a st, Holds x (a :: st) (a :: st) st.length
  | .consumer, _, .print slot => ∃ a st, Holds x (a :: st) (a :: st) st.length ∧ slot = st.length

theorem mid_entry (h : Settled x) (hready : ready d x = true) : Mid x d i (entry d) := by
  obtain ⟨st, hrun, hcount, hstored⟩ := h
  cases d with
  | producer =>
      have hle := (Stack.run_perm hrun).2
      have hne : x.count ≠ BUFFER_SIZE := by simpa [ready] using hready
      refine ⟨st, ?_, hrun, hcount, hstored⟩
      rw [hcount] at hne
      omega
  | consumer =>
      have hne : x.count ≠ 0 := by simpa [ready] using hready
      cases st with
      | nil => exact absurd hcount hne
      | cons a st => exact ⟨a, st, hrun, hcount, hstored⟩

/-- **One step of a body**: the next place is reached in order, and at the end nothing is on its
way. -/
theorem mid_step {b : Body d} (h : Mid x d i b) :
    (∀ b', (bodyStep d i b x).2 = some b' → Mid (bodyStep d i b x).1 d i b')
      ∧ ((bodyStep d i b x).2 = none → Settled (bodyStep d i b x).1) := by
  cases d with
  | producer =>
      cases b with
      | readSlot =>
          obtain ⟨st, hroom, hst⟩ := h
          refine ⟨fun b' hb => ?_, fun hb => by cases hb⟩
          cases hb
          exact ⟨st, hroom, hst, hst.count⟩
      | store slot =>
          obtain ⟨st, hroom, hst, rfl⟩ := h
          refine ⟨fun b' hb => ?_, fun hb => by cases hb⟩
          cases hb
          exact ⟨st, hroom, hst.run, hst.count, Function.update_self _ _ _,
            hst.stored.update (le_refl _)⟩
      | readCount =>
          obtain ⟨st, hroom, hst⟩ := h
          refine ⟨fun b' hb => ?_, fun hb => by cases hb⟩
          cases hb
          exact ⟨st, hroom, hst, hst.count⟩
      | writeCount v =>
          obtain ⟨st, hroom, hst, rfl⟩ := h
          refine ⟨fun b' hb => ?_, fun hb => by cases hb⟩
          cases hb
          exact ⟨st, hroom, hst.run, rfl, hst.stored⟩
      | print =>
          obtain ⟨st, hroom, hst⟩ := h
          refine ⟨fun b' hb => (by cases hb), fun _ => ?_⟩
          exact ⟨i :: st, Stack.run_push hst.run hroom, hst.count, hst.stored⟩
  | consumer =>
      cases b with
      | readCount =>
          obtain ⟨a, st, hst⟩ := h
          refine ⟨fun b' hb => ?_, fun hb => by cases hb⟩
          cases hb
          exact ⟨a, st, hst, hst.count⟩
      | writeCount v =>
          obtain ⟨a, st, hst, rfl⟩ := h
          refine ⟨fun b' hb => ?_, fun hb => by cases hb⟩
          cases hb
          exact ⟨a, st, hst.run, Int.add_sub_cancel _ _, hst.stored⟩
      | readSlot =>
          obtain ⟨a, st, hst⟩ := h
          refine ⟨fun b' hb => ?_, fun hb => by cases hb⟩
          cases hb
          exact ⟨a, st, hst, hst.count⟩
      | print slot =>
          obtain ⟨a, st, hst, rfl⟩ := h
          refine ⟨fun b' hb => (by cases hb), fun _ => ?_⟩
          refine ⟨st, ?_, hst.count, hst.stored.2⟩
          -- what is printed is the top of the stack
          show Stack.run BUFFER_SIZE (x.log ++ [.pop (x.buffer st.length)]) = some st
          rw [hst.stored.1]
          exact Stack.run_pop hst.run

/-- The index of `buffer` that a place uses. -/
def slot : (d : Side) → Body d → Option Int
  | .producer, .store slot => some slot
  | .consumer, .print slot => some slot
  | _, _ => none

theorem Mid.slot_lt {b : Body d} (h : Mid x d i b) {k : Int} (hk : slot d b = some k) :
    0 ≤ k ∧ k < BUFFER_SIZE := by
  cases d with
  | producer =>
      cases b with
      | store v =>
          obtain ⟨st, hroom, -, rfl⟩ := h
          cases hk
          omega
      | _ => cases hk
  | consumer =>
      cases b with
      | print v =>
          obtain ⟨a, st, hst, rfl⟩ := h
          have hle := (Stack.run_perm hst.run).2
          rw [List.length_cons] at hle
          cases hk
          omega
      | _ => cases hk

/-! ## In every state -/

/-- The body that is under way has got as far as its place says; between the bodies nothing is on its
way. -/
structure Contents (s : State) : Prop where
  mid : ∀ d i b, s.place (.side d) = some (.body i b) → Mid s.data d i b
  settled : (∀ d i b, s.place (.side d) ≠ some (.body i b)) → Settled s.data

theorem contents_start : Contents start where
  mid d i b h := by cases h
  settled _ := ⟨[], rfl, rfl, trivial⟩

theorem Stays.body (h : Stays s s' d) {b : Body d} :
    s'.place (.side d) = some (.body i b) ↔ s.place (.side d) = some (.body i b) :=
  ⟨fun hq => h.same hq (fun _ hc => by cases hc) (fun hc => by cases hc),
    fun hp => h.awake hp fun _ hc => by cases hc⟩

/-- While `d` holds the mutex, the other side is not in a body. -/
theorem Basic.alone (hb : Basic s) (hp : s.place (.side d) = some p)
    (hd : holds (.side d) p = some ()) (b : Body d.other) :
    s.place (.side d.other) ≠ some (.body i b) := by
  intro hq
  exact d.other_ne (Tid.side.inj (hb.exclusive.unique (m := ()) hq hp rfl hd))

theorem contents_next {a : Label Tid} (hb : Basic s) (h : Contents s)
    (hs : (machine n).next s a = some s') : Contents s' := by
  obtain ⟨d, p, p', hp, hp', hm, hstays, -⟩ | ⟨hdata, hstays⟩ := change_cases hb hs
  · rcases hm.cases_body with ⟨i, b, rfl, hx, hnext⟩ | ⟨hx, hbody, henter⟩
    · -- nobody but `d` is in a body
      obtain ⟨hmid, hend⟩ := mid_step (h.mid d i b hp)
      have hother := fun k c => mt hstays.body.mp (hb.alone (i := k) hp rfl c)
      rw [← hx] at hmid hend
      refine ⟨fun e j c hq => ?_, fun hnone => hend ?_⟩
      · by_cases he : e = d
        · subst he
          obtain heq := Option.some.inj (hp'.symm.trans hq)
          rw [hnext] at heq
          cases ho : (bodyStep e i b s.data).2 with
          | none =>
              rw [ho] at heq
              cases heq
          | some c' =>
              rw [ho] at heq
              cases heq
              exact hmid c ho
        · obtain rfl := Side.eq_other he
          exact absurd hq (hother j c)
      · cases ho : (bodyStep d i b s.data).2 with
        | none => rfl
        | some b' =>
            rw [hnext, ho] at hp'
            exact absurd hp' (hnone d i b')
    · have hkept : ∀ e j c, s'.place (.side e) = some (.body j c) →
          s.place (.side e) = some (.body j c) ∨ Mid s.data e j c := by
        intro e j c hq
        by_cases he : e = d
        · subst he
          obtain ⟨rfl, rfl, hready⟩ := henter j c (Option.some.inj (hp'.symm.trans hq))
          refine .inr (mid_entry (h.settled fun e' k c' hc => ?_) hready)
          by_cases he' : e' = e
          · subst he'
            rw [hp] at hc
            cases hc
          · obtain rfl := Side.eq_other he'
            exact hb.alone hp rfl c' hc
        · obtain rfl := Side.eq_other he
          exact .inl (hstays.body.mp hq)
      rw [← hx] at hkept
      refine ⟨fun e j c hq => ?_, fun hnone => ?_⟩
      · rcases hkept e j c hq with hsame | hmid
        · rw [hx]
          exact h.mid e j c hsame
        · exact hmid
      · rw [hx]
        refine h.settled fun e j c hq => ?_
        by_cases he : e = d
        · subst he
          exact hbody j c (Option.some.inj (hp.symm.trans hq))
        · obtain rfl := Side.eq_other he
          exact hnone _ j c (hstays.body.mpr hq)
  · refine ⟨fun e j c hq => ?_, fun hnone => ?_⟩
    · rw [hdata]
      exact h.mid e j c ((hstays e).body.mp hq)
    · rw [hdata]
      exact h.settled fun e j c hq => hnone e j c ((hstays e).body.mpr hq)

/-! ## The rounds -/

/-- How many times a side has printed. -/
def rounds {B : Type} (n : Nat) : Pc B → Nat
  | .loop i | .await i _ | .body i _ => i
  | .signal i | .unlock i => i + 1
  | .finished => n

/-- The round is one of `n`. -/
def Within {B : Type} (n : Nat) : Pc B → Prop
  | .loop i => i ≤ n
  | .await i _ | .body i _ | .signal i | .unlock i => i < n
  | .finished => True

/-- What `k` rounds of a side have printed: the producer its numbers in order. -/
def Printed : Side → List (Stack.Op Nat) → Nat → Prop
  | .producer, log, k => Stack.pushed log = List.range k
  | .consumer, log, k => (Stack.popped log).length = k

theorem bodyStep_printed {b : Body d} (h : Printed d x.log i) :
    Printed d (bodyStep d i b x).1.log
      (rounds n ((bodyStep d i b x).2.elim (.signal i) (.body i))) := by
  cases d with
  | producer =>
      cases b with
      | print =>
          show Stack.pushed (x.log ++ [.push i]) = List.range (i + 1)
          rw [Stack.pushed_push, h, List.range_succ]
      | _ => exact h
  | consumer =>
      cases b with
      | print slot =>
          show (Stack.popped (x.log ++ [.pop (x.buffer slot)])).length = i + 1
          rw [Stack.popped_pop, List.length_append, h, List.length_singleton]
      | _ => exact h

theorem bodyStep_printed_other {b : Body d} {k : Nat} :
    Printed d.other (bodyStep d i b x).1.log k ↔ Printed d.other x.log k := by
  cases d with
  | producer => cases b <;> simp [bodyStep, Printed, Side.other]
  | consumer => cases b <;> simp [bodyStep, Printed, Side.other]

theorem Move.printed (h : Move n d x p x' p') (hw : Within n p)
    (hp : Printed d x.log (rounds n p)) : Printed d x'.log (rounds n p') ∧ Within n p' := by
  cases h with
  | @enter i hi => exact ⟨hp, hi⟩
  | @leave i hi =>
      have hin : i = n := Nat.le_antisymm hw (Nat.le_of_not_lt hi)
      exact ⟨hin ▸ hp, trivial⟩
  | @body i b =>
      refine ⟨bodyStep_printed hp, ?_⟩
      cases (bodyStep d i b x).2 <;> exact hw
  | unlock => exact ⟨hp, hw⟩
  | _ => exact ⟨hp, hw⟩

theorem Move.printed_other (h : Move n d x p x' p') {k : Nat} :
    Printed d.other x'.log k ↔ Printed d.other x.log k := by
  rcases h.cases_body with ⟨i, b, -, rfl, -⟩ | ⟨rfl, -⟩
  · exact bodyStep_printed_other
  · exact Iff.rfl

/-- How many rounds a side has printed, none before it is made. -/
def roundsAt (n : Nat) (s : State) (d : Side) : Nat := (s.place (.side d)).elim 0 (rounds n)

structure Rounds (n : Nat) (s : State) : Prop where
  within : ∀ d p, s.place (.side d) = some p → Within n p
  printed : ∀ d, Printed d s.data.log (roundsAt n s d)

theorem rounds_start : Rounds n start where
  within d p h := by cases h
  printed d := by cases d <;> rfl

theorem Stays.rounds (h : Stays s s' d) : roundsAt n s' d = roundsAt n s d := by
  rcases h with hsame | ⟨i, hb, ha⟩ | ⟨hb, ha⟩
  · rw [roundsAt, hsame, roundsAt]
  · simp [roundsAt, hb, ha, Buffer.rounds]
  · simp [roundsAt, hb, ha, Buffer.rounds]

theorem Stays.within (h : Stays s s' d) (hw : ∀ p, s.place (.side d) = some p → Within n p)
    (hp' : s'.place (.side d) = some p') : Within n p' := by
  rcases h with hsame | ⟨i, hb, ha⟩ | ⟨-, ha⟩
  · exact hw p' (hsame.symm.trans hp')
  · obtain rfl := Option.some.inj (ha.symm.trans hp')
    exact hw (.await i .asleep) hb
  · obtain rfl := Option.some.inj (ha.symm.trans hp')
    exact Nat.zero_le n

theorem rounds_next {a : Label Tid} (hb : Basic s) (h : Rounds n s)
    (hs : (machine n).next s a = some s') : Rounds n s' := by
  obtain ⟨d, p, p', hp, hp', hm, hstays, -⟩ | ⟨hdata, hstays⟩ := change_cases hb hs
  · have hprinted := h.printed d
    rw [roundsAt, hp, Option.elim_some] at hprinted
    obtain ⟨hprinted', hwithin⟩ := hm.printed (h.within d p hp) hprinted
    refine ⟨fun e q hq => ?_, fun e => ?_⟩
    · by_cases he : e = d
      · subst he
        exact Option.some.inj (hp'.symm.trans hq) ▸ hwithin
      · obtain rfl := Side.eq_other he
        exact hstays.within (h.within _) hq
    · by_cases he : e = d
      · subst he
        rw [roundsAt, hp', Option.elim_some]
        exact hprinted'
      · obtain rfl := Side.eq_other he
        rw [hstays.rounds]
        exact hm.printed_other.mpr (h.printed _)
  · refine ⟨fun e q hq => (hstays e).within (h.within e) hq, fun e => ?_⟩
    rw [hdata, (hstays e).rounds]
    exact h.printed e

/-! ## The history in every run -/

theorem contents_reachable {ok : State → Label Tid → Prop} (h : (machine n).ReachableWhen ok s) :
    Contents s := by
  refine h.invariant_of (J := Basic) (fun s hs => basic_reachable hs) ?_
    fun s a s' hb hc _ hs => contents_next hb hc hs
  rintro s rfl
  exact contents_start

theorem rounds_reachable {ok : State → Label Tid → Prop} (h : (machine n).ReachableWhen ok s) :
    Rounds n s := by
  refine h.invariant_of (J := Basic) (fun s hs => basic_reachable hs) ?_
    fun s a s' hb hr _ hs => rounds_next hb hr hs
  rintro s rfl
  exact rounds_start

theorem Mid.run {b : Body d} (h : Mid x d i b) : ∃ st, Stack.run BUFFER_SIZE x.log = some st := by
  cases d with
  | producer =>
      cases b with
      | readSlot | readCount | print =>
          obtain ⟨st, -, hst⟩ := h
          exact ⟨st, hst.run⟩
      | store v | writeCount v =>
          obtain ⟨st, -, hst, -⟩ := h
          exact ⟨st, hst.run⟩
  | consumer =>
      cases b with
      | readCount | readSlot =>
          obtain ⟨a, st, hst⟩ := h
          exact ⟨a :: st, hst.run⟩
      | writeCount v | print v =>
          obtain ⟨a, st, hst, -⟩ := h
          exact ⟨a :: st, hst.run⟩

theorem Within.rounds_le {B : Type} {p : Pc B} (h : Within n p) : rounds n p ≤ n := by
  cases p with
  | signal i | unlock i => exact Nat.succ_le_of_lt h
  | finished => exact Nat.le_refl n
  | loop i => exact h
  | await i w | body i b => exact Nat.le_of_lt h

/-- **What has been printed is a legal history** of a stack of `BUFFER_SIZE` items, in which the producer
pushed `0, 1, 2, …`, and no side uses an index outside `buffer`. -/
theorem printed_history (h : (machine n).Reachable s) :
    (∃ st, Stack.run BUFFER_SIZE s.data.log = some st)
      ∧ (∃ k ≤ n, Stack.pushed s.data.log = List.range k)
      ∧ ∀ d i b k, s.place (.side d) = some (.body i b) → slot d b = some k →
        0 ≤ k ∧ k < BUFFER_SIZE := by
  have hb := basic_reachable h
  have hc := contents_reachable h
  have hr := rounds_reachable h
  refine ⟨?_, ?_, fun d i b k hp hk => (hc.mid d i b hp).slot_lt hk⟩
  · by_cases hbody : ∃ d i b, s.place (.side d) = some (.body i b)
    · obtain ⟨d, i, b, hp⟩ := hbody
      exact (hc.mid d i b hp).run
    · push Not at hbody
      obtain ⟨st, hst⟩ := hc.settled hbody
      exact ⟨st, hst.run⟩
  · refine ⟨roundsAt n s .producer, ?_, hr.printed .producer⟩
    rw [roundsAt]
    cases hp : s.place (.side .producer) with
    | none => exact Nat.zero_le n
    | some p => exact (hr.within .producer p hp).rounds_le

def steps (k : Nat) (t : Tid) : List (Label Tid) := List.replicate k (.step t none)

/-- The consumer comes first and sleeps; the producer wakes it and goes on to its second round, and the
items are consumed, the last one first. -/
def shortRun : List (Label Tid) :=
  steps 2 .main ++ steps 4 (.side .consumer) ++ steps 8 (.side .producer)
    ++ [.step (.side .producer) (some (.side .consumer))] ++ steps 12 (.side .producer)
    ++ steps 18 (.side .consumer) ++ steps 2 .main

theorem printed_history_run : ∃ s, (machine 2).Reachable s
    ∧ s.data.log = [.push 0, .push 1, .pop 1, .pop 0]
    ∧ ∃ st, Stack.run BUFFER_SIZE s.data.log = some st := by
  obtain ⟨s, hr, hs⟩ := Machine.exists_reachable_of_exec (M := machine 2) (s := start)
    (l := shortRun) (p := fun s => decide (s.data.log = [.push 0, .push 1, .pop 1, .pop 0])) rfl
    (by decide +kernel)
  exact ⟨s, hr, of_decide_eq_true hs, (printed_history hr).1⟩

/-! ## Nobody sleeps for ever -/

/-- The side is on its way to the signal. -/
def posting {B : Type} : Pc B → Bool
  | .body _ _ | .signal _ => true
  | _ => false

def OnItsWay (s : State) (d : Side) : Prop :=
  ∃ p, s.place (.side d) = some p ∧ posting p = true

structure Awake (s : State) : Prop where
  sleep : ∀ d i, s.place (.side d) = some (.await i .sleep) → ready d s.data = false
  asleep : ∀ d i, s.place (.side d) = some (.await i .asleep) →
    ready d s.data = false ∨ OnItsWay s d.other

theorem awake_start : Awake start where
  sleep d i h := by cases h
  asleep d i h := by cases h

theorem Move.to_sleep (h : Move n d x p x' p') (hp : p' = .await i .sleep) :
    ready d x' = false := by
  cases h with
  | stay hnext =>
      cases hp
      cases hnext with
      | stay hready => exact hready
  | body =>
      generalize (bodyStep d _ _ x).2 = o at hp
      cases o <;> cases hp
  | _ => cases hp

theorem Move.to_asleep (h : Move n d x p x' p') (hp : p' = .await i .asleep) :
    p = .await i .sleep ∧ x' = x := by
  cases h with
  | stay hnext =>
      cases hp
      cases hnext with
      | sleep => exact ⟨rfl, rfl⟩
  | body =>
      generalize (bodyStep d _ _ x).2 = o at hp
      cases o <;> cases hp
  | _ => cases hp

/-- A side on its way to the signal goes on to it, or signals. -/
theorem Move.posts (h : Move n d x p x' p') (hp : posting p = true) :
    posting p' = true ∨ ∃ i, p = .signal i := by
  cases h with
  | @body i b =>
      refine .inl ?_
      cases (bodyStep d i b x).2 <;> rfl
  | signal => exact .inr ⟨_, rfl⟩
  | _ => cases hp

theorem awake_next {a : Label Tid} (hb : Basic s) (h : Awake s)
    (hs : (machine n).next s a = some s') : Awake s' := by
  obtain ⟨d, p, p', hp, hp', hm, hstays, hwakes⟩ | ⟨hdata, hstays⟩ := change_cases hb hs
  · refine ⟨fun e i hq => ?_, fun e i hq => ?_⟩
    · by_cases he : e = d
      · subst he
        exact hm.to_sleep (Option.some.inj (hp'.symm.trans hq))
      · obtain rfl := Side.eq_other he
        have hq' := hstays.same hq (fun _ hc => by cases hc) (fun hc => by cases hc)
        rcases hm.cases_body with ⟨j, b, rfl, -, -⟩ | ⟨hx, -⟩
        · exact absurd (Tid.side.inj (hb.exclusive.unique (m := ()) hq' hp rfl rfl)) d.other_ne
        · rw [hx]
          exact h.sleep _ i hq'
    · by_cases he : e = d
      · subst he
        obtain ⟨rfl, hx⟩ := hm.to_asleep (Option.some.inj (hp'.symm.trans hq))
        rw [hx]
        exact .inl (h.sleep _ i hp)
      · obtain rfl := Side.eq_other he
        have hq' := hstays.same hq (fun _ hc => by cases hc) (fun hc => by cases hc)
        rw [Side.other_other]
        rcases hm.cases_body with ⟨j, b, rfl, -, -⟩ | ⟨hx, -⟩
        · rcases hm.posts rfl with hnext | ⟨k, hk⟩
          · exact .inr ⟨p', hp', hnext⟩
          · cases hk
        · rw [hx]
          refine (h.asleep _ i hq').imp_right fun hpost => ?_
          rw [Side.other_other] at hpost
          obtain ⟨r, hr, hposting⟩ := hpost
          obtain rfl := Option.some.inj (hp.symm.trans hr)
          rcases hm.posts hposting with hnext | ⟨k, rfl⟩
          · exact ⟨p', hp', hnext⟩
          · exact absurd hq (hwakes k rfl i)
  · refine ⟨fun e i hq => ?_, fun e i hq => ?_⟩
    · rw [hdata]
      exact h.sleep e i ((hstays e).same hq (fun _ hc => by cases hc) (fun hc => by cases hc))
    · rw [hdata]
      have hq' := (hstays e).same hq (fun _ hc => by cases hc) (fun hc => by cases hc)
      refine (h.asleep e i hq').imp_right fun hpost => ?_
      obtain ⟨r, hr, hposting⟩ := hpost
      refine ⟨r, (hstays _).awake hr fun j hj => ?_, hposting⟩
      rw [hj] at hposting
      cases hposting

theorem awake_reachable {ok : State → Label Tid → Prop} (h : (machine n).ReachableWhen ok s) :
    Awake s := by
  refine h.invariant_of (J := Basic) (fun s hs => basic_reachable hs) ?_
    fun s a s' hb ha _ hs => awake_next hb ha hs
  rintro s rfl
  exact awake_start

/-- A side at which nothing is left but to wait. -/
theorem quiet_side (hb : Basic s) (hq : Quiet (code n) all s) (hp : s.place (.side d) = some p) :
    (∃ i, p = .await i .asleep) ∨ p = .finished := by
  rcases quiet_cases disciplined hb.exclusive hq hp with ⟨c, next, hc⟩ | ⟨u, next, hc, -⟩ | hc
  · obtain ⟨e, i, hcode, -⟩ := asleep_cases hc
    cases hcode
    exact .inl ⟨i, rfl⟩
  · cases p with
    | await i w => cases w <;> cases hc
    | _ => cases hc
  · cases p with
    | await i w => cases w <;> cases hc
    | finished => exact .inr rfl
    | _ => cases hc

/-- Both sides are there, asleep or through. -/
theorem quiet_sides (hb : Basic s) (hq : Quiet (code n) all s) (d : Side) :
    (∃ i, s.place (.side d) = some (.await i .asleep)) ∨ s.place (.side d) = some .finished := by
  obtain ⟨q, hmain, hmade⟩ := hb.main
  -- the main thread has made both sides
  have hall : q.made d = true := by
    cases q with
    | create e =>
        rcases quiet_cases disciplined hb.exclusive hq hmain with ⟨_, _, hc⟩ | ⟨_, _, hc, -⟩ | hc <;>
          cases e <;> cases hc
    | _ => rfl
  obtain ⟨p, hp⟩ := Option.ne_none_iff_exists'.mp ((hmade d).mpr hall)
  rcases quiet_side hb hq hp with ⟨i, rfl⟩ | rfl
  · exact .inl ⟨i, hp⟩
  · exact .inr hp

/-- Both sides are joined when they are through. -/
theorem quiet_main (hb : Basic s) (hq : Quiet (code n) all s)
    (hside : ∀ d, s.place (.side d) = some .finished) : s.place .main = some .finished := by
  obtain ⟨q, hmain, -⟩ := hb.main
  have hcases := quiet_cases disciplined hb.exclusive hq hmain
  cases q with
  | create e =>
      rcases hcases with ⟨_, _, hc⟩ | ⟨_, _, hc, -⟩ | hc <;> cases e <;> cases hc
  | join e =>
      have hdone : s.halted (code n) (.side e) = true := halted_iff.mpr ⟨_, hside e, rfl⟩
      rcases hcases with ⟨_, _, hc⟩ | ⟨u, next, hc, hu⟩ | hc
      · cases e <;> cases hc
      · cases e <;> cases hc <;> exact Bool.noConfusion (hu.symm.trans hdone)
      · cases e <;> cases hc
  | finished => exact hmain

/-- A side asleep for good has found the buffer full, or empty. -/
theorem quiet_ready (hb : Basic s) (ha : Awake s) (hq : Quiet (code n) all s)
    (hp : s.place (.side d) = some (.await i .asleep)) : ready d s.data = false := by
  refine (ha.asleep d i hp).resolve_right fun hpost => ?_
  obtain ⟨r, hr, hposting⟩ := hpost
  rcases quiet_side hb hq hr with ⟨j, rfl⟩ | rfl <;> cases hposting

/-- The producer is ahead by what is on the stack. -/
theorem Rounds.balance (h : Rounds n s) {st : List Nat}
    (hrun : Stack.run BUFFER_SIZE s.data.log = some st) :
    roundsAt n s .producer = roundsAt n s .consumer + st.length := by
  have hpushed := h.printed .producer
  have hpopped := h.printed .consumer
  have hlen := (Stack.run_perm hrun).1.length_eq
  simp only [Printed] at hpushed hpopped
  rwa [hpushed, List.length_range, List.length_append, hpopped] at hlen

theorem Rounds.asleep (h : Rounds n s) (hp : s.place (.side d) = some (.await i .asleep)) :
    roundsAt n s d < n := by
  rw [roundsAt, hp]
  exact h.within d (.await i .asleep) hp

theorem roundsAt_finished (hp : s.place (.side d) = some .finished) : roundsAt n s d = n := by
  rw [roundsAt, hp]
  rfl

/-- **No deadlock and no lost wakeup**: when no thread can move but by a spurious wakeup, both sides are
through and joined, every item that was produced has been consumed, once, and `count` is `0`. -/
theorem quiet_consumed (h : (machine n).Reachable s) (hq : Quiet (code n) all s) :
    s.place .main = some .finished ∧ (∀ d, s.place (.side d) = some .finished)
      ∧ (Stack.popped s.data.log).Perm (List.range n) ∧ s.data.count = 0
      ∧ Stack.run BUFFER_SIZE s.data.log = some [] := by
  have hb := basic_reachable h
  have hr := rounds_reachable h
  have hside := quiet_sides hb hq
  obtain ⟨st, hst⟩ := (contents_reachable h).settled fun d i b hp => by
    rcases hside d with ⟨j, hp'⟩ | hp' <;> rw [hp'] at hp <;> cases hp
  have hbalance := hr.balance hst.run
  have hcount := hst.count
  have hready : ∀ d i, s.place (.side d) = some (.await i .asleep) → ready d s.data = false :=
    fun d i hp => quiet_ready hb (awake_reachable h) hq hp
  -- the producer sleeps at a full buffer, the consumer at an empty one
  have hfull : ∀ i, s.place (.side .producer) = some (.await i .asleep) → st.length = 5 := by
    intro i hp
    have hc : s.data.count = BUFFER_SIZE := by simpa [ready] using hready .producer i hp
    simp only [BUFFER_SIZE] at hc
    omega
  have hempty : ∀ i, s.place (.side .consumer) = some (.await i .asleep) → st.length = 0 := by
    intro i hp
    have hc : s.data.count = 0 := by simpa [ready] using hready .consumer i hp
    omega
  have hproducer : s.place (.side .producer) = some .finished := by
    refine (hside .producer).resolve_left fun hasleep => ?_
    obtain ⟨i, hp⟩ := hasleep
    have hlen := hfull i hp
    rcases hside .consumer with ⟨j, hp'⟩ | hp'
    · have := hempty j hp'
      omega
    · have := roundsAt_finished (n := n) hp'
      have := hr.asleep hp
      omega
  have hpushed := roundsAt_finished (n := n) hproducer
  have hconsumer : s.place (.side .consumer) = some .finished := by
    refine (hside .consumer).resolve_left fun hasleep => ?_
    obtain ⟨i, hp⟩ := hasleep
    have := hempty i hp
    have := hr.asleep hp
    omega
  have hpopped := roundsAt_finished (n := n) hconsumer
  have hfinished : ∀ d, s.place (.side d) = some .finished := by
    intro d
    cases d
    · exact hproducer
    · exact hconsumer
  obtain rfl := List.length_eq_zero_iff.mp (by omega : st.length = 0)
  have hperm := (Stack.run_perm hst.run).1
  have hall := hr.printed .producer
  simp only [Printed] at hall
  rw [List.append_nil, hall, hpushed] at hperm
  exact ⟨quiet_main hb hq hfinished, hfinished, hperm.symm, hcount, hst.run⟩

theorem quiet_consumed_run : ∃ s, (machine 2).Reachable s ∧ s.place .main = some .finished
    ∧ (Stack.popped s.data.log).Perm [0, 1] ∧ s.data.count = 0 := by
  obtain ⟨s, hr, hs⟩ := Machine.exists_reachable_of_exec (M := machine 2) (s := start)
    (l := shortRun) (p := fun s => s.threads.all (s.blocked (code 2))) rfl (by decide +kernel)
  obtain ⟨hmain, -, hpopped, hcount, -⟩ :=
    quiet_consumed hr (quiet_of_blocked (basic_reachable hr).listed hs)
  exact ⟨s, hr, hmain, hpopped, hcount⟩

/-! ## Without spurious wakeups the runs end -/

def waitLeft : Await → Nat
  | .lock | .woken => 16
  | .test => 15
  | .sleep => 14
  | .asleep => 13

def bodyLeft : (d : Side) → Body d → Nat
  | .producer, .readSlot | .consumer, .readCount => 12
  | .producer, .store _ | .consumer, .writeCount _ => 11
  | .producer, .readCount | .consumer, .readSlot => 10
  | .producer, .writeCount _ | .consumer, .print _ => 9
  | .producer, .print => 8

/-- How many steps a side is from its end at most, if nobody wakes it. A signal takes as many as the
wakeup brings. -/
def left (n : Nat) (d : Side) : Pc (Body d) → Nat
  | .loop i => 16 * (n - i) + 1
  | .await i w => 16 * (n - (i + 1)) + waitLeft w
  | .body i b => 16 * (n - (i + 1)) + bodyLeft d b
  | .signal i => 16 * (n - (i + 1)) + 7
  | .unlock i => 16 * (n - (i + 1)) + 2
  | .finished => 0

def MainPc.left (n : Nat) : MainPc → Nat
  | .create .producer => 2 * (16 * n + 2) + 2
  | .create .consumer => 16 * n + 2 + 2
  | .join .producer => 2
  | .join .consumer => 1
  | .finished => 0

def leftAt (n : Nat) (s : State) (d : Side) : Nat := (s.place (.side d)).elim 0 (left n d)

def rank (n : Nat) (s : State) : Nat :=
  (s.place .main).elim 0 (MainPc.left n) + leftAt n s .producer + leftAt n s .consumer

theorem bodyStep_left {b : Body d} :
    left n d ((bodyStep d i b x).2.elim (.signal i) (.body i)) < left n d (.body i b) := by
  cases d with
  | producer => cases b <;> simp [bodyStep, left, bodyLeft]
  | consumer => cases b <;> simp [bodyStep, left, bodyLeft]

theorem Move.left_lt (h : Move n d x p x' p') :
    left n d p' < left n d p ∧ ∀ i, p = .signal i → left n d p' + 4 ≤ left n d p := by
  cases h with
  | @enter i hi =>
      refine ⟨?_, fun j hj => by cases hj⟩
      simp only [left, waitLeft]
      omega
  | @leave i hi => exact ⟨Nat.succ_pos _, fun j hj => by cases hj⟩
  | @stay i w w' hnext =>
      refine ⟨?_, fun j hj => by cases hj⟩
      cases hnext <;> simp [left, waitLeft]
  | @pass i hready =>
      refine ⟨?_, fun j hj => by cases hj⟩
      cases d <;> simp [left, waitLeft, entry, bodyLeft]
  | body => exact ⟨bodyStep_left, fun j hj => by cases hj⟩
  | signal => exact ⟨by simp [left], fun j hj => by simp [left]⟩
  | unlock => exact ⟨by simp [left], fun j hj => by cases hj⟩

theorem rank_lt {a : Label Tid} (ha : NotSpurious s a)
    (hs : (machine n).next s a = some s') : rank n s' < rank n s := by
  cases change_of_next hs with
  | @main pick p p' before after move same makes others =>
      have hkept : ∀ d, p ≠ .create d → leftAt n s' d = leftAt n s d := by
        intro d hd
        rw [leftAt, (others d).resolve_left hd, leftAt]
      have hnew : ∀ d, p = .create d → leftAt n s' d = 16 * n + 1 := by
        intro d hd
        rw [leftAt, makes d hd]
        rfl
      simp only [rank, before, after, Option.elim_some]
      cases move with
      | create =>
          have hp := hnew .producer rfl
          have hc := hkept .consumer (by simp)
          simp only [MainPc.left]
          omega
      | created =>
          have hp := hkept .producer (by simp)
          have hc := hnew .consumer rfl
          simp only [MainPc.left]
          omega
      | _ =>
          have hp := hkept .producer (by simp)
          have hc := hkept .consumer (by simp)
          simp only [MainPc.left]
          omega
  | @side pick d p p' before after move other wakes hmain =>
      have hleft : leftAt n s' d + leftAt n s' d.other < leftAt n s d + leftAt n s d.other := by
        obtain ⟨hlt, hsignal⟩ := move.left_lt
        have hd : leftAt n s d = left n d p := by rw [leftAt, before, Option.elim_some]
        have hd' : leftAt n s' d = left n d p' := by rw [leftAt, after, Option.elim_some]
        rcases other with hsame | ⟨i, j, hp, hasleep, hwoken⟩
        · have : leftAt n s' d.other = leftAt n s d.other := by rw [leftAt, hsame, leftAt]
          omega
        · have := hsignal i hp
          have : leftAt n s' d.other ≤ leftAt n s d.other + 3 := by
            simp [leftAt, hasleep, hwoken, left, waitLeft]
          omega
      simp only [rank, hmain]
      cases d <;> simp only [Side.other] at hleft <;> omega
  | spurious => exact ha.elim

/-- **Every run without spurious wakeups ends**, whoever the signals wake. -/
theorem ends_without_spurious : ¬ ∃ run : Nat → State, run 0 = start
    ∧ ∀ i, ∃ a, NotSpurious (run i) a ∧ (machine n).next (run i) a = some (run (i + 1)) := by
  rintro ⟨run, -, hrun⟩
  exact Machine.not_infinite_from (I := fun _ => True) NotSpurious (rank n)
    (fun s a s' _ ha hs => ⟨trivial, rank_lt ha hs⟩) trivial hrun

end OSLab.Samples.Buffer
