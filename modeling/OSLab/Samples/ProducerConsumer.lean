import OSLab.Lib.Wakeups
import OSLab.Lib.BoundedStack

set_option autoImplicit false

/-! # The producer and the consumer of `pthread/producer_consumer.c`

The two threads share `buffer` and `count` under one mutex, and wait for each other on the one
condition variable `full`: the producer while `count == BUFFER_SIZE`, the consumer while `count == 0`.
`producer` and `consumer` have the same frame and differ in the test of the wait and in the body under
the mutex, so a thread is a `Side` with a body of its own. Both make `n` rounds; in the source `n` is
`10`.

A step reads or writes one shared variable once. `log` is what has been printed: `<<< Produced` pushes
and `>>> Consumed` pops. Nothing keeps an index of `buffer` in its bounds but what is proved.
-/

namespace OSLab.Samples.Buffer

open Pthread

def BUFFER_SIZE : Nat := 5

inductive Side
  | producer
  | consumer
  deriving DecidableEq, Repr

def Side.other : Side → Side
  | .producer => .consumer
  | .consumer => .producer

inductive Tid
  | main
  | side (d : Side)
  deriving DecidableEq, Repr

/-- `buffer[count] = i; count++; printf(…)`. -/
inductive ProducerPc
  | readSlot
  | store (slot : Int)
  | readCount
  | writeCount (v : Int)
  | print
  deriving DecidableEq, Repr

/-- `count--; printf(…, buffer[count])`. -/
inductive ConsumerPc
  | readCount
  | writeCount (v : Int)
  | readSlot
  | print (slot : Int)
  deriving DecidableEq, Repr

@[reducible] def Body : Side → Type
  | .producer => ProducerPc
  | .consumer => ConsumerPc

/-- Where a thread is in round `i` of its loop; at `loop i` it tests `i`. -/
inductive Pc (B : Type)
  | loop (i : Nat)
  | await (i : Nat) (w : Await)
  | body (i : Nat) (b : B)
  | signal (i : Nat)
  | unlock (i : Nat)
  | finished
  deriving DecidableEq, Repr

inductive MainPc
  | create (d : Side)
  | join (d : Side)
  | finished
  deriving DecidableEq, Repr

@[reducible] def PlaceOf : Tid → Type
  | .main => MainPc
  | .side d => Pc (Body d)

structure Shared where
  buffer : Int → Nat
  count : Int
  log : List (Stack.Op Nat)

abbrev Code (t : Tid) : Type := Instr Shared Unit Unit PlaceOf t

abbrev State : Type := Sys Shared Unit PlaceOf

/-- The wait is over. -/
def ready : Side → Shared → Bool
  | .producer, x => x.count != BUFFER_SIZE
  | .consumer, x => x.count != 0

/-- Where the body starts. -/
def entry : (d : Side) → Body d
  | .producer => .readSlot
  | .consumer => .readCount

/-- One step of the body of round `i`, and where it leads; `none` is its end. -/
def bodyStep : (d : Side) → Nat → Body d → Shared → Shared × Option (Body d)
  | .producer, _, .readSlot, x => (x, some (.store x.count))
  | .producer, i, .store slot, x =>
      ({ x with buffer := Function.update x.buffer slot i }, some .readCount)
  | .producer, _, .readCount, x => (x, some (.writeCount x.count))
  | .producer, _, .writeCount v, x => ({ x with count := v + 1 }, some .print)
  | .producer, i, .print, x => ({ x with log := x.log ++ [.push i] }, none)
  | .consumer, _, .readCount, x => (x, some (.writeCount x.count))
  | .consumer, _, .writeCount v, x => ({ x with count := v - 1 }, some .readSlot)
  | .consumer, _, .readSlot, x => (x, some (.print x.count))
  | .consumer, _, .print slot, x => ({ x with log := x.log ++ [.pop (x.buffer slot)] }, none)

def sideCode (n : Nat) (d : Side) : Pc (Body d) → Code (.side d)
  | .loop i => .act fun x => ⟨x, if i < n then .await i .lock else .finished, none⟩
  | .await i w => w.instr () () (ready d) (.await i) (.body i (entry d))
  | .body i b => .act fun x =>
      ⟨(bodyStep d i b x).1, (bodyStep d i b x).2.elim (.signal i) (.body i), none⟩
  | .signal i => .signal () (.unlock i)
  | .unlock i => .unlock () (.loop (i + 1))
  | .finished => .halt

def mainCode : MainPc → Code .main
  | .create .producer => .act fun x => ⟨x, .create .consumer, some ⟨.side .producer, .loop 0⟩⟩
  | .create .consumer => .act fun x => ⟨x, .join .producer, some ⟨.side .consumer, .loop 0⟩⟩
  | .join .producer => .join (.side .producer) (.join .consumer)
  | .join .consumer => .join (.side .consumer) .finished
  | .finished => .halt

def code (n : Nat) : (t : Tid) → PlaceOf t → Code t
  | .main => mainCode
  | .side d => sideCode n d

/-- No signal is a broadcast. -/
def all : (t : Tid) → PlaceOf t → Bool := fun _ _ => false

def start : State where
  data := ⟨fun _ => 0, 0, []⟩
  owner := fun _ => none
  place
    | .main => some (.create .producer)
    | .side _ => none
  threads := [.main]

def machine (n : Nat) : Machine State (Label Tid) := wakeMachine (code n) all start

/-- Who holds the mutex at a place. -/
def holds : (t : Tid) → PlaceOf t → Option Unit
  | .main, _ => none
  | .side _, .await _ w => w.held ()
  | .side _, .body _ _ | .side _, .signal _ | .side _, .unlock _ => some ()
  | .side _, _ => none

variable {n i j : Nat} {s s' : State} {d e : Side} {p p' : Pc (Body d)} {x x' : Shared}

theorem Side.eq_other (h : e ≠ d) : e = d.other := by
  cases d <;> cases e <;> first | rfl | exact absurd rfl h

@[simp] theorem Side.other_other (d : Side) : d.other.other = d := by
  cases d <;> rfl

theorem Side.other_ne (d : Side) : d.other ≠ d := by
  cases d <;> exact Side.noConfusion

theorem disciplined : Disciplined (code n) holds := by
  intro t p
  cases t with
  | main =>
      cases p with
      | create d =>
          cases d with
          | producer => exact fun x => ⟨rfl, fun y hy => by cases hy; rfl⟩
          | consumer => exact fun x => ⟨rfl, fun y hy => by cases hy; rfl⟩
      | join d => cases d <;> exact ⟨rfl, rfl⟩
      | finished => rfl
  | side d =>
      cases p with
      | loop i =>
          refine fun x => ⟨?_, fun y hy => by cases hy⟩
          by_cases hi : i < n
          · simp only [hi, if_true]
            rfl
          · simp only [hi, if_false]
            rfl
      | await i w => exact Await.fits (fun w => rfl) rfl w
      | body i b =>
          refine fun x => ⟨?_, fun y hy => by cases hy⟩
          show holds (.side d) ((bodyStep d i b x).2.elim (.signal i) (.body i)) = some ()
          cases (bodyStep d i b x).2 <;> rfl
      | signal i => rfl
      | unlock i => exact ⟨rfl, rfl⟩
      | finished => rfl

/-! ## The steps -/

/-- Where the main thread goes. -/
inductive MainMove : MainPc → MainPc → Prop
  | create : MainMove (.create .producer) (.create .consumer)
  | created : MainMove (.create .consumer) (.join .producer)
  | join : MainMove (.join .producer) (.join .consumer)
  | joined : MainMove (.join .consumer) .finished

/-- What a step of a side does to the data, and where it leads. -/
inductive Move (n : Nat) (d : Side) (x : Shared) : Pc (Body d) → Shared → Pc (Body d) → Prop
  | enter {i : Nat} : i < n → Move n d x (.loop i) x (.await i .lock)
  | leave {i : Nat} : ¬ i < n → Move n d x (.loop i) x .finished
  | stay {i : Nat} {w w' : Await} : Await.Next (ready d x) w (some w') →
      Move n d x (.await i w) x (.await i w')
  | pass {i : Nat} : ready d x = true → Move n d x (.await i .test) x (.body i (entry d))
  | body {i : Nat} {b : Body d} : Move n d x (.body i b) (bodyStep d i b x).1
      ((bodyStep d i b x).2.elim (.signal i) (.body i))
  | signal {i : Nat} : Move n d x (.signal i) x (.unlock i)
  | unlock {i : Nat} : Move n d x (.unlock i) x (.loop (i + 1))

theorem move_of_result (h : (sideCode n d p).result x = some (x', p')) : Move n d x p x' p' := by
  cases p with
  | loop i =>
      by_cases hi : i < n
      · simp only [sideCode, Instr.result, hi, if_true, Option.some.injEq, Prod.mk.injEq] at h
        obtain ⟨rfl, rfl⟩ := h
        exact .enter hi
      · simp only [sideCode, Instr.result, hi, if_false, Option.some.injEq, Prod.mk.injEq] at h
        obtain ⟨rfl, rfl⟩ := h
        exact .leave hi
  | await i w =>
      obtain ⟨rfl, o, hnext, rfl⟩ := Await.result_next h
      cases o with
      | some w' => exact .stay hnext
      | none =>
          cases hnext with
          | pass hready => exact .pass hready
  | body i b =>
      cases h
      exact .body
  | signal i =>
      cases h
      exact .signal
  | unlock i =>
      cases h
      exact .unlock
  | finished => cases h

/-- Only a body writes, and it is entered where the wait is over. -/
theorem Move.cases_body (h : Move n d x p x' p') :
    (∃ i b, p = .body i b ∧ x' = (bodyStep d i b x).1
        ∧ p' = (bodyStep d i b x).2.elim (.signal i) (.body i))
      ∨ x' = x ∧ (∀ i b, p ≠ .body i b)
        ∧ ∀ i b, p' = .body i b → p = .await i .test ∧ b = entry d ∧ ready d x = true := by
  cases h with
  | body => exact .inl ⟨_, _, rfl, rfl, rfl⟩
  | pass hready =>
      refine .inr ⟨rfl, fun i b hp => (by cases hp), fun i b hp => ?_⟩
      cases hp
      exact ⟨rfl, rfl, hready⟩
  | _ => exact .inr ⟨rfl, fun i b hp => (by cases hp), fun i b hp => by cases hp⟩

theorem mainMove_of_result {p p' : MainPc} (h : (mainCode p).result x = some (x', p')) :
    MainMove p p' ∧ x' = x := by
  cases p with
  | create d =>
      cases d with
      | producer => cases h; exact ⟨.create, rfl⟩
      | consumer => cases h; exact ⟨.created, rfl⟩
  | join d =>
      cases d with
      | producer => cases h; exact ⟨.join, rfl⟩
      | consumer => cases h; exact ⟨.joined, rfl⟩
  | finished => cases h

theorem asleep_cases {t : Tid} {q next : PlaceOf t} {c : Unit} (h : code n t q = .asleep c next) :
    ∃ d i, (⟨t, q⟩ : Sigma PlaceOf) = ⟨.side d, .await i .asleep⟩
      ∧ (⟨t, next⟩ : Sigma PlaceOf) = ⟨.side d, .await i .woken⟩ := by
  cases t with
  | main =>
      cases q with
      | create d => cases d <;> cases h
      | join d => cases d <;> cases h
      | finished => cases h
  | side d =>
      cases q with
      | await i w =>
          cases w with
          | asleep =>
              cases h
              exact ⟨d, i, rfl, rfl⟩
          | _ => cases h
      | _ => cases h

theorem signal_cases {t : Tid} {q next : PlaceOf t} {c : Unit} (h : code n t q = .signal c next) :
    ∃ d i, (⟨t, q⟩ : Sigma PlaceOf) = ⟨.side d, .signal i⟩ := by
  cases t with
  | main =>
      cases q with
      | create d => cases d <;> cases h
      | join d => cases d <;> cases h
      | finished => cases h
  | side d =>
      cases q with
      | await i w => cases w <;> cases h
      | signal i => exact ⟨d, i, rfl⟩
      | _ => cases h

/-- Only the main thread makes threads. -/
theorem spawned_cases {t : Tid} {q : PlaceOf t} {f : Shared → Effect Shared PlaceOf t}
    {y : Sigma PlaceOf} (h : code n t q = .act f) (hy : (f x).spawned = some y) :
    ∃ d, (⟨t, q⟩ : Sigma PlaceOf) = ⟨.main, .create d⟩ ∧ y = ⟨.side d, .loop 0⟩ := by
  cases t with
  | main =>
      cases q with
      | create d =>
          cases d with
          | producer =>
              cases h
              cases hy
              exact ⟨.producer, rfl, rfl⟩
          | consumer =>
              cases h
              cases hy
              exact ⟨.consumer, rfl, rfl⟩
      | join d => cases d <;> cases h
      | finished => cases h
  | side d =>
      cases q with
      | await i w => rw [Await.spawned h] at hy; cases hy
      | loop i => cases h; cases hy
      | body i b => cases h; cases hy
      | _ => cases h

/-- **The steps of the program.** The signal of a side wakes the other if it is asleep. -/
inductive Change (n : Nat) (s s' : State) : Label Tid → Prop
  | main {pick : Option Tid} {p p' : MainPc} (before : s.place .main = some p)
      (after : s'.place .main = some p') (move : MainMove p p') (same : s'.data = s.data)
      (makes : ∀ d, p = .create d → s'.place (.side d) = some (.loop 0))
      (others : ∀ d, p = .create d ∨ s'.place (.side d) = s.place (.side d)) :
      Change n s s' (.step .main pick)
  | side {pick : Option Tid} {d : Side} {p p' : Pc (Body d)} (before : s.place (.side d) = some p)
      (after : s'.place (.side d) = some p') (move : Move n d s.data p s'.data p')
      (other : s'.place (.side d.other) = s.place (.side d.other)
        ∨ ∃ i j, p = .signal i ∧ s.place (.side d.other) = some (.await j .asleep)
          ∧ s'.place (.side d.other) = some (.await j .woken))
      (wakes : s.Listed → ∀ i, p = .signal i →
        ∀ j, s'.place (.side d.other) ≠ some (.await j .asleep))
      (main : s'.place .main = s.place .main) : Change n s s' (.step (.side d) pick)
  | spurious {d : Side} {i : Nat} (before : s.place (.side d) = some (.await i .asleep))
      (after : s'.place (.side d) = some (.await i .woken)) (same : s'.data = s.data)
      (other : s'.place (.side d.other) = s.place (.side d.other))
      (main : s'.place .main = s.place .main) : Change n s s' (.spurious (.side d))

/-- The signal of a side wakes the other. -/
theorem Moves.wakes_side {pick : Option Tid} {i j : Nat}
    (hm : Moves (code n) s (.side d) pick (.signal i) s') (hp : s.place (.side d) = some (.signal i))
    (hl : s.Listed) : s'.place (.side d.other) ≠ some (.await j .asleep) := by
  have hne : Tid.side d.other ≠ .side d := fun h => d.other_ne (Tid.side.inj h)
  intro hs
  rcases hm.elsewhere hne with hsame | ⟨q, c, _, woken, -, -, hc, hw⟩ | ⟨f, q, hc, -, -⟩
  · -- nobody else is asleep, so the signal wakes this one
    rw [hsame] at hs
    have hwoken := hm.wakes (u := .side d.other) (c := ()) rfl hl hs rfl
      (fun t ht _ => ?_) hne
    · rw [hsame, hs] at hwoken
      cases hwoken
    · obtain ⟨woken, hw⟩ := Option.ne_none_iff_exists'.mp ht
      obtain ⟨q, hq, hcq⟩ := asleepOn_eq_some hw
      obtain ⟨e, k, heq, -⟩ := asleep_cases hcq
      cases heq
      by_cases hed : e = d
      · subst hed
        rw [hp] at hq
        cases hq
      · rw [Side.eq_other hed]
  · obtain ⟨e, k, -, hnext⟩ := asleep_cases hc
    cases hnext
    rw [hw] at hs
    cases hs
  · cases hc

theorem change_of_next {a : Label Tid} (h : (machine n).next s a = some s') : Change n s s' a := by
  rcases steps_of_next h with ⟨hp, hm, -⟩ | ⟨hp, hc, hall⟩ | ⟨hp, hc⟩
  case move t pick p =>
    obtain ⟨p', hp', hr⟩ := hm.result
    cases t with
    | main =>
        obtain ⟨hmove, hdata⟩ := mainMove_of_result hr
        refine .main hp hp' hmove hdata (fun d hd => ?_) fun d => ?_
        · subst hd
          cases d with
          | producer => exact hm.spawned (u := .side .producer) rfl rfl Tid.noConfusion
          | consumer => exact hm.spawned (u := .side .consumer) rfl rfl Tid.noConfusion
        · rcases hm.elsewhere (u := .side d) Tid.noConfusion with
            hsame | ⟨r, c, _, next, hc, -⟩ | ⟨f, r, hc, hs, -⟩
          · exact .inr hsame
          · obtain ⟨e, i, hq⟩ := signal_cases hc
            cases hq
          · obtain ⟨e, hq, hy⟩ := spawned_cases hc hs
            cases hq
            cases hy
            exact .inl rfl
    | side d =>
        refine .side hp hp' (move_of_result hr) ?_ (fun hl i hi j => ?_) ?_
        · rcases hm.elsewhere (u := .side d.other) fun h => d.other_ne (Tid.side.inj h) with
            hsame | ⟨r, c, _, next, hsignal, hq, hc, hw⟩ | ⟨f, r, hc, hs, -⟩
          · exact .inl hsame
          · obtain ⟨e, i, hcode⟩ := signal_cases hsignal
            cases hcode
            obtain ⟨e, j, hcode, hnext⟩ := asleep_cases hc
            cases hcode
            cases hnext
            exact .inr ⟨i, j, rfl, hq, hw⟩
          · obtain ⟨e, hq, -⟩ := spawned_cases hc hs
            cases hq
        · subst hi
          exact Moves.wakes_side hm hp hl
        · rcases hm.elsewhere (u := .main) Tid.noConfusion with
            hsame | ⟨r, c, _, next, -, -, hc, -⟩ | ⟨f, r, hc, hs, -⟩
          · exact hsame
          · obtain ⟨e, i, hcode, -⟩ := asleep_cases hc
            cases hcode
          · obtain ⟨e, -, hy⟩ := spawned_cases hc hs
            cases hy
  case broadcast => exact Bool.noConfusion hall
  case spurious t p c woken =>
    obtain ⟨d, i, hcode, hnext⟩ := asleep_cases hc
    cases hcode
    cases hnext
    refine .spurious hp (goto_place_self _ _ _) rfl (goto_place_ne _ _ fun h => ?_) ?_
    · exact d.other_ne (Tid.side.inj h)
    · exact goto_place_ne _ _ Tid.noConfusion

/-! ## Who there is, and who holds what -/

def MainPc.made : MainPc → Side → Bool
  | .create .producer, _ => false
  | .create .consumer, .consumer => false
  | _, _ => true

/-- The owner of the mutex is who holds it, and the sides made are there. -/
structure Basic (s : State) : Prop where
  exclusive : Exclusive holds s
  listed : s.Listed
  main : ∃ p, s.place .main = some p ∧ ∀ d, s.place (.side d) ≠ none ↔ p.made d = true

theorem basic_start : Basic start where
  exclusive := by
    intro m t
    cases t with
    | main => simp [start, Sys.holding, holds]
    | side d => simp [start, Sys.holding]
  listed := by
    intro t ht
    cases t with
    | main => exact List.mem_singleton.mpr rfl
    | side d => exact absurd rfl ht
  main := ⟨.create .producer, rfl, fun d => by simp [start, MainPc.made]⟩

theorem Basic.fresh (h : Basic s) (t : Tid) (p : PlaceOf t) (hp : s.place t = some p) :
    Fresh (code n) s t p := by
  intro f hc y hy
  obtain ⟨d, hq, rfl⟩ := spawned_cases hc hy
  cases hq
  obtain ⟨q, hq, hmade⟩ := h.main
  obtain rfl := Option.some.inj (hp.symm.trans hq)
  by_contra hne
  have hd := (hmade d).mp hne
  cases d <;> cases hd

theorem MainMove.made {p p' : MainPc} (h : MainMove p p') (d : Side) :
    p'.made d = true ↔ p.made d = true ∨ p = .create d := by
  cases h <;> cases d <;> simp [MainPc.made]

theorem basic_next {a : Label Tid} (h : Basic s) (hs : (machine n).next s a = some s') :
    Basic s' := by
  have hsteps := steps_of_next hs
  refine ⟨exclusive_next disciplined h.exclusive hsteps h.fresh, listed_next h.listed hsteps, ?_⟩
  obtain ⟨q, hq, hmade⟩ := h.main
  cases change_of_next hs with
  | @main pick p p' before after move same makes others =>
      obtain rfl := Option.some.inj (before.symm.trans hq)
      refine ⟨p', after, fun d => ?_⟩
      rw [move.made, ← hmade]
      by_cases hd : p = .create d
      · simp [makes d hd, hd]
      · rw [(others d).resolve_left hd]
        simp [hd]
  | @side pick d p p' before after move other wakes hmain =>
      refine ⟨q, hmain.trans hq, fun e => ?_⟩
      rw [← hmade]
      by_cases he : e = d
      · subst he
        simp [before, after]
      · rw [Side.eq_other he]
        rcases other with hsame | ⟨i, j, -, hb, ha⟩
        · rw [hsame]
        · simp [hb, ha]
  | @spurious d i before after same other hmain =>
      refine ⟨q, hmain.trans hq, fun e => ?_⟩
      rw [← hmade]
      by_cases he : e = d
      · subst he
        simp [before, after]
      · rw [Side.eq_other he, other]

theorem basic_reachable {ok : State → Label Tid → Prop} (h : (machine n).ReachableWhen ok s) :
    Basic s := by
  refine h.invariant ?_ fun s a s' hb _ hs => basic_next hb hs
  rintro s rfl
  exact basic_start

/-- What becomes of a side that does not move: it stays, is woken, or is new. -/
def Stays (s s' : State) (d : Side) : Prop :=
  s'.place (.side d) = s.place (.side d)
    ∨ (∃ i, s.place (.side d) = some (.await i .asleep) ∧ s'.place (.side d) = some (.await i .woken))
    ∨ s.place (.side d) = none ∧ s'.place (.side d) = some (.loop 0)

/-- **A step is one of a side, or leaves the data alone.** -/
theorem change_cases {a : Label Tid} (hb : Basic s) (h : (machine n).next s a = some s') :
    (∃ d p p', s.place (.side d) = some p ∧ s'.place (.side d) = some p'
        ∧ Move n d s.data p s'.data p' ∧ Stays s s' d.other
        ∧ ∀ i, p = .signal i → ∀ j, s'.place (.side d.other) ≠ some (.await j .asleep))
      ∨ s'.data = s.data ∧ ∀ d, Stays s s' d := by
  cases change_of_next h with
  | @main pick p p' before after move same makes others =>
      refine .inr ⟨same, fun d => ?_⟩
      by_cases hd : p = .create d
      · obtain ⟨q, hq, hmade⟩ := hb.main
        obtain rfl := Option.some.inj (before.symm.trans hq)
        refine .inr (.inr ⟨?_, makes d hd⟩)
        by_contra hne
        have hmade := (hmade d).mp hne
        subst hd
        cases d <;> cases hmade
      · exact .inl ((others d).resolve_left hd)
  | @side pick d p p' before after move other wakes hmain =>
      refine .inl ⟨d, p, p', before, after, move, ?_, wakes hb.listed⟩
      rcases other with hsame | ⟨i, j, -, hplaces⟩
      · exact .inl hsame
      · exact .inr (.inl ⟨j, hplaces⟩)
  | @spurious d i before after same other hmain =>
      refine .inr ⟨same, fun e => ?_⟩
      by_cases he : e = d
      · subst he
        exact .inr (.inl ⟨i, before, after⟩)
      · rw [Side.eq_other he]
        exact .inl other

/-- A side that is still at a place where it would not be new or woken has not moved. -/
theorem Stays.same {q : Pc (Body d)} (h : Stays s s' d) (hq : s'.place (.side d) = some q)
    (hwoken : ∀ i, q ≠ .await i .woken) (hnew : q ≠ .loop 0) : s.place (.side d) = some q := by
  rcases h with hsame | ⟨i, -, ha⟩ | ⟨-, ha⟩
  · exact hsame.symm.trans hq
  · exact absurd (Option.some.inj (hq.symm.trans ha)) (hwoken i)
  · exact absurd (Option.some.inj (hq.symm.trans ha)) hnew

/-- A side that is not asleep does not move by itself. -/
theorem Stays.awake (h : Stays s s' d) (hp : s.place (.side d) = some p)
    (hawake : ∀ i, p ≠ .await i .asleep) : s'.place (.side d) = some p := by
  rcases h with hsame | ⟨i, hb, -⟩ | ⟨hb, -⟩
  · exact hsame.trans hp
  · exact absurd (Option.some.inj (hp.symm.trans hb)) (hawake i)
  · rw [hp] at hb
    cases hb

end OSLab.Samples.Buffer
