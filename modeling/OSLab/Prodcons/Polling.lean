import OSLab.Lib.Fairness
import OSLab.Prodcons.Mailbox
import Mathlib.Algebra.Ring.Int.Defs

set_option autoImplicit false

/-! # Polling comes to an end

Producer and consumers wait by polling `M[0]`, so there are runs in which one of them polls for
ever. But none is needed in which everybody gets the processor again and again: then all processes
finish, and every consumer has counted the items meant for it (`fair_run_finishes`).

At each moment one process has something to do that the others cannot undo (`helper`): the consumer
named in the mailbox, as long as the producer waits for it, the consumer that the producer waits to
exit, and otherwise the producer. What is left to do (`rank`) are the producer's steps and the errand of
that consumer; polling leaves it as it is.
-/

namespace OSLab.Prodcons

variable {n i : Nat} {s s' : State} {missed : Nat → Int}

/-! ## The steps -/

/-- The steps of the producer. -/
inductive ProducerMoves (n : Nat) (s : State) : State → Prop
  | clear : s.producer = .clear → ProducerMoves n s { s with m0 := 0, producer := .loop }
  | last : s.producer = .loop → s.items = [] → ProducerMoves n s { s with producer := .awaitLast }
  | draw {item : Int} {c : Nat} {items : List (Int × Nat)} : s.producer = .loop →
      s.items = (item, c) :: items →
      ProducerMoves n s { s with producer := .await item c, items := items }
  | polls : (∃ item c, s.producer = .await item c) ∨ s.producer = .awaitLast → s.m0 ≠ 0 →
      ProducerMoves n s s
  | found {item : Int} {c : Nat} : s.producer = .await item c → s.m0 = 0 →
      ProducerMoves n s { s with producer := .storeConsumer item c }
  | storeConsumer {item : Int} {c : Nat} : s.producer = .storeConsumer item c →
      ProducerMoves n s { s with m0 := c, producer := .storeItem item c }
  | storeItem {item : Int} {c : Nat} : s.producer = .storeItem item c →
      ProducerMoves n s { s with
        m1 := item
        numItems := Function.update s.numItems c (s.numItems c + 1)
        sumItems := Function.update s.sumItems c (s.sumItems c + item)
        producer := .loop }
  | consumed : s.producer = .awaitLast → s.m0 = 0 →
      ProducerMoves n s { s with producer := .storeEnd }
  | storeEnd : s.producer = .storeEnd → ProducerMoves n s { s with m0 := -1, producer := .reap 1 }
  | reap {j : Nat} : s.producer = .reap j → j ≤ n → (s.consumer j).pc = .exited →
      ProducerMoves n s { s with producer := .reap (j + 1) }
  | finish {j : Nat} : s.producer = .reap j → ¬ j ≤ n →
      ProducerMoves n s { s with producer := .done }

theorem producerMoves_of_step (hs : producerStep n s = some s') : ProducerMoves n s s' := by
  unfold producerStep at hs
  cases hp : s.producer with
  | loop =>
      simp only [hp] at hs
      cases hl : s.items with
      | nil =>
          simp only [hl] at hs
          cases hs
          have hm := ProducerMoves.last (n := n) hp hl
          rwa [hl] at hm
      | cons p items =>
          obtain ⟨item, c⟩ := p
          simp only [hl] at hs
          cases hs
          exact .draw hp hl
  | await item c =>
      simp only [hp] at hs
      split at hs
      · cases hs
        exact .found hp ‹_›
      · cases hs
        exact .polls (.inl ⟨item, c, hp⟩) ‹_›
  | awaitLast =>
      simp only [hp] at hs
      split at hs
      · cases hs
        exact .consumed hp ‹_›
      · cases hs
        exact .polls (.inr hp) ‹_›
  | reap j =>
      simp only [hp] at hs
      split at hs
      · split at hs
        · cases hs
          exact .reap hp ‹_› ‹_›
        · cases hs
      · cases hs
        exact .finish hp ‹_›
  | done => simp [hp] at hs
  | clear =>
      simp only [hp] at hs
      cases hs
      exact .clear hp
  | storeConsumer item c =>
      simp only [hp] at hs
      cases hs
      exact .storeConsumer hp
  | storeItem item c =>
      simp only [hp] at hs
      cases hs
      exact .storeItem hp
  | storeEnd =>
      simp only [hp] at hs
      cases hs
      exact .storeEnd hp

/-- The consumer at another place of its loop. -/
def State.hop (s : State) (i : Nat) (pc : ConsumerPc) : State :=
  s.put i { s.consumer i with pc := pc }

/-- The steps of consumer `i`. -/
inductive ConsumerMoves (s : State) (i : Nat) : State → Prop
  | found : (s.consumer i).pc = .poll → s.m0 = i → ConsumerMoves s i (s.hop i .read)
  | pollsEnd : (s.consumer i).pc = .poll → s.m0 ≠ i → ConsumerMoves s i (s.hop i .pollEnd)
  | polls : (s.consumer i).pc = .pollEnd → s.m0 ≠ -1 → ConsumerMoves s i (s.hop i .poll)
  | exit : (s.consumer i).pc = .pollEnd → s.m0 = -1 → ConsumerMoves s i (s.hop i .exited)
  | read : (s.consumer i).pc = .read →
      ConsumerMoves s i
        (s.put i ⟨.release, (s.consumer i).count + 1, (s.consumer i).sum + s.m1⟩)
  | release : (s.consumer i).pc = .release →
      ConsumerMoves s i ({ s with m0 := 0 }.put i { s.consumer i with pc := .test })
  | test : (s.consumer i).pc = .test → s.m1 ≠ -1 → ConsumerMoves s i (s.hop i .poll)
  | testEnd : (s.consumer i).pc = .test → s.m1 = -1 → ConsumerMoves s i (s.hop i .exited)

theorem consumerMoves_of_step (hs : consumerStep s i = some s') : ConsumerMoves s i s' := by
  unfold consumerStep at hs
  cases hp : (s.consumer i).pc with
  | poll =>
      simp only [hp] at hs
      cases hs
      split
      · exact .found hp ‹_›
      · exact .pollsEnd hp ‹_›
  | pollEnd =>
      simp only [hp] at hs
      cases hs
      split
      · exact .exit hp ‹_›
      · exact .polls hp ‹_›
  | read =>
      simp only [hp] at hs
      cases hs
      exact .read hp
  | release =>
      simp only [hp] at hs
      cases hs
      exact .release hp
  | test =>
      simp only [hp] at hs
      cases hs
      split
      · exact .testEnd hp ‹_›
      · exact .test hp ‹_›
  | exited => simp [hp] at hs

/-! ## What every run keeps -/

/-- The consumers before `i` have exited. -/
def State.ExitedBelow (s : State) (i : Nat) : Prop :=
  ∀ j, 1 ≤ j → j < i → (s.consumer j).pc = .exited

/-- The producer says in `M[0]` that it has finished, and only then; nothing else ends a consumer. -/
def State.Box (n : Nat) (s : State) : Prop :=
  match s.producer with
  | .reap i => s.m0 = -1 ∧ 1 ≤ i ∧ i ≤ n + 1 ∧ s.ExitedBelow i
  | .done => s.m0 = -1 ∧ s.ExitedBelow (n + 1)
  | _ => 0 ≤ s.m0 ∧ s.m0 ≤ n

structure Ending (n : Nat) (s : State) : Prop where
  box : s.Box n
  item : s.m1 ≠ -1
  exited : ∀ i, (s.consumer i).pc = .exited → s.m0 = -1

theorem ending_start (n : Nat) (items : List (Int × Nat)) : Ending n (start items) where
  box := ⟨Int.le_refl 0, Int.natCast_nonneg n⟩
  item := fun h => by cases h
  exited i hi := by cases hi

/-- As long as the producer has not finished, nobody has. -/
theorem Ending.nobody (h : Ending n s) (h0 : 0 ≤ s.m0) (i : Nat) : (s.consumer i).pc ≠ .exited := by
  intro hi
  have := h.exited i hi
  omega

theorem ending_producer (h : Ending n s) (hb : Balanced n s missed) (hm : ProducerMoves n s s') :
    Ending n s' := by
  have hbox := h.box
  have hphase := hb.phase
  unfold State.Box at hbox
  unfold State.Phase at hphase
  cases hm with
  | clear hp =>
      simp only [hp] at hbox
      exact ⟨⟨Int.le_refl 0, Int.natCast_nonneg n⟩, h.item,
        fun i hi => absurd hi (h.nobody hbox.1 i)⟩
  | last hp _ =>
      simp only [hp] at hbox
      exact ⟨hbox, h.item, h.exited⟩
  | draw hp _ =>
      simp only [hp] at hbox
      exact ⟨hbox, h.item, h.exited⟩
  | polls _ _ => exact h
  | found hp _ =>
      simp only [hp] at hbox
      exact ⟨hbox, h.item, h.exited⟩
  | @storeConsumer item c hp =>
      simp only [hp] at hbox hphase
      have hc : c ≤ n := hphase.2.2.2.2
      exact ⟨⟨Int.natCast_nonneg c, Int.ofNat_le.mpr hc⟩, h.item,
        fun i hi => absurd hi (h.nobody hbox.1 i)⟩
  | @storeItem item c hp =>
      simp only [hp] at hbox hphase
      have hitem : 100 ≤ item := hphase.2.1
      refine ⟨hbox, ?_, h.exited⟩
      show item ≠ -1
      omega
  | consumed hp _ =>
      simp only [hp] at hbox
      exact ⟨hbox, h.item, h.exited⟩
  | storeEnd hp =>
      refine ⟨⟨rfl, Nat.le_refl 1, Nat.le_add_left 1 n, fun j h1 hj => ?_⟩, h.item, fun _ _ => rfl⟩
      omega
  | @reap j hp hle hj =>
      simp only [hp] at hbox
      obtain ⟨hm, h1, -, hbelow⟩ := hbox
      refine ⟨⟨hm, Nat.le_succ_of_le h1, Nat.succ_le_succ hle, fun i hi hlt => ?_⟩, h.item, h.exited⟩
      rcases Nat.lt_succ_iff_lt_or_eq.mp hlt with hlt | rfl
      · exact hbelow i hi hlt
      · exact hj
  | @finish j hp hle =>
      simp only [hp] at hbox
      obtain ⟨hm, -, hj, hbelow⟩ := hbox
      exact ⟨⟨hm, fun i hi hlt => hbelow i hi (by omega)⟩, h.item, h.exited⟩

theorem State.put_exited {k : Consumer} {j : Nat} (hk : (s.consumer i).pc = .exited → k.pc = .exited)
    (hj : (s.consumer j).pc = .exited) : ((s.put i k).consumer j).pc = .exited := by
  by_cases hji : j = i
  · subst hji
    rw [State.put_consumer_self]
    exact hk hj
  · rwa [State.put_consumer_ne _ _ hji]

/-- A consumer that does not touch the mailbox. -/
theorem Ending.put (h : Ending n s) {k : Consumer} (hk : k.pc = .exited → s.m0 = -1)
    (hkeep : (s.consumer i).pc ≠ .exited) : Ending n (s.put i k) := by
  have hbelow : ∀ j, s.ExitedBelow j → (s.put i k).ExitedBelow j :=
    fun j hj u h1 hu => State.put_exited (fun hi => absurd hi hkeep) (hj u h1 hu)
  refine ⟨?_, h.item, fun j hj => ?_⟩
  · have hbox := h.box
    unfold State.Box at hbox ⊢
    show match s.producer with
      | .reap i' => s.m0 = -1 ∧ 1 ≤ i' ∧ i' ≤ n + 1 ∧ (s.put i k).ExitedBelow i'
      | .done => s.m0 = -1 ∧ (s.put i k).ExitedBelow (n + 1)
      | _ => 0 ≤ s.m0 ∧ s.m0 ≤ n
    cases hp : s.producer with
    | reap j =>
        simp only [hp] at hbox
        exact ⟨hbox.1, hbox.2.1, hbox.2.2.1, hbelow j hbox.2.2.2⟩
    | done =>
        simp only [hp] at hbox
        exact ⟨hbox.1, hbelow _ hbox.2⟩
    | _ =>
        simp only [hp] at hbox
        exact hbox
  · by_cases hji : j = i
    · subst hji
      rw [State.put_consumer_self] at hj
      exact hk hj
    · rw [State.put_consumer_ne _ _ hji] at hj
      exact h.exited j hj

theorem ending_consumer (h : Ending n s) (hb : Balanced n s missed) (h1 : 1 ≤ i) (hn : i ≤ n)
    (hm : ConsumerMoves s i s') : Ending n s' := by
  have hne : ∀ {pc}, (s.consumer i).pc = pc → pc ≠ .exited → (s.consumer i).pc ≠ .exited :=
    fun he hpc => by rwa [he]
  cases hm with
  | found hp _ => exact h.put (fun hk => by cases hk) (hne hp (by decide))
  | pollsEnd hp _ => exact h.put (fun hk => by cases hk) (hne hp (by decide))
  | polls hp _ => exact h.put (fun hk => by cases hk) (hne hp (by decide))
  | exit hp hend => exact h.put (fun _ => hend) (hne hp (by decide))
  | read hp => exact h.put (fun hk => by cases hk) (hne hp (by decide))
  | release hp =>
      -- the consumer is the one that is named, so the producer has not finished
      have hm0 := hb.taking i h1 hn (.inr hp)
      have hclear : Ending n { s with m0 := 0 } := by
        have hbox := h.box
        refine ⟨?_, h.item, fun j hj => ?_⟩
        · unfold State.Box at hbox ⊢
          cases hp' : s.producer with
          | reap j =>
              simp only [hp'] at hbox
              omega
          | done =>
              simp only [hp'] at hbox
              omega
          | _ => exact ⟨Int.le_refl 0, Int.natCast_nonneg n⟩
        · have := h.exited j hj
          omega
      exact hclear.put (fun hk => by cases hk) (hne hp (by decide))
  | test hp _ => exact h.put (fun hk => by cases hk) (hne hp (by decide))
  | testEnd hp hend => exact absurd hend h.item

/-- The two invariants. -/
def Lively (n : Nat) (s : State) : Prop := Ending n s ∧ ∃ missed, Balanced n s missed

theorem lively_next {a : Party} (h : Lively n s) (hs : (machine n).next s a = some s') :
    Lively n s' := by
  obtain ⟨he, missed, hb⟩ := h
  cases a with
  | producer => exact ⟨ending_producer he hb (producerMoves_of_step hs), missed, producer_balanced hb hs⟩
  | consumer i =>
      simp only [machine] at hs
      split at hs
      · rename_i hi
        exact ⟨ending_consumer he hb hi.1 hi.2 (consumerMoves_of_step hs), _,
          consumer_balanced hb hi.1 hi.2 hs⟩
      · cases hs

/-! ## What is left to do -/

/-- How far a consumer is from clearing the mailbox in which it is named. -/
def ConsumerPc.toRelease : ConsumerPc → Nat
  | .test | .pollEnd => 5
  | .poll => 4
  | .read => 3
  | .release => 2
  | .exited => 0

/-- How far a consumer is from its exit when the mailbox says that the producer has finished. -/
def ConsumerPc.toExit : ConsumerPc → Nat
  | .test => 3
  | .poll => 2
  | .pollEnd => 1
  | .read | .release | .exited => 0

/-- What the others wait for a consumer to do. -/
def State.errand (s : State) : Nat :=
  match s.producer with
  | .reap i => (s.consumer i).pc.toExit
  | .done => 0
  | _ => if s.m0 = 0 then 0 else (s.consumer s.m0.toNat).pc.toRelease

/-- The steps of the producer that are left, polling apart. -/
def State.left (n : Nat) (s : State) : Nat :=
  match s.producer with
  | .clear => n + 5 + 4 * s.items.length
  | .loop => n + 4 + 4 * s.items.length
  | .await _ _ => n + 7 + 4 * s.items.length
  | .storeConsumer _ _ => n + 6 + 4 * s.items.length
  | .storeItem _ _ => n + 5 + 4 * s.items.length
  | .awaitLast => n + 3
  | .storeEnd => n + 2
  | .reap i => n + 2 - i
  | .done => 0

def State.rank (n : Nat) (s : State) : Nat := 6 * s.left n + s.errand

/-- Whose turn makes a difference. -/
def State.helper (n : Nat) (s : State) : Party :=
  match s.producer with
  | .await _ _ | .awaitLast => if s.m0 = 0 then .producer else .consumer s.m0.toNat
  | .reap i => if i ≤ n ∧ (s.consumer i).pc ≠ .exited then .consumer i else .producer
  | _ => .producer

theorem ConsumerPc.toRelease_le (pc : ConsumerPc) : pc.toRelease ≤ 5 := by
  cases pc <;> decide

theorem ConsumerPc.toExit_le (pc : ConsumerPc) : pc.toExit ≤ 5 := by
  cases pc <;> decide

theorem State.errand_le (s : State) : s.errand ≤ 5 := by
  unfold State.errand
  split
  · exact ConsumerPc.toExit_le _
  · exact Nat.zero_le 5
  · split
    · exact Nat.zero_le 5
    · exact ConsumerPc.toRelease_le _

/-- A step of the producer is one step less to do, unless it polls; when it polls, it is not the
helper. -/
theorem producer_rank (he : Ending n s) (hm : ProducerMoves n s s') :
    s'.rank n < s.rank n ∨ s' = s ∧ s.helper n ≠ .producer := by
  have hlt : s'.left n < s.left n → s'.rank n < s.rank n := by
    intro h
    have := s'.errand_le
    unfold State.rank
    omega
  cases hm with
  | clear hp => exact .inl (hlt (by simp [State.left, hp]))
  | last hp _ => exact .inl (hlt (by simp [State.left, hp]; omega))
  | draw hp hl => exact .inl (hlt (by simp [State.left, hp, hl]; omega))
  | polls hp h0 =>
      refine .inr ⟨rfl, ?_⟩
      rcases hp with ⟨item, c, hp⟩ | hp
      · simp [State.helper, hp, h0]
      · simp [State.helper, hp, h0]
  | found hp _ => exact .inl (hlt (by simp [State.left, hp]))
  | storeConsumer hp => exact .inl (hlt (by simp [State.left, hp]))
  | storeItem hp => exact .inl (hlt (by simp [State.left, hp]))
  | consumed hp _ => exact .inl (hlt (by simp [State.left, hp]))
  | storeEnd hp => exact .inl (hlt (by simp [State.left, hp]))
  | reap hp hle _ => exact .inl (hlt (by simp only [State.left, hp]; omega))
  | finish hp _ =>
      have hbox := he.box
      simp only [State.Box, hp] at hbox
      exact .inl (hlt (by simp only [State.left, hp]; omega))

/-- A step of consumer `i` that leaves the mailbox alone: of the errand when `i` is the one that is
waited for, and of no consequence otherwise. -/
theorem put_errand (he : Ending n s) {pc pc' : ConsumerPc} {count sum : Int}
    (hpc : (s.consumer i).pc = pc) (hrelease : s.m0 = i → pc'.toRelease < pc.toRelease)
    (hexit : s.m0 = -1 → pc'.toExit < pc.toExit) :
    (s.put i ⟨pc', count, sum⟩).errand < s.errand
      ∨ (s.put i ⟨pc', count, sum⟩).errand = s.errand
        ∧ (s.put i ⟨pc', count, sum⟩).helper n = s.helper n ∧ Party.consumer i ≠ s.helper n := by
  have hbox := he.box
  unfold State.Box at hbox
  have hprod : (s.put i ⟨pc', count, sum⟩).producer = s.producer := rfl
  cases hp : s.producer with
  | reap j =>
      simp only [hp] at hbox
      simp only [State.errand, State.helper, hprod, hp]
      by_cases hj : j = i
      · subst hj
        rw [State.put_consumer_self, hpc]
        exact .inl (hexit hbox.1)
      · rw [State.put_consumer_ne s _ hj]
        refine .inr ⟨rfl, rfl, ?_⟩
        split
        · intro h
          exact hj (Party.consumer.inj h).symm
        · intro h
          cases h
  | done => exact .inr (by simp [State.errand, State.helper, hprod, hp])
  | _ =>
      simp only [hp] at hbox
      obtain ⟨c, hc⟩ := Int.eq_ofNat_of_zero_le hbox.1
      simp only [State.errand, State.helper, hprod, hp, State.put_m0, hc, Int.toNat_natCast]
      by_cases h0 : c = 0
      · simp [h0]
      · by_cases hci : c = i
        · subst hci
          simp only [State.put_consumer_self, Int.natCast_eq_zero, h0, if_false, hpc]
          exact .inl (hrelease hc)
        · simp [h0, State.put_consumer_ne s _ hci, Ne.symm hci]

/-- When consumer `i` clears the mailbox its errand is over. -/
theorem release_errand (he : Ending n s) (h1 : 1 ≤ i) (hm0 : s.m0 = i)
    (hp : (s.consumer i).pc = .release) (k : Consumer) :
    ({ s with m0 := 0 }.put i k).errand < s.errand := by
  have hbox := he.box
  unfold State.Box at hbox
  have hne : i ≠ 0 := Nat.ne_of_gt h1
  cases hp' : s.producer with
  | reap j =>
      simp only [hp'] at hbox
      omega
  | done =>
      simp only [hp'] at hbox
      omega
  | _ => simp [State.errand, State.put, hp', hm0, hne, hp, ConsumerPc.toRelease]

theorem consumer_errand (he : Ending n s) (hb : Balanced n s missed) (h1 : 1 ≤ i) (hn : i ≤ n)
    (hm : ConsumerMoves s i s') :
    s'.errand < s.errand
      ∨ s'.errand = s.errand ∧ s'.helper n = s.helper n ∧ Party.consumer i ≠ s.helper n := by
  cases hm with
  | found hp h0 => exact put_errand he hp (fun _ => by decide) (fun h => by omega)
  | pollsEnd hp h0 => exact put_errand he hp (fun h => absurd h h0) (fun _ => by decide)
  | polls hp h0 => exact put_errand he hp (fun _ => by decide) (fun h => absurd h h0)
  | exit hp h0 => exact put_errand he hp (fun h => by omega) (fun _ => by decide)
  | read hp =>
      have hm0 := hb.taking i h1 hn (.inl hp)
      exact put_errand he hp (fun _ => by decide) (fun h => by omega)
  | release hp => exact .inl (release_errand he h1 (hb.taking i h1 hn (.inr hp)) hp _)
  | test hp _ => exact put_errand he hp (fun _ => by decide) (fun _ => by decide)
  | testEnd _ hend => exact absurd hend he.item

theorem consumerStep_isSome (h : (s.consumer i).pc ≠ .exited) : consumerStep s i ≠ none := by
  unfold consumerStep
  cases hp : (s.consumer i).pc with
  | exited => exact absurd hp h
  | _ => simp [hp]

theorem ConsumerMoves.left (hm : ConsumerMoves s i s') : s'.left n = s.left n := by
  cases hm <;> rfl

/-- Every step brings the end nearer, or it is a step of somebody else than the helper and leaves
everything that counts as it is. -/
theorem rank_step {a : Party} (h : Lively n s) (hs : (machine n).next s a = some s') :
    s'.rank n < s.rank n
      ∨ s'.rank n = s.rank n ∧ s'.helper n = s.helper n ∧ a ≠ s.helper n := by
  obtain ⟨he, missed, hb⟩ := h
  cases a with
  | producer =>
      rcases producer_rank he (producerMoves_of_step hs) with hlt | ⟨rfl, hne⟩
      · exact .inl hlt
      · exact .inr ⟨rfl, rfl, hne.symm⟩
  | consumer i =>
      simp only [machine] at hs
      split at hs
      · rename_i hi
        have hm := consumerMoves_of_step hs
        unfold State.rank
        rw [hm.left]
        rcases consumer_errand he hb hi.1 hi.2 hm with hlt | ⟨heq, hhelper, hne⟩
        · exact .inl (Nat.add_lt_add_left hlt _)
        · exact .inr ⟨by rw [heq], hhelper, hne⟩
      · cases hs

/-- While the producer waits for the mailbox, it can go on when that is clear, and otherwise the
consumer that is named can. -/
theorem helper_of_waits (he : Ending n s) (hbox : 0 ≤ s.m0 ∧ s.m0 ≤ n)
    (hhelper : s.helper n = if s.m0 = 0 then .producer else .consumer s.m0.toNat)
    (hclear : s.m0 = 0 → (machine n).next s .producer ≠ none) :
    (machine n).next s (s.helper n) ≠ none := by
  rw [hhelper]
  split
  · exact hclear ‹_›
  · rename_i h0
    have hc : 1 ≤ s.m0.toNat ∧ s.m0.toNat ≤ n := by omega
    have := consumerStep_isSome (he.nobody hbox.1 s.m0.toNat)
    simpa only [machine, if_pos hc] using this

/-- The helper can move. -/
theorem helper_moves (h : Lively n s) (hf : ¬ Finished n s) :
    (machine n).next s (s.helper n) ≠ none := by
  obtain ⟨he, missed, hb⟩ := h
  have hbox := he.box
  unfold State.Box at hbox
  cases hp : s.producer with
  | reap j =>
      simp only [hp] at hbox
      simp only [State.helper, hp]
      split
      · rename_i hj
        have := consumerStep_isSome hj.2
        simpa [machine, hbox.2.1, hj.1] using this
      · rename_i hj
        by_cases hle : j ≤ n
        · have hex : (s.consumer j).pc = .exited := by
            by_contra hne
            exact hj ⟨hle, hne⟩
          simp [machine, producerStep, hp, hle, hex]
        · simp [machine, producerStep, hp, hle]
  | done =>
      simp only [hp] at hbox
      exact absurd ⟨hp, fun i h1 hi => hbox.2 i h1 (by omega)⟩ hf
  | await item c =>
      simp only [hp] at hbox
      exact helper_of_waits he hbox (by simp [State.helper, hp])
        fun h0 => by simp [machine, producerStep, hp, h0]
  | awaitLast =>
      simp only [hp] at hbox
      exact helper_of_waits he hbox (by simp [State.helper, hp])
        fun h0 => by simp [machine, producerStep, hp, h0]
  | loop => cases hl : s.items <;> simp [machine, producerStep, State.helper, hp, hl]
  | _ => simp [machine, producerStep, State.helper, hp]

/-! ## Nothing is lost -/

/-- The items that the producer has still to put into the mailbox. -/
def State.still (s : State) : List (Int × Nat) :=
  match s.producer with
  | .clear | .loop => s.items
  | .await item c | .storeConsumer item c | .storeItem item c => (item, c) :: s.items
  | .awaitLast | .storeEnd | .reap _ | .done => []

/-- The items for consumer `c`. -/
def itemsFor (c : Nat) (items : List (Int × Nat)) : List Int :=
  (items.filter fun p => p.2 = c).map Prod.fst

theorem itemsFor_cons_self (item : Int) (c : Nat) (items : List (Int × Nat)) :
    itemsFor c ((item, c) :: items) = item :: itemsFor c items := by simp [itemsFor]

theorem itemsFor_cons_ne (item : Int) {c d : Nat} (items : List (Int × Nat)) (h : d ≠ c) :
    itemsFor c ((item, d) :: items) = itemsFor c items := by simp [itemsFor, h]

/-- The producer's accounts and the items still to come make up all the items. -/
def Accounts (items : List (Int × Nat)) (s : State) : Prop :=
  ∀ c, s.numItems c + (itemsFor c s.still).length = (itemsFor c items).length
    ∧ s.sumItems c + (itemsFor c s.still).sum = (itemsFor c items).sum

theorem Accounts.same {items : List (Int × Nat)} (h : Accounts items s)
    (hnum : s'.numItems = s.numItems) (hsum : s'.sumItems = s.sumItems) (hstill : s'.still = s.still) :
    Accounts items s' := by
  intro c
  rw [hnum, hsum, hstill]
  exact h c

theorem accounts_producer {items : List (Int × Nat)} (h : Accounts items s)
    (hm : ProducerMoves n s s') : Accounts items s' := by
  cases hm with
  | clear hp => exact h.same rfl rfl (by simp only [State.still, hp])
  | last hp hl => exact h.same rfl rfl (by simp only [State.still, hp, hl])
  | draw hp hl => exact h.same rfl rfl (by simp only [State.still, hp, hl])
  | polls _ _ => exact h
  | found hp _ => exact h.same rfl rfl (by simp only [State.still, hp])
  | storeConsumer hp => exact h.same rfl rfl (by simp only [State.still, hp])
  | @storeItem item d hp =>
      -- the item goes from those still to come into the account of its consumer
      intro c
      have hc := h c
      simp only [State.still, hp] at hc ⊢
      by_cases hd : d = c
      · subst hd
        rw [itemsFor_cons_self, List.length_cons, List.sum_cons] at hc
        simp only [Function.update_self]
        omega
      · rw [itemsFor_cons_ne _ _ hd] at hc
        simpa only [Function.update_of_ne (Ne.symm hd)] using hc
  | consumed hp _ => exact h.same rfl rfl (by simp only [State.still, hp])
  | storeEnd hp => exact h.same rfl rfl (by simp only [State.still, hp])
  | reap hp _ _ => exact h.same rfl rfl (by simp only [State.still, hp])
  | finish hp _ => exact h.same rfl rfl (by simp only [State.still, hp])

theorem ConsumerMoves.accounts {items : List (Int × Nat)} (hm : ConsumerMoves s i s')
    (h : Accounts items s) : Accounts items s' := by
  cases hm <;> exact h

theorem accounts_next {items : List (Int × Nat)} {a : Party} (h : Accounts items s)
    (hs : (machine n).next s a = some s') : Accounts items s' := by
  cases a with
  | producer => exact accounts_producer h (producerMoves_of_step hs)
  | consumer i =>
      simp only [machine] at hs
      split at hs
      · exact (consumerMoves_of_step hs).accounts h
      · cases hs

/-! ## Every fair run finishes -/

theorem lively_start {items : List (Int × Nat)} (h : ∀ p ∈ items, Drawn n p) :
    Lively n (start items) :=
  ⟨ending_start n items, fun _ => 0, balanced_start h⟩

/-- **Every fair run finishes.** When producer and consumers get their turns again and again, all of
them finish, whatever the order of the turns; then every consumer has counted the items that were
drawn for it, and the producer has added them up. -/
theorem fair_run_finishes {items : List (Int × Nat)} {run : Nat → State} {turn : Nat → Party}
    (hitems : ∀ p ∈ items, Drawn n p) (hstart : run 0 = start items)
    (hr : (machine n).FairRun run turn) :
    ∃ j, Finished n (run j) ∧ ∀ c, 1 ≤ c → c ≤ n →
      ((run j).consumer c).count = (itemsFor c items).length
        ∧ (run j).sumItems c = (itemsFor c items).sum := by
  have hlively : Lively n (run 0) := hstart ▸ lively_start hitems
  have haccounts : Accounts items (run 0) := hstart ▸ fun c => by simp [start, State.still]
  have hinv : ∀ s a s', Lively n s → (machine n).next s a = some s' → Lively n s' :=
    fun _ _ _ h hs => lively_next h hs
  have hend : ∃ j, 0 ≤ j ∧ Finished n (run j) := hr.reaches hinv
    (fun _ h hf => helper_moves h hf) (fun _ _ _ h _ hs => rank_step h hs) hlively
  obtain ⟨j, hj, hf⟩ := hend
  obtain ⟨-, missed, hb⟩ := hr.keeps hinv hj hlively
  have hacc : Accounts items (run j) := hr.keeps (fun _ _ _ h hs => accounts_next h hs) hj haccounts
  refine ⟨j, hf, fun c h1 hn => ?_⟩
  have hcount := (hb.finished hf h1 hn).1
  have hc := hacc c
  simp only [State.still, hf.1, itemsFor, List.filter_nil, List.map_nil, List.length_nil,
    List.sum_nil] at hc
  constructor
  · simpa [itemsFor, hcount] using hc.1
  · simpa [itemsFor] using hc.2

/-- The producer and the consumers, one after the other. -/
def party : Nat → Party
  | 0 => .producer
  | i + 1 => .consumer i

theorem party_surjective : Function.Surjective party
  | .producer => ⟨0, rfl⟩
  | .consumer i => ⟨i + 1, rfl⟩

/-- Two items for two consumers. -/
theorem fair_run_finishes_two : ∃ run : Nat → State, run 0 = start [(100, 2), (200, 1)]
    ∧ ∃ j, Finished 2 (run j) ∧ ∀ c, 1 ≤ c → c ≤ 2 →
      ((run j).consumer c).count = (itemsFor c [(100, 2), (200, 1)]).length
        ∧ (run j).sumItems c = (itemsFor c [(100, 2), (200, 1)]).sum := by
  obtain ⟨run, turn, hstart, hr⟩ :=
    Machine.exists_fairRun (machine 2) (start [(100, 2), (200, 1)]) party_surjective
  exact ⟨run, hstart, fair_run_finishes (by simp [Drawn]) hstart hr⟩

end OSLab.Prodcons
