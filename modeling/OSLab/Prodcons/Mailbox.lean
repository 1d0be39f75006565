import OSLab.Lib.Machine
import Mathlib.Tactic.Common

set_option autoImplicit false

/-! # The mailbox of `Assignment_04/prodcons.c`

One producer and `n` consumers share the two cells `M[0]` and `M[1]` and nothing else. The
producer names a consumer in `M[0]` and puts the item in `M[1]`, in that order; the consumers
poll `M[0]`. The model starts when all consumers are forked and the segment is zero; a consumer
that is forked late is one that has not moved yet.

A step is one read or one write of a cell, with the local assignments that go with it, or one
`waitpid`. The sums are exact integers. What is added is below `999`, so those of the program are exact
too, for two million items.
-/

namespace OSLab.Prodcons

/-- Where a consumer is in its loop. -/
inductive ConsumerPc
  /-- `if (ptrs[i][0] == i)`. -/
  | poll
  /-- `else if (ptrs[i][0] == -1)`. -/
  | pollEnd
  /-- `sum += ptrs[i][1]; count++`. -/
  | read
  /-- `ptrs[i][0] = 0`. -/
  | release
  /-- `if (ptrs[i][1] == -1)`. -/
  | test
  | exited
  deriving DecidableEq, Repr

structure Consumer where
  pc : ConsumerPc
  count : Int
  sum : Int
  deriving DecidableEq, Repr

/-- Where the producer is. `item` and `c` are the locals of its loop body. -/
inductive ProducerPc
  /-- `ptrs[0][0] = 0`. -/
  | clear
  /-- The test of the loop, and the choice of `item` and `c`. -/
  | loop
  /-- `while (ptrs[0][0] != 0) {}`. -/
  | await (item : Int) (c : Nat)
  /-- `ptrs[0][0] = c`. -/
  | storeConsumer (item : Int) (c : Nat)
  /-- `ptrs[0][1] = item; num_items[c]++; sum_items[c] += item`. -/
  | storeItem (item : Int) (c : Nat)
  /-- The wait for the last item to be consumed. -/
  | awaitLast
  /-- `ptrs[0][0] = -1`. -/
  | storeEnd
  /-- `waitpid(pid[i], NULL, 0)`. -/
  | reap (i : Nat)
  | done
  deriving DecidableEq, Repr

/-- The cells, the producer with the items it has still to draw, and the consumers. -/
structure State where
  m0 : Int
  m1 : Int
  producer : ProducerPc
  items : List (Int × Nat)
  numItems : Nat → Int
  sumItems : Nat → Int
  consumer : Nat → Consumer

/-- The state in which the producer starts to draw `items`. -/
def start (items : List (Int × Nat)) : State where
  m0 := 0
  m1 := 0
  producer := .clear
  items := items
  numItems := fun _ => 0
  sumItems := fun _ => 0
  consumer := fun _ => ⟨.poll, 0, 0⟩

/-- One step of the producer. -/
def producerStep (n : Nat) (s : State) : Option State :=
  match s.producer with
  | .clear => some { s with m0 := 0, producer := .loop }
  | .loop =>
      match s.items with
      | [] => some { s with producer := .awaitLast }
      | (item, c) :: items => some { s with producer := .await item c, items := items }
  | .await item c =>
      if s.m0 = 0 then some { s with producer := .storeConsumer item c } else some s
  | .storeConsumer item c => some { s with m0 := c, producer := .storeItem item c }
  | .storeItem item c =>
      some { s with
        m1 := item
        numItems := Function.update s.numItems c (s.numItems c + 1)
        sumItems := Function.update s.sumItems c (s.sumItems c + item)
        producer := .loop }
  | .awaitLast => if s.m0 = 0 then some { s with producer := .storeEnd } else some s
  | .storeEnd => some { s with m0 := -1, producer := .reap 1 }
  | .reap i =>
      if i ≤ n then
        if (s.consumer i).pc = .exited then some { s with producer := .reap (i + 1) } else none
      else some { s with producer := .done }
  | .done => none

/-- Consumer `i` with `k` in place of its locals. -/
def State.put (s : State) (i : Nat) (k : Consumer) : State :=
  { s with consumer := Function.update s.consumer i k }

@[simp] theorem State.put_numItems (s : State) (i : Nat) (k : Consumer) :
    (s.put i k).numItems = s.numItems := rfl
@[simp] theorem State.put_sumItems (s : State) (i : Nat) (k : Consumer) :
    (s.put i k).sumItems = s.sumItems := rfl
@[simp] theorem State.put_m0 (s : State) (i : Nat) (k : Consumer) : (s.put i k).m0 = s.m0 := rfl
@[simp] theorem State.put_m1 (s : State) (i : Nat) (k : Consumer) : (s.put i k).m1 = s.m1 := rfl
@[simp] theorem State.put_consumer_self (s : State) (i : Nat) (k : Consumer) :
    (s.put i k).consumer i = k := by simp [State.put]

theorem State.put_consumer_ne (s : State) {i j : Nat} (k : Consumer) (h : j ≠ i) :
    (s.put i k).consumer j = s.consumer j := by simp [State.put, h]

/-- One step of consumer `i`. -/
def consumerStep (s : State) (i : Nat) : Option State :=
  let k := s.consumer i
  match k.pc with
  | .poll => some (s.put i { k with pc := if s.m0 = i then .read else .pollEnd })
  | .pollEnd => some (s.put i { k with pc := if s.m0 = -1 then .exited else .poll })
  | .read => some (s.put i ⟨.release, k.count + 1, k.sum + s.m1⟩)
  | .release => some ({ s with m0 := 0 }.put i { k with pc := .test })
  | .test => some (s.put i { k with pc := if s.m1 = -1 then .exited else .poll })
  | .exited => none

/-- Who moves. -/
inductive Party
  | producer
  | consumer (i : Nat)
  deriving DecidableEq, Repr

/-- What the producer may draw: an item in `100..998` for a consumer in `1..n`. -/
def Drawn (n : Nat) (p : Int × Nat) : Prop :=
  100 ≤ p.1 ∧ p.1 ≤ 998 ∧ 1 ≤ p.2 ∧ p.2 ≤ n

/-- The producer and the consumers `1..n`, for any sequence of items. -/
def machine (n : Nat) : Machine State Party where
  init s := ∃ items, (∀ p ∈ items, Drawn n p) ∧ s = start items
  next s
    | .producer => producerStep n s
    | .consumer i => if 1 ≤ i ∧ i ≤ n then consumerStep s i else none

/-- All processes have finished. -/
def Finished (n : Nat) (s : State) : Prop :=
  s.producer = .done ∧ ∀ i, 1 ≤ i → i ≤ n → (s.consumer i).pc = .exited

/-! ## Early reads -/

/-- The item that the producer has announced for a consumer and not yet stored. -/
def State.announced (s : State) : Option Int :=
  match s.producer with
  | .storeItem item _ => some item
  | _ => none

/-- No consumer reads `M[1]` for its sum between the producer's two stores. -/
def NoEarlyRead (s : State) : Party → Prop
  | .producer => True
  | .consumer i => (s.consumer i).pc = .read → s.announced = none

/-- What the reads of `M[1]` before the store of the item have left out of each sum. -/
def record (s : State) (p : Party) (missed : Nat → Int) : Nat → Int :=
  match p with
  | .producer => missed
  | .consumer i =>
      match (s.consumer i).pc, s.announced with
      | .read, some item => Function.update missed i (missed i + (item - s.m1))
      | _, _ => missed

/-- The machine with a record of what the early reads have left out. -/
def tracked (n : Nat) : Machine (State × (Nat → Int)) Party :=
  (machine n).withHistory (fun _ => 0) record

/-! ## The invariant -/

/-- The item on its way to consumer `i`: `i` is named and the item is not stored yet. -/
def State.underway (s : State) (i : Nat) : Option Int :=
  match s.producer with
  | .storeItem item c => if c = i then some item else none
  | _ => none

@[simp] theorem State.underway_put (s : State) (m0 : Int) (i j : Nat) (k : Consumer) :
    ({ s with m0 := m0 }.put i k).underway j = s.underway j := rfl

/-- Consumer `i` is named in `M[0]` and has not read the item yet. -/
def State.named (s : State) (i : Nat) : Bool :=
  decide (s.m0 = i ∧ (s.consumer i).pc ≠ .release)

/-- What the producer's place says about `M[0]` and about its locals. -/
def State.Phase (n : Nat) (s : State) : Prop :=
  match s.producer with
  | .clear | .storeEnd => s.m0 = 0
  | .loop | .awaitLast => True
  | .await item c => Drawn n (item, c)
  | .storeConsumer item c => s.m0 = 0 ∧ Drawn n (item, c)
  | .storeItem item c => (s.m0 = 0 ∨ s.m0 = c) ∧ Drawn n (item, c)
  | .reap _ | .done => s.m0 = -1

/-- The accounts of the producer and of each consumer agree up to the item in the mailbox, the
item underway, and what the early reads have left out. -/
structure Balanced (n : Nat) (s : State) (missed : Nat → Int) : Prop where
  items : ∀ p ∈ s.items, Drawn n p
  phase : s.Phase n
  taking : ∀ i, 1 ≤ i → i ≤ n → (s.consumer i).pc = .read ∨ (s.consumer i).pc = .release →
    s.m0 = i
  count : ∀ i, 1 ≤ i → i ≤ n →
    s.numItems i + (if (s.underway i).isSome then 1 else 0)
      = (s.consumer i).count + (if s.named i then 1 else 0)
  sum : ∀ i, 1 ≤ i → i ≤ n →
    s.sumItems i + (s.underway i).getD 0
      = (s.consumer i).sum + missed i + (if s.named i then (s.underway i).getD s.m1 else 0)

variable {n i : Nat} {s s' : State} {missed : Nat → Int}

theorem balanced_start {items : List (Int × Nat)} (h : ∀ p ∈ items, Drawn n p) :
    Balanced n (start items) (fun _ => 0) where
  items := h
  phase := rfl
  taking i _ _ hi := by simp [start] at hi
  count i hi _ := by
    have : ¬ (0 : Int) = i := by omega
    simp [start, State.underway, State.named, this]
  sum i hi _ := by
    have : ¬ (0 : Int) = i := by omega
    simp [start, State.underway, State.named, this]

/-- A step of the producer that touches no cell, with nothing underway. -/
theorem Balanced.goto (h : Balanced n s missed) (pc : ProducerPc) {items : List (Int × Nat)}
    (hi : ∀ p ∈ items, Drawn n p) (hu : ∀ i, s.underway i = none)
    (hu' : ∀ i, { s with producer := pc, items := items }.underway i = none)
    (hp : { s with producer := pc, items := items }.Phase n) :
    Balanced n { s with producer := pc, items := items } missed where
  items := hi
  phase := hp
  taking := h.taking
  count i h1 hn := by
    have hc := h.count i h1 hn
    rw [hu] at hc
    rw [hu']
    exact hc
  sum i h1 hn := by
    have hc := h.sum i h1 hn
    rw [hu] at hc
    rw [hu']
    exact hc

/-- A cell that names nobody. -/
theorem not_named {k : Int} (hk : s.m0 = k) (h0 : k ≤ 0) (h1 : 1 ≤ i) :
    s.named i = false := by
  have hm : s.m0 ≠ i := by omega
  simp [State.named, hm]

/-- With nobody named, nobody is taking an item. -/
theorem Balanced.idle (h : Balanced n s missed) (h0 : s.m0 ≤ 0) (h1 : 1 ≤ i) (hn : i ≤ n) :
    ¬ ((s.consumer i).pc = .read ∨ (s.consumer i).pc = .release) := by
  intro ht
  have := h.taking i h1 hn ht
  omega

/-- The producer names a consumer. Nobody is named before, so the item underway is all it adds. -/
theorem Balanced.storeConsumer (h : Balanced n s missed) {item : Int} {c : Nat}
    (hp : s.producer = .storeConsumer item c) :
    Balanced n { s with m0 := c, producer := .storeItem item c } missed := by
  have hphase := h.phase
  simp only [State.Phase, hp] at hphase
  obtain ⟨h0, hd⟩ := hphase
  have hnamed : ∀ i, 1 ≤ i → i ≤ n →
      { s with m0 := c, producer := .storeItem item c }.named i = decide (c = i) := by
    intro i h1 hn
    have hr : (s.consumer i).pc ≠ .release := fun hr => h.idle (Int.le_of_eq h0) h1 hn (Or.inr hr)
    simp only [State.named, ne_eq, hr, not_false_eq_true, and_true, decide_eq_decide]
    omega
  refine ⟨h.items, ⟨Or.inr rfl, hd⟩, fun i h1 hn ht => (h.idle (Int.le_of_eq h0) h1 hn ht).elim,
    ?_, ?_⟩
  · intro i h1 hn
    have hc := h.count i h1 hn
    rw [not_named h0 (Int.le_refl 0) h1] at hc
    rw [hnamed i h1 hn]
    by_cases hi : c = i
    · simpa [State.underway, hp, hi] using hc
    · simpa [State.underway, hp, hi] using hc
  · intro i h1 hn
    have hc := h.sum i h1 hn
    rw [not_named h0 (Int.le_refl 0) h1] at hc
    rw [hnamed i h1 hn]
    by_cases hi : c = i
    · simpa [State.underway, hp, hi] using hc
    · simpa [State.underway, hp, hi] using hc

/-- The producer stores the item and adds it to its own account of the consumer. -/
theorem Balanced.storeItem (h : Balanced n s missed) {item : Int} {c : Nat}
    (hp : s.producer = .storeItem item c) :
    Balanced n { s with
      m1 := item
      numItems := Function.update s.numItems c (s.numItems c + 1)
      sumItems := Function.update s.sumItems c (s.sumItems c + item)
      producer := .loop } missed := by
  have hphase := h.phase
  simp only [State.Phase, hp] at hphase
  obtain ⟨h0, hd⟩ := hphase
  refine ⟨h.items, trivial, h.taking, ?_, ?_⟩
  · intro i h1 hn
    have hc := h.count i h1 hn
    simp only [State.underway, hp, State.named] at hc ⊢
    by_cases hi : c = i
    · subst hi
      simpa using hc
    · simpa [hi, Ne.symm hi] using hc
  · intro i h1 hn
    have hc := h.sum i h1 hn
    simp only [State.underway, hp, State.named] at hc ⊢
    by_cases hi : c = i
    · subst hi
      simpa using hc
    · have hm : ¬ s.m0 = i := by omega
      simpa [hi, Ne.symm hi, hm] using hc

/-- The end mark names nobody. -/
theorem Balanced.storeEnd (h : Balanced n s missed) (hp : s.producer = .storeEnd) :
    Balanced n { s with m0 := -1, producer := .reap 1 } missed := by
  have h0 := h.phase
  simp only [State.Phase, hp] at h0
  refine ⟨h.items, rfl, fun i h1 hn ht => (h.idle (Int.le_of_eq h0) h1 hn ht).elim, ?_, ?_⟩
  · intro i h1 hn
    have hc := h.count i h1 hn
    rw [not_named h0 (Int.le_refl 0) h1] at hc
    rw [not_named (k := -1) rfl (by decide) h1]
    simpa [State.underway, hp] using hc
  · intro i h1 hn
    have hc := h.sum i h1 hn
    rw [not_named h0 (Int.le_refl 0) h1] at hc
    rw [not_named (k := -1) rfl (by decide) h1]
    simpa [State.underway, hp] using hc

theorem producer_balanced (h : Balanced n s missed) (hs : producerStep n s = some s') :
    Balanced n s' missed := by
  have hphase := h.phase
  unfold State.Phase at hphase
  unfold producerStep at hs
  cases hp : s.producer with
  | clear =>
      simp only [hp] at hs hphase
      cases hs
      rw [← hphase]
      exact h.goto .loop h.items (fun i => by simp [State.underway, hp]) (fun i => rfl) trivial
  | loop =>
      simp only [hp] at hs
      cases hl : s.items with
      | nil =>
          simp only [hl] at hs
          cases hs
          exact h.goto .awaitLast (fun p hp => by cases hp) (fun i => by simp [State.underway, hp])
            (fun i => rfl) trivial
      | cons p items =>
          obtain ⟨item, c⟩ := p
          simp only [hl] at hs
          cases hs
          have hd := h.items
          rw [hl] at hd
          exact h.goto (.await item c) (fun p hp => hd p (List.mem_cons_of_mem _ hp))
            (fun i => by simp [State.underway, hp]) (fun i => rfl) (hd _ List.mem_cons_self)
  | await item c =>
      simp only [hp] at hs hphase
      split at hs
      · rename_i h0
        cases hs
        exact h.goto (.storeConsumer item c) h.items (fun i => by simp [State.underway, hp])
          (fun i => rfl) ⟨h0, hphase⟩
      · exact Option.some.inj hs ▸ h
  | storeConsumer item c =>
      simp only [hp] at hs
      cases hs
      exact h.storeConsumer hp
  | storeItem item c =>
      simp only [hp] at hs
      cases hs
      exact h.storeItem hp
  | awaitLast =>
      simp only [hp] at hs
      split at hs
      · rename_i h0
        cases hs
        exact h.goto .storeEnd h.items (fun i => by simp [State.underway, hp]) (fun i => rfl) h0
      · exact Option.some.inj hs ▸ h
  | storeEnd =>
      simp only [hp] at hs
      cases hs
      exact h.storeEnd hp
  | reap j =>
      simp only [hp] at hs hphase
      split at hs
      · split at hs
        · cases hs
          exact h.goto (.reap (j + 1)) h.items (fun i => by simp [State.underway, hp])
            (fun i => rfl) hphase
        · cases hs
      · cases hs
        exact h.goto .done h.items (fun i => by simp [State.underway, hp]) (fun i => rfl) hphase
  | done => simp [hp] at hs

/-- A step of consumer `i`, which may also clear `M[0]` when `i` is named there: only the account
of `i` has to be looked at. -/
theorem Balanced.put (h : Balanced n s missed) {k : Consumer} {m0 : Int} {missed' : Nat → Int}
    (hm : m0 = s.m0 ∨ m0 = 0 ∧ s.m0 = i) (hi : 1 ≤ i)
    (hmissed : ∀ j, j ≠ i → missed' j = missed j)
    (htaking : k.pc = .read ∨ k.pc = .release → m0 = i)
    (hcount : k.count + (if ({ s with m0 := m0 }.put i k).named i then 1 else 0)
      = (s.consumer i).count + (if s.named i then 1 else 0))
    (hsum : k.sum + missed' i
        + (if ({ s with m0 := m0 }.put i k).named i then (s.underway i).getD s.m1 else 0)
      = (s.consumer i).sum + missed i + (if s.named i then (s.underway i).getD s.m1 else 0)) :
    Balanced n ({ s with m0 := m0 }.put i k) missed' := by
  have hother : ∀ j, 1 ≤ j → j ≠ i → (m0 = j ↔ s.m0 = j) := by
    intro j hj hji
    omega
  have hnamed : ∀ j, 1 ≤ j → j ≠ i → ({ s with m0 := m0 }.put i k).named j = s.named j := by
    intro j hj hji
    simp [State.named, State.put_consumer_ne _ _ hji, hother j hj hji]
  refine ⟨h.items, ?_, ?_, ?_, ?_⟩
  · have hp := h.phase
    show State.Phase n { s with m0 := m0 }
    rcases hm with rfl | ⟨rfl, hm⟩
    · exact hp
    · -- `M[0]` names a consumer, so the producer is not about to store a name there
      unfold State.Phase at hp ⊢
      cases hpc : s.producer <;> simp only [hpc] at hp ⊢
      case await item c => exact hp
      case storeConsumer item c => exact ⟨trivial, hp.2⟩
      case storeItem item c => exact ⟨Or.inl trivial, hp.2⟩
      case reap => omega
      case done => omega
  · intro j hj hn ht
    by_cases hji : j = i
    · subst hji
      rw [State.put_consumer_self] at ht
      exact htaking ht
    · rw [State.put_consumer_ne _ _ hji] at ht
      exact (hother j hj hji).mpr (h.taking j hj hn ht)
  · intro j hj hn
    have hc := h.count j hj hn
    by_cases hji : j = i
    · subst hji
      rw [← hcount] at hc
      rwa [State.put_consumer_self]
    · rw [hnamed j hj hji, State.put_consumer_ne _ _ hji]
      exact hc
  · intro j hj hn
    have hc := h.sum j hj hn
    by_cases hji : j = i
    · subst hji
      rw [← hsum] at hc
      rwa [State.put_consumer_self]
    · rw [hnamed j hj hji, hmissed j hji, State.put_consumer_ne _ _ hji]
      exact hc

/-- A step of consumer `i` that only moves on. -/
theorem Balanced.hop (h : Balanced n s missed) (hi : 1 ≤ i) (pc : ConsumerPc)
    (ht : pc = .read ∨ pc = .release → s.m0 = i) (hpc : pc ≠ .release)
    (hr : (s.consumer i).pc ≠ .release) :
    Balanced n (s.put i { s.consumer i with pc := pc }) missed :=
  h.put (Or.inl rfl) hi (fun _ _ => rfl) ht (by simp [State.named, hpc, hr])
    (by simp [State.named, hpc, hr])

/-- What consumer `i` reads for its sum, and what its early read leaves out, add up to the item
that is meant for it. -/
theorem Balanced.read_sum (h : Balanced n s missed) (hi : 1 ≤ i) (hn : i ≤ n)
    (hpc : (s.consumer i).pc = .read) :
    s.m1 + record s (.consumer i) missed i = missed i + (s.underway i).getD s.m1 := by
  have hm := h.taking i hi hn (Or.inl hpc)
  have hp := h.phase
  unfold State.Phase at hp
  simp only [record, State.announced, State.underway, hpc]
  cases hpr : s.producer <;> simp only [hpr] at hp ⊢
  case storeItem item c =>
    have hc : c = i := by omega
    rw [if_pos hc, Function.update_self, Option.getD_some]
    omega
  all_goals
    rw [Option.getD_none]
    exact Int.add_comm _ _

theorem record_of_ne {j : Nat} (hj : j ≠ i) : record s (.consumer i) missed j = missed j := by
  cases hpc : (s.consumer i).pc <;> cases ha : s.announced <;> simp [record, hpc, ha, hj]

theorem record_of_not_read (h : (s.consumer i).pc ≠ .read) :
    record s (.consumer i) missed = missed := by
  unfold record
  cases hpc : (s.consumer i).pc <;> simp_all

theorem consumer_balanced (h : Balanced n s missed) (hi : 1 ≤ i) (hn : i ≤ n)
    (hs : consumerStep s i = some s') : Balanced n s' (record s (.consumer i) missed) := by
  unfold consumerStep at hs
  cases hpc : (s.consumer i).pc <;> simp only [hpc, Option.some.injEq, reduceCtorEq] at hs
  case poll =>
    rw [record_of_not_read (by simp [hpc]), ← hs]
    refine h.hop hi _ ?_ ?_ (by simp [hpc])
    · intro ht
      by_contra hne
      simp [hne] at ht
    · split <;> simp
  case pollEnd =>
    rw [record_of_not_read (by simp [hpc]), ← hs]
    refine h.hop hi _ ?_ ?_ (by simp [hpc])
    · intro ht
      split at ht <;> simp at ht
    · split <;> simp
  case read =>
    have hm := h.taking i hi hn (Or.inl hpc)
    have hread := h.read_sum hi hn hpc
    have hnamed : s.named i = true := by simp [State.named, hm, hpc]
    rw [← hs]
    refine h.put (Or.inl rfl) hi (fun j hj => record_of_ne hj) (fun _ => hm) ?_ ?_
    · simp [State.named, hm, hpc]
    · have hafter : ({ s with m0 := s.m0 }.put i
          ⟨.release, (s.consumer i).count + 1, (s.consumer i).sum + s.m1⟩).named i = false := by
        simp [State.named]
      rw [hafter, hnamed]
      simp only [if_true, Bool.false_eq_true, if_false]
      omega
  case release =>
    have hm := h.taking i hi hn (Or.inr hpc)
    have hne : ¬ (0 : Int) = i := by omega
    rw [record_of_not_read (by simp [hpc]), ← hs]
    refine h.put (Or.inr ⟨rfl, hm⟩) hi (fun _ _ => rfl) (by simp) ?_ ?_
    · simp [State.named, hpc, hne]
    · simp [State.named, hpc, hne]
  case test =>
    rw [record_of_not_read (by simp [hpc]), ← hs]
    refine h.hop hi _ ?_ ?_ (by simp [hpc])
    · intro ht
      split at ht <;> simp at ht
    · split <;> simp

/-- **The accounts balance** in every state of every run. -/
theorem balanced {t : State × (Nat → Int)} (h : (tracked n).Reachable t) :
    Balanced n t.1 t.2 := by
  refine h.invariant (I := fun t => Balanced n t.1 t.2) ?_ ?_
  · rintro ⟨s, missed⟩ ⟨⟨items, hd, rfl⟩, rfl⟩
    exact balanced_start hd
  · rintro ⟨s, missed⟩ a ⟨s', missed'⟩ hb - hs
    obtain ⟨hs, rfl⟩ := Machine.withHistory_next hs
    cases a with
    | producer => exact producer_balanced hb hs
    | consumer i =>
        simp only [machine] at hs
        split at hs
        · rename_i hi
          exact consumer_balanced hb hi.1 hi.2 hs
        · cases hs

/-- In a finished state nothing is underway and nobody is named. -/
theorem Balanced.finished (h : Balanced n s missed) (hf : Finished n s) (hi : 1 ≤ i)
    (hn : i ≤ n) : (s.consumer i).count = s.numItems i
      ∧ (s.consumer i).sum + missed i = s.sumItems i := by
  have hm : s.m0 = -1 := by
    have hp := h.phase
    simpa only [State.Phase, hf.1] using hp
  have hu : s.underway i = none := by simp [State.underway, hf.1]
  have hc := h.count i hi hn
  have hsum := h.sum i hi hn
  rw [hu, not_named hm (by decide) hi] at hc hsum
  simp only [Option.isSome_none, Option.getD_none, Bool.false_eq_true, if_false] at hc hsum
  omega

/-- Runs without early reads have nothing to record. -/
theorem tracked_of_noEarlyRead (h : (machine n).ReachableWhen NoEarlyRead s) :
    (tracked n).Reachable (s, fun _ => 0) := by
  induction h with
  | init h => exact .init ⟨h, rfl⟩
  | @step s s' a _ hok hs ih =>
      refine .step (a := a) ih trivial ?_
      have hrec : record s a (fun _ => 0) = fun _ => 0 := by
        cases a with
        | producer => rfl
        | consumer i =>
            by_cases hpc : (s.consumer i).pc = .read
            · simp [record, hpc, hok hpc]
            · exact record_of_not_read hpc
      show ((machine n).next s a).map _ = _
      rw [hs, Option.map_some, hrec]

/-- **What the checksums say.** When all processes have finished, every consumer has counted
what the producer counted for it, and its sum lacks exactly what its early reads left out; in a
run without early reads the sums agree. -/
theorem checksums (n : Nat) :
    (∀ t, (tracked n).Reachable t → Finished n t.1 → ∀ c, 1 ≤ c → c ≤ n →
      (t.1.consumer c).count = t.1.numItems c
        ∧ (t.1.consumer c).sum + t.2 c = t.1.sumItems c)
    ∧ (∀ s, (machine n).ReachableWhen NoEarlyRead s → Finished n s → ∀ c, 1 ≤ c → c ≤ n →
      (s.consumer c).count = s.numItems c ∧ (s.consumer c).sum = s.sumItems c) := by
  constructor
  · intro t h hf c hc hn
    exact (balanced h).finished hf hc hn
  · intro s h hf c hc hn
    have hb := (balanced (tracked_of_noEarlyRead h)).finished hf hc hn
    rwa [Int.add_zero] at hb

/-- One item of `100` for one consumer, which reads `M[1]` as soon as it is named. -/
def earlyRead : List Party :=
  [.producer, .producer, .producer, .producer, .consumer 1, .consumer 1, .consumer 1,
    .consumer 1, .producer, .producer, .producer, .producer, .consumer 1, .consumer 1,
    .producer, .producer]

theorem tracked_init : (tracked 1).init (start [(100, 1)], fun _ => 0) :=
  ⟨⟨[(100, 1)], by simp [Drawn], rfl⟩, rfl⟩

theorem finished_one (hd : s.producer = .done) (he : (s.consumer 1).pc = .exited) :
    Finished 1 s := by
  refine ⟨hd, fun i h1 hn => ?_⟩
  have : i = 1 := by omega
  exact this ▸ he

/-- The early read leaves out the whole item. -/
theorem checksums_early_run : ∃ t : State × (Nat → Int), (t.1.consumer 1).sum = 0 ∧ t.2 1 = 100
    ∧ ((t.1.consumer 1).count = t.1.numItems 1
      ∧ (t.1.consumer 1).sum + t.2 1 = t.1.sumItems 1) := by
  obtain ⟨t, hr, hp⟩ := Machine.exists_reachable_of_exec (M := tracked 1) (l := earlyRead)
    (p := fun t => decide ((t.1.producer = .done ∧ (t.1.consumer 1).pc = .exited)
      ∧ (t.1.consumer 1).sum = 0 ∧ t.2 1 = 100)) tracked_init (by decide)
  obtain ⟨⟨hd, he⟩, hsum, hmissed⟩ := of_decide_eq_true hp
  exact ⟨t, hsum, hmissed, (checksums 1).1 t hr (finished_one hd he) 1 (Nat.le_refl 1)
    (Nat.le_refl 1)⟩

/-- The consumer's checksum is `0`, the producer's is `100`. -/
theorem checksums_differ : ∃ s, (machine 1).Reachable s ∧ Finished 1 s
    ∧ ¬ ((s.consumer 1).count = s.numItems 1 ∧ (s.consumer 1).sum = s.sumItems 1) := by
  obtain ⟨t, hr, hp⟩ := Machine.exists_reachable_of_exec (M := tracked 1) (l := earlyRead)
    (p := fun t => decide ((t.1.producer = .done ∧ (t.1.consumer 1).pc = .exited)
      ∧ (t.1.consumer 1).sum = 0 ∧ t.1.sumItems 1 = 100)) tracked_init (by decide)
  obtain ⟨⟨hd, he⟩, hsum, hitems⟩ := of_decide_eq_true hp
  have hreach : (machine 1).Reachable t.1 := Machine.ReachableWhen.of_withHistory hr
  refine ⟨t.1, hreach, finished_one hd he, ?_⟩
  rintro ⟨-, hs⟩
  rw [hsum, hitems] at hs
  cases hs

end OSLab.Prodcons
