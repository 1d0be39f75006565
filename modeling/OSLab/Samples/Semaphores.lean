import OSLab.Lib.Machine
import OSLab.Lib.Text

set_option autoImplicit false

/-! # The two semaphores of `Assignment_05/sem.c`

The parent writes a number into `datafile` and the child reads it, `count` times, with one semaphore
for each direction: the parent passes `P(semid2)` and then does `V(semid1)`, the child the other way
round. In the source `count` is `50`. A step is one call of the loops; what `fprintf` leaves in the
stream's buffer is written by `fclose`, and the opening for writing empties the file. A semaphore is
`none` when it has been removed, and a `semop` on it fails and is not looked at.

What each semaphore is worth follows from how often the two have passed (`Balanced`), and from that the
rest: they take turns.
-/

namespace OSLab.Samples.Semaphores

open OSLab.Text

/-- Where the parent is in the round that writes `k`; `buf` is what is in the stream. -/
inductive ProducerPc
  | fork
  | loop (k : Nat)
  | p (k : Nat)
  | fopen (k : Nat)
  | fprintf (k : Nat)
  | print (k : Nat) (buf : List Char)
  | fclose (k : Nat) (buf : List Char)
  | v (k : Nat)
  | wait
  | remove1
  | remove2
  | finished
  deriving DecidableEq, Repr

/-- Where the child is in its round `k`; `data` is not set before the first reading. -/
inductive ConsumerPc
  | absent
  | loop (k : Nat) (data : Option Int)
  | p (k : Nat) (data : Option Int)
  | fopen (k : Nat) (data : Option Int)
  | fscanf (k : Nat) (data : Option Int)
  | print (k : Nat) (data : Option Int)
  | fclose (k : Nat) (data : Option Int)
  | v (k : Nat) (data : Option Int)
  | finished
  | crashed
  deriving DecidableEq, Repr

/-- `written` and `read` are what the two print. -/
structure State where
  semid1 : Option Nat
  semid2 : Option Nat
  datafile : Option (List Char)
  producer : ProducerPc
  consumer : ConsumerPc
  written : List Nat
  read : List (Option Int)
  deriving DecidableEq

inductive Party
  | producer
  | consumer
  deriving DecidableEq, Repr

/-- `P(s)`: blocked at `0`. -/
def P : Option Nat → Option (Option Nat)
  | none => some none
  | some 0 => none
  | some (n + 1) => some (some n)

/-- `V(s)`. -/
def V (s : Option Nat) : Option Nat := s.map (· + 1)

def producerStep (count : Nat) (s : State) : Option State :=
  match s.producer with
  | .fork => some { s with producer := .loop 0, consumer := .loop 0 none }
  | .loop k => some { s with producer := if k < count then .p k else .wait }
  | .p k => (P s.semid2).map fun sem => { s with semid2 := sem, producer := .fopen k }
  | .fopen k => some { s with datafile := some [], producer := .fprintf k }
  | .fprintf k => some { s with producer := .print k (decimal k ++ ['\n']) }
  | .print k buf => some { s with written := s.written ++ [k], producer := .fclose k buf }
  | .fclose k buf => some { s with datafile := s.datafile.map (· ++ buf), producer := .v k }
  | .v k => some { s with semid1 := V s.semid1, producer := .loop (k + 1) }
  | .wait => if s.consumer = .finished then some { s with producer := .remove1 } else none
  | .remove1 => some { s with semid1 := none, producer := .remove2 }
  | .remove2 => some { s with semid2 := none, producer := .finished }
  | .finished => none

/-- `fopen` for reading gives `NULL` when there is no file, and `fscanf` then fails. -/
def consumerStep (count : Nat) (s : State) : Option State :=
  match s.consumer with
  | .absent => none
  | .loop k d => some { s with consumer := if k < count then .p k d else .finished }
  | .p k d => (P s.semid1).map fun sem => { s with semid1 := sem, consumer := .fopen k d }
  | .fopen k d => some { s with consumer := if s.datafile = none then .crashed else .fscanf k d }
  | .fscanf k d =>
      some { s with consumer := .print k (((scanInt (s.datafile.getD [])).1.map asInt).or d) }
  | .print k d => some { s with read := s.read ++ [d], consumer := .fclose k d }
  | .fclose k d => some { s with consumer := .v k d }
  | .v k d => some { s with semid2 := V s.semid2, consumer := .loop (k + 1) d }
  | .finished => none
  | .crashed => none

def start (datafile : Option (List Char)) : State :=
  ⟨some 0, some 1, datafile, .fork, .absent, [], []⟩

/-- `datafile` may be there before, with any text. -/
def machine (count : Nat) : Machine State Party where
  init s := ∃ datafile, s = start datafile
  next s
    | .producer => producerStep count s
    | .consumer => consumerStep count s

variable {count k j : Nat} {s s' : State} {d : Option Int}

/-! ## The semaphores -/

/-- How often the parent has done `V(semid1)`. -/
def ProducerPc.posted (count : Nat) : ProducerPc → Nat
  | .fork => 0
  | .loop k | .p k | .fopen k | .fprintf k | .print k _ | .fclose k _ | .v k => k
  | .wait | .remove1 | .remove2 | .finished => count

/-- How often the parent has passed `P(semid2)`. -/
def ProducerPc.passed (count : Nat) : ProducerPc → Nat
  | .fopen k | .fprintf k | .print k _ | .fclose k _ | .v k => k + 1
  | q => q.posted count

/-- The same for the child, and its semaphores. -/
def ConsumerPc.posted (count : Nat) : ConsumerPc → Nat
  | .absent => 0
  | .loop k _ | .p k _ | .fopen k _ | .fscanf k _ | .print k _ | .fclose k _ | .v k _ => k
  | .finished | .crashed => count

def ConsumerPc.passed (count : Nat) : ConsumerPc → Nat
  | .fopen k _ | .fscanf k _ | .print k _ | .fclose k _ | .v k _ => k + 1
  | q => q.posted count

/-- The parent is in its loop or at its `wait`, and the round is one of `count`. -/
def ProducerPc.Within (count : Nat) : ProducerPc → Prop
  | .loop k => k ≤ count
  | .p k | .fopen k | .fprintf k | .print k _ | .fclose k _ | .v k => k < count
  | .wait => True
  | .fork | .remove1 | .remove2 | .finished => False

/-- The child is in its loop or has finished. -/
def ConsumerPc.Within (count : Nat) : ConsumerPc → Prop
  | .loop k _ => k ≤ count
  | .p k _ | .fopen k _ | .fscanf k _ | .print k _ | .fclose k _ | .v k _ => k < count
  | .finished => True
  | .absent | .crashed => False

/-- What the semaphores are worth: between the fork and the `wait`, what has been posted and not been
passed. -/
inductive Balanced (count : Nat) : Option Nat → Option Nat → ProducerPc → ConsumerPc → Prop
  | fork : Balanced count (some 0) (some 1) .fork .absent
  | live {a b : Nat} {p : ProducerPc} {c : ConsumerPc} : p.Within count → c.Within count →
      a + c.passed count = p.posted count → b + p.passed count = 1 + c.posted count →
      Balanced count (some a) (some b) p c
  | remove1 {a b : Nat} : Balanced count (some a) (some b) .remove1 .finished
  | remove2 {b : Nat} : Balanced count none (some b) .remove2 .finished
  | finished : Balanced count none none .finished .finished

def State.Balanced (count : Nat) (s : State) : Prop :=
  Semaphores.Balanced count s.semid1 s.semid2 s.producer s.consumer

theorem P_some {a : Nat} {o : Option Nat} (h : P (some a) = some o) : ∃ b, a = b + 1 ∧ o = some b := by
  cases a with
  | zero => cases h
  | succ b =>
      cases h
      exact ⟨b, rfl, rfl⟩

theorem balanced_producer (h : s.Balanced count) (hs : producerStep count s = some s') :
    s'.Balanced count := by
  obtain ⟨sem1, sem2, file, p, c, written, read⟩ := s
  cases h with
  | fork =>
      cases hs
      exact .live (Nat.zero_le count) (Nat.zero_le count) rfl rfl
  | @live a b p c hw hc h1 h2 =>
      cases p with
      | loop k =>
          cases hs
          by_cases hk : k < count
          · rw [State.Balanced, if_pos hk]
            exact .live hk hc h1 h2
          · have hkc : k = count := Nat.le_antisymm hw (Nat.le_of_not_lt hk)
            subst hkc
            rw [State.Balanced, if_neg hk]
            exact .live trivial hc h1 h2
      | p k =>
          obtain ⟨o, ho, rfl⟩ := Option.map_eq_some_iff.mp hs
          obtain ⟨b, rfl, rfl⟩ := P_some ho
          refine .live hw hc h1 ?_
          simp only [ProducerPc.passed, ProducerPc.posted] at h2 ⊢
          omega
      | v k =>
          cases hs
          refine .live (Nat.succ_le_of_lt hw) hc ?_ h2
          simp only [ProducerPc.posted] at h1 ⊢
          omega
      | wait =>
          simp only [producerStep] at hs
          split_ifs at hs with hfinished
          cases hs
          cases hfinished
          exact .remove1
      | fopen k | fprintf k | print k buf | fclose k buf =>
          cases hs
          exact .live hw hc h1 h2
      | fork | remove1 | remove2 | finished => exact hw.elim
  | remove1 =>
      cases hs
      exact .remove2
  | remove2 =>
      cases hs
      exact .finished
  | finished => cases hs

/-- Before the child opens the file there is one. -/
theorem balanced_consumer (h : s.Balanced count) (hfile : ∀ k d, s.consumer = .fopen k d →
    s.datafile ≠ none) (hs : consumerStep count s = some s') : s'.Balanced count := by
  obtain ⟨sem1, sem2, file, p, c, written, read⟩ := s
  cases h with
  | @live a b p c hw hc h1 h2 =>
      cases c with
      | loop k d =>
          cases hs
          by_cases hk : k < count
          · rw [State.Balanced, if_pos hk]
            exact .live hw hk h1 h2
          · have hkc : k = count := Nat.le_antisymm hc (Nat.le_of_not_lt hk)
            subst hkc
            rw [State.Balanced, if_neg hk]
            exact .live hw trivial h1 h2
      | p k d =>
          obtain ⟨o, ho, rfl⟩ := Option.map_eq_some_iff.mp hs
          obtain ⟨a, rfl, rfl⟩ := P_some ho
          refine .live hw hc ?_ h2
          simp only [ConsumerPc.passed, ConsumerPc.posted] at h1 ⊢
          omega
      | fopen k d =>
          cases hs
          rw [State.Balanced, if_neg (hfile k d rfl)]
          exact .live hw hc h1 h2
      | v k d =>
          cases hs
          refine .live hw (Nat.succ_le_of_lt hc) h1 ?_
          simp only [ConsumerPc.posted] at h2 ⊢
          omega
      | fscanf k d | print k d | fclose k d =>
          cases hs
          exact .live hw hc h1 h2
      | finished => cases hs
      | absent | crashed => exact hc.elim
  | _ => cases hs

theorem ProducerPc.posted_le (count : Nat) (p : ProducerPc) : p.posted count ≤ p.passed count := by
  cases p <;> simp [ProducerPc.passed, ProducerPc.posted]

theorem ConsumerPc.posted_le (count : Nat) (c : ConsumerPc) : c.posted count ≤ c.passed count := by
  cases c <;> simp [ConsumerPc.passed, ConsumerPc.posted]

/-- **The two take turns**: neither passes its semaphore more often than the other lets it. -/
theorem Balanced.turns {sem1 sem2 : Option Nat} {p : ProducerPc} {c : ConsumerPc}
    (h : Balanced count sem1 sem2 p c) :
    c.passed count ≤ p.posted count ∧ p.passed count ≤ c.posted count + 1 := by
  cases h with
  | fork => exact ⟨Nat.le_refl 0, Nat.zero_le 1⟩
  | live _ _ h1 h2 => exact ⟨by omega, by omega⟩
  | remove1 | remove2 | finished => exact ⟨Nat.le_refl count, Nat.le_succ count⟩

/-- No semaphore is removed before the child has finished. -/
theorem Balanced.removed {sem1 sem2 : Option Nat} {p : ProducerPc} {c : ConsumerPc}
    (h : Balanced count sem1 sem2 p c) (hnone : sem1 = none ∨ sem2 = none) : c = .finished := by
  cases h with
  | fork | live => rcases hnone with h | h <;> cases h
  | remove1 | remove2 | finished => rfl

/-! ## The file -/

/-- What the file says after round `k` of the parent. -/
def text (k : Nat) : List Char := decimal k ++ ['\n']

/-- How often a side has printed. -/
def ProducerPc.printed (count : Nat) : ProducerPc → Nat
  | .fclose k _ | .v k => k + 1
  | q => q.posted count

def ConsumerPc.printed (count : Nat) : ConsumerPc → Nat
  | .fclose k _ | .v k _ => k + 1
  | q => q.posted count

theorem ProducerPc.printed_le (p : ProducerPc) :
    p.posted count ≤ p.printed count ∧ p.printed count ≤ p.passed count := by
  cases p <;> simp [ProducerPc.printed, ProducerPc.passed, ProducerPc.posted]

theorem ConsumerPc.printed_le (c : ConsumerPc) :
    c.posted count ≤ c.printed count ∧ c.printed count ≤ c.passed count := by
  cases c <;> simp [ConsumerPc.printed, ConsumerPc.passed, ConsumerPc.posted]

/-- The file, and what is on its way into it. -/
def Stream (file : Option (List Char)) : ProducerPc → Prop
  | .fprintf _ => file = some []
  | .print k buf | .fclose k buf => buf = text k ∧ file = some []
  | .v k => file = some (text k)
  | _ => True

/-- What the child has read in this round. -/
def Scanned : ConsumerPc → Prop
  | .print k d | .fclose k d => d = some (k : Int)
  | _ => True

/-- The numbers below `k`, as read. -/
def readings (k : Nat) : List (Option Int) := (List.range k).map fun j : Nat => some (j : Int)

theorem readings_succ (k : Nat) : readings (k + 1) = readings k ++ [some (k : Int)] := by
  simp [readings, List.range_succ]

/-- When the parent is a round ahead, the file says what this round wrote. -/
structure Data (count : Nat) (s : State) : Prop where
  stream : Stream s.datafile s.producer
  handed : s.producer.posted count = s.consumer.posted count + 1 →
    s.datafile = some (text (s.consumer.posted count))
  scanned : Scanned s.consumer
  read : s.read = readings (s.consumer.printed count)
  written : s.written = List.range (s.producer.printed count)

theorem data_start (file : Option (List Char)) : Data count (start file) where
  stream := trivial
  handed h := by cases h
  scanned := trivial
  read := rfl
  written := rfl

theorem data_producer (hb : s.Balanced count) (h : Data count s)
    (hs : producerStep count s = some s') : Data count s' := by
  obtain ⟨sem1, sem2, file, p, c, written, read⟩ := s
  obtain ⟨hstream, hhanded, hscanned, hread, hwritten⟩ := h
  obtain ⟨hturn1, hturn2⟩ := Balanced.turns hb
  have hle := c.posted_le count
  simp only at hstream hhanded hscanned hread hwritten hturn1 hturn2
  cases p with
  | fork =>
      cases hs
      cases hb with
      | fork => exact ⟨trivial, fun hk => (by cases hk), trivial, hread, hwritten⟩
      | live hw => exact hw.elim
  | loop k =>
      cases hs
      by_cases hk : k < count
      · rw [if_pos hk]
        exact ⟨trivial, hhanded, hscanned, hread, hwritten⟩
      · cases hb with
        | live hw =>
            have hkc : k = count := Nat.le_antisymm hw (Nat.le_of_not_lt hk)
            subst hkc
            rw [if_neg hk]
            exact ⟨trivial, hhanded, hscanned, hread, hwritten⟩
  | p k =>
      obtain ⟨o, -, rfl⟩ := Option.map_eq_some_iff.mp hs
      exact ⟨trivial, hhanded, hscanned, hread, hwritten⟩
  | fopen k =>
      -- it is the parent's turn, so the child has read what was there
      cases hs
      refine ⟨rfl, fun hk => ?_, hscanned, hread, hwritten⟩
      simp only [ProducerPc.posted, ProducerPc.passed] at hk hturn2
      omega
  | fprintf k =>
      cases hs
      exact ⟨⟨rfl, hstream⟩, hhanded, hscanned, hread, hwritten⟩
  | print k buf =>
      cases hs
      refine ⟨hstream, hhanded, hscanned, hread, ?_⟩
      show written ++ [k] = List.range (k + 1)
      rw [hwritten, List.range_succ]
      rfl
  | fclose k buf =>
      cases hs
      obtain ⟨rfl, rfl⟩ := hstream
      refine ⟨rfl, fun hk => ?_, hscanned, hread, hwritten⟩
      simp only [ProducerPc.posted, ProducerPc.passed] at hk hturn2
      omega
  | v k =>
      cases hs
      refine ⟨trivial, fun hk => ?_, hscanned, hread, hwritten⟩
      simp only [ProducerPc.posted] at hk
      rw [← Nat.succ.inj hk]
      exact hstream
  | wait =>
      simp only [producerStep] at hs
      split_ifs at hs
      cases hs
      exact ⟨trivial, hhanded, hscanned, hread, hwritten⟩
  | remove1 | remove2 =>
      cases hs
      exact ⟨trivial, hhanded, hscanned, hread, hwritten⟩
  | finished => cases hs

theorem scanInt_text {k : Nat} (hk : Text.IsInt k) :
    ((scanInt (text k)).1.map asInt) = some (k : Int) := by
  rw [text, scanInt_decimal (k : Int) (noDigit_cons (by decide)), Option.map_some, asInt_eq hk]

/-- What the child finds when it opens the file. -/
theorem Data.found (h : Data count s) (hb : s.Balanced count) (k : Nat)
    (hposted : s.consumer.posted count = k) (hpassed : s.consumer.passed count = k + 1) :
    s.datafile = some (text k) := by
  obtain ⟨hturn1, hturn2⟩ := Balanced.turns hb
  have hle := s.producer.posted_le count
  rw [← hposted]
  exact h.handed (by omega)

theorem data_consumer (hcount : Text.IsInt count) (hb : s.Balanced count) (h : Data count s)
    (hs : consumerStep count s = some s') : Data count s' := by
  have hfound := h.found hb
  obtain ⟨sem1, sem2, file, p, c, written, read⟩ := s
  obtain ⟨hstream, hhanded, hscanned, hread, hwritten⟩ := h
  obtain ⟨hturn1, hturn2⟩ := Balanced.turns hb
  have hle := p.posted_le count
  simp only at hstream hhanded hscanned hread hwritten hturn1 hturn2 hfound
  cases c with
  | absent => cases hs
  | finished => cases hs
  | crashed => cases hs
  | loop k d =>
      cases hs
      by_cases hk : k < count
      · rw [if_pos hk]
        exact ⟨hstream, hhanded, trivial, hread, hwritten⟩
      · cases hb with
        | live _ hc =>
            have hkc : k = count := Nat.le_antisymm hc (Nat.le_of_not_lt hk)
            subst hkc
            rw [if_neg hk]
            exact ⟨hstream, hhanded, trivial, hread, hwritten⟩
  | p k d =>
      obtain ⟨o, -, rfl⟩ := Option.map_eq_some_iff.mp hs
      exact ⟨hstream, hhanded, trivial, hread, hwritten⟩
  | fopen k d =>
      cases hs
      have hfile := hfound k rfl rfl
      subst hfile
      exact ⟨hstream, hhanded, trivial, hread, hwritten⟩
  | fscanf k d =>
      cases hs
      have hfile := hfound k rfl rfl
      subst hfile
      refine ⟨hstream, hhanded, ?_, hread, hwritten⟩
      have hk : k < count := by
        cases hb with
        | live _ hc => exact hc
      have hint : Text.IsInt k := ⟨by omega, by have := hcount.2; omega⟩
      show ((scanInt (text k)).1.map asInt).or d = some (k : Int)
      rw [scanInt_text hint]
      rfl
  | print k d =>
      cases hs
      obtain rfl : d = some (k : Int) := hscanned
      refine ⟨hstream, hhanded, rfl, ?_, hwritten⟩
      show read ++ [some (k : Int)] = readings (k + 1)
      rw [hread, readings_succ]
      rfl
  | fclose k d =>
      cases hs
      exact ⟨hstream, hhanded, trivial, hread, hwritten⟩
  | v k d =>
      cases hs
      refine ⟨hstream, fun hk => ?_, trivial, hread, hwritten⟩
      simp only [ConsumerPc.posted] at hk hturn2
      omega

/-! ## In every run -/

theorem invariant_reachable (hcount : Text.IsInt count) (h : (machine count).Reachable s) :
    s.Balanced count ∧ Data count s := by
  refine h.invariant (I := fun s => s.Balanced count ∧ Data count s) ?_ ?_
  · rintro s ⟨file, rfl⟩
    exact ⟨.fork, data_start file⟩
  · rintro s a s' ⟨hb, hd⟩ - hs
    cases a with
    | producer => exact ⟨balanced_producer hb hs, data_producer hb hd hs⟩
    | consumer =>
        refine ⟨balanced_consumer hb (fun k d hc hnone => ?_) hs, data_consumer hcount hb hd hs⟩
        have hfile := hd.found hb k (by rw [hc]; rfl) (by rw [hc]; rfl)
        rw [hnone] at hfile
        cases hfile

/-- The file is open. -/
def ProducerPc.opened : ProducerPc → Bool
  | .fprintf _ | .print _ _ | .fclose _ _ => true
  | _ => false

def ConsumerPc.opened : ConsumerPc → Bool
  | .fscanf _ _ | .print _ _ | .fclose _ _ => true
  | _ => false

theorem ProducerPc.passed_of_opened (count : Nat) {p : ProducerPc} (h : p.opened = true) :
    p.passed count = p.posted count + 1 := by
  cases p <;> first | rfl | cases h

theorem ConsumerPc.passed_of_opened (count : Nat) {c : ConsumerPc} (h : c.opened = true) :
    c.passed count = c.posted count + 1 := by
  cases c <;> first | rfl | cases h

/-- **They never have the file open at the same time, and no number is lost or read twice**: the child
has read `0, 1, 2, …`, of which the parent has written at most one more. -/
theorem taken_in_turns (hcount : Text.IsInt count) (h : (machine count).Reachable s) :
    ¬ (s.producer.opened = true ∧ s.consumer.opened = true) ∧ s.consumer ≠ .crashed
      ∧ ∃ i j, s.written = List.range i ∧ s.read = readings j
        ∧ j ≤ i ∧ i ≤ j + 1 := by
  obtain ⟨hb, hd⟩ := invariant_reachable hcount h
  obtain ⟨hturn1, hturn2⟩ := Balanced.turns hb
  refine ⟨?_, fun hcrash => ?_, _, _, hd.written, hd.read, ?_, ?_⟩
  · rintro ⟨hp, hc⟩
    have := ProducerPc.passed_of_opened count hp
    have := ConsumerPc.passed_of_opened count hc
    omega
  · obtain ⟨sem1, sem2, file, p, c, written, read⟩ := s
    cases hcrash
    cases hb with
    | live _ hc => exact hc
  · exact (s.consumer.printed_le.2.trans hturn1).trans s.producer.printed_le.1
  · exact (s.producer.printed_le.2.trans hturn2).trans (Nat.succ_le_succ s.consumer.printed_le.1)

/-- The parent writes, and starts again; the child reads. -/
def shortRun : List Party :=
  List.replicate 9 .producer ++ List.replicate 6 .consumer

theorem taken_in_turns_run : ∃ s, (machine 2).Reachable s ∧ s.read = [some 0]
    ∧ ∃ i j, s.written = List.range i ∧ s.read = readings j
      ∧ j ≤ i ∧ i ≤ j + 1 := by
  obtain ⟨s, hr, hs⟩ := Machine.exists_reachable_of_exec (M := machine 2) (s := start none)
    (l := shortRun) (p := fun s => decide (s.read = [some 0])) ⟨none, rfl⟩ (by decide +kernel)
  exact ⟨s, hr, of_decide_eq_true hs, (taken_in_turns (by decide) hr).2.2⟩

/-! ## Every run ends -/

theorem P_none {a : Nat} (h : P (some a) = none) : a = 0 := by
  cases a with
  | zero => rfl
  | succ a => cases h

/-- **No deadlock**: a semaphore is removed only after the child has finished, and where nothing moves, the
child has read all numbers, the parent has waited for it and both semaphores are removed. -/
theorem all_read (hcount : Text.IsInt count) (h : (machine count).Reachable s) :
    (s.semid1 = none ∨ s.semid2 = none → s.consumer = .finished)
      ∧ ((machine count).Stuck s → s.producer = .finished ∧ s.consumer = .finished
        ∧ s.semid1 = none ∧ s.semid2 = none ∧ s.read = readings count) := by
  obtain ⟨hb, hd⟩ := invariant_reachable hcount h
  refine ⟨hb.removed, fun hs => ?_⟩
  have hp : producerStep count s = none := hs .producer
  have hc : consumerStep count s = none := hs .consumer
  have hread := hd.read
  obtain ⟨sem1, sem2, file, p, c, written, read⟩ := s
  cases hb with
  | fork => cases hp
  | remove1 => cases hp
  | remove2 => cases hp
  | finished => exact ⟨rfl, rfl, rfl, rfl, hread⟩
  | @live a b p c hw hcw h1 h2 =>
      -- the parent waits for its semaphore or for the child
      have hchild : (∃ k d, c = .p k d ∧ a = 0) ∨ c = .finished := by
        cases c with
        | p k d => exact .inl ⟨k, d, rfl, P_none (Option.map_eq_none_iff.mp hc)⟩
        | finished => exact .inr rfl
        | absent | crashed => exact hcw.elim
        | _ => cases hc
      cases p with
      | p k =>
          obtain rfl := P_none (Option.map_eq_none_iff.mp hp)
          have hk : k < count := hw
          rcases hchild with ⟨j, d, rfl, rfl⟩ | rfl
          · simp only [ProducerPc.passed, ProducerPc.posted, ConsumerPc.passed,
              ConsumerPc.posted] at h1 h2
            omega
          · simp only [ProducerPc.passed, ProducerPc.posted, ConsumerPc.passed,
              ConsumerPc.posted] at h1 h2
            omega
      | wait =>
          rcases hchild with ⟨j, d, rfl, rfl⟩ | rfl
          · have hj : j < count := hcw
            simp only [ProducerPc.posted, ConsumerPc.passed, ConsumerPc.posted] at h1
            omega
          · simp [producerStep] at hp
      | fork | remove1 | remove2 | finished => exact hw.elim
      | _ => cases hp

theorem stuck_of_finished (hp : s.producer = .finished) (hc : s.consumer = .finished) :
    (machine count).Stuck s := by
  intro a
  cases a with
  | producer => simp only [machine, producerStep, hp]
  | consumer => simp only [machine, consumerStep, hc]

/-- Two rounds, in which the parent waits for the child. -/
theorem all_read_run : ∃ s, (machine 2).Reachable s ∧ s.producer = .finished
    ∧ s.read = [some 0, some 1] := by
  obtain ⟨s, hr, hs⟩ := Machine.exists_reachable_of_exec (M := machine 2) (s := start none)
    (l := List.replicate 9 .producer ++ List.replicate 8 .consumer ++ List.replicate 7 .producer
      ++ List.replicate 7 .consumer ++ List.replicate 3 .producer)
    (p := fun s => decide (s.producer = .finished ∧ s.consumer = .finished)) ⟨none, rfl⟩
    (by decide +kernel)
  obtain ⟨hp, hc⟩ := of_decide_eq_true hs
  obtain ⟨-, -, -, -, hread⟩ := (all_read (by decide) hr).2 (stuck_of_finished hp hc)
  exact ⟨s, hr, hp, hread⟩

/-- How many steps the parent is from its end at most, and the child. -/
def ProducerPc.left (count : Nat) : ProducerPc → Nat
  | .fork => 20 * count + 20
  | .loop k => 10 * (count - k) + 8
  | .p k => 10 * (count - (k + 1)) + 17
  | .fopen k => 10 * (count - (k + 1)) + 16
  | .fprintf k => 10 * (count - (k + 1)) + 15
  | .print k _ => 10 * (count - (k + 1)) + 14
  | .fclose k _ => 10 * (count - (k + 1)) + 13
  | .v k => 10 * (count - (k + 1)) + 12
  | .wait => 3
  | .remove1 => 2
  | .remove2 => 1
  | .finished => 0

def ConsumerPc.left (count : Nat) : ConsumerPc → Nat
  | .absent => 0
  | .loop k _ => 10 * (count - k) + 8
  | .p k _ => 10 * (count - (k + 1)) + 17
  | .fopen k _ => 10 * (count - (k + 1)) + 16
  | .fscanf k _ => 10 * (count - (k + 1)) + 15
  | .print k _ => 10 * (count - (k + 1)) + 14
  | .fclose k _ => 10 * (count - (k + 1)) + 13
  | .v k _ => 10 * (count - (k + 1)) + 12
  | .finished => 0
  | .crashed => 0

def rank (count : Nat) (s : State) : Nat := s.producer.left count + s.consumer.left count

theorem producer_left (hs : producerStep count s = some s') : rank count s' < rank count s := by
  obtain ⟨sem1, sem2, file, p, c, written, read⟩ := s
  cases p with
  | fork =>
      cases hs
      simp only [rank, ProducerPc.left, ConsumerPc.left]
      omega
  | loop k =>
      cases hs
      by_cases hk : k < count
      · simp only [rank, if_pos hk, ProducerPc.left]
        omega
      · simp only [rank, if_neg hk, ProducerPc.left]
        omega
  | p k =>
      obtain ⟨o, -, rfl⟩ := Option.map_eq_some_iff.mp hs
      simp only [rank, ProducerPc.left]
      omega
  | wait =>
      simp only [producerStep] at hs
      split_ifs at hs
      cases hs
      simp only [rank, ProducerPc.left]
      omega
  | finished => cases hs
  | _ =>
      cases hs
      simp only [rank, ProducerPc.left]
      omega

theorem consumer_left (hs : consumerStep count s = some s') : rank count s' < rank count s := by
  obtain ⟨sem1, sem2, file, p, c, written, read⟩ := s
  cases c with
  | loop k d =>
      cases hs
      by_cases hk : k < count
      · simp only [rank, if_pos hk, ConsumerPc.left]
        omega
      · simp only [rank, if_neg hk, ConsumerPc.left]
        omega
  | p k d =>
      obtain ⟨o, -, rfl⟩ := Option.map_eq_some_iff.mp hs
      simp only [rank, ConsumerPc.left]
      omega
  | fopen k d =>
      cases hs
      by_cases hf : file = none
      · simp only [rank, if_pos hf, ConsumerPc.left]
        omega
      · simp only [rank, if_neg hf, ConsumerPc.left]
        omega
  | absent | finished | crashed => cases hs
  | _ =>
      cases hs
      simp only [rank, ConsumerPc.left]
      omega

/-- **Every run ends.** -/
theorem turns_end (run : Nat → State) : ¬ (machine count).InfiniteRun run := by
  have hrank : ∀ s a s', (machine count).next s a = some s' → rank count s' < rank count s := by
    intro s a s' hs
    cases a with
    | producer => exact producer_left hs
    | consumer => exact consumer_left hs
  exact Machine.not_infiniteRun hrank run

end OSLab.Samples.Semaphores
