import OSLab.Clinic.Event
import OSLab.Lib.Text
import Mathlib.Data.List.GetD

set_option autoImplicit false

/-! # The read loop of `initEQ`

`initEQ` reads the arrival file with two conversions a record, `fscanf("%c")` and
`fscanf("%d%d")`, and then skips to the end of the line with `fgetc`. `readNext` is one iteration of
one of its two loops. Neither loop looks at the end of the file: there `fscanf` leaves its variables
alone and `fgetc` gives `EOF`, which is not `'\n'`. The block `E.Q` has 128 cells; a store past it is
a fault, as the language gives it no meaning.

What `arrival.c` writes is read back exactly (`arrivalText_read`). Of a file at large, the reading
reaches the end of the loop just when its records and the `E` after them are all there
(`read_ends_iff`).
-/

namespace OSLab.Clinic

open Text (decimal scanInt asInt IsInt NoDigit)

/-- The loop that is on: at the `%c` of the read loop, or in the loop that skips to the end of the
line. -/
inductive ReadPc
  | scan
  | skip
  | done
  | fault
  deriving DecidableEq, Repr

/-- What is left of the file, and the variables `type` and `E` of `initEQ`. -/
structure Reading where
  pc : ReadPc
  input : List Char
  type : Char
  E : EventQ

/-- The number of cells `malloc` is asked for. -/
def queueSize : Nat := 128

/-- `fscanf(fp, "%d%d", ..)`: the second conversion is tried after the first one only. -/
def scanTwo (l : List Char) : Option Int × Option Int × List Char :=
  match scanInt l with
  | (none, rest) => (none, none, rest)
  | (some time, rest) => (some time, scanInt rest)

/-- `E.Q[E.n] = ..` and `++E.n`: a number that was not scanned is not stored. -/
def storeEvent (E : EventQ) (type : Char) (time duration : Option Int) : EventQ where
  n := E.n + 1
  Q := Function.update E.Q E.n
    ⟨type, (time.map asInt).getD (E.Q E.n).time, (duration.map asInt).getD (E.Q E.n).duration⟩

/-- One iteration. -/
def readNext (s : Reading) : Reading :=
  match s.pc with
  | .scan =>
      let type := s.input.head?.getD s.type
      let input := s.input.tail
      if type = 'E' then ⟨.done, input, type, s.E⟩
      else if s.E.n < queueSize then
        let q := scanTwo input
        ⟨.skip, q.2.2, type, storeEvent s.E type q.1 q.2.1⟩
      else ⟨.fault, input, type, s.E⟩
  | .skip =>
      match s.input with
      | [] => s
      | c :: input => { s with pc := if c = '\n' then .scan else .skip, input := input }
  | .done => s
  | .fault => s

/-- Before the loop: `type` and the cells of the block hold whatever was there. -/
def startRead (mem : Nat → Event) (type : Char) (content : List Char) : Reading :=
  ⟨.scan, content, type, ⟨0, mem⟩⟩

/-- The loop comes to its `break`. -/
def Ends (s : Reading) : Prop := ∃ k, (readNext^[k] s).pc = .done

variable {s : Reading} {mem : Nat → Event} {type c : Char} {input l : List Char} {E : EventQ}
  {e : Event} {k : Nat}

/-! ## Where a reading stays -/

theorem iterate_of_stays (h : readNext s = s) (k : Nat) : readNext^[k] s = s :=
  Function.iterate_fixed h k

/-- What is reached from the next state is reached from this one, and nothing else but the state
itself. -/
theorem ends_iff_next (h : s.pc ≠ .done) : Ends s ↔ Ends (readNext s) := by
  constructor
  · rintro ⟨k, hk⟩
    cases k with
    | zero => exact absurd hk h
    | succ k =>
        rw [Function.iterate_succ_apply] at hk
        exact ⟨k, hk⟩
  · rintro ⟨k, hk⟩
    exact ⟨k + 1, by rwa [Function.iterate_succ_apply]⟩

theorem ends_of_done (h : s.pc = .done) : Ends s := ⟨0, h⟩

theorem not_ends_of_stays (hs : readNext s = s) (h : s.pc ≠ .done) : ¬ Ends s := by
  rintro ⟨k, hk⟩
  rw [iterate_of_stays hs] at hk
  exact h hk

/-- At the end of the file the skipping goes on for good. -/
theorem not_ends_at_end (type : Char) (E : EventQ) : ¬ Ends ⟨.skip, [], type, E⟩ :=
  not_ends_of_stays rfl ReadPc.noConfusion

theorem not_ends_fault (input : List Char) (type : Char) (E : EventQ) :
    ¬ Ends ⟨.fault, input, type, E⟩ :=
  not_ends_of_stays rfl ReadPc.noConfusion

/-! ## One record -/

theorem scan_end (h : input.head?.getD type = 'E') :
    readNext ⟨.scan, input, type, E⟩ = ⟨.done, input.tail, 'E', E⟩ := by
  simp only [readNext, h, if_true]

theorem scan_record (hE : input.head?.getD type ≠ 'E') (hn : E.n < queueSize) :
    readNext ⟨.scan, input, type, E⟩
      = ⟨.skip, (scanTwo input.tail).2.2, input.head?.getD type,
          storeEvent E (input.head?.getD type) (scanTwo input.tail).1
            (scanTwo input.tail).2.1⟩ := by
  simp only [readNext, if_neg hE, if_pos hn]

theorem scan_fault (hE : input.head?.getD type ≠ 'E') (hn : ¬ E.n < queueSize) :
    readNext ⟨.scan, input, type, E⟩ = ⟨.fault, input.tail, input.head?.getD type, E⟩ := by
  simp only [readNext, if_neg hE, if_neg hn]

theorem scanTwo_suffix (l : List Char) : (scanTwo l).2.2 <:+ l := by
  have hfirst := Text.scanInt_suffix l
  cases h : scanInt l with
  | mk time rest =>
      rw [h] at hfirst
      cases time with
      | none =>
          simp only [scanTwo, h]
          exact hfirst
      | some time =>
          simp only [scanTwo, h]
          exact (Text.scanInt_suffix rest).trans hfirst

/-- The skipping passes over the rest of the line, if there is a newline at its end. -/
theorem ends_skip_iff :
    Ends ⟨.skip, input, type, E⟩
      ↔ ∃ line next, input = line ++ '\n' :: next ∧ '\n' ∉ line ∧ Ends ⟨.scan, next, type, E⟩ := by
  induction input with
  | nil =>
      constructor
      · intro h
        exact absurd h (not_ends_at_end type E)
      · rintro ⟨line, next, h, _⟩
        simp at h
  | cons c input ih =>
      rw [ends_iff_next ReadPc.noConfusion]
      by_cases hc : c = '\n'
      · subst hc
        constructor
        · intro h
          exact ⟨[], input, rfl, List.not_mem_nil, h⟩
        · rintro ⟨line, next, h, hline, hends⟩
          cases line with
          | nil =>
              obtain ⟨-, rfl⟩ := List.cons.inj h
              exact hends
          | cons d line =>
              obtain ⟨rfl, -⟩ := List.cons.inj h
              exact absurd List.mem_cons_self hline
      · have hstep : readNext ⟨.skip, c :: input, type, E⟩ = ⟨.skip, input, type, E⟩ := by
          simp only [readNext, if_neg hc]
        rw [hstep, ih]
        constructor
        · rintro ⟨line, next, rfl, hline, hends⟩
          refine ⟨c :: line, next, rfl, ?_, hends⟩
          simpa [eq_comm, hc] using hline
        · rintro ⟨line, next, h, hline, hends⟩
          cases line with
          | nil =>
              obtain ⟨rfl, -⟩ := List.cons.inj h
              exact absurd rfl hc
          | cons d line =>
              obtain ⟨rfl, rfl⟩ := List.cons.inj h
              exact ⟨line, next, rfl, fun h => hline (List.mem_cons_of_mem _ h), hends⟩

/-! ## Which files are read to an end -/

/-- A file the loop can leave, with room for `k` more records: records, each one with a newline left
after its numbers, and an `E` where the next type is scanned. -/
inductive Closed : Nat → List Char → Prop
  | last (k : Nat) (rest : List Char) : Closed k ('E' :: rest)
  | record (k : Nat) (c : Char) (l line next : List Char) : c ≠ 'E' →
      (scanTwo l).2.2 = line ++ '\n' :: next → '\n' ∉ line → Closed k next →
      Closed (k + 1) (c :: l)

/-- A record needs room, and what follows its line is closed again. -/
theorem closed_record_iff (hc : c ≠ 'E') :
    Closed k (c :: l) ↔ ∃ k' line next, k = k' + 1 ∧ (scanTwo l).2.2 = line ++ '\n' :: next
      ∧ '\n' ∉ line ∧ Closed k' next := by
  constructor
  · intro h
    cases h with
    | last => exact absurd rfl hc
    | record k' _ _ line next _ hl hline hnext => exact ⟨k', line, next, rfl, hl, hline, hnext⟩
  · rintro ⟨k', line, next, rfl, hl, hline, hnext⟩
    exact .record k' c l line next hc hl hline hnext

theorem not_closed_nil : ¬ Closed k [] := by
  intro h
  cases h

theorem ends_scan_nil_iff : Ends ⟨.scan, [], type, E⟩ ↔ type = 'E' := by
  rw [ends_iff_next ReadPc.noConfusion]
  by_cases hE : type = 'E'
  · rw [scan_end (by simpa using hE)]
    exact iff_of_true (ends_of_done rfl) hE
  · refine iff_of_false ?_ hE
    have hhead : ([] : List Char).head?.getD type ≠ 'E' := hE
    by_cases hn : E.n < queueSize
    · rw [scan_record hhead hn]
      exact not_ends_at_end _ _
    · rw [scan_fault hhead hn]
      exact not_ends_fault _ _ _

/-- By induction on a bound for what is left: a record's line takes a character at least. Past the
first scan `type` is the character scanned and no `E`, so nothing is read from an empty rest. -/
theorem ends_scan_iff (N : Nat) : ∀ (k : Nat) (input : List Char) (type : Char) (E : EventQ),
    input.length ≤ N → k + E.n = queueSize →
    (Ends ⟨.scan, input, type, E⟩ ↔ Closed k input ∨ input = [] ∧ type = 'E') := by
  induction N with
  | zero =>
      intro k input type E hN _
      obtain rfl := List.length_eq_zero_iff.mp (Nat.le_zero.mp hN)
      rw [ends_scan_nil_iff]
      simp [not_closed_nil]
  | succ N ih =>
      intro k input type E hN hroom
      cases input with
      | nil =>
          rw [ends_scan_nil_iff]
          simp [not_closed_nil]
      | cons c l =>
          have hright : c :: l = [] ∧ type = 'E' ↔ False := by simp
          rw [hright, or_false, ends_iff_next ReadPc.noConfusion]
          by_cases hE : c = 'E'
          · subst hE
            rw [scan_end rfl]
            exact iff_of_true (ends_of_done rfl) (.last k l)
          have hhead : (c :: l).head?.getD type ≠ 'E' := hE
          rw [closed_record_iff hE]
          by_cases hn : E.n < queueSize
          · rw [scan_record hhead hn, ends_skip_iff]
            obtain ⟨k, rfl⟩ : ∃ k', k = k' + 1 := ⟨k - 1, by omega⟩
            have hnext : ∀ line next, (scanTwo l).2.2 = line ++ '\n' :: next →
                (Ends ⟨.scan, next, c, storeEvent E c (scanTwo l).1 (scanTwo l).2.1⟩
                  ↔ Closed k next) := by
              intro line next hl
              have hlen := (scanTwo_suffix l).length_le
              rw [hl, List.length_append, List.length_cons] at hlen
              rw [List.length_cons] at hN
              have h := ih k next c (storeEvent E c (scanTwo l).1 (scanTwo l).2.1) (by omega)
                (by simp only [storeEvent]; omega)
              rw [h]
              simp [hE]
            constructor
            · rintro ⟨line, next, hl, hline, hends⟩
              exact ⟨k, line, next, rfl, hl, hline, (hnext line next hl).mp hends⟩
            · rintro ⟨k', line, next, hk, hl, hline, hclosed⟩
              obtain rfl := Nat.succ.inj hk
              exact ⟨line, next, hl, hline, (hnext line next hl).mpr hclosed⟩
          · rw [scan_fault hhead hn]
            refine iff_of_false (not_ends_fault _ _ _) ?_
            rintro ⟨k', -, -, rfl, -⟩
            omega

/-- **Which files are read to an end**: those whose records, at most 128, are followed by their `E`;
or an empty file, when the uninitialised `type` happens to be an `E`. -/
theorem read_ends_iff (mem : Nat → Event) (type : Char) (content : List Char) :
    (∃ k, (readNext^[k] (startRead mem type content)).pc = .done)
      ↔ Closed queueSize content ∨ content = [] ∧ type = 'E' :=
  ends_scan_iff content.length queueSize content type ⟨0, mem⟩ le_rfl rfl

/-- **A file without the closing line is read for ever.** -/
theorem missing_end_line :
    ¬ ∀ (mem : Nat → Event) (type : Char) (content : List Char),
      ∃ k, (readNext^[k] (startRead mem type content)).pc = .done := by
  intro h
  have hends : Ends (startRead (fun _ => ⟨'P', 0, 0⟩) 'P' ['P', ' ', '1', ' ', '2', '\n']) :=
    h _ _ _
  rw [ends_iff_next ReadPc.noConfusion, ends_iff_next ReadPc.noConfusion] at hends
  exact absurd (ends_scan_nil_iff.mp hends) (by decide)

/-! ## What `arrival.c` writes -/

/-- `fprintf(fp, "%c %d %d\n", ..)`, with the type as the format has it. -/
def recordLine (e : Event) : List Char :=
  e.type :: ' ' :: (decimal e.time ++ ' ' :: (decimal e.duration ++ ['\n']))

/-- The records and the line `E`. -/
def arrivalText (records : List Event) : List Char :=
  records.flatMap recordLine ++ ['E', '\n']

/-- A type that `arrival.c` writes, and numbers that an `int` holds. -/
structure ArrivalRecord (e : Event) : Prop where
  type : e.type = 'P' ∨ e.type = 'R' ∨ e.type = 'S'
  time : IsInt e.time
  duration : IsInt e.duration

/-- Both numbers of a record are scanned, up to the newline. -/
theorem scanTwo_record (e : Event) (rest : List Char) :
    scanTwo (' ' :: (decimal e.time ++ ' ' :: (decimal e.duration ++ '\n' :: rest)))
      = (some e.time, some e.duration, '\n' :: rest) := by
  have hspace : Text.isSpace ' ' = true := rfl
  have htime : scanInt (' ' :: (decimal e.time ++ ' ' :: (decimal e.duration ++ '\n' :: rest)))
      = (some e.time, ' ' :: (decimal e.duration ++ '\n' :: rest)) := by
    rw [Text.scanInt_space hspace]
    exact Text.scanInt_decimal e.time (Text.noDigit_cons rfl)
  have hduration : scanInt (' ' :: (decimal e.duration ++ '\n' :: rest))
      = (some e.duration, '\n' :: rest) := by
    rw [Text.scanInt_space hspace]
    exact Text.scanInt_decimal e.duration (Text.noDigit_cons rfl)
  simp only [scanTwo, htime, hduration]

/-- A record takes two iterations: one stores it, one passes over its newline. -/
theorem read_record (h : ArrivalRecord e) (hn : E.n < queueSize) (rest : List Char) (type : Char) :
    readNext^[2] ⟨.scan, recordLine e ++ rest, type, E⟩
      = ⟨.scan, rest, e.type, ⟨E.n + 1, Function.update E.Q E.n e⟩⟩ := by
  have hE : e.type ≠ 'E' := by
    rcases h.type with ht | ht | ht <;> rw [ht] <;> decide
  have hline : recordLine e ++ rest
      = e.type :: ' ' :: (decimal e.time ++ ' ' :: (decimal e.duration ++ '\n' :: rest)) := by
    simp [recordLine]
  have hstore : storeEvent E e.type (some e.time) (some e.duration)
      = ⟨E.n + 1, Function.update E.Q E.n e⟩ := by
    simp only [storeEvent, Option.map_some, Option.getD_some, Text.asInt_eq h.time,
      Text.asInt_eq h.duration]
  have hhead : (recordLine e ++ rest).head?.getD type ≠ 'E' := hE
  rw [Function.iterate_succ_apply, scan_record hhead hn, hline, List.tail_cons, scanTwo_record]
  simp only [List.head?_cons, Option.getD_some, hstore]
  rfl

/-- The queue after the first records of a list, with the rest still to come. -/
theorem readRecords_append (mem : Nat → Event) (before : List Event) (e : Event) :
    readRecords mem (before ++ [e])
      = ⟨(readRecords mem before).n + 1,
          Function.update (readRecords mem before).Q (readRecords mem before).n e⟩ := by
  simp only [readRecords, List.length_append, List.length_singleton]
  congr 1
  funext i
  rcases Nat.lt_trichotomy i before.length with hi | hi | hi
  · rw [Function.update_of_ne (Nat.ne_of_lt hi), List.getD_append _ _ _ _ hi]
  · rw [hi, Function.update_self, List.getD_append_right _ _ _ _ le_rfl, Nat.sub_self]
    rfl
  · rw [Function.update_of_ne (Nat.ne_of_gt hi), List.getD_eq_default _ _ (by simp; omega),
      List.getD_eq_default _ _ (by omega)]

/-- By induction on the records to come, two iterations each. -/
theorem read_rest (mem : Nat → Event) (records : List Event) :
    ∀ (before : List Event) (type : Char), (∀ e ∈ records, ArrivalRecord e) →
      before.length + records.length ≤ queueSize →
      readNext^[2 * records.length + 1]
          ⟨.scan, arrivalText records, type, readRecords mem before⟩
        = ⟨.done, ['\n'], 'E', readRecords mem (before ++ records)⟩ := by
  induction records with
  | nil =>
      intro before type _ _
      rw [List.append_nil]
      rfl
  | cons e records ih =>
      intro before type harrival hlen
      rw [List.length_cons] at hlen
      have htext : arrivalText (e :: records) = recordLine e ++ arrivalText records := by
        simp [arrivalText]
      have hsteps : 2 * (e :: records).length + 1 = (2 * records.length + 1) + 2 := by
        rw [List.length_cons]
        omega
      have hroom : (readRecords mem before).n < queueSize := by
        simp only [readRecords]
        omega
      have hlen' : (before ++ [e]).length + records.length ≤ queueSize := by
        rw [List.length_append, List.length_singleton]
        omega
      rw [htext, hsteps, Function.iterate_add_apply]
      calc readNext^[2 * records.length + 1] (readNext^[2]
            ⟨.scan, recordLine e ++ arrivalText records, type, readRecords mem before⟩)
          = readNext^[2 * records.length + 1]
              ⟨.scan, arrivalText records, e.type, readRecords mem (before ++ [e])⟩ := by
            rw [read_record (harrival e List.mem_cons_self) hroom, readRecords_append]
        _ = ⟨.done, ['\n'], 'E', readRecords mem (before ++ [e] ++ records)⟩ :=
            ih _ e.type (fun d hd => harrival d (List.mem_cons_of_mem _ hd)) hlen'
        _ = ⟨.done, ['\n'], 'E', readRecords mem (before ++ e :: records)⟩ := by
            rw [List.append_assoc, List.singleton_append]

/-- **The arrival file is read back exactly**: the loop ends at the `E`, with its records in the
queue in the order of the file. -/
theorem arrivalText_read (mem : Nat → Event) (type : Char) (records : List Event)
    (harrival : ∀ e ∈ records, ArrivalRecord e) (hlen : records.length ≤ queueSize) :
    ∃ k, readNext^[k] (startRead mem type (arrivalText records))
      = ⟨.done, ['\n'], 'E', readRecords mem records⟩ :=
  ⟨2 * records.length + 1,
    read_rest mem records [] type harrival (by rwa [List.length_nil, Nat.zero_add])⟩

/-- A patient who comes before the doctor, and a reporter. -/
theorem arrivalText_read_two :
    ∃ k, readNext^[k] (startRead (fun _ => ⟨'P', 0, 0⟩) 'x'
        (arrivalText [⟨'P', -15, 5⟩, ⟨'R', 120, 10⟩]))
      = ⟨.done, ['\n'], 'E',
        readRecords (fun _ => ⟨'P', 0, 0⟩) [⟨'P', -15, 5⟩, ⟨'R', 120, 10⟩]⟩ := by
  refine arrivalText_read _ _ _ (fun e he => ?_) (by decide)
  rcases List.mem_cons.mp he with rfl | hlast
  · exact ⟨.inl rfl, by decide, by decide⟩
  · rw [List.mem_singleton.mp hlast]
    exact ⟨.inr (.inl rfl), by decide, by decide⟩

end OSLab.Clinic
