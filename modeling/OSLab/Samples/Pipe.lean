import OSLab.Lib.Machine
import OSLab.Lib.Text

set_option autoImplicit false

/-! # The pipe of `Assignment_03/pipe.c`

The child writes the numbers of its rounds into a pipe, one in each `BUFSIZE` bytes, and the parent reads
them. In the source there are `10` rounds. A pipe is a queue of bytes: a `read` blocks while it is empty
and somebody may still write, and takes what there is; a `write` of no more than `PIPE_BUF` bytes is put
in whole, and blocks until there is room for it. What is in `line` after the number is left from before,
and is written too.

All bytes in the pipe are those of whole records (`Records`), so each `read` gets one, and the parent
reads the numbers in order.
-/

namespace OSLab.Samples.Pipe

open OSLab.Text

def BUFSIZE : Nat := 80

/-- How many bytes a pipe holds. -/
def PIPE_SIZE : Nat := 65536

inductive ChildPc
  | absent
  | closeRead
  | loop (i : Nat)
  | sprintf (i : Nat)
  | write (i : Nat)
  | print (i : Nat)
  | exited
  | killed
  deriving DecidableEq, Repr

inductive ParentPc
  | fork
  | closeWrite
  | loop (i : Nat)
  | read (i : Nat)
  | sscanf (i : Nat)
  | print (i : Nat)
  | exited
  deriving DecidableEq, Repr

/-- `childLine` and `parentLine` are the two copies of `line`. The child's `n` is its `i`; `n` is the
parent's. `writes` and `reads` are what the two print. -/
structure State where
  pipe : List Char
  child : ChildPc
  parent : ParentPc
  childLine : List Char
  parentLine : List Char
  n : Int
  writes : List Nat
  reads : List Int
  deriving DecidableEq

inductive Party
  | child
  | parent
  deriving DecidableEq, Repr

/-- A descriptor for reading is open. -/
def State.readers (s : State) : Bool :=
  s.child = .closeRead || s.parent ≠ .exited

/-- A descriptor for writing is open. -/
def State.writers (s : State) : Bool :=
  s.parent = .fork || s.parent = .closeWrite
    || !(s.child = .absent || s.child = .exited || s.child = .killed)

/-- The C string in a buffer. -/
def cstr (l : List Char) : List Char := l.takeWhile (· != '\x00')

/-- `sprintf` into a buffer: the text, its end, and what was there behind it. -/
def store (text line : List Char) : List Char := text ++ '\x00' :: line.drop (text.length + 1)

def childStep (rounds : Nat) (s : State) : Option State :=
  match s.child with
  | .absent => none
  | .closeRead => some { s with child := .loop 0 }
  | .loop i => some { s with child := if i < rounds then .sprintf i else .exited }
  | .sprintf i => some { s with childLine := store (decimal i) s.childLine, child := .write i }
  | .write i =>
      if s.readers = false then some { s with child := .killed }
      else if s.pipe.length + BUFSIZE ≤ PIPE_SIZE then
        some { s with pipe := s.pipe ++ s.childLine.take BUFSIZE, child := .print i }
      else none
  | .print i => some { s with writes := s.writes ++ [i], child := .loop (i + 1) }
  | .exited => none
  | .killed => none

def parentStep (rounds : Nat) (s : State) : Option State :=
  match s.parent with
  | .fork => some { s with
      parent := .closeWrite, child := .closeRead, childLine := s.parentLine }
  | .closeWrite => some { s with parent := .loop 0 }
  | .loop i => some { s with parent := if i < rounds then .read i else .exited }
  | .read i =>
      if s.pipe = [] then
        if s.writers then none else some { s with parent := .sscanf i }
      else some { s with
        parentLine := s.pipe.take BUFSIZE ++ s.parentLine.drop (s.pipe.take BUFSIZE).length
        pipe := s.pipe.drop BUFSIZE
        parent := .sscanf i }
  | .sscanf i => some { s with
      n := ((scanInt (cstr s.parentLine)).1.map asInt).getD s.n, parent := .print i }
  | .print i => some { s with reads := s.reads ++ [s.n], parent := .loop (i + 1) }
  | .exited => none

def start (line : List Char) : State := ⟨[], .absent, .fork, [], line, 0, [], []⟩

/-- `line` holds anything at first. -/
def machine (rounds : Nat) : Machine State Party where
  init s := ∃ line, line.length = BUFSIZE ∧ s = start line
  next s
    | .child => childStep rounds s
    | .parent => parentStep rounds s

variable {rounds i k r w : Nat} {s s' : State} {l text line pipe : List Char}

/-! ## Records -/

/-- The record of the number `k`. -/
structure Record (k : Nat) (l : List Char) : Prop where
  length : l.length = BUFSIZE
  text : cstr l = decimal k

/-- The records of `r, …, w - 1`, one behind the other. -/
inductive Records : Nat → Nat → List Char → Prop
  | nil {k : Nat} : Records k k []
  | cons {r w : Nat} {l rest : List Char} : Record r l → Records (r + 1) w rest →
      Records r w (l ++ rest)

theorem Records.snoc (h : Records r w pipe) (hl : Record w l) : Records r (w + 1) (pipe ++ l) := by
  induction h with
  | nil =>
      rw [List.nil_append, ← List.append_nil l]
      exact .cons hl .nil
  | cons hr _ ih =>
      rw [List.append_assoc]
      exact .cons hr (ih hl)

theorem Records.le (h : Records r w pipe) : r ≤ w := by
  induction h with
  | nil => exact Nat.le_refl _
  | cons _ _ ih => exact Nat.le_of_succ_le ih

/-- An empty pipe has no records. -/
theorem Records.eq_of_nil (h : Records r w []) : r = w := by
  generalize hp : ([] : List Char) = pipe at h
  cases h with
  | nil => rfl
  | cons hr _ =>
      obtain ⟨rfl, -⟩ := List.append_eq_nil_iff.mp hp.symm
      cases hr.length

/-- The first record is the first `BUFSIZE` bytes. -/
theorem Records.split (h : Records r w pipe) (hne : pipe ≠ []) :
    Record r (pipe.take BUFSIZE) ∧ Records (r + 1) w (pipe.drop BUFSIZE) := by
  cases h with
  | nil => exact absurd rfl hne
  | @cons _ _ l rest hr hrest =>
      have htake : (l ++ rest).take BUFSIZE = l := by rw [← hr.length, List.take_left]
      have hdrop : (l ++ rest).drop BUFSIZE = rest := by rw [← hr.length, List.drop_left]
      rw [htake, hdrop]
      exact ⟨hr, hrest⟩

theorem cstr_store (htext : '\x00' ∉ text) : cstr (store text line) = text := by
  have hall : ∀ c ∈ text, (c != '\x00') = true := fun c hc => by
    have hne : c ≠ '\x00' := fun he => htext (he ▸ hc)
    simpa using hne
  rw [cstr, store, List.takeWhile_append_of_pos hall]
  simp

theorem length_store (h : text.length < line.length) : (store text line).length = line.length := by
  simp only [store, List.length_append, List.length_cons, List.length_drop]
  omega

/-- The numbers of an `int` fit into the buffer. -/
theorem length_decimal_lt (hk : Text.IsInt k) : (decimal k).length < BUFSIZE := by
  have hle : (decimal k).length ≤ 10 := by
    rw [length_decimal_le_iff (by decide)]
    have := hk.2
    omega
  exact Nat.lt_of_le_of_lt hle (by decide)

theorem record_store (hk : Text.IsInt k) (hl : line.length = BUFSIZE) :
    Record k (store (decimal k) line) where
  length := by
    rw [length_store (by rw [hl]; exact length_decimal_lt hk), hl]
  text := cstr_store (not_mem_decimal k (by decide) (by decide))

/-! ## The invariant -/

/-- How many records the child has put in, and the parent has taken out. -/
def ChildPc.put (rounds : Nat) : ChildPc → Nat
  | .absent | .closeRead => 0
  | .loop i | .sprintf i | .write i => i
  | .print i => i + 1
  | .exited | .killed => rounds

def ParentPc.taken (rounds : Nat) : ParentPc → Nat
  | .fork | .closeWrite => 0
  | .loop i | .read i => i
  | .sscanf i | .print i => i + 1
  | .exited => rounds

/-- How often a side has printed. -/
def ChildPc.printed (rounds : Nat) : ChildPc → Nat
  | .print i => i
  | q => q.put rounds

def ParentPc.printed (rounds : Nat) : ParentPc → Nat
  | .sscanf i | .print i => i
  | q => q.taken rounds

/-- The child is alive, and the round is one of `rounds`. -/
def ChildPc.Within (rounds : Nat) : ChildPc → Prop
  | .loop i => i ≤ rounds
  | .sprintf i | .write i | .print i => i < rounds
  | .killed => False
  | _ => True

def ParentPc.Within (rounds : Nat) : ParentPc → Prop
  | .loop i => i ≤ rounds
  | .read i | .sscanf i | .print i => i < rounds
  | _ => True

/-- What the buffers hold that is about to be used. -/
def Filled (line : List Char) : ChildPc → Prop
  | .write i => Record i line
  | _ => True

def Got (line : List Char) (n : Int) : ParentPc → Prop
  | .sscanf i => Record i line
  | .print i => n = i
  | _ => True

/-- The numbers below `k`, as read. -/
def readings (k : Nat) : List Int := (List.range k).map fun j : Nat => (j : Int)

theorem readings_succ (k : Nat) : readings (k + 1) = readings k ++ [(k : Int)] := by
  simp [readings, List.range_succ]

/-- The pipe holds the records put in and not taken out. -/
structure Flow (rounds : Nat) (s : State) : Prop where
  child : s.child.Within rounds
  parent : s.parent.Within rounds
  forked : s.child = .absent ↔ s.parent = .fork
  records : Records (s.parent.taken rounds) (s.child.put rounds) s.pipe
  childLine : s.child ≠ .absent → s.childLine.length = BUFSIZE
  parentLine : s.parentLine.length = BUFSIZE
  filled : Filled s.childLine s.child
  got : Got s.parentLine s.n s.parent
  writes : s.writes = List.range (s.child.printed rounds)
  reads : s.reads = readings (s.parent.printed rounds)

theorem flow_start (hl : line.length = BUFSIZE) : Flow rounds (start line) where
  child := trivial
  parent := trivial
  forked := ⟨fun _ => rfl, fun _ => rfl⟩
  records := .nil
  childLine h := absurd rfl h
  parentLine := hl
  filled := trivial
  got := trivial
  writes := rfl
  reads := rfl

theorem flow_child (hrounds : Text.IsInt rounds) (h : Flow rounds s)
    (hs : childStep rounds s = some s') : Flow rounds s' := by
  obtain ⟨pipe, c, p, cl, pl, n, writes, reads⟩ := s
  obtain ⟨hc, hp, hforked, hrec, hcl, hpl, hfilled, hgot, hwrites, hreads⟩ := h
  simp only at hc hp hforked hrec hcl hpl hfilled hgot hwrites hreads
  have hparent : c ≠ .absent → p ≠ .fork := fun hne he => hne (hforked.mpr he)
  cases c with
  | absent | exited | killed => cases hs
  | closeRead =>
      cases hs
      exact ⟨Nat.zero_le rounds, hp, iff_of_false (by simp) (hparent (by simp)), hrec,
        fun _ => hcl (by simp), hpl, trivial, hgot, hwrites, hreads⟩
  | loop i =>
      cases hs
      by_cases hi : i < rounds
      · rw [if_pos hi]
        exact ⟨hi, hp, iff_of_false (by simp) (hparent (by simp)), hrec, fun _ => hcl (by simp), hpl,
          trivial, hgot, hwrites, hreads⟩
      · have hir : i = rounds := Nat.le_antisymm hc (Nat.le_of_not_lt hi)
        subst hir
        rw [if_neg hi]
        exact ⟨trivial, hp, iff_of_false (by simp) (hparent (by simp)), hrec, fun _ => hcl (by simp),
          hpl, trivial, hgot, hwrites, hreads⟩
  | sprintf i =>
      cases hs
      have hi : i < rounds := hc
      have hint : Text.IsInt i := ⟨by omega, by have := hrounds.2; omega⟩
      have hrecord := record_store hint (hcl (by simp))
      exact ⟨hc, hp, iff_of_false (by simp) (hparent (by simp)), hrec, fun _ => hrecord.length, hpl,
        hrecord, hgot, hwrites, hreads⟩
  | write i =>
      simp only [childStep] at hs
      split_ifs at hs with hreaders hroom
      · -- the parent is there as long as there is something to be read
        cases hs
        have hle := hrec.le
        simp only [State.readers, Bool.or_eq_false_iff, decide_eq_false_iff_not, not_not] at hreaders
        rw [hreaders.2] at hle
        exact absurd hc (Nat.not_lt.mpr hle)
      · cases hs
        have htake : cl.take BUFSIZE = cl := by
          rw [List.take_of_length_le (hcl (by simp)).le]
        rw [htake]
        exact ⟨hc, hp, iff_of_false (by simp) (hparent (by simp)), hrec.snoc hfilled,
          fun _ => hcl (by simp), hpl, trivial, hgot, hwrites, hreads⟩
  | print i =>
      cases hs
      refine ⟨Nat.succ_le_of_lt hc, hp, iff_of_false (by simp) (hparent (by simp)), hrec,
        fun _ => hcl (by simp), hpl, trivial, hgot, ?_, hreads⟩
      show writes ++ [i] = List.range (i + 1)
      rw [hwrites, List.range_succ]
      rfl

theorem flow_parent (hrounds : Text.IsInt rounds) (h : Flow rounds s)
    (hs : parentStep rounds s = some s') : Flow rounds s' := by
  obtain ⟨pipe, c, p, cl, pl, n, writes, reads⟩ := s
  obtain ⟨hc, hp, hforked, hrec, hcl, hpl, hfilled, hgot, hwrites, hreads⟩ := h
  simp only at hc hp hforked hrec hcl hpl hfilled hgot hwrites hreads
  have hchild : p ≠ .fork → c ≠ .absent := fun hne he => hne (hforked.mp he)
  cases p with
  | exited => cases hs
  | fork =>
      cases hs
      obtain rfl := hforked.mpr rfl
      exact ⟨trivial, trivial, by simp, hrec, fun _ => hpl, hpl, trivial, trivial, hwrites, hreads⟩
  | closeWrite =>
      cases hs
      exact ⟨hc, Nat.zero_le rounds, iff_of_false (hchild (by simp)) (by simp), hrec, hcl, hpl,
        hfilled, trivial, hwrites, hreads⟩
  | loop i =>
      cases hs
      by_cases hi : i < rounds
      · rw [if_pos hi]
        exact ⟨hc, hi, iff_of_false (hchild (by simp)) (by simp), hrec, hcl, hpl, hfilled, trivial,
          hwrites, hreads⟩
      · have hir : i = rounds := Nat.le_antisymm hp (Nat.le_of_not_lt hi)
        subst hir
        rw [if_neg hi]
        exact ⟨hc, trivial, iff_of_false (hchild (by simp)) (by simp), hrec, hcl, hpl, hfilled, trivial,
          hwrites, hreads⟩
  | read i =>
      simp only [parentStep] at hs
      split_ifs at hs with hempty hwriters
      · -- when the child has exited, it has written what is to be read
        subst hempty
        have htaken := hrec.eq_of_nil
        have hend : c = .exited := by
          by_contra hne
          have hkilled : c ≠ .killed := fun hk => by rw [hk] at hc; exact hc
          exact hwriters (by simp [State.writers, hchild, hne, hkilled])
        subst hend
        have hi : i < rounds := hp
        exact absurd htaken hi.ne
      · cases hs
        obtain ⟨hfirst, hrest⟩ := hrec.split hempty
        have hline : pipe.take BUFSIZE ++ pl.drop (pipe.take BUFSIZE).length = pipe.take BUFSIZE := by
          rw [hfirst.length, ← hpl, List.drop_length, List.append_nil]
        rw [hline]
        exact ⟨hc, hp, iff_of_false (hchild (by simp)) (by simp), hrest, hcl, hfirst.length, hfilled,
          hfirst, hwrites, hreads⟩
  | sscanf i =>
      cases hs
      have hi : i < rounds := hp
      have hint : Text.IsInt i := ⟨by omega, by have := hrounds.2; omega⟩
      refine ⟨hc, hp, iff_of_false (hchild (by simp)) (by simp), hrec, hcl, hpl, hfilled, ?_, hwrites,
        hreads⟩
      have hscan := scanInt_decimal (i : Int) noDigit_nil
      rw [List.append_nil] at hscan
      show (((scanInt (cstr pl)).1.map asInt).getD n) = i
      rw [Record.text hgot, hscan, Option.map_some, Option.getD_some, asInt_eq hint]
  | print i =>
      cases hs
      obtain rfl : n = i := hgot
      refine ⟨hc, Nat.succ_le_of_lt hp, iff_of_false (hchild (by simp)) (by simp), hrec, hcl, hpl,
        hfilled, trivial, hwrites, ?_⟩
      show reads ++ [(i : Int)] = readings (i + 1)
      rw [hreads, readings_succ]
      rfl

theorem flow_reachable (hrounds : Text.IsInt rounds) (h : (machine rounds).Reachable s) :
    Flow rounds s := by
  refine h.invariant ?_ fun s a s' hf _ hs => ?_
  · rintro s ⟨line, hl, rfl⟩
    exact flow_start hl
  · cases a with
    | child => exact flow_child hrounds hf hs
    | parent => exact flow_parent hrounds hf hs

theorem Records.length (h : Records r w pipe) : pipe.length = BUFSIZE * (w - r) := by
  induction h with
  | nil => simp
  | cons hr hrest ih =>
      have hle := hrest.le
      rw [List.length_append, hr.length, ih, Nat.add_comm, ← Nat.mul_succ]
      congr 1
      omega

theorem ChildPc.printed_le (c : ChildPc) :
    c.printed rounds ≤ c.put rounds ∧ c.put rounds ≤ c.printed rounds + 1 := by
  cases c <;> simp [ChildPc.printed, ChildPc.put]

theorem ParentPc.printed_le (p : ParentPc) : p.printed rounds ≤ p.taken rounds := by
  cases p <;> simp [ParentPc.printed, ParentPc.taken]

/-- **The numbers come out as they went in**: the pipe holds the records that the child has put in and the
parent has not taken out, and the parent has read `0, 1, 2, …`, none of them before it was put in. -/
theorem records_in_order (hrounds : Text.IsInt rounds) (h : (machine rounds).Reachable s) :
    s.child ≠ .killed ∧ Records (s.parent.taken rounds) (s.child.put rounds) s.pipe
      ∧ s.writes = List.range (s.child.printed rounds) ∧ s.reads = readings (s.parent.printed rounds)
      ∧ s.parent.printed rounds ≤ s.child.put rounds
      ∧ s.child.put rounds ≤ s.child.printed rounds + 1 := by
  have hf := flow_reachable hrounds h
  refine ⟨fun hkilled => ?_, hf.records, hf.writes, hf.reads, s.parent.printed_le.trans hf.records.le,
    s.child.printed_le.2⟩
  have hc := hf.child
  rw [hkilled] at hc
  exact hc

/-- The child sends two records, and the parent reads the first. -/
def shortRun : List Party :=
  List.replicate 3 .parent ++ List.replicate 9 .child ++ List.replicate 3 .parent

/-- `line` as it is in a memory of zeros. -/
def zeros : List Char := List.replicate BUFSIZE '\x00'

theorem records_in_order_run : ∃ s, (machine 2).Reachable s ∧ s.reads = [0] ∧ s.writes = [0, 1]
    ∧ Records 1 2 s.pipe := by
  obtain ⟨s, hr, hs⟩ := Machine.exists_reachable_of_exec (M := machine 2) (s := start zeros)
    (l := shortRun) (p := fun s => decide (s.reads = [0] ∧ s.writes = [0, 1]
      ∧ s.parent.taken 2 = 1 ∧ s.child.put 2 = 2)) ⟨zeros, rfl, rfl⟩
    (by decide +kernel)
  obtain ⟨hreads, hwrites, htaken, hput⟩ := of_decide_eq_true hs
  have hrec := (records_in_order (by decide) hr).2.1
  rw [htaken, hput] at hrec
  exact ⟨s, hr, hreads, hwrites, hrec⟩

/-! ## Every run ends -/

/-- **No deadlock**: where nothing moves, both have exited, the pipe is empty and all numbers have been
read. -/
theorem pipe_drained (hrounds : Text.IsInt rounds) (h : (machine rounds).Reachable s)
    (hs : (machine rounds).Stuck s) :
    s.child = .exited ∧ s.parent = .exited ∧ s.pipe = [] ∧ s.reads = readings rounds := by
  have hf := flow_reachable hrounds h
  have hchild : childStep rounds s = none := hs .child
  have hparent : parentStep rounds s = none := hs .parent
  have hreads := hf.reads
  have hrec := hf.records
  have hlen := hrec.length
  -- the parent has exited, or waits at the empty pipe
  have hp : s.parent = .exited ∨ ∃ i, s.parent = .read i ∧ s.pipe = [] ∧ s.writers = true := by
    unfold parentStep at hparent
    cases hp : s.parent with
    | exited => exact .inl rfl
    | read i =>
        rw [hp] at hparent
        simp only at hparent
        split_ifs at hparent with hempty hwriters
        exact .inr ⟨i, rfl, hempty, hwriters⟩
    | _ => rw [hp] at hparent; cases hparent
  have hc : s.child = .exited ∨ ∃ i, s.child = .write i ∧ PIPE_SIZE < s.pipe.length + BUFSIZE := by
    unfold childStep at hchild
    cases hc : s.child with
    | exited => exact .inl rfl
    | absent =>
        rcases hp with hp | ⟨i, hp, -⟩ <;> have := hf.forked.mp hc <;> rw [hp] at this <;> cases this
    | killed =>
        have halive := hf.child
        rw [hc] at halive
        exact halive.elim
    | write i =>
        rw [hc] at hchild
        simp only at hchild
        split_ifs at hchild with hreaders hroom
        exact .inr ⟨i, rfl, Nat.lt_of_not_le hroom⟩
    | _ => rw [hc] at hchild; cases hchild
  have hin := hf.child
  have hout := hf.parent
  rcases hp with hp | ⟨i, hp, hempty, hwriters⟩
  · rw [hp] at hrec hreads hlen
    rcases hc with hc | ⟨j, hc, hfull⟩
    · rw [hc] at hlen
      refine ⟨hc, hp, ?_, hreads⟩
      simpa [ParentPc.taken, ChildPc.put] using hlen
    · rw [hc] at hin hrec
      exact absurd hin (Nat.not_lt.mpr hrec.le)
  · rw [hempty] at hrec
    have htaken := hrec.eq_of_nil
    rw [hp] at hout htaken
    rcases hc with hc | ⟨j, hc, hfull⟩
    · rw [hc] at htaken
      exact absurd htaken (Nat.ne_of_lt hout)
    · rw [hempty] at hfull
      exact absurd hfull (by decide)

theorem stuck_of_exited (hc : s.child = .exited) (hp : s.parent = .exited) :
    (machine rounds).Stuck s := by
  intro a
  cases a with
  | child => simp only [machine, childStep, hc]
  | parent => simp only [machine, parentStep, hp]

/-- Two rounds: the parent waits for each record. -/
theorem pipe_drained_run : ∃ s, (machine 2).Reachable s ∧ s.child = .exited ∧ s.reads = [0, 1] := by
  obtain ⟨s, hr, hs⟩ := Machine.exists_reachable_of_exec (M := machine 2) (s := start zeros)
    (l := List.replicate 3 .parent ++ List.replicate 4 .child ++ List.replicate 4 .parent
      ++ List.replicate 6 .child ++ List.replicate 4 .parent)
    (p := fun s => decide (s.child = .exited ∧ s.parent = .exited)) ⟨zeros, rfl, rfl⟩
    (by decide +kernel)
  obtain ⟨hc, hp⟩ := of_decide_eq_true hs
  exact ⟨s, hr, hc, (pipe_drained (by decide) hr (stuck_of_exited hc hp)).2.2.2⟩

/-- How many steps the child is from its end at most, and the parent. -/
def ChildPc.left (rounds : Nat) : ChildPc → Nat
  | .absent | .exited | .killed => 0
  | .closeRead => 4 * rounds + 2
  | .loop i => 4 * (rounds - i) + 1
  | .sprintf i => 4 * (rounds - (i + 1)) + 4
  | .write i => 4 * (rounds - (i + 1)) + 3
  | .print i => 4 * (rounds - (i + 1)) + 2

def ParentPc.left (rounds : Nat) : ParentPc → Nat
  | .exited => 0
  | .fork => 8 * rounds + 5
  | .closeWrite => 4 * rounds + 2
  | .loop i => 4 * (rounds - i) + 1
  | .read i => 4 * (rounds - (i + 1)) + 4
  | .sscanf i => 4 * (rounds - (i + 1)) + 3
  | .print i => 4 * (rounds - (i + 1)) + 2

def rank (rounds : Nat) (s : State) : Nat := s.child.left rounds + s.parent.left rounds

theorem child_left (hs : childStep rounds s = some s') : rank rounds s' < rank rounds s := by
  obtain ⟨pipe, c, p, cl, pl, n, writes, reads⟩ := s
  cases c with
  | absent | exited | killed => cases hs
  | loop i =>
      cases hs
      by_cases hi : i < rounds
      · simp only [rank, if_pos hi, ChildPc.left]
        omega
      · simp only [rank, if_neg hi, ChildPc.left]
        omega
  | write i =>
      simp only [childStep] at hs
      split_ifs at hs <;> cases hs
      · simp only [rank, ChildPc.left]
        omega
      · simp only [rank, ChildPc.left]
        omega
  | _ =>
      cases hs
      simp only [rank, ChildPc.left]
      omega

theorem parent_left (hs : parentStep rounds s = some s') : rank rounds s' < rank rounds s := by
  obtain ⟨pipe, c, p, cl, pl, n, writes, reads⟩ := s
  cases p with
  | exited => cases hs
  | fork =>
      cases hs
      simp only [rank, ParentPc.left, ChildPc.left]
      omega
  | loop i =>
      cases hs
      by_cases hi : i < rounds
      · simp only [rank, if_pos hi, ParentPc.left]
        omega
      · simp only [rank, if_neg hi, ParentPc.left]
        omega
  | read i =>
      simp only [parentStep] at hs
      split_ifs at hs <;> cases hs
      · simp only [rank, ParentPc.left]
        omega
      · simp only [rank, ParentPc.left]
        omega
  | _ =>
      cases hs
      simp only [rank, ParentPc.left]
      omega

/-- **Every run ends.** -/
theorem pipe_ends (run : Nat → State) : ¬ (machine rounds).InfiniteRun run := by
  have hrank : ∀ s a s', (machine rounds).next s a = some s' → rank rounds s' < rank rounds s := by
    intro s a s' hs
    cases a with
    | child => exact child_left hs
    | parent => exact parent_left hs
  exact Machine.not_infiniteRun hrank run

end OSLab.Samples.Pipe
