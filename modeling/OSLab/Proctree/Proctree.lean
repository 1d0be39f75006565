import OSLab.Lib.Preorder
import OSLab.Lib.Text

set_option autoImplicit false

/-! # `proctree.c`

`proctree name off` looks for the line of `name` in `treeinfo.txt`, prints the name after `off` tabs,
and runs itself on each child the line lists, with `off + 1`, one after the other. The process of
the start node is the first, and `pids` gives the process numbers in the order of the forks; `k` is
the number of processes forked before.

The line is cut up with `strtok`, whose place is kept from the search into the loop over the
children. The last child of a line has the newline with it. A string that is longer than the array
it is put into is a fault, and so is a missing token; a run that faults has no result.
-/

namespace OSLab.Proctree

open Text (decimal atoi fgets strtok)

def MAXLENNAME : Nat := 256
def MAXLENLINE : Nat := 1024

/-- The size of `offstr`. -/
def OFFSTR : Nat := 10

/-- A string put into an array of `size` bytes, with its `'\0'`. -/
def sprintf (size : Nat) (l : List Char) : Option (List Char) :=
  if l.length < size then some l else none

/-- `printf("%s (%u)\n", word, curpid)` after the tabs. -/
def customPrint (word : List Char) (off : Int) (curpid : Nat) : List Char :=
  List.replicate off.toNat '\t' ++ word ++ ' ' :: '(' :: (decimal curpid ++ [')', '\n'])

/-- `if(token[strlen(token)-1]=='\n') name[strlen(token)-1] = '\0'`. -/
def stripNewline (l : List Char) : List Char :=
  if l.getLast? = some '\n' then l.dropLast else l

/-- The loop over the lines: what `strtok` has left of the line of `name`. -/
def findLine (name : List Char) : Nat → List Char → Option (List Char)
  | 0, _ => none
  | fuel + 1, text =>
      match fgets (MAXLENLINE - 1) text with
      | none => none
      | some (buffer, rest) =>
          match strtok ' ' buffer with
          | none => findLine name fuel rest
          | some (token, left) => if token = name then some left else findLine name fuel rest

/-- The loop over the children; `child` is the program on a name. -/
def childLoop (child : List Char → Nat → Option (List Char × Nat)) :
    Nat → List Char → Nat → Option (List Char × Nat)
  | 0, _, k => some ([], k)
  | n + 1, left, k => do
      let (token, left) ← strtok ' ' left
      let name ← sprintf MAXLENNAME token
      let (out, k) ← child (stripNewline name) k
      let (outs, k) ← childLoop child n left k
      pure (out ++ outs, k)

/-- The program on the arguments `word` and, if there is one, `offArg`: what it and its descendants
print, and the number of processes forked by then. `fuel` bounds the depth of the processes. -/
def proctree (pids : Nat → Nat) (text : List Char) :
    Nat → List Char → Option (List Char) → Nat → Option (List Char × Nat)
  | 0, _, _, _ => none
  | fuel + 1, word, offArg, k => do
      let name ← sprintf MAXLENNAME word
      let off := (offArg.map atoi).getD 0
      match findLine name (text.length + 1) text with
      | none => pure ("City ".toList ++ name ++ " not found\n".toList, k + 1)
      | some left =>
          let (token, left) ← strtok ' ' left
          let offstr ← sprintf OFFSTR (decimal (off + 1))
          let (outs, k') ← childLoop (fun name k => proctree pids text fuel name (some offstr) k)
            (atoi token).toNat left (k + 1)
          pure (customPrint name off (pids k) ++ outs, k')

/-! ## The file -/

/-- A line of the file; the last one may be without its newline. -/
structure Record where
  name : List Char
  children : List (List Char)
  newline : Bool
  deriving DecidableEq, Repr

/-- The children, each after a space. -/
def childrenText (children : List (List Char)) : List Char := children.flatMap (' ' :: ·)

def Record.line (r : Record) : List Char :=
  r.name ++ ' ' :: (decimal r.children.length ++ childrenText r.children)

def Record.text (r : Record) : List Char := r.line ++ if r.newline then ['\n'] else []

def fileText (records : List Record) : List Char := records.flatMap Record.text

/-- A name, as a C string without its end. -/
structure IsName (a : List Char) : Prop where
  nonempty : a ≠ []
  length_le : a.length ≤ 255
  space : ' ' ∉ a
  newline : '\n' ∉ a
  nul : '\x00' ∉ a

/-- The children the file gives a name. -/
def listed (records : List Record) (a : List Char) : List (List Char) :=
  ((records.find? fun r => r.name = a).map Record.children).getD []

structure WellFormed (records : List Record) : Prop where
  names : ∀ r ∈ records, IsName r.name ∧ ∀ c ∈ r.children, IsName c
  lines : ∀ r ∈ records, r.text.length ≤ 1022
  ends : ∀ r ∈ records.dropLast, r.newline = true
  distinct : (records.map Record.name).Nodup
  closed : ∀ r ∈ records, ∀ c ∈ r.children, c ∈ records.map Record.name
  acyclic : ∀ a, ¬ Relation.TransGen (fun c a => c ∈ listed records a) a a

/-- What is to be printed for the nodes, by processes with numbers from the `k`-th on. -/
def printed (pids : Nat → Nat) : Nat → List (Nat × List Char) → List Char
  | _, [] => []
  | k, (d, a) :: nodes => customPrint a d (pids k) ++ printed pids (k + 1) nodes

/-- The strings made for a node fit their arrays: the last child with its newline, and the depth of
the children. -/
def Fits (records : List Record) (x : Nat × List Char) : Prop :=
  (∀ r ∈ records, r.name = x.2 → r.newline = true → ∀ c ∈ r.children.getLast?, c.length < 255)
    ∧ x.1 + 1 < 10 ^ 9

instance (records : List Record) (x : Nat × List Char) : Decidable (Fits records x) :=
  inferInstanceAs (Decidable (_ ∧ _))

variable {records : List Record} {r : Record} {a c : List Char} {cs : List (List Char)}
  {nl : Bool} {k : Nat} {pids : Nat → Nat}

/-! ## The lines -/

theorem newline_not_mem_line (h : IsName r.name ∧ ∀ c ∈ r.children, IsName c) : '\n' ∉ r.line := by
  simp only [Record.line, childrenText, List.mem_append, List.mem_cons, List.mem_flatMap, not_or,
    not_exists, not_and]
  exact ⟨h.1.newline, by decide, Text.not_mem_decimal _ rfl (by decide),
    fun c hc => ⟨by decide, (h.2 c hc).newline⟩⟩

/-- A line is read whole. -/
theorem fgets_record {rs : List Record} (h : IsName r.name ∧ ∀ c ∈ r.children, IsName c)
    (hlen : r.text.length ≤ 1022) (hend : rs = [] ∨ r.newline = true) :
    fgets (MAXLENLINE - 1) (fileText (r :: rs)) = some (r.text, fileText rs) := by
  have hline := newline_not_mem_line h
  have htext : fileText (r :: rs) = r.text ++ fileText rs := List.flatMap_cons
  rw [htext]
  cases hnl : r.newline with
  | true =>
      simp only [Record.text, hnl, if_true, List.length_append, List.length_singleton] at hlen ⊢
      rw [List.append_assoc, List.singleton_append]
      exact Text.fgets_line hline (by rw [MAXLENLINE]; omega) _
  | false =>
      rcases hend with rfl | hend
      · simp only [Record.text, hnl, Bool.false_eq_true, if_false, List.append_nil] at hlen ⊢
        have hne : r.line ≠ [] := by simp [Record.line]
        have hlast : fgets (MAXLENLINE - 1) r.line = some (r.line, []) :=
          Text.fgets_last hne hline (by rw [MAXLENLINE]; omega)
        simpa [fileText] using hlast
      · rw [hnl] at hend
        cases hend

/-- What follows the name in its line. -/
def Record.rest (r : Record) : List Char :=
  decimal r.children.length ++ (childrenText r.children ++ if r.newline then ['\n'] else [])

theorem strtok_text (h : IsName r.name) : strtok ' ' r.text = some (r.name, r.rest) := by
  have htext : r.text = r.name ++ ' ' :: r.rest := by
    simp [Record.text, Record.line, Record.rest]
  rw [htext]
  exact Text.strtok_token h.nonempty h.space _

/-- **The search** finds the first line with the name. -/
theorem findLine_fileText (a : List Char) : ∀ {records : List Record} {fuel : Nat},
    (∀ r ∈ records, IsName r.name ∧ ∀ c ∈ r.children, IsName c) →
    (∀ r ∈ records, r.text.length ≤ 1022) → (∀ r ∈ records.dropLast, r.newline = true) →
    records.length < fuel →
    findLine a fuel (fileText records)
      = (records.find? fun r => r.name = a).map Record.rest
  | [], fuel, _, _, _, hfuel => by
      obtain ⟨fuel, rfl⟩ : ∃ n, fuel = n + 1 := ⟨fuel - 1, by rw [List.length_nil] at hfuel; omega⟩
      rfl
  | r :: rs, fuel, hnames, hlines, hends, hfuel => by
      rw [List.length_cons] at hfuel
      obtain ⟨fuel, rfl⟩ : ∃ n, fuel = n + 1 := ⟨fuel - 1, by omega⟩
      have hr := hnames r List.mem_cons_self
      have hend : rs = [] ∨ r.newline = true := by
        cases rs with
        | nil => exact .inl rfl
        | cons r' rs => exact .inr (hends r List.mem_cons_self)
      have hrest : findLine a fuel (fileText rs)
          = (rs.find? fun r => r.name = a).map Record.rest := findLine_fileText a
        (fun x hx => hnames x (List.mem_cons_of_mem r hx))
        (fun x hx => hlines x (List.mem_cons_of_mem r hx))
        (fun x hx => hends x (by
          cases rs with
          | nil => cases hx
          | cons r' rs => exact List.mem_cons_of_mem r hx)) (by omega)
      simp only [findLine, fgets_record hr (hlines r List.mem_cons_self) hend, strtok_text hr.1]
      by_cases hname : r.name = a
      · rw [if_pos hname, List.find?_cons_of_pos (by simpa using hname)]
        rfl
      · rw [if_neg hname, List.find?_cons_of_neg (by simpa using hname), hrest]

/-! ## The children -/

/-- What `strtok` has left when these children are still to come. -/
def leftOf (nl : Bool) : List (List Char) → List Char
  | [] => []
  | c :: cs => c ++ (childrenText cs ++ if nl then ['\n'] else [])

/-- The number of children, and the first of them next. -/
theorem strtok_rest (r : Record) (hlen : r.children.length < 2 ^ 31) :
    ∃ token, strtok ' ' r.rest = some (token, leftOf r.newline r.children)
      ∧ atoi token = r.children.length := by
  have hne : decimal r.children.length ≠ [] := Nat.toDigits_ne_nil
  have hspace : ' ' ∉ decimal r.children.length := Text.not_mem_decimal _ rfl (by decide)
  cases hc : r.children with
  | nil =>
      rw [hc, List.length_nil] at hne hspace
      cases hnl : r.newline with
      | true =>
          refine ⟨decimal (0 : Nat) ++ ['\n'], ?_, Text.atoi_toDigits (by decide) (Text.noDigit_cons rfl)⟩
          rw [Record.rest, hc, hnl]
          exact Text.strtok_last (by simp) (by decide)
      | false =>
          refine ⟨decimal (0 : Nat) ++ [], ?_, Text.atoi_toDigits (by decide) Text.noDigit_nil⟩
          rw [Record.rest, hc, hnl]
          exact Text.strtok_last (fun h => hne (List.append_eq_nil_iff.mp h).1) (by decide)
  | cons c cs =>
      rw [hc] at hne hspace hlen
      refine ⟨decimal (c :: cs).length, ?_, ?_⟩
      · have hrest : r.rest = decimal (c :: cs).length ++ ' ' :: leftOf r.newline (c :: cs) := by
          rw [Record.rest, hc]
          simp [childrenText, leftOf]
        rw [hrest]
        exact Text.strtok_token hne hspace _
      · have hatoi := Text.atoi_toDigits hlen Text.noDigit_nil
        rwa [List.append_nil] at hatoi

/-- The last child is cut off with the newline, the others without it. -/
theorem strtok_leftOf (h : ∀ x ∈ c :: cs, IsName x) :
    strtok ' ' (leftOf nl (c :: cs))
      = some (if cs = [] ∧ nl = true then c ++ ['\n'] else c, leftOf nl cs) := by
  have hc := h c List.mem_cons_self
  cases cs with
  | nil =>
      cases nl with
      | true =>
          simp only [leftOf, childrenText, List.flatMap_nil, List.nil_append, if_true, and_self]
          refine Text.strtok_last (by simp) ?_
          simpa using hc.space
      | false =>
          simp only [leftOf, childrenText, List.flatMap_nil, Bool.false_eq_true, if_false,
            and_false, List.append_nil]
          exact Text.strtok_last hc.nonempty hc.space
  | cons c' cs =>
      have hleft : leftOf nl (c :: c' :: cs) = c ++ ' ' :: leftOf nl (c' :: cs) := by
        simp [leftOf, childrenText]
      rw [hleft, if_neg (by simp)]
      exact Text.strtok_token hc.nonempty hc.space _

theorem stripNewline_append (a : List Char) : stripNewline (a ++ ['\n']) = a := by
  simp [stripNewline]

theorem stripNewline_name (h : IsName a) : stripNewline a = a := by
  rw [stripNewline, if_neg fun hlast => h.newline (List.mem_of_getLast? hlast)]

/-- The children one after the other. -/
def runAll (child : List Char → Nat → Option (List Char × Nat)) :
    List (List Char) → Nat → Option (List Char × Nat)
  | [], k => some ([], k)
  | c :: cs, k => do
      let (out, k) ← child c k
      let (outs, k) ← runAll child cs k
      pure (out ++ outs, k)

/-- **The loop over the children** runs the program on each of them, unless the last one does not
fit its array. -/
theorem childLoop_eq (child : List Char → Nat → Option (List Char × Nat)) :
    ∀ {cs : List (List Char)} {k : Nat}, (∀ c ∈ cs, IsName c) →
      childLoop child cs.length (leftOf nl cs) k
        = if nl = true → ∀ c ∈ cs.getLast?, c.length < 255 then runAll child cs k else none
  | [], k, _ => by
      rw [if_pos (by simp)]
      rfl
  | [c], k, h => by
      have hc := h c List.mem_cons_self
      have hname : c.length ≤ 255 := hc.length_le
      rw [List.length_singleton, childLoop, strtok_leftOf h]
      simp only [Option.bind_eq_bind, Option.bind_some, true_and]
      cases nl with
      | true =>
          have hcond : (true = true → ∀ x ∈ [c].getLast?, x.length < 255) ↔ c.length < 255 := by
            simp
          by_cases hlen : c.length < 255
          · have hfits : sprintf MAXLENNAME (c ++ ['\n']) = some (c ++ ['\n']) :=
              if_pos (by rw [List.length_append, List.length_singleton, MAXLENNAME]; omega)
            rw [if_pos (hcond.mpr hlen)]
            simp only [if_true, hfits, Option.bind_some, stripNewline_append]
            rfl
          · have hfits : sprintf MAXLENNAME (c ++ ['\n']) = none :=
              if_neg (by rw [List.length_append, List.length_singleton, MAXLENNAME]; omega)
            rw [if_neg (hcond.not.mpr hlen)]
            simp only [if_true, hfits, Option.bind_none]
      | false =>
          have hcond : false = true → ∀ x ∈ [c].getLast?, x.length < 255 := nofun
          have hfits : sprintf MAXLENNAME c = some c := if_pos (by rw [MAXLENNAME]; omega)
          rw [if_pos hcond]
          simp only [Bool.false_eq_true, if_false, hfits, Option.bind_some, stripNewline_name hc]
          rfl
  | c :: c' :: cs, k, h => by
      have hc := h c List.mem_cons_self
      have hlen : c.length < MAXLENNAME := by
        have := hc.length_le
        rw [MAXLENNAME]
        omega
      have hcs : ∀ x ∈ c' :: cs, IsName x := fun x hx => h x (List.mem_cons_of_mem c hx)
      have hrest := fun k => childLoop_eq child (k := k) hcs
      rw [List.length_cons, childLoop, strtok_leftOf h]
      simp only [Option.bind_eq_bind, Option.bind_some, reduceCtorEq, false_and, if_false, sprintf,
        if_pos hlen, stripNewline_name hc, hrest, List.getLast?_cons_cons]
      split
      · rfl
      · simp

/-! ## A run -/

open Subtree (Bounded preorder)

/-- A name that has a line. -/
theorem exists_record (ha : a ∈ records.map Record.name) :
    ∃ r ∈ records, r.name = a ∧ (records.find? fun r => r.name = a) = some r
      ∧ listed records a = r.children := by
  obtain ⟨x, hx, hxa⟩ := List.mem_map.mp ha
  have hsome : (records.find? fun r => r.name = a).isSome :=
    List.find?_isSome.mpr ⟨x, hx, by simpa using hxa⟩
  obtain ⟨r, hr⟩ := Option.isSome_iff_exists.mp hsome
  have hname : r.name = a := by simpa using List.find?_some hr
  exact ⟨r, List.mem_of_find?_eq_some hr, hname, hr, by rw [listed, hr]; rfl⟩

/-- The line of a name is the only one that has to fit. -/
theorem WellFormed.fits_iff (h : WellFormed records) (hr : r ∈ records) (d : Nat) :
    Fits records (d, r.name)
      ↔ (r.newline = true → ∀ c ∈ r.children.getLast?, c.length < 255) ∧ d + 1 < 10 ^ 9 := by
  refine and_congr_left' ⟨fun hall => hall r hr rfl, fun hone x hx hname => ?_⟩
  obtain rfl : x = r := List.inj_on_of_nodup_map h.distinct hx hr hname
  exact hone

theorem WellFormed.length_children (h : WellFormed records) (hr : r ∈ records) :
    r.children.length < 2 ^ 31 := by
  have htext := h.lines r hr
  have hchildren : r.children.length ≤ (childrenText r.children).length :=
    Text.length_le_flatMap fun c _ => List.cons_ne_nil _ _
  simp only [Record.text, Record.line, List.length_append, List.length_cons] at htext
  omega

theorem length_printed_append (k : Nat) (l l' : List (Nat × List Char)) :
    printed pids k (l ++ l') = printed pids k l ++ printed pids (k + l.length) l' := by
  induction l generalizing k with
  | nil => rfl
  | cons x l ih =>
      obtain ⟨d, a⟩ := x
      have hnext : k + 1 + l.length = k + ((d, a) :: l).length := by
        rw [List.length_cons]
        omega
      rw [List.cons_append, printed, printed, ih, List.append_assoc, hnext]

/-- What a run comes to: all is printed and one process forked for each node, or there is a fault. -/
def outcome (pids : Nat → Nat) (records : List Record) (k : Nat) (nodes : List (Nat × List Char)) :
    Option (List Char × Nat) :=
  if ∀ x ∈ nodes, Fits records x then some (printed pids k nodes, k + nodes.length) else none

theorem outcome_append (k : Nat) (l l' : List (Nat × List Char)) :
    outcome pids records k (l ++ l') = (do
      let (out, k) ← outcome pids records k l
      let (outs, k) ← outcome pids records k l'
      pure (out ++ outs, k)) := by
  by_cases hl : ∀ x ∈ l, Fits records x
  · by_cases hl' : ∀ x ∈ l', Fits records x
    · have hboth : ∀ x ∈ l ++ l', Fits records x := fun x hx =>
        (List.mem_append.mp hx).elim (hl x) (hl' x)
      rw [outcome, outcome, if_pos hl, if_pos hboth, length_printed_append, List.length_append,
        ← Nat.add_assoc]
      simp only [Option.bind_eq_bind, Option.bind_some, outcome, if_pos hl']
      rfl
    · have hboth : ¬ ∀ x ∈ l ++ l', Fits records x := fun h =>
        hl' fun x hx => h x (List.mem_append_right l hx)
      rw [outcome, outcome, if_pos hl, if_neg hboth]
      simp only [Option.bind_eq_bind, Option.bind_some, outcome, if_neg hl', Option.bind_none]
  · have hboth : ¬ ∀ x ∈ l ++ l', Fits records x := fun h =>
      hl fun x hx => h x (List.mem_append_left l' hx)
    rw [outcome, outcome, if_neg hl, if_neg hboth]
    rfl

theorem runAll_outcome {child : List Char → Nat → Option (List Char × Nat)}
    {nodes : List Char → List (Nat × List Char)} :
    ∀ {cs : List (List Char)} {k : Nat},
      (∀ c ∈ cs, ∀ k, child c k = outcome pids records k (nodes c)) →
      runAll child cs k = outcome pids records k (cs.flatMap nodes)
  | [], k, _ => (if_pos fun x hx => absurd hx List.not_mem_nil).symm
  | c :: cs, k, h => by
      have hcs : ∀ x ∈ cs, ∀ k, child x k = outcome pids records k (nodes x) :=
        fun x hx => h x (List.mem_cons_of_mem c hx)
      have hrest := fun k => runAll_outcome (k := k) hcs
      rw [runAll, h c List.mem_cons_self, List.flatMap_cons, outcome_append]
      simp only [hrest]

/-- The depth of the children as an argument. -/
theorem offstr_eq {d : Nat} (h : d + 1 < 10 ^ 9) :
    sprintf OFFSTR (decimal ((d : Int) + 1)) = some (decimal ((d : Int) + 1))
      ∧ atoi (decimal ((d : Int) + 1)) = ((d + 1 : Nat) : Int) := by
  have hcast : (d : Int) + 1 = ((d + 1 : Nat) : Int) := by push_cast; rfl
  rw [hcast]
  constructor
  · have hlen : (decimal ((d + 1 : Nat) : Int)).length ≤ 9 :=
      (Text.length_decimal_le_iff (by decide)).mpr h
    exact if_pos (by rw [OFFSTR]; omega)
  · have hatoi := Text.atoi_toDigits (n := d + 1) (by omega) Text.noDigit_nil
    rwa [List.append_nil] at hatoi

theorem offstr_none {d : Nat} (h : ¬ d + 1 < 10 ^ 9) :
    sprintf OFFSTR (decimal ((d : Int) + 1)) = none := by
  have hcast : (d : Int) + 1 = ((d + 1 : Nat) : Int) := by push_cast; rfl
  have hlen : ¬ (decimal ((d + 1 : Nat) : Int)).length ≤ 9 := fun hle =>
    h ((Text.length_decimal_le_iff (by decide)).mp hle)
  rw [hcast]
  exact if_neg (by rw [OFFSTR]; omega)

/-- **The program on a node**, by induction on the levels below it. -/
theorem proctree_outcome (h : WellFormed records) (n : Nat) : ∀ {a : List Char} {d fuel k : Nat}
    {offArg : Option (List Char)}, Bounded (listed records) n a → a ∈ records.map Record.name →
    n ≤ fuel → (offArg.map atoi).getD 0 = d →
    proctree pids (fileText records) fuel a offArg k
      = outcome pids records k (preorder (listed records) n d a) := by
  induction n with
  | zero => exact fun hb => hb.elim
  | succ n ih =>
      intro a d fuel k offArg hb ha hfuel hoff
      obtain ⟨fuel, rfl⟩ : ∃ m, fuel = m + 1 := ⟨fuel - 1, by omega⟩
      obtain ⟨r, hr, rfl, hfind, hlisted⟩ := exists_record ha
      have hname : sprintf MAXLENNAME r.name = some r.name :=
        if_pos (by have := (h.names r hr).1.length_le; rw [MAXLENNAME]; omega)
      have hlen : records.length < (fileText records).length + 1 :=
        Nat.lt_succ_of_le (Text.length_le_flatMap fun x _ => by simp [Record.text, Record.line])
      have hline : findLine r.name ((fileText records).length + 1) (fileText records)
          = some r.rest := by
        rw [findLine_fileText r.name h.names h.lines h.ends hlen, hfind, Option.map_some]
      obtain ⟨token, htoken, hatoi⟩ := strtok_rest r (h.length_children hr)
      have hfits := h.fits_iff hr d
      rw [preorder, hlisted, ← List.singleton_append, outcome_append]
      by_cases hdepth : d + 1 < 10 ^ 9
      · obtain ⟨hoffstr, hdown⟩ := offstr_eq hdepth
        have hchild : ∀ c ∈ r.children, ∀ k, proctree pids (fileText records) fuel c
            (some (decimal ((d : Int) + 1))) k
            = outcome pids records k (preorder (listed records) n (d + 1) c) := fun c hc k =>
          ih (hb c (by rwa [hlisted])) (h.closed r hr c hc) (by omega) hdown
        simp only [proctree, hname, Option.bind_eq_bind, Option.bind_some, hoff, hline, htoken,
          hoffstr, hatoi, Int.toNat_natCast, childLoop_eq _ fun c hc => (h.names r hr).2 c hc,
          runAll_outcome hchild]
        by_cases hlast : r.newline = true → ∀ c ∈ r.children.getLast?, c.length < 255
        · have hnode : outcome pids records k [(d, r.name)]
              = some (customPrint r.name d (pids k), k + 1) := by
            rw [outcome, if_pos (by simpa using hfits.mpr ⟨hlast, hdepth⟩)]
            simp [printed]
          rw [if_pos hlast, hnode]
          rfl
        · have hnode : outcome pids records k [(d, r.name)] = none :=
            if_neg fun hall => hlast (hfits.mp (hall _ (List.mem_singleton_self _))).1
          rw [if_neg hlast, hnode]
          rfl
      · have hnode : outcome pids records k [(d, r.name)] = none :=
          if_neg fun hall => hdepth (hfits.mp (hall _ (List.mem_singleton_self _))).2
        simp only [proctree, hname, Option.bind_eq_bind, Option.bind_some, hoff, hline, htoken,
          offstr_none hdepth, Option.bind_none, hnode]

/-! ## The output -/

/-- With enough fuel the program on a name prints the subtree in preorder. -/
def PrintsPreorder (pids : Nat → Nat) (records : List Record) (a : List Char) : Prop :=
  ∃ n, Bounded (listed records) n a ∧ ∃ m, ∀ fuel, m ≤ fuel →
    ∃ k, proctree pids (fileText records) fuel a none 0
      = some (printed pids 0 (preorder (listed records) n 0 a), k)

/-- All that is made for the nodes of the subtree fits its array. -/
def AllFit (records : List Record) (a : List Char) : Prop :=
  ∃ n, Bounded (listed records) n a ∧ ∀ x ∈ preorder (listed records) n 0 a, Fits records x

/-- A subtree has finitely many levels. -/
theorem WellFormed.bounded (h : WellFormed records) (ha : a ∈ records.map Record.name) :
    ∃ n, Bounded (listed records) n a := by
  refine Subtree.exists_bounded (s := {a | a ∈ records.map Record.name}) (List.finite_toSet _)
    (fun a ha c hc => ?_) h.acyclic ha
  obtain ⟨r, hr, -, -, hlisted⟩ := exists_record ha
  rw [hlisted] at hc
  exact h.closed r hr c hc

/-- A string that does not fit is a fault, whenever the program is not cut off. -/
theorem WellFormed.faults_of_not_fit (h : WellFormed records) (ha : a ∈ records.map Record.name)
    (hnot : ¬ AllFit records a) :
    ∃ n, ∀ fuel, n ≤ fuel → proctree pids (fileText records) fuel a none 0 = none := by
  obtain ⟨n, hb⟩ := h.bounded ha
  refine ⟨n, fun fuel hfuel => ?_⟩
  rw [proctree_outcome h n hb ha hfuel rfl, outcome, if_neg fun hall => hnot ⟨n, hb, hall⟩]

theorem not_prints_of_not_fit (h : WellFormed records) (ha : a ∈ records.map Record.name)
    (hnot : ¬ AllFit records a) : ¬ PrintsPreorder pids records a := by
  rintro ⟨_, _, m, hruns⟩
  obtain ⟨n, hfaults⟩ := h.faults_of_not_fit ha hnot
  obtain ⟨k, hrun⟩ := hruns (max m n) (le_max_left m n)
  rw [hfaults _ (le_max_right m n)] at hrun
  cases hrun

/-- **When the tree is printed in preorder**: when all strings fit. -/
theorem proctree_preorder_iff (pids : Nat → Nat) (records : List Record) (a : List Char)
    (h : WellFormed records) (ha : a ∈ records.map Record.name) :
    PrintsPreorder pids records a ↔ AllFit records a := by
  constructor
  · intro hprints
    by_contra hnot
    exact not_prints_of_not_fit h ha hnot hprints
  · rintro ⟨n, hb, hall⟩
    refine ⟨n, hb, n, fun fuel hfuel => ⟨0 + (preorder (listed records) n 0 a).length, ?_⟩⟩
    rw [proctree_outcome h n hb ha hfuel rfl, outcome, if_pos hall]

/-! ## Two lines -/

/-- A file of a node and its only child. -/
def pair (b : List Char) : List Record := [⟨['a'], [b], true⟩, ⟨b, [], true⟩]

theorem listed_pair {b : List Char} (hb : b ≠ ['a']) (hc : c ∈ listed (pair b) a) :
    a = ['a'] ∧ c = b := by
  by_cases ha : a = ['a']
  · subst ha
    exact ⟨rfl, by simpa [listed, pair] using hc⟩
  · by_cases hab : a = b
    · subst hab
      simp [listed, pair, Ne.symm hb] at hc
    · simp [listed, pair, Ne.symm ha, Ne.symm hab] at hc

theorem pair_wellFormed {b : List Char} (h : IsName b) (hb : b ≠ ['a']) : WellFormed (pair b) where
  names := by
    have ha : IsName ['a'] := ⟨by decide, by decide, by decide, by decide, by decide⟩
    simp [pair, ha, h]
  lines := by
    have hlen := h.length_le
    have hone : (decimal (0 + 1 : Nat)).length = 1 := rfl
    have hzero : (decimal (0 : Nat)).length = 1 := rfl
    intro r hr
    simp only [pair, List.mem_cons, List.not_mem_nil, or_false] at hr
    rcases hr with rfl | rfl
    · simp only [Record.text, Record.line, childrenText, List.length_append, List.length_cons,
        List.flatMap_cons, List.flatMap_nil, List.length_nil, if_true]
      omega
    · simp only [Record.text, Record.line, childrenText, List.length_append, List.length_cons,
        List.flatMap_nil, List.length_nil, if_true]
      omega
  ends := by simp [pair]
  distinct := by simp [pair, Ne.symm hb]
  closed := by simp [pair]
  acyclic := by
    intro a hcycle
    -- whoever has a child is the first node, which is nobody's child
    have hlast : ∀ x y, Relation.TransGen (fun c a => c ∈ listed (pair b) a) x y →
        y = ['a'] ∧ x = b := by
      intro x y hxy
      induction hxy with
      | single hc => exact listed_pair hb hc
      | tail _ hc ih =>
          obtain ⟨hy, hx⟩ := listed_pair hb hc
          exact ⟨hy, ih.2⟩
    obtain ⟨ha, hab⟩ := hlast a a hcycle
    exact hb (hab.symm.trans ha)

theorem proctree_preorder_short :
    PrintsPreorder id (pair ['b']) ['a'] ↔ AllFit (pair ['b']) ['a'] :=
  proctree_preorder_iff id (pair ['b']) ['a']
    (pair_wellFormed ⟨by decide, by decide, by decide, by decide, by decide⟩ (by decide)) (by decide)

theorem isName_replicate {n : Nat} (hpos : n ≠ 0) (hle : n ≤ 255) :
    IsName (List.replicate n 'x') := by
  have hmem : ∀ d, d ≠ 'x' → d ∉ List.replicate n 'x' := fun d hd h =>
    hd (List.eq_of_mem_replicate h)
  exact ⟨by simpa using hpos, by rwa [List.length_replicate], hmem _ (by decide),
    hmem _ (by decide), hmem _ (by decide)⟩

/-- The child of a line with a newline has to leave room for it. -/
theorem pair_not_fit {b : List Char} (hlen : 255 ≤ b.length) : ¬ AllFit (pair b) ['a'] := by
  rintro ⟨n, hb, hall⟩
  cases n with
  | zero => exact hb
  | succ n =>
      have hfits : b.length < 255 :=
        (hall (0, ['a']) List.mem_cons_self).1 ⟨['a'], [b], true⟩ List.mem_cons_self rfl rfl b rfl
      omega

/-- **A name of 255 bytes** at the end of a line does not fit with its newline. -/
theorem name_overflows :
    ¬ ∀ (pids : Nat → Nat) (records : List Record) (a : List Char), WellFormed records →
      a ∈ records.map Record.name → PrintsPreorder pids records a := by
  intro h
  have hlen : (List.replicate 255 'x').length = 255 := List.length_replicate
  have hne : List.replicate 255 'x' ≠ ['a'] := fun heq => by
    rw [heq] at hlen
    exact absurd hlen (by decide)
  have hwf := pair_wellFormed (isName_replicate (by decide) le_rfl) hne
  have ha : ['a'] ∈ (pair (List.replicate 255 'x')).map Record.name := List.mem_cons_self
  exact not_prints_of_not_fit hwf ha (pair_not_fit hlen.ge) (h id _ _ hwf ha)

end OSLab.Proctree
