import OSLab.Lib.Machine
import OSLab.Lib.Chunk

set_option autoImplicit false

/-! # The command shells of `Assignment_03/CSE.c`

The children `C` and `E` are joined by two pipes. In command-input mode a child sends what it
reads at its terminal down its pipe; in execute mode it runs what it reads from the other's. Both
inputs go through the one `stdin`, which `dup2` switches between the terminal and the pipe; the
bytes that `stdin` has buffered stay.

A step is one `read` of a child, or the turn of its loop that follows a complete `fgets`, with the
local statements up to the next call. A `read` of the terminal returns part of one line at most, a
`read` of a pipe any bytes there are. While a child runs a command, the command may read lines of
its terminal. The pipes stay open, as both terminals hold their ends.

Each buffered byte carries where it was read, and each child keeps the chunks it typed and the
chunks it ran; no step looks at either.
-/

namespace OSLab.Shells

def MAX : Nat := 100

inductive Child
  | C
  | E
  deriving DecidableEq, Repr

def Child.other : Child → Child
  | .C => .E
  | .E => .C

@[simp] theorem Child.other_other (c : Child) : c.other.other = c := by cases c <;> rfl

theorem Child.other_ne (c : Child) : c.other ≠ c := by cases c <;> simp [Child.other]

theorem Child.eq_or_eq_other (c x : Child) : c = x ∨ c = x.other := by
  cases c <;> cases x <;> simp [Child.other]

/-- The local `mode`: command-input is `0`, execute is `1`. -/
inductive Mode
  | input
  | execute
  deriving DecidableEq, Repr

structure Byte where
  char : Char
  /-- Read from the terminal, not from the pipe. -/
  typed : Bool
  deriving DecidableEq, Repr

structure Shell where
  mode : Mode
  /-- The bytes read and not yet taken by a complete `fgets`. -/
  stdin : List Byte
  /-- What is still to come from the terminal. -/
  terminal : List Char
  exited : Bool
  /-- The chunks taken in command-input mode that came from the terminal. -/
  commands : List (List Char)
  /-- The chunks executed, or tried. -/
  executed : List (List Char)

/-- The two children, and what is in the pipe each of them writes. -/
structure State where
  shell : Child → Shell
  pipe : Child → List Char

/-- `strstr(buff, pat)`. -/
def strstr (buff pat : List Char) : Bool := buff.tails.any fun t => pat.isPrefixOf t

/-- `strstr(buff, "exit")`. -/
def exits (buff : List Char) : Bool := strstr buff "exit".toList

/-- `strstr(buff, "swaprole")`. -/
def swaps (buff : List Char) : Bool := strstr buff "swaprole".toList

/-- A complete `fgets(buff, MAX-1, stdin)`, if the bytes at hand make one. -/
def fgets (stdin : List Byte) : Option (List Byte × List Byte) :=
  takeChunk (fun b => b.char == '\n') (MAX - 2) stdin

def text (buff : List Byte) : List Char := buff.map Byte.char

/-- The loop that cuts `buff` at its newline. -/
def cut (buff : List Char) : List Char := buff.takeWhile (· != '\n')

/-- The pipe that `c` writes, holding `bytes`. -/
def State.setPipe (s : State) (c : Child) (bytes : List Char) : State :=
  { s with pipe := Function.update s.pipe c bytes }

@[simp] theorem State.setPipe_shell (s : State) (c : Child) (bytes : List Char) :
    (s.setPipe c bytes).shell = s.shell := rfl

@[simp] theorem State.setPipe_self (s : State) (c : Child) (bytes : List Char) :
    (s.setPipe c bytes).pipe c = bytes := by simp [State.setPipe]

theorem State.setPipe_ne (s : State) {c d : Child} (bytes : List Char) (h : d ≠ c) :
    (s.setPipe c bytes).pipe d = s.pipe d := by simp [State.setPipe, h]

def State.put (s : State) (c : Child) (k : Shell) : State :=
  { s with shell := Function.update s.shell c k }

@[simp] theorem State.put_shell_self (s : State) (c : Child) (k : Shell) :
    (s.put c k).shell c = k := by simp [State.put]

theorem State.put_shell_ne (s : State) {c d : Child} (k : Shell) (h : d ≠ c) :
    (s.put c k).shell d = s.shell d := by simp [State.put, h]

@[simp] theorem State.put_pipe (s : State) (c : Child) (k : Shell) : (s.put c k).pipe = s.pipe := rfl

/-- A `read` of `n` bytes by an `fgets` that is not complete. -/
def readStep (s : State) (c : Child) (n : Nat) : Option State :=
  let k := s.shell c
  if k.exited = false ∧ fgets k.stdin = none ∧ 0 < n then
    match k.mode with
    | .input =>
        if n ≤ k.terminal.length ∧ '\n' ∉ k.terminal.take (n - 1) then
          some (s.put c { k with
            stdin := k.stdin ++ (k.terminal.take n).map fun ch => Byte.mk ch true
            terminal := k.terminal.drop n })
        else none
    | .execute =>
        let a := s.pipe c.other
        if n ≤ a.length then
          some ((s.setPipe c.other (a.drop n)).put c
            { k with stdin := k.stdin ++ (a.take n).map fun ch => Byte.mk ch false })
        else none
  else none

/-- A turn in command-input mode: the chunk is sent, and the child exits or changes its mode. -/
def inputTurn (s : State) (c : Child) (buff rest : List Byte) : State :=
  let k := s.shell c
  (s.setPipe c (s.pipe c ++ text buff)).put c { k with
    stdin := rest
    commands := if buff.all Byte.typed then k.commands ++ [text buff] else k.commands
    exited := exits (text buff)
    mode := if !exits (text buff) && swaps (text buff) then .execute else .input }

/-- A turn in execute mode. Child `C` runs every chunk but `exit` and then looks for `swaprole`,
child `E` does not run a chunk with `swaprole`. The command takes `n` bytes off the terminal. -/
def executeTurn (s : State) (c : Child) (buff rest : List Byte) (n : Nat) : State :=
  let k := { s.shell c with stdin := rest }
  let buff := cut (text buff)
  if exits buff then s.put c { k with exited := true }
  else
    let run := { k with executed := k.executed ++ [buff], terminal := k.terminal.drop n }
    match c with
    | .C => s.put c { run with mode := if swaps buff then .input else .execute }
    | .E => s.put c (if swaps buff then { k with mode := .input } else run)

def turnStep (s : State) (c : Child) (n : Nat) : Option State :=
  if (s.shell c).exited = false then
    (fgets (s.shell c).stdin).map fun (buff, rest) =>
      match (s.shell c).mode with
      | .input => inputTurn s c buff rest
      | .execute => executeTurn s c buff rest n
  else none

/-- A child reads `n` bytes, or takes its turn. -/
inductive Label
  | read (c : Child) (n : Nat)
  | turn (c : Child) (n : Nat)
  deriving DecidableEq, Repr

/-- Lines without NUL bytes, each ended by a newline. -/
def Lines (terminal : List Char) : Prop :=
  '\x00' ∉ terminal ∧ (terminal = [] ∨ terminal.getLast? = some '\n')

instance (terminal : List Char) : Decidable (Lines terminal) := inferInstanceAs (Decidable (_ ∧ _))

/-- The children as the supervisor starts them. -/
def start (terminal : Child → List Char) : State where
  shell c :=
    { mode := match c with | .C => .input | .E => .execute
      stdin := []
      terminal := terminal c
      exited := false
      commands := []
      executed := [] }
  pipe _ := []

/-- The two children, for any lines typed at their terminals. -/
def machine : Machine State Label where
  init s := ∃ terminal, (∀ c, Lines (terminal c)) ∧ s = start terminal
  next s
    | .read c n => readStep s c n
    | .turn c n => turnStep s c n

/-! ## The roles -/

/-- One child at most is in command-input mode, and each child has run only chunks that the other
has read from its terminal in command-input mode, each once and in order. -/
def Complementary (s : State) : Prop :=
  ¬ ((s.shell .C).mode = .input ∧ (s.shell .E).mode = .input)
    ∧ ∀ c, (s.shell c).executed.Sublist ((s.shell c.other).commands.map cut)

/-- A child that sends a chunk with `swaprole` has nothing left in its `stdin`. -/
def SwapEndsInput (s : State) : Label → Prop
  | .read _ _ => True
  | .turn c _ => (s.shell c).mode = .input → ∀ p ∈ fgets (s.shell c).stdin,
      exits (text p.1) = false → swaps (text p.1) = true → p.2 = []

instance (s : State) : (a : Label) → Decidable (SwapEndsInput s a)
  | .read _ _ => inferInstanceAs (Decidable True)
  | .turn _ _ => inferInstanceAs (Decidable (_ → ∀ _ ∈ _, _))

end OSLab.Shells
