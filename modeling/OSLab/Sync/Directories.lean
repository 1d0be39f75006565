import OSLab.Lib.FileTree

set_option autoImplicit false

/-! # The directory synchroniser of `Assignment_09/code.c`

Source and destination are two file trees. A path is one of the two arguments of the program with the
names on the way behind it, and is given by the list of these names, the last one first. `snprintf` cuts
the paths of the items short where `MAX_PATH_LENGTH` is reached (`itemPath`), so the two paths of an item
need not agree. The paths of `remove_directory` are allocated as long as they are. The source tree does
not change; a step of the program changes the destination and appends to the reports.

What the program does not decide is in an environment (`Env`), which is asked with a tick that
never comes twice: the contents of a `stat` buffer that has not been filled, the order in which
`readdir` lists, whether it lists what was made since `opendir`, what the umask leaves of a mode,
the clock, and the size of a directory after a change. `.` and `..`, which both loops skip, are
not listed.
-/

namespace OSLab.Sync

def BUFFER_SIZE : Nat := 4096
def MAX_PATH_LENGTH : Nat := 1024

structure FileAttr where
  bytes : List UInt8
  mtime : Int
  mode : Nat
  deriving DecidableEq, Repr

structure DirAttr where
  mode : Nat
  size : Nat
  mtime : Int
  deriving DecidableEq, Repr

/-- The name of an entry, a character a byte. -/
abbrev Name := List Char

abbrev Tree := FileTree Name FileAttr DirAttr

/-- The fields of `struct stat` that are used; `isDir` and `mode` are the two parts of
`st_mode`. -/
structure Stat where
  isDir : Bool
  mode : Nat
  size : Nat
  mtime : Int
  deriving DecidableEq, Repr

/-- What the program does not decide, asked with a tick. -/
structure Env where
  /-- An unfilled `struct stat`. -/
  junk : Nat → Stat
  /-- The order of a listing. -/
  order : Nat → List Name → List Name
  order_perm : ∀ k l, (order k l).Perm l
  /-- `readdir` lists an entry made since `opendir`. -/
  late : Nat → Name → Bool
  /-- The mode that a new item gets when this mode is asked for. -/
  umask : Nat → Nat
  now : Nat → Int
  /-- The size of a directory after a change. -/
  size : Nat → Nat

/-! ## Paths -/

/-- The lengths of the two arguments. -/
structure Args where
  src : Nat
  dst : Nat
  deriving DecidableEq, Repr

/-- The length of the path of `p`, below an argument of length `root`. -/
def strlen (root : Nat) : List Name → Nat
  | [] => root
  | n :: p => strlen root p + (n.length + 1)

/-- `snprintf(item_path, sizeof(item_path), "%s/%s", path, n)`. A path that is too long loses its end:
it leads to the entry whose name is left, and `none` is for a path that leads back, as nothing is left of
the name, or `.` or `..`. -/
def itemPath (root : Nat) (p : List Name) (n : Name) : Option (List Name) :=
  if strlen root (n :: p) < MAX_PATH_LENGTH then some (n :: p)
  else
    let left := n.take (MAX_PATH_LENGTH - 1 - (strlen root p + 1))
    if left = [] ∨ left = ['.'] ∨ left = ['.', '.'] then none else some (left :: p)

/-! ## System calls -/

def stat (t : Tree) (p : List Name) : Option Stat :=
  match t.get p with
  | some (.file a) => some ⟨false, a.mode, a.bytes.length, a.mtime⟩
  | some (.dir b) => some ⟨true, b.mode, b.size, b.mtime⟩
  | none => none

/-- The directory of `p` after an entry has come or gone. -/
def touchParent (env : Env) (k : Nat) (t : Tree) : List Name → Tree
  | [] => t
  | _ :: p => t.modify p id fun b => { b with size := env.size k, mtime := env.now k }

def mkdir (env : Env) (k : Nat) (t : Tree) (p : List Name) (mode : Nat) : Tree :=
  if h : t.get p = none ∧ t.HasPlace p then
    touchParent env k (t.putDir p ⟨env.umask mode, env.size k, env.now k⟩ h.2) p
  else t

def unlink (env : Env) (k : Nat) (t : Tree) (p : List Name) : Option Tree :=
  if h : t.isFile p = true then
    some (touchParent env k (t.erase p (FileTree.names_eq_nil_of_isDir_eq_false
      (FileTree.isDir_eq_false_of_isFile h))) p)
  else none

def rmdir (env : Env) (k : Nat) (t : Tree) (p : List Name) : Option Tree :=
  if h : t.isDir p = true ∧ t.names p = [] then
    some (touchParent env k (t.erase p h.2) p)
  else none

/-- `remove`: `unlink` of a file, `rmdir` of a directory. -/
def remove (env : Env) (k : Nat) (t : Tree) (p : List Name) : Option Tree :=
  if t.isFile p then unlink env k t p else rmdir env k t p

/-- `fopen(p, "wb")`: a new or a truncated file; it fails on a directory. -/
def create (env : Env) (k : Nat) (t : Tree) (p : List Name) : Option Tree :=
  if h : t.HasPlace p ∧ t.isDir p = false then
    match t.get p with
    | some (.file a) => some (t.putFile p ⟨[], env.now k, a.mode⟩ h.1 h.2)
    | _ => some (touchParent env k (t.putFile p ⟨[], env.now k, env.umask 0o666⟩ h.1 h.2) p)
  else none

def fwrite (env : Env) (k : Nat) (t : Tree) (p : List Name) (buffer : List UInt8) :
    Tree :=
  t.modify p (fun a => { a with bytes := a.bytes ++ buffer, mtime := env.now k }) id

def utime (t : Tree) (p : List Name) (modtime : Int) : Tree :=
  t.modify p (fun a => { a with mtime := modtime }) fun b => { b with mtime := modtime }

def chmod (t : Tree) (p : List Name) (mode : Nat) : Tree :=
  t.modify p (fun a => { a with mode := mode }) fun b => { b with mode := mode }

/-! ## The program's state -/

/-- The characters that `report_change` prints. -/
inductive ChangeType
  /-- `'+'`. -/
  | added
  /-- `'-'`. -/
  | removed
  /-- `'o'`. -/
  | overwritten
  /-- `'t'`. -/
  | timestamp
  /-- `'p'`. -/
  | permissions
  deriving DecidableEq, Repr

structure State where
  dst : Tree
  reports : List (ChangeType × List Name)
  tick : Nat

/-- A run ends early by `exit(EXIT_FAILURE)`, or because the model has no fuel left, or is not followed
any further, as a path has come to lead back. -/
inductive Halt
  | exit (s : State)
  | outOfFuel
  | astray (s : State)

abbrev Run := Except Halt State

def State.set (s : State) (t : Tree) : State :=
  { s with dst := t, tick := s.tick + 1 }

def reportChange (s : State) (type : ChangeType) (p : List Name) : State :=
  { s with reports := s.reports ++ [(type, p)] }

@[simp] theorem State.set_dst (s : State) (t : Tree) : (s.set t).dst = t := rfl
@[simp] theorem State.set_reports (s : State) (t : Tree) :
    (s.set t).reports = s.reports := rfl
@[simp] theorem reportChange_dst (s : State) (type : ChangeType) (p : List Name) :
    (reportChange s type p).dst = s.dst := rfl
@[simp] theorem reportChange_reports (s : State) (type : ChangeType) (p : List Name) :
    (reportChange s type p).reports = s.reports ++ [(type, p)] := rfl

/-- `if (remove(p) == 0) report_change('-', p)`. -/
def removeItem (env : Env) (s : State) (p : List Name) : State :=
  match remove env s.tick s.dst p with
  | some t => reportChange (s.set t) .removed p
  | none => s.set s.dst

/-! ## `remove_directory` -/

/-- The loop over the entries of `p`, with what it does to a subdirectory as a parameter. It
stops at a file that it cannot unlink. -/
def removeEntries (env : Env) (rm : List Name → State → State) (p : List Name) :
    List Name → State → State × Int
  | [], s => (s, 0)
  | n :: l, s =>
      if s.dst.isDir (n :: p) then removeEntries env rm p l (rm (n :: p) s)
      else
        match unlink env s.tick s.dst (n :: p) with
        | some t => removeEntries env rm p l (reportChange (s.set t) .removed (n :: p))
        | none => (s.set s.dst, -1)

def removeDirectory (env : Env) : Nat → List Name → State → State × Int
  | 0, _, s => (s, -1)
  | fuel + 1, p, s =>
      if s.dst.isDir p then
        let (s, error) := removeEntries env (fun p s => (removeDirectory env fuel p s).1) p
          (env.order s.tick (s.dst.names p)) (s.set s.dst)
        match rmdir env s.tick s.dst p with
        | some t => (reportChange (s.set t) .removed p, error)
        | none => (s.set s.dst, -1)
      else (s, -1)

/-! ## `copy_file` -/

/-- The loop of `fread` and `fwrite`, one block a round. -/
def copyBlocks (env : Env) (k : Nat) (p : List Name) :
    Nat → List UInt8 → Tree → Tree
  | 0, _, t => t
  | rounds + 1, bytes, t =>
      let buffer := bytes.take BUFFER_SIZE
      if buffer = [] then t
      else copyBlocks env k p rounds (bytes.drop BUFFER_SIZE) (fwrite env k t p buffer)

/-- `copy_file` of the source's `p` to the destination's `q`. -/
def copyFile (env : Env) (src : Tree) (p q : List Name) (s : State) : Run :=
  match src.get p with
  | some (.file a) =>
      match create env s.tick s.dst q with
      | some t => .ok (s.set (copyBlocks env s.tick q a.bytes.length a.bytes t))
      | none => .error (.exit s)
  | _ => .error (.exit s)

/-! ## `sync_items` and `sync_directories` -/

/-- `src_stat.st_mode != dst_stat.st_mode`. -/
def Stat.modeDiffers (a b : Stat) : Bool := a.isDir != b.isDir || a.mode != b.mode

/-- `src_stat.st_size != dst_stat.st_size || src_stat.st_mtime != dst_stat.st_mtime`. -/
def Stat.differs (a b : Stat) : Bool := a.size != b.size || a.mtime != b.mtime

/-- The copy of a file with its time and its mode, reported as `type`. `dstStat` is the buffer as
the last `stat` left it. -/
def copyItem (env : Env) (src : Tree) (type : ChangeType) (srcStat dstStat : Stat)
    (p q : List Name) (s : State) : Run := do
  let s ← copyFile env src p q s
  let s := s.set (chmod (utime s.dst q srcStat.mtime) q srcStat.mode)
  let s := reportChange (reportChange s type q) .timestamp q
  return if srcStat.modeDiffers dstStat then reportChange s .permissions q else s

/-- `sync_items` of `p` in the source and `q` in the destination, with `sync_directories` as a
parameter. -/
def syncItems (env : Env) (src : Tree)
    (syncDirectories : List Name → List Name → State → Run) (p q : List Name) (s : State) : Run :=
  let dstStat := (stat s.dst q).getD (env.junk s.tick)
  let s := s.set s.dst
  match stat src p with
  | none =>
      if dstStat.isDir then .ok (removeDirectory env (s.dst.height + 1) q s).1
      else .ok (removeItem env s q)
  | some srcStat =>
      if srcStat.isDir && dstStat.isDir then syncDirectories p q s
      else
        let s := if srcStat.isDir then removeItem env s q else s
        match stat s.dst q with
        | none =>
            if srcStat.isDir then syncDirectories p q s
            else copyItem env src .added srcStat dstStat p q s
        | some dstStat =>
            if srcStat.differs dstStat then copyItem env src .overwritten srcStat dstStat p q s
            else .ok s

/-- The branch of `sync_directories` for a destination that does not exist. -/
def makeDirectory (env : Env) (srcStat : Stat) (q : List Name) (s : State) : State :=
  let dstStat := env.junk s.tick
  let s := s.set (utime (mkdir env s.tick s.dst q srcStat.mode) q srcStat.mtime)
  let s := reportChange (reportChange s .added q) .timestamp q
  if srcStat.modeDiffers dstStat then
    reportChange (s.set (chmod s.dst q srcStat.mode)) .permissions q
  else s

/-- What the second loop lists: the entries that are as they were at `opendir`, and any of the
others. -/
def listed (env : Env) (opened : Tree) (q : List Name) (s : State) : List Name :=
  (s.dst.names q).filter fun n =>
    (opened.isDir (n :: q) == s.dst.isDir (n :: q)
      && opened.isFile (n :: q) == s.dst.isFile (n :: q)) || env.late s.tick n

/-- The body of the two loops, for the entry `n` of the directories `p` and `q`. -/
def visitEntry (env : Env) (args : Args) (src : Tree)
    (syncDirectories : List Name → List Name → State → Run) (p q : List Name) (s : State) (n : Name) :
    Run :=
  match itemPath args.src p n, itemPath args.dst q n with
  | some p, some q => syncItems env src syncDirectories p q s
  | _, _ => .error (.astray s)

def syncDirectories (env : Env) (args : Args) (src : Tree) :
    Nat → List Name → List Name → State → Run
  | 0, _, _, _ => .error .outOfFuel
  | fuel + 1, p, q, s =>
      let visit := visitEntry env args src (syncDirectories env args src fuel) p q
      match stat src p with
      | none => .ok (removeItem env s q)
      | some srcStat =>
          let s := if (stat s.dst q).isNone then makeDirectory env srcStat q s else s
          if src.isDir p && s.dst.isDir q then do
            let opened := s.dst
            let s ← (env.order s.tick (src.names p)).foldlM visit (s.set s.dst)
            (env.order s.tick (listed env opened q s)).foldlM visit (s.set s.dst)
          else .error (.exit s)

/-- The program: `sync_directories` at the two roots. The paths get longer with each call, and the
longest are shorter than the fuel. -/
def sync (env : Env) (args : Args) (src dst : Tree) : Run :=
  syncDirectories env args src MAX_PATH_LENGTH [] [] ⟨dst, [], 0⟩

end OSLab.Sync
