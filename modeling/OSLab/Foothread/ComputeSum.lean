import OSLab.Foothread.Library

set_option autoImplicit false

/-! # The tree sum of `computesum.c`

`main` reads a tree, makes one thread for each node and one barrier for each inner node, waits
in `foothread_exit` for its threads and prints the sum at the root. The thread of an inner node
waits at its own barrier for its children, adds up their sums, and like the thread of a leaf
then waits at the barrier of its parent.

Up to the first `foothread_create` there is one thread, so the loading of the tree and the
initialisations are a function (`setup`). From there on each access to shared memory and each
`semop` is a step. Thread `0` is `main`, thread `v + 1` is that of node `v`. The fields of
`tree` other than `sum` are not written any more then, so only the sums are in the state. What
comes after the sum is printed is left out.

The sums are of type `int`, and adding two of them wraps around (`toInt`).
-/

namespace OSLab.Foothread

/-! ## Loading the tree -/

structure TreeNode where
  value : Int
  sum : Int
  parent : Int
  children : Int
  deriving DecidableEq, Repr

/-- `num_nodes`, `tree` and `root`. -/
structure Globals where
  numNodes : Nat
  tree : Nat → TreeNode
  root : Nat

def Globals.setNode (g : Globals) (i : Nat) (x : TreeNode) : Globals :=
  { g with tree := Function.update g.tree i x }

/-- One line of the file: a child and its parent. The root is given as its own parent. -/
def addLine (g : Globals) (line : Nat × Nat) : Globals :=
  if line.1 ≠ line.2 then
    let g := g.setNode line.1 { g.tree line.1 with parent := line.2 }
    g.setNode line.2 { g.tree line.2 with children := (g.tree line.2).children + 1 }
  else { g.setNode line.1 { g.tree line.1 with parent := -1 } with root := line.1 }

/-- `initialize_tree` on the number of nodes and the lines after it. -/
def initializeTree (n : Nat) (lines : List (Nat × Nat)) : Globals :=
  lines.foldl addLine ⟨n, fun i => if i < n then ⟨0, 0, -1, 0⟩ else ⟨0, 0, 0, 0⟩, 0⟩

/-- The body of the first loop of `main`: the value of a leaf, the barrier of an inner node. -/
def setupNode (values : Nat → Int) (x : Globals × Mem) (i : Nat) : Globals × Mem :=
  if (x.1.tree i).children = 0 then
    (x.1.setNode i { x.1.tree i with value := values i }, x.2)
  else (x.1, foothreadBarrierInit x.2 i (1 + (x.1.tree i).children))

/-- `common_barrier_start`, numbered after the barriers of the `MAX_NODES` nodes. -/
def commonBarrierStart : Nat := 400

/-- `main` up to its loop of `foothread_create`. -/
def setup (n : Nat) (lines : List (Nat × Nat)) (values : Nat → Int) : Globals × Mem :=
  let x := (List.range n).foldl (setupNode values) (initializeTree n lines, zeroMem)
  (x.1, foothreadBarrierInit (foothreadMutexInit x.2 0) commonBarrierStart (n + 1))

/-! ## The threads -/

/-- What an integer is as an `int`. -/
def toInt (x : Int) : Int := Int.bmod x 4294967296

/-- Where `main` is; `create i` is in the call that makes the thread of node `i`. -/
inductive MainPc
  | create (i : Nat) (pc : CreatePc)
  | exit (pc : ExitPc)
  | lock (pc : LockPc)
  | print
  | unlock (pc : UnlockPc)
  | finished
  deriving DecidableEq, Repr

/-- Where `node_thread` is. -/
inductive NodePc
  | start                                    -- `if (node->children > 0)`
  | wait (pc : BarrierPc)                    -- at the node's own barrier
  | lock (pc : LockPc)
  | setSum
  | scan (i : Nat)                           -- `if (tree[i].parent == node_index)`
  | addChild (i : Nat)                       -- reads `tree[i].sum`,
  | addOwn (i : Nat) (x : Int)               -- reads `node->sum`,
  | store (i : Nat) (y : Int)                -- and writes it
  | unlock (pc : UnlockPc)
  | leaf
  | up                                       -- `if (node->parent != -1)`
  | waitParent (pc : BarrierPc)              -- at the barrier of the parent
  | check                                    -- `if (node->children > 0)`
  | lockReport (pc : LockPc)
  | report
  | unlockReport (pc : UnlockPc)
  | exit (pc : ExitPc)
  | finished
  deriving DecidableEq, Repr

structure Prog where
  mem : Mem
  sum : Nat → Int
  main : MainPc
  node : Nat → Option NodePc
  printed : Option Int
  exited : Bool

/-- The thread of node `v` moves. -/
def Prog.put (s : Prog) (v : Nat) (mem : Mem) (pc : NodePc) : Prog :=
  { s with mem := mem, node := Function.update s.node v (some pc) }

def Prog.setSum (s : Prog) (v : Nat) (x : Int) : Prog :=
  { s with sum := Function.update s.sum v x }

/-- A step of a library call of node `v`: on to the next place in the call, or to `after` when
the call returns. -/
def Prog.call {P : Type} (s : Prog) (v : Nat) (place : P → NodePc) (after : NodePc) :
    Option (Mem × Ctl P) → Option Prog
  | some (mem, .next pc) => some (s.put v mem (place pc))
  | some (mem, .ret) => some (s.put v mem after)
  | some (_, .exit) => some { s with exited := true }
  | some (_, .clone _) | none => none

def nodeNext (g : Globals) (v : Nat) (s : Prog) : NodePc → Option Prog
  | .start => some (s.put v s.mem (if 0 < (g.tree v).children then .wait .setPop else .leaf))
  | .wait pc => s.call v .wait (.lock .setPop) (barrierWait v s.mem pc)
  | .lock pc => s.call v .lock .setSum (mutexLock 0 (v + 1) s.mem pc)
  | .setSum => some ((s.setSum v (g.tree v).value).put v s.mem (.scan 0))
  | .scan i =>
      if i < g.numNodes then
        some (s.put v s.mem (if (g.tree i).parent = v then .addChild i else .scan (i + 1)))
      else some (s.put v s.mem (.unlock .setPop))
  | .addChild i => some (s.put v s.mem (.addOwn i (s.sum i)))
  | .addOwn i x => some (s.put v s.mem (.store i (toInt (s.sum v + x))))
  | .store i y => some ((s.setSum v y).put v s.mem (.scan (i + 1)))
  | .unlock pc => s.call v .unlock .up (mutexUnlock 0 (v + 1) s.mem pc)
  | .leaf => some ((s.setSum v (g.tree v).value).put v s.mem .up)
  | .up => some (s.put v s.mem (if (g.tree v).parent ≠ -1 then .waitParent .setPop else .check))
  | .waitParent pc =>
      s.call v .waitParent .check (barrierWait (g.tree v).parent.toNat s.mem pc)
  | .check =>
      some (s.put v s.mem (if 0 < (g.tree v).children then .lockReport .setPop else .exit .setPop))
  | .lockReport pc => s.call v .lockReport .report (mutexLock 0 (v + 1) s.mem pc)
  | .report => some (s.put v s.mem (.unlockReport .setPop))
  | .unlockReport pc => s.call v .unlockReport (.exit .setPop) (mutexUnlock 0 (v + 1) s.mem pc)
  | .exit pc => s.call v .exit .finished (foothreadExit (v + 1) s.mem pc)
  | .finished => none

/-- Where the loop of `main` is with `i` threads made. -/
def createLoop (n i : Nat) : MainPc := if i < n then .create i .setPop else .exit .setPop

def mainNext (g : Globals) (s : Prog) : MainPc → Option Prog
  | .create i pc =>
      match foothreadCreate 0 (i + 1) s.mem pc with
      | some (mem, .next pc) => some { s with mem := mem, main := .create i pc }
      | some (mem, .clone pc) => some { s with
          mem := mem
          main := .create i pc
          node := Function.update s.node i (some .start) }
      | some (mem, .ret) => some { s with mem := mem, main := createLoop g.numNodes (i + 1) }
      | some (_, .exit) => some { s with exited := true }
      | none => none
  | .exit pc =>
      match foothreadExit 0 s.mem pc with
      | some (mem, .next pc) => some { s with mem := mem, main := .exit pc }
      | some (mem, .ret) => some { s with mem := mem, main := .lock .setPop }
      | _ => none
  | .lock pc =>
      match mutexLock 0 0 s.mem pc with
      | some (mem, .next pc) => some { s with mem := mem, main := .lock pc }
      | some (mem, .ret) => some { s with mem := mem, main := .print }
      | _ => none
  | .print => some { s with main := .unlock .setPop, printed := some (s.sum g.root) }
  | .unlock pc =>
      match mutexUnlock 0 0 s.mem pc with
      | some (mem, .next pc) => some { s with mem := mem, main := .unlock pc }
      | some (mem, .ret) => some { s with mem := mem, main := .finished }
      | some (_, .exit) => some { s with exited := true }
      | _ => none
  | .finished => none

/-- The state before the first `foothread_create`. -/
def startProg (g : Globals) (mem : Mem) : Prog where
  mem := mem
  sum := fun i => (g.tree i).sum
  main := createLoop g.numNodes 0
  node := fun _ => none
  printed := none
  exited := false

/-- `main` and its threads on a tree file with the number `n` and these lines, and on these
values for the leaves. -/
def computeSum (n : Nat) (lines : List (Nat × Nat)) (values : Nat → Int) : Machine Prog Nat where
  init s := s = startProg (setup n lines values).1 (setup n lines values).2
  next s t :=
    if s.exited then none
    else match t with
      | 0 => mainNext (setup n lines values).1 s s.main
      | v + 1 =>
          match s.node v with
          | none => none
          | some pc => nodeNext (setup n lines values).1 v s pc

end OSLab.Foothread
