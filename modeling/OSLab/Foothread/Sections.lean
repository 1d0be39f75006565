import OSLab.Foothread.Roster

set_option autoImplicit false

/-! # The critical sections of the thread table

`foothread_create` has one critical section of the table's mutex and `foothread_exit` has two. One
thread at a time is in one of them (`Guard`): whoever passes a wrong operand to `semop`, as the
operands may be shared, passes a `P` of more than one, which only waits. So what a thread finds in
the table holds until it leaves (`Task.Inside`), and in between the roster is whole. What a thread
keeps from one section for the other is about its own children (`Task.Remembers`), whose entries
nobody else touches.
-/

namespace OSLab.Foothread

/-! ## Places -/

/-- Between a `P` and a `V` of the table's mutex. -/
def Task.inside : Task → Bool
  | .creating _ _ pc =>
      match pc with
      | .setPop | .setVop | .getSem | .lock | .lockOp _ => false
      | _ => true
  | .exiting pc =>
      match pc with
      | .setPop | .setVop | .lock | .lockOp _ | .setJoin _ | .join _ | .joinOp _ _ | .setPopAgain _
      | .lockAgain _ | .lockAgainOp _ _ => false
      | _ => true
  | _ => false

/-- Before the table is made. -/
def Task.early : Task → Bool
  | .idle | .creating _ _ .setPop | .creating _ _ .setVop | .creating _ _ .getSem => true
  | _ => false

/-- In `foothread_create`, before its critical section. -/
def Task.opening : Task → Bool
  | .creating _ _ .lock | .creating _ _ (.lockOp _) => true
  | _ => false

def Task.popSet : Task → Bool
  | .creating _ _ pc => pc ≠ .setPop
  | .exiting pc => pc ≠ .setPop
  | _ => false

def Task.vopSet : Task → Bool
  | .creating _ _ pc => pc ≠ .setPop ∧ pc ≠ .setVop
  | .exiting pc => pc ≠ .setPop ∧ pc ≠ .setVop
  | _ => false

/-- The operation read is a `P`, or a `V` of one. -/
def Task.OpOk : Task → Prop
  | .creating _ _ (.lockOp op) => op ≤ -1
  | .creating _ _ (.unlockOp op) => op = 1
  | .exiting (.lockOp op) => op ≤ -1
  | .exiting (.signalOp _ _ op) => op = 1
  | .exiting (.unlockOp _ op) => op = 1
  | .exiting (.joinOp _ op) => op ≤ -1
  | .exiting (.lockAgainOp _ op) => op ≤ -1
  | .exiting (.unlockAgainOp op) => op = 1
  | _ => True

/-- The thread is past the `P` of the second critical section of its `foothread_exit`. -/
def Task.releases : Task → Bool
  | .exiting (.forget _) | .exiting .unlockAgain | .exiting (.unlockAgainOp _) | .done => true
  | _ => false

/-! ## What a thread knows -/

/-- The thread has found its own entry. -/
structure Found (v : Roll) (t : Nat) (l : ExitLocals) : Prop where
  semaphore : l.semaphore = some (3 + t)
  index : l.index.isSome = true
  isJoinable : l.isJoinable = decide (v.joinType t = FOOTHREAD_JOINABLE)
  parentTid : l.parentTid = gettid (v.creator t)

/-- The thread has not found its own entry. -/
structure Unfound (l : ExitLocals) : Prop where
  semaphore : l.semaphore = none
  index : l.index = none
  isJoinable : l.isJoinable = false

/-- What `foothread_exit` keeps in its local variables. -/
def ExitPc.Remembers (v : Roll) (t : Nat) : ExitPc → Prop
  | .childValid l _ | .childParent l _ | .childJoin l _ | .childTid l _ => Found v t l ∨ Unfound l
  | .unlock l | .unlockOp l _ | .setPopAgain l | .lockAgain l | .lockAgainOp l _ =>
      (Found v t l ∨ Unfound l) ∧ l.mychild = children v.table t
  | .setJoin l | .join l | .joinOp l _ =>
      (Found v t l ∨ Unfound l) ∧ l.mychild = children v.table t ∧ l.mychild ≠ []
  | .forget l => (∀ i ∈ l, i ∈ children v.table t) ∧ l.Nodup
  | _ => True

def Task.Remembers (v : Roll) (t : Nat) : Task → Prop
  | .exiting pc => pc.Remembers v t
  | _ => True

/-- Thread `t` writes entry `i` for the thread it has just made. -/
structure Building (v : Roll) (t : Nat) (joinType : Int) (child i : Nat) : Prop where
  kept : Kept v.created v
  index : 0 < i ∧ i < MAX_THREADS
  free : (v.table i).valid = false
  newest : child = v.created
  pos : 0 < child
  creator : v.creator child = t
  joinType : v.joinType child = joinType
  unreleased : v.released child = false

/-- What `foothread_create` finds and does in its critical section. -/
def CreatePc.Inside (v : Roll) (t : Nat) (joinType : Int) (child : Nat) : CreatePc → Prop
  | .search i => (Kept (v.created + 1) v ∨ Kept 0 v ∧ v.created = 0) ∧ i ≤ MAX_THREADS
      ∧ ∀ k < i, (v.table k).valid = true
  | .ownEntry => Kept 0 v ∧ v.created = 0
  | .clone i => Kept (v.created + 1) v ∧ (0 < i ∧ i < MAX_THREADS) ∧ (v.table i).valid = false
  | .setTid i => Building v t joinType child i
  | .setParent i => Building v t joinType child i ∧ (v.table i).tid = gettid child
  | .setJoin i => Building v t joinType child i ∧ (v.table i).tid = gettid child
      ∧ (v.table i).parentTid = gettid t
  | .setValid i => Building v t joinType child i ∧ (v.table i).tid = gettid child
      ∧ (v.table i).parentTid = gettid t ∧ (v.table i).joinType = joinType
  | .setSem i => Roster (v.created + 1) v ∧ v.nextSem = 3 + v.created ∧ v.Has i v.created
      ∧ ∀ k c, k ≠ i → v.Has k c → (v.table k).semaphore = 3 + c
  | .setVal i => Kept (v.created + 1) v ∧ v.Has i v.created
  | .unlock | .unlockOp _ => Kept (v.created + 1) v
  | .full => Kept (v.created + 1) v ∧ ∀ k < MAX_THREADS, (v.table k).valid = true
  | _ => True

/-- The thread has found its entry and looks for its creator's. -/
structure Asks (v : Roll) (t : Nat) (l : ExitLocals) : Prop where
  found : Found v t l
  none : l.mychild = []
  joinable : v.joinType t = FOOTHREAD_JOINABLE
  creator : v.creator t ≠ t

/-- What `foothread_exit` finds in its critical sections. -/
def ExitPc.Inside (v : Roll) (t : Nat) : ExitPc → Prop
  | .findValid i => Kept (v.created + 1) v ∧ ∀ k < i, ¬ v.Has k t
  | .findTid i => Kept (v.created + 1) v ∧ (∀ k < i, ¬ v.Has k t) ∧ (v.table i).valid = true
  | .findJoin i => Kept (v.created + 1) v ∧ v.Has i t
  | .findSem i j => Kept (v.created + 1) v ∧ v.Has i t
      ∧ j = decide (v.joinType t = FOOTHREAD_JOINABLE)
  | .findParent i j sem => Kept (v.created + 1) v ∧ v.Has i t
      ∧ j = decide (v.joinType t = FOOTHREAD_JOINABLE) ∧ sem = 3 + t
  | .parentValid l _ => Kept (v.created + 1) v ∧ Asks v t l
  | .parentTid l i => Kept (v.created + 1) v ∧ Asks v t l ∧ (v.table i).valid = true
  | .parentSem l i => Kept (v.created + 1) v ∧ Asks v t l ∧ v.Has i (v.creator t)
  | .signal l sem | .signalOp l sem _ => Kept (v.created + 1) v ∧ Asks v t l ∧ sem = 3 + v.creator t
  | .childValid l i => Kept (v.created + 1) v ∧ i ≤ MAX_THREADS ∧ l.mychild = childrenBelow v.table t i
  | .childParent l i => Kept (v.created + 1) v ∧ i < MAX_THREADS
      ∧ l.mychild = childrenBelow v.table t i ∧ (v.table i).valid = true
  | .childJoin l i => Kept (v.created + 1) v ∧ i < MAX_THREADS
      ∧ l.mychild = childrenBelow v.table t i ∧ (v.table i).valid = true
      ∧ (v.table i).parentTid = gettid t
  | .childTid l i => Kept (v.created + 1) v ∧ i < MAX_THREADS
      ∧ l.mychild = childrenBelow v.table t i ∧ (v.table i).valid = true
      ∧ (v.table i).parentTid = gettid t ∧ (v.table i).joinType = FOOTHREAD_JOINABLE
  | _ => Kept (v.created + 1) v

def Task.Inside (v : Roll) (t : Nat) : Task → Prop
  | .creating joinType child pc => pc.Inside v t joinType child
  | .exiting pc => pc.Inside v t
  | _ => True

/-! ## The invariant -/

/-- The roster between two critical sections. The first time there is none yet. -/
def Whole (s : Crew) : Prop :=
  Kept (s.created + 1) s.roll
    ∨ Kept 0 s.roll ∧ s.created = 0 ∧ (s.task 0).opening = true

/-- The mutex of the table is not made, is free, or is held by a thread. -/
inductive Guard (s : Crew) : Prop
  | unmade (init : s.mem.init = false) (alone : s.created = 0) (early : (s.task 0).early = true)
      (kept : Kept 0 s.roll)
  | free (init : s.mem.init = true) (value : s.mem.semval SEM_KEY = 1)
      (outside : ∀ u, (s.task u).inside = false) (whole : Whole s)
  | held (t : Nat) (init : s.mem.init = true) (value : s.mem.semval SEM_KEY = 0)
      (inside : (s.task t).inside = true) (outside : ∀ u, u ≠ t → (s.task u).inside = false)
      (knows : (s.task t).Inside s.roll t)

structure WellRun (arg : Nat → Nat) (s : Crew) : Prop where
  key : s.mem.mutexSemaphore = SEM_KEY
  unborn : ∀ t, s.created < t → s.task t = .idle
  older : ∀ c, 0 < c → c ≤ s.created → s.creator c < c
  root : s.creator 0 = 0 ∧ s.joinType 0 = FOOTHREAD_JOINABLE
  pop : ∀ t, (s.task t).popSet = true → (s.args (arg t)).pop ≤ -1
  vop : ∀ t, (s.task t).vopSet = true → (s.args (arg t)).vop = 1
  op : ∀ t, (s.task t).OpOk
  guard : Guard s
  remembers : ∀ t, (s.task t).Remembers s.roll t
  released : ∀ c, s.released c = true → 0 < c ∧ c ≤ s.created
    ∧ s.joinType c = FOOTHREAD_JOINABLE ∧ (s.task (s.creator c)).releases = true

variable {arg : Nat → Nat} {s s' : Crew} {t u c : Nat} {x : Task} {mem : Mem} {released : Nat → Bool}

/-! ## A step of one thread -/

variable {v v' : Roll}

theorem Found.of_same {l : ExitLocals} (h : Found v t l) (hcreator : v'.creator t = v.creator t)
    (hjoin : v'.joinType t = v.joinType t) : Found v' t l where
  semaphore := h.semaphore
  index := h.index
  isJoinable := by rw [hjoin]; exact h.isJoinable
  parentTid := by rw [hcreator]; exact h.parentTid

/-- What a thread remembers is about its children. -/
theorem Task.Remembers.of_same (h : x.Remembers v t)
    (hchildren : children v'.table t = children v.table t) (hcreator : v'.creator t = v.creator t)
    (hjoin : v'.joinType t = v.joinType t) : x.Remembers v' t := by
  have hfound : ∀ l, Found v t l → Found v' t l := fun l hl => hl.of_same hcreator hjoin
  cases x with
  | exiting pc =>
      cases pc <;> simp only [Task.Remembers, ExitPc.Remembers, hchildren] at h ⊢
      case childValid l _ => exact h.imp_left (hfound l)
      case childParent l _ => exact h.imp_left (hfound l)
      case childJoin l _ => exact h.imp_left (hfound l)
      case childTid l _ => exact h.imp_left (hfound l)
      case forget => exact h
      all_goals exact ⟨h.1.imp_left (hfound _), h.2⟩
  | _ => trivial

/-- The state after a step of thread `t`, which leaves memory `mem` and is at `x`. -/
def Crew.after (arg : Nat → Nat) (s : Crew) (t : Nat) (mem : Mem) (released : Nat → Bool)
    (x : Task) : Crew :=
  (({ s with released := released } : Crew).store arg t mem).goto t x

@[simp] theorem Crew.after_task_self :
    (s.after arg t mem released x).task t = x := Function.update_self ..

@[simp] theorem Crew.after_task_ne (h : u ≠ t) :
    (s.after arg t mem released x).task u = s.task u := Function.update_of_ne h ..

/-- What holds of the place of every thread after a step of `t`. -/
theorem Crew.after_task_forall {q : Nat → Task → Prop} (hself : q t x)
    (hothers : ∀ u, u ≠ t → q u (s.task u)) : ∀ u, q u ((s.after arg t mem released x).task u) :=
  (Function.forall_update_iff s.task q).mpr ⟨hself, hothers⟩

/-- Thread `t` has made a thread, and is at `x`. -/
def Crew.cloned (arg : Nat → Nat) (s : Crew) (t : Nat) (joinType : Int) (x : Task) : Crew :=
  ((s.store arg t (s.load arg t)).spawn t joinType).goto t x

theorem store_load (s : Crew) (arg : Nat → Nat) (t : Nat) :
    (s.store arg t (s.load arg t)).args = s.args := Function.update_eq_self ..

section cloned

variable {j : Int}

@[simp] theorem Crew.cloned_task_self : (s.cloned arg t j x).task t = x := Function.update_self ..

@[simp] theorem Crew.cloned_task_ne (h : u ≠ t) : (s.cloned arg t j x).task u = s.task u :=
  Function.update_of_ne h ..

@[simp] theorem Crew.cloned_creator (h : c ≠ s.created + 1) :
    (s.cloned arg t j x).creator c = s.creator c := Function.update_of_ne h ..

@[simp] theorem Crew.cloned_joinType (h : c ≠ s.created + 1) :
    (s.cloned arg t j x).joinType c = s.joinType c := Function.update_of_ne h ..

@[simp] theorem Crew.cloned_creator_new : (s.cloned arg t j x).creator (s.created + 1) = t :=
  Function.update_self ..

@[simp] theorem Crew.cloned_args : (s.cloned arg t j x).args = s.args := store_load s arg t

@[simp] theorem Crew.cloned_created : (s.cloned arg t j x).created = s.created + 1 := rfl

theorem Crew.cloned_task_forall {q : Nat → Task → Prop} (hself : q t x)
    (hothers : ∀ u, u ≠ t → q u (s.task u)) : ∀ u, q u ((s.cloned arg t j x).task u) :=
  (Function.forall_update_iff s.task q).mpr ⟨hself, hothers⟩

end cloned

theorem WellRun.advance (h : WellRun arg s) (ht : t ≤ s.created)
    (hkey : mem.mutexSemaphore = SEM_KEY)
    (hpop : mem.pop ≤ -1
      ∨ mem.pop = (s.args (arg t)).pop ∧ (x.popSet = true → (s.task t).popSet = true))
    (hvop : mem.vop = 1
      ∨ mem.vop = (s.args (arg t)).vop ∧ (x.vopSet = true → (s.task t).vopSet = true))
    (hop : x.OpOk) (hguard : Guard (s.after arg t mem released x))
    (hremembers : x.Remembers (s.after arg t mem released x).roll t)
    (hothers : ∀ u, u ≠ t → children mem.threadTable u = children s.mem.threadTable u)
    (hkeep : (s.task t).releases = true → x.releases = true)
    (hreleased : ∀ c, released c = true → s.released c = true
      ∨ 0 < c ∧ c ≤ s.created ∧ s.joinType c = FOOTHREAD_JOINABLE ∧ s.creator c = t
        ∧ x.releases = true) :
    WellRun arg (s.after arg t mem released x) := by
  constructor
  case key => exact hkey
  case unborn =>
    intro u hu
    have hu : s.created < u := hu
    rw [Crew.after_task_ne (by omega)]
    exact h.unborn u hu
  case older => exact h.older
  case root => exact h.root
  case pop =>
    refine Crew.after_task_forall (q := fun u y => y.popSet = true → (Function.update s.args (arg t)
      ⟨mem.pop, mem.vop⟩ (arg u)).pop ≤ -1) (fun hset => ?_) fun u _ hset => ?_
    · rw [Function.update_self]
      rcases hpop with hle | ⟨heq, hold⟩
      · exact hle
      · exact heq.le.trans (h.pop t (hold hset))
    · -- a thread with the same pair finds what `t` leaves there
      by_cases hau : arg u = arg t
      · rw [hau, Function.update_self]
        rcases hpop with hle | ⟨heq, -⟩
        · exact hle
        · exact heq.le.trans (hau ▸ h.pop u hset)
      · rw [Function.update_of_ne hau]
        exact h.pop u hset
  case vop =>
    refine Crew.after_task_forall (q := fun u y => y.vopSet = true → (Function.update s.args (arg t)
      ⟨mem.pop, mem.vop⟩ (arg u)).vop = 1) (fun hset => ?_) fun u _ hset => ?_
    · rw [Function.update_self]
      rcases hvop with hone | ⟨heq, hold⟩
      · exact hone
      · exact heq.trans (h.vop t (hold hset))
    · by_cases hau : arg u = arg t
      · rw [hau, Function.update_self]
        rcases hvop with hone | ⟨heq, -⟩
        · exact hone
        · exact heq.trans (hau ▸ h.vop u hset)
      · rw [Function.update_of_ne hau]
        exact h.vop u hset
  case op => exact Crew.after_task_forall (q := fun _ y => y.OpOk) hop fun u _ => h.op u
  case guard => exact hguard
  case remembers =>
    exact Crew.after_task_forall (q := fun u y => y.Remembers (s.after arg t mem released x).roll u)
      hremembers fun u hut => (h.remembers u).of_same (hothers u hut) rfl rfl
  case released =>
    intro c hc
    have hold : (s.task (s.creator c)).releases = true →
        ((s.after arg t mem released x).task (s.creator c)).releases = true := by
      intro hr
      by_cases hct : s.creator c = t
      · rw [hct, Crew.after_task_self]
        exact hkeep (hct ▸ hr)
      · rw [Crew.after_task_ne hct]
        exact hr
    rcases hreleased c hc with hc | ⟨hpos, hle, hjoin, hct, hx⟩
    · obtain ⟨hpos, hle, hjoin, hr⟩ := h.released c hc
      exact ⟨hpos, hle, hjoin, hold hr⟩
    · refine ⟨hpos, hle, hjoin, ?_⟩
      show ((s.after arg t mem released x).task (s.creator c)).releases = true
      rw [hct, Crew.after_task_self]
      exact hx

/-- A step that leaves the roster and the recorded releases alone. -/
structure SameRoll (mem mem' : Mem) : Prop where
  table : mem'.threadTable = mem.threadTable
  next : mem'.nextSem = mem.nextSem
  init : mem'.init = mem.init
  key : mem'.mutexSemaphore = mem.mutexSemaphore

theorem SameRoll.roll (h : SameRoll s.mem mem) :
    (s.after arg t mem s.released x).roll = s.roll := by
  show Roll.mk mem.threadTable mem.nextSem _ _ _ _ = _
  rw [h.table, h.next]
  rfl

/-- A step that changes neither the table nor the recorded releases. -/
theorem WellRun.same (h : WellRun arg s) (ht : t ≤ s.created) (hsame : SameRoll s.mem mem)
    (hpop : mem.pop ≤ -1
      ∨ mem.pop = (s.args (arg t)).pop ∧ (x.popSet = true → (s.task t).popSet = true))
    (hvop : mem.vop = 1
      ∨ mem.vop = (s.args (arg t)).vop ∧ (x.vopSet = true → (s.task t).vopSet = true))
    (hop : x.OpOk) (hguard : Guard (s.after arg t mem s.released x))
    (hremembers : x.Remembers s.roll t)
    (hkeep : (s.task t).releases = true → x.releases = true) :
    WellRun arg (s.after arg t mem s.released x) := by
  refine h.advance ht (hsame.key.trans h.key) hpop hvop hop hguard ?_ (fun u _ => ?_) hkeep
    fun c hc => Or.inl hc
  · rw [hsame.roll]
    exact hremembers
  · rw [hsame.table]

/-! ## The mutex of the table -/

theorem Task.outside_of_early (h : x.early = true) : x.inside = false := by
  cases x with
  | creating j c pc => cases pc <;> first | rfl | cases h
  | exiting pc => cases h
  | _ => rfl

/-- The thread in the critical section. -/
theorem WellRun.knows (h : WellRun arg s) (hin : (s.task t).inside = true) :
    s.mem.init = true ∧ s.mem.semval SEM_KEY = 0 ∧ (∀ u, u ≠ t → (s.task u).inside = false)
      ∧ (s.task t).Inside s.roll t := by
  cases h.guard with
  | unmade init alone early kept =>
      have hout : (s.task t).inside = false := by
        rcases Nat.eq_zero_or_pos t with rfl | hpos
        · exact Task.outside_of_early early
        · rw [h.unborn t (by omega)]
          rfl
      rw [hout] at hin
      cases hin
  | free init value outside whole =>
      rw [outside t] at hin
      cases hin
  | held t' init value inside outside knows =>
      obtain rfl : t' = t := by
        by_contra hne
        rw [outside t (Ne.symm hne)] at hin
        cases hin
      exact ⟨init, value, outside, knows⟩

/-- A step outside of the critical sections. -/
theorem Guard.outside (h : WellRun arg s) (ht : t ≤ s.created) (hsame : SameRoll s.mem mem)
    (hval : mem.semval SEM_KEY = s.mem.semval SEM_KEY) (hin : (s.task t).inside = false)
    (hx : x.inside = false)
    (hearly : s.mem.init = false → (s.task t).early = true → x.early = true)
    (hopening : (s.task t).opening = true → x.opening = true) :
    Guard (s.after arg t mem s.released x) := by
  have hroll : (s.after arg t mem s.released x).roll = s.roll := hsame.roll
  have hout : ∀ u, (s.task u).inside = false →
      ((s.after arg t mem s.released x).task u).inside = false := by
    intro u hu
    by_cases hut : u = t
    · subst hut
      rw [Crew.after_task_self]
      exact hx
    · rw [Crew.after_task_ne hut]
      exact hu
  cases h.guard with
  | unmade init alone early kept =>
      obtain rfl : t = 0 := by omega
      refine .unmade (hsame.init.trans init) alone ?_ (hroll ▸ kept)
      rw [Crew.after_task_self]
      exact hearly init early
  | free init value outside whole =>
      refine .free (hsame.init.trans init) (hval.trans value) (fun u => hout u (outside u)) ?_
      rcases whole with hk | ⟨hk, hz, ho⟩
      · refine Or.inl ?_
        rw [hroll]
        exact hk
      · -- before main's entry only main can move
        obtain rfl : t = 0 := by omega
        refine Or.inr ⟨hroll ▸ hk, hz, ?_⟩
        rw [Crew.after_task_self]
        exact hopening ho
  | held t' init value inside outside knows =>
      have hne : t' ≠ t := by
        rintro rfl
        rw [hin] at inside
        cases inside
      refine .held t' (hsame.init.trans init) (hval.trans value) ?_ (fun u hu => hout u (outside u hu))
        ?_
      · rw [Crew.after_task_ne hne]
        exact inside
      · rw [Crew.after_task_ne hne, hroll]
        exact knows

/-- The `P` of a critical section: it succeeds on a free mutex only. -/
theorem Guard.enter (h : WellRun arg s) (ht : t ≤ s.created) {op : Int} {w : Nat}
    (hop : op ≤ -1) (hw : semop (s.mem.semval SEM_KEY) op = some w)
    (hearly : (s.task t).early = false) (hin : (s.task t).inside = false) (hx : x.inside = true)
    (hknows : Whole s → x.Inside s.roll t) (hsame : SameRoll s.mem mem)
    (hval : mem.semval SEM_KEY = w) : Guard (s.after arg t mem s.released x) := by
  have hpos := pos_of_semop_neg (by omega) hw
  cases h.guard with
  | unmade init alone early kept =>
      obtain rfl : t = 0 := by omega
      rw [hearly] at early
      cases early
  | free init value outside whole =>
      have hzero : w = 0 := by
        rw [value, semop, if_neg (by omega), if_neg (by omega)] at hw
        split at hw
        · have hw := Option.some.inj hw
          omega
        · cases hw
      refine .held t (hsame.init.trans init) (hval.trans hzero) ?_ (fun u hu => ?_) ?_
      · rw [Crew.after_task_self]
        exact hx
      · rw [Crew.after_task_ne hu]
        exact outside u
      · rw [Crew.after_task_self, hsame.roll]
        exact hknows whole
  | held t' init value inside outside knows => omega

/-- A step within a critical section. -/
theorem Guard.within (h : WellRun arg s) (hin : (s.task t).inside = true) (hx : x.inside = true)
    (hinit : mem.init = s.mem.init) (hval : mem.semval SEM_KEY = s.mem.semval SEM_KEY)
    (hknows : x.Inside (s.after arg t mem released x).roll t) :
    Guard (s.after arg t mem released x) := by
  obtain ⟨init, value, outside, -⟩ := h.knows hin
  refine .held t (hinit.trans init) (hval.trans value) ?_ (fun u hu => ?_) ?_
  · rw [Crew.after_task_self]
    exact hx
  · rw [Crew.after_task_ne hu]
    exact outside u hu
  · rw [Crew.after_task_self]
    exact hknows

/-- The `V` at the end of a critical section. -/
theorem Guard.leave (h : WellRun arg s) (hin : (s.task t).inside = true) (hx : x.inside = false)
    {w : Nat} (hw : semop (s.mem.semval SEM_KEY) 1 = some w) (hsame : SameRoll s.mem mem)
    (hval : mem.semval SEM_KEY = w) (hkept : Kept (s.created + 1) s.roll) :
    Guard (s.after arg t mem s.released x) := by
  obtain ⟨init, value, outside, -⟩ := h.knows hin
  rw [value, semop_one (by decide)] at hw
  refine .free (hsame.init.trans init) (hval.trans (Option.some.inj hw).symm) (fun u => ?_) ?_
  · by_cases hut : u = t
    · subst hut
      rw [Crew.after_task_self]
      exact hx
    · rw [Crew.after_task_ne hut]
      exact outside u hut
  · refine Or.inl ?_
    rw [hsame.roll]
    exact hkept

/-! ## Kinds of steps -/

/-- States that differ in nothing the library reads. -/
structure Alike (s s' : Crew) : Prop where
  roll : s'.roll = s.roll
  init : s'.mem.init = s.mem.init
  key : s'.mem.mutexSemaphore = s.mem.mutexSemaphore
  semval : s'.mem.semval = s.mem.semval
  args : s'.args = s.args
  task : s'.task = s.task

theorem Guard.alike (h : Guard s) (ha : Alike s s') : Guard s' := by
  have hcreated : s'.created = s.created := congrArg Roll.created ha.roll
  cases h with
  | unmade init alone early kept =>
      exact .unmade (ha.init.trans init) (hcreated.trans alone) (ha.task ▸ early) (ha.roll ▸ kept)
  | free init value outside whole =>
      refine .free (ha.init.trans init) (ha.semval ▸ value) (ha.task ▸ outside) ?_
      unfold Whole
      rw [ha.roll, hcreated, ha.task]
      exact whole
  | held t init value inside outside knows =>
      refine .held t (ha.init.trans init) (ha.semval ▸ value) (ha.task ▸ inside)
        (ha.task ▸ outside) ?_
      rw [ha.roll, ha.task]
      exact knows

theorem WellRun.alike (h : WellRun arg s) (ha : Alike s s') : WellRun arg s' := by
  have hcreated : s'.created = s.created := congrArg Roll.created ha.roll
  have hcreator : s'.creator = s.creator := congrArg Roll.creator ha.roll
  have hjoin : s'.joinType = s.joinType := congrArg Roll.joinType ha.roll
  have hreleased : s'.released = s.released := congrArg Roll.released ha.roll
  constructor
  case key => exact ha.key.trans h.key
  case unborn => rw [hcreated, ha.task]; exact h.unborn
  case older => rw [hcreated, hcreator]; exact h.older
  case root => rw [hcreator, hjoin]; exact h.root
  case pop => rw [ha.task, ha.args]; exact h.pop
  case vop => rw [ha.task, ha.args]; exact h.vop
  case op => rw [ha.task]; exact h.op
  case guard => exact h.guard.alike ha
  case remembers => rw [ha.task, ha.roll]; exact h.remembers
  case released => rw [hreleased, hcreated, hjoin, hcreator, ha.task]; exact h.released

/-- The process ends. -/
theorem alike_exit : Alike s { s.store arg t (s.load arg t) with exited := true } :=
  ⟨rfl, rfl, rfl, rfl, store_load s arg t, rfl⟩

/-- A call begins. -/
theorem alike_goto : Alike (s.after arg t (s.load arg t) s.released x) (s.goto t x) :=
  ⟨rfl, rfl, rfl, rfl, (store_load s arg t).symm, rfl⟩

theorem Task.sets_of_inside (h : x.inside = true) : x.popSet = true ∧ x.vopSet = true := by
  cases x with
  | creating j c pc => cases pc <;> first | exact ⟨rfl, rfl⟩ | cases h
  | exiting pc => cases pc <;> first | exact ⟨rfl, rfl⟩ | cases h
  | _ => cases h

variable {y : Task}

/-- What the thread in the critical section knows there. -/
theorem WellRun.knowsAt (h : WellRun arg s) (hy : s.task t = y) (hin : y.inside = true) :
    y.Inside s.roll t := by
  subst hy
  exact (h.knows hin).2.2.2

theorem WellRun.opAt (h : WellRun arg s) (hy : s.task t = y) : y.OpOk := hy ▸ h.op t

theorem WellRun.remembersAt (h : WellRun arg s) (hy : s.task t = y) : y.Remembers s.roll t :=
  hy ▸ h.remembers t

/-- A step within a critical section that changes neither its semaphore nor an entry of other threads'
children. -/
theorem WellRun.work (h : WellRun arg s) (ht : t ≤ s.created) (hy : s.task t = y)
    (hin : y.inside = true) (hx : x.inside = true)
    (hkey : mem.mutexSemaphore = s.mem.mutexSemaphore) (hinit : mem.init = s.mem.init)
    (hval : mem.semval SEM_KEY = s.mem.semval SEM_KEY)
    (hargs : mem.pop = (s.args (arg t)).pop ∧ mem.vop = (s.args (arg t)).vop)
    (hop : x.OpOk) (hknows : x.Inside (s.after arg t mem s.released x).roll t)
    (hremembers : x.Remembers (s.after arg t mem s.released x).roll t)
    (hothers : ∀ u, u ≠ t → children mem.threadTable u = children s.mem.threadTable u)
    (hkeep : y.releases = true → x.releases = true) :
    WellRun arg (s.after arg t mem s.released x) := by
  subst hy
  obtain ⟨hp, hv⟩ := Task.sets_of_inside hin
  exact h.advance ht (hkey.trans h.key) (.inr ⟨hargs.1, fun _ => hp⟩) (.inr ⟨hargs.2, fun _ => hv⟩)
    hop (Guard.within h hin hx hinit hval hknows) hremembers hothers hkeep fun c hc => Or.inl hc

/-- One that changes nothing but the place. -/
theorem WellRun.look (h : WellRun arg s) (ht : t ≤ s.created) (hy : s.task t = y)
    (hin : y.inside = true) (hx : x.inside = true) (hop : x.OpOk) (hknows : x.Inside s.roll t)
    (hremembers : x.Remembers s.roll t) (hkeep : y.releases = true → x.releases = true) :
    WellRun arg (s.after arg t (s.load arg t) s.released x) :=
  h.work ht hy hin hx rfl rfl rfl ⟨rfl, rfl⟩ hop hknows hremembers (fun _ _ => rfl) hkeep

/-- A step outside of the critical sections. -/
theorem WellRun.pass (h : WellRun arg s) (ht : t ≤ s.created) (hy : s.task t = y)
    (hsame : SameRoll s.mem mem) (hval : mem.semval SEM_KEY = s.mem.semval SEM_KEY)
    (hin : y.inside = false) (hx : x.inside = false)
    (hearly : s.mem.init = false → y.early = true → x.early = true)
    (hopening : y.opening = true → x.opening = true)
    (hpop : mem.pop ≤ -1 ∨ mem.pop = (s.args (arg t)).pop ∧ (x.popSet = true → y.popSet = true))
    (hvop : mem.vop = 1 ∨ mem.vop = (s.args (arg t)).vop ∧ (x.vopSet = true → y.vopSet = true))
    (hop : x.OpOk) (hremembers : x.Remembers s.roll t)
    (hkeep : y.releases = true → x.releases = true) :
    WellRun arg (s.after arg t mem s.released x) := by
  subst hy
  exact h.same ht hsame hpop hvop hop (Guard.outside h ht hsame hval hin hx hearly hopening)
    hremembers hkeep

/-- The `P` of a critical section. -/
theorem WellRun.enter (h : WellRun arg s) (ht : t ≤ s.created) (hy : s.task t = y) {op : Int}
    {w : Nat} (hop : op ≤ -1) (hw : semop (s.mem.semval SEM_KEY) op = some w)
    (hearly : y.early = false) (hin : y.inside = false) (hx : x.inside = true)
    (hsets : y.popSet = true ∧ y.vopSet = true) (hxop : x.OpOk)
    (hknows : Whole s → x.Inside s.roll t) (hremembers : x.Remembers s.roll t)
    (hkeep : y.releases = true → x.releases = true) :
    WellRun arg (s.after arg t ((s.load arg t).setSem SEM_KEY w) s.released x) := by
  subst hy
  have hval : ((s.load arg t).setSem SEM_KEY w).semval SEM_KEY = w := by simp [Mem.setSem]
  exact h.same ht ⟨rfl, rfl, rfl, rfl⟩ (.inr ⟨rfl, fun _ => hsets.1⟩) (.inr ⟨rfl, fun _ => hsets.2⟩)
    hxop (Guard.enter h ht hop hw hearly hin hx hknows ⟨rfl, rfl, rfl, rfl⟩ hval) hremembers hkeep

/-- The `V` at its end. -/
theorem WellRun.leave (h : WellRun arg s) (ht : t ≤ s.created) (hy : s.task t = y) {w : Nat}
    (hin : y.inside = true) (hx : x.inside = false)
    (hw : semop (s.mem.semval SEM_KEY) 1 = some w) (hkept : Kept (s.created + 1) s.roll)
    (hxop : x.OpOk) (hremembers : x.Remembers s.roll t)
    (hkeep : y.releases = true → x.releases = true) :
    WellRun arg (s.after arg t ((s.load arg t).setSem SEM_KEY w) s.released x) := by
  subst hy
  obtain ⟨hp, hv⟩ := Task.sets_of_inside hin
  have hval : ((s.load arg t).setSem SEM_KEY w).semval SEM_KEY = w := by simp [Mem.setSem]
  exact h.same ht ⟨rfl, rfl, rfl, rfl⟩ (.inr ⟨rfl, fun _ => hp⟩) (.inr ⟨rfl, fun _ => hv⟩) hxop
    (Guard.leave h hin hx hw ⟨rfl, rfl, rfl, rfl⟩ hval hkept) hremembers hkeep

end OSLab.Foothread
