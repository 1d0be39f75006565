import OSLab.Foothread.Frame

set_option autoImplicit false

/-! # The thread table

The thread that creates the others also writes the table: its own entry first, with the
semaphore `lo`, which is the next free one then, and one entry for each thread after it, in
order. So the entries in use are always the first so many (`Table`), and where the creator is in
its call says how much of the next one is written (`CreateOk`). When it exits it finds its own
entry at index `0` and all the others among its children (`JoinOk`).

The other threads only read. None of them is anybody's parent, so in `foothread_exit` none has
children to wait for or to forget (`Childless`), and each adds to one semaphore at most.
-/

namespace OSLab.Foothread

/-- The entry the creator makes for itself. -/
def ownEntry (sem : Nat) : ThreadEntry := ⟨gettid 0, gettid 0, FOOTHREAD_JOINABLE, true, sem⟩

/-- The entry of thread `j`. -/
structure Filled (j : Nat) (e : ThreadEntry) : Prop where
  valid : e.valid = true
  tid : e.tid = gettid j
  parentTid : e.parentTid = gettid 0
  joinType : e.joinType = FOOTHREAD_JOINABLE

/-- The first `m` entries are in use, and `lo` is the semaphore of the first one only. -/
structure Table (lo m : Nat) (mem : Mem) : Prop where
  own : 0 < m → mem.threadTable 0 = ownEntry lo
  filled : ∀ j < m, 0 < j → Filled j (mem.threadTable j)
  free : ∀ j, m ≤ j → (mem.threadTable j).valid = false
  semaphore : ∀ j, 0 < j → (mem.threadTable j).semaphore ≠ lo
  init : 0 < m → mem.init = true
  fresh : m = 0 → mem.nextSem = lo
  next : 0 < m → lo < mem.nextSem

/-- Nobody but the creator is a parent. -/
def Parents (mem : Mem) : Prop :=
  ∀ j, (mem.threadTable j).parentTid = 0 ∨ (mem.threadTable j).parentTid = gettid 0

/-- A step that leaves the thread table and the semaphore `lo` alone. -/
structure Quiet (lo : Nat) (mem mem' : Mem) : Prop where
  table : mem'.threadTable = mem.threadTable
  init : mem'.init = mem.init
  next : mem'.nextSem = mem.nextSem
  tokens : mem'.semval lo = mem.semval lo

variable {P : Type} {lo m n i t : Nat} {mem mem' : Mem}

theorem Table.of_same (h : Table lo m mem) (htable : mem'.threadTable = mem.threadTable)
    (hinit : mem'.init = mem.init) (hnext : mem'.nextSem = mem.nextSem) : Table lo m mem' where
  own := htable ▸ h.own
  filled := htable ▸ h.filled
  free := htable ▸ h.free
  semaphore := htable ▸ h.semaphore
  init := hinit ▸ h.init
  fresh := hnext ▸ h.fresh
  next := hnext ▸ h.next

theorem Table.quiet (h : Table lo m mem) (hq : Quiet lo mem mem') : Table lo m mem' :=
  h.of_same hq.table hq.init hq.next

theorem Parents.of_same (h : Parents mem) (htable : mem'.threadTable = mem.threadTable) :
    Parents mem' := by
  intro j
  rw [htable]
  exact h j

theorem Parents.setEntry (h : Parents mem) {j : Nat} {e : ThreadEntry}
    (he : e.parentTid = 0 ∨ e.parentTid = gettid 0) : Parents (mem.setEntry j e) := by
  intro k
  by_cases hk : k = j
  · subst hk
    simpa [Mem.setEntry] using he
  · simpa [Mem.setEntry, Function.update_of_ne hk] using h k

theorem MemOk.mutexSemaphore_ne (h : MemOk lo mem) : mem.mutexSemaphore ≠ lo := by
  have hlo := h.next.1
  rw [h.mutexSemaphore, SEM_KEY]
  omega

theorem MemOk.mutex_ne (h : MemOk lo mem) : (mem.mutexes 0).semaphore ≠ lo := by
  have hlo := h.next.1
  rw [h.mutex, MUTEX_KEY]
  omega

theorem quiet_perform {id : Nat} {op : Int} {c c' : Ctl P} (hid : id ≠ lo)
    (hm : mem.perform id op c = some (mem', c')) : Quiet lo mem mem' ∧ c' = c := by
  obtain ⟨v, -, rfl, rfl⟩ := perform_eq_some hm
  exact ⟨⟨rfl, rfl, rfl, Function.update_of_ne hid.symm _ _⟩, rfl⟩

/-! ## Creating a thread -/

/-- How many entries are in use while the thread after the first `i` is made. -/
def inUse (i : Nat) : CreatePc → Nat
  | .setSem _ | .setVal _ | .unlock | .unlockOp _ => i + 2
  | .clone _ | .setTid _ | .setParent _ | .setJoin _ | .setValid _ => i + 1
  | _ => if i = 0 then 0 else i + 1

/-- How much of the new entry is written. -/
def CreateOk (i : Nat) (mem : Mem) : CreatePc → Prop
  | .lock | .lockOp _ => mem.init = true
  | .search j => mem.init = true ∧ j ≤ if i = 0 then 0 else i + 1
  | .ownEntry => mem.init = true ∧ i = 0
  | .clone j | .setTid j | .setSem j | .setVal j => j = i + 1
  | .setParent j => j = i + 1 ∧ (mem.threadTable j).tid = gettid j
  | .setJoin j => j = i + 1 ∧ (mem.threadTable j).tid = gettid j
      ∧ (mem.threadTable j).parentTid = gettid 0
  | .setValid j => j = i + 1 ∧ (mem.threadTable j).tid = gettid j
      ∧ (mem.threadTable j).parentTid = gettid 0
      ∧ (mem.threadTable j).joinType = FOOTHREAD_JOINABLE
  | .full => False
  | _ => True

/-- The first call makes the table, with no entry valid. -/
theorem Table.clear (h : Table lo 0 mem) (hnext : mem'.nextSem = mem.nextSem)
    (hentry : ∀ j, (mem'.threadTable j).valid = false
      ∧ (mem'.threadTable j).semaphore = (mem.threadTable j).semaphore) : Table lo 0 mem' where
  own := fun h0 => absurd h0 (Nat.lt_irrefl 0)
  filled := fun j hj => absurd hj (Nat.not_lt_zero j)
  free := fun j _ => (hentry j).1
  semaphore := fun j hj => (hentry j).2 ▸ h.semaphore j hj
  init := fun h0 => absurd h0 (Nat.lt_irrefl 0)
  fresh := hnext ▸ h.fresh
  next := hnext ▸ h.next

/-- The creator's own entry is the first one, with the next free semaphore. -/
theorem Table.enter (h : Table lo 0 mem) (hinit : mem.init = true) :
    Table lo 1 ((mem.newSem.setSem mem.nextSem 0).setEntry 0 (ownEntry mem.nextSem)) := by
  have hnext : mem.nextSem = lo := h.fresh rfl
  have hother : ∀ j, 0 < j → ((mem.newSem.setSem mem.nextSem 0).setEntry 0
      (ownEntry mem.nextSem)).threadTable j = mem.threadTable j :=
    fun j hj => Function.update_of_ne hj.ne' _ _
  have hself : ((mem.newSem.setSem mem.nextSem 0).setEntry 0
      (ownEntry mem.nextSem)).threadTable 0 = ownEntry mem.nextSem := by
    simp only [Mem.setEntry, Function.update_self]
  refine ⟨fun _ => ?_, (fun j hj hj0 => by omega), fun j hj => ?_, fun j hj => ?_,
    fun _ => hinit, (fun h0 => by cases h0), fun _ => ?_⟩
  · rw [hself, hnext]
  · rw [hother j hj]
    exact h.free j (Nat.zero_le j)
  · rw [hother j hj]
    exact h.semaphore j hj
  · rw [← hnext]
    exact Nat.lt_succ_self _

/-- The entry after those in use is written to. -/
theorem Table.setFree (h : Table lo m mem) (hm : 0 < m) {e : ThreadEntry}
    (he : e.valid = false) (hsem : e.semaphore ≠ lo) : Table lo m (mem.setEntry m e) := by
  have hother : ∀ j, j ≠ m → (mem.setEntry m e).threadTable j = mem.threadTable j :=
    fun j hj => Function.update_of_ne hj _ _
  refine ⟨fun h0 => ?_, fun j hj hj0 => ?_, fun j hj => ?_, fun j hj => ?_, h.init, h.fresh,
    h.next⟩
  · rw [hother 0 (by omega)]
    exact h.own h0
  · rw [hother j (by omega)]
    exact h.filled j hj hj0
  · by_cases hjm : j = m
    · subst hjm
      simpa [Mem.setEntry] using he
    · rw [hother j hjm]
      exact h.free j hj
  · by_cases hjm : j = m
    · subst hjm
      simpa [Mem.setEntry] using hsem
    · rw [hother j hjm]
      exact h.semaphore j hj

/-- A whole entry is there when its `valid` is set. -/
theorem Table.setValid (h : Table lo m mem) (hm : 0 < m) {e : ThreadEntry} (he : Filled m e)
    (hsem : e.semaphore ≠ lo) : Table lo (m + 1) (mem.setEntry m e) := by
  have hother : ∀ j, j ≠ m → (mem.setEntry m e).threadTable j = mem.threadTable j :=
    fun j hj => Function.update_of_ne hj _ _
  have hself : (mem.setEntry m e).threadTable m = e := Function.update_self _ _ _
  refine ⟨fun _ => ?_, fun j hj hj0 => ?_, fun j hj => ?_, fun j hj => ?_, fun _ => h.init hm,
    fun h0 => by omega, fun _ => h.next hm⟩
  · rw [hother 0 (by omega)]
    exact h.own hm
  · by_cases hjm : j = m
    · subst hjm
      rw [hself]
      exact he
    · rw [hother j hjm]
      exact h.filled j (by omega) hj0
  · rw [hother j (by omega)]
    exact h.free j (by omega)
  · by_cases hjm : j = m
    · subst hjm
      rw [hself]
      exact hsem
    · rw [hother j hjm]
      exact h.semaphore j hj

/-- What a step of `foothread_create` by the creator leaves. -/
structure CreateStep (lo i : Nat) (mem mem' : Mem) (c : Ctl CreatePc) : Prop where
  tokens : mem'.semval lo = mem.semval lo ∨ mem'.semval lo = 0
  parents : Parents mem → Parents mem'
  next : ∀ pc', c = .next pc' ∨ c = .clone pc' → Table lo (inUse i pc') mem' ∧ CreateOk i mem' pc'
  ret : c = .ret → Table lo (i + 2) mem'

/-- The call goes on at `pc'`. -/
theorem CreateStep.goto {pc' : CreatePc}
    (htokens : mem'.semval lo = mem.semval lo ∨ mem'.semval lo = 0)
    (hparents : Parents mem → Parents mem')
    (hnext : Table lo (inUse i pc') mem' ∧ CreateOk i mem' pc') :
    CreateStep lo i mem mem' (.next pc') where
  tokens := htokens
  parents := hparents
  next := by
    rintro pc (hc | hc)
    · cases hc
      exact hnext
    · cases hc
  ret := fun hc => by cases hc

theorem CreateStep.quiet {pc' : CreatePc} (hq : Quiet lo mem mem')
    (hnext : Table lo (inUse i pc') mem' ∧ CreateOk i mem' pc') :
    CreateStep lo i mem mem' (.next pc') :=
  .goto (.inl hq.tokens) (fun hp => hp.of_same hq.table) hnext

/-- The new entry gets its semaphore, which is not `lo`. -/
theorem Table.setSem (h : Table lo (m + 1) mem) (hm : 0 < m) :
    Table lo (m + 1)
      (mem.newSem.setEntry m { mem.threadTable m with semaphore := mem.nextSem }) := by
  have hnext := h.next (Nat.succ_pos m)
  have hother : ∀ j, j ≠ m → (mem.newSem.setEntry m
      { mem.threadTable m with semaphore := mem.nextSem }).threadTable j = mem.threadTable j :=
    fun j hj => Function.update_of_ne hj _ _
  have hself : (mem.newSem.setEntry m
      { mem.threadTable m with semaphore := mem.nextSem }).threadTable m
        = { mem.threadTable m with semaphore := mem.nextSem } := Function.update_self _ _ _
  refine ⟨fun h0 => ?_, fun j hj hj0 => ?_, fun j hj => ?_, fun j hj => ?_, h.init,
    fun h0 => by omega, fun _ => hnext.trans (Nat.lt_succ_self _)⟩
  · rw [hother 0 (by omega)]
    exact h.own h0
  · have hf := h.filled j hj hj0
    by_cases hjm : j = m
    · subst hjm
      rw [hself]
      exact ⟨hf.valid, hf.tid, hf.parentTid, hf.joinType⟩
    · rw [hother j hjm]
      exact hf
  · rw [hother j (by omega)]
    exact h.free j hj
  · by_cases hjm : j = m
    · subst hjm
      rw [hself]
      exact hnext.ne'
    · rw [hother j hjm]
      exact h.semaphore j hj

/-- The first entry that is not valid is the one after those in use. -/
theorem Table.valid_iff (h : Table lo m mem) (j : Nat) :
    (mem.threadTable j).valid = true ↔ j < m := by
  constructor
  · intro hv
    by_contra hj
    rw [h.free j (by omega)] at hv
    cases hv
  · intro hj
    rcases Nat.eq_zero_or_pos j with rfl | h0
    · rw [h.own hj]
      rfl
    · exact (h.filled j hj h0).valid

/-- The creator writes a field of the new entry. -/
theorem createStep_field {e : ThreadEntry} {pc' : CreatePc} (h : Table lo (i + 1) mem)
    (he : e.valid = (mem.threadTable (i + 1)).valid)
    (hsem : e.semaphore = (mem.threadTable (i + 1)).semaphore)
    (hpar : e.parentTid = (mem.threadTable (i + 1)).parentTid ∨ e.parentTid = gettid 0)
    (huse : inUse i pc' = i + 1) (hok : CreateOk i (mem.setEntry (i + 1) e) pc') :
    CreateStep lo i mem (mem.setEntry (i + 1) e) (.next pc') := by
  refine .goto (.inl rfl) (fun hp => hp.setEntry ?_) ⟨?_, hok⟩
  · rcases hpar with heq | heq
    · rw [heq]
      exact hp (i + 1)
    · exact .inr heq
  · rw [huse]
    exact h.setFree (Nat.succ_pos i) (he.trans (h.free (i + 1) le_rfl))
      (hsem ▸ h.semaphore (i + 1) (Nat.succ_pos i))

/-- The creator makes the table with its first call, and only with that. -/
theorem create_getSem (hok : MemOk lo mem) {c : Ctl CreatePc} (h : Table lo (inUse i .getSem) mem)
    (hm : foothreadCreate 0 (i + 1) mem .getSem = some (mem', c)) :
    CreateStep lo i mem mem' c := by
  simp only [foothreadCreate] at hm
  split at hm
  · cases hm
    exact .quiet ⟨rfl, rfl, rfl, rfl⟩ ⟨h.of_same rfl rfl rfl, ‹_›⟩
  · rename_i hinit
    obtain rfl : i = 0 := by
      by_contra hne
      exact hinit (h.init (by simp [inUse, hne]))
    cases hm
    have hlo := hok.next.1
    have hne : lo ≠ SEM_KEY := by
      rw [SEM_KEY]
      omega
    refine .goto (.inl (Function.update_of_ne hne _ _)) (fun hp j => ?_)
      ⟨Table.clear h rfl fun j => ?_, rfl⟩
    · have hpar : (if j < MAX_THREADS then { mem.threadTable j with valid := false }
          else mem.threadTable j).parentTid = (mem.threadTable j).parentTid := by
        split <;> rfl
      have hj := hp j
      rw [← hpar] at hj
      exact hj
    · show (if j < MAX_THREADS then { mem.threadTable j with valid := false }
          else mem.threadTable j).valid = false ∧ (if j < MAX_THREADS
            then { mem.threadTable j with valid := false }
          else mem.threadTable j).semaphore = (mem.threadTable j).semaphore
      split
      · exact ⟨rfl, rfl⟩
      · exact ⟨h.free j (Nat.zero_le j), rfl⟩

/-- The creator finds the first entry that is not valid. -/
theorem create_search (hi : i + 1 < MAX_THREADS) {c : Ctl CreatePc} {j : Nat}
    (h : Table lo (inUse i (.search j)) mem) (hpc : CreateOk i mem (.search j))
    (hm : foothreadCreate 0 (i + 1) mem (.search j) = some (mem', c)) :
    CreateStep lo i mem mem' c := by
  obtain ⟨hinit, hj⟩ := hpc
  have hlt : j < MAX_THREADS := by
    split at hj <;> omega
  have huse : inUse i (.search j) = if i = 0 then 0 else i + 1 := rfl
  simp only [foothreadCreate, if_pos hlt] at hm
  by_cases hv : (mem.threadTable j).valid = true
  · rw [if_pos hv] at hm
    cases hm
    exact .quiet ⟨rfl, rfl, rfl, rfl⟩ ⟨h, hinit, huse ▸ (h.valid_iff j).mp hv⟩
  · rw [if_neg hv] at hm
    cases hm
    rw [h.valid_iff, huse] at hv
    refine .quiet ⟨rfl, rfl, rfl, rfl⟩ ?_
    by_cases hi0 : i = 0
    · rw [if_pos hi0] at hj
      rw [if_pos (Nat.le_zero.mp hj)]
      exact ⟨h, hinit, hi0⟩
    · rw [if_neg hi0] at hj hv
      have hji : j = i + 1 := by omega
      rw [if_neg (by omega), hji]
      rw [huse, if_neg hi0] at h
      exact ⟨h, rfl⟩

/-- **A step of `foothread_create`** by the creator. -/
theorem create_step (hok : MemOk lo mem) (hi : i + 1 < MAX_THREADS) {pc : CreatePc}
    {c : Ctl CreatePc} (h : Table lo (inUse i pc) mem) (hpc : CreateOk i mem pc)
    (hm : foothreadCreate 0 (i + 1) mem pc = some (mem', c)) : CreateStep lo i mem mem' c := by
  cases pc with
  | setPop | setVop =>
      cases hm
      exact .quiet ⟨rfl, rfl, rfl, rfl⟩ ⟨h.of_same rfl rfl rfl, trivial⟩
  | getSem => exact create_getSem hok h hm
  | lock =>
      cases hm
      exact .quiet ⟨rfl, rfl, rfl, rfl⟩ ⟨h, hpc⟩
  | lockOp op =>
      obtain ⟨hq, rfl⟩ := quiet_perform hok.mutexSemaphore_ne hm
      exact .quiet hq ⟨h.quiet hq, ⟨hq.init.trans hpc, Nat.zero_le _⟩⟩
  | search j => exact create_search hi h hpc hm
  | ownEntry =>
      obtain ⟨hinit, rfl⟩ := hpc
      cases hm
      have hnext : mem.nextSem = lo := h.fresh rfl
      have hparents : Parents mem → Parents (mem.newSem.setSem mem.nextSem 0) := fun hp => hp
      refine .goto (.inr ?_) (fun hp => (hparents hp).setEntry (.inr rfl))
        ⟨Table.enter h hinit, rfl⟩
      rw [← hnext]
      exact Function.update_self _ _ _
  | clone j =>
      cases hm
      refine ⟨.inl rfl, id, fun pc' hc => ?_, fun hc => by cases hc⟩
      rcases hc with hc | hc
      · cases hc
      · cases hc
        exact ⟨h, hpc⟩
  | setTid j =>
      obtain rfl := hpc
      cases hm
      exact createStep_field h rfl rfl (.inl rfl) rfl ⟨rfl, by simp [Mem.setEntry]⟩
  | setParent j =>
      obtain ⟨rfl, htid⟩ := hpc
      cases hm
      exact createStep_field h rfl rfl (.inr rfl) rfl ⟨rfl, by simp [Mem.setEntry, htid]⟩
  | setJoin j =>
      obtain ⟨rfl, htid, hpar⟩ := hpc
      cases hm
      exact createStep_field h rfl rfl (.inl rfl) rfl ⟨rfl, by simp [Mem.setEntry, htid, hpar]⟩
  | setValid j =>
      obtain ⟨rfl, htid, hpar, hjoin⟩ := hpc
      cases hm
      exact .goto (.inl rfl) (fun hp => hp.setEntry (hp (i + 1)))
        ⟨h.setValid (Nat.succ_pos i) ⟨rfl, htid, hpar, hjoin⟩
          (h.semaphore (i + 1) (Nat.succ_pos i)), rfl⟩
  | setSem j =>
      obtain rfl := hpc
      cases hm
      have hparents : Parents mem → Parents mem.newSem := fun hp => hp
      exact .goto (.inl rfl) (fun hp => (hparents hp).setEntry (hp (i + 1)))
        ⟨h.setSem (Nat.succ_pos i), rfl⟩
  | setVal j =>
      obtain rfl := hpc
      cases hm
      have hsem := h.semaphore (i + 1) (Nat.succ_pos i)
      have hq : Quiet lo mem (mem.setSem (mem.threadTable (i + 1)).semaphore 0) :=
        ⟨rfl, rfl, rfl, Function.update_of_ne hsem.symm _ _⟩
      exact .quiet hq ⟨h.quiet hq, trivial⟩
  | unlock =>
      cases hm
      exact .quiet ⟨rfl, rfl, rfl, rfl⟩ ⟨h, trivial⟩
  | unlockOp op =>
      obtain ⟨hq, rfl⟩ := quiet_perform hok.mutexSemaphore_ne hm
      refine ⟨.inl hq.tokens, fun hp => hp.of_same hq.table, fun pc' hc => ?_,
        fun _ => h.quiet hq⟩
      rcases hc with hc | hc <;> cases hc
  | full => exact hpc.elim

/-! ## The creator exits -/

/-- The creator has got all its tokens. -/
def joinedExit : ExitPc → Bool
  | .setPopAgain _ | .lockAgain _ | .lockAgainOp _ _ | .forget _ | .unlockAgain
  | .unlockAgainOp _ => true
  | _ => false

/-- The creator's own entry is found, and `k` children are noted. -/
def Noted (lo k : Nat) (l : ExitLocals) : Prop := l.semaphore = some lo ∧ l.mychild.length = k

/-- What the creator has found so far, with `n` threads created. -/
def JoinOk (lo n : Nat) : ExitPc → Prop
  | .findValid i | .findTid i | .findJoin i => i = 0
  | .findSem i j => i = 0 ∧ j = true
  | .findParent i j sem => i = 0 ∧ j = true ∧ sem = lo
  | .parentValid _ _ | .parentTid _ _ | .parentSem _ _ | .signal _ _ | .signalOp _ _ _ => False
  | .childValid l i => Noted lo (min (i - 1) n) l ∧ i ≤ MAX_THREADS
  | .childParent l i | .childJoin l i | .childTid l i => Noted lo (i - 1) l ∧ i ≤ n
  | .unlock l | .unlockOp l _ | .setJoin l | .join l => Noted lo n l
  | .joinOp l op => Noted lo n l ∧ op = -n
  | _ => True

theorem Noted.of_eq {k k' : Nat} {l : ExitLocals} (h : Noted lo k l) (hk : k = k') :
    Noted lo k' l := hk ▸ h

/-- The creator is the parent of every entry in use, its own among them. -/
theorem Table.parentTid (h : Table lo (n + 1) mem) {j : Nat} (hj : j ≤ n) :
    (mem.threadTable j).parentTid = gettid 0 := by
  rcases Nat.eq_zero_or_pos j with rfl | h0
  · rw [h.own (Nat.succ_pos n)]
    rfl
  · exact (h.filled j (Nat.lt_succ_of_le hj) h0).parentTid

theorem Table.joinType (h : Table lo (n + 1) mem) {j : Nat} (hj : j ≤ n) :
    (mem.threadTable j).joinType = FOOTHREAD_JOINABLE := by
  rcases Nat.eq_zero_or_pos j with rfl | h0
  · rw [h.own (Nat.succ_pos n)]
    rfl
  · exact (h.filled j (Nat.lt_succ_of_le hj) h0).joinType

/-- The thread reads from `pop` what it has to wait for. -/
def readsOwnPop (mem : Mem) : ExitPc → Bool
  | .join l => mem.pop = toShort (-l.mychild.length)
  | _ => true

/-- **A step of `foothread_exit`** by the creator, up to the end of its wait. -/
theorem exit_creator (hok : MemOk lo mem) (hn : 0 < n ∧ n + 1 ≤ MAX_THREADS) {pc : ExitPc}
    {c : Ctl ExitPc} (h : Table lo (n + 1) mem) (hpc : JoinOk lo n pc) (hj : joinedExit pc = false)
    (hop : readsOwnPop mem pc = true) (hm : foothreadExit 0 mem pc = some (mem', c)) :
    ∃ pc', c = .next pc' ∧ ((Quiet lo mem mem' ∧ JoinOk lo n pc' ∧ joinedExit pc' = false)
      ∨ (n ≤ mem.semval lo ∧ mem'.threadTable = mem.threadTable ∧ joinedExit pc' = true)) := by
  have hown := h.own (Nat.succ_pos n)
  have hquiet : Quiet lo mem mem := ⟨rfl, rfl, rfl, rfl⟩
  cases pc with
  | setPop | setVop =>
      cases hm
      exact ⟨_, rfl, .inl ⟨⟨rfl, rfl, rfl, rfl⟩, trivial, rfl⟩⟩
  | lock =>
      cases hm
      exact ⟨_, rfl, .inl ⟨hquiet, trivial, rfl⟩⟩
  | lockOp op =>
      obtain ⟨hq, rfl⟩ := quiet_perform hok.mutexSemaphore_ne hm
      exact ⟨_, rfl, .inl ⟨hq, rfl, rfl⟩⟩
  | findValid i =>
      obtain rfl := hpc
      rw [foothreadExit, if_pos (by decide), hown] at hm
      cases hm
      exact ⟨_, rfl, .inl ⟨hquiet, rfl, rfl⟩⟩
  | findTid i =>
      obtain rfl := hpc
      rw [foothreadExit, hown] at hm
      cases hm
      exact ⟨_, rfl, .inl ⟨hquiet, rfl, rfl⟩⟩
  | findJoin i =>
      obtain rfl := hpc
      rw [foothreadExit, hown] at hm
      cases hm
      exact ⟨_, rfl, .inl ⟨hquiet, ⟨rfl, rfl⟩, rfl⟩⟩
  | findSem i j =>
      obtain ⟨rfl, rfl⟩ := hpc
      rw [foothreadExit, hown] at hm
      cases hm
      exact ⟨_, rfl, .inl ⟨hquiet, ⟨rfl, rfl, rfl⟩, rfl⟩⟩
  | findParent i j sem =>
      obtain ⟨rfl, rfl, rfl⟩ := hpc
      rw [foothreadExit, hown] at hm
      cases hm
      -- the creator is its own parent, so it signals nobody
      refine ⟨_, rfl, .inl ⟨hquiet, ⟨⟨rfl, ?_⟩, Nat.zero_le _⟩, rfl⟩⟩
      simp
  | childValid l i =>
      obtain ⟨hl, hi⟩ := hpc
      simp only [foothreadExit] at hm
      split at hm
      · rename_i hlt
        cases hm
        by_cases hv : (mem.threadTable i).valid = true
        · rw [if_pos hv]
          have hin : i ≤ n := Nat.le_of_lt_succ ((h.valid_iff i).mp hv)
          exact ⟨_, rfl, .inl ⟨hquiet, ⟨hl.of_eq (by omega), hin⟩, rfl⟩⟩
        · rw [if_neg hv]
          rw [h.valid_iff] at hv
          exact ⟨_, rfl, .inl ⟨hquiet, ⟨hl.of_eq (by omega), hlt⟩, rfl⟩⟩
      · cases hm
        exact ⟨_, rfl, .inl ⟨hquiet, hl.of_eq (by omega), rfl⟩⟩
  | childParent l i =>
      obtain ⟨hl, hi⟩ := hpc
      rw [foothreadExit, if_pos (h.parentTid hi)] at hm
      cases hm
      exact ⟨_, rfl, .inl ⟨hquiet, ⟨hl, hi⟩, rfl⟩⟩
  | childJoin l i =>
      obtain ⟨hl, hi⟩ := hpc
      rw [foothreadExit, if_pos (h.joinType hi)] at hm
      cases hm
      exact ⟨_, rfl, .inl ⟨hquiet, ⟨hl, hi⟩, rfl⟩⟩
  | childTid l i =>
      obtain ⟨hl, hi⟩ := hpc
      rcases Nat.eq_zero_or_pos i with rfl | h0
      · -- the own entry is not a child
        rw [foothreadExit, hown, if_neg (by simp [ownEntry])] at hm
        cases hm
        exact ⟨_, rfl, .inl ⟨hquiet, ⟨hl.of_eq (by omega), by decide⟩, rfl⟩⟩
      · have htid : (mem.threadTable i).tid ≠ gettid 0 := by
          rw [(h.filled i (by omega) h0).tid, gettid, gettid]
          omega
        rw [foothreadExit, if_pos htid] at hm
        cases hm
        refine ⟨_, rfl, .inl ⟨hquiet, ⟨⟨hl.1, ?_⟩, by omega⟩, rfl⟩⟩
        rw [List.length_append, hl.2, List.length_singleton]
        omega
  | unlock l =>
      cases hm
      exact ⟨_, rfl, .inl ⟨hquiet, hpc, rfl⟩⟩
  | unlockOp l op =>
      obtain ⟨hq, rfl⟩ := quiet_perform hok.mutexSemaphore_ne hm
      have hne : l.mychild ≠ [] := fun hc => by
        have hlen := hpc.2
        rw [hc, List.length_nil] at hlen
        omega
      rw [if_neg hne]
      exact ⟨_, rfl, .inl ⟨hq, hpc, rfl⟩⟩
  | setJoin l =>
      cases hm
      exact ⟨_, rfl, .inl ⟨⟨rfl, rfl, rfl, rfl⟩, hpc, rfl⟩⟩
  | join l =>
      cases hm
      refine ⟨_, rfl, .inl ⟨hquiet, ⟨hpc, ?_⟩, rfl⟩⟩
      rw [of_decide_eq_true hop, hpc.2, toShort_neg (by omega)]
  | joinOp l op =>
      obtain ⟨hl, rfl⟩ := hpc
      simp only [foothreadExit, hl.1] at hm
      obtain ⟨v, hv, rfl, rfl⟩ := perform_eq_some hm
      refine ⟨_, rfl, .inr ⟨?_, rfl, rfl⟩⟩
      simp only [semop] at hv
      rw [if_neg (by omega), if_neg (by omega)] at hv
      split at hv
      · omega
      · cases hv
  | parentValid _ _ | parentTid _ _ | parentSem _ _ | signal _ _ | signalOp _ _ _ =>
      exact hpc.elim
  | setPopAgain _ | lockAgain _ | lockAgainOp _ _ | forget _ | unlockAgain | unlockAgainOp _ =>
      cases hj

/-- After its wait the creator only takes entries out of use. -/
theorem exit_joined {pc : ExitPc} {c : Ctl ExitPc} (hj : joinedExit pc = true) (hp : Parents mem)
    (hm : foothreadExit t mem pc = some (mem', c)) :
    Parents mem' ∧ ∀ pc', c = .next pc' → joinedExit pc' = true := by
  cases pc with
  | setPopAgain l =>
      cases hm
      exact ⟨hp, fun _ hc => by cases hc; rfl⟩
  | lockAgain l =>
      cases hm
      exact ⟨hp, fun _ hc => by cases hc; rfl⟩
  | lockAgainOp l op =>
      obtain ⟨v, -, rfl, rfl⟩ := perform_eq_some hm
      exact ⟨hp, fun _ hc => by cases hc; rfl⟩
  -- the entries that are cleared lose their parent
  | forget l =>
      cases l with
      | nil =>
          cases hm
          exact ⟨hp, fun _ hc => by cases hc; rfl⟩
      | cons i l =>
          cases hm
          exact ⟨hp.setEntry (hp i), fun _ hc => by cases hc; rfl⟩
  | unlockAgain =>
      cases hm
      exact ⟨hp, fun _ hc => by cases hc; rfl⟩
  | unlockAgainOp op =>
      obtain ⟨v, -, rfl, rfl⟩ := perform_eq_some hm
      exact ⟨hp, fun _ hc => by cases hc⟩
  | _ => cases hj

/-! ## The other threads exit -/

/-- The thread has added what it adds to the semaphore of its parent. -/
def signalled : ExitPc → Bool
  | .setPop | .setVop | .lock | .lockOp _ | .findValid _ | .findTid _ | .findJoin _ | .findSem _ _
  | .findParent _ _ _ | .parentValid _ _ | .parentTid _ _ | .parentSem _ _ | .signal _ _
  | .signalOp _ _ _ => false
  | _ => true

/-- No children have been noted. -/
def Childless : ExitPc → Prop
  | .parentValid l _ | .parentTid l _ | .parentSem l _ | .signal l _ | .signalOp l _ _
  | .childValid l _ | .childParent l _ | .unlock l | .unlockOp l _ | .setPopAgain l | .lockAgain l
  | .lockAgainOp l _ => l.mychild = []
  | .childJoin _ _ | .childTid _ _ | .setJoin _ | .join _ | .joinOp _ _ => False
  | .forget l => l = []
  | _ => True

/-- The thread adds `1`. -/
def AddsOne : ExitPc → Prop
  | .signalOp _ _ op => op = 1
  | _ => True

/-- The thread reads from `vop` what it has to add. -/
def readsOwnVop (mem : Mem) : ExitPc → Bool
  | .signal _ _ => mem.vop = 1
  | _ => true

/-- What a step of `foothread_exit` by another thread leaves. -/
structure ChildStep (lo : Nat) (mem mem' : Mem) (pc : ExitPc) (c : Ctl ExitPc) : Prop where
  same : mem'.threadTable = mem.threadTable ∧ mem'.init = mem.init ∧ mem'.nextSem = mem.nextSem
  tokens : mem'.semval lo = mem.semval lo
    ∨ signalled pc = false ∧ mem'.semval lo = mem.semval lo + 1
      ∧ ∀ pc', c = .next pc' → signalled pc' = true
  next : ∀ pc', c = .next pc' →
    Childless pc' ∧ AddsOne pc' ∧ (signalled pc = true → signalled pc' = true)
  noRet : c = .ret → signalled pc = true

theorem ChildStep.quiet {pc pc' : ExitPc} (hq : Quiet lo mem mem') (hc : Childless pc')
    (ho : AddsOne pc') (hs : signalled pc = true → signalled pc' = true) :
    ChildStep lo mem mem' pc (.next pc') where
  same := ⟨hq.table, hq.init, hq.next⟩
  tokens := .inl hq.tokens
  next := fun _ heq => by
    cases heq
    exact ⟨hc, ho, hs⟩
  noRet := fun heq => by cases heq

theorem afterFind_cases {l : ExitLocals} {I : ExitPc → Prop} (hp : I (.parentValid l 0))
    (hc : I (.childValid l 0)) : I (afterFind t l) := by
  unfold afterFind
  split
  · exact hp
  · exact hc

/-- The signal to the parent: its semaphore gains one, unless it is as large as it can be. -/
theorem tokens_signal {sem v : Nat} (hv : semop (mem.semval sem) 1 = some v) :
    (mem.setSem sem v).semval lo = mem.semval lo
      ∨ (mem.setSem sem v).semval lo = mem.semval lo + 1 := by
  by_cases hsem : sem = lo
  · subst hsem
    have hself : (mem.setSem sem v).semval sem = v := Function.update_self _ _ _
    rw [hself]
    by_cases hmax : mem.semval sem < SEMVMX
    · rw [semop_one hmax] at hv
      exact .inr (Option.some.inj hv).symm
    · -- a value that is too large stays as it is
      have hone : (1 : Int).toNat = 1 := rfl
      rw [semop, if_pos (by decide), hone, if_neg (by omega)] at hv
      exact .inl (Option.some.inj hv).symm
  · exact .inl (Function.update_of_ne (Ne.symm hsem) _ _)

/-- **A step of `foothread_exit`** by a thread that is nobody's parent. -/
theorem exit_child (hok : MemOk lo mem) (ht : 0 < t) (hp : Parents mem) {pc : ExitPc}
    {c : Ctl ExitPc} (hpc : Childless pc) (hone : AddsOne pc) (hop : readsOwnVop mem pc = true)
    (hm : foothreadExit t mem pc = some (mem', c)) : ChildStep lo mem mem' pc c := by
  have hkey := hok.mutexSemaphore_ne
  have hquiet : Quiet lo mem mem := ⟨rfl, rfl, rfl, rfl⟩
  cases pc with
  | setPop | setVop =>
      cases hm
      exact .quiet ⟨rfl, rfl, rfl, rfl⟩ trivial trivial (fun h => by cases h)
  | lock =>
      cases hm
      exact .quiet hquiet trivial trivial (fun h => by cases h)
  | lockOp op =>
      obtain ⟨hq, rfl⟩ := quiet_perform hkey hm
      exact .quiet hq trivial trivial (fun h => by cases h)
  | findValid i =>
      simp only [foothreadExit] at hm
      split at hm
      · cases hm
        refine .quiet hquiet ?_ ?_ (fun h => by cases h)
        · split <;> trivial
        · split <;> trivial
      · cases hm
        exact .quiet hquiet (afterFind_cases rfl rfl) (afterFind_cases trivial trivial)
          (fun h => by cases h)
  | findTid i =>
      cases hm
      refine .quiet hquiet ?_ ?_ (fun h => by cases h)
      · split <;> trivial
      · split <;> trivial
  | findJoin _ | findSem _ _ =>
      cases hm
      exact .quiet hquiet trivial trivial (fun h => by cases h)
  | findParent i j sem =>
      cases hm
      exact .quiet hquiet (afterFind_cases rfl rfl) (afterFind_cases trivial trivial)
        (fun h => by cases h)
  | parentValid l i =>
      simp only [foothreadExit] at hm
      split at hm
      · cases hm
        refine .quiet hquiet ?_ ?_ (fun h => by cases h)
        · split <;> exact hpc
        · split <;> trivial
      · cases hm
        exact .quiet hquiet hpc trivial (fun h => by cases h)
  | parentTid l i =>
      cases hm
      refine .quiet hquiet ?_ ?_ (fun h => by cases h)
      · split <;> exact hpc
      · split <;> trivial
  | parentSem l i =>
      cases hm
      exact .quiet hquiet hpc trivial (fun h => by cases h)
  | signal l sem =>
      cases hm
      have hvop : mem.vop = 1 := of_decide_eq_true hop
      exact .quiet hquiet hpc hvop (fun h => by cases h)
  | signalOp l sem op =>
      obtain rfl : op = 1 := hone
      obtain ⟨v, hv, rfl, rfl⟩ := perform_eq_some hm
      refine ⟨⟨rfl, rfl, rfl⟩, ?_, fun _ hc => ?_, fun hc => by cases hc⟩
      · refine (tokens_signal hv).imp_right fun hmore => ⟨rfl, hmore, fun _ hc => ?_⟩
        cases hc
        rfl
      · cases hc
        exact ⟨hpc, trivial, fun _ => rfl⟩
  | childValid l i =>
      simp only [foothreadExit] at hm
      split at hm
      · cases hm
        refine .quiet hquiet ?_ ?_ fun _ => ?_
        · split <;> exact hpc
        · split <;> trivial
        · split <;> rfl
      · cases hm
        exact .quiet hquiet hpc trivial fun _ => rfl
  | childParent l i =>
      -- thread `0` alone is a parent
      have hne : (mem.threadTable i).parentTid ≠ gettid t := by
        rcases hp i with heq | heq
        · rw [heq, gettid]
          omega
        · rw [heq, gettid, gettid]
          omega
      rw [foothreadExit, if_neg hne] at hm
      cases hm
      exact .quiet hquiet hpc trivial fun _ => rfl
  | unlock l =>
      cases hm
      exact .quiet hquiet hpc trivial fun _ => rfl
  | unlockOp l op =>
      obtain ⟨hq, rfl⟩ := quiet_perform hkey hm
      rw [if_pos (show l.mychild = [] from hpc)]
      exact .quiet hq hpc trivial fun _ => rfl
  | setPopAgain l =>
      cases hm
      exact .quiet ⟨rfl, rfl, rfl, rfl⟩ hpc trivial fun _ => rfl
  | lockAgain l =>
      cases hm
      exact .quiet hquiet hpc trivial fun _ => rfl
  | lockAgainOp l op =>
      obtain ⟨hq, rfl⟩ := quiet_perform hkey hm
      refine .quiet hq ?_ trivial fun _ => rfl
      show (if l.index.isSome then l.mychild else []) = []
      split
      · exact hpc
      · rfl
  | forget l =>
      obtain rfl : l = [] := hpc
      cases hm
      exact .quiet hquiet trivial trivial fun _ => rfl
  | unlockAgain =>
      cases hm
      exact .quiet hquiet trivial trivial fun _ => rfl
  | unlockAgainOp op =>
      obtain ⟨hq, rfl⟩ := quiet_perform hkey hm
      exact ⟨⟨hq.table, hq.init, hq.next⟩, .inl hq.tokens, (fun _ hc => by cases hc), fun _ => rfl⟩
  | childJoin _ _ | childTid _ _ | setJoin _ | join _ | joinOp _ _ => exact hpc.elim

/-! ## Calls that do not look at the table -/

theorem quiet_lock (hok : MemOk lo mem) {pc : LockPc} {c : Ctl LockPc}
    (hm : mutexLock 0 t mem pc = some (mem', c)) : Quiet lo mem mem' := by
  cases pc with
  | lockOp op => exact (quiet_perform hok.mutex_ne hm).1
  | _ =>
      cases hm
      exact ⟨rfl, rfl, rfl, rfl⟩

theorem quiet_unlock (hok : MemOk lo mem) {pc : UnlockPc} {c : Ctl UnlockPc}
    (hm : mutexUnlock 0 t mem pc = some (mem', c)) : Quiet lo mem mem' := by
  cases pc with
  | unlockOp op => exact (quiet_perform hok.mutex_ne hm).1
  | _ =>
      cases hm
      exact ⟨rfl, rfl, rfl, rfl⟩

theorem quiet_barrier {b : Nat} (hmutex : (mem.barriers b).mutexSemaphore ≠ lo)
    (hsem : (mem.barriers b).semaphore ≠ lo) {pc : BarrierPc} {c : Ctl BarrierPc}
    (hm : barrierWait b mem pc = some (mem', c)) : Quiet lo mem mem' := by
  cases pc with
  | lockOp op => exact (quiet_perform hmutex hm).1
  | unlockOp last op => exact (quiet_perform hmutex hm).1
  | releaseOp op => exact (quiet_perform hsem hm).1
  | passOp op => exact (quiet_perform hsem hm).1
  | _ =>
      cases hm
      exact ⟨rfl, rfl, rfl, rfl⟩

end OSLab.Foothread
