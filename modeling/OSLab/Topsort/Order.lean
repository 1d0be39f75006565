import OSLab.Topsort.Workers

set_option autoImplicit false

/-! # The workers append the vertices in a topological order

Three facts about every reachable state carry the proof.

* The semaphores count (`Counts`): `sem_mtx` and the workers inside the critical section add up
  to one; `sem_sync[v]` and the `P`s worker `v` has done add up to the predecessors of `v` that
  have signalled `v`; `sem_ntfy` and the `P`s the boss has done add up to the workers that have
  exited.
* So a worker that has left its waiting loop has had every predecessor signal it, and a worker
  signals only after it has appended itself (`Counts.preds_appended`).
* `T[0..*idx-1]` lists the workers that have appended themselves, each once, each after its
  predecessors (`Listing`).

When the boss has done its `n` `P`s all workers have exited, so all have appended themselves.
-/

namespace OSLab.Topsort

variable {n : Nat} {A : Nat → Int} {s s' : State} {id : Nat}

/-! ## What a step can do -/

/-- The steps of worker `id`, one constructor for each way `workerStep` can move. -/
inductive WorkerMove (n : Nat) (A : Nat → Int) (s : State) (id : Nat) : State → Prop
  | take {i : Nat} (hpc : s.worker id = .await i) (hi : i < n) (he : edge n A i id = true)
      (hs : 0 < s.semSync id) : WorkerMove n A s id
      ({ s with semSync := Function.update s.semSync id (s.semSync id - 1) }.goto id
        (.await (i + 1)))
  | skip {i : Nat} (hpc : s.worker id = .await i) (hi : i < n) (he : edge n A i id = false) :
      WorkerMove n A s id (s.goto id (.await (i + 1)))
  | ready {i : Nat} (hpc : s.worker id = .await i) (hi : n ≤ i) :
      WorkerMove n A s id (s.goto id .lock)
  | lock (hpc : s.worker id = .lock) (hm : 0 < s.semMtx) :
      WorkerMove n A s id ({ s with semMtx := s.semMtx - 1 }.goto id .loadSlot)
  | loadSlot (hpc : s.worker id = .loadSlot) : WorkerMove n A s id (s.goto id (.store s.idx))
  | store {slot : Nat} (hpc : s.worker id = .store slot) :
      WorkerMove n A s id ({ s with T := Function.update s.T slot id }.goto id .loadIdx)
  | loadIdx (hpc : s.worker id = .loadIdx) : WorkerMove n A s id (s.goto id (.bump s.idx))
  | bump {value : Nat} (hpc : s.worker id = .bump value) :
      WorkerMove n A s id ({ s with idx := value + 1 }.goto id .unlock)
  | unlock (hpc : s.worker id = .unlock) :
      WorkerMove n A s id ({ s with semMtx := s.semMtx + 1 }.goto id (.signal 0))
  | signal {i : Nat} (hpc : s.worker id = .signal i) (hi : i < n) (he : edge n A id i = true) :
      WorkerMove n A s id
      ({ s with semSync := Function.update s.semSync i (s.semSync i + 1) }.goto id
        (.signal (i + 1)))
  | pass {i : Nat} (hpc : s.worker id = .signal i) (hi : i < n) (he : edge n A id i = false) :
      WorkerMove n A s id (s.goto id (.signal (i + 1)))
  | signalled {i : Nat} (hpc : s.worker id = .signal i) (hi : n ≤ i) :
      WorkerMove n A s id (s.goto id .notify)
  | notify (hpc : s.worker id = .notify) :
      WorkerMove n A s id ({ s with semNtfy := s.semNtfy + 1 }.goto id .exited)

theorem workerStep_move (h : workerStep n A s id = some s') : WorkerMove n A s id s' := by
  unfold workerStep at h
  cases hpc : s.worker id with
  | await i =>
      simp only [hpc] at h
      split_ifs at h with hi he hs
      · exact Option.some.inj h ▸ .take hpc hi he hs
      · exact Option.some.inj h ▸ .skip hpc hi (by simpa using he)
      · exact Option.some.inj h ▸ .ready hpc (by omega)
  | lock =>
      simp only [hpc] at h
      split_ifs at h with hm
      exact Option.some.inj h ▸ .lock hpc hm
  | loadSlot => simp only [hpc] at h; exact Option.some.inj h ▸ .loadSlot hpc
  | store slot => simp only [hpc] at h; exact Option.some.inj h ▸ .store hpc
  | loadIdx => simp only [hpc] at h; exact Option.some.inj h ▸ .loadIdx hpc
  | bump value => simp only [hpc] at h; exact Option.some.inj h ▸ .bump hpc
  | unlock => simp only [hpc] at h; exact Option.some.inj h ▸ .unlock hpc
  | signal i =>
      simp only [hpc] at h
      split_ifs at h with hi he
      · exact Option.some.inj h ▸ .signal hpc hi he
      · exact Option.some.inj h ▸ .pass hpc hi (by simpa using he)
      · exact Option.some.inj h ▸ .signalled hpc (by omega)
  | notify => simp only [hpc] at h; exact Option.some.inj h ▸ .notify hpc
  | exited => simp [hpc] at h

/-- A worker moves no other worker. -/
theorem WorkerMove.worker_ne (h : WorkerMove n A s id s') {j : Nat} (hj : j ≠ id) :
    s'.worker j = s.worker j := by
  cases h <;> exact State.goto_worker_ne _ _ hj

/-! ## The semaphores count -/

/-- Inside `P(sem_mtx) … V(sem_mtx)`. -/
def WorkerPc.critical : WorkerPc → Bool
  | .loadSlot | .store _ | .loadIdx | .bump _ | .unlock => true
  | _ => false

/-- Past the write of `*idx`. -/
def WorkerPc.appended : WorkerPc → Bool
  | .unlock | .signal _ | .notify | .exited => true
  | _ => false

/-- Past index `v` of the loop over the outgoing edges. -/
def WorkerPc.sent (v : Nat) : WorkerPc → Bool
  | .signal i => decide (v < i)
  | .notify | .exited => true
  | _ => false

/-- How many incoming edges of `v` a worker at this place has waited for. -/
def WorkerPc.taken (n : Nat) (A : Nat → Int) (v : Nat) : WorkerPc → Nat
  | .await i => Nat.count (fun u => edge n A u v = true) i
  | _ => Nat.count (fun u => edge n A u v = true) n

@[simp] theorem WorkerPc.critical_eq :
    (∀ i, critical (.await i) = false) ∧ critical .lock = false ∧ critical .loadSlot = true
      ∧ (∀ r, critical (.store r) = true) ∧ critical .loadIdx = true
      ∧ (∀ r, critical (.bump r) = true) ∧ critical .unlock = true
      ∧ (∀ i, critical (.signal i) = false) ∧ critical .notify = false
      ∧ critical .exited = false := by simp [critical]

@[simp] theorem WorkerPc.appended_eq :
    (∀ i, appended (.await i) = false) ∧ appended .lock = false ∧ appended .loadSlot = false
      ∧ (∀ r, appended (.store r) = false) ∧ appended .loadIdx = false
      ∧ (∀ r, appended (.bump r) = false) ∧ appended .unlock = true
      ∧ (∀ i, appended (.signal i) = true) ∧ appended .notify = true
      ∧ appended .exited = true := by simp [appended]

@[simp] theorem WorkerPc.sent_eq (v : Nat) :
    (∀ i, sent v (.await i) = false) ∧ sent v .lock = false ∧ sent v .loadSlot = false
      ∧ (∀ r, sent v (.store r) = false) ∧ sent v .loadIdx = false
      ∧ (∀ r, sent v (.bump r) = false) ∧ sent v .unlock = false
      ∧ (∀ i, sent v (.signal i) = decide (v < i)) ∧ sent v .notify = true
      ∧ sent v .exited = true := by simp [sent]

theorem WorkerPc.taken_await (n : Nat) (A : Nat → Int) (v i : Nat) :
    taken n A v (.await i) = Nat.count (fun u => edge n A u v = true) i := rfl

theorem WorkerPc.taken_past {pc : WorkerPc} (n : Nat) (A : Nat → Int) (v : Nat)
    (h : ∀ i, pc ≠ .await i) : pc.taken n A v = Nat.count (fun u => edge n A u v = true) n := by
  cases pc with
  | await i => exact absurd rfl (h i)
  | _ => rfl

/-- The semaphore values, against the places of the workers. -/
structure Counts (n : Nat) (A : Nat → Int) (s : State) : Prop where
  mtx : s.semMtx + Nat.count (fun u => (s.worker u).critical = true) n = 1
  sync : ∀ v, v < n → s.semSync v + (s.worker v).taken n A v
    = Nat.count (fun u => edge n A u v = true ∧ (s.worker u).sent v = true) n
  ntfy : s.semNtfy + s.boss = Nat.count (fun u => s.worker u = .exited) n
  index : ∀ v i, s.worker v = .await i → i ≤ n

theorem counts_setup (T : Nat → Nat) : Counts n A (setup T) where
  mtx := by simp [setup]
  sync := by intro v _; simp [setup, WorkerPc.taken_await]
  ntfy := by simp [setup]
  index := by intro v i h; simp [setup] at h; omega

theorem mtx_step (h : WorkerMove n A s id s') (hid : id < n)
    (hm : s.semMtx + Nat.count (fun u => (s.worker u).critical = true) n = 1) :
    s'.semMtx + Nat.count (fun u => (s'.worker u).critical = true) n = 1 := by
  have hc := count_change (p := fun u => (s.worker u).critical = true)
    (q := fun u => (s'.worker u).critical = true) hid (fun j _ hj => by rw [h.worker_ne hj])
  cases h <;> simp_all
  all_goals omega

theorem ntfy_step (h : WorkerMove n A s id s') (hid : id < n)
    (hn : s.semNtfy + s.boss = Nat.count (fun u => s.worker u = .exited) n) :
    s'.semNtfy + s'.boss = Nat.count (fun u => s'.worker u = .exited) n := by
  have hc := count_change (p := fun u => s.worker u = .exited)
    (q := fun u => s'.worker u = .exited) hid (fun j _ hj => by rw [h.worker_ne hj])
  cases h <;> simp_all
  all_goals omega

/-- Worker `v`'s own step: what it takes from `sem_sync[v]` it has waited for. -/
theorem sync_step_self (h : WorkerMove n A s id s') (hi : ∀ i, s.worker id = .await i → i ≤ n) :
    s'.semSync id + (s'.worker id).taken n A id = s.semSync id + (s.worker id).taken n A id := by
  cases h with
  | take hpc _ he hs =>
      simp only [State.goto_semSync, State.goto_worker_self, hpc, WorkerPc.taken_await,
        Function.update_self, Nat.count_succ, he, if_true]
      omega
  | skip hpc _ he => simp [hpc, WorkerPc.taken_await, Nat.count_succ, he]
  | ready hpc hn =>
      have := hi _ hpc
      have hin := le_antisymm this hn
      simp [hpc, WorkerPc.taken_await, WorkerPc.taken_past, hin]
  | signal hpc _ he =>
      rename_i i _
      have hne : id ≠ i := by intro hc; simp [edge, hc] at he
      simp [hpc, WorkerPc.taken_past, hne]
  | _ hpc => simp [hpc, WorkerPc.taken_past]

/-- Another worker's step: `sem_sync[v]` grows when the edge `id → v` is signalled. -/
theorem sync_step_other (h : WorkerMove n A s id s') {v : Nat} (hv : v < n) (hne : v ≠ id) :
    s'.semSync v + (if edge n A id v = true ∧ (s.worker id).sent v = true then 1 else 0)
      = s.semSync v + (if edge n A id v = true ∧ (s'.worker id).sent v = true then 1 else 0) := by
  cases h with
  | take hpc => simp [hpc, hne]
  | @signal i hpc _ he =>
      by_cases hvi : v = i
      · subst hvi; simp [hpc, he]
      · have hlt : v < i + 1 ↔ v < i := by omega
        simp [hpc, hvi, hlt]
  | @pass i hpc _ he =>
      by_cases hvi : v = i
      · subst hvi; simp [he]
      · have hlt : v < i + 1 ↔ v < i := by omega
        simp [hpc, hlt]
  | @signalled i hpc hi =>
      have hlt : v < i := by omega
      simp [hpc, hlt]
  | _ hpc => simp [hpc]

theorem sync_step (h : WorkerMove n A s id s') (hid : id < n) {v : Nat} (hv : v < n)
    (hi : ∀ i, s.worker id = .await i → i ≤ n)
    (hs : s.semSync v + (s.worker v).taken n A v
      = Nat.count (fun u => edge n A u v = true ∧ (s.worker u).sent v = true) n) :
    s'.semSync v + (s'.worker v).taken n A v
      = Nat.count (fun u => edge n A u v = true ∧ (s'.worker u).sent v = true) n := by
  have hc := count_change (p := fun u => edge n A u v = true ∧ (s.worker u).sent v = true)
    (q := fun u => edge n A u v = true ∧ (s'.worker u).sent v = true) hid
    (fun j _ hj => by rw [h.worker_ne hj])
  by_cases hvid : v = id
  · subst hvid
    have hself : edge n A v v = false := by simp [edge]
    simp only [hself, Bool.false_eq_true, false_and, if_false] at hc
    have := sync_step_self h hi
    omega
  · have := sync_step_other h hv hvid
    rw [h.worker_ne hvid]
    omega

theorem index_step (h : WorkerMove n A s id s') (hi : ∀ v i, s.worker v = .await i → i ≤ n) :
    ∀ v i, s'.worker v = .await i → i ≤ n := by
  intro v i hv
  by_cases hvid : v = id
  · subst hvid
    cases h <;> simp_all
    all_goals omega
  · rw [h.worker_ne hvid] at hv
    exact hi v i hv

theorem counts_worker (h : WorkerMove n A s id s') (hid : id < n) (hc : Counts n A s) :
    Counts n A s' where
  mtx := mtx_step h hid hc.mtx
  sync := fun v hv => sync_step h hid hv (hc.index id) (hc.sync v hv)
  ntfy := ntfy_step h hid hc.ntfy
  index := index_step h hc.index

theorem counts_boss (h : bossStep n s = some s') (hc : Counts n A s) : Counts n A s' := by
  unfold bossStep at h
  split_ifs at h with hb
  obtain rfl := Option.some.inj h
  refine ⟨hc.mtx, hc.sync, ?_, hc.index⟩
  have := hc.ntfy
  simp only
  omega

theorem counts_reachable (h : (machine n A).Reachable s) : Counts n A s := by
  refine h.invariant ?_ ?_
  · rintro s ⟨T, rfl⟩
    exact counts_setup T
  · intro s a s' hc _ hs
    cases a with
    | worker id =>
        simp only [machine] at hs
        split_ifs at hs with hid
        exact counts_worker (workerStep_move hs) hid hc
    | boss => exact counts_boss hs hc

/-- **A worker past its waiting loop has been signalled by every predecessor**, and a worker
signals after it has appended itself. -/
theorem Counts.preds_appended (hc : Counts n A s) {v : Nat} (hv : v < n)
    (hpast : ∀ i, s.worker v ≠ .await i) {u : Nat} (hu : u < n) (he : edge n A u v = true) :
    (s.worker u).appended = true := by
  have hle : Nat.count (fun u => edge n A u v = true) n
      ≤ Nat.count (fun u => edge n A u v = true ∧ (s.worker u).sent v = true) n := by
    rw [← hc.sync v hv, WorkerPc.taken_past n A v hpast]
    omega
  have hsent := (of_count_le (fun j _ h => h.1) hle u hu he).2
  cases hpc : s.worker u <;> simp_all

/-! ## What `T` lists -/

/-- `T[0..idx-1]` lists the vertices below `n` with `app`, each once and each after its
predecessors. -/
structure Listing (n : Nat) (A : Nat → Int) (T : Nat → Nat) (idx : Nat) (app : Nat → Bool) :
    Prop where
  listed : ∀ id, id < n → (app id = true ↔ ∃ j, j < idx ∧ T j = id)
  inRange : ∀ j, j < idx → T j < n
  inj : ∀ i j, i < idx → j < idx → T i = T j → i = j
  sorted : ∀ j, j < idx → ∀ u, u < n → edge n A u (T j) = true → ∃ i, i < j ∧ T i = u

variable {T T' : Nat → Nat} {idx : Nat} {app app' : Nat → Bool}

theorem listing_empty : Listing n A T 0 (fun _ => false) where
  listed := by simp
  inRange := by simp
  inj := by simp
  sorted := by simp

/-- Cells from `idx` on, and vertices from `n` on, do not matter. -/
theorem Listing.congr (h : Listing n A T idx app) (hT : ∀ j, j < idx → T' j = T j)
    (happ : ∀ id, id < n → app' id = app id) : Listing n A T' idx app' where
  listed := by
    intro id hid
    rw [happ id hid, h.listed id hid]
    constructor
    · rintro ⟨j, hj, rfl⟩; exact ⟨j, hj, hT j hj⟩
    · rintro ⟨j, hj, rfl⟩; exact ⟨j, hj, (hT j hj).symm⟩
  inRange := by intro j hj; rw [hT j hj]; exact h.inRange j hj
  inj := by
    intro i j hi hj hij
    rw [hT i hi, hT j hj] at hij
    exact h.inj i j hi hj hij
  sorted := by
    intro j hj u hu he
    rw [hT j hj] at he
    obtain ⟨i, hi, rfl⟩ := h.sorted j hj u hu he
    exact ⟨i, hi, hT i (by omega)⟩

/-- **Appending.** A vertex not yet listed, all of whose predecessors are, may come next. -/
theorem Listing.append (h : Listing n A T idx app) (hid : id < n) (hT : T idx = id)
    (hnew : app id = false) (hpre : ∀ u, u < n → edge n A u id = true → app u = true) :
    Listing n A T (idx + 1) (Function.update app id true) where
  listed := by
    intro v hv
    by_cases hvid : v = id
    · subst hvid
      simp only [Function.update_self, true_iff]
      exact ⟨idx, by omega, hT⟩
    · rw [Function.update_of_ne hvid, h.listed v hv]
      constructor
      · rintro ⟨j, hj, hjv⟩; exact ⟨j, by omega, hjv⟩
      · rintro ⟨j, hj, hjv⟩
        have hne : j ≠ idx := by rintro rfl; exact hvid (hjv ▸ hT)
        exact ⟨j, by omega, hjv⟩
  inRange := by
    intro j hj
    by_cases hji : j = idx
    · rw [hji, hT]; exact hid
    · exact h.inRange j (by omega)
  inj := by
    -- `id` was not listed before
    have hfresh : ∀ j, j < idx → T j ≠ T idx := by
      intro j hj hc
      have := (h.listed id hid).mpr ⟨j, hj, hc.trans hT⟩
      rw [hnew] at this
      cases this
    intro i j hi hj hij
    by_cases hii : i = idx <;> by_cases hjj : j = idx
    · rw [hii, hjj]
    · subst hii; exact absurd hij.symm (hfresh j (by omega))
    · subst hjj; exact absurd hij (hfresh i (by omega))
    · exact h.inj i j (by omega) (by omega) hij
  sorted := by
    intro j hj u hu he
    by_cases hji : j = idx
    · subst hji
      -- what comes before `id` has been listed
      rw [hT] at he
      exact (h.listed u hu).mp (hpre u hu he)
    · exact h.sorted j (by omega) u hu he

/-- When every vertex is listed, the listing is a permutation of them. -/
theorem Listing.perm (h : Listing n A T idx app) (hall : ∀ id, id < n → app id = true) :
    idx = n ∧ ((List.range n).map T).Perm (List.range n) := by
  have hnodup : ((List.range idx).map T).Nodup := by
    rw [List.nodup_map_iff_inj_on List.nodup_range]
    intro i hi j hj hij
    exact h.inj i j (List.mem_range.mp hi) (List.mem_range.mp hj) hij
  have hperm : ((List.range idx).map T).Perm (List.range n) := by
    rw [List.perm_ext_iff_of_nodup hnodup List.nodup_range]
    intro v
    simp only [List.mem_map, List.mem_range]
    constructor
    · rintro ⟨j, hj, rfl⟩; exact h.inRange j hj
    · intro hv; exact (h.listed v hv).mp (hall v hv)
  have hidx : idx = n := by simpa using hperm.length_eq
  subst hidx
  exact ⟨rfl, hperm⟩

/-- What a worker inside the critical section knows of `*idx` and `T[*idx]`. -/
def WorkerPc.Knows (s : State) (id : Nat) : WorkerPc → Prop
  | .store slot => slot = s.idx
  | .loadIdx => s.T s.idx = id
  | .bump value => value = s.idx ∧ s.T s.idx = id
  | _ => True

theorem WorkerPc.knows_of_not_critical {pc : WorkerPc} (h : pc.critical = false) :
    pc.Knows s id := by
  cases pc <;> simp_all [Knows]

/-- The listing, and what the worker in the critical section knows of the next cell. -/
structure Appending (n : Nat) (A : Nat → Int) (s : State) : Prop where
  listing : Listing n A s.T s.idx (fun id => (s.worker id).appended)
  knows : ∀ id, id < n → (s.worker id).Knows s id

/-- At most one worker is in the critical section. -/
theorem Counts.exclusive (hc : Counts n A s) {i j : Nat} (hi : i < n) (hj : j < n)
    (hci : (s.worker i).critical = true) (hcj : (s.worker j).critical = true) : i = j :=
  eq_of_count_le_one (p := fun u => (s.worker u).critical = true)
    (by have := hc.mtx; omega) hi hj hci hcj

theorem appending_setup (T : Nat → Nat) : Appending n A (setup T) where
  listing := listing_empty
  knows := by intro id _; simp [setup, WorkerPc.Knows]

/-- Every move but the two writes leaves `T` and `*idx` alone. -/
theorem WorkerMove.frame (h : WorkerMove n A s id s') (hst : ∀ r, s.worker id ≠ .store r)
    (hbp : ∀ r, s.worker id ≠ .bump r) :
    s'.T = s.T ∧ s'.idx = s.idx ∧ (s'.worker id).appended = (s.worker id).appended := by
  cases h with
  | store hpc => exact absurd hpc (hst _)
  | bump hpc => exact absurd hpc (hbp _)
  | _ hpc => simp [hpc]

theorem listing_step (h : WorkerMove n A s id s') (hid : id < n) (hc : Counts n A s)
    (ha : Appending n A s) : Listing n A s'.T s'.idx (fun id => (s'.worker id).appended) := by
  have hother : ∀ j, j ≠ id → (s'.worker j).appended = (s.worker j).appended :=
    fun j hj => by rw [h.worker_ne hj]
  have hk := ha.knows id hid
  have hframe := h.frame
  cases h with
  | store hpc =>
      -- the written cell is the one at `*idx`, which no index below `*idx` is
      rw [hpc] at hk
      obtain rfl : _ = s.idx := hk
      refine ha.listing.congr (fun j hj => Function.update_of_ne (by omega) _ _) fun j _ => ?_
      by_cases hji : j = id
      · subst hji; simp [hpc]
      · exact hother j hji
  | bump hpc =>
      have hpre : ∀ u, u < n → edge n A u id = true → (s.worker u).appended = true :=
        fun u hu he => hc.preds_appended hid (by simp [hpc]) hu he
      rw [hpc] at hk
      obtain ⟨rfl, hT⟩ := hk
      refine (ha.listing.append hid hT (by simp [hpc]) hpre).congr (fun _ _ => rfl) fun j _ => ?_
      by_cases hji : j = id
      · subst hji; simp
      · rw [Function.update_of_ne hji]; exact hother j hji
  | _ hpc =>
      obtain ⟨hT, hidx, happ⟩ := hframe (by simp [hpc]) (by simp [hpc])
      rw [hT, hidx]
      refine ha.listing.congr (fun _ _ => rfl) fun j _ => ?_
      by_cases hji : j = id
      · subst hji; exact happ
      · exact hother j hji

theorem knows_step (h : WorkerMove n A s id s') (hid : id < n) (hc : Counts n A s)
    (ha : Appending n A s) : ∀ j, j < n → (s'.worker j).Knows s' j := by
  intro j hj
  by_cases hji : j = id
  · subst hji
    have hk := ha.knows j hj
    cases h <;> simp_all [WorkerPc.Knows]
  · rw [h.worker_ne hji]
    by_cases hcrit : (s.worker j).critical = true
    · -- the mover is outside the critical section, so it writes neither cell
      have hout : (s.worker id).critical ≠ true :=
        fun hci => hji (hc.exclusive hj hid hcrit hci)
      obtain ⟨hT, hidx, -⟩ := h.frame (fun r hr => by simp [hr] at hout)
        (fun r hr => by simp [hr] at hout)
      have hk := ha.knows j hj
      cases hpc : s.worker j <;> simp_all [WorkerPc.Knows]
    · exact WorkerPc.knows_of_not_critical (by simpa using hcrit)

theorem appending_reachable (h : (machine n A).Reachable s) : Appending n A s := by
  refine h.invariant_of (J := Counts n A) (fun _ => counts_reachable) ?_ ?_
  · rintro s ⟨T, rfl⟩
    exact appending_setup T
  · intro s a s' hc ha _ hs
    cases a with
    | worker id =>
        simp only [machine] at hs
        split_ifs at hs with hid
        have hm := workerStep_move hs
        exact ⟨listing_step hm hid hc ha, knows_step hm hid hc ha⟩
    | boss =>
        simp only [machine, bossStep] at hs
        split_ifs at hs
        obtain rfl := Option.some.inj hs
        exact ⟨ha.listing, ha.knows⟩

/-- When the boss has done its `n` `P`s, every worker has exited. -/
theorem Counts.all_exited (hc : Counts n A s) (hb : s.boss = n) :
    ∀ id, id < n → s.worker id = .exited := by
  have hle := Nat.count_le (p := fun u => s.worker u = .exited) (n := n)
  have := hc.ntfy
  exact Nat.count_iff_forall.mp (by omega)

theorem appended_when_done (h : (machine n A).Reachable s) (hb : s.boss = n) :
    ∀ id, id < n → (s.worker id).appended = true := by
  intro id hid
  simp [(counts_reachable h).all_exited hb id hid]

/-- When every vertex is listed, the edges go forward. -/
theorem Listing.forward (h : Listing n A T idx app) (hall : ∀ id, id < n → app id = true)
    {u v : Nat} (hu : u < n) (hv : v < n) (he : edge n A u v = true) :
    ∃ i j, i < j ∧ j < idx ∧ T i = u ∧ T j = v := by
  obtain ⟨j, hj, rfl⟩ := (h.listed v hv).mp (hall v hv)
  obtain ⟨i, hi, rfl⟩ := h.sorted j hj u hu he
  exact ⟨i, j, hi, hj, rfl, rfl⟩

/-- **The boss prints a topological order.** In every state any interleaving reaches, once the
boss's loop over `P(sem_ntfy)` is done, `*idx` is `n`, `T[0..n-1]` is a permutation of the
vertices, and every edge between distinct vertices goes from an earlier to a later cell. -/
theorem topological_order {n : Nat} {A : Nat → Int} {s : State}
    (h : (machine n A).Reachable s) (hb : s.boss = n) :
    s.idx = n ∧ ((List.range n).map s.T).Perm (List.range n)
      ∧ ∀ u v, u < n → v < n → A (u * n + v) = 1 → u ≠ v →
        ∃ i j, i < j ∧ j < n ∧ s.T i = u ∧ s.T j = v := by
  have hl := (appending_reachable h).listing
  have hall := appended_when_done h hb
  obtain ⟨hidx, hperm⟩ := hl.perm hall
  refine ⟨hidx, hperm, fun u v hu hv hA huv => ?_⟩
  rw [← hidx]
  apply hl.forward hall hu hv
  simp [edge, hA, huv]

/-- The hypotheses are met: two workers, the edge `0 → 1`, run one after the other. -/
theorem topological_order_edge :
    ∃ s, (machine 2 fun i => if i = 1 then 1 else 0).Reachable s ∧ s.boss = 2 ∧
      (s.idx = 2 ∧ ((List.range 2).map s.T).Perm (List.range 2)
        ∧ ∀ u v, u < 2 → v < 2 → (if u * 2 + v = 1 then (1 : Int) else 0) = 1 → u ≠ v →
          ∃ i j, i < j ∧ j < 2 ∧ s.T i = u ∧ s.T j = v) := by
  obtain ⟨s, hs, hb⟩ := Machine.exists_reachable_of_exec
    (M := machine 2 fun i => if i = 1 then 1 else 0) (s := setup fun _ => 0)
    (l := List.replicate 13 (.worker 0) ++ List.replicate 13 (.worker 1) ++ [.boss, .boss])
    (p := fun s => s.boss == 2) ⟨_, rfl⟩ (by decide)
  have hb : s.boss = 2 := by simpa using hb
  exact ⟨s, hs, hb, topological_order hs hb⟩

end OSLab.Topsort
