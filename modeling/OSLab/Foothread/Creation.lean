import OSLab.Foothread.Sections

set_option autoImplicit false

/-! # The steps of `foothread_create`

The first call makes the mutex and, in its critical section, the entry of main. Every call then finds
an entry that is not in use, or ends the process as the table is full, and fills it in: the thread it
has made comes to the roster when `valid` is set and gets its semaphore in the same section.
-/

namespace OSLab.Foothread

variable {arg : Nat → Nat} {s s' : Crew} {t u c i : Nat} {x : Task} {mem : Mem}
  {released : Nat → Bool} {v v' : Roll} {e : ThreadEntry}

theorem Kept.setFree {m : Nat} (h : Kept m v) (hi : (v.table i).valid = false)
    (he : e.valid = false) : Kept m { v with table := Function.update v.table i e } where
  roster := h.roster.setFree hi he
  next := h.next
  semaphore := by
    intro k c hk
    by_cases hki : k = i
    · subst hki
      have hvalid := hk.1
      simp only [Function.update_self, he] at hvalid
      cases hvalid
    · simp only [Roll.Has, Function.update_of_ne hki] at hk ⊢
      exact h.semaphore k c hk

theorem Building.setFree {j : Int} (h : Building v t j c i) (he : e.valid = false) :
    Building { v with table := Function.update v.table i e } t j c i where
  kept := h.kept.setFree h.free he
  index := h.index
  free := by simpa using he
  newest := h.newest
  pos := h.pos
  creator := h.creator
  joinType := h.joinType
  unreleased := h.unreleased

/-! ## The first call -/

/-- The table is made by main, alone. -/
theorem WellRun.make (h : WellRun arg s) (ht : t ≤ s.created) {j : Int} {child : Nat}
    (hp : s.task t = .creating j child .getSem) (hinit : s.mem.init = false)
    (htable : mem.threadTable = fun i => if i < MAX_THREADS
      then { s.mem.threadTable i with valid := false } else s.mem.threadTable i)
    (hkey : mem.mutexSemaphore = SEM_KEY) (hmade : mem.init = true)
    (hval : mem.semval SEM_KEY = 1) (hnext : mem.nextSem = s.mem.nextSem)
    (hpop : mem.pop = (s.args (arg t)).pop) (hvop : mem.vop = (s.args (arg t)).vop) :
    WellRun arg (s.after arg t mem s.released (.creating j child .lock)) := by
  cases h.guard with
  | free init => rw [init] at hinit; cases hinit
  | held t' init => rw [init] at hinit; cases hinit
  | unmade init alone early kept =>
      obtain rfl : t = 0 := by omega
      -- all entries are free before it
      have hsame : mem.threadTable = s.mem.threadTable := by
        rw [htable]
        funext i
        have hfree : (s.mem.threadTable i).valid = false := kept.roster.zero_invalid i
        split_ifs
        · rw [← hfree]
        · rfl
      have hroll : (s.after arg 0 mem s.released (.creating j child .lock)).roll = s.roll := by
        show Roll.mk mem.threadTable mem.nextSem _ _ _ _ = _
        rw [hsame, hnext]
        rfl
      have hset : (s.task 0).popSet = true ∧ (s.task 0).vopSet = true := by
        rw [hp]
        exact ⟨rfl, rfl⟩
      refine h.advance ht hkey (.inr ⟨hpop, fun _ => hset.1⟩) (.inr ⟨hvop, fun _ => hset.2⟩) trivial
        (.free hmade hval (fun u => ?_) (.inr ⟨hroll ▸ kept, alone, ?_⟩)) trivial
        (fun u _ => by rw [hsame]) (by rw [hp]; nofun) fun c hc => .inl hc
      · by_cases hu : u = 0
        · subst hu
          rw [Crew.after_task_self]
          rfl
        · rw [Crew.after_task_ne hu, h.unborn u (by omega)]
          rfl
      · rw [Crew.after_task_self]
        rfl

/-- Main enters itself. -/
theorem Roster.enterMain (h : Roster 0 v) (hroot : v.creator 0 = 0)
    (hjoin : v.joinType 0 = FOOTHREAD_JOINABLE) (hrel : v.released 0 = false) (sem n : Nat) :
    Roster 1 { v with
      table := Function.update v.table 0 ⟨gettid 0, gettid 0, FOOTHREAD_JOINABLE, true, sem⟩
      nextSem := n } := by
  refine h.setValid (h.zero_invalid 0) (by decide) (fun _ => rfl) ?_ ?_ ?_ hrel
    (fun k hk => Function.update_of_ne hk _ _) ⟨rfl, rfl, rfl⟩
  · simp [Roll.Has]
  · simp [hroot]
  · simp [hjoin]

theorem Kept.enterMain (h : Kept 0 v) (hroot : v.creator 0 = 0)
    (hjoin : v.joinType 0 = FOOTHREAD_JOINABLE) (hrel : v.released 0 = false) :
    Kept 1 { v with
      table := Function.update v.table 0 ⟨gettid 0, gettid 0, FOOTHREAD_JOINABLE, true, v.nextSem⟩
      nextSem := v.nextSem + 1 } where
  roster := h.roster.enterMain hroot hjoin hrel _ _
  next := by rw [h.next]
  semaphore := by
    intro k c hk
    have hroster := h.roster.enterMain hroot hjoin hrel v.nextSem (v.nextSem + 1)
    obtain rfl : c = 0 := by
      have := (hroster.entryOf hk).2.1
      omega
    obtain rfl : k = 0 := hroster.unique k 0 0 hk (hroster.main (by decide))
    simp [h.next]

/-! ## The new thread -/

/-- The record of a new thread does not concern the others. -/
theorem Kept.spawn (h : Kept (v.created + 1) v) (j : Int) (n : Nat) :
    Kept (v.created + 1) { v with
      created := n
      creator := Function.update v.creator (v.created + 1) t
      joinType := Function.update v.joinType (v.created + 1) j } where
  roster := by
    refine h.roster.of_agree (fun _ => rfl) (fun _ _ => ⟨rfl, rfl, rfl⟩) fun c hc => ?_
    have hne : c ≠ v.created + 1 := by omega
    exact ⟨Function.update_of_ne hne _ _, Function.update_of_ne hne _ _, rfl⟩
  next := h.next
  semaphore := h.semaphore

theorem WellRun.spawn (h : WellRun arg s) {j : Int} {child : Nat}
    (hp : s.task t = .creating j child (.clone i)) :
    WellRun arg (s.cloned arg t j (.creating j (s.created + 1) (.setTid i))) := by
  have hin : (Task.creating j child (.clone i)).inside = true := rfl
  obtain ⟨init, value, outside, -⟩ := h.knows (hp ▸ hin)
  obtain ⟨hkept, hi, hfree⟩ := h.knowsAt hp hin
  obtain ⟨hpop, hvop⟩ := Task.sets_of_inside hin
  have hnew : s.released (s.created + 1) = false := by
    by_contra hr
    have := (h.released _ (Bool.not_eq_false _ ▸ hr)).2.1
    omega
  constructor
  case key => exact h.key
  case unborn =>
    intro u hu
    have hu : s.created + 1 < u := hu
    have hut : u ≠ t := by
      rintro rfl
      rw [h.unborn u (by omega)] at hp
      cases hp
    rw [Crew.cloned_task_ne hut]
    exact h.unborn u (by omega)
  case older =>
    intro c hc hle
    have hle : c ≤ s.created + 1 := hle
    by_cases hcn : c = s.created + 1
    · rw [hcn, Crew.cloned_creator_new]
      by_contra hlt
      rw [h.unborn t (by omega)] at hp
      cases hp
    · rw [Crew.cloned_creator hcn]
      exact h.older c hc (by omega)
  case root =>
    have hne : 0 ≠ s.created + 1 := by omega
    rw [Crew.cloned_creator hne, Crew.cloned_joinType hne]
    exact h.root
  case pop =>
    rw [Crew.cloned_args]
    exact Crew.cloned_task_forall (q := fun u y => y.popSet = true → (s.args (arg u)).pop ≤ -1)
      (fun _ => h.pop t (hp ▸ hpop)) fun u _ => h.pop u
  case vop =>
    rw [Crew.cloned_args]
    exact Crew.cloned_task_forall (q := fun u y => y.vopSet = true → (s.args (arg u)).vop = 1)
      (fun _ => h.vop t (hp ▸ hvop)) fun u _ => h.vop u
  case op => exact Crew.cloned_task_forall (q := fun _ y => y.OpOk) trivial fun u _ => h.op u
  case guard =>
    refine .held t init value ?_ (fun u hu => ?_) ?_
    · rw [Crew.cloned_task_self]
      rfl
    · rw [Crew.cloned_task_ne hu]
      exact outside u hu
    · -- the free entry is the new thread's from now on
      have hcreator : Function.update s.creator (s.created + 1) t (s.created + 1) = t :=
        Function.update_self ..
      have hjoin : Function.update s.joinType (s.created + 1) j (s.created + 1) = j :=
        Function.update_self ..
      rw [Crew.cloned_task_self]
      exact ⟨hkept.spawn j (s.created + 1), hi, hfree, rfl, Nat.succ_pos _, hcreator, hjoin, hnew⟩
  case remembers =>
    refine Crew.cloned_task_forall (q := fun u y => y.Remembers (s.cloned arg t j
      (.creating j (s.created + 1) (.setTid i))).roll u) trivial fun u _ => ?_
    by_cases hun : u = s.created + 1
    · rw [h.unborn u (by omega)]
      trivial
    · exact (h.remembers u).of_same rfl (Function.update_of_ne hun _ _) (Function.update_of_ne hun _ _)
  case released =>
    intro c hc
    obtain ⟨hpos, hle, hjoin, hr⟩ := h.released c hc
    have hne : c ≠ s.created + 1 := by omega
    have hct : s.creator c ≠ t := by
      intro he
      rw [he, hp] at hr
      cases hr
    rw [Crew.cloned_creator hne, Crew.cloned_joinType hne, Crew.cloned_task_ne hct]
    exact ⟨hpos, Nat.le_succ_of_le hle, hjoin, hr⟩

/-- The entry of the new thread comes into use. -/
theorem Roster.fill {j : Int} (h : Building v t j c i) (htid : (v.table i).tid = gettid c)
    (hpar : (v.table i).parentTid = gettid t) (hjoin : (v.table i).joinType = j) :
    Roster (v.created + 1) { v with
      table := Function.update v.table i { v.table i with valid := true } } := by
  obtain ⟨hkept, ⟨hpos, hlt⟩, hfree, rfl, hc, hcreator, hj, hrel⟩ := h
  refine hkept.roster.setValid hfree hlt (fun hz => absurd hz (Nat.pos_iff_ne_zero.mp hc)) ?_ ?_ ?_
    hrel (fun k hk => Function.update_of_ne hk _ _) ⟨rfl, rfl, rfl⟩
  · simp [Roll.Has, htid]
  · simp [hpar, hcreator]
  · simp [hjoin, hj]

/-- And gets its semaphore. -/
theorem Kept.fill (h : Roster (v.created + 1) v) (hnext : v.nextSem = 3 + v.created)
    (hhas : v.Has i v.created)
    (hsem : ∀ k c, k ≠ i → v.Has k c → (v.table k).semaphore = 3 + c) :
    Kept (v.created + 1) { v with
      table := Function.update v.table i { v.table i with semaphore := v.nextSem }
      nextSem := v.nextSem + 1 } where
  roster := h.setSemaphore _ _
  next := by
    show v.nextSem + 1 = _
    omega
  semaphore := by
    intro k c hk
    by_cases hki : k = i
    · subst hki
      simp only [Roll.Has, Function.update_self] at hk ⊢
      have hc : c = v.created := gettid_injective (hk.2.symm.trans hhas.2)
      rw [hc, hnext]
    · simp only [Roll.Has, Function.update_of_ne hki] at hk ⊢
      exact hsem k c hki hk

/-! ## The steps -/

/-- The entry of the new thread is written to, before it is in use. -/
theorem WellRun.write (h : WellRun arg s) (ht : t ≤ s.created) {j : Int} {child : Nat}
    {pc pc' : CreatePc} (hy : s.task t = .creating j child pc)
    (hin : (Task.creating j child pc).inside = true)
    (hx : (Task.creating j child pc').inside = true) (hop : (Task.creating j child pc').OpOk)
    (hfree : (s.mem.threadTable i).valid = false) (he : e.valid = false)
    (hknows : pc'.Inside { s.roll with table := Function.update s.mem.threadTable i e } t j child) :
    WellRun arg (s.after arg t ((s.load arg t).setEntry i e) s.released
      (.creating j child pc')) := by
  refine h.work ht hy hin hx rfl rfl rfl ⟨rfl, rfl⟩ hop hknows trivial (fun u _ => ?_) nofun
  exact children_update ((childOf_of_invalid he).trans (childOf_of_invalid hfree).symm)

/-- Main is in the table, so the roster is whole. -/
theorem kept_of_main (h : Kept (v.created + 1) v ∨ Kept 0 v ∧ v.created = 0)
    (hmain : (v.table 0).valid = true) : Kept (v.created + 1) v := by
  rcases h with hk | ⟨hk, -⟩
  · exact hk
  · rw [hk.roster.zero_invalid 0] at hmain
    cases hmain

/-- The semaphore of the table is made by the first call, and looked up by the others. -/
theorem WellRun.getSem {j : Int} {child : Nat} {r : Ctl CreatePc} (h : WellRun arg s)
    (ht : t ≤ s.created) (hp : s.task t = .creating j child .getSem)
    (hm : foothreadCreateAs j t child (s.load arg t) .getSem = some (mem, r)) :
    WellRun arg (s.resumeCreate arg t j child (mem, r)) := by
  simp only [foothreadCreateAs, foothreadCreate] at hm
  split_ifs at hm with hinit
  · cases hm
    exact h.pass (x := .creating j child .lock) ht hp ⟨rfl, rfl, rfl, h.key.symm⟩ rfl rfl rfl
      (fun hi => by rw [show s.mem.init = true from hinit] at hi; cases hi) (absurd · Bool.false_ne_true)
      (.inr ⟨rfl, fun _ => rfl⟩) (.inr ⟨rfl, fun _ => rfl⟩) trivial trivial (absurd · Bool.false_ne_true)
  · cases hm
    exact h.make ht hp (Bool.eq_false_iff.mpr hinit) rfl rfl rfl (by simp [Mem.setSem]) rfl rfl
      rfl

/-- The search goes on, or ends at a free entry or at the end of the table. -/
theorem WellRun.search {j : Int} {child : Nat} {r : Ctl CreatePc} (h : WellRun arg s)
    (ht : t ≤ s.created) (hp : s.task t = .creating j child (.search i))
    (hm : foothreadCreateAs j t child (s.load arg t) (.search i) = some (mem, r)) :
    WellRun arg (s.resumeCreate arg t j child (mem, r)) := by
  obtain ⟨hwhole, hle, hbelow⟩ := h.knowsAt hp rfl
  simp only [foothreadCreateAs, foothreadCreate] at hm
  split_ifs at hm with hlt hvalid hi
  · cases hm
    refine h.look (x := .creating j child (.search (i + 1))) ht hp rfl rfl trivial
      ⟨hwhole, hlt, fun k hk => ?_⟩ trivial (absurd · Bool.false_ne_true)
    rcases Nat.lt_succ_iff_lt_or_eq.mp hk with hk | rfl
    · exact hbelow k hk
    · exact hvalid
  · cases hm
    subst hi
    refine h.look (x := .creating j child .ownEntry) ht hp rfl rfl trivial ?_ trivial (absurd · Bool.false_ne_true)
    -- main's entry is in use from the first call on
    rcases hwhole with hk | hk
    · exact absurd (hk.roster.main (Nat.succ_pos _)).1 hvalid
    · exact hk
  · cases hm
    have hkept := kept_of_main hwhole (hbelow 0 (Nat.pos_of_ne_zero hi))
    exact h.look (x := .creating j child (.clone i)) ht hp rfl rfl trivial
      ⟨hkept, ⟨Nat.pos_of_ne_zero hi, hlt⟩, Bool.eq_false_iff.mpr hvalid⟩ trivial (absurd · Bool.false_ne_true)
  · cases hm
    obtain rfl : i = MAX_THREADS := le_antisymm hle (Nat.not_lt.mp hlt)
    have hkept := kept_of_main hwhole (hbelow 0 (by decide))
    exact h.look (x := .creating j child .full) ht hp rfl rfl trivial ⟨hkept, hbelow⟩ trivial (absurd · Bool.false_ne_true)

/-- Main enters itself before the first thread it makes. -/
theorem WellRun.ownEntry {j : Int} {child : Nat} {r : Ctl CreatePc} (h : WellRun arg s)
    (ht : t ≤ s.created) (hp : s.task t = .creating j child .ownEntry)
    (hm : foothreadCreateAs j t child (s.load arg t) .ownEntry = some (mem, r)) :
    WellRun arg (s.resumeCreate arg t j child (mem, r)) := by
  obtain ⟨hk, hz⟩ := h.knowsAt hp rfl
  have hz : s.created = 0 := hz
  obtain rfl : t = 0 := by omega
  have hrel : s.released 0 = false := by
    by_contra hr
    exact absurd (h.released 0 (Bool.not_eq_false _ ▸ hr)).1 (Nat.lt_irrefl 0)
  cases hm
  refine h.work (x := .creating j child (.clone 1)) ht hp rfl rfl rfl rfl ?_ ⟨rfl, rfl⟩ trivial
    ⟨?_, by decide, ?_⟩ trivial (fun u hu => ?_) nofun
  · have hnext : s.mem.nextSem = 3 + 0 := hk.next
    have hne : SEM_KEY ≠ s.mem.nextSem := by
      rw [hnext]
      decide
    exact Function.update_of_ne hne _ _
  · have := hk.enterMain h.root.1 h.root.2 hrel
    show Kept (s.created + 1) _
    rw [hz]
    exact this
  · have hother : (Function.update s.mem.threadTable 0
        ⟨gettid 0, gettid 0, FOOTHREAD_JOINABLE, true, s.mem.nextSem⟩) 1 = s.mem.threadTable 1 :=
      Function.update_of_ne Nat.one_ne_zero _ _
    exact (congrArg ThreadEntry.valid hother).trans (hk.roster.zero_invalid 1)
  · exact children_update ((childOf_of_parent rfl (Ne.symm hu)).trans
      (childOf_of_invalid (hk.roster.zero_invalid 0)).symm)

/-- At `valid`: the new thread is in the roster, but for its semaphore. -/
theorem WellRun.setValid {j : Int} {child : Nat} {r : Ctl CreatePc} (h : WellRun arg s)
    (ht : t ≤ s.created) (hp : s.task t = .creating j child (.setValid i))
    (hm : foothreadCreateAs j t child (s.load arg t) (.setValid i) = some (mem, r)) :
    WellRun arg (s.resumeCreate arg t j child (mem, r)) := by
  have hself : ∀ k e, Function.update s.mem.threadTable k e k = e :=
    fun _ _ => Function.update_self ..
  obtain ⟨hb, htid, hpar, hjoin⟩ := h.knowsAt hp rfl
  cases hm
  have hnewest : child = s.created := hb.newest
  have hpar : (s.mem.threadTable i).parentTid = gettid t := hpar
  have hfree : (s.mem.threadTable i).valid = false := hb.free
  refine h.work (x := .creating j child (.setSem i)) ht hp rfl rfl rfl rfl rfl ⟨rfl, rfl⟩ trivial
    ⟨Roster.fill hb htid hpar hjoin, hb.kept.next, ?_, fun k c hk hc => ?_⟩ trivial
    (fun u hu => ?_) nofun
  · exact ⟨congrArg ThreadEntry.valid (hself i _),
      (congrArg ThreadEntry.tid (hself i _)).trans (htid.trans (congrArg gettid hnewest))⟩
  · have hother : Function.update s.mem.threadTable i
        { s.mem.threadTable i with valid := true } k = s.mem.threadTable k :=
      Function.update_of_ne hk _ _
    have hhas : s.roll.Has k c := ⟨(congrArg ThreadEntry.valid hother).symm.trans hc.1,
      (congrArg ThreadEntry.tid hother).symm.trans hc.2⟩
    exact (congrArg ThreadEntry.semaphore hother).trans (hb.kept.semaphore k c hhas)
  · exact children_update (Eq.trans (childOf_of_parent hpar (Ne.symm hu))
      (childOf_of_invalid hfree).symm)

/-- At `semaphore`: the numbers of threads and semaphores agree again. -/
theorem WellRun.setSem {j : Int} {child : Nat} {r : Ctl CreatePc} (h : WellRun arg s)
    (ht : t ≤ s.created) (hp : s.task t = .creating j child (.setSem i))
    (hm : foothreadCreateAs j t child (s.load arg t) (.setSem i) = some (mem, r)) :
    WellRun arg (s.resumeCreate arg t j child (mem, r)) := by
  have hself : ∀ k e, Function.update s.mem.threadTable k e k = e :=
    fun _ _ => Function.update_self ..
  obtain ⟨hr, hnext, hhas, hsem⟩ := h.knowsAt hp rfl
  cases hm
  refine h.work (x := .creating j child (.setVal i)) ht hp rfl rfl rfl rfl rfl ⟨rfl, rfl⟩ trivial
    ⟨Kept.fill hr hnext hhas hsem, ?_⟩ trivial (fun u _ => children_update rfl) nofun
  exact ⟨(congrArg ThreadEntry.valid (hself i _)).trans hhas.1,
    (congrArg ThreadEntry.tid (hself i _)).trans hhas.2⟩

/-- The `semctl` of the new semaphore, which is not the one of the table. -/
theorem WellRun.setVal {j : Int} {child : Nat} {r : Ctl CreatePc} (h : WellRun arg s)
    (ht : t ≤ s.created) (hp : s.task t = .creating j child (.setVal i))
    (hm : foothreadCreateAs j t child (s.load arg t) (.setVal i) = some (mem, r)) :
    WellRun arg (s.resumeCreate arg t j child (mem, r)) := by
  obtain ⟨hk, hhas⟩ := h.knowsAt hp rfl
  cases hm
  have hsem : ((s.load arg t).threadTable i).semaphore = 3 + s.created := hk.semaphore i _ hhas
  refine h.work (x := .creating j child .unlock) ht hp rfl rfl rfl rfl ?_ ⟨rfl, rfl⟩ trivial hk
    trivial (fun _ _ => rfl) nofun
  rw [hsem]
  exact Function.update_of_ne (by rw [SEM_KEY]; omega) _ _

theorem wellRun_create {j : Int} {child : Nat} {pc : CreatePc} {r : Ctl CreatePc}
    (h : WellRun arg s) (ht : t ≤ s.created) (hp : s.task t = .creating j child pc)
    (hm : foothreadCreateAs j t child (s.load arg t) pc = some (mem, r)) :
    WellRun arg (s.resumeCreate arg t j child (mem, r)) := by
  have hop := h.opAt hp
  have hself : ∀ k e, Function.update s.mem.threadTable k e k = e :=
    fun _ _ => Function.update_self ..
  cases pc with
  | setPop =>
      cases hm
      exact h.pass (x := .creating j child .setVop) ht hp ⟨rfl, rfl, rfl, rfl⟩ rfl rfl rfl
        (fun _ _ => rfl) nofun (.inl le_rfl) (.inr ⟨rfl, nofun⟩) trivial trivial nofun
  | setVop =>
      cases hm
      exact h.pass (x := .creating j child .getSem) ht hp ⟨rfl, rfl, rfl, rfl⟩ rfl rfl rfl
        (fun _ _ => rfl) nofun (.inr ⟨rfl, fun _ => rfl⟩) (.inl rfl) trivial trivial nofun
  | getSem => exact h.getSem ht hp hm
  | lock =>
      cases hm
      exact h.pass (x := .creating j child (.lockOp (s.load arg t).pop)) ht hp
        ⟨rfl, rfl, rfl, rfl⟩ rfl rfl rfl nofun (fun _ => rfl) (.inr ⟨rfl, fun _ => rfl⟩)
        (.inr ⟨rfl, fun _ => rfl⟩) (h.pop t (by rw [hp]; rfl)) trivial nofun
  | lockOp op =>
      obtain ⟨w, hw, rfl, rfl⟩ := perform_eq_some hm
      have hkey : (s.load arg t).mutexSemaphore = SEM_KEY := h.key
      rw [hkey] at hw ⊢
      refine h.enter (x := .creating j child (.search 0)) ht hp hop hw rfl rfl rfl ⟨rfl, rfl⟩ trivial
        (fun hwhole => ⟨?_, Nat.zero_le _, fun k hk => absurd hk (Nat.not_lt_zero k)⟩) trivial nofun
      exact hwhole.imp_right fun ⟨hk, hz, _⟩ => ⟨hk, hz⟩
  | search i => exact h.search ht hp hm
  | ownEntry => exact h.ownEntry ht hp hm
  | clone i =>
      cases hm
      exact h.spawn hp
  | setTid i =>
      have hb := h.knowsAt hp rfl
      cases hm
      have hfree : (s.mem.threadTable i).valid = false := hb.free
      exact h.write ht hp rfl rfl trivial hfree hfree ⟨hb.setFree hfree, by simp⟩
  | setParent i =>
      obtain ⟨hb, htid⟩ := h.knowsAt hp rfl
      cases hm
      have hfree : (s.mem.threadTable i).valid = false := hb.free
      exact h.write ht hp rfl rfl trivial hfree hfree
        ⟨hb.setFree hfree, (congrArg ThreadEntry.tid (hself i _)).trans htid, by simp⟩
  | setJoin i =>
      obtain ⟨hb, htid, hpar⟩ := h.knowsAt hp rfl
      cases hm
      have hfree : (s.mem.threadTable i).valid = false := hb.free
      exact h.write ht hp rfl rfl trivial hfree hfree
        ⟨hb.setFree hfree, (congrArg ThreadEntry.tid (hself i _)).trans htid,
          (congrArg ThreadEntry.parentTid (hself i _)).trans hpar, by simp⟩
  | setValid i => exact h.setValid ht hp hm
  | setSem i => exact h.setSem ht hp hm
  | setVal i => exact h.setVal ht hp hm
  | unlock =>
      have hk := h.knowsAt hp rfl
      cases hm
      exact h.look (x := .creating j child (.unlockOp (s.load arg t).vop)) ht hp rfl rfl
        (h.vop t (by rw [hp]; rfl)) hk trivial nofun
  | unlockOp op =>
      have hk := h.knowsAt hp rfl
      obtain ⟨w, hw, rfl, rfl⟩ := perform_eq_some hm
      obtain rfl : op = 1 := hop
      have hkey : (s.load arg t).mutexSemaphore = SEM_KEY := h.key
      rw [hkey] at hw ⊢
      exact h.leave (x := .idle) ht hp rfl rfl hw hk trivial trivial nofun
  | full =>
      cases hm
      exact h.alike alike_exit

/-- Where a step of `foothread_create` leads: on, to the error from the end of the table only; back to
the caller; or, with the memory as it was, to the new thread or to the end of the process. -/
theorem create_cases {j : Int} {m m' : Mem} {pc : CreatePc} {r : Ctl CreatePc}
    (hm : foothreadCreateAs j t c m pc = some (m', r)) :
    (∃ pc', r = .next pc' ∧ (pc' = .full → ∃ i, pc = .search i ∧ ¬ i < MAX_THREADS)) ∨ r = .ret
      ∨ (∃ i, pc = .clone i ∧ r = .clone (.setTid i) ∧ m' = m)
      ∨ pc = .full ∧ r = .exit ∧ m' = m := by
  cases pc with
  | getSem =>
      simp only [foothreadCreateAs, foothreadCreate] at hm
      split_ifs at hm <;> cases hm <;> exact .inl ⟨_, rfl, fun hc => by cases hc⟩
  | lockOp op =>
      obtain ⟨w, -, -, rfl⟩ := perform_eq_some hm
      exact .inl ⟨_, rfl, fun hc => by cases hc⟩
  | unlockOp op =>
      obtain ⟨w, -, -, rfl⟩ := perform_eq_some hm
      exact .inr (.inl rfl)
  | search i =>
      simp only [foothreadCreateAs, foothreadCreate] at hm
      split_ifs at hm with hlt
      · cases hm
        exact .inl ⟨_, rfl, fun hc => by cases hc⟩
      · cases hm
        exact .inl ⟨_, rfl, fun hc => by cases hc⟩
      · cases hm
        exact .inl ⟨_, rfl, fun hc => by cases hc⟩
      · cases hm
        exact .inl ⟨_, rfl, fun _ => ⟨i, rfl, hlt⟩⟩
  | clone i =>
      cases hm
      exact .inr (.inr (.inl ⟨i, rfl, rfl, rfl⟩))
  | full =>
      cases hm
      exact .inr (.inr (.inr ⟨rfl, rfl, rfl⟩))
  | _ =>
      cases hm
      exact .inl ⟨_, rfl, fun hc => by cases hc⟩

end OSLab.Foothread
