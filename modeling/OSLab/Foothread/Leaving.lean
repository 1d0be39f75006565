import OSLab.Foothread.Creation

set_option autoImplicit false

/-! # The steps of `foothread_exit`

In its first critical section a thread looks for its own entry, adds one to the semaphore of its
creator if it is joinable, and notes its children in the order of the table. In its second one it
takes the noted entries out of the roster. No other thread writes to them in between.
-/

namespace OSLab.Foothread

variable {arg : Nat → Nat} {s s' : Crew} {t u c i : Nat} {x : Task} {mem : Mem} {v v' : Roll}
  {e : ThreadEntry} {l : ExitLocals} {pc pc' : ExitPc} {r : Ctl ExitPc}

/-! ## Looking at the table -/

theorem WellRun.lookExit (h : WellRun arg s) (ht : t ≤ s.created) (hp : s.task t = .exiting pc)
    (hin : (Task.exiting pc).inside = true) (hx : (Task.exiting pc').inside = true)
    (hop : (Task.exiting pc').OpOk) (hknows : pc'.Inside s.roll t)
    (hremembers : pc'.Remembers s.roll t)
    (hkeep : (Task.exiting pc).releases = true → (Task.exiting pc').releases = true) :
    WellRun arg (s.after arg t (s.load arg t) s.released (.exiting pc')) :=
  h.look (x := .exiting pc') ht hp hin hx hop hknows hremembers hkeep

theorem not_has_succ (h : ∀ k < i, ¬ v.Has k t) (hi : ¬ v.Has i t) : ∀ k < i + 1, ¬ v.Has k t := by
  intro k hk
  rcases Nat.lt_succ_iff_lt_or_eq.mp hk with hk | rfl
  · exact h k hk
  · exact hi

/-- The search for the own entry begins and goes on. -/
theorem WellRun.find (h : WellRun arg s) (ht : t ≤ s.created) (hp : s.task t = .exiting pc)
    (hin : (Task.exiting pc).inside = true) (hrel : (Task.exiting pc).releases = false)
    (hkept : Kept (s.created + 1) s.roll) (hbelow : ∀ k < i, ¬ s.roll.Has k t) :
    WellRun arg (s.after arg t (s.load arg t) s.released (.exiting (.findValid i))) :=
  h.lookExit ht hp hin rfl trivial ⟨hkept, hbelow⟩ trivial (by rw [hrel]; nofun)

/-- The children are noted from entry `i` on. -/
theorem WellRun.scan (h : WellRun arg s) (ht : t ≤ s.created) (hp : s.task t = .exiting pc)
    (hin : (Task.exiting pc).inside = true) (hrel : (Task.exiting pc).releases = false)
    (hkept : Kept (s.created + 1) s.roll) (hi : i ≤ MAX_THREADS)
    (hchild : l.mychild = childrenBelow s.mem.threadTable t i)
    (hfound : Found s.roll t l ∨ Unfound l) :
    WellRun arg (s.after arg t (s.load arg t) s.released (.exiting (.childValid l i))) :=
  h.lookExit ht hp hin rfl trivial ⟨hkept, hi, hchild⟩ hfound (by rw [hrel]; nofun)

/-- The entry is not one of a child. -/
theorem WellRun.skip (h : WellRun arg s) (ht : t ≤ s.created) (hp : s.task t = .exiting pc)
    (hin : (Task.exiting pc).inside = true) (hrel : (Task.exiting pc).releases = false)
    (hkept : Kept (s.created + 1) s.roll) (hi : i < MAX_THREADS)
    (hchild : l.mychild = childrenBelow s.mem.threadTable t i)
    (hfound : Found s.roll t l ∨ Unfound l) (hnot : ¬ (s.mem.threadTable i).childOf t = true) :
    WellRun arg (s.after arg t (s.load arg t) s.released (.exiting (.childValid l (i + 1)))) := by
  refine h.scan ht hp hin hrel hkept hi ?_ hfound
  rw [childrenBelow_succ_of_not (Bool.eq_false_iff.mpr hnot)]
  exact hchild

/-- Past the search for the own entry. -/
theorem WellRun.afterFind (h : WellRun arg s) (ht : t ≤ s.created) (hp : s.task t = .exiting pc)
    (hin : (Task.exiting pc).inside = true) (hrel : (Task.exiting pc).releases = false)
    (hkept : Kept (s.created + 1) s.roll) (hnone : l.mychild = [])
    (hfound : Found s.roll t l ∨ Unfound l) :
    WellRun arg (s.after arg t (s.load arg t) s.released (.exiting (afterFind t l))) := by
  unfold OSLab.Foothread.afterFind
  split_ifs with hparent
  · obtain ⟨hjoin, hne⟩ := hparent
    rcases hfound with hf | hf
    · have hasks : Asks s.roll t l := by
        refine ⟨hf, hnone, of_decide_eq_true (hf.isJoinable.symm.trans hjoin), fun hself => ?_⟩
        rw [hf.parentTid, hself] at hne
        exact hne rfl
      exact h.lookExit ht hp hin rfl trivial ⟨hkept, hasks⟩ trivial (by rw [hrel]; nofun)
    · rw [hf.isJoinable] at hjoin
      cases hjoin
  · exact h.scan ht hp hin hrel hkept (Nat.zero_le _) (by rw [hnone]; rfl) hfound

/-- The search for the creator's entry begins and goes on. -/
theorem WellRun.ask (h : WellRun arg s) (ht : t ≤ s.created) (hp : s.task t = .exiting pc)
    (hin : (Task.exiting pc).inside = true) (hrel : (Task.exiting pc).releases = false)
    (hkept : Kept (s.created + 1) s.roll) (hasks : Asks s.roll t l) :
    WellRun arg (s.after arg t (s.load arg t) s.released (.exiting (.parentValid l i))) :=
  h.lookExit ht hp hin rfl trivial ⟨hkept, hasks⟩ trivial (by rw [hrel]; nofun)

/-! ## Releasing an entry -/

/-- The noted entry of a child. -/
theorem Kept.child {m : Nat} (h : Kept m v) (hroot : v.creator 0 = 0)
    (hi : i ∈ children v.table t) : ∃ c, v.Has i c ∧ 0 < c ∧ c < m ∧ v.creator c = t
      ∧ v.joinType c = FOOTHREAD_JOINABLE := by
  obtain ⟨hvalid, hpar, hjoin, htid⟩ := childOf_iff.mp (mem_children.mp hi).2
  obtain ⟨c, -, hhas⟩ := h.roster.has hvalid
  obtain ⟨-, hc, -, hparent, hj⟩ := h.roster.entryOf hhas
  have hcreator : v.creator c = t := gettid_injective (hparent.symm.trans hpar)
  refine ⟨c, hhas, Nat.pos_of_ne_zero ?_, hc, hcreator, hj.symm.trans hjoin⟩
  rintro rfl
  rw [hroot] at hcreator
  exact htid (hcreator ▸ hhas.2)

theorem Kept.release {m : Nat} (h : Kept m v) (hi : v.Has i c) (hc : 0 < c) :
    Kept m { v with
      table := Function.update v.table i { v.table i with valid := false }
      released := fun d => v.released d || (v.table i).tid == gettid d } where
  roster := h.roster.release hi hc (by simp) (fun k hk => Function.update_of_ne hk _ _)
    (fun _ => rfl) ⟨rfl, rfl⟩
  next := h.next
  semaphore := by
    intro k d hk
    by_cases hki : k = i
    · subst hki
      have hvalid := hk.1
      simp at hvalid
    · simp only [Roll.Has, Function.update_of_ne hki] at hk ⊢
      exact h.semaphore k d hk

theorem WellRun.forget {rest : List Nat} (h : WellRun arg s) (ht : t ≤ s.created)
    (hp : s.task t = .exiting (.forget (i :: rest))) :
    WellRun arg (s.after arg t
      ((s.load arg t).setEntry i { s.mem.threadTable i with valid := false })
      (fun d => s.released d || (s.mem.threadTable i).tid == gettid d) (.exiting (.forget rest))) := by
  have hkept : Kept (s.created + 1) s.roll := h.knowsAt hp rfl
  have hrem := h.remembersAt hp
  obtain ⟨hmem, hnodup⟩ := hrem
  obtain ⟨hnot, hrest⟩ := List.nodup_cons.mp hnodup
  obtain ⟨c, hhas, hpos, hc, hcreator, hjoin⟩ :=
    hkept.child h.root.1 (hmem i (List.mem_cons_self ..))
  have hkept' := hkept.release hhas hpos
  have hset : (s.task t).popSet = true ∧ (s.task t).vopSet = true := by
    rw [hp]
    exact ⟨rfl, rfl⟩
  have hothers : ∀ k, k ≠ i → Function.update s.mem.threadTable i
      { s.mem.threadTable i with valid := false } k = s.mem.threadTable k :=
    fun k hk => Function.update_of_ne hk _ _
  refine h.advance ht h.key (.inr ⟨rfl, fun _ => hset.1⟩) (.inr ⟨rfl, fun _ => hset.2⟩) trivial
    (Guard.within h (by rw [hp]; rfl) rfl rfl rfl hkept') ⟨fun k hk => ?_, hrest⟩ (fun u hu => ?_)
    (fun _ => rfl) fun d hd => ?_
  · -- what is left of the list still names children
    have hne : k ≠ i := fun he => hnot (he ▸ hk)
    have hchild := mem_children.mp (hmem k (List.mem_cons_of_mem _ hk))
    exact mem_children.mpr ⟨hchild.1, (congrArg (fun e => e.childOf t) (hothers k hne)).trans hchild.2⟩
  · have hpar : (s.mem.threadTable i).parentTid = gettid t :=
      (childOf_iff.mp (mem_children.mp (hmem i (List.mem_cons_self ..))).2).2.1
    exact children_update (Eq.trans (childOf_of_invalid rfl)
      (childOf_of_parent hpar (Ne.symm hu)).symm)
  · rcases Bool.or_eq_true_iff.mp hd with hd | hd
    · exact .inl hd
    · have hdc : gettid d = gettid c := (beq_iff_eq.mp hd).symm.trans hhas.2
      obtain rfl : d = c := gettid_injective hdc
      exact .inr ⟨hpos, Nat.lt_succ_iff.mp hc, hjoin, hcreator, rfl⟩

/-- A thread in `foothread_exit` finds the roster whole: main is not in its first call. -/
theorem kept_of_whole (ht : t ≤ s.created) (hp : s.task t = .exiting pc)
    (hwhole : Whole s) : Kept (s.created + 1) s.roll := by
  rcases hwhole with hk | ⟨-, hz, ho⟩
  · exact hk
  · obtain rfl : t = 0 := by omega
    rw [hp] at ho
    cases ho


/-! ## The steps -/

/-- The search for the own entry, at `valid`. -/
theorem WellRun.findValid (h : WellRun arg s) (ht : t ≤ s.created)
    (hp : s.task t = .exiting (.findValid i))
    (hm : foothreadExit t (s.load arg t) (.findValid i) = some (mem, r)) :
    WellRun arg (s.resumeExit arg t (.findValid i) (mem, r)) := by
  obtain ⟨hkept, hbelow⟩ := h.knowsAt hp rfl
  simp only [foothreadExit] at hm
  split_ifs at hm with hlt hvalid
  · cases hm
    exact h.lookExit ht hp rfl rfl trivial ⟨hkept, hbelow, hvalid⟩ trivial (absurd · Bool.false_ne_true)
  · cases hm
    exact h.find ht hp rfl rfl hkept (not_has_succ hbelow fun hhas => hvalid hhas.1)
  · cases hm
    exact h.afterFind ht hp rfl rfl hkept rfl (.inr ⟨rfl, rfl, rfl⟩)

/-- At `tid`: the entry is the thread's own, or the search goes on. -/
theorem WellRun.findTid (h : WellRun arg s) (ht : t ≤ s.created)
    (hp : s.task t = .exiting (.findTid i))
    (hm : foothreadExit t (s.load arg t) (.findTid i) = some (mem, r)) :
    WellRun arg (s.resumeExit arg t (.findTid i) (mem, r)) := by
  obtain ⟨hkept, hbelow, hvalid⟩ := h.knowsAt hp rfl
  simp only [foothreadExit] at hm
  split_ifs at hm with htid
  · cases hm
    exact h.lookExit ht hp rfl rfl trivial ⟨hkept, hvalid, htid⟩ trivial (absurd · Bool.false_ne_true)
  · cases hm
    exact h.find ht hp rfl rfl hkept (not_has_succ hbelow fun hhas => htid hhas.2)

/-- The own entry is read. -/
theorem WellRun.findParent {j : Bool} {sem : Nat} (h : WellRun arg s) (ht : t ≤ s.created)
    (hp : s.task t = .exiting (.findParent i j sem))
    (hm : foothreadExit t (s.load arg t) (.findParent i j sem) = some (mem, r)) :
    WellRun arg (s.resumeExit arg t (.findParent i j sem) (mem, r)) := by
  obtain ⟨hkept, hhas, hj, hsem⟩ := h.knowsAt hp rfl
  cases hm
  exact h.afterFind ht hp rfl rfl hkept rfl
    (.inl ⟨congrArg some hsem, rfl, hj, (hkept.roster.entryOf hhas).2.2.2.1⟩)

/-- The search for the creator's entry, at `valid`. -/
theorem WellRun.parentValid (h : WellRun arg s) (ht : t ≤ s.created)
    (hp : s.task t = .exiting (.parentValid l i))
    (hm : foothreadExit t (s.load arg t) (.parentValid l i) = some (mem, r)) :
    WellRun arg (s.resumeExit arg t (.parentValid l i) (mem, r)) := by
  obtain ⟨hkept, hasks⟩ := h.knowsAt hp rfl
  simp only [foothreadExit] at hm
  split_ifs at hm with hlt hvalid
  · cases hm
    exact h.lookExit ht hp rfl rfl trivial ⟨hkept, hasks, hvalid⟩ trivial (absurd · Bool.false_ne_true)
  · cases hm
    exact h.ask ht hp rfl rfl hkept hasks
  · cases hm
    exact h.scan ht hp rfl rfl hkept (Nat.zero_le _) (by rw [hasks.none]; rfl)
      (.inl hasks.found)

/-- At `tid`: the entry is the creator's, or the search goes on. -/
theorem WellRun.parentTid (h : WellRun arg s) (ht : t ≤ s.created)
    (hp : s.task t = .exiting (.parentTid l i))
    (hm : foothreadExit t (s.load arg t) (.parentTid l i) = some (mem, r)) :
    WellRun arg (s.resumeExit arg t (.parentTid l i) (mem, r)) := by
  obtain ⟨hkept, hasks, hvalid⟩ := h.knowsAt hp rfl
  simp only [foothreadExit] at hm
  split_ifs at hm with htid
  · cases hm
    exact h.lookExit ht hp rfl rfl trivial
      ⟨hkept, hasks, hvalid, htid.trans hasks.found.parentTid⟩ trivial (absurd · Bool.false_ne_true)
  · cases hm
    exact h.ask ht hp rfl rfl hkept hasks

/-- The `V` for the creator. -/
theorem WellRun.signalOp {sem : Nat} {op : Int} (h : WellRun arg s) (ht : t ≤ s.created)
    (hp : s.task t = .exiting (.signalOp l sem op))
    (hm : foothreadExit t (s.load arg t) (.signalOp l sem op) = some (mem, r)) :
    WellRun arg (s.resumeExit arg t (.signalOp l sem op) (mem, r)) := by
  obtain ⟨hkept, hasks, hsem⟩ := h.knowsAt hp rfl
  have hsem : sem = 3 + s.creator t := hsem
  obtain ⟨w, hw, rfl, rfl⟩ := perform_eq_some hm
  refine h.work (x := .exiting (.childValid l 0)) ht hp rfl rfl rfl rfl ?_ ⟨rfl, rfl⟩ trivial
    ⟨hkept, Nat.zero_le _, by rw [hasks.none]; rfl⟩ (.inl hasks.found) (fun _ _ => rfl) nofun
  have hne : SEM_KEY ≠ sem := by
    rw [hsem, SEM_KEY]
    omega
  exact Function.update_of_ne hne _ _

/-- The children are noted: at `valid`. -/
theorem WellRun.childValid (h : WellRun arg s) (ht : t ≤ s.created)
    (hp : s.task t = .exiting (.childValid l i))
    (hm : foothreadExit t (s.load arg t) (.childValid l i) = some (mem, r)) :
    WellRun arg (s.resumeExit arg t (.childValid l i) (mem, r)) := by
  have hrem := h.remembersAt hp
  obtain ⟨hkept, hle, hchild⟩ := h.knowsAt hp rfl
  simp only [foothreadExit] at hm
  split_ifs at hm with hlt hvalid
  · cases hm
    exact h.lookExit ht hp rfl rfl trivial ⟨hkept, hlt, hchild, hvalid⟩ hrem (absurd · Bool.false_ne_true)
  · cases hm
    exact h.skip ht hp rfl rfl hkept hlt hchild hrem fun hc => hvalid (childOf_iff.mp hc).1
  · cases hm
    obtain rfl : i = MAX_THREADS := le_antisymm hle (Nat.not_lt.mp hlt)
    exact h.lookExit ht hp rfl rfl trivial hkept ⟨hrem, hchild⟩ (absurd · Bool.false_ne_true)

/-- At `parent_tid`. -/
theorem WellRun.childParent (h : WellRun arg s) (ht : t ≤ s.created)
    (hp : s.task t = .exiting (.childParent l i))
    (hm : foothreadExit t (s.load arg t) (.childParent l i) = some (mem, r)) :
    WellRun arg (s.resumeExit arg t (.childParent l i) (mem, r)) := by
  have hrem := h.remembersAt hp
  obtain ⟨hkept, hlt, hchild, hvalid⟩ := h.knowsAt hp rfl
  simp only [foothreadExit] at hm
  split_ifs at hm with hpar
  · cases hm
    exact h.lookExit ht hp rfl rfl trivial ⟨hkept, hlt, hchild, hvalid, hpar⟩ hrem (absurd · Bool.false_ne_true)
  · cases hm
    exact h.skip ht hp rfl rfl hkept hlt hchild hrem fun hc => hpar (childOf_iff.mp hc).2.1

/-- At `join_type`. -/
theorem WellRun.childJoin (h : WellRun arg s) (ht : t ≤ s.created)
    (hp : s.task t = .exiting (.childJoin l i))
    (hm : foothreadExit t (s.load arg t) (.childJoin l i) = some (mem, r)) :
    WellRun arg (s.resumeExit arg t (.childJoin l i) (mem, r)) := by
  have hrem := h.remembersAt hp
  obtain ⟨hkept, hlt, hchild, hvalid, hpar⟩ := h.knowsAt hp rfl
  simp only [foothreadExit] at hm
  split_ifs at hm with hjoin
  · cases hm
    exact h.lookExit ht hp rfl rfl trivial ⟨hkept, hlt, hchild, hvalid, hpar, hjoin⟩ hrem (absurd · Bool.false_ne_true)
  · cases hm
    exact h.skip ht hp rfl rfl hkept hlt hchild hrem fun hc => hjoin (childOf_iff.mp hc).2.2.1

/-- At `tid`: main does not count as a child of its own. -/
theorem WellRun.childTid (h : WellRun arg s) (ht : t ≤ s.created)
    (hp : s.task t = .exiting (.childTid l i))
    (hm : foothreadExit t (s.load arg t) (.childTid l i) = some (mem, r)) :
    WellRun arg (s.resumeExit arg t (.childTid l i) (mem, r)) := by
  have hrem := h.remembersAt hp
  obtain ⟨hkept, hlt, hchild, hvalid, hpar, hjoin⟩ := h.knowsAt hp rfl
  simp only [foothreadExit] at hm
  split_ifs at hm with htid
  · cases hm
    refine h.scan ht hp rfl rfl hkept hlt ?_
      (hrem.imp (fun hf => ⟨hf.semaphore, hf.index, hf.isJoinable, hf.parentTid⟩)
        fun hu => ⟨hu.semaphore, hu.index, hu.isJoinable⟩)
    exact (congrArg (· ++ [i]) hchild).trans
      (childrenBelow_succ_of (childOf_iff.mpr ⟨hvalid, hpar, hjoin, htid⟩)).symm
  · cases hm
    exact h.skip ht hp rfl rfl hkept hlt hchild hrem fun hc => htid (childOf_iff.mp hc).2.2.2

/-- The first critical section ends. -/
theorem WellRun.unlockOp {op : Int} (h : WellRun arg s) (ht : t ≤ s.created)
    (hp : s.task t = .exiting (.unlockOp l op))
    (hm : foothreadExit t (s.load arg t) (.unlockOp l op) = some (mem, r)) :
    WellRun arg (s.resumeExit arg t (.unlockOp l op) (mem, r)) := by
  have hrem := h.remembersAt hp
  have hop := h.opAt hp
  have hkey : (s.load arg t).mutexSemaphore = SEM_KEY := h.key
  have hkept := h.knowsAt hp rfl
  obtain ⟨w, hw, rfl, rfl⟩ := perform_eq_some hm
  obtain rfl : op = 1 := hop
  rw [hkey] at hw ⊢
  by_cases hnone : l.mychild = []
  · simp only [if_pos hnone]
    exact h.leave (x := .exiting (.setPopAgain l)) ht hp rfl rfl hw hkept trivial hrem nofun
  · simp only [if_neg hnone]
    exact h.leave (x := .exiting (.setJoin l)) ht hp rfl rfl hw hkept trivial
      ⟨hrem.1, hrem.2, hnone⟩ nofun

/-- The operand is as large as the number of children. -/
theorem WellRun.setJoin (h : WellRun arg s) (ht : t ≤ s.created)
    (hp : s.task t = .exiting (.setJoin l))
    (hm : foothreadExit t (s.load arg t) (.setJoin l) = some (mem, r)) :
    WellRun arg (s.resumeExit arg t (.setJoin l) (mem, r)) := by
  have hrem := h.remembersAt hp
  cases hm
  obtain ⟨hfound, hchild, hnone⟩ := hrem
  have hle : l.mychild.length ≤ MAX_THREADS := by
    rw [hchild]
    exact length_children_le
  have hpos : 0 < l.mychild.length := List.length_pos_iff.mpr hnone
  refine h.pass (x := .exiting (.join l)) ht hp ⟨rfl, rfl, rfl, rfl⟩ rfl rfl rfl nofun nofun
    (.inl ?_) (.inr ⟨rfl, fun _ => rfl⟩) trivial ⟨hfound, hchild, hnone⟩ nofun
  show toShort (-(l.mychild.length : Int)) ≤ -1
  rw [toShort_neg hle]
  omega

/-- The `P` that waits for the children. -/
theorem WellRun.joinOp {op : Int} (h : WellRun arg s) (ht : t ≤ s.created)
    (hp : s.task t = .exiting (.joinOp l op))
    (hm : foothreadExit t (s.load arg t) (.joinOp l op) = some (mem, r)) :
    WellRun arg (s.resumeExit arg t (.joinOp l op) (mem, r)) := by
  have hrem := h.remembersAt hp
  have hgo : ∀ mem', SameRoll s.mem mem' → mem'.semval SEM_KEY = s.mem.semval SEM_KEY →
      mem'.pop = (s.args (arg t)).pop → mem'.vop = (s.args (arg t)).vop →
      WellRun arg (s.after arg t mem' s.released (.exiting (.setPopAgain l))) :=
    fun mem' hsame hval hpop hvop => h.pass ht hp hsame hval rfl rfl nofun nofun
      (.inr ⟨hpop, fun _ => rfl⟩) (.inr ⟨hvop, fun _ => rfl⟩) trivial ⟨hrem.1, hrem.2.1⟩ nofun
  cases hsem : l.semaphore with
  | none =>
      simp only [foothreadExit, hsem] at hm
      cases hm
      exact hgo _ ⟨rfl, rfl, rfl, rfl⟩ rfl rfl rfl
  | some sem =>
      simp only [foothreadExit, hsem] at hm
      obtain ⟨w, hw, rfl, rfl⟩ := perform_eq_some hm
      refine hgo _ ⟨rfl, rfl, rfl, rfl⟩ ?_ rfl rfl
      have hne : SEM_KEY ≠ sem := by
        rcases hrem.1 with hf | hu
        · have := Option.some.inj (hsem.symm.trans hf.semaphore)
          rw [this, SEM_KEY]
          omega
        · rw [hu.semaphore] at hsem
          cases hsem
      exact Function.update_of_ne hne _ _

/-- The second critical section begins. -/
theorem WellRun.lockAgainOp {op : Int} (h : WellRun arg s) (ht : t ≤ s.created)
    (hp : s.task t = .exiting (.lockAgainOp l op))
    (hm : foothreadExit t (s.load arg t) (.lockAgainOp l op) = some (mem, r)) :
    WellRun arg (s.resumeExit arg t (.lockAgainOp l op) (mem, r)) := by
  have hrem := h.remembersAt hp
  have hop := h.opAt hp
  have hkey : (s.load arg t).mutexSemaphore = SEM_KEY := h.key
  obtain ⟨w, hw, rfl, rfl⟩ := perform_eq_some hm
  rw [hkey] at hw ⊢
  refine h.enter (x := .exiting (.forget (if l.index.isSome then l.mychild else []))) ht hp hop hw
    rfl rfl rfl ⟨rfl, rfl⟩ trivial (fun hwhole => kept_of_whole ht hp hwhole) ?_ nofun
  split_ifs
  · rw [hrem.2]
    exact ⟨fun i hi => hi, nodup_children⟩
  · exact ⟨nofun, List.nodup_nil⟩

theorem wellRun_exit (h : WellRun arg s) (ht : t ≤ s.created) (hp : s.task t = .exiting pc)
    (hm : foothreadExit t (s.load arg t) pc = some (mem, r)) :
    WellRun arg (s.resumeExit arg t pc (mem, r)) := by
  have hop := h.opAt hp
  have hrem := h.remembersAt hp
  have hkey : (s.load arg t).mutexSemaphore = SEM_KEY := h.key
  cases pc with
  | setPop =>
      cases hm
      exact h.pass (x := .exiting .setVop) ht hp ⟨rfl, rfl, rfl, rfl⟩ rfl rfl rfl nofun nofun
        (.inl le_rfl) (.inr ⟨rfl, nofun⟩) trivial trivial nofun
  | setVop =>
      cases hm
      exact h.pass (x := .exiting .lock) ht hp ⟨rfl, rfl, rfl, rfl⟩ rfl rfl rfl nofun nofun
        (.inr ⟨rfl, fun _ => rfl⟩) (.inl rfl) trivial trivial nofun
  | lock =>
      cases hm
      exact h.pass (x := .exiting (.lockOp (s.load arg t).pop)) ht hp ⟨rfl, rfl, rfl, rfl⟩ rfl rfl rfl
        nofun nofun (.inr ⟨rfl, fun _ => rfl⟩) (.inr ⟨rfl, fun _ => rfl⟩)
        (h.pop t (by rw [hp]; rfl)) trivial nofun
  | lockOp op =>
      obtain ⟨w, hw, rfl, rfl⟩ := perform_eq_some hm
      rw [hkey] at hw ⊢
      exact h.enter (x := .exiting (.findValid 0)) ht hp hop hw rfl rfl rfl ⟨rfl, rfl⟩ trivial
        (fun hwhole => ⟨kept_of_whole ht hp hwhole, fun k hk => absurd hk (Nat.not_lt_zero k)⟩)
        trivial nofun
  | findValid i => exact h.findValid ht hp hm
  | findTid i => exact h.findTid ht hp hm
  | findJoin i =>
      obtain ⟨hkept, hhas⟩ := h.knowsAt hp rfl
      cases hm
      have hjoin : (s.mem.threadTable i).joinType = s.joinType t :=
        (hkept.roster.entryOf hhas).2.2.2.2
      exact h.lookExit ht hp rfl rfl trivial
        ⟨hkept, hhas, congrArg (fun j => decide (j = FOOTHREAD_JOINABLE)) hjoin⟩ trivial nofun
  | findSem i j =>
      obtain ⟨hkept, hhas, hj⟩ := h.knowsAt hp rfl
      cases hm
      exact h.lookExit ht hp rfl rfl trivial ⟨hkept, hhas, hj, hkept.semaphore i t hhas⟩ trivial nofun
  | findParent i j sem => exact h.findParent ht hp hm
  | parentValid l i => exact h.parentValid ht hp hm
  | parentTid l i => exact h.parentTid ht hp hm
  | parentSem l i =>
      obtain ⟨hkept, hasks, hhas⟩ := h.knowsAt hp rfl
      cases hm
      exact h.lookExit ht hp rfl rfl trivial ⟨hkept, hasks, hkept.semaphore i _ hhas⟩ trivial nofun
  | signal l sem =>
      obtain ⟨hkept, hasks, hsem⟩ := h.knowsAt hp rfl
      cases hm
      exact h.lookExit ht hp rfl rfl (h.vop t (by rw [hp]; rfl)) ⟨hkept, hasks, hsem⟩ trivial nofun
  | signalOp l sem op => exact h.signalOp ht hp hm
  | childValid l i => exact h.childValid ht hp hm
  | childParent l i => exact h.childParent ht hp hm
  | childJoin l i => exact h.childJoin ht hp hm
  | childTid l i => exact h.childTid ht hp hm
  | unlock l =>
      have hkept := h.knowsAt hp rfl
      cases hm
      exact h.lookExit ht hp rfl rfl (h.vop t (by rw [hp]; rfl)) hkept hrem nofun
  | unlockOp l op => exact h.unlockOp ht hp hm
  | setJoin l => exact h.setJoin ht hp hm
  | join l =>
      cases hm
      exact h.pass (x := .exiting (.joinOp l (s.load arg t).pop)) ht hp ⟨rfl, rfl, rfl, rfl⟩ rfl rfl
        rfl nofun nofun (.inr ⟨rfl, fun _ => rfl⟩) (.inr ⟨rfl, fun _ => rfl⟩)
        (h.pop t (by rw [hp]; rfl)) hrem nofun
  | joinOp l op => exact h.joinOp ht hp hm
  | setPopAgain l =>
      cases hm
      exact h.pass (x := .exiting (.lockAgain l)) ht hp ⟨rfl, rfl, rfl, rfl⟩ rfl rfl rfl nofun nofun
        (.inl le_rfl) (.inr ⟨rfl, fun _ => rfl⟩) trivial hrem nofun
  | lockAgain l =>
      cases hm
      exact h.pass (x := .exiting (.lockAgainOp l (s.load arg t).pop)) ht hp ⟨rfl, rfl, rfl, rfl⟩ rfl
        rfl rfl nofun nofun (.inr ⟨rfl, fun _ => rfl⟩) (.inr ⟨rfl, fun _ => rfl⟩)
        (h.pop t (by rw [hp]; rfl)) hrem nofun
  | lockAgainOp l op => exact h.lockAgainOp ht hp hm
  | forget rest =>
      -- one entry a step
      cases rest with
      | nil =>
          have hkept := h.knowsAt hp rfl
          cases hm
          exact h.lookExit ht hp rfl rfl trivial hkept trivial fun _ => rfl
      | cons i rest =>
          cases hm
          exact h.forget ht hp
  | unlockAgain =>
      have hkept := h.knowsAt hp rfl
      cases hm
      exact h.lookExit ht hp rfl rfl (h.vop t (by rw [hp]; rfl)) hkept trivial fun _ => rfl
  | unlockAgainOp op =>
      have hkept := h.knowsAt hp rfl
      obtain ⟨w, hw, rfl, rfl⟩ := perform_eq_some hm
      obtain rfl : op = 1 := hop
      rw [hkey] at hw ⊢
      exact h.leave (x := .done) ht hp rfl rfl hw hkept trivial trivial fun _ => rfl

/-! ## Runs -/

theorem wellRun_start : WellRun arg crewStart where
  key := rfl
  unborn _ _ := rfl
  older c hc hle := absurd hc (Nat.not_lt.mpr hle)
  root := ⟨rfl, rfl⟩
  pop _ h := by cases h
  vop _ h := by cases h
  op _ := trivial
  guard := .unmade rfl rfl rfl ⟨⟨fun i hi => (by cases hi), fun i k c hi => (by cases hi.1),
    fun c hc => absurd hc (Nat.not_lt_zero c), fun h => absurd h (Nat.lt_irrefl 0)⟩, rfl,
    fun i c hi => (by cases hi.1)⟩
  remembers _ := trivial
  released _ h := by cases h

/-- A call begins. -/
theorem WellRun.begin (h : WellRun arg s) (ht : t ≤ s.created) (hp : s.task t = .idle)
    (hin : x.inside = false) (hsets : x.popSet = false ∧ x.vopSet = false) (hop : x.OpOk)
    (hrem : x.Remembers s.roll t) (hearly : s.mem.init = false → x.early = true) :
    WellRun arg (s.goto t x) := by
  have hafter : WellRun arg (s.after arg t (s.load arg t) s.released x) :=
    h.pass ht hp ⟨rfl, rfl, rfl, rfl⟩ rfl rfl hin (fun hi _ => hearly hi) nofun
      (.inr ⟨rfl, by rw [hsets.1]; nofun⟩) (.inr ⟨rfl, by rw [hsets.2]; nofun⟩) hop hrem nofun
  exact hafter.alike alike_goto

theorem wellRun_next {a : Nat × Order} (h : WellRun arg s)
    (hs : (crewMachine arg).next s a = some s') : WellRun arg s' := by
  obtain ⟨ht, hmove⟩ := crewMove_of_next hs
  cases hmove with
  | create joinType hp => exact h.begin ht hp rfl ⟨rfl, rfl⟩ trivial trivial fun _ => rfl
  | exit hp hinit =>
      exact h.begin ht hp rfl ⟨rfl, rfl⟩ trivial trivial fun hi => by rw [hinit] at hi; cases hi
  | creating joinType child pc mem r hp hm => exact wellRun_create h ht hp hm
  | exiting pc mem r hp hm => exact wellRun_exit h ht hp hm

theorem wellRun {ok : Crew → Nat × Order → Prop} (h : (crewMachine arg).ReachableWhen ok s) :
    WellRun arg s := by
  apply h.invariant
  · rintro s rfl
    exact wellRun_start
  · exact fun s a s' hI _ hs => wellRun_next hI hs

end OSLab.Foothread
