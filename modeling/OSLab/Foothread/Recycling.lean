import OSLab.Foothread.Joins

set_option autoImplicit false

/-! # Entries that are given back

The last loop of `foothread_exit` gives back the entries of the caller's joinable children, if the
caller found its own entry (`index != -1`). With shared operands it may not: its creator did not wait
long enough, and gave the entry back before the caller came to look for it.

So the history of the calls says which entries have been given back: those of the joinable threads whose
creator has returned from `foothread_exit`, if the creator's own entry was not given back before it looked
for it (`Gone`). Between two critical sections the table is just that (`Recycling.released_iff`).
-/

namespace OSLab.Foothread

/-- Thread `c` is joinable and its creator has returned from `foothread_exit`, and had not lost its own
entry when it came there. -/
def Gone (s : Crew) (lost : Nat → Bool) (c : Nat) : Prop :=
  (0 < c ∧ c ≤ s.created) ∧ s.joinType c = FOOTHREAD_JOINABLE ∧ s.task (s.creator c) = .done
    ∧ lost (s.creator c) = false

instance (s : Crew) (lost : Nat → Bool) : DecidablePred (Gone s lost) :=
  fun c => inferInstanceAs (Decidable ((0 < c ∧ c ≤ s.created) ∧ _ ∧ _ ∧ _))

/-- The record of the losses: a thread has lost its entry if it is gone when the thread comes to look for it
in `foothread_exit`. -/
def noteLoss (s : Crew) (a : Nat × Order) (lost : Nat → Bool) : Nat → Bool :=
  if s.task a.1 = .exiting (.findValid 0) then Function.update lost a.1 (decide (Gone s lost a.1))
  else lost

/-- The threads, with that record beside them. -/
def tableMachine (arg : Nat → Nat) : Machine (Crew × (Nat → Bool)) (Nat × Order) :=
  (crewMachine arg).withHistory (fun _ => false) noteLoss

/-- `c` is a joinable thread that `t` created. -/
def Roll.Kid (v : Roll) (t c : Nat) : Prop :=
  (0 < c ∧ c ≤ v.created) ∧ v.creator c = t ∧ v.joinType c = FOOTHREAD_JOINABLE

/-- What a thread that had lost its entry, or had not, comes to in `foothread_exit`: it does not find its
index, and releases nobody, or it finds it, and is about to release the children that are left. -/
def ExitPc.Recalls (v : Roll) (lost : Bool) (t : Nat) : ExitPc → Prop
  | .findValid (_ + 1) | .findTid _ => lost = v.released t
  | .findJoin _ | .findSem _ _ | .findParent _ _ _ => lost = false
  | .parentValid l _ | .parentTid l _ | .parentSem l _ | .signal l _ | .signalOp l _ _
  | .childValid l _ | .childParent l _ | .childJoin l _ | .childTid l _ | .unlock l | .unlockOp l _
  | .setJoin l | .join l | .joinOp l _ | .setPopAgain l | .lockAgain l | .lockAgainOp l _ =>
      lost = !l.index.isSome
  | .forget rest => (lost = true → rest = [])
      ∧ (lost = false → ∀ c, v.Kid t c → v.released c = false → ∃ i ∈ rest, v.Has i c)
  | .unlockAgain | .unlockAgainOp _ => lost = false → ∀ c, v.Kid t c → v.released c = true
  | _ => True

def Task.Recalls (v : Roll) (lost : Bool) (t : Nat) : Task → Prop
  | .exiting pc => pc.Recalls v lost t
  | .done => lost = false → ∀ c, v.Kid t c → v.released c = true
  | _ => True

/-- Entries are given back by threads that had not lost theirs. -/
structure Recycling (s : Crew) (lost : Nat → Bool) : Prop where
  given : ∀ c, s.released c = true → lost (s.creator c) = false
  recalls : ∀ t, (s.task t).Recalls s.roll (lost t) t

variable {arg : Nat → Nat} {s s' : Crew} {lost lost' : Nat → Bool} {t u c i : Nat} {x y : Task}
  {mem : Mem} {released : Nat → Bool} {pc pc' : ExitPc} {r : Ctl ExitPc} {v v' : Roll} {a : Nat × Order}

/-! ## What has been given back -/

/-- While a thread is in its critical section and gives nothing back, the entries given back are those
that are gone. -/
theorem Recycling.released_iff (h : Recycling s lost) (hw : WellRun arg s)
    (hin : (s.task t).inside = true) (hnot : (s.task t).releases = false) (hpos : 0 < c)
    (hle : c ≤ s.created) : s.released c = true ↔ Gone s lost c := by
  constructor
  · intro hr
    obtain ⟨-, -, hjoin, hcreator⟩ := hw.released c hr
    refine ⟨⟨hpos, hle⟩, hjoin, ?_, h.given c hr⟩
    have hne : s.creator c ≠ t := by
      intro he
      rw [he, hnot] at hcreator
      cases hcreator
    have hout := (hw.knows hin).2.2.1 _ hne
    -- of the places where entries are released, only the last is outside
    cases hx : s.task (s.creator c) with
    | done => rfl
    | exiting pc =>
        rw [hx] at hcreator hout
        cases pc <;> first
          | exact absurd hcreator Bool.false_ne_true
          | exact absurd hout.symm Bool.false_ne_true
    | _ =>
        rw [hx] at hcreator
        cases hcreator
  · rintro ⟨-, hjoin, hdone, hlost⟩
    have hrecalls := h.recalls (s.creator c)
    rw [hdone] at hrecalls
    exact hrecalls hlost c ⟨⟨hpos, hle⟩, rfl, hjoin⟩

/-- When a thread comes to look for its entry, its loss is what is recorded. -/
theorem Recycling.lost_iff (h : Recycling s lost) (hw : WellRun arg s) (ht : t ≤ s.created)
    (hin : (s.task t).inside = true) (hnot : (s.task t).releases = false) :
    decide (Gone s lost t) = s.released t := by
  rcases Nat.eq_zero_or_pos t with rfl | hpos
  · have hnone : ¬ Gone s lost 0 := fun hg => absurd hg.1.1 (Nat.lt_irrefl 0)
    have hrel : s.released 0 = false := by
      by_contra hr
      exact absurd (hw.released 0 (Bool.not_eq_false _ ▸ hr)).1 (Nat.lt_irrefl 0)
    rw [hrel, decide_eq_false hnone]
  · rw [Bool.eq_iff_iff, decide_eq_true_iff]
    exact (h.released_iff hw hin hnot hpos ht).symm

/-! ## Steps -/

/-- What a thread recalls holds while others move: its critical sections are its own, and nobody but it
creates children for it. -/
theorem Task.Recalls.frame {b : Bool} (h : x.Recalls v b u) (hkid : ∀ c, v'.Kid u c → v.Kid u c)
    (hmono : ∀ c, v.released c = true → v'.released c = true)
    (hin : x.inside = true → v'.table = v.table ∧ v'.released = v.released) :
    x.Recalls v' b u := by
  have hgiven : (b = false → ∀ c, v.Kid u c → v.released c = true) →
      b = false → ∀ c, v'.Kid u c → v'.released c = true :=
    fun hall hb c hc => hmono c (hall hb c (hkid c hc))
  cases x with
  | done => exact hgiven h
  | exiting pc =>
      cases pc with
      | findValid i =>
          cases i with
          | zero => trivial
          | succ i => exact Eq.trans h (congrFun (hin rfl).2 u).symm
      | findTid i => exact Eq.trans h (congrFun (hin rfl).2 u).symm
      | forget rest =>
          obtain ⟨htable, hreleased⟩ := hin rfl
          refine ⟨h.1, fun hb c hc hr => ?_⟩
          rw [hreleased] at hr
          obtain ⟨i, hi, hhas⟩ := h.2 hb c (hkid c hc) hr
          refine ⟨i, hi, ?_⟩
          unfold Roll.Has
          rw [htable]
          exact hhas
      | unlockAgain => exact hgiven h
      | unlockAgainOp op => exact hgiven h
      | _ => exact h
  | _ => trivial

/-- A step of thread `t`. -/
theorem Recycling.move (h : Recycling s lost) (htask : ∀ u, u ≠ t → s'.task u = s.task u)
    (hkid : ∀ u, u ≠ t → ∀ c, s'.roll.Kid u c → s.roll.Kid u c)
    (hmono : ∀ c, s.released c = true → s'.released c = true)
    (hin : ∀ u, u ≠ t → (s.task u).inside = true →
      s'.mem.threadTable = s.mem.threadTable ∧ s'.released = s.released)
    (hlost : ∀ u, u ≠ t → lost' u = lost u)
    (hgiven : ∀ c, s'.released c = true → lost' (s'.creator c) = false)
    (hself : (s'.task t).Recalls s'.roll (lost' t) t) : Recycling s' lost' := by
  refine ⟨hgiven, fun u => ?_⟩
  by_cases hut : u = t
  · exact hut ▸ hself
  · rw [htask u hut, hlost u hut]
    exact (h.recalls u).frame (hkid u hut) hmono (hin u hut)

/-- One that releases nobody. -/
theorem Recycling.same (h : Recycling s lost) (hlost : ∀ u, u ≠ t → lost' u = lost u)
    (hgiven : ∀ c, s.released c = true → lost' (s.creator c) = false)
    (hin : ∀ u, u ≠ t → (s.task u).inside = true → mem.threadTable = s.mem.threadTable)
    (hself : x.Recalls (s.after arg t mem s.released x).roll (lost' t) t) :
    Recycling (s.after arg t mem s.released x) lost' := by
  refine h.move (t := t) (fun u hu => Crew.after_task_ne hu) (fun _ _ _ hc => hc) (fun _ hc => hc)
    (fun u hu hu' => ⟨hin u hu hu', rfl⟩) hlost hgiven ?_
  rw [Crew.after_task_self]
  exact hself

/-- One in `foothread_exit` that looks at the table, or does not even look. -/
theorem Recycling.look (h : Recycling s lost) (htable : mem.threadTable = s.mem.threadTable)
    (hnext : mem.nextSem = s.mem.nextSem) (hself : x.Recalls s.roll (lost t) t) :
    Recycling (s.after arg t mem s.released x) lost := by
  refine h.same (fun _ _ => rfl) h.given (fun _ _ _ => htable) ?_
  have hroll : (s.after arg t mem s.released x).roll = s.roll := by
    show Roll.mk mem.threadTable mem.nextSem _ _ _ _ = _
    rw [htable, hnext]
    rfl
  rw [hroll]
  exact hself

/-! ## The steps of `foothread_create` -/

/-- Outside of its critical section `foothread_create` leaves the table alone, once it is made. -/
theorem create_table {j : Int} {child : Nat} {m m' : Mem} {pc : CreatePc} {r : Ctl CreatePc}
    (hout : (Task.creating j child pc).inside = false) (hinit : m.init = true)
    (hm : foothreadCreateAs j t child m pc = some (m', r)) : m'.threadTable = m.threadTable := by
  cases pc with
  | setPop | setVop | lock =>
      cases hm
      rfl
  | getSem =>
      simp only [foothreadCreateAs, foothreadCreate, if_pos hinit] at hm
      cases hm
      rfl
  | lockOp op =>
      obtain ⟨w, -, rfl, -⟩ := perform_eq_some hm
      rfl
  | _ => cases hout

/-- The new thread is nobody else's child. -/
theorem Recycling.spawn {j : Int} {pc' : CreatePc} (h : Recycling s lost) (hw : WellRun arg s) :
    Recycling (s.cloned arg t j (.creating j (s.created + 1) pc')) lost := by
  have hmaker : (s.cloned arg t j (.creating j (s.created + 1) pc')).creator (s.created + 1) = t :=
    Crew.cloned_creator_new
  have hold : ∀ d, d ≠ s.created + 1 →
      (s.cloned arg t j (.creating j (s.created + 1) pc')).creator d = s.creator d
        ∧ (s.cloned arg t j (.creating j (s.created + 1) pc')).joinType d = s.joinType d :=
    fun d hd => ⟨Crew.cloned_creator hd, Crew.cloned_joinType hd⟩
  refine h.move (t := t) (fun u hu => Crew.cloned_task_ne hu) (fun u hu d hd => ?_) (fun _ hd => hd)
    (fun _ _ _ => ⟨rfl, rfl⟩) (fun _ _ => rfl) (fun d hd => ?_) ?_
  · obtain ⟨⟨hpos, hle⟩, hchild, hjoin⟩ := hd
    have hnew : d ≠ s.created + 1 := by
      rintro rfl
      exact hu (hchild.symm.trans hmaker)
    obtain ⟨hcreator, hjoinType⟩ := hold d hnew
    exact ⟨⟨hpos, Nat.lt_succ_iff.mp (lt_of_le_of_ne hle hnew)⟩, hcreator.symm.trans hchild,
      hjoinType.symm.trans hjoin⟩
  · have hle := (hw.released d hd).2.1
    rw [(hold d (by omega)).1]
    exact h.given d hd
  · rw [Crew.cloned_task_self]
    trivial

theorem recycling_create {j : Int} {child : Nat} {pc : CreatePc} {r : Ctl CreatePc}
    (h : Recycling s lost) (hw : WellRun arg s) (hp : s.task t = .creating j child pc)
    (hm : foothreadCreateAs j t child (s.load arg t) pc = some (mem, r)) :
    Recycling (s.resumeCreate arg t j child (mem, r)) lost := by
  -- whoever else is in a critical section keeps the mover out
  have hin : ∀ u, u ≠ t → (s.task u).inside = true → mem.threadTable = s.mem.threadTable := by
    intro u hu hin
    obtain ⟨hinit, -, hothers, -⟩ := hw.knows hin
    have hout : (s.task t).inside = false := hothers t hu.symm
    rw [hp] at hout
    exact create_table (m := s.load arg t) hout hinit hm
  have hgo : ∀ x : Task, x.Recalls (s.after arg t mem s.released x).roll (lost t) t →
      Recycling (s.after arg t mem s.released x) lost :=
    fun x hx => h.same (fun _ _ => rfl) h.given hin hx
  obtain ⟨pc', rfl, -⟩ | rfl | ⟨i, rfl, rfl, rfl⟩ | ⟨rfl, rfl, rfl⟩ := create_cases hm
  · exact hgo (.creating j child pc') trivial
  · exact hgo .idle trivial
  · exact h.spawn hw
  · exact ⟨h.given, h.recalls⟩

/-! ## The steps of `foothread_exit` -/

theorem recalls_afterFind {b : Bool} {l : ExitLocals} (h : b = !l.index.isSome) :
    (afterFind t l).Recalls v b t := by
  unfold afterFind
  split_ifs
  · exact h
  · exact h

/-- The search for the own entry, with the loss recorded. -/
theorem Recycling.find {i : Nat} (h : Recycling s lost) (hw : WellRun arg s) (ht : t ≤ s.created)
    (hp : s.task t = .exiting (.findValid i)) (hlost : ∀ u, u ≠ t → lost' u = lost u)
    (hgiven : ∀ c, s.released c = true → lost' (s.creator c) = false)
    (hself : lost' t = s.released t)
    (hm : foothreadExit t (s.load arg t) (.findValid i) = some (mem, r)) :
    Recycling (s.resumeExit arg t (.findValid i) (mem, r)) lost' := by
  obtain ⟨hkept, hbelow⟩ := hw.knowsAt hp rfl
  have hgo : ∀ pc', pc'.Recalls s.roll (lost' t) t →
      Recycling (s.after arg t (s.load arg t) s.released (.exiting pc')) lost' :=
    fun pc' hx => h.same hlost hgiven (fun _ _ _ => rfl) hx
  simp only [foothreadExit] at hm
  split_ifs at hm with hlt hvalid
  · cases hm
    exact hgo (.findTid i) hself
  · cases hm
    exact hgo (.findValid (i + 1)) hself
  · cases hm
    -- no entry is the thread's own
    have hrel : s.released t = true := by
      by_contra hr
      obtain ⟨k, hk⟩ := hkept.roster.present t (Nat.lt_succ_of_le ht) (Bool.eq_false_iff.mpr hr)
      exact hbelow k ((hkept.roster.entryOf hk).1.trans_le (Nat.not_lt.mp hlt)) hk
    exact hgo _ (recalls_afterFind (hself.trans hrel))

/-- The last loop. -/
theorem Recycling.forget {rest : List Nat} (h : Recycling s lost) (hw : WellRun arg s)
    (hp : s.task t = .exiting (.forget (i :: rest))) :
    Recycling (s.after arg t
      ((s.load arg t).setEntry i { s.mem.threadTable i with valid := false })
      (fun d => s.released d || (s.mem.threadTable i).tid == gettid d) (.exiting (.forget rest)))
      lost := by
  have hkept : Kept (s.created + 1) s.roll := hw.knowsAt hp rfl
  obtain ⟨hmem, -⟩ := hw.remembersAt hp
  have hothers := (hw.knows (t := t) (by rw [hp]; rfl)).2.2.1
  have hrecalls := h.recalls t
  rw [hp] at hrecalls
  obtain ⟨hnil, hleft⟩ := hrecalls
  have hfound : lost t = false := by
    by_contra hl
    cases hnil (Bool.not_eq_false _ ▸ hl)
  obtain ⟨c, hhas, -, -, hcreator, -⟩ := hkept.child hw.root.1 (hmem i (List.mem_cons_self ..))
  refine h.move (t := t) (fun u hu => Crew.after_task_ne hu) (fun _ _ _ hd => hd)
    (fun d hd => Bool.or_eq_true_iff.mpr (.inl hd)) (fun u hu hin => ?_) (fun _ _ => rfl)
    (fun d hd => ?_) ?_
  · rw [hothers u hu] at hin
    cases hin
  · rcases Bool.or_eq_true_iff.mp hd with hd | hd
    · exact h.given d hd
    · obtain rfl : d = c := gettid_injective ((beq_iff_eq.mp hd).symm.trans hhas.2)
      exact (congrArg lost hcreator).trans hfound
  · rw [Crew.after_task_self]
    refine ⟨fun hl => absurd (hfound.symm.trans hl) Bool.false_ne_true, fun _ d hd hr => ?_⟩
    -- who is not released by this step is noted further on
    obtain ⟨hr, hne⟩ := Bool.or_eq_false_iff.mp hr
    obtain ⟨k, hk, hhask⟩ := hleft hfound d hd hr
    have hki : k ≠ i := by
      rintro rfl
      exact beq_eq_false_iff_ne.mp hne hhask.2
    refine ⟨k, (List.mem_cons.mp hk).resolve_left hki, ?_⟩
    show (Function.update s.mem.threadTable i _ k).valid = true
      ∧ (Function.update s.mem.threadTable i _ k).tid = gettid d
    rw [Function.update_of_ne hki]
    exact hhask

theorem noteLoss_of_ne {o : Order} (h : s.task t ≠ .exiting (.findValid 0)) :
    noteLoss s (t, o) lost = lost := if_neg h

/-- The thread comes to look for its entry. -/
theorem Recycling.note {o : Order} (h : Recycling s lost) (hw : WellRun arg s) (ht : t ≤ s.created)
    (hp : s.task t = .exiting (.findValid 0))
    (hm : foothreadExit t (s.load arg t) (.findValid 0) = some (mem, r)) :
    Recycling (s.resumeExit arg t (.findValid 0) (mem, r)) (noteLoss s (t, o) lost) := by
  have hnote : noteLoss s (t, o) lost = Function.update lost t (decide (Gone s lost t)) := if_pos hp
  rw [hnote]
  refine h.find hw ht hp (fun u hu => Function.update_of_ne hu _ _) (fun c hc => ?_) ?_ hm
  · -- it has released nobody yet
    have hrel := (hw.released c hc).2.2.2
    have hne : s.creator c ≠ t := by
      intro he
      rw [he, hp] at hrel
      cases hrel
    rw [Function.update_of_ne hne]
    exact h.given c hc
  · rw [Function.update_self]
    exact h.lost_iff hw ht (by rw [hp]; rfl) (by rw [hp]; rfl)

theorem recycling_exit {o : Order} (h : Recycling s lost) (hw : WellRun arg s) (ht : t ≤ s.created)
    (hp : s.task t = .exiting pc) (hm : foothreadExit t (s.load arg t) pc = some (mem, r)) :
    Recycling (s.resumeExit arg t pc (mem, r)) (noteLoss s (t, o) lost) := by
  by_cases hfirst : pc = .findValid 0
  · subst hfirst
    exact h.note hw ht hp hm
  rw [noteLoss_of_ne (by rw [hp]; exact fun he => hfirst (Task.exiting.inj he))]
  have hrecalls := h.recalls t
  rw [hp] at hrecalls
  have hgo : ∀ mem' (x : Task), mem'.threadTable = s.mem.threadTable → mem'.nextSem = s.mem.nextSem →
      x.Recalls s.roll (lost t) t → Recycling (s.after arg t mem' s.released x) lost :=
    fun mem' x htable hnext hx => h.look htable hnext hx
  cases pc with
  | setPop | setVop | lock =>
      cases hm
      exact hgo _ _ rfl rfl trivial
  | lockOp op =>
      obtain ⟨w, -, rfl, rfl⟩ := perform_eq_some hm
      exact hgo _ _ rfl rfl trivial
  | findValid i =>
      obtain ⟨i, rfl⟩ := Nat.exists_eq_succ_of_ne_zero fun hz => hfirst (congrArg ExitPc.findValid hz)
      exact h.find hw ht hp (fun _ _ => rfl) h.given hrecalls hm
  | findTid i =>
      obtain ⟨hkept, -, hvalid⟩ := hw.knowsAt hp rfl
      simp only [foothreadExit] at hm
      split_ifs at hm with htid
      · cases hm
        have hrel : s.released t = false := (hkept.roster.entryOf ⟨hvalid, htid⟩).2.2.1
        exact hgo _ _ rfl rfl (Eq.trans hrecalls hrel)
      · cases hm
        exact hgo _ _ rfl rfl hrecalls
  | findParent i j sem =>
      cases hm
      exact hgo _ _ rfl rfl (recalls_afterFind hrecalls)
  | parentValid l i | parentTid l i | childValid l i | childParent l i | childJoin l i | childTid l i =>
      simp only [foothreadExit] at hm
      split_ifs at hm <;> cases hm <;> exact hgo _ _ rfl rfl hrecalls
  | signalOp l sem op =>
      obtain ⟨w, -, rfl, rfl⟩ := perform_eq_some hm
      exact hgo _ _ rfl rfl hrecalls
  | unlockOp l op =>
      obtain ⟨w, -, rfl, rfl⟩ := perform_eq_some hm
      by_cases hnone : l.mychild = []
      · simp only [if_pos hnone]
        exact hgo _ (.exiting (.setPopAgain l)) rfl rfl hrecalls
      · simp only [if_neg hnone]
        exact hgo _ (.exiting (.setJoin l)) rfl rfl hrecalls
  | joinOp l op =>
      cases hsem : l.semaphore with
      | none =>
          simp only [foothreadExit, hsem] at hm
          cases hm
          exact hgo _ _ rfl rfl hrecalls
      | some sem =>
          simp only [foothreadExit, hsem] at hm
          obtain ⟨w, -, rfl, rfl⟩ := perform_eq_some hm
          exact hgo _ (.exiting (.setPopAgain l)) rfl rfl hrecalls
  | lockAgainOp l op =>
      have hrem := hw.remembersAt hp
      have hrecalls : lost t = !l.index.isSome := hrecalls
      obtain ⟨w, -, rfl, rfl⟩ := perform_eq_some hm
      refine hgo _ (.exiting (.forget (if l.index.isSome then l.mychild else []))) rfl rfl
        ⟨fun hl => ?_, fun hl c hc hr => ?_⟩
      · rw [hl] at hrecalls
        rw [if_neg (by simpa using hrecalls)]
      · -- the noted children are all that the thread has
        rw [hl] at hrecalls
        rw [if_pos (by simpa using hrecalls), hrem.2]
        exact hw.present ht hp hc hr
  | forget rest =>
      cases rest with
      | nil =>
          cases hm
          refine hgo _ (.exiting .unlockAgain) rfl rfl fun hl c hc => ?_
          by_contra hr
          obtain ⟨i, hi, -⟩ := hrecalls.2 hl c hc (Bool.eq_false_iff.mpr hr)
          cases hi
      | cons i rest =>
          cases hm
          exact h.forget hw hp
  | unlockAgainOp op =>
      obtain ⟨w, -, rfl, rfl⟩ := perform_eq_some hm
      exact hgo _ .done rfl rfl hrecalls
  | _ =>
      cases hm
      exact hgo _ _ rfl rfl hrecalls

/-! ## Runs -/

theorem recycling_start : Recycling crewStart fun _ => false := ⟨fun _ _ => rfl, fun _ => trivial⟩

/-- A call begins. -/
theorem Recycling.begin (h : Recycling s lost) (hx : x.Recalls s.roll (lost t) t) :
    Recycling (s.goto t x) lost := by
  refine h.move (t := t) (fun u hu => Function.update_of_ne hu _ _) (fun _ _ _ hc => hc)
    (fun _ hc => hc) (fun _ _ _ => ⟨rfl, rfl⟩) (fun _ _ => rfl) h.given ?_
  have hself : (s.goto t x).task t = x := Function.update_self ..
  rw [hself]
  exact hx

theorem recycling_next (h : Recycling s lost) (hw : WellRun arg s)
    (hs : (crewMachine arg).next s a = some s') : Recycling s' (noteLoss s a lost) := by
  obtain ⟨t, o⟩ := a
  obtain ⟨ht, hmove⟩ := crewMove_of_next hs
  -- the record changes in `foothread_exit` only
  have hother : ∀ y, s.task t = y → y ≠ .exiting (.findValid 0) → noteLoss s (t, o) lost = lost :=
    fun y hy hne => noteLoss_of_ne (hy ▸ hne)
  cases hmove with
  | create joinType hp =>
      rw [hother _ hp nofun]
      exact h.begin trivial
  | exit hp _ =>
      rw [hother _ hp nofun]
      exact h.begin trivial
  | creating joinType child pc mem r hp hm =>
      rw [hother _ hp nofun]
      exact recycling_create h hw hp hm
  | exiting pc mem r hp hm => exact recycling_exit h hw ht hp hm

/-- The invariant of the runs, under any condition on the steps. -/
theorem recycling {w : Crew × (Nat → Bool)} {ok : Crew × (Nat → Bool) → Nat × Order → Prop}
    (h : (tableMachine arg).ReachableWhen ok w) : WellRun arg w.1 ∧ Recycling w.1 w.2 := by
  apply h.invariant
  · rintro ⟨s, lost⟩ ⟨rfl, rfl⟩
    exact ⟨wellRun_start, recycling_start⟩
  · rintro w a w' ⟨hw, hI⟩ _ hs
    obtain ⟨hnext, hnote⟩ := Machine.withHistory_next hs
    rw [hnote]
    exact ⟨wellRun_next hw hnext, recycling_next hI hw hnext⟩

/-- At any moment the table is a roster of the first threads. -/
theorem WellRun.exists_roster (h : WellRun arg s) : ∃ m, Roster m s.roll := by
  cases h.guard with
  | unmade _ _ _ kept => exact ⟨0, kept.roster⟩
  | free _ _ _ whole =>
      rcases whole with hk | ⟨hk, -⟩
      · exact ⟨_, hk.roster⟩
      · exact ⟨0, hk.roster⟩
  | held u _ _ inside _ knows =>
      cases hx : s.task u with
      | exiting pc =>
          rw [hx] at knows
          exact ⟨_, (ExitPc.Inside.kept knows).roster⟩
      | creating j child pc =>
          rw [hx] at inside knows
          rcases CreatePc.Inside.roster knows inside with hr | ⟨hr, -⟩
          · exact ⟨_, hr⟩
          · exact ⟨_, hr⟩
      | _ =>
          rw [hx] at inside
          cases inside

/-- **An entry that is gone is free**: no entry in use names the thread. -/
theorem Recycling.gone_free (h : Recycling s lost) (hw : WellRun arg s) (hgone : Gone s lost c) :
    ∀ i, ¬ s.roll.Has i c := by
  obtain ⟨hc, hjoin, hdone, hlost⟩ := hgone
  have hrecalls := h.recalls (s.creator c)
  rw [hdone] at hrecalls
  have hreleased : s.released c = true := hrecalls hlost c ⟨hc, rfl, hjoin⟩
  intro i hi
  obtain ⟨m, hroster⟩ := hw.exists_roster
  have hrel : s.released c = false := (hroster.entryOf hi).2.2.1
  rw [hreleased] at hrel
  cases hrel

/-- With operands of its own, no thread loses its entry before it has looked for it. -/
theorem never_lost {w : Crew × (Nat → Bool)} (h : (tableMachine id).Reachable w) :
    ∀ t, w.2 t = false := by
  have hall : (WellRun id w.1 ∧ Recycling w.1 w.2) ∧ Joining w.1 ∧ ∀ t, w.2 t = false := by
    apply h.invariant (I := fun w => (WellRun id w.1 ∧ Recycling w.1 w.2) ∧ Joining w.1
      ∧ ∀ t, w.2 t = false)
    · rintro ⟨s, lost⟩ ⟨rfl, rfl⟩
      exact ⟨⟨wellRun_start, recycling_start⟩, joining_start, fun _ => rfl⟩
    · rintro w ⟨t, o⟩ w' ⟨⟨hw, hI⟩, hjoining, hnone⟩ _ hs
      obtain ⟨hnext, hnote⟩ := Machine.withHistory_next hs
      refine ⟨?_, joining_next hjoining hw hnext, fun u => ?_⟩
      · rw [hnote]
        exact ⟨wellRun_next hw hnext, recycling_next hI hw hnext⟩
      · by_cases hfirst : w.1.task t = .exiting (.findValid 0)
        · have hupdate : w'.2 = Function.update w.2 t (decide (Gone w.1 w.2 t)) :=
            hnote.trans (if_pos hfirst)
          -- whoever was released is past the `V` for its creator
          have hself : decide (Gone w.1 w.2 t) = false := by
            rw [hI.lost_iff hw (crewMove_of_next hnext).1 (by rw [hfirst]; rfl) (by rw [hfirst]; rfl)]
            by_contra hr
            have hsignalled := hjoining.signalled_of_released hw (Bool.not_eq_false _ ▸ hr)
            rw [hfirst] at hsignalled
            cases hsignalled
          rw [hupdate, hself]
          by_cases hut : u = t
          · rw [hut, Function.update_self]
          · rw [Function.update_of_ne hut]
            exact hnone u
        · rw [hnote, noteLoss_of_ne hfirst]
          exact hnone u
  exact hall.2.2

end OSLab.Foothread
