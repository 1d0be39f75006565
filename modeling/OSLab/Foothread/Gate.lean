import OSLab.Foothread.Barrier
import OSLab.Foothread.ComputeSum
import OSLab.Foothread.Frame

set_option autoImplicit false

/-! # The barriers of the tree

A node thread passes two barriers: its own, for the thread of an inner node, and that of its
parent. All barriers share one mutex, and `pop` and `vop` are shared by everything, so neither
mutual exclusion nor the number of tokens can be relied on. What can is this: a thread writes
to a barrier's `reached` what it read there plus one, and each participant writes once. So
`reached` never exceeds the number of participants that have written, and whoever finds it equal
to `count` knows that all have (`Gate`). Only then is anything added to the barrier's
semaphore.
-/

namespace OSLab.Foothread

/-- The two barriers of a node thread. -/
inductive Spot
  | own
  | parent
  deriving DecidableEq, Repr

/-- How far a node thread is with its barriers. -/
inductive Stage
  | before
  | at (k : Spot) (pc : BarrierPc)
  | between
  | after
  deriving DecidableEq, Repr

/-- The stage of a thread; one that is not made yet is before everything. -/
def stage : Option NodePc → Stage
  | none | some .start => .before
  | some (.wait pc) => .at .own pc
  | some (.waitParent pc) => .at .parent pc
  | some .check | some (.lockReport _) | some .report | some (.unlockReport _) | some (.exit _)
  | some .finished => .after
  | _ => .between

/-- The thread has counted itself in the `reached` of the barrier. -/
def Stage.wrote : Stage → Spot → Bool
  | .before, _ => false
  | .at .own pc, .own => OSLab.Foothread.wrote (some pc)
  | .at .own _, .parent => false
  | .at .parent _, .own => true
  | .at .parent pc, .parent => OSLab.Foothread.wrote (some pc)
  | .between, .own => true
  | .between, .parent => false
  | .after, _ => true

/-- The thread is through its own barrier. -/
def Stage.past : Stage → Bool
  | .before | .at .own _ => false
  | _ => true

/-- The thread has found `reached == count` and is about to add to the semaphore. -/
def opens : BarrierPc → Bool
  | .unlock true | .unlockOp true _ | .setRelease | .release | .releaseOp _ => true
  | _ => false

/-- Which barrier a spot is, as the source computes it: `-1` for none. -/
def spot (g : Globals) (v : Nat) : Spot → Int
  | .own => v
  | .parent => (g.tree v).parent

/-- The nodes with a barrier. -/
def Inner (g : Globals) (b : Nat) : Prop := b < g.numNodes ∧ 0 < (g.tree b).children

/-- Node `v` has to do with barrier `b`. -/
def Participant (g : Globals) (b v : Nat) : Prop := spot g v .own = b ∨ spot g v .parent = b

/-- Node `v` has written to `reached` of barrier `b`. -/
def Writer (g : Globals) (st : Nat → Stage) (b v : Nat) : Prop :=
  (spot g v .own = b ∧ (st v).wrote .own = true)
    ∨ (spot g v .parent = b ∧ (st v).wrote .parent = true)

instance (g : Globals) (b : Nat) : DecidablePred (Participant g b) := fun _ =>
  inferInstanceAs (Decidable (_ ∨ _))

instance (g : Globals) (st : Nat → Stage) (b : Nat) : DecidablePred (Writer g st b) := fun _ =>
  inferInstanceAs (Decidable (_ ∨ _))

/-- All participants of barrier `b` have written. -/
def Full (g : Globals) (st : Nat → Stage) (b : Nat) : Prop :=
  ∀ v < g.numNodes, Participant g b v → Writer g st b v

/-- **The invariant of the barriers.** -/
structure Gate (g : Globals) (mem : Mem) (st : Nat → Stage) : Prop where
  reached : ∀ b, Inner g b →
    (mem.barriers b).reached ≤ Nat.count (Writer g st b) g.numNodes
  writing : ∀ b, Inner g b → ∀ v < g.numNodes, ∀ k r, st v = .at k (.writeReached r) →
    spot g v k = b → r ≤ Nat.count (Writer g st b) g.numNodes
  opening : ∀ b, Inner g b → ∀ v < g.numNodes, ∀ k pc, st v = .at k pc → spot g v k = b →
    opens pc = true → Full g st b
  tokens : ∀ b, Inner g b → 0 < mem.semval (mem.barriers b).semaphore → Full g st b
  past : ∀ b, Inner g b → (st b).past = true → Full g st b

/-- What `main` has made of the barriers, as far as it does not change: each has a semaphore of
its own, one of those private ones below `lo`. -/
structure BarriersOk (lo : Nat) (g : Globals) (mem : Mem) : Prop where
  count : ∀ b, Inner g b → (mem.barriers b).count = Nat.count (Participant g b) g.numNodes
  mutex : ∀ b, Inner g b → (mem.barriers b).mutexSemaphore = BAR_SEM_KEY
  semaphore : ∀ b, Inner g b → 3 ≤ (mem.barriers b).semaphore ∧ (mem.barriers b).semaphore < lo
  distinct : ∀ b b', Inner g b → Inner g b' →
    (mem.barriers b).semaphore = (mem.barriers b').semaphore → b = b'

variable {g : Globals} {mem mem' : Mem} {st : Nat → Stage} {lo b v : Nat} {x : Stage}

/-! ## One thread moves -/

theorem Writer.mono {u : Nat} (hmono : ∀ k, (st v).wrote k = true → x.wrote k = true)
    (h : Writer g st b u) : Writer g (Function.update st v x) b u := by
  by_cases huv : u = v
  · subst huv
    unfold Writer at h ⊢
    rw [Function.update_self]
    exact h.imp (fun hk => ⟨hk.1, hmono _ hk.2⟩) (fun hk => ⟨hk.1, hmono _ hk.2⟩)
  · unfold Writer
    rw [Function.update_of_ne huv]
    exact h

theorem Full.mono (hmono : ∀ k, (st v).wrote k = true → x.wrote k = true) (h : Full g st b) :
    Full g (Function.update st v x) b :=
  fun u hu hp => (h u hu hp).mono hmono

theorem count_writers_mono (hmono : ∀ k, (st v).wrote k = true → x.wrote k = true) (b : Nat) :
    Nat.count (Writer g st b) g.numNodes
      ≤ Nat.count (Writer g (Function.update st v x) b) g.numNodes :=
  Nat.count_mono_left fun _ _ h => h.mono hmono

/-- A thread writes to the `reached` of its barrier for the first time. -/
theorem count_writers_lt {k : Spot} (hv : v < g.numNodes) (hk : spot g v k = b)
    (hother : ∀ k', spot g v k' = b → k' = k)
    (hold : (st v).wrote k = false) (hnew : x.wrote k = true) :
    Nat.count (Writer g st b) g.numNodes + 1
      ≤ Nat.count (Writer g (Function.update st v x) b) g.numNodes := by
  have hnot : ¬ Writer g st b v := by
    rintro (⟨hs, hw⟩ | ⟨hs, hw⟩)
    · rw [hother .own hs, hold] at hw
      cases hw
    · rw [hother .parent hs, hold] at hw
      cases hw
  have hnow : Writer g (Function.update st v x) b v := by
    unfold Writer
    rw [Function.update_self]
    cases k with
    | own => exact .inl ⟨hk, hnew⟩
    | parent => exact .inr ⟨hk, hnew⟩
  have hgain : Nat.count (Writer g (Function.update st v x) b) g.numNodes
      = Nat.count (Writer g st b) g.numNodes + 1 := by
    refine count_gain hv (fun u _ huv => ?_) hnot hnow
    unfold Writer
    rw [Function.update_of_ne huv]
  omega

/-- **A step of node `v` to stage `x`.** Writers stay writers; whatever the step newly claims
has to be shown, the rest carries over. -/
theorem Gate.step (h : Gate g mem st)
    (hmono : ∀ k, (st v).wrote k = true → x.wrote k = true)
    (hreached : ∀ b, Inner g b → (mem'.barriers b).reached ≤ (mem.barriers b).reached
      ∨ (mem'.barriers b).reached ≤ Nat.count (Writer g (Function.update st v x) b) g.numNodes)
    (hwriting : ∀ b, Inner g b → ∀ k r, x = .at k (.writeReached r) → spot g v k = b →
      r ≤ Nat.count (Writer g st b) g.numNodes)
    (hopening : ∀ b, Inner g b → ∀ k pc, x = .at k pc → spot g v k = b → opens pc = true →
      Full g st b)
    (htokens : ∀ b, Inner g b → 0 < mem'.semval (mem'.barriers b).semaphore →
      0 < mem.semval (mem.barriers b).semaphore ∨ Full g st b)
    (hpast : Inner g v → x.past = true → (st v).past = true ∨ Full g st v) :
    Gate g mem' (Function.update st v x) where
  reached := by
    intro b hb
    have hle := count_writers_mono (g := g) hmono b
    have hold := h.reached b hb
    rcases hreached b hb with hr | hr
    · omega
    · exact hr
  writing := by
    intro b hb u hu k r hs hk
    have hle := count_writers_mono (g := g) hmono b
    by_cases huv : u = v
    · -- the thread that moves: what it is about to write or to open
      subst huv
      rw [Function.update_self] at hs
      have := hwriting b hb k r hs hk
      omega
    · rw [Function.update_of_ne huv] at hs
      have := h.writing b hb u hu k r hs hk
      omega
  opening := by
    intro b hb u hu k pc hs hk ho
    by_cases huv : u = v
    · subst huv
      rw [Function.update_self] at hs
      exact (hopening b hb k pc hs hk ho).mono hmono
    · rw [Function.update_of_ne huv] at hs
      exact (h.opening b hb u hu k pc hs hk ho).mono hmono
  tokens := by
    intro b hb hpos
    rcases htokens b hb hpos with hold | hfull
    · exact (h.tokens b hb hold).mono hmono
    · exact hfull.mono hmono
  past := by
    intro b hb hp
    by_cases hbv : b = v
    · subst hbv
      rw [Function.update_self] at hp
      rcases hpast hb hp with hold | hfull
      · exact (h.past b hb hold).mono hmono
      · exact hfull.mono hmono
    · rw [Function.update_of_ne hbv] at hp
      exact (h.past b hb hp).mono hmono

/-! ## Barrier calls -/

theorem wrote_move {pc pc' : BarrierPc} (hm : BarrierMove b mem pc mem' (.next pc'))
    (hw : wrote (some pc) = true) : wrote (some pc') = true := by
  cases hm with
  | unlockOp last op v _ => cases last <;> rfl
  | unlock _ => rfl
  | test => rfl
  | setRelease => rfl
  | release => rfl
  | releaseOp _ _ _ => rfl
  | reset => rfl
  | pass => rfl
  | _ => cases hw

theorem at_wrote_mono {k : Spot} {pc pc' : BarrierPc}
    (h : wrote (some pc) = true → wrote (some pc') = true) (k' : Spot)
    (hw : (Stage.at k pc).wrote k' = true) : (Stage.at k pc').wrote k' = true := by
  cases k <;> cases k'
  · exact h hw
  · exact hw
  · exact hw
  · exact h hw

/-- The barriers after a step at barrier `b`: only its `reached` may change. -/
theorem BarriersOk.move {pc : BarrierPc} {c : Ctl BarrierPc} (h : BarriersOk lo g mem)
    (hm : BarrierMove b mem pc mem' c) : BarriersOk lo g mem' := by
  have key : ∀ r, BarriersOk lo g (mem.setReached b r) := by
    intro r
    have hsame : ∀ b', (mem.setReached b r).barriers b'
        = { mem.barriers b' with reached := ((mem.setReached b r).barriers b').reached } := by
      intro b'
      by_cases hb : b' = b
      · subst hb
        simp [Mem.setReached]
      · simp [Mem.setReached, Function.update_of_ne hb]
    refine ⟨fun b' hb' => ?_, fun b' hb' => ?_, fun b' hb' => ?_, fun b' b'' hb' hb'' heq => ?_⟩
    · rw [hsame b']
      exact h.count b' hb'
    · rw [hsame b']
      exact h.mutex b' hb'
    · rw [hsame b']
      exact h.semaphore b' hb'
    · rw [hsame b', hsame b''] at heq
      exact h.distinct b' b'' hb' hb'' heq
  cases hm with
  | writeReached r => exact key (r + 1)
  | reset => exact key 0
  | _ => exact ⟨h.count, h.mutex, h.semaphore, h.distinct⟩

/-- An operation on the common mutex does not reach the barriers' semaphores. -/
theorem setMutex_semval (h : BarriersOk lo g mem) (hb : Inner g b) {b' : Nat} (hb' : Inner g b')
    (w : Nat) : (mem.setSem (mem.barriers b).mutexSemaphore w).semval (mem.barriers b').semaphore
      = mem.semval (mem.barriers b').semaphore := by
  have hne : (mem.barriers b').semaphore ≠ (mem.barriers b).mutexSemaphore := by
    rw [h.mutex b hb, BAR_SEM_KEY]
    have := (h.semaphore b' hb').1
    omega
  exact Function.update_of_ne hne _ _

/-- An operation on the semaphore of barrier `b` does not reach the others'. -/
theorem setTokens_semval (h : BarriersOk lo g mem) (hb : Inner g b) {b' : Nat} (hb' : Inner g b')
    (w : Nat) (hpos : 0 < (mem.setSem (mem.barriers b).semaphore w).semval
      (mem.barriers b').semaphore) :
    0 < mem.semval (mem.barriers b').semaphore ∨ b' = b := by
  by_cases hbb : b' = b
  · exact .inr hbb
  · have hne : (mem.barriers b').semaphore ≠ (mem.barriers b).semaphore := fun heq =>
      hbb (h.distinct b' b hb' hb heq)
    simp only [Mem.setSem, Function.update_of_ne hne] at hpos
    exact .inl hpos

theorem setReached_le (hb : Inner g b) {r : Int} {N : Nat → Int} (hle : r ≤ N b) (b' : Nat) :
    ((mem.setReached b r).barriers b').reached ≤ (mem.barriers b').reached
      ∨ ((mem.setReached b r).barriers b').reached ≤ N b' := by
  by_cases hbb : b' = b
  · subst hbb
    exact .inr (by simpa [Mem.setReached] using hle)
  · exact .inl (by simp [Mem.setReached, Function.update_of_ne hbb])

theorem setReached_tokens_pos {r : Int} (b' : Nat)
    (hpos : 0 < (mem.setReached b r).semval ((mem.setReached b r).barriers b').semaphore) :
    0 < mem.semval (mem.barriers b').semaphore := by
  by_cases hbb : b' = b
  · subst hbb
    simpa [Mem.setReached] using hpos
  · simpa [Mem.setReached, Function.update_of_ne hbb] using hpos

/-- Writers are participants, so all have written when `reached` is `count`. -/
theorem Gate.full_of_reached (h : Gate g mem st) (hB : BarriersOk lo g mem) (hb : Inner g b)
    (heq : (mem.barriers b).reached = (mem.barriers b).count) : Full g st b := by
  have hle := h.reached b hb
  rw [heq, hB.count b hb] at hle
  exact of_count_le (p := Writer g st b) (q := Participant g b)
    (fun u _ hw => hw.imp And.left And.left) (by exact_mod_cast hle)

/-- **A step at a barrier keeps the invariant.** -/
theorem gate_move {k : Spot} {pc pc' : BarrierPc} (hB : BarriersOk lo g mem) (h : Gate g mem st)
    (hv : v < g.numNodes) (hs : st v = .at k pc) (hk : spot g v k = b) (hb : Inner g b)
    (hother : ∀ k', spot g v k' = b → k' = k) (hm : BarrierMove b mem pc mem' (.next pc')) :
    Gate g mem' (Function.update st v (.at k pc')) := by
  have hmono : ∀ k', (st v).wrote k' = true → (Stage.at k pc').wrote k' = true := by
    rw [hs]
    exact at_wrote_mono (wrote_move hm)
  have hpast : Inner g v → (Stage.at k pc').past = true → (st v).past = true ∨ Full g st v := by
    intro _ hp
    rw [hs]
    exact .inl (by cases k <;> exact hp)
  -- whoever was opening barrier `b` knew that it is full
  have hfull : opens pc = true → Full g st b := fun ho => h.opening b hb v hv k pc hs hk ho
  have hopening : (opens pc' = true → Full g st b) → ∀ b', Inner g b' → ∀ k' p,
      Stage.at k pc' = .at k' p → spot g v k' = b' → opens p = true → Full g st b' := by
    intro hf b' _ k' p hx hk' ho
    cases hx
    have hbb : b' = b := by exact_mod_cast hk'.symm.trans hk
    exact hbb ▸ hf ho
  have hquiet : ∀ b', Inner g b' → (mem.barriers b').reached ≤ (mem.barriers b').reached
      ∨ (mem.barriers b').reached
        ≤ Nat.count (Writer g (Function.update st v (.at k pc')) b') g.numNodes :=
    fun b' _ => .inl le_rfl
  cases hm with
  | setPop =>
      exact h.step hmono hquiet (fun _ _ _ _ hx => nomatch hx) (hopening fun ho => nomatch ho)
        (fun _ _ hpos => .inl hpos) hpast
  | setVop =>
      exact h.step hmono hquiet (fun _ _ _ _ hx => nomatch hx) (hopening fun ho => nomatch ho)
        (fun _ _ hpos => .inl hpos) hpast
  | lock =>
      exact h.step hmono hquiet (fun _ _ _ _ hx => nomatch hx) (hopening fun ho => nomatch ho)
        (fun _ _ hpos => .inl hpos) hpast
  | lockOp op w _ =>
      refine h.step hmono hquiet (fun _ _ _ _ hx => nomatch hx) (hopening fun ho => nomatch ho)
        (fun b' hb' hpos => .inl ?_) hpast
      rwa [show (mem.setSem _ w).barriers = mem.barriers from rfl, setMutex_semval hB hb hb'] at hpos
  | readReached =>
      refine h.step hmono hquiet (fun b' hb' k' r hx hk' => ?_) (hopening fun ho => nomatch ho)
        (fun _ _ hpos => .inl hpos) hpast
      cases hx
      have hbb : b' = b := by exact_mod_cast hk'.symm.trans hk
      subst hbb
      exact h.reached b' hb'
  | writeReached r =>
      have hr := h.writing b hb v hv k r hs hk
      have hold : (st v).wrote k = false := by
        rw [hs]
        cases k <;> rfl
      have hnew : (Stage.at k .test).wrote k = true := by cases k <;> rfl
      have hlt := count_writers_lt hv hk hother hold hnew
      refine h.step hmono (fun b' _ => setReached_le hb (N := fun b' => (Nat.count
          (Writer g (Function.update st v (.at k .test)) b') g.numNodes : Int)) ?_ b')
        (fun _ _ _ _ hx => nomatch hx) (hopening fun ho => nomatch ho)
        (fun b' _ hpos => .inl (setReached_tokens_pos b' hpos)) hpast
      omega
  | test =>
      refine h.step hmono hquiet (fun _ _ _ _ hx => nomatch hx) (hopening fun ho => ?_)
        (fun _ _ hpos => .inl hpos) hpast
      by_cases heq : (mem.barriers b).reached = (mem.barriers b).count
      · exact h.full_of_reached hB hb heq
      · rw [decide_eq_false heq] at ho
        cases ho
  | unlock last =>
      refine h.step hmono hquiet (fun _ _ _ _ hx => nomatch hx) (hopening fun ho => hfull ?_)
        (fun _ _ hpos => .inl hpos) hpast
      cases last <;> exact ho
  | unlockOp last op w _ =>
      refine h.step hmono hquiet (fun b' _ k' r hx => ?_) (hopening fun ho => hfull ?_)
        (fun b' hb' hpos => .inl ?_) hpast
      · cases last <;> cases hx
      · cases last with
        | true => rfl
        | false => cases ho
      · rwa [show (mem.setSem _ w).barriers = mem.barriers from rfl,
          setMutex_semval hB hb hb'] at hpos
  | setRelease =>
      exact h.step hmono hquiet (fun _ _ _ _ hx => nomatch hx)
        (hopening fun _ => hfull rfl) (fun _ _ hpos => .inl hpos) hpast
  | release =>
      exact h.step hmono hquiet (fun _ _ _ _ hx => nomatch hx)
        (hopening fun _ => hfull rfl) (fun _ _ hpos => .inl hpos) hpast
  | releaseOp op w _ =>
      refine h.step hmono hquiet (fun _ _ _ _ hx => nomatch hx) (hopening fun ho => nomatch ho)
        (fun b' hb' hpos => ?_) hpast
      exact (setTokens_semval hB hb hb' w hpos).imp id fun hbb => by rw [hbb]; exact hfull rfl
  | reset =>
      refine h.step hmono (fun b' _ => setReached_le hb (N := fun b' => (Nat.count
          (Writer g (Function.update st v (.at k .pass)) b') g.numNodes : Int)) ?_ b')
        (fun _ _ _ _ hx => nomatch hx) (hopening fun ho => nomatch ho)
        (fun b' _ hpos => .inl (setReached_tokens_pos b' hpos)) hpast
      exact Int.natCast_nonneg _
  | pass =>
      exact h.step hmono hquiet (fun _ _ _ _ hx => nomatch hx) (hopening fun ho => nomatch ho)
        (fun _ _ hpos => .inl hpos) hpast

/-- Where a thread is when it is through a barrier. -/
def Spot.next : Spot → Stage
  | .own => .between
  | .parent => .after

/-- **A thread that gets through a barrier** has taken a token, so the barrier was full. -/
theorem gate_leave {k : Spot} {pc : BarrierPc} (hB : BarriersOk lo g mem) (h : Gate g mem st)
    (hs : st v = .at k pc) (hk : spot g v k = b) (hb : Inner g b)
    (hop : ∀ op, pc = .passOp op → op < 0) (hm : BarrierMove b mem pc mem' .ret) :
    Gate g mem' (Function.update st v k.next) := by
  cases hm with
  | passOp op w hsem =>
      have hfull : Full g st b := h.tokens b hb (pos_of_semop_neg (hop op rfl) hsem)
      refine h.step (fun k' hw => ?_) (fun _ _ => .inl le_rfl) (fun _ _ _ _ hx => ?_)
        (fun _ _ _ _ hx => ?_) (fun b' hb' hpos => ?_) (fun _ hp => ?_)
      · rw [hs] at hw
        cases k <;> cases k' <;> first | rfl | exact hw
      · cases k <;> cases hx
      · cases k <;> cases hx
      · exact (setTokens_semval hB hb hb' w hpos).imp id fun hbb => by rw [hbb]; exact hfull
      · cases k with
        | own =>
            have hvb : v = b := Int.ofNat.inj hk
            exact .inr (hvb ▸ hfull)
        | parent => exact .inl (by rw [hs]; rfl)

/-- Calls that leave the barriers alone keep the invariant. -/
theorem gate_benign (hB : BarriersOk lo g mem) (h : Gate g mem st) (hm : Benign lo mem mem') :
    Gate g mem' st where
  reached := by
    rw [hm.barriers]
    exact h.reached
  writing := h.writing
  opening := h.opening
  tokens := by
    intro b hb hpos
    have hsem := hB.semaphore b hb
    rw [hm.barriers, hm.semval _ (by unfold Outside; omega)] at hpos
    exact h.tokens b hb hpos
  past := h.past

theorem BarriersOk.benign (hB : BarriersOk lo g mem) (hm : Benign lo mem mem') :
    BarriersOk lo g mem' where
  count := by rw [hm.barriers]; exact hB.count
  mutex := by rw [hm.barriers]; exact hB.mutex
  semaphore := by rw [hm.barriers]; exact hB.semaphore
  distinct := by rw [hm.barriers]; exact hB.distinct

/-- A thread comes to a barrier, or goes past one that does not exist. -/
theorem gate_walk (h : Gate g mem st)
    (hmono : ∀ k, (st v).wrote k = true → x.wrote k = true)
    (hx : ∀ k pc, x = .at k pc → pc = .setPop)
    (hpast : Inner g v → x.past = true → (st v).past = true) :
    Gate g mem (Function.update st v x) := by
  refine h.step hmono (fun _ _ => .inl le_rfl) (fun b _ k r hxr _ => ?_) (fun b _ k pc hxp _ ho => ?_)
    (fun _ _ hpos => .inl hpos) (fun hi hp => .inl (hpast hi hp))
  · cases hx k _ hxr
  · rw [hx k pc hxp] at ho
    cases ho

end OSLab.Foothread
