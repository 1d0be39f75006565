import OSLab.Clinic.Event

set_option autoImplicit false

/-! # The event queue is a priority multiset

What the queue is for: it holds a multiset of events, takes events in, and gives out and
removes one that is least by key. `initEQ`, `addevent` and `delevent` refine this: the heap order is
kept (`EventQ.Ordered`), and each call moves `EventQ.events` as it should. Ties are broken as the
comparator happens to break them, so *some* least event is removed.
-/

namespace OSLab.Clinic

/-- A call that changes the queue. -/
inductive QueueCall
  | add (e : Event)
  | del

def EventQ.call (E : EventQ) : QueueCall → EventQ
  | .add e => addevent E e
  | .del => delevent E

/-- The queue after a sequence of calls. -/
def runCalls (E : EventQ) (calls : List QueueCall) : EventQ := calls.foldl EventQ.call E

/-- The heap order of the queue. -/
def EventQ.Ordered (E : EventQ) : Prop :=
  Heap.OrderedFrom (fun x y => x.key ≤ y.key) E.n E.Q 0

variable {E : EventQ}

/-! ## The operations, on the multiset -/

theorem initEQ_events (mem : Nat → Event) (records : List Event) :
    (initEQ mem records).events = records := by
  rw [EventQ.events, initEQ, Heap.contents_heapify]
  have hcell : Heap.contents records.length (readRecords mem records).Q
      = ((List.range records.length).map fun i => records.getD i (mem i)) := rfl
  rw [show (readRecords mem records).n = records.length from rfl, hcell]
  congr 1
  refine List.ext_getElem (by simp) fun i h₁ h₂ => ?_
  simp [h₂]

theorem initEQ_ordered (mem : Nat → Event) (records : List Event) :
    (initEQ mem records).Ordered :=
  Heap.orderedFrom_heapify less_comparator (Heap.orderedFrom_half _ _ _)

theorem addevent_events (E : EventQ) (e : Event) : (addevent E e).events = e ::ₘ E.events := by
  show Heap.contents (E.n + 1) (Heap.siftUp less E.n (Function.update E.Q E.n e) E.n) = _
  rw [Heap.contents_siftUp less _ _ (by omega), Heap.contents_succ, Function.update_self]
  congr 1
  exact Heap.contents_congr fun i hi => Function.update_of_ne (by omega) _ _

theorem addevent_ordered (h : E.Ordered) (e : Event) : (addevent E e).Ordered := by
  refine Heap.orderedFrom_siftUp (n := E.n + 1) less_comparator ⟨?_, ?_⟩ (by omega) le_rfl
  · intro c h0 hc hcn
    have hlt : c < E.n := by omega
    rw [Function.update_of_ne (by omega), Function.update_of_ne hcn]
    exact h c h0 hlt (by omega)
  · intro c h0 hc hp
    omega

/-- The front leaves, the rest stays. -/
theorem delevent_events (hn : E.n ≠ 0) : E.events = nextevent E ::ₘ (delevent E).events := by
  obtain ⟨m, hm⟩ : ∃ m, E.n = m + 1 := ⟨E.n - 1, by omega⟩
  have hnext : nextevent E = E.Q 0 := by simp [nextevent, hn]
  have hdel : (delevent E).events = Heap.contents m (Heap.swap E.Q 0 m) := by
    rw [EventQ.events, delevent, if_pos (by omega)]
    simp only [hm, Nat.add_sub_cancel]
    rw [Heap.contents_siftDown]
    refine Heap.contents_congr fun i hi => ?_
    by_cases h0 : i = 0
    · subst h0; rw [Function.update_self, Heap.swap_left _ (by omega)]
    · rw [Function.update_of_ne h0, Heap.swap_other _ h0 (by omega)]
  calc E.events
      = Heap.contents (m + 1) (Heap.swap E.Q 0 m) := by
        rw [Heap.contents_swap _ (by omega) (by omega), EventQ.events, hm]
    _ = E.Q 0 ::ₘ Heap.contents m (Heap.swap E.Q 0 m) := by
        rw [Heap.contents_succ, Heap.swap_right]
    _ = nextevent E ::ₘ (delevent E).events := by rw [hnext, hdel]

theorem delevent_ordered (h : E.Ordered) : (delevent E).Ordered := by
  unfold delevent
  split_ifs with hn
  · refine Heap.orderedFrom_siftDown (n := E.n - 1) less_comparator ⟨?_, ?_⟩ (by omega)
    · intro c h0 hc _ hp
      rw [Function.update_of_ne hp, Function.update_of_ne (by omega)]
      exact h c h0 (by omega) (by omega)
    · intro c _ _ _ h0
      omega
  · exact h

theorem nextevent_mem (hn : E.n ≠ 0) : nextevent E ∈ E.events := by
  rw [delevent_events hn]
  exact Multiset.mem_cons_self _ _

/-- **The front is least.** -/
theorem nextevent_le (h : E.Ordered) {e : Event} (he : e ∈ E.events) :
    (nextevent E).key ≤ e.key := by
  obtain ⟨i, hi, rfl⟩ := Heap.mem_contents.mp he
  rw [nextevent, if_neg (by omega)]
  exact Heap.root_le less_comparator h hi

theorem events_eq_zero_iff : E.events = 0 ↔ E.n = 0 := by
  rw [← Multiset.card_eq_zero, EventQ.events, Heap.contents, Multiset.card_map,
    Multiset.card_range]

/-! ## Cells above the queue stay -/

theorem addevent_frame (E : EventQ) (e : Event) {i : Nat} (hi : E.n < i) :
    (addevent E e).Q i = E.Q i := by
  show Heap.siftUp less E.n (Function.update E.Q E.n e) E.n i = E.Q i
  rw [Heap.siftUp_frame _ _ _ hi, Function.update_of_ne (by omega)]

theorem delevent_frame (E : EventQ) {i : Nat} (hi : E.n ≤ i) : (delevent E).Q i = E.Q i := by
  unfold delevent
  split_ifs with hn
  · show Heap.siftDown less (E.n - 1) (E.n - 1) _ 0 i = E.Q i
    rw [Heap.siftDown_frame _ _ _ _ _ (by omega), Function.update_of_ne (by omega)]
  · rfl

/-! ## Refinement -/

theorem call_ordered (h : E.Ordered) (c : QueueCall) : (E.call c).Ordered := by
  cases c with
  | add e => exact addevent_ordered h e
  | del => exact delevent_ordered h

theorem runCalls_ordered (h : E.Ordered) (calls : List QueueCall) :
    (runCalls E calls).Ordered := by
  induction calls generalizing E with
  | nil => exact h
  | cons c calls ih => exact ih (call_ordered h c)

/-- The events the calls put in. -/
def addedEvents : List QueueCall → Multiset Event
  | [] => 0
  | .add e :: calls => e ::ₘ addedEvents calls
  | .del :: calls => addedEvents calls

/-- The fronts at the `delevent` calls made on a non-empty queue. -/
def deletedFronts (E : EventQ) : List QueueCall → Multiset Event
  | [] => 0
  | .add e :: calls => deletedFronts (addevent E e) calls
  | .del :: calls =>
      if E.n = 0 then deletedFronts (delevent E) calls
      else nextevent E ::ₘ deletedFronts (delevent E) calls

theorem runCalls_events (E : EventQ) (calls : List QueueCall) :
    (runCalls E calls).events + deletedFronts E calls = E.events + addedEvents calls := by
  induction calls generalizing E with
  | nil => simp [runCalls, deletedFronts, addedEvents]
  | cons c calls ih =>
      have hrun : runCalls E (c :: calls) = runCalls (E.call c) calls := rfl
      rw [hrun]
      cases c with
      | add e =>
          rw [deletedFronts, addedEvents, EventQ.call, ih, addevent_events]
          simp
      | del =>
          rw [deletedFronts, addedEvents, EventQ.call]
          split_ifs with hn
          · have hdel : delevent E = E := by simp [delevent, hn]
            rw [ih, hdel]
          · rw [Multiset.add_cons, ih, delevent_events hn, Multiset.cons_add]

/-- **The event queue refines a priority multiset.** From any records and after any calls, the
events in `Q[0..n-1]` and the removed fronts are together the records and the added events, and
the front of a non-empty queue is one of its events and least by key. -/
theorem eventQueue_refines (mem : Nat → Event) (records : List Event) (calls : List QueueCall) :
    (runCalls (initEQ mem records) calls).events + deletedFronts (initEQ mem records) calls
        = records + addedEvents calls
      ∧ ((runCalls (initEQ mem records) calls).n ≠ 0 →
        nextevent (runCalls (initEQ mem records) calls)
            ∈ (runCalls (initEQ mem records) calls).events
          ∧ ∀ e ∈ (runCalls (initEQ mem records) calls).events,
            (nextevent (runCalls (initEQ mem records) calls)).key ≤ e.key) := by
  refine ⟨?_, fun hn => ⟨nextevent_mem hn, fun e he => ?_⟩⟩
  · rw [runCalls_events, initEQ_events]
  · exact nextevent_le (runCalls_ordered (initEQ_ordered mem records) calls) he

end OSLab.Clinic
