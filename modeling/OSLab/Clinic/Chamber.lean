import OSLab.Clinic.Schedule

set_option autoImplicit false

/-! # The doctor's chamber

On a day within the range of `int` the assistant waits for every visit, in every run
(`awaited_reachable`), and the turn goes round as `Handshake.lean` has it. What that says of the
chamber is `chamber_order`: one visitor at a time, in the order of the calls, and the clock stands
still from the call until the visitor has met the doctor. On a longer day the end of a visit may wrap
around to `0`, and the clock goes on during the visit (`clock_goes_on`).
-/

namespace OSLab.Clinic

open Pthread

variable {arrivals : List Arrival} {mem : Nat → Event} {s : Session} {a : AssistantPc} {d : DoctorPc}
  {b : Turn}

/-- A visitor called in who has not met the doctor is the one the assistant waits for. -/
theorem Handshake.waited_for (h : Handshake s a d b) {c : CalledIn} (hc : c ∈ s.data.called)
    {v : VisitorPc} (hv : s.place (.visitor c.kind c.token) = some v) (hs : v.stage ≠ .served) :
    s.data.called.getLast? = some c ∧ c.time = s.data.desk.currentTime := by
  have htokens := h.ring.tokens c.kind
  have hclass : c ∈ s.data.called.filter fun c' => c'.kind = c.kind :=
    List.mem_filter.mpr ⟨hc, by simp⟩
  have hle : c.token ≤ s.data.desk.current c.kind := by
    have hmem := List.mem_map_of_mem (f := CalledIn.token) hclass
    rw [htokens, List.mem_range'_1] at hmem
    omega
  have hexpects := h.visitors _ _ _ hv
  unfold Expects at hexpects
  rw [if_neg (by omega)] at hexpects
  split_ifs at hexpects with hcalled
  · -- the last call is of this class and has this token
    have hlast := h.ring.time c.kind hcalled.1
    have hmem := List.mem_of_getLast? hlast
    have hlast' : (⟨c.kind, s.data.desk.current c.kind, s.data.desk.currentTime⟩ : CalledIn)
        ∈ s.data.called.filter fun c' => c'.kind = c.kind :=
      List.mem_filter.mpr ⟨hmem, by simp⟩
    have hnodup : ((s.data.called.filter fun c' => c'.kind = c.kind).map CalledIn.token).Nodup := by
      rw [htokens]
      exact List.nodup_range'
    have heq := List.inj_on_of_nodup_map hnodup hclass hlast' hcalled.2
    exact ⟨heq ▸ hlast, congrArg CalledIn.time heq⟩
  · exact absurd hexpects hs

/-- **The chamber.** On a day within the range of `int`, in every state of every run: at most one visitor is between consuming
`doctor_enter` and setting `doctor_met`; the visitors consume `doctor_enter` in the order in which
they were called in; the doctor has announced as many visitors as have consumed it, or one more; and
as long as a visitor called in has not set `doctor_met`, the clock is as it was at the call. -/
theorem chamber_order (hdur : ∀ a ∈ arrivals, 0 < a.duration) (hfits : FitsDay arrivals)
    (h : (clinic mem arrivals).Reachable s) :
    (∀ k n k' n' v v', s.place (.visitor k n) = some v → s.place (.visitor k' n') = some v' →
        v.stage = .inside → v'.stage = .inside → k = k' ∧ n = n')
      ∧ s.data.entered <+: s.data.called.map CalledIn.visitor
      ∧ (s.data.hasNext = s.data.entered.length ∨ s.data.hasNext = s.data.entered.length + 1)
      ∧ ∀ c ∈ s.data.called, ∀ v, s.place (.visitor c.kind c.token) = some v →
        v.stage ≠ .served → s.data.desk.currentTime = c.time := by
  obtain ⟨a, d, b, hs⟩ := handshake_reachable (awaited_reachable hdur hfits h)
  refine ⟨fun k n k' n' v v' hv hv' hin hin' => ?_, ?_, ?_, fun c hc v hv hserved => ?_⟩
  · obtain ⟨hC, hn, -⟩ := (hs.visitors k n v hv).called (by rw [hin]; nofun) (by rw [hin]; nofun)
    obtain ⟨hC', hn', -⟩ :=
      (hs.visitors k' n' v' hv').called (by rw [hin']; nofun) (by rw [hin']; nofun)
    obtain rfl : k = k' := Option.some.inj (hC.symm.trans hC')
    exact ⟨rfl, hn.trans hn'.symm⟩
  · exact ⟨_, hs.ring.entered.symm⟩
  · have hprinted := hs.ring.printed
    unfold expected at hprinted
    split_ifs at hprinted
    · exact .inr hprinted
    · exact .inl hprinted
  · exact (hs.waited_for hc hv hserved).2.symm

/-- The second visitor is with the doctor. -/
theorem chamber_order_two :
    ∃ s : Session, (clinic (fun _ => ⟨'E', 0, 0⟩) twoVisitors).Reachable s
      ∧ s.data.entered = [(.patient, 1), (.reporter, 1)] ∧ s.data.hasNext = 2
      ∧ s.data.entered <+: s.data.called.map CalledIn.visitor := by
  obtain ⟨s, hs, hp⟩ := (clinic (fun _ => ⟨'E', 0, 0⟩) twoVisitors).exists_reachable_of_exec
    (l := patientVisit ++ List.replicate 9 (.doctor, none)
      ++ List.replicate 6 (.visitor .reporter 1, none))
    (p := fun s => decide (s.data.entered = [(.patient, 1), (.reporter, 1)] ∧ s.data.hasNext = 2))
    rfl (by decide +kernel)
  have hp' := of_decide_eq_true hp
  exact ⟨s, hs, hp'.1, hp'.2, (chamber_order (by decide) (by decide) hs).2.1⟩

/-- Two patients come at the same time. One visit ends at `-2147483647` and the next one at `0`. The
third patient comes later. -/
def longDay : List Arrival :=
  [⟨.patient, 2147483644, 2147483647⟩, ⟨.patient, 2147483644, 5⟩, ⟨.patient, 2147483647, 1⟩]

/-- The assistant does not wait for the second visit: the third patient arrives, and the clock goes
on, before the second one has met the doctor. -/
theorem clock_goes_on :
    (∀ a ∈ longDay, Text.IsInt a.time ∧ Text.IsInt a.duration ∧ 0 < a.duration)
      ∧ ∃ s : Session, (clinic (fun _ => ⟨'E', 0, 0⟩) longDay).Reachable s
        ∧ ∃ c ∈ s.data.called, ∃ v, s.place (.visitor c.kind c.token) = some v
          ∧ v.stage ≠ .served ∧ s.data.desk.currentTime ≠ c.time := by
  obtain ⟨s, hs, hp⟩ := (clinic (fun _ => ⟨'E', 0, 0⟩) longDay).exists_reachable_of_exec
    (l := List.replicate 15 (.assistant, none) ++ List.replicate 9 (.doctor, none)
      ++ List.replicate 11 (.visitor .patient 1, none) ++ List.replicate 8 (.doctor, none)
      ++ List.replicate 16 (.assistant, none))
    (p := fun s => decide (⟨.patient, 2, -2147483647⟩ ∈ s.data.called
      ∧ s.place (.visitor .patient 2) = some (.own .lock)
      ∧ s.data.desk.currentTime = 2147483647)) rfl (by decide +kernel)
  obtain ⟨hcalled, hplace, htime⟩ := of_decide_eq_true hp
  exact ⟨by decide, s, hs, ⟨.patient, 2, -2147483647⟩, hcalled, .own .lock, hplace, by decide,
    by rw [htime]; decide⟩

end OSLab.Clinic
