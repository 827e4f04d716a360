import HVBench.Statistics.Attribution

/-! Statistics windows. The sending thread runs `accept`, which visits and then resets
the accumulators, each under the mutex, while the network threads record samples. -/
namespace HVBench
namespace OFLatencyStats
open AccMeanMinMax

/-- The program order of the sending thread: `accept` is `visit` and then `reset`. -/
def permitted (s : State) : Label → Bool
  | .sent _ _ => !s.visited
  | .visit => !s.visited
  | .reset => s.visited
  | _ => true

/-- A step of the system in which only `accept` visits and resets. -/
def acceptStep (s : State) (l : Label) : Option State :=
  if permitted s l then step s l else none

/-- The samples covered by some visit, with repetitions. -/
def reported (s : State) : List ℕ := s.reports.flatMap Report.positions

/-- Each sample was read by exactly one visit, or by none and is in the current window. -/
def ExactlyOnce (s : State) : Prop :=
  ∀ p, IsSample s.log p →
    (reported s).count p = 1 ∨ (reported s).count p = 0 ∧ p ∈ s.window

/-- No sample is recorded between a visit and the reset that follows it. -/
def RecordsOutsideGap (s : State) (l : Label) : Prop :=
  s.visited = true → ∀ n, l = .advance n →
    ∀ xid last tp, s.receivers n ≠ some (.matched xid last tp)

theorem Unrecorded.reported {s t : State} (h : Unrecorded s t) :
    reported t = OFLatencyStats.reported s := by
  rw [OFLatencyStats.reported, h.reports, OFLatencyStats.reported]

/-- Which samples are reported in which phase, as long as none falls into a gap. -/
structure Reporting (s : State) : Prop where
  accounted : Accounted s
  idle : s.visited = false → ∀ p, IsSample s.log p →
    (reported s).count p + s.window.count p = 1
  gap : s.visited = true → ∀ p, IsSample s.log p → (reported s).count p = 1

theorem reporting_init : Reporting State.init where
  accounted := accounted_init
  idle := by simp [State.init, IsSample]
  gap := by simp [State.init]

theorem Accounted.not_mem_reported {s : State} (h : Accounted s) :
    s.log.length ∉ reported s := by
  intro hp
  obtain ⟨r, hr, hp⟩ := List.mem_flatMap.mp hp
  exact absurd (h.reported_lt r hr _ hp) (by omega)

theorem acceptStep_some {s t : State} {l : Label} (h : acceptStep s l = some t) :
    permitted s l = true ∧ step s l = some t := by
  unfold acceptStep at h
  split_ifs at h with hp
  exact ⟨hp, h⟩

theorem reporting_step {s t : State} {l : Label} (h : Reporting s)
    (hC : RecordsOutsideGap s l) (ht : acceptStep s l = some t) : Reporting t := by
  obtain ⟨hp, ht⟩ := acceptStep_some ht
  have hacc := accounted_step h.accounted ht
  rcases account_cases ht with hsame | ⟨n, xid, last, tp, rfl, hn, rfl⟩ | ⟨rfl, rfl⟩ | ⟨rfl, rfl⟩
  · refine ⟨hacc, fun hv p hp => ?_, fun hv p hp => ?_⟩
    · rw [hsame.reported, hsame.window]
      exact h.idle (hsame.visited ▸ hv) p ((hsame.isSample_iff p).mp hp)
    · rw [hsame.reported]
      exact h.gap (hsame.visited ▸ hv) p ((hsame.isSample_iff p).mp hp)
  · have hnew : s.log.length ∉ s.window := fun hmem =>
      absurd (h.accounted.window_lt _ hmem) (by omega)
    have hidle : s.visited = false := by
      by_contra hv
      exact hC (by simpa using hv) n rfl xid last tp hn
    refine ⟨hacc, fun _ p hp => ?_, fun hv => absurd (hidle.symm.trans hv) (by simp)⟩
    change (reported s).count p + (s.window ++ [s.log.length]).count p = 1
    rw [List.count_append]
    rcases isSample_snoc_cases hp with hp | rfl
    · have hold := h.idle hidle p hp
      have hne : ([s.log.length].count p) = 0 := by
        rw [List.count_eq_zero, List.mem_singleton]
        exact Nat.ne_of_lt hp.lt
      omega
    · have hr := List.count_eq_zero.mpr h.accounted.not_mem_reported
      have hw := List.count_eq_zero.mpr hnew
      simp [hr, hw]
  · have hidle : s.visited = false := by simpa [permitted] using hp
    refine ⟨hacc, by simp, fun _ p hp => ?_⟩
    have hold := h.idle hidle p hp
    simpa [reported, List.flatMap_append, List.count_append] using hold
  · have hvisited : s.visited = true := by simpa [permitted] using hp
    refine ⟨hacc, fun _ p hp => ?_, by simp⟩
    change (reported s).count p + List.count p [] = 1
    rw [h.gap hvisited p hp, List.count_nil]

theorem Reporting.exactlyOnce {s : State} (h : Reporting s) : ExactlyOnce s := by
  intro p hp
  cases hv : s.visited with
  | true => exact Or.inl (h.gap hv p hp)
  | false =>
    have hsum := h.idle hv p hp
    by_cases hw : p ∈ s.window
    · have hcount := List.count_eq_one_of_mem h.accounted.window_nodup hw
      exact Or.inr ⟨by omega, hw⟩
    · have hcount := List.count_eq_zero.mpr hw
      exact Or.inl (by omega)

/-- A sample that fell into a gap: no visit read it and the next reset drops it. -/
def Dropped (s : State) : Prop :=
  ∃ p, IsSample s.log p ∧ p ∉ reported s ∧ (s.visited = true ∨ p ∉ s.window)

theorem dropped_of_gap {s t : State} {l : Label} (h : Accounted s)
    (hC : ¬ RecordsOutsideGap s l) (ht : acceptStep s l = some t) : Dropped t := by
  simp only [RecordsOutsideGap, not_forall, not_not] at hC
  obtain ⟨hv, n, rfl, xid, last, tp, hn⟩ := hC
  obtain ⟨-, ht⟩ := acceptStep_some ht
  obtain rfl : s.resume n (.matched xid last tp) = t := by simpa [step, hn] using ht
  refine ⟨s.log.length, ?_, h.not_mem_reported, Or.inl hv⟩
  exact ⟨xid, tp, last.type, latencyMicros tp last.tp, by simp [State.resume]⟩

theorem dropped_step {s t : State} {l : Label} (h : Dropped s)
    (ht : acceptStep s l = some t) : Dropped t := by
  obtain ⟨p, hp, hr, hw⟩ := h
  obtain ⟨hperm, ht⟩ := acceptStep_some ht
  rcases account_cases ht with hsame | ⟨n, xid, last, tp, rfl, hn, rfl⟩ | ⟨rfl, rfl⟩ | ⟨rfl, rfl⟩
  · refine ⟨p, (hsame.isSample_iff p).mpr hp, ?_, ?_⟩
    · rw [hsame.reported]
      exact hr
    · rw [hsame.visited, hsame.window]
      exact hw
  · refine ⟨p, hp.snoc _, hr, hw.imp_right fun hw hmem => ?_⟩
    rcases List.mem_append.mp hmem with hmem | hmem
    · exact hw hmem
    · exact absurd hp.lt (by rw [List.mem_singleton.mp hmem]; omega)
  · have hidle : s.visited = false := by simpa [permitted] using hperm
    have hout : p ∉ s.window := hw.resolve_left (by simp [hidle])
    refine ⟨p, hp, ?_, Or.inl rfl⟩
    simpa [reported, hout] using hr
  · exact ⟨p, hp, hr, Or.inr (by simp)⟩

theorem Dropped.not_exactlyOnce {s : State} (h : Dropped s) (hv : s.visited = false) :
    ¬ ExactlyOnce s := by
  obtain ⟨p, hp, hr, hw⟩ := h
  intro honce
  rcases honce p hp with hcount | ⟨-, hmem⟩
  · exact hr (List.count_pos_iff.mp (by omega))
  · exact hw.resolve_left (by simp [hv]) hmem

theorem exec_of_exec_acceptStep {s t : State} {ls : List Label}
    (h : Transition.exec acceptStep s ls = some t) : Transition.exec step s ls = some t :=
  Transition.exec_mono (fun _ _ _ h => (acceptStep_some h).2) h

/-- Each sample is reported in exactly one window if none is recorded between the visit
and the reset of an `accept`. Once `accept` has returned, one that was is lost. A visit
reads as many samples as it covers. -/
theorem exactlyOnce_iff (ls : List Label) (s : State) (hls : ∀ l ∈ ls, l.FromSendLoop)
    (h : Transition.exec acceptStep State.init ls = some s) :
    (∀ xid tp type v, .sample xid tp type v ∈ s.log → type ∈ OFPT.latencyTypes) ∧
    (∀ r ∈ s.reports, ∀ type ∈ OFPT.latencyTypes,
      r.read.lookup type = some (ofSamples (values s.log type r.positions)) ∧
        (ofSamples (values s.log type r.positions)).Keeps (values s.log type r.positions)) ∧
    (Transition.Meets acceptStep RecordsOutsideGap State.init ls → ExactlyOnce s) ∧
    (s.visited = false →
      (ExactlyOnce s ↔ Transition.Meets acceptStep RecordsOutsideGap State.init ls)) := by
  have hrun := exec_of_exec_acceptStep h
  have hreports : ∀ r ∈ s.reports, ∀ type ∈ OFPT.latencyTypes,
      r.read.lookup type = some (ofSamples (values s.log type r.positions)) ∧
        (ofSamples (values s.log type r.positions)).Keeps (values s.log type r.positions) :=
    fun r hr type htype => ⟨(accounted_exec hrun).reports r hr type htype, keeps_ofSamples _⟩
  have hmeets : Transition.Meets acceptStep RecordsOutsideGap State.init ls → ExactlyOnce s :=
    fun hC => (Transition.exec_invariant_of_meets
      (fun _ _ _ hs hC ht => reporting_step hs hC ht) reporting_init hC h).exactlyOnce
  refine ⟨(latencyTyped_exec hls hrun).sample, hreports, hmeets, fun hv =>
    ⟨fun honce => ?_, hmeets⟩⟩
  refine Transition.meets_of_exec (I := Accounted) (D := Dropped) (U := fun _ _ => True)
    ?_ ?_ ?_ accounted_init (Transition.meets_of_forall fun _ _ => trivial) h ?_
  · exact fun _ _ _ hs _ _ ht => accounted_step hs (acceptStep_some ht).2
  · exact fun _ _ _ hs _ hC ht => dropped_of_gap hs hC ht
  · exact fun _ _ _ hs ht => dropped_step hs ht
  · exact fun hd => hd.not_exactlyOnce hv honce

theorem exactlyOnce_iff_request :
    ∃ s, Transition.exec acceptStep State.init (requestAndReply ++ [.visit, .reset]) = some s ∧
      ExactlyOnce s := by
  obtain ⟨s, hs⟩ : ∃ s, Transition.exec acceptStep State.init
      (requestAndReply ++ [.visit, .reset]) = some s := ⟨_, rfl⟩
  have hls : ∀ l ∈ requestAndReply ++ [.visit, .reset], l.FromSendLoop := by
    intro l hl
    simp only [List.mem_append, List.mem_cons, List.not_mem_nil, or_false] at hl
    rcases hl with hl | rfl | rfl
    · exact requestAndReply_fromSendLoop l hl
    all_goals trivial
  refine ⟨s, hs, (exactlyOnce_iff _ s hls hs).2.2.1 ?_⟩
  simp [requestAndReply, Transition.Meets, RecordsOutsideGap, acceptStep, permitted, step,
    State.init, State.resume, create, OFLatencyStats.sent, OFLatencyStats.reset]

/-- A sample recorded between the visit and the reset of an `accept`. -/
def sampleInGap : List Label :=
  [.sent ⟨7, .echoRequest, 1000⟩ true, .received 0 7 .echoReply 5000, .advance 0, .visit,
    .advance 0, .reset]

theorem sample_in_gap_dropped :
    ¬ ∀ ls s, (∀ l ∈ ls, l.FromSendLoop) →
      Transition.exec acceptStep State.init ls = some s → ExactlyOnce s := by
  intro h
  have hls : ∀ l ∈ sampleInGap, l.FromSendLoop := by
    intro l hl
    simp only [sampleInGap, List.mem_cons, List.not_mem_nil, or_false] at hl
    rcases hl with rfl | rfl | rfl | rfl | rfl | rfl
    · exact echoRequest_fromSendLoop 7 1000 true
    all_goals trivial
  have honce := h sampleInGap _ hls rfl 1 ⟨7, 5000, .echoRequest, 4, by decide⟩
  exact absurd honce (by decide)

end OFLatencyStats
end HVBench
