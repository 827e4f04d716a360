import HVBench.Library.Holding
import HVBench.Statistics.Interleaving

/-! The accounts of the samples: what the accumulators and the visits hold, against the
samples in the log. -/
namespace HVBench
namespace OFLatencyStats
open AccMeanMinMax
open Holding (getElem?_snoc getElem?_snoc_of)

def IsSample (log : List Entry) (p : ℕ) : Prop :=
  ∃ xid tp type v, log[p]? = some (.sample xid tp type v)

theorem isSample_snoc_cases {log : List Entry} {e : Entry} {p : ℕ}
    (h : IsSample (log ++ [e]) p) : IsSample log p ∨ p = log.length := by
  obtain ⟨xid, tp, type, v, hv⟩ := h
  rcases getElem?_snoc hv with hv | ⟨hp, -⟩
  · exact Or.inl ⟨xid, tp, type, v, hv⟩
  · exact Or.inr hp

theorem IsSample.snoc {log : List Entry} {p : ℕ} (h : IsSample log p) (e : Entry) :
    IsSample (log ++ [e]) p := by
  obtain ⟨xid, tp, type, v, hv⟩ := h
  exact ⟨xid, tp, type, v, getElem?_snoc_of hv⟩

theorem IsSample.lt {log : List Entry} {p : ℕ} (h : IsSample log p) : p < log.length := by
  obtain ⟨xid, tp, type, v, hv⟩ := h
  exact (List.getElem?_eq_some_iff.mp hv).1

/-- The value of the sample at a log position, if it is one of the given type. -/
def valueAt (log : List Entry) (type : OFPT) (p : ℕ) : Option ℤ :=
  match log[p]? with
  | some (.sample _ _ type' v) => if type' = type then some v else none
  | _ => none

def values (log : List Entry) (type : OFPT) (positions : List ℕ) : List ℤ :=
  positions.filterMap (valueAt log type)

/-- The values of all samples of a type. -/
def allValues (log : List Entry) (type : OFPT) : List ℤ :=
  values log type (List.range log.length)

theorem values_snoc_log {log : List Entry} {positions : List ℕ} (e : Entry) (type : OFPT)
    (h : ∀ p ∈ positions, p < log.length) :
    values (log ++ [e]) type positions = values log type positions := by
  refine List.filterMap_congr fun p hp => ?_
  unfold valueAt
  rw [List.getElem?_append_left (h p hp)]

theorem allValues_snoc (log : List Entry) (e : Entry) (type : OFPT) :
    allValues (log ++ [e]) type =
      allValues log type ++ (valueAt (log ++ [e]) type log.length).toList := by
  unfold allValues
  rw [List.length_append, List.length_singleton, List.range_succ]
  unfold values
  rw [List.filterMap_append]
  congr 1
  exact values_snoc_log e type fun p hp => List.mem_range.mp hp

theorem allValues_snoc_sent (log : List Entry) (m : SentMsg) (type : OFPT) :
    allValues (log ++ [.sent m]) type = allValues log type := by
  simp [allValues_snoc, valueAt]

/-- The step adds no sample: it moves a call on or logs a request. -/
structure Unrecorded (s t : State) : Prop where
  log : t.log = s.log ∨ ∃ m, t.log = s.log ++ [.sent m]
  stats : t.stats.statsLatency = s.stats.statsLatency
  window : t.window = s.window
  reports : t.reports = s.reports
  visited : t.visited = s.visited

/-- What a step does to the samples and to their accounts. -/
theorem account_cases {s t : State} {l : Label} (ht : step s l = some t) :
    Unrecorded s t ∨
    (∃ n xid last tp, l = .advance n ∧ s.receivers n = some (.matched xid last tp) ∧
      t = s.resume n (.matched xid last tp)) ∨
    (l = .visit ∧ t = { s with
      reports := s.reports ++ [⟨s.stats.statsLatency, s.window⟩]
      visited := true }) ∨
    (l = .reset ∧ t = { s with stats := s.stats.reset, window := [], visited := false }) := by
  cases l with
  | sent m accepted =>
    obtain rfl := Option.some.inj ht
    refine Or.inl ⟨Or.inr ⟨m, rfl⟩, ?_, rfl, rfl, rfl⟩
    cases accepted <;> rfl
  | received n xid type tp =>
    simp only [step] at ht
    split_ifs at ht
    obtain rfl := Option.some.inj ht
    exact Or.inl ⟨Or.inl rfl, rfl, rfl, rfl, rfl⟩
  | advance n =>
    rcases advance_cases ht with ⟨xid, tp, hn, hw, rfl⟩ |
      ⟨xid, tp, last, rest, hn, hw, hx, rfl⟩ | ⟨xid, tp, last, rest, hn, hw, hx, rfl⟩ |
      ⟨xid, last, tp, hn, rfl⟩
    · exact Or.inl ⟨Or.inl rfl, rfl, rfl, rfl, rfl⟩
    · exact Or.inl ⟨Or.inl rfl, rfl, rfl, rfl, rfl⟩
    · exact Or.inl ⟨Or.inl rfl, rfl, rfl, rfl, rfl⟩
    · exact Or.inr (Or.inl ⟨n, xid, last, tp, rfl, hn, rfl⟩)
  | visit =>
    obtain rfl := Option.some.inj ht
    exact Or.inr (Or.inr (Or.inl ⟨rfl, rfl⟩))
  | reset =>
    obtain rfl := Option.some.inj ht
    exact Or.inr (Or.inr (Or.inr ⟨rfl, rfl⟩))

namespace Unrecorded

theorem length_le {s t : State} (h : Unrecorded s t) : s.log.length ≤ t.log.length := by
  rcases h.log with hlog | ⟨m, hlog⟩
  · rw [hlog]
  · rw [hlog, List.length_append]
    omega

theorem values {s t : State} (h : Unrecorded s t) {positions : List ℕ} (type : OFPT)
    (hlt : ∀ p ∈ positions, p < s.log.length) :
    values t.log type positions = OFLatencyStats.values s.log type positions := by
  rcases h.log with hlog | ⟨m, hlog⟩
  · rw [hlog]
  · rw [hlog, values_snoc_log _ type hlt]

theorem allValues {s t : State} (h : Unrecorded s t) (type : OFPT) :
    allValues t.log type = OFLatencyStats.allValues s.log type := by
  rcases h.log with hlog | ⟨m, hlog⟩
  · rw [hlog]
  · rw [hlog, allValues_snoc_sent]

theorem isSample_iff {s t : State} (h : Unrecorded s t) (p : ℕ) :
    IsSample t.log p ↔ IsSample s.log p := by
  rcases h.log with hlog | ⟨m, hlog⟩
  · rw [hlog]
  · rw [hlog]
    constructor
    · rintro ⟨xid, tp, type, v, hv⟩
      rcases getElem?_snoc hv with hv | ⟨-, hv⟩
      · exact ⟨xid, tp, type, v, hv⟩
      · cases hv
    · rintro ⟨xid, tp, type, v, hv⟩
      exact ⟨xid, tp, type, v, getElem?_snoc_of hv⟩

end Unrecorded

/-- The accumulators hold the samples of the window, each once, and each visit read those
of its own. `reset` does not know the accumulators of further types, which hold all
samples. -/
structure Accounted (s : State) : Prop where
  window_nodup : s.window.Nodup
  window_lt : ∀ p ∈ s.window, p < s.log.length
  reported_lt : ∀ r ∈ s.reports, ∀ p ∈ r.positions, p < s.log.length
  window : ∀ type ∈ OFPT.latencyTypes,
    s.stats.statsLatency.lookup type = some (ofSamples (values s.log type s.window))
  others : ∀ type, type ∉ OFPT.latencyTypes →
    s.stats.statsLatency.getD type .empty = ofSamples (allValues s.log type)
  reports : ∀ r ∈ s.reports, ∀ type ∈ OFPT.latencyTypes,
    r.read.lookup type = some (ofSamples (values s.log type r.positions))

theorem accounted_init : Accounted State.init where
  window_nodup := List.nodup_nil
  window_lt := by simp [State.init]
  reported_lt := by simp [State.init]
  window type htype := by
    have hlookup := StdMap.lookup_assign ∅ OFPT.latencyTypes AccMeanMinMax.empty type
    rw [if_pos htype] at hlookup
    exact hlookup
  others type htype := by
    have hlookup := StdMap.lookup_assign ∅ OFPT.latencyTypes AccMeanMinMax.empty type
    rw [if_neg htype] at hlookup
    change StdMap.getD (StdMap.assign ∅ _ _) _ _ = _
    rw [StdMap.getD, hlookup]
    rfl
  reports := by simp [State.init]

theorem Accounted.unrecorded {s t : State} (h : Accounted s) (hs : Unrecorded s t) :
    Accounted t where
  window_nodup := hs.window ▸ h.window_nodup
  window_lt p hp := Nat.lt_of_lt_of_le (h.window_lt p (hs.window ▸ hp)) hs.length_le
  reported_lt r hr p hp :=
    Nat.lt_of_lt_of_le (h.reported_lt r (hs.reports ▸ hr) p hp) hs.length_le
  window type htype := by
    rw [hs.stats, hs.window, hs.values type h.window_lt]
    exact h.window type htype
  others type htype := by
    rw [hs.stats, hs.allValues type]
    exact h.others type htype
  reports r hr type htype := by
    have hr' : r ∈ s.reports := hs.reports ▸ hr
    rw [hs.values type (h.reported_lt r hr')]
    exact h.reports r hr' type htype

theorem Accounted.record {s : State} (h : Accounted s) (n : ℕ) (xid : UInt32)
    (last : SentMsg) (tp : TimePoint) : Accounted (s.resume n (.matched xid last tp)) where
  window_nodup := by
    change (s.window ++ [s.log.length]).Nodup
    rw [List.nodup_append]
    refine ⟨h.window_nodup, List.nodup_singleton _, fun p hp q hq hpq => ?_⟩
    have hlt := h.window_lt p hp
    rw [hpq, List.mem_singleton.mp hq] at hlt
    exact Nat.lt_irrefl _ hlt
  window_lt p hp := by
    simp only [State.resume, List.length_append, List.mem_append, List.mem_singleton,
      List.length_singleton] at hp ⊢
    rcases hp with hp | rfl
    · exact Nat.lt_add_right 1 (h.window_lt p hp)
    · omega
  reported_lt r hr p hp := by
    simp only [State.resume, List.length_append]
    exact Nat.lt_add_right _ (h.reported_lt r hr p hp)
  window type htype := by
    have hold := h.window type htype
    simp only [State.resume, Receiver.advance, record_statsLatency]
    simp only [values, List.filterMap_append]
    rw [← values, values_snoc_log _ type h.window_lt]
    by_cases hlast : type = last.type
    · subst hlast
      rw [StdMap.lookup_modify]
      simp [StdMap.getD, hold, valueAt, ofSamples_snoc]
    · rw [StdMap.lookup_modify_ne _ _ hlast, hold]
      simp [valueAt, Ne.symm hlast]
  others type htype := by
    have hold := h.others type htype
    simp only [State.resume, Receiver.advance, record_statsLatency, allValues_snoc]
    by_cases hlast : type = last.type
    · subst hlast
      rw [StdMap.getD_modify, hold]
      simp [valueAt, ofSamples_snoc]
    · rw [StdMap.getD_modify_ne _ _ hlast, hold]
      simp [valueAt, Ne.symm hlast]
  reports r hr type htype := by
    simp only [State.resume]
    rw [values_snoc_log _ type (h.reported_lt r hr)]
    exact h.reports r hr type htype

theorem accounted_step {s t : State} {l : Label} (h : Accounted s) (ht : step s l = some t) :
    Accounted t := by
  rcases account_cases ht with hsame | ⟨n, xid, last, tp, -, -, rfl⟩ | ⟨-, rfl⟩ | ⟨-, rfl⟩
  · exact h.unrecorded hsame
  · exact h.record n xid last tp
  · refine ⟨h.window_nodup, h.window_lt, fun r hr p hp => ?_, h.window, h.others,
      fun r hr type htype => ?_⟩
    · rcases List.mem_append.mp hr with hr | hr
      · exact h.reported_lt r hr p hp
      · obtain rfl := List.mem_singleton.mp hr
        exact h.window_lt p hp
    · rcases List.mem_append.mp hr with hr | hr
      · exact h.reports r hr type htype
      · obtain rfl := List.mem_singleton.mp hr
        exact h.window type htype
  · refine ⟨List.nodup_nil, by simp, h.reported_lt, fun type htype => ?_, fun type htype => ?_,
      h.reports⟩
    · simp only [OFLatencyStats.reset, StdMap.lookup_assign, if_pos htype]
      rfl
    · have hold := h.others type htype
      simp only [OFLatencyStats.reset, StdMap.getD, StdMap.lookup_assign, if_neg htype]
      exact hold

theorem accounted_exec {ls : List Label} {s : State}
    (h : Transition.exec step State.init ls = some s) : Accounted s :=
  Transition.exec_invariant (fun _ _ _ hs ht => accounted_step hs ht) accounted_init h

end OFLatencyStats
end HVBench
