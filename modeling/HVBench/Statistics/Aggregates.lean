import HVBench.Statistics.Collector
import HVBench.Statistics.Windows
import Mathlib.Algebra.Order.BigOperators.Group.List
import Mathlib.Algebra.Order.Ring.Int
import Mathlib.Data.Nat.Cast.Basic
import Mathlib.Tactic.Ring

/-! What the collector writes for the samples of a window. The sum is kept in
`uint32_t`, so the mean is that of the samples only as long as nothing is lost. -/
namespace HVBench
namespace OFLatencyStats
open AccMeanMinMax Collector

/-- Least sample, rounded mean and greatest sample of a window. -/
structure Summarises (vs : List ℤ) (lo mean hi : ℤ) : Prop where
  lo_mem : lo ∈ vs
  lo_le : ∀ v ∈ vs, lo ≤ v
  hi_mem : hi ∈ vs
  le_hi : ∀ v ∈ vs, v ≤ hi
  lo_le_mean : lo ≤ mean
  mean_le_hi : mean ≤ hi
  mean_eq : mean = vs.sum / vs.length

/-- A quotient does not see the multiples of `m` that the dividend loses if they fit into
its remainder. -/
theorem emod_ediv_eq_iff {s n m : ℤ} (hs : 0 ≤ s) (hn : 0 < n) (hm : 0 < m) :
    (s % m) / n = s / n ↔ s / m * m ≤ s % n := by
  have hlost : s % m = s - s / m * m := by
    have hdiv := Int.emod_add_mul_ediv s m
    rw [mul_comm (s / m) m]
    omega
  have hquot : s = s / n * n + s % n := by
    have hdiv := Int.emod_add_mul_ediv s n
    rw [mul_comm (s / n) n]
    omega
  have hpos : 0 ≤ s / m * m := mul_nonneg (Int.ediv_nonneg hs hm.le) hm.le
  have hrem : s % n < n := Int.emod_lt_of_pos s hn
  have hsucc : (s / n + 1) * n = s / n * n + n := by ring
  constructor
  · intro h
    have hle : s / n * n ≤ s % m := (Int.le_ediv_iff_mul_le hn).mp h.ge
    omega
  · intro h
    have hle : s / n ≤ s % m / n := (Int.le_ediv_iff_mul_le hn).mpr (by omega)
    have hlt : s % m / n < s / n + 1 := (Int.ediv_lt_iff_lt_mul hn).mpr (by omega)
    omega

theorem length_mul_le_sum {vs : List ℤ} {lo : ℤ} (h : ∀ v ∈ vs, lo ≤ v) :
    lo * vs.length ≤ vs.sum := by
  have hsum := List.card_nsmul_le_sum vs lo h
  rw [nsmul_eq_mul, mul_comm] at hsum
  exact hsum

theorem sum_le_length_mul {vs : List ℤ} {hi : ℤ} (h : ∀ v ∈ vs, v ≤ hi) :
    vs.sum ≤ hi * vs.length := by
  have hsum := List.sum_le_card_nsmul vs hi h
  rw [nsmul_eq_mul, mul_comm] at hsum
  exact hsum

/-- The accumulators summarise their samples exactly if the quotient by the number of
samples misses what the sum has lost. -/
theorem summarises_ofSamples_iff {vs : List ℤ} (hne : vs ≠ [])
    (hrange : ∀ v ∈ vs, InRange v) :
    Summarises vs (ofSamples vs).min (ofSamples vs).mean (ofSamples vs).max ↔
      vs.sum / UInt32.size * UInt32.size ≤ vs.sum % vs.length := by
  have hlength : (0 : ℤ) < vs.length := by
    exact_mod_cast List.length_pos_iff.mpr hne
  have hsum : 0 ≤ vs.sum := List.sum_nonneg fun v hv => (hrange v hv).1
  have hmean : (ofSamples vs).mean = vs.sum % UInt32.size / vs.length := by
    rw [mean, sum_ofSamples, count_ofSamples, uint32]
  rw [← emod_ediv_eq_iff hsum hlength (by decide), ← hmean]
  constructor
  · exact fun h => h.mean_eq
  · intro h
    obtain ⟨hlomem, hlo⟩ := List.min?_eq_some_iff.mp (min?_eq_ofSamples hne hrange)
    obtain ⟨hhimem, hhi⟩ := List.max?_eq_some_iff.mp (max?_eq_ofSamples hne hrange)
    refine ⟨hlomem, hlo, hhimem, hhi, ?_, ?_, h⟩
    · rw [h]
      exact (Int.le_ediv_iff_mul_le hlength).mpr (length_mul_le_sum hlo)
    · rw [h]
      have hle := Int.ediv_le_ediv hlength (sum_le_length_mul hhi)
      rwa [Int.mul_ediv_cancel _ hlength.ne'] at hle

/-- What a visit reads has entries for types with names only. -/
theorem read_named {ls : List Label} {s : State} (hls : ∀ l ∈ ls, l.FromSendLoop)
    (h : Transition.exec step State.init ls = some s) :
    ∀ r ∈ s.reports, ∀ k ∈ r.read, k.str.isSome := by
  refine (Transition.exec_invariant_of_meets (C := fun (_ : State) (l : Label) => l.FromSendLoop)
    (I := fun s => LatencyTyped s ∧ ∀ r ∈ s.reports, ∀ k ∈ r.read, k.str.isSome)
    (fun s l t hs hl ht => ?_) ⟨latencyTyped_init, by simp [State.init]⟩
    (Transition.meets_of_forall hls) h).2
  refine ⟨latencyTyped_step hs.1 hl ht, fun r hr k hk => ?_⟩
  rcases account_cases ht with hsame | ⟨n, xid, last, tp, -, -, rfl⟩ | ⟨-, rfl⟩ | ⟨-, rfl⟩
  · exact hs.2 r (hsame.reports ▸ hr) k hk
  · exact hs.2 r hr k hk
  · rcases List.mem_append.mp hr with hr | hr
    · exact hs.2 r hr k hk
    · obtain rfl := List.mem_singleton.mp hr
      exact OFPT.str_isSome_of_mem_reqTypes
        (OFPT.latencyTypes_subset_reqTypes ((hs.1.keys k).mp hk))
  · exact hs.2 r hr k hk

/-- What a visit writes for a type with samples in its window. -/
theorem report_hasLatency {ls : List Label} {s : State} (hls : ∀ l ∈ ls, l.FromSendLoop)
    (h : Transition.exec step State.init ls = some s) (st : Statistics) {r : Report}
    (hr : r ∈ s.reports) {type : OFPT} (htype : type ∈ OFPT.latencyTypes)
    {name : StdString} (hname : type.str = some name)
    (hne : values s.log type r.positions ≠ []) :
    ∃ st', visitLatency st r.read = some st' ∧
      HasLatency st' name (ofSamples (values s.log type r.positions)).min
        (ofSamples (values s.log type r.positions)).mean
        (ofSamples (values s.log type r.positions)).max := by
  have hacc : Accounted s :=
    Transition.exec_invariant (fun _ _ _ hs ht => accounted_step hs ht) accounted_init h
  refine visitLatency_hasLatency (read_named hls h r hr) hname (hacc.reports r hr type htype) ?_ st
  rw [count_ofSamples]
  exact (List.length_pos_iff.mpr hne).ne'

/-- The record of a visit summarises the samples of its window if and only if what their
sum loses in `uint32_t` is at most its remainder by their number. A sum below 2^32 loses
nothing. -/
theorem window_aggregates (ls : List Label) (s : State) (hls : ∀ l ∈ ls, l.FromSendLoop)
    (h : Transition.exec step State.init ls = some s) (st : Statistics) (r : Report)
    (hr : r ∈ s.reports) (type : OFPT) (htype : type ∈ OFPT.latencyTypes)
    (hne : values s.log type r.positions ≠ [])
    (hrange : ∀ v ∈ values s.log type r.positions, InRange v) :
    ∃ name st' lo mean hi, type.str = some name ∧ visitLatency st r.read = some st' ∧
      HasLatency st' name lo mean hi ∧
      (Summarises (values s.log type r.positions) lo mean hi ↔
        (values s.log type r.positions).sum / UInt32.size * UInt32.size ≤
          (values s.log type r.positions).sum % (values s.log type r.positions).length) := by
  obtain ⟨name, hname⟩ := Option.isSome_iff_exists.mp
    (OFPT.str_isSome_of_mem_reqTypes (OFPT.latencyTypes_subset_reqTypes htype))
  obtain ⟨st', hst', hlatency⟩ := report_hasLatency hls h st hr htype hname hne
  exact ⟨name, st', _, _, _, hname, hst', hlatency, summarises_ofSamples_iff hne hrange⟩

/-- Two requests, each answered after the time given for it, and a visit. -/
def twoReplies (latency₁ latency₂ : TimePoint) : List Label :=
  [.sent ⟨1, .echoRequest, 0⟩ true, .sent ⟨2, .echoRequest, 0⟩ true,
    .received 0 1 .echoReply latency₁, .advance 0, .advance 0,
    .received 0 2 .echoReply latency₂, .advance 0, .advance 0, .visit]

theorem twoReplies_fromSendLoop (latency₁ latency₂ : TimePoint) :
    ∀ l ∈ twoReplies latency₁ latency₂, l.FromSendLoop := by
  intro l hl
  simp only [twoReplies, List.mem_cons, List.not_mem_nil, or_false] at hl
  rcases hl with rfl | rfl | rfl | rfl | rfl | rfl | rfl | rfl | rfl
  · exact echoRequest_fromSendLoop 1 0 true
  · exact echoRequest_fromSendLoop 2 0 true
  all_goals trivial

theorem exec_twoReplies (latency₁ latency₂ : TimePoint) :
    ∃ s r, Transition.exec step State.init (twoReplies latency₁ latency₂) = some s ∧
      r ∈ s.reports ∧ values s.log .echoRequest r.positions =
        [latencyMicros latency₁ 0, latencyMicros latency₂ 0] :=
  ⟨_, _, rfl, List.mem_singleton_self _, rfl⟩

theorem window_aggregates_two :
    ∃ s r, Transition.exec step State.init (twoReplies 3000 6000) = some s ∧
      r ∈ s.reports ∧ ∃ name st' lo mean hi, OFPT.echoRequest.str = some name ∧
        visitLatency ∅ r.read = some st' ∧ HasLatency st' name lo mean hi ∧
        Summarises [3, 6] lo mean hi := by
  obtain ⟨s, r, hs, hr, hvalues⟩ := exec_twoReplies 3000 6000
  have hvs : values s.log .echoRequest r.positions = [3, 6] := hvalues
  have hrange : ∀ v ∈ values s.log .echoRequest r.positions, InRange v := by
    rw [hvs]
    unfold InRange
    decide
  obtain ⟨name, st', lo, mean, hi, hname, hst', hlatency, hiff⟩ :=
    window_aggregates _ s (twoReplies_fromSendLoop 3000 6000) hs ∅ r hr .echoRequest
      (by decide) (by simp [hvs]) hrange
  rw [hvs] at hiff
  exact ⟨s, r, hs, hr, name, st', lo, mean, hi, hname, hst', hlatency, hiff.mpr (by decide)⟩

/-- Two replies after 2^31 microseconds each. The mean that is written is 0. -/
theorem window_aggregates_overflow :
    ¬ ∀ ls s st r type name st' lo mean hi, (∀ l ∈ ls, l.FromSendLoop) →
      Transition.exec step State.init ls = some s → r ∈ s.reports →
      type ∈ OFPT.latencyTypes → values s.log type r.positions ≠ [] →
      (∀ v ∈ values s.log type r.positions, InRange v) → type.str = some name →
      visitLatency st r.read = some st' → HasLatency st' name lo mean hi →
      Summarises (values s.log type r.positions) lo mean hi := by
  intro h
  obtain ⟨s, r, hs, hr, hvalues⟩ := exec_twoReplies 2147483648000 2147483648000
  have hvs : values s.log .echoRequest r.positions = [2147483648, 2147483648] := hvalues
  have hls := twoReplies_fromSendLoop 2147483648000 2147483648000
  have hne : values s.log .echoRequest r.positions ≠ [] := by simp [hvs]
  have hrange : ∀ v ∈ values s.log .echoRequest r.positions, InRange v := by
    rw [hvs]
    unfold InRange
    decide
  have hname : OFPT.echoRequest.str = some "ECHO_REQUEST".toList := rfl
  obtain ⟨st', hst', hlatency⟩ := report_hasLatency hls hs ∅ hr (by decide) hname hne
  have hsum := h _ s ∅ r .echoRequest _ st' _ _ _ hls hs hr (by decide) hne hrange hname hst'
    hlatency
  rw [summarises_ofSamples_iff hne hrange, hvs] at hsum
  exact absurd hsum (by decide)

end OFLatencyStats
end HVBench
