import HVBench.Statistics.Interleaving

/-! What handled replies did. A reply answers a request, and its `received` call adds a
sample or gives up. -/
namespace HVBench
namespace OFLatencyStats
open AccMeanMinMax

/-- A handled reply and the sample it recorded, if any. -/
structure Outcome where
  request : SentMsg
  tp : TimePoint
  sample : Option (OFPT × ℤ)
  deriving DecidableEq, Repr

/-- What the next step of a `received` call adds to the handled replies, when the reply
answers `current`. -/
def Receiver.outcome (s : OFLatencyStats) (current : Option SentMsg) : Receiver → List Outcome
  | .searching _ tp =>
    if s.replyWaitingList = [] then (current.map fun m => ⟨m, tp, none⟩).toList else []
  | .matched _ last tp =>
    (current.map fun m => ⟨m, tp, some (last.type, latencyMicros tp last.tp)⟩).toList

/-- Each handled reply recorded one sample, of its request's type and send time. -/
def EachReplySampled (outcomes : List Outcome) : Prop :=
  ∀ o ∈ outcomes, o.sample = some (o.request.type, (o.tp - o.request.tp).tdiv 1000)

/-- The value of the sample, if it is one of the given type. -/
def Outcome.value (type : OFPT) (o : Outcome) : Option ℤ :=
  o.sample.bind fun (type', v) => if type' = type then some v else none

def samples (type : OFPT) (outcomes : List Outcome) : List ℤ :=
  outcomes.filterMap (Outcome.value type)

theorem samples_append (type : OFPT) (outcomes new : List Outcome) :
    samples type (outcomes ++ new) = samples type outcomes ++ samples type new :=
  List.filterMap_append

/-- The accumulators hold the samples of the handled replies. Those `reset` knows hold the
ones since the last reset, which came after the first `since` replies. -/
structure Recorded (stats : StdMap OFPT AccMeanMinMax) (outcomes : List Outcome)
    (since : ℕ) : Prop where
  since_le : since ≤ outcomes.length
  lookup : ∀ type ∈ OFPT.latencyTypes,
    stats.lookup type = some (ofSamples (samples type (outcomes.drop since)))
  others : ∀ type, type ∉ OFPT.latencyTypes →
    stats.getD type .empty = ofSamples (samples type outcomes)

namespace Recorded

theorem create : Recorded OFLatencyStats.create.statsLatency [] 0 where
  since_le := Nat.le_refl 0
  lookup type htype := by
    have hlookup := StdMap.lookup_assign ∅ OFPT.latencyTypes AccMeanMinMax.empty type
    rw [if_pos htype] at hlookup
    exact hlookup
  others type htype := by
    have hlookup := StdMap.lookup_assign ∅ OFPT.latencyTypes AccMeanMinMax.empty type
    rw [if_neg htype] at hlookup
    change StdMap.getD (StdMap.assign ∅ _ _) _ _ = _
    rw [StdMap.getD, hlookup]
    rfl

theorem reset {s : OFLatencyStats} {outcomes : List Outcome} {since : ℕ}
    (h : Recorded s.statsLatency outcomes since) :
    Recorded s.reset.statsLatency outcomes outcomes.length where
  since_le := Nat.le_refl _
  lookup type htype := by
    simp only [OFLatencyStats.reset, StdMap.lookup_assign, if_pos htype]
    rw [List.drop_length]
    rfl
  others type htype := by
    have hold := h.others type htype
    simp only [OFLatencyStats.reset, StdMap.getD, StdMap.lookup_assign, if_neg htype]
    exact hold

/-- One sample more, of a reply that was answered with it. -/
theorem record {s : OFLatencyStats} {outcomes : List Outcome} {since : ℕ}
    (h : Recorded s.statsLatency outcomes since) (o : Outcome) {type : OFPT} {v : ℤ}
    (ho : o.sample = some (type, v)) :
    Recorded (s.record type v).statsLatency (outcomes ++ [o]) since := by
  have hvalue : ∀ type', samples type' [o] = if type = type' then [v] else [] := by
    intro type'
    simp only [samples, List.filterMap_cons, List.filterMap_nil, Outcome.value, ho]
    by_cases heq : type = type' <;> simp [heq]
  refine ⟨?_, fun type' htype => ?_, fun type' htype => ?_⟩
  · rw [List.length_append]
    exact Nat.le_add_right_of_le h.since_le
  · rw [List.drop_append_of_le_length h.since_le, samples_append, hvalue]
    have hold := h.lookup type' htype
    by_cases heq : type = type'
    · subst heq
      rw [if_pos rfl, record_statsLatency, StdMap.lookup_modify, StdMap.getD, hold, ofSamples_snoc]
      rfl
    · rw [if_neg heq, List.append_nil, record_statsLatency,
        StdMap.lookup_modify_ne _ _ (Ne.symm heq), hold]
  · rw [samples_append, hvalue]
    have hold := h.others type' htype
    by_cases heq : type = type'
    · subst heq
      rw [if_pos rfl, record_statsLatency, StdMap.getD_modify, hold, ofSamples_snoc]
    · rw [if_neg heq, List.append_nil, record_statsLatency,
        StdMap.getD_modify_ne _ _ (Ne.symm heq), hold]

/-- A reply that was answered without a sample. -/
theorem unsampled {stats : StdMap OFPT AccMeanMinMax} {outcomes : List Outcome} {since : ℕ}
    (h : Recorded stats outcomes since) (o : Outcome) (ho : o.sample = none) :
    Recorded stats (outcomes ++ [o]) since := by
  have hvalue : ∀ type, samples type [o] = [] := by
    intro type
    simp [samples, Outcome.value, ho]
  refine ⟨?_, fun type htype => ?_, fun type htype => ?_⟩
  · rw [List.length_append]
    exact Nat.le_add_right_of_le h.since_le
  · rw [List.drop_append_of_le_length h.since_le, samples_append, hvalue, List.append_nil]
    exact h.lookup type htype
  · rw [samples_append, hvalue, List.append_nil]
    exact h.others type htype

/-- The next step of a call that answers `m`. -/
theorem advance {s : OFLatencyStats} {outcomes : List Outcome} {since : ℕ}
    (h : Recorded s.statsLatency outcomes since) (r : Receiver) (m : SentMsg) :
    Recorded (r.advance s).1.statsLatency (outcomes ++ r.outcome s (some m)) since := by
  cases r with
  | matched xid last tp => exact h.record _ rfl
  | searching xid tp =>
    cases hw : s.replyWaitingList with
    | nil =>
      simp only [Receiver.advance, Receiver.outcome, hw]
      exact h.unsampled _ rfl
    | cons last rest =>
      simp only [Receiver.advance, Receiver.outcome, hw]
      rw [if_neg (List.cons_ne_nil last rest), List.append_nil]
      exact h

/-- Where nothing was reset, an accumulator keeps all samples of its type. -/
theorem keeps_all {stats : StdMap OFPT AccMeanMinMax} {outcomes : List Outcome}
    (h : Recorded stats outcomes 0) (type : OFPT) :
    (stats.getD type .empty).Keeps (samples type outcomes) := by
  have hall : stats.getD type .empty = ofSamples (samples type outcomes) := by
    by_cases htype : type ∈ OFPT.latencyTypes
    · rw [StdMap.getD, h.lookup type htype, List.drop_zero, Option.getD_some]
    · exact h.others type htype
  rw [hall]
  exact keeps_ofSamples _

end Recorded

/-- A call has one outcome, at its end. -/
theorem request_outcome (s : OFLatencyStats) (r : Receiver) (m : SentMsg) :
    (r.outcome s (some m)).map Outcome.request ++ ((r.advance s).2.map fun _ => m).toList =
      [m] := by
  cases r with
  | matched xid last tp => rfl
  | searching xid tp =>
    cases hw : s.replyWaitingList <;> simp [Receiver.advance, Receiver.outcome, hw]

end OFLatencyStats
end HVBench
