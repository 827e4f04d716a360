import HVBench.Library.StdMap
import HVBench.Statistics.Accumulator


/-! Reply matching and latency accumulation. The waiting list is a FIFO whose
`try_dequeue` fails only when it is empty. -/
namespace HVBench

/-- `sent_msg_t`. -/
structure SentMsg where
  xid : UInt32
  type : OFPT
  tp : TimePoint
  deriving DecidableEq, Repr

structure OFLatencyStats where
  replyWaitingList : List SentMsg
  statsLatency : StdMap OFPT AccMeanMinMax
  deriving DecidableEq

/-- `duration_cast<microseconds>` of a difference of time points. -/
def latencyMicros (tp sent : TimePoint) : ℤ := (tp - sent).tdiv 1000

namespace OFLatencyStats

/-- `stats_latency_[type](v)`. -/
def record (s : OFLatencyStats) (type : OFPT) (v : ℤ) : OFLatencyStats :=
  { s with statsLatency := s.statsLatency.modify type .empty (·.push v) }

def reset (s : OFLatencyStats) : OFLatencyStats :=
  { s with statsLatency := s.statsLatency.assign OFPT.latencyTypes .empty }

/-- The constructor. -/
def create : OFLatencyStats := reset ⟨[], ∅⟩

/-- `sent`, where `try_enqueue` succeeds. When it fails the call has no effect. -/
def sent (s : OFLatencyStats) (xid : UInt32) (type : OFPT) (tp : TimePoint) : OFLatencyStats :=
  { s with replyWaitingList := s.replyWaitingList ++ [⟨xid, type, tp⟩] }

/-- The loop of `received` over the entries of the waiting list. -/
def receivedLoop (stats : StdMap OFPT AccMeanMinMax) (xid : UInt32) (tp : TimePoint) :
    List SentMsg → OFLatencyStats
  | [] => ⟨[], stats⟩
  | last :: rest =>
    if last.xid ≠ xid then receivedLoop stats xid tp rest
    else record ⟨rest, stats⟩ last.type (latencyMicros tp last.tp)

/-- `received`. Its `type` argument is never read. -/
def received (s : OFLatencyStats) (xid : UInt32) (_type : OFPT) (tp : TimePoint) :
    OFLatencyStats :=
  receivedLoop s.statsLatency xid tp s.replyWaitingList

@[simp] theorem record_replyWaitingList (s : OFLatencyStats) (t : OFPT) (v : ℤ) :
    (s.record t v).replyWaitingList = s.replyWaitingList := rfl

@[simp] theorem record_statsLatency (s : OFLatencyStats) (t : OFPT) (v : ℤ) :
    (s.record t v).statsLatency = s.statsLatency.modify t .empty (·.push v) := rfl

@[simp] theorem sent_statsLatency (s : OFLatencyStats) (x : UInt32) (t : OFPT) (tp : TimePoint) :
    (s.sent x t tp).statsLatency = s.statsLatency := rfl

@[simp] theorem sent_replyWaitingList (s : OFLatencyStats) (x : UInt32) (t : OFPT)
    (tp : TimePoint) :
    (s.sent x t tp).replyWaitingList = s.replyWaitingList ++ [⟨x, t, tp⟩] := rfl

@[simp] theorem reset_replyWaitingList (s : OFLatencyStats) :
    s.reset.replyWaitingList = s.replyWaitingList := rfl

/-- From `a` to `b` the accumulator of `type` gets the sample `v`. The others stay. -/
structure OneMore (a b : StdMap OFPT AccMeanMinMax) (type : OFPT) (v : ℤ) : Prop where
  adds : (a.getD type .empty).Adds (b.getD type .empty) v
  others : ∀ type', type' ≠ type → b.lookup type' = a.lookup type'

theorem oneMore_record (s : OFLatencyStats) (type : OFPT) (v : ℤ) :
    OneMore s.statsLatency (s.record type v).statsLatency type v where
  adds := by
    rw [record_statsLatency, StdMap.getD_modify]
    exact AccMeanMinMax.adds_push _ v
  others type' htype := StdMap.lookup_modify_ne _ _ htype

/-- A sample changes the accumulators, so "no sample" is visible in them. -/
theorem not_oneMore_self (a : StdMap OFPT AccMeanMinMax) (type : OFPT) (v : ℤ) :
    ¬ OneMore a a type v := fun h => AccMeanMinMax.not_adds_self _ v h.adds

/-- The search drops every entry before the first one with the xid. -/
theorem received_of_mem {s : OFLatencyStats} (pre : List SentMsg) {post : List SentMsg}
    {m : SentMsg} (hs : s.replyWaitingList = pre ++ m :: post) (hpre : ∀ e ∈ pre, e.xid ≠ m.xid)
    (t : OFPT) (tp : TimePoint) :
    s.received m.xid t tp =
      record ⟨post, s.statsLatency⟩ m.type (latencyMicros tp m.tp) := by
  unfold received
  rw [hs]
  clear hs
  induction pre with
  | nil => simp [receivedLoop]
  | cons e pre ih =>
    have he : e.xid ≠ m.xid := hpre e (by simp)
    simp only [List.cons_append, receivedLoop, if_pos he]
    exact ih fun e he => hpre e (by simp [he])

/-- A search that matches nothing empties the list. -/
theorem received_of_not_mem {s : OFLatencyStats} {y : UInt32}
    (hs : ∀ e ∈ s.replyWaitingList, e.xid ≠ y) (t : OFPT) (tp : TimePoint) :
    s.received y t tp = ⟨[], s.statsLatency⟩ := by
  unfold received
  generalize s.replyWaitingList = l at hs
  induction l with
  | nil => rfl
  | cons e l ih =>
    have he : e.xid ≠ y := hs e (by simp)
    simp only [receivedLoop, if_pos he]
    exact ih fun e he => hs e (by simp [he])

end OFLatencyStats
end HVBench
