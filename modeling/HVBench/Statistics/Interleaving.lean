import HVBench.Library.Transition
import HVBench.Of.Messages
import HVBench.Statistics.OFLatencyStats

/-! Interleavings of the threads that share an `OFLatencyStats`. Each `try_dequeue`
and each section under the mutex is one atomic step. The log is a ghost history. -/
namespace HVBench
namespace OFLatencyStats

/-- The progress of a `received` call. -/
inductive Receiver
  | searching (xid : UInt32) (tp : TimePoint)
  /-- The entry `last` was dequeued and its sample is not yet recorded. -/
  | matched (xid : UInt32) (last : SentMsg) (tp : TimePoint)
  deriving DecidableEq, Repr

/-- The next atomic step of a `received` call: a `try_dequeue` or the locked section.
`none` is the end of the call. -/
def Receiver.advance (s : OFLatencyStats) : Receiver → OFLatencyStats × Option Receiver
  | .searching xid tp =>
    match s.replyWaitingList with
    | [] => (s, none)
    | last :: rest =>
      ({ s with replyWaitingList := rest },
        some (if last.xid ≠ xid then .searching xid tp else .matched xid last tp))
  | .matched _ last tp => (s.record last.type (latencyMicros tp last.tp), none)

inductive Entry
  | sent (m : SentMsg)
  /-- `received(xid, _, tp)` recorded `value` under `type`. -/
  | sample (xid : UInt32) (tp : TimePoint) (type : OFPT) (value : ℤ)
  deriving DecidableEq, Repr

/-- What one `Collector::visit` read, and which samples that covers. -/
structure Report where
  read : StdMap OFPT AccMeanMinMax
  positions : List ℕ

structure State where
  stats : OFLatencyStats
  receivers : ℕ → Option Receiver
  log : List Entry
  /-- Log positions of the samples recorded since the last `reset`. -/
  window : List ℕ
  reports : List Report
  /-- The sending thread is between `visit` and `reset`. -/
  visited : Bool

namespace State

def init : State where
  stats := create
  receivers := fun _ => none
  log := []
  window := []
  reports := []
  visited := false

/-- The call of `received` in thread `n` takes its next step. -/
def resume (s : State) (n : ℕ) (r : Receiver) : State :=
  let s' := { s with
    stats := (r.advance s.stats).1
    receivers := Function.update s.receivers n (r.advance s.stats).2 }
  match r with
  | .searching _ _ => s'
  | .matched xid last tp =>
    { s' with
      log := s.log ++ [.sample xid tp last.type (latencyMicros tp last.tp)]
      window := s.window ++ [s.log.length] }

end State

inductive Label
  /-- A `sent` call. The waiting list may refuse the element. -/
  | sent (m : SentMsg) (accepted : Bool)
  | received (thread : ℕ) (xid : UInt32) (type : OFPT) (tp : TimePoint)
  | advance (thread : ℕ)
  | visit
  | reset
  deriving DecidableEq, Repr

def step (s : State) : Label → Option State
  | .sent m accepted => some
    { s with
      stats := if accepted then s.stats.sent m.xid m.type m.tp else s.stats
      log := s.log ++ [.sent m] }
  | .received n xid _type tp =>
    if s.receivers n = none then
      some { s with receivers := Function.update s.receivers n (some (.searching xid tp)) }
    else none
  | .advance n => (s.receivers n).map (s.resume n)
  | .visit => some
    { s with
      reports := s.reports ++ [⟨s.stats.statsLatency, s.window⟩]
      visited := true }
  | .reset => some { s with stats := s.stats.reset, window := [], visited := false }

/-- The `sent` call at the end of an iteration of the send loop, if it makes one. -/
def sentCall (next : ScheduledMsg) (now : TimePoint) : Option SentMsg :=
  if next.awaitsReply then some ⟨next.ofMsg.xid, next.ofMsg.type, now⟩ else none

/-- A `sent` label is a call the send loop makes. -/
def Label.FromSendLoop : Label → Prop
  | .sent m _ => ∃ next now, sentCall next now = some m
  | _ => True

/-- The four things a running `received` call can do next. -/
theorem advance_cases {s t : State} {n : ℕ} (h : step s (.advance n) = some t) :
    (∃ xid tp, s.receivers n = some (.searching xid tp) ∧ s.stats.replyWaitingList = [] ∧
      t = { s with receivers := Function.update s.receivers n none }) ∨
    (∃ xid tp last rest, s.receivers n = some (.searching xid tp) ∧
      s.stats.replyWaitingList = last :: rest ∧ last.xid ≠ xid ∧
      t = { s with
            stats := { s.stats with replyWaitingList := rest }
            receivers := Function.update s.receivers n (some (.searching xid tp)) }) ∨
    (∃ xid tp last rest, s.receivers n = some (.searching xid tp) ∧
      s.stats.replyWaitingList = last :: rest ∧ last.xid = xid ∧
      t = { s with
            stats := { s.stats with replyWaitingList := rest }
            receivers := Function.update s.receivers n (some (.matched xid last tp)) }) ∨
    ∃ xid last tp, s.receivers n = some (.matched xid last tp) ∧
      t = { s with
            stats := s.stats.record last.type (latencyMicros tp last.tp)
            receivers := Function.update s.receivers n none
            log := s.log ++ [.sample xid tp last.type (latencyMicros tp last.tp)]
            window := s.window ++ [s.log.length] } := by
  obtain ⟨r, hr, rfl⟩ := Option.map_eq_some_iff.mp h
  cases r with
  | matched xid last tp => exact .inr (.inr (.inr ⟨xid, last, tp, hr, rfl⟩))
  | searching xid tp =>
    cases hw : s.stats.replyWaitingList with
    | nil => exact .inl ⟨xid, tp, hr, rfl, by simp [State.resume, Receiver.advance, hw]⟩
    | cons last rest =>
      by_cases hx : last.xid = xid
      · exact .inr (.inr (.inl ⟨xid, tp, last, rest, hr, rfl, hx, by
          simp [State.resume, Receiver.advance, hw, hx]⟩))
      · exact .inr (.inl ⟨xid, tp, last, rest, hr, rfl, hx, by
          simp [State.resume, Receiver.advance, hw, hx]⟩)

/-- A thread put into a state other than `matched` is not among the matched ones. -/
theorem matched_of_update {r : ℕ → Option Receiver} {n k : ℕ} {v : Option Receiver}
    {xid : UInt32} {last : SentMsg} {tp : TimePoint}
    (hv : ∀ x e t, v ≠ some (.matched x e t))
    (h : Function.update r n v k = some (.matched xid last tp)) :
    k ≠ n ∧ r k = some (.matched xid last tp) := by
  by_cases hk : k = n
  · subst hk
    rw [Function.update_self] at h
    exact absurd h (hv xid last tp)
  · rw [Function.update_of_ne hk] at h
    exact ⟨hk, h⟩

/-- Without interruption, the steps of a call have the effect of `received`. -/
theorem exec_received (s : State) (n : ℕ) (xid : UInt32) (type : OFPT) (tp : TimePoint)
    (hn : s.receivers n = none) :
    ∃ k t, Transition.exec step s (.received n xid type tp :: List.replicate k (.advance n)) =
        some t ∧
      t.stats = s.stats.received xid type tp ∧ t.receivers = s.receivers := by
  have hsearch : ∀ (w : List SentMsg) (u : State), u.stats.replyWaitingList = w →
      u.receivers n = some (.searching xid tp) →
      ∃ k t, Transition.exec step u (List.replicate k (.advance n)) = some t ∧
        t.stats = u.stats.received xid type tp ∧
        t.receivers = Function.update u.receivers n none := by
    intro w
    induction w with
    | nil =>
      intro u hw hu
      refine ⟨1, u.resume n (.searching xid tp), by simp [Transition.exec, step, hu], ?_, ?_⟩
      · rw [received_of_not_mem (by simp [hw])]
        simp only [State.resume, Receiver.advance, hw]
        rw [← hw]
      · simp [State.resume, Receiver.advance, hw]
    | cons last rest ih =>
      intro u hw hu
      have hstep : step u (.advance n) = some (u.resume n (.searching xid tp)) := by
        simp [step, hu]
      by_cases hx : last.xid = xid
      · subst hx
        refine ⟨2, (u.resume n (.searching last.xid tp)).resume n (.matched last.xid last tp),
          ?_, ?_, ?_⟩
        · simp [Transition.exec, List.replicate, step, State.resume, Receiver.advance, hw, hu]
        · rw [received_of_mem [] hw (by simp)]
          simp [State.resume, Receiver.advance, hw, record]
        · simp [State.resume, Receiver.advance, hw]
      · obtain ⟨k, t, hk, hstats, hrec⟩ := ih (u.resume n (.searching xid tp))
          (by simp [State.resume, Receiver.advance, hw])
          (by simp [State.resume, Receiver.advance, hw, hx])
        refine ⟨k + 1, t, Transition.exec_cons.mpr ⟨_, hstep, hk⟩, ?_, ?_⟩
        · rw [hstats]
          simp [State.resume, Receiver.advance, hw, received, receivedLoop, hx]
        · rw [hrec]
          simp [State.resume, Receiver.advance, hw]
  obtain ⟨k, t, hk, hstats, hrec⟩ := hsearch s.stats.replyWaitingList
    { s with receivers := Function.update s.receivers n (some (.searching xid tp)) } rfl
    (Function.update_self ..)
  refine ⟨k, t, Transition.exec_cons.mpr ⟨_, by simp [step, hn], hk⟩, hstats, ?_⟩
  rw [hrec, Function.update_idem, ← hn, Function.update_eq_self]

end OFLatencyStats
end HVBench
