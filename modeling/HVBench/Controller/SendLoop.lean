import HVBench.Statistics.Collector
import HVBench.Statistics.Interleaving
import Mathlib.Data.UInt

/-! The send loop of `HVBenchController::run`, from the first reading of the clock on. The
generator is the sequence of messages its `next` returns. The accounts are kept by this
thread alone. -/
namespace HVBench
namespace SendLoop
open OFLatencyStats (sentCall)

/-- What an iteration of the inner loop reads. The last two are read where it sends. -/
structure Readings where
  now : TimePoint
  uxTime : ℤ
  durationMs : ℤ
  timestamp : ℤ
  sendNow : TimePoint
  alive : Bool
  deriving DecidableEq, Repr

/-- A message handed to `OFConnWrapper::send`, with the clock reading before it. -/
structure Handed where
  msg : ScheduledMsg
  now : TimePoint
  transmitted : Bool
  deriving DecidableEq, Repr

structure State where
  /-- The message of the inner loop. -/
  next : Option ScheduledMsg
  generated : ℕ
  finished : Bool
  lastStatTime : ℤ
  counters : StdMap OFPT UInt64
  byteCnt : UInt64
  lateSends : List ℤ
  records : List Collector.Statistics
  /-- History: the last reading of the clock, the messages handed to the connection, the
  calls of `latency_stats_->sent` and the seconds that the inner loop read. -/
  now : TimePoint
  handed : List Handed
  sentCalls : List SentMsg
  seconds : List ℤ

inductive Label
  /-- The test of the outer loop, and the call of `next` after it. -/
  | outer (running : Bool)
  /-- An iteration of the inner loop. -/
  | inner (r : Readings)
  deriving DecidableEq, Repr

/-- The state in front of the outer loop, after the constructor and the two readings. -/
def init (now : TimePoint) (uxTime : ℤ) : State where
  next := none
  generated := 0
  finished := false
  lastStatTime := uxTime
  counters := StdMap.assign ∅ OFPT.reqTypes 0
  byteCnt := 0
  lateSends := []
  records := []
  now := now
  handed := []
  sentCalls := []
  seconds := []

/-- `byte_cnt_` after `OFConnWrapper::send`, which transmits if the connection is alive. -/
def connSend (byteCnt : UInt64) (msg : ScheduledMsg) (alive : Bool) : UInt64 :=
  if alive then byteCnt + .ofNat msg.ofMsg.pktLen else byteCnt

/-- `accept`, but for the latencies. -/
def accept (s : State) (r : Readings) : Option Collector.Statistics :=
  (Collector.visitController ∅ r.durationMs r.timestamp s.counters).map
    fun col => Collector.visitConn col s.byteCnt

/-- The first part of an iteration, which writes a record in each new second. -/
def flush (s : State) (r : Readings) : Option State :=
  if s.lastStatTime ≠ r.uxTime then
    (accept s r).map fun col =>
      { s with
        lastStatTime := r.uxTime
        records := s.records ++ [col]
        lateSends := []
        now := r.now
        seconds := s.seconds ++ [r.uxTime] }
  else some { s with now := r.now, seconds := s.seconds ++ [r.uxTime] }

/-- The rest of the iteration, where the message is due. -/
def send (s : State) (msg : ScheduledMsg) (r : Readings) : State :=
  { s with
    next := none
    now := r.sendNow
    byteCnt := connSend s.byteCnt msg r.alive
    handed := s.handed ++ [⟨msg, r.sendNow, r.alive⟩]
    lateSends := s.lateSends ++ [r.sendNow - msg.timeNs]
    counters := s.counters.modify msg.ofMsg.type 0 (· + 1)
    sentCalls := s.sentCalls ++ (sentCall msg r.sendNow).toList }

def step (gen : ℕ → ScheduledMsg) (s : State) : Label → Option State
  | .outer running =>
    if s.next = none ∧ s.finished = false then
      if running then some { s with next := some (gen s.generated), generated := s.generated + 1 }
      else some { s with finished := true }
    else none
  | .inner r =>
    match s.next with
    | none => none
    | some msg =>
      (flush s r).map fun s => if msg.timeNs - r.now > 0 then s else send s msg r

/-- The clock does not run backwards. -/
def ClockForward (s : State) : Label → Prop
  | .outer _ => True
  | .inner r => s.now ≤ r.now ∧
      ∀ msg, s.next = some msg → msg.timeNs ≤ r.now → r.now ≤ r.sendNow

def State.transmitted (s : State) : List Handed := s.handed.filter Handed.transmitted

/-- The three accounts agree with what was transmitted. -/
structure Agree (s : State) : Prop where
  requests : (OFPT.reqTypes.map fun t => s.counters.getD t 0).sum = .ofNat s.transmitted.length
  bytes : s.byteCnt = .ofNat (s.transmitted.map fun h => h.msg.ofMsg.pktLen).sum
  sent : s.sentCalls.Sublist (s.transmitted.filterMap fun h => sentCall h.msg h.now)

/-- The connection is alive where a message is sent. -/
def AliveWhenSent (s : State) : Label → Prop
  | .outer _ => True
  | .inner r => ∀ msg, s.next = some msg → msg.timeNs ≤ r.now → r.alive = true

variable {gen : ℕ → ScheduledMsg}

theorem flush_some {s t : State} {r : Readings} (h : flush s r = some t) :
    (s.lastStatTime ≠ r.uxTime ∧ ∃ col, accept s r = some col ∧
      t = { s with
            lastStatTime := r.uxTime
            records := s.records ++ [col]
            lateSends := []
            now := r.now
            seconds := s.seconds ++ [r.uxTime] }) ∨
    (s.lastStatTime = r.uxTime ∧
      t = { s with now := r.now, seconds := s.seconds ++ [r.uxTime] }) := by
  unfold flush at h
  split_ifs at h with hnew
  · obtain ⟨col, hcol, rfl⟩ := Option.map_eq_some_iff.mp h
    exact .inl ⟨hnew, col, hcol, rfl⟩
  · obtain rfl := Option.some.inj h
    exact .inr ⟨not_not.mp hnew, rfl⟩

/-- What an iteration of either loop does. -/
theorem step_cases {s t : State} {l : Label} (h : step gen s l = some t) :
    (l = .outer true ∧ s.next = none ∧ s.finished = false ∧
      t = { s with next := some (gen s.generated), generated := s.generated + 1 }) ∨
    (l = .outer false ∧ s.next = none ∧ t = { s with finished := true }) ∨
    ∃ r msg u, l = .inner r ∧ s.next = some msg ∧ flush s r = some u ∧
      ((r.now < msg.timeNs ∧ t = u) ∨ (msg.timeNs ≤ r.now ∧ t = send u msg r)) := by
  cases l with
  | outer running =>
    simp only [step] at h
    split_ifs at h with hnext hrun
    · obtain rfl := Option.some.inj h
      exact .inl ⟨by rw [hrun], hnext.1, hnext.2, rfl⟩
    · obtain rfl := Option.some.inj h
      exact .inr (.inl ⟨by simpa using hrun, hnext.1, rfl⟩)
  | inner r =>
    simp only [step] at h
    split at h
    · cases h
    next msg hmsg =>
      obtain ⟨u, hu, rfl⟩ := Option.map_eq_some_iff.mp h
      refine .inr (.inr ⟨r, msg, u, rfl, hmsg, hu, ?_⟩)
      split_ifs with hwait
      · exact .inl ⟨Int.lt_of_sub_pos hwait, rfl⟩
      · exact .inr ⟨Int.le_of_sub_nonpos (Int.not_lt.mp hwait), rfl⟩

theorem mem_handed_send {s : State} {msg : ScheduledMsg} {r : Readings} {e : Handed} :
    e ∈ (send s msg r).handed ↔ e ∈ s.handed ∨ e = ⟨msg, r.sendNow, r.alive⟩ := by
  unfold send
  rw [List.mem_append, List.mem_singleton]

/-- Writing a record changes nothing about the messages. -/
theorem flush_frame {s t : State} {r : Readings} (h : flush s r = some t) :
    t.next = s.next ∧ t.generated = s.generated ∧ t.finished = s.finished ∧
      t.counters = s.counters ∧ t.byteCnt = s.byteCnt ∧ t.handed = s.handed ∧
      t.sentCalls = s.sentCalls ∧ t.now = r.now ∧ ∀ v ∈ t.lateSends, v ∈ s.lateSends := by
  rcases flush_some h with ⟨-, col, -, rfl⟩ | ⟨-, rfl⟩
  · exact ⟨rfl, rfl, rfl, rfl, rfl, rfl, rfl, rfl, by simp⟩
  · exact ⟨rfl, rfl, rfl, rfl, rfl, rfl, rfl, rfl, fun v hv => hv⟩

/-- An echo request each second. -/
def everySecond (n : ℕ) : ScheduledMsg := ⟨1000000000 * n, ⟨.echoRequest, .ofNat (n + 1), 8⟩⟩

/-- The first message is due at once. The loop waits for the second and sends it late, after
it was told to stop. -/
def twoSends (alive : Bool) : List Label :=
  [.outer true, .inner ⟨0, 100, 1, 0, 5, true⟩, .outer true, .inner ⟨10, 100, 1, 0, 10, true⟩,
    .inner ⟨1000000001, 101, 1, 0, 1000000007, alive⟩, .outer false]

/-- The inner loop is never stuck: each iteration can write the record it has to. -/
theorem exists_inner (s : State) (r : Readings) {msg : ScheduledMsg} (hmsg : s.next = some msg) :
    ∃ t, step gen s (.inner r) = some t := by
  have hcol := Collector.visitController_isSome ∅ r.durationMs r.timestamp s.counters
  have hflush : ∃ u, flush s r = some u := by
    unfold flush
    split_ifs with hnew
    · obtain ⟨col, hcol⟩ := Option.isSome_iff_exists.mp hcol
      unfold accept
      rw [hcol]
      exact ⟨_, rfl⟩
    · exact ⟨_, rfl⟩
  obtain ⟨u, hu⟩ := hflush
  unfold step
  rw [hmsg]
  dsimp only
  rw [hu]
  exact ⟨_, rfl⟩

/-- What the three accounts hold: all messages handed over, whether transmitted or not, but
for the bytes. -/
structure Accounts (s : State) : Prop where
  requests : (OFPT.reqTypes.map fun t => s.counters.getD t 0).sum = .ofNat s.handed.length
  bytes : s.byteCnt = .ofNat (s.transmitted.map fun h => h.msg.ofMsg.pktLen).sum
  sent : s.sentCalls = s.handed.filterMap fun h => sentCall h.msg h.now

theorem accounts_init (now : TimePoint) (uxTime : ℤ) : Accounts (init now uxTime) := by
  have hzero : ∀ t ∈ OFPT.reqTypes, (init now uxTime).counters.getD t 0 = 0 := by
    intro t ht
    unfold init StdMap.getD
    dsimp only
    rw [StdMap.lookup_assign, if_pos ht]
    rfl
  refine ⟨?_, rfl, rfl⟩
  rw [List.map_congr_left hzero]
  rfl

theorem accounts_send {s : State} (hs : Accounts s) (msg : ScheduledMsg) (r : Readings) :
    Accounts (send s msg r) := by
  have hmem : msg.ofMsg.type ∈ OFPT.reqTypes := msg.ofMsg.cls.type_mem_reqTypes
  have hnodup : OFPT.reqTypes.Nodup := by decide
  constructor
  · have hsum := StdMap.sum_modify s.counters hnodup hmem 0 1
    unfold send
    dsimp only
    rw [hsum, hs.requests, List.length_append, UInt64.ofNat_add]
    rfl
  · have hbytes := hs.bytes
    unfold State.transmitted at hbytes ⊢
    unfold send connSend
    dsimp only
    rw [List.filter_append, List.map_append, List.sum_append, UInt64.ofNat_add, ← hbytes]
    cases r.alive <;> simp
  · unfold send
    dsimp only
    rw [List.filterMap_append, ← hs.sent]
    cases hcall : sentCall msg r.sendNow <;> simp [hcall]

theorem accounts_step {s t : State} {l : Label} (hs : Accounts s)
    (h : step gen s l = some t) : Accounts t := by
  rcases step_cases h with ⟨-, -, -, rfl⟩ | ⟨-, -, rfl⟩ | ⟨r, msg, u, -, -, hu, hcase⟩
  · exact ⟨hs.requests, hs.bytes, hs.sent⟩
  · exact ⟨hs.requests, hs.bytes, hs.sent⟩
  · obtain ⟨-, -, -, hcounters, hbytes, hhanded, hcalls, -, -⟩ := flush_frame hu
    have haccounts : Accounts u := by
      constructor
      · rw [hcounters, hhanded]
        exact hs.requests
      · unfold State.transmitted
        rw [hbytes, hhanded]
        exact hs.bytes
      · rw [hcalls, hhanded]
        exact hs.sent
    rcases hcase with ⟨-, rfl⟩ | ⟨-, rfl⟩
    · exact haccounts
    · exact accounts_send haccounts msg r

theorem accounts_of_exec {now : TimePoint} {uxTime : ℤ} {ls : List Label} {s : State}
    (h : Transition.exec (step gen) (init now uxTime) ls = some s) : Accounts s :=
  Transition.exec_invariant (fun _ _ _ hs => accounts_step hs) (accounts_init now uxTime) h

def AllTransmitted (s : State) : Prop := ∀ h ∈ s.handed, h.transmitted = true

theorem allTransmitted_step (s : State) (l : Label) (t : State) (hs : AllTransmitted s)
    (hl : AliveWhenSent s l) (h : step gen s l = some t) : AllTransmitted t := by
  rcases step_cases h with ⟨-, -, -, rfl⟩ | ⟨-, -, rfl⟩ | ⟨r, msg, u, rfl, hmsg, hu, hcase⟩
  · exact hs
  · exact hs
  · obtain ⟨-, -, -, -, -, hhanded, -, -, -⟩ := flush_frame hu
    rcases hcase with ⟨-, rfl⟩ | ⟨hdue, rfl⟩
    · unfold AllTransmitted
      rw [hhanded]
      exact hs
    · intro e he
      rcases mem_handed_send.mp he with hold | hnew
      · rw [hhanded] at hold
        exact hs e hold
      · rw [hnew]
        exact hl msg hmsg hdue

/-- Where all messages were transmitted, the accounts agree. -/
theorem Accounts.agree {s : State} (hs : Accounts s) (hall : AllTransmitted s) : Agree s := by
  have htransmitted : s.transmitted = s.handed := List.filter_eq_self.mpr hall
  constructor
  · rw [htransmitted]
    exact hs.requests
  · exact hs.bytes
  · rw [htransmitted, hs.sent]

/-- A message that is counted and not transmitted breaks an agreement. -/
theorem not_agree_of_dead {s t : State} {r : Readings} {msg : ScheduledMsg} (hs : Accounts s)
    (hagree : Agree s) (hmsg : s.next = some msg) (hdue : msg.timeNs ≤ r.now)
    (hdead : r.alive = false) (h : step gen s (.inner r) = some t) : ¬ Agree t := by
  intro ht
  have haccounts := accounts_step hs h
  rcases step_cases h with ⟨hl, -⟩ | ⟨hl, -⟩ | ⟨r', msg', u, hl, hmsg', hu, hcase⟩
  · cases hl
  · cases hl
  · obtain rfl := Label.inner.inj hl
    obtain rfl := Option.some.inj (hmsg.symm.trans hmsg')
    obtain ⟨-, -, -, -, -, hhanded, -, -, -⟩ := flush_frame hu
    rcases hcase with ⟨hwait, -⟩ | ⟨-, rfl⟩
    · exact absurd hdue (Int.not_le.mpr hwait)
    · have hsent : (send u msg r).handed = s.handed ++ [⟨msg, r.sendNow, r.alive⟩] := by
        rw [← hhanded]
        rfl
      have htransmitted : (send u msg r).transmitted = s.transmitted := by
        unfold State.transmitted
        rw [hsent, List.filter_append]
        simp [hdead]
      have hbefore := hagree.requests.symm.trans hs.requests
      have hafter := ht.requests.symm.trans haccounts.requests
      rw [htransmitted, hbefore, hsent, List.length_append, UInt64.ofNat_add] at hafter
      have hone : UInt64.ofNat 1 = 0 := by
        have hcancel := add_left_cancel (hafter.symm.trans (add_zero _).symm)
        exact hcancel
      revert hone
      decide

/-- The three accounts agree with what was transmitted after each iteration of a run exactly
when the connection was alive at each message that was sent. -/
theorem agree_iff_aliveWhenSent (gen : ℕ → ScheduledMsg) (now : TimePoint) (uxTime : ℤ)
    (ls : List Label) (s : State) (h : Transition.exec (step gen) (init now uxTime) ls = some s) :
    (∀ before t, before <+: ls →
      Transition.exec (step gen) (init now uxTime) before = some t → Agree t) ↔
    Transition.Meets (step gen) AliveWhenSent (init now uxTime) ls := by
  constructor
  · intro hagree
    apply Transition.meets_iff_split.mpr
    intro before l after t hls ht
    cases l with
    | outer running => trivial
    | inner r =>
      intro msg hmsg hdue
      cases halive : r.alive with
      | true => rfl
      | false =>
        rw [hls, Transition.exec_append] at h
        obtain ⟨t', ht', hrest⟩ := h
        obtain rfl := Option.some.inj (ht.symm.trans ht')
        obtain ⟨u, hu, -⟩ := Transition.exec_cons.mp hrest
        have hbefore : before <+: ls := ⟨.inner r :: after, hls.symm⟩
        have hnext : before ++ [.inner r] <+: ls := ⟨after, by rw [hls]; simp⟩
        have hu' := hagree _ u hnext (Transition.exec_snoc.mpr ⟨t, ht, hu⟩)
        have ht'' := hagree before t hbefore ht
        exact absurd hu' (not_agree_of_dead (accounts_of_exec ht) ht'' hmsg hdue halive hu)
  · rintro hmeets before t ⟨after, rfl⟩ ht
    have halive := (Transition.meets_append.mp hmeets).1
    have hinit : AllTransmitted (init now uxTime) := by simp [AllTransmitted, init]
    have hall := Transition.exec_invariant_of_meets allTransmitted_step hinit halive ht
    exact (accounts_of_exec ht).agree hall

/-- The connection is alive at both messages of the run. -/
theorem agree_iff_aliveWhenSent_twoSends :
    ∃ s, Transition.exec (step everySecond) (init 0 100) (twoSends true) = some s ∧
      ∀ before t, before <+: twoSends true →
        Transition.exec (step everySecond) (init 0 100) before = some t → Agree t := by
  obtain ⟨s, hs, halive, -⟩ : ∃ s,
      Transition.exec (step everySecond) (init 0 100) (twoSends true) = some s ∧
      Transition.Meets (step everySecond) AliveWhenSent (init 0 100) (twoSends true) ∧ True := by
    refine Transition.exists_exec_cons rfl trivial ?_
    refine Transition.exists_exec_cons rfl (fun _ _ _ => rfl) ?_
    refine Transition.exists_exec_cons rfl trivial ?_
    refine Transition.exists_exec_cons rfl (fun _ _ _ => rfl) ?_
    refine Transition.exists_exec_cons rfl (fun _ _ _ => rfl) ?_
    refine Transition.exists_exec_cons rfl trivial ?_
    exact ⟨_, rfl, trivial, trivial⟩
  exact ⟨s, hs, (agree_iff_aliveWhenSent everySecond 0 100 _ s hs).mpr halive⟩

/-- A message that is due while the connection is down is counted, and its reply awaited. -/
theorem dead_send_counted :
    ¬ ∀ gen now uxTime ls s, Transition.exec (step gen) (init now uxTime) ls = some s →
      Agree s := by
  intro h
  obtain ⟨s, hs, hhanded, hcalls⟩ :
      ∃ s, Transition.exec (step everySecond) (init 0 100) (twoSends false) = some s ∧
        s.transmitted.map Handed.now = [5] ∧ s.handed.map Handed.now = [5, 1000000007] :=
    ⟨_, rfl, rfl, rfl⟩
  have hagree := (h everySecond 0 100 _ s hs).requests
  have haccounts := (accounts_of_exec hs).requests
  have htransmitted : s.transmitted.length = 1 := by simpa using congrArg List.length hhanded
  have hlength : s.handed.length = 2 := by simpa using congrArg List.length hcalls
  rw [hagree, htransmitted, hlength] at haccounts
  revert haccounts
  decide

end SendLoop
end HVBench
