import HVBench.ConcurrentQueue.Sequential
import HVBench.Statistics.Outcomes

/-! The waiting list under load. It is a queue of a fixed number of blocks, and a request
that finds no room is not recorded. Here replies come in request order with none lost, each
after the `sent` call of its request, and one thread receives them. The calls of the queue
do not overlap. -/
namespace HVBench
namespace Overload
open OFLatencyStats
open ConcurrentQueue (Spec Traits)

/-- A request, with the number of earlier ones whose reply needs no entry of the list any
more when it was sent. -/
structure Request where
  msg : SentMsg
  taken : ℕ
  deriving DecidableEq, Repr

structure State where
  stats : OFLatencyStats
  /-- How many entries have left the waiting list. -/
  headIndex : ℕ
  receiver : Option Receiver
  /-- History: the requests in send order, how many `received` calls began, and what each
  of them that ended did. -/
  requests : List Request
  answered : ℕ
  outcomes : List Outcome

def init : State where
  stats := create
  headIndex := 0
  receiver := none
  requests := []
  answered := 0
  outcomes := []

inductive Label
  | sent (m : SentMsg)
  /-- The `received` call for the next reply begins. -/
  | received (type : OFPT) (tp : TimePoint)
  | advance
  deriving DecidableEq, Repr

/-- How many requests need no entry any more: the search for their reply is over. -/
def State.taken (s : State) : ℕ :=
  match s.receiver with
  | some (.searching _ _) => s.answered - 1
  | _ => s.answered

/-- The request of the call in progress. -/
def State.current (s : State) : Option SentMsg := s.requests[s.answered - 1]?.map Request.msg

/-- The waiting list as a queue, without its histories. -/
def State.queue (s : State) : Spec Unit SentMsg := ⟨s.headIndex, s.stats.replyWaitingList, [], []⟩

/-- `sent`. A default-constructed queue refuses the element when it is full. -/
def trySent (s : State) (m : SentMsg) : OFLatencyStats :=
  if s.queue.Full .default then s.stats else s.stats.sent m.xid m.type m.tp

def step (s : State) : Label → Option State
  | .sent m => some
    { s with
      stats := trySent s m
      requests := s.requests ++ [⟨m, s.taken⟩] }
  | .received _type tp =>
    match s.receiver, s.requests[s.answered]? with
    | none, some r => some
      { s with receiver := some (.searching r.msg.xid tp), answered := s.answered + 1 }
    | _, _ => none
  | .advance =>
    s.receiver.map fun r =>
      { s with
        stats := (r.advance s.stats).1
        headIndex := s.headIndex +
          (s.stats.replyWaitingList.length - (r.advance s.stats).1.replyWaitingList.length)
        receiver := (r.advance s.stats).2
        outcomes := s.outcomes ++ r.outcome s.stats s.current }

theorem trySent_replyWaitingList (s : State) (m : SentMsg) :
    (trySent s m).replyWaitingList =
      if s.queue.Full .default then s.stats.replyWaitingList
      else s.stats.replyWaitingList ++ [m] := by
  unfold trySent
  split_ifs <;> rfl

def State.xids (s : State) : List UInt32 := s.requests.map fun r => r.msg.xid

/-- The `i`-th request finds room where all before it did: it starts no new block, or fewer
than the six blocks there are hold an entry. -/
def Room (i : ℕ) (r : Request) : Prop := ¬(i % 32 = 0 ∧ 6 ≤ i / 32 - r.taken / 32)

/-- Each request whose `received` call ended found room. -/
def RoomWhenSent (s : State) : Prop :=
  ∀ i r, i < s.outcomes.length → s.requests[i]? = some r → Room i r

/-- The progress of the receiving thread, when the first `n` requests were recorded and the
next one was not. -/
def Progress (s : State) (n : ℕ) : Option Receiver → Prop
  | none => s.answered = s.outcomes.length ∧ s.outcomes.length ≤ n
  | some (.searching xid _) => s.answered = s.outcomes.length + 1 ∧ s.outcomes.length ≤ n ∧
      ∃ r, s.requests[s.outcomes.length]? = some r ∧ r.msg.xid = xid
  | some (.matched _ last _) => s.answered = s.outcomes.length + 1 ∧ s.outcomes.length < n ∧
      ∃ r, s.requests[s.outcomes.length]? = some r ∧ r.msg = last

/-- The first `n` requests found room, the next one did not, and no reply to it has been
given up yet. -/
structure Within (s : State) (n : ℕ) (later : List SentMsg) : Prop where
  le : n ≤ s.requests.length
  light : ∀ i r, i < n → s.requests[i]? = some r → Room i r
  heavy : ∀ r, s.requests[n]? = some r → ¬Room n r
  head : n = s.requests.length → s.headIndex = s.taken
  refused : ∀ e ∈ later, e ∈ (s.requests.drop (n + 1)).map Request.msg
  waiting : s.stats.replyWaitingList =
    ((s.requests.take n).drop s.taken).map Request.msg ++ later
  progress : Progress s n s.receiver
  sampled : EachReplySampled s.outcomes

/-- The search for the reply to a request that was not recorded has ended without it. -/
def Dropped (s : State) : Prop :=
  ∃ (i : ℕ) (o : Outcome) (r : Request), s.outcomes[i]? = some o ∧ o.sample = none ∧
    s.requests[i]? = some r ∧ ¬Room i r

theorem within_init : Within init 0 [] where
  le := Nat.le_refl 0
  light := by simp
  heavy := by simp [init]
  head := fun _ => rfl
  refused := by simp
  waiting := rfl
  progress := ⟨rfl, Nat.le_refl 0⟩
  sampled := by simp [EachReplySampled, init]

/-- Only requests after the `n + 1`-th are on the list behind the first `n`. -/
theorem Within.later_eq_nil {s : State} {n : ℕ} {later : List SentMsg} (h : Within s n later)
    (hn : s.requests.length ≤ n + 1) : later = [] := by
  apply List.eq_nil_iff_forall_not_mem.mpr
  intro e he
  have hmem := h.refused e he
  rw [List.drop_of_length_le hn] at hmem
  exact List.not_mem_nil hmem

/-- As long as all requests were recorded, the list holds the outstanding ones. -/
theorem Within.length_eq {s : State} {later : List SentMsg}
    (h : Within s s.requests.length later) :
    s.stats.replyWaitingList.length = s.requests.length - s.taken := by
  rw [h.waiting, h.later_eq_nil (Nat.le_succ _), List.take_length]
  simp

theorem Within.taken_le {s : State} {n : ℕ} {later : List SentMsg} (h : Within s n later) :
    s.taken ≤ n := by
  have hprogress := h.progress
  unfold State.taken
  split
  next xid tp hr =>
    rw [hr] at hprogress
    obtain ⟨hans, hle, -⟩ := hprogress
    omega
  next hne =>
    unfold Progress at hprogress
    split at hprogress
    · omega
    · exact absurd (by assumption) (hne _ _)
    · omega

/-- As long as all requests were recorded, the list is full for the next one if it has no
room. -/
theorem Within.full_iff {s : State} {later : List SentMsg}
    (h : Within s s.requests.length later) (m : SentMsg) :
    s.queue.Full .default ↔ ¬Room s.requests.length ⟨m, s.taken⟩ := by
  have hlength := h.length_eq
  have hle := h.taken_le
  have htail : s.headIndex + s.stats.replyWaitingList.length = s.requests.length := by
    rw [h.head rfl, hlength]
    omega
  unfold Spec.Full Room State.queue Traits.default
  dsimp only
  rw [htail, h.head rfl, not_not]
  rfl

/-- A further request changes nothing about how the earlier ones are answered. -/
theorem Progress.snoc {s t : State} {n n' : ℕ} {r : Option Receiver} {new : Request}
    (h : Progress s n r) (hreq : t.requests = s.requests ++ [new])
    (hans : t.answered = s.answered) (hout : t.outcomes = s.outcomes) (hn : n ≤ n') :
    Progress t n' r := by
  unfold Progress at h ⊢
  rw [hans, hout, hreq]
  have hget : ∀ {k : ℕ} {a : Request}, s.requests[k]? = some a →
      (s.requests ++ [new])[k]? = some a := by
    intro k a hk
    have hlt := (List.getElem?_eq_some_iff.mp hk).1
    rw [List.getElem?_append_left hlt]
    exact hk
  split at h
  · exact ⟨h.1, by omega⟩
  · obtain ⟨heq, hle, a, ha, hxid⟩ := h
    exact ⟨heq, by omega, a, hget ha, hxid⟩
  · obtain ⟨heq, hlt, a, ha, hmsg⟩ := h
    exact ⟨heq, by omega, a, hget ha, hmsg⟩

/-- A further request, after one that was not recorded or itself not recorded. -/
theorem Within.extend {s t : State} {n : ℕ} {later ext : List SentMsg} {new : Request}
    (hs : Within s n later) (hreq : t.requests = s.requests ++ [new])
    (hwait : t.stats.replyWaitingList = s.stats.replyWaitingList ++ ext)
    (hrec : t.receiver = s.receiver) (hans : t.answered = s.answered)
    (hout : t.outcomes = s.outcomes)
    (hext : ∀ e ∈ ext, e = new.msg ∧ n < s.requests.length)
    (hfull : n = s.requests.length → ¬Room n new) :
    Within t n (later ++ ext) := by
  have htake : t.requests.take n = s.requests.take n := by
    rw [hreq]
    exact List.take_append_of_le_length hs.le
  have htaken : t.taken = s.taken := by
    unfold State.taken
    rw [hrec, hans]
  have hmem : ∀ e ∈ (s.requests.drop (n + 1)).map Request.msg,
      e ∈ (t.requests.drop (n + 1)).map Request.msg := by
    intro e he
    rw [hreq, List.drop_append, List.map_append]
    exact List.mem_append_left _ he
  have hlength : t.requests.length = s.requests.length + 1 := by
    rw [hreq, List.length_append, List.length_singleton]
  have hle := hs.le
  refine ⟨by omega, ?_, ?_, by omega, ?_, ?_, ?_, ?_⟩
  · intro i r hi hr
    rw [hreq, List.getElem?_append_left (by omega)] at hr
    exact hs.light i r hi hr
  · intro r hr
    rw [hreq] at hr
    rcases Nat.lt_or_eq_of_le hs.le with hlt | heq
    · rw [List.getElem?_append_left hlt] at hr
      exact hs.heavy r hr
    · rw [heq, List.getElem?_concat_length] at hr
      rw [← Option.some.inj hr]
      exact hfull heq
  · intro e he
    rcases List.mem_append.mp he with hold | hnew
    · exact hmem e (hs.refused e hold)
    · obtain ⟨rfl, hlt⟩ := hext e hnew
      rw [hreq, List.drop_append_of_le_length hlt, List.map_append]
      simp
  · rw [hwait, hs.waiting, htake, htaken, List.append_assoc]
  · rw [hrec]
    exact hs.progress.snoc hreq hans hout (Nat.le_refl n)
  · rw [hout]
    exact hs.sampled

/-- A further request that is recorded, as all before it were. -/
theorem Within.record {s t : State} {new : Request} (hs : Within s s.requests.length [])
    (hreq : t.requests = s.requests ++ [new])
    (hwait : t.stats.replyWaitingList = s.stats.replyWaitingList ++ [new.msg])
    (hrec : t.receiver = s.receiver) (hans : t.answered = s.answered)
    (hout : t.outcomes = s.outcomes) (hhead : t.headIndex = s.headIndex)
    (hlight : Room s.requests.length new) : Within t t.requests.length [] := by
  have htaken : t.taken = s.taken := by
    unfold State.taken
    rw [hrec, hans]
  refine ⟨Nat.le_refl _, ?_, ?_, fun _ => ?_, by simp, ?_, ?_, ?_⟩
  · intro i r _ hr
    rw [hreq] at hr
    rcases Holding.getElem?_snoc hr with hold | ⟨rfl, rfl⟩
    · exact hs.light i r (List.getElem?_eq_some_iff.mp hold).1 hold
    · exact hlight
  · intro r hr
    rw [List.getElem?_eq_none (Nat.le_refl _)] at hr
    cases hr
  · rw [hhead, htaken, hs.head rfl]
  · have hold := hs.waiting
    rw [List.append_nil, List.take_length] at hold
    rw [hwait, hold, htaken, List.append_nil, List.take_length, hreq,
      List.drop_append_of_le_length hs.taken_le, List.map_append]
    rfl
  · rw [hrec]
    apply hs.progress.snoc hreq hans hout
    rw [hreq, List.length_append]
    exact Nat.le_add_right _ _
  · rw [hout]
    exact hs.sampled

/-- The first request that is not recorded is the first one that finds no room. -/
theorem within_sent {s t : State} {n : ℕ} {later : List SentMsg} {m : SentMsg}
    (hs : Within s n later) (h : step s (.sent m) = some t) :
    ∃ n' later', Within t n' later' := by
  obtain rfl := Option.some.inj h
  have hwaiting := trySent_replyWaitingList s m
  by_cases hfull : s.queue.Full .default
  · rw [if_pos hfull, ← List.append_nil s.stats.replyWaitingList] at hwaiting
    have hroom : n = s.requests.length → ¬Room n ⟨m, s.taken⟩ := by
      rintro rfl
      exact (hs.full_iff m).mp hfull
    exact ⟨n, later ++ [], hs.extend rfl hwaiting rfl rfl rfl (by simp) hroom⟩
  · rw [if_neg hfull] at hwaiting
    rcases Nat.lt_or_eq_of_le hs.le with hlt | rfl
    · have hext : ∀ e ∈ [m], e = m ∧ n < s.requests.length := by
        intro e he
        exact ⟨List.mem_singleton.mp he, hlt⟩
      exact ⟨n, later ++ [m], hs.extend rfl hwaiting rfl rfl rfl hext (by omega)⟩
    · have hroom := not_not.mp (mt (hs.full_iff m).mpr hfull)
      obtain rfl := hs.later_eq_nil (Nat.le_succ _)
      exact ⟨_, [], hs.record rfl hwaiting rfl rfl rfl rfl hroom⟩

theorem within_received {s t : State} {n : ℕ} {later : List SentMsg} {type : OFPT}
    {tp : TimePoint} (hs : Within s n later) (h : step s (.received type tp) = some t) :
    Within t n later := by
  simp only [step] at h
  split at h
  next r hidle hr =>
    obtain rfl := Option.some.inj h
    have hprogress := hs.progress
    rw [hidle] at hprogress
    obtain ⟨hans, hle⟩ := hprogress
    have htaken : s.taken = s.answered := by
      unfold State.taken
      rw [hidle]
    have hwait := hs.waiting
    have hhead := hs.head
    rw [htaken] at hwait hhead
    refine ⟨hs.le, hs.light, hs.heavy, hhead, hs.refused, hwait,
      ⟨by dsimp only; omega, hle, r, ?_, rfl⟩, hs.sampled⟩
    rw [← hans]
    exact hr
  next => cases h

/-- The first recorded request on the list is the one the search is for. -/
theorem Within.waiting_cons {s : State} {n : ℕ} {later : List SentMsg} (hs : Within s n later)
    {r : Request} (hr : s.requests[s.taken]? = some r) (hlt : s.taken < n) :
    s.stats.replyWaitingList =
      r.msg :: (((s.requests.take n).drop (s.taken + 1)).map Request.msg ++ later) := by
  have hget : (s.requests.take n)[s.taken]? = some r := by
    rw [List.getElem?_take_of_lt hlt]
    exact hr
  obtain ⟨hlt', hval⟩ := List.getElem?_eq_some_iff.mp hget
  rw [hs.waiting, List.drop_eq_getElem_cons hlt', hval]
  rfl

theorem xid_ne_of_later {s : State} {n : ℕ} {later : List SentMsg} (hs : Within s n later)
    (hnd : s.xids.Nodup) {r : Request} (hr : s.requests[n]? = some r) {e : SentMsg}
    (he : e ∈ later) : e.xid ≠ r.msg.xid := by
  obtain ⟨a, ha, rfl⟩ := List.mem_map.mp (hs.refused e he)
  obtain ⟨hlt, hval⟩ := List.getElem?_eq_some_iff.mp hr
  have hsplit : s.requests = s.requests.take n ++ r :: s.requests.drop (n + 1) := by
    rw [← hval, List.getElem_cons_drop, List.take_append_drop]
  unfold State.xids at hnd
  rw [hsplit, List.map_append, List.map_cons] at hnd
  have htail := (List.nodup_append.mp hnd).2.1
  intro heq
  apply (List.nodup_cons.mp htail).1
  rw [← heq]
  exact List.mem_map_of_mem ha

/-- The next step of a search looks at the first entry of the list. -/
theorem search_cases {s t : State} {xid : UInt32} {tp : TimePoint}
    (hrec : s.receiver = some (.searching xid tp)) (h : step s .advance = some t) :
    match s.stats.replyWaitingList with
    | [] => t = { s with
        receiver := none
        outcomes := s.outcomes ++ (s.current.map fun m => ⟨m, tp, none⟩).toList }
    | last :: rest => t = { s with
        stats := { s.stats with replyWaitingList := rest }
        headIndex := s.headIndex + 1
        receiver := some
          (if last.xid ≠ xid then .searching xid tp else .matched xid last tp) } := by
  unfold step at h
  rw [hrec] at h
  obtain rfl := Option.some.inj h
  cases hw : s.stats.replyWaitingList <;> simp [Receiver.advance, Receiver.outcome, hw]

theorem State.taken_of_searching {s : State} {xid : UInt32} {tp : TimePoint}
    (hrec : s.receiver = some (.searching xid tp)) : s.taken = s.answered - 1 := by
  unfold State.taken
  rw [hrec]

/-- The search for a request that was recorded finds it at once. -/
theorem within_find {s t : State} {n : ℕ} {later : List SentMsg} {xid : UInt32}
    {tp : TimePoint} (hs : Within s n later) (hrec : s.receiver = some (.searching xid tp))
    (hlt : s.outcomes.length < n) (h : step s .advance = some t) :
    Within t n later ∧ ∃ last, t.receiver = some (.matched xid last tp) := by
  have hprogress := hs.progress
  rw [hrec] at hprogress
  obtain ⟨hans, -, r, hr, hxid⟩ := hprogress
  have htaken : s.taken = s.outcomes.length := by
    rw [State.taken_of_searching hrec]
    omega
  have hcases := search_cases hrec h
  rw [hs.waiting_cons (by rw [htaken]; exact hr) (by omega)] at hcases
  dsimp only at hcases
  rw [if_neg (by rw [hxid]; exact fun hne => hne rfl)] at hcases
  subst hcases
  refine ⟨⟨hs.le, hs.light, hs.heavy, fun hn => ?_, hs.refused, ?_, ⟨hans, hlt, r, hr, rfl⟩,
    hs.sampled⟩, r.msg, rfl⟩
  · rw [hs.head hn, htaken, ← hans]
    rfl
  · rw [htaken, ← hans]
    rfl

/-- The search for a request that was not recorded discards the list and ends without it. -/
theorem within_miss {s t : State} {n : ℕ} {later : List SentMsg} {xid : UInt32}
    {tp : TimePoint} (hs : Within s n later) (hnd : s.xids.Nodup)
    (hrec : s.receiver = some (.searching xid tp)) (heq : s.outcomes.length = n)
    (h : step s .advance = some t) : (∃ later', Within t n later') ∨ Dropped t := by
  have hprogress := hs.progress
  rw [hrec] at hprogress
  obtain ⟨hans, hle, r, hr, hxid⟩ := hprogress
  rw [heq] at hans hle hr
  have htaken : s.taken = n := by
    rw [State.taken_of_searching hrec]
    omega
  have hnone : ∀ k, n ≤ k → (s.requests.take n).drop k = [] := by
    intro k hk
    apply List.drop_of_length_le
    rw [List.length_take]
    omega
  have hwait : s.stats.replyWaitingList = later := by
    rw [hs.waiting, htaken, hnone n (Nat.le_refl n)]
    rfl
  have hcases := search_cases hrec h
  rw [hwait] at hcases
  cases later with
  | nil =>
    have hcurrent : s.current = some r.msg := by
      unfold State.current
      rw [hans, Nat.add_sub_cancel, hr]
      rfl
    dsimp only at hcases
    rw [hcurrent] at hcases
    subst hcases
    refine .inr ⟨n, ⟨r.msg, tp, none⟩, r, ?_, rfl, hr, hs.heavy r hr⟩
    rw [← heq]
    exact List.getElem?_concat_length
  | cons last rest =>
    have hne : last.xid ≠ xid := by
      rw [← hxid]
      exact xid_ne_of_later hs hnd hr (List.mem_cons_self)
    dsimp only at hcases
    rw [if_pos hne] at hcases
    subst hcases
    have hlt := (List.getElem?_eq_some_iff.mp hr).1
    refine .inl ⟨rest, hs.le, hs.light, hs.heavy, by dsimp only; omega, ?_, ?_, ?_, hs.sampled⟩
    · intro e he
      exact hs.refused e (List.mem_cons_of_mem _ he)
    · rw [State.taken_of_searching rfl]
      dsimp only
      rw [hans, Nat.add_sub_cancel, hnone n (Nat.le_refl n)]
      rfl
    · unfold Progress
      dsimp only
      rw [heq]
      exact ⟨hans, hle, r, hr, hxid⟩

/-- The sample of a request that was found is recorded. -/
theorem within_matched {s t : State} {n : ℕ} {later : List SentMsg} {xid : UInt32}
    {last : SentMsg} {tp : TimePoint} (hs : Within s n later)
    (hrec : s.receiver = some (.matched xid last tp)) (h : step s .advance = some t) :
    Within t n later ∧ t.receiver = none := by
  have hprogress := hs.progress
  rw [hrec] at hprogress
  obtain ⟨hans, hlt, r, hr, hmsg⟩ := hprogress
  have htaken : s.taken = s.answered := by
    unfold State.taken
    rw [hrec]
  have hcurrent : s.current = some last := by
    unfold State.current
    rw [hans, Nat.add_sub_cancel, hr, ← hmsg]
    rfl
  have ht : t = { s with
      stats := s.stats.record last.type (latencyMicros tp last.tp)
      receiver := none
      outcomes := s.outcomes ++ [⟨last, tp, some (last.type, latencyMicros tp last.tp)⟩] } := by
    unfold step at h
    rw [hrec] at h
    rw [← Option.some.inj h]
    simp [Receiver.advance, Receiver.outcome, hcurrent]
  subst ht
  have hwait := hs.waiting
  have hhead := hs.head
  rw [htaken] at hwait hhead
  refine ⟨⟨hs.le, hs.light, hs.heavy, hhead, hs.refused, hwait, ⟨?_, ?_⟩, ?_⟩, rfl⟩
  · rw [List.length_append]
    exact hans
  · rw [List.length_append]
    exact hlt
  · intro o ho
    rcases List.mem_append.mp ho with hold | hnew
    · exact hs.sampled o hold
    · rw [List.mem_singleton.mp hnew]
      rfl

theorem dropped_step {s t : State} {l : Label} (hs : Dropped s) (h : step s l = some t) :
    Dropped t := by
  obtain ⟨i, o, r, ho, hnone, hr, hheavy⟩ := hs
  have hgrow : (∃ new, t.outcomes = s.outcomes ++ new) ∧ ∃ new, t.requests = s.requests ++ new := by
    cases l with
    | sent m =>
      obtain rfl := Option.some.inj h
      exact ⟨⟨[], by simp⟩, _, rfl⟩
    | received type tp =>
      simp only [step] at h
      split at h
      · obtain rfl := Option.some.inj h
        exact ⟨⟨[], by simp⟩, [], by simp⟩
      · cases h
    | advance =>
      obtain ⟨rcv, -, rfl⟩ := Option.map_eq_some_iff.mp h
      exact ⟨⟨_, rfl⟩, [], by simp⟩
  obtain ⟨⟨outs, hout⟩, reqs, hreq⟩ := hgrow
  refine ⟨i, o, r, ?_, hnone, ?_, hheavy⟩
  · rw [hout, List.getElem?_append_left (List.getElem?_eq_some_iff.mp ho).1]
    exact ho
  · rw [hreq, List.getElem?_append_left (List.getElem?_eq_some_iff.mp hr).1]
    exact hr

def Label.sentXid : Label → Option UInt32
  | .sent m => some m.xid
  | _ => none

theorem xids_step {s t : State} {l : Label} (h : step s l = some t) :
    t.xids = s.xids ++ l.sentXid.toList := by
  cases l with
  | sent m =>
    obtain rfl := Option.some.inj h
    unfold State.xids
    rw [List.map_append]
    rfl
  | received type tp =>
    simp only [step] at h
    split at h
    · obtain rfl := Option.some.inj h
      exact (List.append_nil _).symm
    · cases h
  | advance =>
    obtain ⟨rcv, -, rfl⟩ := Option.map_eq_some_iff.mp h
    exact (List.append_nil _).symm

/-- Up to the first reply whose search ends without its request, the list is as described. -/
def Inv (s : State) : Prop := s.xids.Nodup → (∃ n later, Within s n later) ∨ Dropped s

theorem inv_step (s : State) (l : Label) (t : State) (hs : Inv s) (h : step s l = some t) :
    Inv t := by
  intro hnd
  have hnd' : s.xids.Nodup := by
    rw [xids_step h] at hnd
    exact (List.nodup_append.mp hnd).1
  rcases hs hnd' with ⟨n, later, hwithin⟩ | hdropped
  · cases l with
    | sent m => exact .inl (within_sent hwithin h)
    | received type tp => exact .inl ⟨n, later, within_received hwithin h⟩
    | advance =>
      obtain ⟨rcv, hrec, -⟩ := Option.map_eq_some_iff.mp h
      cases rcv with
      | matched xid last tp => exact .inl ⟨n, later, (within_matched hwithin hrec h).1⟩
      | searching xid tp =>
        have hprogress := hwithin.progress
        rw [hrec] at hprogress
        rcases Nat.lt_or_eq_of_le hprogress.2.1 with hlt | heq
        · exact .inl ⟨n, later, (within_find hwithin hrec hlt h).1⟩
        · rcases within_miss hwithin hnd' hrec heq h with ⟨later', hstill⟩ | hnow
          · exact .inl ⟨n, later', hstill⟩
          · exact .inr hnow
  · exact .inr (dropped_step hdropped h)

theorem inv_of_exec {ls : List Label} {s : State} (h : Transition.exec step init ls = some s) :
    Inv s :=
  Transition.exec_invariant inv_step (fun _ => .inl ⟨0, [], within_init⟩) h

theorem Within.outcomes_le {s : State} {n : ℕ} {later : List SentMsg} (h : Within s n later) :
    s.outcomes.length ≤ n := by
  have hprogress := h.progress
  unfold Progress at hprogress
  split at hprogress <;> omega

theorem eachReplySampled_iff_of_inv {s : State} (h : Inv s) (hnd : s.xids.Nodup) :
    EachReplySampled s.outcomes ↔ RoomWhenSent s := by
  rcases h hnd with ⟨n, later, hwithin⟩ | ⟨i, o, r, ho, hnone, hr, hheavy⟩
  · constructor
    · intro _ i r hi hr
      exact hwithin.light i r (Nat.lt_of_lt_of_le hi hwithin.outcomes_le) hr
    · intro _
      exact hwithin.sampled
  · constructor
    · intro hsampled
      have hsome := hsampled o (List.mem_of_getElem? ho)
      rw [hnone] at hsome
      cases hsome
    · intro hroom
      exact absurd (hroom i r (List.getElem?_eq_some_iff.mp ho).1 hr) hheavy

/-- The requests whose `received` calls began are those of the calls that ended and of the
one in progress. -/
def Handled (s : State) : Prop :=
  (s.requests.take s.answered).map Request.msg =
    s.outcomes.map Outcome.request ++ (s.receiver.bind fun _ => s.current).toList

/-- What holds in every run. -/
structure Account (s : State) : Prop where
  current : s.receiver ≠ none → s.current ≠ none
  answered_le : s.answered ≤ s.requests.length
  handled : Handled s
  recorded : Recorded s.stats.statsLatency s.outcomes 0

theorem account_init : Account init where
  current := fun hne => absurd rfl hne
  answered_le := Nat.le_refl 0
  handled := rfl
  recorded := .create

theorem account_sent {s t : State} {m : SentMsg} (h : Account s)
    (ht : step s (.sent m) = some t) : Account t := by
  obtain rfl := Option.some.inj ht
  have hcurrent : s.receiver ≠ none →
      (s.requests ++ [⟨m, s.taken⟩])[s.answered - 1]?.map Request.msg = s.current := by
    intro hne
    obtain ⟨c, hc⟩ := Option.ne_none_iff_exists'.mp (h.current hne)
    obtain ⟨r, hr, -⟩ := Option.map_eq_some_iff.mp hc
    rw [List.getElem?_append_left (List.getElem?_eq_some_iff.mp hr).1]
    rfl
  refine ⟨fun hne => ?_, ?_, ?_, ?_⟩
  · exact fun hnone => h.current hne ((hcurrent hne).symm.trans hnone)
  · rw [List.length_append]
    exact Nat.le_add_right_of_le h.answered_le
  · have hold := h.handled
    unfold Handled at hold ⊢
    dsimp only
    rw [List.take_append_of_le_length h.answered_le, hold]
    congr 2
    cases hr : s.receiver with
    | none => rfl
    | some r => exact (hcurrent (by rw [hr]; exact Option.some_ne_none r)).symm
  · dsimp only [trySent]
    split_ifs
    · exact h.recorded
    · exact h.recorded

theorem account_received {s t : State} {type : OFPT} {tp : TimePoint} (h : Account s)
    (ht : step s (.received type tp) = some t) : Account t := by
  simp only [step] at ht
  split at ht
  next r hidle hr =>
    obtain rfl := Option.some.inj ht
    refine ⟨fun _ => ?_, (List.getElem?_eq_some_iff.mp hr).1, ?_, h.recorded⟩
    · simp [State.current, hr]
    · have hold := h.handled
      unfold Handled at hold ⊢
      rw [hidle] at hold
      simp only [List.take_add_one, List.map_append, hold, hr, State.current]
      simp [hr]
  next => cases ht

theorem account_advance {s t : State} (h : Account s) (ht : step s .advance = some t) :
    Account t := by
  obtain ⟨r, hr, rfl⟩ := Option.map_eq_some_iff.mp ht
  have hne : s.receiver ≠ none := by
    rw [hr]
    exact Option.some_ne_none r
  obtain ⟨m, hm⟩ := Option.ne_none_iff_exists'.mp (h.current hne)
  refine ⟨fun _ => h.current hne, h.answered_le, ?_, ?_⟩
  · have hold := h.handled
    have hone := request_outcome s.stats r m
    unfold Handled at hold ⊢
    change (s.requests.take s.answered).map Request.msg =
      (s.outcomes ++ r.outcome s.stats s.current).map Outcome.request ++
        ((r.advance s.stats).2.bind fun _ => s.current).toList
    rw [hold, hm, hr, List.map_append, List.append_assoc]
    congr 1
    change [m] = _
    rw [← hone]
    congr 1
    cases (r.advance s.stats).2 <;> rfl
  · have hrec := h.recorded.advance r m
    rw [← hm] at hrec
    exact hrec

theorem account_exec {ls : List Label} {s : State} (h : Transition.exec step init ls = some s) :
    Account s := by
  refine Transition.exec_invariant (fun s l t hs ht => ?_) account_init h
  cases l with
  | sent m => exact account_sent hs ht
  | received type tp => exact account_received hs ht
  | advance => exact account_advance hs ht

/-- A step calls the queue at most once. -/
theorem queue_step {s t : State} {l : Label} (h : step s l = some t) :
    ∃ calls : List (ConcurrentQueue.Call Unit SentMsg),
      (calls.foldl (Spec.call .default) s.queue).first = t.queue.first ∧
      (calls.foldl (Spec.call .default) s.queue).items = t.queue.items := by
  cases l with
  | sent m =>
    obtain rfl := Option.some.inj h
    refine ⟨[.tryEnqueue m], ?_⟩
    have hwaiting := trySent_replyWaitingList s m
    simp only [List.foldl_cons, List.foldl_nil, Spec.call]
    by_cases hfull : s.queue.Full .default
    · rw [if_pos hfull] at hwaiting ⊢
      exact ⟨rfl, hwaiting.symm⟩
    · rw [if_neg hfull] at hwaiting ⊢
      exact ⟨rfl, hwaiting.symm⟩
  | received type tp =>
    simp only [step] at h
    split at h
    · obtain rfl := Option.some.inj h
      exact ⟨[], rfl, rfl⟩
    · cases h
  | advance =>
    obtain ⟨r, hr, rfl⟩ := Option.map_eq_some_iff.mp h
    cases r with
    | matched xid last tp => exact ⟨[], by simp [State.queue, Receiver.advance]⟩
    | searching xid tp =>
      refine ⟨[.tryDequeue ()], ?_⟩
      simp only [List.foldl_cons, List.foldl_nil, Spec.call]
      cases hw : s.stats.replyWaitingList <;> simp [State.queue, Receiver.advance, hw]

/-- What the calls leave depends on the elements that wait, not on the histories. -/
theorem foldl_call_congr {q r : Spec Unit SentMsg} (hfirst : q.first = r.first)
    (hitems : q.items = r.items) (calls : List (ConcurrentQueue.Call Unit SentMsg)) :
    (calls.foldl (Spec.call .default) q).first = (calls.foldl (Spec.call .default) r).first ∧
      (calls.foldl (Spec.call .default) q).items =
        (calls.foldl (Spec.call .default) r).items := by
  induction calls generalizing q r with
  | nil => exact ⟨hfirst, hitems⟩
  | cons call calls ih =>
    have hfull : q.Full .default ↔ r.Full .default := by
      unfold Spec.Full
      rw [hfirst, hitems]
    refine ih ?_ ?_
    · cases call with
      | tryEnqueue m => by_cases h : r.Full .default <;> simp [Spec.call, hfull, h, hfirst]
      | tryDequeue c => cases h : r.items <;> simp [Spec.call, hitems, h, hfirst]
    · cases call with
      | tryEnqueue m => by_cases h : r.Full .default <;> simp [Spec.call, hfull, h, hitems]
      | tryDequeue c => cases h : r.items <;> simp [Spec.call, hitems, h]

/-- The waiting list is that of a new queue after calls one after the other. -/
def OfCalls (s : State) : Prop :=
  ∃ calls : List (ConcurrentQueue.Call Unit SentMsg),
    (calls.foldl (Spec.call .default) ⟨0, [], [], []⟩).first = s.headIndex ∧
    (calls.foldl (Spec.call .default) ⟨0, [], [], []⟩).items = s.stats.replyWaitingList

theorem ofCalls_exec {ls : List Label} {s : State} (h : Transition.exec step init ls = some s) :
    OfCalls s := by
  refine Transition.exec_invariant (fun s l t hs ht => ?_) ⟨[], rfl, rfl⟩ h
  obtain ⟨calls, hfirst, hitems⟩ := hs
  obtain ⟨next, hnext⟩ := queue_step ht
  obtain ⟨hfirst', hitems'⟩ := foldl_call_congr (r := s.queue) hfirst hitems next
  refine ⟨calls ++ next, ?_, ?_⟩
  · rw [List.foldl_append, hfirst']
    exact hnext.1
  · rw [List.foldl_append, hitems']
    exact hnext.2

/-- In every run, each accumulator keeps exactly the samples of its type of the `received`
calls that ended. With distinct xids, each of these calls recorded one sample, of its
request, exactly when each request they answer found room when it was sent. -/
theorem eachReplySampled_iff_roomWhenSent (ls : List Label) (s : State)
    (h : Transition.exec step init ls = some s) (hnd : s.xids.Nodup) :
    Handled s ∧
    (∀ type, (s.stats.statsLatency.getD type .empty).Keeps (samples type s.outcomes)) ∧
    OfCalls s ∧ (EachReplySampled s.outcomes ↔ RoomWhenSent s) :=
  ⟨(account_exec h).handled, (account_exec h).recorded.keeps_all,
    ofCalls_exec h, eachReplySampled_iff_of_inv (inv_of_exec h) hnd⟩

/-- `n` requests with the xids from 1 on. -/
def requestBurst (n : ℕ) : List Label :=
  (List.range n).map fun i => .sent ⟨.ofNat (i + 1), .echoRequest, 0⟩

/-- The next `n` replies, each of which finds its request. -/
def replies (n : ℕ) : List Label :=
  (List.replicate n [.received .echoReply 1000, .advance, .advance]).flatten

theorem eachReplySampled_iff_threeRequests :
    ∃ s, Transition.exec step init (requestBurst 3 ++ replies 3) = some s ∧
      s.xids = [1, 2, 3] ∧ s.outcomes.length = 3 ∧ EachReplySampled s.outcomes ∧
      (s.stats.statsLatency.getD .echoRequest .empty).Keeps [1, 1, 1] := by
  obtain ⟨s, hs, hxids, hout, hsamples, hroom⟩ : ∃ s,
      Transition.exec step init (requestBurst 3 ++ replies 3) = some s ∧ s.xids = [1, 2, 3] ∧
      s.outcomes.length = 3 ∧ samples .echoRequest s.outcomes = [1, 1, 1] ∧
      ∀ r ∈ s.requests, r.taken = 0 := ⟨_, rfl, rfl, rfl, rfl, by decide⟩
  have hnd : s.xids.Nodup := by
    rw [hxids]
    decide
  obtain ⟨-, hkeeps, -, hiff⟩ := eachReplySampled_iff_roomWhenSent _ s hs hnd
  refine ⟨s, hs, hxids, hout, hiff.mpr fun i r hi hr => ?_, hsamples ▸ hkeeps .echoRequest⟩
  unfold Room
  rw [hroom r (List.mem_of_getElem? hr)]
  omega

/-- The steps of a `received` call after its first begin no call and add no request. -/
theorem advance_frame {s t : State} (h : step s .advance = some t) :
    t.requests = s.requests ∧ t.answered = s.answered := by
  obtain ⟨r, -, rfl⟩ := Option.map_eq_some_iff.mp h
  exact ⟨rfl, rfl⟩

theorem exists_advance {s : State} {r : Receiver} (hrec : s.receiver = some r) :
    ∃ t, step s .advance = some t := by
  unfold step
  rw [hrec]
  exact ⟨_, rfl⟩

theorem step_received {s : State} {r : Request} (hidle : s.receiver = none)
    (hr : s.requests[s.answered]? = some r) (type : OFPT) (tp : TimePoint) :
    step s (.received type tp) = some
      { s with receiver := some (.searching r.msg.xid tp), answered := s.answered + 1 } := by
  unfold step
  dsimp only
  rw [hidle, hr]

/-- The reply to a request that was recorded gives its sample. -/
theorem exec_reply {s : State} {n : ℕ} {later : List SentMsg} (hs : Within s n later)
    (hidle : s.receiver = none) (hlt : s.outcomes.length < n) (type : OFPT) (tp : TimePoint) :
    ∃ t, Transition.exec step s [.received type tp, .advance, .advance] = some t ∧
      Within t n later ∧ t.receiver = none ∧ t.requests = s.requests ∧
      t.outcomes.length = s.outcomes.length + 1 := by
  have hprogress := hs.progress
  rw [hidle] at hprogress
  obtain ⟨hans, -⟩ := hprogress
  have hle := hs.le
  obtain ⟨r, hr⟩ : ∃ r, s.requests[s.answered]? = some r :=
    ⟨_, List.getElem?_eq_getElem (by omega)⟩
  have hu := step_received hidle hr type tp
  obtain ⟨v, hv⟩ := exists_advance (s := { s with
    receiver := some (.searching r.msg.xid tp)
    answered := s.answered + 1 }) rfl
  obtain ⟨hfound, last, hmatched⟩ := within_find (within_received hs hu) rfl hlt hv
  obtain ⟨t, ht⟩ := exists_advance hmatched
  obtain ⟨hdone, hended⟩ := within_matched hfound hmatched ht
  have hreq := (advance_frame ht).1.trans (advance_frame hv).1
  have hanswered := (advance_frame ht).2.trans (advance_frame hv).2
  have hexec : Transition.exec step s [.received type tp, .advance, .advance] = some t :=
    Transition.exec_cons.mpr ⟨_, hu, Transition.exec_cons.mpr ⟨v, hv,
      Transition.exec_cons.mpr ⟨t, ht, rfl⟩⟩⟩
  refine ⟨t, hexec, hdone, hended, hreq, ?_⟩
  have hcount := hdone.progress
  rw [hended] at hcount
  rw [← hcount.1, hanswered, hans]

/-- One reply after the other, each recorded request gives its sample. -/
theorem exec_replies {s : State} {n : ℕ} {later : List SentMsg} (hs : Within s n later)
    (hidle : s.receiver = none) {k : ℕ} (hk : s.outcomes.length + k ≤ n) :
    ∃ t, Transition.exec step s (replies k) = some t ∧ Within t n later ∧
      t.receiver = none ∧ t.requests = s.requests ∧ t.outcomes.length = s.outcomes.length + k := by
  induction k generalizing s with
  | zero => exact ⟨s, rfl, hs, hidle, rfl, rfl⟩
  | succ k ih =>
    obtain ⟨u, hu, hwithin, hrec, hreq, hout⟩ :=
      exec_reply hs hidle (by omega) .echoReply 1000
    obtain ⟨t, ht, hdone, hended, hreq', hout'⟩ := ih hwithin hrec (by omega)
    refine ⟨t, ?_, hdone, hended, hreq'.trans hreq, by omega⟩
    have hsplit : replies (k + 1) = [.received .echoReply 1000, .advance, .advance] ++ replies k :=
      rfl
    rw [hsplit]
    exact Transition.exec_append.mpr ⟨u, hu, ht⟩

/-- A burst of requests before the first reply. -/
structure Burst (s : State) (n : ℕ) : Prop where
  receiver : s.receiver = none
  answered : s.answered = 0
  outcomes : s.outcomes = []
  length : s.requests.length = n
  xids : s.xids = firstXids n
  taken : ∀ r ∈ s.requests, r.taken = 0

theorem exec_requestBurst (n : ℕ) :
    ∃ s, Transition.exec step init (requestBurst n) = some s ∧ Burst s n := by
  induction n with
  | zero => exact ⟨init, rfl, rfl, rfl, rfl, rfl, rfl, by simp [init]⟩
  | succ n ih =>
    obtain ⟨s, hs, hburst⟩ := ih
    have hsplit : requestBurst (n + 1) =
        requestBurst n ++ [.sent ⟨.ofNat (n + 1), .echoRequest, 0⟩] := by
      unfold requestBurst
      rw [List.range_succ, List.map_append]
      rfl
    rw [hsplit]
    refine ⟨_, Transition.exec_snoc.mpr ⟨s, hs, rfl⟩,
      hburst.receiver, hburst.answered, hburst.outcomes, ?_, ?_, ?_⟩
    · rw [List.length_append, hburst.length]
      rfl
    · rw [firstXids_succ, ← hburst.xids]
      unfold State.xids
      rw [List.map_append]
      rfl
    · intro r hr
      have htaken : s.taken = 0 := by
        unfold State.taken
        rw [hburst.receiver]
        exact hburst.answered
      rcases List.mem_append.mp hr with hold | hnew
      · exact hburst.taken r hold
      · rw [List.mem_singleton.mp hnew]
        exact htaken

/-- In a burst, the requests that the blocks have places for are recorded. -/
theorem Burst.within {s : State} (hs : Burst s 193) {n : ℕ} {later : List SentMsg}
    (h : Within s n later) : n = 192 ∧ later = [] := by
  have hle := h.le
  have hlength := hs.length
  have hroom : ∀ i r, s.requests[i]? = some r → (Room i r ↔ ¬(i % 32 = 0 ∧ 6 ≤ i / 32)) := by
    intro i r hr
    unfold Room
    rw [hs.taken r (List.mem_of_getElem? hr)]
    rfl
  have hn : n = 192 := by
    rcases Nat.lt_trichotomy n 192 with hlt | heq | hgt
    · have hr : s.requests[n]? = some s.requests[n] := List.getElem?_eq_getElem (by omega)
      have hheavy := h.heavy _ hr
      rw [hroom n _ hr] at hheavy
      omega
    · exact heq
    · have hr : s.requests[192]? = some s.requests[192] := List.getElem?_eq_getElem (by omega)
      have hlight := h.light 192 _ hgt hr
      rw [hroom 192 _ hr] at hlight
      omega
  exact ⟨hn, h.later_eq_nil (by omega)⟩

/-- All replies to one request more than the list has room for. -/
def overflow : List Label :=
  requestBurst 193 ++ replies 192 ++ [.received .echoReply 1000, .advance]

/-- The reply to the first request that was not recorded gives no sample, when no later one
was recorded. -/
theorem exec_unrecorded {s : State} {n : ℕ} (hs : Within s n []) (hidle : s.receiver = none)
    (hout : s.outcomes.length = n) {r : Request} (hr : s.requests[n]? = some r) (type : OFPT)
    (tp : TimePoint) : ∃ t, Transition.exec step s [.received type tp, .advance] = some t ∧
      t.requests = s.requests ∧ ⟨r.msg, tp, none⟩ ∈ t.outcomes := by
  have hprogress := hs.progress
  rw [hidle] at hprogress
  have hans : s.answered = n := hprogress.1.trans hout
  have hu := step_received hidle (by rw [hans]; exact hr) type tp
  obtain ⟨t, ht⟩ := exists_advance (s := { s with
    receiver := some (.searching r.msg.xid tp)
    answered := s.answered + 1 }) rfl
  have hwait : s.stats.replyWaitingList = [] := by
    have htaken : s.taken = n := by
      unfold State.taken
      rw [hidle]
      exact hans
    rw [hs.waiting, htaken, List.drop_of_length_le (by rw [List.length_take]; omega)]
    rfl
  have hcases := search_cases rfl ht
  dsimp only at hcases
  rw [hwait] at hcases
  have hexec : Transition.exec step s [.received type tp, .advance] = some t :=
    Transition.exec_cons.mpr ⟨_, hu, Transition.exec_cons.mpr ⟨t, ht, rfl⟩⟩
  refine ⟨t, hexec, (advance_frame ht).1, ?_⟩
  rw [hcases]
  unfold State.current
  dsimp only
  rw [hans, Nat.add_sub_cancel, hr]
  exact List.mem_append_right _ (List.mem_singleton.mpr rfl)

theorem exec_overflow : ∃ s, Transition.exec step init overflow = some s ∧ s.xids.Nodup ∧
    ∃ o ∈ s.outcomes, o.sample = none := by
  obtain ⟨s, hs, hburst⟩ := exec_requestBurst 193
  have hnd : s.xids.Nodup := by
    rw [hburst.xids]
    exact nodup_firstXids (by decide)
  obtain ⟨n, later, hwithin⟩ : ∃ n later, Within s n later := by
    rcases inv_of_exec hs hnd with hwithin | ⟨i, o, r, ho, -⟩
    · exact hwithin
    · rw [hburst.outcomes] at ho
      cases ho
  obtain ⟨rfl, rfl⟩ := hburst.within hwithin
  have hzero : s.outcomes.length = 0 := by
    rw [hburst.outcomes]
    rfl
  obtain ⟨t, ht, hall, hidle, hreq, hout⟩ :=
    exec_replies (k := 192) hwithin hburst.receiver (by omega)
  have hlt : 192 < t.requests.length := by
    rw [hreq, hburst.length]
    decide
  obtain ⟨u, hu, hreq', ho⟩ := exec_unrecorded hall hidle (by omega)
    (List.getElem?_eq_getElem hlt) .echoReply 1000
  refine ⟨u, ?_, ?_, _, ho, rfl⟩
  · exact Transition.exec_append.mpr ⟨t, Transition.exec_append.mpr ⟨s, hs, ht⟩, hu⟩
  · unfold State.xids
    rw [hreq', hreq]
    exact hnd

/-- The reply to the request that found the list full gives no sample. -/
theorem overflow_unsampled :
    ¬ ∀ ls s, Transition.exec step init ls = some s → s.xids.Nodup →
      EachReplySampled s.outcomes := by
  intro h
  obtain ⟨s, hs, hnd, o, ho, hnone⟩ := exec_overflow
  have hsampled := h overflow s hs hnd o ho
  rw [hnone] at hsampled
  cases hsampled

end Overload
end HVBench
