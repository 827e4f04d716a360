import HVBench.Statistics.Outcomes

/-! The sending thread and the network thread of a controller. A message is first
passed to the connection and only then recorded; its reply can come in between.
Replies arrive in request order, some requests stay unanswered. -/
namespace HVBench
namespace ReplyRace
open OFLatencyStats

/-- The arguments `message_callback` passes to `received`, for the message types it
treats as replies. -/
def receivedArgs (type : OFPT) (xid : UInt32) (statsType : OFPT) : Option (UInt32 × OFPT) :=
  match type with
  | .featuresReply => some (xid, type)
  | .echoReply => some (xid, type)
  | .statsReply => some (xid, statsType)
  | _ => none

/-- A message that awaits a reply, with the outcome of `is_alive` in `send`. -/
structure Request where
  msg : SentMsg
  transmitted : Bool
  deriving DecidableEq, Repr

structure State where
  stats : OFLatencyStats
  /-- The message that is sent and not yet recorded, with its send time. -/
  pending : Option (ScheduledMsg × TimePoint)
  receiver : Option Receiver
  /-- History: the requests in send order, how many of them have been recorded, the
  first one a later reply can answer, the replies handled so far, and how many of them
  before the last reset. -/
  requests : List Request
  recorded : ℕ
  answered : ℕ
  outcomes : List Outcome
  resetAt : ℕ

def init : State where
  stats := create
  pending := none
  receiver := none
  requests := []
  recorded := 0
  answered := 0
  outcomes := []
  resetAt := 0

inductive Label
  /-- `conn->send(next)`, after the second reading of the clock. -/
  | send (next : ScheduledMsg) (now : TimePoint) (alive : Bool)
  /-- The rest of the iteration, with `latency_stats_->sent`. -/
  | record
  /-- `accept`, which resets the accumulators. -/
  | accept
  /-- `message_callback` starts to handle the reply to request `i`. -/
  | reply (i : ℕ) (type statsType : OFPT) (tp : TimePoint)
  /-- The network thread continues its `received` call. -/
  | advance
  deriving DecidableEq, Repr

/-- The request the network thread is handling the reply to. -/
def State.current (s : State) : Option SentMsg := s.requests[s.answered - 1]?.map Request.msg

def step (s : State) : Label → Option State
  | .send next now alive =>
    if s.pending = none then some
      { s with
        pending := some (next, now)
        requests := s.requests ++ ((sentCall next now).map (⟨·, alive⟩)).toList }
    else none
  | .record =>
    s.pending.map fun (next, now) =>
      { s with
        pending := none
        stats := match sentCall next now with
          | some m => s.stats.sent m.xid m.type m.tp
          | none => s.stats
        recorded := s.requests.length }
  | .accept =>
    if s.pending = none then
      some { s with stats := s.stats.reset, resetAt := s.outcomes.length }
    else none
  | .reply i type statsType tp =>
    if s.receiver = none ∧ s.answered ≤ i then do
      let r ← s.requests[i]?
      let (xid, _) ← receivedArgs type r.msg.xid statsType
      if r.transmitted then
        some { s with receiver := some (.searching xid tp), answered := i + 1 }
      else none
    else none
  | .advance =>
    s.receiver.map fun r =>
      { s with
        stats := (r.advance s.stats).1
        receiver := (r.advance s.stats).2
        outcomes := s.outcomes ++ r.outcome s.stats s.current }

/-- The request a step begins to handle the reply to. -/
def Label.answer : Label → Option ℕ
  | .reply i _ _ _ => some i
  | _ => none

/-- The replies of the run are those that were handled and the one in progress. -/
def Handled (ls : List Label) (s : State) : Prop :=
  (ls.filterMap Label.answer).map (fun i => s.requests[i]?.map Request.msg) =
    s.outcomes.map (fun o => some o.request) ++ (s.receiver.map fun _ => s.current).toList

/-- When the search for a reply runs out of entries, the request had been recorded. -/
def RecordedInTime (s : State) (l : Label) : Prop :=
  l = .advance → (∃ xid tp, s.receiver = some (.searching xid tp)) →
    s.stats.replyWaitingList = [] → s.answered ≤ s.recorded

/-- No unanswered request before the answered one has the same xid. -/
def Unambiguous (s : State) (l : Label) : Prop :=
  ∀ i type statsType tp, l = .reply i type statsType tp →
    ∀ j r r', s.answered ≤ j → j < i → s.requests[j]? = some r → s.requests[i]? = some r' →
      r.msg.xid ≠ r'.msg.xid

/-- The recorded requests, as entries of the waiting list. -/
def State.records (s : State) : List SentMsg := (s.requests.take s.recorded).map Request.msg

/-- How far the waiting list has been consumed, for each progress of the network thread. -/
def Tracks (s : State) : Option Receiver → Prop
  | none => s.answered ≤ s.recorded ∧ s.stats.replyWaitingList = s.records.drop s.answered
  | some (.searching xid _) => ∃ i r k, s.answered = i + 1 ∧ s.requests[i]? = some r ∧
      r.msg.xid = xid ∧ k ≤ i ∧ s.stats.replyWaitingList = s.records.drop k ∧
      ∀ j r', k ≤ j → j < i → s.requests[j]? = some r' → r'.msg.xid ≠ xid
  | some (.matched _ last _) => ∃ i r, s.answered = i + 1 ∧ s.requests[i]? = some r ∧
      r.msg = last ∧ i < s.recorded ∧ s.stats.replyWaitingList = s.records.drop (i + 1)

/-- What holds as long as every search finds its request recorded. -/
structure Inv (s : State) : Prop where
  recorded : ∃ ext, s.requests = s.requests.take s.recorded ++ ext ∧
    s.recorded ≤ s.requests.length ∧
    match s.pending with
    | none => ext = []
    | some (next, now) => ext.map Request.msg = (sentCall next now).toList
  tracks : Tracks s s.receiver
  sampled : EachReplySampled s.outcomes

theorem Inv.recorded_le {s : State} (h : Inv s) : s.recorded ≤ s.requests.length := by
  obtain ⟨-, -, hle, -⟩ := h.recorded
  exact hle

/-- At most one request is sent and not recorded. -/
theorem Inv.length_le {s : State} (h : Inv s) : s.requests.length ≤ s.recorded + 1 := by
  obtain ⟨ext, hreq, hle, hp⟩ := h.recorded
  have hext : ext.length ≤ 1 := by
    cases hpend : s.pending with
    | none => simp [show ext = [] by simpa [hpend] using hp]
    | some p =>
      have hmap : ext.map Request.msg = (sentCall p.1 p.2).toList := by simpa [hpend] using hp
      rw [← List.length_map (f := Request.msg), hmap]
      cases sentCall p.1 p.2 <;> simp
  have hlen := congrArg List.length hreq
  rw [List.length_append, List.length_take] at hlen
  omega

theorem records_length {s : State} (h : s.recorded ≤ s.requests.length) :
    s.records.length = s.recorded := by
  simp [State.records, h]

theorem records_getElem? {s : State} {k : ℕ} (hk : k < s.recorded) :
    s.records[k]? = s.requests[k]?.map Request.msg := by
  simp [State.records, hk]

/-- Steps of the sending thread extend the history and the list by the same entries. -/
theorem Tracks.mono {s t : State} {r : Option Receiver} (h : Tracks s r)
    (ext : List Request) (new : List SentMsg) (hreq : t.requests = s.requests ++ ext)
    (hrec : t.records = s.records ++ new)
    (hw : t.stats.replyWaitingList = s.stats.replyWaitingList ++ new)
    (hle : s.recorded ≤ t.recorded) (hans : t.answered = s.answered)
    (hlen : s.recorded ≤ s.requests.length) (hgap : s.requests.length ≤ s.recorded + 1) :
    Tracks t r := by
  have hget : ∀ {i : ℕ} {r : Request}, s.requests[i]? = some r → t.requests[i]? = some r := by
    intro i r hi
    rw [hreq, List.getElem?_append_left (List.getElem?_eq_some_iff.mp hi).1, hi]
  have hdrop : ∀ k, k ≤ s.recorded → (s.records ++ new).drop k = s.records.drop k ++ new :=
    fun k hk => List.drop_append_of_le_length (by rw [records_length hlen]; exact hk)
  match r with
  | none =>
    obtain ⟨ha, hwait⟩ := h
    exact ⟨by omega, by rw [hw, hwait, hans, hrec, hdrop _ ha]⟩
  | some (.searching xid tp) =>
    obtain ⟨i, r, k, ha, hi, hx, hk, hwait, hne⟩ := h
    have hilt : i < s.requests.length := (List.getElem?_eq_some_iff.mp hi).1
    refine ⟨i, r, k, by omega, hget hi, hx, hk, ?_, fun j r' hkj hji hj => ?_⟩
    · rw [hw, hwait, hrec, hdrop k (by omega)]
    · rw [hreq, List.getElem?_append_left (by omega)] at hj
      exact hne j r' hkj hji hj
  | some (.matched xid last tp) =>
    obtain ⟨i, r, ha, hi, hlast, hrecd, hwait⟩ := h
    exact ⟨i, r, by omega, hget hi, hlast, by omega, by rw [hw, hwait, hrec, hdrop _ hrecd]⟩

theorem inv_init : Inv init where
  recorded := ⟨[], rfl, Nat.le_refl _, rfl⟩
  tracks := ⟨Nat.le_refl _, rfl⟩
  sampled := by simp [EachReplySampled, init]

theorem inv_send {s t : State} {next : ScheduledMsg} {now : TimePoint} {alive : Bool}
    (h : Inv s) (ht : step s (.send next now alive) = some t) : Inv t := by
  simp only [step] at ht
  split_ifs at ht with hp
  obtain rfl := Option.some.inj ht
  obtain ⟨ext, hreq, hle, hext⟩ := h.recorded
  obtain rfl : ext = [] := by simpa [hp] using hext
  have htake : ∀ new : List Request, (s.requests ++ new).take s.recorded =
      s.requests.take s.recorded := fun new => List.take_append_of_le_length hle
  rw [List.append_nil] at hreq
  refine ⟨⟨((sentCall next now).map (⟨·, alive⟩)).toList, ?_, ?_, ?_⟩, ?_, h.sampled⟩
  · rw [htake, ← hreq]
  · rw [List.length_append]
    exact Nat.le_add_right_of_le hle
  · change List.map Request.msg ((sentCall next now).map (⟨·, alive⟩)).toList = _
    cases sentCall next now <;> rfl
  · refine h.tracks.mono _ [] rfl ?_ (by simp) (Nat.le_refl _) rfl hle h.length_le
    simp only [State.records, htake, List.append_nil]

theorem inv_record {s t : State} (h : Inv s) (ht : step s .record = some t) : Inv t := by
  obtain ⟨⟨next, now⟩, hp, rfl⟩ := Option.map_eq_some_iff.mp ht
  obtain ⟨ext, hreq, hle, hext⟩ := h.recorded
  have hmap : ext.map Request.msg = (sentCall next now).toList := by simpa [hp] using hext
  refine ⟨⟨[], by simp, Nat.le_refl _, rfl⟩, ?_, h.sampled⟩
  refine h.tracks.mono [] (sentCall next now).toList (by simp) ?_ ?_ hle rfl hle
    h.length_le
  · simp only [State.records, List.take_length]
    rw [← hmap, ← List.map_append, ← hreq]
  · dsimp only
    cases sentCall next now with
    | none => exact (List.append_nil _).symm
    | some m => rfl

theorem inv_reply {s t : State} {i : ℕ} {type statsType : OFPT} {tp : TimePoint} (h : Inv s)
    (hU : Unambiguous s (.reply i type statsType tp))
    (ht : step s (.reply i type statsType tp) = some t) : Inv t := by
  simp only [step] at ht
  split_ifs at ht with hg
  obtain ⟨hidle, hi⟩ := hg
  obtain ⟨r, hr, ht⟩ := Option.bind_eq_some_iff.mp ht
  obtain ⟨⟨xid, _⟩, hargs, ht⟩ := Option.bind_eq_some_iff.mp ht
  simp only at ht
  split_ifs at ht
  obtain rfl := Option.some.inj ht
  have hxid : r.msg.xid = xid := by
    unfold receivedArgs at hargs
    split at hargs <;> simp_all
  have htracks := h.tracks
  rw [hidle] at htracks
  obtain ⟨ha, hw⟩ := htracks
  refine ⟨h.recorded, ⟨i, r, s.answered, rfl, hr, hxid, hi, hw, ?_⟩, h.sampled⟩
  intro j r' hj hji hr'
  rw [← hxid]
  exact hU i type statsType tp rfl j r' r hj hji hr' hr

/-- The four things the network thread can do next. -/
theorem advance_cases {s t : State} (ht : step s .advance = some t) :
    (∃ xid tp, s.receiver = some (.searching xid tp) ∧ s.stats.replyWaitingList = [] ∧
      t = { s with
            receiver := none
            outcomes := s.outcomes ++ (s.current.map fun m => ⟨m, tp, none⟩).toList }) ∨
    (∃ xid tp last rest, s.receiver = some (.searching xid tp) ∧
      s.stats.replyWaitingList = last :: rest ∧ last.xid ≠ xid ∧
      t = { s with stats := { s.stats with replyWaitingList := rest } }) ∨
    (∃ xid tp last rest, s.receiver = some (.searching xid tp) ∧
      s.stats.replyWaitingList = last :: rest ∧ last.xid = xid ∧
      t = { s with
            stats := { s.stats with replyWaitingList := rest }
            receiver := some (.matched xid last tp) }) ∨
    ∃ xid last tp, s.receiver = some (.matched xid last tp) ∧
      t = { s with
            stats := s.stats.record last.type (latencyMicros tp last.tp)
            receiver := none
            outcomes := s.outcomes ++ (s.current.map fun m =>
              ⟨m, tp, some (last.type, latencyMicros tp last.tp)⟩).toList } := by
  obtain ⟨r, hr, rfl⟩ := Option.map_eq_some_iff.mp ht
  cases r with
  | matched xid last tp => exact .inr (.inr (.inr ⟨xid, last, tp, hr, rfl⟩))
  | searching xid tp =>
    cases hw : s.stats.replyWaitingList with
    | nil => exact .inl ⟨xid, tp, hr, rfl, by simp [Receiver.advance, Receiver.outcome, hw]⟩
    | cons last rest =>
      by_cases hx : last.xid = xid
      · exact .inr (.inr (.inl ⟨xid, tp, last, rest, hr, rfl, hx, by
          simp [Receiver.advance, Receiver.outcome, hw, hx]⟩))
      · exact .inr (.inl ⟨xid, tp, last, rest, hr, rfl, hx, by
          simp [Receiver.advance, Receiver.outcome, hw, hx, hr]⟩)

/-- What the head of the list is, for a search that still has its request ahead. -/
theorem head_of_drop {s : State} (hle : s.recorded ≤ s.requests.length) {k : ℕ}
    {last : SentMsg} {rest : List SentMsg} (h : last :: rest = s.records.drop k) :
    k < s.recorded ∧ rest = s.records.drop (k + 1) ∧
      ∃ r, s.requests[k]? = some r ∧ r.msg = last := by
  have hlen := records_length hle
  have hk : k < s.recorded := by
    by_contra hge
    rw [List.drop_of_length_le (by omega)] at h
    cases h
  rw [List.drop_eq_getElem_cons (by omega)] at h
  obtain ⟨hlast, hrest⟩ := List.cons.inj h
  have hget : s.records[k]? = some last := by
    rw [hlast]
    exact List.getElem?_eq_getElem _
  rw [records_getElem? hk] at hget
  exact ⟨hk, hrest, Option.map_eq_some_iff.mp hget⟩

theorem inv_advance {s t : State} (h : Inv s) (hC : RecordedInTime s .advance)
    (ht : step s .advance = some t) : Inv t := by
  have htracks := h.tracks
  rcases advance_cases ht with ⟨xid, tp, hrecv, hnil, rfl⟩ |
    ⟨xid, tp, last, rest, hrecv, hlist, hx, rfl⟩ |
    ⟨xid, tp, last, rest, hrecv, hlist, hx, rfl⟩ | ⟨xid, last, tp, hrecv, rfl⟩
  · -- the list still holds the request, so the search cannot have run out of entries
    rw [hrecv] at htracks
    obtain ⟨i, r, k, ha, hi, hxid, hk, hw, -⟩ := htracks
    have hin := hC rfl ⟨xid, tp, hrecv⟩ hnil
    have hdrop := List.drop_eq_nil_iff.mp (hw.symm.trans hnil)
    rw [records_length h.recorded_le] at hdrop
    omega
  · rw [hrecv] at htracks
    obtain ⟨i, r, k, ha, hi, hxid, hk, hw, hne⟩ := htracks
    obtain ⟨hkrec, hrest, r', hr', hmsg⟩ := head_of_drop h.recorded_le (hlist.symm.trans hw)
    have hki : k ≠ i := fun hki => by
      subst hki
      obtain rfl := Option.some.inj (hr'.symm.trans hi)
      exact hx (hmsg ▸ hxid)
    have htracks' : Tracks { s with stats := { s.stats with replyWaitingList := rest } }
        (some (.searching xid tp)) :=
      ⟨i, r, k + 1, ha, hi, hxid, by omega, hrest, fun j r'' hkj => hne j r'' (by omega)⟩
    exact ⟨h.recorded, hrecv ▸ htracks', h.sampled⟩
  · -- the only entry up to `i` with this xid is the request itself
    rw [hrecv] at htracks
    obtain ⟨i, r, k, ha, hi, hxid, hk, hw, hne⟩ := htracks
    obtain ⟨hkrec, hrest, r', hr', hmsg⟩ := head_of_drop h.recorded_le (hlist.symm.trans hw)
    have hki : k = i := by
      by_contra hki
      exact hne k r' (Nat.le_refl _) (by omega) hr' (hmsg ▸ hx)
    subst hki
    exact ⟨h.recorded, ⟨k, r', ha, hr', hmsg, hkrec, hrest⟩, h.sampled⟩
  · rw [hrecv] at htracks
    obtain ⟨i, r, ha, hi, rfl, hrec, hw⟩ := htracks
    refine ⟨h.recorded, ⟨?_, ?_⟩, ?_⟩
    · change s.answered ≤ s.recorded
      omega
    · change s.stats.replyWaitingList = s.records.drop s.answered
      rw [ha, hw]
    · intro o ho
      rcases List.mem_append.mp ho with ho | ho
      · exact h.sampled o ho
      · simp only [State.current, ha, Nat.add_sub_cancel, hi, Option.map_some,
          Option.toList_some, List.mem_singleton] at ho
        subst ho
        rfl

theorem inv_step {s t : State} {l : Label} (h : Inv s) (hC : RecordedInTime s l)
    (hU : Unambiguous s l) (ht : step s l = some t) : Inv t := by
  cases l with
  | send next now alive => exact inv_send h ht
  | record => exact inv_record h ht
  | accept =>
    simp only [step] at ht
    split_ifs at ht
    obtain rfl := Option.some.inj ht
    exact ⟨h.recorded, h.tracks.mono [] [] (by simp) (by simp [State.records])
      (by simp) (Nat.le_refl _) rfl h.recorded_le h.length_le, h.sampled⟩
  | reply i type statsType tp => exact inv_reply h hU ht
  | advance => exact inv_advance h hC ht

/-- What holds in every run. -/
structure Account (ls : List Label) (s : State) : Prop where
  current : s.receiver ≠ none → s.current ≠ none
  answered : ∀ i ∈ ls.filterMap Label.answer, i < s.requests.length
  handled : Handled ls s
  recorded : Recorded s.stats.statsLatency s.outcomes s.resetAt

theorem account_init : Account [] init where
  current := fun hne => absurd rfl hne
  answered := by simp
  handled := rfl
  recorded := .create

/-- Steps that handle no reply. More requests change nothing about the earlier ones. -/
theorem Account.frame {ls : List Label} {s t : State} {l : Label} (h : Account ls s)
    (hl : l.answer = none) (ext : List Request) (hreq : t.requests = s.requests ++ ext)
    (hrecv : t.receiver = s.receiver) (hans : t.answered = s.answered)
    (hout : t.outcomes = s.outcomes)
    (hrec : Recorded t.stats.statsLatency t.outcomes t.resetAt) : Account (ls ++ [l]) t := by
  have hlabels : (ls ++ [l]).filterMap Label.answer = ls.filterMap Label.answer := by
    simp [List.filterMap_append, hl]
  have hget : ∀ i, i < s.requests.length → t.requests[i]? = s.requests[i]? := by
    intro i hi
    rw [hreq, List.getElem?_append_left hi]
  have hcurrent : s.receiver ≠ none → t.current = s.current := by
    intro hne
    obtain ⟨m, hm⟩ := Option.ne_none_iff_exists'.mp (h.current hne)
    obtain ⟨r, hr, -⟩ := Option.map_eq_some_iff.mp hm
    unfold State.current
    rw [hans, hget _ (List.getElem?_eq_some_iff.mp hr).1]
  refine ⟨fun hne => ?_, fun i hi => ?_, ?_, hrec⟩
  · rw [hrecv] at hne
    rw [hcurrent hne]
    exact h.current hne
  · rw [hlabels] at hi
    rw [hreq, List.length_append]
    exact Nat.lt_add_right _ (h.answered i hi)
  · have hold := h.handled
    unfold Handled at hold ⊢
    rw [hlabels, hout, hrecv, List.map_congr_left fun i hi => by rw [hget i (h.answered i hi)],
      hold]
    cases hs : s.receiver with
    | none => rfl
    | some r => simp [hcurrent (by simp [hs])]

theorem account_reply {ls : List Label} {s t : State} {i : ℕ} {type statsType : OFPT}
    {tp : TimePoint} (h : Account ls s) (ht : step s (.reply i type statsType tp) = some t) :
    Account (ls ++ [.reply i type statsType tp]) t := by
  simp only [step] at ht
  split_ifs at ht with hg
  obtain ⟨hidle, -⟩ := hg
  obtain ⟨r, hr, ht⟩ := Option.bind_eq_some_iff.mp ht
  obtain ⟨⟨xid, _⟩, -, ht⟩ := Option.bind_eq_some_iff.mp ht
  simp only at ht
  split_ifs at ht
  obtain rfl := Option.some.inj ht
  refine ⟨fun _ => ?_, fun j hj => ?_, ?_, h.recorded⟩
  · simp [State.current, hr]
  · rw [List.filterMap_append, List.mem_append] at hj
    rcases hj with hj | hj
    · exact h.answered j hj
    · obtain rfl : j = i := by simpa [Label.answer] using hj
      exact (List.getElem?_eq_some_iff.mp hr).1
  · have hold := h.handled
    unfold Handled at hold ⊢
    rw [hidle] at hold
    rw [List.filterMap_append, List.map_append, hold]
    simp [Label.answer, State.current]

theorem account_advance {ls : List Label} {s t : State} (h : Account ls s)
    (ht : step s .advance = some t) : Account (ls ++ [.advance]) t := by
  obtain ⟨r, hr, rfl⟩ := Option.map_eq_some_iff.mp ht
  have hne : s.receiver ≠ none := by simp [hr]
  obtain ⟨m, hm⟩ := Option.ne_none_iff_exists'.mp (h.current hne)
  have hlabels : (ls ++ [Label.advance]).filterMap Label.answer = ls.filterMap Label.answer := by
    simp [List.filterMap_append, Label.answer]
  refine ⟨fun _ => h.current hne, fun i hi => h.answered i (hlabels ▸ hi), ?_, ?_⟩
  · have hold := h.handled
    unfold Handled at hold ⊢
    rw [hlabels]
    change (ls.filterMap Label.answer).map (fun i => s.requests[i]?.map Request.msg) =
      (s.outcomes ++ r.outcome s.stats s.current).map (fun o => some o.request) ++
        ((r.advance s.stats).2.map fun _ => s.current).toList
    have hone := congrArg (List.map some) (request_outcome s.stats r m)
    rw [hold, hm, hr, List.map_append, List.append_assoc]
    congr 1
    rw [List.map_append, List.map_map] at hone
    change [some m] = _
    rw [← List.map_singleton (f := some), ← hone]
    congr 1
    cases (r.advance s.stats).2 <;> rfl
  · have hrec := h.recorded.advance r m
    rw [← hm] at hrec
    exact hrec

theorem account_step {ls : List Label} {s t : State} {l : Label} (h : Account ls s)
    (ht : step s l = some t) : Account (ls ++ [l]) t := by
  cases l with
  | send next now alive =>
    simp only [step] at ht
    split_ifs at ht
    obtain rfl := Option.some.inj ht
    exact h.frame rfl _ rfl rfl rfl rfl h.recorded
  | record =>
    obtain ⟨⟨next, now⟩, -, rfl⟩ := Option.map_eq_some_iff.mp ht
    refine h.frame rfl [] (List.append_nil _).symm rfl rfl rfl ?_
    dsimp only
    cases sentCall next now <;> exact h.recorded
  | accept =>
    simp only [step] at ht
    split_ifs at ht
    obtain rfl := Option.some.inj ht
    exact h.frame rfl [] (List.append_nil _).symm rfl rfl rfl h.recorded.reset
  | reply i type statsType tp => exact account_reply h ht
  | advance => exact account_advance h ht

theorem account_exec {ls : List Label} {s : State} (h : Transition.exec step init ls = some s) :
    Account ls s := by
  induction ls using List.reverseRecOn generalizing s with
  | nil =>
    obtain rfl := Option.some.inj h
    exact account_init
  | append_singleton ls l ih =>
    obtain ⟨u, hu, ht⟩ := Transition.exec_snoc.mp h
    exact account_step (ih hu) ht

def echoRequest : ScheduledMsg := ⟨1000, ⟨.echoRequest, 1, 8⟩⟩

end ReplyRace
end HVBench
