import HVBench.Statistics.OFLatencyStats

/-! What runs of `sent` and `received` calls match, against the requests that are
outstanding by the history of calls alone. -/
namespace HVBench
namespace OFLatencyStats

inductive Call
  | sent (xid : UInt32) (type : OFPT) (tp : TimePoint)
  | received (xid : UInt32) (type : OFPT) (tp : TimePoint)
  deriving DecidableEq, Repr

def Call.apply (s : OFLatencyStats) : Call → OFLatencyStats
  | .sent x t tp => s.sent x t tp
  | .received y t tp => s.received y t tp

/-- The state after a sequence of calls. -/
def run (calls : List Call) : OFLatencyStats := calls.foldl Call.apply create

def Call.sentXid : Call → Option UInt32
  | .sent x _ _ => some x
  | .received _ _ _ => none

def sentXids (calls : List Call) : List UInt32 := calls.filterMap Call.sentXid

/-- How a call changes the requests that are sent and not yet answered. -/
def Call.answer (out : List SentMsg) : Call → List SentMsg
  | .sent x t tp => out ++ [⟨x, t, tp⟩]
  | .received y _ _ => out.filter (·.xid ≠ y)

/-- The requests sent and not yet answered, in send order. -/
def outstanding (calls : List Call) : List SentMsg := calls.foldl Call.answer []

/-- A reply to `m` would add its latency sample: the time since it was sent, in
microseconds. -/
def Matchable (s : OFLatencyStats) (m : SentMsg) : Prop :=
  ∀ type tp, OneMore s.statsLatency (s.received m.xid type tp).statsLatency m.type
    ((tp - m.tp).tdiv 1000)

/-- The call `received y` after `calls` loses nothing: it adds the sample of the
request it answers, if there is one, and keeps all others matchable. -/
def LosslessAt (calls : List Call) (y : UInt32) (type : OFPT) (tp : TimePoint) : Prop :=
  (∀ m ∈ outstanding calls, m.xid = y →
    OneMore (run calls).statsLatency ((run calls).received y type tp).statsLatency m.type
      ((tp - m.tp).tdiv 1000)) ∧
  ((∀ m ∈ outstanding calls, m.xid ≠ y) →
    ((run calls).received y type tp).statsLatency = (run calls).statsLatency) ∧
  ∀ e ∈ outstanding calls, e.xid ≠ y → Matchable ((run calls).received y type tp) e

@[simp] theorem run_nil : run [] = create := rfl

@[simp] theorem run_snoc (calls : List Call) (c : Call) :
    run (calls ++ [c]) = c.apply (run calls) := by
  simp [run]

@[simp] theorem outstanding_nil : outstanding [] = [] := rfl

@[simp] theorem outstanding_snoc (calls : List Call) (c : Call) :
    outstanding (calls ++ [c]) = c.answer (outstanding calls) := by
  simp [outstanding]

theorem sentXids_snoc (calls : List Call) (c : Call) :
    sentXids (calls ++ [c]) = sentXids calls ++ c.sentXid.toList := by
  cases c <;> simp [sentXids, Call.sentXid, List.filterMap_cons]

theorem outstanding_sublist (calls : List Call) :
    ((outstanding calls).map SentMsg.xid).Sublist (sentXids calls) := by
  induction calls using List.reverseRecOn with
  | nil => simp [sentXids]
  | append_singleton calls c ih =>
    rw [outstanding_snoc, sentXids_snoc]
    cases c with
    | sent x t tp =>
      simpa [Call.answer, Call.sentXid] using ih.append (List.Sublist.refl [x])
    | received y t tp =>
      have hf := (List.filter_sublist (p := fun m : SentMsg => decide (m.xid ≠ y))
        (l := outstanding calls)).map SentMsg.xid
      simpa [Call.answer, Call.sentXid] using hf.trans ih

theorem outstanding_nodup {calls : List Call} (h : (sentXids calls).Nodup) :
    ((outstanding calls).map SentMsg.xid).Nodup := (outstanding_sublist calls).nodup h

/-- With distinct xids, the entries around `m` have xids different from its own and
from each other's. -/
theorem xids_around {pre post : List SentMsg} {m : SentMsg}
    (h : ((pre ++ m :: post).map SentMsg.xid).Nodup) :
    (∀ e ∈ pre, e.xid ≠ m.xid) ∧ (∀ e ∈ post, e.xid ≠ m.xid) ∧
      (∀ e ∈ pre, ∀ e' ∈ post, e'.xid ≠ e.xid) ∧ (post.map SentMsg.xid).Nodup := by
  rw [List.map_append, List.map_cons, List.nodup_append, List.nodup_cons] at h
  obtain ⟨-, ⟨hm, hpost⟩, hne⟩ := h
  refine ⟨fun e he => ?_, fun e he heq => ?_, fun e he e' he' => ?_, hpost⟩
  · exact hne e.xid (List.mem_map_of_mem he) m.xid (by simp)
  · exact hm (heq ▸ List.mem_map_of_mem he)
  · exact (hne e.xid (List.mem_map_of_mem he) e'.xid
      (List.mem_cons_of_mem _ (List.mem_map_of_mem he'))).symm

/-- A search leaves a suffix of the list: what follows the match, or nothing. -/
theorem received_waiting_cases (s : OFLatencyStats) (y : UInt32) (t : OFPT) (tp : TimePoint) :
    (∃ pre m post, s.replyWaitingList = pre ++ m :: post ∧ m.xid = y ∧
      (∀ e ∈ pre, e.xid ≠ y) ∧
      s.received y t tp = record ⟨post, s.statsLatency⟩ m.type (latencyMicros tp m.tp)) ∨
    ((∀ e ∈ s.replyWaitingList, e.xid ≠ y) ∧ s.received y t tp = ⟨[], s.statsLatency⟩) := by
  by_cases hy : ∃ e ∈ s.replyWaitingList, e.xid = y
  · obtain ⟨pre, m, post, hm, hxy, hpre⟩ :
        ∃ pre m post, s.replyWaitingList = pre ++ m :: post ∧ m.xid = y ∧
          ∀ e ∈ pre, e.xid ≠ y := by
      generalize s.replyWaitingList = l at hy
      induction l with
      | nil => simp at hy
      | cons a l ih =>
        by_cases ha : a.xid = y
        · exact ⟨[], a, l, rfl, ha, by simp⟩
        · obtain ⟨e, he, hey⟩ := hy
          have hel : e ∈ l := by
            rcases List.mem_cons.mp he with rfl | hel
            · exact absurd hey ha
            · exact hel
          obtain ⟨pre, m, post, rfl, hm, hpre⟩ := ih ⟨e, hel, hey⟩
          refine ⟨a :: pre, m, post, rfl, hm, fun e he => ?_⟩
          rcases List.mem_cons.mp he with rfl | he
          · exact ha
          · exact hpre e he
    refine Or.inl ⟨pre, m, post, hm, hxy, hpre, ?_⟩
    subst hxy
    exact received_of_mem _ hm hpre t tp
  · have hne : ∀ e ∈ s.replyWaitingList, e.xid ≠ y := fun e he h => hy ⟨e, he, h⟩
    exact Or.inr ⟨hne, received_of_not_mem hne t tp⟩

/-- The waiting list holds the most recent of the outstanding requests. -/
theorem waiting_suffix_outstanding {calls : List Call} (h : (sentXids calls).Nodup) :
    (run calls).replyWaitingList <:+ outstanding calls := by
  induction calls using List.reverseRecOn with
  | nil => exact List.suffix_refl []
  | append_singleton calls c ih =>
    rw [run_snoc, outstanding_snoc]
    have hcalls : (sentXids calls).Nodup := by
      rw [sentXids_snoc] at h
      exact (List.nodup_append.mp h).1
    obtain ⟨lost, hlost⟩ := ih hcalls
    cases c with
    | sent x t tp => exact ⟨lost, by simp [Call.apply, Call.answer, ← hlost]⟩
    | received y t tp =>
      rcases received_waiting_cases (run calls) y t tp with
        ⟨pre, m, post, hw, rfl, -, hr⟩ | ⟨-, hr⟩
      · -- only `m` itself carries the xid, so the filter removes nothing after it
        have hnd := outstanding_nodup hcalls
        rw [← hlost, hw, ← List.append_assoc] at hnd
        refine ⟨(lost ++ pre).filter (·.xid ≠ m.xid), ?_⟩
        have hkeep : post.filter (·.xid ≠ m.xid) = post :=
          List.filter_eq_self.mpr fun e he => by
            simpa using (xids_around hnd).2.1 e he
        simp only [Call.apply, hr, Call.answer, ← hlost, hw, record_replyWaitingList]
        simp only [List.filter_append, List.filter_cons, hkeep]
        simp
      · exact ⟨Call.answer (outstanding calls) (.received y t tp), by simp [Call.apply, hr]⟩

theorem waiting_nodup {calls : List Call} (h : (sentXids calls).Nodup) :
    ((run calls).replyWaitingList.map SentMsg.xid).Nodup := by
  have hsub := (waiting_suffix_outstanding h).sublist.map SentMsg.xid
  exact hsub.nodup (outstanding_nodup h)

/-- The search stops at `m` and adds its sample. -/
theorem oneMore_received {s : OFLatencyStats} (pre : List SentMsg) {post : List SentMsg}
    {m : SentMsg} (hs : s.replyWaitingList = pre ++ m :: post) (hpre : ∀ e ∈ pre, e.xid ≠ m.xid)
    (type : OFPT) (tp : TimePoint) :
    OneMore s.statsLatency (s.received m.xid type tp).statsLatency m.type
      ((tp - m.tp).tdiv 1000) := by
  rw [received_of_mem pre hs hpre]
  exact oneMore_record ⟨post, s.statsLatency⟩ m.type (latencyMicros tp m.tp)

/-- An entry on the list is found by a reply to it. -/
theorem matchable_of_mem {s : OFLatencyStats} {m : SentMsg}
    (hnd : (s.replyWaitingList.map SentMsg.xid).Nodup) (hm : m ∈ s.replyWaitingList) :
    Matchable s m := by
  intro type tp
  obtain ⟨pre, post, hw⟩ := List.append_of_mem hm
  rw [hw] at hnd
  exact oneMore_received _ hw (xids_around hnd).1 type tp

/-- A request that left the list is lost: a reply to it adds no sample. -/
theorem not_matchable_of_xid_ne {s : OFLatencyStats} {m : SentMsg}
    (h : ∀ e ∈ s.replyWaitingList, e.xid ≠ m.xid) : ¬ Matchable s m := by
  intro hm
  have hmore := hm .hello 0
  rw [received_of_not_mem h] at hmore
  exact not_oneMore_self _ _ _ hmore

/-- A reply loses nothing exactly when no request is outstanding, or when it answers
the oldest one and none was discarded before. -/
theorem lossless_iff {calls : List Call} (h : (sentXids calls).Nodup)
    (y : UInt32) (type : OFPT) (tp : TimePoint) :
    LosslessAt calls y type tp ↔ outstanding calls = [] ∨
      ∃ m post, outstanding calls = m :: post ∧ m.xid = y ∧
        (run calls).replyWaitingList = outstanding calls := by
  have hsuffix := waiting_suffix_outstanding h
  have hout := outstanding_nodup h
  constructor
  · rintro ⟨hsample, hnone, hkeep⟩
    rcases received_waiting_cases (run calls) y type tp with
      ⟨pre, m, post, hw, hmy, hpre, hr⟩ | ⟨hw, hr⟩
    · obtain ⟨lost, hlost⟩ := hsuffix
      rw [hw] at hlost
      -- everything outstanding but `m` has to be in `post`, so nothing precedes `m`
      have hmem : ∀ e ∈ lost ++ pre, False := by
        intro e he
        have heout : e ∈ outstanding calls := by
          rw [← hlost]
          rcases List.mem_append.mp he with he | he <;> simp [he]
        rw [← hlost, ← List.append_assoc] at hout
        obtain ⟨hne, -, hafter, -⟩ := xids_around hout
        have hey : e.xid ≠ y := hmy ▸ hne e he
        refine not_matchable_of_xid_ne (fun e' he' => ?_) (hkeep e heout hey)
        rw [hr, record_replyWaitingList] at he'
        exact hafter e he e' he'
      have hnil := List.eq_nil_iff_forall_not_mem.mpr hmem
      obtain ⟨rfl, rfl⟩ := List.append_eq_nil_iff.mp hnil
      exact Or.inr ⟨m, post, hlost.symm, hmy, hw.trans hlost⟩
    · refine Or.inl (List.eq_nil_iff_forall_not_mem.mpr fun e he => ?_)
      by_cases hey : e.xid = y
      · have hmore := hsample e he hey
        rw [hr] at hmore
        exact not_oneMore_self _ _ _ hmore
      · refine not_matchable_of_xid_ne (fun e' he' => ?_) (hkeep e he hey)
        rw [hr] at he'
        exact absurd he' (List.not_mem_nil)
  · rintro (hnil | ⟨m, post, hm, rfl, hw⟩)
    · have hw : (run calls).replyWaitingList = [] := by
        simpa [hnil] using hsuffix
      refine ⟨by simp [hnil], fun _ => ?_, by simp [hnil]⟩
      rw [received_of_not_mem (by simp [hw])]
    · have hr := received_of_mem [] (hw.trans hm) (by simp) type tp
      rw [hm, List.map_cons, List.nodup_cons] at hout
      have huniq : ∀ e ∈ outstanding calls, e.xid = m.xid → e = m := by
        intro e he heq
        rw [hm] at he
        rcases List.mem_cons.mp he with rfl | he
        · rfl
        · exact absurd (heq ▸ List.mem_map_of_mem he) hout.1
      refine ⟨fun e he heq => ?_, fun hne => absurd rfl (hne m (by simp [hm])), ?_⟩
      · rw [huniq e he heq]
        exact oneMore_received [] (hw.trans hm) (by simp) type tp
      · intro e he hne
        rw [hm] at he
        rcases List.mem_cons.mp he with rfl | he
        · exact absurd rfl hne
        · exact matchable_of_mem (by rw [hr]; exact hout.2) (by rw [hr]; exact he)

/-- The effect of a reply after any history of calls with distinct xids. Matching
assumes replies in request order: a reply discards the waiting requests sent before
the one it answers, and a reply that answers none of them discards all. -/
theorem received_effect (calls : List Call) (h : (sentXids calls).Nodup)
    (y : UInt32) (type : OFPT) (tp : TimePoint) :
    (run calls).replyWaitingList <:+ outstanding calls ∧
    (∀ pre m post, (run calls).replyWaitingList = pre ++ m :: post → m.xid = y →
      OneMore (run calls).statsLatency ((run calls).received y type tp).statsLatency m.type
          ((tp - m.tp).tdiv 1000) ∧
        ((run calls).received y type tp).replyWaitingList = post ∧
        (∀ e ∈ post, Matchable ((run calls).received y type tp) e) ∧
        ∀ e ∈ pre, ¬ Matchable ((run calls).received y type tp) e) ∧
    ((∀ m ∈ (run calls).replyWaitingList, m.xid ≠ y) →
      (run calls).received y type tp = ⟨[], (run calls).statsLatency⟩) ∧
    (LosslessAt calls y type tp ↔ outstanding calls = [] ∨
      ∃ m post, outstanding calls = m :: post ∧ m.xid = y ∧
        (run calls).replyWaitingList = outstanding calls) := by
  refine ⟨waiting_suffix_outstanding h, ?_, fun hy => received_of_not_mem hy type tp,
    lossless_iff h y type tp⟩
  rintro pre m post hw rfl
  have hnd := waiting_nodup h
  rw [hw] at hnd
  obtain ⟨hpre, -, hafter, hpost⟩ := xids_around hnd
  have hr := received_of_mem _ hw hpre type tp
  refine ⟨oneMore_received _ hw hpre type tp, by rw [hr]; rfl, ?_, ?_⟩
  · intro e he
    exact matchable_of_mem (by rw [hr]; exact hpost) (by rw [hr]; exact he)
  · intro e he
    refine not_matchable_of_xid_ne fun e' he' => ?_
    rw [hr, record_replyWaitingList] at he'
    exact hafter e he e' he'

/-- Three requests of which the second is answered. -/
def threeRequests : List Call :=
  [.sent 1 .featureRequest 0, .sent 2 .echoRequest 1000, .sent 3 .echoRequest 2000]

theorem received_effect_second :
    (sentXids threeRequests).Nodup ∧
      ((run threeRequests).received 2 .echoReply 5000).replyWaitingList =
        [⟨3, .echoRequest, 2000⟩] ∧
      OneMore (run threeRequests).statsLatency
        ((run threeRequests).received 2 .echoReply 5000).statsLatency .echoRequest 4 := by
  have hnd : (sentXids threeRequests).Nodup := by decide
  obtain ⟨hmore, hwaiting, -⟩ := (received_effect threeRequests hnd 2 .echoReply 5000).2.1
    [⟨1, .featureRequest, 0⟩] ⟨2, .echoRequest, 1000⟩ [⟨3, .echoRequest, 2000⟩] (by decide) rfl
  exact ⟨hnd, hwaiting, hmore⟩

/-- Two requests answered in the other order: the second reply finds nothing. -/
theorem reordered_reply_lost :
    ¬ ∀ calls y type tp, (sentXids calls).Nodup → LosslessAt calls y type tp := by
  intro h
  have hmore := (h (threeRequests ++ [.received 2 .echoReply 5000]) 1 .featuresReply 6000
    (by decide)).1 ⟨1, .featureRequest, 0⟩ (by decide) rfl
  rw [received_of_not_mem (by decide)] at hmore
  exact not_oneMore_self _ _ _ hmore

end OFLatencyStats
end HVBench
