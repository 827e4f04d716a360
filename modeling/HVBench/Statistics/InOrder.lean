import HVBench.Statistics.ReplyMatching

/-! Replies in request order. The search of `received` then keeps the waiting list
equal to what the history of calls alone says is still to come. -/
namespace HVBench
namespace OFLatencyStats

def Call.sentMsg : Call → Option SentMsg
  | .sent x t tp => some ⟨x, t, tp⟩
  | .received _ _ _ => none

def Call.receivedXid : Call → Option UInt32
  | .sent _ _ _ => none
  | .received y _ _ => some y

/-- The requests of a history, in send order. -/
def sentMsgs (calls : List Call) : List SentMsg := calls.filterMap Call.sentMsg

def receivedXids (calls : List Call) : List UInt32 := calls.filterMap Call.receivedXid

/-- The requests sent after the most recently answered one, in send order. -/
def afterAnswered (calls : List Call) : List SentMsg :=
  match (receivedXids calls).getLast? with
  | none => sentMsgs calls
  | some y => ((sentMsgs calls).dropWhile (·.xid ≠ y)).tail

/-- The replies answer some of the requests, in request order and after them. -/
structure InOrder (calls : List Call) : Prop where
  distinct : (sentXids calls).Nodup
  ordered : (receivedXids calls).Sublist (sentXids calls)
  answers : ∀ before y type tp after, calls = before ++ .received y type tp :: after →
    y ∈ sentXids before

theorem sentMsgs_snoc (calls : List Call) (c : Call) :
    sentMsgs (calls ++ [c]) = sentMsgs calls ++ c.sentMsg.toList := by
  cases c <;> simp [sentMsgs, Call.sentMsg, List.filterMap_cons]

theorem receivedXids_snoc (calls : List Call) (c : Call) :
    receivedXids (calls ++ [c]) = receivedXids calls ++ c.receivedXid.toList := by
  cases c <;> simp [receivedXids, Call.receivedXid, List.filterMap_cons]

theorem map_xid_sentMsgs (calls : List Call) :
    (sentMsgs calls).map SentMsg.xid = sentXids calls := by
  induction calls using List.reverseRecOn with
  | nil => rfl
  | append_singleton calls c ih =>
    rw [sentMsgs_snoc, sentXids_snoc, List.map_append, ih]
    cases c <;> rfl

/-- The entry that a search for `m.xid` stops at. -/
theorem dropWhile_xid_ne {pre post : List SentMsg} {m : SentMsg}
    (h : ((pre ++ m :: post).map SentMsg.xid).Nodup) :
    ((pre ++ m :: post).dropWhile (·.xid ≠ m.xid)).tail = post := by
  have hpre : ∀ e ∈ pre, decide (e.xid ≠ m.xid) = true := by
    intro e he
    exact decide_eq_true ((xids_around h).1 e he)
  rw [List.dropWhile_append_of_pos hpre, List.dropWhile_cons_of_neg (by simp)]
  rfl

/-- What follows the most recently answered request among those sent. -/
theorem afterAnswered_eq {calls : List Call} {pre post : List SentMsg} {m : SentMsg}
    (hnd : (sentXids calls).Nodup) (hlast : (receivedXids calls).getLast? = some m.xid)
    (hmsgs : sentMsgs calls = pre ++ m :: post) : afterAnswered calls = post := by
  rw [← map_xid_sentMsgs, hmsgs] at hnd
  simp only [afterAnswered, hlast, hmsgs]
  exact dropWhile_xid_ne hnd

theorem afterAnswered_suffix (calls : List Call) :
    afterAnswered calls <:+ sentMsgs calls := by
  unfold afterAnswered
  split
  · exact List.suffix_refl _
  · exact (List.tail_suffix _).trans (List.dropWhile_suffix _)

/-- In a list without repetitions, what a sublist has after `a` comes after `a`. -/
theorem mem_of_pair_sublist {p q : List UInt32} {a b : UInt32}
    (hnd : (p ++ a :: q).Nodup) (h : [a, b].Sublist (p ++ a :: q)) : b ∈ q := by
  obtain ⟨-, hq, hdisjoint⟩ := List.nodup_append.mp hnd
  obtain ⟨l₁, l₂, hl, h₁, h₂⟩ := List.sublist_append_iff.mp h
  cases l₁ with
  | cons c l₁ =>
    obtain rfl : a = c := by
      simp only [List.cons_append, List.cons.injEq] at hl
      exact hl.1
    exact absurd rfl (hdisjoint a (h₁.mem (by simp)) a (by simp))
  | nil =>
    rw [List.nil_append] at hl
    subst hl
    cases h₂ with
    | cons _ h₂ => exact absurd (h₂.mem (by simp)) (List.nodup_cons.mp hq).1
    | cons_cons _ h₂ => exact h₂.mem (by simp)

namespace InOrder

/-- A history in order is so at every prefix. -/
theorem of_snoc {calls : List Call} {c : Call} (h : InOrder (calls ++ [c])) :
    InOrder calls := by
  have hdistinct := h.distinct
  rw [sentXids_snoc] at hdistinct
  have hanswers : ∀ before y type tp after,
      calls = before ++ .received y type tp :: after → y ∈ sentXids before := by
    intro before y type tp after hcalls
    exact h.answers before y type tp (after ++ [c]) (by simp [hcalls])
  refine ⟨(List.nodup_append.mp hdistinct).1, ?_, hanswers⟩
  -- a reply in `calls` answers a request of `calls`, so not the one that `c` adds
  have hordered := h.ordered
  rw [receivedXids_snoc, sentXids_snoc] at hordered
  have hprefix := (List.sublist_append_left (receivedXids calls) c.receivedXid.toList).trans
    hordered
  obtain ⟨ys, zs, hsplit, hys, hzs⟩ := List.sublist_append_iff.mp hprefix
  have hzsNil : zs = [] := by
    refine List.eq_nil_iff_forall_not_mem.mpr fun z hz => ?_
    have hzReceived : z ∈ receivedXids calls := by simp [hsplit, hz]
    obtain ⟨call, hcall, hcallXid⟩ := List.mem_filterMap.mp hzReceived
    obtain ⟨before, after, hcalls⟩ := List.append_of_mem hcall
    cases call with
    | sent x t tp => simp [Call.receivedXid] at hcallXid
    | received y t tp =>
      obtain rfl := Option.some.inj hcallXid
      have hbefore := hanswers before y t tp after hcalls
      have hsent : y ∈ sentXids calls := by
        rw [hcalls]
        simp only [sentXids, List.filterMap_append, List.mem_append]
        exact Or.inl hbefore
      exact (List.nodup_append.mp hdistinct).2.2 y hsent y (hzs.mem hz) rfl
  subst hzsNil
  rw [hsplit, List.append_nil]
  exact hys

theorem of_append {before after : List Call} (h : InOrder (before ++ after)) :
    InOrder before := by
  induction after using List.reverseRecOn with
  | nil => simpa using h
  | append_singleton after c ih =>
    rw [← List.append_assoc] at h
    exact ih h.of_snoc

/-- The next reply answers a request sent after the most recently answered one. -/
theorem mem_afterAnswered {calls : List Call} {y : UInt32} {t : OFPT} {tp : TimePoint}
    (h : InOrder (calls ++ [.received y t tp])) : ∃ m ∈ afterAnswered calls, m.xid = y := by
  have hsent : y ∈ sentXids calls := h.answers calls y t tp [] rfl
  have hnd : (sentXids calls).Nodup := h.of_snoc.distinct
  have hordered := h.ordered
  rw [receivedXids_snoc, sentXids_snoc] at hordered
  simp only [Call.receivedXid, Call.sentXid, Option.toList, List.append_nil] at hordered
  rw [← map_xid_sentMsgs] at hsent hordered
  cases hlast : (receivedXids calls).getLast? with
  | none =>
    unfold afterAnswered
    rw [hlast]
    exact List.mem_map.mp hsent
  | some last =>
    -- `last` and `y` are replies in this order, so their requests are in this order
    obtain ⟨answered, hanswered⟩ := List.getLast?_eq_some_iff.mp hlast
    have hpair : [last, y].Sublist ((sentMsgs calls).map SentMsg.xid) := by
      refine List.Sublist.trans ?_ hordered
      rw [hanswered, List.append_assoc]
      exact List.sublist_append_right answered [last, y]
    obtain ⟨m, hm, rfl⟩ := List.mem_map.mp (hpair.mem (by simp : last ∈ [last, y]))
    obtain ⟨pre, post, hsplit⟩ := List.append_of_mem hm
    rw [afterAnswered_eq hnd hlast hsplit]
    rw [← map_xid_sentMsgs, hsplit, List.map_append, List.map_cons] at hnd
    rw [hsplit, List.map_append, List.map_cons] at hpair
    exact List.mem_map.mp (mem_of_pair_sublist hnd hpair)

/-- One reply: the search stops at the request it answers, and what follows this entry
is what was sent after it. -/
theorem received_step {calls : List Call} {y : UInt32} {t : OFPT} {tp : TimePoint}
    (h : InOrder (calls ++ [.received y t tp]))
    (hwait : (run calls).replyWaitingList = afterAnswered calls) :
    ∃ m ∈ sentMsgs calls, m.xid = y ∧
      (run (calls ++ [.received y t tp])).replyWaitingList =
        afterAnswered (calls ++ [.received y t tp]) ∧
      OneMore (run calls).statsLatency (run (calls ++ [.received y t tp])).statsLatency m.type
        ((tp - m.tp).tdiv 1000) := by
  obtain ⟨m, hm, rfl⟩ := h.mem_afterAnswered
  obtain ⟨pre, post, hsplit⟩ := List.append_of_mem hm
  obtain ⟨dropped, hdropped⟩ := afterAnswered_suffix calls
  have hmsgs : sentMsgs calls = (dropped ++ pre) ++ m :: post := by
    rw [← hdropped, hsplit, List.append_assoc]
  have hpre : ∀ e ∈ pre, e.xid ≠ m.xid := by
    have hnd := h.of_snoc.distinct
    rw [← map_xid_sentMsgs, hmsgs] at hnd
    intro e he
    exact (xids_around hnd).1 e (by simp [he])
  have hreceived := received_of_mem pre (hwait.trans hsplit) hpre t tp
  have hafter : afterAnswered (calls ++ [.received m.xid t tp]) = post := by
    apply afterAnswered_eq h.distinct
    · rw [receivedXids_snoc]
      exact List.getLast?_concat
    · rw [sentMsgs_snoc, hmsgs]
      exact List.append_nil _
  refine ⟨m, by simp [hmsgs], rfl, ?_, ?_⟩
  · rw [run_snoc, hafter, Call.apply, hreceived]
    rfl
  · rw [run_snoc]
    exact oneMore_received pre (hwait.trans hsplit) hpre t tp

/-- The waiting list holds the requests sent after the most recently answered one. -/
theorem waiting_eq {calls : List Call} (h : InOrder calls) :
    (run calls).replyWaitingList = afterAnswered calls := by
  induction calls using List.reverseRecOn with
  | nil => rfl
  | append_singleton calls c ih =>
    have hwait := ih h.of_snoc
    cases c with
    | received y t tp =>
      obtain ⟨_, _, _, hwait', _⟩ := h.received_step hwait
      exact hwait'
    | sent x t tp =>
      rw [run_snoc, Call.apply, sent_replyWaitingList, hwait]
      have hreceived : receivedXids (calls ++ [.sent x t tp]) = receivedXids calls := by
        rw [receivedXids_snoc]
        exact List.append_nil _
      have hsent : sentMsgs (calls ++ [.sent x t tp]) = sentMsgs calls ++ [⟨x, t, tp⟩] :=
        sentMsgs_snoc calls _
      cases hlast : (receivedXids calls).getLast? with
      | none =>
        unfold afterAnswered
        rw [hreceived, hlast, hsent]
      | some y =>
        -- the answered request is among those of `calls`, so the new one is kept
        obtain ⟨answered, hanswered⟩ := List.getLast?_eq_some_iff.mp hlast
        have hy : y ∈ (sentMsgs calls).map SentMsg.xid := by
          rw [map_xid_sentMsgs]
          exact h.of_snoc.ordered.mem (by simp [hanswered])
        obtain ⟨m, hm, rfl⟩ := List.mem_map.mp hy
        obtain ⟨pre, post, hmsgs⟩ := List.append_of_mem hm
        rw [afterAnswered_eq h.of_snoc.distinct hlast hmsgs]
        rw [← hreceived] at hlast
        symm
        apply afterAnswered_eq h.distinct hlast
        rw [hsent, hmsgs, List.append_assoc, List.cons_append]

end InOrder

/-- Replies in request order keep the waiting list exact, at every point of a history:
it is what was sent after the most recently answered request, and every reply adds one
sample, the latency of the request with its xid, to the accumulator of its type. -/
theorem inOrder_exact (calls : List Call) (h : InOrder calls) :
    (∀ before after, calls = before ++ after →
      (run before).replyWaitingList = afterAnswered before) ∧
    ∀ before y type tp after, calls = before ++ .received y type tp :: after →
      ∃ m ∈ sentMsgs before, m.xid = y ∧
        OneMore (run before).statsLatency (run (before ++ [.received y type tp])).statsLatency
          m.type ((tp - m.tp).tdiv 1000) := by
  constructor
  · rintro before after rfl
    exact h.of_append.waiting_eq
  · rintro before y type tp after rfl
    have hsplit : InOrder ((before ++ [.received y type tp]) ++ after) := by simpa using h
    have hsnoc : InOrder (before ++ [.received y type tp]) := hsplit.of_append
    obtain ⟨m, hm, hxid, -, hmore⟩ := hsnoc.received_step hsnoc.of_snoc.waiting_eq
    exact ⟨m, hm, hxid, hmore⟩

theorem inOrder_secondAnswered : InOrder (threeRequests ++ [.received 2 .echoReply 5000]) := by
  refine ⟨by decide, by decide, ?_⟩
  intro before y type tp after h
  rcases before with _ | ⟨a, _ | ⟨b, _ | ⟨c, _ | ⟨d, before⟩⟩⟩⟩ <;>
    simp [threeRequests] at h
  obtain ⟨rfl, rfl, rfl, ⟨rfl, -, -⟩, -⟩ := h
  decide

/-- The second of three requests is answered: the first is discarded, the third waits,
and the reply adds the sample of 4 microseconds. -/
theorem inOrder_exact_second :
    (run (threeRequests ++ [.received 2 .echoReply 5000])).replyWaitingList =
        [⟨3, .echoRequest, 2000⟩] ∧
      OneMore (run threeRequests).statsLatency
        (run (threeRequests ++ [.received 2 .echoReply 5000])).statsLatency .echoRequest 4 ∧
      ((run (threeRequests ++ [.received 2 .echoReply 5000])).statsLatency.getD
        .echoRequest .empty) = ⟨1, 4, 4, 4⟩ := by
  obtain ⟨hwaiting, hsample⟩ := inOrder_exact _ inOrder_secondAnswered
  obtain ⟨m, hm, hxid, hmore⟩ := hsample threeRequests 2 .echoReply 5000 [] rfl
  obtain rfl : m = ⟨2, .echoRequest, 1000⟩ := by
    simp only [threeRequests, sentMsgs, List.filterMap_cons, Call.sentMsg, List.filterMap_nil,
      List.mem_cons, List.not_mem_nil, or_false] at hm
    rcases hm with rfl | rfl | rfl
    · exact absurd hxid (by decide)
    · rfl
    · exact absurd hxid (by decide)
  refine ⟨?_, hmore, by decide⟩
  rw [hwaiting _ [] (List.append_nil _).symm]
  decide

end OFLatencyStats
end HVBench
