import HVBench.Statistics.Accounts
import HVBench.Statistics.Collector

/-! Every sample stems from a `sent` call of its own, and the send loop feeds only the
types the accumulators are kept for. -/
namespace HVBench
namespace OFLatencyStats
open Holding (getElem?_snoc getElem?_snoc_of)

/-- What became of the `sent` call at a log position. -/
inductive Use
  | queued
  | matchedBy (thread : ℕ)
  | sampledAt (position : ℕ)

/-- A `sent` call has one use at a time, so no two samples share one. -/
structure Attributed (s : State) (use : ℕ → Use) : Prop where
  queue : ∃ q : List ℕ, List.Forall₂ (fun e i => s.log[i]? = some (.sent e))
    s.stats.replyWaitingList q ∧ q.Nodup ∧ ∀ i ∈ q, use i = .queued
  matched : ∀ n xid last tp, s.receivers n = some (.matched xid last tp) →
    last.xid = xid ∧ ∃ i, s.log[i]? = some (.sent last) ∧ use i = .matchedBy n
  sample : ∀ p xid tp type v, s.log[p]? = some (.sample xid tp type v) →
    ∃ i m, i < p ∧ s.log[i]? = some (.sent m) ∧ use i = .sampledAt p ∧
      m.xid = xid ∧ m.type = type ∧ v = latencyMicros tp m.tp

theorem exists_of_forall₂ {α β : Type*} {R : α → β → Prop} {l : List α} {l' : List β}
    (h : List.Forall₂ R l l') : ∀ b ∈ l', ∃ a, R a b := by
  induction h with
  | nil => simp
  | @cons a b l l' hab _ ih =>
    intro c hc
    rcases List.mem_cons.mp hc with rfl | hc
    · exact ⟨a, hab⟩
    · exact ih c hc

/-- Steps that touch neither the queue, the log nor a matched entry. -/
theorem Attributed.frame {s t : State} {use : ℕ → Use} (h : Attributed s use)
    (hq : t.stats.replyWaitingList = s.stats.replyWaitingList) (hl : t.log = s.log)
    (hr : ∀ n xid last tp, t.receivers n = some (.matched xid last tp) →
      s.receivers n = some (.matched xid last tp)) : Attributed t use where
  queue := by rw [hq, hl]; exact h.queue
  matched n xid last tp hn := by rw [hl]; exact h.matched n xid last tp (hr n xid last tp hn)
  sample := by rw [hl]; exact h.sample

theorem Attributed.sent {s : State} {use : ℕ → Use} (h : Attributed s use) (m : SentMsg)
    (accepted : Bool) {t : State} (ht : step s (.sent m accepted) = some t) :
    ∃ use', Attributed t use' := by
  obtain rfl := Option.some.inj ht
  obtain ⟨q, hq, hnd, huse⟩ := h.queue
  have hne : ∀ i ∈ q, i ≠ s.log.length := by
    intro i hi
    obtain ⟨e, he⟩ := exists_of_forall₂ hq i hi
    exact Nat.ne_of_lt ((List.getElem?_eq_some_iff.mp he).1)
  refine ⟨Function.update use s.log.length .queued, ?_, ?_, ?_⟩
  · have hold : ∀ i ∈ q, Function.update use s.log.length .queued i = .queued := fun i hi => by
      rw [Function.update_of_ne (hne i hi), huse i hi]
    have hq' : List.Forall₂ (fun e i => (s.log ++ [Entry.sent m])[i]? = some (.sent e))
        s.stats.replyWaitingList q := hq.imp fun _ _ => getElem?_snoc_of
    cases accepted with
    | false => exact ⟨q, hq', hnd, hold⟩
    | true =>
      refine ⟨q ++ [s.log.length], List.rel_append hq' (.cons (by simp) .nil), ?_, ?_⟩
      · rw [List.nodup_append]
        refine ⟨hnd, List.nodup_singleton _, fun i hi j hj => ?_⟩
        obtain rfl := List.mem_singleton.mp hj
        exact hne i hi
      · intro i hi
        rcases List.mem_append.mp hi with hi | hi
        · exact hold i hi
        · obtain rfl := List.mem_singleton.mp hi
          exact Function.update_self ..
  · intro n xid last tp hn
    obtain ⟨hx, i, hi, hu⟩ := h.matched n xid last tp hn
    refine ⟨hx, i, getElem?_snoc_of hi, ?_⟩
    rw [Function.update_of_ne (Nat.ne_of_lt ((List.getElem?_eq_some_iff.mp hi).1)), hu]
  · intro p xid tp type v hp
    rcases getElem?_snoc hp with hp | ⟨-, hp⟩
    · obtain ⟨i, m', hip, hi, hu, hm⟩ := h.sample p xid tp type v hp
      refine ⟨i, m', hip, getElem?_snoc_of hi, ?_, hm⟩
      rw [Function.update_of_ne (Nat.ne_of_lt ((List.getElem?_eq_some_iff.mp hi).1)), hu]
    · cases hp

theorem Attributed.advance {s t : State} {use : ℕ → Use} (h : Attributed s use) {n : ℕ}
    (ht : step s (.advance n) = some t) : ∃ use', Attributed t use' := by
  obtain ⟨q, hq, hnd, huse⟩ := h.queue
  rcases advance_cases ht with ⟨xid, tp, hn, hw, rfl⟩ |
    ⟨xid, tp, last, rest, hn, hw, hx, rfl⟩ | ⟨xid, tp, last, rest, hn, hw, hx, rfl⟩ |
    ⟨xid, last, tp, hn, rfl⟩
  · exact ⟨use, h.frame rfl rfl fun _ _ _ _ hk => (matched_of_update (by simp) hk).2⟩
  · -- the head is dropped: it keeps its use and leaves the queue
    rw [hw] at hq
    obtain ⟨i, q', hi, hq', rfl⟩ := List.forall₂_cons_left_iff.mp hq
    refine ⟨use, ⟨q', hq', hnd.of_cons, fun j hj => huse j (by simp [hj])⟩, ?_, h.sample⟩
    exact fun k x e t' hk => h.matched k x e t' (matched_of_update (by simp) hk).2
  · -- the head passes from the queue to thread `n`
    rw [hw] at hq
    obtain ⟨i, q', hi, hq', rfl⟩ := List.forall₂_cons_left_iff.mp hq
    have hui : use i = .queued := huse i (by simp)
    refine ⟨Function.update use i (.matchedBy n), ⟨q', hq', hnd.of_cons, fun j hj => ?_⟩, ?_, ?_⟩
    · have hji : j ≠ i := fun hji => (List.nodup_cons.mp hnd).1 (hji ▸ hj)
      rw [Function.update_of_ne hji]
      exact huse j (by simp [hj])
    · intro k x e t' hk
      by_cases hkn : k = n
      · subst hkn
        obtain ⟨rfl, rfl, rfl⟩ : xid = x ∧ last = e ∧ tp = t' := by simpa using hk
        exact ⟨hx, i, hi, Function.update_self ..⟩
      · obtain ⟨hx', j, hj, huj⟩ := h.matched k x e t' (by simpa [hkn] using hk)
        have hji : j ≠ i := fun hji => by rw [hji, hui] at huj; cases huj
        exact ⟨hx', j, hj, by rw [Function.update_of_ne hji, huj]⟩
    · intro p x t' type v hp
      obtain ⟨j, m, hjp, hj, huj, hm⟩ := h.sample p x t' type v hp
      have hji : j ≠ i := fun hji => by rw [hji, hui] at huj; cases huj
      exact ⟨j, m, hjp, hj, by rw [Function.update_of_ne hji, huj], hm⟩
  · -- the entry of thread `n` becomes the origin of the new sample
    obtain ⟨hx, i, hi, hui⟩ := h.matched n xid last tp hn
    refine ⟨Function.update use i (.sampledAt s.log.length), ⟨q, ?_, hnd, ?_⟩, ?_, ?_⟩
    · exact hq.imp fun _ _ => getElem?_snoc_of
    · intro j hj
      have hji : j ≠ i := fun hji => by
        have huj := huse j hj
        rw [hji, hui] at huj
        cases huj
      rw [Function.update_of_ne hji, huse j hj]
    · intro k x e t' hk
      obtain ⟨hkn, hk⟩ := matched_of_update (by simp) hk
      obtain ⟨hx', j, hj, huj⟩ := h.matched k x e t' hk
      have hji : j ≠ i := fun hji => by
        rw [hji, hui] at huj
        exact hkn (Use.matchedBy.inj huj).symm
      exact ⟨hx', j, getElem?_snoc_of hj, by rw [Function.update_of_ne hji, huj]⟩
    · intro p x t' type v hp
      rcases getElem?_snoc hp with hp | ⟨rfl, hnew⟩
      · obtain ⟨j, m, hjp, hj, huj, hm⟩ := h.sample p x t' type v hp
        have hji : j ≠ i := fun hji => by rw [hji, hui] at huj; cases huj
        exact ⟨j, m, hjp, getElem?_snoc_of hj, by rw [Function.update_of_ne hji, huj], hm⟩
      · obtain ⟨rfl, rfl, rfl, rfl⟩ := Entry.sample.inj hnew
        exact ⟨i, last, (List.getElem?_eq_some_iff.mp hi).1, getElem?_snoc_of hi,
          Function.update_self .., hx, rfl, rfl⟩

/-- The entries on their way to a sample have types the accumulators are kept for. -/
structure LatencyTyped (s : State) : Prop where
  keys : ∀ k, k ∈ s.stats.statsLatency ↔ k ∈ OFPT.latencyTypes
  waiting : ∀ e ∈ s.stats.replyWaitingList, e.type ∈ OFPT.latencyTypes
  matched : ∀ n xid last tp, s.receivers n = some (.matched xid last tp) →
    last.type ∈ OFPT.latencyTypes
  sample : ∀ xid tp type v, .sample xid tp type v ∈ s.log → type ∈ OFPT.latencyTypes

theorem sentCall_type {next : ScheduledMsg} {now : TimePoint} {m : SentMsg}
    (h : sentCall next now = some m) : m.type ∈ OFPT.latencyTypes := by
  unfold sentCall at h
  split_ifs at h with hr
  obtain rfl := Option.some.inj h
  exact (OFMsgClass.hasReply_iff _).mp hr

theorem latencyTyped_init : LatencyTyped State.init where
  keys k := by
    change k ∈ StdMap.assign ∅ OFPT.latencyTypes AccMeanMinMax.empty ↔ _
    simp [StdMap.mem_assign]
  waiting := by simp [State.init, create]
  matched := by simp [State.init]
  sample := by simp [State.init]

theorem latencyTyped_step {s t : State} {l : Label} (h : LatencyTyped s)
    (hl : l.FromSendLoop) (ht : step s l = some t) : LatencyTyped t := by
  cases l with
  | sent m accepted =>
    obtain rfl := Option.some.inj ht
    obtain ⟨next, now, hm⟩ := hl
    refine ⟨?_, ?_, h.matched, by simpa using h.sample⟩
    · cases accepted <;> exact h.keys
    · cases accepted with
      | false => exact h.waiting
      | true =>
        intro e he
        rcases List.mem_append.mp he with he | he
        · exact h.waiting e he
        · obtain rfl := List.mem_singleton.mp he
          exact sentCall_type hm
  | received n xid type tp =>
    simp only [step] at ht
    split_ifs at ht
    obtain rfl := Option.some.inj ht
    exact ⟨h.keys, h.waiting, fun k x e t' hk =>
      h.matched k x e t' (matched_of_update (by simp) hk).2, h.sample⟩
  | advance n =>
    rcases advance_cases ht with ⟨xid, tp, hn, hw, rfl⟩ |
      ⟨xid, tp, last, rest, hn, hw, hx, rfl⟩ | ⟨xid, tp, last, rest, hn, hw, hx, rfl⟩ |
      ⟨xid, last, tp, hn, rfl⟩
    · exact ⟨h.keys, h.waiting, fun k x e t' hk =>
        h.matched k x e t' (matched_of_update (by simp) hk).2, h.sample⟩
    · exact ⟨h.keys, fun e he => h.waiting e (by simp [hw, he]), fun k x e t' hk =>
        h.matched k x e t' (matched_of_update (by simp) hk).2, h.sample⟩
    · refine ⟨h.keys, fun e he => h.waiting e (by simp [hw, he]), fun k x e t' hk => ?_, h.sample⟩
      by_cases hkn : k = n
      · subst hkn
        obtain ⟨-, rfl, -⟩ : xid = x ∧ last = e ∧ tp = t' := by simpa using hk
        exact h.waiting last (by simp [hw])
      · exact h.matched k x e t' (by simpa [hkn] using hk)
    · have htype := h.matched n xid last tp hn
      refine ⟨fun k => ?_, h.waiting, fun k x e t' hk =>
        h.matched k x e t' (matched_of_update (by simp) hk).2, fun x t' type v hv => ?_⟩
      · rw [← h.keys k]
        exact StdMap.mem_modify_of_mem ((h.keys _).mpr htype)
      · rcases List.mem_append.mp hv with hv | hv
        · exact h.sample x t' type v hv
        · obtain ⟨-, -, rfl, -⟩ := Entry.sample.inj (List.mem_singleton.mp hv)
          exact htype
  | visit =>
    obtain rfl := Option.some.inj ht
    exact ⟨h.keys, h.waiting, h.matched, h.sample⟩
  | reset =>
    obtain rfl := Option.some.inj ht
    refine ⟨fun k => ?_, h.waiting, h.matched, h.sample⟩
    change k ∈ s.stats.statsLatency.assign OFPT.latencyTypes AccMeanMinMax.empty ↔ _
    rw [StdMap.mem_assign, h.keys, or_self]

theorem latencyTyped_exec {ls : List Label} {s : State} (hls : ∀ l ∈ ls, l.FromSendLoop)
    (h : Transition.exec step State.init ls = some s) : LatencyTyped s := by
  refine Transition.exec_invariant_of_meets (C := fun _ l => l.FromSendLoop)
    (fun s l t hs hl ht => latencyTyped_step hs hl ht) latencyTyped_init ?_ h
  exact Transition.meets_of_forall hls

/-- A request of the send loop and its reply. -/
def requestAndReply : List Label :=
  [.sent ⟨7, .echoRequest, 1000⟩ true, .received 0 7 .echoReply 5000, .advance 0, .advance 0]

theorem echoRequest_fromSendLoop (xid : UInt32) (now : TimePoint) (accepted : Bool) :
    (Label.sent ⟨xid, .echoRequest, now⟩ accepted).FromSendLoop :=
  ⟨⟨now, ⟨.echoRequest, xid, 8⟩⟩, now, rfl⟩

theorem requestAndReply_fromSendLoop : ∀ l ∈ requestAndReply, l.FromSendLoop := by
  intro l hl
  simp only [requestAndReply, List.mem_cons, List.not_mem_nil, or_false] at hl
  rcases hl with rfl | rfl | rfl | rfl
  · exact echoRequest_fromSendLoop 7 1000 true
  all_goals trivial

end OFLatencyStats
end HVBench
