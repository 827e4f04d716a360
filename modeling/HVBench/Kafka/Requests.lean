import HVBench.Kafka.ConnectionService

/-! Where the requests of a connection are: each is in one place until its handler is called,
whatever fails, and they are written in the order in which they were made. -/
namespace HVBench
namespace Kafka

def Operation.request : Operation → Option Request
  | .resolve => none
  | .connect => none
  | .write r => some r
  | .readSize r => some r
  | .read r => some r

def Handler.request? : Handler → Option Request
  | .enqueueRequest r => some r
  | .asyncResolve _ => none
  | .asyncConnect _ => none
  | .asyncAutoConnect _ => none
  | .asyncRequestWrite r _ => some r
  | .asyncResponseSizeRead r _ => some r
  | .asyncResponseRead r _ => some r
  | .request r _ _ => some r

namespace State

/-- The requests whose handlers have not been called, wherever they are. -/
def waiting (s : State) : Multiset Request :=
  ↑(s.ready.filterMap Handler.request?) + ↑(s.pending.filterMap Operation.request) +
    ↑s.writeQueue + ↑s.readQueue

/-- The requests whose handlers were called, once for each call. -/
def answered (s : State) : Multiset Request := ↑(s.called.map Call.request)

end State

@[simp] theorem request?_failed (e : ErrorCode) (op : Operation) :
    (op.failed e).request? = op.request := by
  cases op <;> rfl

/-- The handler of an operation is that of its request. -/
theorem request?_handler {place : ℕ} {op : Operation} {o : Outcome} {h : Handler}
    (hh : op.handler place o = some h) : h.request? = op.request := by
  cases op <;> cases o <;> simp only [Operation.handler, Option.some.injEq, reduceCtorEq] at hh <;>
    subst hh <;> rfl

theorem filterMap_failed (e : ErrorCode) (ops : List Operation) :
    (ops.map (Operation.failed e)).filterMap Handler.request? =
      ops.filterMap Operation.request := by
  rw [List.filterMap_map]
  apply List.filterMap_congr
  intro op _
  exact request?_failed e op

/-- The resolver has no request. -/
theorem filterMap_resolve (ops : List Operation) :
    (ops.filter (· = .resolve)).filterMap Operation.request = [] := by
  apply List.filterMap_eq_nil_iff.mpr
  intro op hop
  have heq : op = .resolve := by simpa using (List.mem_filter.mp hop).2
  rw [heq]
  rfl

theorem filterMap_socket (ops : List Operation) :
    (ops.filter (· ≠ .resolve)).filterMap Operation.request = ops.filterMap Operation.request := by
  induction ops with
  | nil => rfl
  | cons op ops ih =>
    by_cases hop : op = .resolve
    · subst hop
      rw [List.filter_cons_of_neg (by simp)]
      exact ih
    · rw [List.filter_cons_of_pos (by simpa using hop), List.filterMap_cons, List.filterMap_cons,
        ih]

namespace State

/-- From one state to another, these requests come in and no handler is called. -/
structure Gains (s t : State) (m : Multiset Request) : Prop where
  waiting : t.waiting = s.waiting + m
  called : t.called = s.called
  requested : t.requested = s.requested

theorem Gains.refl (s : State) : Gains s s 0 := ⟨(add_zero _).symm, rfl, rfl⟩

theorem Gains.trans {s t u : State} {m n : Multiset Request} (h : Gains s t m)
    (h' : Gains t u n) : Gains s u (m + n) := by
  refine ⟨?_, h'.called.trans h.called, h'.requested.trans h.requested⟩
  rw [h'.waiting, h.waiting, add_assoc]

/-- The states of a connection, of writing and of reading hold no request. -/
theorem Gains.congr {s s' t : State} {m : Multiset Request} (h : Gains s' t m)
    (hwaiting : s'.waiting = s.waiting) (hcalled : s'.called = s.called)
    (hrequested : s'.requested = s.requested) : Gains s t m :=
  ⟨hwaiting ▸ h.waiting, hcalled ▸ h.called, hrequested ▸ h.requested⟩

theorem gains_post (s : State) (h : Handler) : Gains s (s.post h) ↑h.request?.toList := by
  have hone : [h].filterMap Handler.request? = h.request?.toList := by
    cases hr : h.request? <;> simp [hr]
  refine ⟨?_, rfl, rfl⟩
  unfold State.waiting post
  dsimp only
  rw [List.filterMap_append, hone, ← Multiset.coe_add]
  abel

theorem gains_close (s : State) : Gains s s.close 0 := by
  refine ⟨?_, rfl, rfl⟩
  unfold State.waiting close
  dsimp only
  rw [List.filterMap_append, filterMap_failed, ← Multiset.coe_add, List.filterMap_nil,
    Multiset.coe_nil]
  abel

theorem gains_start (s : State) (op : Operation) : Gains s (s.start op) ↑op.request.toList := by
  have hone : [op].filterMap Operation.request = op.request.toList := by
    cases hr : op.request <;> simp [hr]
  unfold start
  split_ifs
  · refine ⟨?_, rfl, rfl⟩
    unfold State.waiting
    dsimp only
    rw [List.filterMap_append, hone, ← Multiset.coe_add]
    abel
  · have hpost := gains_post s (op.failed badDescriptor)
    rw [request?_failed] at hpost
    exact hpost

theorem gains_startConnect (s : State) : Gains s s.startConnect 0 := by
  have hone : [Operation.connect].filterMap Operation.request = [] := rfl
  refine ⟨?_, rfl, rfl⟩
  unfold State.waiting startConnect
  dsimp only
  rw [List.filterMap_append, List.filterMap_append, filterMap_failed, filterMap_resolve,
    filterMap_socket, hone, ← Multiset.coe_add, List.append_nil, Multiset.coe_nil]
  abel

/-- To write or to read holds a request that is not in the queue any more. -/
theorem gains_sendRequest (s : State) (r : Request) : Gains s (s.sendRequest r) {r} := by
  obtain ⟨hwaiting, hcalled, hrequested⟩ := gains_start s (.write r)
  exact ⟨hwaiting, hcalled, hrequested⟩

theorem gains_receiveResponse (s : State) (r : Request) : Gains s (s.receiveResponse r) {r} := by
  obtain ⟨hwaiting, hcalled, hrequested⟩ := gains_start s (.readSize r)
  exact ⟨hwaiting, hcalled, hrequested⟩

/-- What leaves a queue is no longer there. -/
theorem gains_popWrite {s t : State} {r : Request} {rest : List Request} {m : Multiset Request}
    (h : Gains s t ({r} + m)) (hqueue : t.writeQueue = r :: rest) :
    Gains s { t with writeQueue := rest } m := by
  refine ⟨?_, h.called, h.requested⟩
  have hwaiting := h.waiting
  unfold State.waiting at hwaiting ⊢
  dsimp only
  rw [hqueue, ← Multiset.cons_coe, ← Multiset.singleton_add] at hwaiting
  apply add_left_cancel (a := ({r} : Multiset Request))
  refine Eq.trans ?_ (hwaiting.trans ?_) <;> abel

theorem gains_popRead {s t : State} {r : Request} {rest : List Request} {m : Multiset Request}
    (h : Gains s t ({r} + m)) (hqueue : t.readQueue = r :: rest) :
    Gains s { t with readQueue := rest } m := by
  refine ⟨?_, h.called, h.requested⟩
  have hwaiting := h.waiting
  unfold State.waiting at hwaiting ⊢
  dsimp only
  rw [hqueue, ← Multiset.cons_coe, ← Multiset.singleton_add] at hwaiting
  apply add_left_cancel (a := ({r} : Multiset Request))
  refine Eq.trans ?_ (hwaiting.trans ?_) <;> abel

theorem gains_pushWrite (s : State) (r : Request) :
    Gains s { s with writeQueue := s.writeQueue ++ [r] } {r} := by
  refine ⟨?_, rfl, rfl⟩
  unfold State.waiting
  dsimp only
  rw [← Multiset.coe_add, Multiset.coe_singleton]
  abel

theorem gains_pushRead (s : State) (r : Request) :
    Gains s { s with readQueue := s.readQueue ++ [r] } {r} := by
  refine ⟨?_, rfl, rfl⟩
  unfold State.waiting
  dsimp only
  rw [← Multiset.coe_add, Multiset.coe_singleton]
  abel

theorem gains_nextResponse (s : State) : Gains s s.nextResponse 0 := by
  unfold nextResponse
  split
  · exact .refl s
  next r rest hqueue =>
    split_ifs
    · exact .refl s
    · apply gains_popRead (r := r)
      · rw [add_zero]
        exact gains_receiveResponse s r
      · rw [receiveResponse_readQueue]
        exact hqueue

variable (config : ConnectionConfiguration)

theorem gains_asyncConnect (s : State) : Gains s (s.asyncConnect config) 0 := by
  unfold asyncConnect
  split_ifs
  · exact gains_post s _
  · exact gains_post s _
  · refine ⟨?_, rfl, rfl⟩
    unfold State.waiting
    dsimp only
    rw [List.filterMap_append]
    exact (congrArg (· + _ + _) (congrArg (_ + ·) (congrArg _ (List.append_nil _)))).trans
      (add_zero _).symm

theorem gains_nextRequest (s : State) : Gains s (s.nextRequest config) 0 := by
  unfold nextRequest
  split
  · exact .refl s
  next r rest hqueue =>
    split_ifs
    · exact .refl s
    · exact gains_asyncConnect config s
    · apply gains_popWrite (r := r)
      · rw [add_zero]
        exact gains_sendRequest s r
      · rw [sendRequest_writeQueue]
        exact hqueue
    · exact .refl s

theorem gains_enqueueRequest (s : State) (r : Request) :
    Gains s (s.enqueueRequest config r) {r} := by
  unfold enqueueRequest
  split_ifs
  · exact gains_post s _
  · exact gains_post s _
  · exact gains_sendRequest s r
  · have hnext := (gains_pushWrite s r).trans (gains_nextRequest config _)
    rw [add_zero] at hnext
    exact hnext
  · exact gains_pushWrite s r

/-- The requests that wait for a response move to the handlers of failed reads. -/
theorem gains_flushReads (s : State) (r : Request) (e : ErrorCode) :
    Gains s
      { s with
        readQueue := []
        ready := s.ready ++ .request r (some e) none ::
          s.readQueue.map fun q => .asyncResponseSizeRead q (.error e) } {r} := by
  have hflush : (Handler.request r (some e) none ::
      s.readQueue.map fun q => Handler.asyncResponseSizeRead q (.error e)).filterMap
        Handler.request? = r :: s.readQueue := by
    show r :: List.filterMap _ _ = _
    rw [List.filterMap_map]
    exact congrArg (r :: ·) List.filterMap_some
  refine ⟨?_, rfl, rfl⟩
  unfold State.waiting
  dsimp only
  rw [List.filterMap_append, hflush, ← Multiset.coe_add, ← Multiset.cons_coe,
    ← Multiset.singleton_add, Multiset.coe_nil]
  abel

theorem gains_enqueueResponse (s : State) (r : Request) :
    Gains s (s.enqueueResponse config r) {r} := by
  unfold enqueueResponse
  split_ifs
  · have hnext := (gains_flushReads s r .notConnected).trans (gains_nextRequest config _)
    rw [add_zero] at hnext
    exact hnext
  · exact gains_receiveResponse s r
  · have hnext := (gains_pushRead s r).trans (gains_nextResponse _)
    rw [add_zero] at hnext
    exact hnext
  · exact gains_pushRead s r

/-- The requests that wait to be written move to the handlers of failed writes. -/
theorem gains_flushWrites (s : State) (e : ErrorCode) :
    Gains s
      { s with
        writeQueue := []
        ready := s.ready ++ s.writeQueue.map fun r => .asyncRequestWrite r (some e) } 0 := by
  have hflush : (s.writeQueue.map fun r => Handler.asyncRequestWrite r (some e)).filterMap
      Handler.request? = s.writeQueue := by
    rw [List.filterMap_map]
    exact List.filterMap_some
  refine ⟨?_, rfl, rfl⟩
  unfold State.waiting
  dsimp only
  rw [List.filterMap_append, hflush, ← Multiset.coe_add, Multiset.coe_nil]
  abel

/-- A call that is posted before the connection is closed. -/
theorem gains_post_close (s : State) (h : Handler) :
    Gains s (s.post h).close ↑h.request?.toList := by
  have hclosed := (gains_post s h).trans (gains_close _)
  rw [add_zero] at hclosed
  exact hclosed

theorem gains_handleAsyncResolve (s : State) (error : Option ErrorCode) :
    Gains s (s.handleAsyncResolve error) 0 := by
  cases error with
  | some e => exact gains_post_close s _
  | none => exact gains_startConnect s

theorem gains_handleAsyncConnect (s : State) (error : Option ErrorCode) :
    Gains s (s.handleAsyncConnect error) 0 := by
  cases error with
  | some e => exact (gains_close s).trans (gains_post _ _)
  | none => exact (gains_post { s with connectionState := .connected } _).congr rfl rfl rfl

theorem gains_handleAsyncAutoConnect (s : State) (error : Option ErrorCode) :
    Gains s (s.handleAsyncAutoConnect error) 0 := by
  cases error with
  | some e => exact gains_flushWrites s e
  | none =>
    unfold handleAsyncAutoConnect
    dsimp only
    split
    · exact .refl s
    next r rest hqueue =>
      apply gains_popWrite (r := r)
      · rw [add_zero]
        exact gains_sendRequest s r
      · rw [sendRequest_writeQueue]
        exact hqueue

theorem gains_handleAsyncRequestWrite (s : State) (r : Request) (error : Option ErrorCode) :
    Gains s (s.handleAsyncRequestWrite config r error) {r} := by
  cases error with
  | some e =>
    exact (gains_post_close { s with writeState := .idle }
      (.request r (some e) none)).congr rfl rfl rfl
  | none =>
    unfold handleAsyncRequestWrite
    dsimp only
    split_ifs
    · exact (gains_enqueueResponse config { s with writeState := .idle } r).congr rfl rfl rfl
    · have hnext := (gains_post { s with writeState := .idle } (.request r none none)).trans
        (gains_nextRequest config _)
      rw [add_zero] at hnext
      exact hnext.congr rfl rfl rfl

theorem gains_handleAsyncResponseSizeRead {s t : State} {r : Request}
    {size : Except ErrorCode ℤ}
    (ht : s.handleAsyncResponseSizeRead config r size = some t) : Gains s t {r} := by
  cases size with
  | error e =>
    obtain rfl := Option.some.inj ht
    exact gains_post_close s (.request r (some e) none)
  | ok n =>
    simp only [handleAsyncResponseSizeRead] at ht
    split_ifs at ht
    · obtain rfl := Option.some.inj ht
      exact gains_post_close s (.request r (some messageSizeTooLarge) none)
    · obtain rfl := Option.some.inj ht
      exact gains_start s (.read r)

theorem gains_handleAsyncResponseRead (s : State) (r : Request)
    (response : Except ErrorCode Response) :
    Gains s (s.handleAsyncResponseRead config r response) {r} := by
  cases response with
  | error e => exact gains_post_close s (.request r (some e) none)
  | ok response =>
    have hnext := (gains_post { s with readState := .idle } (.request r response.error
      (if response.error = none then some response else none))).trans (gains_nextRequest config _)
    rw [add_zero] at hnext
    exact hnext.congr rfl rfl rfl

/-- A handler keeps its request, but for that of the user, which is called with it. -/
theorem gains_handle {s t : State} {h : Handler} (ht : s.handle config h = some t) :
    Gains s t ↑h.request?.toList ∨
      ∃ r e p, h = .request r e p ∧ t = { s with called := s.called ++ [⟨r, e, p⟩] } := by
  cases h with
  | enqueueRequest r =>
    obtain rfl := Option.some.inj ht
    exact .inl (gains_enqueueRequest config s r)
  | asyncResolve error =>
    obtain rfl := Option.some.inj ht
    exact .inl (gains_handleAsyncResolve s error)
  | asyncConnect error =>
    obtain rfl := Option.some.inj ht
    exact .inl (gains_handleAsyncConnect s error)
  | asyncAutoConnect error =>
    obtain rfl := Option.some.inj ht
    exact .inl (gains_handleAsyncAutoConnect s error)
  | asyncRequestWrite r error =>
    obtain rfl := Option.some.inj ht
    exact .inl (gains_handleAsyncRequestWrite config s r error)
  | asyncResponseSizeRead r size => exact .inl (gains_handleAsyncResponseSizeRead config ht)
  | asyncResponseRead r response =>
    obtain rfl := Option.some.inj ht
    exact .inl (gains_handleAsyncResponseRead config s r response)
  | request r error response =>
    obtain rfl := Option.some.inj ht
    exact .inr ⟨r, error, response, rfl, rfl⟩

end State

/-- Each request is in one place. -/
def Conserved (s : State) : Prop := s.waiting + s.answered = ↑s.requested

theorem conserved_of_gains {s t : State} {m : Multiset Request}
    (hs : s.waiting + m + s.answered = ↑s.requested) (h : State.Gains s t m) : Conserved t := by
  unfold Conserved State.answered
  rw [h.waiting, h.called, h.requested]
  exact hs

/-- A call answers its request. -/
theorem conserved_of_call {s : State} {r : Request} {e : Option ErrorCode}
    {p : Option Response} (hs : s.waiting + {r} + s.answered = ↑s.requested) :
    Conserved { s with called := s.called ++ [⟨r, e, p⟩] } := by
  have hwaiting : State.waiting { s with called := s.called ++ [⟨r, e, p⟩] } = s.waiting := rfl
  have hanswered : State.answered { s with called := s.called ++ [⟨r, e, p⟩] } =
      s.answered + {r} := by
    unfold State.answered
    rw [List.map_append, ← Multiset.coe_add]
    rfl
  unfold Conserved
  rw [hwaiting, hanswered]
  show _ = (s.requested : Multiset Request)
  rw [← hs]
  abel

variable {config : ConnectionConfiguration}

/-- A new request waits for its handler to be run. -/
theorem waiting_asyncRequest (s : State) (r : Request) :
    State.waiting
      { s with requested := s.requested ++ [r], ready := s.ready ++ [.enqueueRequest r] } =
      s.waiting + {r} := (State.gains_post s (.enqueueRequest r)).waiting

/-- An operation that ends leaves its request to the handler. -/
theorem waiting_complete {s : State} {op : Operation} {o : Outcome} {hd : Handler}
    {before after : List Operation} (hhd : op.handler s.took.length o = some hd)
    (hpending : s.pending = before ++ op :: after) (up : Bool) (took : List Request) :
    State.waiting
      { s with
        up := up, pending := before ++ after, ready := s.ready ++ [hd], took := took } =
      s.waiting := by
  have hone : [hd].filterMap Handler.request? = [op].filterMap Operation.request := by
    have hsame := request?_handler hhd
    cases hr : op.request with
    | none => simp [hr, hsame.trans hr]
    | some r => simp [hr, hsame.trans hr]
  have hsplit : before ++ op :: after = before ++ ([op] ++ after) := rfl
  unfold State.waiting
  dsimp only
  rw [hpending, hsplit]
  simp only [List.filterMap_append, ← Multiset.coe_add]
  rw [hone]
  abel

/-- The handler that is run takes its request from those that are ready. -/
theorem waiting_run {s : State} {hd : Handler} {rest : List Handler}
    (hready : s.ready = hd :: rest) :
    s.waiting = State.waiting { s with ready := rest } + ↑hd.request?.toList := by
  have hsplit : (hd :: rest).filterMap Handler.request? =
      hd.request?.toList ++ rest.filterMap Handler.request? := by
    cases hr : hd.request? <;> simp [hr]
  unfold State.waiting
  dsimp only
  rw [hready, hsplit, ← Multiset.coe_add]
  abel

theorem conserved_step (s : State) (l : Label) (t : State) (hs : Conserved s)
    (h : step config s l = some t) : Conserved t := by
  unfold Conserved at hs
  rcases step_cases h with ⟨r, -, rfl⟩ | ⟨op, o, hd, before, after, -, hhd, hpending, rfl⟩ |
    ⟨-, rfl⟩ | ⟨hd, rest, -, hready, ht⟩
  · show _ + s.answered = ↑(s.requested ++ [r])
    rw [waiting_asyncRequest, ← Multiset.coe_add, ← hs, Multiset.coe_singleton]
    abel
  · show _ + s.answered = ↑s.requested
    rw [waiting_complete hhd hpending]
    exact hs
  · apply conserved_of_gains _ (State.gains_close s)
    rw [add_zero]
    exact hs
  · rw [waiting_run hready] at hs
    rcases State.gains_handle config ht with hgains | ⟨r, e, p, rfl, rfl⟩
    · exact conserved_of_gains hs hgains
    · exact conserved_of_call hs

/-- Whatever fails and whenever the connection is closed, no request is lost and none is
answered twice: each one made is either waiting in one place or was answered once. -/
theorem requests_conserved (config : ConnectionConfiguration) (ls : List Label) (s : State)
    (h : Transition.exec (step config) init ls = some s) :
    s.waiting + s.answered = ↑s.requested :=
  Transition.exec_invariant conserved_step (show Conserved init from rfl) h

/-- A broker to which the connection is made by itself. -/
def localBroker : ConnectionConfiguration :=
  ⟨4194304, true, some ⟨"127.0.0.1".toList, "9092".toList⟩⟩

/-- Two requests, of which the first is written on the new connection. -/
def firstWrite : List Label :=
  [.asyncRequest ⟨1, true⟩, .asyncRequest ⟨2, true⟩, .run, .run, .complete .resolve .success,
    .run, .complete .connect .success, .run, .run, .complete (.write ⟨1, true⟩) .success, .run]

/-- The connection is lost while the first response is read, before the second request. -/
theorem requests_conserved_lost :
    ∃ s, Transition.exec (step localBroker) init
        (firstWrite ++ [.complete (.readSize ⟨1, true⟩) (.error (.system 104)), .run, .run]) =
          some s ∧
      s.called = [⟨⟨1, true⟩, some (.system 104), none⟩] ∧ s.writeQueue = [⟨2, true⟩] ∧
      s.waiting + s.answered = ↑s.requested := by
  obtain ⟨s, hs, hcalled, hqueue⟩ : ∃ s, Transition.exec (step localBroker) init
      (firstWrite ++ [.complete (.readSize ⟨1, true⟩) (.error (.system 104)), .run, .run]) =
        some s ∧
      s.called = [⟨⟨1, true⟩, some (.system 104), none⟩] ∧ s.writeQueue = [⟨2, true⟩] :=
    ⟨_, rfl, rfl, rfl⟩
  exact ⟨s, hs, hcalled, hqueue, requests_conserved localBroker _ s hs⟩

def Handler.enqueued : Handler → Option Request
  | .enqueueRequest r => some r
  | _ => none

namespace State

/-- The requests that were written and those that are to be, in this order. -/
def line (s : State) : List Request := s.sent ++ s.writeQueue

/-- From one state to another, the line may lose requests and these may join its end. -/
structure Joins (s t : State) (rs : List Request) : Prop where
  line : t.line.Sublist (s.line ++ rs)
  ready : t.ready.filterMap Handler.enqueued = s.ready.filterMap Handler.enqueued
  requested : t.requested = s.requested

theorem Joins.trans {s t u : State} {rs : List Request} (h : Joins s t rs) (h' : Joins t u []) :
    Joins s u rs := by
  refine ⟨?_, h'.ready.trans h.ready, h'.requested.trans h.requested⟩
  have hline := h'.line
  rw [List.append_nil] at hline
  exact hline.trans h.line

/-- The states of a connection and of reading are of no account to the line. -/
theorem Joins.congr {s s' t : State} {rs : List Request} (h : Joins s' t rs)
    (hline : s'.line = s.line)
    (hready : s'.ready.filterMap Handler.enqueued = s.ready.filterMap Handler.enqueued)
    (hrequested : s'.requested = s.requested) : Joins s t rs :=
  ⟨hline ▸ h.line, h.ready.trans hready, h.requested.trans hrequested⟩

/-- The line is the same, and what has become ready joins no line. -/
theorem joins_of_ready {s t : State} {hs : List Handler} (hsent : t.sent = s.sent)
    (hqueue : t.writeQueue = s.writeQueue) (hready : t.ready = s.ready ++ hs)
    (hnone : ∀ h ∈ hs, h.enqueued = none) (hrequested : t.requested = s.requested) :
    Joins s t [] := by
  refine ⟨?_, ?_, hrequested⟩
  · unfold State.line
    rw [hsent, hqueue, List.append_nil]
  · rw [hready, List.filterMap_append, List.filterMap_eq_nil_iff.mpr hnone, List.append_nil]

theorem joins_same {s t : State} (hsent : t.sent = s.sent) (hqueue : t.writeQueue = s.writeQueue)
    (hready : t.ready = s.ready) (hrequested : t.requested = s.requested) : Joins s t [] := by
  rw [← List.append_nil s.ready] at hready
  exact joins_of_ready hsent hqueue hready (fun g hg => absurd hg List.not_mem_nil) hrequested

theorem joins_post (s : State) {h : Handler} (hnone : h.enqueued = none) :
    Joins s (s.post h) [] := by
  refine joins_of_ready rfl rfl rfl (fun g hg => ?_) rfl
  rw [List.mem_singleton.mp hg]
  exact hnone

theorem enqueued_failed (e : ErrorCode) (op : Operation) : (op.failed e).enqueued = none := by
  cases op <;> rfl

theorem joins_close (s : State) : Joins s s.close [] := by
  refine joins_of_ready rfl rfl rfl (fun g hg => ?_) rfl
  obtain ⟨op, -, rfl⟩ := List.mem_map.mp hg
  exact enqueued_failed _ op

theorem joins_start (s : State) (op : Operation) : Joins s (s.start op) [] := by
  unfold start
  split_ifs
  · exact joins_same rfl rfl rfl rfl
  · exact joins_post s (enqueued_failed _ op)

/-- To write the first request of the line that is not written yet. -/
theorem joins_sendFront {s : State} {r : Request} {rest : List Request}
    (hqueue : s.writeQueue = r :: rest) :
    Joins s { s.sendRequest r with writeQueue := rest } [] := by
  have hstart := joins_start s (.write r)
  refine ⟨?_, hstart.ready, hstart.requested⟩
  show (s.sent ++ [r] ++ rest).Sublist (s.sent ++ s.writeQueue ++ [])
  rw [hqueue, List.append_nil, List.append_assoc, List.singleton_append]

theorem joins_receiveResponse (s : State) (r : Request) : Joins s (s.receiveResponse r) [] := by
  obtain ⟨hline, hready, hrequested⟩ := joins_start s (.readSize r)
  exact ⟨hline, hready, hrequested⟩

theorem joins_nextResponse (s : State) : Joins s s.nextResponse [] := by
  unfold nextResponse
  split
  · exact joins_same rfl rfl rfl rfl
  next r rest hqueue =>
    split_ifs
    · exact joins_same rfl rfl rfl rfl
    · obtain ⟨hline, hready, hrequested⟩ := joins_receiveResponse s r
      exact ⟨hline, hready, hrequested⟩

variable (config : ConnectionConfiguration)

theorem joins_asyncConnect (s : State) : Joins s (s.asyncConnect config) [] := by
  unfold asyncConnect
  split_ifs
  · exact joins_post s rfl
  · exact joins_post s rfl
  · exact joins_same rfl rfl rfl rfl

theorem joins_nextRequest (s : State) : Joins s (s.nextRequest config) [] := by
  unfold nextRequest
  split
  · exact joins_same rfl rfl rfl rfl
  next r rest hqueue =>
    split_ifs
    · exact joins_same rfl rfl rfl rfl
    · exact joins_asyncConnect config s
    · exact joins_sendFront hqueue
    · exact joins_same rfl rfl rfl rfl

theorem joins_pushWrite (s : State) (r : Request) :
    Joins s { s with writeQueue := s.writeQueue ++ [r] } [r] := by
  refine ⟨?_, rfl, rfl⟩
  unfold State.line
  dsimp only
  rw [List.append_assoc]

/-- A refused request does not join the line. -/
theorem joins_refuse (s : State) (r : Request) (e : ErrorCode) :
    Joins s (s.post (.request r (some e) none)) [r] := by
  obtain ⟨hline, hready, hrequested⟩ := joins_post s (h := .request r (some e) none) rfl
  rw [List.append_nil] at hline
  exact ⟨hline.trans (List.sublist_append_left _ _), hready, hrequested⟩

theorem joins_enqueueRequest (s : State) (r : Request) :
    Joins s (s.enqueueRequest config r) [r] := by
  unfold enqueueRequest
  split_ifs with hclosed hbroker hidle hfree
  · exact joins_refuse s r _
  · exact joins_refuse s r _
  · obtain ⟨-, hready, hrequested⟩ := joins_start s (.write r)
    refine ⟨?_, hready, hrequested⟩
    unfold State.line
    rw [sendRequest_writeQueue, hfree.1, List.append_nil, List.append_nil]
    exact List.Sublist.refl _
  · exact (joins_pushWrite s r).trans (joins_nextRequest config _)
  · exact joins_pushWrite s r

theorem joins_flushReads (s : State) (r : Request) (e : ErrorCode) :
    Joins s
      { s with
        readQueue := []
        ready := s.ready ++ .request r (some e) none ::
          s.readQueue.map fun q => .asyncResponseSizeRead q (.error e) } [] := by
  refine joins_of_ready rfl rfl rfl (fun g hg => ?_) rfl
  rcases List.mem_cons.mp hg with rfl | hg
  · rfl
  · obtain ⟨q, -, rfl⟩ := List.mem_map.mp hg
    rfl

theorem joins_enqueueResponse (s : State) (r : Request) :
    Joins s (s.enqueueResponse config r) [] := by
  unfold enqueueResponse
  split_ifs
  · exact (joins_flushReads s r _).trans (joins_nextRequest config _)
  · exact joins_receiveResponse s r
  · exact (joins_nextResponse _).congr rfl rfl rfl
  · exact joins_same rfl rfl rfl rfl

theorem joins_post_close (s : State) {h : Handler} (hnone : h.enqueued = none) :
    Joins s (s.post h).close [] := (joins_post s hnone).trans (joins_close _)

theorem joins_handleAsyncResolve (s : State) (error : Option ErrorCode) :
    Joins s (s.handleAsyncResolve error) [] := by
  cases error with
  | some e => exact joins_post_close s rfl
  | none =>
    refine joins_of_ready rfl rfl rfl (fun g hg => ?_) rfl
    obtain ⟨op, -, rfl⟩ := List.mem_map.mp hg
    exact enqueued_failed _ op

theorem joins_handleAsyncConnect (s : State) (error : Option ErrorCode) :
    Joins s (s.handleAsyncConnect error) [] := by
  cases error with
  | some e => exact (joins_close s).trans (joins_post _ rfl)
  | none =>
    have hpost := joins_post { s with connectionState := .connected }
      (h := .asyncAutoConnect none) rfl
    exact hpost.congr rfl rfl rfl

/-- A failed connection empties the line. -/
theorem joins_handleAsyncAutoConnect (s : State) (error : Option ErrorCode) :
    Joins s (s.handleAsyncAutoConnect error) [] := by
  unfold handleAsyncAutoConnect
  cases error with
  | some e =>
    refine ⟨?_, ?_, rfl⟩
    · unfold State.line
      dsimp only
      rw [List.append_nil, List.append_nil]
      exact List.sublist_append_left _ _
    · have hnone : (s.writeQueue.map fun r => Handler.asyncRequestWrite r (some e)).filterMap
          Handler.enqueued = [] := by
        apply List.filterMap_eq_nil_iff.mpr
        intro g hg
        obtain ⟨q, -, rfl⟩ := List.mem_map.mp hg
        rfl
      dsimp only
      rw [List.filterMap_append, hnone, List.append_nil]
  | none =>
    dsimp only
    split
    · exact joins_same rfl rfl rfl rfl
    next r rest hqueue => exact joins_sendFront hqueue

theorem joins_handleAsyncRequestWrite (s : State) (r : Request) (error : Option ErrorCode) :
    Joins s (s.handleAsyncRequestWrite config r error) [] := by
  cases error with
  | some e =>
    have hclose := joins_post_close { s with writeState := .idle }
      (h := .request r (some e) none) rfl
    exact hclose.congr rfl rfl rfl
  | none =>
    unfold handleAsyncRequestWrite
    dsimp only
    split_ifs
    · exact (joins_enqueueResponse config _ r).congr rfl rfl rfl
    · have hpost := joins_post { s with writeState := .idle } (h := .request r none none) rfl
      exact (hpost.trans (joins_nextRequest config _)).congr rfl rfl rfl

theorem joins_handleAsyncResponseSizeRead {s t : State} {r : Request}
    {size : Except ErrorCode ℤ}
    (ht : s.handleAsyncResponseSizeRead config r size = some t) : Joins s t [] := by
  cases size with
  | error e =>
    obtain rfl := Option.some.inj ht
    exact joins_post_close s rfl
  | ok n =>
    simp only [handleAsyncResponseSizeRead] at ht
    split_ifs at ht
    · obtain rfl := Option.some.inj ht
      exact joins_post_close s rfl
    · obtain rfl := Option.some.inj ht
      exact joins_start s _

theorem joins_handleAsyncResponseRead (s : State) (r : Request)
    (response : Except ErrorCode Response) :
    Joins s (s.handleAsyncResponseRead config r response) [] := by
  cases response with
  | error e => exact joins_post_close s rfl
  | ok response =>
    have hpost := joins_post { s with readState := .idle } (h := .request r response.error
      (if response.error = none then some response else none)) rfl
    exact (hpost.trans (joins_nextRequest config _)).congr rfl rfl rfl

/-- Only the handler that enqueues a request lets it join the line. -/
theorem joins_handle {s t : State} {h : Handler} (ht : s.handle config h = some t) :
    Joins s t h.enqueued.toList := by
  cases h with
  | enqueueRequest r =>
    obtain rfl := Option.some.inj ht
    exact joins_enqueueRequest config s r
  | asyncResolve error =>
    obtain rfl := Option.some.inj ht
    exact joins_handleAsyncResolve s error
  | asyncConnect error =>
    obtain rfl := Option.some.inj ht
    exact joins_handleAsyncConnect s error
  | asyncAutoConnect error =>
    obtain rfl := Option.some.inj ht
    exact joins_handleAsyncAutoConnect s error
  | asyncRequestWrite r error =>
    obtain rfl := Option.some.inj ht
    exact joins_handleAsyncRequestWrite config s r error
  | asyncResponseSizeRead r size => exact joins_handleAsyncResponseSizeRead config ht
  | asyncResponseRead r response =>
    obtain rfl := Option.some.inj ht
    exact joins_handleAsyncResponseRead config s r response
  | request r error response =>
    obtain rfl := Option.some.inj ht
    exact joins_same rfl rfl rfl rfl

end State

/-- What was written, what is to be written and what is to be enqueued is in the order in
which the requests were made. -/
def InOrder (s : State) : Prop :=
  (s.line ++ s.ready.filterMap Handler.enqueued).Sublist s.requested

theorem inOrder_of_joins {s t : State} {rs : List Request} (h : State.Joins s t rs)
    (hs : (s.line ++ rs ++ s.ready.filterMap Handler.enqueued).Sublist s.requested) :
    InOrder t := by
  unfold InOrder
  rw [h.ready, h.requested]
  exact (h.line.append_right _).trans hs

theorem inOrder_step (s : State) (l : Label) (t : State) (hs : InOrder s)
    (h : step config s l = some t) : InOrder t := by
  rcases step_cases h with ⟨r, -, rfl⟩ | ⟨op, o, hd, before, after, -, hhd, hpending, rfl⟩ |
    ⟨-, rfl⟩ | ⟨hd, rest, -, hready, ht⟩
  · unfold InOrder
    show (s.line ++ _).Sublist _
    dsimp only
    rw [List.filterMap_append, ← List.append_assoc]
    exact hs.append (List.Sublist.refl [r])
  · have hnone : hd.enqueued = none := by
      cases op <;> cases o <;>
        simp only [Operation.handler, Option.some.injEq, reduceCtorEq] at hhd <;> subst hhd <;> rfl
    unfold InOrder
    show (s.line ++ _).Sublist _
    dsimp only
    rw [List.filterMap_append, List.filterMap_cons_none hnone, List.filterMap_nil,
      List.append_nil]
    exact hs
  · apply inOrder_of_joins (State.joins_close s)
    rw [List.append_nil]
    exact hs
  · apply inOrder_of_joins (State.joins_handle config ht)
    unfold InOrder at hs
    have hsplit : (hd :: rest).filterMap Handler.enqueued =
        hd.enqueued.toList ++ rest.filterMap Handler.enqueued := by
      cases hr : hd.enqueued <;> simp [hr]
    rw [hready, hsplit, ← List.append_assoc] at hs
    exact hs

/-- The requests are written in the order in which they were made, over all connections and
whatever fails in between. -/
theorem requests_sent_in_order (config : ConnectionConfiguration) (ls : List Label) (s : State)
    (h : Transition.exec (step config) init ls = some s) : s.sent.Sublist s.requested := by
  have hinOrder : InOrder s :=
    Transition.exec_invariant inOrder_step (show InOrder init from .slnil) h
  unfold InOrder State.line at hinOrder
  rw [List.append_assoc] at hinOrder
  exact (List.sublist_append_left _ _).trans hinOrder

theorem requests_sent_in_order_first :
    ∃ s, Transition.exec (step localBroker) init firstWrite = some s ∧
      s.sent = [⟨1, true⟩] ∧ s.sent.Sublist s.requested := by
  obtain ⟨s, hs, hsent⟩ : ∃ s, Transition.exec (step localBroker) init firstWrite = some s ∧
      s.sent = [⟨1, true⟩] := ⟨_, rfl, rfl⟩
  exact ⟨s, hs, hsent, requests_sent_in_order localBroker _ s hs⟩

end Kafka
end HVBench
