import HVBench.Kafka.Requests

/-! The responses of a connection: which request gets which, and which get none. -/
namespace HVBench
namespace Kafka

def TxState.load : TxState → ℕ
  | .idle => 0
  | .busy => 1

def Operation.reading : Operation → Option Request
  | .readSize r => some r
  | .read r => some r
  | _ => none

/-- The request of which the size of the response was read. -/
def Handler.reading : Handler → Option Request
  | .asyncResponseSizeRead r (.ok _) => some r
  | _ => none

/-- The request of which the response was read. -/
def Handler.taking : Handler → Option Request
  | .asyncResponseRead r (.ok _) => some r
  | _ => none

namespace State

/-- The requests of which a response is being read, and those of which one was. -/
def reading (s : State) : List Request :=
  s.pending.filterMap Operation.reading ++ s.ready.filterMap Handler.reading

def taking (s : State) : List Request := s.ready.filterMap Handler.taking

def reads (s : State) : ℕ := s.reading.length + s.taking.length

/-- A step between the two reads nothing new from the socket. -/
structure Calm (s t : State) : Prop where
  reads : t.reads ≤ s.reads
  readState : t.readState = s.readState
  took : t.took = s.took

theorem Calm.refl (s : State) : Calm s s := ⟨le_refl _, rfl, rfl⟩

theorem Calm.trans {s t u : State} (h : Calm s t) (h' : Calm t u) : Calm s u :=
  ⟨h'.reads.trans h.reads, h'.readState.trans h.readState, h'.took.trans h.took⟩

/-- The same reads, under another state of the connection and of the queues. -/
theorem Calm.congr {s s' t : State} (h : Calm s' t) (hpending : s'.pending = s.pending)
    (hready : s'.ready = s.ready) (hstate : s'.readState = s.readState) (htook : s'.took = s.took) :
    Calm s t := by
  refine ⟨?_, h.readState.trans hstate, h.took.trans htook⟩
  have hreads := h.reads
  unfold State.reads reading taking at hreads ⊢
  rw [hpending, hready] at hreads
  exact hreads

theorem length_filterMap_append_nil {α β : Type} {f : α → Option β} {xs ys : List α}
    (hnone : ∀ y ∈ ys, f y = none) : (xs ++ ys).filterMap f = xs.filterMap f := by
  rw [List.filterMap_append, List.filterMap_eq_nil_iff.mpr hnone, List.append_nil]

/-- Handlers that have read nothing become ready. -/
theorem calm_ready (s : State) (hs : List Handler)
    (hnone : ∀ h ∈ hs, h.reading = none ∧ h.taking = none) :
    Calm s { s with ready := s.ready ++ hs } := by
  refine ⟨?_, rfl, rfl⟩
  unfold State.reads reading taking
  dsimp only
  rw [length_filterMap_append_nil fun h hh => (hnone h hh).1,
    length_filterMap_append_nil fun h hh => (hnone h hh).2]

theorem calm_post (s : State) {h : Handler} (hreading : h.reading = none)
    (htaking : h.taking = none) : Calm s (s.post h) := by
  apply calm_ready
  intro g hg
  rw [List.mem_singleton.mp hg]
  exact ⟨hreading, htaking⟩

theorem failed_reads_nothing (e : ErrorCode) (op : Operation) :
    (op.failed e).reading = none ∧ (op.failed e).taking = none := by
  cases op <;> exact ⟨rfl, rfl⟩

/-- To drop pending operations. -/
theorem calm_pending (s : State) {ops : List Operation} (hops : ops.Sublist s.pending) :
    Calm s { s with pending := ops } := by
  refine ⟨?_, rfl, rfl⟩
  have hlength := (hops.filterMap Operation.reading).length_le
  unfold State.reads reading taking
  dsimp only
  simp only [List.length_append]
  omega

theorem calm_close (s : State) : Calm s s.close := by
  have hready := calm_ready s (s.pending.map (Operation.failed operationAborted)) (by
    intro h hh
    obtain ⟨op, -, rfl⟩ := List.mem_map.mp hh
    exact failed_reads_nothing _ op)
  have hpending := hready.trans (calm_pending _ (List.nil_sublist _))
  exact ⟨hpending.reads, hpending.readState, hpending.took⟩

theorem calm_start (s : State) {op : Operation} (hop : op.reading = none) :
    Calm s (s.start op) := by
  unfold start
  split_ifs
  · refine ⟨?_, rfl, rfl⟩
    unfold State.reads reading taking
    dsimp only
    rw [List.filterMap_append, List.filterMap_cons_none hop, List.filterMap_nil, List.append_nil]
  · exact calm_post s (failed_reads_nothing _ op).1 (failed_reads_nothing _ op).2

theorem calm_startConnect (s : State) : Calm s s.startConnect := by
  have hready := calm_ready s
    ((s.pending.filter (· ≠ .resolve)).map (Operation.failed operationAborted)) (by
      intro h hh
      obtain ⟨op, -, rfl⟩ := List.mem_map.mp hh
      exact failed_reads_nothing _ op)
  refine ⟨?_, rfl, rfl⟩
  apply le_trans _ hready.reads
  have hlength := ((List.filter_sublist (p := (· = .resolve)) (l := s.pending)).filterMap
    Operation.reading).length_le
  unfold State.reads reading taking startConnect
  dsimp only
  rw [length_filterMap_append_nil (by simp [Operation.reading])]
  simp only [List.length_append]
  omega

theorem calm_sendRequest (s : State) (r : Request) : Calm s (s.sendRequest r) := by
  obtain ⟨hreads, hstate, htook⟩ := (calm_start s rfl : Calm s (s.start (.write r)))
  exact ⟨hreads, hstate, htook⟩

variable (config : ConnectionConfiguration)

theorem calm_asyncConnect (s : State) : Calm s (s.asyncConnect config) := by
  unfold asyncConnect
  split_ifs
  · exact calm_post s rfl rfl
  · exact calm_post s rfl rfl
  · refine ⟨?_, rfl, rfl⟩
    unfold State.reads reading taking
    dsimp only
    rw [length_filterMap_append_nil (by simp [Operation.reading])]

theorem calm_nextRequest (s : State) : Calm s (s.nextRequest config) := by
  unfold nextRequest
  split
  · exact .refl s
  next r rest hqueue =>
    split_ifs
    · exact .refl s
    · exact calm_asyncConnect config s
    · obtain ⟨hreads, hstate, htook⟩ := calm_sendRequest s r
      exact ⟨hreads, hstate, htook⟩
    · exact .refl s

theorem calm_enqueueRequest (s : State) (r : Request) : Calm s (s.enqueueRequest config r) := by
  unfold enqueueRequest
  split_ifs
  · exact calm_post s rfl rfl
  · exact calm_post s rfl rfl
  · exact calm_sendRequest s r
  · exact (calm_nextRequest config _).congr rfl rfl rfl rfl
  · exact ⟨le_refl _, rfl, rfl⟩

/-- A response is read only where none is. -/
def Reads (s t : State) : Prop :=
  Calm s t ∨ s.readState = .idle ∧ t.readState = .busy ∧ t.reads ≤ s.reads + 1 ∧ t.took = s.took

theorem Reads.congr {s s' t : State} (h : Reads s' t) (hpending : s'.pending = s.pending)
    (hready : s'.ready = s.ready) (hstate : s'.readState = s.readState) (htook : s'.took = s.took) :
    Reads s t := by
  rcases h with hcalm | ⟨hidle, hbusy, hreads, hsame⟩
  · exact .inl (hcalm.congr hpending hready hstate htook)
  · refine .inr ⟨hstate.symm.trans hidle, hbusy, ?_, hsame.trans htook⟩
    unfold State.reads reading taking at hreads ⊢
    rw [hpending, hready] at hreads
    exact hreads

theorem reads_start (s : State) (op : Operation) : (s.start op).reads ≤ s.reads + 1 := by
  cases hop : op.reading with
  | none => exact (calm_start s hop).reads.trans (Nat.le_succ _)
  | some r =>
    unfold start
    split_ifs
    · unfold State.reads reading taking
      dsimp only
      rw [List.filterMap_append, List.filterMap_cons_some hop]
      simp only [List.length_append, List.filterMap_nil, List.length_singleton]
      omega
    · have hpost := calm_post s (failed_reads_nothing badDescriptor op).1
        (failed_reads_nothing badDescriptor op).2
      exact hpost.reads.trans (Nat.le_succ _)

theorem reads_receiveResponse (s : State) (r : Request) :
    (s.receiveResponse r).reads ≤ s.reads + 1 := reads_start s (.readSize r)

theorem took_receiveResponse (s : State) (r : Request) : (s.receiveResponse r).took = s.took := by
  unfold receiveResponse start
  split_ifs <;> rfl

theorem reads_nextResponse (s : State) : Reads s s.nextResponse := by
  unfold nextResponse
  split
  · exact .inl (.refl s)
  next r rest hqueue =>
    split_ifs with hbusy
    · exact .inl (.refl s)
    · have hidle : s.readState = .idle := by
        cases hstate : s.readState with
        | idle => rfl
        | busy => exact absurd hstate hbusy
      exact .inr ⟨hidle, rfl, reads_receiveResponse s r, took_receiveResponse s r⟩

theorem calm_flushReads (s : State) (r : Request) (e : ErrorCode) :
    Calm s
      { s with
        readQueue := []
        ready := s.ready ++ .request r (some e) none ::
          s.readQueue.map fun q => .asyncResponseSizeRead q (.error e) } := by
  have hready := calm_ready s (.request r (some e) none ::
    s.readQueue.map fun q => .asyncResponseSizeRead q (.error e)) (by
      intro h hh
      rcases List.mem_cons.mp hh with rfl | hh
      · exact ⟨rfl, rfl⟩
      · obtain ⟨q, -, rfl⟩ := List.mem_map.mp hh
        exact ⟨rfl, rfl⟩)
  exact ⟨hready.reads, hready.readState, hready.took⟩

theorem reads_enqueueResponse (s : State) (r : Request) :
    Reads s (s.enqueueResponse config r) := by
  unfold enqueueResponse
  split_ifs with hconnected hidle hempty
  · exact .inl ((calm_flushReads s r _).trans (calm_nextRequest config _))
  · exact .inr ⟨hidle, rfl, reads_receiveResponse s r, took_receiveResponse s r⟩
  · exact (reads_nextResponse _).congr rfl rfl rfl rfl
  · exact .inl ⟨le_refl _, rfl, rfl⟩

theorem calm_post_close (s : State) {h : Handler} (hreading : h.reading = none)
    (htaking : h.taking = none) : Calm s (s.post h).close :=
  (calm_post s hreading htaking).trans (calm_close _)

theorem calm_handleAsyncResolve (s : State) (error : Option ErrorCode) :
    Calm s (s.handleAsyncResolve error) := by
  cases error with
  | some e => exact calm_post_close s rfl rfl
  | none => exact calm_startConnect s

theorem calm_handleAsyncConnect (s : State) (error : Option ErrorCode) :
    Calm s (s.handleAsyncConnect error) := by
  cases error with
  | some e => exact (calm_close s).trans (calm_post _ rfl rfl)
  | none =>
    have hpost := calm_post { s with connectionState := .connected }
      (h := .asyncAutoConnect none) rfl rfl
    exact hpost.congr rfl rfl rfl rfl

theorem calm_handleAsyncAutoConnect (s : State) (error : Option ErrorCode) :
    Calm s (s.handleAsyncAutoConnect error) := by
  unfold handleAsyncAutoConnect
  cases error with
  | some e =>
    have hready := calm_ready s (s.writeQueue.map fun r => .asyncRequestWrite r (some e)) (by
      intro h hh
      obtain ⟨q, -, rfl⟩ := List.mem_map.mp hh
      exact ⟨rfl, rfl⟩)
    exact ⟨hready.reads, hready.readState, hready.took⟩
  | none =>
    dsimp only
    split
    · exact .refl s
    next r rest hqueue =>
      obtain ⟨hreads, hstate, htook⟩ := calm_sendRequest s r
      exact ⟨hreads, hstate, htook⟩

theorem reads_handleAsyncRequestWrite (s : State) (r : Request) (error : Option ErrorCode) :
    Reads s (s.handleAsyncRequestWrite config r error) := by
  cases error with
  | some e =>
    have hclose := calm_post_close { s with writeState := .idle }
      (h := .request r (some e) none) rfl rfl
    exact .inl (hclose.congr rfl rfl rfl rfl)
  | none =>
    unfold handleAsyncRequestWrite
    dsimp only
    split_ifs
    · exact (reads_enqueueResponse config _ r).congr rfl rfl rfl rfl
    · have hpost := calm_post { s with writeState := .idle } (h := .request r none none) rfl rfl
      exact .inl ((hpost.trans (calm_nextRequest config _)).congr rfl rfl rfl rfl)

/-- What a handler does to the reads. -/
theorem reads_handle {s t : State} {h : Handler} (ht : s.handle config h = some t) :
    Reads s t ∨
    (h.reading ≠ none ∧ t.reads ≤ s.reads + 1 ∧ t.readState = s.readState ∧ t.took = s.took) ∨
    (h.taking ≠ none ∧ t.reads ≤ s.reads ∧ t.readState = .idle ∧ t.took = s.took) := by
  cases h with
  | enqueueRequest r =>
    obtain rfl := Option.some.inj ht
    exact .inl (.inl (calm_enqueueRequest config s r))
  | asyncResolve error =>
    obtain rfl := Option.some.inj ht
    exact .inl (.inl (calm_handleAsyncResolve s error))
  | asyncConnect error =>
    obtain rfl := Option.some.inj ht
    exact .inl (.inl (calm_handleAsyncConnect s error))
  | asyncAutoConnect error =>
    obtain rfl := Option.some.inj ht
    exact .inl (.inl (calm_handleAsyncAutoConnect s error))
  | asyncRequestWrite r error =>
    obtain rfl := Option.some.inj ht
    exact .inl (reads_handleAsyncRequestWrite config s r error)
  | asyncResponseSizeRead r size =>
    cases size with
    | error e =>
      obtain rfl := Option.some.inj ht
      exact .inl (.inl (calm_post_close s rfl rfl))
    | ok n =>
      simp only [handle, handleAsyncResponseSizeRead] at ht
      split_ifs at ht
      · obtain rfl := Option.some.inj ht
        exact .inl (.inl (calm_post_close s rfl rfl))
      · obtain rfl := Option.some.inj ht
        refine .inr (.inl ⟨by simp [Handler.reading], reads_start s _, ?_, ?_⟩)
        · unfold start
          split_ifs <;> rfl
        · unfold start
          split_ifs <;> rfl
  | asyncResponseRead r response =>
    obtain rfl := Option.some.inj ht
    cases response with
    | error e => exact .inl (.inl (calm_post_close s rfl rfl))
    | ok response =>
      have hpost := calm_post { s with readState := .idle } (h := .request r response.error
        (if response.error = none then some response else none)) rfl rfl
      have hnext := hpost.trans (calm_nextRequest config _)
      exact .inr (.inr ⟨by simp [Handler.taking], hnext.reads, hnext.readState, hnext.took⟩)
  | request r error response =>
    obtain rfl := Option.some.inj ht
    exact .inl (.inl ⟨le_refl _, rfl, rfl⟩)

end State

variable {config : ConnectionConfiguration}

/-- Between two reads, the read of a response holds the socket. -/
def OneRead (s : State) : Prop := s.reads ≤ s.readState.load

/-- The reads that are left where a handler is taken out. -/
theorem reads_run {s : State} {hd : Handler} {rest : List Handler} (hready : s.ready = hd :: rest) :
    s.reads = State.reads { s with ready := rest } + hd.reading.toList.length +
      hd.taking.toList.length := by
  have hreading : (hd :: rest).filterMap Handler.reading =
      hd.reading.toList ++ rest.filterMap Handler.reading := by
    cases hr : hd.reading <;> simp [hr]
  have htaking : (hd :: rest).filterMap Handler.taking =
      hd.taking.toList ++ rest.filterMap Handler.taking := by
    cases hr : hd.taking <;> simp [hr]
  unfold State.reads State.reading State.taking
  dsimp only
  rw [hready, hreading, htaking]
  simp only [List.length_append]
  omega

/-- An operation that ends leaves its read to the handler, or has failed. -/
theorem reads_complete {s : State} {op : Operation} {o : Outcome} {hd : Handler}
    {before after : List Operation} (hhd : op.handler s.took.length o = some hd)
    (hpending : s.pending = before ++ op :: after) (up : Bool) (took : List Request) :
    State.reads
      { s with
        up := up, pending := before ++ after, ready := s.ready ++ [hd], took := took } ≤
      s.reads ∧
    ((∃ e, o = .error e) → State.reads
      { s with
        up := up, pending := before ++ after, ready := s.ready ++ [hd], took := took } +
      op.reading.toList.length ≤ s.reads) := by
  have hcount : (hd.reading.toList.length + hd.taking.toList.length ≤ op.reading.toList.length) ∧
      ((∃ e, o = .error e) → hd.reading = none ∧ hd.taking = none) := by
    cases op <;> cases o <;>
      simp only [Operation.handler, Option.some.injEq, reduceCtorEq] at hhd <;> subst hhd <;>
      simp [Handler.reading, Handler.taking, Operation.reading]
  have hreading : [hd].filterMap Handler.reading = hd.reading.toList := by
    cases hr : hd.reading <;> simp [hr]
  have htaking : [hd].filterMap Handler.taking = hd.taking.toList := by
    cases hr : hd.taking <;> simp [hr]
  have hop : [op].filterMap Operation.reading = op.reading.toList := by
    cases hr : op.reading <;> simp [hr]
  have hsplit : before ++ op :: after = before ++ ([op] ++ after) := rfl
  unfold State.reads State.reading State.taking
  dsimp only
  rw [hpending, hsplit]
  simp only [List.filterMap_append, hreading, htaking, hop, List.length_append]
  refine ⟨by omega, fun herror => ?_⟩
  obtain ⟨hno, hno'⟩ := hcount.2 herror
  rw [hno, hno']
  simp only [Option.toList_none, List.length_nil]
  omega

theorem oneRead_step (s : State) (l : Label) (t : State) (hs : OneRead s)
    (h : step config s l = some t) : OneRead t := by
  unfold OneRead at hs ⊢
  rcases step_cases h with ⟨r, -, rfl⟩ | ⟨op, o, hd, before, after, -, hhd, hpending, rfl⟩ |
    ⟨-, rfl⟩ | ⟨hd, rest, -, hready, ht⟩
  · exact (State.calm_post s (h := .enqueueRequest r) rfl rfl).reads.trans hs
  · exact (reads_complete hhd hpending _ _).1.trans hs
  · exact (State.calm_close s).reads.trans hs
  · have hrun := reads_run hready
    rcases State.reads_handle config ht with (hcalm | ⟨hidle, hbusy, hreads, -⟩) |
      ⟨hreading, hreads, hstate, -⟩ | ⟨htaking, hreads, hidle, -⟩
    · have hle := hcalm.reads
      rw [hcalm.readState]
      show t.reads ≤ s.readState.load
      omega
    · have hzero : s.readState.load = 0 := congrArg TxState.load hidle
      rw [hbusy]
      show t.reads ≤ 1
      omega
    · have hone : 1 ≤ hd.reading.toList.length := by
        cases hr : hd.reading with
        | none => exact absurd hr hreading
        | some r => simp
      rw [hstate]
      show t.reads ≤ s.readState.load
      omega
    · have hone : 1 ≤ hd.taking.toList.length := by
        cases hr : hd.taking with
        | none => exact absurd hr htaking
        | some r => simp
      have hload : s.readState.load ≤ 1 := by
        cases s.readState <;> decide
      rw [hidle]
      show t.reads ≤ 0
      omega

theorem oneRead_of_exec {ls : List Label} {s : State}
    (h : Transition.exec (step config) init ls = some s) : OneRead s :=
  Transition.exec_invariant oneRead_step (show OneRead init from le_refl 0) h

/-- The connection believes that it reads, and nothing is being read. -/
structure Stalled (s : State) : Prop where
  busy : s.readState = .busy
  reads : s.reads = 0

theorem Stalled.calm {s t : State} (hs : Stalled s) (h : State.Calm s t) :
    Stalled t ∧ t.took = s.took := by
  have hreads := h.reads
  rw [hs.reads] at hreads
  exact ⟨⟨h.readState.trans hs.busy, Nat.le_zero.mp hreads⟩, h.took⟩

/-- Nothing is read any more: only the read of a response ends the state. -/
theorem stalled_step {s t : State} {l : Label} (hs : Stalled s) (h : step config s l = some t) :
    Stalled t ∧ t.took = s.took := by
  rcases step_cases h with ⟨r, -, rfl⟩ | ⟨op, o, hd, before, after, -, hhd, hpending, rfl⟩ |
    ⟨-, rfl⟩ | ⟨hd, rest, -, hready, ht⟩
  · have hpost := State.calm_post s (h := .enqueueRequest r) rfl rfl
    exact hs.calm ⟨hpost.reads, rfl, rfl⟩
  · have hnone : op.reading = none := by
      cases hr : op.reading with
      | none => rfl
      | some r =>
        have hreads := hs.reads
        unfold State.reads State.reading at hreads
        rw [hpending, List.filterMap_append, List.filterMap_cons_some hr] at hreads
        simp only [List.length_append, List.length_cons] at hreads
        omega
    have htaken : op.taken o = [] := by
      cases op <;> first | rfl | cases hnone
    refine hs.calm ⟨(reads_complete hhd hpending _ _).1, rfl, ?_⟩
    show s.took ++ op.taken o = s.took
    rw [htaken, List.append_nil]
  · exact hs.calm (State.calm_close s)
  · have hrun := reads_run hready
    rw [hs.reads] at hrun
    rcases State.reads_handle config ht with (hcalm | ⟨hidle, -⟩) | ⟨hreading, -⟩ | ⟨htaking, -⟩
    · have hrest : Stalled { s with ready := rest } := ⟨hs.busy, by omega⟩
      exact hrest.calm hcalm
    · exact absurd (hs.busy.symm.trans hidle) (by decide)
    · cases hr : hd.reading with
      | none => exact absurd hr hreading
      | some r =>
        rw [hr] at hrun
        simp only [Option.toList_some, List.length_singleton] at hrun
        omega
    · cases hr : hd.taking with
      | none => exact absurd hr htaking
      | some r =>
        rw [hr] at hrun
        simp only [Option.toList_some, List.length_singleton] at hrun
        omega

/-- The steps that take a pending read away. -/
def Breaks (s : State) (op : Operation) (l : Label) : Prop :=
  (∃ e, l = .complete op (.error e)) ∨ l = .deadline ∨
    l = .run ∧ ∃ r e rest, s.ready = .asyncRequestWrite r (some e) :: rest

/-- To close the connection takes the pending reads away. -/
theorem reads_close {s : State} {op : Operation} (hop : op ∈ s.pending)
    (hread : op.reading ≠ none) : s.close.reads + 1 ≤ s.reads := by
  have hlength : 1 ≤ (s.pending.filterMap Operation.reading).length := by
    obtain ⟨r, hr⟩ := Option.ne_none_iff_exists'.mp hread
    exact List.length_pos_of_mem (List.mem_filterMap.mpr ⟨op, hop, hr⟩)
  have hfailed : ∀ h ∈ s.pending.map (Operation.failed operationAborted),
      h.reading = none ∧ h.taking = none := by
    intro h hh
    obtain ⟨op, -, rfl⟩ := List.mem_map.mp hh
    exact State.failed_reads_nothing _ op
  unfold State.reads State.reading State.taking State.close
  dsimp only
  rw [State.length_filterMap_append_nil fun h hh => (hfailed h hh).1,
    State.length_filterMap_append_nil fun h hh => (hfailed h hh).2]
  simp only [List.length_append, List.filterMap_nil, List.length_nil]
  omega

theorem stalled_of_breaks {s t : State} {op : Operation} {l : Label} (hs : OneRead s)
    (hop : op ∈ s.pending) (hread : op.reading ≠ none) (hl : Breaks s op l)
    (h : step config s l = some t) : Stalled t ∧ t.took = s.took := by
  have hload : s.readState.load ≤ 1 := by
    cases s.readState <;> decide
  have hclosed := reads_close hop hread
  have hbusy : s.readState = .busy := by
    cases hstate : s.readState with
    | busy => rfl
    | idle =>
      have hzero : s.readState.load = 0 := congrArg TxState.load hstate
      unfold OneRead at hs
      omega
  unfold OneRead at hs
  rcases hl with ⟨e, rfl⟩ | rfl | ⟨rfl, r, e, rest, hready⟩
  · rcases step_cases h with ⟨r, hl, -⟩ | ⟨op', o, hd, before, after, hl, hhd, hpending, rfl⟩ |
      ⟨hl, -⟩ | ⟨hd, rest, hl, -⟩
    · cases hl
    · obtain ⟨rfl, rfl⟩ := Label.complete.inj hl
      obtain ⟨r, hr⟩ := Option.ne_none_iff_exists'.mp hread
      have hzero : ∀ up took, State.reads
          { s with
            up := up, pending := before ++ after, ready := s.ready ++ [hd], took := took } =
          0 := by
        intro up took
        have hfailed := (reads_complete hhd hpending up took).2 ⟨e, rfl⟩
        rw [hr, Option.toList_some, List.length_singleton] at hfailed
        omega
      have htaken : op.taken (.error e) = [] := by
        cases op <;> rfl
      refine ⟨⟨hbusy, hzero _ _⟩, ?_⟩
      show s.took ++ op.taken (.error e) = s.took
      rw [htaken, List.append_nil]
    · cases hl
    · cases hl
  · obtain rfl := Option.some.inj h
    exact ⟨⟨hbusy, by omega⟩, rfl⟩
  · rcases step_cases h with ⟨q, hl, -⟩ | ⟨op', o, hd, before, after, hl, -⟩ | ⟨hl, -⟩ |
      ⟨hd, rest', -, hready', ht⟩
    · cases hl
    · cases hl
    · cases hl
    · obtain ⟨rfl, rfl⟩ := List.cons.inj (hready'.symm.trans hready)
      obtain rfl := Option.some.inj ht
      have hposted := (State.calm_post { s with ready := rest', writeState := .idle }
        (h := .request r (some e) none) rfl rfl).reads
      have hclosed' := reads_close (s := State.post { s with ready := rest', writeState := .idle }
        (.request r (some e) none)) hop hread
      have hrun := reads_run hready
      refine ⟨⟨hbusy, ?_⟩, rfl⟩
      show (State.post { s with ready := rest', writeState := .idle }
        (.request r (some e) none)).close.reads = 0
      have hsame : State.reads { s with ready := rest', writeState := .idle } =
        State.reads { s with ready := rest' } := rfl
      omega

/-- A connection that loses a response while a read of it is pending, be it that the read
fails, that a timer expires or that a write fails, believes from then on that it reads, and
never takes a response from the socket again, whatever connections are made and requests are
written afterwards. -/
theorem lost_read_is_final (config : ConnectionConfiguration) (ls : List Label) (s : State)
    (h : Transition.exec (step config) init ls = some s) (op : Operation) (hop : op ∈ s.pending)
    (hread : op.reading ≠ none) (l : Label) (hl : Breaks s op l) (later : List Label) (u : State)
    (hu : Transition.exec (step config) s (l :: later) = some u) :
    u.readState = .busy ∧ u.took = s.took := by
  obtain ⟨t, ht, hlater⟩ := Transition.exec_cons.mp hu
  obtain ⟨hstalled, htook⟩ := stalled_of_breaks (oneRead_of_exec h) hop hread hl ht
  have hkept : ∀ a l b, Stalled a ∧ a.took = s.took → step config a l = some b →
      Stalled b ∧ b.took = s.took := by
    intro a l b ha hb
    obtain ⟨hstalled', htook'⟩ := stalled_step ha.1 hb
    exact ⟨hstalled', htook'.trans ha.2⟩
  obtain ⟨hend, htookEnd⟩ := Transition.exec_invariant hkept ⟨hstalled, htook⟩ hlater
  exact ⟨hend.busy, htookEnd⟩

/-- The connection of the first request is lost while its response is read. The second one
is written on a new connection. -/
theorem lost_read_is_final_reconnected :
    ∃ s u, Transition.exec (step localBroker) init firstWrite = some s ∧
      Transition.exec (step localBroker) s
        [.complete (.readSize ⟨1, true⟩) (.error (.system 104)), .run, .run,
          .asyncRequest ⟨3, true⟩, .run, .complete .resolve .success, .run,
          .complete .connect .success, .run, .run, .complete (.write ⟨2, true⟩) .success, .run] =
        some u ∧
      u.sent = [⟨1, true⟩, ⟨2, true⟩] ∧ u.readQueue = [⟨2, true⟩] ∧ u.readState = .busy ∧
      u.took = s.took := by
  obtain ⟨s, u, hs, hu, hsent, hqueue, hpending⟩ : ∃ s u,
      Transition.exec (step localBroker) init firstWrite = some s ∧
      Transition.exec (step localBroker) s
        [.complete (.readSize ⟨1, true⟩) (.error (.system 104)), .run, .run,
          .asyncRequest ⟨3, true⟩, .run, .complete .resolve .success, .run,
          .complete .connect .success, .run, .run, .complete (.write ⟨2, true⟩) .success, .run] =
        some u ∧
      u.sent = [⟨1, true⟩, ⟨2, true⟩] ∧ u.readQueue = [⟨2, true⟩] ∧
      s.pending = [.readSize ⟨1, true⟩] := ⟨_, _, rfl, rfl, rfl, rfl, rfl⟩
  refine ⟨s, u, hs, hu, hsent, hqueue, ?_⟩
  apply lost_read_is_final localBroker _ s hs (.readSize ⟨1, true⟩) _ _ _ (.inl ⟨_, rfl⟩) _ u hu
  · rw [hpending]
    exact List.mem_singleton_self _
  · simp [Operation.reading]

end Kafka
end HVBench
