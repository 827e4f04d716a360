import HVBench.Kafka.Requests
import HVBench.Library.ByteStream
import Mathlib.Logic.Function.Basic

/-! The bytes that a connection writes. A write hands its buffer to the socket in pieces, as it
takes them, and may fail between two of them. -/
namespace HVBench
namespace Kafka
open ByteStream

def Operation.writing : Operation → Option Request
  | .write r => some r
  | _ => none

/-- The handler of a write that failed. -/
def Handler.failedWrite : Handler → Bool
  | .asyncRequestWrite _ (some _) => true
  | _ => false

/-- The writes in progress. -/
def State.writes (s : State) : List Request := s.pending.filterMap Operation.writing

/-- A connection, with the number of bytes of each request's buffer that its write has
transferred, and the bytes that each connected socket took, the last one first. -/
structure Wire where
  connection : State
  transferred : Request → ℕ
  streams : List (List UInt8)

namespace Wire

def init : Wire where
  connection := Kafka.init
  transferred := fun _ => 0
  streams := []

inductive Label
  | connection (l : Kafka.Label)
  | transfer (r : Request) (n : ℕ)

section
variable (config : ConnectionConfiguration) (buffer : Request → List UInt8)

/-- A request is a new one when it is made, and a write ends without an error only when its
buffer was transferred. -/
def Allowed (w : Wire) : Kafka.Label → Prop
  | .asyncRequest r => r ∉ w.connection.requested
  | .complete (.write r) .success => w.transferred r = (buffer r).length
  | _ => True

instance (w : Wire) : (l : Kafka.Label) → Decidable (Allowed buffer w l)
  | .asyncRequest _ => inferInstanceAs (Decidable (_ ∉ _))
  | .complete (.write _) .success => inferInstanceAs (Decidable (_ = _))
  | .complete (.write _) (.error _) => .isTrue trivial
  | .complete (.write _) (.size _) => .isTrue trivial
  | .complete (.write _) (.response _) => .isTrue trivial
  | .complete .resolve _ => .isTrue trivial
  | .complete .connect _ => .isTrue trivial
  | .complete (.readSize _) _ => .isTrue trivial
  | .complete (.read _) _ => .isTrue trivial
  | .deadline => .isTrue trivial
  | .run => .isTrue trivial

def step (w : Wire) : Label → Option Wire
  | .connection l =>
    if Allowed buffer w l then
      (Kafka.step config w.connection l).map fun t =>
        { w with
          connection := t
          streams := if l = .complete .connect .success then [] :: w.streams else w.streams }
    else none
  | .transfer r n =>
    match w.streams with
    | [] => none
    | stream :: streams =>
      if .write r ∈ w.connection.pending ∧ w.transferred r + n ≤ (buffer r).length then
        some { w with
          transferred := Function.update w.transferred r (w.transferred r + n)
          streams := (stream ++ ((buffer r).drop (w.transferred r)).take n) :: streams }
      else none

/-- No write is started while another one is in progress or has failed and the handler that
closes the connection has not run. -/
def Alone (w : Wire) : Label → Prop
  | .connection l => ∀ t, Kafka.step config w.connection l = some t →
      t.sent = w.connection.sent ∨
        w.connection.writes = [] ∧ ∀ h ∈ w.connection.ready.tail, h.failedWrite = false
  | .transfer _ _ => True

variable {config}

theorem alone_of_step {w : Wire} {l : Kafka.Label} {t : State}
    (ht : Kafka.step config w.connection l = some t)
    (h : t.sent = w.connection.sent ∨
      w.connection.writes = [] ∧ ∀ h ∈ w.connection.ready.tail, h.failedWrite = false) :
    Alone config w (.connection l) := by
  intro t' ht'
  obtain rfl := Option.some.inj (ht.symm.trans ht')
  exact h

end
end Wire

namespace State

/-- From one state to another, these writes are started, on a socket that is connected. -/
structure Sends (s t : State) (rs : List Request) : Prop where
  sent : t.sent = s.sent ++ rs
  writes : t.writes = s.writes ++ if s.up then rs else []
  connects : t.pending.count .connect = s.pending.count .connect
  up : t.up = s.up
  ready : s.ready <+: t.ready

/-- From one state to another, the socket is closed. It may be about to be connected again. -/
structure Closes (s t : State) : Prop where
  sent : t.sent = s.sent
  writes : t.writes = []
  connects : t.pending.count .connect ≤ 1
  up : t.up = false
  ready : s.ready <+: t.ready

/-- A handler starts one write at most, and none where it closes the socket. -/
def Effect (s t : State) : Prop := Closes s t ∨ ∃ rs, rs.length ≤ 1 ∧ Sends s t rs

theorem Sends.effect {s t : State} (h : Sends s t []) : Effect s t :=
  .inr ⟨[], Nat.zero_le 1, h⟩

theorem Sends.congr {s s' t : State} {rs : List Request} (h : Sends s' t rs)
    (hsent : s'.sent = s.sent) (hpending : s'.pending = s.pending) (hup : s'.up = s.up)
    (hready : s.ready <+: s'.ready) : Sends s t rs := by
  refine ⟨hsent ▸ h.sent, ?_, hpending ▸ h.connects, hup ▸ h.up, hready.trans h.ready⟩
  have hwrites : s'.writes = s.writes := congrArg (List.filterMap Operation.writing) hpending
  rw [h.writes, hup, hwrites]

theorem sends_same {s t : State} (hsent : t.sent = s.sent) (hpending : t.pending = s.pending)
    (hup : t.up = s.up) (hready : s.ready <+: t.ready) : Sends s t [] := by
  refine ⟨by rw [hsent, List.append_nil], ?_, by rw [hpending], hup, hready⟩
  unfold writes
  rw [hpending, ite_self, List.append_nil]

theorem effect_same {s t : State} (hsent : t.sent = s.sent) (hpending : t.pending = s.pending)
    (hup : t.up = s.up) (hready : s.ready <+: t.ready) : Effect s t :=
  (sends_same hsent hpending hup hready).effect

theorem sends_post (s : State) (h : Handler) : Sends s (s.post h) [] :=
  sends_same rfl rfl rfl (List.prefix_append _ _)

theorem closes_close (s : State) : Closes s s.close :=
  ⟨rfl, rfl, Nat.zero_le 1, rfl, List.prefix_append _ _⟩

theorem closes_post_close (s : State) (h : Handler) : Closes s (s.post h).close :=
  ⟨rfl, rfl, Nat.zero_le 1, rfl, (List.prefix_append _ _).trans (List.prefix_append _ _)⟩

/-- To start an operation, be it a write or not. -/
theorem sends_start (s : State) {op : Operation} (hop : op ≠ .connect) :
    (s.start op).sent = s.sent ∧
      (s.start op).writes = s.writes ++ (if s.up then op.writing.toList else []) ∧
      (s.start op).pending.count .connect = s.pending.count .connect ∧
      (s.start op).up = s.up ∧ s.ready <+: (s.start op).ready := by
  unfold start
  split_ifs with hup
  · refine ⟨rfl, ?_, ?_, rfl, List.prefix_refl _⟩
    · unfold writes
      dsimp only
      rw [List.filterMap_append]
      cases h : op.writing <;> simp [h]
    · dsimp only
      rw [List.count_append, List.count_singleton, if_neg (by simpa using hop), Nat.add_zero]
  · exact ⟨rfl, (List.append_nil _).symm, rfl, rfl, List.prefix_append _ _⟩

theorem sends_sendRequest (s : State) (r : Request) : Sends s (s.sendRequest r) [r] := by
  obtain ⟨-, hwrites, hconnects, hup, hready⟩ :=
    sends_start s (by simp : Operation.write r ≠ .connect)
  exact ⟨rfl, hwrites, hconnects, hup, hready⟩

theorem sends_startRead (s : State) {op : Operation} (hop : op ≠ .connect)
    (hwriting : op.writing = none) : Sends s (s.start op) [] := by
  obtain ⟨hsent, hwrites, hconnects, hup, hready⟩ := sends_start s hop
  rw [hwriting] at hwrites
  exact ⟨by rw [hsent, List.append_nil], hwrites, hconnects, hup, hready⟩

theorem sends_receiveResponse (s : State) (r : Request) : Sends s (s.receiveResponse r) [] := by
  obtain ⟨hsent, hwrites, hconnects, hup, hready⟩ :=
    sends_startRead s (by simp : Operation.readSize r ≠ .connect) rfl
  exact ⟨hsent, hwrites, hconnects, hup, hready⟩

theorem sends_nextResponse (s : State) : Sends s s.nextResponse [] := by
  unfold nextResponse
  split
  · exact sends_same rfl rfl rfl (List.prefix_refl _)
  next r rest _ =>
    split_ifs
    · exact sends_same rfl rfl rfl (List.prefix_refl _)
    · obtain ⟨hsent, hwrites, hconnects, hup, hready⟩ := sends_receiveResponse s r
      exact ⟨hsent, hwrites, hconnects, hup, hready⟩

variable (config : ConnectionConfiguration)

theorem sends_asyncConnect (s : State) : Sends s (s.asyncConnect config) [] := by
  unfold asyncConnect
  split_ifs
  · exact sends_post s _
  · exact sends_post s _
  · refine ⟨(List.append_nil _).symm, ?_, ?_, rfl, List.prefix_refl _⟩
    · unfold writes
      dsimp only
      rw [List.filterMap_append, ite_self]
      rfl
    · dsimp only
      rw [List.count_append]
      rfl

theorem effect_sendFront (s : State) (r : Request) (rest : List Request) :
    Effect s { s.sendRequest r with writeQueue := rest } := by
  obtain ⟨hsent, hwrites, hconnects, hup, hready⟩ := sends_sendRequest s r
  exact .inr ⟨[r], Nat.le_refl 1, hsent, hwrites, hconnects, hup, hready⟩

theorem effect_nextRequest (s : State) : Effect s (s.nextRequest config) := by
  unfold nextRequest
  split
  · exact effect_same rfl rfl rfl (List.prefix_refl _)
  next r rest _ =>
    split_ifs
    · exact effect_same rfl rfl rfl (List.prefix_refl _)
    · exact (sends_asyncConnect config s).effect
    · exact effect_sendFront s r rest
    · exact effect_same rfl rfl rfl (List.prefix_refl _)

/-- The queues and the states of the connection are of no account to the socket. -/
theorem Effect.congr {s s' t : State} (h : Effect s' t) (hsent : s'.sent = s.sent)
    (hpending : s'.pending = s.pending) (hup : s'.up = s.up) (hready : s.ready <+: s'.ready) :
    Effect s t := by
  rcases h with hcloses | ⟨rs, hlength, hsends⟩
  · exact .inl ⟨hcloses.sent.trans hsent, hcloses.writes, hcloses.connects, hcloses.up,
      hready.trans hcloses.ready⟩
  · exact .inr ⟨rs, hlength, hsends.congr hsent hpending hup hready⟩

theorem effect_enqueueRequest (s : State) (r : Request) :
    Effect s (s.enqueueRequest config r) := by
  unfold enqueueRequest
  split_ifs
  · exact (sends_post s _).effect
  · exact (sends_post s _).effect
  · exact .inr ⟨[r], Nat.le_refl 1, sends_sendRequest s r⟩
  · exact (effect_nextRequest config _).congr rfl rfl rfl (List.prefix_refl _)
  · exact effect_same rfl rfl rfl (List.prefix_refl _)

theorem effect_enqueueResponse (s : State) (r : Request) :
    Effect s (s.enqueueResponse config r) := by
  unfold enqueueResponse
  split_ifs
  · exact (effect_nextRequest config _).congr rfl rfl rfl (List.prefix_append _ _)
  · exact (sends_receiveResponse s r).effect
  · exact (sends_nextResponse _).effect.congr rfl rfl rfl (List.prefix_refl _)
  · exact effect_same rfl rfl rfl (List.prefix_refl _)

theorem effect_handleAsyncResolve (s : State) (error : Option ErrorCode) :
    Effect s (s.handleAsyncResolve error) := by
  cases error with
  | some e => exact .inl (closes_post_close s _)
  | none =>
    refine .inl ⟨rfl, ?_, ?_, rfl, List.prefix_append _ _⟩
    · apply List.filterMap_eq_nil_iff.mpr
      intro op hop
      rcases List.mem_append.mp hop with hop | hop
      · have hresolve : op = .resolve := by simpa using (List.mem_filter.mp hop).2
        rw [hresolve]
        rfl
      · rw [List.mem_singleton.mp hop]
        rfl
    · have hnone : Operation.connect ∉ s.pending.filter (· = Operation.resolve) := by
        intro h
        simpa using (List.mem_filter.mp h).2
      unfold handleAsyncResolve startConnect
      dsimp only
      rw [List.count_append, List.count_eq_zero.mpr hnone]
      exact Nat.le_refl 1

theorem effect_handleAsyncConnect (s : State) (error : Option ErrorCode) :
    Effect s (s.handleAsyncConnect error) := by
  cases error with
  | some e =>
    exact .inl ⟨rfl, rfl, Nat.zero_le 1, rfl,
      (List.prefix_append _ _).trans (List.prefix_append _ _)⟩
  | none => exact effect_same rfl rfl rfl (List.prefix_append _ _)

theorem effect_handleAsyncAutoConnect (s : State) (error : Option ErrorCode) :
    Effect s (s.handleAsyncAutoConnect error) := by
  unfold handleAsyncAutoConnect
  cases error with
  | some e => exact effect_same rfl rfl rfl (List.prefix_append _ _)
  | none =>
    dsimp only
    split
    · exact effect_same rfl rfl rfl (List.prefix_refl _)
    next r rest _ => exact effect_sendFront s r rest

/-- The handler of a failed write closes the socket. -/
theorem closes_failedWrite (s : State) (r : Request) (e : ErrorCode) :
    Closes s (s.handleAsyncRequestWrite config r (some e)) :=
  ⟨rfl, rfl, Nat.zero_le 1, rfl, (List.prefix_append _ _).trans (List.prefix_append _ _)⟩

theorem effect_handleAsyncRequestWrite (s : State) (r : Request) (error : Option ErrorCode) :
    Effect s (s.handleAsyncRequestWrite config r error) := by
  cases error with
  | some e => exact .inl (closes_failedWrite config s r e)
  | none =>
    unfold handleAsyncRequestWrite
    dsimp only
    split_ifs
    · exact (effect_enqueueResponse config _ r).congr rfl rfl rfl (List.prefix_refl _)
    · exact (effect_nextRequest config _).congr rfl rfl rfl (List.prefix_append _ _)

theorem effect_handleAsyncResponseSizeRead {s t : State} {r : Request}
    {size : Except ErrorCode ℤ}
    (ht : s.handleAsyncResponseSizeRead config r size = some t) : Effect s t := by
  cases size with
  | error e =>
    obtain rfl := Option.some.inj ht
    exact .inl (closes_post_close s _)
  | ok n =>
    simp only [handleAsyncResponseSizeRead] at ht
    split_ifs at ht
    · obtain rfl := Option.some.inj ht
      exact .inl (closes_post_close s _)
    · obtain rfl := Option.some.inj ht
      exact (sends_startRead s (by simp) rfl).effect

theorem effect_handleAsyncResponseRead (s : State) (r : Request)
    (response : Except ErrorCode Response) :
    Effect s (s.handleAsyncResponseRead config r response) := by
  cases response with
  | error e => exact .inl (closes_post_close s _)
  | ok response =>
    exact (effect_nextRequest config _).congr rfl rfl rfl (List.prefix_append _ _)

theorem effect_handle {s t : State} {h : Handler} (ht : s.handle config h = some t) :
    Effect s t := by
  cases h with
  | enqueueRequest r =>
    obtain rfl := Option.some.inj ht
    exact effect_enqueueRequest config s r
  | asyncResolve error =>
    obtain rfl := Option.some.inj ht
    exact effect_handleAsyncResolve s error
  | asyncConnect error =>
    obtain rfl := Option.some.inj ht
    exact effect_handleAsyncConnect s error
  | asyncAutoConnect error =>
    obtain rfl := Option.some.inj ht
    exact effect_handleAsyncAutoConnect s error
  | asyncRequestWrite r error =>
    obtain rfl := Option.some.inj ht
    exact effect_handleAsyncRequestWrite config s r error
  | asyncResponseSizeRead r size => exact effect_handleAsyncResponseSizeRead config ht
  | asyncResponseRead r response =>
    obtain rfl := Option.some.inj ht
    exact effect_handleAsyncResponseRead config s r response
  | request r error response =>
    obtain rfl := Option.some.inj ht
    exact effect_same rfl rfl rfl (List.prefix_refl _)

end State

/-- A socket that is not connected has no write in progress, and only such a one is about to be
connected. -/
structure Socketed (s : State) : Prop where
  down : s.up = false → s.writes = []
  connects : s.pending.count .connect ≤ 1
  connecting : .connect ∈ s.pending → s.up = false

theorem socketed_of_effect {s t : State} (hs : Socketed s) (h : State.Effect s t) :
    Socketed t := by
  rcases h with h | ⟨rs, -, h⟩
  · exact ⟨fun _ => h.writes, h.connects, fun _ => h.up⟩
  · refine ⟨?_, h.connects ▸ hs.connects, ?_⟩
    · intro hup
      rw [h.up] at hup
      rw [h.writes, hs.down hup, hup]
      rfl
    · intro hconnect
      rw [h.up]
      apply hs.connecting
      have hpos := List.count_pos_iff.mpr hconnect
      rw [h.connects] at hpos
      exact List.count_pos_iff.mp hpos

theorem State.writes_split {s : State} {op : Operation} {before after : List Operation}
    (h : s.pending = before ++ op :: after) :
    s.writes = before.filterMap Operation.writing ++
      (op.writing.toList ++ after.filterMap Operation.writing) := by
  unfold State.writes
  rw [h, List.filterMap_append]
  cases hwriting : op.writing with
  | none =>
    rw [List.filterMap_cons_none hwriting]
    rfl
  | some r =>
    rw [List.filterMap_cons_some hwriting]
    rfl

theorem State.writes_left {s : State} {before after : List Operation}
    (h : s.pending = before ++ after) :
    s.writes = before.filterMap Operation.writing ++ after.filterMap Operation.writing := by
  unfold State.writes
  rw [h, List.filterMap_append]

/-- The only write in progress ends. -/
theorem State.writes_ended {r r' : Request} {before after : List Request}
    (h : [r'] = before ++ ((Operation.write r).writing.toList ++ after)) :
    r' = r ∧ before ++ after = [] := by
  cases before with
  | nil =>
    obtain ⟨rfl, hafter⟩ := List.cons.inj h
    exact ⟨rfl, hafter.symm⟩
  | cons x before =>
    have hlength := congrArg List.length h
    simp [Operation.writing] at hlength

theorem Socketed.complete {s t : State} (hs : Socketed s) {op : Operation}
    {before after : List Operation} (hpending : s.pending = before ++ op :: after)
    (hpending' : t.pending = before ++ after) (hup : t.up = s.up) : Socketed t := by
  refine ⟨?_, ?_, ?_⟩
  · intro hdown
    have hnone := hs.down (hup ▸ hdown)
    rw [State.writes_split hpending, List.append_eq_nil_iff, List.append_eq_nil_iff] at hnone
    unfold State.writes
    rw [hpending', List.filterMap_append, hnone.1, hnone.2.2]
    rfl
  · have hone := hs.connects
    rw [hpending, List.count_append, List.count_cons] at hone
    rw [hpending', List.count_append]
    omega
  · intro hconnect
    rw [hup]
    apply hs.connecting
    rw [hpending]
    rw [hpending'] at hconnect
    rcases List.mem_append.mp hconnect with hconnect | hconnect
    · exact List.mem_append_left _ hconnect
    · exact List.mem_append_right _ (List.mem_cons_of_mem _ hconnect)

section
variable {config : ConnectionConfiguration} {buffer : Request → List UInt8}

/-- What the writes in progress have left behind on the socket that is connected: of the last
request started on it the part that was transferred, or else whole requests, but for a write
that failed. -/
inductive Current (buffer : Request → List UInt8) (w : Wire) (stream : List UInt8) :
    List Request → Prop
  | writing {rs : List Request} {r : Request} (hwrites : w.connection.writes = [r])
      (hstream : stream = rs.flatMap buffer ++ (buffer r).take (w.transferred r)) :
      Current buffer w stream (rs ++ [r])
  | idle {rs : List Request} (hwrites : w.connection.writes = [])
      (hstream : stream = rs.flatMap buffer ∨ ∃ h ∈ w.connection.ready, h.failedWrite = true) :
      Current buffer w stream rs

/-- The requests whose writes were started on each connected socket, the last one first. -/
structure Traced (buffer : Request → List UInt8) (w : Wire) (started : List (List Request)) :
    Prop where
  socketed : Socketed w.connection
  inOrder : InOrder w.connection
  nodup : w.connection.requested.Nodup
  unsent : ∀ r, r ∉ w.connection.sent → w.transferred r = 0
  sent : started.reverse.flatten.Sublist w.connection.sent
  streams : List.Forall₂ (fun stream rs => stream <+: rs.flatMap buffer) w.streams started
  current : w.connection.up = true → ∃ stream streams rs before, w.streams = stream :: streams ∧
    started = rs :: before ∧ Current buffer w stream rs

/-- What is left behind stays while neither a write starts or ends nor a byte is transferred, and
no handler of a failed write is run. -/
theorem Current.keep {w w' : Wire} {stream : List UInt8} {rs : List Request}
    (h : Current buffer w stream rs) (hwrites : w'.connection.writes = w.connection.writes)
    (htransferred : w'.transferred = w.transferred)
    (hready : ∀ h ∈ w.connection.ready, h.failedWrite = true → h ∈ w'.connection.ready) :
    Current buffer w' stream rs := by
  cases h with
  | writing hone hstream =>
    refine .writing (hwrites.trans hone) ?_
    rw [htransferred]
    exact hstream
  | idle hnone hstream =>
    refine .idle (hwrites.trans hnone) ?_
    rcases hstream with hstream | ⟨h, hmem, hfailed⟩
    · exact .inl hstream
    · exact .inr ⟨h, hready h hmem hfailed, hfailed⟩

/-- Where no write is in progress and none has failed, the socket took whole requests. -/
theorem Current.whole {w : Wire} {stream : List UInt8} {rs : List Request}
    (h : Current buffer w stream rs) (hnone : w.connection.writes = [])
    (hwell : ∀ h ∈ w.connection.ready, h.failedWrite = false) : stream = rs.flatMap buffer := by
  cases h with
  | writing hone _ =>
    rw [hnone] at hone
    cases hone
  | idle _ hstream =>
    rcases hstream with hstream | ⟨h, hmem, hfailed⟩
    · exact hstream
    · rw [hwell h hmem] at hfailed
      cases hfailed

/-- A write that ends leaves its whole buffer behind, or has failed. -/
theorem Current.ended {w : Wire} {stream : List UInt8} {rs : List Request}
    (h : Current buffer w stream rs) {r : Request} {o : Outcome} {hd : Handler} {place : ℕ}
    (hhd : (Operation.write r).handler place o = some hd) {before after : List Operation}
    (hpending : w.connection.pending = before ++ .write r :: after)
    (hallowed : Wire.Allowed buffer w (.complete (.write r) o)) {t : State}
    (hpending' : t.pending = before ++ after) (hready : t.ready = w.connection.ready ++ [hd]) :
    Current buffer { w with connection := t } stream rs := by
  have hwrites := State.writes_split hpending
  have hwrites' := State.writes_left hpending'
  cases h with
  | idle hnone _ =>
    rw [hnone] at hwrites
    simp [Operation.writing] at hwrites
  | @writing rs r' hone hstream =>
    rw [hone] at hwrites
    obtain ⟨rfl, hnone⟩ := State.writes_ended hwrites
    rw [hnone] at hwrites'
    refine .idle hwrites' ?_
    cases o with
    | error e =>
      obtain rfl := Option.some.inj hhd
      refine .inr ⟨.asyncRequestWrite r' (some e), ?_, rfl⟩
      show _ ∈ t.ready
      rw [hready]
      exact List.mem_append_right _ (List.mem_singleton_self _)
    | success =>
      have hall : w.transferred r' = (buffer r').length := hallowed
      rw [hall, List.take_length] at hstream
      refine .inl (hstream.trans ?_)
      rw [List.flatMap_append, List.flatMap_singleton]
    | size n => cases hhd
    | response error => cases hhd

theorem sent_sublist {s : State} (h : InOrder s) : s.sent.Sublist s.requested :=
  (List.sublist_append_left _ _).trans ((List.sublist_append_left _ _).trans h)

theorem up_of_failedWrite {s t : State} {h : Handler} (hfailed : h.failedWrite = true)
    (ht : s.handle config h = some t) : t.up = false := by
  cases h with
  | asyncRequestWrite r error =>
    cases error with
    | none => cases hfailed
    | some e =>
      obtain rfl := Option.some.inj ht
      rfl
  | enqueueRequest | asyncResolve | asyncConnect | asyncAutoConnect | asyncResponseSizeRead
  | asyncResponseRead | request => cases hfailed

namespace Traced
variable {w : Wire} {started : List (List Request)} {t : State}

/-- A step that starts and ends no write, or closes the socket. -/
theorem quiet (hw : Traced buffer w started) (hsocketed : Socketed t) (hinOrder : InOrder t)
    (hnodup : t.requested.Nodup) (hsent : t.sent = w.connection.sent)
    (hcurrent : t.up = true → w.connection.up = true ∧ t.writes = w.connection.writes ∧
      ∀ h ∈ w.connection.ready, h.failedWrite = true → h ∈ t.ready) :
    Traced buffer { w with connection := t } started := by
  refine ⟨hsocketed, hinOrder, hnodup, ?_, ?_, hw.streams, ?_⟩
  · exact fun r hr => hw.unsent r (hsent ▸ hr)
  · exact hsent ▸ hw.sent
  · intro hup
    obtain ⟨hup', hwrites, hready⟩ := hcurrent hup
    obtain ⟨stream, streams, rs, before, hstreams, hstarted, hkept⟩ := hw.current hup'
    exact ⟨stream, streams, rs, before, hstreams, hstarted, hkept.keep hwrites rfl hready⟩

/-- A write that is started when none is in progress and none has failed. -/
theorem send (hw : Traced buffer w started) (hsocketed : Socketed t) (hinOrder : InOrder t)
    (hnodup : t.requested.Nodup) {r : Request} (hsent : t.sent = w.connection.sent ++ [r])
    (hup : t.up = w.connection.up) (hnone : w.connection.writes = [])
    (hwrites : t.writes = if w.connection.up then [r] else [])
    (hwell : t.up = true → ∀ h ∈ w.connection.ready, h.failedWrite = false) :
    ∃ started', Traced buffer { w with connection := t } started' := by
  have hunsent : ∀ r', r' ∉ t.sent → w.transferred r' = 0 := by
    intro r' hr'
    rw [hsent] at hr'
    exact hw.unsent r' fun h => hr' (List.mem_append_left _ h)
  cases hconnected : w.connection.up with
  | false =>
    refine ⟨started, hsocketed, hinOrder, hnodup, hunsent, ?_, hw.streams, ?_⟩
    · show List.Sublist _ t.sent
      rw [hsent]
      exact hw.sent.trans (List.sublist_append_left _ _)
    · intro hup'
      rw [hup, hconnected] at hup'
      cases hup'
  | true =>
    obtain ⟨stream, streams, rs, before, hstreams, rfl, hcurrent⟩ := hw.current hconnected
    -- Each request is written once, so that nothing of this one was transferred.
    have hnew : r ∉ w.connection.sent := by
      have hdistinct := hnodup.sublist (sent_sublist hinOrder)
      rw [hsent] at hdistinct
      exact fun hr => (List.nodup_append.mp hdistinct).2.2 r hr r List.mem_cons_self rfl
    have hwhole := hcurrent.whole hnone (hwell (hup.trans hconnected))
    rw [hconnected] at hwrites
    have hforall := hw.streams
    rw [hstreams] at hforall
    refine ⟨(rs ++ [r]) :: before, hsocketed, hinOrder, hnodup, hunsent, ?_, ?_, ?_⟩
    · have hold := hw.sent
      show List.Sublist _ t.sent
      rw [hsent]
      simp only [List.reverse_cons, List.flatten_append, List.flatten_cons, List.flatten_nil,
        List.append_nil] at hold ⊢
      rw [← List.append_assoc]
      exact hold.append_right [r]
    · show List.Forall₂ _ w.streams _
      rw [hstreams]
      refine .cons ?_ (List.forall₂_cons.mp hforall).2
      rw [List.flatMap_append, hwhole]
      exact List.prefix_append _ _
    · refine fun _ => ⟨stream, streams, rs ++ [r], before, hstreams, rfl, .writing hwrites ?_⟩
      rw [hw.unsent r hnew, List.take_zero, List.append_nil]
      exact hwhole

/-- A request that is made. -/
theorem request (hw : Traced buffer w started) {r : Request} (hnew : r ∉ w.connection.requested)
    (hinOrder : InOrder { w.connection with
      requested := w.connection.requested ++ [r]
      ready := w.connection.ready ++ [.enqueueRequest r] }) :
    Traced buffer { w with
      connection := { w.connection with
        requested := w.connection.requested ++ [r]
        ready := w.connection.ready ++ [.enqueueRequest r] } } started := by
  refine hw.quiet ⟨hw.socketed.down, hw.socketed.connects, hw.socketed.connecting⟩ hinOrder ?_ rfl
    fun hup => ⟨hup, rfl, fun h hmem _ => List.mem_append_left _ hmem⟩
  refine List.nodup_append.mpr ⟨hw.nodup, List.nodup_singleton r, ?_⟩
  intro x hx y hy
  rw [List.mem_singleton.mp hy]
  exact fun h => hnew (h ▸ hx)

/-- A handler that is run. -/
theorem run (hw : Traced buffer w started) {hd : Handler} {rest : List Handler}
    (hready : w.connection.ready = hd :: rest)
    (ht : State.handle config { w.connection with ready := rest } hd = some t)
    (hinOrder : InOrder t) (halone : t.sent = w.connection.sent ∨
      w.connection.writes = [] ∧ ∀ h ∈ rest, h.failedWrite = false) :
    ∃ started', Traced buffer { w with connection := t } started' := by
  have hpopped : Socketed { w.connection with ready := rest } :=
    ⟨hw.socketed.down, hw.socketed.connects, hw.socketed.connecting⟩
  have hsocketed : Socketed t := socketed_of_effect hpopped (State.effect_handle config ht)
  have hrequested : t.requested = w.connection.requested := (State.joins_handle config ht).requested
  have hnodup : t.requested.Nodup := hrequested ▸ hw.nodup
  have hrest : t.up = true → ∀ h ∈ w.connection.ready, h.failedWrite = true → h ∈ rest := by
    intro hup h hmem hfailed
    rw [hready] at hmem
    rcases List.mem_cons.mp hmem with rfl | hmem
    · rw [up_of_failedWrite hfailed ht] at hup
      cases hup
    · exact hmem
  rcases State.effect_handle config ht with hcloses | ⟨rs, hlength, hsends⟩
  · refine ⟨started, hw.quiet hsocketed hinOrder hnodup hcloses.sent fun hup => ?_⟩
    rw [hcloses.up] at hup
    cases hup
  cases rs with
  | nil =>
    have hsent : t.sent = w.connection.sent := hsends.sent.trans (List.append_nil _)
    refine ⟨started, hw.quiet hsocketed hinOrder hnodup hsent fun hup => ⟨?_, ?_, ?_⟩⟩
    · exact hsends.up ▸ hup
    · have hsame := hsends.writes
      rw [ite_self, List.append_nil] at hsame
      exact hsame
    · exact fun h hmem hfailed => hsends.ready.subset (hrest hup h hmem hfailed)
  | cons r more =>
    obtain rfl : more = [] := List.eq_nil_of_length_eq_zero (by simpa using hlength)
    obtain ⟨hnone, hwell⟩ := halone.resolve_left fun h => by
      rw [hsends.sent] at h
      simp at h
    have hwrites : t.writes = if w.connection.up then [r] else [] := by
      refine hsends.writes.trans ?_
      show w.connection.writes ++ _ = _
      rw [hnone]
      rfl
    refine hw.send hsocketed hinOrder hnodup hsends.sent hsends.up hnone hwrites ?_
    intro hup h hmem
    by_contra hfailed
    rw [Bool.not_eq_false] at hfailed
    rw [hwell h (hrest hup h hmem hfailed)] at hfailed
    cases hfailed

/-- A connection that was made. -/
theorem connect (hw : Traced buffer w started) {before after : List Operation}
    {ready : List Handler} {took : List Request}
    (hpending : w.connection.pending = before ++ .connect :: after)
    (hinOrder : InOrder
      { w.connection with up := true, pending := before ++ after, ready := ready, took := took }) :
    Traced buffer
      { w with
        connection :=
          { w.connection with
            up := true, pending := before ++ after, ready := ready, took := took }
        streams := [] :: w.streams } ([] :: started) := by
  have hup : w.connection.up = false := hw.socketed.connecting (by rw [hpending]; simp)
  have hnone : (before ++ after).filterMap Operation.writing = [] := by
    have hdown := hw.socketed.down hup
    rw [State.writes_split hpending] at hdown
    rw [List.filterMap_append]
    exact hdown
  have hlast : Operation.connect ∉ before ++ after := by
    have hone := hw.socketed.connects
    rw [hpending, List.count_append, List.count_cons_self] at hone
    rw [← List.count_eq_zero, List.count_append]
    omega
  refine ⟨⟨?_, ?_, ?_⟩, hinOrder, hw.nodup, hw.unsent, ?_, ?_, ?_⟩
  · intro hfalse
    cases hfalse
  · exact (List.count_eq_zero.mpr hlast).trans_le (Nat.zero_le 1)
  · exact fun h => absurd h hlast
  · rw [List.reverse_cons, List.flatten_append]
    simpa using hw.sent
  · exact .cons (List.prefix_refl _) hw.streams
  · exact fun _ => ⟨[], w.streams, [], started, rfl, rfl, .idle hnone (.inl rfl)⟩

/-- An operation that ends, but for a connection that was made. -/
theorem complete (hw : Traced buffer w started) {op : Operation} {o : Outcome} {hd : Handler}
    {place : ℕ} (hhd : op.handler place o = some hd) {before after : List Operation}
    (hpending : w.connection.pending = before ++ op :: after)
    (hallowed : Wire.Allowed buffer w (.complete op o)) (hinOrder : InOrder t)
    (hpending' : t.pending = before ++ after) (hready : t.ready = w.connection.ready ++ [hd])
    (hsent : t.sent = w.connection.sent) (hup : t.up = w.connection.up)
    (hrequested : t.requested = w.connection.requested) :
    Traced buffer { w with connection := t } started := by
  have hsocketed : Socketed t := hw.socketed.complete hpending hpending' hup
  have hnodup : t.requested.Nodup := hrequested ▸ hw.nodup
  cases hwriting : op.writing with
  | none =>
    refine hw.quiet hsocketed hinOrder hnodup hsent fun hup' => ⟨hup ▸ hup', ?_, ?_⟩
    · rw [State.writes_left hpending', State.writes_split hpending, hwriting]
      rfl
    · intro h hmem _
      rw [hready]
      exact List.mem_append_left _ hmem
  | some r =>
    obtain rfl : op = .write r := by
      cases op <;> simp [Operation.writing] at hwriting ⊢
      exact hwriting
    refine ⟨hsocketed, hinOrder, hnodup, fun r hr => hw.unsent r (hsent ▸ hr), hsent ▸ hw.sent,
      hw.streams, fun hup' => ?_⟩
    obtain ⟨stream, streams, rs, past, hstreams, hstarted, hcurrent⟩ := hw.current (hup ▸ hup')
    exact ⟨stream, streams, rs, past, hstreams, hstarted,
      hcurrent.ended hhd hpending hallowed hpending' hready⟩

/-- Bytes that the socket takes. -/
theorem transfer (hw : Traced buffer w started) {r : Request} {n : ℕ} {stream : List UInt8}
    {streams : List (List UInt8)} (hstreams : w.streams = stream :: streams)
    (hpending : .write r ∈ w.connection.pending) :
    Traced buffer
      { w with
        transferred := Function.update w.transferred r (w.transferred r + n)
        streams := (stream ++ ((buffer r).drop (w.transferred r)).take n) :: streams } started := by
  have hwrite : r ∈ w.connection.writes := List.mem_filterMap.mpr ⟨.write r, hpending, rfl⟩
  have hup : w.connection.up = true := by
    by_contra hdown
    rw [hw.socketed.down (Bool.not_eq_true _ ▸ hdown)] at hwrite
    cases hwrite
  obtain ⟨stream', streams', rs, before, hstreams', rfl, hcurrent⟩ := hw.current hup
  obtain ⟨rfl, rfl⟩ := List.cons.inj (hstreams.symm.trans hstreams')
  cases hcurrent with
  | idle hnone _ =>
    rw [hnone] at hwrite
    cases hwrite
  | @writing rs r' hone hstream =>
    rw [hone] at hwrite
    obtain rfl := List.mem_singleton.mp hwrite
    have hgrown : stream ++ ((buffer r).drop (w.transferred r)).take n =
        rs.flatMap buffer ++ (buffer r).take (w.transferred r + n) := by
      rw [hstream, List.append_assoc, List.take_add]
    have hsent : r ∈ w.connection.sent := by
      apply hw.sent.subset
      rw [List.reverse_cons, List.flatten_append]
      simp
    have hforall := hw.streams
    rw [hstreams] at hforall
    refine ⟨hw.socketed, hw.inOrder, hw.nodup, ?_, hw.sent, ?_, fun _ => ?_⟩
    · intro r' hr'
      have hne : r' ≠ r := by
        rintro rfl
        exact hr' hsent
      show Function.update w.transferred r _ r' = 0
      rw [Function.update_of_ne hne]
      exact hw.unsent r' hr'
    · refine .cons ?_ (List.forall₂_cons.mp hforall).2
      rw [hgrown, List.flatMap_append, List.flatMap_singleton]
      exact (List.prefix_append_right_inj _).mpr (List.take_prefix _ _)
    · refine ⟨_, streams, rs ++ [r], before, rfl, rfl, .writing hone ?_⟩
      dsimp only
      rw [Function.update_self]
      exact hgrown

theorem step (hw : Traced buffer w started) {l : Wire.Label} (hl : Wire.Alone config w l)
    {w' : Wire} (h : Wire.step config buffer w l = some w') :
    ∃ started', Traced buffer w' started' := by
  cases l with
  | transfer r n =>
    simp only [Wire.step] at h
    split at h
    · cases h
    next stream streams hstreams =>
      split_ifs at h with hpending
      obtain rfl := Option.some.inj h
      exact ⟨started, hw.transfer hstreams hpending.1⟩
  | connection l =>
    by_cases hallowed : Wire.Allowed buffer w l
    case neg =>
      rw [Wire.step, if_neg hallowed] at h
      cases h
    rw [Wire.step, if_pos hallowed] at h
    obtain ⟨t, ht, rfl⟩ := Option.map_eq_some_iff.mp h
    have hinOrder := inOrder_step w.connection l t hw.inOrder ht
    rcases step_cases ht with ⟨r, rfl, rfl⟩ | ⟨op, o, hd, before, after, rfl, hhd, hpending, rfl⟩ |
      ⟨rfl, rfl⟩ | ⟨hd, rest, rfl, hready, hrun⟩
    · exact ⟨started, hw.request hallowed hinOrder⟩
    · by_cases hconnect : op = .connect ∧ o = .success
      · obtain ⟨rfl, rfl⟩ := hconnect
        have htrue : (w.connection.up || (decide (Operation.connect = .connect) &&
            decide (Outcome.success = .success))) = true := by simp
        rw [if_pos rfl]
        rw [htrue] at hinOrder ⊢
        exact ⟨_, hw.connect hpending hinOrder⟩
      · have hsame : (w.connection.up || (decide (op = .connect) && decide (o = .success))) =
            w.connection.up := by
          rw [← Bool.decide_and, decide_eq_false hconnect, Bool.or_false]
        rw [if_neg (by simpa using hconnect)]
        rw [hsame] at hinOrder ⊢
        exact ⟨started, hw.complete hhd hpending hallowed hinOrder rfl rfl rfl rfl rfl⟩
    · have hcloses := State.closes_close w.connection
      refine ⟨started, hw.quiet (socketed_of_effect hw.socketed (.inl hcloses)) hinOrder hw.nodup
        rfl fun hup => ?_⟩
      cases hup
    · have halone := hl t ht
      rw [hready] at halone
      exact hw.run hready hrun hinOrder halone

end Traced

/-- Where no write is started too early, each connected socket took the beginning of a sequence
of whole buffers, which are those of the requests in the order in which they were made. -/
theorem streams_prefix {ls : List Wire.Label} {w : Wire}
    (h : Transition.exec (Wire.step config buffer) .init ls = some w)
    (halone : Transition.Meets (Wire.step config buffer) (Wire.Alone config) .init ls) :
    ∃ started : List (List Request),
      List.Forall₂ (fun stream rs => stream <+: rs.flatMap buffer) w.streams started ∧
      started.reverse.flatten.Sublist w.connection.requested := by
  have hinit : ∃ started, Traced buffer .init started := by
    refine ⟨[], ⟨fun _ => rfl, Nat.zero_le 1, ?_⟩, .slnil, .nil, fun _ _ => rfl, .slnil, .nil, ?_⟩
    · intro h
      cases h
    · intro h
      cases h
  have hstep : ∀ w l w', (∃ started, Traced buffer w started) → Wire.Alone config w l →
      Wire.step config buffer w l = some w' → ∃ started, Traced buffer w' started := by
    rintro w l w' ⟨started, hw⟩ hl hw'
    exact hw.step hl hw'
  obtain ⟨started, hw⟩ := Transition.exec_invariant_of_meets hstep hinit halone h
  exact ⟨started, hw.streams, hw.sent.trans (sent_sublist hw.inOrder)⟩

end
end Kafka
end HVBench
