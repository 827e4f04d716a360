import HVBench.Kafka.ProduceRequest
import HVBench.Kafka.Socket

/-! The records of `KafkaOutput`, from the connection it creates to the bytes on the socket. -/
namespace HVBench
namespace Kafka
open ByteStream

/-- `ConnectionConfiguration::SetBrokerFromString`, on the address that is set so far. -/
def setBrokerFromString (broker : Option BrokerAddress) (str : StdString) : Option BrokerAddress :=
  if str = [] then none
  else
    -- The length of the string stands for `npos`.
    let delimiterPosition := str.idxOf ':'
    let address : BrokerAddress :=
      if 0 < delimiterPosition ∧ delimiterPosition < str.length - 1 then
        ⟨str.take delimiterPosition, str.drop (delimiterPosition + 1)⟩
      else ⟨str.take delimiterPosition, "9092".toList⟩
    if address.hostname = [] ∨ address.service = [] then broker else some address

/-- The configuration of `KafkaOutput::create`, for the address `main` makes of `kafkaIp`. -/
def kafkaOutput (kafkaIp : StdString) : ConnectionConfiguration where
  messageMaxBytes := 4194304
  autoConnect := true
  brokerAddress := setBrokerFromString none (kafkaIp ++ ":9092".toList)

/-- An address that begins with the delimiter has no host. -/
theorem brokerAddress_eq_none_iff (kafkaIp : StdString) :
    (kafkaOutput kafkaIp).brokerAddress = none ↔ (kafkaIp ++ ":9092".toList).head? = some ':' := by
  show setBrokerFromString none (kafkaIp ++ ":9092".toList) = none ↔ _
  cases kafkaIp with
  | nil => decide
  | cons c kafkaIp =>
    unfold setBrokerFromString
    rw [List.cons_append, if_neg (List.cons_ne_nil _ _), List.head?_cons, Option.some_inj]
    dsimp only
    by_cases hc : c = ':'
    · subst hc
      simp
    · have hidx : (c :: (kafkaIp ++ ":9092".toList)).idxOf ':' =
          (kafkaIp ++ ":9092".toList).idxOf ':' + 1 := List.idxOf_cons_ne _ hc
      rw [hidx]
      generalize kafkaIp ++ ":9092".toList = rest
      have hhost : (c :: rest).take (rest.idxOf ':' + 1) ≠ [] := List.cons_ne_nil _ _
      by_cases hinside : 0 < rest.idxOf ':' + 1 ∧ rest.idxOf ':' + 1 < (c :: rest).length - 1
      · have hservice : (c :: rest).drop (rest.idxOf ':' + 1 + 1) ≠ [] := by
          rw [ne_eq, List.drop_eq_nil_iff]
          omega
        simp only [if_pos hinside]
        rw [if_neg (by simp only [not_or]; exact ⟨hhost, hservice⟩)]
        simp [hc]
      · simp only [if_neg hinside]
        rw [if_neg (by simp only [not_or]; exact ⟨hhost, by decide⟩)]
        simp [hc]

/-- A connection that has no broker to connect to. Each request is refused. -/
structure Refusing (s : State) : Prop where
  connectionState : s.connectionState = .closed
  pending : s.pending = []
  writeQueue : s.writeQueue = []
  readQueue : s.readQueue = []
  ready : ∀ h ∈ s.ready, (∃ r, h = .enqueueRequest r) ∨ ∃ r, h = .request r (some .noBroker) none
  sent : s.sent = []
  called : ∀ call ∈ s.called, call.error = some .noBroker ∧ call.response = none

variable {config : ConnectionConfiguration}

/-- A connection that has no broker to connect to refuses each request. -/
theorem refusing_step (hauto : config.autoConnect = true) (hbroker : config.brokerAddress = none)
    (s : State) (l : Label) (t : State) (hs : Refusing s) (h : step config s l = some t) :
    Refusing t := by
  rcases step_cases h with ⟨r, -, rfl⟩ | ⟨op, o, hd, before, after, -, -, hpending, -⟩ |
    ⟨-, rfl⟩ | ⟨hd, rest, -, hready, ht⟩
  · refine ⟨hs.connectionState, hs.pending, hs.writeQueue, hs.readQueue, ?_, hs.sent, hs.called⟩
    intro h hh
    rcases List.mem_append.mp hh with hh | hh
    · exact hs.ready h hh
    · exact .inl ⟨r, List.mem_singleton.mp hh⟩
  · rw [hs.pending] at hpending
    simp at hpending
  · refine ⟨rfl, rfl, hs.writeQueue, hs.readQueue, ?_, hs.sent, hs.called⟩
    intro h hh
    have hsame : s.close.ready = s.ready := by
      unfold State.close
      dsimp only
      rw [hs.pending, List.map_nil, List.append_nil]
    rw [hsame] at hh
    exact hs.ready h hh
  · have hrest : ∀ h ∈ rest, (∃ r, h = .enqueueRequest r) ∨
        ∃ r, h = .request r (some .noBroker) none := by
      intro h hh
      exact hs.ready h (by rw [hready]; exact List.mem_cons_of_mem _ hh)
    rcases hs.ready hd (by rw [hready]; exact List.mem_cons_self) with ⟨r, rfl⟩ | ⟨r, rfl⟩
    · have hrefused : State.enqueueRequest config { s with ready := rest } r =
          State.post { s with ready := rest } (.request r (some .noBroker) none) := by
        unfold State.enqueueRequest
        rw [if_neg (by simp [hauto]), if_pos ⟨hs.connectionState, hbroker⟩]
      obtain rfl := Option.some.inj ht
      rw [hrefused]
      refine ⟨hs.connectionState, hs.pending, hs.writeQueue, hs.readQueue, ?_, hs.sent, hs.called⟩
      intro h hh
      rcases List.mem_append.mp hh with hh | hh
      · exact hrest h hh
      · exact .inr ⟨r, List.mem_singleton.mp hh⟩
    · obtain rfl := Option.some.inj ht
      refine ⟨hs.connectionState, hs.pending, hs.writeQueue, hs.readQueue, hrest, hs.sent, ?_⟩
      intro call hcall
      rcases List.mem_append.mp hcall with hcall | hcall
      · exact hs.called call hcall
      · rw [List.mem_singleton.mp hcall]
        exact ⟨rfl, rfl⟩

/-- A run in which a first request is written. -/
def firstRequest (r : Request) : List Label :=
  [.asyncRequest r, .run, .complete .resolve .success, .run, .complete .connect .success, .run,
    .run]

theorem exec_firstRequest (hauto : config.autoConnect = true)
    (hbroker : config.brokerAddress ≠ none) (r : Request) :
    ∃ s, Transition.exec (step config) init (firstRequest r) = some s ∧ s.sent = [r] := by
  have hconnect : State.enqueueRequest config { init with requested := [r] } r =
      { init with
        requested := [r]
        writeQueue := [r]
        pending := [.resolve]
        connectionState := .connecting } := by
    simp [State.enqueueRequest, State.nextRequest, State.asyncConnect, init, hauto, hbroker]
  refine ⟨_, Transition.exec_cons.mpr ⟨_, rfl, Transition.exec_cons.mpr
    ⟨_, congrArg some hconnect, rfl⟩⟩, rfl⟩

/-- The records of an instance can reach a broker if and only if the address that it was
started with has a host name. An empty one has none, nor has an IPv6 address that begins with
a colon. Then nothing is ever written, and each record is refused with `kErrorNoBroker`. -/
theorem can_reach_broker_iff (kafkaIp : StdString) :
    ((∃ ls s, Transition.exec (step (kafkaOutput kafkaIp)) init ls = some s ∧ s.sent ≠ []) ↔
      (kafkaIp ++ ":9092".toList).head? ≠ some ':') ∧
    ((kafkaIp ++ ":9092".toList).head? = some ':' → ∀ ls s,
      Transition.exec (step (kafkaOutput kafkaIp)) init ls = some s →
        ∀ call ∈ s.called, call.error = some .noBroker) := by
  rw [ne_eq, ← brokerAddress_eq_none_iff]
  have hrefusing : (kafkaOutput kafkaIp).brokerAddress = none → ∀ ls s,
      Transition.exec (step (kafkaOutput kafkaIp)) init ls = some s → Refusing s := by
    intro hbroker ls s hs
    have hinit : Refusing init := ⟨rfl, rfl, rfl, rfl, by simp [init], rfl, by simp [init]⟩
    exact Transition.exec_invariant (refusing_step rfl hbroker) hinit hs
  refine ⟨⟨?_, ?_⟩, ?_⟩
  · rintro ⟨ls, s, hs, hsent⟩ hbroker
    exact hsent (hrefusing hbroker ls s hs).sent
  · intro hbroker
    obtain ⟨s, hs, hsent⟩ := exec_firstRequest rfl hbroker ⟨0, true⟩
    exact ⟨_, s, hs, by rw [hsent]; exact List.cons_ne_nil _ _⟩
  · intro hbroker ls s hs call hcall
    exact ((hrefusing hbroker ls s hs).called call hcall).1

/-- A record of an instance whose broker is at `::1`. -/
theorem can_reach_broker_loopback :
    ∃ s, Transition.exec (step (kafkaOutput "::1".toList)) init
        [.asyncRequest ⟨0, true⟩, .run, .run] = some s ∧ s.called.length = 1 ∧
      ∀ call ∈ s.called, call.error = some .noBroker := by
  obtain ⟨s, hs, hcalled⟩ : ∃ s, Transition.exec (step (kafkaOutput "::1".toList)) init
      [.asyncRequest ⟨0, true⟩, .run, .run] = some s ∧ s.called.length = 1 := ⟨_, rfl, rfl⟩
  exact ⟨s, hs, hcalled, (can_reach_broker_iff "::1".toList).2 rfl _ s hs⟩

theorem plain_recordRequest {json : List Byte} (h : json ≠ []) :
    (recordRequest json).plain = recordRequest json := by
  cases json with
  | nil => exact absurd rfl h
  | cons b json => rfl

/-- The bytes of a request of the output, of which each has one record. -/
def recordBuffer (json : ℕ → List Byte) (r : Request) : List Byte :=
  writeRequest checksum hvbench (recordRequest (json r.id))

/-- Of the bytes that a broker gets from a socket, `stream` at most, it takes whole requests apart,
the first ones of those whose writes were started, and finds each record as it was. What is left
is less than one more request. -/
def ReadBack (json : ℕ → List Byte) (stream : List Byte) (started : List Request) : Prop :=
  ∀ got, got <+: stream → ∃ whole rest cut, started = whole ++ rest ∧
    got = whole.flatMap (recordBuffer json) ++ cut ∧
    (Istream.ofBytes got).readMany (Broker.readRequest fallback) whole.length =
      some (whole.map fun r => (hvbench, recordRequest (json r.id)), .ofBytes cut) ∧
    (cut = [] ∨ ∃ r more, rest = r :: more ∧ cut <+: recordBuffer json r ∧
      cut ≠ recordBuffer json r)

theorem readBack_of_prefix {json : ℕ → List Byte}
    (hjson : ∀ k, json k ≠ [] ∧ (json k).length < 2 ^ 30) {stream : List Byte}
    {started : List Request} (h : stream <+: started.flatMap (recordBuffer json)) :
    ReadBack json stream started := by
  intro got hgot
  obtain ⟨whole, rest, cut, rfl, rfl, hcut⟩ := split_of_prefix (hgot.trans h)
  have hread : ∀ r ∈ whole, ∀ more, Broker.readRequest fallback
      (.ofBytes (recordBuffer json r ++ more)) =
        some ((hvbench, recordRequest (json r.id)), .ofBytes more) := by
    intro r _ more
    rw [recordBuffer, readRequest_writeRequest fallback (recordRequest_sized (hjson r.id).2),
      plain_recordRequest (hjson r.id).1]
  exact ⟨whole, rest, cut, rfl, rfl, Istream.readMany_flatMap hread cut, hcut⟩

/-- What an instance's sockets take, whatever fails in between, are whole requests with one record
each, but for a part of one more behind them, in the order in which the records were written to
the output. A broker that takes them apart finds each record as it was. The writes of a connection
may not overlap. -/
theorem records_read_back (kafkaIp : StdString) (json : ℕ → List Byte)
    (hjson : ∀ k, json k ≠ [] ∧ (json k).length < 2 ^ 30) (ls : List Wire.Label) (w : Wire)
    (h : Transition.exec (Wire.step (kafkaOutput kafkaIp) (recordBuffer json)) .init ls = some w)
    (halone : Transition.Meets (Wire.step (kafkaOutput kafkaIp) (recordBuffer json))
      (Wire.Alone (kafkaOutput kafkaIp)) .init ls) :
    ∃ started : List (List Request), List.Forall₂ (ReadBack json) w.streams started ∧
      (started.reverse.flatten.map fun r => json r.id).Sublist
        (w.connection.requested.map fun r => json r.id) := by
  obtain ⟨started, hstreams, hsent⟩ := streams_prefix h halone
  exact ⟨started, hstreams.imp fun _ _ hprefix => readBack_of_prefix hjson hprefix, hsent.map _⟩

/-- A first request is written, and of a second one a byte when the connection is lost. -/
def lostRequest (buffer : Request → List Byte) : List Wire.Label :=
  [.connection (.asyncRequest ⟨0, true⟩), .connection .run,
    .connection (.complete .resolve .success), .connection .run,
    .connection (.complete .connect .success), .connection .run, .connection .run,
    .transfer ⟨0, true⟩ (buffer ⟨0, true⟩).length,
    .connection (.complete (.write ⟨0, true⟩) .success), .connection .run,
    .connection (.asyncRequest ⟨1, true⟩), .connection .run, .transfer ⟨1, true⟩ 1,
    .connection (.complete (.write ⟨1, true⟩) (.error (.system 104))), .connection .run]

theorem exec_lostRequest {buffer : Request → List Byte} (hbuffer : 1 ≤ (buffer ⟨1, true⟩).length) :
    ∃ w, Transition.exec (Wire.step (kafkaOutput "127.0.0.1".toList) buffer) .init
        (lostRequest buffer) = some w ∧
      Transition.Meets (Wire.step (kafkaOutput "127.0.0.1".toList) buffer)
        (Wire.Alone (kafkaOutput "127.0.0.1".toList)) .init (lostRequest buffer) ∧
      w.streams = [buffer ⟨0, true⟩ ++ (buffer ⟨1, true⟩).take 1] := by
  have hall : 0 + (buffer ⟨0, true⟩).length ≤ (buffer ⟨0, true⟩).length :=
    Nat.le_of_eq (Nat.zero_add _)
  have hone : 0 + 1 ≤ (buffer ⟨1, true⟩).length := hbuffer
  refine Transition.exists_exec_cons rfl (Wire.alone_of_step rfl (.inl rfl)) ?_
  refine Transition.exists_exec_cons rfl (Wire.alone_of_step rfl (.inl rfl)) ?_
  refine Transition.exists_exec_cons rfl (Wire.alone_of_step rfl (.inl rfl)) ?_
  refine Transition.exists_exec_cons rfl (Wire.alone_of_step rfl (.inl rfl)) ?_
  refine Transition.exists_exec_cons rfl (Wire.alone_of_step rfl (.inl rfl)) ?_
  refine Transition.exists_exec_cons rfl (Wire.alone_of_step rfl (.inl rfl)) ?_
  -- The first write is started.
  refine Transition.exists_exec_cons rfl
    (Wire.alone_of_step rfl (.inr ⟨rfl, fun _ h => absurd h List.not_mem_nil⟩)) ?_
  refine Transition.exists_exec_cons (if_pos ⟨List.mem_singleton_self _, hall⟩) trivial ?_
  refine Transition.exists_exec_cons (if_pos (Nat.zero_add _))
    (Wire.alone_of_step rfl (.inl rfl)) ?_
  refine Transition.exists_exec_cons rfl (Wire.alone_of_step rfl (.inl rfl)) ?_
  refine Transition.exists_exec_cons rfl (Wire.alone_of_step rfl (.inl rfl)) ?_
  -- The second write is started, while the first response is read.
  refine Transition.exists_exec_cons rfl
    (Wire.alone_of_step rfl (.inr ⟨rfl, fun _ h => absurd h List.not_mem_nil⟩)) ?_
  refine Transition.exists_exec_cons
    (if_pos ⟨List.mem_cons_of_mem _ (List.mem_singleton_self _), hone⟩) trivial ?_
  refine Transition.exists_exec_cons rfl (Wire.alone_of_step rfl (.inl rfl)) ?_
  refine Transition.exists_exec_cons rfl (Wire.alone_of_step rfl (.inl rfl)) ?_
  refine ⟨_, rfl, trivial, ?_⟩
  show [([] ++ ((buffer ⟨0, true⟩).drop 0).take (buffer ⟨0, true⟩).length) ++
    ((buffer ⟨1, true⟩).drop 0).take 1] = _
  rw [List.nil_append, List.drop_zero, List.drop_zero, List.take_length]

/-- The first record is read back, whatever arrives of the second one. -/
theorem records_read_back_lost :
    ∃ w, Transition.exec (Wire.step (kafkaOutput "127.0.0.1".toList)
        (recordBuffer fun _ => [123, 125])) .init (lostRequest (recordBuffer fun _ => [123, 125])) =
          some w ∧
      w.streams = [recordBuffer (fun _ => [123, 125]) ⟨0, true⟩ ++
        (recordBuffer (fun _ => [123, 125]) ⟨1, true⟩).take 1] ∧
      ∃ started : List (List Request),
        List.Forall₂ (ReadBack fun _ => [123, 125]) w.streams started := by
  have hbuffer : 1 ≤ (recordBuffer (fun _ => [123, 125]) ⟨1, true⟩).length := by
    rw [recordBuffer, writeRequest, List.length_append, length_writeInt32]
    omega
  obtain ⟨w, hrun, halone, hstreams⟩ := exec_lostRequest hbuffer
  obtain ⟨started, hread, -⟩ := records_read_back "127.0.0.1".toList (fun _ => [123, 125])
    (fun _ => ⟨by decide, by decide⟩) _ w hrun halone
  exact ⟨w, hrun, hstreams, started, hread⟩

end Kafka
end HVBench
