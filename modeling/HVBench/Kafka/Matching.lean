import HVBench.Kafka.Responses

/-! Runs in which nothing fails: each response goes to the request it answers, and the
requests whose responses nobody reads are those at the end of the read queue. -/
namespace HVBench
namespace Kafka

/-- What goes on: a connection is made, a request is written, its response is read, or was
read and is to be handled. -/
inductive Token
  | connect
  | write (r : Request)
  | read (r : Request)
  | taken (r : Request)
  deriving DecidableEq, Repr

def Operation.token : Operation → Token
  | .resolve => .connect
  | .connect => .connect
  | .write r => .write r
  | .readSize r => .read r
  | .read r => .read r

def Handler.token : Handler → Option Token
  | .asyncResolve none => some .connect
  | .asyncConnect none => some .connect
  | .asyncRequestWrite r none => some (.write r)
  | .asyncResponseSizeRead r (.ok _) => some (.read r)
  | .asyncResponseRead r (.ok _) => some (.taken r)
  | _ => none

def State.tokens (s : State) : List Token :=
  s.pending.map Operation.token ++ s.ready.filterMap Handler.token

/-- The requests that are written, those whose response is read or was read, and those whose
write has just ended. -/
structure Shape where
  writing : List Request
  reading : List Request
  taking : List Request
  written : List Request

def Shape.tokens (x : Shape) (c : ConnectionState) : List Token :=
  (if c = .connecting then [.connect] else []) ++
    (x.writing.map Token.write ++ (x.reading.map Token.read ++ x.taking.map Token.taken))

/-- A handler that is not called with an error, finds the connection as it expects and has the
response that was read for its request. -/
def Handler.Sound (config : ConnectionConfiguration) (c : ConnectionState) (up : Bool)
    (took : List Request) : Handler → Prop
  | .enqueueRequest _ => True
  | .asyncResolve e => e = none
  | .asyncConnect e => e = none ∧ up = true
  | .asyncAutoConnect e => e = none ∧ c = .connected
  | .asyncRequestWrite _ e => e = none
  | .asyncResponseSizeRead _ (.ok n) => 0 ≤ n ∧ n < config.messageMaxBytes
  | .asyncResponseSizeRead _ (.error _) => False
  | .asyncResponseRead r (.ok response) => took[response.place]? = some r
  | .asyncResponseRead _ (.error _) => False
  | .request r _ (some response) => took[response.place]? = some r
  | .request _ _ none => True

/-- The handler to be run is that of a connection that was just made. -/
def State.autoConnected (s : State) : Bool :=
  match s.ready with
  | .asyncAutoConnect none :: _ => true
  | _ => false

/-- The steps that do not fail, of which those to write on a new connection find it unused. -/
def Clean (config : ConnectionConfiguration) (s : State) : Label → Prop
  | .asyncRequest _ => True
  | .complete _ (.error _) => False
  | .complete _ (.size n) => 0 ≤ n ∧ n < config.messageMaxBytes
  | .complete _ _ => True
  | .deadline => False
  | .run => s.autoConnected = true → s.writeState = .idle

instance (config : ConnectionConfiguration) (s : State) :
    (l : Label) → Decidable (Clean config s l)
  | .asyncRequest _ => .isTrue trivial
  | .complete _ (.error _) => .isFalse id
  | .complete _ (.size _) => inferInstanceAs (Decidable (_ ∧ _))
  | .complete _ .success => .isTrue trivial
  | .complete _ (.response _) => .isTrue trivial
  | .deadline => .isFalse id
  | .run => inferInstanceAs (Decidable (_ → _))

structure Core (config : ConnectionConfiguration) (x : Shape) (s : State) : Prop where
  sound : ∀ h ∈ s.ready, h.Sound config s.connectionState s.up s.took
  up : s.connectionState = .connected → s.up = true
  tokens : s.tokens.Perm (x.tokens s.connectionState)
  idle : s.connectionState ≠ .connected → x = ⟨[], [], [], []⟩
  writing : x.writing.length = s.writeState.load
  reading : x.reading.length + x.taking.length = s.readState.load
  order : s.took ++ x.reading ++ s.readQueue ++
    (x.written ++ x.writing).filter Request.responseExpected =
      s.sent.filter Request.responseExpected
  called : ∀ call ∈ s.called, ∀ response, call.response = some response →
    s.took[response.place]? = some call.request

/-- Where requests wait to be written, something is going on that will write one. -/
def Attended (s : State) : Prop :=
  s.writeQueue ≠ [] → s.connectionState = .connecting ∨ .asyncAutoConnect none ∈ s.ready ∨
    s.writeState = .busy ∨ s.readState = .busy

structure Orderly (config : ConnectionConfiguration) (s : State) : Prop where
  core : ∃ writing reading taking, Core config ⟨writing, reading, taking, []⟩ s
  attended : Attended s

variable {config : ConnectionConfiguration} {x : Shape} {c : ConnectionState}

theorem load_le_one (t : TxState) : t.load ≤ 1 := by
  cases t <;> decide

theorem eq_singleton_of_mem {α : Type} {xs : List α} {y : α} (hy : y ∈ xs)
    (hlength : xs.length ≤ 1) : xs = [y] := by
  match xs with
  | [z] => rw [List.mem_singleton.mp hy]
  | z :: w :: zs => simp at hlength

/-- The one that is written is the one that was being written. -/
theorem perm_write {r : Request} {ts : List Token} (h : (Token.write r :: ts).Perm (x.tokens c))
    (hlength : x.writing.length ≤ 1) :
    x.writing = [r] ∧ ts.Perm ({ x with writing := [] }.tokens c) := by
  have hmem : Token.write r ∈ x.tokens c := h.subset List.mem_cons_self
  have hwriting : x.writing = [r] := by
    apply eq_singleton_of_mem _ hlength
    unfold Shape.tokens at hmem
    split_ifs at hmem <;> simpa using hmem
  refine ⟨hwriting, ?_⟩
  unfold Shape.tokens at h ⊢
  rw [hwriting, List.map_singleton, List.singleton_append] at h
  exact (h.trans List.perm_middle).cons_inv

theorem perm_read {r : Request} {ts : List Token} (h : (Token.read r :: ts).Perm (x.tokens c))
    (hlength : x.reading.length ≤ 1) :
    x.reading = [r] ∧ ts.Perm ({ x with reading := [] }.tokens c) := by
  have hmem : Token.read r ∈ x.tokens c := h.subset List.mem_cons_self
  have hreading : x.reading = [r] := by
    apply eq_singleton_of_mem _ hlength
    unfold Shape.tokens at hmem
    split_ifs at hmem <;> simpa using hmem
  refine ⟨hreading, ?_⟩
  unfold Shape.tokens at h ⊢
  rw [hreading, List.map_singleton, List.singleton_append, ← List.append_assoc] at h
  rw [← List.append_assoc]
  exact (h.trans List.perm_middle).cons_inv

theorem perm_taken {r : Request} {ts : List Token} (h : (Token.taken r :: ts).Perm (x.tokens c))
    (hlength : x.taking.length ≤ 1) :
    x.taking = [r] ∧ ts.Perm ({ x with taking := [] }.tokens c) := by
  have hmem : Token.taken r ∈ x.tokens c := h.subset List.mem_cons_self
  have htaking : x.taking = [r] := by
    apply eq_singleton_of_mem _ hlength
    unfold Shape.tokens at hmem
    split_ifs at hmem <;> simpa using hmem
  refine ⟨htaking, ?_⟩
  unfold Shape.tokens at h ⊢
  rw [htaking, List.map_singleton, ← List.append_assoc, ← List.append_assoc] at h
  rw [← List.append_assoc, ← List.append_assoc]
  exact (h.trans List.perm_middle).cons_inv

theorem perm_addWrite (hempty : x.writing = []) (r : Request) (c : ConnectionState) :
    (Token.write r :: x.tokens c).Perm ({ x with writing := [r] }.tokens c) := by
  unfold Shape.tokens
  rw [hempty]
  exact List.perm_middle.symm

theorem perm_addRead (hempty : x.reading = []) (r : Request) (c : ConnectionState)
    (written : List Request) :
    (Token.read r :: x.tokens c).Perm ({ x with reading := [r], written := written }.tokens c) := by
  unfold Shape.tokens
  dsimp only
  rw [hempty, List.map_nil, List.nil_append, List.map_singleton, List.singleton_append,
    ← List.append_assoc, ← List.append_assoc]
  exact List.perm_middle.symm

theorem perm_addTaken (hempty : x.taking = []) (r : Request) (c : ConnectionState) :
    (Token.taken r :: x.tokens c).Perm ({ x with taking := [r] }.tokens c) := by
  unfold Shape.tokens
  dsimp only
  rw [hempty, List.map_nil, List.append_nil, List.map_singleton, ← List.append_assoc,
    ← List.append_assoc, ← List.append_assoc]
  exact (List.perm_append_singleton _ _).symm

/-- A connection is made only where there is none yet, and is the only thing that goes on. -/
theorem Core.connect {s : State} {ts : List Token} (hs : Core config x s)
    (h : s.tokens.Perm (.connect :: ts)) :
    s.connectionState = .connecting ∧ x = ⟨[], [], [], []⟩ ∧ ts = [] := by
  have hperm := h.symm.trans hs.tokens
  have hmem : Token.connect ∈ x.tokens s.connectionState := hperm.subset List.mem_cons_self
  have hconnecting : s.connectionState = .connecting := by
    by_contra hne
    unfold Shape.tokens at hmem
    rw [if_neg hne] at hmem
    simp at hmem
  have hempty : x = ⟨[], [], [], []⟩ := hs.idle (by rw [hconnecting]; decide)
  refine ⟨hconnecting, hempty, ?_⟩
  rw [hconnecting, hempty] at hperm
  have hlast : (Token.connect :: ts).Perm (Token.connect :: []) := hperm
  exact hlast.cons_inv.eq_nil

namespace State

theorem tokens_post (s : State) (h : Handler) :
    (s.post h).tokens = s.tokens ++ h.token.toList := by
  have hone : [h].filterMap Handler.token = h.token.toList := by
    cases ht : h.token <;> simp [ht]
  unfold tokens post
  dsimp only
  rw [List.filterMap_append, hone, List.append_assoc]

theorem tokens_start {s : State} (hup : s.up = true) (op : Operation) :
    (s.start op).tokens.Perm (op.token :: s.tokens) := by
  unfold start
  rw [if_pos hup]
  unfold tokens
  dsimp only
  rw [List.map_append, List.map_singleton, List.append_assoc]
  exact List.perm_middle

theorem tokens_run {s : State} {hd : Handler} {rest : List Handler}
    (hready : s.ready = hd :: rest) :
    s.tokens.Perm (hd.token.toList ++ tokens { s with ready := rest }) := by
  have hsplit : (hd :: rest).filterMap Handler.token =
      hd.token.toList ++ rest.filterMap Handler.token := by
    cases ht : hd.token <;> simp [ht]
  unfold tokens
  dsimp only
  rw [hready, hsplit, ← List.append_assoc, ← List.append_assoc]
  exact List.perm_append_comm.append_right _

/-- What an operation leaves to its handler. -/
theorem tokens_complete {s : State} {op : Operation} {before after : List Operation}
    (hpending : s.pending = before ++ op :: after) (hd : Handler) (up : Bool)
    (took : List Request) :
    ∃ ts, s.tokens.Perm (op.token :: ts) ∧
      (tokens { s with
        up := up, pending := before ++ after, ready := s.ready ++ [hd], took := took }).Perm
          (hd.token.toList ++ ts) := by
  have hone : [hd].filterMap Handler.token = hd.token.toList := by
    cases ht : hd.token <;> simp [ht]
  refine ⟨(before ++ after).map Operation.token ++ s.ready.filterMap Handler.token, ?_, ?_⟩
  · unfold tokens
    rw [hpending, List.map_append, List.map_cons, List.map_append]
    exact List.perm_middle.append_right _
  · unfold tokens
    dsimp only
    rw [List.filterMap_append, hone, ← List.append_assoc]
    exact List.perm_append_comm

theorem start_up {s : State} (hup : s.up = true) (op : Operation) :
    s.start op = { s with pending := s.pending ++ [op] } := by
  unfold start
  rw [if_pos hup]

theorem eta_writeQueue {s : State} {q : List Request} (h : s.writeQueue = q) :
    { s with writeQueue := q } = s := by
  subst h
  rfl

theorem eta_readQueue {s : State} {q : List Request} (h : s.readQueue = q) :
    { s with readQueue := q } = s := by
  subst h
  rfl

end State

theorem Core.post {s : State} (hs : Core config x s) {h : Handler}
    (hsound : h.Sound config s.connectionState s.up s.took) (hnone : h.token = none) :
    Core config x (s.post h) := by
  refine ⟨?_, hs.up, ?_, hs.idle, hs.writing, hs.reading, hs.order, hs.called⟩
  · intro g hg
    rcases List.mem_append.mp hg with hg | hg
    · exact hs.sound g hg
    · rw [List.mem_singleton.mp hg]
      exact hsound
  · rw [State.tokens_post, hnone, Option.toList_none, List.append_nil]
    exact hs.tokens

/-- To write a request, on a connection on which none is written. -/
theorem Core.send {s : State} (hs : Core config x s) (hconnected : s.connectionState = .connected)
    (hidle : s.writeState = .idle) (r : Request) (q : List Request) :
    Core config { x with writing := [r] } { s.sendRequest r with writeQueue := q } := by
  have hup := hs.up hconnected
  have hempty : x.writing = [] := by
    have hwriting := hs.writing
    rw [hidle] at hwriting
    exact List.eq_nil_of_length_eq_zero hwriting
  have htokens : (State.tokens { s.sendRequest r with writeQueue := q }).Perm
      (Shape.tokens { x with writing := [r] } s.connectionState) :=
    (State.tokens_start hup _).trans ((hs.tokens.cons _).trans (perm_addWrite hempty r _))
  unfold State.sendRequest at htokens ⊢
  rw [State.start_up hup] at htokens ⊢
  refine ⟨hs.sound, hs.up, htokens, ?_, rfl, hs.reading, ?_, hs.called⟩
  · intro hne
    exact absurd hconnected hne
  · have horder := hs.order
    rw [hempty, List.append_nil] at horder
    show s.took ++ x.reading ++ s.readQueue ++
      (x.written ++ [r]).filter Request.responseExpected =
        (s.sent ++ [r]).filter Request.responseExpected
    rw [List.filter_append, List.filter_append, ← horder, List.append_assoc _ (List.filter _ _)]

/-- To read a response, on a connection on which none is read. -/
theorem Core.receive {s : State} (hs : Core config x s)
    (hconnected : s.connectionState = .connected) (hidle : s.readState = .idle) (r : Request)
    (q written : List Request) (hqueue : r :: q ++ written.filter Request.responseExpected =
      s.readQueue ++ x.written.filter Request.responseExpected) :
    Core config { x with reading := [r], written := written }
      { s.receiveResponse r with readQueue := q } := by
  have hup := hs.up hconnected
  have hempty : x.reading = [] ∧ x.taking = [] := by
    have hreading := hs.reading
    rw [hidle] at hreading
    exact ⟨List.eq_nil_of_length_eq_zero (Nat.eq_zero_of_add_eq_zero_right hreading),
      List.eq_nil_of_length_eq_zero (Nat.eq_zero_of_add_eq_zero_left hreading)⟩
  have htokens : (State.tokens { s.receiveResponse r with readQueue := q }).Perm
      (Shape.tokens { x with reading := [r], written := written } s.connectionState) :=
    (State.tokens_start hup _).trans ((hs.tokens.cons _).trans (perm_addRead hempty.1 r _ written))
  unfold State.receiveResponse at htokens ⊢
  rw [State.start_up hup] at htokens ⊢
  refine ⟨hs.sound, hs.up, htokens, ?_, hs.writing, ?_, ?_, hs.called⟩
  · intro hne
    exact absurd hconnected hne
  · dsimp only
    rw [hempty.2]
    rfl
  · have horder := hs.order
    rw [hempty.1, List.append_nil, List.filter_append, List.append_assoc, ← List.append_assoc _ _
      (List.filter _ x.writing), ← hqueue] at horder
    show s.took ++ [r] ++ q ++ (written ++ x.writing).filter Request.responseExpected = _
    rw [← horder, List.filter_append]
    simp only [List.append_assoc, List.cons_append, List.nil_append]

/-- To write the next request leaves none that nothing will write. -/
theorem Core.nextRequest {s : State} (hs : Core config x s)
    (hconnected : s.connectionState = .connected) :
    ∃ writing, Core config { x with writing := writing } (s.nextRequest config) ∧
      Attended (s.nextRequest config) := by
  unfold State.nextRequest
  split
  next hqueue => exact ⟨x.writing, hs, fun h => absurd hqueue h⟩
  next r rest hqueue =>
    rw [hconnected]
    split_ifs with hbusy hclosed
    · exact ⟨x.writing, hs, fun _ => .inr (.inr (.inl hbusy))⟩
    · exact absurd hclosed.1 (by decide)
    · have hidle : s.writeState = .idle := by
        cases hstate : s.writeState with
        | idle => rfl
        | busy => exact absurd hstate hbusy
      exact ⟨[r], hs.send hconnected hidle r rest, fun _ => .inr (.inr (.inl rfl))⟩
    next hne => exact absurd rfl hne

/-- More was connected and more responses were read. -/
theorem Handler.Sound.mono {h : Handler} {c c' : ConnectionState} {up up' : Bool}
    {took took' : List Request} (hs : h.Sound config c up took)
    (hc : c = .connected → c' = .connected) (hup : up = true → up' = true)
    (htook : took <+: took') : h.Sound config c' up' took' := by
  have hplace : ∀ {k : ℕ} {r : Request}, took[k]? = some r → took'[k]? = some r := by
    intro k r hk
    obtain ⟨more, rfl⟩ := htook
    rw [List.getElem?_append_left (List.getElem?_eq_some_iff.mp hk).1]
    exact hk
  cases h with
  | enqueueRequest => trivial
  | asyncResolve => exact hs
  | asyncConnect => exact ⟨hs.1, hup hs.2⟩
  | asyncAutoConnect => exact ⟨hs.1, hc hs.2⟩
  | asyncRequestWrite => exact hs
  | asyncResponseSizeRead r size =>
    cases size with
    | error => exact hs
    | ok => exact hs
  | asyncResponseRead r response =>
    cases response with
    | error => exact hs
    | ok => exact hplace hs
  | request r e response =>
    cases response with
    | none => trivial
    | some => exact hplace hs

/-- A handler that ends nothing is run. -/
theorem Core.drop {s : State} {hd : Handler} {rest : List Handler} (hs : Core config x s)
    (hready : s.ready = hd :: rest) (hnone : hd.token = none) :
    Core config x { s with ready := rest } := by
  have htokens := State.tokens_run hready
  rw [hnone] at htokens
  refine ⟨fun h hh => hs.sound h ?_, hs.up, htokens.symm.trans hs.tokens, hs.idle, hs.writing,
    hs.reading, hs.order, hs.called⟩
  rw [hready]
  exact List.mem_cons_of_mem _ hh

/-- Where something is written or read, there is a connection. -/
theorem Core.connected {s : State} (hs : Core config x s)
    (hbusy : x.writing ≠ [] ∨ x.reading ≠ [] ∨ x.taking ≠ []) :
    s.connectionState = .connected := by
  by_contra hne
  rw [hs.idle hne] at hbusy
  simp at hbusy

/-- The handler of a write is run. -/
theorem Core.endWrite {s : State} {r : Request} {rest : List Handler} (hs : Core config x s)
    (hready : s.ready = .asyncRequestWrite r none :: rest) (hwritten : x.written = []) :
    s.connectionState = .connected ∧
      Core config ⟨[], x.reading, x.taking, [r]⟩
        { s with ready := rest, writeState := .idle } := by
  have htokens := (State.tokens_run hready).symm.trans hs.tokens
  have hlength : x.writing.length ≤ 1 := by
    rw [hs.writing]
    exact load_le_one _
  obtain ⟨hwriting, hperm⟩ := perm_write htokens hlength
  have hconnected : s.connectionState = .connected := hs.connected (.inl (by simp [hwriting]))
  refine ⟨hconnected, fun h hh => hs.sound h ?_, hs.up, hperm, ?_, rfl, hs.reading, ?_, hs.called⟩
  · rw [hready]
    exact List.mem_cons_of_mem _ hh
  · exact fun hne => absurd hconnected hne
  · have horder := hs.order
    rw [hwriting, hwritten] at horder
    exact horder

/-- The size of a response was read, and the response is. -/
theorem Core.readOn {s : State} {r : Request} {n : ℤ} {rest : List Handler}
    (hs : Core config x s) (hready : s.ready = .asyncResponseSizeRead r (.ok n) :: rest) :
    Core config x (State.start { s with ready := rest } (.read r)) := by
  have hbefore := State.tokens_run hready
  have hconnected : s.connectionState = .connected := by
    have hmem : Token.read r ∈ x.tokens s.connectionState :=
      (hbefore.symm.trans hs.tokens).subset List.mem_cons_self
    by_contra hne
    rw [hs.idle hne] at hmem
    unfold Shape.tokens at hmem
    split_ifs at hmem <;> simp at hmem
  have hup := hs.up hconnected
  have hafter := State.tokens_start (s := { s with ready := rest }) hup (.read r)
  have htokens := hafter.trans (hbefore.symm.trans hs.tokens)
  rw [State.start_up (s := { s with ready := rest }) hup] at htokens ⊢
  refine ⟨fun h hh => hs.sound h ?_, hs.up, htokens, hs.idle, hs.writing, hs.reading, hs.order,
    hs.called⟩
  rw [hready]
  exact List.mem_cons_of_mem _ hh

/-- The handler of a response is run. -/
theorem Core.endRead {s : State} {r : Request} {response : Response} {rest : List Handler}
    (hs : Core config x s) (hready : s.ready = .asyncResponseRead r (.ok response) :: rest) :
    s.connectionState = .connected ∧ s.took[response.place]? = some r ∧
      Core config { x with taking := [] } { s with ready := rest, readState := .idle } := by
  have htokens := (State.tokens_run hready).symm.trans hs.tokens
  have hone := hs.reading.trans_le (load_le_one _)
  obtain ⟨htaking, hperm⟩ := perm_taken htokens (by omega)
  have hconnected : s.connectionState = .connected :=
    hs.connected (.inr (.inr (by simp [htaking])))
  have hreading : x.reading.length = 0 := by
    rw [htaking, List.length_singleton] at hone
    omega
  have hplace : s.took[response.place]? = some r := by
    refine hs.sound (.asyncResponseRead r (.ok response)) ?_
    rw [hready]
    exact List.mem_cons_self
  refine ⟨hconnected, hplace, fun h hh => hs.sound h ?_, hs.up, hperm, ?_, hs.writing, hreading,
    hs.order, hs.called⟩
  · rw [hready]
    exact List.mem_cons_of_mem _ hh
  · exact fun hne => absurd hconnected hne

/-- Nothing is read from the queue before a response comes. -/
def Keeps (s t : State) : Prop := s.readQueue.length ≤ t.readQueue.length

theorem Core.queue {s : State} (hs : Core config x s) (q : List Request) :
    Core config x { s with writeQueue := q } :=
  ⟨hs.sound, hs.up, hs.tokens, hs.idle, hs.writing, hs.reading, hs.order, hs.called⟩

theorem Attended.post {s : State} (hs : Attended s) (h : Handler) : Attended (s.post h) := by
  intro hqueue
  rcases hs hqueue with hconnecting | hready | hbusy
  · exact .inl hconnecting
  · exact .inr (.inl (List.mem_append_left _ hready))
  · exact .inr (.inr hbusy)

/-- To connect, where a request made it necessary. -/
theorem Core.asyncConnect {s : State} (hs : Core config x s) (hclosed : s.connectionState = .closed)
    (hbroker : config.brokerAddress ≠ none) :
    Core config x (s.asyncConnect config) ∧ Attended (s.asyncConnect config) := by
  unfold State.asyncConnect
  rw [if_neg hbroker, if_neg (fun hne => hne hclosed)]
  have hempty : x = ⟨[], [], [], []⟩ := hs.idle (by rw [hclosed]; decide)
  have htokens : s.tokens = [] := by
    have hperm := hs.tokens
    rw [hempty, hclosed] at hperm
    exact hperm.eq_nil
  have hnew : State.tokens
      { s with pending := s.pending ++ [.resolve], connectionState := .connecting } =
        [.connect] := by
    unfold State.tokens at htokens ⊢
    obtain ⟨hpending, hready⟩ := List.append_eq_nil_iff.mp htokens
    dsimp only
    rw [List.map_append, hpending, hready]
    rfl
  refine ⟨⟨?_, ?_, ?_, fun _ => hempty, hs.writing, hs.reading, hs.order, hs.called⟩,
    fun _ => .inl rfl⟩
  · intro h hh
    refine (hs.sound h hh).mono ?_ id (List.prefix_refl _)
    intro hconnected
    rw [hclosed] at hconnected
    cases hconnected
  · intro hconnected
    cases hconnected
  · rw [hnew, hempty]
    exact List.Perm.refl _

/-- To write the next request, or to connect where that is to be done first. -/
theorem Core.nextOrConnect {s : State} (hs : Core config x s) (hidle : s.writeState = .idle)
    (hclosed : s.connectionState = .closed →
      config.autoConnect = true ∧ config.brokerAddress ≠ none) :
    ∃ writing, Core config { x with writing := writing } (s.nextRequest config) ∧
      Attended (s.nextRequest config) := by
  cases hstate : s.connectionState with
  | connected => exact hs.nextRequest hstate
  | connecting =>
    have hsame : s.nextRequest config = s := by
      unfold State.nextRequest
      split
      · rfl
      · rw [hidle, hstate, if_neg (by decide), if_neg (by simp), if_neg (by decide)]
    rw [hsame]
    exact ⟨x.writing, hs, fun _ => .inl hstate⟩
  | closed =>
    by_cases hqueue : s.writeQueue = []
    · have hsame : s.nextRequest config = s := by
        unfold State.nextRequest
        rw [hqueue]
      rw [hsame]
      exact ⟨x.writing, hs, fun hne => absurd hqueue hne⟩
    · have hconnect : s.nextRequest config = s.asyncConnect config := by
        unfold State.nextRequest
        split
        next hnil => exact absurd hnil hqueue
        next => rw [hidle, hstate, if_neg (by decide), if_pos ⟨rfl, (hclosed hstate).1⟩]
      rw [hconnect]
      exact ⟨x.writing, hs.asyncConnect hstate (hclosed hstate).2⟩

theorem Core.enqueueRequest {s : State} (hs : Core config x s) (hattended : Attended s)
    (r : Request) :
    ∃ writing, Core config { x with writing := writing } (s.enqueueRequest config r) ∧
      Attended (s.enqueueRequest config r) := by
  unfold State.enqueueRequest
  split_ifs with hrefused hnone hidle hdirect
  · exact ⟨x.writing, hs.post trivial rfl, hattended.post _⟩
  · exact ⟨x.writing, hs.post trivial rfl, hattended.post _⟩
  · have hsent := hs.send hdirect.2 hidle r []
    have hqueue : (s.sendRequest r).writeQueue = [] := by
      rw [State.sendRequest_writeQueue, hdirect.1]
    rw [State.eta_writeQueue hqueue] at hsent
    exact ⟨[r], hsent, fun _ => .inr (.inr (.inl rfl))⟩
  · refine (hs.queue (s.writeQueue ++ [r])).nextOrConnect hidle fun hclosed => ?_
    refine ⟨?_, fun hno => hnone ⟨hclosed, hno⟩⟩
    by_contra hno
    exact hrefused ⟨hclosed, hno⟩
  · have hbusy : s.writeState = .busy := by
      cases hstate : s.writeState with
      | busy => rfl
      | idle => exact absurd hstate hidle
    exact ⟨x.writing, hs.queue _, fun _ => .inr (.inr (.inl hbusy))⟩

namespace State
variable (config : ConnectionConfiguration)

@[simp] theorem asyncConnect_readQueue (s : State) :
    (s.asyncConnect config).readQueue = s.readQueue := by
  unfold asyncConnect
  split_ifs <;> rfl

@[simp] theorem sendRequest_readQueue (s : State) (r : Request) :
    (s.sendRequest r).readQueue = s.readQueue := start_readQueue s _

@[simp] theorem nextRequest_readQueue (s : State) :
    (s.nextRequest config).readQueue = s.readQueue := by
  unfold nextRequest
  split
  · rfl
  · split_ifs <;> simp

@[simp] theorem enqueueRequest_readQueue (s : State) (r : Request) :
    (s.enqueueRequest config r).readQueue = s.readQueue := by
  unfold enqueueRequest
  split_ifs
  · rfl
  · rfl
  · exact sendRequest_readQueue s r
  · exact nextRequest_readQueue config _
  · rfl

end State

/-- A request that was written is put behind those whose responses are to be read. -/
theorem Core.park {s : State} {r : Request}
    (hs : Core config ⟨x.writing, x.reading, x.taking, [r]⟩ s)
    (hconnected : s.connectionState = .connected)
    (hfilter : [r].filter Request.responseExpected = [r]) :
    Core config ⟨x.writing, x.reading, x.taking, []⟩
      { s with readQueue := s.readQueue ++ [r] } := by
  refine ⟨hs.sound, hs.up, hs.tokens, fun hne => absurd hconnected hne, hs.writing, hs.reading, ?_,
    hs.called⟩
  have horder := hs.order
  rw [List.filter_append, hfilter] at horder
  show s.took ++ x.reading ++ (s.readQueue ++ [r]) ++ _ = _
  rw [← horder]
  simp only [List.append_assoc, List.nil_append]

/-- The response of a request that was written waits for those before it. -/
theorem Core.enqueueResponse {s : State} {r : Request}
    (hs : Core config ⟨x.writing, x.reading, x.taking, [r]⟩ s)
    (hconnected : s.connectionState = .connected) (hr : r.responseExpected = true) :
    ∃ reading, Core config ⟨x.writing, reading, x.taking, []⟩ (s.enqueueResponse config r) ∧
      Attended (s.enqueueResponse config r) ∧ Keeps s (s.enqueueResponse config r) := by
  have hfilter : [r].filter Request.responseExpected = [r] := List.filter_eq_self.mpr (by simpa)
  have hparked := hs.park hconnected hfilter
  unfold State.enqueueResponse
  rw [if_neg (fun hne => hne hconnected)]
  split_ifs with hidle hqueue
  · have hread := hs.receive hconnected hidle r [] []
      (by rw [hqueue, hfilter]; rfl)
    have hsame : (s.receiveResponse r).readQueue = [] := by
      rw [State.receiveResponse_readQueue, hqueue]
    rw [State.eta_readQueue hsame] at hread
    refine ⟨[r], hread, fun _ => .inr (.inr (.inr rfl)), ?_⟩
    unfold Keeps
    rw [State.receiveResponse_readQueue]
  · unfold State.nextResponse
    split
    next hnil => simp at hnil
    next q rest hsplit =>
      rw [if_neg (by rw [hidle]; decide)]
      have hread := hparked.receive hconnected hidle q rest []
        (by rw [hsplit])
      refine ⟨[q], hread, fun _ => .inr (.inr (.inr rfl)), ?_⟩
      have hlength := congrArg List.length hsplit
      simp only [List.length_append, List.length_cons, List.length_nil] at hlength
      show s.readQueue.length ≤ rest.length
      omega
  · have hbusy : s.readState = .busy := by
      cases hstate : s.readState with
      | busy => rfl
      | idle => exact absurd hstate hidle
    exact ⟨x.reading, hparked, fun _ => .inr (.inr (.inr hbusy)), by simp [Keeps]⟩

theorem Attended.drop {s : State} {hd : Handler} {rest : List Handler} (hs : Attended s)
    (hready : s.ready = hd :: rest) (hne : hd ≠ .asyncAutoConnect none) :
    Attended { s with ready := rest } := by
  intro hqueue
  rcases hs hqueue with hconnecting | hmem | hbusy
  · exact .inl hconnecting
  · rw [hready] at hmem
    exact .inr (.inl ((List.mem_cons.mp hmem).resolve_left fun heq => hne heq.symm))
  · exact .inr (.inr hbusy)

theorem Attended.start {s : State} (hs : Attended s) (op : Operation) : Attended (s.start op) := by
  unfold State.start
  split_ifs
  · exact hs
  · exact hs.post _

/-- Only the end of a connection's making needs the connection. -/
theorem Handler.Sound.offline {h : Handler} {c : ConnectionState} {up : Bool}
    {took : List Request} (hs : h.Sound config c up took) (hnone : h.token = none) :
    h.Sound config c false took := by
  cases h with
  | asyncConnect e =>
    obtain ⟨rfl, -⟩ := hs
    cases hnone
  | enqueueRequest => exact hs
  | asyncResolve => exact hs
  | asyncAutoConnect => exact hs
  | asyncRequestWrite => exact hs
  | asyncResponseSizeRead r size =>
    cases size with
    | error => exact hs
    | ok => exact hs
  | asyncResponseRead r response =>
    cases response with
    | error => exact hs
    | ok => exact hs
  | request r e response =>
    cases response with
    | none => exact hs
    | some => exact hs

/-- While a connection is made, its making is all that goes on. -/
theorem Core.alone {s : State} {hd : Handler} {rest : List Handler} (hs : Core config x s)
    (hready : s.ready = hd :: rest) (hconnect : hd.token = some .connect) :
    s.connectionState = .connecting ∧ x = ⟨[], [], [], []⟩ ∧ s.pending = [] ∧
      rest.filterMap Handler.token = [] := by
  have htokens : s.tokens.Perm (.connect :: State.tokens { s with ready := rest }) := by
    have hrun := State.tokens_run hready
    rw [hconnect] at hrun
    exact hrun
  obtain ⟨hconnecting, hempty, hnil⟩ := hs.connect htokens
  obtain ⟨hpending, hrest⟩ := List.append_eq_nil_iff.mp hnil
  exact ⟨hconnecting, hempty, List.map_eq_nil_iff.mp hpending, hrest⟩

/-- The address was found. -/
theorem Core.startConnect {s : State} {rest : List Handler} (hs : Core config x s)
    (hready : s.ready = .asyncResolve none :: rest) :
    Core config x (State.startConnect { s with ready := rest }) ∧
      Attended (State.startConnect { s with ready := rest }) := by
  obtain ⟨hconnecting, hempty, hpending, hrest⟩ := hs.alone hready rfl
  have hstart : State.startConnect { s with ready := rest } =
      { s with ready := rest, up := false, pending := [.connect] } := by
    unfold State.startConnect
    dsimp only
    rw [hpending, List.filter_nil, List.filter_nil, List.map_nil, List.append_nil,
      List.nil_append]
  rw [hstart]
  refine ⟨⟨fun h hh => ?_, fun hconnected => ?_, ?_, hs.idle, hs.writing, hs.reading, hs.order,
    hs.called⟩, fun _ => .inl hconnecting⟩
  · have hsound := hs.sound h (by rw [hready]; exact List.mem_cons_of_mem _ hh)
    exact hsound.offline (List.filterMap_eq_nil_iff.mp hrest h hh)
  · rw [hconnecting] at hconnected
    cases hconnected
  · unfold State.tokens Shape.tokens
    dsimp only
    rw [hrest, hempty, if_pos hconnecting]
    exact List.Perm.refl _

/-- The connection was made. -/
theorem Core.connectDone {s : State} {rest : List Handler} (hs : Core config x s)
    (hready : s.ready = .asyncConnect none :: rest) :
    Core config x (State.post { s with ready := rest, connectionState := .connected }
      (.asyncAutoConnect none)) := by
  obtain ⟨hconnecting, hempty, hpending, hrest⟩ := hs.alone hready rfl
  have hup : s.up = true :=
    (hs.sound (.asyncConnect none) (by rw [hready]; exact List.mem_cons_self)).2
  have hmade : Core config x { s with ready := rest, connectionState := .connected } := by
    refine ⟨fun h hh => ?_, fun _ => hup, ?_, fun hne => absurd rfl hne, hs.writing, hs.reading,
      hs.order, hs.called⟩
    · have hsound := hs.sound h (by rw [hready]; exact List.mem_cons_of_mem _ hh)
      exact hsound.mono (fun _ => rfl) id (List.prefix_refl _)
    · unfold State.tokens Shape.tokens
      dsimp only
      rw [hpending, hrest, hempty]
      exact List.Perm.refl _
  exact hmade.post ⟨rfl, rfl⟩ rfl

/-- No response is expected for what was written. -/
theorem Core.forget {s : State} {written : List Request}
    (hs : Core config ⟨x.writing, x.reading, x.taking, written⟩ s)
    (hconnected : s.connectionState = .connected)
    (hnone : written.filter Request.responseExpected = []) :
    Core config ⟨x.writing, x.reading, x.taking, []⟩ s := by
  refine ⟨hs.sound, hs.up, hs.tokens, fun hne => absurd hconnected hne, hs.writing, hs.reading, ?_,
    hs.called⟩
  have horder := hs.order
  rw [List.filter_append, hnone, List.nil_append] at horder
  exact horder

/-- Handlers that were called by no failure keep the order. -/
theorem orderly_handle {s t : State} {hd : Handler} {rest : List Handler} (hs : Orderly config s)
    (hready : s.ready = hd :: rest) (hunused : hd = .asyncAutoConnect none → s.writeState = .idle)
    (ht : State.handle config { s with ready := rest } hd = some t) :
    Orderly config t ∧ Keeps s t := by
  obtain ⟨⟨writing, reading, taking, hcore⟩, hattended⟩ := hs
  have hsound := hcore.sound hd (by rw [hready]; exact List.mem_cons_self)
  cases hd with
  | enqueueRequest r =>
    obtain rfl := Option.some.inj ht
    obtain ⟨writing', hcore', hattended'⟩ :=
      (hcore.drop hready rfl).enqueueRequest (hattended.drop hready (by simp)) r
    exact ⟨⟨⟨writing', reading, taking, hcore'⟩, hattended'⟩, by simp [Keeps]⟩
  | asyncResolve e =>
    obtain rfl := Option.some.inj ht
    obtain rfl : e = none := hsound
    obtain ⟨hcore', hattended'⟩ := hcore.startConnect hready
    exact ⟨⟨⟨_, _, _, hcore'⟩, hattended'⟩, le_refl _⟩
  | asyncConnect e =>
    obtain rfl := Option.some.inj ht
    obtain ⟨rfl, -⟩ : e = none ∧ _ := hsound
    refine ⟨⟨⟨_, _, _, hcore.connectDone hready⟩, fun _ => .inr (.inl ?_)⟩, le_refl _⟩
    exact List.mem_append_right _ (List.mem_singleton_self _)
  | asyncAutoConnect e =>
    obtain rfl := Option.some.inj ht
    obtain ⟨rfl, hconnected⟩ : e = none ∧ _ := hsound
    have hdropped := hcore.drop hready rfl
    unfold State.handleAsyncAutoConnect
    dsimp only
    split
    next hqueue => exact ⟨⟨⟨_, _, _, hdropped⟩, fun hne => absurd hqueue hne⟩, le_refl _⟩
    next r queue hqueue =>
      have hsent := hdropped.send hconnected (hunused rfl) r queue
      exact ⟨⟨⟨_, _, _, hsent⟩, fun _ => .inr (.inr (.inl rfl))⟩, by simp [Keeps]⟩
  | asyncRequestWrite r e =>
    obtain rfl := Option.some.inj ht
    obtain rfl : e = none := hsound
    obtain ⟨hconnected, hcore'⟩ := hcore.endWrite hready rfl
    unfold State.handleAsyncRequestWrite
    dsimp only
    split_ifs with hexpected
    · obtain ⟨reading', hread, hattended', hkeeps⟩ :=
        Core.enqueueResponse (x := ⟨[], reading, taking, []⟩) hcore' hconnected hexpected
      exact ⟨⟨⟨_, _, _, hread⟩, hattended'⟩, hkeeps⟩
    · have hnone : [r].filter Request.responseExpected = [] := by simp [hexpected]
      have hforgot := Core.forget (x := ⟨[], reading, taking, []⟩) hcore' hconnected hnone
      obtain ⟨writing', hnext, hattended'⟩ :=
        (hforgot.post (h := .request r none none) trivial rfl).nextRequest hconnected
      exact ⟨⟨⟨_, _, _, hnext⟩, hattended'⟩, by simp [Keeps, State.post]⟩
  | asyncResponseSizeRead r size =>
    cases size with
    | error e => exact hsound.elim
    | ok n =>
      obtain ⟨hpos, hlt⟩ : 0 ≤ n ∧ n < config.messageMaxBytes := hsound
      simp only [State.handle, State.handleAsyncResponseSizeRead] at ht
      rw [if_neg (by omega), if_neg (by omega)] at ht
      obtain rfl := Option.some.inj ht
      refine ⟨⟨⟨_, _, _, hcore.readOn hready⟩, ?_⟩, by simp [Keeps]⟩
      exact (hattended.drop hready (by simp)).start _
  | asyncResponseRead r response =>
    cases response with
    | error e => exact hsound.elim
    | ok response =>
      obtain rfl := Option.some.inj ht
      obtain ⟨hconnected, hplace, hcore'⟩ := hcore.endRead hready
      unfold State.handleAsyncResponseRead
      dsimp only
      have hposted := hcore'.post
        (h := .request r response.error (if response.error = none then some response else none))
        (by split_ifs; exacts [hplace, trivial]) rfl
      obtain ⟨writing', hnext, hattended'⟩ := hposted.nextRequest hconnected
      exact ⟨⟨⟨_, _, _, hnext⟩, hattended'⟩, by simp [Keeps, State.post]⟩
  | request r e response =>
    obtain rfl := Option.some.inj ht
    have hdropped := hcore.drop hready rfl
    refine ⟨⟨⟨_, _, _, hdropped.sound, hdropped.up, hdropped.tokens, hdropped.idle,
      hdropped.writing, hdropped.reading, hdropped.order, ?_⟩, hattended.drop hready (by simp)⟩,
      le_refl _⟩
    intro call hcall p hp
    rcases List.mem_append.mp hcall with hcall | hcall
    · exact hdropped.called call hcall p hp
    · rw [List.mem_singleton.mp hcall] at hp ⊢
      obtain rfl : response = some p := hp
      exact hsound

/-- An operation other than a read of a response ends. -/
theorem Core.complete {s : State} {op : Operation} {hd : Handler} {before after : List Operation}
    {up : Bool} (hs : Core config x s) (hpending : s.pending = before ++ op :: after)
    (htoken : hd.token = some op.token) (hup : s.up = true → up = true)
    (hsound : hd.Sound config s.connectionState up s.took) :
    Core config x
      { s with up := up, pending := before ++ after, ready := s.ready ++ [hd] } := by
  obtain ⟨ts, hbefore, hafter⟩ := State.tokens_complete hpending hd up s.took
  rw [htoken] at hafter
  refine ⟨fun h hh => ?_, fun hconnected => hup (hs.up hconnected), ?_, hs.idle, hs.writing,
    hs.reading, hs.order, hs.called⟩
  · rcases List.mem_append.mp hh with hh | hh
    · exact (hs.sound h hh).mono id hup (List.prefix_refl _)
    · rw [List.mem_singleton.mp hh]
      exact hsound
  · exact hafter.trans (hbefore.symm.trans hs.tokens)

/-- A response was read, for the request that is the next to have one. -/
theorem Core.take {s : State} {r : Request} {error : Option ErrorCode}
    {before after : List Operation} (hs : Core config x s)
    (hpending : s.pending = before ++ .read r :: after) :
    Core config { x with reading := [], taking := [r] }
      { s with
        pending := before ++ after
        ready := s.ready ++ [.asyncResponseRead r (.ok ⟨s.took.length, error⟩)]
        took := s.took ++ [r] } := by
  obtain ⟨ts, hbefore, hafter⟩ := State.tokens_complete hpending
    (.asyncResponseRead r (.ok ⟨s.took.length, error⟩)) s.up (s.took ++ [r])
  have hone := hs.reading.trans_le (load_le_one _)
  obtain ⟨hreading, hperm⟩ := perm_read (hbefore.symm.trans hs.tokens) (by omega)
  have htaking : x.taking = [] := by
    rw [hreading, List.length_singleton] at hone
    exact List.eq_nil_of_length_eq_zero (by omega)
  have hconnected : s.connectionState = .connected :=
    hs.connected (.inr (.inl (by simp [hreading])))
  refine ⟨fun h hh => ?_, hs.up, ?_, fun hne => absurd hconnected hne, hs.writing, ?_, ?_, ?_⟩
  · rcases List.mem_append.mp hh with hh | hh
    · exact (hs.sound h hh).mono id id (List.prefix_append _ _)
    · rw [List.mem_singleton.mp hh]
      show (s.took ++ [r])[s.took.length]? = some r
      exact List.getElem?_concat_length
  · have hadd := perm_addTaken (x := { x with reading := [] }) htaking r s.connectionState
    exact hafter.trans ((hperm.cons _).trans hadd)
  · have hload := hs.reading
    rw [hreading, htaking] at hload
    exact hload
  · have horder := hs.order
    rw [hreading] at horder
    show s.took ++ [r] ++ [] ++ _ ++ _ = _
    rw [List.append_nil]
    exact horder
  · intro call hcall p hp
    have hplace := hs.called call hcall p hp
    show (s.took ++ [r])[p.place]? = _
    rw [List.getElem?_append_left (List.getElem?_eq_some_iff.mp hplace).1]
    exact hplace

/-- What does not fail is the end of the read of a response, or leaves to the handler what
went on before. -/
theorem handler_of_clean {s : State} {place : ℕ} {op : Operation} {o : Outcome} {hd : Handler}
    (hhd : op.handler place o = some hd) (hclean : Clean config s (.complete op o)) :
    (∃ r error, op = .read r ∧ o = .response error ∧
      hd = .asyncResponseRead r (.ok ⟨place, error⟩)) ∨
    hd.token = some op.token ∧ op.taken o = [] ∧ ∀ c up took,
      hd.Sound config c (up || (op = .connect && o = .success)) took := by
  cases op <;> cases o <;>
    simp only [Operation.handler, Option.some.injEq, reduceCtorEq] at hhd <;> subst hhd
  all_goals try exact hclean.elim
  case resolve.success => exact .inr ⟨rfl, rfl, fun c up took => rfl⟩
  case connect.success => exact .inr ⟨rfl, rfl, fun c up took => ⟨rfl, by simp⟩⟩
  case write.success => exact .inr ⟨rfl, rfl, fun c up took => rfl⟩
  case readSize.size => exact .inr ⟨rfl, rfl, fun c up took => hclean⟩
  case read.response r error => exact .inl ⟨r, error, rfl, rfl, rfl⟩

theorem Attended.complete {s : State} (hs : Attended s) (up : Bool) (ops : List Operation)
    (hd : Handler) (took : List Request) :
    Attended { s with up := up, pending := ops, ready := s.ready ++ [hd], took := took } :=
  hs.post hd

theorem orderly_step {s t : State} {l : Label} (hs : Orderly config s) (hl : Clean config s l)
    (h : step config s l = some t) : Orderly config t ∧ Keeps s t := by
  have ⟨⟨writing, reading, taking, hcore⟩, hattended⟩ := hs
  rcases step_cases h with ⟨r, -, rfl⟩ | ⟨op, o, hd, before, after, rfl, hhd, hpending, rfl⟩ |
    ⟨rfl, -⟩ | ⟨hd, rest, rfl, hready, ht⟩
  · have hposted := hcore.post (h := .enqueueRequest r) trivial rfl
    refine ⟨⟨⟨_, _, _, hposted.sound, hposted.up, hposted.tokens, hposted.idle, hposted.writing,
      hposted.reading, hposted.order, hposted.called⟩, hattended.post _⟩, le_refl _⟩
  · refine ⟨⟨?_, hattended.complete _ _ hd _⟩, le_refl _⟩
    rcases handler_of_clean hhd hl with ⟨r, error, rfl, rfl, rfl⟩ | ⟨htoken, htaken, hsound⟩
    · have hup : (s.up || (decide (Operation.read r = .connect) &&
        decide (Outcome.response error = .success))) = s.up := by simp
      rw [hup]
      exact ⟨_, _, _, hcore.take hpending⟩
    · rw [htaken, List.append_nil]
      exact ⟨_, _, _, hcore.complete hpending htoken (by simp +contextual) (hsound _ _ _)⟩
  · exact hl.elim
  · refine orderly_handle hs hready ?_ ht
    rintro rfl
    exact hl (by rw [State.autoConnected, hready])

theorem orderly_init (config : ConnectionConfiguration) : Orderly config init := by
  refine ⟨⟨[], [], [], ?_, ?_, .refl _, fun _ => rfl, rfl, rfl, rfl, ?_⟩, fun hne => absurd rfl hne⟩
  · exact fun h hh => absurd hh List.not_mem_nil
  · exact fun hconnected => nomatch hconnected
  · exact fun call hcall => absurd hcall List.not_mem_nil

theorem orderly_of_exec {ls : List Label} {s : State}
    (h : Transition.exec (step config) init ls = some s)
    (hclean : Transition.Meets (step config) (Clean config) init ls) : Orderly config s :=
  Transition.exec_invariant_of_meets (fun _ _ _ hs hl ht => (orderly_step hs hl ht).1)
    (orderly_init config) hclean h

/-- As long as nothing fails, the responses are those of the requests in the order in which
they were written: what a handler is called with was read for its request. -/
theorem responses_matched (config : ConnectionConfiguration) (ls : List Label) (s : State)
    (h : Transition.exec (step config) init ls = some s)
    (hclean : Transition.Meets (step config) (Clean config) init ls) :
    s.took <+: s.sent.filter Request.responseExpected ∧
      ∀ call ∈ s.called, ∀ response, call.response = some response →
        (s.sent.filter Request.responseExpected)[response.place]? = some call.request := by
  obtain ⟨⟨writing, reading, taking, hcore⟩, -⟩ := orderly_of_exec h hclean
  have hbegins : s.took <+: s.sent.filter Request.responseExpected := by
    rw [← hcore.order, List.append_assoc, List.append_assoc]
    exact List.prefix_append _ _
  refine ⟨hbegins, fun call hcall response hresponse => ?_⟩
  have hplace := hcore.called call hcall response hresponse
  obtain ⟨more, hmore⟩ := hbegins
  rw [← hmore, List.getElem?_append_left (List.getElem?_eq_some_iff.mp hplace).1]
  exact hplace

/-- Three requests. The second is written while the response of the first is read. -/
def overlap : List Label :=
  firstWrite ++
    [.asyncRequest ⟨3, true⟩, .run, .complete (.write ⟨2, true⟩) .success, .run]

/-- The response of the first is read, the third is written and that of the second is read. -/
def answerTwo : List Label :=
  [.complete (.readSize ⟨1, true⟩) (.size 40), .run, .complete (.read ⟨1, true⟩) (.response none),
    .run, .run, .complete (.write ⟨3, true⟩) .success, .run,
    .complete (.readSize ⟨2, true⟩) (.size 40), .run, .complete (.read ⟨2, true⟩) (.response none),
    .run, .run]

theorem responses_matched_two :
    ∃ s, Transition.exec (step localBroker) init (overlap ++ answerTwo) = some s ∧
      s.called = [⟨⟨1, true⟩, none, some ⟨0, none⟩⟩, ⟨⟨2, true⟩, none, some ⟨1, none⟩⟩] ∧
      s.took <+: s.sent.filter Request.responseExpected ∧
      ∀ call ∈ s.called, ∀ response, call.response = some response →
        (s.sent.filter Request.responseExpected)[response.place]? = some call.request := by
  obtain ⟨s, hs, hcalled⟩ : ∃ s,
      Transition.exec (step localBroker) init (overlap ++ answerTwo) = some s ∧
      s.called = [⟨⟨1, true⟩, none, some ⟨0, none⟩⟩, ⟨⟨2, true⟩, none, some ⟨1, none⟩⟩] :=
    ⟨_, rfl, rfl⟩
  exact ⟨s, hs, hcalled, responses_matched localBroker _ s hs (by decide)⟩

/-- Nothing goes on, and nothing is left to be handled. -/
def Rests (s : State) : Prop := s.ready = [] ∧ s.pending = []

theorem Orderly.rests {s : State} (hs : Orderly config s) (hrests : Rests s) :
    s.writeQueue = [] ∧ s.took ++ s.readQueue = s.sent.filter Request.responseExpected := by
  obtain ⟨⟨writing, reading, taking, hcore⟩, hattended⟩ := hs
  have htokens : Shape.tokens ⟨writing, reading, taking, []⟩ s.connectionState = [] := by
    have hperm := hcore.tokens
    unfold State.tokens at hperm
    rw [hrests.1, hrests.2] at hperm
    exact hperm.nil_eq.symm
  unfold Shape.tokens at htokens
  obtain ⟨hconnecting, hrest⟩ := List.append_eq_nil_iff.mp htokens
  obtain ⟨hwriting, hrest⟩ := List.append_eq_nil_iff.mp hrest
  obtain ⟨hreading, htaking⟩ := List.append_eq_nil_iff.mp hrest
  obtain rfl := List.map_eq_nil_iff.mp hwriting
  obtain rfl := List.map_eq_nil_iff.mp hreading
  obtain rfl := List.map_eq_nil_iff.mp htaking
  refine ⟨?_, ?_⟩
  · by_contra hqueue
    have hwrite := hcore.writing
    have hread := hcore.reading
    rcases hattended hqueue with hstate | hmem | hbusy | hbusy
    · simp [hstate] at hconnecting
    · rw [hrests.1] at hmem
      cases hmem
    · rw [hbusy] at hwrite
      cases hwrite
    · rw [hbusy] at hread
      cases hread
  · have horder := hcore.order
    simpa using horder

/-- As long as nothing fails, the requests that wait for others to be answered never get fewer,
and when all is done those that were written last have no response. -/
theorem unread_stay_unread (config : ConnectionConfiguration) (ls : List Label) (s : State)
    (h : Transition.exec (step config) init ls = some s)
    (hclean : Transition.Meets (step config) (Clean config) init ls) (later : List Label)
    (t : State) (ht : Transition.exec (step config) s later = some t)
    (hlater : Transition.Meets (step config) (Clean config) s later) :
    s.readQueue.length ≤ t.readQueue.length ∧
      (Rests t → t.took ++ t.readQueue = t.sent.filter Request.responseExpected ∧
        t.answered + ↑t.readQueue = ↑t.requested) := by
  have horderly := orderly_of_exec h hclean
  have hkept : ∀ a l b, Orderly config a ∧ Keeps s a → Clean config a l →
      step config a l = some b → Orderly config b ∧ Keeps s b := by
    intro a l b ⟨ha, hsa⟩ hl hb
    obtain ⟨hb', hab⟩ := orderly_step ha hl hb
    exact ⟨hb', Nat.le_trans hsa hab⟩
  obtain ⟨horderly', hlength⟩ :=
    Transition.exec_invariant_of_meets hkept ⟨horderly, Nat.le_refl _⟩ hlater ht
  refine ⟨hlength, fun hrests => ?_⟩
  obtain ⟨hqueue, hread⟩ := horderly'.rests hrests
  have hconserved : Conserved t := Transition.exec_invariant conserved_step
    (Transition.exec_invariant conserved_step (show Conserved init from rfl) h) ht
  refine ⟨hread, ?_⟩
  unfold Conserved State.waiting at hconserved
  rw [hrests.1, hrests.2, hqueue] at hconserved
  rw [← hconserved]
  show _ = 0 + 0 + 0 + (t.readQueue : Multiset Request) + t.answered
  abel

/-- When all is done, the third request was written and has no response. -/
theorem unread_stay_unread_third :
    ∃ s t, Transition.exec (step localBroker) init overlap = some s ∧
      Transition.exec (step localBroker) s answerTwo = some t ∧ Rests t ∧
      s.readQueue = [⟨2, true⟩] ∧ t.readQueue = [⟨3, true⟩] ∧
      s.readQueue.length ≤ t.readQueue.length ∧
      t.took ++ t.readQueue = t.sent.filter Request.responseExpected ∧
      t.answered + ↑t.readQueue = ↑t.requested := by
  obtain ⟨s, t, hs, ht, hrests, hbefore, hafter, hlater⟩ : ∃ s t,
      Transition.exec (step localBroker) init overlap = some s ∧
      Transition.exec (step localBroker) s answerTwo = some t ∧ Rests t ∧
      s.readQueue = [⟨2, true⟩] ∧ t.readQueue = [⟨3, true⟩] ∧
      Transition.Meets (step localBroker) (Clean localBroker) s answerTwo :=
    ⟨_, _, rfl, rfl, ⟨rfl, rfl⟩, rfl, rfl, by decide⟩
  obtain ⟨hlength, hend⟩ := unread_stay_unread localBroker _ s hs (by decide) _ t ht hlater
  exact ⟨s, t, hs, ht, hrests, hbefore, hafter, hlength, hend hrests⟩

end Kafka
end HVBench
