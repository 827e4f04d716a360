import HVBench.Node.HVBenchNode

/-! The negotiation of a version, as the messages a node receives decide it. The test of a
HELLO never fails when any version is supported, and nothing asks for a HELLO before a
FEATURES_REQUEST. -/
namespace HVBench
namespace HVBenchNode
variable (echoXid : EchoXid) (ofsc : OFServerSettings) (datapathId : UInt64)

/-- A HELLO is rejected exactly if its version is not supported, and the connection runs
only after one that was not rejected. -/
def HandshakeSound (msgs : List OFMessage) : Prop :=
  ∀ pre m post, msgs = pre ++ m :: post →
    (m.type = Of10.hello → ¬ ofsc.Supports m.version →
      rejection m ⊆ baseMessageCallback echoXid ofsc datapathId m) ∧
    (m.type = Of10.hello → ofsc.Supports m.version →
      ∀ a ∈ rejection m, a ∉ baseMessageCallback echoXid ofsc datapathId m) ∧
    ((∃ a ∈ baseMessageCallback echoXid ofsc datapathId m, a.runs = true) →
      (∃ h ∈ pre, h.type = Of10.hello ∧ ofsc.Supports h.version) ∧
      ∀ h ∈ pre, .event .failedNegotiation ∉ baseMessageCallback echoXid ofsc datapathId h)

/-- The messages of a controller that speaks a supported version and says so first. -/
def Negotiated (msgs : List OFMessage) : Prop :=
  (∀ m ∈ msgs, m.type = Of10.hello → ofsc.Supports m.version) ∧
  ∀ pre m post, msgs = pre ++ m :: post → m.type = Of10.featuresRequest →
    ∃ h ∈ pre, h.type = Of10.hello ∧ ofsc.Supports h.version

variable {echoXid ofsc datapathId}

/-- A set of versions that is not empty makes every HELLO pass. -/
theorem not_rejected {data : OFMessage} (hmask : ofsc.supportedVersions ≠ 0) :
    ∀ a ∈ rejection data, a ∉ baseMessageCallback echoXid ofsc datapathId data := by
  have hpass := rejectsVersion_eq_false hmask data.version
  intro a ha
  unfold baseMessageCallback finish dispatchDone
  rw [hpass]
  unfold rejection at ha
  simp only [List.mem_cons, List.not_mem_nil, or_false] at ha
  rcases ha with rfl | rfl | rfl | rfl
  all_goals split_ifs <;> simp_all

theorem no_failedNegotiation (hmask : ofsc.supportedVersions ≠ 0) (data : OFMessage) :
    .event .failedNegotiation ∉ baseMessageCallback echoXid ofsc datapathId data :=
  not_rejected hmask _ (by simp [rejection])

/-- The handshake is sound for a controller that negotiates in order, and for no other. -/
theorem handshakeSound_iff (echoXid : EchoXid) (ofsc : OFServerSettings) (datapathId : UInt64)
    (hhandshake : ofsc.handshake = true) (hmask : ofsc.supportedVersions ≠ 0)
    (msgs : List OFMessage) :
    HandshakeSound echoXid ofsc datapathId msgs ↔ Negotiated ofsc msgs := by
  constructor
  · intro hsound
    constructor
    · intro m hm hhello
      by_contra hunsupported
      obtain ⟨pre, post, hsplit⟩ := List.append_of_mem hm
      have hreject := (hsound pre m post hsplit).1 hhello hunsupported
      have hevent : .event .failedNegotiation ∈ rejection m := by simp [rejection]
      exact no_failedNegotiation hmask m (hreject hevent)
    · intro pre m post hsplit hrequest
      have hruns : ∃ a ∈ baseMessageCallback echoXid ofsc datapathId m, a.runs = true := by
        rw [baseMessageCallback_featuresRequest hhandshake hrequest]
        exact ⟨.setState .running, by simp, rfl⟩
      exact ((hsound pre m post hsplit).2.2 hruns).1
  · intro ⟨hhellos, hrequests⟩ pre m post hsplit
    refine ⟨?_, fun _ _ => not_rejected hmask, fun hruns => ?_⟩
    · intro hhello hunsupported
      have hm : m ∈ msgs := by
        rw [hsplit]
        simp
      exact absurd (hhellos m hm hhello) hunsupported
    · have hrequest := featuresRequest_of_runs hruns
      exact ⟨hrequests pre m post hsplit hrequest, fun h _ => no_failedNegotiation hmask h⟩

/-- A node that supports version 1 only. -/
def version1 : OFServerSettings := ⟨1, true, true, false, 15⟩

theorem handshakeSound_version1 :
    HandshakeSound 15 version1 7 [⟨1, Of10.hello, 3, []⟩, ⟨1, Of10.featuresRequest, 4, []⟩] := by
  refine (handshakeSound_iff 15 version1 7 rfl (by decide) _).mpr ⟨by decide, ?_⟩
  intro pre m post hsplit hrequest
  cases pre with
  | nil =>
    obtain ⟨rfl, -⟩ := List.cons.inj hsplit
    revert hrequest
    decide
  | cons h pre =>
    obtain ⟨rfl, -⟩ := List.cons.inj hsplit
    exact ⟨_, List.mem_cons_self, rfl, by decide⟩

/-- A HELLO of version 4 passes. -/
theorem unsupported_hello_accepted :
    ¬ ∀ (echoXid : EchoXid) (ofsc : OFServerSettings) (datapathId : UInt64),
      ofsc.handshake = true → ofsc.supportedVersions ≠ 0 →
      ∀ msgs, HandshakeSound echoXid ofsc datapathId msgs := by
  intro hall
  have hsound := hall 15 version1 7 rfl (by decide) [⟨4, Of10.hello, 3, []⟩]
  have hreject := (hsound [] _ [] rfl).1 rfl (by decide)
  have hclose : Action.close ∈ baseMessageCallback 15 version1 7 ⟨4, Of10.hello, 3, []⟩ :=
    hreject (by simp [rejection])
  revert hclose
  decide

end HVBenchNode
end HVBench
