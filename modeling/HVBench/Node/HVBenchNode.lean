import HVBench.Controller.Connection

/-! A node answers the messages of a controller. What it does depends on the settings and
the message alone, never on the state of the connection. -/
namespace HVBench
namespace HVBenchNode

/-- `OFServerSettings`. Bit `v - 1` of the mask stands for version `v`. -/
structure OFServerSettings where
  supportedVersions : UInt8
  livenessCheck : Bool
  handshake : Bool
  dispatchAllMessages : Bool
  /-- In seconds. -/
  echoInterval : ℕ
  deriving DecidableEq, Repr

/-- A received OpenFlow message: the fields of its header that are read, and the rest. -/
structure OFMessage where
  version : UInt8
  type : UInt8
  xid : UInt32
  payload : List UInt8
  deriving DecidableEq, Repr

namespace Of10

/-- `OFPT_HELLO`. -/
def hello : UInt8 := 0

/-- `OFPT_ECHO_REQUEST`. -/
def echoRequest : UInt8 := 2

/-- `OFPT_ECHO_REPLY`. -/
def echoReply : UInt8 := 3

/-- `OFPT_FEATURES_REQUEST`. -/
def featuresRequest : UInt8 := 5

/-- `OFPET_HELLO_FAILED`. -/
def helloFailed : UInt16 := 0

/-- `OFPHFC_INCOMPATIBLE`. -/
def incompatible : UInt16 := 0

end Of10

/-- The messages a node sends. -/
inductive Outgoing
  | echoReply (version : UInt8) (xid : UInt32)
  | echoRequest (version : UInt8) (xid : UInt32)
  | error (version : UInt8) (xid : UInt32) (type code : UInt16)
  | featuresReply (xid : UInt32) (datapathId : UInt64) (nBuffers : UInt32) (nTables : UInt8)
      (capabilities actions : UInt32)
  deriving DecidableEq, Repr

inductive ConnState
  | handshake
  | running
  | failed
  deriving DecidableEq, Repr

/-- What the callbacks of a node do to its connection. -/
inductive Action
  | send (msg : Outgoing)
  | close
  | setState (state : ConnState)
  | setVersion (version : UInt8)
  | setAlive (alive : Bool)
  /-- `add_timed_callback(send_echo, interval)`, in milliseconds. -/
  | addTimedCallback (interval : ℕ)
  /-- `connection_callback`. -/
  | event (type : Event)
  /-- `message_callback`. -/
  | dispatch
  | freeData
  deriving DecidableEq, Repr

/-- The `int` that `not mask` gives. -/
def logicalNot (mask : UInt8) : UInt32 := if mask = 0 then 1 else 0

/-- `1 << (version - 1)`. The machine takes the count modulo 32, where C++ leaves it
undefined. -/
def versionBit (version : UInt8) : UInt32 := 1 <<< (version.toUInt32 - 1)

/-- The test of a HELLO, in which `not` binds tighter than `&`. -/
def rejectsVersion (ofsc : OFServerSettings) (version : UInt8) : Bool :=
  logicalNot ofsc.supportedVersions &&& versionBit version ≠ 0

/-- The version is in the set the mask stands for. -/
def OFServerSettings.Supports (ofsc : OFServerSettings) (version : UInt8) : Prop :=
  1 ≤ version.toNat ∧ version.toNat ≤ 8 ∧
    ofsc.supportedVersions.toNat.testBit (version.toNat - 1) = true

instance (ofsc : OFServerSettings) (version : UInt8) : Decidable (ofsc.Supports version) :=
  inferInstanceAs (Decidable (_ ∧ _))

/-- `dispatch:` and `done:`. -/
def dispatchDone : List Action := [.dispatch, .freeData]

/-- `if (ofsc.dispatch_all_messages()) goto dispatch; else goto done;`. -/
def finish (ofsc : OFServerSettings) : List Action :=
  if ofsc.dispatchAllMessages then dispatchDone else [.freeData]

/-- What a HELLO with the wrong version is answered with. -/
def rejection (data : OFMessage) : List Action :=
  [.send (.error data.version data.xid Of10.helloFailed Of10.incompatible), .close,
    .setState .failed, .event .failedNegotiation]

/-- The xid of the node's own echo requests, a constant of libfluid. -/
abbrev EchoXid := UInt32

def baseMessageCallback (echoXid : EchoXid) (ofsc : OFServerSettings) (datapathId : UInt64)
    (data : OFMessage) : List Action :=
  if ofsc.livenessCheck ∧ data.type = Of10.echoRequest then
    [.send (.echoReply data.version data.xid)] ++ finish ofsc
  else if ofsc.handshake ∧ data.type = Of10.hello then
    (if rejectsVersion ofsc data.version then rejection data else []) ++ finish ofsc
  else if ofsc.livenessCheck ∧ data.type = Of10.echoReply then
    (if data.xid = echoXid then [.setAlive true] else []) ++ finish ofsc
  else if ofsc.handshake ∧ data.type = Of10.featuresRequest then
    [.setVersion data.version, .setState .running,
      .send (.featuresReply data.xid datapathId 1 1 0 0)] ++
    (if ofsc.livenessCheck then [.addTimedCallback (ofsc.echoInterval * 1000)] else []) ++
    [.event .established] ++ dispatchDone
  else dispatchDone

/-- `send_echo`, on a connection with this version and `is_alive`. -/
def sendEcho (echoXid : EchoXid) (version : UInt8) (alive : Bool) : List Action :=
  if !alive then [.close, .event .dead]
  else [.setAlive false, .send (.echoRequest version echoXid)]

/-- No set of versions makes the test reject one, except the empty set. -/
theorem rejectsVersion_eq_false {ofsc : OFServerSettings} (h : ofsc.supportedVersions ≠ 0)
    (version : UInt8) : rejectsVersion ofsc version = false := by
  have hnot : logicalNot ofsc.supportedVersions = 0 := by
    unfold logicalNot
    rw [if_neg h]
  unfold rejectsVersion
  rw [hnot, UInt32.zero_and]
  rfl

theorem baseMessageCallback_featuresRequest {echoXid : EchoXid} {ofsc : OFServerSettings}
    {datapathId : UInt64} {data : OFMessage} (hh : ofsc.handshake = true)
    (ht : data.type = Of10.featuresRequest) :
    baseMessageCallback echoXid ofsc datapathId data =
      [.setVersion data.version, .setState .running,
        .send (.featuresReply data.xid datapathId 1 1 0 0)] ++
      (if ofsc.livenessCheck then [.addTimedCallback (ofsc.echoInterval * 1000)] else []) ++
      [.event .established] ++ dispatchDone := by
  unfold baseMessageCallback
  rw [ht, if_neg (by simp [Of10.featuresRequest, Of10.echoRequest]),
    if_neg (by simp [Of10.featuresRequest, Of10.hello]),
    if_neg (by simp [Of10.featuresRequest, Of10.echoReply]), if_pos ⟨hh, rfl⟩]

/-- The action takes the connection to `STATE_RUNNING` or sends a FEATURES_REPLY. -/
def Action.runs : Action → Bool
  | .setState .running => true
  | .send (.featuresReply _ _ _ _ _ _) => true
  | _ => false

/-- Only a FEATURES_REQUEST makes a connection run. -/
theorem featuresRequest_of_runs {echoXid : EchoXid} {ofsc : OFServerSettings}
    {datapathId : UInt64} {data : OFMessage}
    (h : ∃ a ∈ baseMessageCallback echoXid ofsc datapathId data, a.runs = true) :
    data.type = Of10.featuresRequest := by
  by_contra hne
  unfold baseMessageCallback finish dispatchDone rejection at h
  rw [if_neg (fun hf : _ ∧ data.type = Of10.featuresRequest => hne hf.2)] at h
  split_ifs at h
  all_goals simp [Action.runs] at h

end HVBenchNode
end HVBench
