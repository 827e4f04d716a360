import HVBench.Globals
import Mathlib.Data.List.Nodup

/-! The messages a generator hands to the send loop. -/
namespace HVBench

/-- The classes derived from `AbstractOFMsg`. Its constructor is protected, so each
message belongs to one of them, and the class fixes the type and the reply flag. -/
inductive OFMsgClass
  | featureRequest
  | echoRequest
  | flowMod
  | statsRequestPort
  | statsRequestFlow
  | packetOutUdp
  deriving DecidableEq, Repr

namespace OFMsgClass

/-- The `type` argument each class passes to `AbstractOFMsg`. -/
def type : OFMsgClass → OFPT
  | featureRequest => .featureRequest
  | echoRequest => .echoRequest
  | flowMod => .flowMod
  | statsRequestPort => .statsRequestPort
  | statsRequestFlow => .statsRequestFlow
  | packetOutUdp => .packetOutUdp

/-- The `has_reply` argument each class passes to `AbstractOFMsg`. -/
def hasReply : OFMsgClass → Bool
  | featureRequest => true
  | echoRequest => true
  | flowMod => false
  | statsRequestPort => true
  | statsRequestFlow => true
  | packetOutUdp => false

/-- The classes that await a reply are the ones whose latency is recorded. -/
theorem hasReply_iff (c : OFMsgClass) : c.hasReply = true ↔ c.type ∈ OFPT.latencyTypes := by
  cases c <;> decide

theorem type_mem_reqTypes (c : OFMsgClass) : c.type ∈ OFPT.reqTypes := by
  cases c <;> decide

end OFMsgClass

/-- `AbstractOFMsg`, without the packed bytes. -/
structure OFMsg where
  cls : OFMsgClass
  xid : UInt32
  pktLen : ℕ
  deriving DecidableEq, Repr

def OFMsg.type (m : OFMsg) : OFPT := m.cls.type

def OFMsg.hasReply (m : OFMsg) : Bool := m.cls.hasReply

section
variable (pktLen : OFMsgClass → ℕ)

/-- The functions `gen`. The length of a packed message comes from the message library. -/
def OFMsgClass.gen (c : OFMsgClass) (xid : UInt32) : OFMsg := ⟨c, xid, pktLen c⟩

/-- `AbstractOFMsgFactory`. Each factory derived from it makes messages of one class. -/
structure OFMsgFactory where
  cls : OFMsgClass
  cnt : UInt32
  deriving DecidableEq, Repr

def OFMsgFactory.alloc (cls : OFMsgClass) : OFMsgFactory := ⟨cls, 0⟩

/-- `make`, the same in all of them. -/
def OFMsgFactory.make (f : OFMsgFactory) : OFMsg × OFMsgFactory :=
  (f.cls.gen pktLen (f.cnt + 1), { f with cnt := f.cnt + 1 })

end

/-- `get_message_factory`. -/
def getMessageFactory (name : StdString) : OFMsgFactory :=
  if name = "FEATURE_REQUEST".toList then .alloc .featureRequest
  else if name = "ECHO_REQUEST".toList then .alloc .echoRequest
  else if name = "STATS_REQUEST_PORT".toList then .alloc .statsRequestPort
  else if name = "STATS_REQUEST_FLOW".toList then .alloc .statsRequestFlow
  else if name = "PACKET_OUT_UDP".toList then .alloc .packetOutUdp
  else if name = "FLOW_MOD".toList then .alloc .flowMod
  else .alloc .echoRequest

theorem getMessageFactory_cnt (name : StdString) : (getMessageFactory name).cnt = 0 := by
  unfold getMessageFactory
  split_ifs <;> rfl

/-- The xids of the first `n` messages of one counter. -/
def firstXids (n : ℕ) : List UInt32 := (List.range n).map fun i => UInt32.ofNat (i + 1)

theorem firstXids_succ (n : ℕ) : firstXids (n + 1) = firstXids n ++ [.ofNat (n + 1)] := by
  unfold firstXids
  rw [List.range_succ, List.map_append]
  rfl

theorem nodup_firstXids {n : ℕ} (hn : n < UInt32.size) : (firstXids n).Nodup := by
  unfold firstXids
  apply List.Nodup.map_on ?_ List.nodup_range
  intro i hi j hj heq
  have hnat := congrArg UInt32.toNat heq
  simp only [UInt32.toNat_ofNat', List.mem_range] at hnat hi hj
  unfold UInt32.size at hn
  omega

/-- `ScheduledMsg`. -/
structure ScheduledMsg where
  timeNs : TimePoint
  ofMsg : OFMsg
  deriving DecidableEq, Repr

/-- `_awaits_reply`, which the constructor copies from the message. -/
def ScheduledMsg.awaitsReply (m : ScheduledMsg) : Bool := m.ofMsg.hasReply

end HVBench
