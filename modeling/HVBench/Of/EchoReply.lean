import HVBench.Node.HVBenchNode

/-! How the two endpoints answer an ECHO_REQUEST, down to the bytes on the wire. -/
namespace HVBench
open HVBenchNode

namespace Wire

/-- `htons`. -/
def be16 (n : ℕ) : List UInt8 := [.ofNat (n / 256), .ofNat n]

/-- `htonl`. -/
def be32 (x : UInt32) : List UInt8 :=
  [.ofNat (x.toNat / 16777216), .ofNat (x.toNat / 65536), .ofNat (x.toNat / 256), .ofNat x.toNat]

/-- The header with the length of the message, and the rest of it. -/
def pack (m : OFMessage) : List UInt8 :=
  [m.version, m.type] ++ be16 (8 + m.payload.length) ++ be32 m.xid ++ m.payload

/-- What a receiver reads. The length has to be that of the message. -/
def unpack : List UInt8 → Option OFMessage
  | version :: type :: l₁ :: l₀ :: x₃ :: x₂ :: x₁ :: x₀ :: payload =>
    if l₁.toNat * 256 + l₀.toNat = 8 + payload.length then
      some
        { version := version
          type := type
          xid := .ofNat
            (x₃.toNat * 16777216 + x₂.toNat * 65536 + x₁.toNat * 256 + x₀.toNat)
          payload := payload }
    else none
  | _ => none

theorem toNat_be16 {n : ℕ} (h : n < 65536) :
    (UInt8.ofNat (n / 256)).toNat * 256 + (UInt8.ofNat n).toNat = n := by
  simp only [UInt8.toNat_ofNat']
  omega

theorem toNat_be32 {n : ℕ} (h : n < 4294967296) :
    (UInt8.ofNat (n / 16777216)).toNat * 16777216 + (UInt8.ofNat (n / 65536)).toNat * 65536 +
      (UInt8.ofNat (n / 256)).toNat * 256 + (UInt8.ofNat n).toNat = n := by
  simp only [UInt8.toNat_ofNat']
  omega

/-- A message survives the wire if its length fits into the header. -/
theorem unpack_pack (m : OFMessage) (h : m.payload.length ≤ 65527) : unpack (pack m) = some m := by
  have hlength := toNat_be16 (show 8 + m.payload.length < 65536 by omega)
  have hxid := toNat_be32 m.xid.toNat_lt
  simp only [pack, be16, be32, List.cons_append, List.nil_append, unpack, if_pos hlength, hxid,
    UInt32.ofNat_toNat]

end Wire

open Wire

/-- The eight bytes that the node writes into `msg`, from the bytes `data` it received. -/
def HVBenchNode.echoReply (data : List UInt8) : List UInt8 :=
  [data.getD 0 0, Of10.echoReply] ++ be16 8 ++ (data.drop 4).take 4

/-- The bytes of the ECHO_REPLY an action of the node sends, if it sends one. -/
def HVBenchNode.Action.echoReply? (data : List UInt8) : Action → Option (List UInt8)
  | .send (.echoReply _ _) => some (HVBenchNode.echoReply data)
  | _ => none

/-- `fluid_msg::of10::EchoReply`, packed. -/
def fluidEchoReply (xid : UInt32) (data : List UInt8) : List UInt8 :=
  pack ⟨1, Of10.echoReply, xid, data⟩

/-- The replies of `HVBenchController::message_callback`. No data is set. -/
def controllerEchoReplies (alive : Bool) (req : OFMessage) : List (List UInt8) :=
  if req.type = Of10.echoRequest then
    if alive then [fluidEchoReply 0 []] else []
  else []

inductive Endpoint
  | controller (alive : Bool)
  | node (echoXid : EchoXid) (ofsc : OFServerSettings) (datapathId : UInt64)

namespace Endpoint

/-- The connection is live, or liveness checking is on. -/
def Answers : Endpoint → Prop
  | controller alive => alive = true
  | node _ ofsc _ => ofsc.livenessCheck = true

/-- The ECHO_REPLY messages sent for a message. -/
def echoReplies (req : OFMessage) : Endpoint → List (List UInt8)
  | controller alive => controllerEchoReplies alive req
  | node echoXid ofsc datapathId =>
    (baseMessageCallback echoXid ofsc datapathId req).filterMap (Action.echoReply? (pack req))

/-- What the endpoint does not copy is what the request does not have. -/
def Copied (req : OFMessage) : Endpoint → Prop
  | controller _ => req.xid = 0 ∧ req.payload = []
  | node _ _ _ => req.payload = []

end Endpoint

/-- One ECHO_REPLY was sent, and its receiver reads the xid and the payload of the
request. -/
def FaithfulReply (req : OFMessage) (sent : List (List UInt8)) : Prop :=
  ∃ bytes reply, sent = [bytes] ∧ unpack bytes = some reply ∧
    reply.type = Of10.echoReply ∧ reply.xid = req.xid ∧ reply.payload = req.payload

/-- The raw writes make a reply with the xid of the request and without a payload. -/
theorem echoReply_pack (req : OFMessage) :
    HVBenchNode.echoReply (pack req) = pack ⟨req.version, Of10.echoReply, req.xid, []⟩ := by
  rfl

theorem faithfulReply_singleton {req m : OFMessage} (hm : m.payload.length ≤ 65527)
    (htype : m.type = Of10.echoReply) :
    FaithfulReply req [pack m] ↔ m.xid = req.xid ∧ m.payload = req.payload := by
  constructor
  · rintro ⟨bytes, reply, hsent, hunpack, -, hxid, hpayload⟩
    obtain rfl := (List.cons.inj hsent).1
    obtain rfl := Option.some.inj ((unpack_pack m hm).symm.trans hunpack)
    exact ⟨hxid, hpayload⟩
  · rintro ⟨hxid, hpayload⟩
    exact ⟨pack m, m, rfl, unpack_pack m hm, htype, hxid, hpayload⟩

/-- The node sends one reply. Neither `dispatch` nor the end of the handler sends another. -/
theorem echoReplies_node {echoXid : EchoXid} {ofsc : OFServerSettings} {datapathId : UInt64}
    {req : OFMessage} (hlive : ofsc.livenessCheck = true) (hreq : req.type = Of10.echoRequest) :
    (Endpoint.node echoXid ofsc datapathId).echoReplies req =
      [pack ⟨req.version, Of10.echoReply, req.xid, []⟩] := by
  simp only [Endpoint.echoReplies, baseMessageCallback]
  rw [if_pos ⟨hlive, hreq⟩, ← echoReply_pack]
  unfold finish dispatchDone
  split_ifs <;> rfl

/-- The reply to an ECHO_REQUEST is faithful if and only if the request carries nothing
that the endpoint does not copy: no payload, and for the controller no xid either. -/
theorem faithfulReply_iff (e : Endpoint) (he : e.Answers) (req : OFMessage)
    (hreq : req.type = Of10.echoRequest) :
    FaithfulReply req (e.echoReplies req) ↔ e.Copied req := by
  cases e with
  | controller alive =>
    obtain rfl : alive = true := he
    have hsent : (Endpoint.controller true).echoReplies req =
        [pack ⟨1, Of10.echoReply, 0, []⟩] := by
      simp only [Endpoint.echoReplies, controllerEchoReplies]
      rw [if_pos hreq]
      rfl
    rw [hsent, faithfulReply_singleton (by decide) rfl]
    exact ⟨fun h => ⟨h.1.symm, h.2.symm⟩, fun h => ⟨h.1.symm, h.2.symm⟩⟩
  | node echoXid ofsc datapathId =>
    rw [echoReplies_node he hreq, faithfulReply_singleton (by simp) rfl]
    exact ⟨fun h => h.2.symm, fun h => ⟨rfl, h.symm⟩⟩

/-- A request without a payload, which the controller answers as it should where its xid is 0. -/
theorem faithfulReply_empty :
    FaithfulReply ⟨1, Of10.echoRequest, 7, []⟩
        ((Endpoint.node 0 ⟨1, true, true, false, 120⟩ 5).echoReplies
          ⟨1, Of10.echoRequest, 7, []⟩) ∧
      FaithfulReply ⟨1, Of10.echoRequest, 0, []⟩
        ((Endpoint.controller true).echoReplies ⟨1, Of10.echoRequest, 0, []⟩) := by
  have hlive : (Endpoint.node 0 ⟨1, true, true, false, 120⟩ 5).Answers := rfl
  have halive : (Endpoint.controller true).Answers := rfl
  exact ⟨(faithfulReply_iff _ hlive _ rfl).mpr rfl,
    (faithfulReply_iff _ halive _ rfl).mpr ⟨rfl, rfl⟩⟩

/-- The controller answers the request 7 with the xid 0. -/
theorem echo_xid_lost :
    ¬ ∀ (e : Endpoint) req, e.Answers → req.type = Of10.echoRequest →
      FaithfulReply req (e.echoReplies req) := by
  intro h
  have hlive : (Endpoint.controller true).Answers := rfl
  have hfaithful : FaithfulReply ⟨1, Of10.echoRequest, 7, [42]⟩ [pack ⟨1, Of10.echoReply, 0, []⟩] :=
    h (.controller true) ⟨1, Of10.echoRequest, 7, [42]⟩ hlive rfl
  have hcopied := (faithfulReply_singleton (by decide) rfl).mp hfaithful
  exact absurd hcopied.1 (by decide)

end HVBench
