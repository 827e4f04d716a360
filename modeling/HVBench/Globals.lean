import Mathlib.Data.Int.Notation
import Mathlib.Data.List.Basic
import Mathlib.Tactic.Common

/-! Constants the components share: the OpenFlow message types of `globals.h` and the
etcd paths of `conf.h`. -/
namespace HVBench

/-- Characters of a `std::string`. -/
abbrev StdString := List Char

instance : LawfulBEq StdString := inferInstance

/-- `OFPT_T`. A `static_cast` can also give a value that no enumerator names. -/
inductive OFPT
  | packetIn
  | featuresReply
  | echoRequest
  | statsReply
  | echoReply
  | hello
  | error
  | portStatus
  | featureRequest
  | statsRequestPort
  | statsRequestFlow
  | statsRequest
  | packetOutUdp
  | flowMod
  | ofptUnknown
  | unnamed (value : ℕ)
  deriving DecidableEq, Repr

namespace OFPT

/-- `STR.at`, which throws where this is `none`. -/
def str : OFPT → Option StdString
  | packetOutUdp => some "PACKET_OUT_UDP".toList
  | echoRequest => some "ECHO_REQUEST".toList
  | featureRequest => some "FEATURE_REQUEST".toList
  | statsRequest => some "STATS_REQUEST".toList
  | flowMod => some "FLOW_MOD".toList
  | statsRequestPort => some "STATS_REQUEST_PORT".toList
  | statsRequestFlow => some "STATS_REQUEST_FLOW".toList
  | _ => none

/-- `RSTR.find`. -/
def rstr (name : StdString) : Option OFPT :=
  if name = "PACKET_OUT_UDP".toList then some packetOutUdp
  else if name = "ECHO_REQUEST".toList then some echoRequest
  else if name = "FEATURE_REQUEST".toList then some featureRequest
  else if name = "STATS_REQUEST".toList then some statsRequest
  else if name = "FLOW_MOD".toList then some flowMod
  else if name = "STATS_REQUEST_PORT".toList then some statsRequestPort
  else if name = "STATS_REQUEST_FLOW".toList then some statsRequestFlow
  else none

def reqTypes : List OFPT :=
  [featureRequest, echoRequest, statsRequestPort, statsRequestFlow, packetOutUdp, flowMod]

def latencyTypes : List OFPT :=
  [featureRequest, echoRequest, statsRequestPort, statsRequestFlow]

/-- The two name tables are inverse to each other. -/
theorem rstr_str {t : OFPT} {name : StdString} (h : t.str = some name) :
    rstr name = some t := by
  cases t <;> simp only [str, Option.some.injEq, reduceCtorEq] at h <;> subst h <;> rfl

theorem str_rstr {name : StdString} {t : OFPT} (h : rstr name = some t) :
    t.str = some name := by
  unfold rstr at h
  split_ifs at h with h₁ h₂ h₃ h₄ h₅ h₆ h₇ <;> obtain rfl := Option.some.inj h <;>
    simp_all only [str]

theorem str_isSome_of_mem_reqTypes {t : OFPT} (h : t ∈ reqTypes) : t.str.isSome := by
  simp only [reqTypes, List.mem_cons, List.not_mem_nil, or_false] at h
  rcases h with rfl | rfl | rfl | rfl | rfl | rfl <;> rfl

theorem latencyTypes_subset_reqTypes : latencyTypes ⊆ reqTypes := by
  decide

end OFPT

/-- `c_etcd_pbase`. -/
def etcdBase : StdString := "/hvbench".toList

/-- `c_etcd_phvbench`. -/
def etcdHvbench : StdString := etcdBase ++ "/instances".toList

/-- `c_etcd_ptenants_conf`. -/
def etcdTenantsConf : StdString := etcdBase ++ "/tenants".toList

/-- `c_etcd_pnodes_conf`. -/
def etcdNodesConf : StdString := etcdBase ++ "/nodes/conf".toList

/-- `time_point_t`, in nanoseconds since the epoch of `clock_source`. -/
abbrev TimePoint := ℤ

end HVBench
