import HVBench.Etcd.Reply
import HVBench.Generators.TenantGenerator

/-! What tenants and nodes read from etcd before they run. -/
namespace HVBench
open Etcd StdString

/-- The values below the directories of the tenants and nodes. A directory has the value
`[]`, a key that does not exist has none. -/
abbrev Store := StdString → Option StdString

/-- `etcd_get` of an absolute path. A missing key is answered with error 100. -/
def Store.get (store : Store) (path : StdString) : Except Thrown StdString :=
  match store path with
  | some value => .ok value
  | none => .error (.replyException 100)

/-- The result of a `lexical_cast`, which throws where there is none. -/
def castResult {α : Type} : Option α → Except Thrown α
  | some value => .ok value
  | none => .error .exception

section
variable {F : Type} (cast : LexicalCast F)

/-- What a generator is built from. -/
inductive GeneratorSetup (F : Type)
  | constant (avgRate : UInt32) (msgT : StdString)
  | tenant (avgRate : UInt32) (ofTypes : List OFPT) (weights : List F)
  deriving DecidableEq, Repr

/-- The constructor of `ConstantGenerator`. -/
def constantSetup (store : Store) (basep : StdString) : Except Thrown (GeneratorSetup F) := do
  let rate ← store.get (join basep "avg_rate".toList)
  let avgRate ← castResult (cast.uint32 rate)
  let msgT ← store.get (join basep "msg_t".toList)
  pure (.constant avgRate msgT)

/-- One pass of the loop over `msg_types`. -/
def weightSetup (store : Store) (basep : StdString) (e : OFPT) : Except Thrown F := do
  let name ← castResult e.str
  let weight ← store.get (join basep (join "weights".toList name))
  castResult (cast.float weight)

/-- The other branch of `_run`. -/
def tenantSetup (store : Store) (basep : StdString) : Except Thrown (GeneratorSetup F) := do
  let weights ← OFPT.reqTypes.mapM (weightSetup cast store basep)
  let rate ← store.get (join basep "generator_conf/avg_rate".toList)
  let avgRate ← castResult (cast.uint32 rate)
  pure (.tenant avgRate OFPT.reqTypes weights)

structure TenantSetup (F : Type) where
  listen : StdString
  port : UInt32
  generator : GeneratorSetup F
  deriving DecidableEq, Repr

/-- `Tenant::_run`, until it starts to send. -/
def Tenant.setup (store : Store) (id : StdString) : Except Thrown (TenantSetup F) := do
  let basep := join etcdTenantsConf id
  let listen ← store.get (join basep "setup/listen".toList)
  let portValue ← store.get (join basep "setup/port".toList)
  let port ← castResult (cast.uint32 portValue)
  let generatorT ← store.get (join basep "generator".toList)
  let generator ←
    if generatorT = "constant".toList then
      constantSetup cast store (join basep "generator_conf".toList)
    else tenantSetup cast store basep
  pure ⟨listen, port, generator⟩

structure NodeSetup where
  hvIp : StdString
  hvPort : UInt32
  hvDp : UInt64
  deriving DecidableEq, Repr

/-- `Node::start`, until it starts the data plane node. -/
def Node.setup (uint64 : StdString → Option UInt64) (store : Store) (id : StdString) :
    Except Thrown NodeSetup := do
  let basep := join etcdNodesConf id
  let hvIp ← store.get (join basep "setup/hv_ip".toList)
  let portValue ← store.get (join basep "setup/hv_port".toList)
  let hvPort ← castResult (cast.uint32 portValue)
  let dpValue ← store.get (join basep "setup/datapath_id".toList)
  let hvDp ← castResult (uint64 dpValue)
  pure ⟨hvIp, hvPort, hvDp⟩

end

/-- The reads and conversions do not throw error 401. -/
def NotOutdated {α : Type} (x : Except Thrown α) : Prop := x ≠ .error (.replyException 401)

theorem notOutdated_get (store : Store) (path : StdString) : NotOutdated (store.get path) := by
  unfold NotOutdated Store.get
  split
  · simp
  · simp

theorem notOutdated_cast {α : Type} (x : Option α) : NotOutdated (castResult x) := by
  cases x <;> simp [NotOutdated, castResult]

theorem NotOutdated.bind {α β : Type} {x : Except Thrown α} {f : α → Except Thrown β}
    (hx : NotOutdated x) (hf : ∀ a, NotOutdated (f a)) : NotOutdated (x >>= f) := by
  cases x with
  | error e =>
    intro h
    have heq : e = .replyException 401 := Except.error.inj h
    exact hx (congrArg Except.error heq)
  | ok a => exact hf a

theorem notOutdated_nodeSetup {F : Type} (cast : LexicalCast F)
    (uint64 : StdString → Option UInt64) (store : Store) (id : StdString) :
    NotOutdated (Node.setup cast uint64 store id) := by
  unfold Node.setup
  apply (notOutdated_get store _).bind
  intro hvIp
  apply (notOutdated_get store _).bind
  intro portValue
  apply (notOutdated_cast _).bind
  intro hvPort
  apply (notOutdated_get store _).bind
  intro dpValue
  apply (notOutdated_cast _).bind
  intro hvDp h
  cases h

end HVBench
