import HVBench.Globals

/-! Replies of etcd, as far as the handlers read them, and how a handler can end. -/
namespace HVBench
namespace Etcd

/-- A `std::exception`. Only the code of a `ReplyException` is ever looked at. -/
inductive Thrown
  | replyException (errorCode : ℤ)
  | exception
  deriving DecidableEq, Repr

/-- How a call ends that changes a state. An assertion that fails and a read past the end
of a container end the process. -/
inductive HandlerResult (σ : Type*)
  | returned (s : σ)
  | threw (s : σ) (e : Thrown)
  | aborted
  deriving DecidableEq, Repr

/-- The state left behind, if the process goes on. -/
def HandlerResult.state {σ : Type*} : HandlerResult σ → Option σ
  | returned s => some s
  | threw s _ => some s
  | aborted => none

/-- `etcd::Action`. -/
inductive Action
  | set
  | get
  | delete
  | update
  | create
  | compareAndSwap
  | compareAndDelete
  | expire
  | unknown
  deriving DecidableEq, Repr

/-- `kActionMap`. -/
def Action.ofName (name : StdString) : Action :=
  if name = "set".toList then .set
  else if name = "get".toList then .get
  else if name = "delete".toList then .delete
  else if name = "update".toList then .update
  else if name = "create".toList then .create
  else if name = "compareAndSwap".toList then .compareAndSwap
  else if name = "compareAndDelete".toList then .compareAndDelete
  else if name = "expire".toList then .expire
  else .unknown

/-- The JSON value of a key. A directory without the member `nodes` has no `nodes`. -/
inductive Node
  | mk (key value : Option StdString) (dir : Bool) (nodes : List Node)
    (modifiedIndex : Option ℕ)
  deriving Repr

def Node.modifiedIndex : Node → Option ℕ
  | .mk _ _ _ _ i => i

/-- `RapidReply`, with the members of the document it reads. -/
structure RapidReply where
  action : Option StdString
  node : Option Node
  deriving Repr

/-- `KvPairs`, a `std::map`: no key twice, and the least key first. -/
abbrev KvPairs := List (StdString × StdString)

/-- `kvPairs.emplace`, which keeps an entry that exists. -/
def emplace (key value : StdString) : KvPairs → KvPairs
  | [] => [(key, value)]
  | p :: pairs =>
    if key < p.1 then (key, value) :: p :: pairs
    else if key = p.1 then p :: pairs
    else p :: emplace key value pairs

mutual
/-- `_GetAll`. -/
def Node.getAll : Node → KvPairs → KvPairs
  | .mk key value dir nodes _, pairs =>
    if dir then Node.getAllNodes nodes pairs
    else match key with
      | some key => emplace key (value.getD []) pairs
      | none => pairs

/-- The loop over the `nodes` of a directory. -/
def Node.getAllNodes : List Node → KvPairs → KvPairs
  | [], pairs => pairs
  | n :: nodes, pairs => Node.getAllNodes nodes (n.getAll pairs)
end

namespace RapidReply

/-- `GetAll`. `none` where the document has no `node`, which rapidjson asserts. -/
def getAll (r : RapidReply) : Option KvPairs := r.node.map (Node.getAll · [])

def getAction (r : RapidReply) : Action :=
  match r.action with
  | none => .unknown
  | some name => .ofName name

/-- `GetModifiedIndex`, which throws where this is `none`. -/
def getModifiedIndex (r : RapidReply) : Option ℕ := r.node.bind Node.modifiedIndex

/-- The reply to a write of one key. -/
def change (action key value : StdString) (index : ℕ) : RapidReply where
  action := some action
  node := some (.mk (some key) (some value) false [] (some index))

@[simp] theorem getAll_change (action key value : StdString) (index : ℕ) :
    (change action key value index).getAll = some [(key, value)] := rfl

@[simp] theorem getModifiedIndex_change (action key value : StdString) (index : ℕ) :
    (change action key value index).getModifiedIndex = some index := rfl

end RapidReply
end Etcd
end HVBench
