import HVBench.Etcd.Reply
import HVBench.Library.Transition
import HVBench.Tenant.Routing

/-! What an instance does with the events below its directory. -/
namespace HVBench
open Etcd StdString

/-- A call the handlers make on a tenant or a node. -/
inductive EntryCall
  | createTenant (name : StdString)
  | startTenant (name : StdString)
  | createNode (name : StdString)
  | startNode (name : StdString)
  deriving DecidableEq, Repr

/-- `HVBench`, by the names in `tenants_` and `nodes_`. -/
structure Instance where
  tenants : List StdString
  nodes : List StdString
  shutdown : Bool
  /-- History: the calls in the order they are made. -/
  calls : List EntryCall
  deriving DecidableEq, Repr

namespace Instance

def create : Instance where
  tenants := []
  nodes := []
  shutdown := false
  calls := []

/-- The key that shuts the instance down. -/
def shutdownKey (instanceId : ℕ) : StdString :=
  join (join etcdHvbench (toString instanceId).toList) "shutdown".toList

/-- `_onNewTenant`. `Tenant::start` only starts a thread. -/
def onNewTenant (s : Instance) (tenant : StdString) : HandlerResult Instance :=
  if tenant ∈ s.tenants then .aborted
  else .returned
    { s with
      tenants := s.tenants ++ [tenant]
      calls := s.calls ++ [.createTenant tenant, .startTenant tenant] }

/-- `_onNewNode`. The node is registered only after `Node::start` has returned. -/
def onNewNode (s : Instance) (node : StdString) (start : Option Thrown) :
    HandlerResult Instance :=
  if node ∈ s.nodes then .aborted
  else
    let s := { s with calls := s.calls ++ [.createNode node, .startNode node] }
    match start with
    | some e => .threw s e
    | none => .returned { s with nodes := s.nodes ++ [node] }

/-- `_onChange`, where `nodeStart` is how `Node::start` ends if it is called. -/
def onChange (instanceId : ℕ) (s : Instance) (reply : RapidReply) (nodeStart : Option Thrown) :
    HandlerResult Instance :=
  if reply.getAction ≠ .set then .returned s
  else
    match reply.getAll with
    | none => .aborted
    -- `*(pairs.begin())` of an empty map
    | some [] => .aborted
    | some ((key, value) :: _) =>
      if key = shutdownKey instanceId then .returned { s with shutdown := true }
      else if value = "tenant".toList then onNewTenant s (back key)
      else if value = "node".toList then onNewNode s (back key) nodeStart
      else if value = "ignore".toList then .returned s
      else .aborted

/-- A delivery of an event to `_onChange`. -/
structure Delivery where
  reply : RapidReply
  nodeStart : Option Thrown

/-- The watcher catches what the handler throws. `none` where the process ends. -/
def step (instanceId : ℕ) (s : Instance) (d : Delivery) : Option Instance :=
  (onChange instanceId s d.reply d.nodeStart).state

/-- A SET of a shutdown, tenant or node entry, by its first key and value. -/
def IsEntry (instanceId : ℕ) (reply : RapidReply) : Prop :=
  reply.getAction = .set ∧ ∃ key value rest, reply.getAll = some ((key, value) :: rest) ∧
    (key = shutdownKey instanceId ∨ value = "tenant".toList ∨ value = "node".toList)

/-- Every event is handled, no call is made twice, and only entries change the state. -/
def HandledIdempotently (instanceId : ℕ) (events : List Delivery) : Prop :=
  (∃ s, Transition.exec (step instanceId) create events = some s ∧ s.calls.Nodup) ∧
  Transition.Meets (step instanceId)
    (fun s d => ¬ IsEntry instanceId d.reply → ∀ t, step instanceId s d = some t →
      t.tenants = s.tenants ∧ t.nodes = s.nodes ∧ t.shutdown = s.shutdown) create events

/-- The event is not a SET, or its first pair exists and is the shutdown key, an ignored
entry, or a tenant or node of a name for which none was created before. -/
def Admissible (instanceId : ℕ) (s : Instance) (d : Delivery) : Prop :=
  d.reply.getAction = .set → ∃ key value rest, d.reply.getAll = some ((key, value) :: rest) ∧
    (key = shutdownKey instanceId ∨
      (value = "tenant".toList ∧ back key ∉ s.tenants) ∨
      (value = "node".toList ∧ .createNode (back key) ∉ s.calls) ∨
      value = "ignore".toList)

/-- The state after `_onNewTenant` of a new name. -/
def withTenant (s : Instance) (name : StdString) : Instance :=
  { s with
    tenants := s.tenants ++ [name]
    calls := s.calls ++ [.createTenant name, .startTenant name] }

/-- The state after `_onNewNode` of a name not registered, by how `Node::start` ended. -/
def withNode (s : Instance) (name : StdString) (start : Option Thrown) : Instance :=
  { s with
    nodes := if start = none then s.nodes ++ [name] else s.nodes
    calls := s.calls ++ [.createNode name, .startNode name] }

theorem onNewTenant_state (s : Instance) (name : StdString) :
    (onNewTenant s name).state = if name ∈ s.tenants then none else some (s.withTenant name) := by
  unfold onNewTenant
  split_ifs <;> rfl

theorem onNewNode_state (s : Instance) (name : StdString) (start : Option Thrown) :
    (onNewNode s name start).state =
      if name ∈ s.nodes then none else some (s.withNode name start) := by
  unfold onNewNode
  cases start <;> split_ifs <;> rfl

theorem step_of_ne_set {id : ℕ} {d : Delivery} (h : d.reply.getAction ≠ .set) (s : Instance) :
    step id s d = some s := by
  unfold step onChange
  rw [if_pos h]
  rfl

theorem step_of_no_pair {id : ℕ} {d : Delivery} (h : d.reply.getAction = .set)
    (hall : ∀ key value rest, d.reply.getAll ≠ some ((key, value) :: rest)) (s : Instance) :
    step id s d = none := by
  unfold step onChange
  rw [if_neg (not_not.mpr h)]
  cases hpairs : d.reply.getAll with
  | none => rfl
  | some pairs =>
    cases pairs with
    | nil => rfl
    | cons p rest => exact absurd hpairs (hall p.1 p.2 rest)

theorem step_of_pair {id : ℕ} {d : Delivery} {key value : StdString} {rest : KvPairs}
    (h : d.reply.getAction = .set) (hall : d.reply.getAll = some ((key, value) :: rest))
    (s : Instance) :
    step id s d =
      if key = shutdownKey id then some { s with shutdown := true }
      else if value = "tenant".toList then
        if back key ∈ s.tenants then none else some (s.withTenant (back key))
      else if value = "node".toList then
        if back key ∈ s.nodes then none else some (s.withNode (back key) d.nodeStart)
      else if value = "ignore".toList then some s
      else none := by
  rw [← onNewTenant_state, ← onNewNode_state]
  unfold step onChange
  rw [if_neg (not_not.mpr h), hall]
  dsimp only
  split_ifs <;> rfl

/-- What an event can do to the state, and which events do it. -/
theorem step_cases {id : ℕ} {s t : Instance} {d : Delivery} (h : step id s d = some t) :
    t = s ∨ IsEntry id d.reply ∧
      (t = { s with shutdown := true } ∨
        (∃ name, name ∉ s.tenants ∧ t = s.withTenant name) ∨
        ∃ name, name ∉ s.nodes ∧ t = s.withNode name d.nodeStart) := by
  by_cases hset : d.reply.getAction = .set
  · by_cases hpair : ∃ key value rest, d.reply.getAll = some ((key, value) :: rest)
    · obtain ⟨key, value, rest, hall⟩ := hpair
      rw [step_of_pair hset hall] at h
      split_ifs at h with hkey htenant hmem hnode hmem hignore
      · have heq := Option.some.inj h
        exact .inr ⟨⟨hset, key, value, rest, hall, .inl hkey⟩, .inl heq.symm⟩
      · have heq := Option.some.inj h
        exact .inr ⟨⟨hset, key, value, rest, hall, .inr (.inl htenant)⟩,
          .inr (.inl ⟨back key, hmem, heq.symm⟩)⟩
      · have heq := Option.some.inj h
        exact .inr ⟨⟨hset, key, value, rest, hall, .inr (.inr hnode)⟩,
          .inr (.inr ⟨back key, hmem, heq.symm⟩)⟩
      · exact .inl (Option.some.inj h).symm
    · have hnone : step id s d = none :=
        step_of_no_pair hset (fun key value rest hall => hpair ⟨key, value, rest, hall⟩) s
      rw [hnone] at h
      cases h
  · rw [step_of_ne_set hset] at h
    exact .inl (Option.some.inj h).symm

/-- Only entries change the state. -/
theorem step_frame {id : ℕ} {s t : Instance} {d : Delivery} (hd : ¬ IsEntry id d.reply)
    (h : step id s d = some t) : t = s := by
  rcases step_cases h with heq | ⟨hentry, -⟩
  · exact heq
  · exact absurd hentry hd

/-- No call has been made twice, and the registered names are among those created. -/
structure Inv (s : Instance) : Prop where
  nodup : s.calls.Nodup
  createTenant : ∀ name, .createTenant name ∈ s.calls → name ∈ s.tenants
  startTenant : ∀ name, .startTenant name ∈ s.calls → name ∈ s.tenants
  startNode : ∀ name, .startNode name ∈ s.calls → .createNode name ∈ s.calls
  nodes : ∀ name ∈ s.nodes, .createNode name ∈ s.calls

theorem inv_create : Inv create where
  nodup := List.nodup_nil
  createTenant := by simp [create]
  startTenant := by simp [create]
  startNode := by simp [create]
  nodes := by simp [create]

theorem nodup_append_pair {calls : List EntryCall} {a b : EntryCall} (h : calls.Nodup)
    (ha : a ∉ calls) (hb : b ∉ calls) (hab : a ≠ b) : (calls ++ [a, b]).Nodup := by
  rw [List.nodup_append]
  refine ⟨h, by simp [hab], ?_⟩
  intro c hc e he heq
  subst heq
  simp only [List.mem_cons, List.not_mem_nil, or_false] at he
  rcases he with hea | heb
  · exact ha (hea ▸ hc)
  · exact hb (heb ▸ hc)

theorem inv_withTenant {s : Instance} (hs : Inv s) {name : StdString} (h : name ∉ s.tenants) :
    Inv (s.withTenant name) := by
  have hcreate : EntryCall.createTenant name ∉ s.calls := fun hmem => h (hs.createTenant _ hmem)
  have hstart : EntryCall.startTenant name ∉ s.calls := fun hmem => h (hs.startTenant _ hmem)
  constructor
  · apply nodup_append_pair hs.nodup hcreate hstart
    simp
  · intro other hmem
    have hcases : .createTenant other ∈ s.calls ∨ other = name := by simpa [withTenant] using hmem
    rcases hcases with hold | heq
    · exact List.mem_append_left _ (hs.createTenant other hold)
    · exact List.mem_append_right _ (by simp [heq])
  · intro other hmem
    have hcases : .startTenant other ∈ s.calls ∨ other = name := by simpa [withTenant] using hmem
    rcases hcases with hold | heq
    · exact List.mem_append_left _ (hs.startTenant other hold)
    · exact List.mem_append_right _ (by simp [heq])
  · intro other hmem
    have hold : .startNode other ∈ s.calls := by simpa [withTenant] using hmem
    exact List.mem_append_left _ (hs.startNode other hold)
  · intro other hmem
    exact List.mem_append_left _ (hs.nodes other hmem)

theorem inv_withNode {s : Instance} (hs : Inv s) {name : StdString}
    (h : .createNode name ∉ s.calls) (start : Option Thrown) : Inv (s.withNode name start) := by
  have hstart : EntryCall.startNode name ∉ s.calls := fun hmem => h (hs.startNode _ hmem)
  constructor
  · apply nodup_append_pair hs.nodup h hstart
    simp
  · intro other hmem
    have hold : .createTenant other ∈ s.calls := by simpa [withNode] using hmem
    exact hs.createTenant other hold
  · intro other hmem
    have hold : .startTenant other ∈ s.calls := by simpa [withNode] using hmem
    exact hs.startTenant other hold
  · intro other hmem
    have hcases : .startNode other ∈ s.calls ∨ other = name := by simpa [withNode] using hmem
    rcases hcases with hold | heq
    · exact List.mem_append_left _ (hs.startNode other hold)
    · exact List.mem_append_right _ (by simp [heq])
  · intro other hmem
    have hcases : other ∈ s.nodes ∨ other = name := by
      unfold withNode at hmem
      dsimp only at hmem
      split_ifs at hmem
      · simpa using hmem
      · exact .inl hmem
    rcases hcases with hold | heq
    · exact List.mem_append_left _ (hs.nodes other hold)
    · exact List.mem_append_right _ (by simp [heq])

/-- An admissible event is handled and keeps the invariant. -/
theorem step_of_admissible {id : ℕ} {s : Instance} {d : Delivery} (hs : Inv s)
    (h : Admissible id s d) : ∃ t, step id s d = some t ∧ Inv t := by
  by_cases hset : d.reply.getAction = .set
  · obtain ⟨key, value, rest, hall, hkind⟩ := h hset
    rw [step_of_pair hset hall]
    by_cases hkey : key = shutdownKey id
    · rw [if_pos hkey]
      exact ⟨_, rfl, hs.nodup, hs.createTenant, hs.startTenant, hs.startNode, hs.nodes⟩
    rw [if_neg hkey]
    rcases hkind with hkey' | ⟨hvalue, hnew⟩ | ⟨hvalue, hnew⟩ | hvalue
    · exact absurd hkey' hkey
    · rw [if_pos hvalue, if_neg hnew]
      exact ⟨_, rfl, inv_withTenant hs hnew⟩
    · have hmem : back key ∉ s.nodes := fun hmem => hnew (hs.nodes _ hmem)
      have htenant : value ≠ "tenant".toList := by
        rw [hvalue]
        decide
      rw [if_neg htenant, if_pos hvalue, if_neg hmem]
      exact ⟨_, rfl, inv_withNode hs hnew d.nodeStart⟩
    · have htenant : value ≠ "tenant".toList := by
        rw [hvalue]
        decide
      have hnode : value ≠ "node".toList := by
        rw [hvalue]
        decide
      rw [if_neg htenant, if_neg hnode, if_pos hvalue]
      exact ⟨s, rfl, hs⟩
  · exact ⟨s, step_of_ne_set hset s, hs⟩

/-- An event that is not admissible ends the process or repeats a call. -/
theorem repeats_of_not_admissible {id : ℕ} {s t : Instance} {d : Delivery}
    (h : ¬ Admissible id s d) (ht : step id s d = some t) : ¬ t.calls.Nodup := by
  unfold Admissible at h
  push Not at h
  obtain ⟨hset, hpairs⟩ := h
  by_cases hpair : ∃ key value rest, d.reply.getAll = some ((key, value) :: rest)
  · obtain ⟨key, value, rest, hall⟩ := hpair
    obtain ⟨hkey, htenant, hnode, hignore⟩ := hpairs key value rest hall
    rw [step_of_pair hset hall, if_neg hkey] at ht
    split_ifs at ht with hvalue hmem hvalue' hmem
    · exact absurd (htenant hvalue) hmem
    · have heq := Option.some.inj ht
      have hcreated := hnode hvalue'
      rw [← heq]
      intro hnodup
      have hdisjoint := (List.nodup_append.mp hnodup).2.2
      exact hdisjoint _ hcreated _ (by simp) rfl
  · have hnone : step id s d = none :=
      step_of_no_pair hset (fun key value rest hall => hpair ⟨key, value, rest, hall⟩) s
    rw [hnone] at ht
    cases ht

theorem calls_grow {id : ℕ} {s t : Instance} {d : Delivery} (h : step id s d = some t) :
    s.calls <+: t.calls := by
  rcases step_cases h with heq | ⟨-, heq | ⟨name, -, heq⟩ | ⟨name, -, heq⟩⟩
  · exact heq ▸ List.prefix_refl _
  · exact heq ▸ List.prefix_refl _
  · rw [heq]
    exact List.prefix_append _ _
  · rw [heq]
    exact List.prefix_append _ _

/-- Events are handled idempotently exactly when each one is admissible where it comes. -/
theorem handledIdempotently_iff (instanceId : ℕ) (events : List Delivery) :
    HandledIdempotently instanceId events ↔
      Transition.Meets (step instanceId) (Admissible instanceId) create events := by
  have hframe : Transition.Meets (step instanceId)
      (fun s d => ¬ IsEntry instanceId d.reply → ∀ t, step instanceId s d = some t →
        t.tenants = s.tenants ∧ t.nodes = s.nodes ∧ t.shutdown = s.shutdown) create events := by
    apply Transition.meets_of_always
    intro s d hd t ht
    rw [step_frame hd ht]
    exact ⟨rfl, rfl, rfl⟩
  constructor
  · rintro ⟨⟨s, hs, hnodup⟩, -⟩
    have hinv : ∀ s d t, Inv s → True → Admissible instanceId s d →
        step instanceId s d = some t → Inv t := by
      intro s d t hI _ hd ht
      obtain ⟨t', ht', hI'⟩ := step_of_admissible hI hd
      have heq : t' = t := Option.some.inj (ht'.symm.trans ht)
      rw [← heq]
      exact hI'
    have hstable : ∀ s d t, ¬ s.calls.Nodup → step instanceId s d = some t →
        ¬ t.calls.Nodup := by
      intro s d t hrep ht hnd
      exact hrep (hnd.sublist (calls_grow ht).sublist)
    exact Transition.meets_of_exec hinv
      (fun s d t _ _ hd ht => repeats_of_not_admissible hd ht) hstable inv_create
      (Transition.meets_of_always fun _ _ => trivial) hs (not_not.mpr hnodup)
  · intro hmeets
    obtain ⟨s, hs, hI⟩ := Transition.exists_exec_of_meets
      (fun s d hI hd => step_of_admissible hI hd) inv_create hmeets
    exact ⟨⟨s, hs, hI.nodup⟩, hframe⟩

/-- A SET of the tenant entry `t1` of instance 1. -/
def setTenant : Delivery where
  reply := .change "set".toList "/hvbench/instances/1/t1".toList "tenant".toList 7
  nodeStart := none

/-- The directory `d` of instance 1 is created. -/
def setDirectory : Delivery where
  reply := ⟨some "set".toList,
    some (.mk (some "/hvbench/instances/1/d".toList) none true [] (some 8))⟩
  nodeStart := none

/-- A tenant entry that is set twice fails an assertion, and a new directory has no first
pair to read. -/
theorem repeated_set_aborts :
    ¬ HandledIdempotently 1 [setTenant, setTenant] ∧ ¬ HandledIdempotently 1 [setDirectory] := by
  constructor
  · rintro ⟨⟨s, hs, -⟩, -⟩
    have hnone : Transition.exec (step 1) create [setTenant, setTenant] = none := by decide
    rw [hnone] at hs
    cases hs
  · rintro ⟨⟨s, hs, -⟩, -⟩
    have hnone : Transition.exec (step 1) create [setDirectory] = none := by decide
    rw [hnone] at hs
    cases hs

end Instance
end HVBench
