import HVBench.Instance.HandlerFailures
import HVBench.Tenant.ConfigRace
import HVBench.Tenant.Setup

/-! An instance while tenants and nodes are created, some of which cannot be set up. The
setup of a tenant runs on the tenant's thread, that of a node in the handler of the watch.
An exception that leaves the top-level function of a thread terminates the process. -/
namespace HVBench
namespace Containment
open Etcd StdString Transition

/-- What etcd holds below the directories of the tenants and nodes, and how it is read. -/
structure Contents (F : Type) where
  cast : LexicalCast F
  uint64 : StdString → Option UInt64
  store : Store

variable {F : Type} (c : Contents F) (instanceId : ℕ) (events : List RapidReply)

/-- What the thread of a tenant reads. -/
def Contents.tenant (name : StdString) : Except Thrown (TenantSetup F) :=
  Tenant.setup c.cast c.store name

/-- What `Node::start` reads. -/
def Contents.node (name : StdString) : Except Thrown NodeSetup :=
  HVBench.Node.setup c.cast c.uint64 c.store name

/-- How `Node::start` ends. -/
def nodeStart (name : StdString) : Option Thrown :=
  match c.node name with
  | .ok _ => none
  | .error e => some e

structure State where
  delivery : Delivery.State Instance
  /-- The tenants whose threads have read their setup. -/
  ran : List StdString
  terminated : Bool

def init : State where
  delivery := Delivery.init Instance.create
  ran := []
  terminated := false

inductive Label
  | watch (l : Delivery.Label)
  | tenant (name : StdString)
  deriving DecidableEq, Repr

/-- `Run` throws out of its thread when its failures are used up, and `_run` when the setup
of its tenant cannot be read. -/
def step (s : State) : Label → Option State
  | .watch l =>
    if s.terminated then none
    else
      (Delivery.step (Instance.watchCallback instanceId (nodeStart c)) events s.delivery l).map
        fun d => { s with delivery := d, terminated := d.watch.maxFailures = 0 }
  | .tenant name =>
    if s.terminated = false ∧ name ∈ s.delivery.handler.tenants ∧ name ∉ s.ran then
      match c.tenant name with
      | .ok _ => some { s with ran := s.ran ++ [name] }
      | .error _ => some { s with terminated := true }
    else none

/-- The event creates a node, not a tenant. -/
def isNode (r : RapidReply) : Bool :=
  match r.getAll with
  | some ((_, value) :: _) => value = "node".toList
  | _ => false

/-- The setup of the entry cannot be read. -/
def faulty (r : RapidReply) : Bool :=
  if isNode r then (nodeStart c (Instance.entryName r)).isSome
  else !(c.tenant (Instance.entryName r)).isOk

/-- The tenant runs with this setup. -/
def TenantRuns (s : State) (name : StdString) (x : TenantSetup F) : Prop :=
  name ∈ s.ran ∧ c.tenant name = .ok x

/-- The node runs with this setup. -/
def NodeRuns (s : State) (name : StdString) (x : NodeSetup) : Prop :=
  name ∈ s.delivery.handler.nodes ∧ c.node name = .ok x

/-- All events have been waited for and all threads have started. -/
def Settled (s : State) : Prop :=
  Delivery.Quiet events s.delivery ∧ ∀ name ∈ s.delivery.handler.tenants, name ∈ s.ran

/-- No run terminates the process, and once everything has settled the same tenants and
nodes run as without the faulty entries. -/
def Contained : Prop :=
  (∀ ls s, exec (step c instanceId events) init ls = some s → s.terminated = false) ∧
  ∀ ls s ms t, exec (step c instanceId events) init ls = some s →
    exec (step c instanceId (events.filter fun r => !faulty c r)) init ms = some t →
    Settled events s → Settled (events.filter fun r => !faulty c r) t →
    (∀ name x, TenantRuns c s name x ↔ TenantRuns c t name x) ∧
      ∀ name x, NodeRuns c s name x ↔ NodeRuns c t name x

/-- Events that each create a tenant or a node, no two of them the same one. -/
structure Creations (events : List RapidReply) : Prop where
  ordered : Delivery.Ordered events
  entry : ∀ r ∈ events, r.getAction = .set ∧ ∃ key value rest,
    r.getAll = some ((key, value) :: rest) ∧ key ≠ Instance.shutdownKey instanceId ∧
      (value = "tenant".toList ∨ value = "node".toList)
  once : ∀ r ∈ events, ∀ r' ∈ events, isNode r = isNode r' →
    Instance.entryName r = Instance.entryName r' → r = r'

/-- The handler throws on the nodes that cannot be set up. -/
def fails (r : RapidReply) : Option Thrown :=
  if isNode r then nodeStart c (Instance.entryName r) else none

/-- What is registered once the given events have been handled. -/
structure Registered (handed : List RapidReply) (s : Instance) : Prop where
  subset : ∀ r ∈ handed, r ∈ events
  tenants : s.tenants = (handed.filter fun r => !isNode r).map Instance.entryName
  nodes : s.nodes = (handed.filter fun r => isNode r && !faulty c r).map Instance.entryName

variable {c instanceId events}

theorem registered_create : Registered c events [] Instance.create := ⟨by simp, rfl, rfl⟩

theorem fails_eq_none {r : RapidReply} (h : faulty c r = false) : fails c r = none := by
  unfold faulty at h
  unfold fails
  split_ifs at h ⊢ with hnode
  · simpa using h
  · rfl

theorem fails_ne_none {r : RapidReply} (h : faulty c r = true) (hnode : isNode r = true) :
    fails c r ≠ none := by
  unfold faulty at h
  unfold fails
  rw [if_pos hnode] at h ⊢
  exact Option.isSome_iff_ne_none.mp h

theorem fails_of_tenant {r : RapidReply} (h : isNode r = false) : fails c r = none := by
  unfold fails
  rw [h]
  rfl

theorem fails_code (r : RapidReply) : fails c r ≠ some (.replyException 401) := by
  unfold fails nodeStart
  have hcode := notOutdated_nodeSetup c.cast c.uint64 c.store (Instance.entryName r)
  split_ifs
  · unfold Contents.node
    cases hset : HVBench.Node.setup c.cast c.uint64 c.store (Instance.entryName r) with
    | ok x => simp
    | error e =>
      intro heq
      apply hcode
      rw [hset, Option.some.inj heq]
  · simp

/-- A creation event calls `_onNewTenant` or `_onNewNode`. -/
theorem onChange_creation {r : RapidReply} (h : Creations instanceId events) (hr : r ∈ events)
    (s : Instance) :
    Instance.watchCallback instanceId (nodeStart c) s r =
      if isNode r then s.onNewNode (Instance.entryName r) (nodeStart c (Instance.entryName r))
      else s.onNewTenant (Instance.entryName r) := by
  obtain ⟨hset, key, value, rest, hall, hkey, hvalue⟩ := h.entry r hr
  have hname : Instance.entryName r = back key := by
    unfold Instance.entryName
    rw [hall]
  unfold Instance.watchCallback Instance.onChange isNode
  rw [if_neg (not_not.mpr hset), hname, hall]
  dsimp only
  rw [if_neg hkey]
  rcases hvalue with htenant | hnode
  · rw [if_pos htenant, if_neg]
    rw [htenant]
    decide
  · have htenant : value ≠ "tenant".toList := by
      rw [hnode]
      decide
    rw [if_neg htenant, if_pos hnode, if_pos (by simpa using hnode)]

theorem not_mem_tenants (h : Creations instanceId events) {handed : List RapidReply}
    {s : Instance} (hs : Registered c events handed s) {r : RapidReply} (hr : r ∈ events)
    (hnode : isNode r = false) (hnew : r ∉ handed) : Instance.entryName r ∉ s.tenants := by
  intro hmem
  rw [hs.tenants] at hmem
  obtain ⟨r', hr', hname⟩ := List.mem_map.mp hmem
  obtain ⟨hold, hnode'⟩ := List.mem_filter.mp hr'
  have hkind : isNode r' = isNode r := by simpa [hnode] using hnode'
  have heq := h.once r' (hs.subset r' hold) r hr hkind hname
  exact hnew (heq ▸ hold)

theorem not_mem_nodes (h : Creations instanceId events) {handed : List RapidReply}
    {s : Instance} (hs : Registered c events handed s) {r : RapidReply} (hr : r ∈ events)
    (hnode : isNode r = true) (hnew : faulty c r = false → r ∉ handed) :
    Instance.entryName r ∉ s.nodes := by
  intro hmem
  rw [hs.nodes] at hmem
  obtain ⟨r', hr', hname⟩ := List.mem_map.mp hmem
  obtain ⟨hold, hkeep⟩ := List.mem_filter.mp hr'
  obtain ⟨hnode', hgood⟩ : isNode r' = true ∧ faulty c r' = false := by simpa using hkeep
  have heq := h.once r' (hs.subset r' hold) r hr (hnode'.trans hnode.symm) hname
  subst heq
  exact hnew hgood hold

theorem Registered.subset_snoc {handed : List RapidReply} {s : Instance}
    (hs : Registered c events handed s) {r : RapidReply} (hr : r ∈ events) :
    ∀ e ∈ handed ++ [r], e ∈ events := by
  intro e he
  rcases List.mem_append.mp he with hold | hlast
  · exact hs.subset e hold
  · rw [List.mem_singleton.mp hlast]
    exact hr

theorem registered_tenant {handed : List RapidReply} {s : Instance}
    (hs : Registered c events handed s) {r : RapidReply} (hr : r ∈ events)
    (hnode : isNode r = false) :
    Registered c events (handed ++ [r]) (s.withTenant (Instance.entryName r)) where
  subset := hs.subset_snoc hr
  tenants := by
    unfold Instance.withTenant
    rw [List.filter_append, List.map_append, ← hs.tenants]
    simp [hnode]
  nodes := by
    unfold Instance.withTenant
    rw [List.filter_append, List.map_append, ← hs.nodes]
    simp [hnode]

theorem registered_node {handed : List RapidReply} {s : Instance}
    (hs : Registered c events handed s) {r : RapidReply} (hr : r ∈ events)
    (hnode : isNode r = true) :
    Registered c events (handed ++ [r])
      (s.withNode (Instance.entryName r) (nodeStart c (Instance.entryName r))) where
  subset := hs.subset_snoc hr
  tenants := by
    unfold Instance.withNode
    rw [List.filter_append, List.map_append, ← hs.tenants]
    simp [hnode]
  nodes := by
    have hfaulty : faulty c r = (nodeStart c (Instance.entryName r)).isSome := by
      unfold faulty
      rw [if_pos hnode]
    unfold Instance.withNode
    rw [List.filter_append, List.map_append, ← hs.nodes]
    cases hstart : nodeStart c (Instance.entryName r) with
    | none => simp [hnode, hfaulty, hstart]
    | some e => simp [hnode, hfaulty, hstart]

/-- The handler registers each new entry that can be set up. -/
theorem handles_watch (h : Creations instanceId events) :
    Delivery.Handles (Instance.watchCallback instanceId (nodeStart c)) events (fails c)
      (Registered c events) where
  call := by
    intro handed s r hs hr hnew
    rw [onChange_creation h hr]
    cases hnode : isNode r with
    | false =>
      have hfails : fails c r = none := fails_of_tenant hnode
      have hmem : Instance.entryName r ∉ s.tenants :=
        not_mem_tenants h hs hr hnode fun hold => hnew hold hfails
      refine ⟨_, ?_, registered_tenant hs hr hnode⟩
      unfold Instance.onNewTenant
      rw [if_neg (by simp), if_neg hmem, hfails]
      rfl
    | true =>
      have hmem : Instance.entryName r ∉ s.nodes :=
        not_mem_nodes h hs hr hnode fun hgood hold => hnew hold (fails_eq_none hgood)
      have hfails : fails c r = nodeStart c (Instance.entryName r) := by
        unfold fails
        rw [if_pos hnode]
      refine ⟨_, ?_, registered_node hs hr hnode⟩
      unfold Instance.onNewNode
      rw [if_pos rfl, if_neg hmem, hfails]
      cases nodeStart c (Instance.entryName r) <;> rfl
  code := fun r _ => fails_code r

theorem step_watch {d d' : Delivery.State Instance} {l : Delivery.Label}
    (h : Delivery.step (Instance.watchCallback instanceId (nodeStart c)) events d l = some d')
    (ran : List StdString) : step c instanceId events ⟨d, ran, false⟩ (.watch l) =
      some ⟨d', ran, d'.watch.maxFailures = 0⟩ := by
  unfold step
  dsimp only
  rw [h, if_neg (by simp), Option.map_some]

/-- A run of the watch that has not given up is a run of the instance. -/
theorem exec_watch {d d' : Delivery.State Instance} {ls : List Delivery.Label}
    (h : exec (Delivery.step (Instance.watchCallback instanceId (nodeStart c)) events) d ls =
      some d') (hd' : d'.watch.maxFailures ≠ 0) (ran : List StdString) :
    exec (step c instanceId events) ⟨d, ran, false⟩ (ls.map .watch) = some ⟨d', ran, false⟩ := by
  induction ls generalizing d with
  | nil => rw [Option.some.inj h]; rfl
  | cons l ls ih =>
    obtain ⟨t, ht, hrest⟩ := exec_cons.mp h
    have hrun : t.watch.maxFailures ≠ 0 := by
      intro hended
      exact hd' (exec_invariant (I := fun d : Delivery.State Instance => d.watch.maxFailures = 0)
        (fun _ _ _ hs hstep => Delivery.ended_step hs hstep) hended hrest)
    have hstep : step c instanceId events ⟨d, ran, false⟩ (.watch l) = some ⟨t, ran, false⟩ := by
      rw [step_watch ht, decide_eq_false hrun]
    rw [List.map_cons, exec_cons]
    exact ⟨_, hstep, ih hrest⟩

theorem step_watch_cases {s t : State} {l : Delivery.Label}
    (h : step c instanceId events s (.watch l) = some t) :
    ∃ d, Delivery.step (Instance.watchCallback instanceId (nodeStart c)) events s.delivery l =
      some d ∧ t = { s with delivery := d, terminated := d.watch.maxFailures = 0 } := by
  unfold step at h
  dsimp only at h
  split_ifs at h
  obtain ⟨d, hd, heq⟩ := Option.map_eq_some_iff.mp h
  exact ⟨d, hd, heq.symm⟩

theorem step_tenant_cases {s t : State} {name : StdString}
    (h : step c instanceId events s (.tenant name) = some t) :
    name ∈ s.delivery.handler.tenants ∧ s.terminated = false ∧
      ((∃ x, c.tenant name = .ok x ∧ t = { s with ran := s.ran ++ [name] }) ∨
        ∃ e, c.tenant name = .error e ∧ t = { s with terminated := true }) := by
  unfold step at h
  dsimp only at h
  split_ifs at h with hcond
  refine ⟨hcond.2.1, hcond.1, ?_⟩
  cases hset : c.tenant name with
  | ok x =>
    rw [hset] at h
    exact .inl ⟨x, rfl, (Option.some.inj h).symm⟩
  | error e =>
    rw [hset] at h
    exact .inr ⟨e, rfl, (Option.some.inj h).symm⟩

theorem tenant_ok {r : RapidReply} (h : faulty c r = false) (hnode : isNode r = false) :
    ∃ x, c.tenant (Instance.entryName r) = .ok x := by
  unfold faulty at h
  rw [hnode] at h
  cases hset : c.tenant (Instance.entryName r) with
  | ok x => exact ⟨x, rfl⟩
  | error e =>
    rw [hset] at h
    cases h

theorem tenant_error {r : RapidReply} (h : faulty c r = true) (hnode : isNode r = false) :
    ∃ e, c.tenant (Instance.entryName r) = .error e := by
  unfold faulty at h
  rw [hnode] at h
  cases hset : c.tenant (Instance.entryName r) with
  | ok x =>
    rw [hset] at h
    cases h
  | error e => exact ⟨e, rfl⟩

variable (c events) in
/-- Nothing has failed so far. -/
structure Calm (s : State) : Prop where
  smooth : ∃ k, Delivery.Smooth events (Registered c events) s.delivery k
  going : s.terminated = false
  ran : ∀ name ∈ s.ran, name ∈ s.delivery.handler.tenants

theorem calm_init : Calm c events init where
  smooth := ⟨0, Delivery.smooth_init registered_create⟩
  going := rfl
  ran := by simp [init]

theorem tenants_grow {handed handed' : List RapidReply} {s t : Instance}
    (hs : Registered c events handed s) (ht : Registered c events handed' t)
    (h : handed <+: handed') {name : StdString} (hname : name ∈ s.tenants) : name ∈ t.tenants := by
  rw [hs.tenants] at hname
  rw [ht.tenants]
  obtain ⟨r, hr, heq⟩ := List.mem_map.mp hname
  obtain ⟨hmem, hkind⟩ := List.mem_filter.mp hr
  exact List.mem_map.mpr ⟨r, List.mem_filter.mpr ⟨h.subset hmem, hkind⟩, heq⟩

theorem calm_step (h : Creations instanceId events) (hgood : ∀ r ∈ events, faulty c r = false)
    {s t : State} {l : Label} (hs : Calm c events s)
    (ht : step c instanceId events s l = some t) : Calm c events t := by
  obtain ⟨k, hsmooth⟩ := hs.smooth
  cases l with
  | watch l =>
    obtain ⟨d, hd, heq⟩ := step_watch_cases ht
    obtain ⟨k', hsmooth'⟩ := Delivery.smooth_step h.ordered (handles_watch h)
      (fun r hr => fails_eq_none (hgood r hr)) ⟨k, hsmooth⟩ hd
    subst heq
    refine ⟨⟨k', hsmooth'⟩, ?_, ?_⟩
    · dsimp only
      rw [hsmooth'.failures]
      rfl
    · intro name hname
      exact tenants_grow hsmooth.ok hsmooth'.ok (Delivery.handed_grow hd) (hs.ran name hname)
  | tenant name =>
    obtain ⟨hmem, -, ⟨x, -, heq⟩ | ⟨e, herror, -⟩⟩ := step_tenant_cases ht
    · subst heq
      refine ⟨⟨k, hsmooth⟩, hs.going, ?_⟩
      intro other hother
      rcases List.mem_append.mp hother with hold | hlast
      · exact hs.ran other hold
      · rw [List.mem_singleton.mp hlast]
        exact hmem
    · rw [hsmooth.ok.tenants] at hmem
      obtain ⟨r, hr, hname⟩ := List.mem_map.mp hmem
      obtain ⟨hhanded, hnode⟩ := List.mem_filter.mp hr
      obtain ⟨x, hx⟩ := tenant_ok (hgood r (hsmooth.ok.subset r hhanded)) (by simpa using hnode)
      rw [hname, herror] at hx
      cases hx

theorem calm_exec (h : Creations instanceId events) (hgood : ∀ r ∈ events, faulty c r = false)
    {ls : List Label} {s : State} (hs : exec (step c instanceId events) init ls = some s) :
    Calm c events s := by
  apply exec_invariant (I := Calm c events) ?_ calm_init hs
  intro s l t hcalm ht
  exact calm_step h hgood hcalm ht

/-- Once everything has settled, all the tenants run. -/
theorem Calm.tenantRuns_iff {s : State} (hs : Calm c events s) (hsettled : Settled events s)
    (name : StdString) (x : TenantSetup F) :
    TenantRuns c s name x ↔
      (∃ r ∈ events, isNode r = false ∧ Instance.entryName r = name) ∧ c.tenant name = .ok x := by
  obtain ⟨k, hsmooth⟩ := hs.smooth
  have hall : s.delivery.handed = events := hsmooth.deliveredOnce.2.2 hsettled.1
  have hmem : name ∈ s.ran ↔ ∃ r ∈ events, isNode r = false ∧ Instance.entryName r = name := by
    have hiff : name ∈ s.ran ↔ name ∈ s.delivery.handler.tenants :=
      ⟨hs.ran name, hsettled.2 name⟩
    rw [hiff, hsmooth.ok.tenants, hall]
    simp [and_assoc]
  unfold TenantRuns
  rw [hmem]

theorem Calm.nodeRuns_iff {s : State} (hs : Calm c events s) (hsettled : Settled events s)
    (name : StdString) (x : NodeSetup) :
    NodeRuns c s name x ↔
      (∃ r ∈ events, (isNode r = true ∧ faulty c r = false) ∧ Instance.entryName r = name) ∧
        c.node name = .ok x := by
  obtain ⟨k, hsmooth⟩ := hs.smooth
  have hall : s.delivery.handed = events := hsmooth.deliveredOnce.2.2 hsettled.1
  unfold NodeRuns
  rw [hsmooth.ok.nodes, hall]
  simp [and_assoc]

variable (c events) in
/-- So far only nodes have come, and none could be set up. -/
structure Idle (s : State) : Prop where
  failing : Delivery.Failing events (Registered c events) s.delivery
  going : s.terminated = false
  ran : s.ran = []

theorem filter_handed_eq_nil {handed : List RapidReply} {p : RapidReply → Bool}
    (hsubset : ∀ r ∈ handed, r ∈ events) (h : ∀ r ∈ events, p r = false) :
    handed.filter p = [] := by
  rw [List.filter_eq_nil_iff]
  intro r hr
  simp [h r (hsubset r hr)]

theorem idle_step (h : Creations instanceId events)
    (hbad : ∀ r ∈ events, isNode r = true ∧ faulty c r = true)
    (hlen : events.length < failureLimit) {s t : State} {l : Label} (hs : Idle c events s)
    (ht : step c instanceId events s l = some t) : Idle c events t := by
  cases l with
  | watch l =>
    obtain ⟨d, hd, heq⟩ := step_watch_cases ht
    have hfailing := Delivery.failing_step h.ordered (handles_watch h)
      (fun r hr => fails_ne_none (hbad r hr).2 (hbad r hr).1) hs.failing hd
    have hle := hfailing.length_le
    subst heq
    refine ⟨hfailing, ?_, hs.ran⟩
    dsimp only
    rw [hfailing.failures]
    apply decide_eq_false
    omega
  | tenant name =>
    obtain ⟨hmem, -, -⟩ := step_tenant_cases ht
    have hnone : s.delivery.handed.filter (fun r => !isNode r) = [] :=
      filter_handed_eq_nil hs.failing.ok.subset fun r hr => by simp [(hbad r hr).1]
    rw [hs.failing.ok.tenants, hnone] at hmem
    cases hmem

theorem idle_exec (h : Creations instanceId events)
    (hbad : ∀ r ∈ events, isNode r = true ∧ faulty c r = true)
    (hlen : events.length < failureLimit) {ls : List Label} {s : State}
    (hs : exec (step c instanceId events) init ls = some s) : Idle c events s := by
  apply exec_invariant (I := Idle c events) ?_ ?_ hs
  · intro s l t hidle ht
    exact idle_step h hbad hlen hidle ht
  · exact ⟨Delivery.failing_init registered_create, rfl, rfl⟩

theorem Creations.filter (h : Creations instanceId events) (p : RapidReply → Bool) :
    Creations instanceId (events.filter p) where
  ordered := ⟨fun r hr => h.ordered.1 r (List.mem_of_mem_filter hr),
    h.ordered.2.sublist List.filter_sublist⟩
  entry := fun r hr => h.entry r (List.mem_of_mem_filter hr)
  once := fun r hr r' hr' =>
    h.once r (List.mem_of_mem_filter hr) r' (List.mem_of_mem_filter hr')

theorem faulty_of_mem_filter {r : RapidReply} (hr : r ∈ events.filter fun r => !faulty c r) :
    faulty c r = false := by
  simpa using (List.mem_filter.mp hr).2

/-- Without a faulty entry there is nothing to contain. -/
theorem contained_of_good (h : Creations instanceId events)
    (hgood : ∀ r ∈ events, faulty c r = false) : Contained c instanceId events := by
  have hfilter : (events.filter fun r => !faulty c r) = events := by
    rw [List.filter_eq_self]
    intro r hr
    rw [hgood r hr]
    rfl
  unfold Contained
  rw [hfilter]
  constructor
  · intro ls s hs
    exact (calm_exec h hgood hs).going
  · intro ls s ms t hs ht hsettled hsettled'
    have hcalm := calm_exec h hgood hs
    have hcalm' := calm_exec h hgood ht
    constructor
    · intro name x
      rw [hcalm.tenantRuns_iff hsettled, hcalm'.tenantRuns_iff hsettled']
    · intro name x
      rw [hcalm.nodeRuns_iff hsettled, hcalm'.nodeRuns_iff hsettled']

/-- A few nodes that cannot be set up leave the watch waiting for others. -/
theorem contained_of_nodes (h : Creations instanceId events)
    (hbad : ∀ r ∈ events, isNode r = true ∧ faulty c r = true)
    (hlen : events.length < failureLimit) : Contained c instanceId events := by
  constructor
  · intro ls s hs
    exact (idle_exec h hbad hlen hs).going
  · intro ls s ms t hs ht hsettled hsettled'
    have hidle := idle_exec h hbad hlen hs
    have hcalm' := calm_exec (h.filter _) (fun r hr => faulty_of_mem_filter hr) ht
    have hnone : ∀ r, r ∉ events.filter fun r => !faulty c r := by
      intro r hr
      have hmem := List.mem_of_mem_filter hr
      have hfaulty := faulty_of_mem_filter hr
      rw [(hbad r hmem).2] at hfaulty
      cases hfaulty
    constructor
    · intro name x
      rw [hcalm'.tenantRuns_iff hsettled']
      unfold TenantRuns
      rw [hidle.ran]
      constructor
      · rintro ⟨hmem, -⟩
        cases hmem
      · rintro ⟨⟨r, hr, -⟩, -⟩
        exact absurd hr (hnone r)
    · intro name x
      rw [hcalm'.nodeRuns_iff hsettled']
      unfold NodeRuns
      have hnil : s.delivery.handed.filter (fun r => isNode r && !faulty c r) = [] :=
        filter_handed_eq_nil hidle.failing.ok.subset fun r hr => by simp [(hbad r hr).2]
      rw [hidle.failing.ok.nodes, hnil]
      constructor
      · rintro ⟨hmem, -⟩
        cases hmem
      · rintro ⟨⟨r, hr, -⟩, -⟩
        exact absurd hr (hnone r)

/-- A tenant that is registered but cannot be set up ends the process. -/
theorem not_contained_of_tenant {d : Delivery.State Instance} {ls : List Delivery.Label}
    {name : StdString} {e : Thrown}
    (h : exec (Delivery.step (Instance.watchCallback instanceId (nodeStart c)) events)
      (Delivery.init Instance.create) ls = some d)
    (hd : d.watch.maxFailures ≠ 0) (hname : name ∈ d.handler.tenants)
    (hset : c.tenant name = .error e) : ¬ Contained c instanceId events := by
  intro hcontained
  have hrun : exec (step c instanceId events) init (ls.map .watch) = some ⟨d, [], false⟩ :=
    exec_watch h hd []
  have hstep : step c instanceId events ⟨d, [], false⟩ (.tenant name) = some ⟨d, [], true⟩ := by
    unfold step
    dsimp only
    rw [if_pos ⟨rfl, hname, List.not_mem_nil⟩, hset]
  have hgoing := hcontained.1 _ _ (exec_snoc.mpr ⟨_, hrun, hstep⟩)
  cases hgoing

/-- A watch that gives up ends the process. -/
theorem not_contained_of_ended {d d' : Delivery.State Instance} {ls : List Delivery.Label}
    {l : Delivery.Label}
    (h : exec (Delivery.step (Instance.watchCallback instanceId (nodeStart c)) events)
      (Delivery.init Instance.create) ls = some d)
    (hd : d.watch.maxFailures ≠ 0)
    (h' : Delivery.step (Instance.watchCallback instanceId (nodeStart c)) events d l = some d')
    (hd' : d'.watch.maxFailures = 0) : ¬ Contained c instanceId events := by
  intro hcontained
  have hrun : exec (step c instanceId events) init (ls.map .watch) = some ⟨d, [], false⟩ :=
    exec_watch h hd []
  have hstep : step c instanceId events ⟨d, [], false⟩ (.watch l) = some ⟨d', [], true⟩ := by
    rw [step_watch h', decide_eq_true hd']
  have hgoing := hcontained.1 _ _ (exec_snoc.mpr ⟨_, hrun, hstep⟩)
  cases hgoing

variable (events) in
/-- The threads of the registered tenants can all start. -/
theorem exists_threads {d : Delivery.State Instance}
    (hok : ∀ name ∈ d.handler.tenants, ∃ x, c.tenant name = .ok x) (names : List StdString)
    (hnames : ∀ name ∈ names, name ∈ d.handler.tenants) (ran : List StdString) :
    ∃ ls ran', exec (step c instanceId events) ⟨d, ran, false⟩ ls = some ⟨d, ran', false⟩ ∧
      (∀ name ∈ ran, name ∈ ran') ∧ ∀ name ∈ names, name ∈ ran' := by
  induction names generalizing ran with
  | nil => exact ⟨[], ran, rfl, fun _ h => h, fun _ h => by cases h⟩
  | cons name names ih =>
    have hrest : ∀ n ∈ names, n ∈ d.handler.tenants :=
      fun n hn => hnames n (List.mem_cons_of_mem _ hn)
    by_cases hold : name ∈ ran
    · obtain ⟨ls, ran', hls, hkeep, hall⟩ := ih hrest ran
      refine ⟨ls, ran', hls, hkeep, ?_⟩
      intro n hn
      rcases List.mem_cons.mp hn with heq | hn
      · rw [heq]
        exact hkeep name hold
      · exact hall n hn
    · have hmem := hnames name List.mem_cons_self
      obtain ⟨x, hx⟩ := hok name hmem
      have hstep : step c instanceId events ⟨d, ran, false⟩ (.tenant name) =
          some ⟨d, ran ++ [name], false⟩ := by
        unfold step
        dsimp only
        rw [if_pos ⟨rfl, hmem, hold⟩, hx]
      obtain ⟨ls, ran', hls, hkeep, hall⟩ := ih hrest (ran ++ [name])
      refine ⟨.tenant name :: ls, ran', exec_cons.mpr ⟨_, hstep, hls⟩, ?_, ?_⟩
      · intro n hn
        exact hkeep n (List.mem_append_left _ hn)
      · intro n hn
        rcases List.mem_cons.mp hn with heq | hn
        · rw [heq]
          exact hkeep name (by simp)
        · exact hall n hn

/-- Without a faulty entry some run settles. -/
theorem exists_settled (h : Creations instanceId events)
    (hgood : ∀ r ∈ events, faulty c r = false) :
    ∃ ls s, exec (step c instanceId events) init ls = some s ∧ Settled events s := by
  obtain ⟨ls, d, hd, hsmooth, hwritten, hpending⟩ := Delivery.exists_smooth h.ordered
    (handles_watch (c := c) h) registered_create
    (Nat.le_refl events.length)
    (fun r hr => fails_eq_none (hgood r (List.mem_of_mem_take hr)))
  have hok : ∀ name ∈ d.handler.tenants, ∃ x, c.tenant name = .ok x := by
    intro name hname
    rw [hsmooth.ok.tenants] at hname
    obtain ⟨r, hr, heq⟩ := List.mem_map.mp hname
    obtain ⟨hhanded, hnode⟩ := List.mem_filter.mp hr
    rw [← heq]
    exact tenant_ok (hgood r (hsmooth.ok.subset r hhanded)) (by simpa using hnode)
  obtain ⟨ms, ran, hms, -, hall⟩ :=
    exists_threads events hok d.handler.tenants (fun _ hn => hn) []
  have hwatch : exec (step c instanceId events) init (ls.map .watch) = some ⟨d, [], false⟩ :=
    exec_watch hd hsmooth.running []
  refine ⟨ls.map .watch ++ ms, ⟨d, ran, false⟩, exec_append.mpr ⟨_, hwatch, hms⟩,
    ⟨hwritten, events.length, hpending, ?_⟩, hall⟩
  exact Nat.le_of_eq hwritten

theorem node_ok {r : RapidReply} (h : faulty c r = false) (hnode : isNode r = true) :
    ∃ x, c.node (Instance.entryName r) = .ok x := by
  unfold faulty at h
  rw [if_pos hnode] at h
  unfold nodeStart at h
  cases hset : c.node (Instance.entryName r) with
  | ok x => exact ⟨x, rfl⟩
  | error e =>
    rw [hset] at h
    cases h

/-- A faulty node at the head hides an entry that would run without it. -/
theorem not_contained_of_skipped (h : Creations instanceId events) {e r : RapidReply}
    (he : events[0]? = some e) (hfaulty : faulty c e = true) (hnode : isNode e = true)
    (hr : r ∈ events) (hgood : faulty c r = false) : ¬ Contained c instanceId events := by
  intro hcontained
  obtain ⟨ls, d, hd, hhanded, hquiet, hrun, hok⟩ := Delivery.exists_skipped h.ordered
    (handles_watch h) registered_create he (fails_ne_none hfaulty hnode)
  have htenants : d.handler.tenants = [] := by
    rw [hok.tenants, hhanded]
    simp [hnode]
  have hnodes : d.handler.nodes = [] := by
    rw [hok.nodes, hhanded]
    simp [hfaulty]
  have hwatch : exec (step c instanceId events) init (ls.map .watch) = some ⟨d, [], false⟩ :=
    exec_watch hd hrun []
  have hsettled : Settled events ⟨d, [], false⟩ := by
    refine ⟨hquiet, ?_⟩
    intro name hname
    dsimp only at hname
    rw [htenants] at hname
    cases hname
  have hgoods : ∀ r ∈ events.filter fun r => !faulty c r, faulty c r = false :=
    fun r hr => faulty_of_mem_filter hr
  obtain ⟨ms, t, ht, hsettled'⟩ := exists_settled (h.filter _) hgoods
  have hcalm := calm_exec (h.filter _) hgoods ht
  have hmem : r ∈ events.filter fun r => !faulty c r := by
    rw [List.mem_filter]
    exact ⟨hr, by rw [hgood]; rfl⟩
  obtain ⟨hsameTenants, hsameNodes⟩ := hcontained.2 _ _ ms t hwatch ht hsettled hsettled'
  cases hkind : isNode r with
  | false =>
    obtain ⟨x, hx⟩ := tenant_ok hgood hkind
    have hruns := (hcalm.tenantRuns_iff hsettled' _ x).mpr ⟨⟨r, hmem, hkind, rfl⟩, hx⟩
    have hlost := (hsameTenants _ x).mpr hruns
    cases hlost.1
  | true =>
    obtain ⟨x, hx⟩ := node_ok hgood hkind
    have hruns := (hcalm.nodeRuns_iff hsettled' _ x).mpr ⟨⟨r, hmem, ⟨hkind, hgood⟩, rfl⟩, hx⟩
    have hlost := ((hsameNodes _ x).mpr hruns).1
    dsimp only at hlost
    rw [hnodes] at hlost
    cases hlost

/-- A faulty node after the first entry uses up all the failures of the watch. -/
theorem not_contained_of_stuck (h : Creations instanceId events) {k : ℕ} {e : RapidReply}
    (hk : 0 < k) (he : events[k]? = some e) (hfaulty : faulty c e = true)
    (hnode : isNode e = true) (hgood : ∀ r ∈ events.take k, faulty c r = false) :
    ¬ Contained c instanceId events := by
  have hfails : fails c e ≠ none := fails_ne_none hfaulty hnode
  obtain ⟨ls, d, hd, hstuck⟩ := Delivery.exists_stuck h.ordered (handles_watch h)
    registered_create hk he hfails (fun r hr => fails_eq_none (hgood r hr)) 4 (by decide)
  obtain ⟨d', hd', -, -, hwatch, -⟩ :=
    Delivery.stuck_respond h.ordered (handles_watch h) hstuck he hfails (by decide)
  have hrun : d.watch.maxFailures ≠ 0 := by
    rw [hstuck.failures]
    decide
  apply not_contained_of_ended hd hrun hd'
  rw [hwatch]
  rfl

theorem mem_tenants_of_handed {handed : List RapidReply} {s : Instance} {e : RapidReply}
    (hs : Registered c events handed s) (he : e ∈ handed) (hnode : isNode e = false) :
    Instance.entryName e ∈ s.tenants := by
  rw [hs.tenants]
  exact List.mem_map.mpr ⟨e, List.mem_filter.mpr ⟨he, by rw [hnode]; rfl⟩, rfl⟩

/-- A faulty tenant after entries that can be set up. -/
theorem not_contained_of_tenant_first (h : Creations instanceId events) {k : ℕ}
    {e : RapidReply} (he : events[k]? = some e) (hfaulty : faulty c e = true)
    (hnode : isNode e = false) (hgood : ∀ r ∈ events.take k, faulty c r = false) :
    ¬ Contained c instanceId events := by
  have hlen : k < events.length := (List.getElem?_eq_some_iff.mp he).1
  have hgood' : ∀ r ∈ events.take (k + 1), fails c r = none := by
    intro r hr
    rw [Delivery.take_succ_eq he] at hr
    rcases List.mem_append.mp hr with hold | hlast
    · exact fails_eq_none (hgood r hold)
    · rw [List.mem_singleton.mp hlast]
      exact fails_of_tenant hnode
  obtain ⟨ls, d, hd, hsmooth, -⟩ := Delivery.exists_smooth h.ordered (handles_watch h)
    registered_create hlen hgood'
  have hhanded : e ∈ d.handed := by
    rw [hsmooth.handed]
    exact Delivery.mem_take_succ he
  obtain ⟨x, hset⟩ := tenant_error hfaulty hnode
  exact not_contained_of_tenant hd hsmooth.running
    (mem_tenants_of_handed hsmooth.ok hhanded hnode) hset

/-- A faulty tenant after a few faulty nodes. -/
theorem not_contained_of_tenant_later (h : Creations instanceId events) {n : ℕ}
    {e : RapidReply} (he : events[n]? = some e) (hn : n < failureLimit)
    (hfaulty : faulty c e = true) (hnode : isNode e = false)
    (hbad : ∀ r ∈ events.take n, isNode r = true ∧ faulty c r = true) :
    ¬ Contained c instanceId events := by
  have hlen : n < events.length := (List.getElem?_eq_some_iff.mp he).1
  obtain ⟨ls, d, hd, hfailed⟩ := Delivery.exists_failed h.ordered (handles_watch h)
    registered_create hn (Nat.le_of_lt hlen)
    (fun r hr => fails_ne_none (hbad r hr).2 (hbad r hr).1)
  obtain ⟨d', hd', hhanded, -, -, hok, hwatch⟩ :=
    Delivery.failed_next h.ordered (handles_watch h) hfailed he hn
  rw [if_pos (fails_of_tenant hnode)] at hwatch
  have hrun : d'.watch.maxFailures ≠ 0 := by
    rw [hwatch]
    exact Nat.succ_ne_zero 4
  have hmem : e ∈ d'.handed := by
    rw [hhanded]
    exact Delivery.mem_take_succ he
  obtain ⟨x, hset⟩ := tenant_error hfaulty hnode
  exact not_contained_of_tenant (exec_append.mpr ⟨d, hd, hd'⟩) hrun
    (mem_tenants_of_handed hok hmem hnode) hset

/-- Five faulty nodes in a row. -/
theorem not_contained_of_five (h : Creations instanceId events)
    (hlen : failureLimit ≤ events.length)
    (hbad : ∀ r ∈ events.take failureLimit, isNode r = true ∧ faulty c r = true) :
    ¬ Contained c instanceId events := by
  have he : events[4]? = some events[4] := List.getElem?_eq_getElem hlen
  have hbad' : ∀ r ∈ events.take 4, fails c r ≠ none := by
    intro r hr
    obtain ⟨hnode, hfaulty⟩ := hbad r (List.take_subset_take_left events (by decide) hr)
    exact fails_ne_none hfaulty hnode
  obtain ⟨ls, d, hd, hfailed⟩ := Delivery.exists_failed h.ordered (handles_watch h)
    registered_create (by decide) (Nat.le_of_lt hlen) hbad'
  obtain ⟨d', hd', -, -, -, -, hwatch⟩ :=
    Delivery.failed_next h.ordered (handles_watch h) hfailed he (by decide)
  have hlast : events[4] ∈ events.take failureLimit := Delivery.mem_take_succ he
  rw [if_neg (fails_ne_none (hbad _ hlast).2 (hbad _ hlast).1)] at hwatch
  obtain ⟨d₁, h₁, hrest⟩ := exec_cons.mp hd'
  obtain ⟨d₂, h₂, heq⟩ := exec_cons.mp hrest
  have heq' : d₂ = d' := Option.some.inj heq
  subst heq'
  apply not_contained_of_ended (exec_snoc.mpr ⟨d, hd, h₁⟩) (Delivery.step_cases h₂).1 h₂
  rw [hwatch]
  rfl

/-- All entries are faulty and some are tenants. -/
theorem not_contained_of_faulty (h : Creations instanceId events)
    (hbad : ∀ r ∈ events, faulty c r = true)
    (hcond : ¬ ((∀ r ∈ events, isNode r = true) ∧ events.length < failureLimit)) :
    ¬ Contained c instanceId events := by
  by_cases htenant : ∃ r ∈ events.take failureLimit, isNode r = false
  · obtain ⟨r, hr, hkind⟩ := htenant
    obtain ⟨k, e, he, hnode, hbefore⟩ :=
      Delivery.exists_first (P := fun r => isNode r = false) hr hkind
    rw [List.getElem?_take] at he
    split_ifs at he with hlt
    apply not_contained_of_tenant_later h he hlt (hbad e (List.mem_of_getElem? he)) hnode
    intro r hr
    have hmem : r ∈ (events.take failureLimit).take k := by
      rw [List.take_take, Nat.min_eq_left (Nat.le_of_lt hlt)]
      exact hr
    exact ⟨by simpa using hbefore r hmem, hbad r (List.mem_of_mem_take hr)⟩
  · have hnodes : ∀ r ∈ events.take failureLimit, isNode r = true := by
      intro r hr
      by_contra hkind
      exact htenant ⟨r, hr, by simpa using hkind⟩
    have hlen : failureLimit ≤ events.length := by
      by_contra hshort
      apply hcond
      rw [List.take_of_length_le (by omega)] at hnodes
      exact ⟨hnodes, by omega⟩
    exact not_contained_of_five h hlen fun r hr =>
      ⟨hnodes r hr, hbad r (List.mem_of_mem_take hr)⟩

/-- Faulty entries are contained exactly when there are none, or when there is nothing
else than a few nodes that cannot be set up. -/
theorem contained_iff (h : Creations instanceId events) :
    Contained c instanceId events ↔
      (∀ r ∈ events, faulty c r = false) ∨
        ((∀ r ∈ events, isNode r = true ∧ faulty c r = true) ∧ events.length < 5) := by
  constructor
  · intro hcontained
    by_contra hcond
    push Not at hcond
    obtain ⟨⟨r, hr, hfaulty⟩, hmixed⟩ := hcond
    have hfaulty : faulty c r = true := by simpa using hfaulty
    by_cases hall : ∀ r ∈ events, faulty c r = true
    · apply not_contained_of_faulty h hall ?_ hcontained
      rintro ⟨hnodes, hlen⟩
      have hlarge := hmixed fun r hr => ⟨hnodes r hr, hall r hr⟩
      have hlimit : failureLimit = 5 := rfl
      omega
    · push Not at hall
      obtain ⟨good, hmem, hgood⟩ := hall
      have hgood : faulty c good = false := by simpa using hgood
      -- the first faulty entry decides how the property fails
      obtain ⟨k, e, he, hbad, hbefore⟩ :=
        Delivery.exists_first (P := fun r => faulty c r = true) hr hfaulty
      have hbefore : ∀ r ∈ events.take k, faulty c r = false := by
        intro r hr
        simpa using hbefore r hr
      cases hnode : isNode e with
      | false => exact not_contained_of_tenant_first h he hbad hnode hbefore hcontained
      | true =>
        rcases Nat.eq_zero_or_pos k with hzero | hpos
        · subst hzero
          exact not_contained_of_skipped h he hbad hnode hmem hgood hcontained
        · exact not_contained_of_stuck h hpos he hbad hnode hbefore hcontained
  · rintro (hgood | ⟨hbad, hlen⟩)
    · exact contained_of_good h hgood
    · exact contained_of_nodes h hbad hlen

/-- The port of tenant `t1` is not a number. -/
def wrongPort : Contents ℕ where
  cast := ConfigRace.decimalCast
  uint64 value := (ConfigRace.decimal value).bind fun n =>
    if n < UInt64.size then some (UInt64.ofNat n) else none
  store key :=
    if key = "/hvbench/tenants/t1/setup/listen".toList then some "0.0.0.0".toList
    else if key = "/hvbench/tenants/t1/setup/port".toList then some "http".toList
    else none

def createT1 : List RapidReply :=
  [.change "set".toList "/hvbench/instances/1/t1".toList "tenant".toList 7]

/-- The thread of `t1` ends with an exception that nothing catches. -/
theorem wrong_port_terminates : ¬ Contained wrongPort 1 createT1 := by
  intro h
  have hgoing := h.1 [.watch .write, .watch .respond, .tenant "t1".toList] _ rfl
  cases hgoing

/-- The setup of the tenant `t1` is complete, and that of the node `n1` is missing. -/
def onlyT1 : Contents ℕ where
  cast := ConfigRace.decimalCast
  uint64 := wrongPort.uint64
  store key :=
    if key = "/hvbench/tenants/t1/setup/listen".toList then some "0.0.0.0".toList
    else if key = "/hvbench/tenants/t1/setup/port".toList then some "6653".toList
    else if key = "/hvbench/tenants/t1/generator".toList then some "constant".toList
    else if key = "/hvbench/tenants/t1/generator_conf/avg_rate".toList then some "100".toList
    else if key = "/hvbench/tenants/t1/generator_conf/msg_t".toList then
      some "FEATURES_REQUEST".toList
    else none

def createT1N1 : List RapidReply :=
  createT1 ++ [.change "set".toList "/hvbench/instances/1/n1".toList "node".toList 8]

theorem creations_createT1N1 : Creations 1 createT1N1 := by
  constructor
  · constructor
    · intro r hr
      simp only [createT1N1, createT1, List.cons_append, List.nil_append, List.mem_cons,
        List.not_mem_nil, or_false] at hr
      rcases hr with rfl | rfl <;> rfl
    · simp [createT1N1, createT1, Delivery.index]
  · intro r hr
    simp only [createT1N1, createT1, List.cons_append, List.nil_append, List.mem_cons,
      List.not_mem_nil, or_false] at hr
    rcases hr with rfl | rfl
    · exact ⟨by decide, _, _, [], rfl, by decide, .inl rfl⟩
    · exact ⟨by decide, _, _, [], rfl, by decide, .inr rfl⟩
  · intro r hr r' hr' hkind _
    simp only [createT1N1, createT1, List.cons_append, List.nil_append, List.mem_cons,
      List.not_mem_nil, or_false] at hr hr'
    rcases hr with rfl | rfl <;> rcases hr' with rfl | rfl
    · rfl
    · exact absurd hkind (by decide)
    · exact absurd hkind (by decide)
    · rfl

/-- The tenant is not contained beside the node, which is faulty. -/
theorem contained_iff_createT1N1 :
    createT1N1.map (faulty onlyT1) = [false, true] ∧ ¬ Contained onlyT1 1 createT1N1 := by
  have hfaulty : createT1N1.map (faulty onlyT1) = [false, true] := by decide
  refine ⟨hfaulty, ?_⟩
  rw [contained_iff creations_createT1N1]
  rintro (hgood | ⟨hbad, -⟩)
  · have hall : ∀ b ∈ createT1N1.map (faulty onlyT1), b = false := by
      simpa using hgood
    rw [hfaulty] at hall
    exact absurd (hall true (by simp)) (by decide)
  · have hall : ∀ b ∈ createT1N1.map (faulty onlyT1), b = true := by
      intro b hb
      obtain ⟨r, hr, rfl⟩ := List.mem_map.mp hb
      exact (hbad r hr).2
    rw [hfaulty] at hall
    exact absurd (hall false (by simp)) (by decide)

end Containment
end HVBench
