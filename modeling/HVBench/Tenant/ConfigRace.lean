import HVBench.Generators.TenantGenerator
import HVBench.Library.Holding
import HVBench.Library.Transition
import Mathlib.Logic.Function.Basic

/-! A tenant that is created while its configuration is written. Its thread reads the
parameters of the generator key by key, the instance watcher makes the tenant known, and
the configuration watcher is handed one event for each write, in write order. -/
namespace HVBench
namespace ConfigRace
open StdString

/-- The keys `_run` reads for a `TenantGenerator`. -/
inductive ConfKey
  | weight (type : OFPT)
  | avgRate
  deriving DecidableEq, Repr

namespace ConfKey

def component : ConfKey → StdString
  | weight _ => "weights".toList
  | avgRate => "generator_conf".toList

/-- `OFPT::STR.at` does not throw for the types in `msg_types`. -/
def name : ConfKey → StdString
  | weight type => type.str.getD []
  | avgRate => "avg_rate".toList

def path (k : ConfKey) : StdString := join k.component k.name

/-- The key in etcd, below the directory of the tenant. -/
def etcdKey (id : StdString) (k : ConfKey) : StdString :=
  join etcdTenantsConf (join id k.path)

end ConfKey

/-- In the order in which they are read. -/
def confKeys : List ConfKey := OFPT.reqTypes.map .weight ++ [.avgRate]

/-- A value a key can have, once parsed. -/
inductive Param (F : Type*)
  | weight (w : F)
  | rate (r : UInt32)
  deriving DecidableEq, Repr

/-- An event the watcher has not been handed yet. -/
structure ConfEvent where
  key : ConfKey
  value : StdString
  /-- History: the tenant's thread has read the key since the write. -/
  seen : Bool
  deriving DecidableEq, Repr

inductive ReaderPc
  | notStarted
  | reading
  | build (rate : UInt32)
  | running
  deriving DecidableEq, Repr

structure State (F : Type*) where
  store : StdString → StdString
  queue : List ConfEvent
  /-- `tenants_.count`. -/
  known : Bool
  tenant : ReaderPc
  /-- The vector `_run` collects the weights in. -/
  weights : List F
  generator : Option (TenantGenerator F)
  /-- `update` was called on a null `msg_generator_`. -/
  crashed : Bool

inductive Label
  /-- `Tenant::start`. -/
  | start
  /-- The insertion into `tenants_`. -/
  | insert
  /-- The tenant's thread reads the next key, or builds the generator. -/
  | read
  | write (key : ConfKey) (value : StdString)
  | deliver
  deriving DecidableEq, Repr

variable {F : Type*} (cast : LexicalCast F) (id : StdString)

def init (store : StdString → StdString) : State F where
  store := store
  queue := []
  known := false
  tenant := .notStarted
  weights := []
  generator := none
  crashed := false

def parse : ConfKey → StdString → Option (Param F)
  | .weight _, value => (cast.float value).map .weight
  | .avgRate, value => (cast.uint32 value).map .rate

/-- `etcd_get`, relative to the directory of the tenant. -/
def etcdGet (store : StdString → StdString) (path : StdString) : StdString :=
  store (join (join etcdTenantsConf id) path)

def markSeen (k : ConfKey) (queue : List ConfEvent) : List ConfEvent :=
  queue.map fun e => if e.key = k then { e with seen := true } else e

/-- A value that does not parse ends the thread, and the process with it. -/
def readStep (s : State F) : Option (State F) :=
  match s.tenant with
  | .reading =>
    match OFPT.reqTypes[s.weights.length]? with
    | some type =>
      (cast.float (etcdGet id s.store (ConfKey.weight type).path)).map fun w =>
        { s with weights := s.weights ++ [w], queue := markSeen (.weight type) s.queue }
    | none =>
      (cast.uint32 (etcdGet id s.store ConfKey.avgRate.path)).map fun r =>
        { s with tenant := .build r, queue := markSeen .avgRate s.queue }
  | .build r => some
      { s with
        tenant := .running
        generator := some (TenantGenerator.create r OFPT.reqTypes s.weights) }
  | _ => none

/-- `_onChangeTenantConf` on the next event. -/
def deliverStep (s : State F) : Option (State F) :=
  match s.queue with
  | [] => none
  | e :: queue =>
    match onChangeTenantConf (fun tenant => s.known && tenant = id)
        [(e.key.etcdKey id, e.value)] with
    | .ok (some (_, key, value)) =>
      match s.generator with
      | some g =>
        match g.update cast key value with
        | .ok g => some { s with queue := queue, generator := some g }
        | .error _ => some { s with queue := queue }
      | none => some { s with queue := queue, crashed := true }
    | _ => some { s with queue := queue }

def step (s : State F) (l : Label) : Option (State F) :=
  if s.crashed then none
  else match l with
  | .start => if s.tenant = .notStarted then some { s with tenant := .reading } else none
  | .insert =>
    if s.tenant ≠ .notStarted ∧ s.known = false then some { s with known := true } else none
  | .read => readStep cast id s
  | .write key value =>
    if key ∈ confKeys ∧ (parse cast key value).isSome then some
      { s with
        store := Function.update s.store (key.etcdKey id) value
        queue := s.queue ++ [⟨key, value, false⟩] }
    else none
  | .deliver => deliverStep cast id s

/-- What a generator uses for a key. -/
def param (g : TenantGenerator F) : ConfKey → Option (Param F)
  | .weight type => (g.weight type).map .weight
  | .avgRate => some (.rate g.nd)

/-- What the tenant has for a key, once it has read it. -/
def State.current (s : State F) (k : ConfKey) : Option (Param F) :=
  match s.generator with
  | some g => param g k
  | none =>
    match k, s.tenant with
    | .weight type, _ => s.weights[OFPT.reqTypes.idxOf type]?.map .weight
    | .avgRate, .build r => some (.rate r)
    | .avgRate, _ => none

/-- When all events are delivered, the generator uses what etcd stores. -/
def NoChangeLost (s : State F) : Prop :=
  s.queue = [] → ∀ g, s.generator = some g →
    g.Synced ∧ ∀ k ∈ confKeys, param g k = parse cast k (s.store (k.etcdKey id))

/-- An event comes when the tenant is known and its generator exists, or before the tenant
is known if the tenant's thread reads the key after the write. -/
def DeliveredInTime (s : State F) (l : Label) : Prop :=
  l = .deliver → ∀ e queue, s.queue = e :: queue →
    if s.known then s.generator.isSome else e.seen = true ∨ s.current e.key = none

theorem confKeys_cases {k : ConfKey} (hk : k ∈ confKeys) :
    (∃ type ∈ OFPT.reqTypes, k = .weight type) ∨ k = .avgRate := by
  unfold confKeys at hk
  rcases List.mem_append.mp hk with hw | hr
  · obtain ⟨type, htype, rfl⟩ := List.mem_map.mp hw
    exact .inl ⟨type, htype, rfl⟩
  · exact .inr (List.mem_singleton.mp hr)

theorem path_inj : ∀ k ∈ confKeys, ∀ j ∈ confKeys, k.path = j.path → k = j := by
  decide

theorem etcdKey_inj {k j : ConfKey} (hk : k ∈ confKeys) (hj : j ∈ confKeys)
    (h : k.etcdKey id = j.etcdKey id) : k = j := by
  have hjoin : ∀ a x y : StdString, join a x = join a y → x = y := fun a x y hxy =>
    (List.cons.inj (List.append_cancel_left hxy)).2
  exact path_inj k hk j hj (hjoin _ _ _ (hjoin _ _ _ h))

theorem etcdGet_eq (store : StdString → StdString) (k : ConfKey) :
    etcdGet id store k.path = store (k.etcdKey id) := by
  have hassoc : join (join etcdTenantsConf id) k.path = k.etcdKey id := by
    unfold ConfKey.etcdKey join
    rw [List.append_assoc, List.cons_append]
  unfold etcdGet
  rw [hassoc]

/-- The watcher hands a change of one of these keys to the generator of the tenant. -/
theorem route {id : StdString} (hid : '/' ∉ id) (tenants : StdString → Bool) (k : ConfKey)
    (value : StdString) :
    onChangeTenantConf tenants [(k.etcdKey id, value)] =
      .ok (if tenants id then some (id, k.name, value) else none) := by
  have hcomponent : '/' ∉ k.component := by
    cases k with
    | weight type => exact (by decide : '/' ∉ "weights".toList)
    | avgRate => decide
  have hcases : k.component = "generator_conf".toList ∨ k.component = "weights".toList := by
    cases k
    · exact .inr rfl
    · exact .inl rfl
  unfold ConfKey.etcdKey ConfKey.path
  rw [onChangeTenantConf_join tenants hid, onChange_join hcomponent, if_pos hcases]
  split_ifs <;> rfl

/-- A generator of this tenant: it draws from the six types and uses what was set last. -/
structure Ready (g : TenantGenerator F) : Prop where
  synced : g.Synced
  ofTypes : g.ofTypes = OFPT.reqTypes
  length : g.weights.length = OFPT.reqTypes.length

variable {cast}

theorem parse_weight {type : OFPT} {value : StdString} {p : Param F}
    (h : parse cast (.weight type) value = some p) :
    ∃ w, cast.float value = some w ∧ p = .weight w := by
  obtain ⟨w, hw, rfl⟩ := Option.map_eq_some_iff.mp h
  exact ⟨w, hw, rfl⟩

/-- An update sets the parameter of its key and no other. -/
theorem update_param {g : TenantGenerator F} (hg : Ready g) {k : ConfKey} (hk : k ∈ confKeys)
    {value : StdString} {p : Param F} (hp : parse cast k value = some p) :
    ∃ g', g.update cast k.name value = .ok g' ∧ Ready g' ∧ param g' k = some p ∧
      ∀ j ∈ confKeys, j ≠ k → param g' j = param g j := by
  have hlen : g.weights.length = g.ofTypes.length := by
    rw [hg.length, hg.ofTypes]
  rcases confKeys_cases hk with ⟨type, htype, rfl⟩ | rfl
  · obtain ⟨w, hw, rfl⟩ := parse_weight hp
    obtain ⟨name, hname⟩ := Option.isSome_iff_exists.mp (OFPT.str_isSome_of_mem_reqTypes htype)
    have hkey : (ConfKey.weight type).name = name := by
      change type.str.getD [] = name
      rw [hname]
      rfl
    have hmem : type ∈ g.ofTypes := by
      rw [hg.ofTypes]
      exact htype
    have hupdate := g.update_weight hname hmem hw
    rw [← hkey] at hupdate
    refine ⟨_, hupdate, ⟨?_, hg.ofTypes, ?_⟩, ?_, ?_⟩
    · exact ⟨hg.synced.varExp, rfl, rfl⟩
    · exact (List.length_set ..).trans hg.length
    · have hset := g.weight_set type w hmem hlen
      rw [if_pos rfl] at hset
      exact congrArg (Option.map Param.weight) hset
    · intro j hj hne
      rcases confKeys_cases hj with ⟨other, hother, rfl⟩ | rfl
      · have hother' : other ∈ g.ofTypes := by
          rw [hg.ofTypes]
          exact hother
        have hset := g.weight_set type w hother' hlen
        rw [if_neg fun heq => hne (congrArg ConfKey.weight heq)] at hset
        exact congrArg (Option.map Param.weight) hset
      · rfl
  · obtain ⟨r, hr, rfl⟩ := Option.map_eq_some_iff.mp hp
    refine ⟨_, g.update_rate hr, ⟨?_, hg.ofTypes, hg.length⟩, rfl, ?_⟩
    · exact ⟨rfl, hg.synced.discreteNd, hg.synced.varDisc⟩
    · intro j hj hne
      cases j with
      | weight other => rfl
      | avgRate => exact absurd rfl hne

variable (cast)

/-- The last event for a key carries the value that is stored. -/
def LastStored (s : State F) : Prop :=
  ∀ pre e post, s.queue = pre ++ e :: post → (∀ e' ∈ post, e'.key ≠ e.key) →
    s.store (e.key.etcdKey id) = e.value

/-- A value the tenant has read is the stored one, or an event that will be applied is
still on its way. -/
def Tracked (s : State F) : Prop :=
  ∀ k ∈ confKeys, ∀ p, s.current k = some p →
    parse cast k (s.store (k.etcdKey id)) = some p ∨
    ∃ e ∈ s.queue, e.key = k ∧ (e.seen = false ∨ (s.known = true ∧ s.generator.isSome))

structure Inv (s : State F) : Prop where
  generator : ∀ g, s.generator = some g → Ready g
  /-- The thread has stopped reading once the generator exists. -/
  running : s.generator.isSome → s.tenant = .running
  built : ∀ r, s.tenant = .build r → s.weights.length = OFPT.reqTypes.length
  length : s.weights.length ≤ OFPT.reqTypes.length
  events : ∀ e ∈ s.queue, e.key ∈ confKeys ∧ (parse cast e.key e.value).isSome
  last : LastStored id s
  tracked : Tracked cast id s

theorem inv_init (store : StdString → StdString) : Inv cast id (init store : State F) where
  generator := nofun
  running := nofun
  built := nofun
  length := Nat.zero_le _
  events := nofun
  last := by
    intro pre e post hq
    simp [init] at hq
  tracked := by
    intro k hk p hp
    cases k <;> simp [State.current, init] at hp

variable {cast id}

theorem Inv.noChangeLost {s : State F} (h : Inv cast id s) : NoChangeLost cast id s := by
  intro hq g hg
  have hready := h.generator g hg
  refine ⟨hready.synced, fun k hk => ?_⟩
  have hcurrent : s.current k = param g k := by
    unfold State.current
    rw [hg]
  obtain ⟨p, hp⟩ : ∃ p, param g k = some p := by
    rcases confKeys_cases hk with ⟨type, htype, rfl⟩ | rfl
    · have hlt : g.ofTypes.idxOf type < g.weights.length := by
        rw [hready.length, hready.ofTypes]
        exact List.idxOf_lt_length_iff.mpr htype
      have hget : g.weight type = some g.weights[g.ofTypes.idxOf type] :=
        List.getElem?_eq_getElem hlt
      exact ⟨_, congrArg (Option.map Param.weight) hget⟩
    · exact ⟨_, rfl⟩
  rcases h.tracked k hk p (hcurrent.trans hp) with hstored | ⟨e, he, -⟩
  · rw [hp, hstored]
  · rw [hq] at he
    cases he

/-- A step that leaves the readings, the queue and etcd alone. -/
theorem Inv.frame {s t : State F} (h : Inv cast id s) (hstore : t.store = s.store)
    (hqueue : t.queue = s.queue) (hgen : t.generator = s.generator)
    (hweights : t.weights = s.weights) (hknown : s.known = true → t.known = true)
    (hbuild : ∀ r, t.tenant = .build r ↔ s.tenant = .build r)
    (hrunning : s.tenant = .running → t.tenant = .running) : Inv cast id t := by
  have hcurrent : ∀ k, t.current k = s.current k := by
    intro k
    unfold State.current
    rw [hgen, hweights]
    cases s.generator with
    | some g => rfl
    | none =>
      cases k with
      | weight type => rfl
      | avgRate =>
        dsimp only
        cases hs : s.tenant with
        | build r => rw [(hbuild r).mpr hs]
        | _ =>
          cases ht : t.tenant with
          | build r => rw [(hbuild r).mp ht] at hs; cases hs
          | _ => rfl
  refine ⟨hgen ▸ h.generator, fun hg => hrunning (h.running (hgen ▸ hg)), fun r hr => ?_,
    hweights ▸ h.length, hqueue ▸ h.events, ?_, fun k hk p hp => ?_⟩
  · rw [hweights]
    exact h.built r ((hbuild r).mp hr)
  · intro pre e post hq hpost
    rw [hstore]
    exact h.last pre e post (hqueue ▸ hq) hpost
  · rw [hstore, hqueue, hgen]
    rw [hcurrent] at hp
    rcases h.tracked k hk p hp with hstored | ⟨e, he, hkey, hpending⟩
    · exact .inl hstored
    · exact .inr ⟨e, he, hkey, hpending.imp_right fun hap => ⟨hknown hap.1, hap.2⟩⟩

theorem mem_markSeen {k : ConfKey} {queue : List ConfEvent} {e : ConfEvent} (he : e ∈ queue)
    (hne : e.key ≠ k) : e ∈ markSeen k queue := by
  refine List.mem_map.mpr ⟨e, he, ?_⟩
  rw [if_neg hne]

theorem markSeen_key {k : ConfKey} (e : ConfEvent) :
    (if e.key = k then { e with seen := true } else e).key = e.key ∧
      (if e.key = k then { e with seen := true } else e).value = e.value := by
  split_ifs <;> exact ⟨rfl, rfl⟩

theorem LastStored.markSeen {s : State F} (h : LastStored id s) (k : ConfKey) :
    ∀ pre e post, ConfigRace.markSeen k s.queue = pre ++ e :: post →
      (∀ e' ∈ post, e'.key ≠ e.key) → s.store (e.key.etcdKey id) = e.value := by
  intro pre e post hq hpost
  obtain ⟨pre', rest, hqueue, -, hrest⟩ := List.map_eq_append_iff.mp hq
  obtain ⟨e', post', rfl, rfl, rfl⟩ := List.map_eq_cons_iff.mp hrest
  obtain ⟨hkey, hvalue⟩ := markSeen_key (k := k) e'
  rw [hkey, hvalue]
  apply h pre' e' post' hqueue
  intro x hx
  have hne := hpost _ (List.mem_map_of_mem hx)
  rw [(markSeen_key x).1, hkey] at hne
  exact hne

/-- The tenant's thread reads one key. -/
theorem Inv.readKey {s t : State F} (h : Inv cast id s) {k : ConfKey} {p : Param F}
    (hp : parse cast k (s.store (k.etcdKey id)) = some p) (hstore : t.store = s.store)
    (hqueue : t.queue = markSeen k s.queue) (hgen : s.generator = none)
    (htgen : t.generator = none) (hknown : t.known = s.known)
    (hcurrent : ∀ j ∈ confKeys, t.current j = if j = k then some p else s.current j)
    (hbuilt : ∀ r, t.tenant = .build r → t.weights.length = OFPT.reqTypes.length)
    (hlength : t.weights.length ≤ OFPT.reqTypes.length) : Inv cast id t := by
  refine ⟨by simp [htgen], by simp [htgen], hbuilt, hlength, ?_, ?_, fun j hj q hq => ?_⟩
  · intro e he
    rw [hqueue] at he
    obtain ⟨e', he', rfl⟩ := List.mem_map.mp he
    obtain ⟨hkey, hvalue⟩ := markSeen_key (k := k) e'
    rw [hkey, hvalue]
    exact h.events e' he'
  · rw [LastStored, hqueue, hstore]
    exact h.last.markSeen k
  · rw [hcurrent j hj] at hq
    rw [hstore]
    split_ifs at hq with hjk
    · subst hjk
      obtain rfl := Option.some.inj hq
      exact .inl hp
    · rcases h.tracked j hj q hq with hstored | ⟨e, he, hkey, hpending⟩
      · exact .inl hstored
      · right
        refine ⟨e, by rw [hqueue]; exact mem_markSeen he (hkey ▸ hjk), hkey, ?_⟩
        rw [hgen] at hpending
        rw [hknown, htgen]
        exact hpending

theorem Inv.generator_none {s : State F} (h : Inv cast id s) (hpc : s.tenant ≠ .running) :
    s.generator = none := by
  by_contra hne
  exact hpc (h.running (Option.isSome_iff_ne_none.mpr hne))

theorem mem_reqTypes_of_mem {type : OFPT} (h : .weight type ∈ confKeys) :
    type ∈ OFPT.reqTypes := by
  rcases confKeys_cases h with ⟨other, hother, heq⟩ | heq
  · rw [ConfKey.weight.inj heq]
    exact hother
  · cases heq

/-- The weight read last is the next one in the order of the types. -/
theorem weights_concat {weights : List F} {type : OFPT} (w : F)
    (htype : OFPT.reqTypes[weights.length]? = some type) {other : OFPT}
    (hother : other ∈ OFPT.reqTypes) :
    (weights ++ [w])[OFPT.reqTypes.idxOf other]? =
      if other = type then some w else weights[OFPT.reqTypes.idxOf other]? := by
  obtain ⟨hlt, hget⟩ := List.getElem?_eq_some_iff.mp htype
  have hidx : OFPT.reqTypes.idxOf type = weights.length := by
    rw [← hget]
    exact List.Nodup.idxOf_getElem (by decide) _ hlt
  by_cases heq : other = type
  · rw [if_pos heq, heq, hidx]
    exact List.getElem?_concat_length
  · have hne : OFPT.reqTypes.idxOf other ≠ weights.length := fun hsame =>
      heq ((List.idxOf_inj hother).mp (hsame.trans hidx.symm))
    rw [if_neg heq]
    exact Holding.getElem?_snoc_of_ne hne

theorem inv_readWeight {s : State F} (h : Inv cast id s) (hpc : s.tenant = .reading)
    {type : OFPT} (htype : OFPT.reqTypes[s.weights.length]? = some type) {w : F}
    (hw : cast.float (s.store ((ConfKey.weight type).etcdKey id)) = some w) :
    Inv cast id { s with
      weights := s.weights ++ [w]
      queue := markSeen (.weight type) s.queue } := by
  have hgen : s.generator = none := h.generator_none (by rw [hpc]; nofun)
  have hlt := (List.getElem?_eq_some_iff.mp htype).1
  refine h.readKey (k := .weight type) (p := .weight w) ?_ rfl rfl hgen hgen rfl ?_ ?_ ?_
  · exact congrArg (Option.map Param.weight) hw
  · intro j hj
    unfold State.current
    rw [hgen]
    cases j with
    | avgRate => rw [if_neg nofun, hpc]
    | weight other =>
      dsimp only
      rw [weights_concat w htype (mem_reqTypes_of_mem hj)]
      by_cases heq : other = type
      · rw [if_pos heq, if_pos (congrArg ConfKey.weight heq)]
        rfl
      · rw [if_neg heq, if_neg fun hk => heq (ConfKey.weight.inj hk)]
  · intro r hr
    rw [hpc] at hr
    cases hr
  · rw [List.length_append]
    exact hlt

theorem inv_readRate {s : State F} (h : Inv cast id s) (hpc : s.tenant = .reading)
    (hlen : OFPT.reqTypes.length ≤ s.weights.length) {r : UInt32}
    (hr : cast.uint32 (s.store (ConfKey.avgRate.etcdKey id)) = some r) :
    Inv cast id { s with tenant := .build r, queue := markSeen .avgRate s.queue } := by
  have hgen : s.generator = none := h.generator_none (by rw [hpc]; nofun)
  refine h.readKey (k := .avgRate) (p := .rate r) ?_ rfl rfl hgen hgen rfl ?_ ?_ h.length
  · exact congrArg (Option.map Param.rate) hr
  · intro j hj
    unfold State.current
    rw [hgen]
    cases j with
    | avgRate => rfl
    | weight other => rw [if_neg nofun]
  · exact fun _ _ => Nat.le_antisymm h.length hlen

/-- The generator starts with what was read. -/
theorem inv_build {s : State F} (h : Inv cast id s) {r : UInt32} (hpc : s.tenant = .build r) :
    Inv cast id { s with
      tenant := .running
      generator := some (TenantGenerator.create r OFPT.reqTypes s.weights) } := by
  have hgen : s.generator = none := h.generator_none (by rw [hpc]; nofun)
  refine ⟨?_, fun _ => rfl, nofun, h.length, h.events, h.last, fun k hk p hp => ?_⟩
  · intro g hg
    obtain rfl := Option.some.inj hg
    exact ⟨TenantGenerator.synced_create .., rfl, h.built r hpc⟩
  · have hcurrent : s.current k = some p := by
      rw [← hp]
      unfold State.current
      cases k with
      | weight type =>
        rw [hgen]
        rfl
      | avgRate =>
        rw [hgen, hpc]
        rfl
    rcases h.tracked k hk p hcurrent with hstored | ⟨e, he, hkey, hpending⟩
    · exact .inl hstored
    · rw [hgen] at hpending
      exact .inr ⟨e, he, hkey, .inl (hpending.resolve_right fun hap => by cases hap.2)⟩

theorem inv_read {s t : State F} (h : Inv cast id s) (ht : readStep cast id s = some t) :
    Inv cast id t := by
  unfold readStep at ht
  cases hpc : s.tenant with
  | notStarted | running =>
    rw [hpc] at ht
    cases ht
  | build r =>
    rw [hpc] at ht
    cases ht
    exact inv_build h hpc
  | reading =>
    rw [hpc] at ht
    cases htype : OFPT.reqTypes[s.weights.length]? with
    | some type =>
      rw [htype] at ht
      obtain ⟨w, hw, rfl⟩ := Option.map_eq_some_iff.mp ht
      rw [etcdGet_eq] at hw
      rw [← hpc]
      exact inv_readWeight h hpc htype hw
    | none =>
      rw [htype] at ht
      obtain ⟨r, hr, rfl⟩ := Option.map_eq_some_iff.mp ht
      rw [etcdGet_eq] at hr
      exact inv_readRate h hpc (List.getElem?_eq_none_iff.mp htype) hr

theorem inv_write {s : State F} (h : Inv cast id s) {key : ConfKey} {value : StdString}
    (hkey : key ∈ confKeys) (hvalue : (parse cast key value).isSome) :
    Inv cast id { s with
      store := Function.update s.store (key.etcdKey id) value
      queue := s.queue ++ [⟨key, value, false⟩] } := by
  refine ⟨h.generator, h.running, h.built, h.length, ?_, ?_, fun k hk p hp => ?_⟩
  · intro e he
    rcases List.mem_append.mp he with he | he
    · exact h.events e he
    · rw [List.mem_singleton.mp he]
      exact ⟨hkey, hvalue⟩
  · intro pre e post hq hpost
    dsimp only at hq ⊢
    rcases List.eq_nil_or_concat post with rfl | ⟨post, last, rfl⟩
    · obtain ⟨-, hnew⟩ := List.append_inj' hq rfl
      obtain rfl := List.singleton_inj.mp hnew
      rw [Function.update_self]
    · -- a later event is the new one, so this one is for another key
      have hq' : s.queue ++ [⟨key, value, false⟩] = (pre ++ e :: post) ++ [last] := by
        rw [hq]
        simp
      obtain ⟨hqueue, hnew⟩ := List.append_inj' hq' rfl
      obtain rfl := List.singleton_inj.mp hnew
      have hother : key ≠ e.key := hpost ⟨key, value, false⟩ (by simp)
      have he : e.key ∈ confKeys := (h.events e (by rw [hqueue]; simp)).1
      have hne : e.key.etcdKey id ≠ key.etcdKey id := fun hk =>
        hother (etcdKey_inj id he hkey hk).symm
      rw [Function.update_of_ne hne]
      exact h.last pre e post hqueue fun e' he' => hpost e' (by simp [he'])
  · by_cases heq : k = key
    · exact .inr ⟨_, List.mem_append_right _ (List.mem_singleton_self _), heq.symm, .inl rfl⟩
    · have hne : k.etcdKey id ≠ key.etcdKey id := fun hk' => heq (etcdKey_inj id hk hkey hk')
      dsimp only
      rw [Function.update_of_ne hne]
      rcases h.tracked k hk p hp with hstored | ⟨e, he, hpending⟩
      · exact .inl hstored
      · exact .inr ⟨e, List.mem_append_left _ he, hpending⟩

/-- What is known of the queue holds of its tail. -/
theorem Inv.tail {s : State F} (h : Inv cast id s) {e : ConfEvent} {queue : List ConfEvent}
    (hqueue : s.queue = e :: queue) :
    (∀ e ∈ queue, e.key ∈ confKeys ∧ (parse cast e.key e.value).isSome) ∧
      LastStored id { s with queue := queue } := by
  constructor
  · intro e' he'
    apply h.events
    rw [hqueue]
    exact List.mem_cons_of_mem _ he'
  · intro pre e' post hq hpost
    dsimp only at hq
    apply h.last (e :: pre) e' post
    · rw [hqueue, hq]
      rfl
    · exact hpost

/-- The event reaches the generator. -/
theorem Inv.applied {s : State F} (h : Inv cast id s) {e : ConfEvent} {queue : List ConfEvent}
    (hqueue : s.queue = e :: queue) (hknown : s.known = true) {g g' : TenantGenerator F}
    (hg : s.generator = some g) (hg' : Ready g') {v : Param F}
    (hv : parse cast e.key e.value = some v) (hset : param g' e.key = some v)
    (hothers : ∀ j ∈ confKeys, j ≠ e.key → param g' j = param g j) :
    Inv cast id { s with queue := queue, generator := some g' } := by
  obtain ⟨hevents, hlast⟩ := h.tail hqueue
  have hrunning : s.tenant = .running := h.running (by rw [hg]; rfl)
  refine ⟨?_, fun _ => hrunning, h.built, h.length, hevents, hlast, fun k hk p hp => ?_⟩
  · intro g₁ hg₁
    obtain rfl := Option.some.inj hg₁
    exact hg'
  · change param g' k = some p at hp
    by_cases hke : k = e.key
    · subst hke
      obtain rfl := Option.some.inj (hset.symm.trans hp)
      by_cases hmore : ∃ e' ∈ queue, e'.key = e.key
      · obtain ⟨e', he', hkey'⟩ := hmore
        exact .inr ⟨e', he', hkey', .inr ⟨hknown, rfl⟩⟩
      · have hstored := h.last [] e queue hqueue fun e' he' hk' => hmore ⟨e', he', hk'⟩
        left
        dsimp only
        rw [hstored, hv]
    · rw [hothers k hk hke] at hp
      have hcurrent : s.current k = some p := by
        unfold State.current
        rw [hg]
        exact hp
      rcases h.tracked k hk p hcurrent with hstored | ⟨e', he', hkey', hpending⟩
      · exact .inl hstored
      · rw [hqueue] at he'
        have hin : e' ∈ queue := by
          rcases List.mem_cons.mp he' with rfl | hin
          · exact absurd hkey'.symm hke
          · exact hin
        exact .inr ⟨e', hin, hkey', .inr ⟨hknown, rfl⟩⟩

/-- The event is dropped, but its value was read or will be. -/
theorem Inv.dropped {s : State F} (h : Inv cast id s) {e : ConfEvent} {queue : List ConfEvent}
    (hqueue : s.queue = e :: queue) (hknown : s.known ≠ true)
    (hread : e.seen = true ∨ s.current e.key = none) :
    Inv cast id { s with queue := queue } := by
  obtain ⟨hevents, hlast⟩ := h.tail hqueue
  refine ⟨h.generator, h.running, h.built, h.length, hevents, hlast, fun k hk p hp => ?_⟩
  change s.current k = some p at hp
  rcases h.tracked k hk p hp with hstored | ⟨e', he', hkey', hpending⟩
  · exact .inl hstored
  · have hunseen : e'.seen = false := hpending.resolve_right fun hap => hknown hap.1
    rw [hqueue] at he'
    rcases List.mem_cons.mp he' with rfl | hin
    · rcases hread with hseen | hunread
      · rw [hunseen] at hseen
        cases hseen
      · rw [hkey', hp] at hunread
        cases hunread
    · exact .inr ⟨e', hin, hkey', .inl hunseen⟩

theorem inv_deliver {s t : State F} (hid : '/' ∉ id) (h : Inv cast id s)
    (hC : DeliveredInTime s .deliver) (ht : deliverStep cast id s = some t) :
    Inv cast id t := by
  unfold deliverStep at ht
  split at ht
  case h_1 => cases ht
  case h_2 e queue hqueue =>
    have hready := hC rfl e queue hqueue
    rw [route hid] at ht
    by_cases hknown : s.known = true
    · have hmem : e ∈ s.queue := by
        rw [hqueue]
        exact List.mem_cons_self
      obtain ⟨hkey, hvalue⟩ := h.events e hmem
      obtain ⟨v, hv⟩ := Option.isSome_iff_exists.mp hvalue
      rw [if_pos hknown] at hready
      obtain ⟨g, hg⟩ := Option.isSome_iff_exists.mp hready
      obtain ⟨g', hupdate, hg', hset, hothers⟩ := update_param (h.generator g hg) hkey hv
      rw [if_pos (by simp [hknown])] at ht
      simp only [hg, hupdate] at ht
      have heq := Option.some.inj ht
      subst heq
      exact h.applied hqueue hknown hg hg' hv hset hothers
    · rw [if_neg hknown] at hready
      rw [if_neg (by simp [hknown])] at ht
      have heq := Option.some.inj ht
      subst heq
      exact h.dropped hqueue hknown hready

theorem inv_step {s t : State F} {l : Label} (hid : '/' ∉ id) (h : Inv cast id s)
    (hC : DeliveredInTime s l) (ht : step cast id s l = some t) : Inv cast id t := by
  cases l with
  | start =>
    simp only [step] at ht
    split_ifs at ht with _ hpc
    have heq := Option.some.inj ht
    subst heq
    refine h.frame rfl rfl rfl rfl (fun hk => hk) (fun r => ?_) fun hrun => ?_
    · simp [hpc]
    · rw [hpc] at hrun
      cases hrun
  | insert =>
    simp only [step] at ht
    split_ifs at ht
    have heq := Option.some.inj ht
    subst heq
    exact h.frame rfl rfl rfl rfl (fun _ => rfl) (fun _ => Iff.rfl) fun hrun => hrun
  | read =>
    simp only [step] at ht
    split_ifs at ht
    exact inv_read h ht
  | write key value =>
    simp only [step] at ht
    split_ifs at ht with _ hw
    have heq := Option.some.inj ht
    subst heq
    exact inv_write h hw.1 hw.2
  | deliver =>
    simp only [step] at ht
    split_ifs at ht
    exact inv_deliver hid h hC ht

/-- A tenant that gets each event in time ends up with the configuration in etcd. -/
theorem no_change_lost (hid : '/' ∉ id) (store : StdString → StdString) (ls : List Label)
    (s : State F) (h : Transition.exec (step cast id) (init store) ls = some s)
    (hC : Transition.Meets (step cast id) DeliveredInTime (init store) ls) :
    NoChangeLost cast id s := by
  have hinv : Inv cast id s :=
    Transition.exec_invariant_of_meets (fun _ _ _ hs hC ht => inv_step hid hs hC ht)
      (inv_init cast id store) hC h
  exact hinv.noChangeLost

/-- `lexical_cast` of plain decimal digits. -/
def decimal (value : StdString) : Option ℕ :=
  if value ≠ [] ∧ value.all Char.isDigit then
    some (value.foldl (fun n c => 10 * n + (c.toNat - '0'.toNat)) 0)
  else none

/-- The parameters of a tenant whose weights are written as whole numbers. -/
def decimalCast : LexicalCast ℕ where
  float := decimal
  uint32 value := (decimal value).bind fun n =>
    if n < UInt32.size then some (UInt32.ofNat n) else none

def ones : StdString → StdString := fun _ => "1".toList

/-- The tenant is created, known and running. -/
def quietStart : List Label :=
  .start :: .insert :: List.replicate 8 .read

def t0 : StdString := "t0".toList

def writeWeight : List Label :=
  quietStart ++ [.write (.weight .echoRequest) "5".toList]

theorem no_change_lost_weight :
    ∃ s, Transition.exec (step decimalCast t0) (init ones) (writeWeight ++ [.deliver]) = some s ∧
      s.queue = [] ∧ s.current (.weight .echoRequest) = some (.weight 5) ∧
      NoChangeLost decimalCast t0 s := by
  obtain ⟨s, hs, hq, hw⟩ : ∃ s, Transition.exec (step decimalCast t0) (init ones)
      (writeWeight ++ [.deliver]) = some s ∧ s.queue = [] ∧
        s.current (.weight .echoRequest) = some (.weight 5) := ⟨_, rfl, rfl, rfl⟩
  refine ⟨s, hs, hq, hw, no_change_lost (by decide) ones (writeWeight ++ [.deliver]) s hs ?_⟩
  apply Transition.meets_append.mpr
  constructor
  · have hquiet : Transition.Meets (step decimalCast t0) (fun _ l => l ≠ .deliver) (init ones)
        writeWeight := Transition.meets_of_forall (by decide)
    exact hquiet.mono fun _ _ hne heq => absurd heq hne
  · intro t ht
    have heq := Option.some.inj ht
    subst heq
    exact ⟨fun _ _ _ _ => rfl, fun _ _ => trivial⟩

/-- The weight is read, written and delivered before the tenant is known. -/
def lostWrite : List Label :=
  [.start, .read, .write (.weight .featureRequest) "5".toList, .deliver, .insert] ++
    List.replicate 7 .read

theorem change_lost :
    ¬ ∀ ls s, Transition.exec (step decimalCast t0) (init ones) ls = some s →
      NoChangeLost decimalCast t0 s := by
  intro hall
  obtain ⟨-, hparam⟩ := hall lostWrite _ rfl rfl _ rfl
  have hweight := hparam (.weight .featureRequest) (by decide)
  revert hweight
  decide

end ConfigRace
end HVBench
