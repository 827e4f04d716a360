import HVBench.Controller.Connection
import HVBench.Library.Transition
import HVBench.Tenant.Routing
import Mathlib.Logic.Function.Basic

/-! The life of one tenant: the thread that runs `Tenant::_run`, the two watchers, the
network threads and the thread that stops everything. Reads from etcd succeed, `send`
and `OFServer::stop` return. -/
namespace HVBench
namespace Lifecycle

/-- What `Tenant::_run` and the `HVBenchController::run` it ends in do next. -/
inductive TenantPc
  | notStarted
  | readListen
  | readPort
  | createController
  | startController
  | readGenerator
  /-- `left` more reads before the generator is created. -/
  | readConf (left : ℕ)
  | lockSwitch
  | checkSwitch
  | waitSwitch
  | setupSwitch
  | loop
  | pace
  | done
  deriving DecidableEq, Repr

/-- What `connection_callback` does next. -/
inductive CallbackPc
  | idle
  | setSwitchUp (ofconn : ℕ)
  | setConn (ofconn : ℕ)
  | lockSwitch
  | notify
  deriving DecidableEq, Repr

/-- What `HVBench::run` does next, with the `Tenant::stop` it calls. -/
inductive StopperPc
  | waitShutdown
  | stopServer
  | join
  | finished
  deriving DecidableEq, Repr

/-- The pointers one thread sets and others use. -/
inductive Part
  | msgGenerator
  | hvcontroller
  | conn
  deriving DecidableEq, Repr

/-- The first path component `Tenant::onChange` looks at. -/
inductive Component
  | generatorConf
  | weights
  | other
  deriving DecidableEq, Repr

def Component.ofKey (key : StdString) : Component :=
  if StdString.front key = "generator_conf".toList then .generatorConf
  else if StdString.front key = "weights".toList then .weights
  else .other

structure State where
  /-- `tenants_.count`. -/
  known : Bool
  tenant : TenantPc
  /-- Whether `hvcontroller_` and `msg_generator_` are set. -/
  hvcontroller : Bool
  msgGenerator : Bool
  switchUp : Bool
  conn : Option OFConnWrapper
  /-- A notification the waiting thread has not yet seen. -/
  notified : Bool
  callbacks : ℕ → CallbackPc
  running : Bool
  stopper : StopperPc
  /-- The part that was used before it was set. The process is gone then. -/
  fault : Option Part

def init : State where
  known := false
  tenant := .notStarted
  hvcontroller := false
  msgGenerator := false
  switchUp := false
  conn := none
  notified := false
  callbacks := fun _ => .idle
  running := true
  stopper := .waitShutdown
  fault := none

namespace TenantPc

/-- The thread is past the assignment of `hvcontroller_`. -/
def hasController : TenantPc → Bool
  | notStarted => false
  | readListen => false
  | readPort => false
  | createController => false
  | _ => true

/-- The thread is past `hvcontroller_->start()`. -/
def serving : TenantPc → Bool
  | startController => false
  | pc => pc.hasController

/-- The thread is past the assignment of `msg_generator_`. -/
def hasGenerator : TenantPc → Bool
  | readGenerator => false
  | readConf _ => false
  | pc => pc.serving

/-- The thread has left the loop that waits for `switch_up`. -/
def pastWait : TenantPc → Bool
  | setupSwitch => true
  | loop => true
  | pace => true
  | done => true
  | _ => false

/-- `lock` is in scope up to the end of `run`. Only `wait` gives the mutex back. -/
def holdsMutex : TenantPc → Bool
  | checkSwitch => true
  | setupSwitch => true
  | loop => true
  | pace => true
  | _ => false

end TenantPc

namespace CallbackPc

/-- The thread is past the first `switch_up = true`. -/
def pastSwitchUp : CallbackPc → Bool
  | setConn _ => true
  | lockSwitch => true
  | notify => true
  | _ => false

/-- The thread is past the assignment of `conn`. -/
def pastConn : CallbackPc → Bool
  | lockSwitch => true
  | notify => true
  | _ => false

end CallbackPc

/-- A step of the tenant's thread. The flag is the answer of etcd to `generator ==
"constant"`, and in the send loop that the next message is not due. -/
def tenantStep (s : State) (choice : Bool) : Option State :=
  match s.tenant with
  | .notStarted => none
  | .readListen => some { s with tenant := .readPort }
  | .readPort => some { s with tenant := .createController }
  | .createController => some { s with tenant := .startController, hvcontroller := true }
  | .startController => some { s with tenant := .readGenerator }
  -- `ConstantGenerator` reads two keys, the other branch six weights and the rate
  | .readGenerator => some { s with tenant := .readConf (if choice then 2 else 7) }
  | .readConf (left + 1) => some { s with tenant := .readConf left }
  | .readConf 0 => some { s with tenant := .lockSwitch, msgGenerator := true }
  | .lockSwitch => some { s with tenant := .checkSwitch }
  | .checkSwitch =>
    some { s with tenant := if s.switchUp then .setupSwitch else .waitSwitch }
  | .waitSwitch =>
    if s.notified then some { s with tenant := .checkSwitch, notified := false } else none
  | .setupSwitch =>
    if s.conn.isSome then some { s with tenant := .loop } else some { s with fault := some .conn }
  | .loop => some { s with tenant := if s.running then .pace else .done }
  | .pace =>
    if choice then some s
    else if s.conn.isSome then some { s with tenant := .loop }
    else some { s with fault := some .conn }
  | .done => none

/-- A step of `connection_callback` on a network thread, after its test of `switch_up`. -/
def callbackStep (s : State) (worker : ℕ) : Option State :=
  match s.callbacks worker with
  | .idle => none
  | .setSwitchUp ofconn => some
      { s with
        switchUp := true
        callbacks := Function.update s.callbacks worker (.setConn ofconn) }
  | .setConn ofconn => some
      { s with
        conn := some ⟨ofconn, 0⟩
        callbacks := Function.update s.callbacks worker .lockSwitch }
  | .lockSwitch =>
    if s.tenant.holdsMutex then none
    else some
      { s with switchUp := true, callbacks := Function.update s.callbacks worker .notify }
  | .notify => some
      { s with
        notified := s.notified || s.tenant = .waitSwitch
        callbacks := Function.update s.callbacks worker .idle }

/-- `Tenant::onChange`, called for a known tenant. -/
def onChange (s : State) : Component → State
  | .generatorConf => if s.msgGenerator then s else { s with fault := some .msgGenerator }
  | .weights => if s.msgGenerator then s else { s with fault := some .msgGenerator }
  | .other => s

/-- `HVBenchController::stop` up to `OFServer::stop`, called by `Tenant::stop`. -/
def stop (s : State) : State :=
  if s.hvcontroller then { s with running := false, stopper := .stopServer }
  else { s with fault := some .hvcontroller }

inductive Label
  /-- `Tenant::start`. -/
  | start
  /-- The insertion into `tenants_`. -/
  | insert
  | tenant (choice : Bool)
  /-- `wait` returns without a notification. -/
  | wake
  | change (component : Component)
  /-- `HVBench::run` sees `shutdown_`. -/
  | shutdown
  | stopServer
  | join
  /-- A network thread starts `connection_callback` and tests `switch_up`. -/
  | event (worker ofconn : ℕ) (type : Event)
  | callback (worker : ℕ)
  deriving DecidableEq, Repr

def Label.isNetwork : Label → Bool
  | .event _ _ _ => true
  | .callback _ => true
  | _ => false

def threadStep (s : State) : Label → Option State
  | .start =>
    if s.tenant = .notStarted then some { s with tenant := .readListen } else none
  | .insert =>
    if s.tenant ≠ .notStarted ∧ s.known = false then some { s with known := true } else none
  | .tenant choice => tenantStep s choice
  | .wake =>
    if s.tenant = .waitSwitch then some { s with tenant := .checkSwitch, notified := false }
    else none
  | .change component => if s.known then some (onChange s component) else some s
  | .shutdown =>
    if s.stopper = .waitShutdown then
      if s.known then some (stop s) else some { s with stopper := .finished }
    else none
  | .stopServer => if s.stopper = .stopServer then some { s with stopper := .join } else none
  | .join =>
    if s.stopper = .join ∧ s.tenant = .done then some { s with stopper := .finished } else none
  | .event worker ofconn type =>
    if s.tenant.serving ∧ s.callbacks worker = .idle then some
      { s with
        callbacks := Function.update s.callbacks worker
          (if type = .established ∧ s.switchUp = false then .setSwitchUp ofconn else .idle) }
    else none
  | .callback worker => callbackStep s worker

/-- No thread goes on after a fault. -/
def step (s : State) (l : Label) : Option State :=
  if s.fault = none then threadStep s l else none

theorem step_some {s t : State} {l : Label} :
    step s l = some t ↔ s.fault = none ∧ threadStep s l = some t := by
  unfold step
  split_ifs with hf <;> simp [hf]

/-- What the other threads see of a step of the tenant's thread. -/
theorem tenant_frame {s t : State} {choice : Bool} (h : tenantStep s choice = some t) :
    t.switchUp = s.switchUp ∧ t.conn = s.conn ∧ t.callbacks = s.callbacks ∧
      t.running = s.running ∧ t.known = s.known ∧ t.stopper = s.stopper := by
  unfold tenantStep at h
  split at h <;> first | contradiction | (split_ifs at h <;> cases h <;> simp) | (cases h; simp)

/-- What the tenant's thread sees of a step of a network thread. -/
theorem callback_frame {s t : State} {worker : ℕ} (h : callbackStep s worker = some t) :
    t.tenant = s.tenant ∧ t.hvcontroller = s.hvcontroller ∧ t.msgGenerator = s.msgGenerator ∧
      t.running = s.running ∧ t.known = s.known ∧ t.stopper = s.stopper ∧ t.fault = s.fault := by
  unfold callbackStep at h
  split at h <;> first | contradiction | (split_ifs at h; cases h; simp) | (cases h; simp)

/-- What each label does where it can be taken. -/
inductive Step (s : State) : Label → State → Prop
  | start (hpc : s.tenant = .notStarted) : Step s .start { s with tenant := .readListen }
  | insert (hpc : s.tenant ≠ .notStarted) (hknown : s.known = false) :
    Step s .insert { s with known := true }
  | tenant {choice : Bool} {t : State} (ht : tenantStep s choice = some t) :
    Step s (.tenant choice) t
  | wake (hpc : s.tenant = .waitSwitch) :
    Step s .wake { s with tenant := .checkSwitch, notified := false }
  | change {component : Component}
    (h : s.known = true → component ≠ .other → s.msgGenerator = true) :
    Step s (.change component) s
  | changeUnset {component : Component} (hknown : s.known = true) (hc : component ≠ .other)
    (hset : s.msgGenerator = false) :
    Step s (.change component) { s with fault := some .msgGenerator }
  | stop (hwait : s.stopper = .waitShutdown) (hknown : s.known = true)
    (hset : s.hvcontroller = true) :
    Step s .shutdown { s with running := false, stopper := .stopServer }
  | stopUnset (hwait : s.stopper = .waitShutdown) (hknown : s.known = true)
    (hset : s.hvcontroller = false) :
    Step s .shutdown { s with fault := some .hvcontroller }
  | stopUnknown (hwait : s.stopper = .waitShutdown) (hknown : s.known = false) :
    Step s .shutdown { s with stopper := .finished }
  | stopServer (hpc : s.stopper = .stopServer) : Step s .stopServer { s with stopper := .join }
  | join (hpc : s.stopper = .join) (hdone : s.tenant = .done) :
    Step s .join { s with stopper := .finished }
  | event {worker ofconn : ℕ} {type : Event} {pc : CallbackPc}
    (hserving : s.tenant.serving = true) (hidle : s.callbacks worker = .idle)
    (hpc : pc = if type = .established ∧ s.switchUp = false then .setSwitchUp ofconn else .idle) :
    Step s (.event worker ofconn type)
      { s with callbacks := Function.update s.callbacks worker pc }
  | callback {worker : ℕ} {t : State} (ht : callbackStep s worker = some t) :
    Step s (.callback worker) t

theorem Step.of_change (s : State) (component : Component) (hknown : s.known = true) :
    Step s (.change component) (onChange s component) := by
  cases component with
  | other => exact .change fun _ hne => absurd rfl hne
  | generatorConf | weights =>
    unfold onChange
    dsimp only
    split_ifs with hset
    · exact .change fun _ _ => hset
    · exact .changeUnset hknown (by simp) (by simpa using hset)

theorem Step.of_stop (s : State) (hwait : s.stopper = .waitShutdown) (hknown : s.known = true) :
    Step s .shutdown (Lifecycle.stop s) := by
  unfold Lifecycle.stop
  split_ifs with hset
  · exact .stop hwait hknown hset
  · exact .stopUnset hwait hknown (by simpa using hset)

theorem Step.of_step {s t : State} {l : Label} (h : step s l = some t) : Step s l t := by
  have hthread := (step_some.mp h).2
  unfold threadStep at hthread
  cases l with
  | tenant choice => exact .tenant hthread
  | callback worker => exact .callback hthread
  | start =>
    dsimp only at hthread
    split_ifs at hthread with hpc
    cases hthread
    exact .start hpc
  | insert =>
    dsimp only at hthread
    split_ifs at hthread with hguard
    cases hthread
    exact .insert hguard.1 hguard.2
  | wake =>
    dsimp only at hthread
    split_ifs at hthread with hpc
    cases hthread
    exact .wake hpc
  | change component =>
    dsimp only at hthread
    split_ifs at hthread with hknown
    · cases hthread
      exact .of_change s component hknown
    · cases hthread
      exact .change fun hk => absurd hk hknown
  | shutdown =>
    dsimp only at hthread
    split_ifs at hthread with hwait hknown
    · cases hthread
      exact .of_stop s hwait hknown
    · cases hthread
      exact .stopUnknown hwait (by simpa using hknown)
  | stopServer =>
    dsimp only at hthread
    split_ifs at hthread with hpc
    cases hthread
    exact .stopServer hpc
  | join =>
    dsimp only at hthread
    split_ifs at hthread with hpc
    cases hthread
    exact .join hpc.1 hpc.2
  | event worker ofconn type =>
    dsimp only at hthread
    by_cases hidle : s.tenant.serving = true ∧ s.callbacks worker = .idle
    · rw [if_pos hidle] at hthread
      cases hthread
      exact .event hidle.1 hidle.2 rfl
    · rw [if_neg hidle] at hthread
      cases hthread

/-- The changes that `Tenant::onChange` forwards are those of the first two components. -/
theorem onChange_forwards {key value : StdString} {update : Option (StdString × StdString)}
    (h : Tenant.onChange key value = .ok update) :
    update.isSome ↔ Component.ofKey key ≠ .other := by
  unfold Tenant.onChange at h
  unfold Component.ofKey
  dsimp only at h
  cases hkey : StdString.substr key ((StdString.front key).length + 1) with
  | error e =>
    rw [hkey] at h
    cases h
  | ok confKey =>
    rw [hkey] at h
    change (if _ then pure (some (confKey, value)) else if _ then pure (some (confKey, value))
      else pure none) = Except.ok update at h
    split_ifs at h ⊢
    all_goals
      cases h
      simp

/-- Run without interruption, the callback does what `connectionCallback` says. -/
theorem callback_uninterrupted {s : State} (hf : s.fault = none) {worker : ℕ}
    (hidle : s.callbacks worker = .idle) (hserving : s.tenant.serving = true)
    (hmutex : s.tenant.holdsMutex = false) (hdown : s.switchUp = false) (ofconn : ℕ) :
    ∃ t, Transition.exec step s (.event worker ofconn .established ::
        List.replicate 4 (.callback worker)) = some t ∧
      t.callbacks worker = .idle ∧
      (⟨t.switchUp, t.conn⟩ : Connection.State) =
        Connection.connectionCallback ⟨s.switchUp, s.conn⟩ ofconn .established := by
  refine ⟨_, by simp [Transition.exec, List.replicate, step, threadStep, callbackStep, hf,
    hserving, hidle, hdown, hmutex]; rfl, ?_, ?_⟩
  · simp
  · simp [Connection.connectionCallback, hdown]

/-- `switch_up` is at most one assignment of a network thread ahead of `conn`. -/
structure NetworkInv (s : State) : Prop where
  switchUp : s.switchUp = true → s.conn.isSome ∨ ∃ worker n, s.callbacks worker = .setConn n
  raised : ∀ worker, (s.callbacks worker).pastSwitchUp = true → s.switchUp = true
  assigned : ∀ worker, (s.callbacks worker).pastConn = true → s.conn.isSome

/-- What the tenant's thread has set and seen follows from where it stands. -/
structure TenantInv (s : State) : Prop where
  hvcontroller : s.hvcontroller = s.tenant.hasController
  msgGenerator : s.msgGenerator = s.tenant.hasGenerator
  pastWait : s.tenant.pastWait = true → s.switchUp = true
  used : s.tenant.pastWait = true → s.tenant ≠ .setupSwitch → s.conn.isSome
  notified : s.notified = true → s.switchUp = true

structure Inv (s : State) : Prop where
  network : NetworkInv s
  tenant : TenantInv s

theorem inv_init : Inv init := by
  constructor
  · constructor <;> simp [init, CallbackPc.pastSwitchUp, CallbackPc.pastConn]
  · constructor <;> simp [init, TenantPc.hasController, TenantPc.hasGenerator, TenantPc.serving,
      TenantPc.pastWait]

theorem NetworkInv.frame {s t : State} (h : NetworkInv s) (hup : t.switchUp = s.switchUp)
    (hconn : t.conn = s.conn) (hcb : t.callbacks = s.callbacks) : NetworkInv t := by
  constructor
  · rw [hup, hconn, hcb]
    exact h.switchUp
  · rw [hup, hcb]
    exact h.raised
  · rw [hconn, hcb]
    exact h.assigned

theorem TenantInv.mono {s t : State} (h : TenantInv s) (htenant : t.tenant = s.tenant)
    (hctl : t.hvcontroller = s.hvcontroller) (hgen : t.msgGenerator = s.msgGenerator)
    (hup : s.switchUp = true → t.switchUp = true)
    (hconn : s.conn.isSome → t.conn.isSome)
    (hnot : t.notified = true → s.notified = true ∨ t.switchUp = true) : TenantInv t := by
  constructor
  · rw [hctl, htenant]
    exact h.hvcontroller
  · rw [hgen, htenant]
    exact h.msgGenerator
  · rw [htenant]
    exact fun hp => hup (h.pastWait hp)
  · rw [htenant]
    exact fun hp hne => hconn (h.used hp hne)
  · intro hn
    rcases hnot hn with hs | ht
    · exact hup (h.notified hs)
    · exact ht

theorem tenantInv_tenant {s t : State} {choice : Bool} (h : TenantInv s) (hf : t.fault = none)
    (ht : tenantStep s choice = some t) : TenantInv t := by
  obtain ⟨hctl, hgen, hpast, hused, hnot⟩ := h
  unfold tenantStep at ht
  split at ht
  all_goals first | contradiction | skip
  all_goals try split_ifs at ht
  all_goals
    obtain rfl := Option.some.inj ht
    constructor
  all_goals simp_all [TenantPc.hasController, TenantPc.hasGenerator, TenantPc.serving,
      TenantPc.pastWait]

/-- One network thread moves on to `pc`. -/
theorem NetworkInv.move {s t : State} {worker : ℕ} {pc : CallbackPc} (h : NetworkInv s)
    (hcb : t.callbacks = Function.update s.callbacks worker pc)
    (hup : s.switchUp = true → t.switchUp = true) (hconn : s.conn.isSome → t.conn.isSome)
    (hlive : t.switchUp = true → t.conn.isSome ∨ (∃ n, pc = .setConn n) ∨
      (s.switchUp = true ∧ ∀ n, s.callbacks worker ≠ .setConn n))
    (hraised : pc.pastSwitchUp = true → t.switchUp = true)
    (hassigned : pc.pastConn = true → t.conn.isSome) : NetworkInv t := by
  constructor
  · intro htup
    rcases hlive htup with hset | ⟨n, rfl⟩ | ⟨hsup, hne⟩
    · exact .inl hset
    · exact .inr ⟨worker, n, by rw [hcb, Function.update_self]⟩
    · rcases h.switchUp hsup with hset | ⟨w, n, hw⟩
      · exact .inl (hconn hset)
      · have hww : w ≠ worker := fun heq => hne n (heq ▸ hw)
        exact .inr ⟨w, n, by rw [hcb, Function.update_of_ne hww, hw]⟩
  · intro w hw
    rw [hcb, Function.update_apply] at hw
    split_ifs at hw
    · exact hraised hw
    · exact hup (h.raised w hw)
  · intro w hw
    rw [hcb, Function.update_apply] at hw
    split_ifs at hw
    · exact hassigned hw
    · exact hconn (h.assigned w hw)

theorem networkInv_callback {s t : State} {worker : ℕ} (h : NetworkInv s)
    (ht : callbackStep s worker = some t) : NetworkInv t := by
  have hraised := h.raised worker
  have hassigned := h.assigned worker
  cases hcb : s.callbacks worker with
  | idle => simp [callbackStep, hcb] at ht
  | setSwitchUp ofconn =>
    simp only [callbackStep, hcb, Option.some.injEq] at ht
    subst ht
    refine h.move rfl (fun _ => rfl) id ?_ ?_ ?_
    · exact fun _ => .inr (.inl ⟨ofconn, rfl⟩)
    · exact fun _ => rfl
    · intro hpast
      cases hpast
  | setConn ofconn =>
    have hup : s.switchUp = true := hraised (by rw [hcb]; rfl)
    simp only [callbackStep, hcb, Option.some.injEq] at ht
    subst ht
    refine h.move rfl id (fun _ => rfl) ?_ ?_ ?_
    · exact fun _ => .inl rfl
    · exact fun _ => hup
    · exact fun _ => rfl
  | lockSwitch =>
    have hconn : s.conn.isSome := hassigned (by rw [hcb]; rfl)
    simp only [callbackStep, hcb] at ht
    split_ifs at ht
    obtain rfl := Option.some.inj ht
    refine h.move rfl (fun _ => rfl) id ?_ ?_ ?_
    · exact fun _ => .inl hconn
    · exact fun _ => rfl
    · exact fun _ => hconn
  | notify =>
    have hconn : s.conn.isSome := hassigned (by rw [hcb]; rfl)
    simp only [callbackStep, hcb, Option.some.injEq] at ht
    subst ht
    refine h.move rfl id id ?_ ?_ ?_
    · exact fun _ => .inl hconn
    · intro hpast
      cases hpast
    · intro hpast
      cases hpast

theorem tenantInv_callback {s t : State} {worker : ℕ} (h : Inv s)
    (ht : callbackStep s worker = some t) : TenantInv t := by
  have hraised := h.network.raised worker
  cases hcb : s.callbacks worker with
  | idle => simp [callbackStep, hcb] at ht
  | setSwitchUp ofconn =>
    simp only [callbackStep, hcb, Option.some.injEq] at ht
    subst ht
    exact h.tenant.mono rfl rfl rfl (fun _ => rfl) id .inl
  | setConn ofconn =>
    simp only [callbackStep, hcb, Option.some.injEq] at ht
    subst ht
    exact h.tenant.mono rfl rfl rfl id (fun _ => rfl) .inl
  | lockSwitch =>
    simp only [callbackStep, hcb] at ht
    split_ifs at ht
    obtain rfl := Option.some.inj ht
    exact h.tenant.mono rfl rfl rfl (fun _ => rfl) id .inl
  | notify =>
    have hup : s.switchUp = true := hraised (by rw [hcb]; rfl)
    simp only [callbackStep, hcb, Option.some.injEq] at ht
    subst ht
    exact h.tenant.mono rfl rfl rfl id id fun _ => .inr hup

/-- A step that does not use an unset part keeps the invariant. -/
theorem inv_step {s t : State} {l : Label} (h : Inv s) (hf : t.fault = none)
    (ht : step s l = some t) : Inv t := by
  have hctl := h.tenant.hvcontroller
  have hgen := h.tenant.msgGenerator
  cases Step.of_step ht with
  | start hpc =>
    rw [hpc] at hctl hgen
    exact ⟨h.network.frame rfl rfl rfl, hctl, hgen, nofun, nofun, h.tenant.notified⟩
  | wake hpc =>
    rw [hpc] at hctl hgen
    exact ⟨h.network.frame rfl rfl rfl, hctl, hgen, nofun, nofun, nofun⟩
  | tenant hstep =>
    obtain ⟨hup, hconn, hcb, -⟩ := tenant_frame hstep
    exact ⟨h.network.frame hup hconn hcb, tenantInv_tenant h.tenant hf hstep⟩
  | callback hstep => exact ⟨networkInv_callback h.network hstep, tenantInv_callback h hstep⟩
  | change => exact h
  | changeUnset | stopUnset => cases hf
  | insert | stop | stopUnknown | stopServer | join =>
    exact ⟨h.network.frame rfl rfl rfl, h.tenant.mono rfl rfl rfl id id .inl⟩
  | event hserving hidle hpc =>
    refine ⟨h.network.move rfl id id ?_ ?_ ?_, h.tenant.mono rfl rfl rfl id id .inl⟩
    · intro hup
      exact .inr (.inr ⟨hup, by rw [hidle]; simp⟩)
    · intro hpast
      rw [hpc] at hpast
      split_ifs at hpast <;> cases hpast
    · intro hpast
      rw [hpc] at hpast
      split_ifs at hpast <;> cases hpast

/-- The tenant's thread up to the lock in `run`, with a constant generator. -/
def untilRun : List Label :=
  .start :: .insert :: List.replicate 8 (.tenant true)

end Lifecycle
end HVBench
