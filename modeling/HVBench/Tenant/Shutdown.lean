import HVBench.Tenant.Lifecycle

/-! Whether the tenant's thread notices that it is stopped. `stop` clears `running`, which
the thread reads only after it has seen `switch_up`. -/
namespace HVBench
namespace Lifecycle

/-- Once stopped, the tenant's thread has ended or can go on by itself. A fault ends the
process. -/
def NoDeadlock (s : State) : Prop :=
  s.running = false → s.fault ≠ none ∨ s.tenant = .done ∨
    ∃ choice t, step s (.tenant choice) = some t

/-- A switch is up, and the tenant's thread does not wait to be told so. -/
def Stoppable (s : State) : Prop :=
  s.switchUp = true ∧ (s.tenant = .waitSwitch → s.notified = true)

/-- `HVBenchController::stop` is called on a tenant that can notice it. -/
def StopsInTime (s : State) (l : Label) : Prop :=
  l = .shutdown → s.known = true → s.tenant.hasController = true → Stoppable s

/-- A stopped tenant has been started and is past the point where it could get stuck. -/
def Going (s : State) : Prop :=
  s.running = false → s.tenant ≠ .notStarted ∧ Stoppable s

/-- The thread waits for a switch, and no notification is on its way. -/
def Waiting (s : State) : Prop :=
  s.fault = none ∧ s.tenant = .waitSwitch ∧ s.notified = false

theorem not_noDeadlock_of_waiting {s : State} (h : Waiting s) (hrun : s.running = false) :
    ¬ NoDeadlock s := by
  obtain ⟨hf, hpc, hnot⟩ := h
  intro hlive
  rcases hlive hrun with hfault | hdone | ⟨choice, t, ht⟩
  · exact hfault hf
  · rw [hpc] at hdone
    cases hdone
  · have hstep := (step_some.mp ht).2
    unfold threadStep tenantStep at hstep
    simp [hpc, hnot] at hstep

theorem Going.noDeadlock {s : State} (h : Going s) : NoDeadlock s := by
  intro hrun
  obtain ⟨hstarted, -, hwait⟩ := h hrun
  by_cases hf : s.fault = none
  · right
    cases hpc : s.tenant with
    | notStarted => exact absurd hpc hstarted
    | done => exact .inl rfl
    | waitSwitch =>
      have hnot := hwait hpc
      exact .inr ⟨false, _, step_some.mpr ⟨hf, by simp [threadStep, tenantStep, hpc, hnot]; rfl⟩⟩
    | readConf left =>
      cases left <;>
        exact .inr ⟨false, _, step_some.mpr ⟨hf, by simp [threadStep, tenantStep, hpc]; rfl⟩⟩
    | setupSwitch | pace =>
      cases hconn : s.conn.isSome <;>
        exact .inr ⟨false, _, step_some.mpr ⟨hf, by
          simp [threadStep, tenantStep, hpc, hconn]; rfl⟩⟩
    | _ => exact .inr ⟨false, _, step_some.mpr ⟨hf, by simp [threadStep, tenantStep, hpc]; rfl⟩⟩
  · exact .inl hf

/-- The thread starts to wait only where it finds `switch_up` unset. -/
theorem tenant_pc {s t : State} {choice : Bool} (ht : tenantStep s choice = some t)
    (hstarted : s.tenant ≠ .notStarted) :
    t.tenant ≠ .notStarted ∧ (t.tenant = .waitSwitch → s.switchUp = false) := by
  unfold tenantStep at ht
  split at ht
  all_goals first | contradiction | skip
  all_goals try split_ifs at ht
  all_goals
    have heq := Option.some.inj ht
    subst heq
    simp_all

theorem callback_mono {s t : State} {worker : ℕ} (ht : callbackStep s worker = some t) :
    (s.switchUp = true → t.switchUp = true) ∧ (s.notified = true → t.notified = true) := by
  unfold callbackStep at ht
  split at ht
  all_goals first | contradiction | skip
  all_goals try split_ifs at ht
  all_goals
    have heq := Option.some.inj ht
    subst heq
    simp_all

theorem going_step {s t : State} {l : Label} (hinv : Inv s) (h : Going s)
    (hC : StopsInTime s l) (ht : step s l = some t) (hf : t.fault = none) : Going t := by
  intro hrun
  cases Step.of_step ht with
  | start | wake => exact ⟨nofun, (h hrun).2.1, nofun⟩
  | tenant hstep =>
    obtain ⟨hup, -, -, hrunning, -⟩ := tenant_frame hstep
    obtain ⟨hstarted, hsup, hwait⟩ := h (hrunning ▸ hrun)
    obtain ⟨htstarted, htwait⟩ := tenant_pc hstep hstarted
    refine ⟨htstarted, hup.trans hsup, fun hpc => ?_⟩
    have hdown := htwait hpc
    rw [hsup] at hdown
    cases hdown
  | callback hstep =>
    obtain ⟨hpc, -, -, hrunning, -⟩ := callback_frame hstep
    obtain ⟨hstarted, hsup, hwait⟩ := h (hrunning ▸ hrun)
    obtain ⟨hup, hnot⟩ := callback_mono hstep
    rw [← hpc] at hstarted hwait
    exact ⟨hstarted, hup hsup, fun hw => hnot (hwait hw)⟩
  | stop hwait hknown hset =>
    have hcontroller : s.tenant.hasController = true := hinv.tenant.hvcontroller.symm.trans hset
    refine ⟨fun hpc => ?_, hC rfl hknown hcontroller⟩
    dsimp only at hpc
    rw [hpc] at hcontroller
    cases hcontroller
  | changeUnset | stopUnset => cases hf
  | insert | change | stopUnknown | stopServer | join | event => exact h hrun

theorem going_init : Going init := nofun

/-- In a run without a fault the pointers follow the tenant's program counter. -/
theorem inv_of_exec {ls : List Label} {s : State} (h : Transition.exec step init ls = some s)
    (hf : s.fault = none) : Inv s := by
  have hinv : s.fault = none → Inv s := by
    refine Transition.exec_invariant (I := fun s => s.fault = none → Inv s) ?_
      (fun _ => inv_init) h
    intro s l t hs ht htf
    exact inv_step (hs (step_some.mp ht).1) htf ht
  exact hinv hf

theorem noDeadlock_of_meets {ls : List Label} {s : State}
    (h : Transition.exec step init ls = some s)
    (hC : Transition.Meets step StopsInTime init ls) : NoDeadlock s := by
  have hgoing : s.fault = none → Inv s ∧ Going s := by
    refine Transition.exec_invariant_of_meets (I := fun s => s.fault = none → Inv s ∧ Going s)
      ?_ (fun _ => ⟨inv_init, going_init⟩) hC h
    intro s l t hs hstop ht htf
    obtain ⟨hinv, hgo⟩ := hs (step_some.mp ht).1
    exact ⟨inv_step hinv htf ht, going_step hinv hgo hstop ht htf⟩
  by_cases hf : s.fault = none
  · exact (hgoing hf).2.noDeadlock
  · exact fun _ => .inl hf

/-- By itself the tenant's thread gets to where it waits for a switch. -/
def ReachesWait (s : State) : Prop :=
  ∃ n u, Transition.exec step s (List.replicate n (.tenant false)) = some u ∧ Waiting u ∧
    u.running = s.running

theorem ReachesWait.of_step {s t : State} (h : ReachesWait t)
    (ht : step s (.tenant false) = some t) (hrun : t.running = s.running) : ReachesWait s := by
  obtain ⟨n, u, hu, hwait, hrunning⟩ := h
  refine ⟨n + 1, u, ?_, hwait, hrunning.trans hrun⟩
  rw [List.replicate_succ]
  exact Transition.exec_cons.mpr ⟨t, ht, hu⟩

/-- No switch has come up, and none is announced. -/
structure Unconnected (s : State) : Prop where
  fault : s.fault = none
  switchUp : s.switchUp = false
  notified : s.notified = false

theorem reachesWait_check {s : State} (h : Unconnected s) (hpc : s.tenant = .checkSwitch) :
    ReachesWait s := by
  have hstep : step s (.tenant false) = some { s with tenant := .waitSwitch } :=
    step_some.mpr ⟨h.fault, by simp [threadStep, tenantStep, hpc, h.switchUp]⟩
  have hwait : Waiting { s with tenant := .waitSwitch } := ⟨h.fault, rfl, h.notified⟩
  exact ReachesWait.of_step ⟨0, _, rfl, hwait, rfl⟩ hstep rfl

theorem reachesWait_lock {s : State} (h : Unconnected s) (hpc : s.tenant = .lockSwitch) :
    ReachesWait s := by
  have hstep : step s (.tenant false) = some { s with tenant := .checkSwitch } :=
    step_some.mpr ⟨h.fault, by simp [threadStep, tenantStep, hpc]⟩
  have hnext : Unconnected { s with tenant := .checkSwitch } := ⟨h.fault, h.switchUp, h.notified⟩
  exact (reachesWait_check hnext rfl).of_step hstep rfl

theorem reachesWait_read {s : State} {left : ℕ} (h : Unconnected s)
    (hpc : s.tenant = .readConf left) : ReachesWait s := by
  induction left generalizing s with
  | zero =>
    have hstep : step s (.tenant false) =
        some { s with tenant := .lockSwitch, msgGenerator := true } :=
      step_some.mpr ⟨h.fault, by simp [threadStep, tenantStep, hpc]⟩
    have hnext : Unconnected { s with tenant := .lockSwitch, msgGenerator := true } :=
      ⟨h.fault, h.switchUp, h.notified⟩
    exact (reachesWait_lock hnext rfl).of_step hstep rfl
  | succ left ih =>
    have hstep : step s (.tenant false) = some { s with tenant := .readConf left } :=
      step_some.mpr ⟨h.fault, by simp [threadStep, tenantStep, hpc]⟩
    have hnext : Unconnected { s with tenant := .readConf left } :=
      ⟨h.fault, h.switchUp, h.notified⟩
    exact (ih hnext rfl).of_step hstep rfl

/-- Whatever it still has to read and create, a thread that has a controller and no switch
ends up waiting. -/
theorem reachesWait {s : State} (h : Unconnected s) (hctl : s.tenant.hasController = true)
    (hpast : s.tenant.pastWait = false) : ReachesWait s := by
  have hreads : ∀ s : State, Unconnected s → s.tenant = .readGenerator → ReachesWait s := by
    intro s h hpc
    have hstep : step s (.tenant false) = some { s with tenant := .readConf 7 } :=
      step_some.mpr ⟨h.fault, by simp [threadStep, tenantStep, hpc]⟩
    have hnext : Unconnected { s with tenant := .readConf 7 } := ⟨h.fault, h.switchUp, h.notified⟩
    exact (reachesWait_read hnext rfl).of_step hstep rfl
  cases hpc : s.tenant with
  | notStarted | readListen | readPort | createController =>
    rw [hpc] at hctl
    cases hctl
  | startController =>
    have hstep : step s (.tenant false) = some { s with tenant := .readGenerator } :=
      step_some.mpr ⟨h.fault, by simp [threadStep, tenantStep, hpc]⟩
    have hnext : Unconnected { s with tenant := .readGenerator } :=
      ⟨h.fault, h.switchUp, h.notified⟩
    exact (hreads _ hnext rfl).of_step hstep rfl
  | readGenerator => exact hreads s h hpc
  | readConf left => exact reachesWait_read h hpc
  | lockSwitch => exact reachesWait_lock h hpc
  | checkSwitch => exact reachesWait_check h hpc
  | waitSwitch => exact ⟨0, s, rfl, ⟨h.fault, hpc, h.notified⟩, rfl⟩
  | setupSwitch | loop | pace | done =>
    rw [hpc] at hpast
    cases hpast

/-- A tenant that is stopped too early ends up waiting for an event that need not come. -/
theorem stoppable_of_noDeadlock {s t : State} (hinv : Inv s)
    (ht : step s .shutdown = some t) (hrun : t.running = false) (hs : s.running = true)
    (hlive : ∀ ls u, (∀ l ∈ ls, l.isNetwork = false) → Transition.exec step t ls = some u →
      NoDeadlock u) : Stoppable s := by
  have hf : s.fault = none := (step_some.mp ht).1
  cases Step.of_step ht with
  | stopUnset | stopUnknown =>
    rw [hs] at hrun
    cases hrun
  | stop hwait hknown hset =>
    have hcontroller : s.tenant.hasController = true := hinv.tenant.hvcontroller.symm.trans hset
    have hup : s.switchUp = true := by
      by_contra hdown
      have hnot : s.notified ≠ true := fun hn => hdown (hinv.tenant.notified hn)
      have hpast : s.tenant.pastWait ≠ true := fun hp => hdown (hinv.tenant.pastWait hp)
      have hunconnected : Unconnected { s with running := false, stopper := .stopServer } :=
        ⟨hf, by simpa using hdown, by simpa using hnot⟩
      obtain ⟨n, u, hu, hwaiting, hurun⟩ :=
        reachesWait hunconnected hcontroller (by simpa using hpast)
      have hlabels : ∀ l ∈ List.replicate n (Label.tenant false), l.isNetwork = false := by
        intro l hl
        rw [List.eq_of_mem_replicate hl]
        rfl
      exact not_noDeadlock_of_waiting hwaiting hurun (hlive _ u hlabels hu)
    refine ⟨hup, fun hpc => ?_⟩
    by_contra hnot
    have hwaiting : Waiting { s with running := false, stopper := .stopServer } :=
      ⟨hf, hpc, by simpa using hnot⟩
    exact not_noDeadlock_of_waiting hwaiting rfl (hlive [] _ (by simp) rfl)

/-- A tenant is stopped once. -/
theorem stopper_step {s t : State} {l : Label} (ht : step s l = some t)
    (h : s.stopper ≠ .waitShutdown) (hf : t.fault = none) :
    l ≠ .shutdown ∧ t.stopper ≠ .waitShutdown := by
  cases Step.of_step ht with
  | tenant hstep =>
    have hsame : t.stopper = s.stopper := (tenant_frame hstep).2.2.2.2.2
    rw [hsame]
    exact ⟨nofun, h⟩
  | callback hstep =>
    have hsame : t.stopper = s.stopper := (callback_frame hstep).2.2.2.2.2.1
    rw [hsame]
    exact ⟨nofun, h⟩
  | stop hwait => exact absurd hwait h
  | stopUnknown hwait => exact absurd hwait h
  | changeUnset | stopUnset => cases hf
  | stopServer | join => exact ⟨nofun, nofun⟩
  | start | insert | wake | change | event => exact ⟨nofun, h⟩

/-- A tenant that could notice the stop goes on until it has ended. -/
theorem noDeadlock_of_stoppable {s t u : State} {ms : List Label} (hinv : Inv s) (h : Going s)
    (ht : step s .shutdown = some t) (hstop : Stoppable s)
    (hu : Transition.exec step t ms = some u) : NoDeadlock u := by
  have hstopped : t.fault = none →
      t.stopper ≠ .waitShutdown ∧ Inv t ∧ Going t := by
    intro htf
    refine ⟨?_, inv_step hinv htf ht, going_step hinv h (fun _ _ _ => hstop) ht htf⟩
    cases Step.of_step ht with
    | stop | stopUnknown => exact nofun
    | stopUnset => cases htf
  have hgoing : u.fault = none → u.stopper ≠ .waitShutdown ∧ Inv u ∧ Going u := by
    refine Transition.exec_invariant
      (I := fun s => s.fault = none → s.stopper ≠ .waitShutdown ∧ Inv s ∧ Going s) ?_ hstopped hu
    intro s l t hs ht hf
    obtain ⟨hstopper, hinv, hgo⟩ := hs (step_some.mp ht).1
    obtain ⟨hl, hnext⟩ := stopper_step ht hstopper hf
    exact ⟨hnext, inv_step hinv hf ht, going_step hinv hgo (fun heq => absurd heq hl) ht hf⟩
  by_cases hf : u.fault = none
  · exact (hgoing hf).2.2.noDeadlock
  · exact fun _ => .inl hf

/-- A stop cannot leave the tenant's thread stuck if a switch is up by then and the thread
has been told so. Any other stop leaves it stuck, unless a connection event helps. -/
theorem noDeadlock_iff_stoppable (ls : List Label) (s : State)
    (h : Transition.exec step init ls = some s) :
    (Transition.Meets step StopsInTime init ls → NoDeadlock s) ∧
    ∀ t, step s .shutdown = some t → s.running = true → t.running = false →
      (Stoppable s ↔ ∀ ms u, (∀ l ∈ ms, l.isNetwork = false) →
        Transition.exec step t ms = some u → NoDeadlock u) := by
  refine ⟨noDeadlock_of_meets h, fun t ht hs hrun => ?_⟩
  have hinv : Inv s := inv_of_exec h (step_some.mp ht).1
  have hgo : Going s := fun hstopped => by
    rw [hs] at hstopped
    cases hstopped
  constructor
  · intro hstop ms u _ hu
    exact noDeadlock_of_stoppable hinv hgo ht hstop hu
  · intro hlive
    exact stoppable_of_noDeadlock hinv ht hrun hs hlive

/-- A tenant that sends. -/
def sendingRun : List Label :=
  untilRun ++ [.event 0 1 .established, .callback 0, .callback 0, .tenant true, .tenant true,
    .tenant true]

theorem noDeadlock_sendingRun :
    ∃ s, Transition.exec step init (sendingRun ++ [.shutdown]) = some s ∧ s.running = false ∧
      NoDeadlock s := by
  refine ⟨_, rfl, rfl, (noDeadlock_iff_stoppable (sendingRun ++ [.shutdown]) _ rfl).1 ?_⟩
  apply Transition.meets_append.mpr
  constructor
  · have hquiet : Transition.Meets step (fun _ l => l ≠ .shutdown) init sendingRun :=
      Transition.meets_of_forall (by decide)
    exact hquiet.mono fun _ _ hne heq => absurd heq hne
  · intro t ht
    have heq := Option.some.inj ht
    subst heq
    exact ⟨fun _ _ _ => ⟨rfl, nofun⟩, fun _ _ => trivial⟩

/-- The tenant is stopped while it waits for its first switch. -/
theorem stop_deadlocks :
    ¬ ∀ ls s, Transition.exec step init ls = some s → NoDeadlock s := by
  intro hlive
  have hwaiting := hlive (untilRun ++ [.tenant true, .tenant true, .shutdown]) _ rfl
  exact not_noDeadlock_of_waiting ⟨rfl, rfl, rfl⟩ rfl hwaiting

end Lifecycle
end HVBench
