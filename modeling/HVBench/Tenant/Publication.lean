import HVBench.Tenant.Lifecycle

/-! When the parts of a tenant are set before they are used. Nothing but the order of the
steps makes it so: `tenants_` is filled when the tenant's thread has started, not when it
has created its parts. -/
namespace HVBench
namespace Lifecycle

/-- The configuration watcher forwards a change, the stopping thread stops the tenant, and
the tenant's thread uses the connection, only once the part they use is there. -/
def PartReady (s : State) : Label → Prop
  | .change component =>
    s.known = true → component ≠ .other → s.tenant.hasGenerator = true
  | .shutdown => s.known = true → s.tenant.hasController = true
  | .tenant _ =>
    s.tenant = .setupSwitch → (∃ worker n, s.callbacks worker = .setConn n) → s.conn.isSome
  | _ => True

/-- Only the two uses of the connection can end the tenant's thread. -/
theorem tenant_fault {s t : State} {choice : Bool} (hf : s.fault = none)
    (ht : tenantStep s choice = some t) (hset : s.tenant ≠ .setupSwitch)
    (hpace : s.tenant ≠ .pace) : t.fault = none := by
  unfold tenantStep at ht
  split at ht
  all_goals first | contradiction | skip
  all_goals try split_ifs at ht
  all_goals
    have heq := Option.some.inj ht
    subst heq
    exact hf

theorem tenant_fault_iff {s t : State} {choice : Bool} (h : Inv s) (hf : s.fault = none)
    (ht : tenantStep s choice = some t) : t.fault = none ↔ PartReady s (.tenant choice) := by
  by_cases hset : s.tenant = .setupSwitch
  · have hup : s.switchUp = true := h.tenant.pastWait (by rw [hset]; rfl)
    have hconn := h.network.switchUp hup
    unfold tenantStep at ht
    rw [hset] at ht
    dsimp only at ht
    split_ifs at ht with hsome
    · have heq := Option.some.inj ht
      subst heq
      exact ⟨fun _ _ _ => hsome, fun _ => hf⟩
    · have heq := Option.some.inj ht
      subst heq
      have hbetween : ∃ worker n, s.callbacks worker = .setConn n := hconn.resolve_left hsome
      exact ⟨nofun, fun hready => absurd (hready hset hbetween) hsome⟩
  · have hready : PartReady s (.tenant choice) := fun heq => absurd heq hset
    refine ⟨fun _ => hready, fun _ => ?_⟩
    by_cases hpace : s.tenant = .pace
    · have hconn : s.conn.isSome := h.tenant.used (by rw [hpace]; rfl) hset
      unfold tenantStep at ht
      rw [hpace] at ht
      dsimp only at ht
      split_ifs at ht
      all_goals
        have heq := Option.some.inj ht
        subst heq
        exact hf
    · exact tenant_fault hf ht hset hpace

/-- A step uses an unset part exactly when it comes too early. -/
theorem fault_iff {s t : State} {l : Label} (h : Inv s) (ht : step s l = some t) :
    t.fault = none ↔ PartReady s l := by
  have hf : s.fault = none := (step_some.mp ht).1
  have hctl := h.tenant.hvcontroller
  have hgen := h.tenant.msgGenerator
  cases Step.of_step ht with
  | tenant hstep => exact tenant_fault_iff h hf hstep
  | callback hstep =>
    have hsame : t.fault = s.fault := (callback_frame hstep).2.2.2.2.2.2
    rw [hsame]
    exact iff_of_true hf trivial
  | change hready =>
    refine iff_of_true hf fun hknown hc => ?_
    rw [← hgen]
    exact hready hknown hc
  | changeUnset hknown hc hset =>
    refine iff_of_false nofun fun hready => ?_
    have hpast : s.msgGenerator = true := hgen.trans (hready hknown hc)
    rw [hset] at hpast
    cases hpast
  | stop hwait hknown hset => exact iff_of_true hf fun _ => hctl.symm.trans hset
  | stopUnset hwait hknown hset =>
    refine iff_of_false nofun fun hready => ?_
    have hpast : s.hvcontroller = true := hctl.trans (hready hknown)
    rw [hset] at hpast
    cases hpast
  | stopUnknown hwait hknown =>
    refine iff_of_true hf fun hk => ?_
    rw [hknown] at hk
    cases hk
  | start | insert | wake | stopServer | join | event => exact iff_of_true hf trivial

/-- No part of the tenant is used before it is set, if and only if no change, shutdown or
first use of the connection comes before the tenant's thread has set that part. -/
theorem parts_set_iff (ls : List Label) (s : State)
    (h : Transition.exec step init ls = some s) :
    s.fault = none ↔ Transition.Meets step PartReady init ls := by
  constructor
  · intro hf
    refine Transition.meets_of_exec (I := Inv) (D := fun s => s.fault ≠ none)
      (U := fun _ _ => True) ?_ ?_ ?_ inv_init (Transition.meets_of_forall fun _ _ => trivial) h
      (not_not.mpr hf)
    · intro s l t hs _ hC ht
      have htf : t.fault = none := (fault_iff hs ht).mpr hC
      exact inv_step hs htf ht
    · intro s l t hs _ hC ht
      exact fun htf => hC ((fault_iff hs ht).mp htf)
    · intro s l t hs ht
      exact absurd (step_some.mp ht).1 hs
  · intro hC
    have hgood : Inv s ∧ s.fault = none := by
      refine Transition.exec_invariant_of_meets (I := fun s => Inv s ∧ s.fault = none) ?_
        ⟨inv_init, rfl⟩ hC h
      intro s l t hs hready ht
      have htf : t.fault = none := (fault_iff hs.1 ht).mpr hready
      exact ⟨inv_step hs.1 htf ht, htf⟩
    exact hgood.2

/-- A change and the stop of a tenant that has been started and connected. -/
def quietRun : List Label :=
  untilRun ++ [.change .weights, .event 0 1 .established, .callback 0, .callback 0,
    .tenant true, .tenant true, .tenant true, .shutdown]

theorem parts_set_quietRun : Transition.Meets step PartReady init quietRun :=
  (parts_set_iff quietRun _ rfl).mp rfl

theorem exists_fault (part : Part) :
    ∃ ls s, Transition.exec step init ls = some s ∧ s.fault = some part := by
  cases part with
  | msgGenerator => exact ⟨[.start, .insert, .change .weights], _, rfl, rfl⟩
  | hvcontroller => exact ⟨[.start, .insert, .shutdown], _, rfl, rfl⟩
  | conn =>
    exact ⟨untilRun ++ [.event 0 1 .established, .callback 0, .tenant true, .tenant true,
      .tenant true], _, rfl, rfl⟩

/-- Each of the three parts can be used before it is set. -/
theorem unset_part_used :
    (∀ part, ¬ ∀ ls s, Transition.exec step init ls = some s → s.fault ≠ some part) ∧
      ¬ ∀ ls s, Transition.exec step init ls = some s → s.fault = none := by
  constructor
  · intro part hnever
    obtain ⟨ls, s, hs, hpart⟩ := exists_fault part
    exact hnever ls s hs hpart
  · intro hnever
    obtain ⟨ls, s, hs, hpart⟩ := exists_fault .msgGenerator
    have hnone := hnever ls s hs
    rw [hpart] at hnone
    cases hnone

end Lifecycle
end HVBench
