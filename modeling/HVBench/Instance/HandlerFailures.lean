import HVBench.Etcd.Delivery
import HVBench.Instance.Watchers

/-! What a watch delivers when its handler throws on some of the events. -/
namespace HVBench
namespace Etcd
namespace Delivery
open Transition
variable {σ : Type*} {callback : σ → RapidReply → HandlerResult σ} {events : List RapidReply}

/-- In every run each event is handed over exactly once. -/
def AlwaysDeliveredOnce (callback : σ → RapidReply → HandlerResult σ) (events : List RapidReply)
    (s₀ : σ) : Prop :=
  ∀ ls s, exec (step callback events) (init s₀) ls = some s → DeliveredOnce events s

/-- A single event is handed over once, also when its handling throws. -/
theorem Failing.deliveredOnce {Ok : List RapidReply → σ → Prop} {s : State σ}
    (hs : Failing events Ok s) (hlen : events.length ≤ 1) : DeliveredOnce events s := by
  have hle := hs.length_le
  have hsub : s.handed.Sublist events := hs.handed.trans (List.take_sublist _ _)
  refine ⟨?_, ?_, ?_⟩
  · have hlimit : failureLimit = 5 := rfl
    rw [hs.failures]
    omega
  · rcases Nat.eq_zero_or_pos s.handed.length with hzero | hpos
    · exact ⟨0, List.length_eq_zero_iff.mp hzero⟩
    · refine ⟨events.length, ?_⟩
      rw [List.take_length]
      exact hsub.eq_of_length (by omega)
  · rintro ⟨hall, p, hp, hlate⟩
    apply hsub.eq_of_length
    by_contra hne
    have hnil : s.handed = [] := List.length_eq_zero_iff.mp (by omega)
    have hzero : p = 0 := Option.some.inj (hp.symm.trans (hs.first hnil))
    omega

theorem eq_of_length_le_one {α : Type*} {l : List α} (h : l.length ≤ 1) {a b : α} (ha : a ∈ l)
    (hb : b ∈ l) : a = b := by
  obtain ⟨i, hi, rfl⟩ := List.mem_iff_getElem.mp ha
  obtain ⟨j, hj, rfl⟩ := List.mem_iff_getElem.mp hb
  have hij : i = j := by omega
  subst hij
  rfl

/-- The handler throws on an event after the first: that event comes again. -/
theorem not_deliveredOnce_of_stuck (h : Ordered events) {Ok : List RapidReply → σ → Prop}
    {s : State σ} {k : ℕ} {e : RapidReply} (hs : Stuck events Ok s k 2 e)
    (he : events[k]? = some e) : ¬ DeliveredOnce events s := by
  rintro ⟨-, ⟨j, hj⟩, -⟩
  have hlen : k < events.length := (List.getElem?_eq_some_iff.mp he).1
  have hnext : s.handed[k + 1]? = some e := by
    rw [hs.handed, List.getElem?_append_right (by rw [List.length_take]; omega),
      List.length_take, Nat.min_eq_left (Nat.le_of_lt hlen)]
    simp
  rw [hj, List.getElem?_take] at hnext
  split_ifs at hnext with hlt
  have hindex := index_lt h he hnext (Nat.lt_succ_self k)
  omega

/-- A watch delivers each event exactly once, whatever happens when, if and only if no
handler throws or there is nothing to come after the event on which it does. -/
theorem alwaysDeliveredOnce_iff (h : Ordered events) {fails : RapidReply → Option Thrown}
    {Ok : List RapidReply → σ → Prop} (hcalls : Handles callback events fails Ok) {s₀ : σ}
    (hok : Ok [] s₀) :
    AlwaysDeliveredOnce callback events s₀ ↔
      (∀ r ∈ events, fails r = none) ∨ events.length ≤ 1 := by
  constructor
  · intro hall
    by_contra hcond
    push Not at hcond
    obtain ⟨⟨e, hmem, hfails⟩, hlen⟩ := hcond
    -- the first event on which the handler throws
    obtain ⟨k, e, he, hfails, hbefore⟩ := exists_first (P := fun r => fails r ≠ none) hmem hfails
    have hbefore : ∀ r ∈ events.take k, fails r = none := fun r hr => not_not.mp (hbefore r hr)
    rcases Nat.eq_zero_or_pos k with hzero | hpos
    · subst hzero
      obtain ⟨ls, s, hs, hhanded, hquiet, -⟩ := exists_skipped h hcalls hok he hfails
      have hevents := (hall ls s hs).2.2 hquiet
      rw [← hevents, hhanded] at hlen
      have hone : [e].length = 1 := rfl
      omega
    · obtain ⟨ls, s, hs, hstuck⟩ := exists_stuck h hcalls hok hpos he hfails hbefore 2 (by decide)
      exact not_deliveredOnce_of_stuck h hstuck he (hall ls s hs)
  · rintro (hnone | hlen) ls s hs
    · obtain ⟨k, hsmooth⟩ := smooth_exec h hcalls hnone hok hs
      exact hsmooth.deliveredOnce
    · by_cases hfails : ∀ r ∈ events, fails r = none
      · obtain ⟨k, hsmooth⟩ := smooth_exec h hcalls hfails hok hs
        exact hsmooth.deliveredOnce
      · have hthrows : ∀ r ∈ events, fails r ≠ none := by
          intro r hr hnone
          apply hfails
          intro r' hr'
          rw [eq_of_length_le_one hlen hr' hr]
          exact hnone
        exact (failing_exec h hcalls hthrows hok hs).deliveredOnce hlen

end Delivery
end Etcd

namespace Instance
open Etcd Delivery StdString

/-- Where the handler of the tenant configuration throws. -/
def tenantConfFails (tenants : StdString → Bool) (r : RapidReply) : Option Thrown :=
  match r.getAll with
  | none => none
  | some pairs =>
    match onChangeTenantConf tenants pairs with
    | .error _ => some .exception
    | .ok _ => none

theorem handles_tenantConf (tenants : StdString → Bool) {events : List RapidReply}
    (h : ∀ r ∈ events, r.getAll ≠ none) :
    Handles (tenantConfCallback tenants) events (tenantConfFails tenants) fun _ _ => True where
  call := by
    intro _ updates r _ hr _
    cases hall : r.getAll with
    | none => exact absurd hall (h r hr)
    | some pairs =>
      unfold tenantConfCallback tenantConfFails
      rw [hall]
      dsimp only
      cases onChangeTenantConf tenants pairs with
      | error e => exact ⟨updates, rfl, trivial⟩
      | ok update => exact ⟨updates ++ update.toList, rfl, trivial⟩
  code := by
    intro r _ hcode
    unfold tenantConfFails at hcode
    split at hcode
    · cases hcode
    · split at hcode <;> cases hcode

/-- A plain key below the tenants' directory, and then a new rate of a tenant. -/
def badThenGood : List RapidReply :=
  [.change "set".toList "/hvbench/tenants/t1".toList "x".toList 5,
    .change "set".toList "/hvbench/tenants/t2/generator_conf/avg_rate".toList "100".toList 6]

/-- The new rate is written while the handler fails on the plain key, and is never seen. -/
theorem rate_skipped :
    ¬ AlwaysDeliveredOnce (tenantConfCallback fun _ => true) badThenGood [] := by
  intro h
  obtain ⟨-, -, hquiet⟩ := h [.write, .respond, .write, .request] _ rfl
  have hhanded := hquiet ⟨rfl, 2, rfl, Nat.le_refl 2⟩
  have hlen := congrArg List.length hhanded
  revert hlen
  decide

/-- Two new rates. -/
def goodThenGood : List RapidReply :=
  [.change "set".toList "/hvbench/tenants/t1/generator_conf/avg_rate".toList "10".toList 5,
    .change "set".toList "/hvbench/tenants/t2/generator_conf/avg_rate".toList "100".toList 6]

/-- Neither is skipped nor handed over twice, in whatever order etcd and the watch take turns. -/
theorem alwaysDeliveredOnce_iff_goodThenGood :
    AlwaysDeliveredOnce (tenantConfCallback fun _ => true) goodThenGood [] := by
  have hordered : Ordered goodThenGood := by
    constructor
    · intro r hr
      simp only [goodThenGood, List.mem_cons, List.not_mem_nil, or_false] at hr
      rcases hr with rfl | rfl <;> rfl
    · simp [goodThenGood, index]
  have hall : ∀ r ∈ goodThenGood, r.getAll ≠ none := by
    intro r hr
    simp only [goodThenGood, List.mem_cons, List.not_mem_nil, or_false] at hr
    rcases hr with rfl | rfl <;> simp
  have hgood : ∀ r ∈ goodThenGood, tenantConfFails (fun _ => true) r = none := by decide
  exact (alwaysDeliveredOnce_iff hordered (handles_tenantConf _ hall) trivial).mpr (.inl hgood)

end Instance
end HVBench
