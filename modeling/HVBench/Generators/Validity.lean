import HVBench.Generators.Parameters
import Mathlib.Algebra.Order.BigOperators.Group.List
import Mathlib.Algebra.Order.Ring.Rat
import Mathlib.Data.Nat.Cast.Order.Ring

/-! What the samplers and the schedule of a generator need of its parameters, and which
updates keep it. `update` hands on every value that parses. -/
namespace HVBench
namespace Validity
open StdString
variable {F ρ : Type} (p : Platform F ρ) (value : F → Option ℚ)

/-- Weights `discrete_distribution` can draw from. `value` is `none` for infinities and
NaN. -/
structure ValidWeights (weights : List F) : Prop where
  nonneg : ∀ w ∈ weights, ∃ q, value w = some q ∧ 0 ≤ q
  sum_pos : 0 < (weights.filterMap value).sum

/-- A generator with the rate it accepted last. -/
structure State (F ρ : Type) where
  leaf : Leaf F ρ
  rate : UInt32

structure Update where
  key : StdString
  value : StdString
  deriving DecidableEq, Repr

def start (setup : GeneratorSetup F) (rng : ρ) (baseTime : TimePoint) : State F ρ where
  leaf := .create p setup rng baseTime
  rate :=
    match setup with
    | .constant avgRate _ => avgRate
    | .tenant avgRate _ _ => avgRate

def step (s : State F ρ) (u : Update) : Option (State F ρ) :=
  some
    { leaf := s.leaf.update p u.key u.value
      rate := (TenantGenerator.rateOf p.cast u.key u.value).getD s.rate }

/-- What the generator needs to make its next message. -/
def Valid (s : State F ρ) : Prop :=
  match s.leaf with
  | .constant g => 0 < s.rate.toNat ∧ 1 ≤ g.interArrivalT.toNat
  | .tenant g => 0 < g.params.nd.toNat ∧ 0 < g.params.varExp.toNat ∧
      ValidWeights value g.params.discreteNd ∧ ValidWeights value g.params.varDisc

/-- Parameters a generator is built from, with a weight for each type. -/
def WellFormed : GeneratorSetup F → Prop
  | .constant _ _ => True
  | .tenant _ ofTypes weights => weights.length = ofTypes.length

/-- The weight `w` for the type leaves a distribution: it is positive, or it is 0 and
another type has a positive weight. -/
def AcceptsWeight (g : TenantGenerator F) (type : OFPT) (w : F) : Prop :=
  ∃ q, value w = some q ∧ 0 ≤ q ∧
    (0 < q ∨ ∃ j w' q', j ≠ g.ofTypes.idxOf type ∧ g.weights[j]? = some w' ∧
      value w' = some q' ∧ 0 < q')

/-- The update sets nothing, or a value its generator can go on with. -/
def Accepts (s : State F ρ) (u : Update) : Prop :=
  match s.leaf with
  | .constant _ => ∀ r, TenantGenerator.rateOf p.cast u.key u.value = some r →
      0 < r.toNat ∧ r.toNat ≤ 1000000000
  | .tenant g =>
    (∀ r, TenantGenerator.rateOf p.cast u.key u.value = some r → 0 < r.toNat) ∧
      ∀ type ∈ g.params.ofTypes, ∀ w,
        TenantGenerator.weightOf p.cast type u.key u.value = some w →
        AcceptsWeight value g.params type w

/-- What every update keeps: the samplers are built from the parameters. -/
def Built (s : State F ρ) : Prop :=
  match s.leaf with
  | .constant g => g.interArrivalT = interArrival p s.rate
  | .tenant g => g.params.Synced ∧ g.params.weights.length = g.params.ofTypes.length

variable {p value}

theorem sum_filterMap_pos_iff {ws : List F} (h : ∀ w ∈ ws, ∃ q, value w = some q ∧ 0 ≤ q) :
    0 < (ws.filterMap value).sum ↔ ∃ w ∈ ws, ∃ q, value w = some q ∧ 0 < q := by
  induction ws with
  | nil => simp
  | cons w ws ih =>
    obtain ⟨q, hq, hnonneg⟩ := h w (by simp)
    have hrest := ih fun w hw => h w (by simp [hw])
    have hsum : 0 ≤ (ws.filterMap value).sum := by
      apply List.sum_nonneg
      intro q' hq'
      obtain ⟨w', hw', heq⟩ := List.mem_filterMap.mp hq'
      obtain ⟨q'', hq'', hnonneg'⟩ := h w' (by simp [hw'])
      obtain rfl := Option.some.inj (heq.symm.trans hq'')
      exact hnonneg'
    rw [List.filterMap_cons_some hq, List.sum_cons]
    constructor
    · intro hpos
      rcases hnonneg.lt_or_eq with hlt | heq
      · exact ⟨w, by simp, q, hq, hlt⟩
      · rw [← heq, zero_add] at hpos
        obtain ⟨w', hw', hpos'⟩ := hrest.mp hpos
        exact ⟨w', by simp [hw'], hpos'⟩
    · rintro ⟨w', hw', q', hq', hpos⟩
      rcases List.mem_cons.mp hw' with rfl | hw'
      · obtain rfl := Option.some.inj (hq.symm.trans hq')
        exact add_pos_of_pos_of_nonneg hpos hsum
      · exact add_pos_of_nonneg_of_pos hnonneg (hrest.mpr ⟨w', hw', q', hq', hpos⟩)

/-- Valid weights by position: none is negative and one is positive. -/
theorem validWeights_iff {ws : List F} : ValidWeights value ws ↔
    (∀ (j : ℕ) w, ws[j]? = some w → ∃ q, value w = some q ∧ 0 ≤ q) ∧
      ∃ (j : ℕ) (w : F) (q : ℚ), ws[j]? = some w ∧ value w = some q ∧ 0 < q := by
  constructor
  · intro h
    obtain ⟨w, hw, q, hq, hpos⟩ := (sum_filterMap_pos_iff h.nonneg).mp h.sum_pos
    obtain ⟨j, hj⟩ := List.mem_iff_getElem?.mp hw
    exact ⟨fun j w hj => h.nonneg w (List.mem_of_getElem? hj), j, w, q, hj, hq, hpos⟩
  · rintro ⟨hnonneg, j, w, q, hj, hq, hpos⟩
    have hmem : ∀ w ∈ ws, ∃ q, value w = some q ∧ 0 ≤ q := by
      intro w hw
      obtain ⟨j, hj⟩ := List.mem_iff_getElem?.mp hw
      exact hnonneg j w hj
    exact ⟨hmem, (sum_filterMap_pos_iff hmem).mpr ⟨w, List.mem_of_getElem? hj, q, hq, hpos⟩⟩

/-- One weight of valid ones is replaced. -/
theorem validWeights_set {ws : List F} (h : ValidWeights value ws) {i : ℕ} (hi : i < ws.length)
    (w : F) :
    ValidWeights value (ws.set i w) ↔ ∃ q, value w = some q ∧ 0 ≤ q ∧
      (0 < q ∨ ∃ j w' q', j ≠ i ∧ ws[j]? = some w' ∧ value w' = some q' ∧ 0 < q') := by
  have hself : (ws.set i w)[i]? = some w := List.getElem?_set_self hi
  have hother : ∀ j, j ≠ i → (ws.set i w)[j]? = ws[j]? := by
    intro j hj
    exact List.getElem?_set_ne hj.symm
  rw [validWeights_iff]
  constructor
  · rintro ⟨hnonneg, j, w', q', hj, hq', hpos⟩
    obtain ⟨q, hq, hq0⟩ := hnonneg i w hself
    refine ⟨q, hq, hq0, ?_⟩
    by_cases hji : j = i
    · subst hji
      obtain rfl := Option.some.inj (hself.symm.trans hj)
      obtain rfl := Option.some.inj (hq.symm.trans hq')
      exact Or.inl hpos
    · rw [hother j hji] at hj
      exact Or.inr ⟨j, w', q', hji, hj, hq', hpos⟩
  · rintro ⟨q, hq, hq0, hpos⟩
    constructor
    · intro j w' hj
      by_cases hji : j = i
      · subst hji
        obtain rfl := Option.some.inj (hself.symm.trans hj)
        exact ⟨q, hq, hq0⟩
      · rw [hother j hji] at hj
        exact (validWeights_iff.mp h).1 j w' hj
    · rcases hpos with hpos | ⟨j, w', q', hji, hj, hq', hpos⟩
      · exact ⟨i, w, q, hself, hq, hpos⟩
      · exact ⟨j, w', q', (hother j hji).trans hj, hq', hpos⟩

/-- The distance of messages is at least one nanosecond up to a rate of one in each. -/
theorem one_le_interArrival {r : UInt32} (hr : 0 < r.toNat) :
    1 ≤ (interArrival p r).toNat ↔ r.toNat ≤ 1000000000 := by
  rw [toNat_interArrival p hr, Nat.one_le_div_iff hr]

theorem length_mapM {α β ε : Type} {f : α → Except ε β} {l : List α} {l' : List β}
    (h : l.mapM f = .ok l') : l'.length = l.length := by
  induction l generalizing l' with
  | nil =>
    obtain rfl := Except.ok.inj h
    rfl
  | cons a l ih =>
    rw [List.mapM_cons] at h
    cases ha : f a with
    | error e => rw [ha] at h; cases h
    | ok b =>
      cases hl : l.mapM f with
      | error e => rw [ha, hl] at h; cases h
      | ok bs =>
        rw [ha, hl] at h
        obtain rfl := Except.ok.inj h
        rw [List.length_cons, List.length_cons, ih hl]

/-- `_run` reads a weight for each of its types. -/
theorem wellFormed_tenantSetup {cast : LexicalCast F} {store : Store} {basep : StdString}
    {setup : GeneratorSetup F} (h : tenantSetup cast store basep = .ok setup) :
    WellFormed setup := by
  unfold tenantSetup at h
  cases hweights : OFPT.reqTypes.mapM (weightSetup cast store basep) with
  | error e => rw [hweights] at h; cases h
  | ok weights =>
    rw [hweights] at h
    cases hrate : store.get (join basep "generator_conf/avg_rate".toList) with
    | error e => rw [hrate] at h; cases h
    | ok rate =>
      rw [hrate] at h
      cases hcast : cast.uint32 rate with
      | none => simp [hcast, castResult, bind, Except.bind] at h
      | some avgRate =>
        simp only [hcast, castResult, bind, Except.bind] at h
        obtain rfl := Except.ok.inj h
        exact length_mapM hweights

theorem built_start (setup : GeneratorSetup F) (hsetup : WellFormed setup) (rng : ρ)
    (baseTime : TimePoint) : Built p (start p setup rng baseTime) := by
  cases setup with
  | constant avgRate msgT => rfl
  | tenant avgRate ofTypes weights =>
    exact ⟨TenantGenerator.synced_create avgRate ofTypes weights, hsetup⟩

theorem built_step {s t : State F ρ} {u : Update} (h : Built p s) (ht : step p s u = some t) :
    Built p t := by
  obtain rfl := Option.some.inj ht
  obtain ⟨leaf, rate⟩ := s
  cases leaf with
  | constant g =>
    change (g.update p u.key u.value).interArrivalT = interArrival p _
    have hg : g.interArrivalT = interArrival p rate := h
    rw [g.update_interArrivalT, hg]
    cases TenantGenerator.rateOf p.cast u.key u.value <;> rfl
  | tenant g =>
    obtain ⟨hsynced, hlen⟩ := h
    change (g.update p u.key u.value).params.Synced ∧
      (g.update p u.key u.value).params.weights.length =
        (g.update p u.key u.value).params.ofTypes.length
    rw [TenantGenerator.Running.update_eq]
    refine ⟨hsynced.updated u.key u.value, ?_⟩
    rw [TenantGenerator.updated_length, TenantGenerator.updated_ofTypes, hlen]

/-- What a `TenantGenerator` can go on with, by the assignment that the update makes. -/
theorem accepts_tenant_iff {g : TenantGenerator.Running F ρ} {rate : UInt32} {u : Update} :
    Accepts p value ⟨.tenant g, rate⟩ u ↔
      ∀ a, TenantGenerator.assignment p.cast g.params.ofTypes u.key u.value = some a →
        match a with
        | .rate r => 0 < r.toNat
        | .weight type w => AcceptsWeight value g.params type w := by
  constructor
  · rintro ⟨hrate, hweight⟩ a ha
    cases a with
    | rate r => exact hrate r (TenantGenerator.assignment_eq_rate_iff.mp ha)
    | weight type w =>
      obtain ⟨htype, hw⟩ := TenantGenerator.assignment_eq_weight_iff.mp ha
      exact hweight type htype w hw
  · intro h
    refine ⟨fun r hr => ?_, fun type htype w hw => ?_⟩
    · exact h (.rate r) (TenantGenerator.assignment_eq_rate_iff.mpr hr)
    · exact h (.weight type w) (TenantGenerator.assignment_eq_weight_iff.mpr ⟨htype, hw⟩)

/-- An update leaves a generator valid exactly if it is one to accept. -/
theorem valid_step_iff {s t : State F ρ} {u : Update} (hbuilt : Built p s)
    (h : Valid value s) (ht : step p s u = some t) : Valid value t ↔ Accepts p value s u := by
  obtain rfl := Option.some.inj ht
  obtain ⟨leaf, rate⟩ := s
  cases leaf with
  | constant g =>
    change 0 < ((TenantGenerator.rateOf p.cast u.key u.value).getD rate).toNat ∧
      1 ≤ (g.update p u.key u.value).interArrivalT.toNat ↔ _
    rw [g.update_interArrivalT]
    unfold Accepts
    dsimp only
    cases TenantGenerator.rateOf p.cast u.key u.value with
    | none => exact ⟨fun _ => by simp, fun _ => h⟩
    | some r =>
      constructor
      · rintro ⟨hr, hdistance⟩ _ ⟨⟩
        exact ⟨hr, (one_le_interArrival hr).mp hdistance⟩
      · intro hr
        obtain ⟨hpos, hle⟩ := hr r rfl
        exact ⟨hpos, (one_le_interArrival hpos).mpr hle⟩
  | tenant g =>
    obtain ⟨hsynced, hlen⟩ := hbuilt
    obtain ⟨hnd, hvarExp, hdiscrete, hdisc⟩ := h
    rw [accepts_tenant_iff]
    unfold Valid
    simp only [Leaf.update, TenantGenerator.Running.update_eq, TenantGenerator.updated]
    cases ha : TenantGenerator.assignment p.cast g.params.ofTypes u.key u.value with
    | none => exact ⟨fun _ _ h => absurd h (by simp), fun _ => ⟨hnd, hvarExp, hdiscrete, hdisc⟩⟩
    | some a =>
      cases a with
      | rate r =>
        constructor
        · rintro ⟨hr, -⟩ _ ⟨⟩
          exact hr
        · intro h
          exact ⟨h _ rfl, h _ rfl, hdiscrete, hdisc⟩
      | weight type w =>
        obtain ⟨htype, -⟩ := TenantGenerator.assignment_eq_weight_iff.mp ha
        have hidx : g.params.ofTypes.idxOf type < g.params.weights.length := by
          rw [hlen]
          exact List.idxOf_lt_length_iff.mpr htype
        -- the samplers are built from the weights, so these are valid before the update
        have hset := validWeights_set (hsynced.varDisc ▸ hdisc) hidx w
        constructor
        · rintro ⟨-, -, hweights, -⟩ _ ⟨⟩
          exact hset.mp hweights
        · intro h
          have hweights := hset.mpr (h _ rfl)
          exact ⟨hnd, hvarExp, hweights, hweights⟩

variable (p value)

/-- `discrete_distribution` draws an index with a positive weight. -/
def DrawsPositive : Prop :=
  ∀ weights rng, ValidWeights value weights →
    ∃ w q, weights[(p.varDisc weights rng).1]? = some w ∧ value w = some q ∧ 0 < q

/-- The type of the next message has a positive weight. -/
def NextWeighted (s : State F ρ) : Prop :=
  match s.leaf with
  | .constant _ => True
  | .tenant g => ∀ msg g', g.next p = some (msg, g') →
      ∃ (i : ℕ) (w : F) (q : ℚ), g.params.ofTypes[i]? = some msg.ofMsg.type ∧
        g.params.weights[i]? = some w ∧ value w = some q ∧ 0 < q

variable {p value}

theorem nextWeighted_of_valid {s : State F ρ} (hdraws : DrawsPositive p value)
    (hbuilt : Built p s) (h : Valid value s) : NextWeighted p value s := by
  obtain ⟨leaf, rate⟩ := s
  cases leaf with
  | constant g => trivial
  | tenant g =>
    intro msg g' hnext
    obtain ⟨w, q, hw, hq, hpos⟩ := hdraws g.params.varDisc g.rng h.2.2.2
    have htype := (TenantGenerator.Running.next_made hnext).type
    rw [hbuilt.1.varDisc] at htype hw
    exact ⟨_, w, q, htype, hw, hq, hpos⟩

/-- Both hold in every state of a run of accepted updates. -/
theorem always_nextWeighted {s : State F ρ} {updates : List Update}
    (hdraws : DrawsPositive p value) (hbuilt : Built p s)
    (h : Transition.Always (step p) (Valid value) s updates) :
    Transition.Always (step p) (NextWeighted p value) s updates := by
  intro before after t hupdates ht
  have hbuilt' : Built p t :=
    Transition.exec_invariant (fun _ _ _ hs ht => built_step hs ht) hbuilt ht
  exact nextWeighted_of_valid hdraws hbuilt' (h before after t hupdates ht)

/-- A generator started with valid parameters stays valid if and only if it accepts no
rate of 0, no rate above one message a nanosecond at a constant distance, no weight that is
negative or not finite, and no weight of 0 for the last type with a positive one. Then it
generates no type whose weight is 0. -/
theorem always_valid_iff (setup : GeneratorSetup F) (rng : ρ) (baseTime : TimePoint)
    (hsetup : WellFormed setup) (hstart : Valid value (start p setup rng baseTime))
    (updates : List Update) :
    (Transition.Always (step p) (Valid value) (start p setup rng baseTime) updates ↔
      Transition.Meets (step p) (Accepts p value) (start p setup rng baseTime) updates) ∧
    (DrawsPositive p value →
      Transition.Meets (step p) (Accepts p value) (start p setup rng baseTime) updates →
      Transition.Always (step p) (NextWeighted p value) (start p setup rng baseTime) updates) := by
  have hbuilt := built_start (p := p) setup hsetup rng baseTime
  have hiff : Transition.Always (step p) (Valid value) (start p setup rng baseTime) updates ↔
      Transition.Meets (step p) (Accepts p value) (start p setup rng baseTime) updates :=
    Transition.always_iff_meets (fun _ _ => rfl) (fun _ _ _ hG ht => built_step hG ht)
      (fun _ _ _ hG hI ht => valid_step_iff hG hI ht) hbuilt hstart
  exact ⟨hiff, fun hdraws hmeets => always_nextWeighted hdraws hbuilt (hiff.mpr hmeets)⟩

open TransactionIds in
/-- The first type with a positive weight is drawn each time. -/
def firstPositive : Platform ℕ Unit :=
  { steadyPlatform with varDisc := fun weights rng => (weights.findIdx (0 < ·), rng) }

def natValue (n : ℕ) : Option ℚ := some n

theorem drawsPositive_firstPositive : DrawsPositive firstPositive natValue := by
  intro weights rng h
  obtain ⟨-, j, w, q, hj, hq, hpos⟩ := validWeights_iff.mp h
  obtain rfl := Option.some.inj hq
  have hw : 0 < w := by exact_mod_cast hpos
  have hlt : weights.findIdx (0 < ·) < weights.length :=
    List.findIdx_lt_length.mpr ⟨w, List.mem_of_getElem? hj, by simpa using hw⟩
  have hfound := of_decide_eq_true (List.findIdx_getElem (w := hlt))
  exact ⟨_, _, List.getElem?_eq_getElem hlt, rfl, by exact_mod_cast hfound⟩

def raiseFirst : List Update :=
  [⟨"FLOW_MOD".toList, "1".toList⟩, ⟨"ECHO_REQUEST".toList, "0".toList⟩]

/-- A weight is set to 0 after another was raised. -/
theorem always_valid_raiseFirst :
    Transition.Always (step firstPositive) (NextWeighted firstPositive natValue)
      (start firstPositive (.tenant 5 [.echoRequest, .flowMod] [1, 0]) () 0) raiseFirst := by
  have hweights : ValidWeights natValue [1, 0] :=
    validWeights_iff.mpr ⟨fun j w _ => ⟨w, rfl, Nat.cast_nonneg w⟩, 0, 1, 1, rfl, rfl, one_pos⟩
  have hstart : Valid natValue
      (start firstPositive (.tenant 5 [.echoRequest, .flowMod] [1, 0]) () 0) :=
    ⟨by decide, by decide, hweights, hweights⟩
  have hsetup : WellFormed (.tenant 5 [.echoRequest, .flowMod] [1, 0] : GeneratorSetup ℕ) := rfl
  have hvalid := always_valid_iff _ () 0 hsetup hstart raiseFirst
  refine hvalid.2 drawsPositive_firstPositive ⟨?_, ?_⟩
  · refine accepts_tenant_iff.mpr fun a ha => ?_
    obtain rfl : .weight .flowMod 1 = a := Option.some.inj ha
    exact ⟨1, rfl, zero_le_one, Or.inl one_pos⟩
  · rintro _ ⟨⟩
    refine ⟨?_, fun _ _ => trivial⟩
    refine accepts_tenant_iff.mpr fun a ha => ?_
    obtain rfl : .weight .echoRequest 0 = a := Option.some.inj ha
    exact ⟨0, rfl, le_rfl, Or.inr ⟨1, 1, 1, by decide, rfl, rfl, one_pos⟩⟩

/-- A rate of 0 is accepted. -/
theorem zero_rate_accepted :
    ¬ ∀ (p : Platform ℕ Unit) (value : ℕ → Option ℚ) setup rng baseTime updates,
      WellFormed setup → Valid value (start p setup rng baseTime) →
      Transition.Always (step p) (Valid value) (start p setup rng baseTime) updates := by
  intro h
  have hstart : Valid natValue (start firstPositive (.constant 1 "ECHO_REQUEST".toList) () 0) :=
    ⟨by decide, by decide⟩
  have halways := h firstPositive natValue (.constant 1 "ECHO_REQUEST".toList) () 0
    [⟨"avg_rate".toList, "0".toList⟩] trivial hstart
  have hvalid := halways [⟨"avg_rate".toList, "0".toList⟩] [] _ rfl rfl
  exact absurd hvalid.1 (by decide)

end Validity
end HVBench
