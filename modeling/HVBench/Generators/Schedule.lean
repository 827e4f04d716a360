import HVBench.Generators.Parameters
import Mathlib.Data.Nat.Cast.Basic
import Mathlib.Tactic.Ring

/-! The times of the messages a generator hands out, from its time reference on. Ticks of
the clock are integers without bound: `int64_t` overflow is undefined in the source. -/
namespace HVBench
namespace Schedule
variable {F ρ : Type} (p : Platform F ρ)

inductive Call
  | peek
  | next
  | update (key value : StdString)
  deriving DecidableEq, Repr

/-- A generator and the times of the messages that `next` returned, in order. -/
structure State (F ρ : Type) where
  leaf : Leaf F ρ
  times : List TimePoint

/-- After `set_time_reference`. -/
def start (l : Leaf F ρ) (baseTime : TimePoint) : State F ρ := ⟨l.setTimeReference baseTime, []⟩

def step (s : State F ρ) : Call → Option (State F ρ)
  | .peek => some { s with leaf := ((Leaf.ops p).peek s.leaf).2 }
  | .next => ((Leaf.ops p).next s.leaf).map fun r => ⟨r.2, s.times ++ [r.1.timeNs]⟩
  | .update key value => some { s with leaf := s.leaf.update p key value }

/-- The time no later message lies before: that of the last message, or for a pre-drawn
schedule that of the next one. -/
def floor : Leaf F ρ → TimePoint
  | .constant g => g.baseTime + g.localNs
  | .tenant g => g.peek

variable {p}

/-- `next` returns the message `peek` announces, and moves the schedule on from it. -/
theorem next_time {l l' : Leaf F ρ} {msg : ScheduledMsg}
    (h : (Leaf.ops p).next l = some (msg, l')) :
    msg.timeNs = ((Leaf.ops p).peek l).1 ∧ floor l ≤ msg.timeNs ∧ msg.timeNs ≤ floor l' := by
  cases l with
  | constant g =>
    obtain ⟨rfl, rfl⟩ := Prod.mk.inj (Option.some.inj h)
    refine ⟨g.next_timeNs, ?_, le_refl _⟩
    rw [g.next_timeNs]
    exact Int.le_add_of_nonneg_right (Int.natCast_nonneg _)
  | tenant g =>
    obtain ⟨⟨msg', g'⟩, hnext, heq⟩ := Option.map_eq_some_iff.mp h
    obtain ⟨rfl, rfl⟩ := Prod.mk.inj heq
    have hmade := TenantGenerator.Running.next_made hnext
    exact ⟨hmade.timeNs, hmade.timeNs.ge, hmade.timeNs.trans_le hmade.peek_le⟩

theorem floor_update (l : Leaf F ρ) (key value : StdString) :
    floor (l.update p key value) = floor l := by
  cases l with
  | constant g =>
    simp only [Leaf.update, ConstantGenerator.update_eq, floor]
  | tenant g =>
    simp only [Leaf.update, TenantGenerator.Running.update_eq, floor]
    rfl

/-- The messages handed out are in order, and the schedule is past them. -/
structure Ordered (s : State F ρ) : Prop where
  pairwise : s.times.Pairwise (· ≤ ·)
  le_floor : ∀ t ∈ s.times, t ≤ floor s.leaf

theorem ordered_step {s t : State F ρ} {c : Call} (h : Ordered s) (ht : step p s c = some t) :
    Ordered t := by
  cases c with
  | peek =>
    obtain rfl := Option.some.inj ht
    rw [Leaf.peek_pure]
    exact h
  | update key value =>
    obtain rfl := Option.some.inj ht
    refine ⟨h.pairwise, fun t ht => ?_⟩
    rw [floor_update]
    exact h.le_floor t ht
  | next =>
    obtain ⟨⟨msg, l'⟩, hnext, rfl⟩ := Option.map_eq_some_iff.mp ht
    obtain ⟨-, hlow, hhigh⟩ := next_time hnext
    have hbefore : ∀ t ∈ s.times, t ≤ msg.timeNs := fun t ht => (h.le_floor t ht).trans hlow
    constructor
    · refine List.pairwise_append.mpr ⟨h.pairwise, List.pairwise_singleton _ _, ?_⟩
      intro t ht u hu
      rw [List.mem_singleton.mp hu]
      exact hbefore t ht
    · intro t ht
      rcases List.mem_append.mp ht with ht | ht
      · exact (hbefore t ht).trans hhigh
      · rw [List.mem_singleton.mp ht]
        exact hhigh

/-- An update changes a weight or the rate, never the number of weights. -/
theorem drawsMessages_updated {cast : LexicalCast F} {params : TenantGenerator F}
    (h : Leaf.DrawsMessages params) (key value : StdString) :
    Leaf.DrawsMessages (params.updated cast key value) := by
  unfold TenantGenerator.updated
  cases TenantGenerator.assignment cast params.ofTypes key value with
  | none => exact h
  | some a =>
    cases a with
    | rate rate => exact ⟨h.nonempty, h.length, h.weights, h.types⟩
    | weight type weight =>
      have hlength : (params.weights.set (params.ofTypes.idxOf type) weight).length =
          params.ofTypes.length := by
        rw [List.length_set, h.weights]
      have hne : params.weights.set (params.ofTypes.idxOf type) weight ≠ [] := by
        rw [← List.length_pos_iff, hlength, ← h.length]
        exact List.length_pos_iff.mpr h.nonempty
      exact ⟨hne, hlength, hlength, h.types⟩

theorem ready_update {l : Leaf F ρ} (h : l.Ready) (key value : StdString) :
    (l.update p key value).Ready := by
  cases l with
  | constant g => trivial
  | tenant g =>
    simp only [Leaf.update, TenantGenerator.Running.update_eq]
    exact drawsMessages_updated h key value

theorem ready_setTimeReference {l : Leaf F ρ} (h : l.Ready) (baseTime : TimePoint) :
    (l.setTimeReference baseTime).Ready := by
  cases l <;> exact h

/-- A generator that can draw its messages returns from every call and stays one. -/
theorem step_ready
    (hdisc : ∀ weights rng, weights ≠ [] → (p.varDisc weights rng).1 < weights.length)
    {s : State F ρ} (h : s.leaf.Ready) (c : Call) :
    ∃ t, step p s c = some t ∧ t.leaf.Ready := by
  cases c with
  | peek => exact ⟨_, rfl, by rwa [Leaf.peek_pure]⟩
  | update key value => exact ⟨_, rfl, ready_update h key value⟩
  | next =>
    obtain ⟨msg, l', hnext, hready, -⟩ := (Leaf.wellBehaved hdisc).next s.leaf h
    exact ⟨⟨l', s.times ++ [msg.timeNs]⟩, by rw [step, hnext]; rfl, hready⟩

/-- From the time reference on, any calls hand out messages in the order of their times,
`peek` changes nothing, and the `next` that follows it returns a message of its time. A
generator that can draw its messages returns from all of them. -/
theorem schedule_ordered (p : Platform F ρ) (l : Leaf F ρ) (baseTime : TimePoint)
    (calls : List Call) :
    (∀ s, Transition.exec (step p) (start l baseTime) calls = some s →
      s.times.Pairwise (· ≤ ·) ∧ step p s .peek = some s ∧
        ∀ t, step p s .next = some t →
          t.times = s.times ++ [((Leaf.ops p).peek s.leaf).1]) ∧
    ((∀ weights rng, weights ≠ [] → (p.varDisc weights rng).1 < weights.length) → l.Ready →
      ∃ s t, Transition.exec (step p) (start l baseTime) calls = some s ∧
        step p s .next = some t ∧ t.times = s.times ++ [((Leaf.ops p).peek s.leaf).1]) := by
  have hnext : ∀ s t : State F ρ, step p s .next = some t →
      t.times = s.times ++ [((Leaf.ops p).peek s.leaf).1] := by
    intro s t ht
    obtain ⟨⟨msg, l'⟩, hnext, rfl⟩ := Option.map_eq_some_iff.mp ht
    rw [(next_time hnext).1]
  constructor
  · intro s h
    have hstart : Ordered (start l baseTime) := ⟨List.Pairwise.nil, by simp [start]⟩
    have hordered : Ordered s :=
      Transition.exec_invariant (fun _ _ _ hs ht => ordered_step hs ht) hstart h
    refine ⟨hordered.pairwise, ?_, hnext s⟩
    rw [step, Leaf.peek_pure]
  · intro hdisc hready
    have hall : Transition.Meets (step p) (fun _ _ => True) (start l baseTime) calls :=
      Transition.meets_of_always fun _ _ => trivial
    obtain ⟨s, hs, hreadyEnd⟩ := Transition.exists_exec_of_meets
      (I := fun s : State F ρ => s.leaf.Ready) (C := fun _ _ => True)
      (fun s c hready _ => step_ready hdisc hready c) (ready_setTimeReference hready baseTime) hall
    obtain ⟨t, ht, -⟩ := step_ready hdisc hreadyEnd .next
    exact ⟨s, t, hs, ht, hnext s t ht⟩

open TransactionIds in
/-- A generator of two types. -/
def twoTypes : Leaf ℕ Unit :=
  .tenant (.create steadyPlatform 5 [.echoRequest, .flowMod] [1, 2] () 0)

open TransactionIds in
/-- A weight and the rate are changed between two messages. -/
theorem schedule_ordered_updated :
    ∃ s t : State ℕ Unit, Transition.exec (step steadyPlatform) (start twoTypes 5)
        [.next, .update "ECHO_REQUEST".toList "3".toList, .update "avg_rate".toList "9".toList,
          .next, .peek] = some s ∧
      s.times = [1005, 2005] ∧ s.times.Pairwise (· ≤ ·) ∧
      step steadyPlatform s .next = some t ∧ t.times = [1005, 2005, 3005] := by
  have hready : twoTypes.Ready := ⟨by decide, rfl, rfl, by decide⟩
  have hschedule := schedule_ordered steadyPlatform twoTypes 5
    [.next, .update "ECHO_REQUEST".toList "3".toList, .update "avg_rate".toList "9".toList,
      .next, .peek]
  obtain ⟨s, t, hs, ht, htimes⟩ := hschedule.2
    (fun weights _ hne => List.length_pos_iff.mpr hne) hready
  obtain ⟨u, hu, hfirst, hpeek⟩ : ∃ u : State ℕ Unit,
      Transition.exec (step steadyPlatform) (start twoTypes 5)
        [.next, .update "ECHO_REQUEST".toList "3".toList, .update "avg_rate".toList "9".toList,
          .next, .peek] = some u ∧
      u.times = [1005, 2005] ∧ ((Leaf.ops steadyPlatform).peek u.leaf).1 = 3005 :=
    ⟨_, rfl, rfl, rfl⟩
  obtain rfl := Option.some.inj (hs.symm.trans hu)
  exact ⟨s, t, hs, hfirst, (hschedule.1 s hs).1, ht, by rw [htimes, hfirst, hpeek]; rfl⟩

/-- One more `next` call. -/
theorem exec_next_succ {s : State F ρ} {n : ℕ} {l l' : Leaf F ρ} {times : List TimePoint}
    {msg : ScheduledMsg}
    (h : Transition.exec (step p) s (List.replicate n .next) = some ⟨l, times⟩)
    (hnext : (Leaf.ops p).next l = some (msg, l')) :
    Transition.exec (step p) s (List.replicate (n + 1) .next) =
      some ⟨l', times ++ [msg.timeNs]⟩ := by
  rw [List.replicate_succ', Transition.exec_snoc]
  refine ⟨_, h, ?_⟩
  simp only [step, hnext, Option.map_some]

/-- The messages at a constant distance: each is one interval after the one before. -/
theorem exec_constant (g : ConstantGenerator) (baseTime : TimePoint) (n : ℕ) :
    ∃ g', Transition.exec (step p) (start (.constant g) baseTime) (List.replicate n .next) =
        some ⟨.constant g', (List.range n).map fun i =>
          baseTime + ((g.localNs + (i + 1) * g.interArrivalT.toNat : ℕ) : ℤ)⟩ ∧
      g'.baseTime = baseTime ∧ g'.interArrivalT = g.interArrivalT ∧
      g'.localNs = g.localNs + n * g.interArrivalT.toNat := by
  induction n with
  | zero => exact ⟨{ g with baseTime := baseTime }, rfl, rfl, rfl, by simp⟩
  | succ n ih =>
    obtain ⟨g', hexec, hbase, hdistance, hlocal⟩ := ih
    refine ⟨(g'.next p).2, ?_, hbase, hdistance, ?_⟩
    · have htime : (g'.next p).1.timeNs =
          baseTime + ((g.localNs + (n + 1) * g.interArrivalT.toNat : ℕ) : ℤ) := by
        change g'.baseTime + ((g'.localNs + g'.interArrivalT.toNat : ℕ) : ℤ) = _
        rw [hbase, hlocal, hdistance, Nat.add_assoc, Nat.succ_mul]
      rw [List.range_succ, List.map_append, List.map_singleton, ← htime]
      exact exec_next_succ hexec rfl
    · change g'.localNs + g'.interArrivalT.toNat = _
      rw [hlocal, hdistance, Nat.add_assoc, Nat.succ_mul]

theorem countP_range_lt (m n : ℕ) : (List.range n).countP (· < m) = min n m := by
  induction n with
  | zero => simp
  | succ n ih =>
    rw [List.range_succ, List.countP_append, ih, List.countP_singleton]
    by_cases h : n < m
    · simp only [h, decide_true, if_true]
      omega
    · simp only [h, decide_false, Bool.false_eq_true, if_false]
      omega

/-- In `k` seconds, a distance of `10^9 / r` fits `k * r` times exactly if what the
division loses in `k` seconds is less than one distance. -/
theorem seconds_div_eq_iff {r : ℕ} (hr : 0 < r) (hmax : r ≤ 1000000000) (k : ℕ) :
    k * 1000000000 / (1000000000 / r) = k * r ↔ k * (1000000000 % r) < 1000000000 / r := by
  have hdistance : 0 < 1000000000 / r := Nat.div_pos hmax hr
  have hsplit : k * 1000000000 = (1000000000 / r) * (k * r) + k * (1000000000 % r) := by
    conv_lhs => rw [← Nat.div_add_mod 1000000000 r]
    ring
  rw [hsplit, Nat.mul_add_div hdistance]
  constructor
  · intro h
    have hzero : k * (1000000000 % r) / (1000000000 / r) = 0 := by omega
    exact (Nat.div_eq_zero_iff_lt hdistance).mp hzero
  · intro h
    rw [Nat.div_eq_of_lt h, Nat.add_zero]

variable (p) in
/-- Of sufficiently many messages from the time reference on, exactly `k * r` fall into
the first `k` seconds. -/
def OffersRate (l : Leaf F ρ) (baseTime : TimePoint) (k r : ℕ) : Prop :=
  ∃ N, ∀ n ≥ N, ∃ s, Transition.exec (step p) (start l baseTime) (List.replicate n .next) =
      some s ∧
    s.times.countP (fun t => baseTime < t ∧ t ≤ baseTime + k * 1000000000) = k * r

/-- The number of messages at a distance of at least one in the first `k` seconds. -/
theorem countP_times {distance : ℕ} (hdistance : 0 < distance) (baseTime : TimePoint)
    (k n : ℕ) :
    ((List.range n).map fun i => baseTime + (((i + 1) * distance : ℕ) : ℤ)).countP
        (fun t => baseTime < t ∧ t ≤ baseTime + k * 1000000000) =
      min n (k * 1000000000 / distance) := by
  rw [List.countP_map, ← countP_range_lt]
  apply List.countP_congr
  intro i _
  have hiff : (baseTime < baseTime + (((i + 1) * distance : ℕ) : ℤ) ∧
      baseTime + (((i + 1) * distance : ℕ) : ℤ) ≤ baseTime + k * 1000000000) ↔
      i < k * 1000000000 / distance := by
    have hpos : 0 < (i + 1) * distance := Nat.mul_pos i.succ_pos hdistance
    rw [Nat.lt_iff_add_one_le, Nat.le_div_iff_mul_le hdistance]
    generalize (i + 1) * distance = x at hpos
    constructor
    · intro ⟨_, hle⟩
      have hx : (x : ℤ) ≤ k * 1000000000 := Int.add_le_add_iff_left baseTime |>.mp hle
      omega
    · intro hle
      have hx : (x : ℤ) ≤ k * 1000000000 := by omega
      have hx0 : (0 : ℤ) < x := by omega
      exact ⟨Int.lt_add_of_pos_right baseTime hx0, Int.add_le_add_left hx baseTime⟩
  simpa using hiff

/-- The count of the messages in `k` seconds settles at the number of distances in them. -/
theorem offersRate_iff_quotient {r : UInt32} (hr : 1 ≤ r.toNat) (hmax : r.toNat ≤ 1000000000)
    (msgT : StdString) (created baseTime : TimePoint) (k : ℕ) :
    OffersRate p (.constant (.create p r msgT created)) baseTime k r.toNat ↔
      k * 1000000000 / (1000000000 / r.toNat) = k * r.toNat := by
  have hdistance : (interArrival p r).toNat = 1000000000 / r.toNat := toNat_interArrival p hr
  have hpos : 0 < 1000000000 / r.toNat := Nat.div_pos hmax hr
  have hcount : ∀ n, ∃ s, Transition.exec (step p)
      (start (.constant (.create p r msgT created)) baseTime) (List.replicate n .next) = some s ∧
      s.times.countP (fun t => baseTime < t ∧ t ≤ baseTime + k * 1000000000) =
        min n (k * 1000000000 / (1000000000 / r.toNat)) := by
    intro n
    obtain ⟨g', hexec, -⟩ := exec_constant (p := p) (.create p r msgT created) baseTime n
    refine ⟨_, hexec, ?_⟩
    simp only [ConstantGenerator.create, hdistance, Nat.zero_add]
    exact countP_times hpos baseTime k n
  constructor
  · rintro ⟨N, hN⟩
    obtain ⟨s, hs, hoffers⟩ :=
      hN (max N (k * 1000000000 / (1000000000 / r.toNat))) (le_max_left _ _)
    obtain ⟨s', hs', hcounts⟩ := hcount (max N (k * 1000000000 / (1000000000 / r.toNat)))
    obtain rfl := Option.some.inj (hs.symm.trans hs')
    rw [← hoffers, hcounts]
    exact (min_eq_right (le_max_right _ _)).symm
  · intro h
    refine ⟨k * r.toNat, fun n hn => ?_⟩
    obtain ⟨s, hs, hcounts⟩ := hcount n
    refine ⟨s, hs, ?_⟩
    rw [hcounts, h]
    exact min_eq_right hn

variable (p) in
/-- A `ConstantGenerator` offers its rate for `k` seconds if and only if what it loses by
rounding its distance down adds up to less than one distance in them. -/
theorem offersRate_iff (r : UInt32) (hr : 1 ≤ r.toNat) (hmax : r.toNat ≤ 1000000000)
    (msgT : StdString) (created baseTime : TimePoint) (k : ℕ) :
    OffersRate p (.constant (.create p r msgT created)) baseTime k r.toNat ↔
      k * (1000000000 % r.toNat) < 1000000000 / r.toNat :=
  (offersRate_iff_quotient hr hmax msgT created baseTime k).trans (seconds_div_eq_iff hr hmax k)

open TransactionIds in
theorem offersRate_thousand :
    OffersRate steadyPlatform (.constant (.create steadyPlatform 1000 "ECHO_REQUEST".toList 0))
      0 60 1000 :=
  (offersRate_iff steadyPlatform 1000 (by decide) (by decide) _ 0 0 60).mpr (by decide)

open TransactionIds in
/-- At 70000 messages a second there are 70003 in the first one. -/
theorem seventy_thousand_not_offered :
    ¬ ∀ (p : Platform ℕ Unit) (r : UInt32) msgT created baseTime k, 1 ≤ r.toNat →
      r.toNat ≤ 1000000000 →
      OffersRate p (.constant (.create p r msgT created)) baseTime k r.toNat := by
  intro h
  have hoffers := h steadyPlatform 70000 "ECHO_REQUEST".toList 0 0 1 (by decide) (by decide)
  rw [offersRate_iff_quotient (by decide) (by decide)] at hoffers
  exact absurd hoffers (by decide)

/-- The draws of the distances, each with the random numbers that follow it. Between two of
them the type of a message is drawn from the same numbers. -/
def draw (p : Platform F ρ) (rate : UInt32) (weights : List F) (rng : ρ) : ℕ → ℕ × ρ
  | 0 => p.varExp rate rng
  | k + 1 => p.varExp rate (p.varDisc weights (draw p rate weights rng k).2).2

/-- The sum of the first `k` distances. -/
def drawn (p : Platform F ρ) (rate : UInt32) (weights : List F) (rng : ρ) (k : ℕ) : ℕ :=
  ((List.range k).map fun i => (draw p rate weights rng i).1).sum

theorem drawn_succ (rate : UInt32) (weights : List F) (rng : ρ) (k : ℕ) :
    drawn p rate weights rng (k + 1) =
      drawn p rate weights rng k + (draw p rate weights rng k).1 := by
  simp [drawn, List.range_succ]

/-- The `k`-th message for each `k` is scheduled `k` draws after the time reference. -/
def StartsAtReference (p : Platform F ρ) (rate : UInt32) (ofTypes : List OFPT)
    (weights : List F) (rng : ρ) (created baseTime : TimePoint) : Prop :=
  ∀ n, ∃ s, Transition.exec (step p)
      (start (.tenant (.create p rate ofTypes weights rng created)) baseTime)
      (List.replicate n .next) = some s ∧
    s.times = (List.range n).map fun k =>
      baseTime + 1000 * (drawn p rate weights rng (k + 1) : ℤ)

/-- The schedule of a new generator, which starts from what its memory held. -/
theorem exec_tenant (rate : UInt32) (ofTypes : List OFPT) (weights : List F) (rng : ρ)
    (created baseTime : TimePoint)
    (hdisc : ∀ rng, (p.varDisc weights rng).1 < weights.length)
    (hlen : weights.length = ofTypes.length)
    (htypes : ∀ type ∈ ofTypes, (TenantGenerator.classOf type).isSome) (n : ℕ) :
    ∃ g, Transition.exec (step p)
        (start (.tenant (.create p rate ofTypes weights rng created)) baseTime)
        (List.replicate n .next) =
        some ⟨.tenant g, (List.range n).map fun k =>
          baseTime + 1000 * (p.memory + (drawn p rate weights rng (k + 1) : ℤ))⟩ ∧
      g.params = TenantGenerator.create rate ofTypes weights ∧
      g.rng = (draw p rate weights rng n).2 ∧ g.baseTime = baseTime ∧
      g.nextMsg = p.memory + (drawn p rate weights rng (n + 1) : ℤ) := by
  induction n with
  | zero =>
    refine ⟨{ TenantGenerator.Running.create p rate ofTypes weights rng created with
      baseTime := baseTime }, rfl, rfl, rfl, rfl, ?_⟩
    rw [drawn_succ]
    simp [drawn, draw, TenantGenerator.Running.create]
  | succ n ih =>
    obtain ⟨g, hexec, hparams, hrng, hbase, hnext⟩ := ih
    obtain ⟨msg, g', hmsg⟩ : ∃ msg g', g.next p = some (msg, g') := by
      apply TenantGenerator.Running.exists_next
      · rw [hparams]
        exact hlen ▸ hdisc g.rng
      · rw [hparams]
        exact htypes
    have hmade := TenantGenerator.Running.next_made hmsg
    refine ⟨g', ?_, hmade.params.trans hparams, ?_, hmade.baseTime.trans hbase, ?_⟩
    · have hmsgTime : msg.timeNs =
          baseTime + 1000 * (p.memory + (drawn p rate weights rng (n + 1) : ℤ)) := by
        rw [hmade.timeNs, TenantGenerator.Running.peek, hbase, hnext]
      rw [List.range_succ, List.map_append, List.map_singleton, ← hmsgTime]
      exact exec_next_succ hexec (Option.map_eq_some_iff.mpr ⟨_, hmsg, rfl⟩)
    · rw [hmade.rng, hparams, hrng]
      rfl
    · rw [hmade.nextMsg, hparams, hnext, hrng, drawn_succ _ _ _ (n + 1), Nat.cast_add,
        Int.add_assoc]
      rfl

/-- The first message is one draw after the time reference, and each next one a draw
later, if and only if the memory of the generator held a count of 0. -/
theorem startsAtReference_iff (p : Platform F ρ) (rate : UInt32) (ofTypes : List OFPT)
    (weights : List F) (rng : ρ) (created baseTime : TimePoint)
    (hdisc : ∀ rng, (p.varDisc weights rng).1 < weights.length)
    (hlen : weights.length = ofTypes.length)
    (htypes : ∀ type ∈ ofTypes, (TenantGenerator.classOf type).isSome) :
    StartsAtReference p rate ofTypes weights rng created baseTime ↔ p.memory = 0 := by
  constructor
  · intro h
    obtain ⟨s, hs, htimes⟩ := h 1
    obtain ⟨g, hexec, -⟩ :=
      exec_tenant (p := p) rate ofTypes weights rng created baseTime hdisc hlen htypes 1
    obtain rfl := Option.some.inj (hs.symm.trans hexec)
    have hfirst : 1000 * (p.memory + (drawn p rate weights rng 1 : ℤ)) =
        1000 * (drawn p rate weights rng 1 : ℤ) := Int.add_left_cancel (List.cons.inj htimes).1
    omega
  · intro hmemory n
    obtain ⟨g, hexec, -⟩ :=
      exec_tenant (p := p) rate ofTypes weights rng created baseTime hdisc hlen htypes n
    refine ⟨_, hexec, ?_⟩
    simp only [hmemory, Int.zero_add]

open TransactionIds in
theorem startsAtReference_zeroed :
    StartsAtReference steadyPlatform 5 [.echoRequest] [1] () 0 0 :=
  (startsAtReference_iff steadyPlatform 5 [.echoRequest] [1] () 0 0 (fun _ => Nat.zero_lt_one) rfl
    (by decide)).mpr rfl

open TransactionIds in
/-- A generator in memory that held another count is late by it. -/
theorem memory_shifts_schedule :
    ¬ ∀ (p : Platform ℕ Unit) rate ofTypes weights rng created baseTime,
      (∀ rng, (p.varDisc weights rng).1 < weights.length) → weights.length = ofTypes.length →
      (∀ type ∈ ofTypes, (TenantGenerator.classOf type).isSome) →
      StartsAtReference p rate ofTypes weights rng created baseTime := by
  intro h
  obtain ⟨s, hs, htimes⟩ := h { steadyPlatform with memory := 1 } 5 [.echoRequest] [1] () 0 0
    (fun _ => Nat.zero_lt_one) rfl (by decide) 1
  obtain rfl := Option.some.inj hs
  exact absurd htimes (by decide)

end Schedule
end HVBench
