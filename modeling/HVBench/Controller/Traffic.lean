import HVBench.Controller.SendLoop
import HVBench.Generators.Schedule

/-! The send loop of `HVBenchController::run` with its generator, which `Tenant::onChange`
updates from another thread in between. -/
namespace HVBench
namespace Traffic
variable {F ρ : Type} (p : Platform F ρ)

structure State (F ρ : Type) where
  leaf : Leaf F ρ
  loop : SendLoop.State
  /-- History: the messages that `next` returned. -/
  generated : List ScheduledMsg

inductive Label
  | loop (l : SendLoop.Label)
  | update (key value : StdString)
  deriving DecidableEq, Repr

/-- After `set_time_reference`. -/
def start (l : Leaf F ρ) (now : TimePoint) (uxTime : ℤ) : State F ρ :=
  ⟨l.setTimeReference now, SendLoop.init now uxTime, []⟩

instance : Inhabited ScheduledMsg := ⟨⟨0, ⟨.echoRequest, 0, 0⟩⟩⟩

def step (s : State F ρ) : Label → Option (State F ρ)
  | .loop (.outer true) =>
    ((Leaf.ops p).next s.leaf).bind fun r =>
      (SendLoop.step (fun _ => r.1) s.loop (.outer true)).map fun loop =>
        ⟨r.2, loop, s.generated ++ [r.1]⟩
  -- the other steps of the loop do not call `next`
  | .loop l => (SendLoop.step default s.loop l).map fun loop => { s with loop := loop }
  | .update key value => some { s with leaf := s.leaf.update p key value }

def ClockForward (s : State F ρ) : Label → Prop
  | .loop l => SendLoop.ClockForward s.loop l
  | .update _ _ => True

/-- The call of the generator a step makes. -/
def Label.call : Label → Option Schedule.Call
  | .loop (.outer true) => some .next
  | .loop _ => none
  | .update key value => some (.update key value)

def Label.isLoop : Label → Bool
  | .loop _ => true
  | .update _ _ => false

/-- At a reading of the clock, the loop waits for its message. -/
structure Waits (s : SendLoop.State) (now : TimePoint) : Prop where
  forward : s.now ≤ now
  early : ∃ msg, s.next = some msg ∧ now < msg.timeNs

variable {p}

/-- What a step does to the generator and to the loop. -/
theorem step_cases {s t : State F ρ} {l : Label} (h : step p s l = some t) :
    (∃ msg leaf, l = .loop (.outer true) ∧ (Leaf.ops p).next s.leaf = some (msg, leaf) ∧
      SendLoop.step (fun _ => msg) s.loop (.outer true) = some t.loop ∧ t.leaf = leaf ∧
      t.generated = s.generated ++ [msg]) ∨
    (∃ l', l = .loop l' ∧ l' ≠ .outer true ∧ SendLoop.step default s.loop l' = some t.loop ∧
      t.leaf = s.leaf ∧ t.generated = s.generated) ∨
    ∃ key value, l = .update key value ∧ t = { s with leaf := s.leaf.update p key value } := by
  cases l with
  | update key value =>
    exact .inr (.inr ⟨key, value, rfl, (Option.some.inj h).symm⟩)
  | loop l =>
    by_cases houter : l = .outer true
    · subst houter
      obtain ⟨⟨msg, leaf⟩, hnext, h⟩ := Option.bind_eq_some_iff.mp h
      obtain ⟨loop, hloop, rfl⟩ := Option.map_eq_some_iff.mp h
      exact .inl ⟨msg, leaf, rfl, hnext, hloop, rfl, rfl⟩
    · have hstep : step p s (.loop l) =
          (SendLoop.step default s.loop l).map fun loop => { s with loop := loop } := by
        cases l with
        | inner r => rfl
        | outer running =>
          cases running with
          | true => exact absurd rfl houter
          | false => rfl
      rw [hstep] at h
      obtain ⟨loop, hloop, rfl⟩ := Option.map_eq_some_iff.mp h
      exact .inr (.inl ⟨l, rfl, houter, hloop, rfl, rfl⟩)

/-- A run calls the generator as a schedule does. -/
theorem schedule_of_exec {l : Leaf F ρ} {now : TimePoint} {uxTime : ℤ} {ls : List Label}
    {s : State F ρ} (h : Transition.exec (step p) (start l now uxTime) ls = some s) :
    Transition.exec (Schedule.step p) (Schedule.start l now) (ls.filterMap Label.call) =
      some ⟨s.leaf, s.generated.map ScheduledMsg.timeNs⟩ := by
  induction ls using List.reverseRecOn generalizing s with
  | nil =>
    obtain rfl := Option.some.inj h
    rfl
  | append_singleton ls l ih =>
    obtain ⟨u, hu, hstep⟩ := Transition.exec_snoc.mp h
    have hbefore := ih hu
    rw [List.filterMap_append]
    rcases step_cases hstep with ⟨msg, leaf, rfl, hnext, -, hleaf, hgen⟩ |
      ⟨l', rfl, houter, -, hleaf, hgen⟩ | ⟨key, value, rfl, rfl⟩
    · apply Transition.exec_snoc.mpr
      refine ⟨_, hbefore, ?_⟩
      rw [hleaf, hgen, List.map_append]
      simp only [Schedule.step, hnext, Option.map_some, List.map_singleton]
    · have hcall : Label.call (.loop l') = none := by
        cases l' with
        | inner r => rfl
        | outer running =>
          cases running with
          | true => exact absurd rfl houter
          | false => rfl
      rw [List.filterMap_cons_none hcall, List.filterMap_nil, List.append_nil, hleaf, hgen]
      exact hbefore
    · exact Transition.exec_snoc.mpr ⟨_, hbefore, rfl⟩

/-- The messages of the generator are handed over in order, each when it is due. -/
structure Inv (s : State F ρ) : Prop where
  order : s.loop.handed.map SendLoop.Handed.msg ++ s.loop.next.toList = s.generated
  due : ∀ h ∈ s.loop.handed, h.msg.timeNs ≤ s.loop.now

theorem inv_start (l : Leaf F ρ) (now : TimePoint) (uxTime : ℤ) : Inv (start l now uxTime) :=
  ⟨rfl, by simp [start, SendLoop.init]⟩

/-- An iteration of the inner loop sends the message it has, or keeps it. -/
theorem inv_inner {s t : State F ρ} {r : SendLoop.Readings} (hs : Inv s)
    (hclock : SendLoop.ClockForward s.loop (.inner r))
    (h : SendLoop.step default s.loop (.inner r) = some t.loop)
    (hgen : t.generated = s.generated) : Inv t := by
  rcases SendLoop.step_cases h with ⟨hl, -⟩ | ⟨hl, -⟩ | ⟨r', msg, u, hl, hmsg, hu, hcase⟩
  · cases hl
  · cases hl
  · obtain rfl := SendLoop.Label.inner.inj hl
    obtain ⟨hnext, -, -, -, -, hhanded, -, hnow, -⟩ := SendLoop.flush_frame hu
    have horder := hs.order
    rcases hcase with ⟨-, hloop⟩ | ⟨hdue, hloop⟩
    · constructor
      · rw [hgen, hloop, hhanded, hnext]
        exact horder
      · intro e he
        rw [hloop, hhanded] at he
        rw [hloop, hnow]
        exact (hs.due e he).trans hclock.1
    · have hforward : r.now ≤ r.sendNow := hclock.2 msg hmsg hdue
      constructor
      · rw [hgen, hloop, ← horder, hmsg]
        show (u.handed ++ [_]).map SendLoop.Handed.msg ++ [] = _
        rw [hhanded]
        simp
      · intro e he
        rw [hloop] at he ⊢
        show e.msg.timeNs ≤ r.sendNow
        rcases SendLoop.mem_handed_send.mp he with hold | hnew
        · rw [hhanded] at hold
          exact ((hs.due e hold).trans hclock.1).trans hforward
        · rw [hnew]
          exact hdue.trans hforward

theorem inv_step (s : State F ρ) (l : Label) (t : State F ρ) (hs : Inv s)
    (hclock : ClockForward s l) (h : step p s l = some t) : Inv t := by
  rcases step_cases h with ⟨msg, leaf, rfl, -, hloop, -, hgen⟩ |
    ⟨l', rfl, houter, hloop, -, hgen⟩ | ⟨key, value, rfl, rfl⟩
  · rcases SendLoop.step_cases hloop with ⟨-, hnext, -, ht⟩ | ⟨hl, -⟩ | ⟨r, msg', u, hl, -⟩
    · have horder := hs.order
      constructor
      · rw [hgen, ht, ← horder, hnext]
        simp
      · rw [ht]
        exact hs.due
    · cases hl
    · cases hl
  · cases l' with
    | inner r => exact inv_inner hs hclock hloop hgen
    | outer running =>
      rcases SendLoop.step_cases hloop with ⟨hl, -⟩ | ⟨-, hnext, ht⟩ | ⟨r, msg', u, hl, -⟩
      · exact absurd hl houter
      · constructor
        · rw [hgen, ht]
          exact hs.order
        · rw [ht]
          exact hs.due
      · cases hl
  · exact ⟨hs.order, hs.due⟩

/-- The history of the generator only grows at its end. -/
theorem generated_prefix {s u : State F ρ} {ls : List Label}
    (h : Transition.exec (step p) s ls = some u) : s.generated <+: u.generated := by
  have hstep : ∀ a l b, s.generated <+: a.generated → step p a l = some b →
      s.generated <+: b.generated := by
    intro a l b ha hb
    rcases step_cases hb with ⟨msg, leaf, -, -, -, -, hgen⟩ | ⟨l', -, -, -, -, hgen⟩ |
      ⟨key, value, -, rfl⟩
    · rw [hgen]
      exact ha.trans (List.prefix_append _ _)
    · rw [hgen]
      exact ha
    · exact ha
  exact Transition.exec_invariant hstep (List.prefix_refl _) h

/-- The messages of a run are in the order of their times. -/
theorem generated_pairwise {l : Leaf F ρ} {now : TimePoint} {uxTime : ℤ} {ls : List Label}
    {s : State F ρ} (h : Transition.exec (step p) (start l now uxTime) ls = some s) :
    s.generated.Pairwise fun a b => a.timeNs ≤ b.timeNs := by
  have hstart : Schedule.Ordered (Schedule.start l now) :=
    ⟨List.Pairwise.nil, by simp [Schedule.start]⟩
  have hordered := Transition.exec_invariant
    (fun _ _ _ hs ht => Schedule.ordered_step hs ht) hstart (schedule_of_exec h)
  exact List.pairwise_map.mp hordered.pairwise

theorem filter_le_of_sorted {xs ys : List ScheduledMsg} {y : ScheduledMsg} {t : TimePoint}
    (hsorted : (xs ++ y :: ys).Pairwise fun a b => a.timeNs ≤ b.timeNs)
    (hxs : ∀ x ∈ xs, x.timeNs ≤ t) (hy : t < y.timeNs) :
    (xs ++ y :: ys).filter (fun m => m.timeNs ≤ t) = xs := by
  have hkept : xs.filter (fun m => m.timeNs ≤ t) = xs :=
    List.filter_eq_self.mpr fun x hx => decide_eq_true (hxs x hx)
  have hlater : ∀ z ∈ y :: ys, t < z.timeNs := by
    intro z hz
    rcases List.mem_cons.mp hz with rfl | hz
    · exact hy
    · have hyz := (List.pairwise_append.mp hsorted).2.1
      exact hy.trans_le ((List.pairwise_cons.mp hyz).1 z hz)
  have hdropped : (y :: ys).filter (fun m => m.timeNs ≤ t) = [] :=
    List.filter_eq_nil_iff.mpr fun z hz => by simpa using hlater z hz
  rw [List.filter_append, hkept, hdropped, List.append_nil]

/-- While the loop waits, exactly what the generator ever schedules up to that moment has
been handed to the connection, in order: there is no backlog, whatever the delays before and
the updates before and after. -/
theorem handed_eq_due (l : Leaf F ρ) (now : TimePoint) (uxTime : ℤ) (ls : List Label)
    (s : State F ρ) (h : Transition.exec (step p) (start l now uxTime) ls = some s)
    (hclock : Transition.Meets (step p) ClockForward (start l now uxTime) ls) (t : TimePoint)
    (hwaits : Waits s.loop t) (later : List Label) (u : State F ρ)
    (hu : Transition.exec (step p) s later = some u) :
    s.loop.handed.map SendLoop.Handed.msg = u.generated.filter fun m => m.timeNs ≤ t := by
  have hinv : Inv s := Transition.exec_invariant_of_meets inv_step (inv_start l now uxTime)
    hclock h
  obtain ⟨msg, hnext, hearly⟩ := hwaits.early
  obtain ⟨rest, hrest⟩ := generated_prefix hu
  have hsorted := generated_pairwise (Transition.exec_append.mpr ⟨s, h, hu⟩)
  have horder := hinv.order
  rw [hnext] at horder
  rw [← hrest, ← horder, Option.toList_some, List.append_assoc, List.singleton_append] at hsorted ⊢
  refine (filter_le_of_sorted hsorted ?_ hearly).symm
  intro m hm
  obtain ⟨e, he, rfl⟩ := List.mem_map.mp hm
  exact (hinv.due e he).trans hwaits.forward

/-- The first message is sent late, after one iteration that waits, and the next one drawn. -/
def lateSend : List SendLoop.Label :=
  [.inner ⟨0, 100, 1, 0, 0, true⟩, .inner ⟨1000000001, 101, 1001, 1, 1000000002, true⟩,
    .outer true]

open TransactionIds in
/-- The rate is raised while the loop waits for the first message. -/
theorem handed_eq_due_raised :
    ∃ s u : State ℕ Unit, Transition.exec (step steadyPlatform)
        (start (.constant (.create steadyPlatform 1 "ECHO_REQUEST".toList 0)) 0 100)
        ([.loop (.outer true), .update "avg_rate".toList "10".toList] ++ lateSend.map .loop) =
          some s ∧
      Transition.exec (step steadyPlatform) s
        [.loop (.inner ⟨1200000000, 101, 1201, 2, 1200000000, true⟩), .loop (.outer true)] =
          some u ∧
      u.generated.map ScheduledMsg.timeNs = [1000000000, 1100000000, 1200000000] ∧
      s.loop.handed.map SendLoop.Handed.msg =
        u.generated.filter fun m => m.timeNs ≤ 1000000003 := by
  obtain ⟨s, u, hs, hu, hnow, hearly, htimes⟩ : ∃ s u : State ℕ Unit,
      Transition.exec (step steadyPlatform)
        (start (.constant (.create steadyPlatform 1 "ECHO_REQUEST".toList 0)) 0 100)
        ([.loop (.outer true), .update "avg_rate".toList "10".toList] ++ lateSend.map .loop) =
          some s ∧
      Transition.exec (step steadyPlatform) s
        [.loop (.inner ⟨1200000000, 101, 1201, 2, 1200000000, true⟩), .loop (.outer true)] =
          some u ∧
      s.loop.now = 1000000002 ∧
      s.loop.next.map ScheduledMsg.timeNs = some 1100000000 ∧
      u.generated.map ScheduledMsg.timeNs = [1000000000, 1100000000, 1200000000] :=
    ⟨_, _, rfl, rfl, rfl, rfl, rfl⟩
  obtain ⟨msg, hmsg, hmsgTime⟩ := Option.map_eq_some_iff.mp hearly
  have hwaits : Waits s.loop 1000000003 := by
    refine ⟨?_, msg, hmsg, ?_⟩
    · rw [hnow]
      decide
    · rw [hmsgTime]
      decide
  refine ⟨s, u, hs, hu, htimes, handed_eq_due _ 0 100 _ s hs ?_ 1000000003 hwaits _ u hu⟩
  apply Transition.Meets.cons rfl trivial
  apply Transition.Meets.cons rfl trivial
  apply Transition.Meets.cons rfl ⟨by decide, fun _ _ _ => by decide⟩
  apply Transition.Meets.cons rfl ⟨by decide, fun _ _ _ => by decide⟩
  apply Transition.Meets.cons rfl trivial
  trivial

/-- In a run without updates, the generator makes as many calls of `next` as it has messages. -/
theorem calls_of_loop {l : Leaf F ρ} {now : TimePoint} {uxTime : ℤ} {ls : List Label}
    {s : State F ρ} (h : Transition.exec (step p) (start l now uxTime) ls = some s)
    (hls : ∀ l ∈ ls, l.isLoop = true) :
    ∃ n, Transition.exec (Schedule.step p) (Schedule.start l now) (List.replicate n .next) =
      some ⟨s.leaf, s.generated.map ScheduledMsg.timeNs⟩ := by
  have hcalls : ∀ c ∈ ls.filterMap Label.call, c = .next := by
    intro c hc
    obtain ⟨l, hl, hcall⟩ := List.mem_filterMap.mp hc
    cases l with
    | update key value => cases hls _ hl
    | loop l =>
      cases l with
      | inner r => cases hcall
      | outer running =>
        cases running with
        | false => cases hcall
        | true => exact (Option.some.inj hcall).symm
  refine ⟨(ls.filterMap Label.call).length, ?_⟩
  rw [← List.eq_replicate_of_mem hcalls]
  exact schedule_of_exec h

/-- How many of the messages at a fixed distance are due after some time. -/
theorem countP_due {distance : ℕ} (hdistance : 0 < distance) (now t : ℤ)
    (ht : now ≤ t) (n : ℕ) :
    ((List.range n).map fun i => now + (((i + 1) * distance : ℕ) : ℤ)).countP
        (fun m => m ≤ t) = min n ((t - now).toNat / distance) := by
  rw [List.countP_map, ← Schedule.countP_range_lt]
  apply List.countP_congr
  intro i _
  have hiff : now + (((i + 1) * distance : ℕ) : ℤ) ≤ t ↔ i < (t - now).toNat / distance := by
    rw [Nat.lt_iff_add_one_le, Nat.le_div_iff_mul_le hdistance]
    generalize (i + 1) * distance = x
    omega
  simpa using hiff

theorem now_le_step {s t : State F ρ} {l : Label} (hclock : ClockForward s l)
    (h : step p s l = some t) : s.loop.now ≤ t.loop.now := by
  have hloop : ∀ gen l', SendLoop.ClockForward s.loop l' →
      SendLoop.step gen s.loop l' = some t.loop → s.loop.now ≤ t.loop.now := by
    intro gen l' hclock h
    rcases SendLoop.step_cases h with ⟨-, -, -, ht⟩ | ⟨-, -, ht⟩ | ⟨r, msg, u, rfl, hmsg, hu, hcase⟩
    · rw [ht]
    · rw [ht]
    · obtain ⟨-, -, -, -, -, -, -, hnow, -⟩ := SendLoop.flush_frame hu
      rcases hcase with ⟨-, ht⟩ | ⟨hdue, ht⟩
      · rw [ht, hnow]
        exact hclock.1
      · rw [ht]
        exact hclock.1.trans (hclock.2 msg hmsg hdue)
  rcases step_cases h with ⟨msg, leaf, rfl, -, hstep, -⟩ | ⟨l', rfl, -, hstep, -⟩ |
    ⟨key, value, -, rfl⟩
  · exact hloop _ (.outer true) hclock hstep
  · exact hloop _ l' hclock hstep
  · exact le_refl _

/-- A constant generator at a rate keeps that rate: whenever the loop waits, one message for
each of its distances since the start has been handed over, no more and no less. -/
theorem handed_length_of_constant (rate : UInt32) (msgT : StdString) (created now : TimePoint)
    (uxTime : ℤ) (ls : List Label) (s : State F ρ) (hrate : 1 ≤ rate.toNat)
    (hmax : rate.toNat ≤ 1000000000)
    (h : Transition.exec (step p)
      (start (.constant (.create p rate msgT created)) now uxTime) ls = some s)
    (hclock : Transition.Meets (step p) ClockForward
      (start (.constant (.create p rate msgT created)) now uxTime) ls)
    (hls : ∀ l ∈ ls, l.isLoop = true) (t : TimePoint) (hwaits : Waits s.loop t) :
    s.loop.handed.length = (t - now).toNat / (1000000000 / rate.toNat) := by
  have hdistance : (interArrival p rate).toNat = 1000000000 / rate.toNat :=
    toNat_interArrival p hrate
  have hpos : 0 < 1000000000 / rate.toNat := Nat.div_pos hmax hrate
  have hinv : Inv s := Transition.exec_invariant_of_meets inv_step (inv_start _ now uxTime)
    hclock h
  have hnow : now ≤ t := by
    have hforward : now ≤ s.loop.now := Transition.exec_invariant_of_meets
      (fun _ _ _ hs hl ht => le_trans hs (now_le_step hl ht)) (le_refl now) hclock h
    exact hforward.trans hwaits.forward
  have hdue := handed_eq_due _ now uxTime ls s h hclock t hwaits [] s rfl
  -- the times of the messages, which lie at a fixed distance
  obtain ⟨n, hn⟩ := calls_of_loop h hls
  obtain ⟨g, hexec, -⟩ := Schedule.exec_constant (p := p) (.create p rate msgT created) now n
  have htimes := (Schedule.State.mk.inj (Option.some.inj (hn.symm.trans hexec))).2
  simp only [ConstantGenerator.create, hdistance, Nat.zero_add] at htimes
  have hcount := countP_due hpos now t hnow n
  rw [← htimes, List.countP_map] at hcount
  have hlength := congrArg List.length hdue
  rw [List.length_map, ← List.countP_eq_length_filter] at hlength
  have hhanded : s.loop.handed.length = min n ((t - now).toNat / (1000000000 / rate.toNat)) :=
    hlength.trans hcount
  -- the message that the loop waits for is not among them
  obtain ⟨msg, hnext, -⟩ := hwaits.early
  have hgenerated := congrArg List.length hinv.order
  have hn' := congrArg List.length htimes
  rw [hnext] at hgenerated
  simp only [List.length_append, List.length_map, Option.toList_some, List.length_singleton,
    List.length_range] at hgenerated hn'
  omega

open TransactionIds in
theorem handed_length_of_constant_second :
    ∃ s : State ℕ Unit, Transition.exec (step steadyPlatform)
        (start (.constant (.create steadyPlatform 1 "ECHO_REQUEST".toList 0)) 0 100)
        ((.outer true :: lateSend).map .loop) = some s ∧
      s.loop.handed.length = ((1999999999 : ℤ) - 0).toNat / (1000000000 / 1) := by
  obtain ⟨s, hs, hnow, hearly⟩ : ∃ s : State ℕ Unit, Transition.exec (step steadyPlatform)
        (start (.constant (.create steadyPlatform 1 "ECHO_REQUEST".toList 0)) 0 100)
        ((.outer true :: lateSend).map .loop) = some s ∧
      s.loop.now = 1000000002 ∧
      s.loop.next.map ScheduledMsg.timeNs = some 2000000000 := ⟨_, rfl, rfl, rfl⟩
  obtain ⟨msg, hmsg, hmsgTime⟩ := Option.map_eq_some_iff.mp hearly
  have hwaits : Waits s.loop 1999999999 := by
    refine ⟨?_, msg, hmsg, ?_⟩
    · rw [hnow]
      decide
    · rw [hmsgTime]
      decide
  refine ⟨s, hs, handed_length_of_constant 1 _ 0 0 100 _ s (by decide) (by decide) hs ?_
    (by decide) 1999999999 hwaits⟩
  apply Transition.Meets.cons rfl trivial
  apply Transition.Meets.cons rfl ⟨by decide, fun _ _ _ => by decide⟩
  apply Transition.Meets.cons rfl ⟨by decide, fun _ _ _ => by decide⟩
  apply Transition.Meets.cons rfl trivial
  trivial

end Traffic
end HVBench
