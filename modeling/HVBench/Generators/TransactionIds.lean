import HVBench.Generators.Leaves
import HVBench.Library.Transition
import HVBench.Tenant.ConfigRace

/-! The xids a tree of generators hands out. Each leaf numbers its own messages from 1 on,
and replies are matched by xid alone. -/
namespace HVBench
namespace TransactionIds

structure State (ι F ρ : Type) where
  gens : Generator.State ι (Leaf F ρ)
  handed : List ScheduledMsg

inductive Label (ι : Type)
  | next
  | update (i : ι) (key value : StdString)
  deriving DecidableEq, Repr

variable {ι F ρ : Type} [DecidableEq ι] (p : Platform F ρ) (g : Generator ι)

/-- Every leaf is new. -/
def init (setup : ι → GeneratorSetup F) (rng : ι → ρ) (baseTime : TimePoint) : State ι F ρ where
  gens := ⟨fun i => Leaf.create p (setup i) (rng i) baseTime, fun _ => ∅⟩
  handed := []

def step (s : State ι F ρ) : Label ι → Option (State ι F ρ)
  | .next => (Generator.next (Leaf.ops p) g s.gens).map fun r => ⟨r.2, s.handed ++ [r.1]⟩
  | .update i key value => some
    { s with gens := s.gens.setLeaf i ((s.gens.leaf i).update p key value) }

def State.xids (s : State ι F ρ) : List UInt32 := s.handed.map fun msg => msg.ofMsg.xid

/-- A `next` call finds the leaf `i` to be the first one with the earliest time. -/
def Picks (i : ι) (s : State ι F ρ) (l : Label ι) : Prop :=
  l = .next → Merge.FirstLeast (s.gens.time (Leaf.ops p)) g.leaves i

/-- The `n` messages handed out are all from the leaf `i`. -/
structure Single (i : ι) (n : ℕ) (s : State ι F ρ) : Prop where
  others : ∀ j, j ≠ i → (s.gens.leaf j).cnt = 0
  cnt : (s.gens.leaf i).cnt = .ofNat n
  xids : s.xids = firstXids n

variable {p g}

omit [DecidableEq ι] in
theorem single_init (setup : ι → GeneratorSetup F) (rng : ι → ρ) (baseTime : TimePoint) (i : ι) :
    Single i 0 (init p setup rng baseTime) where
  others := fun j _ => Leaf.cnt_create (setup j) (rng j) baseTime
  cnt := Leaf.cnt_create (setup i) (rng i) baseTime
  xids := rfl

theorem next_cases {s t : State ι F ρ} (h : step p g s .next = some t) :
    ∃ i msg l, Merge.FirstLeast (s.gens.time (Leaf.ops p)) g.leaves i ∧
      msg.ofMsg.xid = (s.gens.leaf i).cnt + 1 ∧ l.cnt = (s.gens.leaf i).cnt + 1 ∧
      t.handed = s.handed ++ [msg] ∧ t.gens.leaf = Function.update s.gens.leaf i l := by
  obtain ⟨r, hr, rfl⟩ := Option.map_eq_some_iff.mp h
  have hpure : ∀ l : Leaf F ρ, True → ((Leaf.ops p).peek l).2 = l := fun l _ => Leaf.peek_pure l
  obtain ⟨i, counters, hfirst, hnext⟩ :=
    Generator.next_eq hpure (Generator.nonEmpty_of_next hr) (fun _ _ => trivial)
  rw [hnext] at hr
  obtain ⟨⟨msg, l⟩, hleaf, rfl⟩ := Option.map_eq_some_iff.mp hr
  obtain ⟨hxid, hcnt⟩ := Leaf.next_xid hleaf
  exact ⟨i, msg, l, hfirst, hxid, hcnt, rfl, rfl⟩

theorem single_update {s t : State ι F ρ} {i j : ι} {n : ℕ} {key value : StdString}
    (hs : Single i n s) (h : step p g s (.update j key value) = some t) : Single i n t := by
  obtain rfl := Option.some.inj h
  have hcnt : ∀ k, ((s.gens.setLeaf j ((s.gens.leaf j).update p key value)).leaf k).cnt =
      (s.gens.leaf k).cnt := by
    intro k
    unfold Generator.State.setLeaf
    dsimp only
    by_cases hk : k = j
    · subst hk
      rw [Function.update_self, Leaf.cnt_update]
    · rw [Function.update_of_ne hk]
  refine ⟨?_, ?_, hs.xids⟩
  · intro k hk
    rw [hcnt]
    exact hs.others k hk
  · rw [hcnt]
    exact hs.cnt

theorem single_next {s t : State ι F ρ} {i : ι} {n : ℕ} (hs : Single i n s)
    (hpick : Picks p g i s .next) (h : step p g s .next = some t) : Single i (n + 1) t := by
  obtain ⟨j, msg, l, hfirst, hxid, hcnt, hhanded, hleaf⟩ := next_cases h
  obtain rfl := (hpick rfl).unique hfirst
  have hsucc : UInt32.ofNat n + 1 = .ofNat (n + 1) := (UInt32.ofNat_add n 1).symm
  refine ⟨?_, ?_, ?_⟩
  · intro k hk
    rw [hleaf, Function.update_of_ne hk]
    exact hs.others k hk
  · rw [hleaf, Function.update_self, hcnt, hs.cnt, hsucc]
  · have hxids := hs.xids
    unfold State.xids at hxids ⊢
    rw [hhanded, List.map_append, hxids, firstXids_succ, List.map_singleton, hxid, hs.cnt, hsucc]

/-- The first message of a second leaf has the xid of the first message of all. -/
theorem not_nodup_of_other {s t : State ι F ρ} {i : ι} {n : ℕ} (hs : Single i n s) (hn : 0 < n)
    (hother : ¬ Picks p g i s .next) (h : step p g s .next = some t) : ¬ t.xids.Nodup := by
  obtain ⟨j, msg, l, hfirst, hxid, -, hhanded, -⟩ := next_cases h
  have hj : j ≠ i := by
    rintro rfl
    exact hother fun _ => hfirst
  have hone : (1 : UInt32) ∈ s.xids := by
    rw [hs.xids]
    exact List.mem_map.mpr ⟨0, List.mem_range.mpr hn, rfl⟩
  have hmsg : msg.ofMsg.xid = 1 := by
    rw [hxid, hs.others j hj]
    rfl
  intro hnd
  unfold State.xids at hnd hone
  rw [hhanded, List.map_append, List.map_singleton, hmsg] at hnd
  have hdisjoint := (List.nodup_append.mp hnd).2.2
  exact hdisjoint 1 hone 1 (by simp) rfl

theorem handed_grow {s t : State ι F ρ} {l : Label ι} (h : step p g s l = some t) :
    ∃ new, t.handed = s.handed ++ new := by
  cases l with
  | next =>
    obtain ⟨r, -, rfl⟩ := Option.map_eq_some_iff.mp h
    exact ⟨[r.1], rfl⟩
  | update i key value =>
    obtain rfl := Option.some.inj h
    exact ⟨[], (List.append_nil _).symm⟩

theorem not_nodup_step {s t : State ι F ρ} {l : Label ι} (hs : ¬ s.xids.Nodup)
    (h : step p g s l = some t) : ¬ t.xids.Nodup := by
  obtain ⟨new, hnew⟩ := handed_grow h
  intro hnd
  unfold State.xids at hs hnd
  rw [hnew, List.map_append] at hnd
  exact hs (List.nodup_append.mp hnd).1

/-- From the first message on, distinct xids mean that its leaf is picked every time. -/
theorem picks_of_nodup {s t : State ι F ρ} {i : ι} {n : ℕ} {ls : List (Label ι)}
    (hs : Single i n s) (hn : 0 < n) (h : Transition.exec (step p g) s ls = some t)
    (hnd : t.xids.Nodup) : Transition.Meets (step p g) (Picks p g i) s ls := by
  have hinv : ∀ s l t, (∃ n, 0 < n ∧ Single i n s) → True → Picks p g i s l →
      step p g s l = some t → ∃ n, 0 < n ∧ Single i n t := by
    rintro s l t ⟨n, hn, hs⟩ - hpick ht
    cases l with
    | next => exact ⟨n + 1, Nat.succ_pos n, single_next hs hpick ht⟩
    | update j key value => exact ⟨n, hn, single_update hs ht⟩
  have hdefect : ∀ s l t, (∃ n, 0 < n ∧ Single i n s) → True → ¬ Picks p g i s l →
      step p g s l = some t → ¬ t.xids.Nodup := by
    rintro s l t ⟨n, hn, hs⟩ - hother ht
    cases l with
    | next => exact not_nodup_of_other hs hn hother ht
    | update j key value => exact absurd (fun hl => nomatch hl) hother
  exact Transition.meets_of_exec hinv hdefect (fun s l t => not_nodup_step) ⟨n, hn, hs⟩
    (Transition.meets_of_always fun _ _ => trivial) h (not_not.mpr hnd)

theorem exists_picks_of_nodup {s t : State ι F ρ} {ls : List (Label ι)}
    (hs : ∀ i, Single i 0 s) (h : Transition.exec (step p g) s ls = some t)
    (hnd : t.xids.Nodup) : ∃ i, Transition.Meets (step p g) (Picks p g i) s ls := by
  induction ls generalizing s with
  | nil =>
    cases g with
    | leaf i => exact ⟨i, trivial⟩
    | container i gens => exact ⟨i, trivial⟩
  | cons l ls ih =>
    obtain ⟨u, hu, hrest⟩ := Transition.exec_cons.mp h
    cases l with
    | next =>
      obtain ⟨i, msg, l, hfirst, -⟩ := next_cases hu
      have hpick : Picks p g i s .next := fun _ => hfirst
      have hone := single_next (hs i) hpick hu
      exact ⟨i, .cons hu hpick (picks_of_nodup hone Nat.one_pos hrest hnd)⟩
    | update j key value =>
      obtain ⟨i, hmeets⟩ := ih (fun i => single_update (hs i) hu) hrest
      exact ⟨i, .cons hu (fun hl => nomatch hl) hmeets⟩

theorem single_exec {s t : State ι F ρ} {i : ι} {n : ℕ} {ls : List (Label ι)}
    (hs : Single i n s) (hmeets : Transition.Meets (step p g) (Picks p g i) s ls)
    (h : Transition.exec (step p g) s ls = some t) : Single i (n + ls.count .next) t := by
  induction ls generalizing s n with
  | nil =>
    obtain rfl := Option.some.inj h
    exact hs
  | cons l ls ih =>
    obtain ⟨u, hu, hrest⟩ := Transition.exec_cons.mp h
    cases l with
    | next =>
      have hcount := ih (single_next hs hmeets.1 hu) (hmeets.2 u hu) hrest
      rw [List.count_cons_self, ← Nat.add_assoc, Nat.add_right_comm]
      exact hcount
    | update j key value =>
      rw [List.count_cons_of_ne (by simp)]
      exact ih (single_update hs hu) (hmeets.2 u hu) hrest

/-- In a run of less than 2 ^ 32 calls of `next` from new leaves, the xids are distinct
exactly when one leaf is the first earliest at each of the calls. -/
theorem xids_nodup_iff (p : Platform F ρ) (g : Generator ι) (setup : ι → GeneratorSetup F)
    (rng : ι → ρ) (baseTime : TimePoint) (ls : List (Label ι)) (s : State ι F ρ)
    (h : Transition.exec (step p g) (init p setup rng baseTime) ls = some s)
    (hcalls : ls.count .next < UInt32.size) :
    s.xids.Nodup ↔
      ∃ i, Transition.Meets (step p g) (Picks p g i) (init p setup rng baseTime) ls := by
  constructor
  · exact exists_picks_of_nodup (single_init setup rng baseTime) h
  · rintro ⟨i, hmeets⟩
    have hsingle := single_exec (single_init setup rng baseTime i) hmeets h
    rw [Nat.zero_add] at hsingle
    rw [hsingle.xids]
    exact nodup_firstXids hcalls

/-- Whole weights, messages of eight bytes, and random numbers that are not. -/
def steadyPlatform : Platform ℕ Unit where
  cast := ConfigRace.decimalCast
  pktLen := fun _ => 8
  infinite := 0
  varExp := fun _ rng => (1, rng)
  varDisc := fun _ rng => (0, rng)
  memory := 0

def echoEverySecond : ℕ → GeneratorSetup ℕ := fun _ => .constant 1 "ECHO_REQUEST".toList

def handedXids (g : Generator ℕ) (ls : List (Label ℕ)) : Option (List UInt32) :=
  (Transition.exec (step steadyPlatform g) (init steadyPlatform echoEverySecond (fun _ => ()) 0)
    ls).map State.xids

/-- A container with one leaf. -/
theorem xids_nodup_iff_oneLeaf :
    ∃ s, Transition.exec (step steadyPlatform (.container 0 [.leaf 1]))
        (init steadyPlatform echoEverySecond (fun _ => ()) 0)
        [.next, .update 1 "avg_rate".toList "5".toList, .next] = some s ∧
      s.xids = [1, 2] ∧
      ∃ i, Transition.Meets (step steadyPlatform (.container 0 [.leaf 1]))
        (Picks steadyPlatform (.container 0 [.leaf 1]) i)
        (init steadyPlatform echoEverySecond (fun _ => ()) 0)
        [.next, .update 1 "avg_rate".toList "5".toList, .next] := by
  have hfinal : handedXids (.container 0 [.leaf 1])
      [.next, .update 1 "avg_rate".toList "5".toList, .next] = some [1, 2] := by
    decide +kernel
  obtain ⟨s, hs, hxids⟩ := Option.map_eq_some_iff.mp hfinal
  have hdistinct : s.xids.Nodup := by
    rw [hxids]
    decide
  exact ⟨s, hs, hxids, (xids_nodup_iff _ _ _ _ _ _ s hs (by decide)).mp hdistinct⟩

/-- Two generators: the second message has the xid of the first. -/
theorem second_leaf_repeats :
    ¬ ∀ (p : Platform ℕ Unit) (g : Generator ℕ) setup rng baseTime (ls : List (Label ℕ)) s,
      Transition.exec (step p g) (init p setup rng baseTime) ls = some s →
        ls.count .next < UInt32.size → s.xids.Nodup := by
  intro h
  have hfinal : handedXids (.container 0 [.leaf 1, .leaf 2]) [.next, .next] = some [1, 1] := by
    decide +kernel
  obtain ⟨s, hs, hxids⟩ := Option.map_eq_some_iff.mp hfinal
  have hnd := h _ _ _ _ _ _ s hs (by decide)
  rw [hxids] at hnd
  revert hnd
  decide

end TransactionIds
end HVBench
