import HVBench.Etcd.Watch

/-! A recursive watch against an etcd that answers every request with the change it asks
for. Changes are written at any time, also while the handler runs. -/
namespace HVBench
namespace Etcd
namespace Delivery
open Transition
variable {σ : Type*} (callback : σ → RapidReply → HandlerResult σ) (events : List RapidReply)

structure State (σ : Type*) where
  /-- How many of the events have been written. -/
  written : ℕ
  watch : Watch
  handler : σ
  /-- The event that the pending watch request is answered with, by its number. -/
  pending : Option ℕ
  /-- History: the events handed to the handler. -/
  handed : List RapidReply

/-- The first watch request has reached etcd, and the events come after it. -/
def init (handler : σ) : State σ where
  written := 0
  watch := .start 0 0 true
  handler := handler
  pending := some 0
  handed := []

inductive Label
  | write
  | request
  | respond
  deriving DecidableEq, Repr

def index (r : RapidReply) : ℕ := r.getModifiedIndex.getD 0

/-- Without an index, a watch waits for the next event. With one, it is answered with the
first event from that index on. -/
def position (written : ℕ) : Option ℕ → ℕ
  | none => written
  | some n => (events.takeWhile (index · < n)).length

/-- The event that answers the pending request, once it is written. -/
def answer (s : State σ) : Option RapidReply :=
  s.pending.bind fun p => if p < s.written then events[p]? else none

def step (s : State σ) : Label → Option (State σ)
  | .write => if s.written < events.length then some { s with written := s.written + 1 } else none
  | .request =>
    if s.pending = none ∧ s.watch.maxFailures ≠ 0 then
      some { s with pending := some (position events s.written s.watch.watchUrl.waitIndex) }
    else none
  | .respond =>
    match answer events s with
    | none => none
    | some r =>
      (iterate callback true (s.watch, s.handler) ⟨.ok r, .error .exception, []⟩).map fun x =>
        { s with watch := x.1, handler := x.2, pending := none, handed := s.handed ++ [r] }

/-- Each event has an index, and they increase. -/
def Ordered (events : List RapidReply) : Prop :=
  (∀ r ∈ events, r.getModifiedIndex.isSome) ∧ events.Pairwise (index · < index ·)

/-- All events are written, and the watch waits for another one. -/
def Quiet (s : State σ) : Prop :=
  s.written = events.length ∧ ∃ p, s.pending = some p ∧ s.written ≤ p

/-- The watch goes on, and it hands over each event exactly once, in order. -/
def DeliveredOnce (s : State σ) : Prop :=
  s.watch.maxFailures ≠ 0 ∧ (∃ k, s.handed = events.take k) ∧
    (Quiet events s → s.handed = events)

/-- How a call ends that throws `e`, if anything, and leaves `t` behind. -/
def endsWith (e : Option Thrown) (t : σ) : HandlerResult σ :=
  match e with
  | none => .returned t
  | some e => .threw t e

/-- The handler throws on the events that `fails` names, and only there. `Ok` is what the
handler keeps of its state, in terms of the events handed to it. -/
structure Handles (fails : RapidReply → Option Thrown) (Ok : List RapidReply → σ → Prop) :
    Prop where
  call : ∀ handed s r, Ok handed s → r ∈ events → (r ∈ handed → fails r ≠ none) →
    ∃ t, callback s r = endsWith (fails r) t ∧ Ok (handed ++ [r]) t
  code : ∀ r ∈ events, fails r ≠ some (.replyException 401)

variable {callback events}

theorem getModifiedIndex_eq (h : Ordered events) {r : RapidReply} (hr : r ∈ events) :
    r.getModifiedIndex = some (index r) := by
  obtain ⟨i, hi⟩ := Option.isSome_iff_exists.mp (h.1 r hr)
  unfold index
  rw [hi]
  rfl

theorem mem_of_answer {s : State σ} {r : RapidReply} (h : answer events s = some r) :
    r ∈ events := by
  unfold answer at h
  obtain ⟨p, -, hp⟩ := Option.bind_eq_some_iff.mp h
  split_ifs at hp
  exact List.mem_of_getElem? hp

theorem take_succ_eq {k : ℕ} {r : RapidReply} (hr : events[k]? = some r) :
    events.take (k + 1) = events.take k ++ [r] := by
  rw [List.take_add_one, hr]
  rfl

theorem mem_take_succ {k : ℕ} {r : RapidReply} (hr : events[k]? = some r) :
    r ∈ events.take (k + 1) := by
  rw [take_succ_eq hr]
  exact List.mem_append_right _ (List.mem_singleton.mpr rfl)

theorem index_lt (h : Ordered events) {j k : ℕ} {r e : RapidReply} (hr : events[j]? = some r)
    (he : events[k]? = some e) (hjk : j < k) : index r < index e := by
  obtain ⟨hj, hjr⟩ := List.getElem?_eq_some_iff.mp hr
  obtain ⟨hk, hke⟩ := List.getElem?_eq_some_iff.mp he
  have hlt := List.pairwise_iff_getElem.mp h.2 j k hj hk hjk
  rw [hjr, hke] at hlt
  exact hlt

/-- The event after the `k`-th is the first from the next index on. -/
theorem position_next (h : Ordered events) (written : ℕ) {k : ℕ} {r : RapidReply}
    (hr : events[k]? = some r) : position events written (some (index r + 1)) = k + 1 := by
  have hk : k < events.length := (List.getElem?_eq_some_iff.mp hr).1
  have hbefore : ∀ e ∈ events.take (k + 1), decide (index e < index r + 1) = true := by
    intro e he
    obtain ⟨j, hj⟩ := List.mem_iff_getElem?.mp he
    rw [List.getElem?_take] at hj
    split_ifs at hj with hjk
    · have hle : index e ≤ index r := by
        rcases Nat.lt_or_ge j k with hlt | hge
        · exact Nat.le_of_lt (index_lt h hj hr hlt)
        · have heq : j = k := by omega
          subst heq
          exact Nat.le_of_eq (congrArg index (Option.some.inj (hj.symm.trans hr)))
      simp only [decide_eq_true_eq]
      omega
  have hafter : (events.drop (k + 1)).takeWhile (index · < index r + 1) = [] := by
    cases hdrop : events.drop (k + 1) with
    | nil => rfl
    | cons e rest =>
      have he : events[k + 1]? = some e := by
        have hhead := congrArg List.head? hdrop
        rw [List.head?_drop] at hhead
        exact hhead
      have hlt := index_lt h hr he (by omega)
      rw [List.takeWhile_cons_of_neg]
      simp only [decide_eq_true_eq]
      omega
  unfold position
  dsimp only
  rw [← List.take_append_drop (k + 1) events, List.takeWhile_append_of_pos hbefore, hafter,
    List.append_nil, List.length_take]
  omega

variable (callback events) in
theorem step_write {s : State σ} (h : s.written < events.length) :
    step callback events s .write = some { s with written := s.written + 1 } := by
  unfold step
  dsimp only
  rw [if_pos h]

variable (callback events) in
theorem step_request {s : State σ} {p : ℕ} (hpending : s.pending = none)
    (hw : s.watch.maxFailures ≠ 0)
    (hp : position events s.written s.watch.watchUrl.waitIndex = p) :
    step callback events s .request = some { s with pending := some p } := by
  unfold step
  dsimp only
  rw [if_pos ⟨hpending, hw⟩, hp]

theorem step_respond {s : State σ} {r : RapidReply} {w : Watch} {u : σ}
    (hr : answer events s = some r)
    (hiter : iterate callback true (s.watch, s.handler) ⟨.ok r, .error .exception, []⟩ =
      some (w, u)) :
    step callback events s .respond = some
      { s with watch := w, handler := u, pending := none, handed := s.handed ++ [r] } := by
  unfold step
  dsimp only
  rw [hr]
  dsimp only
  rw [hiter]
  rfl

/-- What a step can do, and when. -/
theorem step_cases {s t : State σ} {l : Label} (h : step callback events s l = some t) :
    match l with
    | .write => s.written < events.length ∧ t = { s with written := s.written + 1 }
    | .request => s.pending = none ∧ s.watch.maxFailures ≠ 0 ∧
        t = { s with pending := some (position events s.written s.watch.watchUrl.waitIndex) }
    | .respond => s.watch.maxFailures ≠ 0 ∧ ∃ r w u, answer events s = some r ∧
        t = { s with watch := w, handler := u, pending := none, handed := s.handed ++ [r] } := by
  unfold step at h
  cases l with
  | write =>
    dsimp only at h
    split_ifs at h with hlt
    exact ⟨hlt, (Option.some.inj h).symm⟩
  | request =>
    dsimp only at h
    split_ifs at h with hcond
    exact ⟨hcond.1, hcond.2, (Option.some.inj h).symm⟩
  | respond =>
    dsimp only at h
    cases hr : answer events s with
    | none =>
      rw [hr] at h
      cases h
    | some r =>
      rw [hr] at h
      obtain ⟨x, hx, heq⟩ := Option.map_eq_some_iff.mp h
      exact ⟨(iterate_cases hx).1, r, x.1, x.2, rfl, heq.symm⟩

/-- An event that is handled moves the watch on. -/
theorem respond_returned {s : State σ} {r : RapidReply} {t : σ} (hw : s.watch.maxFailures ≠ 0)
    (hr : answer events s = some r) (hi : r.getModifiedIndex = some (index r))
    (hcall : callback s.handler r = .returned t) :
    step callback events s .respond = some
      { s with
        watch := ⟨index r, waitUrl (index r) true, failureLimit⟩
        handler := t
        pending := none
        handed := s.handed ++ [r] } :=
  step_respond hr (iterate_event hw rfl hcall hi)

/-- An event whose handling throws leaves the watch where it was. -/
theorem respond_threw {s : State σ} {r : RapidReply} {t : σ} {e : Thrown}
    (hw : s.watch.maxFailures ≠ 0) (hr : answer events s = some r)
    (hcall : callback s.handler r = .threw t e) (he : e ≠ .replyException 401) :
    step callback events s .respond = some
      { s with
        watch := { s.watch with maxFailures := s.watch.maxFailures - 1 }
        handler := t
        pending := none
        handed := s.handed ++ [r] } :=
  step_respond hr (iterate_throws hw rfl hcall he)

/-- The pending request is answered, and the handler called. -/
theorem exists_respond (h : Ordered events) {fails : RapidReply → Option Thrown}
    {Ok : List RapidReply → σ → Prop} (hcalls : Handles callback events fails Ok) {s : State σ}
    {r : RapidReply} (hw : s.watch.maxFailures ≠ 0) (hr : answer events s = some r)
    (hok : Ok s.handed s.handler) (hnew : r ∈ s.handed → fails r ≠ none) :
    ∃ t, step callback events s .respond = some t ∧ t.handed = s.handed ++ [r] ∧
      t.written = s.written ∧ t.pending = none ∧ Ok t.handed t.handler ∧
      t.watch = if fails r = none then ⟨index r, waitUrl (index r) true, failureLimit⟩
        else { s.watch with maxFailures := s.watch.maxFailures - 1 } := by
  have hmem : r ∈ events := mem_of_answer hr
  obtain ⟨u, hcall, hu⟩ := hcalls.call s.handed s.handler r hok hmem hnew
  cases hfails : fails r with
  | none =>
    rw [hfails] at hcall
    rw [if_pos rfl]
    exact ⟨_, respond_returned hw hr (getModifiedIndex_eq h hmem) hcall, rfl, rfl, rfl, hu, rfl⟩
  | some e =>
    rw [hfails] at hcall
    have he : e ≠ .replyException 401 := by
      intro heq
      subst heq
      exact hcalls.code r hmem hfails
    rw [if_neg (by simp)]
    exact ⟨_, respond_threw hw hr hcall he, rfl, rfl, rfl, hu, rfl⟩

variable (events) in
/-- So far no handler has thrown: the first `k` events have been handed over, and the watch
asks for the next one. -/
structure Smooth (Ok : List RapidReply → σ → Prop) (s : State σ) (k : ℕ) : Prop where
  handed : s.handed = events.take k
  le_written : k ≤ s.written
  written_le : s.written ≤ events.length
  failures : s.watch.maxFailures = failureLimit
  first : k = 0 → s.pending = some 0 ∧ s.watch.watchUrl.waitIndex = none
  later : ∀ r, 0 < k → events[k - 1]? = some r → s.watch.watchUrl.waitIndex = some (index r + 1)
  pending : s.pending = none ∨ s.pending = some k
  ok : Ok s.handed s.handler

theorem Smooth.running {Ok : List RapidReply → σ → Prop} {s : State σ} {k : ℕ}
    (hs : Smooth events Ok s k) : s.watch.maxFailures ≠ 0 := by
  rw [hs.failures]
  decide

theorem smooth_init {Ok : List RapidReply → σ → Prop} {s₀ : σ} (h : Ok [] s₀) :
    Smooth events Ok (init s₀) 0 where
  handed := rfl
  le_written := Nat.le_refl 0
  written_le := Nat.zero_le _
  failures := rfl
  first := fun _ => ⟨rfl, rfl⟩
  later := fun _ h => absurd h (Nat.lt_irrefl 0)
  pending := .inr rfl
  ok := h

theorem smooth_write {Ok : List RapidReply → σ → Prop} {s t : State σ} {k : ℕ}
    (hs : Smooth events Ok s k) (ht : step callback events s .write = some t) :
    Smooth events Ok t k := by
  obtain ⟨hlt, rfl⟩ := step_cases ht
  exact { hs with le_written := Nat.le_succ_of_le hs.le_written, written_le := hlt }

theorem smooth_request (h : Ordered events) {Ok : List RapidReply → σ → Prop} {s t : State σ}
    {k : ℕ} (hs : Smooth events Ok s k)
    (ht : step callback events s .request = some t) :
    Smooth events Ok t k ∧ t.pending = some k := by
  obtain ⟨hnone, -, rfl⟩ := step_cases ht
  have hk : 0 < k := by
    rcases Nat.eq_zero_or_pos k with hzero | hpos
    · rw [(hs.first hzero).1] at hnone
      cases hnone
    · exact hpos
  have hlen : k - 1 < events.length := by
    have hle := hs.le_written
    have hle' := hs.written_le
    omega
  have hr : events[k - 1]? = some events[k - 1] := List.getElem?_eq_getElem hlen
  have hpos : position events s.written s.watch.watchUrl.waitIndex = k := by
    rw [hs.later _ hk hr, position_next h s.written hr]
    omega
  refine ⟨{ hs with first := fun hzero => ?_, pending := .inr (congrArg some hpos) },
    congrArg some hpos⟩
  omega

/-- Only the next event can answer the pending request. -/
theorem smooth_answer {Ok : List RapidReply → σ → Prop} {s : State σ} {k : ℕ} {r : RapidReply}
    (hs : Smooth events Ok s k) (hr : answer events s = some r) :
    events[k]? = some r ∧ k < s.written := by
  unfold answer at hr
  rcases hs.pending with hnone | hsome
  · rw [hnone] at hr
    cases hr
  · rw [hsome, Option.bind_some] at hr
    split_ifs at hr with hlt
    exact ⟨hr, hlt⟩

/-- A watch that has given up stays so. -/
theorem ended_step {s t : State σ} {l : Label} (hs : s.watch.maxFailures = 0)
    (ht : step callback events s l = some t) : t.watch.maxFailures = 0 := by
  cases l with
  | write =>
    obtain ⟨-, rfl⟩ := step_cases ht
    exact hs
  | request =>
    obtain ⟨-, hw, -⟩ := step_cases ht
    exact absurd hs hw
  | respond =>
    obtain ⟨hw, -⟩ := step_cases ht
    exact absurd hs hw

theorem handed_grow {s t : State σ} {l : Label} (ht : step callback events s l = some t) :
    s.handed <+: t.handed := by
  cases l with
  | write =>
    obtain ⟨-, rfl⟩ := step_cases ht
    exact List.prefix_refl _
  | request =>
    obtain ⟨-, -, rfl⟩ := step_cases ht
    exact List.prefix_refl _
  | respond =>
    obtain ⟨-, r, w, u, -, rfl⟩ := step_cases ht
    exact List.prefix_append _ _

/-- The next event has not been handed over yet. -/
theorem not_mem_take (h : Ordered events) {k : ℕ} {r : RapidReply} (hr : events[k]? = some r) :
    r ∉ events.take k := by
  intro hmem
  obtain ⟨j, hj⟩ := List.mem_iff_getElem?.mp hmem
  rw [List.getElem?_take] at hj
  split_ifs at hj with hjk
  have hlt := index_lt h hj hr hjk
  omega

/-- The next event is handed over and handled. -/
theorem smooth_respond (h : Ordered events) {fails : RapidReply → Option Thrown}
    {Ok : List RapidReply → σ → Prop} (hcalls : Handles callback events fails Ok) {s : State σ}
    {k : ℕ} {r : RapidReply} (hs : Smooth events Ok s k)
    (hr : answer events s = some r) (hfails : fails r = none) :
    ∃ t, step callback events s .respond = some t ∧
      Smooth events Ok t (k + 1) ∧ t.written = s.written ∧ t.pending = none := by
  obtain ⟨hget, hlt⟩ := smooth_answer hs hr
  have hnew : r ∈ s.handed → fails r ≠ none := by
    intro hold
    rw [hs.handed] at hold
    exact absurd hold (not_mem_take h hget)
  obtain ⟨t, ht, hhanded, hwritten, hpending, hok, hwatch⟩ :=
    exists_respond h hcalls hs.running hr hs.ok hnew
  rw [if_pos hfails] at hwatch
  refine ⟨t, ht, ?_, hwritten, hpending⟩
  constructor
  · rw [hhanded, hs.handed, take_succ_eq hget]
  · omega
  · rw [hwritten]
    exact hs.written_le
  · rw [hwatch]
  · intro hzero
    omega
  · intro e _ he
    rw [Nat.add_sub_cancel, hget] at he
    rw [hwatch, ← Option.some.inj he]
    rfl
  · exact .inl hpending
  · exact hok

theorem smooth_step (h : Ordered events) {fails : RapidReply → Option Thrown}
    {Ok : List RapidReply → σ → Prop} (hcalls : Handles callback events fails Ok)
    (hfails : ∀ r ∈ events, fails r = none) {s t : State σ} {l : Label}
    (hs : ∃ k, Smooth events Ok s k) (ht : step callback events s l = some t) :
    ∃ k, Smooth events Ok t k := by
  obtain ⟨k, hs⟩ := hs
  cases l with
  | write => exact ⟨k, smooth_write hs ht⟩
  | request => exact ⟨k, (smooth_request h hs ht).1⟩
  | respond =>
    obtain ⟨-, r, -, -, hr, -⟩ := step_cases ht
    obtain ⟨u, hu, hsmooth, -⟩ := smooth_respond h hcalls hs hr (hfails r (mem_of_answer hr))
    have heq : u = t := Option.some.inj (hu.symm.trans ht)
    subst heq
    exact ⟨k + 1, hsmooth⟩

/-- Where no handler throws, every run stays smooth. -/
theorem smooth_exec (h : Ordered events) {fails : RapidReply → Option Thrown}
    {Ok : List RapidReply → σ → Prop} (hcalls : Handles callback events fails Ok)
    (hfails : ∀ r ∈ events, fails r = none) {s₀ : σ} (hok : Ok [] s₀) {ls : List Label}
    {s : State σ} (hs : exec (step callback events) (init s₀) ls = some s) :
    ∃ k, Smooth events Ok s k := by
  apply exec_invariant (I := fun s => ∃ k, Smooth events Ok s k) ?_
    ⟨0, smooth_init hok⟩ hs
  intro s l t hsmooth ht
  exact smooth_step h hcalls hfails hsmooth ht

theorem Smooth.deliveredOnce {Ok : List RapidReply → σ → Prop} {s : State σ} {k : ℕ}
    (hs : Smooth events Ok s k) : DeliveredOnce events s := by
  refine ⟨hs.running, ⟨k, hs.handed⟩, ?_⟩
  · rintro ⟨hall, p, hp, hle⟩
    have hk : p = k := by
      rcases hs.pending with hnone | hsome
      · rw [hnone] at hp
        cases hp
      · exact (Option.some.inj (hsome.symm.trans hp)).symm
    rw [hs.handed]
    apply List.take_of_length_le
    omega

variable (callback) in
/-- The event the watch waits for is written. -/
theorem smooth_next {Ok : List RapidReply → σ → Prop} {s : State σ} {k : ℕ}
    (hs : Smooth events Ok s k) (hk : k < events.length) (hwritten : s.written = k)
    (hpending : s.pending = some k) :
    ∃ t, step callback events s .write = some t ∧ Smooth events Ok t k ∧
      t.written = k + 1 ∧ answer events t = some events[k] := by
  have ht := step_write callback events (s := s) (by omega)
  refine ⟨_, ht, smooth_write hs ht, by rw [hwritten], ?_⟩
  unfold answer
  dsimp only
  rw [hpending, Option.bind_some, if_pos (by omega)]
  exact List.getElem?_eq_getElem hk

/-- The watch asks for the next event. -/
theorem smooth_ask (h : Ordered events) {Ok : List RapidReply → σ → Prop} {s : State σ} {k : ℕ}
    (hs : Smooth events Ok s k) (hpending : s.pending = none) :
    ∃ t, step callback events s .request = some t ∧ Smooth events Ok t k ∧
      t.written = s.written ∧ t.pending = some k := by
  have ht := step_request callback events hpending hs.running rfl
  obtain ⟨hsmooth, hnext⟩ := smooth_request h hs ht
  exact ⟨_, ht, hsmooth, rfl, hnext⟩

/-- The first events are handed over as soon as they are written. -/
theorem exists_smooth (h : Ordered events) {fails : RapidReply → Option Thrown}
    {Ok : List RapidReply → σ → Prop} (hcalls : Handles callback events fails Ok) {s₀ : σ}
    (hok : Ok [] s₀) {k : ℕ} (hk : k ≤ events.length)
    (hfails : ∀ r ∈ events.take k, fails r = none) :
    ∃ ls s, exec (step callback events) (init s₀) ls = some s ∧
      Smooth events Ok s k ∧ s.written = k ∧ s.pending = some k := by
  induction k with
  | zero => exact ⟨[], init s₀, rfl, smooth_init hok, rfl, rfl⟩
  | succ k ih =>
    have hlt : k < events.length := hk
    have hget : events[k]? = some events[k] := List.getElem?_eq_getElem hlt
    have hfails' : ∀ r ∈ events.take k, fails r = none := by
      intro r hr
      exact hfails r (List.take_subset_take_left events (Nat.le_succ k) hr)
    have hthis : fails events[k] = none := hfails _ (mem_take_succ hget)
    obtain ⟨ls, s, hs, hsmooth, hwritten, hpending⟩ := ih (Nat.le_of_lt hlt) hfails'
    obtain ⟨s₁, h₁, hsmooth₁, hwritten₁, hanswer⟩ :=
      smooth_next callback hsmooth hlt hwritten hpending
    obtain ⟨s₂, h₂, hsmooth₂, hwritten₂, hnone⟩ :=
      smooth_respond h hcalls hsmooth₁ hanswer hthis
    obtain ⟨s₃, h₃, hsmooth₃, hwritten₃, hpending₃⟩ := smooth_ask h hsmooth₂ hnone
    refine ⟨ls ++ [.write, .respond, .request], s₃, ?_, hsmooth₃, by omega, hpending₃⟩
    rw [exec_append]
    refine ⟨s, hs, ?_⟩
    rw [exec_cons]
    refine ⟨s₁, h₁, ?_⟩
    rw [exec_cons]
    refine ⟨s₂, h₂, ?_⟩
    rw [exec_cons]
    exact ⟨s₃, h₃, rfl⟩

variable (events) in
/-- So far every handler has thrown, so the watch still has no index. -/
structure Failing (Ok : List RapidReply → σ → Prop) (s : State σ) : Prop where
  waitIndex : s.watch.watchUrl.waitIndex = none
  failures : s.watch.maxFailures = failureLimit - s.handed.length
  written_le : s.written ≤ events.length
  pending_le : s.pending.getD s.written ≤ s.written
  handed : s.handed.Sublist (events.take (s.pending.getD s.written))
  first : s.handed = [] → s.pending = some 0
  ok : Ok s.handed s.handler

theorem failing_init {Ok : List RapidReply → σ → Prop} {s₀ : σ} (hok : Ok [] s₀) :
    Failing events Ok (init s₀) where
  waitIndex := rfl
  failures := rfl
  written_le := Nat.zero_le _
  pending_le := Nat.le_refl 0
  handed := List.nil_sublist _
  first := fun _ => rfl
  ok := hok

theorem Failing.length_le {Ok : List RapidReply → σ → Prop} {s : State σ}
    (hs : Failing events Ok s) : s.handed.length ≤ events.length := by
  have hsub := hs.handed.length_le
  rw [List.length_take] at hsub
  omega

theorem failing_write {Ok : List RapidReply → σ → Prop} {s t : State σ}
    (hs : Failing events Ok s) (ht : step callback events s .write = some t) :
    Failing events Ok t := by
  obtain ⟨hlt, rfl⟩ := step_cases ht
  cases hpending : s.pending with
  | none =>
    have hsub := hs.handed
    rw [hpending] at hsub
    refine { hs with written_le := hlt, pending_le := Nat.le_refl _, handed := ?_, first := ?_ }
    · exact hsub.trans (List.take_sublist_take_left (Nat.le_succ _))
    · intro hnil
      rw [hs.first hnil] at hpending
      cases hpending
  | some p =>
    have hle := hs.pending_le
    have hsub := hs.handed
    rw [hpending] at hle hsub
    refine { hs with written_le := hlt, pending_le := ?_, handed := hsub, first := ?_ }
    · exact Nat.le_succ_of_le hle
    · intro hnil
      rw [← hpending]
      exact hs.first hnil

theorem failing_request {Ok : List RapidReply → σ → Prop} {s t : State σ}
    (hs : Failing events Ok s) (ht : step callback events s .request = some t) :
    Failing events Ok t := by
  obtain ⟨hnone, -, rfl⟩ := step_cases ht
  have hsub := hs.handed
  rw [hnone] at hsub
  have hpos : position events s.written s.watch.watchUrl.waitIndex = s.written := by
    rw [hs.waitIndex]
    rfl
  rw [hpos]
  refine { hs with pending_le := Nat.le_refl _, handed := hsub, first := ?_ }
  intro hnil
  rw [hs.first hnil] at hnone
  cases hnone

/-- A failing event after those handed over before. -/
theorem failing_respond (h : Ordered events) {fails : RapidReply → Option Thrown}
    {Ok : List RapidReply → σ → Prop} (hcalls : Handles callback events fails Ok)
    (hfails : ∀ r ∈ events, fails r ≠ none) {s t : State σ}
    (hs : Failing events Ok s) (ht : step callback events s .respond = some t) :
    Failing events Ok t := by
  obtain ⟨hw, r, -, -, hr, -⟩ := step_cases ht
  have hr' := hr
  unfold answer at hr'
  obtain ⟨p, hp, hget⟩ := Option.bind_eq_some_iff.mp hr'
  split_ifs at hget with hlt
  have hthis := hfails r (mem_of_answer hr)
  obtain ⟨u, hu, hhanded, hwritten, hpending, hok, hwatch⟩ :=
    exists_respond h hcalls hw hr hs.ok (fun _ => hthis)
  have heq : u = t := Option.some.inj (hu.symm.trans ht)
  subst heq
  rw [if_neg hthis] at hwatch
  have hsub := hs.handed
  rw [hp, Option.getD_some] at hsub
  constructor
  · rw [hwatch]
    exact hs.waitIndex
  · rw [hwatch, hhanded, List.length_append, List.length_singleton]
    dsimp only
    rw [hs.failures]
    omega
  · rw [hwritten]
    exact hs.written_le
  · rw [hpending]
    exact Nat.le_refl _
  · rw [hpending, hhanded, hwritten, Option.getD_none]
    have hnext : (s.handed ++ [r]).Sublist (events.take (p + 1)) := by
      rw [take_succ_eq hget]
      exact hsub.append (List.Sublist.refl _)
    exact hnext.trans (List.take_sublist_take_left hlt)
  · intro hnil
    rw [hhanded] at hnil
    simp at hnil
  · exact hok

theorem failing_step (h : Ordered events) {fails : RapidReply → Option Thrown}
    {Ok : List RapidReply → σ → Prop} (hcalls : Handles callback events fails Ok)
    (hfails : ∀ r ∈ events, fails r ≠ none) {s t : State σ} {l : Label}
    (hs : Failing events Ok s) (ht : step callback events s l = some t) :
    Failing events Ok t := by
  cases l with
  | write => exact failing_write hs ht
  | request => exact failing_request hs ht
  | respond => exact failing_respond h hcalls hfails hs ht

/-- Where every handler throws, every run goes on without an index. -/
theorem failing_exec (h : Ordered events) {fails : RapidReply → Option Thrown}
    {Ok : List RapidReply → σ → Prop} (hcalls : Handles callback events fails Ok)
    (hfails : ∀ r ∈ events, fails r ≠ none) {s₀ : σ} (hok : Ok [] s₀) {ls : List Label}
    {s : State σ} (hs : exec (step callback events) (init s₀) ls = some s) :
    Failing events Ok s := by
  apply exec_invariant (I := fun s => Failing events Ok s) ?_ (failing_init hok) hs
  intro s l t hfailing ht
  exact failing_step h hcalls hfails hfailing ht

variable (events) in
/-- The handler of event `k` has thrown `n` times in a row, and the watch asks for that
event again. -/
structure Stuck (Ok : List RapidReply → σ → Prop) (s : State σ) (k n : ℕ) (e : RapidReply) :
    Prop where
  handed : s.handed = events.take k ++ List.replicate n e
  written : s.written = k + 1
  failures : s.watch.maxFailures = failureLimit - n
  waits : position events s.written s.watch.watchUrl.waitIndex = k
  pending : s.pending = some k
  ok : Ok s.handed s.handler

theorem stuck_of_smooth (h : Ordered events) {Ok : List RapidReply → σ → Prop} {s : State σ}
    {k : ℕ} {e : RapidReply} (hs : Smooth events Ok s k) (hk : 0 < k)
    (hwritten : s.written = k + 1) (hanswer : answer events s = some e) :
    Stuck events Ok s k 0 e := by
  have hlen : k - 1 < events.length := by
    have hle := hs.written_le
    omega
  have hr : events[k - 1]? = some events[k - 1] := List.getElem?_eq_getElem hlen
  constructor
  · rw [hs.handed]
    simp
  · exact hwritten
  · exact hs.failures
  · rw [hs.later _ hk hr, position_next h s.written hr]
    omega
  · rcases hs.pending with hnone | hsome
    · unfold answer at hanswer
      rw [hnone] at hanswer
      cases hanswer
    · exact hsome
  · exact hs.ok

/-- The failing event is handed over once more. -/
theorem stuck_respond (h : Ordered events) {fails : RapidReply → Option Thrown}
    {Ok : List RapidReply → σ → Prop} (hcalls : Handles callback events fails Ok) {s : State σ}
    {k n : ℕ} {e : RapidReply} (hs : Stuck events Ok s k n e)
    (he : events[k]? = some e) (hfails : fails e ≠ none) (hn : n < failureLimit) :
    ∃ t, step callback events s .respond = some t ∧
      t.handed = events.take k ++ List.replicate (n + 1) e ∧ t.written = k + 1 ∧
      t.watch = { s.watch with maxFailures := failureLimit - (n + 1) } ∧ t.pending = none ∧
      Ok t.handed t.handler := by
  have hanswer : answer events s = some e := by
    unfold answer
    rw [hs.pending, Option.bind_some, if_pos (by rw [hs.written]; omega)]
    exact he
  have hw : s.watch.maxFailures ≠ 0 := by
    rw [hs.failures]
    omega
  obtain ⟨t, ht, hhanded, hwritten, hpending, hok, hwatch⟩ :=
    exists_respond h hcalls hw hanswer hs.ok (fun _ => hfails)
  rw [if_neg hfails, hs.failures] at hwatch
  refine ⟨t, ht, ?_, hwritten.trans hs.written, hwatch, hpending, hok⟩
  rw [hhanded, hs.handed, List.append_assoc, List.replicate_succ']

/-- The watch asks for the failing event again. -/
theorem stuck_next (h : Ordered events) {fails : RapidReply → Option Thrown}
    {Ok : List RapidReply → σ → Prop} (hcalls : Handles callback events fails Ok) {s : State σ}
    {k n : ℕ} {e : RapidReply} (hs : Stuck events Ok s k n e)
    (he : events[k]? = some e) (hfails : fails e ≠ none) (hn : n + 1 < failureLimit) :
    ∃ t, exec (step callback events) s [.respond, .request] = some t ∧
      Stuck events Ok t k (n + 1) e := by
  obtain ⟨u, hu, hhanded, hwritten, hwatch, hpending, hok⟩ :=
    stuck_respond h hcalls hs he hfails (by omega)
  have hw : u.watch.maxFailures ≠ 0 := by
    rw [hwatch]
    dsimp only
    omega
  have hwaits : position events u.written u.watch.watchUrl.waitIndex = k := by
    rw [hwritten, hwatch, ← hs.written]
    exact hs.waits
  have ht := step_request callback events hpending hw hwaits
  refine ⟨_, exec_cons.mpr ⟨u, hu, exec_cons.mpr ⟨_, ht, rfl⟩⟩, ?_⟩
  exact ⟨hhanded, hwritten, by rw [hwatch], hwaits, rfl, hok⟩

/-- The first event with a property. -/
theorem exists_first {P : RapidReply → Prop} {e : RapidReply} (hmem : e ∈ events) (he : P e) :
    ∃ k e, events[k]? = some e ∧ P e ∧ ∀ r ∈ events.take k, ¬ P r := by
  induction events with
  | nil => cases hmem
  | cons a events ih =>
    by_cases ha : P a
    · exact ⟨0, a, rfl, ha, fun r hr => by cases hr⟩
    · have hrest : e ∈ events := by
        rcases List.mem_cons.mp hmem with heq | hrest
        · exact absurd (heq ▸ he) ha
        · exact hrest
      obtain ⟨k, e', he', hP, hbefore⟩ := ih hrest
      refine ⟨k + 1, e', he', hP, ?_⟩
      intro r hr
      rw [List.take_succ_cons] at hr
      rcases List.mem_cons.mp hr with heq | hr
      · rw [heq]
        exact ha
      · exact hbefore r hr

/-- A watch that has an index gets stuck at the first event on which the handler throws. -/
theorem exists_stuck (h : Ordered events) {fails : RapidReply → Option Thrown}
    {Ok : List RapidReply → σ → Prop} (hcalls : Handles callback events fails Ok) {s₀ : σ}
    (hok : Ok [] s₀) {k : ℕ} {e : RapidReply} (hk : 0 < k) (he : events[k]? = some e)
    (hfails : fails e ≠ none) (hbefore : ∀ r ∈ events.take k, fails r = none) (n : ℕ)
    (hn : n < failureLimit) :
    ∃ ls s, exec (step callback events) (init s₀) ls = some s ∧ Stuck events Ok s k n e := by
  have hlen : k < events.length := (List.getElem?_eq_some_iff.mp he).1
  induction n with
  | zero =>
    obtain ⟨ls, s, hs, hsmooth, hwritten, hpending⟩ :=
      exists_smooth h hcalls hok (Nat.le_of_lt hlen) hbefore
    obtain ⟨t, ht, hsmooth', hwritten', hanswer⟩ :=
      smooth_next callback hsmooth hlen hwritten hpending
    have hanswer' : answer events t = some e := by
      rw [hanswer, ← List.getElem?_eq_getElem hlen, he]
    exact ⟨ls ++ [.write], t, exec_snoc.mpr ⟨s, hs, ht⟩,
      stuck_of_smooth h hsmooth' hk hwritten' hanswer'⟩
  | succ n ih =>
    obtain ⟨ls, s, hs, hstuck⟩ := ih (by omega)
    obtain ⟨t, ht, hstuck'⟩ := stuck_next h hcalls hstuck he hfails hn
    exact ⟨ls ++ [.respond, .request], t, exec_append.mpr ⟨s, hs, ht⟩, hstuck'⟩

variable (callback) in
theorem write_all (s : State σ) (hs : s.written ≤ events.length) :
    ∃ ls, exec (step callback events) s ls = some { s with written := events.length } := by
  obtain ⟨n, hn⟩ := Nat.exists_eq_add_of_le hs
  induction n generalizing s with
  | zero => exact ⟨[], by rw [hn]; rfl⟩
  | succ n ih =>
    have hlt : s.written < events.length := by omega
    have ht := step_write callback events hlt
    obtain ⟨ls, hls⟩ := ih { s with written := s.written + 1 } hlt (by dsimp only; omega)
    exact ⟨.write :: ls, exec_cons.mpr ⟨_, ht, hls⟩⟩

/-- The handler throws on the first event. The others are written before the watch asks
again, and without an index it misses them. -/
theorem exists_skipped (h : Ordered events) {fails : RapidReply → Option Thrown}
    {Ok : List RapidReply → σ → Prop} (hcalls : Handles callback events fails Ok) {s₀ : σ}
    (hok : Ok [] s₀) {e : RapidReply} (he : events[0]? = some e) (hfails : fails e ≠ none) :
    ∃ ls s, exec (step callback events) (init s₀) ls = some s ∧ s.handed = [e] ∧
      Quiet events s ∧ s.watch.maxFailures ≠ 0 ∧ Ok s.handed s.handler := by
  have hlen : 0 < events.length := (List.getElem?_eq_some_iff.mp he).1
  obtain ⟨s₁, h₁, hsmooth, hwritten, hanswer⟩ :=
    smooth_next callback (smooth_init hok) hlen rfl rfl
  have hanswer' : answer events s₁ = some e := by
    rw [hanswer, ← List.getElem?_eq_getElem hlen, he]
  obtain ⟨s₂, h₂, hhanded, hwritten₂, hpending, hok₂, hwatch⟩ :=
    exists_respond h hcalls hsmooth.running hanswer' hsmooth.ok (fun _ => hfails)
  rw [if_neg hfails] at hwatch
  have hle : s₂.written ≤ events.length := by
    rw [hwritten₂]
    exact hsmooth.written_le
  obtain ⟨ls, h₃⟩ := write_all callback s₂ hle
  have hw₂ : s₂.watch.maxFailures ≠ 0 := by
    rw [hwatch, hsmooth.failures]
    exact Nat.succ_ne_zero 3
  have hurl : s₂.watch.watchUrl.waitIndex = none := by
    rw [hwatch]
    exact (hsmooth.first rfl).2
  have hp : position events events.length s₂.watch.watchUrl.waitIndex = events.length := by
    rw [hurl]
    rfl
  have h₄ := step_request callback events (s := { s₂ with written := events.length })
    hpending hw₂ hp
  refine ⟨[.write, .respond] ++ (ls ++ [.request]),
    { s₂ with written := events.length, pending := some events.length }, ?_, ?_,
    ⟨rfl, events.length, rfl, Nat.le_refl _⟩, hw₂, hok₂⟩
  · rw [exec_append]
    refine ⟨s₂, exec_cons.mpr ⟨s₁, h₁, exec_cons.mpr ⟨s₂, h₂, rfl⟩⟩, ?_⟩
    rw [exec_snoc]
    exact ⟨_, h₃, h₄⟩
  · dsimp only
    rw [hhanded, hsmooth.handed]
    rfl

variable (events) in
/-- The handler has thrown on each of the first `n` events, and the watch waits for any
event that comes. -/
structure Failed (Ok : List RapidReply → σ → Prop) (s : State σ) (n : ℕ) : Prop where
  handed : s.handed = events.take n
  written : s.written = n
  failures : s.watch.maxFailures = failureLimit - n
  waitIndex : s.watch.watchUrl.waitIndex = none
  pending : s.pending = some n
  ok : Ok s.handed s.handler

/-- The next event is written and handed over. -/
theorem failed_next (h : Ordered events) {fails : RapidReply → Option Thrown}
    {Ok : List RapidReply → σ → Prop} (hcalls : Handles callback events fails Ok) {s : State σ}
    {n : ℕ} {e : RapidReply} (hs : Failed events Ok s n) (he : events[n]? = some e)
    (hn : n < failureLimit) :
    ∃ t, exec (step callback events) s [.write, .respond] = some t ∧
      t.handed = events.take (n + 1) ∧ t.written = n + 1 ∧ t.pending = none ∧
      Ok t.handed t.handler ∧
      t.watch = if fails e = none then ⟨index e, waitUrl (index e) true, failureLimit⟩
        else { s.watch with maxFailures := failureLimit - (n + 1) } := by
  have hlen : n < events.length := (List.getElem?_eq_some_iff.mp he).1
  have hwritten := hs.written
  have h₁ := step_write callback events (s := s) (by omega)
  have hanswer : answer events { s with written := s.written + 1 } = some e := by
    unfold answer
    dsimp only
    rw [hs.pending, Option.bind_some, if_pos (by omega)]
    exact he
  have hw : s.watch.maxFailures ≠ 0 := by
    rw [hs.failures]
    omega
  have hnew : e ∈ s.handed → fails e ≠ none := by
    intro hold
    rw [hs.handed] at hold
    exact absurd hold (not_mem_take h he)
  obtain ⟨t, h₂, hhanded, hwritten', hpending, hok, hwatch⟩ :=
    exists_respond (s := { s with written := s.written + 1 }) h hcalls hw hanswer hs.ok hnew
  refine ⟨t, exec_cons.mpr ⟨_, h₁, exec_cons.mpr ⟨t, h₂, rfl⟩⟩, ?_, ?_, hpending, hok, ?_⟩
  · rw [hhanded, take_succ_eq he, ← hs.handed]
  · rw [hwritten']
    dsimp only
    omega
  · rw [hwatch]
    dsimp only
    rw [hs.failures]
    rfl

theorem exists_failed (h : Ordered events) {fails : RapidReply → Option Thrown}
    {Ok : List RapidReply → σ → Prop} (hcalls : Handles callback events fails Ok) {s₀ : σ}
    (hok : Ok [] s₀) {n : ℕ} (hn : n < failureLimit) (hlen : n ≤ events.length)
    (hfails : ∀ r ∈ events.take n, fails r ≠ none) :
    ∃ ls s, exec (step callback events) (init s₀) ls = some s ∧ Failed events Ok s n := by
  induction n with
  | zero => exact ⟨[], init s₀, rfl, rfl, rfl, rfl, rfl, rfl, hok⟩
  | succ n ih =>
    have he : events[n]? = some events[n] := List.getElem?_eq_getElem hlen
    have hthis : fails events[n] ≠ none := hfails _ (mem_take_succ he)
    obtain ⟨ls, s, hs, hfailed⟩ := ih (by omega) (by omega) fun r hr =>
      hfails r (List.take_subset_take_left events (Nat.le_succ n) hr)
    obtain ⟨t, ht, hhanded, hwritten, hpending, hok', hwatch⟩ :=
      failed_next h hcalls hfailed he (by omega)
    rw [if_neg hthis] at hwatch
    have hw : t.watch.maxFailures ≠ 0 := by
      rw [hwatch]
      dsimp only
      omega
    have hurl : t.watch.watchUrl.waitIndex = none := by
      rw [hwatch]
      exact hfailed.waitIndex
    have hp : position events t.written t.watch.watchUrl.waitIndex = n + 1 := by
      rw [hurl]
      exact hwritten
    have hu := step_request callback events hpending hw hp
    refine ⟨ls ++ ([.write, .respond] ++ [.request]), _,
      exec_append.mpr ⟨s, hs, exec_snoc.mpr ⟨t, ht, hu⟩⟩, ?_⟩
    exact ⟨hhanded, hwritten, by rw [hwatch], hurl, rfl, hok'⟩

end Delivery
end Etcd
end HVBench
