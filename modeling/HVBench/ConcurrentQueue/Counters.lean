import HVBench.ConcurrentQueue.ImplicitProducer
import HVBench.Library.Admission
import HVBench.Library.Holding

/-! The counters of a producer. A thread that increments `headIndex` finds an element there,
whatever other threads are in the middle of. -/
namespace HVBench
namespace ConcurrentQueue
open Admission Counting Holding
variable {κ α : Type}

namespace Ticket

def isGranted : Ticket κ → Bool
  | granted _ => true
  | claimed => true
  | _ => false

def isClaimed : Ticket κ → Bool
  | claimed => true
  | _ => false

def isRefused : Ticket κ → Bool
  | refused _ => true
  | counted => true
  | _ => false

def isCounted : Ticket κ → Bool
  | counted => true
  | _ => false

/-- The thread that still has to go on with it. -/
def holder : Ticket κ → Option κ
  | pending c => some c
  | granted c => some c
  | refused c => some c
  | _ => none

theorem isRefused_of_isGranted (t : Ticket κ) (h : t.isGranted = true) : t.isRefused = false := by
  cases t <;> simp_all [isGranted, isRefused]

theorem isGranted_of_isClaimed {t : Ticket κ} (h : t.isClaimed = true) : t.isGranted = true := by
  cases t <;> simp_all [isGranted, isClaimed]

theorem isRefused_of_isCounted {t : Ticket κ} (h : t.isCounted = true) : t.isRefused = true := by
  cases t <;> simp_all [isRefused, isCounted]

end Ticket

/-- The increment of a thread that has not come to its end. -/
def Consumer.ticket (c : κ) : Consumer α → Option (ℕ × Ticket κ)
  | reloadTail _ my => some (my, .pending c)
  | addOvercommit my => some (my, .refused c)
  | addHead my => some (my, .granted c)
  | _ => none

/-- All that a thread has read from `dequeueOvercommit` was counted before its increment. -/
def KnowsOvercommit (s : State κ α) : Consumer α → Prop
  | .loadOptimistic _ overcommit => overcommit ≤ s.dequeueOvercommit
  | .addOptimistic overcommit => overcommit ≤ s.dequeueOvercommit
  | .reloadTail overcommit my => overcommit ≤ (s.tickets.take my).countP Ticket.isRefused
  | _ => True

structure Counters (s : State κ α) : Prop where
  tail : s.tailIndex = s.enqueued.length
  optimistic : s.dequeueOptimisticCount = s.tickets.length
  overcommit : s.dequeueOvercommit = s.tickets.countP Ticket.isCounted
  head : s.headIndex = s.tickets.countP Ticket.isClaimed
  slots : s.slots.length = s.headIndex
  within : Within Ticket.isGranted Ticket.isRefused s.tailIndex s.tickets
  held : Held Ticket.holder s.tickets fun c => (s.consumers c).ticket c
  knows : ∀ c, KnowsOvercommit s (s.consumers c)

theorem counters_init (T : Traits) : Counters (init T κ α) where
  tail := rfl
  optimistic := rfl
  overcommit := rfl
  head := rfl
  slots := rfl
  within := within_nil
  held c i x := by simp [init, Consumer.ticket]
  knows _ := trivial

section
variable {s : State κ α} (h : Counters s)
include h

theorem Counters.granted_le : s.tickets.countP Ticket.isGranted ≤ s.tailIndex :=
  h.within.countP_le Ticket.isRefused_of_isGranted

theorem Counters.head_le : s.headIndex ≤ s.tailIndex := by
  rw [h.head]
  refine Nat.le_trans (List.countP_mono_left ?_) h.granted_le
  exact fun t _ => Ticket.isGranted_of_isClaimed

theorem Counters.overcommit_le : s.dequeueOvercommit ≤ s.tickets.countP Ticket.isRefused := by
  rw [h.overcommit]
  exact List.countP_mono_left fun t _ => Ticket.isRefused_of_isCounted

theorem Counters.ticket_of_pc {c : κ} {m : ℕ} {x : Ticket κ}
    (hpc : (s.consumers c).ticket c = some (m, x)) : s.tickets[m]? = some x :=
  h.held.get hpc

end

/-- What a step leaves of the increments before one. -/
structure TicketsKept (s t : State κ α) : Prop where
  overcommit : s.dequeueOvercommit ≤ t.dequeueOvercommit
  refused : ∀ m, m ≤ s.tickets.length → (s.tickets.take m).countP Ticket.isRefused ≤
    (t.tickets.take m).countP Ticket.isRefused

theorem KnowsOvercommit.mono {s t : State κ α} {c : κ} (hs : Counters s)
    (h : TicketsKept s t) (hc : KnowsOvercommit s (s.consumers c)) :
    KnowsOvercommit t (s.consumers c) := by
  cases hpc : s.consumers c with
  | loadOptimistic tail overcommit =>
    rw [hpc] at hc
    exact Nat.le_trans hc h.overcommit
  | addOptimistic overcommit =>
    rw [hpc] at hc
    exact Nat.le_trans hc h.overcommit
  | reloadTail overcommit my =>
    have hmy := hs.ticket_of_pc (c := c) (m := my) (x := .pending c) (by rw [hpc]; rfl)
    rw [hpc] at hc
    exact Nat.le_trans hc (h.refused my (Nat.le_of_lt (List.getElem?_eq_some_iff.mp hmy).1))
  | _ => trivial

theorem ticketsKept_set {s t : State κ α} {m : ℕ} {x x' : Ticket κ} (hm : s.tickets[m]? = some x)
    (hkeep : x.isRefused = true → x'.isRefused = true) (ht : t.tickets = s.tickets.set m x')
    (hle : s.dequeueOvercommit ≤ t.dequeueOvercommit) : TicketsKept s t where
  overcommit := hle
  refused k _ := by
    rw [ht]
    exact countP_take_le_set hm hkeep

theorem ticketsKept_of_eq {s t : State κ α} (ht : t.tickets = s.tickets)
    (ho : t.dequeueOvercommit = s.dequeueOvercommit) : TicketsKept s t where
  overcommit := Nat.le_of_eq ho.symm
  refused m _ := by rw [ht]

theorem ticketsKept_snoc {s t : State κ α} {x : Ticket κ} (ht : t.tickets = s.tickets ++ [x])
    (ho : t.dequeueOvercommit = s.dequeueOvercommit) : TicketsKept s t where
  overcommit := Nat.le_of_eq ho.symm
  refused m hm := by rw [ht, List.take_append_of_le_length hm]

section
variable [DecidableEq κ] {T : Traits} {s t : State κ α} {c : κ} {pc : Consumer α}

/-- What is the same before and after the step of one thread is the same for all. -/
theorem consumers_eq {β : Type} {f : κ → Consumer α → β} (hpc : f c pc = f c (s.consumers c))
    (c' : κ) : f c' (Function.update s.consumers c pc c') = f c' (s.consumers c') := by
  by_cases hc : c' = c
  · subst hc
    rw [Function.update_self, hpc]
  · rw [Function.update_of_ne hc]

theorem Counters.knowsOvercommit (h : Counters s) (hkept : TicketsKept s t)
    (hc : t.consumers = Function.update s.consumers c pc) (hpc : KnowsOvercommit t pc) (c' : κ) :
    KnowsOvercommit t (t.consumers c') := by
  rw [hc]
  by_cases hc' : c' = c
  · subst hc'
    rw [Function.update_self]
    exact hpc
  · rw [Function.update_of_ne hc']
    exact KnowsOvercommit.mono h hkept (h.knows c')

/-- A thread goes on with its increment. -/
theorem Counters.held_set (h : Counters s) {m : ℕ} {x y : Ticket κ}
    (hx : (s.consumers c).ticket c = some (m, x))
    (hpc : pc.ticket c = y.holder.map fun _ => (m, y)) (hy : ∀ c', y.holder = some c' → c' = c) :
    Held Ticket.holder (s.tickets.set m y)
      fun c' => (Function.update s.consumers c pc c').ticket c' := by
  refine h.held.set hx (fun c' hc' => ?_) ?_ hy
  · rw [Function.update_of_ne hc']
  · rw [Function.update_self]
    exact hpc

/-- A step that leaves the counters alone. -/
theorem Counters.of_eq (h : Counters s) (ht : t.tailIndex = s.tailIndex)
    (he : t.enqueued = s.enqueued) (ho : t.dequeueOptimisticCount = s.dequeueOptimisticCount)
    (hv : t.dequeueOvercommit = s.dequeueOvercommit) (hh : t.headIndex = s.headIndex)
    (htickets : t.tickets = s.tickets) (hslots : t.slots.length = s.slots.length)
    (hc : t.consumers = Function.update s.consumers c pc)
    (hticket : pc.ticket c = (s.consumers c).ticket c) (hpc : KnowsOvercommit s pc) :
    Counters t where
  tail := by rw [ht, he]; exact h.tail
  optimistic := by rw [ho, htickets]; exact h.optimistic
  overcommit := by rw [hv, htickets]; exact h.overcommit
  head := by rw [hh, htickets]; exact h.head
  slots := by rw [hh, hslots]; exact h.slots
  within := by rw [ht, htickets]; exact h.within
  held := by
    rw [htickets, hc]
    intro c' m x
    dsimp only
    rw [consumers_eq (f := Consumer.ticket) hticket]
    exact h.held c' m x
  knows := by
    refine h.knowsOvercommit (ticketsKept_of_eq htickets hv) hc ?_
    unfold KnowsOvercommit at hpc ⊢
    rw [hv, htickets]
    exact hpc

theorem counters_consumer (h : Counters s) (hmove : ConsumerMove T s c t) : Counters t := by
  have hknows := h.knows c
  cases hmove with
  | loadOvercommit hpc =>
    exact h.of_eq rfl rfl rfl rfl rfl rfl rfl rfl (by rw [hpc]; rfl) (Nat.le_refl _)
  | loadOptimistic hpc =>
    rw [hpc] at hknows
    exact h.of_eq rfl rfl rfl rfl rfl rfl rfl rfl (by rw [hpc]; rfl) hknows
  | @addOptimistic overcommit hpc =>
    rw [hpc] at hknows
    refine ⟨h.tail, ?_, ?_, ?_, h.slots, h.within.snoc rfl, ?_, ?_⟩
    · change s.dequeueOptimisticCount + 1 = (s.tickets ++ [Ticket.pending c]).length
      rw [List.length_append, ← h.optimistic]
      rfl
    · change s.dequeueOvercommit = (s.tickets ++ [Ticket.pending c]).countP Ticket.isCounted
      rw [List.countP_append, ← h.overcommit]
      rfl
    · change s.headIndex = (s.tickets ++ [Ticket.pending c]).countP Ticket.isClaimed
      rw [List.countP_append, ← h.head]
      rfl
    · refine h.held.snoc (c := c) (by rw [hpc]; rfl) (fun c' hc' => ?_) ?_ rfl
      · exact congrArg (Consumer.ticket c') (Function.update_of_ne hc' _ s.consumers)
      · rw [← h.optimistic]
        exact congrArg (Consumer.ticket c) (Function.update_self c _ s.consumers)
    · refine h.knowsOvercommit (ticketsKept_snoc rfl rfl) rfl ?_
      -- all threads counted in `overcommit` drew a number before this one
      change overcommit ≤ ((s.tickets ++ [Ticket.pending c]).take _).countP Ticket.isRefused
      rw [h.optimistic, List.take_left]
      exact Nat.le_trans hknows h.overcommit_le
  | @grant overcommit my hpc hlt =>
    have hmy := h.ticket_of_pc (c := c) (m := my) (x := .pending c) (by rw [hpc]; rfl)
    have hclaimed := countP_set (p := Ticket.isClaimed) (u := .granted c) hmy
    have hcounted := countP_set (p := Ticket.isCounted) (u := .granted c) hmy
    rw [hpc] at hknows
    refine ⟨h.tail, ?_, ?_, ?_, h.slots, ?_, ?_, ?_⟩
    · exact h.optimistic.trans (List.length_set ..).symm
    · exact h.overcommit.trans hcounted.symm
    · exact h.head.trans hclaimed.symm
    · refine h.within.set hmy (fun hr => by cases hr) fun _ => .inr ?_
      have hover : overcommit ≤ (s.tickets.take my).countP Ticket.isRefused := hknows
      omega
    · exact h.held_set (by rw [hpc]; rfl) rfl fun c' hc' => (Option.some.inj hc').symm
    · exact h.knowsOvercommit (ticketsKept_set hmy (fun hr => by cases hr) rfl (Nat.le_refl _)) rfl
        trivial
  | @refuse overcommit my hpc hge =>
    have hmy := h.ticket_of_pc (c := c) (m := my) (x := .pending c) (by rw [hpc]; rfl)
    have hclaimed := countP_set (p := Ticket.isClaimed) (u := .refused c) hmy
    have hcounted := countP_set (p := Ticket.isCounted) (u := .refused c) hmy
    refine ⟨h.tail, ?_, ?_, ?_, h.slots, ?_, ?_, ?_⟩
    · exact h.optimistic.trans (List.length_set ..).symm
    · exact h.overcommit.trans hcounted.symm
    · exact h.head.trans hclaimed.symm
    · exact h.within.set hmy (fun _ => rfl) fun hg => by cases hg
    · exact h.held_set (by rw [hpc]; rfl) rfl fun c' hc' => (Option.some.inj hc').symm
    · exact h.knowsOvercommit (ticketsKept_set hmy (fun _ => rfl) rfl (Nat.le_refl _)) rfl trivial
  | @addOvercommit my hpc =>
    have hmy := h.ticket_of_pc (c := c) (m := my) (x := .refused c) (by rw [hpc]; rfl)
    have hclaimed := countP_set (p := Ticket.isClaimed) (u := .counted) hmy
    have hcounted := countP_set (p := Ticket.isCounted) (u := .counted) hmy
    refine ⟨h.tail, ?_, ?_, ?_, h.slots, ?_, ?_, ?_⟩
    · exact h.optimistic.trans (List.length_set ..).symm
    · change s.dequeueOvercommit + 1 = _
      rw [h.overcommit]
      exact hcounted.symm
    · exact h.head.trans hclaimed.symm
    · exact h.within.set hmy (fun _ => rfl) fun hg => by cases hg
    · exact h.held_set (by rw [hpc]; rfl) rfl fun c' hc' => by cases hc'
    · exact h.knowsOvercommit (ticketsKept_set hmy (fun _ => rfl) rfl (Nat.le_succ _)) rfl trivial
  | @addHead my hpc =>
    have hmy := h.ticket_of_pc (c := c) (m := my) (x := .granted c) (by rw [hpc]; rfl)
    have hclaimed := countP_set (p := Ticket.isClaimed) (u := .claimed) hmy
    have hcounted := countP_set (p := Ticket.isCounted) (u := .claimed) hmy
    refine ⟨h.tail, ?_, ?_, ?_, ?_, ?_, ?_, ?_⟩
    · exact h.optimistic.trans (List.length_set ..).symm
    · exact h.overcommit.trans hcounted.symm
    · change s.headIndex + 1 = _
      rw [h.head]
      exact hclaimed.symm
    · change (s.slots ++ [Slot.reading c]).length = s.headIndex + 1
      rw [List.length_append, h.slots]
      rfl
    · exact h.within.set hmy (fun hr => by cases hr) fun _ => .inl rfl
    · exact h.held_set (by rw [hpc]; rfl) rfl fun c' hc' => by cases hc'
    · exact h.knowsOvercommit (ticketsKept_set hmy (fun hr => by cases hr) rfl (Nat.le_refl _)) rfl
        trivial
  | move hpc he =>
    exact h.of_eq rfl rfl rfl rfl rfl rfl (List.length_set ..) rfl (by rw [hpc]; rfl) trivial
  | setEmpty hpc hne =>
    exact h.of_eq rfl rfl rfl rfl rfl rfl (List.length_set ..) rfl (by rw [hpc]; rfl) trivial
  | setLastEmpty hpc hlast =>
    exact h.of_eq rfl rfl rfl rfl rfl rfl (List.length_set ..) rfl (by rw [hpc]; rfl) trivial
  | addToFreeList hpc =>
    exact h.of_eq rfl rfl rfl rfl rfl rfl (List.length_set ..) rfl (by rw [hpc]; rfl) trivial
  | _ =>
    exact h.of_eq rfl rfl rfl rfl rfl rfl rfl rfl (by rw [‹s.consumers c = _›]; rfl) trivial

omit [DecidableEq κ] in
theorem counters_producer (h : Counters s) (hmove : ProducerMove T s t) : Counters t := by
  cases hmove with
  | @storeTailIndex e hpc =>
    refine ⟨?_, h.optimistic, h.overcommit, h.head, h.slots, h.within.mono (Nat.le_succ _),
      h.held, h.knows⟩
    change s.tailIndex + 1 = (s.enqueued ++ [e]).length
    rw [List.length_append, ← h.tail]
    rfl
  | _ =>
    exact ⟨h.tail, h.optimistic, h.overcommit, h.head, h.slots, h.within, h.held, h.knows⟩

end
end ConcurrentQueue
end HVBench
