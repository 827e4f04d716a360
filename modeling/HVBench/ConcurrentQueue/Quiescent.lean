import HVBench.ConcurrentQueue.Fifo
import Mathlib.Data.Finset.Card

/-! How many blocks are in use. In a state in which no call is in progress, the counters alone
tell. -/
namespace HVBench
namespace ConcurrentQueue
open Counting
variable {κ α : Type} {T : Traits} {s : State κ α}

/-- No call is in progress. -/
def Quiescent (s : State κ α) : Prop := s.producer = .idle ∧ ∀ c, s.consumers c = .idle

/-- How many blocks are in use after those that are emptied. -/
def State.used (T : Traits) (s : State κ α) : ℕ :=
  s.segments.length - s.headIndex / T.blockSize

/-- The segment of a block. -/
def Owner.number : Owner κ → Option ℕ
  | segment n => some n
  | _ => none

section
variable (h : Inv T s)
include h

/-- The segments from that of the next element on have their blocks. -/
theorem Inv.owner_of_le {n : ℕ} (hle : s.headIndex / T.blockSize ≤ n)
    (hn : n < s.segments.length) : ∃ b, s.owner b = .segment n := by
  have hlt : emptied T s n < T.blockSize := by
    refine stretch_lt T.blockSize_pos ?_
    rw [h.counters.slots, ← Nat.div_lt_iff_lt_mul T.blockSize_pos]
    exact Nat.lt_succ_of_le hle
  obtain ⟨b, hb⟩ := h.live hn hlt
  exact ⟨b, h.owner_of_live hb⟩

theorem Inv.lt_poolSize {b : ℕ} (hb : s.owner b ≠ .pool) : b < T.poolSize := by
  refine Nat.lt_of_lt_of_le (Nat.lt_of_not_le fun hle => hb ?_) h.owners.poolSize
  exact (h.owners.pool b).mpr hle

/-- The blocks of the segments, counted. -/
theorem Inv.used_le_card :
    s.used T ≤ ((Finset.range T.poolSize).filter fun b => (s.owner b).number.isSome).card := by
  rw [State.used, ← Nat.card_Ico]
  have hblock : ∀ n ∈ Finset.Ico (s.headIndex / T.blockSize) s.segments.length,
      s.owner (((s.segments[n]?).map Segment.block).getD 0) = .segment n := by
    intro n hn
    obtain ⟨hle, hlt⟩ := Finset.mem_Ico.mp hn
    obtain ⟨b, hb⟩ := h.owner_of_le hle hlt
    obtain ⟨phase, hget, -⟩ := (h.owners.segment b n).mp hb
    rw [hget]
    exact hb
  refine Finset.card_le_card_of_injOn (fun n => ((s.segments[n]?).map Segment.block).getD 0)
    (fun n hn => ?_) fun n hn m hm heq => ?_
  · have howner := hblock n hn
    refine Finset.mem_filter.mpr ⟨Finset.mem_range.mpr (h.lt_poolSize ?_), by rw [howner]; rfl⟩
    rw [howner]
    simp
  · have hn' := hblock n hn
    dsimp only at heq
    rw [heq, hblock m hm] at hn'
    exact (Owner.segment.inj hn').symm

theorem Inv.used_le : s.used T ≤ min T.poolSize T.indexSize := by
  refine Nat.le_min.mpr ⟨Nat.le_trans h.used_le_card ?_, ?_⟩
  · exact Nat.le_trans (Finset.card_filter_le _ _) (Nat.le_of_eq (Finset.card_range _))
  · rcases Nat.lt_or_ge (s.headIndex / T.blockSize) s.segments.length with hlt | hge
    · obtain ⟨b, hb⟩ := h.owner_of_le (Nat.le_refl _) hlt
      exact Nat.sub_le_of_le_add (Nat.add_comm _ _ ▸ h.index.window b _ hb)
    · exact Nat.le_trans (Nat.le_of_eq (Nat.sub_eq_zero_of_le hge)) (Nat.zero_le _)

end

section
variable (h : Inv T s) (hq : Quiescent s)
include h hq

theorem Quiescent.optimistic : s.dequeueOptimisticCount = s.headIndex + s.dequeueOvercommit := by
  have hcount : s.tickets.countP (fun t => !t.isClaimed) = s.tickets.countP Ticket.isCounted := by
    refine List.countP_congr fun t ht => ?_
    have hholder := h.counters.held.settled (fun c => by rw [hq.2 c]; rfl) ht
    cases t with
    | claimed => simp [Ticket.isClaimed, Ticket.isCounted]
    | counted => simp [Ticket.isClaimed, Ticket.isCounted]
    | _ => cases hholder
  have hlength := List.length_eq_countP_add_countP Ticket.isClaimed (l := s.tickets)
  simp only [Bool.not_eq_true, Bool.decide_eq_false] at hlength
  rw [h.counters.optimistic, h.counters.head, h.counters.overcommit, hlength, hcount]

theorem Quiescent.emptied_eq (n : ℕ) :
    emptied T s n = min T.blockSize (s.headIndex - n * T.blockSize) := by
  rw [← h.counters.slots]
  refine stretch_of_forall fun x hx => ?_
  have hholder := h.held.settled (fun c => by rw [hq.2 c]; rfl) hx
  cases x with
  | returned => rfl
  | _ => cases hholder

/-- The segments in use are those from that of the next element on. -/
theorem Quiescent.owner_iff (n : ℕ) :
    (∃ b, s.owner b = .segment n) ↔ s.headIndex / T.blockSize ≤ n ∧ n < s.segments.length := by
  refine ⟨?_, fun hn => h.owner_of_le hn.1 hn.2⟩
  rintro ⟨b, hb⟩
  have hlength := h.lt_length hb
  obtain ⟨phase, hn, hphase⟩ := (h.owners.segment b n).mp hb
  refine ⟨?_, hlength⟩
  have hlt : emptied T s n < T.blockSize := by
    refine (h.phases.live n _ hn).mp ?_
    cases phase with
    | live => rfl
    | closing c =>
      have hcloses := (h.phases.closing n b c).mp hn
      rw [hq.2 c] at hcloses
      cases hcloses
    | unlinked => exact absurd rfl hphase
  rw [hq.emptied_eq h] at hlt
  rw [← Nat.lt_succ_iff, Nat.div_lt_iff_lt_mul T.blockSize_pos, Nat.succ_mul]
  omega

theorem Quiescent.card_le_used :
    ((Finset.range T.poolSize).filter fun b => (s.owner b).number.isSome).card ≤ s.used T := by
  rw [State.used, ← Nat.card_Ico]
  have hnumber : ∀ b ∈ (Finset.range T.poolSize).filter (fun b => (s.owner b).number.isSome),
      s.owner b = .segment ((s.owner b).number.getD 0) := by
    intro b hb
    obtain ⟨-, hsome⟩ := Finset.mem_filter.mp hb
    cases howner : s.owner b with
    | segment n => rfl
    | _ =>
      rw [howner] at hsome
      cases hsome
  refine Finset.card_le_card_of_injOn (fun b => (s.owner b).number.getD 0) (fun b hb => ?_)
    fun b hb b' hb' heq => ?_
  · exact Finset.mem_coe.mpr (Finset.mem_Ico.mpr ((hq.owner_iff h _).mp ⟨b, hnumber b hb⟩))
  · have howner := hnumber b hb
    dsimp only at heq
    rw [heq] at howner
    exact h.owner_inj howner (hnumber b' hb')

/-- A block is free unless all of them are in use. -/
theorem Quiescent.available_iff :
    (s.initialBlockPoolIndex < T.poolSize ∨ s.freeList ≠ []) ↔ s.used T < T.poolSize := by
  have hcard := Nat.le_antisymm (hq.card_le_used h) h.used_le_card
  constructor
  · intro havailable
    have hfree : ∃ b, b < T.poolSize ∧ (s.owner b).number.isSome = false := by
      rcases havailable with hlt | hne
      · refine ⟨_, hlt, ?_⟩
        rw [(h.owners.pool _).mpr (Nat.le_refl _)]
        rfl
      · obtain ⟨b, hb⟩ := List.exists_mem_of_ne_nil _ hne
        have howner := (h.owners.freeList b).mpr hb
        exact ⟨b, h.lt_poolSize (by rw [howner]; simp), by rw [howner]; rfl⟩
    obtain ⟨b, hb, hnone⟩ := hfree
    rw [← hcard]
    refine Nat.lt_of_lt_of_eq (Finset.card_lt_card ?_) (Finset.card_range T.poolSize)
    refine Finset.filter_ssubset.mpr ⟨b, Finset.mem_range.mpr hb, ?_⟩
    rw [hnone]
    simp
  · intro hlt
    by_contra hnone
    obtain ⟨hpool, hfree⟩ := not_or.mp hnone
    have hall : (Finset.range T.poolSize).filter (fun b => (s.owner b).number.isSome) =
        Finset.range T.poolSize := by
      refine Finset.filter_true_of_mem fun b hb => ?_
      have hlt := Finset.mem_range.mp hb
      cases howner : s.owner b with
      | pool =>
        have hle := (h.owners.pool b).mp howner
        omega
      | freeList =>
        have hmem := (h.owners.freeList b).mp howner
        rw [not_not.mp hfree] at hmem
        cases hmem
      | producer =>
        have hblock := (h.owners.producer b).mp howner
        rw [hq.1] at hblock
        cases hblock
      | segment n => rfl
      | consumer c =>
        have hblock := (h.owners.consumer b c).mp howner
        rw [hq.2 c] at hblock
        cases hblock
    rw [hall, Finset.card_range] at hcard
    omega

/-- The entry for the next segment is free unless all of them are in use. -/
theorem Quiescent.free_iff :
    ((s.blockIndex ((s.blockIndexTail + 1) % T.indexSize)).key = none ∨
      (s.blockIndex ((s.blockIndexTail + 1) % T.indexSize)).value = none) ↔
      s.used T < T.indexSize := by
  have hC := T.indexSize_pos
  have hat := h.atProducer
  rw [hq.1] at hat
  have hslot : (s.blockIndexTail + 1) % T.indexSize = s.segments.length % T.indexSize := by
    rw [hat.2, Nat.mod_add_mod, Nat.sub_add_cancel (by omega), Nat.add_mod_right]
  have hlive := hq.owner_iff h
  rw [hslot, State.used]
  generalize s.headIndex / T.blockSize = first at hlive ⊢
  constructor
  · intro hfree
    refine Nat.lt_of_not_le fun hle => ?_
    obtain ⟨b, hb⟩ := (hlive (s.segments.length - T.indexSize)).mpr ⟨by omega, by omega⟩
    have hentry := h.index.entry b _ hb
    have hmod : (s.segments.length - T.indexSize) % T.indexSize =
        s.segments.length % T.indexSize := (Nat.mod_eq_sub_mod (by omega)).symm
    rw [hmod] at hentry
    rw [hentry] at hfree
    rcases hfree with hkey | hvalue
    · cases hkey
    · cases hvalue
  · intro hlt
    right
    cases hvalue : (s.blockIndex (s.segments.length % T.indexSize)).value with
    | none => rfl
    | some b =>
      obtain ⟨n, hn, hmod⟩ := h.index.value _ _ hvalue
      obtain ⟨hle, hlength⟩ := (hlive n).mp ⟨b, hn⟩
      exact absurd hmod (mod_ne_of_lt hlength (by omega))

end
end ConcurrentQueue
end HVBench
