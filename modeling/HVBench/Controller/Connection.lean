import Mathlib.Data.List.Induction
import Mathlib.Tactic.Common

/-! The connection events a controller is told of, and the connection its messages go to. -/
namespace HVBench

/-- `OFConnection::Event`. -/
inductive Event
  | started
  | established
  | failedNegotiation
  | closed
  | dead
  deriving DecidableEq, Repr

/-- The connection an `OFConnWrapper` wraps, and its datapath. -/
structure OFConnWrapper where
  conn : ℕ
  dp : ℕ
  deriving DecidableEq, Repr

namespace Connection

structure State where
  switchUp : Bool
  conn : Option OFConnWrapper
  deriving DecidableEq, Repr

def init : State where
  switchUp := false
  conn := none

/-- `connection_callback`, when nothing runs in between. -/
def connectionCallback (s : State) (ofconn : ℕ) : Event → State
  | .started => s
  | .established =>
    if !s.switchUp then { s with switchUp := true, conn := some ⟨ofconn, 0⟩ } else s
  | .failedNegotiation => s
  | .closed => s
  | .dead => s

def run (history : List (ℕ × Event)) : State :=
  history.foldl (fun s e => connectionCallback s e.1 e.2) init

/-- What an event says about whether its connection is up. -/
def liveAfter (before : Bool) : Event → Bool
  | .started => before
  | .established => true
  | .failedNegotiation => before
  | .closed => false
  | .dead => false

/-- Connection `n` has been established and not since been closed or dead. -/
def isLive (n : ℕ) (history : List (ℕ × Event)) : Bool :=
  history.foldl (fun live e => if e.1 = n then liveAfter live e.2 else live) false

def firstEstablished (history : List (ℕ × Event)) : Option ℕ :=
  (history.find? fun e => e.2 = .established).map Prod.fst

/-- Some connection is up, so the messages go to one that is. -/
def FollowsLive (history : List (ℕ × Event)) : Prop :=
  (∃ n, isLive n history = true) →
    ∃ w, (run history).conn = some w ∧ isLive w.conn history = true

@[simp] theorem run_nil : run [] = init := rfl

theorem run_append (history later : List (ℕ × Event)) :
    run (history ++ later) =
      later.foldl (fun s e => connectionCallback s e.1 e.2) (run history) := by
  unfold run
  rw [List.foldl_append]

theorem run_snoc (history : List (ℕ × Event)) (e : ℕ × Event) :
    run (history ++ [e]) = connectionCallback (run history) e.1 e.2 := by
  rw [run_append]
  rfl

/-- Of all events only the first `EVENT_ESTABLISHED` has an effect. -/
theorem connectionCallback_cases (s : State) (n : ℕ) (e : Event) :
    (e = .established ∧ s.switchUp = false ∧
      connectionCallback s n e = ⟨true, some ⟨n, 0⟩⟩) ∨
    ((e ≠ .established ∨ s.switchUp = true) ∧ connectionCallback s n e = s) := by
  cases e with
  | established =>
    cases hup : s.switchUp with
    | false => exact .inl ⟨rfl, rfl, by simp [connectionCallback, hup]⟩
    | true => exact .inr ⟨.inr rfl, by simp [connectionCallback, hup]⟩
  | started => exact .inr ⟨.inl (by simp), rfl⟩
  | failedNegotiation => exact .inr ⟨.inl (by simp), rfl⟩
  | closed => exact .inr ⟨.inl (by simp), rfl⟩
  | dead => exact .inr ⟨.inl (by simp), rfl⟩

theorem firstEstablished_snoc (history : List (ℕ × Event)) (n : ℕ) (e : Event) :
    firstEstablished (history ++ [(n, e)]) =
      (firstEstablished history).or (if e = .established then some n else none) := by
  unfold firstEstablished
  rw [List.find?_append]
  by_cases he : e = .established
  · cases history.find? fun e => e.2 = .established <;> simp [he]
  · cases history.find? fun e => e.2 = .established <;> simp [he]

/-- `switch_up` and `conn` are set together, by the first established connection. -/
theorem run_conn (history : List (ℕ × Event)) :
    (run history).switchUp = (run history).conn.isSome ∧
      (run history).conn = (firstEstablished history).map (⟨·, 0⟩) := by
  induction history using List.reverseRecOn with
  | nil => exact ⟨rfl, rfl⟩
  | append_singleton history e ih =>
    obtain ⟨n, e⟩ := e
    obtain ⟨hup, hconn⟩ := ih
    rw [run_snoc, firstEstablished_snoc]
    rcases connectionCallback_cases (run history) n e with ⟨rfl, hdown, hcall⟩ | ⟨hkeep, hcall⟩
    · have hnone : firstEstablished history = none := by
        rw [hdown, hconn] at hup
        simpa using hup.symm
      rw [hcall, hnone]
      exact ⟨rfl, rfl⟩
    · rw [hcall]
      refine ⟨hup, ?_⟩
      rcases hkeep with hne | hset
      · rw [hconn, if_neg hne, Option.or_none]
      · rw [hset, hconn] at hup
        obtain ⟨m, hm⟩ : ∃ m, firstEstablished history = some m :=
          Option.isSome_iff_exists.mp (by simpa using hup.symm)
        rw [hconn, hm, Option.some_or]

/-- Once bound, the connection stays. -/
theorem conn_append {history : List (ℕ × Event)} {w : OFConnWrapper}
    (h : (run history).conn = some w) (later : List (ℕ × Event)) :
    (run (history ++ later)).conn = some w := by
  have hfirst := (run_conn history).2.symm.trans h
  obtain ⟨n, hn, rfl⟩ := Option.map_eq_some_iff.mp hfirst
  have hlater : firstEstablished (history ++ later) = some n := by
    unfold firstEstablished at hn ⊢
    obtain ⟨e, he, rfl⟩ := Option.map_eq_some_iff.mp hn
    rw [List.find?_append, he]
    rfl
  rw [(run_conn _).2, hlater]
  rfl

/-- The messages go to the connection that was established first, whatever happens to it
later. They go to one that is up as long as that one is. -/
theorem conn_eq_firstEstablished (history : List (ℕ × Event)) :
    (run history).switchUp = (run history).conn.isSome ∧
    (run history).conn.map OFConnWrapper.conn = firstEstablished history ∧
    (∀ later w, (run history).conn = some w → (run (history ++ later)).conn = some w) ∧
    (FollowsLive history ↔ (∀ n, isLive n history = false) ∨
      ∃ n, firstEstablished history = some n ∧ isLive n history = true) := by
  obtain ⟨hup, hconn⟩ := run_conn history
  refine ⟨hup, ?_, fun later w h => conn_append h later, ?_⟩
  · rw [hconn]
    cases firstEstablished history <;> rfl
  · have hwrap : (∃ w, (run history).conn = some w ∧ isLive w.conn history = true) ↔
        ∃ n, firstEstablished history = some n ∧ isLive n history = true := by
      rw [hconn]
      constructor
      · rintro ⟨w, hw, hlive⟩
        obtain ⟨n, hn, rfl⟩ := Option.map_eq_some_iff.mp hw
        exact ⟨n, hn, hlive⟩
      · rintro ⟨n, hn, hlive⟩
        exact ⟨⟨n, 0⟩, by rw [hn, Option.map_some], hlive⟩
    unfold FollowsLive
    rw [hwrap]
    constructor
    · intro hfollows
      by_cases hany : ∃ n, isLive n history = true
      · exact .inr (hfollows hany)
      · exact .inl fun n => by simpa using fun hn => hany ⟨n, hn⟩
    · rintro (hnone | hfirst) ⟨n, hn⟩
      · rw [hnone n] at hn
        cases hn
      · exact hfirst

/-- A switch that reconnects is ignored. -/
theorem reconnect_ignored : ¬ ∀ history, FollowsLive history := by
  intro h
  obtain ⟨w, hw, hlive⟩ := h [(1, .established), (1, .closed), (2, .established)] ⟨2, by decide⟩
  obtain rfl : (⟨1, 0⟩ : OFConnWrapper) = w := Option.some.inj hw
  revert hlive
  decide

end Connection
end HVBench
