import HVBench.Library.Transition
import HVBench.Node.HVBenchNode

/-! The liveness check of a node over time. Each FEATURES_REQUEST starts a timer of its
own, and all timers share one `alive` flag. -/
namespace HVBench
namespace HVBenchNode
namespace Liveness
open Transition (Since since_snoc not_since_nil)

/-- An `EVENT_DEAD`, with the last probe before it and whether that was answered. -/
structure Death where
  time : ℕ
  lastProbe : Option ℕ
  replied : Bool
  deriving DecidableEq, Repr

/-- A connection and its timers. Times are in milliseconds. -/
structure State where
  now : ℕ
  version : UInt8
  state : ConnState
  alive : Bool
  /-- When each timer fires next. -/
  timers : List ℕ
  /-- History: the largest number of timers so far, the last probe, whether a reply with
  the xid of the probes has come since, and the events. -/
  peak : ℕ
  lastProbe : Option ℕ
  replied : Bool
  deaths : List Death
  deriving DecidableEq, Repr

def init : State where
  now := 0
  version := 0
  state := .handshake
  alive := true
  timers := []
  peak := 0
  lastProbe := none
  replied := false
  deaths := []

inductive Label
  | message (time : ℕ) (data : OFMessage)
  /-- Timer `i` is the next one due. -/
  | fire (i : ℕ)
  deriving DecidableEq, Repr

/-- `closeStops` says whether `close` ends the timers of the connection, which is up to
libfluid. -/
def perform (closeStops : Bool) (s : State) : Action → State
  | .send (.echoRequest _ _) => { s with lastProbe := some s.now, replied := false }
  | .send _ => s
  | .close => { s with timers := if closeStops then [] else s.timers }
  | .setState state => { s with state := state }
  | .setVersion version => { s with version := version }
  | .setAlive alive => { s with alive := alive }
  | .addTimedCallback interval =>
    { s with
      timers := s.timers ++ [s.now + interval]
      peak := max s.peak (s.timers.length + 1) }
  | .event .dead => { s with deaths := s.deaths ++ [⟨s.now, s.lastProbe, s.replied⟩] }
  | .event _ => s
  | .dispatch => s
  | .freeData => s

variable (closeStops : Bool) (echoXid : EchoXid) (ofsc : OFServerSettings) (datapathId : UInt64)

/-- The message answers a probe. -/
def AnswersProbe (data : OFMessage) : Prop := data.type = Of10.echoReply ∧ data.xid = echoXid

instance (data : OFMessage) : Decidable (AnswersProbe echoXid data) :=
  inferInstanceAs (Decidable (_ ∧ _))

/-- The period of a timer. -/
def period : ℕ := ofsc.echoInterval * 1000

def receive (s : State) (data : OFMessage) : State :=
  (baseMessageCallback echoXid ofsc datapathId data).foldl (perform closeStops) s

def step (s : State) : Label → Option State
  | .message time data =>
    if s.now ≤ time ∧ ∀ due ∈ s.timers, time ≤ due then some
      (receive closeStops echoXid ofsc datapathId
        { s with now := time, replied := s.replied || AnswersProbe echoXid data } data)
    else none
  | .fire i =>
    match s.timers[i]? with
    | none => none
    | some due =>
      if ∀ other ∈ s.timers, due ≤ other then some
        ((sendEcho echoXid s.version s.alive).foldl (perform closeStops)
          { s with now := due, timers := s.timers.set i (due + period ofsc) })
      else none

/-- There is never more than one timer. `EVENT_DEAD` is raised at most once, and only a
full period after a probe that stayed unanswered. -/
def LivenessSound (s : State) : Prop :=
  s.peak ≤ 1 ∧ s.deaths.length ≤ 1 ∧
    ∀ d ∈ s.deaths, d.replied = false ∧
      ∃ probe, d.lastProbe = some probe ∧ probe + period ofsc ≤ d.time

/-- A FEATURES_REQUEST finds no timer, and after an `EVENT_DEAD` no timer finds the
connection still silent. -/
def OneTimer (s : State) : Label → Prop
  | .message _ data => data.type = Of10.featuresRequest → s.timers = []
  | .fire _ => s.deaths ≠ [] → s.alive = true

/-- The event answers a probe. -/
def Label.Answers : Label → Prop
  | .message _ data => AnswersProbe echoXid data
  | .fire _ => False

def Label.IsFire : Label → Prop
  | .message _ _ => False
  | .fire _ => True

def Label.IsFeaturesRequest : Label → Prop
  | .message _ data => data.type = Of10.featuresRequest
  | .fire _ => False

/-- A HELLO with a version the node rejects. -/
def Rejected (data : OFMessage) : Prop :=
  data.type = Of10.hello ∧ rejectsVersion ofsc data.version = true

instance (data : OFMessage) : Decidable (Rejected ofsc data) :=
  inferInstanceAs (Decidable (_ ∧ _))

/-- No probe has been answered since the last firing of a timer. -/
def Unanswered (ls : List Label) : Prop :=
  Since (fun _ l => l.IsFire) (fun _ l => l.Answers echoXid) ls

/-- The event makes the node close the connection. -/
def Closes (before : List Label) : Label → Prop
  | .message _ data => Rejected ofsc data
  | .fire _ => Unanswered echoXid before

/-- A timer has been started and has not been ended by a `close`. -/
def TimerRuns (ls : List Label) : Prop :=
  Since (fun _ l => l.IsFeaturesRequest)
    (fun before l => closeStops = true ∧ Closes echoXid ofsc before l) ls

/-- A timer has found the connection silent. -/
def FoundSilent (ls : List Label) : Prop :=
  Since (fun before l => l.IsFire ∧ Unanswered echoXid before) (fun _ _ => False) ls

/-- Each FEATURES_REQUEST comes when no timer runs, and at most one firing finds that no
probe has been answered since the one before. -/
structure Responsive (ls : List Label) : Prop where
  request : ∀ before l after, ls = before ++ l :: after → l.IsFeaturesRequest →
    ¬TimerRuns closeStops echoXid ofsc before
  fire : ∀ before l after, ls = before ++ l :: after → l.IsFire →
    FoundSilent echoXid before → ¬Unanswered echoXid before

variable {closeStops echoXid ofsc datapathId}

/-- A FEATURES_REQUEST starts a timer. -/
theorem receive_featuresRequest (hh : ofsc.handshake = true) (hl : ofsc.livenessCheck = true)
    (s : State) {data : OFMessage} (ht : data.type = Of10.featuresRequest) :
    receive closeStops echoXid ofsc datapathId s data =
      { s with
        version := data.version
        state := .running
        timers := s.timers ++ [s.now + period ofsc]
        peak := max s.peak (s.timers.length + 1) } := by
  unfold receive
  rw [baseMessageCallback_featuresRequest hh ht, if_pos hl]
  rfl

variable (closeStops echoXid datapathId) in
/-- Of the other messages only a rejected HELLO can end the timers, and only an answer to a
probe touches the flag. -/
theorem receive_other (hh : ofsc.handshake = true) (hl : ofsc.livenessCheck = true) (s : State)
    {data : OFMessage} (ht : data.type ≠ Of10.featuresRequest) :
    ∃ t, receive closeStops echoXid ofsc datapathId s data = t ∧
      t.timers = (if closeStops = true ∧ Rejected ofsc data then [] else s.timers) ∧
      t.alive = (s.alive || decide (AnswersProbe echoXid data)) ∧ t.now = s.now ∧
      t.peak = s.peak ∧ t.lastProbe = s.lastProbe ∧ t.replied = s.replied ∧
      t.deaths = s.deaths := by
  refine ⟨_, rfl, ?_⟩
  have hne : ¬ (ofsc.handshake = true ∧ data.type = Of10.featuresRequest) := fun h => ht h.2
  unfold receive baseMessageCallback finish dispatchDone
  rw [if_neg hne]
  by_cases hanswer : AnswersProbe echoXid data
  · obtain ⟨hreply, hxid⟩ := hanswer
    have hdecide : decide (AnswersProbe echoXid data) = true := by
      simp [AnswersProbe, hreply, hxid]
    have hrejected : ¬Rejected ofsc data := by
      simp [Rejected, hreply, Of10.echoReply, Of10.hello]
    have hstays : ¬(closeStops = true ∧ Rejected ofsc data) := fun h => hrejected h.2
    rw [hdecide, if_neg hstays, hreply, if_neg (by simp [Of10.echoReply, Of10.echoRequest]),
      if_neg (by simp [Of10.echoReply, Of10.hello]), if_pos ⟨hl, rfl⟩, if_pos hxid]
    split_ifs <;> simp [perform]
  · have hdecide : decide (AnswersProbe echoXid data) = false := by simp [hanswer]
    rw [hdecide]
    by_cases hrejected : Rejected ofsc data
    · have hstops : (if closeStops = true ∧ Rejected ofsc data then [] else s.timers) =
          if closeStops then [] else s.timers := by
        simp [hrejected]
      rw [hstops, hrejected.1, if_neg (by simp [Of10.hello, Of10.echoRequest]),
        if_pos ⟨hh, rfl⟩, if_pos hrejected.2]
      unfold rejection
      cases ofsc.dispatchAllMessages <;> simp [perform]
    · have hstays : ¬(closeStops = true ∧ Rejected ofsc data) := fun h => hrejected h.2
      rw [if_neg hstays]
      split_ifs
      all_goals first
        | exact absurd ⟨(by assumption : _ ∧ data.type = Of10.echoReply).2, by assumption⟩ hanswer
        | exact absurd ⟨(by assumption : _ ∧ data.type = Of10.hello).2, by assumption⟩ hrejected
        | simp [perform]

/-- A timer probes a connection that has answered, and declares any other dead. -/
theorem fire_cases {s t : State} {i : ℕ}
    (ht : step closeStops echoXid ofsc datapathId s (.fire i) = some t) :
    ∃ due, s.timers[i]? = some due ∧
      ((s.alive = true ∧ t =
        { s with
          now := due
          timers := s.timers.set i (due + period ofsc)
          alive := false
          lastProbe := some due
          replied := false }) ∨
      (s.alive = false ∧ t =
        { s with
          now := due
          timers := if closeStops then [] else s.timers.set i (due + period ofsc)
          deaths := s.deaths ++ [⟨due, s.lastProbe, s.replied⟩] })) := by
  simp only [step] at ht
  split at ht
  case h_1 => cases ht
  case h_2 due hdue =>
    split_ifs at ht
    have heq := Option.some.inj ht
    subst heq
    refine ⟨due, hdue, ?_⟩
    unfold sendEcho
    cases halive : s.alive with
    | true => exact .inl ⟨rfl, rfl⟩
    | false => exact .inr ⟨rfl, by simp [perform]⟩

variable (ofsc) in
/-- A silent connection has been probed, and no timer is due within a period of the
probe. -/
structure Inv (s : State) : Prop where
  timers : s.timers.length ≤ 1
  sound : LivenessSound ofsc s
  silent : s.alive = false → ∃ probe, s.lastProbe = some probe ∧ probe ≤ s.now ∧
    s.replied = false ∧ ∀ due ∈ s.timers, probe + period ofsc ≤ due

theorem inv_init : Inv ofsc init where
  timers := Nat.zero_le _
  sound := ⟨Nat.zero_le _, Nat.zero_le _, nofun⟩
  silent := nofun

theorem inv_message (hh : ofsc.handshake = true) (hl : ofsc.livenessCheck = true)
    {s t : State} {time : ℕ} {data : OFMessage} (h : Inv ofsc s)
    (hC : OneTimer s (.message time data))
    (ht : step closeStops echoXid ofsc datapathId s (.message time data) = some t) :
    Inv ofsc t := by
  simp only [step] at ht
  split_ifs at ht with hguard
  obtain ⟨hnow, -⟩ := hguard
  have heq := Option.some.inj ht
  subst heq
  by_cases htype : data.type = Of10.featuresRequest
  · have hnone : s.timers = [] := hC htype
    have hanswer : ¬ AnswersProbe echoXid data := by
      intro hreply
      have hne : Of10.featuresRequest = Of10.echoReply := htype.symm.trans hreply.1
      revert hne
      decide
    rw [receive_featuresRequest hh hl _ htype]
    obtain ⟨hpeak, hdeaths⟩ := h.sound
    refine ⟨?_, ⟨?_, hdeaths⟩, fun halive => ?_⟩
    · simp [hnone]
    · simp [hnone, hpeak]
    · obtain ⟨probe, hprobe, hle, hreplied, -⟩ := h.silent halive
      refine ⟨probe, hprobe, ?_, by simp [hreplied, hanswer], ?_⟩
      · dsimp only
        omega
      · intro due hdue
        simp only [hnone, List.nil_append, List.mem_singleton] at hdue
        omega
  · obtain ⟨t, ht, htimers, halive, htnow, hpeak, hprobe, hreplied, hdeaths⟩ :=
      receive_other closeStops echoXid datapathId hh hl
        { s with now := time, replied := s.replied || AnswersProbe echoXid data } htype
    rw [ht]
    dsimp only at htimers halive htnow hpeak hprobe hreplied hdeaths
    replace htimers : t.timers = s.timers ∨ t.timers = [] := by
      rw [htimers]
      split_ifs
      · exact .inr rfl
      · exact .inl rfl
    refine ⟨?_, ?_, fun hsilent => ?_⟩
    · rcases htimers with hsame | hnil
      · rw [hsame]
        exact h.timers
      · rw [hnil]
        exact Nat.zero_le _
    · unfold LivenessSound
      rw [hpeak, hdeaths]
      exact h.sound
    · rw [halive, Bool.or_eq_false_iff] at hsilent
      obtain ⟨probe, hp, hle, hr, hdue⟩ := h.silent hsilent.1
      refine ⟨probe, hprobe.trans hp, ?_, ?_, fun due hin => ?_⟩
      · rw [htnow]
        omega
      · rw [hreplied, hr, hsilent.2]
        rfl
      · rcases htimers with hsame | hnil
        · rw [hsame] at hin
          exact hdue due hin
        · rw [hnil] at hin
          cases hin

/-- The timer that fires is the only one. -/
theorem timers_set {s : State} (h : s.timers.length ≤ 1) {i due : ℕ}
    (hdue : s.timers[i]? = some due) (next : ℕ) :
    s.timers = [due] ∧ s.timers.set i next = [next] := by
  obtain ⟨hlt, hget⟩ := List.getElem?_eq_some_iff.mp hdue
  have hone : s.timers.length = 1 := by omega
  obtain ⟨a, ha⟩ := List.length_eq_one_iff.mp hone
  have hi : i = 0 := by omega
  subst hi
  rw [ha] at hdue ⊢
  obtain rfl : a = due := Option.some.inj hdue
  exact ⟨rfl, rfl⟩

theorem inv_fire {s t : State} {i : ℕ} (h : Inv ofsc s) (hC : OneTimer s (.fire i))
    (ht : step closeStops echoXid ofsc datapathId s (.fire i) = some t) : Inv ofsc t := by
  obtain ⟨due, hdue, hcase⟩ := fire_cases ht
  obtain ⟨htimers, hset⟩ := timers_set h.timers hdue (due + period ofsc)
  obtain ⟨hpeak, hcount, hdeaths⟩ := h.sound
  rw [hset] at hcase
  rcases hcase with ⟨-, rfl⟩ | ⟨hsilent, rfl⟩
  · refine ⟨Nat.le_refl _, ⟨hpeak, hcount, hdeaths⟩, fun _ => ⟨due, rfl, Nat.le_refl _, rfl, ?_⟩⟩
    intro next hnext
    exact Nat.le_of_eq (List.mem_singleton.mp hnext).symm
  · obtain ⟨probe, hprobe, hle, hreplied, hdues⟩ := h.silent hsilent
    have hperiod : probe + period ofsc ≤ due := hdues due (by rw [htimers]; simp)
    have hnone : s.deaths = [] := by
      by_contra hne
      rw [hC hne] at hsilent
      cases hsilent
    refine ⟨?_, ⟨hpeak, by simp [hnone], fun d hd => ?_⟩, fun _ => ?_⟩
    · cases closeStops <;> simp
    · rw [hnone, List.nil_append, List.mem_singleton] at hd
      subst hd
      exact ⟨hreplied, probe, hprobe, hperiod⟩
    · refine ⟨probe, hprobe, ?_, hreplied, fun next hnext => ?_⟩
      · dsimp only
        omega
      · cases closeStops with
        | true => cases hnext
        | false =>
          rw [if_neg Bool.false_ne_true, List.mem_singleton] at hnext
          omega

/-- More than one timer, or more than one `EVENT_DEAD`. -/
def Repeated (s : State) : Prop := 2 ≤ s.peak ∨ 2 ≤ s.deaths.length

/-- A second timer and a second `EVENT_DEAD` stay in the history. -/
theorem history_grows (hh : ofsc.handshake = true) (hl : ofsc.livenessCheck = true)
    {s t : State} {l : Label} (ht : step closeStops echoXid ofsc datapathId s l = some t) :
    s.peak ≤ t.peak ∧ s.deaths.length ≤ t.deaths.length := by
  cases l with
  | message time data =>
    simp only [step] at ht
    split_ifs at ht
    have heq := Option.some.inj ht
    subst heq
    by_cases htype : data.type = Of10.featuresRequest
    · rw [receive_featuresRequest hh hl _ htype]
      exact ⟨Nat.le_max_left _ _, Nat.le_refl _⟩
    · obtain ⟨t, ht, -, -, -, hpeak, -, -, hdeaths⟩ :=
        receive_other closeStops echoXid datapathId hh hl
          { s with now := time, replied := s.replied || AnswersProbe echoXid data } htype
      rw [ht, hpeak, hdeaths]
      exact ⟨Nat.le_refl _, Nat.le_refl _⟩
  | fire i =>
    obtain ⟨due, -, ⟨-, rfl⟩ | ⟨-, rfl⟩⟩ := fire_cases ht
    · exact ⟨Nat.le_refl _, Nat.le_refl _⟩
    · refine ⟨Nat.le_refl _, ?_⟩
      rw [List.length_append]
      exact Nat.le_add_right _ _

theorem repeated_of_not_oneTimer (hh : ofsc.handshake = true) (hl : ofsc.livenessCheck = true)
    {s t : State} {l : Label} (hC : ¬ OneTimer s l)
    (ht : step closeStops echoXid ofsc datapathId s l = some t) : Repeated t := by
  cases l with
  | message time data =>
    unfold OneTimer at hC
    simp only [Classical.not_imp] at hC
    obtain ⟨htype, htimers⟩ := hC
    have hpos := List.length_pos_iff.mpr htimers
    simp only [step] at ht
    split_ifs at ht
    have heq := Option.some.inj ht
    subst heq
    rw [receive_featuresRequest hh hl _ htype]
    left
    dsimp only
    omega
  | fire i =>
    unfold OneTimer at hC
    simp only [Classical.not_imp] at hC
    obtain ⟨hdeaths, hsilent⟩ := hC
    have hpos := List.length_pos_iff.mpr hdeaths
    obtain ⟨due, -, ⟨halive, -⟩ | ⟨-, rfl⟩⟩ := fire_cases ht
    · exact absurd halive hsilent
    · right
      rw [List.length_append, List.length_singleton]
      omega

section Histories
variable {ls : List Label} {time i : ℕ} {data : OFMessage}

theorem unanswered_message : Unanswered echoXid (ls ++ [.message time data]) ↔
    Unanswered echoXid ls ∧ ¬AnswersProbe echoXid data :=
  since_snoc.trans (or_iff_right id)

theorem unanswered_fire : Unanswered echoXid (ls ++ [.fire i]) := since_snoc.mpr (.inl trivial)

theorem timerRuns_featuresRequest (h : data.type = Of10.featuresRequest) :
    TimerRuns closeStops echoXid ofsc (ls ++ [.message time data]) := since_snoc.mpr (.inl h)

theorem timerRuns_snoc {l : Label} (h : ¬l.IsFeaturesRequest) :
    TimerRuns closeStops echoXid ofsc (ls ++ [l]) ↔
      TimerRuns closeStops echoXid ofsc ls ∧ ¬(closeStops = true ∧ Closes echoXid ofsc ls l) :=
  since_snoc.trans (or_iff_right h)

theorem foundSilent_message :
    FoundSilent echoXid (ls ++ [.message time data]) ↔ FoundSilent echoXid ls :=
  since_snoc.trans ((or_iff_right And.left).trans (and_iff_left id))

theorem foundSilent_fire : FoundSilent echoXid (ls ++ [.fire i]) ↔
    Unanswered echoXid ls ∨ FoundSilent echoXid ls :=
  since_snoc.trans (or_congr (and_iff_right trivial) (and_iff_left id))

/-- One event more. -/
theorem Responsive.snoc {l : Label} (h : Responsive closeStops echoXid ofsc ls)
    (hrequest : l.IsFeaturesRequest → ¬TimerRuns closeStops echoXid ofsc ls)
    (hfire : l.IsFire → FoundSilent echoXid ls → ¬Unanswered echoXid ls) :
    Responsive closeStops echoXid ofsc (ls ++ [l]) := by
  refine ⟨fun before x after hls => ?_, fun before x after hls => ?_⟩
  · rcases Transition.snoc_eq_split hls with ⟨rfl, rfl, -⟩ | ⟨after', -, hls'⟩
    · exact hrequest
    · exact h.request before x after' hls'
  · rcases Transition.snoc_eq_split hls with ⟨rfl, rfl, -⟩ | ⟨after', -, hls'⟩
    · exact hfire
    · exact h.fire before x after' hls'

end Histories

/-- The flag, the timers and the events, in terms of the messages and firings. -/
structure History (closeStops : Bool) (echoXid : EchoXid) (ofsc : OFServerSettings)
    (ls : List Label) (s : State) : Prop where
  alive : s.alive = false ↔ Unanswered echoXid ls
  timers : s.timers ≠ [] ↔ TimerRuns closeStops echoXid ofsc ls
  deaths : s.deaths ≠ [] ↔ FoundSilent echoXid ls

theorem history_init : History closeStops echoXid ofsc [] init where
  alive := iff_of_false (by simp [init]) not_since_nil
  timers := iff_of_false (fun h => h rfl) not_since_nil
  deaths := iff_of_false (fun h => h rfl) not_since_nil

theorem history_message (hh : ofsc.handshake = true) (hl : ofsc.livenessCheck = true)
    {ls : List Label} {s t : State} {time : ℕ} {data : OFMessage}
    (h : History closeStops echoXid ofsc ls s)
    (ht : step closeStops echoXid ofsc datapathId s (.message time data) = some t) :
    History closeStops echoXid ofsc (ls ++ [.message time data]) t := by
  simp only [step] at ht
  split_ifs at ht
  have heq := Option.some.inj ht
  subst heq
  by_cases htype : data.type = Of10.featuresRequest
  · have hanswer : ¬AnswersProbe echoXid data := by
      simp [AnswersProbe, htype, Of10.featuresRequest, Of10.echoReply]
    rw [receive_featuresRequest hh hl _ htype]
    refine ⟨?_, iff_of_true (by simp) (timerRuns_featuresRequest htype), ?_⟩
    · rw [unanswered_message, and_iff_left hanswer]
      exact h.alive
    · rw [foundSilent_message]
      exact h.deaths
  · obtain ⟨t, ht, htimers, halive, -, -, -, -, hdeaths⟩ :=
      receive_other closeStops echoXid datapathId hh hl
        { s with now := time, replied := s.replied || AnswersProbe echoXid data } htype
    rw [ht]
    dsimp only at htimers halive hdeaths
    refine ⟨?_, ?_, ?_⟩
    · rw [unanswered_message, halive, Bool.or_eq_false_iff, h.alive, decide_eq_false_iff_not]
    · have hother : ¬(Label.message time data).IsFeaturesRequest := htype
      rw [timerRuns_snoc hother, htimers]
      unfold Closes
      split_ifs with hends
      · exact iff_of_false (fun hne => hne rfl) fun hruns => hruns.2 hends
      · rw [h.timers, and_iff_left hends]
    · rw [foundSilent_message, hdeaths]
      exact h.deaths

theorem history_fire {ls : List Label} {s t : State} {i : ℕ}
    (h : History closeStops echoXid ofsc ls s)
    (ht : step closeStops echoXid ofsc datapathId s (.fire i) = some t) :
    History closeStops echoXid ofsc (ls ++ [.fire i]) t := by
  obtain ⟨due, hdue, hcase⟩ := fire_cases ht
  have hne : s.timers ≠ [] := fun hnil => by simp [hnil] at hdue
  have hset : s.timers.set i (due + period ofsc) ≠ [] := by simpa using hne
  have hruns := h.timers.mp hne
  rcases hcase with ⟨halive, rfl⟩ | ⟨hsilent, rfl⟩
  · have hanswered : ¬Unanswered echoXid ls := by
      rw [← h.alive, halive]
      simp
    refine ⟨iff_of_true rfl unanswered_fire, iff_of_true hset ?_, ?_⟩
    · exact (timerRuns_snoc id).mpr ⟨hruns, fun hends => hanswered hends.2⟩
    · rw [foundSilent_fire, or_iff_right hanswered]
      exact h.deaths
  · have hun := h.alive.mp hsilent
    refine ⟨iff_of_true hsilent unanswered_fire, ?_, ?_⟩
    · rw [timerRuns_snoc id]
      cases closeStops with
      | true => exact iff_of_false (fun hne => hne rfl) fun hruns => hruns.2 ⟨rfl, hun⟩
      | false => exact iff_of_true hset ⟨hruns, fun hends => Bool.false_ne_true hends.1⟩
    · exact iff_of_true (by simp) (foundSilent_fire.mpr (.inl hun))

theorem history_exec (hh : ofsc.handshake = true) (hl : ofsc.livenessCheck = true)
    {ls : List Label} {s : State}
    (h : Transition.exec (step closeStops echoXid ofsc datapathId) init ls = some s) :
    History closeStops echoXid ofsc ls s := by
  induction ls using List.reverseRecOn generalizing s with
  | nil =>
    obtain rfl := Option.some.inj h
    exact history_init
  | append_singleton ls l ih =>
    obtain ⟨u, hu, ht⟩ := Transition.exec_snoc.mp h
    cases l with
    | message time data => exact history_message hh hl (ih hu) ht
    | fire i => exact history_fire (ih hu) ht

/-- What a step has to meet in its state is what the events before say. -/
theorem oneTimer_iff {before : List Label} {s : State} {l : Label}
    (h : History closeStops echoXid ofsc before s) :
    OneTimer s l ↔
      (l.IsFeaturesRequest → ¬TimerRuns closeStops echoXid ofsc before) ∧
      (l.IsFire → FoundSilent echoXid before → ¬Unanswered echoXid before) := by
  cases l with
  | message time data =>
    simp only [OneTimer, Label.IsFeaturesRequest, Label.IsFire, false_imp_iff, and_true]
    rw [← h.timers, not_not]
  | fire i =>
    simp only [OneTimer, Label.IsFeaturesRequest, Label.IsFire, false_imp_iff, true_and,
      true_imp_iff]
    rw [← h.deaths, ← h.alive, Bool.not_eq_false]

theorem meets_oneTimer_iff (hh : ofsc.handshake = true) (hl : ofsc.livenessCheck = true)
    {ls : List Label} {s : State}
    (h : Transition.exec (step closeStops echoXid ofsc datapathId) init ls = some s) :
    Transition.Meets (step closeStops echoXid ofsc datapathId) OneTimer init ls ↔
      Responsive closeStops echoXid ofsc ls := by
  have hexec : ∀ before l after, ls = before ++ l :: after → ∃ t,
      Transition.exec (step closeStops echoXid ofsc datapathId) init before = some t := by
    intro before l after hls
    rw [hls] at h
    obtain ⟨t, ht, -⟩ := Transition.exec_append.mp h
    exact ⟨t, ht⟩
  rw [Transition.meets_iff_split]
  constructor
  · intro hmeets
    refine ⟨fun before l after hls => ?_, fun before l after hls => ?_⟩
    all_goals
      obtain ⟨t, ht⟩ := hexec before l after hls
      have hone := (oneTimer_iff (history_exec hh hl ht)).mp (hmeets before l after t hls ht)
    · exact hone.1
    · exact hone.2
  · intro hresponsive before l after t hls ht
    exact (oneTimer_iff (history_exec hh hl ht)).mpr
      ⟨hresponsive.request before l after hls, hresponsive.fire before l after hls⟩

/-- The liveness check is sound exactly if each FEATURES_REQUEST comes when no timer runs, and
at most one firing finds the connection silent. -/
theorem livenessSound_iff (closeStops : Bool) (echoXid : EchoXid) (ofsc : OFServerSettings)
    (datapathId : UInt64) (hh : ofsc.handshake = true) (hl : ofsc.livenessCheck = true)
    (ls : List Label) (s : State)
    (h : Transition.exec (step closeStops echoXid ofsc datapathId) init ls = some s) :
    LivenessSound ofsc s ↔ Responsive closeStops echoXid ofsc ls := by
  rw [← meets_oneTimer_iff hh hl h]
  have hinv : ∀ (s t : State) (l : Label), Inv ofsc s → OneTimer s l →
      step closeStops echoXid ofsc datapathId s l = some t → Inv ofsc t := by
    intro s t l hs hC ht
    cases l with
    | message time data => exact inv_message hh hl hs hC ht
    | fire i => exact inv_fire hs hC ht
  constructor
  · intro hsound
    refine Transition.meets_of_exec (I := Inv ofsc) (D := Repeated) (U := fun _ _ => True)
      (fun s l t hs _ hC ht => hinv s t l hs hC ht)
      (fun s l t _ _ hC ht => repeated_of_not_oneTimer hh hl hC ht) ?_ inv_init
      (Transition.meets_of_forall fun _ _ => trivial) h ?_
    · intro s l t hs ht
      obtain ⟨hpeak, hcount⟩ := history_grows hh hl ht
      exact hs.imp (fun hp => Nat.le_trans hp hpeak) fun hd => Nat.le_trans hd hcount
    · intro hrepeated
      have hpeak := hsound.1
      have hcount := hsound.2.1
      unfold Repeated at hrepeated
      omega
  · intro hC
    have hend : Inv ofsc s :=
      Transition.exec_invariant_of_meets (fun s l t hs hC ht => hinv s t l hs hC ht) inv_init hC h
    exact hend.sound

def settings : OFServerSettings := ⟨1, true, true, false, 15⟩

def features (time : ℕ) : Label := .message time ⟨1, Of10.featuresRequest, 1, []⟩

/-- One FEATURES_REQUEST, a probe, an answer and another probe. -/
def answered : List Label :=
  [features 0, .fire 0, .message 15001 ⟨1, Of10.echoReply, 15, []⟩, .fire 0]

theorem responsive_answered (closeStops : Bool) : Responsive closeStops 15 settings answered := by
  have hfirst : FoundSilent 15 ([] ++ [features 0]) ↔ FoundSilent 15 [] := foundSilent_message
  have hstart : ¬FoundSilent 15 [features 0] := fun h => not_since_nil (hfirst.mp h)
  have hunprobed : ¬Unanswered 15 ([] ++ [features 0]) := fun h =>
    not_since_nil (unanswered_message.mp h).1
  have hthird : FoundSilent 15 ([features 0, .fire 0] ++
      [.message 15001 ⟨1, Of10.echoReply, 15, []⟩]) ↔ FoundSilent 15 ([features 0] ++ [.fire 0]) :=
    foundSilent_message
  have hanswered : ¬FoundSilent 15 (answered.take 3) := fun h =>
    (foundSilent_fire.mp (hthird.mp h)).elim hunprobed hstart
  have htype : Of10.echoReply ≠ Of10.featuresRequest := by decide
  have hnil : Responsive closeStops 15 settings [] := ⟨by simp, by simp⟩
  have hrequest := hnil.snoc (l := features 0) (fun _ => not_since_nil) nofun
  have hprobe := hrequest.snoc (l := .fire 0) nofun fun _ h => absurd h hstart
  have hreply := hprobe.snoc (l := .message 15001 ⟨1, Of10.echoReply, 15, []⟩)
    (fun h => absurd h htype) nofun
  exact hreply.snoc (l := .fire 0) nofun fun _ h => absurd h hanswered

theorem oneTimer_answered : ∃ s,
    Transition.exec (step false 15 settings 7) init answered = some s ∧ s.lastProbe = some 30000 ∧
      LivenessSound settings s :=
  ⟨_, rfl, rfl, (livenessSound_iff false 15 settings 7 rfl rfl answered _ rfl).mpr
    (responsive_answered false)⟩

/-- The second of two timers finds a probe unanswered that is a millisecond old. -/
theorem second_timer_kills :
    ¬ ∀ (closeStops : Bool) (echoXid : EchoXid) (ofsc : OFServerSettings) (datapathId : UInt64),
      ofsc.handshake = true → ofsc.livenessCheck = true → ∀ ls s,
        Transition.exec (step closeStops echoXid ofsc datapathId) init ls = some s →
          LivenessSound ofsc s := by
  intro hall
  have hsound := hall true 15 settings 7 rfl rfl [features 0, features 1, .fire 0, .fire 1] _ rfl
  obtain ⟨-, -, hdeaths⟩ := hsound
  obtain ⟨-, probe, hprobe, hperiod⟩ := hdeaths ⟨15001, some 15000, false⟩ (by decide)
  obtain rfl : 15000 = probe := Option.some.inj hprobe
  revert hperiod
  decide

end Liveness
end HVBenchNode
end HVBench
