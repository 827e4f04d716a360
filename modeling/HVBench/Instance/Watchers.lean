import HVBench.Etcd.Recovery
import HVBench.Instance.Events

/-! The handlers as callbacks of the watches, and what they make of a recovery. -/
namespace HVBench
namespace Instance
open Etcd StdString Recovery Transition

/-- The name of the entry a reply is about, by its first key. -/
def entryName (r : RapidReply) : StdString :=
  match r.getAll with
  | some ((key, _) :: _) => back key
  | _ => []

/-- The callback of `_watch`, where `start` is how `Node::start` ends for each node. -/
def watchCallback (instanceId : ℕ) (start : StdString → Option Thrown) (s : Instance)
    (r : RapidReply) : HandlerResult Instance :=
  onChange instanceId s r (start (entryName r))

/-- The callback of `_watchTenantConf`, with the updates it has passed to generators. -/
def tenantConfCallback (tenants : StdString → Bool)
    (updates : List (StdString × StdString × StdString)) (r : RapidReply) :
    HandlerResult (List (StdString × StdString × StdString)) :=
  match r.getAll with
  | none => .aborted
  | some pairs =>
    match onChangeTenantConf tenants pairs with
    | .error _ => .threw updates .exception
    | .ok update => .returned (updates ++ update.toList)

/-- A recovery that ran a callback without effect has none on its state. -/
theorem recover_state {σ : Type*} {callback : σ → RapidReply → HandlerResult σ} {w : Watch}
    {s : σ} {header : List StdString} {r : RapidReply} {y : Watch × σ}
    (hs : callback s r = .returned s)
    (h : (recover callback w s header (.ok r)).state = some y) : y.2 = s := by
  unfold recover at h
  dsimp only at h
  rw [hs] at h
  dsimp only at h
  cases hi : readIndex w.prevIndex header with
  | none =>
    rw [hi] at h
    have heq : (w, s) = y := Option.some.inj h
    rw [← heq]
  | some i =>
    rw [hi] at h
    have heq : (⟨i, waitUrl i false, w.maxFailures⟩, s) = y := Option.some.inj h
    rw [← heq]

/-- The instance ignores what a recovery reads: its action is not SET. -/
theorem recovery_ignored {id : ℕ} {start : StdString → Option Thrown} {w : Watch}
    {s : Instance} {header : List StdString} {r : RapidReply} {y : Watch × Instance}
    (hr : r.getAction ≠ .set)
    (h : (recover (watchCallback id start) w s header (.ok r)).state = some y) : y.2 = s := by
  have hs : watchCallback id start s r = .returned s := by
    unfold watchCallback onChange
    rw [if_pos hr]
  exact recover_state hs h

/-- A directory as a GET that is not recursive lists it: without its own entries. -/
def listed (key : StdString) (i : ℕ) : Node := .mk (some key) none true [] (some i)

theorem getAllNodes_listed (dirs : List (StdString × ℕ)) (pairs : KvPairs) :
    Node.getAllNodes (dirs.map fun d => listed d.1 d.2) pairs = pairs := by
  induction dirs with
  | nil => rfl
  | cons d dirs ih =>
    have hd : Node.getAll (listed d.1 d.2) pairs = pairs := by
      unfold listed Node.getAll
      rw [if_pos rfl]
      rfl
    rw [List.map_cons, Node.getAllNodes, hd, ih]

/-- A recovery of the tenant configuration reads the directories of the tenants and
applies none of their values. -/
theorem tenant_recovery_applies_nothing {tenants : StdString → Bool} {w : Watch}
    {updates : List (StdString × StdString × StdString)} {header : List StdString}
    {r : RapidReply} {key : StdString} {dirs : List (StdString × ℕ)} {i : ℕ}
    {y : Watch × List (StdString × StdString × StdString)}
    (hr : r.node = some (.mk (some key) none true (dirs.map fun d => listed d.1 d.2) (some i)))
    (h : (recover (tenantConfCallback tenants) w updates header (.ok r)).state = some y) :
    y.2 = updates := by
  have hall : r.getAll = some [] := by
    unfold RapidReply.getAll
    rw [hr, Option.map_some, Node.getAll, if_pos rfl, getAllNodes_listed]
  have hs : tenantConfCallback tenants updates r = .returned updates := by
    unfold tenantConfCallback
    rw [hall]
    change HandlerResult.returned (updates ++ []) = .returned updates
    rw [List.append_nil]
  exact recover_state hs h

/-- An ignored entry, the last change that instance 1 sees before its watch falls behind. -/
def lastSeen : RapidReply :=
  .change "set".toList "/hvbench/instances/1/a".toList "ignore".toList 5

/-- The tenant `t1` is added while the watch is behind. -/
def missedTenant : RapidReply :=
  .change "set".toList "/hvbench/instances/1/t1".toList "tenant".toList 7

/-- The directory of the instance when etcd has reached index 1010. -/
def outdatedAnswers : Answers where
  watch := .error (.replyException 401)
  get := .ok ⟨some "get".toList, some (.mk (some "/hvbench/instances/1".toList) none true
    [.mk (some "/hvbench/instances/1/a".toList) (some "ignore".toList) false [] (some 5),
      .mk (some "/hvbench/instances/1/t1".toList) (some "tenant".toList) false [] (some 7)]
    (some 3))⟩
  header := ["HTTP/1.1 200 OK\r".toList, "X-Etcd-Index: 1010\r".toList]

def behindRun : List Answers := [⟨.ok lastSeen, .error .exception, []⟩, outdatedAnswers]

/-- `t1` is registered. -/
def HasT1 (s : Instance) (_ : RapidReply) : Prop := "t1".toList ∈ s.tenants

theorem headerIndex_outdatedAnswers : HeaderIndex outdatedAnswers.header 1010 :=
  ⟨["HTTP/1.1 200 OK\r".toList], [], by decide, by decide⟩

/-- The tenant that was added in between is never created, though the watch has caught up. -/
theorem missed_tenant_lost :
    ¬ LosesNoChange (watchCallback 1 fun _ => none) [lastSeen, missedTenant] HasT1
      (.start 0 0 true, create) behindRun := by
  intro h
  have hlost := (h [⟨.ok lastSeen, .error .exception, []⟩] outdatedAnswers []
    (⟨5, waitUrl 5 true, 5⟩, create) (⟨1010, waitUrl 1010 false, 4⟩, create)
    (⟨1010, waitUrl 1010 false, 4⟩, create) 1010 rfl (by decide) rfl headerIndex_outdatedAnswers
    (by decide) rfl).2.2
  have hcaught : CaughtUp [lastSeen, missedTenant] ⟨1010, waitUrl 1010 false, 4⟩ := by
    refine ⟨by decide, ?_⟩
    intro r hr i hi
    simp only [List.mem_cons, List.not_mem_nil, or_false] at hr
    rcases hr with rfl | rfl <;> cases hi <;> decide
  have hmem := hlost hcaught missedTenant (by simp) ⟨7, rfl, by decide, by decide⟩
  revert hmem
  unfold HasT1
  decide

/-- A request that fails, but not for its index. -/
def failedRequest : Answers := ⟨.error .exception, .error .exception, []⟩

def lastFailure : List Answers :=
  [failedRequest, failedRequest, failedRequest, failedRequest, outdatedAnswers]

/-- Where the index is out of date after four failures, the watch ends and does not go on without
the change. -/
theorem losesNoChange_iff_lastFailure :
    LosesNoChange (watchCallback 1 fun _ => none) [lastSeen, missedTenant] HasT1
      (.start 0 0 true, create) lastFailure := by
  have hfailed : ∀ x : Watch × Instance, ¬ Outdated failedRequest →
      AnswersCorrectly x failedRequest ∧ GivesUp x failedRequest :=
    fun x h => ⟨fun ha => absurd ha h, fun ha => absurd ha h⟩
  have hcurrent : ¬ Outdated failedRequest := fun h => by cases h
  obtain ⟨v, hrun, hmeets, -⟩ : ∃ v, exec (iterate (watchCallback 1 fun _ => none) true)
      (.start 0 0 true, create) lastFailure = some v ∧
      Meets (iterate (watchCallback 1 fun _ => none) true)
        (fun x a => AnswersCorrectly x a ∧ GivesUp x a) (.start 0 0 true, create) lastFailure ∧
      True := by
    refine exists_exec_cons rfl (hfailed _ hcurrent) ?_
    refine exists_exec_cons rfl (hfailed _ hcurrent) ?_
    refine exists_exec_cons rfl (hfailed _ hcurrent) ?_
    refine exists_exec_cons rfl (hfailed _ hcurrent) ?_
    refine exists_exec_cons rfl ⟨fun _ => ⟨1010, headerIndex_outdatedAnswers, ?_⟩, fun _ => rfl⟩ ?_
    · decide
    · exact ⟨_, rfl, trivial, trivial⟩
  exact (losesNoChange_iff _ _ hrun (hmeets.mono fun _ _ h => h.1)).mpr
    (hmeets.mono fun _ _ h => h.2)

end Instance
end HVBench
