import HVBench.Etcd.Reply
import HVBench.Library.Transition

/-! The loop of `Watch::Run`. A label of a run holds what etcd answers in one iteration. -/
namespace HVBench
namespace Etcd

/-- The parameters of a watch request. -/
structure WatchUrl where
  wait : StdString
  waitIndex : Option ℕ
  recursive : Bool
  deriving DecidableEq, Repr

/-- `wait_url_base` with the index after `prevIndex`. -/
def waitUrl (prevIndex : ℕ) (recursive : Bool) : WatchUrl where
  wait := "true".toList
  waitIndex := some (prevIndex + 1)
  recursive := recursive

/-- `prev_index_` and the local variables of `Run`. -/
structure Watch where
  prevIndex : ℕ
  watchUrl : WatchUrl
  maxFailures : ℕ
  deriving DecidableEq, Repr

/-- `MAX_FAILURES`. -/
abbrev failureLimit : ℕ := 5

/-- `Run` before its loop. An index to start from is appended to `wait=true`. -/
def Watch.start (member prevIndex : ℕ) (recursive : Bool) : Watch :=
  if prevIndex ≠ 0 then
    ⟨prevIndex, ⟨"true".toList ++ (toString (prevIndex + 1)).toList, none, recursive⟩,
      failureLimit⟩
  else if member ≠ 0 then
    ⟨member, ⟨"true".toList ++ (toString (member + 1)).toList, none, recursive⟩, failureLimit⟩
  else ⟨member, ⟨"true".toList, none, recursive⟩, failureLimit⟩

/-- What `Get` and the constructor of the reply give. -/
abbrev Answer := Except Thrown RapidReply

/-- The answers to the requests of one iteration. `get` and its `header` are asked for only
where the index is out of date. -/
structure Answers where
  watch : Answer
  get : Answer
  header : List StdString

def etcdIndexLabel : StdString := "X-Etcd-Index: ".toList

/-- `isspace`: a blank, or one of the characters from the tab to the carriage return. -/
def isSpace (c : Char) : Bool := c = ' ' || (9 ≤ c.toNat && c.toNat ≤ 13)

/-- `std::stoi`, which throws where this is `none`. -/
def stoi (s : StdString) : Option ℤ :=
  let number := s.dropWhile isSpace
  let negative := number.head? = some '-'
  let digits := (if negative ∨ number.head? = some '+' then number.tail else number).takeWhile
    Char.isDigit
  let value : ℤ := digits.foldl (fun n c => 10 * n + (c.toNat - '0'.toNat)) 0
  let signed := if negative then -value else value
  if digits ≠ [] ∧ -2147483648 ≤ signed ∧ signed ≤ 2147483647 then some signed else none

/-- `line.find(label) != npos`. -/
def contains (label : StdString) : StdString → Bool
  | [] => label.isEmpty
  | c :: line => label.isPrefixOf (c :: line) || contains label line

/-- The loop over the header lines. `pos` holds the outcome of a comparison, so the number
is read behind as many characters as the label has. -/
def readIndex (prevIndex : ℕ) : List StdString → Option ℕ
  | [] => some prevIndex
  | line :: lines =>
    if contains etcdIndexLabel line then
      (stoi (line.drop etcdIndexLabel.length)).map fun i => (i % (UInt64.size : ℤ)).toNat
    else readIndex prevIndex lines

section Run
variable {σ : Type*} (callback : σ → RapidReply → HandlerResult σ) (recursive : Bool)

/-- The block of `try`. -/
def tryWatch (w : Watch) (s : σ) : Answer → HandlerResult (Watch × σ)
  | .error e => .threw (w, s) e
  | .ok r =>
    match callback s r with
    | .aborted => .aborted
    | .threw t e => .threw (w, t) e
    | .returned t =>
      match r.getModifiedIndex with
      | none => .threw (w, t) .exception
      | some i => .returned (⟨i, waitUrl i recursive, failureLimit⟩, t)

/-- The recovery from an index that is out of date. -/
def recover (w : Watch) (s : σ) (header : List StdString) : Answer → HandlerResult (Watch × σ)
  | .error e => .threw (w, s) e
  | .ok r =>
    match callback s r with
    | .aborted => .aborted
    | .threw t e => .threw (w, t) e
    | .returned t =>
      match readIndex w.prevIndex header with
      | none => .threw (w, t) .exception
      | some i => .returned (⟨i, waitUrl i false, w.maxFailures⟩, t)

def countFailure (x : Watch × σ) : Watch × σ :=
  ({ x.1 with maxFailures := x.1.maxFailures - 1 }, x.2)

/-- One iteration. `none` when the loop has ended or the callback ends the process. -/
def iterate (x : Watch × σ) (a : Answers) : Option (Watch × σ) :=
  if x.1.maxFailures = 0 then none
  else
    match tryWatch callback recursive x.1 x.2 a.watch with
    | .aborted => none
    | .returned y => some y
    | .threw y e =>
      if e = .replyException 401 then
        -- `catch (...)`: whatever the recovery throws is dropped
        (recover callback y.1 y.2 a.header a.get).state.map countFailure
      else some (countFailure y)

variable {callback recursive}

/-- An event that is handled moves the watch to the next index. -/
theorem iterate_event {w : Watch} {s t : σ} {a : Answers} {r : RapidReply} {i : ℕ}
    (hw : w.maxFailures ≠ 0) (ha : a.watch = .ok r) (hs : callback s r = .returned t)
    (hi : r.getModifiedIndex = some i) :
    iterate callback recursive (w, s) a =
      some (⟨i, waitUrl i recursive, failureLimit⟩, t) := by
  unfold iterate tryWatch
  rw [if_neg hw, ha]
  dsimp only
  rw [hs]
  dsimp only
  rw [hi]

/-- A handler that throws leaves the watch where it is. -/
theorem iterate_throws {w : Watch} {s t : σ} {a : Answers} {r : RapidReply} {e : Thrown}
    (hw : w.maxFailures ≠ 0) (ha : a.watch = .ok r) (hs : callback s r = .threw t e)
    (he : e ≠ .replyException 401) :
    iterate callback recursive (w, s) a =
      some ({ w with maxFailures := w.maxFailures - 1 }, t) := by
  unfold iterate tryWatch
  rw [if_neg hw, ha]
  dsimp only
  rw [hs]
  dsimp only
  rw [if_neg he]
  rfl

/-- What a recovery can do to the watch: nothing, or go on from some index without the
parameter `recursive`. -/
theorem recover_cases {w : Watch} {s : σ} {header : List StdString} {answer : Answer}
    {y : Watch × σ} (h : (recover callback w s header answer).state = some y) :
    y.1 = w ∨ ∃ i, y.1 = ⟨i, waitUrl i false, w.maxFailures⟩ := by
  unfold recover at h
  cases answer with
  | error e =>
    have heq : (w, s) = y := Option.some.inj h
    rw [← heq]
    exact .inl rfl
  | ok r =>
    dsimp only at h
    cases hs : callback s r with
    | aborted =>
      rw [hs] at h
      cases h
    | threw t e =>
      rw [hs] at h
      have heq : (w, t) = y := Option.some.inj h
      rw [← heq]
      exact .inl rfl
    | returned t =>
      rw [hs] at h
      dsimp only at h
      cases hi : readIndex w.prevIndex header with
      | none =>
        rw [hi] at h
        have heq : (w, t) = y := Option.some.inj h
        rw [← heq]
        exact .inl rfl
      | some i =>
        rw [hi] at h
        have heq : (⟨i, waitUrl i false, w.maxFailures⟩, t) = y := Option.some.inj h
        rw [← heq]
        exact .inr ⟨i, rfl⟩

/-- A recovery counts as a failure, whatever came of it. -/
theorem countFailure_recover {w : Watch} {s : σ} {header : List StdString} {answer : Answer}
    {y : Watch × σ} (h : (recover callback w s header answer).state.map countFailure = some y) :
    y.1 = { w with maxFailures := w.maxFailures - 1 } ∨
      ∃ i, y.1 = ⟨i, waitUrl i false, w.maxFailures - 1⟩ := by
  obtain ⟨z, hz, heq⟩ := Option.map_eq_some_iff.mp h
  subst heq
  unfold countFailure
  rcases recover_cases hz with hsame | ⟨i, hi⟩
  · rw [hsame]
    exact .inl rfl
  · rw [hi]
    exact .inr ⟨i, rfl⟩

/-- Only the block of `try` that gets through goes on without counting a failure. -/
theorem tryWatch_returned {w : Watch} {s : σ} {answer : Answer} {y : Watch × σ}
    (h : tryWatch callback recursive w s answer = .returned y) :
    ∃ i, y.1 = ⟨i, waitUrl i recursive, failureLimit⟩ := by
  unfold tryWatch at h
  split at h
  · cases h
  · split at h
    · cases h
    · cases h
    · split at h
      · cases h
      · next i _ =>
        have heq := HandlerResult.returned.inj h
        rw [← heq]
        exact ⟨i, rfl⟩

theorem tryWatch_threw {w : Watch} {s : σ} {answer : Answer} {y : Watch × σ} {e : Thrown}
    (h : tryWatch callback recursive w s answer = .threw y e) : y.1 = w := by
  unfold tryWatch at h
  split at h
  · rw [← (HandlerResult.threw.inj h).1]
  · split at h
    · cases h
    · rw [← (HandlerResult.threw.inj h).1]
    · split at h
      · rw [← (HandlerResult.threw.inj h).1]
      · cases h

/-- What one iteration can do to the watch. -/
theorem iterate_cases {x y : Watch × σ} {a : Answers}
    (h : iterate callback recursive x a = some y) :
    x.1.maxFailures ≠ 0 ∧
      ((∃ i, y.1 = ⟨i, waitUrl i recursive, failureLimit⟩) ∨
        y.1 = { x.1 with maxFailures := x.1.maxFailures - 1 } ∨
        ∃ i, y.1 = ⟨i, waitUrl i false, x.1.maxFailures - 1⟩) := by
  unfold iterate at h
  split_ifs at h with hfail
  refine ⟨hfail, ?_⟩
  split at h
  · cases h
  · next z hz =>
    have heq := Option.some.inj h
    subst heq
    exact .inl (tryWatch_returned hz)
  · next z e hz =>
    have hzw := tryWatch_threw hz
    split_ifs at h with he
    · rw [hzw] at h
      exact .inr (countFailure_recover h)
    · have heq := Option.some.inj h
      right; left
      rw [← heq, ← hzw]
      rfl

/-- An answer that the index is out of date counts as a failure, recovered from or not. -/
theorem iterate_outdated {x y : Watch × σ} {a : Answers}
    (h : iterate callback recursive x a = some y)
    (ha : a.watch = .error (.replyException 401)) :
    y.1 = { x.1 with maxFailures := x.1.maxFailures - 1 } ∨
      ∃ i, y.1 = ⟨i, waitUrl i false, x.1.maxFailures - 1⟩ := by
  unfold iterate tryWatch at h
  rw [ha] at h
  split_ifs at h with hfail
  · dsimp only at h
    rw [if_pos rfl] at h
    exact countFailure_recover h

/-- A request with an index asks for the one after the last. -/
def WaitsAfter (w : Watch) : Prop :=
  w.watchUrl.waitIndex = none ∨ w.watchUrl.waitIndex = some (w.prevIndex + 1)

theorem waitsAfter_start (member prevIndex : ℕ) (recursive : Bool) :
    WaitsAfter (.start member prevIndex recursive) := by
  unfold Watch.start
  split_ifs <;> exact .inl rfl

theorem waitsAfter_iterate {x y : Watch × σ} {a : Answers} (hx : WaitsAfter x.1)
    (h : iterate callback recursive x a = some y) : WaitsAfter y.1 := by
  obtain ⟨-, ⟨i, hi⟩ | hi | ⟨i, hi⟩⟩ := iterate_cases h
  · rw [hi]
    exact .inr rfl
  · rw [hi]
    exact hx
  · rw [hi]
    exact .inr rfl

end Run
end Etcd
end HVBench
