import HVBench.Library.Transition
import HVBench.Etcd.Reply
import HVBench.Tenant.ConfigRace
import Mathlib.Data.List.Induction

/-! The study that statistics records are filed under. `OutputBase` holds it. The watcher of
the global configuration changes it while the tenants write their records. -/
namespace HVBench
namespace Output

/-- The arguments of an `update_study` call. -/
structure Study where
  studyId : StdString
  runId : Int32
  deriving DecidableEq, Repr

/-- The values the constructor of `KafkaOutput` sets. -/
def initialStudy : Study := ⟨"test".toList, 1⟩

/-- The `update_study` call that `HVBench::_onChangeGlobal` makes, given what its two reads
of etcd return. Without a call, the event is ignored or a read or the cast throws. -/
def onChangeGlobal (uint32 : StdString → Option UInt32) (action : Etcd.Action)
    (studyId runId : Option StdString) : Option Study :=
  if action ≠ .update then none
  else
    match studyId, runId.bind uint32 with
    | some study, some run => some ⟨study, run.toInt32⟩
    | _, _ => none

/-- The progress of the watcher in `update_study`. The `scoped_lock` is a temporary. It is
destroyed at the end of the statement that creates it. -/
inductive Updater
  | idle
  | called (study : Study)
  | locked (study : Study)
  | unlocked (study : Study)
  | assignedStudy (study : Study)
  deriving DecidableEq, Repr

/-- The progress of a tenant in `KafkaOutput::write`, with the same temporary. -/
inductive Writer
  | idle
  | called
  | locked
  | unlocked
  /-- `study_id_` was read. Its value came from the given call. -/
  | readStudy (studyId : StdString) (call : ℕ)
  deriving DecidableEq, Repr

inductive Owner (ι : Type*)
  | updater
  | writer (i : ι)
  deriving DecidableEq, Repr

/-- A record, with the calls its two labels came from. Call 0 is the constructor. -/
structure Record (ι : Type*) where
  tenant : ι
  studyId : StdString
  runId : Int32
  studyCall : ℕ
  runCall : ℕ
  deriving DecidableEq, Repr

structure State (ι : Type*) where
  classLock : Option (Owner ι)
  studyId : StdString
  runId : Int32
  updater : Updater
  writers : ι → Writer
  records : List (Record ι)
  /-- History: the studies passed so far, the constructor's first, and the calls that the
  two fields are from. -/
  studies : List Study
  studyCall : ℕ
  runCall : ℕ

inductive Label (ι : Type*)
  | onChangeGlobal (action : Etcd.Action) (studyId runId : Option StdString)
  | lockUpdate
  | unlockUpdate
  | assignStudy
  | assignRun
  | write (i : ι)
  | lockWrite (i : ι)
  | unlockWrite (i : ι)
  | readStudy (i : ι)
  | readRun (i : ι)
  deriving DecidableEq, Repr

variable {ι : Type*} [DecidableEq ι] (uint32 : StdString → Option UInt32)

def init : State ι where
  classLock := none
  studyId := initialStudy.studyId
  runId := initialStudy.runId
  updater := .idle
  writers := fun _ => .idle
  records := []
  studies := [initialStudy]
  studyCall := 0
  runCall := 0

def State.setWriter (s : State ι) (i : ι) (w : Writer) : State ι :=
  { s with writers := Function.update s.writers i w }

/-- Each read, each assignment and each end of the lock's life is one step. -/
def step (s : State ι) : Label ι → Option (State ι)
  | .onChangeGlobal action studyId runId =>
    match s.updater with
    | .idle =>
      match onChangeGlobal uint32 action studyId runId with
      | some study => some
        { s with updater := .called study, studies := s.studies ++ [study] }
      | none => some s
    | _ => none
  | .lockUpdate =>
    match s.updater, s.classLock with
    | .called study, none => some
      { s with updater := .locked study, classLock := some .updater }
    | _, _ => none
  | .unlockUpdate =>
    match s.updater with
    | .locked study => some { s with updater := .unlocked study, classLock := none }
    | _ => none
  | .assignStudy =>
    match s.updater with
    | .unlocked study => some
      { s with
        updater := .assignedStudy study
        studyId := study.studyId
        studyCall := s.studies.length - 1 }
    | _ => none
  | .assignRun =>
    match s.updater with
    | .assignedStudy study => some
      { s with
        updater := .idle
        runId := study.runId
        runCall := s.studies.length - 1 }
    | _ => none
  | .write i =>
    match s.writers i with
    | .idle => some (s.setWriter i .called)
    | _ => none
  | .lockWrite i =>
    match s.writers i, s.classLock with
    | .called, none => some { s.setWriter i .locked with classLock := some (.writer i) }
    | _, _ => none
  | .unlockWrite i =>
    match s.writers i with
    | .locked => some { s.setWriter i .unlocked with classLock := none }
    | _ => none
  | .readStudy i =>
    match s.writers i with
    | .unlocked => some (s.setWriter i (.readStudy s.studyId s.studyCall))
    | _ => none
  | .readRun i =>
    match s.writers i with
    | .readStudy studyId call => some
      { s.setWriter i .idle with
        records := s.records ++ [⟨i, studyId, s.runId, call, s.runCall⟩] }
    | _ => none

/-- The two labels were passed together to one call. -/
def Record.OneStudy (studies : List Study) (r : Record ι) : Prop :=
  r.studyCall = r.runCall ∧ studies[r.runCall]? = some ⟨r.studyId, r.runId⟩

/-- Between the two reads of a `write` no call assigns `run_id_`, except that a call that
had then assigned `study_id_` only has assigned `run_id_` too before it is read. -/
def Undisturbed (ls : List (Label ι)) : Prop :=
  ∀ before between after i,
    ls = before ++ .readStudy i :: (between ++ .readRun i :: after) →
    .readStudy i ∉ between →
    between.count .assignRun = before.count .assignStudy - before.count .assignRun

variable {uint32}

/-- What a step of the watcher changes. -/
theorem updater_cases {s t : State ι} {l : Label ι} (h : step uint32 s l = some t) :
    match l with
    | .onChangeGlobal _ _ _ => s.updater = .idle ∧ (t = s ∨ ∃ study,
        t = { s with updater := .called study, studies := s.studies ++ [study] })
    | .lockUpdate => ∃ study, s.updater = .called study ∧
        t = { s with updater := .locked study, classLock := some .updater }
    | .unlockUpdate => ∃ study, s.updater = .locked study ∧
        t = { s with updater := .unlocked study, classLock := none }
    | .assignStudy => ∃ study, s.updater = .unlocked study ∧
        t = { s with
              updater := .assignedStudy study
              studyId := study.studyId
              studyCall := s.studies.length - 1 }
    | .assignRun => ∃ study, s.updater = .assignedStudy study ∧
        t = { s with
              updater := .idle
              runId := study.runId
              runCall := s.studies.length - 1 }
    | _ => t.updater = s.updater ∧ t.studies = s.studies ∧ t.studyId = s.studyId ∧
        t.runId = s.runId ∧ t.studyCall = s.studyCall ∧ t.runCall = s.runCall := by
  cases l with
  | onChangeGlobal action studyId runId =>
    simp only [step] at h
    split at h
    next hidle =>
      refine ⟨hidle, ?_⟩
      split at h
      next study hstudy => exact .inr ⟨study, (Option.some.inj h).symm⟩
      next hnone => exact .inl (Option.some.inj h).symm
    next => cases h
  | lockUpdate =>
    simp only [step] at h
    split at h
    next study hcalled hfree => exact ⟨study, hcalled, (Option.some.inj h).symm⟩
    next => cases h
  | unlockUpdate | assignStudy | assignRun =>
    simp only [step] at h
    split at h
    next study hpc => exact ⟨study, hpc, (Option.some.inj h).symm⟩
    next => cases h
  | write i | lockWrite i | unlockWrite i | readStudy i | readRun i =>
    simp only [step] at h
    split at h
    · obtain rfl := Option.some.inj h
      exact ⟨rfl, rfl, rfl, rfl, rfl, rfl⟩
    · cases h

/-- What a step of a tenant changes. -/
theorem writer_cases {s t : State ι} {l : Label ι} (h : step uint32 s l = some t) :
    match l with
    | .readStudy i => s.writers i = .unlocked ∧ t.records = s.records ∧
        t.writers = Function.update s.writers i (.readStudy s.studyId s.studyCall)
    | .readRun i => ∃ studyId call, s.writers i = .readStudy studyId call ∧
        t.records = s.records ++ [⟨i, studyId, s.runId, call, s.runCall⟩] ∧
        t.writers = Function.update s.writers i .idle
    | .write i | .lockWrite i | .unlockWrite i => t.records = s.records ∧
        ∃ w, (∀ v c, w ≠ .readStudy v c) ∧ t.writers = Function.update s.writers i w
    | _ => t.records = s.records ∧ t.writers = s.writers := by
  cases l with
  | readRun i =>
    simp only [step] at h
    split at h
    next studyId call hread =>
      obtain rfl := Option.some.inj h
      exact ⟨studyId, call, hread, rfl, rfl⟩
    next => cases h
  | readStudy i =>
    simp only [step] at h
    split at h
    next hunlocked =>
      obtain rfl := Option.some.inj h
      exact ⟨hunlocked, rfl, rfl⟩
    next => cases h
  | write i | lockWrite i | unlockWrite i =>
    simp only [step] at h
    split at h
    · obtain rfl := Option.some.inj h
      exact ⟨rfl, _, by simp, rfl⟩
    · cases h
  | onChangeGlobal action studyId runId =>
    obtain ⟨-, rfl | ⟨study, rfl⟩⟩ := updater_cases h
    · exact ⟨rfl, rfl⟩
    · exact ⟨rfl, rfl⟩
  | lockUpdate | unlockUpdate | assignStudy | assignRun =>
    obtain ⟨study, -, rfl⟩ := updater_cases h
    exact ⟨rfl, rfl⟩

/-- The two fields and the progress of the current call. -/
def Progress (s : State ι) : Updater → Prop
  | .idle => s.studyCall = s.runCall ∧ s.studies.length = s.runCall + 1
  | .assignedStudy study => s.studyCall = s.runCall + 1 ∧
      s.studies.length = s.runCall + 2 ∧ s.studies[s.runCall + 1]? = some study
  | .called study | .locked study | .unlocked study => s.studyCall = s.runCall ∧
      s.studies.length = s.runCall + 2 ∧ s.studies[s.runCall + 1]? = some study

/-- The fields hold values of the calls they are said to be from. -/
structure Fields (ls : List (Label ι)) (s : State ι) : Prop where
  progress : Progress s s.updater
  studyCall : s.studyCall = ls.count .assignStudy
  runCall : s.runCall = ls.count .assignRun
  studyId : s.studies[s.studyCall]?.map Study.studyId = some s.studyId
  runId : s.studies[s.runCall]?.map Study.runId = some s.runId

theorem fields_init : Fields [] (init : State ι) :=
  ⟨⟨rfl, rfl⟩, rfl, rfl, rfl, rfl⟩

theorem count_snoc (ls : List (Label ι)) (l a : Label ι) :
    (ls ++ [l]).count a = ls.count a + if l = a then 1 else 0 := by
  rw [List.count_append, List.count_singleton]
  simp

theorem getElem?_append_of_map {studies : List Study} {k : ℕ} {α : Type*} {f : Study → α}
    {a : α} (h : studies[k]?.map f = some a) (study : Study) :
    (studies ++ [study])[k]?.map f = some a := by
  obtain ⟨b, hb, -⟩ := Option.map_eq_some_iff.mp h
  have hlt : k < studies.length := (List.getElem?_eq_some_iff.mp hb).1
  rw [List.getElem?_append_left hlt]
  exact h

theorem fields_step {s t : State ι} {ls : List (Label ι)} {l : Label ι} (hs : Fields ls s)
    (h : step uint32 s l = some t) : Fields (ls ++ [l]) t := by
  have hupdater := updater_cases h
  have hprogress := hs.progress
  cases l with
  | onChangeGlobal action studyId runId =>
    obtain ⟨hidle, rfl | ⟨study, rfl⟩⟩ := hupdater
    · exact ⟨hs.progress, by simpa [count_snoc] using hs.studyCall,
        by simpa [count_snoc] using hs.runCall, hs.studyId, hs.runId⟩
    · rw [hidle] at hprogress
      obtain ⟨hcalls, hlen⟩ := hprogress
      refine ⟨⟨hcalls, by simp [hlen], by simp [← hlen]⟩, ?_, ?_,
        getElem?_append_of_map hs.studyId study, getElem?_append_of_map hs.runId study⟩
      · simpa [count_snoc] using hs.studyCall
      · simpa [count_snoc] using hs.runCall
  | lockUpdate | unlockUpdate =>
    obtain ⟨study, hpc, rfl⟩ := hupdater
    rw [hpc] at hprogress
    exact ⟨hprogress, by simpa [count_snoc] using hs.studyCall,
      by simpa [count_snoc] using hs.runCall, hs.studyId, hs.runId⟩
  | assignStudy =>
    obtain ⟨study, hpc, rfl⟩ := hupdater
    rw [hpc] at hprogress
    obtain ⟨hcalls, hlen, hlast⟩ := hprogress
    have hcall : s.studies.length - 1 = s.runCall + 1 := by omega
    have hcount := hs.studyCall
    refine ⟨⟨hcall, hlen, hlast⟩, ?_, by simpa [count_snoc] using hs.runCall, ?_, hs.runId⟩
    · rw [count_snoc, if_pos rfl]
      dsimp only
      omega
    · dsimp only
      rw [hcall, hlast]
      rfl
  | assignRun =>
    obtain ⟨study, hpc, rfl⟩ := hupdater
    rw [hpc] at hprogress
    obtain ⟨hcalls, hlen, hlast⟩ := hprogress
    have hcall : s.studies.length - 1 = s.runCall + 1 := by omega
    have hcount := hs.runCall
    refine ⟨⟨by dsimp only; omega, by dsimp only; omega⟩,
      by simpa [count_snoc] using hs.studyCall, ?_, hs.studyId, ?_⟩
    · rw [count_snoc, if_pos rfl]
      dsimp only
      omega
    · dsimp only
      rw [hcall, hlast]
      rfl
  | write i | lockWrite i | unlockWrite i | readStudy i | readRun i =>
    obtain ⟨hu, hstudies, hstudy, hrun, hscall, hrcall⟩ := hupdater
    refine ⟨?_, ?_, ?_, ?_, ?_⟩
    · rw [hu]
      unfold Progress at hprogress ⊢
      rw [hstudies, hscall, hrcall]
      exact hprogress
    · rw [hscall]
      simpa [count_snoc] using hs.studyCall
    · rw [hrcall]
      simpa [count_snoc] using hs.runCall
    · rw [hstudies, hscall, hstudy]
      exact hs.studyId
    · rw [hstudies, hrcall, hrun]
      exact hs.runId

theorem fields_of_exec {ls : List (Label ι)} {s : State ι}
    (h : Transition.exec (step uint32) init ls = some s) : Fields ls s := by
  induction ls using List.reverseRecOn generalizing s with
  | nil =>
    obtain rfl := Option.some.inj h
    exact fields_init
  | append_singleton ls l ih =>
    obtain ⟨t, ht, hstep⟩ := Transition.exec_snoc.mp h
    exact fields_step (ih ht) hstep

/-- At most one call has assigned `study_id_` and not yet `run_id_`. -/
theorem Fields.lag {ls : List (Label ι)} {s : State ι} (hs : Fields ls s) :
    ls.count .assignRun ≤ ls.count .assignStudy ∧
      ls.count .assignStudy ≤ ls.count .assignRun + 1 := by
  have hprogress := hs.progress
  have hstudy := hs.studyCall
  have hrun := hs.runCall
  unfold Progress at hprogress
  split at hprogress <;> omega

/-- The tenant `i` last read `study_id_` after `before`. -/
def LastRead (ls : List (Label ι)) (i : ι) (before between : List (Label ι)) : Prop :=
  ls = before ++ .readStudy i :: between ∧ .readStudy i ∉ between

omit [DecidableEq ι] in
theorem LastRead.snoc {ls before between : List (Label ι)} {i : ι}
    (h : LastRead ls i before between) {l : Label ι} (hl : l ≠ .readStudy i) :
    LastRead (ls ++ [l]) i before (between ++ [l]) := by
  obtain ⟨hls, hnot⟩ := h
  refine ⟨by rw [hls]; simp, ?_⟩
  rw [List.mem_append, List.mem_singleton]
  rintro (hmem | heq)
  · exact hnot hmem
  · exact hl heq.symm

omit [DecidableEq ι] in
theorem eq_nil_of_read {between between' as : List (Label ι)} {i : ι}
    (hnot : .readStudy i ∉ between)
    (h : Label.readStudy i :: between = as ++ .readStudy i :: between') : as = [] := by
  cases as with
  | nil => rfl
  | cons a as =>
    have htail := (List.cons.inj h).2
    have hmem : Label.readStudy i ∈ between := by
      rw [htail]
      simp
    exact absurd hmem hnot

omit [DecidableEq ι] in
theorem LastRead.eq {ls before between before' between' : List (Label ι)} {i : ι}
    (h : LastRead ls i before between) (h' : LastRead ls i before' between') :
    before = before' ∧ between = between' := by
  have happend := h.1.symm.trans h'.1
  have hbefore : before = before' := by
    rcases List.append_eq_append_iff.mp happend with ⟨as, heq, hrest⟩ | ⟨as, heq, hrest⟩
    · rw [heq, eq_nil_of_read h.2 hrest, List.append_nil]
    · rw [heq, eq_nil_of_read h'.2 hrest, List.append_nil]
  rw [hbefore] at happend
  exact ⟨hbefore, (List.cons.inj (List.append_cancel_left happend)).2⟩

/-- A tenant that has read `study_id_` holds the value of the call that assigned it. -/
def Reading (ls : List (Label ι)) (s : State ι) : Prop :=
  ∀ i studyId call, s.writers i = .readStudy studyId call →
    s.studies[call]?.map Study.studyId = some studyId ∧
    ∃ before between, LastRead ls i before between ∧ call = before.count .assignStudy

theorem studies_mono {s t : State ι} {l : Label ι} (h : step uint32 s l = some t) {k : ℕ}
    {α : Type*} {f : Study → α} {a : α} (hk : s.studies[k]?.map f = some a) :
    t.studies[k]?.map f = some a := by
  have hupdater := updater_cases h
  cases l with
  | onChangeGlobal action studyId runId =>
    obtain ⟨-, rfl | ⟨study, rfl⟩⟩ := hupdater
    · exact hk
    · exact getElem?_append_of_map hk study
  | lockUpdate | unlockUpdate | assignStudy | assignRun =>
    obtain ⟨study, -, rfl⟩ := hupdater
    exact hk
  | write i | lockWrite i | unlockWrite i | readStudy i | readRun i =>
    rw [hupdater.2.1]
    exact hk

/-- A step other than its own read of `study_id_` puts no tenant behind that read. -/
theorem readStudy_of_step {s t : State ι} {l : Label ι} (h : step uint32 s l = some t) {i : ι}
    {studyId : StdString} {call : ℕ} (ht : t.writers i = .readStudy studyId call)
    (hl : l ≠ .readStudy i) : s.writers i = .readStudy studyId call := by
  have hwriter := writer_cases h
  have hupdate : ∀ j w, (∀ v c, w = Writer.readStudy v c → j ≠ i) →
      t.writers = Function.update s.writers j w → s.writers i = .readStudy studyId call := by
    intro j w hw heq
    rw [heq] at ht
    by_cases hij : i = j
    · subst hij
      rw [Function.update_self] at ht
      exact absurd rfl (hw studyId call ht)
    · rwa [Function.update_of_ne hij] at ht
  cases l with
  | readStudy j =>
    exact hupdate j _ (fun v c _ hj => hl (by rw [hj])) hwriter.2.2
  | readRun j =>
    obtain ⟨v, c, -, -, hw⟩ := hwriter
    exact hupdate j _ (by simp) hw
  | write j | lockWrite j | unlockWrite j =>
    obtain ⟨-, w, hne, hw⟩ := hwriter
    exact hupdate j w (fun v c hwv => absurd hwv (hne v c)) hw
  | onChangeGlobal action study run =>
    rw [← hwriter.2]
    exact ht
  | lockUpdate | unlockUpdate | assignStudy | assignRun =>
    rw [← hwriter.2]
    exact ht

theorem reading_step {s t : State ι} {ls : List (Label ι)} {l : Label ι} (hf : Fields ls s)
    (hs : Reading ls s) (h : step uint32 s l = some t) : Reading (ls ++ [l]) t := by
  intro i studyId call ht
  by_cases hl : l = .readStudy i
  · subst hl
    obtain ⟨-, -, hw⟩ := writer_cases h
    rw [hw, Function.update_self] at ht
    obtain ⟨rfl, rfl⟩ := Writer.readStudy.inj ht
    refine ⟨studies_mono h hf.studyId, ls, [], ⟨rfl, List.not_mem_nil⟩, ?_⟩
    exact hf.studyCall
  · obtain ⟨hvalue, before, between, hlast, hcall⟩ := hs i studyId call (readStudy_of_step h ht hl)
    exact ⟨studies_mono h hvalue, before, between ++ [l], hlast.snoc hl, hcall⟩

theorem reading_of_exec {ls : List (Label ι)} {s : State ι}
    (h : Transition.exec (step uint32) init ls = some s) : Reading ls s := by
  induction ls using List.reverseRecOn generalizing s with
  | nil =>
    obtain rfl := Option.some.inj h
    intro i studyId call hw
    cases hw
  | append_singleton ls l ih =>
    obtain ⟨t, ht, hstep⟩ := Transition.exec_snoc.mp h
    exact reading_step (fields_of_exec ht) (ih ht) hstep

/-- The tenant `i` filed a record in the run. It read `study_id_` after `before`, and then
`run_id_` after `between`. -/
def Filing (ls : List (Label ι)) (i : ι) (before between : List (Label ι)) : Prop :=
  ∃ after, ls = before ++ .readStudy i :: (between ++ .readRun i :: after) ∧
    .readStudy i ∉ between

omit [DecidableEq ι] in
theorem Filing.snoc {ls before between : List (Label ι)} {i : ι}
    (h : Filing ls i before between) (l : Label ι) : Filing (ls ++ [l]) i before between := by
  obtain ⟨after, rfl, hnot⟩ := h
  exact ⟨after ++ [l], by simp, hnot⟩

omit [DecidableEq ι] in
theorem LastRead.filing {ls before between : List (Label ι)} {i : ι}
    (h : LastRead ls i before between) : Filing (ls ++ [.readRun i]) i before between := by
  obtain ⟨rfl, hnot⟩ := h
  exact ⟨[], by simp, hnot⟩

omit [DecidableEq ι] in
theorem filing_snoc_cases {ls before between : List (Label ι)} {l : Label ι} {i : ι}
    (h : Filing (ls ++ [l]) i before between) :
    Filing ls i before between ∨ (l = .readRun i ∧ LastRead ls i before between) := by
  obtain ⟨after, hls, hnot⟩ := h
  rcases List.eq_nil_or_concat after with rfl | ⟨after, a, rfl⟩
  · have hls' : ls ++ [l] = (before ++ .readStudy i :: between) ++ [.readRun i] := by
      rw [hls]
      simp
    obtain ⟨hfirst, hlast⟩ := List.append_inj' hls' rfl
    exact .inr ⟨(List.cons.inj hlast).1, hfirst, hnot⟩
  · have hls' : ls ++ [l] =
        (before ++ .readStudy i :: (between ++ .readRun i :: after)) ++ [a] := by
      rw [hls]
      simp
    exact .inl ⟨after, (List.append_inj' hls' rfl).1, hnot⟩

/-- The calls that a record's labels are from, if it was filed so. -/
def Record.FiledFrom (r : Record ι) (before between : List (Label ι)) : Prop :=
  r.studyCall = before.count .assignStudy ∧
    r.runCall = before.count .assignRun + between.count .assignRun

/-- The records are the filings of the run, with values of the calls they are from. -/
structure Filed (ls : List (Label ι)) (s : State ι) : Prop where
  sound : ∀ r ∈ s.records, ∃ before between,
    Filing ls r.tenant before between ∧ r.FiledFrom before between
  complete : ∀ i before between, Filing ls i before between →
    ∃ r ∈ s.records, r.FiledFrom before between
  studyId : ∀ r ∈ s.records, s.studies[r.studyCall]?.map Study.studyId = some r.studyId
  runId : ∀ r ∈ s.records, s.studies[r.runCall]?.map Study.runId = some r.runId

theorem Filed.keep {s t : State ι} {ls : List (Label ι)} {l : Label ι} (hs : Filed ls s)
    (h : step uint32 s l = some t) (hl : ∀ i, l ≠ .readRun i) (hrec : t.records = s.records) :
    Filed (ls ++ [l]) t := by
  refine ⟨?_, ?_, ?_, ?_⟩
  · intro r hr
    rw [hrec] at hr
    obtain ⟨before, between, hfiling, hfrom⟩ := hs.sound r hr
    exact ⟨before, between, hfiling.snoc l, hfrom⟩
  · intro i before between hfiling
    rw [hrec]
    rcases filing_snoc_cases hfiling with hold | ⟨hrun, -⟩
    · exact hs.complete i before between hold
    · exact absurd hrun (hl i)
  · intro r hr
    rw [hrec] at hr
    exact studies_mono h (hs.studyId r hr)
  · intro r hr
    rw [hrec] at hr
    exact studies_mono h (hs.runId r hr)

theorem Filed.readRun {s t : State ι} {ls : List (Label ι)} {i : ι} (hf : Fields ls s)
    (hread : Reading ls s) (hs : Filed ls s) (h : step uint32 s (.readRun i) = some t) :
    Filed (ls ++ [.readRun i]) t := by
  obtain ⟨studyId, call, hpc, hrec, -⟩ := writer_cases h
  obtain ⟨hstudy, before, between, hlast, hcall⟩ := hread i studyId call hpc
  have hrun : s.runCall = before.count .assignRun + between.count .assignRun := by
    rw [hf.runCall, hlast.1, List.count_append, List.count_cons_of_ne (by simp)]
  have hmem : ∀ r, r ∈ t.records ↔
      r ∈ s.records ∨ r = ⟨i, studyId, s.runId, call, s.runCall⟩ := by
    intro r
    rw [hrec, List.mem_append, List.mem_singleton]
  refine ⟨?_, ?_, ?_, ?_⟩
  · intro r hr
    rcases (hmem r).mp hr with hold | rfl
    · obtain ⟨before, between, hfiling, hfrom⟩ := hs.sound r hold
      exact ⟨before, between, hfiling.snoc _, hfrom⟩
    · exact ⟨before, between, hlast.filing, hcall, hrun⟩
  · intro j before' between' hfiling
    rcases filing_snoc_cases hfiling with hold | ⟨hj, hlast'⟩
    · obtain ⟨r, hr, hfrom⟩ := hs.complete j before' between' hold
      exact ⟨r, (hmem r).mpr (.inl hr), hfrom⟩
    · obtain rfl := Label.readRun.inj hj
      obtain ⟨rfl, rfl⟩ := hlast.eq hlast'
      exact ⟨_, (hmem _).mpr (.inr rfl), hcall, hrun⟩
  · intro r hr
    rcases (hmem r).mp hr with hold | rfl
    · exact studies_mono h (hs.studyId r hold)
    · exact studies_mono h hstudy
  · intro r hr
    rcases (hmem r).mp hr with hold | rfl
    · exact studies_mono h (hs.runId r hold)
    · exact studies_mono h hf.runId

theorem filed_of_exec {ls : List (Label ι)} {s : State ι}
    (h : Transition.exec (step uint32) init ls = some s) : Filed ls s := by
  induction ls using List.reverseRecOn generalizing s with
  | nil =>
    obtain rfl := Option.some.inj h
    refine ⟨by simp [init], ?_, by simp [init], by simp [init]⟩
    rintro i before between ⟨after, hls, -⟩
    simp at hls
  | append_singleton ls l ih =>
    obtain ⟨t, ht, hstep⟩ := Transition.exec_snoc.mp h
    have hold := ih ht
    have hwriter := writer_cases hstep
    cases l with
    | readRun i => exact Filed.readRun (fields_of_exec ht) (reading_of_exec ht) hold hstep
    | readStudy i => exact hold.keep hstep (by simp) hwriter.2.1
    | write i | lockWrite i | unlockWrite i => exact hold.keep hstep (by simp) hwriter.1
    | onChangeGlobal action studyId runId => exact hold.keep hstep (by simp) hwriter.1
    | lockUpdate | unlockUpdate | assignStudy | assignRun =>
      exact hold.keep hstep (by simp) hwriter.1

/-- A record carries one study when its labels are from one call. -/
theorem Filed.oneStudy_iff {s : State ι} {ls : List (Label ι)} (hs : Filed ls s)
    {r : Record ι} (hr : r ∈ s.records) : r.OneStudy s.studies ↔ r.studyCall = r.runCall := by
  constructor
  · intro hone
    exact hone.1
  · intro heq
    have hstudy := hs.studyId r hr
    rw [heq] at hstudy
    obtain ⟨study, hk, hstudyId⟩ := Option.map_eq_some_iff.mp hstudy
    have hrun := hs.runId r hr
    rw [hk, Option.map_some] at hrun
    refine ⟨heq, ?_⟩
    rw [hk, ← hstudyId, ← Option.some.inj hrun]

/-- Each record of a run carries the study of one call exactly when the assignments of the
calls never come between its two reads, but for the second of a call whose first it saw. -/
theorem oneStudy_iff_undisturbed (uint32 : StdString → Option UInt32) (ls : List (Label ι))
    (s : State ι) (h : Transition.exec (step uint32) init ls = some s) :
    (∀ r ∈ s.records, r.OneStudy s.studies) ↔ Undisturbed ls := by
  have hfiled := filed_of_exec h
  have hcalls : ∀ i before between, Filing ls i before between → ∀ r : Record ι,
      r.FiledFrom before between → (r.studyCall = r.runCall ↔
        between.count .assignRun = before.count .assignStudy - before.count .assignRun) := by
    rintro i before between ⟨after, hls, -⟩ r ⟨hstudy, hrun⟩
    rw [hls] at h
    obtain ⟨u, hu, -⟩ := Transition.exec_append.mp h
    have hlag := (fields_of_exec hu).lag.1
    omega
  constructor
  · intro hone before between after i hls hnot
    have hfiling : Filing ls i before between := ⟨after, hls, hnot⟩
    obtain ⟨r, hr, hfrom⟩ := hfiled.complete i before between hfiling
    exact (hcalls i before between hfiling r hfrom).mp (hone r hr).1
  · intro hundisturbed r hr
    obtain ⟨before, between, hfiling, hfrom⟩ := hfiled.sound r hr
    obtain ⟨after, hls, hnot⟩ := hfiling
    have hcount := hundisturbed before between after r.tenant hls hnot
    apply (hfiled.oneStudy_iff hr).mpr
    exact (hcalls _ before between ⟨after, hls, hnot⟩ r hfrom).mpr hcount

/-- The watcher's call for run 2 of the study s2, up to its first assignment. -/
def updateToRun2 : List (Label ℕ) :=
  [.onChangeGlobal .update (some "s2".toList) (some "2".toList), .lockUpdate, .unlockUpdate,
    .assignStudy]

/-- A tenant that reads between the two assignments, and one that reads around the second. -/
def tornRun : List (Label ℕ) :=
  [.write 0, .lockWrite 0, .unlockWrite 0] ++ updateToRun2 ++
    [.readStudy 0, .readRun 0, .assignRun]

def completedRun : List (Label ℕ) :=
  [.write 0, .lockWrite 0, .unlockWrite 0] ++ updateToRun2 ++
    [.readStudy 0, .assignRun, .readRun 0]

def finalRecords (ls : List (Label ℕ)) : Option (List (Record ℕ) × List Study) :=
  (Transition.exec (step ConfigRace.decimalCast.uint32) init ls).map
    fun s => (s.records, s.studies)

/-- The record has both fields of the study s2, so that nothing came between the reads of them. -/
theorem oneStudy_iff_undisturbed_completed :
    ∃ s, Transition.exec (step ConfigRace.decimalCast.uint32) init completedRun = some s ∧
      s.records = [⟨0, "s2".toList, 2, 1, 1⟩] ∧ (∀ r ∈ s.records, r.OneStudy s.studies) ∧
      Undisturbed completedRun := by
  have hfinal : finalRecords completedRun =
      some ([⟨0, "s2".toList, 2, 1, 1⟩], [initialStudy, ⟨"s2".toList, 2⟩]) := by decide
  obtain ⟨s, hs, hrec⟩ := Option.map_eq_some_iff.mp hfinal
  obtain ⟨hrecords, hstudies⟩ := Prod.mk.inj hrec
  have hone : ∀ r ∈ s.records, r.OneStudy s.studies := by
    intro r hr
    rw [hrecords] at hr
    rw [List.mem_singleton.mp hr, hstudies]
    exact ⟨rfl, rfl⟩
  exact ⟨s, hs, hrecords, hone, (oneStudy_iff_undisturbed _ completedRun s hs).mp hone⟩

/-- A record that is filed under the new study and the old run. -/
theorem torn_record :
    ¬ ∀ (ls : List (Label ℕ)) (s : State ℕ),
      Transition.exec (step ConfigRace.decimalCast.uint32) init ls = some s →
        ∀ r ∈ s.records, ∃ study ∈ s.studies,
          r.studyId = study.studyId ∧ r.runId = study.runId := by
  intro h
  have hfinal : finalRecords tornRun =
      some ([⟨0, "s2".toList, 1, 1, 0⟩], [initialStudy, ⟨"s2".toList, 2⟩]) := by decide
  obtain ⟨s, hs, hrec⟩ := Option.map_eq_some_iff.mp hfinal
  have hall := h tornRun s hs
  obtain ⟨hrecords, hstudies⟩ := Prod.mk.inj hrec
  rw [hrecords, hstudies] at hall
  revert hall
  decide

end Output
end HVBench
