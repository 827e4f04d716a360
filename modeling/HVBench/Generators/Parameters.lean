import HVBench.Generators.TransactionIds

/-! Updates of a running `TenantGenerator`: its parameters are a map from names to the
values set last, whatever calls come in between. -/
namespace HVBench
namespace TenantGenerator
variable {F : Type} (cast : LexicalCast F)

/-- What an update sets. -/
inductive Assignment (F : Type)
  | rate (rate : UInt32)
  | weight (type : OFPT) (weight : F)

/-- The assignment of `update(key, value)`, if it makes one. -/
def assignment (ofTypes : List OFPT) (key value : StdString) : Option (Assignment F) :=
  if key = "avg_rate".toList then (cast.uint32 value).map .rate
  else (OFPT.rstr key).bind fun type =>
    if type ∈ ofTypes then (cast.float value).map (.weight type) else none

def assign (g : TenantGenerator F) : Assignment F → TenantGenerator F
  | .rate rate => { g with nd := rate, varExp := rate }
  | .weight type weight =>
    let weights := g.weights.set (g.ofTypes.idxOf type) weight
    { g with weights := weights, discreteNd := weights, varDisc := weights }

/-- `lexical_cast` where the state so far is kept when it throws. -/
def lexicalCast {σ α : Type} : Option α → ExceptT StdException (StateM σ) α
  | some a => pure a
  | none => throw .badLexicalCast

/-- `update`, one assignment of the source at a time. -/
def updateBody (key value : StdString) :
    ExceptT StdException (StateM (TenantGenerator F)) Unit := do
  if key = "avg_rate".toList then
    let rate ← lexicalCast (cast.uint32 value)
    modify fun g => { g with nd := rate }
    modify fun g => { g with varExp := g.nd }
  match OFPT.rstr key with
  | none => pure ()
  | some type =>
    let g ← get
    if type ∈ g.ofTypes then
      let weight ← lexicalCast (cast.float value)
      modify fun g => { g with weights := g.weights.set (g.ofTypes.idxOf type) weight }
      modify fun g => { g with discreteNd := g.weights }
      modify fun g => { g with varDisc := g.discreteNd }

/-- The parameters after an update. -/
def updated (g : TenantGenerator F) (key value : StdString) : TenantGenerator F :=
  ((assignment cast g.ofTypes key value).map g.assign).getD g

variable {cast}

theorem rstr_avg_rate : OFPT.rstr "avg_rate".toList = none := rfl

/-- `update` makes its assignment or none. -/
theorem update_eq (g : TenantGenerator F) (key value : StdString) :
    (match g.update cast key value with
      | .ok params => params
      | .error _ => g) = g.updated cast key value := by
  unfold update updateRate updateWeight updated assignment
  by_cases hkey : key = "avg_rate".toList
  · subst hkey
    rw [if_pos rfl, if_pos rfl]
    cases cast.uint32 value with
    | none => rfl
    | some rate => rfl
  · rw [if_neg hkey, if_neg hkey]
    dsimp only [Except.bind]
    cases OFPT.rstr key with
    | none => rfl
    | some type =>
      by_cases htype : type ∈ g.ofTypes
      · simp only [Option.bind_some, if_pos htype]
        cases cast.float value with
        | none => rfl
        | some weight => rfl
      · simp only [Option.bind_some, if_neg htype]
        rfl

theorem run_get_bind {σ α : Type} (f : σ → ExceptT StdException (StateM σ) α) (s : σ) :
    (get >>= f).run.run s = (f s).run.run s := rfl

/-- An exception leaves nothing half done. -/
theorem updateBody_run (g : TenantGenerator F) (key value : StdString) :
    (updateBody cast key value).run.run g =
      match g.update cast key value with
      | .ok params => (.ok (), params)
      | .error e => (.error e, g) := by
  unfold updateBody update updateRate updateWeight
  by_cases hkey : key = "avg_rate".toList
  · subst hkey
    rw [if_pos rfl, if_pos rfl]
    cases cast.uint32 value with
    | none => rfl
    | some rate => rfl
  · rw [if_neg hkey, if_neg hkey]
    dsimp only [Except.bind]
    cases OFPT.rstr key with
    | none => rfl
    | some type =>
      dsimp only
      rw [run_get_bind]
      by_cases htype : type ∈ g.ofTypes
      · rw [if_pos htype, if_pos htype]
        cases cast.float value with
        | none => rfl
        | some weight => rfl
      · rw [if_neg htype, if_neg htype]
        rfl

/-- The name of a type is not the name of the rate. -/
theorem str_ne_avg_rate (type : OFPT) : type.str ≠ some "avg_rate".toList := by
  intro h
  have hrstr := OFPT.rstr_str h
  rw [rstr_avg_rate] at hrstr
  cases hrstr

theorem assignment_cases {ofTypes : List OFPT} {key value : StdString} {a : Assignment F}
    (h : assignment cast ofTypes key value = some a) :
    (∃ rate, key = "avg_rate".toList ∧ cast.uint32 value = some rate ∧ a = .rate rate) ∨
    ∃ type weight, type.str = some key ∧ type ∈ ofTypes ∧ cast.float value = some weight ∧
      a = .weight type weight := by
  unfold assignment at h
  by_cases hkey : key = "avg_rate".toList
  · rw [if_pos hkey] at h
    obtain ⟨rate, hrate, rfl⟩ := Option.map_eq_some_iff.mp h
    exact Or.inl ⟨rate, hkey, hrate, rfl⟩
  · rw [if_neg hkey] at h
    obtain ⟨type, hrstr, h⟩ := Option.bind_eq_some_iff.mp h
    split_ifs at h with htype
    obtain ⟨weight, hweight, rfl⟩ := Option.map_eq_some_iff.mp h
    exact Or.inr ⟨type, weight, OFPT.str_rstr hrstr, htype, hweight, rfl⟩

theorem assignment_rate {ofTypes : List OFPT} {value : StdString} :
    assignment cast ofTypes "avg_rate".toList value = (cast.uint32 value).map .rate := by
  rw [assignment, if_pos rfl]

theorem assignment_weight {ofTypes : List OFPT} {type : OFPT} {key value : StdString}
    (hkey : type.str = some key) (htype : type ∈ ofTypes) :
    assignment cast ofTypes key value = (cast.float value).map (.weight type) := by
  have hne : key ≠ "avg_rate".toList := by
    rintro rfl
    exact str_ne_avg_rate type hkey
  rw [assignment, if_neg hne, OFPT.rstr_str hkey, Option.bind_some, if_pos htype]

@[simp] theorem updated_ofTypes (g : TenantGenerator F) (key value : StdString) :
    (g.updated cast key value).ofTypes = g.ofTypes := by
  unfold updated
  cases assignment cast g.ofTypes key value with
  | none => rfl
  | some a => cases a <;> rfl

@[simp] theorem updated_length (g : TenantGenerator F) (key value : StdString) :
    (g.updated cast key value).weights.length = g.weights.length := by
  unfold updated
  cases assignment cast g.ofTypes key value with
  | none => rfl
  | some a => cases a <;> simp [assign]

/-- Both samplers are rebuilt with every parameter they are built from. -/
theorem Synced.updated {g : TenantGenerator F} (h : g.Synced) (key value : StdString) :
    (g.updated cast key value).Synced := by
  unfold TenantGenerator.updated
  cases assignment cast g.ofTypes key value with
  | none => exact h
  | some a =>
    cases a with
    | rate rate => exact ⟨rfl, h.discreteNd, h.varDisc⟩
    | weight type weight => exact ⟨h.varExp, rfl, rfl⟩

/-- The rate an update with these arguments sets. -/
def rateOf (cast : LexicalCast F) (key value : StdString) : Option UInt32 :=
  if key = "avg_rate".toList then cast.uint32 value else none

/-- The weight it sets for the message type. -/
def weightOf (cast : LexicalCast F) (type : OFPT) (key value : StdString) : Option F :=
  if type.str = some key then cast.float value else none

theorem assignment_eq_rate_iff {ofTypes : List OFPT} {key value : StdString} {rate : UInt32} :
    assignment cast ofTypes key value = some (.rate rate) ↔
      rateOf cast key value = some rate := by
  unfold rateOf
  constructor
  · intro h
    rcases assignment_cases h with ⟨_, hkey, hrate, heq⟩ | ⟨_, _, -, -, -, heq⟩
    · rw [if_pos hkey, hrate, Assignment.rate.inj heq]
    · cases heq
  · intro h
    split_ifs at h with hkey
    rw [hkey, assignment_rate, h]
    rfl

theorem assignment_eq_weight_iff {ofTypes : List OFPT} {key value : StdString} {type : OFPT}
    {weight : F} : assignment cast ofTypes key value = some (.weight type weight) ↔
      type ∈ ofTypes ∧ weightOf cast type key value = some weight := by
  unfold weightOf
  constructor
  · intro h
    rcases assignment_cases h with ⟨_, -, -, heq⟩ | ⟨_, _, hname, htype, hweight, heq⟩
    · cases heq
    · obtain ⟨rfl, rfl⟩ := Assignment.weight.inj heq
      exact ⟨htype, by rw [if_pos hname, hweight]⟩
  · rintro ⟨htype, h⟩
    split_ifs at h with hname
    rw [assignment_weight hname htype, h]
    rfl

/-- Without a rate that parses, the rate stays. -/
theorem updated_of_rateOf_none {g : TenantGenerator F} {key value : StdString}
    (h : rateOf cast key value = none) :
    (g.updated cast key value).nd = g.nd ∧ (g.updated cast key value).varExp = g.varExp := by
  unfold updated
  cases ha : assignment cast g.ofTypes key value with
  | none => exact ⟨rfl, rfl⟩
  | some a =>
    rcases assignment_cases ha with ⟨rate, rfl, hrate, -⟩ | ⟨type, weight, -, -, -, rfl⟩
    · rw [rateOf, if_pos rfl, hrate] at h
      cases h
    · exact ⟨rfl, rfl⟩

theorem updated_of_rateOf {g : TenantGenerator F} {key value : StdString} {rate : UInt32}
    (h : rateOf cast key value = some rate) :
    g.updated cast key value = { g with nd := rate, varExp := rate } := by
  unfold rateOf at h
  split_ifs at h with hkey
  subst hkey
  rw [updated, assignment_rate, h]
  rfl

theorem updated_nd (g : TenantGenerator F) (key value : StdString) :
    (g.updated cast key value).nd = (rateOf cast key value).getD g.nd := by
  cases h : rateOf cast key value with
  | none => exact (updated_of_rateOf_none h).1
  | some rate => exact congrArg nd (updated_of_rateOf h)

theorem updated_varExp (g : TenantGenerator F) (key value : StdString) :
    (g.updated cast key value).varExp = (rateOf cast key value).getD g.varExp := by
  cases h : rateOf cast key value with
  | none => exact (updated_of_rateOf_none h).2
  | some rate => exact congrArg varExp (updated_of_rateOf h)

/-- The arguments `update` has no effect with. -/
inductive NoEffect (cast : LexicalCast F) (ofTypes : List OFPT) : StdString → StdString → Prop
  | unknownName {key value : StdString} : key ≠ "avg_rate".toList → OFPT.rstr key = none →
      NoEffect cast ofTypes key value
  | otherType {key value : StdString} {type : OFPT} : OFPT.rstr key = some type →
      type ∉ ofTypes → NoEffect cast ofTypes key value
  | badRate {value : StdString} : cast.uint32 value = none →
      NoEffect cast ofTypes "avg_rate".toList value
  | badWeight {key value : StdString} {type : OFPT} : OFPT.rstr key = some type →
      cast.float value = none → NoEffect cast ofTypes key value

theorem NoEffect.updated {g : TenantGenerator F} {key value : StdString}
    (h : NoEffect cast g.ofTypes key value) : g.updated cast key value = g := by
  have hnone : assignment cast g.ofTypes key value = none := by
    cases ha : assignment cast g.ofTypes key value with
    | none => rfl
    | some a =>
      rcases assignment_cases ha with ⟨rate, rfl, hrate, rfl⟩ |
        ⟨type, weight, hname, htype, hweight, rfl⟩
      · cases h with
        | unknownName hne _ => exact absurd rfl hne
        | otherType hrstr _ => exact absurd (rstr_avg_rate.symm.trans hrstr) (by simp)
        | badRate hbad => exact absurd hrate (by simp [hbad])
        | badWeight hrstr _ => exact absurd (rstr_avg_rate.symm.trans hrstr) (by simp)
      · have hrstr := OFPT.rstr_str hname
        cases h with
        | unknownName _ hnone => exact absurd hrstr (by simp [hnone])
        | otherType hother hmem =>
          obtain rfl := Option.some.inj (hrstr.symm.trans hother)
          exact absurd htype hmem
        | badRate _ => exact absurd hname (str_ne_avg_rate type)
        | badWeight _ hbad => exact absurd hweight (by simp [hbad])
  unfold TenantGenerator.updated
  rw [hnone]
  rfl

/-- The weight of a type. Only an update of one of the generator's types sets it. -/
theorem updated_weight (g : TenantGenerator F) (type : OFPT) (key value : StdString) :
    (g.updated cast key value).weight type =
      if type ∈ g.ofTypes then
        match weightOf cast type key value with
        | some weight => (g.weight type).map fun _ => weight
        | none => g.weight type
      else g.weight type := by
  by_cases hkey : type.str = some key
  · unfold weightOf
    rw [if_pos hkey]
    by_cases htype : type ∈ g.ofTypes
    · rw [if_pos htype, updated, assignment_weight hkey htype]
      cases cast.float value with
      | none => rfl
      | some weight => exact List.getElem?_set_self'
    · rw [if_neg htype]
      have hnone : NoEffect cast g.ofTypes key value :=
        .otherType (OFPT.rstr_str hkey) htype
      rw [hnone.updated]
  · have hsame : (g.updated cast key value).weight type = g.weight type := by
      unfold updated
      cases ha : assignment cast g.ofTypes key value with
      | none => rfl
      | some a =>
        rcases assignment_cases ha with ⟨rate, -, -, rfl⟩ | ⟨other, weight, hother, hmem, -, rfl⟩
        · rfl
        · have hne : g.ofTypes.idxOf other ≠ g.ofTypes.idxOf type := by
            intro hidx
            exact hkey ((List.idxOf_inj hmem).mp hidx ▸ hother)
          exact List.getElem?_set_ne hne
    rw [hsame, weightOf, if_neg hkey, ite_self]

/-- The weight at the position of a type. With distinct types no other update sets it. -/
theorem updated_weights {g : TenantGenerator F} (hnd : g.ofTypes.Nodup)
    (hlen : g.weights.length = g.ofTypes.length) {i : ℕ} {type : OFPT}
    (hi : g.ofTypes[i]? = some type) (key value : StdString) :
    (g.updated cast key value).weights[i]? = (weightOf cast type key value).or g.weights[i]? := by
  obtain ⟨hlt, htype⟩ := List.getElem?_eq_some_iff.mp hi
  have hidx : g.ofTypes.idxOf type = i := by
    rw [← htype]
    exact hnd.idxOf_getElem i hlt
  have hweight : (g.updated cast key value).weight type = _ := g.updated_weight type key value
  rw [if_pos (List.mem_of_getElem? hi), weight, weight, updated_ofTypes, hidx] at hweight
  rw [hweight]
  cases weightOf cast type key value with
  | none => rfl
  | some w =>
    rw [List.getElem?_eq_getElem (hlen ▸ hlt)]
    rfl

end TenantGenerator

namespace ConstantGenerator
variable {F ρ : Type} (p : Platform F ρ)

/-- The one parameter of the other generator. -/
theorem update_eq (g : ConstantGenerator) (key value : StdString) :
    g.update p key value = { g with
      interArrivalT := ((TenantGenerator.rateOf p.cast key value).map (interArrival p)).getD
        g.interArrivalT } := by
  unfold update TenantGenerator.rateOf
  by_cases hkey : key = "avg_rate".toList
  · rw [if_pos hkey, if_pos hkey]
    cases p.cast.uint32 value <;> rfl
  · rw [if_neg hkey, if_neg hkey]
    rfl

theorem update_interArrivalT (g : ConstantGenerator) (key value : StdString) :
    (g.update p key value).interArrivalT =
      ((TenantGenerator.rateOf p.cast key value).map (interArrival p)).getD g.interArrivalT := by
  rw [update_eq]

end ConstantGenerator

namespace TenantGenerator
namespace Running
variable {F ρ : Type} (p : Platform F ρ)

/-- A running generator is updated by the body of `update`, exceptions included. -/
def afterUpdate (g : Running F ρ) (key value : StdString) : Running F ρ :=
  { g with params := ((updateBody p.cast key value).run.run g.params).2 }

inductive Call
  | update (key value : StdString)
  | next
  deriving DecidableEq, Repr

def step (g : Running F ρ) : Call → Option (Running F ρ)
  | .update key value => some (g.afterUpdate p key value)
  | .next => (g.next p).map Prod.snd

/-- The rate a call sets. -/
def Call.rate (cast : LexicalCast F) : Call → Option UInt32
  | .update key value => rateOf cast key value
  | .next => none

def Call.weight (cast : LexicalCast F) (type : OFPT) : Call → Option F
  | .update key value => weightOf cast type key value
  | .next => none

/-- The last value that the calls set, or the one from before. -/
def lastSet {α : Type} (set : Call → Option α) (calls : List Call) (initial : α) : α :=
  (calls.filterMap set).getLast?.getD initial

variable {p}

theorem update_eq (g : Running F ρ) (key value : StdString) :
    g.update p key value = { g with params := g.params.updated p.cast key value } := by
  rw [← TenantGenerator.update_eq]
  unfold update
  cases g.params.update p.cast key value <;> rfl

theorem afterUpdate_eq (g : Running F ρ) (key value : StdString) :
    g.afterUpdate p key value = g.update p key value := by
  unfold afterUpdate update
  rw [updateBody_run]
  cases g.params.update p.cast key value <;> rfl

/-- What a call does to the parameters. -/
theorem step_params {g g' : Running F ρ} {c : Call} (h : step p g c = some g') :
    (∃ key value, c = .update key value ∧ g'.params = g.params.updated p.cast key value) ∨
      c = .next ∧ g'.params = g.params := by
  cases c with
  | update key value =>
    obtain rfl := Option.some.inj h
    refine Or.inl ⟨key, value, rfl, ?_⟩
    rw [afterUpdate_eq, update_eq]
  | next =>
    obtain ⟨⟨msg, g''⟩, hnext, rfl⟩ := Option.map_eq_some_iff.mp h
    exact Or.inr ⟨rfl, (next_made hnext).params⟩

/-- What the calls leave of a generator for `ofTypes`. -/
structure Intact (ofTypes : List OFPT) (g : Running F ρ) : Prop where
  synced : g.params.Synced
  types : g.params.ofTypes = ofTypes
  length : g.params.weights.length = ofTypes.length

theorem intact_step {ofTypes : List OFPT} {g g' : Running F ρ} {c : Call}
    (h : Intact ofTypes g) (hstep : step p g c = some g') : Intact ofTypes g' := by
  rcases step_params hstep with ⟨key, value, -, hparams⟩ | ⟨-, hparams⟩
  · refine ⟨?_, ?_, ?_⟩
    · rw [hparams]
      exact h.synced.updated key value
    · rw [hparams, updated_ofTypes, h.types]
    · rw [hparams, updated_length, h.length]
  · exact ⟨hparams ▸ h.synced, hparams ▸ h.types, hparams ▸ h.length⟩

theorem nd_step {g g' : Running F ρ} {c : Call} (hstep : step p g c = some g') :
    g'.params.nd = (c.rate p.cast).getD g.params.nd := by
  rcases step_params hstep with ⟨key, value, rfl, hparams⟩ | ⟨rfl, hparams⟩
  · rw [hparams, updated_nd]
    rfl
  · rw [hparams]
    rfl

theorem weights_step {ofTypes : List OFPT} (hnd : ofTypes.Nodup) {i : ℕ} {type : OFPT}
    (hi : ofTypes[i]? = some type) {g g' : Running F ρ} {c : Call} (h : Intact ofTypes g)
    (hstep : step p g c = some g') :
    g'.params.weights[i]? = (c.weight p.cast type).or g.params.weights[i]? := by
  rcases step_params hstep with ⟨key, value, rfl, hparams⟩ | ⟨rfl, hparams⟩
  · rw [hparams]
    have hlen := h.length
    rw [← h.types] at hnd hi hlen
    exact updated_weights hnd hlen hi key value
  · rw [hparams]
    rfl

/-- After any calls a new generator holds for each parameter the value set last, its
samplers use these values, and calls that set nothing have changed nothing. -/
theorem parameters_exec (rate : UInt32) (ofTypes : List OFPT) (weights : List F) (rng : ρ)
    (baseTime : TimePoint) (hnd : ofTypes.Nodup) (hlen : weights.length = ofTypes.length)
    (calls : List Call) (g : Running F ρ)
    (h : Transition.exec (step p) (create p rate ofTypes weights rng baseTime) calls = some g) :
    (∀ (i : ℕ) type w, ofTypes[i]? = some type → weights[i]? = some w →
      g.params.weights[i]? = some (lastSet (Call.weight p.cast type) calls w)) ∧
    g.params.nd = lastSet (Call.rate p.cast) calls rate ∧
    g.params.Synced ∧ g.params.ofTypes = ofTypes ∧
    g.params.weights.length = g.params.ofTypes.length ∧
    ∀ key value, NoEffect p.cast ofTypes key value → g.afterUpdate p key value = g := by
  have hinit : Intact ofTypes (create p rate ofTypes weights rng baseTime) :=
    ⟨synced_create rate ofTypes weights, rfl, hlen⟩
  have hintact : Intact ofTypes g :=
    Transition.exec_invariant (fun _ _ _ hg hstep => intact_step hg hstep) hinit h
  refine ⟨?_, ?_, hintact.synced, hintact.types, ?_, ?_⟩
  · intro i type w hi hw
    have hlast := Transition.exec_lastWrite (I := Intact ofTypes)
      (fun g : Running F ρ => g.params.weights[i]?.getD w) (Call.weight p.cast type)
      (fun _ _ _ hg hstep => intact_step hg hstep) (fun _ c _ hg hstep => ?_) hinit h
    · have hlt : i < g.params.weights.length := by
        rw [hintact.length, ← hlen]
        exact (List.getElem?_eq_some_iff.mp hw).1
      have hinitial :
          (create p rate ofTypes weights rng baseTime).params.weights[i]?.getD w = w := by
        change weights[i]?.getD w = w
        rw [hw]
        rfl
      rw [hinitial, List.getElem?_eq_getElem hlt] at hlast
      rw [List.getElem?_eq_getElem hlt]
      exact congrArg some hlast
    · rw [weights_step hnd hi hg hstep]
      cases c.weight p.cast type <;> rfl
  · exact Transition.exec_lastWrite (I := fun _ => True)
      (fun g : Running F ρ => g.params.nd) (Call.rate p.cast)
      (fun _ _ _ _ _ => trivial) (fun _ _ _ _ hstep => nd_step hstep) trivial h
  · rw [hintact.length, hintact.types]
  · intro key value hnone
    rw [← hintact.types] at hnone
    rw [afterUpdate_eq, update_eq, hnone.updated]

open TransactionIds in
/-- A type is raised and the other is given a weight that does not parse. -/
theorem parameters_exec_raised :
    ∃ g, Transition.exec (step steadyPlatform)
        (create steadyPlatform 5 [.echoRequest, .flowMod] [1, 2] () 0)
        [.update "ECHO_REQUEST".toList "4".toList, .next,
          .update "FLOW_MOD".toList "x".toList] = some g ∧
      g.params.weights[0]? = some 4 ∧ g.params.weights[1]? = some 2 ∧ g.params.nd = 5 := by
  obtain ⟨g, hg⟩ : ∃ g, Transition.exec (step steadyPlatform)
      (create steadyPlatform 5 [.echoRequest, .flowMod] [1, 2] () 0)
      [.update "ECHO_REQUEST".toList "4".toList, .next,
        .update "FLOW_MOD".toList "x".toList] = some g := ⟨_, rfl⟩
  obtain ⟨hweights, hnd, -⟩ :=
    parameters_exec (F := ℕ) 5 [.echoRequest, .flowMod] [1, 2] () 0 (by decide) rfl _ g hg
  exact ⟨g, hg, hweights 0 .echoRequest 1 rfl rfl, hweights 1 .flowMod 2 rfl rfl, hnd⟩

end Running
end TenantGenerator
end HVBench
