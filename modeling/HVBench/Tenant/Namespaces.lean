import HVBench.Generators.Parameters
import HVBench.Library.Noninterference
import HVBench.Tenant.ConfigKeys

/-! The configuration of a tenant has a namespace for the rate and one for the weights.
`Tenant::onChange` passes on what is below either without saying which. -/
namespace HVBench
open StdString Noninterference

structure ConfChange where
  key : StdString
  value : StdString
  deriving DecidableEq, Repr

/-- The directories whose entries `onChange` passes on. -/
def IsDirectory (component : StdString) : Prop :=
  component = "generator_conf".toList ∨ component = "weights".toList

theorem IsDirectory.not_mem {component : StdString} (h : IsDirectory component) :
    '/' ∉ component := by
  rcases h with rfl | rfl <;> decide

theorem IsDirectory.inj {component component' confKey confKey' : StdString}
    (h : IsDirectory component) (h' : IsDirectory component')
    (heq : join component confKey = join component' confKey') :
    component = component' ∧ confKey = confKey' :=
  join_inj h.not_mem h'.not_mem heq

theorem isDirectory_generatorConf : IsDirectory "generator_conf".toList := Or.inl rfl

theorem isDirectory_weights : IsDirectory "weights".toList := Or.inr rfl

def rateKey : StdString := join "generator_conf".toList "avg_rate".toList

/-- The change is one of the rate. -/
def ConfChange.IsRate (c : ConfChange) : Prop := c.key = rateKey

/-- The change is one of the weight of the message type. -/
def ConfChange.IsWeight (type : OFPT) (c : ConfChange) : Prop :=
  type.str.map (join "weights".toList) = some c.key

instance : DecidablePred ConfChange.IsRate := fun _ => inferInstanceAs (Decidable (_ = _))

instance (type : OFPT) : DecidablePred (ConfChange.IsWeight type) :=
  fun _ => inferInstanceAs (Decidable (_ = _))

namespace Leaf
variable {F ρ : Type} (p : Platform F ρ)

/-- `onChange` and the `update` it calls. A change that throws leaves the generator. -/
def onChange (l : Leaf F ρ) (c : ConfChange) : Leaf F ρ :=
  match Tenant.onChange c.key c.value with
  | .ok (some (confKey, value)) => l.update p confKey value
  | _ => l

/-- The rate in effect. A `ConstantGenerator` keeps it as the distance of its messages. -/
def rate : Leaf F ρ → UInt32
  | .constant g => g.interArrivalT
  | .tenant g => g.params.varExp

/-- What `rate` is when this rate was accepted. -/
def accept (l : Leaf F ρ) (rate : UInt32) : UInt32 :=
  match l with
  | .constant _ => interArrival p rate
  | .tenant _ => rate

def weight (type : OFPT) : Leaf F ρ → Option F
  | .constant _ => none
  | .tenant g => g.params.weight type

def ofTypes : Leaf F ρ → List OFPT
  | .constant _ => []
  | .tenant g => g.params.ofTypes

variable {p}

@[simp] theorem update_ofTypes (l : Leaf F ρ) (key value : StdString) :
    (l.update p key value).ofTypes = l.ofTypes := by
  cases l with
  | constant g => rfl
  | tenant g =>
    simp only [update, ofTypes, TenantGenerator.Running.update_eq,
      TenantGenerator.updated_ofTypes]

@[simp] theorem update_accept (l : Leaf F ρ) (key value : StdString) (r : UInt32) :
    (l.update p key value).accept p r = l.accept p r := by
  cases l <;> rfl

theorem update_rate (l : Leaf F ρ) (key value : StdString) :
    (l.update p key value).rate =
      ((TenantGenerator.rateOf p.cast key value).map (l.accept p)).getD l.rate := by
  cases l with
  | constant g => exact g.update_interArrivalT p key value
  | tenant g =>
    simp only [update, rate, TenantGenerator.Running.update_eq, TenantGenerator.updated_varExp]
    cases TenantGenerator.rateOf p.cast key value <;> rfl

theorem update_weight (l : Leaf F ρ) (type : OFPT) (key value : StdString) :
    (l.update p key value).weight type =
      if type ∈ l.ofTypes then
        match TenantGenerator.weightOf p.cast type key value with
        | some weight => (l.weight type).map fun _ => weight
        | none => l.weight type
      else l.weight type := by
  cases l with
  | constant g => simp [update, weight, ofTypes]
  | tenant g =>
    simp only [update, weight, ofTypes, TenantGenerator.Running.update_eq]
    exact g.params.updated_weight type key value

/-- `update` is called with what is below either of the two directories. -/
theorem onChange_cases (l : Leaf F ρ) (c : ConfChange) :
    (∃ component confKey, IsDirectory component ∧ c.key = join component confKey ∧
      l.onChange p c = l.update p confKey c.value) ∨
    (∀ component confKey, IsDirectory component → c.key ≠ join component confKey) ∧
      l.onChange p c = l := by
  by_cases hslash : '/' ∈ c.key
  · obtain ⟨component, confKey, hcomponent, hkey⟩ := exists_join hslash
    have hchange := onChange_join hcomponent confKey c.value
    rw [← hkey] at hchange
    by_cases hdir : component = "generator_conf".toList ∨ component = "weights".toList
    · rw [if_pos hdir] at hchange
      refine Or.inl ⟨component, confKey, hdir, hkey, ?_⟩
      rw [onChange, hchange]
    · rw [if_neg hdir] at hchange
      refine Or.inr ⟨fun other confKey' hother h => hdir ?_, ?_⟩
      · rw [(join_inj hcomponent hother.not_mem (hkey.symm.trans h)).1]
        exact hother
      · rw [onChange, hchange]
  · refine Or.inr ⟨fun component confKey _ h => hslash ?_, ?_⟩
    · rw [h]
      simp [join]
    · rw [onChange, onChange_component hslash]

/-- An entry of one of the directories. -/
theorem onChange_entry (l : Leaf F ρ) {c : ConfChange} {component confKey : StdString}
    (hdir : IsDirectory component) (hkey : c.key = join component confKey) :
    l.onChange p c = l.update p confKey c.value := by
  rcases l.onChange_cases c with ⟨component', confKey', hdir', hkey', h⟩ | ⟨hnone, -⟩
  · rw [h, (hdir.inj hdir' (hkey.symm.trans hkey')).2]
  · exact absurd hkey (hnone component confKey hdir)

theorem onChange_ofTypes (l : Leaf F ρ) (c : ConfChange) :
    (l.onChange p c).ofTypes = l.ofTypes := by
  rcases l.onChange_cases c with ⟨_, confKey, -, -, h⟩ | ⟨-, h⟩
  · rw [h, update_ofTypes]
  · rw [h]

theorem onChange_accept (l : Leaf F ρ) (c : ConfChange) (r : UInt32) :
    (l.onChange p c).accept p r = l.accept p r := by
  rcases l.onChange_cases c with ⟨_, confKey, -, -, h⟩ | ⟨-, h⟩
  · rw [h, update_accept]
  · rw [h]

variable (p) in
/-- The change sets nothing from the other namespace: a rate below `weights` is the one in
effect, and a weight below `generator_conf` is the one the type has. -/
structure Harmless (l : Leaf F ρ) (c : ConfChange) : Prop where
  rate : c.key = join "weights".toList "avg_rate".toList →
    ∀ r, p.cast.uint32 c.value = some r → l.accept p r = l.rate
  weight : ∀ type ∈ l.ofTypes, type.str.map (join "generator_conf".toList) = some c.key →
    ∀ w old, p.cast.float c.value = some w → l.weight type = some old → w = old

/-- A change of the rate. -/
theorem onChange_rate_of_isRate (l : Leaf F ρ) {c : ConfChange} (hc : c.IsRate) :
    (l.onChange p c).rate = ((p.cast.uint32 c.value).map (l.accept p)).getD l.rate := by
  rw [onChange_entry l isDirectory_generatorConf hc, update_rate, TenantGenerator.rateOf,
    if_pos rfl]

/-- A change of another key leaves the rate exactly if it is harmless to it. -/
theorem onChange_rate_iff (l : Leaf F ρ) {c : ConfChange} (hc : ¬ c.IsRate) :
    (l.onChange p c).rate = l.rate ↔
      (c.key = join "weights".toList "avg_rate".toList →
        ∀ r, p.cast.uint32 c.value = some r → l.accept p r = l.rate) := by
  by_cases hkey : c.key = join "weights".toList "avg_rate".toList
  · rw [onChange_entry l isDirectory_weights hkey, update_rate, TenantGenerator.rateOf,
      if_pos rfl]
    cases p.cast.uint32 c.value with
    | none => simp
    | some r => simp [hkey]
  · refine ⟨fun _ h => absurd h hkey, fun _ => ?_⟩
    rcases l.onChange_cases c with ⟨component, confKey, hdir, hentry, h⟩ | ⟨-, h⟩
    · have hne : confKey ≠ "avg_rate".toList := by
        rintro rfl
        rcases hdir with rfl | rfl
        · exact hc hentry
        · exact hkey hentry
      rw [h, update_rate, TenantGenerator.rateOf, if_neg hne]
      rfl
    · rw [h]

/-- A change of the weight of a type. -/
theorem onChange_weight_of_isWeight (l : Leaf F ρ) {type : OFPT} {c : ConfChange}
    (hc : c.IsWeight type) :
    (l.onChange p c).weight type =
      if type ∈ l.ofTypes then
        match p.cast.float c.value with
        | some weight => (l.weight type).map fun _ => weight
        | none => l.weight type
      else l.weight type := by
  obtain ⟨name, hname, hkey⟩ := Option.map_eq_some_iff.mp hc
  rw [onChange_entry l isDirectory_weights hkey.symm, update_weight,
    TenantGenerator.weightOf, if_pos hname]

/-- A change of another key leaves the weight exactly if it is harmless to it. -/
theorem onChange_weight_iff (l : Leaf F ρ) {type : OFPT} {c : ConfChange}
    (hc : ¬ c.IsWeight type) :
    (l.onChange p c).weight type = l.weight type ↔
      (type ∈ l.ofTypes → type.str.map (join "generator_conf".toList) = some c.key →
        ∀ w old, p.cast.float c.value = some w → l.weight type = some old → w = old) := by
  by_cases hkey : type.str.map (join "generator_conf".toList) = some c.key
  · obtain ⟨name, hname, hjoin⟩ := Option.map_eq_some_iff.mp hkey
    rw [onChange_entry l isDirectory_generatorConf hjoin.symm, update_weight,
      TenantGenerator.weightOf, if_pos hname]
    by_cases htype : type ∈ l.ofTypes
    · rw [if_pos htype]
      cases p.cast.float c.value with
      | none => simp
      | some w =>
        cases l.weight type with
        | none => simp
        | some old =>
          constructor
          · rintro h - - _ _ ⟨⟩ ⟨⟩
            exact Option.some.inj h
          · intro h
            exact congrArg some (h htype hkey w old rfl rfl)
    · simp [htype]
  · refine ⟨fun _ _ h => absurd h hkey, fun _ => ?_⟩
    rcases l.onChange_cases c with ⟨component, confKey, hdir, hentry, h⟩ | ⟨-, h⟩
    · have hne : type.str ≠ some confKey := by
        intro hname
        rcases hdir with rfl | rfl
        · exact hkey (by rw [hname, hentry]; rfl)
        · exact hc (by rw [ConfChange.IsWeight, hname, hentry]; rfl)
      rw [h, update_weight, TenantGenerator.weightOf, if_neg hne]
      simp
    · rw [h]

variable (p) in
/-- At every point of a sequence of changes, the rate depends on the changes of the rate
only, and the weight of a type on those of its weight. Changes of other keys leave both. -/
structure Isolated (l : Leaf F ρ) (changes : List ConfChange) : Prop where
  rate : Purgeable (onChange p) Leaf.rate ConfChange.IsRate l changes
  weight : ∀ type,
    Purgeable (onChange p) (Leaf.weight type) (ConfChange.IsWeight type) l changes
  otherKeysRate : Quiet (onChange p) Leaf.rate ConfChange.IsRate l changes
  otherKeysWeight : ∀ type,
    Quiet (onChange p) (Leaf.weight type) (ConfChange.IsWeight type) l changes

theorem purgeable_rate_iff (l : Leaf F ρ) (changes : List ConfChange) :
    Purgeable (onChange p) Leaf.rate ConfChange.IsRate l changes ↔
      Quiet (onChange p) Leaf.rate ConfChange.IsRate l changes := by
  refine purgeable_iff_quiet (I := fun s => ∀ r, s.accept p r = l.accept p r) ?_ ?_
    (fun _ => rfl) changes
  · intro s c hs r
    rw [onChange_accept, hs]
  · intro s t c hs ht hc hst
    have haccept : s.accept p = t.accept p := funext fun r => (hs r).trans (ht r).symm
    rw [onChange_rate_of_isRate s hc, onChange_rate_of_isRate t hc, haccept, hst]

theorem purgeable_weight_iff (l : Leaf F ρ) (type : OFPT) (changes : List ConfChange) :
    Purgeable (onChange p) (Leaf.weight type) (ConfChange.IsWeight type) l changes ↔
      Quiet (onChange p) (Leaf.weight type) (ConfChange.IsWeight type) l changes := by
  refine purgeable_iff_quiet (I := fun s => s.ofTypes = l.ofTypes) ?_ ?_ rfl changes
  · intro s c hs
    rw [onChange_ofTypes, hs]
  · intro s t c hs ht hc hst
    rw [onChange_weight_of_isWeight s hc, onChange_weight_of_isWeight t hc, hs, ht, hst]

/-- Rate and weights are isolated from each other and from other keys if and only if every
change is harmless where it is made. -/
theorem isolated_iff (l : Leaf F ρ) (changes : List ConfChange) :
    Isolated p l changes ↔ ∀ before c after, changes = before ++ c :: after →
      Harmless p (run (onChange p) l before) c := by
  constructor
  · intro h before c after hchanges
    refine ⟨fun hkey => ?_, fun type htype hkey => ?_⟩
    · have hrate : ¬ c.IsRate := by
        intro hc
        have hdir := isDirectory_weights.inj isDirectory_generatorConf (hkey.symm.trans hc)
        exact absurd hdir.1 (by decide)
      exact (onChange_rate_iff _ hrate).mp (h.otherKeysRate before c after hchanges hrate) hkey
    · have hweight : ¬ c.IsWeight type := by
        intro hc
        obtain ⟨name, -, hjoin⟩ := Option.map_eq_some_iff.mp hkey
        obtain ⟨name', -, hjoin'⟩ := Option.map_eq_some_iff.mp hc
        have hdir := isDirectory_weights.inj isDirectory_generatorConf (hjoin'.trans hjoin.symm)
        exact absurd hdir.1 (by decide)
      exact (onChange_weight_iff _ hweight).mp
        (h.otherKeysWeight type before c after hchanges hweight) htype hkey
  · intro h
    have hrate : Quiet (onChange p) Leaf.rate ConfChange.IsRate l changes := by
      intro before c after hchanges hc
      exact (onChange_rate_iff _ hc).mpr (h before c after hchanges).rate
    have hweight : ∀ type,
        Quiet (onChange p) (Leaf.weight type) (ConfChange.IsWeight type) l changes := by
      intro type before c after hchanges hc
      exact (onChange_weight_iff _ hc).mpr ((h before c after hchanges).weight type)
    exact ⟨(purgeable_rate_iff l changes).mpr hrate,
      fun type => (purgeable_weight_iff l type changes).mpr (hweight type), hrate, hweight⟩

/-- Isolated sequences with the same changes of the rate give the same rate, and those with
the same changes of a weight the same weight. -/
theorem Isolated.agree {l : Leaf F ρ} {changes changes' : List ConfChange}
    (h : Isolated p l changes) (h' : Isolated p l changes') :
    (purge ConfChange.IsRate changes = purge ConfChange.IsRate changes' →
      (run (onChange p) l changes).rate = (run (onChange p) l changes').rate) ∧
    ∀ type, purge (ConfChange.IsWeight type) changes = purge (ConfChange.IsWeight type) changes' →
      (run (onChange p) l changes).weight type = (run (onChange p) l changes').weight type :=
  ⟨h.rate.obs_eq h'.rate, fun type => (h.weight type).obs_eq (h'.weight type)⟩

open TransactionIds in
/-- A write to `weights/avg_rate` changes the rate. -/
theorem rate_below_weights :
    ¬ ∀ (p : Platform ℕ Unit) (l : Leaf ℕ Unit) changes, Isolated p l changes := by
  intro h
  have hisolated := h steadyPlatform (.create steadyPlatform (.tenant 5 [.flowMod] [1]) () 0)
    [⟨join "weights".toList "avg_rate".toList, "7".toList⟩]
  have hquiet := hisolated.otherKeysRate [] _ [] rfl (by decide)
  exact absurd hquiet (by decide)

end Leaf
end HVBench
