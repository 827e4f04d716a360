import HVBench.Tenant.Routing

/-! The parameters of the generator that draws message types and times at random, and the
update of one of them. -/
namespace HVBench

/-- `boost::lexical_cast` to the two types the generators read. `none` where it throws. -/
structure LexicalCast (F : Type*) where
  float : StdString → Option F
  uint32 : StdString → Option UInt32

/-- `TenantGenerator`, without the random numbers and the schedule. A
`variate_generator` holds a copy of its distribution. -/
structure TenantGenerator (F : Type*) where
  weights : List F
  ofTypes : List OFPT
  /-- The rate of `_nd` and of its copy in `_var_exp`. -/
  nd : UInt32
  varExp : UInt32
  /-- The weights in `_discrete_nd` and in its copy in `_var_disc`. -/
  discreteNd : List F
  varDisc : List F
  deriving DecidableEq, Repr

namespace TenantGenerator
variable {F : Type*} (cast : LexicalCast F)

def create (rate : UInt32) (ofTypes : List OFPT) (weights : List F) : TenantGenerator F where
  weights := weights
  ofTypes := ofTypes
  nd := rate
  varExp := rate
  discreteNd := weights
  varDisc := weights

/-- The first part of `update`. -/
def updateRate (g : TenantGenerator F) (key value : StdString) :
    Except StdException (TenantGenerator F) :=
  if key = "avg_rate".toList then
    match cast.uint32 value with
    | some rate => .ok { g with nd := rate, varExp := rate }
    | none => .error .badLexicalCast
  else .ok g

/-- The second part, which a rate update also goes through. -/
def updateWeight (g : TenantGenerator F) (key value : StdString) :
    Except StdException (TenantGenerator F) :=
  match OFPT.rstr key with
  | none => .ok g
  | some type =>
    if type ∈ g.ofTypes then
      match cast.float value with
      | some weight =>
        let weights := g.weights.set (g.ofTypes.idxOf type) weight
        .ok { g with weights := weights, discreteNd := weights, varDisc := weights }
      | none => .error .badLexicalCast
    else .ok g

def update (g : TenantGenerator F) (key value : StdString) :
    Except StdException (TenantGenerator F) :=
  (g.updateRate cast key value).bind fun g => g.updateWeight cast key value

/-- The weight a message type is drawn with. -/
def weight (g : TenantGenerator F) (type : OFPT) : Option F :=
  g.weights[g.ofTypes.idxOf type]?

/-- The samplers use the current parameters. -/
structure Synced (g : TenantGenerator F) : Prop where
  varExp : g.varExp = g.nd
  discreteNd : g.discreteNd = g.weights
  varDisc : g.varDisc = g.weights

theorem synced_create (rate : UInt32) (ofTypes : List OFPT) (weights : List F) :
    (create rate ofTypes weights).Synced :=
  ⟨rfl, rfl, rfl⟩

variable {cast}

theorem update_rate (g : TenantGenerator F) {value : StdString} {rate : UInt32}
    (h : cast.uint32 value = some rate) :
    g.update cast "avg_rate".toList value = .ok { g with nd := rate, varExp := rate } := by
  have hrate : g.updateRate cast "avg_rate".toList value =
      .ok { g with nd := rate, varExp := rate } := by
    unfold updateRate
    rw [if_pos rfl, h]
  have hname : OFPT.rstr "avg_rate".toList = none := rfl
  unfold update
  rw [hrate]
  simp only [Except.bind]
  unfold updateWeight
  rw [hname]

theorem update_weight (g : TenantGenerator F) {type : OFPT} {name value : StdString} {w : F}
    (hname : type.str = some name) (htype : type ∈ g.ofTypes) (h : cast.float value = some w) :
    g.update cast name value = .ok
      { g with
        weights := g.weights.set (g.ofTypes.idxOf type) w
        discreteNd := g.weights.set (g.ofTypes.idxOf type) w
        varDisc := g.weights.set (g.ofTypes.idxOf type) w } := by
  have hr : OFPT.rstr name = some type := OFPT.rstr_str hname
  have hne : name ≠ "avg_rate".toList := by
    intro heq
    rw [heq] at hr
    cases hr
  have hrate : g.updateRate cast name value = .ok g := by
    unfold updateRate
    rw [if_neg hne]
  unfold update
  rw [hrate]
  simp only [Except.bind]
  unfold updateWeight
  rw [hr]
  dsimp only
  rw [if_pos htype, h]

/-- The weight of one type is set, those of the others stay. -/
theorem weight_set (g : TenantGenerator F) (type : OFPT) {other : OFPT} (w : F)
    (hother : other ∈ g.ofTypes) (hlen : g.weights.length = g.ofTypes.length) :
    (g.weights.set (g.ofTypes.idxOf type) w)[g.ofTypes.idxOf other]? =
      if other = type then some w else g.weight other := by
  have hlt : g.ofTypes.idxOf other < g.weights.length := by
    rw [hlen]
    exact List.idxOf_lt_length_iff.mpr hother
  by_cases heq : other = type
  · subst heq
    rw [if_pos rfl, List.getElem?_set_self hlt]
  · have hne : g.ofTypes.idxOf type ≠ g.ofTypes.idxOf other := by
      intro hidx
      exact heq ((List.idxOf_inj hother).mp hidx.symm)
    rw [if_neg heq, List.getElem?_set_ne hne]
    rfl

end TenantGenerator
end HVBench
