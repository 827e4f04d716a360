import HVBench.Generators.AbstractGenerator
import HVBench.Tenant.Setup

/-! The generators at the leaves: messages at a fixed distance, or of random types at random
distances. Each numbers its own messages. -/
namespace HVBench

/-- What the generators use of the libraries and of the machine. -/
structure Platform (F ρ : Type) where
  cast : LexicalCast F
  pktLen : OFMsgClass → ℕ
  /-- The conversion of the quotient by a rate of 0. -/
  infinite : UInt32
  /-- A sample of `_var_exp`, converted to microseconds, and one of `_var_disc`. -/
  varExp : UInt32 → ρ → ℕ × ρ
  varDisc : List F → ρ → ℕ × ρ
  /-- What a new `boost::chrono::microseconds` holds: its default constructor leaves the
  count as the memory had it. -/
  memory : ℤ

variable {F ρ : Type} (p : Platform F ρ)

/-- The rounded quotient is exact enough to be truncated to the integer one. -/
def interArrival (rate : UInt32) : UInt32 :=
  if rate = 0 then p.infinite else .ofNat (1000000000 / rate.toNat)

/-- A positive rate has a distance, and it fits into `uint32_t`. -/
theorem toNat_interArrival {rate : UInt32} (hrate : 0 < rate.toNat) :
    (interArrival p rate).toNat = 1000000000 / rate.toNat := by
  have hne : rate ≠ 0 := by
    rintro rfl
    exact absurd hrate (by decide)
  have hlt : 1000000000 / rate.toNat < UInt32.size :=
    Nat.lt_of_le_of_lt (Nat.div_le_self _ _) (by decide)
  rw [interArrival, if_neg hne, UInt32.toNat_ofNat_of_lt' hlt]

structure ConstantGenerator where
  interArrivalT : UInt32
  localNs : ℕ
  baseTime : TimePoint
  msgFactory : OFMsgFactory
  counters : StdMap OFPT UInt32

namespace ConstantGenerator

def create (avgRate : UInt32) (msgT : StdString) (baseTime : TimePoint) : ConstantGenerator where
  interArrivalT := interArrival p avgRate
  localNs := 0
  baseTime := baseTime
  msgFactory := getMessageFactory msgT
  counters := ∅

def peek (g : ConstantGenerator) : TimePoint :=
  g.baseTime + g.localNs + g.interArrivalT.toNat

def next (g : ConstantGenerator) : ScheduledMsg × ConstantGenerator :=
  let localNs := g.localNs + g.interArrivalT.toNat
  let made := g.msgFactory.make p.pktLen
  let msg : ScheduledMsg := ⟨g.baseTime + localNs, made.1⟩
  (msg,
    { g with
      localNs := localNs
      msgFactory := made.2
      counters := AbstractGenerator.count g.counters msg })

/-- `update`. A value that does not parse throws before anything is changed. -/
def update (g : ConstantGenerator) (key value : StdString) : ConstantGenerator :=
  if key = "avg_rate".toList then
    match p.cast.uint32 value with
    | some rate => { g with interArrivalT := interArrival p rate }
    | none => g
  else g

variable {p}

theorem next_timeNs (g : ConstantGenerator) : (g.next p).1.timeNs = g.peek := by
  change g.baseTime + ((g.localNs + g.interArrivalT.toNat : ℕ) : ℤ) = _
  rw [Int.natCast_add, ← Int.add_assoc]
  rfl

end ConstantGenerator

namespace TenantGenerator

/-- The cases of the `switch` over the type of the next message. -/
def classOf : OFPT → Option OFMsgClass
  | .featureRequest => some .featureRequest
  | .echoRequest => some .echoRequest
  | .statsRequestPort => some .statsRequestPort
  | .statsRequestFlow => some .statsRequestFlow
  | .packetOutUdp => some .packetOutUdp
  | .flowMod => some .flowMod
  | _ => none

theorem classOf_type {type : OFPT} {cls : OFMsgClass} (h : classOf type = some cls) :
    cls.type = type := by
  cases type <;> simp only [classOf, Option.some.injEq, reduceCtorEq] at h <;> subst h <;> rfl

/-- A `TenantGenerator` with its random numbers, its schedule and its message count. -/
structure Running (F ρ : Type) where
  params : TenantGenerator F
  rng : ρ
  /-- In microseconds. -/
  nextMsg : ℤ
  idx : UInt32
  baseTime : TimePoint
  counters : StdMap OFPT UInt32

namespace Running

/-- The constructor, which adds the first draw to an uninitialised `_next_msg`. -/
def create (avgRate : UInt32) (ofTypes : List OFPT) (weights : List F) (rng : ρ)
    (baseTime : TimePoint) : Running F ρ where
  params := TenantGenerator.create avgRate ofTypes weights
  rng := (p.varExp avgRate rng).2
  nextMsg := p.memory + (p.varExp avgRate rng).1
  idx := 0
  baseTime := baseTime
  counters := ∅

def peek (g : Running F ρ) : TimePoint := g.baseTime + 1000 * g.nextMsg

/-- `next`. A type without a case fails an assertion. -/
def next (g : Running F ρ) : Option (ScheduledMsg × Running F ρ) :=
  let type := p.varDisc g.params.varDisc g.rng
  (g.params.ofTypes[type.1]?).bind fun nextType =>
    (classOf nextType).map fun cls =>
      let msg : ScheduledMsg := ⟨g.baseTime + 1000 * g.nextMsg, cls.gen p.pktLen (g.idx + 1)⟩
      let wait := p.varExp g.params.varExp type.2
      (msg,
        { g with
          rng := wait.2
          nextMsg := g.nextMsg + wait.1
          idx := g.idx + 1
          counters := AbstractGenerator.count g.counters msg })

/-- `update`. An exception leaves the generator as it was. -/
def update (g : Running F ρ) (key value : StdString) : Running F ρ :=
  match g.params.update p.cast key value with
  | .ok params => { g with params := params }
  | .error _ => g

/-- What a call of `next` does. -/
structure Made (g : Running F ρ) (msg : ScheduledMsg) (g' : Running F ρ) : Prop where
  timeNs : msg.timeNs = g.peek
  type : g.params.ofTypes[(p.varDisc g.params.varDisc g.rng).1]? = some msg.ofMsg.type
  xid : msg.ofMsg.xid = g.idx + 1
  params : g'.params = g.params
  rng : g'.rng = (p.varExp g.params.varExp (p.varDisc g.params.varDisc g.rng).2).2
  nextMsg : g'.nextMsg =
    g.nextMsg + (p.varExp g.params.varExp (p.varDisc g.params.varDisc g.rng).2).1
  idx : g'.idx = g.idx + 1
  baseTime : g'.baseTime = g.baseTime
  counters : g'.counters = AbstractGenerator.count g.counters msg

variable {p}

theorem next_made {g g' : Running F ρ} {msg : ScheduledMsg} (h : g.next p = some (msg, g')) :
    Made p g msg g' := by
  obtain ⟨type, htype, hmap⟩ := Option.bind_eq_some_iff.mp h
  obtain ⟨cls, hcls, heq⟩ := Option.map_eq_some_iff.mp hmap
  obtain ⟨rfl, rfl⟩ := Prod.mk.inj heq
  have hmsg : cls.type = type := classOf_type hcls
  exact ⟨rfl, htype.trans (congrArg some hmsg.symm), rfl, rfl, rfl, rfl, rfl, rfl, rfl⟩

theorem exists_next {g : Running F ρ}
    (hdisc : (p.varDisc g.params.varDisc g.rng).1 < g.params.ofTypes.length)
    (htypes : ∀ type ∈ g.params.ofTypes, (classOf type).isSome) :
    ∃ msg g', g.next p = some (msg, g') := by
  obtain ⟨cls, hcls⟩ := Option.isSome_iff_exists.mp (htypes _ (List.getElem_mem hdisc))
  unfold next
  dsimp only
  rw [List.getElem?_eq_getElem hdisc, Option.bind_some, hcls]
  exact ⟨_, _, rfl⟩

/-- The draws are not negative, so the next message is not earlier. -/
theorem Made.peek_le {g g' : Running F ρ} {msg : ScheduledMsg} (h : Made p g msg g') :
    g.peek ≤ g'.peek := by
  rw [peek, peek, h.baseTime, h.nextMsg]
  apply Int.add_le_add_left
  apply Int.mul_le_mul_of_nonneg_left ?_ (by decide)
  exact Int.le_add_of_nonneg_right (Int.natCast_nonneg _)

end Running
end TenantGenerator

inductive Leaf (F ρ : Type)
  | constant (g : ConstantGenerator)
  | tenant (g : TenantGenerator.Running F ρ)

namespace Leaf

def create (setup : GeneratorSetup F) (rng : ρ) (baseTime : TimePoint) : Leaf F ρ :=
  match setup with
  | .constant avgRate msgT => .constant (ConstantGenerator.create p avgRate msgT baseTime)
  | .tenant avgRate ofTypes weights => .tenant (.create p avgRate ofTypes weights rng baseTime)

def ops : LeafOps (Leaf F ρ) where
  peek
    | .constant g => (g.peek, .constant g)
    | .tenant g => (g.peek, .tenant g)
  next
    | .constant g => some ((g.next p).1, .constant (g.next p).2)
    | .tenant g => (g.next p).map fun r => (r.1, .tenant r.2)

def setTimeReference (baseTime : TimePoint) : Leaf F ρ → Leaf F ρ
  | .constant g => .constant { g with baseTime := baseTime }
  | .tenant g => .tenant { g with baseTime := baseTime }

def update (key value : StdString) : Leaf F ρ → Leaf F ρ
  | .constant g => .constant (g.update p key value)
  | .tenant g => .tenant (g.update p key value)

def baseTime : Leaf F ρ → TimePoint
  | .constant g => g.baseTime
  | .tenant g => g.baseTime

def counters : Leaf F ρ → StdMap OFPT UInt32
  | .constant g => g.counters
  | .tenant g => g.counters

/-- The counter the xids are taken from. -/
def cnt : Leaf F ρ → UInt32
  | .constant g => g.msgFactory.cnt
  | .tenant g => g.idx

variable {p}

theorem cnt_create (setup : GeneratorSetup F) (rng : ρ) (baseTime : TimePoint) :
    (create p setup rng baseTime).cnt = 0 := by
  cases setup with
  | constant avgRate msgT => exact getMessageFactory_cnt msgT
  | tenant avgRate ofTypes weights => rfl

theorem cnt_update (key value : StdString) (l : Leaf F ρ) : (l.update p key value).cnt = l.cnt := by
  cases l with
  | constant g =>
    simp only [update, ConstantGenerator.update, cnt]
    split_ifs
    · split <;> rfl
    · rfl
  | tenant g =>
    simp only [update, TenantGenerator.Running.update, cnt]
    split <;> rfl

/-- The xid of a message is the number of the message in its generator. -/
theorem next_xid {l l' : Leaf F ρ} {msg : ScheduledMsg} (h : (ops p).next l = some (msg, l')) :
    msg.ofMsg.xid = l.cnt + 1 ∧ l'.cnt = l.cnt + 1 := by
  cases l with
  | constant g =>
    obtain ⟨rfl, rfl⟩ := Prod.mk.inj (Option.some.inj h)
    exact ⟨rfl, rfl⟩
  | tenant g =>
    obtain ⟨⟨msg', g'⟩, hnext, heq⟩ := Option.map_eq_some_iff.mp h
    obtain ⟨rfl, rfl⟩ := Prod.mk.inj heq
    have hmade := TenantGenerator.Running.next_made hnext
    exact ⟨hmade.xid, hmade.idx⟩

/-- A message is counted, and the time reference stays. -/
theorem next_counted {l l' : Leaf F ρ} {msg : ScheduledMsg}
    (h : (ops p).next l = some (msg, l')) :
    l'.counters = AbstractGenerator.count l.counters msg ∧ l'.baseTime = l.baseTime := by
  cases l with
  | constant g =>
    obtain ⟨rfl, rfl⟩ := Prod.mk.inj (Option.some.inj h)
    exact ⟨rfl, rfl⟩
  | tenant g =>
    obtain ⟨⟨msg', g'⟩, hnext, heq⟩ := Option.map_eq_some_iff.mp h
    obtain ⟨rfl, rfl⟩ := Prod.mk.inj heq
    have hmade := TenantGenerator.Running.next_made hnext
    exact ⟨hmade.counters, hmade.baseTime⟩

theorem peek_pure (l : Leaf F ρ) : ((ops p).peek l).2 = l := by
  cases l <;> rfl

/-- The generator has a weight for each type, as the sampler does, and each type has a message
class. -/
structure DrawsMessages (params : TenantGenerator F) : Prop where
  nonempty : params.varDisc ≠ []
  length : params.varDisc.length = params.ofTypes.length
  weights : params.weights.length = params.ofTypes.length
  types : ∀ type ∈ params.ofTypes, (TenantGenerator.classOf type).isSome

def Ready : Leaf F ρ → Prop
  | .constant _ => True
  | .tenant g => DrawsMessages g.params

/-- Both kinds of generators keep their own schedule. -/
theorem wellBehaved (hdisc : ∀ weights rng, weights ≠ [] →
    (p.varDisc weights rng).1 < weights.length) :
    (ops p).WellBehaved Ready := by
  constructor
  · intro l _
    exact peek_pure l
  · intro l hready
    cases l with
    | constant g =>
      exact ⟨_, _, rfl, trivial, g.next_timeNs, Int.le_add_of_nonneg_right (Int.natCast_nonneg _)⟩
    | tenant g =>
      obtain ⟨hne, hlen, hweights, htypes⟩ := hready
      have hlt := hdisc g.params.varDisc g.rng hne
      rw [hlen] at hlt
      obtain ⟨msg, g', hnext⟩ := TenantGenerator.Running.exists_next hlt htypes
      have hmade := TenantGenerator.Running.next_made hnext
      refine ⟨msg, .tenant g', ?_, ?_, hmade.timeNs, ?_⟩
      · change (g.next p).map _ = _
        rw [hnext]
        rfl
      · change DrawsMessages g'.params
        rw [hmade.params]
        exact ⟨hne, hlen, hweights, htypes⟩
      · rw [hmade.timeNs]
        exact hmade.peek_le

end Leaf
end HVBench
