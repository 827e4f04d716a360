import HVBench.Statistics.OFLatencyStats

/-! What a statistics record holds of the latencies, of the controller and of its
connection. -/
namespace HVBench
namespace Collector

/-- `statistics_`. -/
abbrev Statistics := StdMap StdString ℤ

def latencyKey (name suffix : StdString) : StdString := "latency_".toList ++ name ++ suffix

/-- The three values written for one entry of `stats_latency_`. `none` is the
exception of `STR.at`. -/
def visitEntry (st : Statistics) (key : OFPT) (acc : AccMeanMinMax) : Option Statistics := do
  let name ← key.str
  if acc.count ≠ 0 then
    some <| ((st.insert (latencyKey name "_mean".toList) acc.mean).insert
      (latencyKey name "_min".toList) acc.min).insert (latencyKey name "_max".toList) acc.max
  else
    some <| ((st.insert (latencyKey name "_mean".toList) 0).insert
      (latencyKey name "_min".toList) 0).insert (latencyKey name "_max".toList) 0

/-- `Collector::visit(OFLatencyStats)`. -/
def visitLatency (st : Statistics) (stats : StdMap OFPT AccMeanMinMax) : Option Statistics :=
  stats.entries.foldlM (fun st e => visitEntry st e.1 e.2) st

def requestsKey (name : StdString) : StdString :=
  "requests_".toList ++ name ++ "_cnt".toList

/-- The value written for one message type. -/
def visitRequests (counters : StdMap OFPT UInt64) (st : Statistics) (type : OFPT) :
    Option Statistics :=
  type.str.map fun name => st.insert (requestsKey name) (counters.getD type 0).toNat

/-- `Collector::visit(HVBenchController)`. The two times come from the clocks. -/
def visitController (st : Statistics) (durationMs timestamp : ℤ)
    (counters : StdMap OFPT UInt64) : Option Statistics :=
  OFPT.reqTypes.foldlM (visitRequests counters)
    ((st.insert "duration_ms".toList durationMs).insert "timestamp".toList timestamp)

/-- `Collector::visit(OFConnWrapper)`. -/
def visitConn (st : Statistics) (byteCnt : UInt64) : Statistics :=
  st.insert "tx_bytes".toList byteCnt.toNat

theorem visitEntry_isSome {key : OFPT} (h : key.str.isSome) (st : Statistics)
    (acc : AccMeanMinMax) : (visitEntry st key acc).isSome := by
  obtain ⟨name, hname⟩ := Option.isSome_iff_exists.mp h
  simp only [visitEntry, hname, Option.bind_eq_bind, Option.bind_some]
  split <;> rfl

/-- `visit` throws only for a key without a name. -/
theorem visitLatency_isSome {stats : StdMap OFPT AccMeanMinMax}
    (h : ∀ k ∈ stats, k.str.isSome) (st : Statistics) : (visitLatency st stats).isSome := by
  have hentries : ∀ e ∈ stats.entries, e.1.str.isSome := fun e he =>
    h e.1 (AList.mem_keys.mpr (List.mem_map_of_mem he))
  unfold visitLatency
  generalize stats.entries = entries at hentries
  induction entries generalizing st with
  | nil => rfl
  | cons e entries ih =>
    obtain ⟨st', hst'⟩ := Option.isSome_iff_exists.mp
      (visitEntry_isSome (hentries e (by simp)) st e.2)
    simp only [List.foldlM_cons, hst', Option.bind_eq_bind, Option.bind_some]
    exact ih st' fun e he => hentries e (by simp [he])

/-- The latency keys of two names and two of the statistics agree only if these do. -/
theorem latencyKey_inj {n n' s s' : StdString}
    (hs : s ∈ ["_mean".toList, "_min".toList, "_max".toList])
    (hs' : s' ∈ ["_mean".toList, "_min".toList, "_max".toList])
    (h : latencyKey n s = latencyKey n' s') : n = n' ∧ s = s' := by
  unfold latencyKey at h
  have hsuffix : n ++ s = n' ++ s' := by
    rw [List.append_assoc, List.append_assoc] at h
    exact List.append_cancel_left h
  -- the last two characters tell the statistics apart
  have hlast := congrArg (fun w : StdString => w.reverse.take 2) hsuffix
  have hss : s = s' := by
    simp only [List.mem_cons, List.not_mem_nil, or_false] at hs hs'
    rcases hs with rfl | rfl | rfl <;> rcases hs' with rfl | rfl | rfl <;> simp at hlast ⊢
  subst hss
  exact ⟨List.append_cancel_right hsuffix, rfl⟩

/-- The values a record has for the latencies of a message type. -/
structure HasLatency (st : Statistics) (name : StdString) (lo mean hi : ℤ) : Prop where
  mean : st.lookup (latencyKey name "_mean".toList) = some mean
  min : st.lookup (latencyKey name "_min".toList) = some lo
  max : st.lookup (latencyKey name "_max".toList) = some hi

theorem visitEntry_of_count_ne {st : Statistics} {key : OFPT} {name : StdString}
    {acc : AccMeanMinMax} (hname : key.str = some name) (hacc : acc.count ≠ 0) :
    ∃ st', visitEntry st key acc = some st' ∧
      HasLatency st' name acc.min acc.mean acc.max := by
  simp only [visitEntry, hname, Option.bind_eq_bind, Option.bind_some, if_pos hacc]
  refine ⟨_, rfl, ?_⟩
  have hne : ∀ s ∈ ["_mean".toList, "_min".toList, "_max".toList],
      ∀ s' ∈ ["_mean".toList, "_min".toList, "_max".toList], s ≠ s' →
      latencyKey name s ≠ latencyKey name s' := by
    intro s hs s' hs' hss h
    exact hss (latencyKey_inj hs hs' h).2
  constructor
  · rw [AList.lookup_insert_ne (hne _ (by simp) _ (by simp) (by decide)),
      AList.lookup_insert_ne (hne _ (by simp) _ (by simp) (by decide)), AList.lookup_insert]
  · rw [AList.lookup_insert_ne (hne _ (by simp) _ (by simp) (by decide)), AList.lookup_insert]
  · exact AList.lookup_insert _

/-- An entry of another type leaves the values of this one. -/
theorem HasLatency.visitEntry {st st' : Statistics} {key key' : OFPT} {name : StdString}
    {acc : AccMeanMinMax} {lo mean hi : ℤ} (h : HasLatency st name lo mean hi)
    (hname : key.str = some name) (hkey : key' ≠ key)
    (hst : visitEntry st key' acc = some st') : HasLatency st' name lo mean hi := by
  obtain ⟨name', hname', hst⟩ := Option.bind_eq_some_iff.mp hst
  have hnames : name ≠ name' := by
    rintro rfl
    have hrstr := OFPT.rstr_str hname
    rw [OFPT.rstr_str hname'] at hrstr
    exact hkey (Option.some.inj hrstr)
  have hne : ∀ s ∈ ["_mean".toList, "_min".toList, "_max".toList],
      ∀ s' ∈ ["_mean".toList, "_min".toList, "_max".toList],
      latencyKey name s ≠ latencyKey name' s' := by
    intro s hs s' hs' h
    exact hnames (latencyKey_inj hs hs' h).1
  have hframe : ∀ s ∈ ["_mean".toList, "_min".toList, "_max".toList],
      st'.lookup (latencyKey name s) = st.lookup (latencyKey name s) := by
    intro s hs
    split_ifs at hst <;> obtain rfl := Option.some.inj hst <;>
      rw [AList.lookup_insert_ne (hne s hs _ (by simp)),
        AList.lookup_insert_ne (hne s hs _ (by simp)),
        AList.lookup_insert_ne (hne s hs _ (by simp))]
  exact ⟨(hframe _ (by simp)).trans h.mean, (hframe _ (by simp)).trans h.min,
    (hframe _ (by simp)).trans h.max⟩

theorem HasLatency.visitEntries {entries : List (Sigma fun _ : OFPT => AccMeanMinMax)}
    {st st' : Statistics} {key : OFPT} {name : StdString} {lo mean hi : ℤ}
    (h : HasLatency st name lo mean hi) (hname : key.str = some name)
    (hother : ∀ e ∈ entries, e.1 ≠ key)
    (hst : entries.foldlM (fun st e => Collector.visitEntry st e.1 e.2) st = some st') :
    HasLatency st' name lo mean hi := by
  induction entries generalizing st with
  | nil =>
    obtain rfl := Option.some.inj hst
    exact h
  | cons e entries ih =>
    rw [List.foldlM_cons] at hst
    obtain ⟨st₁, hst₁, hrest⟩ := Option.bind_eq_some_iff.mp hst
    exact ih (h.visitEntry hname (hother e (by simp)) hst₁)
      (fun e he => hother e (by simp [he])) hrest

/-- `visit` writes the values of every type that has samples. -/
theorem visitLatency_hasLatency {stats : StdMap OFPT AccMeanMinMax} {key : OFPT}
    {name : StdString} {acc : AccMeanMinMax} (hkeys : ∀ k ∈ stats, k.str.isSome)
    (hname : key.str = some name) (hlookup : stats.lookup key = some acc)
    (hacc : acc.count ≠ 0) (st : Statistics) :
    ∃ st', visitLatency st stats = some st' ∧
      HasLatency st' name acc.min acc.mean acc.max := by
  obtain ⟨st', hst'⟩ := Option.isSome_iff_exists.mp (visitLatency_isSome hkeys st)
  refine ⟨st', hst', ?_⟩
  have hmem : ⟨key, acc⟩ ∈ stats.entries := AList.mem_lookup_iff.mp hlookup
  obtain ⟨before, after, hentries⟩ := List.append_of_mem hmem
  have hnodup : (stats.entries.map Sigma.fst).Nodup := stats.nodupKeys
  unfold visitLatency at hst'
  rw [hentries, List.foldlM_append] at hst'
  obtain ⟨st₁, -, hst₁⟩ := Option.bind_eq_some_iff.mp hst'
  rw [List.foldlM_cons] at hst₁
  obtain ⟨st₂, hst₂, hafter⟩ := Option.bind_eq_some_iff.mp hst₁
  obtain ⟨st₂', hst₂', hlatency⟩ := visitEntry_of_count_ne hname hacc
  obtain rfl := Option.some.inj (hst₂'.symm.trans hst₂)
  refine hlatency.visitEntries hname (fun e he heq => ?_) hafter
  rw [hentries, List.map_append, List.map_cons] at hnodup
  obtain ⟨-, hcons, -⟩ := List.nodup_append.mp hnodup
  have hkey : key ∈ after.map Sigma.fst := List.mem_map.mpr ⟨e, he, heq⟩
  exact (List.nodup_cons.mp hcons).1 hkey

theorem visitRequests_isSome {types : List OFPT} (h : ∀ t ∈ types, t.str.isSome)
    (counters : StdMap OFPT UInt64) (st : Statistics) :
    (types.foldlM (visitRequests counters) st).isSome := by
  induction types generalizing st with
  | nil => rfl
  | cons t types ih =>
    obtain ⟨name, hname⟩ := Option.isSome_iff_exists.mp (h t (by simp))
    rw [List.foldlM_cons]
    unfold visitRequests
    rw [hname]
    exact ih (fun t ht => h t (by simp [ht])) _

/-- All message types that are counted have a name. -/
theorem visitController_isSome (st : Statistics) (durationMs timestamp : ℤ)
    (counters : StdMap OFPT UInt64) :
    (visitController st durationMs timestamp counters).isSome := by
  have hnames : ∀ t ∈ OFPT.reqTypes, t.str.isSome := by
    intro t ht
    exact OFPT.str_isSome_of_mem_reqTypes ht
  exact visitRequests_isSome hnames counters _

end Collector
end HVBench
