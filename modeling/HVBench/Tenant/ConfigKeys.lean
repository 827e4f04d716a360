import HVBench.Tenant.Routing

/-! The keys below the tenants directory, and which of them reach a generator. -/
namespace HVBench
open StdString

/-- A path component between two slashes. -/
abbrev PathName := { c : StdString // c ≠ [] ∧ '/' ∉ c }

/-- What follows the tenants directory in a key. The part below `weights` or
`generator_conf` is any non-empty string. -/
inductive ConfPath
  | tenant (tenant : PathName)
  | component (tenant component : PathName)
  | entry (tenant component : PathName) (rest : { r : StdString // r ≠ [] })

namespace ConfPath

def toString : ConfPath → StdString
  | tenant t => t.1
  | component t c => join t.1 c.1
  | entry t c rest => join t.1 (join c.1 rest.1)

def tenantName : ConfPath → StdString
  | tenant t => t.1
  | component t _ => t.1
  | entry t _ _ => t.1

def key (p : ConfPath) : StdString := join etcdTenantsConf p.toString

/-- The number of components. -/
def depth (p : ConfPath) : ℕ := (split p.toString).length

/-- The update a change at this path is for: an entry below `weights` or
`generator_conf` of a known tenant is for its generator. -/
def update (tenants : StdString → Bool) (value : StdString) :
    ConfPath → Option (StdString × StdString × StdString)
  | entry t c rest =>
    if tenants t.1 ∧ (c.1 = "weights".toList ∨ c.1 = "generator_conf".toList) then
      some (t.1, rest.1, value)
    else none
  | _ => none

end ConfPath

/-- The two handlers return, having called `update` where the change is for a generator
and nowhere else. -/
def RoutedCorrectly (tenants : StdString → Bool) (p : ConfPath) (value : StdString)
    (others : List (StdString × StdString)) : Prop :=
  onChangeTenantConf tenants ((p.key, value) :: others) = .ok (p.update tenants value)

namespace StdString

theorem split_of_not_mem {c : StdString} (hc : '/' ∉ c) : split c = [c] :=
  List.splitOn_eq_singleton hc

theorem split_join {c : StdString} (hc : '/' ∉ c) (rest : StdString) :
    split (join c rest) = c :: split rest := List.splitOn_append_cons_self_of_not_mem hc rest

theorem front_of_not_mem {c : StdString} (hc : '/' ∉ c) : front c = c := by
  rw [front, split_of_not_mem hc]
  rfl

/-- The offset behind a component that nothing follows lies outside of the string. -/
theorem substr_length_succ (c : StdString) :
    substr c (c.length + 1) = .error .outOfRange := by
  have hpos : ¬ c.length + 1 ≤ c.length := by omega
  rw [substr, if_neg hpos]

theorem join_inj {c c' rest rest' : StdString} (hc : '/' ∉ c) (hc' : '/' ∉ c')
    (h : join c rest = join c' rest') : c = c' ∧ rest = rest' := by
  have hfront := congrArg front h
  rw [front_join hc, front_join hc'] at hfront
  subst hfront
  have hrest : '/' :: rest = '/' :: rest' := List.append_cancel_left h
  exact ⟨rfl, (List.cons.inj hrest).2⟩

/-- A string with a slash is its first component and what follows it. -/
theorem exists_join {s : StdString} (h : '/' ∈ s) : ∃ c rest, '/' ∉ c ∧ s = join c rest := by
  obtain ⟨c, rest, hs, hc⟩ := List.eq_append_cons_of_mem h
  exact ⟨c, rest, hc, hs⟩

end StdString

/-- The paths cover the keys: every one whose components are non-empty is such a path. -/
theorem ConfPath.exists_of_components {s : StdString} (h : ∀ c ∈ split s, c ≠ []) :
    ∃ p : ConfPath, p.toString = s := by
  by_cases hs : '/' ∈ s
  · obtain ⟨t, path, ht, rfl⟩ := exists_join hs
    rw [split_join ht] at h
    have htenant : t ≠ [] := h t (by simp)
    by_cases hpath : '/' ∈ path
    · obtain ⟨c, rest, hc, rfl⟩ := exists_join hpath
      rw [split_join hc] at h
      have hcomponent : c ≠ [] := h c (by simp)
      have hrest : rest ≠ [] := by
        rintro rfl
        exact h [] (by simp [split]) rfl
      exact ⟨.entry ⟨t, htenant, ht⟩ ⟨c, hcomponent, hc⟩ ⟨rest, hrest⟩, rfl⟩
    · have hcomponent : path ≠ [] := h path (by simp [split_of_not_mem hpath])
      exact ⟨.component ⟨t, htenant, ht⟩ ⟨path, hcomponent, hpath⟩, rfl⟩
  · have htenant : s ≠ [] := h s (by simp [split_of_not_mem hs])
    exact ⟨.tenant ⟨s, htenant, hs⟩, rfl⟩

@[simp] theorem depth_tenant (t : PathName) : (ConfPath.tenant t).depth = 1 := by
  simp [ConfPath.depth, ConfPath.toString, split_of_not_mem t.2.2]

@[simp] theorem depth_component (t c : PathName) : (ConfPath.component t c).depth = 2 := by
  simp [ConfPath.depth, ConfPath.toString, split_join t.2.2, split_of_not_mem c.2.2]

theorem depth_entry (t c : PathName) (rest : { r : StdString // r ≠ [] }) :
    3 ≤ (ConfPath.entry t c rest).depth := by
  have hne : split rest.1 ≠ [] := List.splitOn_ne_nil _ _
  have hlen : 0 < (split rest.1).length := List.length_pos_iff.mpr hne
  simp only [ConfPath.depth, ConfPath.toString, split_join t.2.2, split_join c.2.2,
    List.length_cons]
  omega

/-- `_onChangeTenantConf` cuts off a slash after the tenant without looking for it. -/
theorem onChangeTenantConf_tenant (tenants : StdString → Bool) (t : PathName)
    (value : StdString) (others : List (StdString × StdString)) :
    onChangeTenantConf tenants (((ConfPath.tenant t).key, value) :: others) =
      .error .outOfRange := by
  unfold onChangeTenantConf ConfPath.key ConfPath.toString
  dsimp only
  rw [substr_join]
  change (do
    let confKey ← substr t.1 ((front t.1).length + 1)
    if tenants (front t.1) then
      let update ← Tenant.onChange confKey value
      pure (update.map (Prod.mk (front t.1)))
    else pure none) = _
  rw [front_of_not_mem t.2.2, substr_length_succ]
  rfl

/-- So does `onChange` after the component. -/
theorem onChange_component {c : StdString} (hc : '/' ∉ c) (value : StdString) :
    Tenant.onChange c value = .error .outOfRange := by
  unfold Tenant.onChange
  rw [front_of_not_mem hc]
  dsimp only
  rw [substr_length_succ]
  rfl

/-- A change below the tenants directory is routed as intended if and only if its key has
a component after the tenant's, and one more where the tenant is known. -/
theorem routedCorrectly_iff (tenants : StdString → Bool) (p : ConfPath) (value : StdString)
    (others : List (StdString × StdString)) :
    RoutedCorrectly tenants p value others ↔
      2 ≤ p.depth ∧ (tenants p.tenantName = true → 3 ≤ p.depth) := by
  unfold RoutedCorrectly
  cases p with
  | tenant t =>
    rw [onChangeTenantConf_tenant, depth_tenant]
    constructor
    · intro h
      exact absurd h (by simp)
    · intro h
      exact absurd h.1 (by omega)
  | component t c =>
    have hkey := onChangeTenantConf_join tenants t.2.2 c.1 value others
    rw [onChange_component c.2.2] at hkey
    rw [ConfPath.key, ConfPath.toString, hkey, depth_component]
    by_cases ht : tenants t.1
    · rw [if_pos ht]
      constructor
      · intro h
        exact absurd h (by simp [Except.map])
      · intro h
        exact absurd (h.2 ht) (by omega)
    · rw [if_neg ht]
      exact ⟨fun _ => ⟨by omega, fun h => absurd h ht⟩, fun _ => rfl⟩
  | entry t c rest =>
    have hkey := onChangeTenantConf_join tenants t.2.2 (join c.1 rest.1) value others
    rw [onChange_join c.2.2] at hkey
    rw [ConfPath.key, ConfPath.toString, hkey]
    have hdepth := depth_entry t c rest
    refine ⟨fun _ => ⟨by omega, fun _ => hdepth⟩, fun _ => ?_⟩
    simp only [ConfPath.update]
    by_cases ht : tenants t.1
    · by_cases hc : c.1 = "generator_conf".toList ∨ c.1 = "weights".toList
      · rw [if_pos ht, if_pos hc, if_pos ⟨ht, hc.symm⟩]
        rfl
      · rw [if_pos ht, if_neg hc, if_neg fun h => hc h.2.symm]
        rfl
    · rw [if_neg ht, if_neg fun h => ht h.1]

theorem routedCorrectly_weights :
    RoutedCorrectly (fun _ => true)
      (.entry ⟨"t1".toList, by decide⟩ ⟨"weights".toList, by decide⟩
        ⟨"ECHO_REQUEST".toList, by decide⟩) "1".toList [] :=
  (routedCorrectly_iff _ _ _ _).mpr ⟨by decide, fun _ => by decide⟩

/-- The `generator` key of a known tenant is no update, and the handler throws. -/
theorem generator_key_throws :
    ¬ ∀ tenants p value others, RoutedCorrectly tenants p value others := by
  intro h
  have hrouted := h (fun _ => true)
    (.component ⟨"t1".toList, by decide⟩ ⟨"generator".toList, by decide⟩)
    "constant".toList []
  exact absurd hrouted (by unfold RoutedCorrectly; decide)

end HVBench
