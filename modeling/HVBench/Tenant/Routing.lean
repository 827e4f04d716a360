import HVBench.Globals

/-! How a changed etcd key finds its way to the generator of a tenant. -/
namespace HVBench

/-- The standard exceptions the configuration handlers can throw. -/
inductive StdException
  | outOfRange
  | badLexicalCast
  deriving DecidableEq, Repr

namespace StdString

/-- `boost::split` at each slash. Adjacent slashes enclose an empty component. -/
def split (s : StdString) : List StdString := s.splitOn '/'

/-- `path.front()`. A split is never empty. -/
def front (s : StdString) : StdString := (split s).headD []

/-- `path.back()`. -/
def back (s : StdString) : StdString := (split s).getLastD []

def substr (s : StdString) (pos : ℕ) : Except StdException StdString :=
  if pos ≤ s.length then .ok (s.drop pos) else .error .outOfRange

/-- Two path components with the slash between them. -/
def join (base path : StdString) : StdString := base ++ '/' :: path

theorem front_join {c : StdString} (hc : '/' ∉ c) (rest : StdString) :
    front (join c rest) = c := by
  have hsplit : split (join c rest) = c :: split rest :=
    List.splitOn_append_cons_self_of_not_mem hc rest
  unfold front
  rw [hsplit]
  rfl

/-- Cutting off the first component leaves the rest of the path. -/
theorem substr_join (c rest : StdString) : substr (join c rest) (c.length + 1) = .ok rest := by
  have hlen : c.length + 1 ≤ (join c rest).length := by
    unfold join
    rw [List.length_append, List.length_cons]
    omega
  have hdrop : (join c rest).drop (c.length + 1) = rest := by
    unfold join
    simp
  unfold substr
  rw [if_pos hlen, hdrop]

end StdString

open StdString

/-- `Tenant::onChange`: the arguments of the call to `msg_generator_->update`, if any. -/
def Tenant.onChange (key value : StdString) :
    Except StdException (Option (StdString × StdString)) := do
  let component := front key
  let confKey ← substr key (component.length + 1)
  if component = "generator_conf".toList then
    pure (some (confKey, value))
  else if component = "weights".toList then
    pure (some (confKey, value))
  else
    pure none

/-- `_onChangeTenantConf` on the key/value pairs of a reply: the tenant whose generator is
updated, if any, and the arguments. -/
def onChangeTenantConf (tenants : StdString → Bool) (pairs : List (StdString × StdString)) :
    Except StdException (Option (StdString × StdString × StdString)) :=
  match pairs with
  | [] => pure none
  | (key, value) :: _ => do
    let tenantConf ← substr key (etcdTenantsConf.length + 1)
    let tenant := front tenantConf
    let confKey ← substr tenantConf (tenant.length + 1)
    if tenants tenant then
      let update ← Tenant.onChange confKey value
      pure (update.map (Prod.mk tenant))
    else
      pure none

theorem onChange_join {component : StdString} (hc : '/' ∉ component) (rest value : StdString) :
    Tenant.onChange (join component rest) value =
      .ok (if component = "generator_conf".toList ∨ component = "weights".toList then
        some (rest, value) else none) := by
  unfold Tenant.onChange
  rw [front_join hc]
  dsimp only
  rw [substr_join]
  change (if component = "generator_conf".toList then pure (some (rest, value))
    else if component = "weights".toList then pure (some (rest, value)) else pure none) = _
  by_cases hg : component = "generator_conf".toList
  · rw [if_pos hg, if_pos (.inl hg)]
    rfl
  · by_cases hw : component = "weights".toList
    · rw [if_neg hg, if_pos hw, if_pos (.inr hw)]
      rfl
    · rw [if_neg hg, if_neg hw, if_neg (by tauto)]
      rfl

/-- A change below a tenant's directory is looked up by the tenant's name and passed on
with the rest of its path. -/
theorem onChangeTenantConf_join (tenants : StdString → Bool) {tenant : StdString}
    (ht : '/' ∉ tenant) (path value : StdString) (others : List (StdString × StdString)) :
    onChangeTenantConf tenants ((join etcdTenantsConf (join tenant path), value) :: others) =
      if tenants tenant then
        (Tenant.onChange path value).map (Option.map (Prod.mk tenant))
      else .ok none := by
  unfold onChangeTenantConf
  dsimp only
  rw [substr_join]
  change (do
    let confKey ← substr (join tenant path) ((front (join tenant path)).length + 1)
    if tenants (front (join tenant path)) then
      let update ← Tenant.onChange confKey value
      pure (update.map (Prod.mk (front (join tenant path))))
    else pure none) = _
  rw [front_join ht, substr_join]
  change (if tenants tenant then
    (do
      let update ← Tenant.onChange path value
      pure (update.map (Prod.mk tenant)))
    else pure none) = _
  split_ifs
  · cases Tenant.onChange path value <;> rfl
  · rfl

end HVBench
