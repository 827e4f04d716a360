import HVBench.Tenant.Setup
import Mathlib.Logic.Function.Basic

/-! `etcd_helper`: reading and writing below a base path, with etcd as a map from absolute
keys to values. Reader and writer build the absolute key on their own. -/
namespace HVBench
open Etcd StdString

/-- The answer to a `Get` of a key. A missing key is answered with error 100. -/
def Store.reply (store : Store) (key : StdString) : Except Thrown RapidReply :=
  match store key with
  | some value => .ok ⟨some "get".toList, some (.mk (some key) (some value) false [] none)⟩
  | none => .error (.replyException 100)

/-- The effect of a `Set`. -/
def Store.set (store : Store) (key value : StdString) : Store :=
  Function.update store key (some value)

namespace EtcdHelper

/-- The key `etcd_get` reads. -/
def getPath (basep path : StdString) (abs : Bool) : StdString :=
  if !abs then join basep path else path

/-- The key `etcd_write` writes. Its test of the flag is the other way round. -/
def writePath (basep path : StdString) (abs : Bool) : StdString :=
  if abs then join basep path else path

/-- `etcd_get`. A reply has a `node`, and `pairs[abs_path]` creates a missing entry. -/
def etcdGet (store : Store) (basep path : StdString) (abs : Bool) : Except Thrown StdString := do
  let reply ← store.reply (getPath basep path abs)
  let pairs := reply.getAll.getD []
  pure ((pairs.lookup (getPath basep path abs)).getD [])

def etcdWrite (store : Store) (basep path value : StdString) (abs : Bool) : Store :=
  store.set (writePath basep path abs) value

/-- A write changes the key that is read with the same arguments, and no other. -/
structure ReadBack (store : Store) (basep path value : StdString) (abs : Bool) : Prop where
  changes : ∀ key, key ≠ getPath basep path abs →
    etcdWrite store basep path value abs key = store key
  same : etcdGet (etcdWrite store basep path value abs) basep path abs = .ok value
  other : ∀ path' abs', getPath basep path' abs' ≠ getPath basep path abs →
    etcdGet (etcdWrite store basep path value abs) basep path' abs' =
      etcdGet store basep path' abs'

/-- What `etcd_get` makes of the reply is the value of the key. -/
theorem etcdGet_eq (store : Store) (basep path : StdString) (abs : Bool) :
    etcdGet store basep path abs = store.get (getPath basep path abs) := by
  unfold etcdGet Store.reply Store.get
  cases store (getPath basep path abs) with
  | none => rfl
  | some value =>
    change Except.ok ((List.lookup _ [(getPath basep path abs, value)]).getD []) = .ok value
    rw [List.lookup_cons_self, Option.getD_some]

/-- A write goes to the key that is read with the other flag. -/
theorem writePath_eq (basep path : StdString) (abs : Bool) :
    writePath basep path abs = getPath basep path (!abs) := by
  cases abs <;> rfl

/-- What a read returns after a write. -/
theorem etcdGet_etcdWrite (store : Store) (basep path value path' : StdString)
    (abs abs' : Bool) :
    etcdGet (etcdWrite store basep path value abs) basep path' abs' =
      if getPath basep path' abs' = writePath basep path abs then .ok value
      else etcdGet store basep path' abs' := by
  rw [etcdGet_eq, etcdGet_eq]
  unfold etcdWrite Store.set Store.get
  by_cases hkey : getPath basep path' abs' = writePath basep path abs
  · rw [if_pos hkey, hkey, Function.update_self]
  · rw [if_neg hkey, Function.update_of_ne hkey]

theorem join_ne (basep path : StdString) : join basep path ≠ path := by
  intro h
  have hlength := congrArg List.length h
  simp only [join, List.length_append, List.length_cons] at hlength
  omega

/-- Reader and writer agree on no arguments. -/
theorem getPath_ne_writePath (basep path : StdString) (abs : Bool) :
    getPath basep path abs ≠ writePath basep path abs := by
  cases abs with
  | false => exact join_ne basep path
  | true => exact (join_ne basep path).symm

theorem etcdGet_eq_ok_iff {store : Store} {basep path value : StdString} {abs : Bool} :
    etcdGet store basep path abs = .ok value ↔
      store (getPath basep path abs) = some value := by
  rw [etcdGet_eq, Store.get]
  cases store (getPath basep path abs) with
  | none => simp
  | some value' => simp

/-- A write is read back, with everything else unchanged, if and only if it writes what
both keys have already: the one it is meant for and the one it goes to. -/
theorem readBack_iff (store : Store) (basep path value : StdString) (abs : Bool) :
    ReadBack store basep path value abs ↔
      store (getPath basep path abs) = some value ∧
        store (writePath basep path abs) = some value := by
  have hne := getPath_ne_writePath basep path abs
  constructor
  · intro h
    constructor
    · have hsame := h.same
      rw [etcdGet_etcdWrite, if_neg hne] at hsame
      exact etcdGet_eq_ok_iff.mp hsame
    · have hchanges := h.changes _ hne.symm
      rw [etcdWrite, Store.set, Function.update_self] at hchanges
      exact hchanges.symm
  · intro ⟨hread, hwritten⟩
    have hstore : etcdWrite store basep path value abs = store := by
      rw [etcdWrite, Store.set, ← hwritten, Function.update_eq_self]
    rw [← etcdGet_eq_ok_iff] at hread
    refine ⟨fun _ _ => ?_, ?_, fun _ _ _ => ?_⟩
    · rw [hstore]
    · rw [hstore, hread]
    · rw [hstore]

/-- A value written below the base path of a tenant is stored under a key of its own. -/
theorem write_not_read_back :
    ¬ ∀ store basep path value abs, ReadBack store basep path value abs := by
  intro h
  have hread := h (fun _ => none) "/hvbench/tenants/t1".toList "generator".toList
    "constant".toList false
  have hkeys := (readBack_iff _ _ _ _ _).mp hread
  exact absurd hkeys.1 (by simp)

end EtcdHelper
end HVBench
