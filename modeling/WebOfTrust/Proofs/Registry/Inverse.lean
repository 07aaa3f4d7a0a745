import Mathlib
import WebOfTrust.Registry

/-!
# The two tables of a registry

The nodes of identities and the identities of nodes are kept in two tables, which stay inverse to
each other: an identity is entered with a node that no other one has, and only on first sight.

* `Registry.Consistent`: the tables are inverse to each other; `ext_lookup`: the nodes known
  determine such a registry;
* `lookup_assign`, `identityOf_assign`: the look-ups after an entry;
* `identityOf_of_firstFree?`: the first free node is free;
* **`Consistent.resolve`**: resolving an identity keeps the tables inverse.
-/

namespace WebOfTrust.Registry

variable {α : Type} {r : Registry}

/-- An identity has a node exactly when the node has the identity. -/
def Consistent (r : Registry) : Prop := ∀ i n, r.lookup i = some n ↔ r.identityOf n = some i

theorem ext_lookup {r' : Registry} (hr : r.Consistent) (hr' : r'.Consistent)
    (h : ∀ i, r.lookup i = r'.lookup i) : r = r' := by
  obtain ⟨nodes, identities⟩ := r
  obtain ⟨nodes', identities'⟩ := r'
  obtain rfl : nodes = nodes' := Table.ext_get? h
  have hidentities : identities = identities' := by
    refine Table.ext_get? fun n => Option.ext fun i => ?_
    exact (hr i n).symm.trans (hr' i n)
  rw [hidentities]

theorem consistent_empty : empty.Consistent := fun _ _ => iff_of_false (by simp [lookup, empty])
  (by simp [identityOf, empty])

theorem lookup_assign (i : Identity) (n : NodeId) (j : Identity) :
    (r.assign i n).lookup j = if j = i then some n else r.lookup j :=
  Table.get?_insert _ _ _ _

theorem identityOf_assign (i : Identity) (n m : NodeId) :
    (r.assign i n).identityOf m = if m = n then some i else r.identityOf m :=
  Table.get?_insert _ _ _ _

theorem identityOf_of_firstFree? {tries : ℕ} {node n : NodeId}
    (h : r.firstFree? tries node = some n) : r.identityOf n = none := by
  induction tries generalizing node with
  | zero => cases h
  | succ tries ih =>
    rw [firstFree?] at h
    split_ifs at h with hc
    · exact ih h
    · cases h
      exact Option.not_isSome_iff_eq_none.mp hc

theorem Consistent.assign (hr : r.Consistent) {i : Identity} {n : NodeId}
    (hi : r.lookup i = none) (hn : r.identityOf n = none) : (r.assign i n).Consistent := by
  intro j m
  rw [lookup_assign, identityOf_assign]
  split_ifs with hj hm hm
  · simp [hj, hm]
  · rw [hj, ← hr i m, hi]
    simpa [eq_comm] using hm
  · rw [hm, hr j n, hn]
    simpa [eq_comm] using hj
  · exact hr j m

/-- **Resolving an identity keeps the tables inverse.** -/
theorem Consistent.resolve (hr : r.Consistent) (prefer : Identity → NodeId) (i : Identity) :
    (r.resolve prefer i : Except (Fault α) NodeId × Registry).2.Consistent := by
  unfold Registry.resolve
  cases hi : r.lookup i with
  | some n => exact hr
  | none =>
    dsimp only
    cases hn : r.firstFree? UInt32.size (prefer i) with
    | some n => exact hr.assign hi (identityOf_of_firstFree? hn)
    | none => exact hr

end WebOfTrust.Registry
