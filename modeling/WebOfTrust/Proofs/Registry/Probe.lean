import Mathlib
import WebOfTrust.Proofs.Registry.Assignment

/-!
# The first free number

Numbers are counted upwards and from the highest one on to zero. From any number on there is one
that is the first outside a given set, unless every number is in it, and this is the node that a
registry finds.

* `FirstFree`: the first number outside a set, from a number on; `FirstFree.unique`,
  `exists_firstFree`;
* `FirstFree.congr_of_passed`: it does not matter where the count begins among taken numbers;
* `Registry.taken`; **`Registry.firstFree?_eq_some_iff`**: a registry finds the first free number;
* `Registry.firstFree?_eq_none_iff`: it finds none exactly when all are taken;
* **`Registry.resolve_of_firstFree`**, `Registry.resolve_of_full`: what a new identity gets.
-/

namespace WebOfTrust

/-! ## Counting round -/

theorem add_ofNat_toNat_sub (first n : NodeId) : first + UInt32.ofNat (n - first).toNat = n := by
  rw [UInt32.ofNat_toNat]
  grind

theorem toNat_add_ofNat_sub (first : NodeId) {k : ℕ} (h : k < UInt32.size) :
    (first + UInt32.ofNat k - first).toNat = k := by
  rw [UInt32.add_comm, UInt32.add_sub_cancel, UInt32.toNat_ofNat_of_lt' h]

theorem toNat_sub_of_passed {first m n : NodeId} (h : (m - first).toNat ≤ (n - first).toNat) :
    (n - m).toNat = (n - first).toNat - (m - first).toNat := by
  have hsplit : n - m = n - first - (m - first) := by grind
  rw [hsplit, UInt32.toNat_sub_of_le _ _ (UInt32.le_iff_toNat_le.mpr h)]

/-! ## The first number outside a set -/

/-- A number is the first outside a set from a number on: those on the way to it are in the set. -/
structure FirstFree (taken : Set NodeId) (first n : NodeId) : Prop where
  free : n ∉ taken
  passed : ∀ k < (n - first).toNat, first + UInt32.ofNat k ∈ taken

variable {s : Set NodeId} {first m n : NodeId}

theorem le_of_passed (h : ∀ k < (n - first).toNat, first + UInt32.ofNat k ∈ s) (hm : m ∉ s) :
    (n - first).toNat ≤ (m - first).toNat := by
  by_contra! hlt
  have hpassed := h _ hlt
  rw [add_ofNat_toNat_sub] at hpassed
  exact hm hpassed

theorem FirstFree.unique (hn : FirstFree s first n) (hm : FirstFree s first m) :
    n = m := by
  have hdist : (n - first).toNat = (m - first).toNat :=
    le_antisymm (le_of_passed hn.passed hm.free) (le_of_passed hm.passed hn.free)
  calc n = first + UInt32.ofNat (n - first).toNat := (add_ofNat_toNat_sub first n).symm
    _ = m := by rw [hdist, add_ofNat_toNat_sub]

theorem exists_firstFree (first : NodeId) (hm : m ∉ s) : ∃ n, FirstFree s first n := by
  classical
  have hex : ∃ k, first + UInt32.ofNat k ∉ s :=
    ⟨(m - first).toNat, by rwa [add_ofNat_toNat_sub]⟩
  have hlt : Nat.find hex < UInt32.size :=
    (Nat.find_min' hex (by rwa [add_ofNat_toNat_sub])).trans_lt (m - first).toNat_lt
  refine ⟨first + UInt32.ofNat (Nat.find hex), Nat.find_spec hex, fun k hk => ?_⟩
  rw [toNat_add_ofNat_sub first hlt] at hk
  exact not_not.mp (Nat.find_min hex hk)

theorem FirstFree.of_passed (h : FirstFree s first n)
    (hm : ∀ k < (m - first).toNat, first + UInt32.ofNat k ∈ s) : FirstFree s m n := by
  refine ⟨h.free, fun k hk => ?_⟩
  rw [toNat_sub_of_passed (le_of_passed hm h.free)] at hk
  have hpassed := h.passed ((m - first).toNat + k) (by omega)
  rwa [UInt32.ofNat_add, ← UInt32.add_assoc, add_ofNat_toNat_sub] at hpassed

/-- **It does not matter where the count begins** on a way through taken numbers. -/
theorem FirstFree.congr_of_passed (hm : ∀ k < (m - first).toNat, first + UInt32.ofNat k ∈ s) :
    FirstFree s first n ↔ FirstFree s m n := by
  constructor
  · intro h
    exact h.of_passed hm
  · intro h
    obtain ⟨n', hn'⟩ := exists_firstFree first h.free
    rwa [← (hn'.of_passed hm).unique h]

theorem FirstFree.mono {t : Set NodeId} (h : FirstFree s first n) (hsub : s ⊆ t)
    (hn : n ∉ t) : FirstFree t first n :=
  ⟨hn, fun k hk => hsub (h.passed k hk)⟩

/-! ## The nodes of a registry -/

namespace Registry

variable {r : Registry}

/-- The nodes that identities hold. -/
def taken (r : Registry) : Set NodeId := {n | (r.identityOf n).isSome = true}

theorem mem_taken : n ∈ r.taken ↔ (r.identityOf n).isSome = true := Iff.rfl

theorem notMem_taken_iff : n ∉ r.taken ↔ r.identityOf n = none := by
  rw [mem_taken, Option.not_isSome_iff_eq_none]

theorem taken_assign (r : Registry) (i : Identity) (n : NodeId) :
    (r.assign i n).taken = insert n r.taken := by
  ext m
  rw [mem_taken, identityOf_assign, Set.mem_insert_iff, mem_taken]
  split_ifs with hm <;> simp [hm]

theorem mem_taken_of_firstFree?_eq_none {tries : ℕ} (h : r.firstFree? tries first = none) :
    ∀ k < tries, first + UInt32.ofNat k ∈ r.taken := by
  induction tries generalizing first with
  | zero => intro k hk; omega
  | succ tries ih =>
    intro k hk
    rw [firstFree?] at h
    split_ifs at h with hc
    cases k with
    | zero =>
      rw [show first + UInt32.ofNat 0 = first by simp]
      exact hc
    | succ k =>
      rw [← add_one_add_ofNat]
      exact ih h k (by omega)

/-- **A registry finds the first free number.** -/
theorem firstFree?_eq_some_iff :
    r.firstFree? UInt32.size first = some n ↔ FirstFree r.taken first n := by
  have hfirst : ∀ m, r.firstFree? UInt32.size first = some m → FirstFree r.taken first m := by
    intro m hm
    obtain ⟨k, hk, rfl, hpassed⟩ := firstFree?_spec hm
    refine ⟨?_, fun j hj => hpassed j ?_⟩
    · rw [mem_taken, identityOf_of_firstFree? hm]
      simp
    · rwa [toNat_add_ofNat_sub first hk] at hj
  refine ⟨hfirst n, fun h => ?_⟩
  cases hm : r.firstFree? UInt32.size first with
  | some m => rw [(hfirst m hm).unique h]
  | none =>
    have hn := mem_taken_of_firstFree?_eq_none hm _ (n - first).toNat_lt
    rw [add_ofNat_toNat_sub] at hn
    exact absurd hn h.free

theorem firstFree?_eq_none_iff :
    r.firstFree? UInt32.size first = none ↔ ∀ n, n ∈ r.taken := by
  constructor
  · intro h n
    have hn := mem_taken_of_firstFree?_eq_none h _ (n - first).toNat_lt
    rwa [add_ofNat_toNat_sub] at hn
  · intro h
    rw [Option.eq_none_iff_forall_ne_some]
    intro n hn
    exact (firstFree?_eq_some_iff.mp hn).free (h n)

variable {α : Type} {prefer : Identity → NodeId} {i : Identity}

/-- **A new identity gets the first free number** from the one that it prefers. -/
theorem resolve_of_firstFree (hi : r.lookup i = none) (hn : FirstFree r.taken (prefer i) n) :
    (r.resolve prefer i : Except (Fault α) NodeId × Registry) = (.ok n, r.assign i n) := by
  rw [resolve, hi]
  simp only [firstFree?_eq_some_iff.mpr hn]

theorem resolve_of_full (hi : r.lookup i = none) (hfull : ∀ n, n ∈ r.taken) :
    (r.resolve prefer i : Except (Fault α) NodeId × Registry) =
      (.error .nodeSpaceExhausted, r) := by
  rw [resolve, hi]
  simp only [firstFree?_eq_none_iff.mpr hfull]

end Registry

end WebOfTrust
