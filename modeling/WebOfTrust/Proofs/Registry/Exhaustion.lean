import Mathlib
import WebOfTrust.Bytes.Lemmas
import WebOfTrust.Proofs.Registry.Probe

/-!
# The end of probing

A registry that looks for a free number counts the taken ones that it meets, and gives up when the
count goes past the highest number. By then it has met every number once, so it gives up exactly
when all are taken, and finds the free number that is nearest otherwise.

* `Probes`: a search that counts comes to its end; `Probes.unique`, **`probes_firstFree?`**: it does
  so in one way, and finds what the registry assigns;
* `freeOffsets`: how far away free numbers are; **`isLeast_of_firstFree`**: the first free number
  is the nearest one;
* **`resolve_nearest`**: what a new identity is assigned, and when it is refused;
* `filled`: a registry in which some numbers are taken.
-/

namespace WebOfTrust.Registry

variable {α : Type} {r : Registry} {first n : NodeId}

/-! ## Searches that count -/

/-- A search for a free number from some number on, with a count of the taken ones met before, comes
to its end: at a free number, or without one when the count goes past the highest number. -/
inductive Probes (r : Registry) :
    (count : UInt64) → (node : NodeId) → (found : Option NodeId) → Prop
  | free {count : UInt64} {node : NodeId} (h : r.identityOf node = none) :
      Probes r count node (some node)
  | exhausted {count : UInt64} {node : NodeId} (h : (r.identityOf node).isSome = true)
      (hcount : 4294967295 < count + 1) : Probes r count node none
  | next {count : UInt64} {node : NodeId} {found : Option NodeId}
      (h : (r.identityOf node).isSome = true) (hcount : ¬ 4294967295 < count + 1)
      (hrest : Probes r (count + 1) (node + 1) found) : Probes r count node found

theorem Probes.unique {count : UInt64} {node : NodeId} {found found' : Option NodeId}
    (h : r.Probes count node found) (h' : r.Probes count node found') : found = found' := by
  induction h with
  | free hfree =>
    cases h' with
    | free => rfl
    | exhausted htaken => simp [hfree] at htaken
    | next htaken => simp [hfree] at htaken
  | exhausted htaken hcount =>
    cases h' with
    | free hfree => simp [hfree] at htaken
    | exhausted => rfl
    | next _ hcount' => exact absurd hcount hcount'
  | next htaken hcount _ ih =>
    cases h' with
    | free hfree => simp [hfree] at htaken
    | exhausted _ hcount' => exact absurd hcount' hcount
    | next _ _ hrest' => exact ih hrest'

/-- The count of tries does not overflow before all numbers are met. -/
theorem count_succ {count : UInt64} (h : count.toNat < UInt32.size) :
    (count + 1).toNat = count.toNat + 1 ∧
      (4294967295 < count + 1 ↔ count.toNat + 1 = UInt32.size) := by
  have hsucc : (count + 1).toNat = count.toNat + 1 := by
    rw [UInt64.toNat_add, show (1 : UInt64).toNat = 1 from rfl]
    simp only [UInt32.size] at h
    omega
  refine ⟨hsucc, ?_⟩
  rw [UInt64.lt_iff_toNat_lt, hsucc, show (4294967295 : UInt64).toNat = 4294967295 from rfl]
  simp only [UInt32.size] at h ⊢
  omega

theorem probes_of_count {tries : ℕ} {count : UInt64}
    (h : count.toNat + (tries + 1) = UInt32.size) :
    r.Probes count first (r.firstFree? (tries + 1) first) := by
  induction tries generalizing count first with
  | zero =>
    rw [firstFree?]
    split_ifs with htaken
    · exact .exhausted htaken ((count_succ (by omega)).2.mpr h)
    · exact .free (Option.not_isSome_iff_eq_none.mp htaken)
  | succ tries ih =>
    have hlt : count.toNat < UInt32.size := by omega
    obtain ⟨hsucc, hlast⟩ := count_succ hlt
    rw [firstFree?]
    split_ifs with htaken
    · refine .next htaken ?_ (ih (by omega))
      rw [hlast]
      omega
    · exact .free (Option.not_isSome_iff_eq_none.mp htaken)

/-- **A search that begins with no count finds what the registry finds.** -/
theorem probes_firstFree? (r : Registry) (first : NodeId) :
    r.Probes 0 first (r.firstFree? UInt32.size first) := by
  have hall : (0 : UInt64).toNat + (4294967295 + 1) = UInt32.size := rfl
  exact probes_of_count hall

/-! ## The nearest free number -/

/-- The distances at which free numbers lie, counting upwards and from the highest number on to
zero. -/
def freeOffsets (r : Registry) (first : NodeId) : Set ℕ :=
  {k | ∃ n, r.identityOf n = none ∧ n.toNat = (first.toNat + k) % 2 ^ 32}

theorem toNat_sub_of_offset {k : ℕ} (h : n.toNat = (first.toNat + k) % 2 ^ 32) :
    (n - first).toNat = k % 2 ^ 32 := by
  have := first.toNat_lt
  rw [UInt32.toNat_sub, h]
  omega

theorem toNat_eq_add_sub (first n : NodeId) :
    n.toNat = (first.toNat + (n - first).toNat) % 2 ^ 32 := by
  have := first.toNat_lt
  have := n.toNat_lt
  rw [UInt32.toNat_sub]
  omega

/-- **The first free number is the nearest one.** -/
theorem isLeast_of_firstFree (h : FirstFree r.taken first n) :
    IsLeast (r.freeOffsets first) (n - first).toNat := by
  refine ⟨⟨n, notMem_taken_iff.mp h.free, toNat_eq_add_sub first n⟩, ?_⟩
  rintro k ⟨m, hm, hk⟩
  calc (n - first).toNat ≤ (m - first).toNat := le_of_passed h.passed (notMem_taken_iff.mpr hm)
    _ = k % 2 ^ 32 := toNat_sub_of_offset hk
    _ ≤ k := Nat.mod_le k _

/-! ## New identities -/

/-- **A new identity gets the nearest free number**, and is refused exactly when there is none. -/
theorem resolve_nearest (prefer : Identity → NodeId) {i : Identity} (hi : r.lookup i = none) :
    let outcome : Except (Fault α) NodeId × Registry := r.resolve prefer i
    (outcome.1 = .error .nodeSpaceExhausted ↔ ∀ n, (r.identityOf n).isSome = true) ∧
    (outcome.1 = .error .nodeSpaceExhausted → outcome.2 = r) ∧
    (∀ m, r.identityOf m = none → ∃ k n, IsLeast (r.freeOffsets (prefer i)) k ∧
      n.toNat = ((prefer i).toNat + k) % 2 ^ 32 ∧ outcome = (.ok n, r.assign i n)) ∧
    ((∀ m, r.identityOf m = none ↔ m = prefer i - 1) → outcome.1 = .ok (prefer i - 1)) ∧
    ∀ found, r.Probes 0 (prefer i) found ↔ outcome.1.toOption = found := by
  intro outcome
  have hprobes : ∀ found, r.Probes 0 (prefer i) found ↔
      r.firstFree? UInt32.size (prefer i) = found := by
    intro found
    constructor
    · exact (probes_firstFree? r (prefer i)).unique
    · rintro rfl
      exact probes_firstFree? r (prefer i)
  by_cases hfull : ∀ n, n ∈ r.taken
  · have houtcome : outcome = (.error .nodeSpaceExhausted, r) := resolve_of_full hi hfull
    rw [houtcome]
    rw [firstFree?_eq_none_iff.mpr hfull] at hprobes
    refine ⟨iff_of_true rfl hfull, fun _ => rfl, fun m hm => ?_, fun hlast => ?_, hprobes⟩
    · exact absurd (hfull m) (notMem_taken_iff.mpr hm)
    · exact absurd (hfull _) (notMem_taken_iff.mpr ((hlast _).mpr rfl))
  · push Not at hfull
    obtain ⟨m, hm⟩ := hfull
    obtain ⟨n, hn⟩ := exists_firstFree (prefer i) hm
    have hfree : r.identityOf n = none := notMem_taken_iff.mp hn.free
    have houtcome : outcome = (.ok n, r.assign i n) := resolve_of_firstFree hi hn
    rw [houtcome]
    rw [firstFree?_eq_some_iff.mpr hn] at hprobes
    refine ⟨iff_of_false nofun fun hall => ?_, nofun, fun _ _ => ?_, fun hlast => ?_, hprobes⟩
    · simpa [hfree] using hall n
    · exact ⟨_, n, isLeast_of_firstFree hn, toNat_eq_add_sub (prefer i) n, rfl⟩
    · rw [(hlast n).mp hfree]

section Filled

/-- The identity that writes a number in its first bytes. -/
def numbered (n : NodeId) : Identity :=
  ⟨⟨LittleEndian.encode 32 n.toNat, LittleEndian.length_encode _ _⟩⟩

/-- The registry in which some numbers are taken, each by the identity that writes it. -/
def filled (taken : List NodeId) : Registry :=
  taken.foldr (fun n r => r.assign (numbered n) n) empty

theorem identityOf_filled (taken : List NodeId) (n : NodeId) :
    (filled taken).identityOf n = if n ∈ taken then some (numbered n) else none := by
  induction taken with
  | nil => rfl
  | cons m rest ih =>
    rw [filled, List.foldr_cons, ← filled, identityOf_assign, ih]
    by_cases hm : n = m
    · simp [hm]
    · simp [hm]

/-- An identity whose bytes write none of the numbers is new. -/
theorem lookup_filled_uniform (taken : List NodeId) :
    (filled taken).lookup (uniform 255) = none := by
  induction taken with
  | nil => rfl
  | cons m rest ih =>
    rw [filled, List.foldr_cons, ← filled, lookup_assign, ih, if_neg]
    intro h
    have hnumber : (uniform 255).octets.toNat = m.toNat := by
      rw [h]
      exact LittleEndian.decode_encode (m.toNat_lt.trans (by decide))
    have hlarge : 2 ^ 32 ≤ (uniform 255).octets.toNat := by decide
    exact absurd m.toNat_lt (by omega)

/-- All numbers. -/
def numbers : List NodeId := (List.finRange UInt32.size).map UInt32.ofFin

theorem mem_numbers (n : NodeId) : n ∈ numbers :=
  List.mem_map.mpr ⟨n.toFin, List.mem_finRange _, rfl⟩

/-- The highest number, free alone, is found from zero on, after all others; then there is none. -/
theorem resolve_nearest_filled :
    let almost := filled (numbers.filter (· ≠ 4294967295))
    almost.lookup (uniform 255) = none ∧
    (almost.resolve (fun _ => 0) (uniform 255) : Except (Fault Float) NodeId × Registry).1 =
      .ok 4294967295 ∧
    ((filled numbers).resolve (fun _ => 0) (uniform 255) : Except (Fault Float) NodeId × _).1 =
      .error .nodeSpaceExhausted := by
  intro almost
  have hlast : ∀ n, almost.identityOf n = none ↔ n = 0 - 1 := by
    intro n
    rw [identityOf_filled, show (0 : NodeId) - 1 = 4294967295 from rfl]
    simp [mem_numbers]
  have hfull : ∀ n, ((filled numbers).identityOf n).isSome = true := by
    intro n
    rw [identityOf_filled, if_pos (mem_numbers n)]
    rfl
  exact ⟨lookup_filled_uniform _,
    (resolve_nearest (fun _ => 0) (lookup_filled_uniform _)).2.2.2.1 hlast,
    (resolve_nearest (fun _ => 0) (lookup_filled_uniform _)).1.mpr hfull⟩

end Filled

end WebOfTrust.Registry
