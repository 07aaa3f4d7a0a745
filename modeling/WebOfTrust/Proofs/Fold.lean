import Mathlib

/-!
# Changes in any order

Changes to a state that commute, and that change nothing when repeated, lead to the same state in
whatever order they are made, and however often.

* `foldl_comm_of_forall`, `foldl_absorbs`, `foldl_foldl_of_subset`: one change, or a list of them,
  after others;
* **`foldl_eq_of_mem_iff`**: lists with the same changes lead to the same state.
-/

namespace WebOfTrust

variable {σ β : Type} {f : σ → β → σ} {l l' : List β}

/-- After changes that commute with it, another change may as well have come first. -/
theorem foldl_comm_of_forall {x : β} (h : ∀ y ∈ l, ∀ s, f (f s x) y = f (f s y) x) (s : σ) :
    l.foldl f (f s x) = f (l.foldl f s) x := by
  induction l generalizing s with
  | nil => rfl
  | cons y rest ih =>
    obtain ⟨hy, hrest⟩ := List.forall_mem_cons.mp h
    rw [List.foldl_cons, List.foldl_cons, hy s, ih hrest]

theorem foldl_absorbs (hcomm : ∀ x ∈ l, ∀ y ∈ l, ∀ s, f (f s x) y = f (f s y) x)
    (hidem : ∀ x ∈ l, ∀ s, f (f s x) x = f s x) {x : β} (hx : x ∈ l) (s : σ) :
    f (l.foldl f s) x = l.foldl f s := by
  obtain ⟨before, later, rfl⟩ := List.append_of_mem hx
  have hlater : ∀ y ∈ later, ∀ s, f (f s x) y = f (f s y) x := fun y hy =>
    hcomm x hx y (List.mem_append_right _ (List.mem_cons_of_mem _ hy))
  rw [List.foldl_append, List.foldl_cons, foldl_comm_of_forall hlater, hidem x hx]

theorem foldl_foldl_of_subset (hcomm : ∀ x ∈ l, ∀ y ∈ l, ∀ s, f (f s x) y = f (f s y) x)
    (hidem : ∀ x ∈ l, ∀ s, f (f s x) x = f s x) (hsub : ∀ x ∈ l', x ∈ l) (s : σ) :
    l'.foldl f (l.foldl f s) = l.foldl f s := by
  induction l' with
  | nil => rfl
  | cons x rest ih =>
    obtain ⟨hx, hrest⟩ := List.forall_mem_cons.mp hsub
    rw [List.foldl_cons, foldl_absorbs hcomm hidem hx, ih hrest]

/-- **Changes that commute and absorb their repetitions may be made in any order.** -/
theorem foldl_eq_of_mem_iff (hcomm : ∀ x ∈ l, ∀ y ∈ l, ∀ s, f (f s x) y = f (f s y) x)
    (hidem : ∀ x ∈ l, ∀ s, f (f s x) x = f s x) (hmem : ∀ x, x ∈ l ↔ x ∈ l') (s : σ) :
    l.foldl f s = l'.foldl f s := by
  have hcomm' : ∀ x ∈ l', ∀ y ∈ l', ∀ s, f (f s x) y = f (f s y) x := fun x hx y hy =>
    hcomm x ((hmem x).mpr hx) y ((hmem y).mpr hy)
  have hidem' : ∀ x ∈ l', ∀ s, f (f s x) x = f s x := fun x hx => hidem x ((hmem x).mpr hx)
  have hboth : ∀ x ∈ l ++ l', x ∈ l := fun x hx =>
    (List.mem_append.mp hx).elim id (hmem x).mpr
  -- Each list is absorbed by the other one, and they commute.
  calc l.foldl f s
      = l'.foldl f (l.foldl f s) :=
        (foldl_foldl_of_subset hcomm hidem (fun x => (hmem x).mpr) s).symm
    _ = (l ++ l').foldl f s := (List.foldl_append ..).symm
    _ = (l' ++ l).foldl f s := List.perm_append_comm.foldl_eq' (fun x hx y hy =>
        hcomm x (hboth x hx) y (hboth y hy)) s
    _ = l.foldl f (l'.foldl f s) := List.foldl_append ..
    _ = l'.foldl f s := foldl_foldl_of_subset hcomm' hidem' (fun x => (hmem x).mp) s

end WebOfTrust
