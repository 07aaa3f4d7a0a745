import Mathlib
import WebOfTrust.Proofs.Fold
import WebOfTrust.Proofs.Registry.Probe

/-!
# Identities in any order

When several identities prefer the same numbers, the order in which they come decides who gets
which. It does not decide which numbers are taken in the end: an identity that comes later goes on
from the number where the earlier one stopped, whichever of the two it is.

* `fill`: some numbers with the first free one added; **`fill_comm`**: two of them are added in
  either order;
* `Occupancy`: the identities known and the numbers taken; `Occupancy.join`, `join_comm`,
  `join_join`: identities come in any order, and any number of times;
* `Registry.Within`: no others than some members are known; `Within.answer_cases`: a member is
  answered with its node or gets the first free one;
* `Registers`: requests that name some members, in any order; `Within.occupancy_answerAll`: they all
  succeed, and the members join;
* `Undisturbed`, `lookup_answerAll_of_injOn`: members that prefer different nodes get them;
* **`registration_order`**: the nodes taken do not depend on the order.
-/

namespace WebOfTrust

variable {s : Set NodeId} {first n : NodeId}

/-! ## Numbers taken one after the other -/

/-- Some numbers, with the first free one from a number on. -/
def fill (s : Set NodeId) (first : NodeId) : Set NodeId := s ∪ {n | FirstFree s first n}

theorem fill_of_firstFree (h : FirstFree s first n) : fill s first = insert n s := by
  ext m
  constructor
  · rintro (hm | hm)
    · exact .inr hm
    · exact .inl (FirstFree.unique hm h)
  · rintro (rfl | hm)
    · exact .inr h
    · exact .inl hm

theorem fill_of_forall_mem (h : ∀ n, n ∈ s) (first : NodeId) : fill s first = s := by
  ext m
  simp [fill, h m]

/-- **Two numbers are taken in either order.** -/
theorem fill_comm (s : Set NodeId) (a b : NodeId) : fill (fill s a) b = fill (fill s b) a := by
  by_cases hs : ∀ n, n ∈ s
  · rw [fill_of_forall_mem hs a, fill_of_forall_mem hs b, fill_of_forall_mem hs a]
  push Not at hs
  obtain ⟨m, hm⟩ := hs
  obtain ⟨x, hx⟩ := exists_firstFree a hm
  obtain ⟨y, hy⟩ := exists_firstFree b hm
  rw [fill_of_firstFree hx, fill_of_firstFree hy]
  by_cases hxy : x = y
  · -- Whoever comes second goes on from the number that both would have taken.
    subst hxy
    have hfree : ∀ n, FirstFree (insert x s) b n ↔ FirstFree (insert x s) a n := by
      intro n
      rw [FirstFree.congr_of_passed fun k hk => Set.mem_insert_of_mem x (hy.passed k hk),
        FirstFree.congr_of_passed fun k hk => Set.mem_insert_of_mem x (hx.passed k hk)]
    simp only [fill, hfree]
  · have hx' : FirstFree (insert y s) a x := hx.mono (Set.subset_insert y s) (by
      simp [hxy, hx.free])
    have hy' : FirstFree (insert x s) b y := hy.mono (Set.subset_insert x s) (by
      simp [Ne.symm hxy, hy.free])
    rw [fill_of_firstFree hx', fill_of_firstFree hy', Set.insert_comm]

/-- The identities known and the numbers taken. -/
@[ext] structure Occupancy where
  known : Set Identity
  taken : Set NodeId

namespace Occupancy

variable {prefer : Identity → NodeId}

open Classical in
/-- A new identity joins, and takes the first free number from the one it prefers. -/
noncomputable def join (prefer : Identity → NodeId) (o : Occupancy) (i : Identity) : Occupancy :=
  if i ∈ o.known then o else ⟨insert i o.known, fill o.taken (prefer i)⟩

theorem join_of_mem {o : Occupancy} {i : Identity} (h : i ∈ o.known) : o.join prefer i = o :=
  if_pos h

theorem join_of_notMem {o : Occupancy} {i : Identity} (h : i ∉ o.known) :
    o.join prefer i = ⟨insert i o.known, fill o.taken (prefer i)⟩ := if_neg h

theorem known_join (o : Occupancy) (i : Identity) :
    (o.join prefer i).known = insert i o.known := by
  by_cases h : i ∈ o.known
  · rw [join_of_mem h, Set.insert_eq_of_mem h]
  · rw [join_of_notMem h]

theorem mem_known_foldl_join (prefer : Identity → NodeId) (l : List Identity) (o : Occupancy)
    (i : Identity) :
    i ∈ (l.foldl (join prefer) o).known ↔ i ∈ l ∨ i ∈ o.known := by
  induction l generalizing o with
  | nil => simp
  | cons j rest ih =>
    rw [List.foldl_cons, ih, known_join, Set.mem_insert_iff, List.mem_cons]
    tauto

theorem join_comm_of_mem {o : Occupancy} {i : Identity} (h : i ∈ o.known) (j : Identity) :
    (o.join prefer i).join prefer j = (o.join prefer j).join prefer i := by
  have hlater : i ∈ (o.join prefer j).known := by
    rw [known_join]
    exact Set.mem_insert_of_mem j h
  rw [join_of_mem h, join_of_mem hlater]

/-- **Identities join in either order.** -/
theorem join_comm (o : Occupancy) (i j : Identity) :
    (o.join prefer i).join prefer j = (o.join prefer j).join prefer i := by
  by_cases hij : i = j
  · rw [hij]
  by_cases hi : i ∈ o.known
  · exact join_comm_of_mem hi j
  by_cases hj : j ∈ o.known
  · exact (join_comm_of_mem hj i).symm
  have hi' : i ∉ insert j o.known := by simp [hij, hi]
  have hj' : j ∉ insert i o.known := by simp [Ne.symm hij, hj]
  rw [join_of_notMem hi, join_of_notMem hj, join_of_notMem hj', join_of_notMem hi']
  simp only [Set.insert_comm j i, fill_comm o.taken (prefer i)]

theorem join_join (o : Occupancy) (i : Identity) :
    (o.join prefer i).join prefer i = o.join prefer i := by
  apply join_of_mem
  rw [known_join]
  exact Set.mem_insert i o.known

end Occupancy

/-! ## A registry with room -/

namespace Registry

variable {α : Type} {r : Registry} {prefer : Identity → NodeId} {members : Finset Identity}
  {i : Identity}

/-- What a registry shows of the requests without their order. -/
def occupancy (r : Registry) : Occupancy := ⟨{i | (r.lookup i).isSome = true}, r.taken⟩

theorem occupancy_assign (r : Registry) (i : Identity) (n : NodeId) :
    (r.assign i n).occupancy = ⟨insert i r.occupancy.known, insert n r.taken⟩ := by
  refine Occupancy.ext ?_ (taken_assign r i n)
  ext j
  show ((r.assign i n).lookup j).isSome = true ↔ j = i ∨ (r.lookup j).isSome = true
  rw [lookup_assign]
  split_ifs with hj <;> simp [hj]

/-- The registry knows no others than some members. -/
structure Within (members : Finset Identity) (r : Registry) : Prop where
  consistent : r.Consistent
  known : ∀ i n, r.lookup i = some n → i ∈ members

theorem within_empty (members : Finset Identity) : empty.Within members :=
  ⟨consistent_empty, nofun⟩

theorem Within.exists_notMem_taken (hr : r.Within members) (hsize : members.card ≤ UInt32.size)
    (hi : i ∈ members) (hnew : r.lookup i = none) : ∃ n, n ∉ r.taken := by
  by_contra! hfull
  choose holder hholder using fun n => Option.isSome_iff_exists.mp (hfull n)
  have hlookup : ∀ n, r.lookup (holder n) = some n := fun n =>
    (hr.consistent _ n).mpr (hholder n)
  have hother : ∀ n, holder n ∈ members.erase i := by
    intro n
    refine Finset.mem_erase.mpr ⟨fun h => ?_, hr.known _ n (hlookup n)⟩
    have hn := hlookup n
    rw [h, hnew] at hn
    cases hn
  have hcard : (Finset.univ : Finset (Fin UInt32.size)).card ≤ (members.erase i).card := by
    refine Finset.card_le_card_of_injOn (fun k => holder (UInt32.ofFin k)) (fun k _ => hother _) ?_
    intro k _ l _ h
    have hk : some (UInt32.ofFin k) = some (UInt32.ofFin l) := by
      rw [← hlookup (.ofFin k), ← hlookup (.ofFin l)]
      exact congrArg r.lookup h
    exact congrArg UInt32.toFin (Option.some.inj hk)
  rw [Finset.card_univ, Fintype.card_fin, Finset.card_erase_of_mem hi] at hcard
  have hpos : 0 < members.card := Finset.card_pos.mpr ⟨i, hi⟩
  omega

/-- **What a request of a member does**: answer with its node, or enter it at the first free one. -/
theorem Within.answer_cases (hr : r.Within members) (prefer : Identity → NodeId)
    (hsize : members.card ≤ UInt32.size) {q : Request} (hq : q.identity? = some i)
    (hi : i ∈ members) : ∃ n,
    (r.lookup i = some n ∧ (r.answer prefer q : Except (Fault α) NodeId × _) = (.ok n, r)) ∨
    (r.lookup i = none ∧ FirstFree r.taken (prefer i) n ∧
      (r.answer prefer q : Except (Fault α) NodeId × _) = (.ok n, r.assign i n)) := by
  cases hlookup : r.lookup i with
  | some n => exact ⟨n, .inl ⟨rfl, answer_of_lookup hq hlookup⟩⟩
  | none =>
    obtain ⟨m, hm⟩ := hr.exists_notMem_taken hsize hi hlookup
    obtain ⟨n, hn⟩ := exists_firstFree (prefer i) hm
    refine ⟨n, .inr ⟨rfl, hn, ?_⟩⟩
    rw [answer_eq_resolve hq, resolve_of_firstFree hlookup hn]

theorem Within.answer (hr : r.Within members) (prefer : Identity → NodeId) {q : Request}
    (hq : q.identity? = some i) (hi : i ∈ members) :
    (r.answer prefer q : Except (Fault α) NodeId × Registry).2.Within members := by
  refine ⟨hr.consistent.answer q, fun j n hj => ?_⟩
  rcases (lookup_answer q).mp hj with hj | ⟨hj, -⟩
  · exact hr.known j n hj
  · rw [hq] at hj
    cases hj
    exact hi

theorem Within.occupancy_answer (hr : r.Within members) (prefer : Identity → NodeId)
    (hsize : members.card ≤ UInt32.size) {q : Request} (hq : q.identity? = some i)
    (hi : i ∈ members) :
    (∃ n, (r.answer prefer q : Except (Fault α) NodeId × Registry).1 = .ok n) ∧
    (r.answer prefer q : Except (Fault α) NodeId × Registry).2.occupancy =
      r.occupancy.join prefer i := by
  obtain ⟨n, ⟨hn, h⟩ | ⟨hnew, hn, h⟩⟩ := hr.answer_cases (α := α) prefer hsize hq hi
  · have hknown : i ∈ r.occupancy.known := Option.isSome_iff_exists.mpr ⟨n, hn⟩
    rw [h, Occupancy.join_of_mem hknown]
    exact ⟨⟨n, rfl⟩, rfl⟩
  · have hknown : i ∉ r.occupancy.known := by
      show ¬ (r.lookup i).isSome = true
      simp [hnew]
    rw [h, Occupancy.join_of_notMem hknown, occupancy_assign]
    exact ⟨⟨n, rfl⟩, congrArg _ (fill_of_firstFree hn).symm⟩

/-! ## Requests of members -/

/-- Requests that name all of some members, in some order and any of them again, and nothing
else. -/
def Registers (members : Finset Identity) (requests : List Request) : Prop :=
  (∀ q ∈ requests, ∃ i ∈ members, q.identity? = some i) ∧
    ∀ i ∈ members, ∃ q ∈ requests, q.identity? = some i

variable {requests : List Request}

theorem Registers.mem_filterMap (h : Registers members requests) (i : Identity) :
    i ∈ requests.filterMap Request.identity? ↔ i ∈ members := by
  rw [List.mem_filterMap]
  constructor
  · rintro ⟨q, hq, hi⟩
    obtain ⟨j, hj, hqj⟩ := h.1 q hq
    rw [hi] at hqj
    cases hqj
    exact hj
  · exact h.2 i

/-- **A run of requests of members** succeeds throughout, and the members that it names join. -/
theorem Within.occupancy_answerAll (hr : r.Within members) (prefer : Identity → NodeId)
    (hsize : members.card ≤ UInt32.size)
    (h : ∀ q ∈ requests, ∃ i ∈ members, q.identity? = some i) :
    (∀ reply ∈ (r.answerAll prefer requests : List (Except (Fault α) NodeId) × Registry).1,
      ∃ n, reply = .ok n) ∧
    (r.answerAll prefer requests : List (Except (Fault α) NodeId) × Registry).2.occupancy =
      (requests.filterMap Request.identity?).foldl (Occupancy.join prefer) r.occupancy := by
  induction requests generalizing r with
  | nil => exact ⟨nofun, rfl⟩
  | cons q rest ih =>
    obtain ⟨⟨i, hi, hq⟩, hrest⟩ := List.forall_mem_cons.mp h
    obtain ⟨hok, hjoin⟩ := hr.occupancy_answer (α := α) prefer hsize hq hi
    obtain ⟨hoks, hfold⟩ := ih (hr.answer (α := α) prefer hq hi) hrest
    rw [List.filterMap_cons_some hq, List.foldl_cons, ← hjoin]
    exact ⟨List.forall_mem_cons.mpr ⟨hok, hoks⟩, hfold⟩

theorem Registers.isSome_lookup (h : Registers members requests) (prefer : Identity → NodeId)
    (hsize : members.card ≤ UInt32.size) (i : Identity) :
    ((empty.answerAll prefer requests : List (Except (Fault α) NodeId) × Registry).2.lookup
      i).isSome = true ↔ i ∈ members := by
  have hrun := (within_empty members).occupancy_answerAll (α := α) prefer hsize h.1
  have hknown := Occupancy.mem_known_foldl_join prefer
    (requests.filterMap Request.identity?) empty.occupancy i
  rw [← hrun.2, h.mem_filterMap] at hknown
  exact hknown.trans (or_iff_left nofun)

/-! ## Members that prefer different nodes -/

/-- Every identity has the node that it prefers. -/
def Undisturbed (prefer : Identity → NodeId) (r : Registry) : Prop :=
  ∀ i n, r.lookup i = some n → n = prefer i

/-- A member that shares its preferred node with no other member gets it. -/
theorem Undisturbed.answer (hdistinct : Set.InjOn prefer members) (hr : r.Undisturbed prefer)
    (hmembers : r.Within members) (hsize : members.card ≤ UInt32.size) {q : Request}
    (hq : q.identity? = some i) (hi : i ∈ members) :
    (r.answer prefer q : Except (Fault α) NodeId × Registry).2.Undisturbed prefer := by
  obtain ⟨n, ⟨-, h⟩ | ⟨hnew, hn, h⟩⟩ :=
    hmembers.answer_cases (α := α) prefer hsize hq hi
  · rw [h]
    exact hr
  · have hfree : prefer i ∉ r.taken := by
      intro htaken
      obtain ⟨j, hj⟩ := Option.isSome_iff_exists.mp htaken
      have hlookup : r.lookup j = some (prefer i) := (hmembers.consistent j _).mpr hj
      have hij : i = j := hdistinct hi (hmembers.known j _ hlookup) (hr j _ hlookup)
      rw [hij, hlookup] at hnew
      cases hnew
    have hown : FirstFree r.taken (prefer i) (prefer i) := ⟨hfree, by simp⟩
    rw [h]
    intro j m hj
    rw [lookup_assign] at hj
    split_ifs at hj with hji
    · cases hj
      rw [hji]
      exact hn.unique hown
    · exact hr j m hj

/-- **Members that prefer different nodes get them**, in whatever order they ask. -/
theorem lookup_answerAll_of_injOn (hdistinct : Set.InjOn prefer members)
    (hsize : members.card ≤ UInt32.size) (h : Registers members requests) (i : Identity) :
    (empty.answerAll prefer requests : List (Except (Fault α) NodeId) × Registry).2.lookup i =
      if i ∈ members then some (prefer i) else none := by
  have hknown := h.isSome_lookup (α := α) prefer hsize i
  have hstep : ∀ r : Registry, r.Within members ∧ r.Undisturbed prefer → ∀ q ∈ requests,
      (r.answer prefer q : Except (Fault α) NodeId × Registry).2.Within members ∧
        (r.answer prefer q : Except (Fault α) NodeId × Registry).2.Undisturbed prefer := by
    intro r hr q hq
    obtain ⟨i, hi, hqi⟩ := h.1 q hq
    exact ⟨hr.1.answer prefer hqi hi, hr.2.answer hdistinct hr.1 hsize hqi hi⟩
  have hall := answerAll_induct_of_mem (P := fun r => r.Within members ∧ r.Undisturbed prefer)
    ⟨within_empty members, nofun⟩ hstep
  split_ifs with hi
  · obtain ⟨n, hn⟩ := Option.isSome_iff_exists.mp (hknown.mpr hi)
    rw [hn, hall.2 i n hn]
  · exact Option.not_isSome_iff_eq_none.mp fun hsome => hi (hknown.mp hsome)

/-- **The order in which identities are registered does not decide which nodes are taken.** -/
theorem registration_order (prefer : Identity → NodeId) {members : Finset Identity}
    (hsize : members.card ≤ UInt32.size) {requests requests' : List Request}
    (h : Registers members requests) (h' : Registers members requests') :
    let run : List (Except (Fault α) NodeId) × Registry := empty.answerAll prefer requests
    let run' : List (Except (Fault α) NodeId) × Registry := empty.answerAll prefer requests'
    (∀ reply ∈ run.1, ∃ n, reply = .ok n) ∧ (∀ reply ∈ run'.1, ∃ n, reply = .ok n) ∧
    (∀ i, (run.2.lookup i).isSome = true ↔ i ∈ members) ∧
    (∀ i, (run'.2.lookup i).isSome = true ↔ i ∈ members) ∧
    (∀ n, (run.2.identityOf n).isSome = true ↔ (run'.2.identityOf n).isSome = true) ∧
    (Set.InjOn prefer members → (∀ i ∈ members, run.2.lookup i = some (prefer i) ∧
      run'.2.lookup i = some (prefer i)) ∧ run.2 = run'.2) := by
  intro run run'
  obtain ⟨hok, hrun⟩ := (within_empty members).occupancy_answerAll (α := α) prefer hsize h.1
  obtain ⟨hok', hrun'⟩ := (within_empty members).occupancy_answerAll (α := α) prefer hsize h'.1
  have hsame : run.2.occupancy = run'.2.occupancy := by
    rw [hrun, hrun']
    refine foldl_eq_of_mem_iff (fun i _ j _ o => o.join_comm i j) (fun i _ o => o.join_join i)
      (fun i => ?_) _
    rw [h.mem_filterMap, h'.mem_filterMap]
  have htaken : run.2.taken = run'.2.taken := congrArg Occupancy.taken hsame
  refine ⟨hok, hok', h.isSome_lookup prefer hsize, h'.isSome_lookup prefer hsize, fun n => ?_,
    fun hdistinct => ?_⟩
  · rw [← mem_taken, htaken, mem_taken]
  · have hlookup := lookup_answerAll_of_injOn (α := α) hdistinct hsize h
    have hlookup' := lookup_answerAll_of_injOn (α := α) hdistinct hsize h'
    have hconsistent : ∀ l, (empty.answerAll prefer l :
        List (Except (Fault α) NodeId) × Registry).2.Consistent := fun l =>
      answerAll_induct (P := Consistent) (fun _ q hr => hr.answer q) consistent_empty l
    refine ⟨fun i hi => ?_, ext_lookup (hconsistent _) (hconsistent _) fun i => ?_⟩
    · rw [hlookup, hlookup', if_pos hi]
      exact ⟨rfl, rfl⟩
    · rw [hlookup, hlookup']

section Crowd

/-- Three identities. -/
def crowd : Finset Identity := {uniform 5, uniform 9, uniform 2}

/-- One order, in which the first comes again. -/
def forwards : List Request :=
  [.identity (uniform 5), .bytes (uniform 9).bytes, .identity (uniform 5), .identity (uniform 2)]

/-- The opposite order, in which the last comes twice. -/
def backwards : List Request :=
  [.identity (uniform 2), .identity (uniform 2), .identity (uniform 9), .bytes (uniform 5).bytes]

/-- An identity prefers the number of its first byte. -/
def leading : Identity → NodeId := fun i => (i.bytes.headD 0).toUInt32

theorem registers_forwards : Registers crowd forwards := ⟨by decide +kernel, by decide +kernel⟩

theorem registers_backwards : Registers crowd backwards := ⟨by decide +kernel, by decide +kernel⟩

/-- The order decides who gets which number, but not which are taken. -/
theorem registration_order_crowd :
    let run : List (Except (Fault Float) NodeId) × Registry := empty.answerAll highest forwards
    let run' : List (Except (Fault Float) NodeId) × Registry := empty.answerAll highest backwards
    run.2.identityOf 1 = some (uniform 2) ∧ run'.2.lookup (uniform 2) = some 4294967295 ∧
    (run'.2.identityOf 1).isSome = true ∧
    (empty.answerAll leading forwards : List (Except (Fault Float) NodeId) × Registry).2 =
      (empty.answerAll leading backwards : List (Except (Fault Float) NodeId) × Registry).2 := by
  intro run run'
  have hsize : crowd.card ≤ UInt32.size := by decide +kernel
  have hdistinct : ∀ i ∈ crowd, ∀ j ∈ crowd, leading i = leading j → i = j := by decide +kernel
  have hlast : run.2.identityOf 1 = some (uniform 2) := by decide +kernel
  obtain ⟨-, -, -, -, htaken, -⟩ :=
    registration_order (α := Float) highest hsize registers_forwards registers_backwards
  obtain ⟨-, -, -, -, -, hsame⟩ :=
    registration_order (α := Float) leading hsize registers_forwards registers_backwards
  refine ⟨hlast, by decide +kernel, (htaken 1).mp ?_,
    (hsame fun i hi j hj => hdistinct i hi j hj).2⟩
  exact Option.isSome_iff_exists.mpr ⟨_, hlast⟩

end Crowd

end Registry

end WebOfTrust
