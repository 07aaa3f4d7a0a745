import Mathlib
import WebOfTrust.Proofs.Registry.Inverse

/-!
# One node for each identity

A registry answers requests for the nodes of identities, whatever the identities prefer. What it
knows of an identity after some requests is what it has answered for it, and that does not change.

* `Registry.Request`: an identity, or bytes that may be one; `Registry.answer`, `answerAll`;
* `answer_cases`, `answer_induct`: what a request can do; `lookup_answer`: the nodes known after it;
* `assignments`: the identities that were resolved, with their nodes; **`lookup_answerAll`**: these
  are the nodes known after a run;
* `Probed`: the numbers from the preferred node of an identity on to its own one are taken, which
  requests preserve;
* **`one_node_each`**: the tables are inverse, identities keep their nodes, and no free number was
  passed over.
-/

namespace WebOfTrust.Registry

/-- A request for the node of an identity. -/
inductive Request where
  | identity (i : Identity)
  | bytes (b : Bytes)
deriving DecidableEq

/-- The identity that a request names, if it names one. -/
def Request.identity? : Request → Option Identity
  | .identity i => some i
  | .bytes b => Identity.ofBytes? b

variable {α : Type}

/-- The answer to a request, and the registry after it. -/
def answer (r : Registry) (prefer : Identity → NodeId) :
    Request → Except (Fault α) NodeId × Registry
  | .identity i => r.resolve prefer i
  | .bytes b => r.resolveBytes prefer b

/-- The answers to some requests, and the registry after them. -/
def answerAll (r : Registry) (prefer : Identity → NodeId) :
    List Request → List (Except (Fault α) NodeId) × Registry
  | [] => ([], r)
  | q :: rest =>
    let (reply, r') := r.answer prefer q
    let (replies, r'') := answerAll r' prefer rest
    (reply :: replies, r'')

/-- The identities that requests have resolved, each with its node, by the answers. -/
def assignments : List Request → List (Except (Fault α) NodeId) → List (Identity × NodeId)
  | q :: requests, .ok n :: replies =>
    (q.identity?.map fun i => (i, n)).toList ++ assignments requests replies
  | _ :: requests, .error _ :: replies => assignments requests replies
  | _, _ => []

variable {r : Registry} {prefer : Identity → NodeId} {i : Identity} {n : NodeId}

/-! ## One request -/

theorem answer_eq_resolve {q : Request} (h : q.identity? = some i) :
    (r.answer prefer q : Except (Fault α) NodeId × Registry) = r.resolve prefer i := by
  cases q with
  | identity j =>
    cases h
    rfl
  | bytes b =>
    have hb : Identity.ofBytes? b = some i := h
    simp only [answer, resolveBytes, hb]

theorem answer_of_identity?_eq_none {q : Request} (h : q.identity? = none) :
    ∃ f, (r.answer prefer q : Except (Fault α) NodeId × Registry) = (.error f, r) := by
  cases q with
  | identity j => cases h
  | bytes b =>
    have hb : Identity.ofBytes? b = none := h
    exact ⟨.malformedIdentity b.length, by simp only [answer, resolveBytes, hb]⟩

theorem answer_of_lookup {q : Request} (hq : q.identity? = some i) (h : r.lookup i = some n) :
    (r.answer prefer q : Except (Fault α) NodeId × Registry) = (.ok n, r) := by
  rw [answer_eq_resolve hq, resolve, h]

/-- **What a request can do**: fail, or name an identity and be answered with its node. -/
theorem answer_cases (r : Registry) (prefer : Identity → NodeId) (q : Request) :
    (∃ f, (r.answer prefer q : Except (Fault α) NodeId × Registry) = (.error f, r)) ∨
    ∃ i n, q.identity? = some i ∧
      ((r.lookup i = some n ∧
        r.answer prefer q = ((.ok n, r) : Except (Fault α) NodeId × _)) ∨
      (r.lookup i = none ∧ r.firstFree? UInt32.size (prefer i) = some n ∧
        r.answer prefer q = ((.ok n, r.assign i n) : Except (Fault α) NodeId × _))) := by
  cases hq : q.identity? with
  | none => exact .inl (answer_of_identity?_eq_none hq)
  | some i =>
    cases hi : r.lookup i with
    | some n => exact .inr ⟨i, n, rfl, .inl ⟨hi, answer_of_lookup hq hi⟩⟩
    | none =>
      rw [answer_eq_resolve hq, resolve, hi]
      dsimp only
      cases hn : r.firstFree? UInt32.size (prefer i) with
      | some n => exact .inr ⟨i, n, rfl, .inr ⟨hi, hn, rfl⟩⟩
      | none => exact .inl ⟨_, rfl⟩

theorem answer_induct {P : Registry → Prop} (hr : P r)
    (hassign : ∀ i n, r.lookup i = none → r.firstFree? UInt32.size (prefer i) = some n →
      P (r.assign i n)) (q : Request) :
    P (r.answer prefer q : Except (Fault α) NodeId × Registry).2 := by
  rcases answer_cases (α := α) r prefer q with ⟨f, h⟩ | ⟨i, n, -, ⟨-, h⟩ | ⟨hi, hn, h⟩⟩
  · rw [h]
    exact hr
  · rw [h]
    exact hr
  · rw [h]
    exact hassign i n hi hn

/-- **The nodes known after a request** are those known before and the one it was answered with. -/
theorem lookup_answer (q : Request) :
    (r.answer prefer q : Except (Fault α) NodeId × Registry).2.lookup i = some n ↔
      r.lookup i = some n ∨ q.identity? = some i ∧
        (r.answer prefer q : Except (Fault α) NodeId × Registry).1 = .ok n := by
  rcases answer_cases (α := α) r prefer q with ⟨f, h⟩ | ⟨j, m, hq, ⟨hj, h⟩ | ⟨hj, -, h⟩⟩
  · rw [h]
    simp
  · rw [h, hq]
    simp only [Option.some.injEq, Except.ok.injEq]
    constructor
    · exact .inl
    · rintro (hi | ⟨rfl, rfl⟩)
      · exact hi
      · exact hj
  · rw [h, hq, lookup_assign]
    by_cases hij : i = j
    · subst hij
      simp [hj]
    · simp [hij, Ne.symm hij]

/-! ## All requests -/

theorem mem_assignments_cons (q : Request) (requests : List Request)
    (reply : Except (Fault α) NodeId) (replies : List (Except (Fault α) NodeId)) :
    (i, n) ∈ assignments (q :: requests) (reply :: replies) ↔
      (q.identity? = some i ∧ reply = .ok n) ∨ (i, n) ∈ assignments requests replies := by
  cases reply with
  | error f => simp [assignments]
  | ok m => cases hq : q.identity? <;> simp [assignments, hq, eq_comm]

/-- **The nodes known after requests** are those known before and those they were answered with. -/
theorem lookup_answerAll (requests : List Request) :
    (r.answerAll prefer requests : List (Except (Fault α) NodeId) × Registry).2.lookup i = some n ↔
      r.lookup i = some n ∨ (i, n) ∈ assignments requests
        (r.answerAll prefer requests : List (Except (Fault α) NodeId) × Registry).1 := by
  induction requests generalizing r with
  | nil => simp [answerAll, assignments]
  | cons q rest ih =>
    simp only [answerAll]
    rw [ih, lookup_answer, mem_assignments_cons, or_assoc]

theorem answerAll_induct_of_mem {P : Registry → Prop} {requests : List Request} (hr : P r)
    (h : ∀ r, P r → ∀ q ∈ requests,
      P (r.answer prefer q : Except (Fault α) NodeId × Registry).2) :
    P (r.answerAll prefer requests : List (Except (Fault α) NodeId) × Registry).2 := by
  induction requests generalizing r with
  | nil => exact hr
  | cons q rest ih =>
    exact ih (h r hr q List.mem_cons_self) fun r hr q hq => h r hr q (List.mem_cons_of_mem _ hq)

theorem answerAll_induct {P : Registry → Prop} (h : ∀ r q, P r →
    P (r.answer prefer q : Except (Fault α) NodeId × Registry).2) (hr : P r)
    (requests : List Request) :
    P (r.answerAll prefer requests : List (Except (Fault α) NodeId) × Registry).2 :=
  answerAll_induct_of_mem hr fun r hr q _ => h r q hr

theorem Consistent.answer (hr : r.Consistent) (q : Request) :
    (r.answer prefer q : Except (Fault α) NodeId × Registry).2.Consistent :=
  answer_induct hr (fun _ _ hi hn => hr.assign hi (identityOf_of_firstFree? hn)) q

/-! ## Probing -/

/-- Every number from a first one on to a last one is taken, counting upwards and from the highest
number on to zero. -/
def Occupied (r : Registry) (first last : NodeId) : Prop :=
  ∀ k ≤ (last - first).toNat, (r.identityOf (first + UInt32.ofNat k)).isSome = true

/-- No identity was given a node beyond a free one. -/
def Probed (r : Registry) (prefer : Identity → NodeId) : Prop :=
  ∀ i n, r.lookup i = some n → r.Occupied (prefer i) n

theorem probed_empty (prefer : Identity → NodeId) : empty.Probed prefer := by
  intro i n h
  cases h

theorem add_one_add_ofNat (first : NodeId) (k : ℕ) :
    first + 1 + UInt32.ofNat k = first + UInt32.ofNat (k + 1) := by
  rw [UInt32.ofNat_add, UInt32.add_comm (UInt32.ofNat k), UInt32.add_assoc]
  rfl

theorem firstFree?_spec {tries : ℕ} {first : NodeId} (h : r.firstFree? tries first = some n) :
    ∃ k < tries, n = first + UInt32.ofNat k ∧
      ∀ j < k, (r.identityOf (first + UInt32.ofNat j)).isSome = true := by
  induction tries generalizing first with
  | zero => cases h
  | succ tries ih =>
    rw [firstFree?] at h
    split_ifs at h with hc
    · obtain ⟨k, hk, hn, htaken⟩ := ih h
      refine ⟨k + 1, by omega, ?_, fun j hj => ?_⟩
      · rw [hn, add_one_add_ofNat]
      · cases j with
        | zero =>
          rw [show first + UInt32.ofNat 0 = first by simp]
          exact hc
        | succ j =>
          rw [← add_one_add_ofNat]
          apply htaken
          omega
    · cases h
      exact ⟨0, by omega, by simp, fun j hj => by omega⟩

theorem isSome_identityOf_assign {m : NodeId} (i : Identity) (n : NodeId)
    (h : (r.identityOf m).isSome = true) : ((r.assign i n).identityOf m).isSome = true := by
  rw [identityOf_assign]
  split_ifs
  · rfl
  · exact h

theorem Probed.assign (hr : r.Probed prefer)
    (hn : r.firstFree? UInt32.size (prefer i) = some n) : (r.assign i n).Probed prefer := by
  obtain ⟨k, hk, rfl, htaken⟩ := firstFree?_spec hn
  intro j m hj
  rw [lookup_assign] at hj
  split_ifs at hj with hji
  · -- The identity that is entered: its own node comes last.
    subst hji
    cases hj
    intro l hl
    rw [UInt32.add_comm, UInt32.add_sub_cancel, UInt32.toNat_ofNat_of_lt' hk] at hl
    rcases Nat.lt_or_eq_of_le hl with hlt | rfl
    · apply isSome_identityOf_assign
      exact htaken l hlt
    · rw [identityOf_assign, if_pos rfl]
      rfl
  · intro l hl
    apply isSome_identityOf_assign
    exact hr j m hj l hl

theorem Probed.answer (hr : r.Probed prefer) (q : Request) :
    (r.answer prefer q : Except (Fault α) NodeId × Registry).2.Probed prefer :=
  answer_induct (P := (Probed · prefer)) hr (fun _ _ _ hn => hr.assign hn) q

/-! ## Counting -/

theorem size_eq_card {l : List Identity} (h : ∀ i, i ∈ l ↔ ∃ n, r.lookup i = some n) :
    r.size = l.toFinset.card := by
  rw [size, ← Table.length_keys, ← List.toFinset_card_of_nodup r.nodes.pairwise_keys]
  congr 1
  ext i
  rw [List.mem_toFinset, List.mem_toFinset, h, Table.mem_keys_iff, Table.contains_iff]
  rfl

/-- **Each identity has one node**, for good, whatever is asked of the registry. -/
theorem one_node_each (prefer : Identity → NodeId) (requests later : List Request) :
    let run : List (Except (Fault α) NodeId) × Registry := empty.answerAll prefer requests
    let after : List (Except (Fault α) NodeId) × Registry := run.2.answerAll prefer later
    (∀ i n, run.2.lookup i = some n ↔ run.2.identityOf n = some i) ∧
    (∀ i j n, run.2.lookup i = some n → run.2.lookup j = some n → i = j) ∧
    (∀ i n, run.2.lookup i = some n ↔ (i, n) ∈ assignments requests run.1) ∧
    run.2.size = ((assignments requests run.1).map (·.1)).toFinset.card ∧
    (∀ i n, run.2.lookup i = some n → after.2.lookup i = some n ∧ ∀ q, q.identity? = some i →
      (after.2.answer prefer q : Except (Fault α) NodeId × Registry).1 = .ok n) ∧
    ∀ i n, run.2.lookup i = some n → run.2.Occupied (prefer i) n := by
  intro run after
  have hconsistent : run.2.Consistent :=
    answerAll_induct (P := Consistent) (fun _ q hr => hr.answer q) consistent_empty requests
  have hprobed : run.2.Probed prefer :=
    answerAll_induct (P := (Probed · prefer)) (fun _ q hr => Probed.answer hr q)
      (probed_empty prefer) requests
  have hknown : ∀ i n, run.2.lookup i = some n ↔ (i, n) ∈ assignments requests run.1 := by
    intro i n
    have hempty : empty.lookup i ≠ some n := nofun
    exact (lookup_answerAll requests).trans (or_iff_right hempty)
  refine ⟨hconsistent, fun i j n hi hj => ?_, hknown, ?_, fun i n h => ?_, hprobed⟩
  · rw [hconsistent] at hi hj
    exact Option.some.inj (hi.symm.trans hj)
  · apply size_eq_card
    intro i
    simp [hknown]
  · have hafter : after.2.lookup i = some n := (lookup_answerAll later).mpr (.inl h)
    exact ⟨hafter, fun q hq => congrArg Prod.fst (answer_of_lookup hq hafter)⟩

section Collision

/-- The identity that repeats a byte. -/
def uniform (b : UInt8) : Identity := ⟨⟨List.replicate 32 b, List.length_replicate⟩⟩

/-- Every identity prefers the highest number. -/
def highest : Identity → NodeId := fun _ => 4294967295

/-- Three identities, one of them asked for twice, and bytes that are none. -/
def colliding : List Request :=
  [.identity (uniform 5), .bytes [1, 2], .bytes (uniform 9).bytes, .identity (uniform 5),
    .identity (uniform 2)]

/-- The last of the three goes round to the second number, and keeps it. -/
theorem one_node_each_colliding :
    let run : List (Except (Fault Float) NodeId) × Registry := empty.answerAll highest colliding
    let after : List (Except (Fault Float) NodeId) × Registry :=
      run.2.answerAll highest [.identity (uniform 7)]
    run.2.lookup (uniform 2) = some 1 ∧ run.2.identityOf 1 = some (uniform 2) ∧ run.2.size = 3 ∧
      after.2.lookup (uniform 2) = some 1 ∧ run.2.Occupied 4294967295 1 := by
  intro run after
  obtain ⟨hinverse, -, -, hsize, hkeeps, hoccupied⟩ :=
    one_node_each (α := Float) highest colliding [.identity (uniform 7)]
  have hlookup : run.2.lookup (uniform 2) = some 1 := by decide +kernel
  refine ⟨hlookup, (hinverse _ _).mp hlookup, hsize.trans ?_, (hkeeps _ _ hlookup).1,
    hoccupied _ _ hlookup⟩
  decide +kernel

end Collision

end WebOfTrust.Registry
