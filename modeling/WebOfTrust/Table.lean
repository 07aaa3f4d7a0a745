/-!
# Tables in key order

A finite map from keys to values, kept as a list whose keys strictly ascend. The order makes the
list of a table the only one with its look-ups, so equal look-ups mean equal tables, and every
walk over a table is a walk in ascending key order.

* `Key`: types whose values have a place in a linear order, given by a natural number;
* `Table`: `empty`, `get?`, `contains`, `insert`, `size`, `keys`, `values`;
* `get?_empty`, `get?_insert`: what the operations do to the look-ups;
* `mem_keys_iff`: the keys are those with a look-up;
* **`Table.ext_get?`**: a table is determined by its look-ups.
-/

namespace WebOfTrust

/-- Types whose values are told apart and ordered by a natural number, their rank. -/
class Key (κ : Type) where
  rank : κ → Nat
  rank_inj : ∀ {a b : κ}, rank a = rank b → a = b

export Key (rank)

theorem rank_eq_iff {κ : Type} [Key κ] {a b : κ} : rank a = rank b ↔ a = b :=
  ⟨Key.rank_inj, fun h => h ▸ rfl⟩

instance : Key UInt32 := ⟨UInt32.toNat, fun h => UInt32.toNat_inj.mp h⟩
instance : Key UInt64 := ⟨UInt64.toNat, fun h => UInt64.toNat_inj.mp h⟩

/-- A finite map, as a list of entries whose keys strictly ascend. -/
structure Table (κ ν : Type) [Key κ] where
  entries : List (κ × ν)
  sorted : entries.Pairwise fun a b => rank a.1 < rank b.1

namespace Table

variable {κ ν : Type} [Key κ]

/-- The value that a list of entries holds for a key. -/
def find (k : κ) : List (κ × ν) → Option ν
  | [] => none
  | (j, v) :: rest => if rank j = rank k then some v else find k rest

/-- Put an entry in its place, over the entry of the same key if there is one. -/
def place (k : κ) (v : ν) : List (κ × ν) → List (κ × ν)
  | [] => [(k, v)]
  | (j, w) :: rest =>
    if rank k < rank j then (k, v) :: (j, w) :: rest
    else if rank k = rank j then (k, v) :: rest
    else (j, w) :: place k v rest

theorem mem_place {k : κ} {v : ν} {e : κ × ν} {l : List (κ × ν)} (h : e ∈ place k v l) :
    e = (k, v) ∨ e ∈ l := by
  induction l with
  | nil => simpa [place] using h
  | cons hd tl ih =>
    obtain ⟨j, w⟩ := hd
    rw [place] at h
    split at h
    · simpa using h
    · split at h
      · rcases List.mem_cons.mp h with h | h
        · exact .inl h
        · exact .inr (List.mem_cons_of_mem _ h)
      · rcases List.mem_cons.mp h with h | h
        · exact .inr (h ▸ List.mem_cons_self)
        · exact (ih h).imp_right (List.mem_cons_of_mem _)

theorem sorted_place (k : κ) (v : ν) {l : List (κ × ν)}
    (h : l.Pairwise fun a b => rank a.1 < rank b.1) :
    (place k v l).Pairwise fun a b => rank a.1 < rank b.1 := by
  induction l with
  | nil => simp [place]
  | cons hd tl ih =>
    obtain ⟨j, w⟩ := hd
    obtain ⟨hhd, htl⟩ := List.pairwise_cons.mp h
    rw [place]
    split
    next hk =>
      refine List.pairwise_cons.mpr ⟨fun e he => ?_, h⟩
      rcases List.mem_cons.mp he with he | he
      · exact he ▸ hk
      · exact Nat.lt_trans hk (hhd e he)
    next hk =>
      split
      next hj => exact List.pairwise_cons.mpr ⟨fun e he => hj ▸ hhd e he, htl⟩
      next hj =>
        refine List.pairwise_cons.mpr ⟨fun e he => ?_, ih htl⟩
        rcases mem_place he with he | he
        · subst he
          show rank j < rank k
          omega
        · exact hhd e he

/-- The table without entries. -/
def empty : Table κ ν := ⟨[], List.Pairwise.nil⟩

instance : Inhabited (Table κ ν) := ⟨empty⟩

/-- The value at a key. -/
def get? (t : Table κ ν) (k : κ) : Option ν := find k t.entries

/-- Whether the table has an entry for a key. -/
def contains (t : Table κ ν) (k : κ) : Bool := (t.get? k).isSome

/-- Set the value at a key. -/
def insert (t : Table κ ν) (k : κ) (v : ν) : Table κ ν :=
  ⟨place k v t.entries, sorted_place k v t.sorted⟩

/-- The number of entries. -/
def size (t : Table κ ν) : Nat := t.entries.length

/-- The keys, ascending. -/
def keys (t : Table κ ν) : List κ := t.entries.map (·.1)

/-- The values, in the order of their keys. -/
def values (t : Table κ ν) : List ν := t.entries.map (·.2)

/-! ## Look-ups -/

@[simp] theorem get?_empty (k : κ) : (empty : Table κ ν).get? k = none := by
  simp only [get?, empty, find]

theorem find_place (k : κ) (v : ν) (l : List (κ × ν)) (j : κ)
    (h : l.Pairwise fun a b => rank a.1 < rank b.1) :
    find j (place k v l) = if rank j = rank k then some v else find j l := by
  induction l with
  | nil => simp [place, find, eq_comm]
  | cons hd tl ih =>
    obtain ⟨i, w⟩ := hd
    obtain ⟨hhd, htl⟩ := List.pairwise_cons.mp h
    rw [place]
    split
    next hk => simp [find, eq_comm]
    next hk =>
      split
      next hi =>
        by_cases hj : rank j = rank k
        · simp [find, hj]
        · rw [if_neg hj, find, find, if_neg (by omega), if_neg (by omega)]
      next hi =>
        rw [find, find, ih htl]
        split
        next hij =>
          have : ¬ rank j = rank k := by omega
          simp [this]
        next => rfl

theorem get?_insert (t : Table κ ν) (k j : κ) (v : ν) [DecidableEq κ] :
    (t.insert k v).get? j = if j = k then some v else t.get? j := by
  simp only [get?, insert, find_place k v t.entries j t.sorted, rank_eq_iff]

theorem get?_insert_self (t : Table κ ν) (k : κ) (v : ν) : (t.insert k v).get? k = some v := by
  simp [get?, insert, find_place k v t.entries k t.sorted]

theorem get?_insert_of_ne (t : Table κ ν) {k j : κ} (v : ν) (h : j ≠ k) :
    (t.insert k v).get? j = t.get? j := by
  simp [get?, insert, find_place k v t.entries j t.sorted, rank_eq_iff, h]

/-! ## Entries and look-ups -/

theorem find_eq_none {k : κ} {l : List (κ × ν)} (h : ∀ e ∈ l, rank k < rank e.1) :
    find k l = none := by
  induction l with
  | nil => rfl
  | cons hd tl ih =>
    have := h hd List.mem_cons_self
    rw [find, if_neg (by omega), ih fun e he => h e (List.mem_cons_of_mem _ he)]

theorem mem_of_find {k : κ} {v : ν} {l : List (κ × ν)} (h : find k l = some v) : (k, v) ∈ l := by
  induction l with
  | nil => simp [find] at h
  | cons hd tl ih =>
    obtain ⟨j, w⟩ := hd
    rw [find] at h
    split at h
    next hj =>
      obtain rfl := Key.rank_inj hj
      obtain rfl := Option.some.inj h
      exact List.mem_cons_self
    next => exact List.mem_cons_of_mem _ (ih h)

theorem find_of_mem {k : κ} {v : ν} {l : List (κ × ν)}
    (hs : l.Pairwise fun a b => rank a.1 < rank b.1) (h : (k, v) ∈ l) : find k l = some v := by
  induction l with
  | nil => simp at h
  | cons hd tl ih =>
    obtain ⟨hhd, htl⟩ := List.pairwise_cons.mp hs
    rcases List.mem_cons.mp h with h | h
    · subst h
      simp [find]
    · have := hhd _ h
      rw [find, if_neg (by simp only at this; omega), ih htl h]

theorem mem_entries_iff {t : Table κ ν} {k : κ} {v : ν} :
    (k, v) ∈ t.entries ↔ t.get? k = some v :=
  ⟨find_of_mem t.sorted, mem_of_find⟩

theorem eq_of_find_eq {l₁ l₂ : List (κ × ν)}
    (h₁ : l₁.Pairwise fun a b => rank a.1 < rank b.1)
    (h₂ : l₂.Pairwise fun a b => rank a.1 < rank b.1)
    (h : ∀ k, find k l₁ = find k l₂) : l₁ = l₂ := by
  induction l₁ generalizing l₂ with
  | nil =>
    cases l₂ with
    | nil => rfl
    | cons b bs => simpa [find] using h b.1
  | cons a as ih =>
    cases l₂ with
    | nil => simpa [find] using h a.1
    | cons b bs =>
      obtain ⟨ha, has⟩ := List.pairwise_cons.mp h₁
      obtain ⟨hb, hbs⟩ := List.pairwise_cons.mp h₂
      have hab : rank a.1 = rank b.1 := by
        rcases Nat.lt_trichotomy (rank a.1) (rank b.1) with hlt | heq | hgt
        · have := h a.1
          rw [find, if_pos rfl, find_eq_none (l := b :: bs) (k := a.1)] at this
          · cases this
          · intro e he
            rcases List.mem_cons.mp he with he | he
            · exact he ▸ hlt
            · exact Nat.lt_trans hlt (hb e he)
        · exact heq
        · have := h b.1
          rw [find_eq_none (l := a :: as) (k := b.1), find, if_pos rfl] at this
          · cases this
          · intro e he
            rcases List.mem_cons.mp he with he | he
            · exact he ▸ hgt
            · exact Nat.lt_trans hgt (ha e he)
      have hv : a.2 = b.2 := by
        have := h a.1
        rw [find, if_pos rfl, find, if_pos hab.symm] at this
        exact Option.some.inj this
      have he : a = b := Prod.ext (Key.rank_inj hab) hv
      subst he
      congr 1
      refine ih has hbs fun k => ?_
      by_cases hk : rank a.1 = rank k
      · rw [find_eq_none fun e he => hk ▸ ha e he, find_eq_none fun e he => hk ▸ hb e he]
      · have := h k
        rwa [find, find, if_neg hk, if_neg hk] at this

/-- **A table is determined by its look-ups.** -/
theorem ext_get? {s t : Table κ ν} (h : ∀ k, s.get? k = t.get? k) : s = t := by
  obtain ⟨l₁, h₁⟩ := s
  obtain ⟨l₂, h₂⟩ := t
  have : l₁ = l₂ := eq_of_find_eq h₁ h₂ h
  subst this
  rfl

/-! ## Keys -/

theorem contains_iff {t : Table κ ν} {k : κ} : t.contains k = true ↔ ∃ v, t.get? k = some v :=
  Option.isSome_iff_exists

theorem mem_keys_iff {t : Table κ ν} {k : κ} : k ∈ t.keys ↔ t.contains k = true := by
  rw [contains_iff, keys, List.mem_map]
  constructor
  · rintro ⟨⟨j, v⟩, hmem, rfl⟩
    exact ⟨v, mem_entries_iff.mp hmem⟩
  · rintro ⟨v, hv⟩
    exact ⟨(k, v), mem_entries_iff.mpr hv, rfl⟩

theorem pairwise_keys (t : Table κ ν) : t.keys.Pairwise (· ≠ ·) :=
  List.pairwise_map.mpr (t.sorted.imp fun h he => Nat.ne_of_lt h (congrArg rank he))

@[simp] theorem length_keys (t : Table κ ν) : t.keys.length = t.size := List.length_map ..

end Table

/-! ## Sets of keys -/

/-- A finite set, as a table without values. -/
abbrev KeySet (κ : Type) [Key κ] : Type := Table κ Unit

namespace KeySet

variable {κ : Type} [Key κ]

/-- Put a key into a set. -/
def add (s : KeySet κ) (k : κ) : KeySet κ := Table.insert s k ()

/-- The set of the keys of a list. -/
def ofList (l : List κ) : KeySet κ := l.foldl add Table.empty

theorem contains_add (s : KeySet κ) (k j : κ) :
    (s.add k).contains j = true ↔ j = k ∨ s.contains j = true := by
  by_cases h : j = k
  · subst h
    simp [Table.contains, add, Table.get?_insert_self]
  · simp [Table.contains, add, Table.get?_insert_of_ne s () h, h]

end KeySet

end WebOfTrust
