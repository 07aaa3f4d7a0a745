import Mathlib
import WebOfTrust.Betrayal.Evidence
import WebOfTrust.Bytes.Items
import WebOfTrust.Bytes.Lemmas

/-!
# The bytes of evidence

The bytes of evidence tell of each edge its source, its target, the word of its risk and its nonce,
in the order of the cycle, and nothing else. They can be read back, so evidence with other edges has
other bytes.

* `Edge.Alike`: edges that agree in what the bytes tell; `Evidence.Entry`: what they tell of an
  edge; `Entry.decode_encode`, `Entry.encode_decode`: the two directions, `Entry.format`;
* `Evidence.layout`: the bytes of some entries; `Evidence.read?`: the entries that bytes tell;
  **`Evidence.read?_eq_some_iff`**: they are read from no other bytes;
* **`Evidence.encode_unambiguous`**: when evidence has bytes, and when the same ones.
-/

namespace WebOfTrust

variable {α : Type} [WordForm α]

/-- Edges with the same source, target, nonce and word of the risk. -/
structure Edge.Alike (e f : Edge α) : Prop where
  source : e.source = f.source
  target : e.target = f.target
  word : WordForm.word e.risk = WordForm.word f.risk
  nonce : e.nonce = f.nonce

namespace Evidence

/-! ## Entries -/

/-- What the bytes of evidence tell of an edge. -/
structure Entry where
  source : NodeId
  target : NodeId
  /-- The word of the risk. -/
  word : UInt64
  nonce : UInt64
deriving DecidableEq

namespace Entry

/-- The length of an entry's bytes. -/
def length : ℕ := 24

/-- The entry of an edge. -/
def ofEdge (e : Edge α) : Entry := ⟨e.source, e.target, WordForm.word e.risk, e.nonce⟩

theorem ofEdge_eq_iff {e f : Edge α} : ofEdge e = ofEdge f ↔ e.Alike f := by
  rw [ofEdge, ofEdge, mk.injEq]
  constructor
  · rintro ⟨hs, ht, hw, hn⟩
    exact ⟨hs, ht, hw, hn⟩
  · intro h
    exact ⟨h.source, h.target, h.word, h.nonce⟩

theorem map_ofEdge_eq_iff {l l' : List (Edge α)} :
    l.map ofEdge = l'.map ofEdge ↔ List.Forall₂ Edge.Alike l l' := by
  rw [← List.forall₂_eq_eq_eq, List.forall₂_map_left_iff, List.forall₂_map_right_iff]
  simp only [ofEdge_eq_iff]

/-- The bytes of an entry. -/
def encode (x : Entry) : Bytes :=
  LittleEndian.encode 4 x.source.toNat ++ LittleEndian.encode 4 x.target.toNat ++
    LittleEndian.encode 8 x.word.toNat ++ LittleEndian.encode 8 x.nonce.toNat

/-- The entry at the front of some bytes. -/
def decode (bytes : Bytes) : Entry :=
  { source := UInt32.ofNat (LittleEndian.read bytes 0 4)
    target := UInt32.ofNat (LittleEndian.read bytes 4 4)
    word := UInt64.ofNat (LittleEndian.read bytes 8 8)
    nonce := UInt64.ofNat (LittleEndian.read bytes 16 8) }

@[simp] theorem length_encode (x : Entry) : x.encode.length = length := by
  simp [encode, length]

theorem decode_encode (x : Entry) (rest : Bytes) : decode (x.encode ++ rest) = x := by
  have hs : LittleEndian.read (x.encode ++ rest) 0 4 = x.source.toNat := by
    rw [encode, List.append_assoc, List.append_assoc, List.append_assoc]
    exact LittleEndian.read_encode_front x.source.toNat_lt _
  have ht : LittleEndian.read (x.encode ++ rest) 4 4 = x.target.toNat := by
    rw [encode, List.append_assoc, List.append_assoc, List.append_assoc]
    exact LittleEndian.read_encode (LittleEndian.length_encode _ _) x.target.toNat_lt _
  have hw : LittleEndian.read (x.encode ++ rest) 8 8 = x.word.toNat := by
    rw [encode, List.append_assoc, List.append_assoc]
    exact LittleEndian.read_encode (by simp) x.word.toNat_lt _
  have hn : LittleEndian.read (x.encode ++ rest) 16 8 = x.nonce.toNat := by
    rw [encode, List.append_assoc]
    exact LittleEndian.read_encode (by simp) x.nonce.toNat_lt _
  rw [decode, hs, ht, hw, hn, UInt32.ofNat_toNat, UInt32.ofNat_toNat, UInt64.ofNat_toNat,
    UInt64.ofNat_toNat]

theorem encode_decode {bytes : Bytes} (h : length ≤ bytes.length) :
    (decode bytes).encode = bytes.take length := by
  unfold length at h ⊢
  -- What fits into the bytes of a field is not cut when it becomes a number of that size.
  have hs := LittleEndian.read_lt bytes 0 4
  have ht := LittleEndian.read_lt bytes 4 4
  have hw := LittleEndian.read_lt bytes 8 8
  have hn := LittleEndian.read_lt bytes 16 8
  rw [encode, decode]
  dsimp only
  rw [UInt32.toNat_ofNat_of_lt' hs, UInt32.toNat_ofNat_of_lt' ht, UInt64.toNat_ofNat_of_lt' hw,
    UInt64.toNat_ofNat_of_lt' hn, LittleEndian.encode_read (by omega),
    LittleEndian.encode_read (by omega), LittleEndian.encode_read (by omega),
    LittleEndian.encode_read (by omega), List.drop_zero, List.append_assoc, List.append_assoc,
    show 24 = 4 + (4 + (8 + 8)) from rfl, List.take_add, List.take_add, List.take_add,
    List.drop_drop, List.drop_drop]

/-- The format of entries. -/
def format : ItemFormat Entry := ⟨length, encode, decode, length_encode, decode_encode,
  fun _ => encode_decode⟩

end Entry

/-! ## Evidence -/

/-- The bytes of some entries. -/
def layout (entries : List Entry) : Bytes :=
  LittleEndian.encode 2 entries.length ++ entries.flatMap Entry.encode

theorem length_layout (entries : List Entry) :
    (layout entries).length = 2 + 24 * entries.length := by
  have hentries : (entries.flatMap Entry.encode).length = entries.length * 24 :=
    Entry.format.length_flatMap entries
  rw [layout, List.length_append, LittleEndian.length_encode, hentries, Nat.mul_comm]

/-- The entries that some bytes tell, if their length fits the number in the first two. -/
def read? (bytes : Bytes) : Option (List Entry) :=
  let count := LittleEndian.read bytes 0 2
  if bytes.length = 2 + count * Entry.length then some (Entry.format.readAll count (bytes.drop 2))
  else none

theorem read?_layout {entries : List Entry} (h : entries.length ≤ 65535) :
    read? (layout entries) = some entries := by
  have hcount : LittleEndian.read (layout entries) 0 2 = entries.length :=
    LittleEndian.read_encode_front (Nat.lt_succ_of_le h) _
  have hlength := length_layout entries
  unfold read?
  dsimp only
  rw [hcount, if_pos (by rw [hlength, Entry.length]; omega), layout,
    List.drop_left' (LittleEndian.length_encode _ _)]
  exact congrArg some (Entry.format.readAll_flatMap entries)

theorem layout_of_read? {bytes : Bytes} {entries : List Entry} (h : read? bytes = some entries) :
    entries.length ≤ 65535 ∧ layout entries = bytes := by
  have hcount := LittleEndian.read_lt bytes 0 2
  unfold read? at h
  dsimp only at h
  split_ifs at h with hlength
  cases h
  have htail : (bytes.drop 2).length = LittleEndian.read bytes 0 2 * Entry.format.width := by
    rw [List.length_drop, hlength, Nat.add_sub_cancel_left]
    rfl
  rw [Entry.format.length_readAll]
  refine ⟨by omega, ?_⟩
  have hentries := Entry.format.flatMap_readAll htail
  rw [layout, Entry.format.length_readAll, LittleEndian.encode_read (by omega), List.drop_zero]
  exact (congrArg _ hentries).trans (List.take_append_drop 2 bytes)

/-- **Entries are read from their own bytes** and from no others. -/
theorem read?_eq_some_iff {bytes : Bytes} {entries : List Entry} :
    read? bytes = some entries ↔ entries.length ≤ 65535 ∧ layout entries = bytes := by
  constructor
  · exact layout_of_read?
  · rintro ⟨h, rfl⟩
    exact read?_layout h

/-- The entries of a cycle's edges. -/
def entries (e : Evidence α) : List Entry := e.edges.map Entry.ofEdge

theorem encode_eq (e : Evidence α) : (e.encode : Except (Fault α) Bytes) =
    if 65535 < e.edges.length then .error (.evidenceTooLarge e.edges.length)
    else .ok (layout e.entries) := by
  have hbytes : e.edges.flatMap encodeEdge = e.entries.flatMap Entry.encode := by
    rw [entries, List.flatMap_map]
    rfl
  rw [encode, layout, hbytes, entries, List.length_map]

/-- **Evidence is written in those bytes from which its entries are read.** -/
theorem encode_eq_ok_iff {e : Evidence α} {bytes : Bytes} :
    (e.encode : Except (Fault α) Bytes) = .ok bytes ↔ read? bytes = some e.entries := by
  rw [read?_eq_some_iff, encode_eq, entries, List.length_map]
  split_ifs with h
  · simp [h]
  · simp [not_lt.mp h]

theorem exists_encode_iff (e : Evidence α) :
    (∃ bytes, e.encode = .ok bytes) ↔ e.edges.length ≤ 65535 := by
  simp only [encode_eq_ok_iff, read?_eq_some_iff, exists_and_left, exists_eq', and_true]
  rw [entries, List.length_map]

theorem length_of_encode {e : Evidence α} {bytes : Bytes} (h : e.encode = .ok bytes) :
    bytes.length = 2 + 24 * e.edges.length := by
  obtain ⟨-, rfl⟩ := read?_eq_some_iff.mp (encode_eq_ok_iff.mp h)
  rw [length_layout, entries, List.length_map]

theorem encode_congr {e f : Evidence α} (h : List.Forall₂ Edge.Alike e.edges f.edges) :
    e.encode = f.encode := by
  have hentries : e.entries = f.entries := Entry.map_ofEdge_eq_iff.mpr h
  rw [encode_eq, encode_eq, hentries, h.length_eq]

/-- **The bytes of evidence are unambiguous**, and its digest is that of its bytes. -/
theorem encode_unambiguous (α : Type) [WordForm α] (hash : Bytes → Octets 32) :
    (∀ e : Evidence α, ((∃ bytes, e.encode = .ok bytes) ↔ e.edges.length ≤ 65535) ∧
      ∀ bytes, e.encode = .ok bytes →
        bytes.length = 2 + 24 * e.edges.length ∧ e.digest hash = .ok (hash bytes)) ∧
    (∀ (e : Evidence α) bytes, e.encode = .ok bytes ↔ read? bytes = some e.entries) ∧
    (∀ (e f : Evidence α) bytes bytes', e.encode = .ok bytes → f.encode = .ok bytes' →
      (bytes = bytes' ↔ List.Forall₂ Edge.Alike e.edges f.edges)) ∧
    ∀ e f : Evidence α, List.Forall₂ Edge.Alike e.edges f.edges →
      e.digest hash = f.digest hash := by
  refine ⟨fun e => ⟨exists_encode_iff e, fun bytes h => ⟨length_of_encode h, ?_⟩⟩,
    fun _ _ => encode_eq_ok_iff, fun e f bytes bytes' he hf => ⟨?_, fun h => ?_⟩, fun e f h => ?_⟩
  · rw [digest, h]
  · rintro rfl
    -- Both lists of entries are read from the same bytes.
    have hentries := (encode_eq_ok_iff.mp he).symm.trans (encode_eq_ok_iff.mp hf)
    exact Entry.map_ofEdge_eq_iff.mp (Option.some.inj hentries)
  · rw [encode_congr h] at he
    exact Except.ok.inj (he.symm.trans hf)
  · rw [digest, digest, encode_congr h]

section Zeros

/-- Evidence of a single edge from a node to itself. -/
def ofLoop (risk : Float) : Evidence Float := ⟨9, [⟨9, 9, risk, 0, 0, 3, 100⟩], risk⟩

/-- The sign of a zero is in the bytes. -/
theorem encode_unambiguous_zeros :
    ∃ bytes bytes', (ofLoop 0).encode = .ok bytes ∧ (ofLoop (-0)).encode = .ok bytes' ∧
      bytes ≠ bytes' := by
  obtain ⟨hencode, -, hsame, -⟩ := encode_unambiguous Float Blake3.digest
  obtain ⟨bytes, hbytes⟩ := (hencode (ofLoop 0)).1.mpr (by decide)
  obtain ⟨bytes', hbytes'⟩ := (hencode (ofLoop (-0))).1.mpr (by decide)
  refine ⟨bytes, bytes', hbytes, hbytes', fun heq => ?_⟩
  have halike := (hsame _ _ _ _ hbytes hbytes').mp heq
  have hword := (List.forall₂_cons.mp halike).1.word
  exact absurd hword (by decide +kernel)

end Zeros

end Evidence

end WebOfTrust
