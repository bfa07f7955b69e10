import JasonDb.Codec.Corrupt

namespace JasonDb.Codec

open Lib

section Reads

variable {pageNum : PageNum} {data : Bytes} {offset width count : Nat} {what : String}

theorem returns_corrupt {α : Type} (pageNum : PageNum) (details : String) :
    Returns (.error (corrupt pageNum details) : Except Error α) :=
  returns_error (fun _ h => by cases h) (fun h => by cases h)

theorem returns_demand (pageNum : PageNum) (data : Bytes) (offset count : Nat) (what : String) :
    Returns (demand pageNum data offset count what) := by
  unfold demand
  split
  · exact returns_corrupt _ _
  · exact returns_ok _

theorem le_of_demand {u : Unit} (h : demand pageNum data offset count what = .ok u) :
    offset + count ≤ data.length := by
  unfold demand at h
  split at h
  · cases h
  · omega

theorem returns_readNat (h : offset + width ≤ data.length) : Returns (readNat data offset width) := by
  rw [readNat_eq h]
  exact returns_ok _

theorem ofLeBytes_lt (data : Bytes) : ofLeBytes data < 256 ^ data.length := by
  induction data with
  | nil => exact Nat.one_pos
  | cons b rest ih =>
    have hb := b.toNat_lt
    rw [ofLeBytes, List.length_cons, Nat.pow_succ]
    omega

theorem readNat_lt {n : Nat} (h : readNat data offset width = .ok n) : n < 256 ^ width := by
  unfold readNat slice at h
  cases hfield : range? data offset (offset + width) with
  | none => rw [hfield] at h; cases h
  | some field =>
    rw [hfield] at h
    obtain rfl : ofLeBytes field = n := Except.ok.inj h
    have hlen := length_range? hfield
    rw [Nat.add_sub_cancel_left] at hlen
    rw [← hlen]
    exact ofLeBytes_lt field

theorem returns_readKey (names : KeyNames) : Returns (readKey pageNum data names offset) := by
  unfold readKey
  refine returns_bind (returns_demand _ _ _ _ _) fun _ hdemand => ?_
  refine returns_bind (returns_readNat (le_of_demand hdemand)) fun keyLen _ => ?_
  split
  · exact returns_corrupt _ _
  refine returns_bind (returns_demand _ _ _ _ _) fun _ hdemand => ?_
  rw [slice_eq (le_of_demand hdemand)]
  refine returns_bind (returns_ok _) fun bytes _ => ?_
  split
  · exact returns_ok _
  · exact returns_invalidDocument

theorem returns_readEntries : Returns (readEntries pageNum data count offset) := by
  induction count generalizing offset with
  | zero => exact returns_ok _
  | succ count ih =>
    rw [readEntries]
    refine returns_bind (returns_readKey _) fun key _ => ?_
    refine returns_bind (returns_demand _ _ _ _ _) fun _ hdemand => ?_
    refine returns_bind (returns_readNat (le_of_demand hdemand)) fun value _ => ?_
    exact returns_bind ih fun rest _ => returns_ok _

theorem returns_readChildren : Returns (readChildren pageNum data count offset) := by
  induction count generalizing offset with
  | zero => exact returns_ok _
  | succ count ih =>
    rw [readChildren]
    refine returns_bind (returns_demand _ _ _ _ _) fun _ hdemand => ?_
    refine returns_bind (returns_readNat (le_of_demand hdemand)) fun child _ => ?_
    exact returns_bind ih fun rest _ => returns_ok _

theorem returns_readKeys : Returns (readKeys pageNum data count offset) := by
  induction count generalizing offset with
  | zero => exact returns_ok _
  | succ count ih =>
    rw [readKeys]
    refine returns_bind (returns_readKey _) fun key _ => ?_
    exact returns_bind ih fun rest _ => returns_ok _

end Reads

section Node

variable {pageNum : PageNum} {data : Bytes} {numKeys : Nat} {parent : PageNum} {offset : Nat}

theorem returns_readLeaf : Returns (readLeaf pageNum data numKeys parent offset) := by
  unfold readLeaf
  refine returns_bind (returns_demand _ _ _ _ _) fun _ hdemand => ?_
  refine returns_bind (returns_readNat (le_of_demand hdemand)) fun nextLeaf _ => ?_
  refine returns_bind (returns_demand _ _ _ _ _) fun _ hdemand => ?_
  refine returns_bind (returns_readNat (le_of_demand hdemand)) fun numEntries _ => ?_
  split
  · exact returns_corrupt _ _
  · exact returns_bind returns_readEntries fun entries _ => returns_ok _

theorem returns_readInternal : Returns (readInternal pageNum data numKeys parent offset) := by
  unfold readInternal
  refine returns_bind (returns_demand _ _ _ _ _) fun _ hdemand => ?_
  refine returns_bind (returns_readNat (le_of_demand hdemand)) fun numChildren _ => ?_
  split
  · exact returns_corrupt _ _
  refine returns_bind returns_readChildren fun children _ => ?_
  refine returns_bind returns_readKeys fun (keys, _) _ => ?_
  dsimp only
  split
  · exact returns_corrupt _ _
  · exact returns_ok _

-- Whatever a page holds, decoding it stays inside.
theorem returns_deserializeNode (pageNum : PageNum) (data : Bytes) :
    Returns (deserializeNode pageNum data) := by
  unfold deserializeNode
  split
  · exact returns_corrupt _ _
  refine returns_bind (returns_readNat (by omega)) fun byte _ => ?_
  refine returns_bind ?_ fun nodeType _ => ?_
  · unfold nodeTypeOf
    split_ifs
    · exact returns_ok _
    · exact returns_ok _
    · exact returns_other _
  refine returns_bind (returns_readNat (by omega)) fun numKeys _ => ?_
  refine returns_bind (returns_readNat (by omega)) fun parent _ => ?_
  cases nodeType with
  | leafNode => exact returns_readLeaf
  | internalNode => exact returns_readInternal

-- A sequence that succeeds succeeds in both parts.
theorem bind_eq_ok {α β : Type} {x : Except Error α} {f : α → Except Error β} {b : β}
    (h : (x >>= f) = .ok b) : ∃ a, x = .ok a ∧ f a = .ok b := by
  cases x with
  | error e => cases h
  | ok a => exact ⟨a, rfl, h⟩

theorem readChildren_spec {count : Nat} {children : List PageNum} {stop : Nat}
    (h : readChildren pageNum data count offset = .ok (children, stop)) :
    children.length = count ∧ ∀ child ∈ children, child < 2 ^ 64 := by
  induction count generalizing offset children with
  | zero =>
    cases h
    exact ⟨rfl, fun child hchild => absurd hchild List.not_mem_nil⟩
  | succ count ih =>
    rw [readChildren] at h
    obtain ⟨_, -, h⟩ := bind_eq_ok h
    obtain ⟨child, hchild, h⟩ := bind_eq_ok h
    obtain ⟨⟨rest, stop'⟩, hrest, h⟩ := bind_eq_ok h
    cases h
    obtain ⟨hlen, hbounded⟩ := ih hrest
    refine ⟨by rw [List.length_cons, hlen], ?_⟩
    intro c hc
    rcases List.mem_cons.mp hc with rfl | hc
    · exact readNat_lt hchild
    · exact hbounded c hc

theorem readKeys_length {count : Nat} {keys : List String} {stop : Nat}
    (h : readKeys pageNum data count offset = .ok (keys, stop)) : keys.length = count := by
  induction count generalizing offset keys with
  | zero =>
    cases h
    rfl
  | succ count ih =>
    rw [readKeys] at h
    obtain ⟨⟨key, _⟩, -, h⟩ := bind_eq_ok h
    obtain ⟨⟨rest, stop'⟩, hrest, h⟩ := bind_eq_ok h
    cases h
    rw [List.length_cons, ih hrest]

-- What a node that was decoded is like.
structure Decoded (node : BTreeNode) : Prop where
  bounded : ∀ child ∈ node.children, child < 2 ^ 64
  children : node.keys ≠ [] → node.children.length = node.keys.length + 1

theorem decoded_deserializeNode {node : BTreeNode} (h : deserializeNode pageNum data = .ok node) :
    Decoded node := by
  unfold deserializeNode at h
  split at h
  · cases h
  obtain ⟨byte, -, h⟩ := bind_eq_ok h
  obtain ⟨nodeType, -, h⟩ := bind_eq_ok h
  obtain ⟨numKeys, -, h⟩ := bind_eq_ok h
  obtain ⟨parent, -, h⟩ := bind_eq_ok h
  cases nodeType with
  | leafNode =>
    dsimp only at h
    unfold readLeaf at h
    obtain ⟨_, -, h⟩ := bind_eq_ok h
    obtain ⟨nextLeaf, -, h⟩ := bind_eq_ok h
    obtain ⟨_, -, h⟩ := bind_eq_ok h
    obtain ⟨numEntries, -, h⟩ := bind_eq_ok h
    split at h
    · cases h
    obtain ⟨⟨entries, _⟩, -, h⟩ := bind_eq_ok h
    cases h
    exact ⟨fun child hchild => absurd hchild List.not_mem_nil, fun hkeys => absurd rfl hkeys⟩
  | internalNode =>
    dsimp only at h
    unfold readInternal at h
    obtain ⟨_, -, h⟩ := bind_eq_ok h
    obtain ⟨numChildren, -, h⟩ := bind_eq_ok h
    split at h
    · cases h
    obtain ⟨⟨children, _⟩, hchildren, h⟩ := bind_eq_ok h
    obtain ⟨⟨keys, _⟩, hkeys, h⟩ := bind_eq_ok h
    dsimp only at h
    split at h
    · cases h
    next hcount =>
      cases h
      refine ⟨(readChildren_spec hchildren).2, ?_⟩
      intro hne
      have hlen := readKeys_length hkeys
      have hpos := List.length_pos_iff.mpr hne
      dsimp only at hpos ⊢
      by_contra hbad
      exact hcount ⟨by omega, by rw [← hlen]; exact hbad⟩

end Node

end JasonDb.Codec
