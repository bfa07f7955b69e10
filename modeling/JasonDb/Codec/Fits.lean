import Mathlib.Algebra.Order.BigOperators.Group.List
import JasonDb.Codec.Node
import JasonDb.TxBTree.Sized

namespace JasonDb.Codec

open Lib

section Weight

theorem length_entryFields (entries : List LeafEntry) : (entries.flatMap entryFields).flatten.length =
    (entries.map fun e => e.key.utf8ByteSize + 10).sum := by
  induction entries with
  | nil => rfl
  | cons e rest ih =>
    simp only [List.flatMap_cons, List.flatten_append, List.length_append, List.map_cons,
      List.sum_cons, ih]
    simp [entryFields, keyFields]
    omega

theorem length_keyFields (keys : List String) : (keys.flatMap keyFields).flatten.length =
    (keys.map fun key => key.utf8ByteSize + 2).sum := by
  induction keys with
  | nil => rfl
  | cons key rest ih =>
    simp only [List.flatMap_cons, List.flatten_append, List.length_append, List.map_cons,
      List.sum_cons, ih]
    simp [keyFields]
    omega

theorem length_children (children : List PageNum) :
    (children.map (leBytes 8)).flatten.length = children.length * 8 := by
  induction children with
  | nil => rfl
  | cons child rest ih =>
    simp only [List.map_cons, List.flatten_cons, List.length_append, length_leBytes, ih,
      List.length_cons]
    omega

variable {n : BTreeNode}

theorem encodedLen_leaf (h : n.nodeType = .leafNode) :
    encodedLen n = 21 + (n.entries.map fun e => e.key.utf8ByteSize + 10).sum := by
  rw [← length_entryFields]
  simp only [encodedLen, nodeFields, h]
  simp
  omega

theorem encodedLen_internal (h : n.nodeType = .internalNode) :
    encodedLen n = 13 + n.children.length * 8 + (n.keys.map fun key => key.utf8ByteSize + 2).sum := by
  rw [← length_keyFields, ← length_children]
  simp only [encodedLen, nodeFields, h]
  simp
  omega

end Weight

section Truncate

-- A node as it is written: numbers are cut to their width, and a node has no other fields than
-- those of its kind.
def truncate (n : BTreeNode) : BTreeNode := { n with
  numKeys := n.numKeys % 256 ^ 2
  parent := n.parent % 256 ^ 8
  nextLeaf := match n.nodeType with
    | .leafNode => n.nextLeaf % 256 ^ 8
    | .internalNode => 0
  entries := n.entries.map fun e => { e with value := e.value % 256 ^ 8 }
  children := n.children.map (· % 256 ^ 8) }

theorem nodeFields_truncate (n : BTreeNode) : nodeFields (truncate n) = nodeFields n := by
  have hentry : ∀ e : LeafEntry, entryFields { e with value := e.value % 256 ^ 8 } = entryFields e := by
    intro e
    simp only [entryFields, leBytes_mod]
  obtain ⟨pageNum, nodeType, numKeys, parent, entries, nextLeaf, keys, children⟩ := n
  cases nodeType with
  | leafNode =>
    simp only [nodeFields, truncate, leBytes_mod, List.length_map, List.flatMap_map, hentry]
  | internalNode =>
    have hchildren : (children.map (· % 256 ^ 8)).map (leBytes 8) = children.map (leBytes 8) := by
      rw [List.map_map]
      exact List.map_congr_left fun child _ => leBytes_mod 8 child
    simp only [nodeFields, truncate, leBytes_mod, List.length_map, hchildren]

theorem sum_le {α : Type} {f : α → Nat} {count : Nat} (bound : Nat) (l : List α) (hcount : l.length ≤ count)
    (h : ∀ a ∈ l, f a ≤ bound) : (l.map f).sum ≤ count * bound := by
  have hsum : (l.map f).sum ≤ (l.map f).length • bound := by
    refine List.sum_le_card_nsmul _ bound ?_
    intro x hx
    obtain ⟨a, ha, rfl⟩ := List.mem_map.mp hx
    exact h a ha
  rw [List.length_map, Nat.nsmul_eq_mul] at hsum
  exact hsum.trans (Nat.mul_le_mul_right bound hcount)

end Truncate

-- `serialize_node_into` stays inside the page, and `deserialize_node` accepts what it made of it.
def ReadsBack (n : BTreeNode) : Prop :=
  ∀ data : Bytes, data.length = PAGE_SIZE →
    ∃ page, serializeNodeInto n data = some page ∧ ∃ m, deserializeNode n.pageNum page = .ok m

section ReadsBack

-- Fifty keys of this length are as much as a page holds.
def MAX_FITTING_KEY : Nat := 71

abbrev ShortKey (key : String) : Prop := key.utf8ByteSize ≤ MAX_FITTING_KEY

variable {n : BTreeNode}

theorem encodedLen_sized (h : Sized BTREE_ORDER ShortKey n) : encodedLen n ≤ PAGE_SIZE := by
  cases htype : n.nodeType with
  | leafNode =>
    have hsum := sum_le (MAX_FITTING_KEY + 10) n.entries h.entries fun e he =>
      Nat.add_le_add_right (h.entryKeys e he) 10
    rw [encodedLen_leaf htype]
    simp only [BTREE_ORDER, MAX_FITTING_KEY, PAGE_SIZE] at hsum ⊢
    omega
  | internalNode =>
    have hsum := sum_le (MAX_FITTING_KEY + 2) n.keys h.keys fun key hkey =>
      Nat.add_le_add_right (h.separators key hkey) 2
    have hcount := h.keys
    rw [encodedLen_internal htype]
    simp only [BTREE_ORDER, MAX_FITTING_KEY, PAGE_SIZE] at hsum hcount ⊢
    rcases (h.internal htype).2.2 with hchildren | ⟨_, hchildren⟩
    · omega
    · rw [hchildren, List.length_nil]
      omega

theorem encodable_truncate (h : Sized BTREE_ORDER ShortKey n) : Encodable (truncate n) := by
  have hshort : ∀ key, ShortKey key → key.utf8ByteSize ≤ 1000 := by
    intro key hkey
    simp only [ShortKey, MAX_FITTING_KEY] at hkey
    omega
  have hentries := h.entries
  have hkeys := h.keys
  simp only [BTREE_ORDER] at hentries hkeys
  have hchildren : n.children.length ≤ 1000 := by
    cases htype : n.nodeType with
    | leafNode => simp [(h.leaf htype).2]
    | internalNode =>
      rcases (h.internal htype).2.2 with hlen | ⟨_, hnil⟩
      · omega
      · simp [hnil]
  refine ⟨Nat.mod_lt _ (by decide), Nat.mod_lt _ (by decide), ?_, ?_, ?_, ?_, ?_, ?_, ?_, ?_, ?_⟩
  · simp only [truncate]
    split
    · exact Nat.mod_lt _ (by decide)
    · decide
  · intro e he
    obtain ⟨e', _, rfl⟩ := List.mem_map.mp he
    exact Nat.mod_lt _ (by decide)
  · intro child hchild
    obtain ⟨child', _, rfl⟩ := List.mem_map.mp hchild
    exact Nat.mod_lt _ (by decide)
  · simp only [truncate, List.length_map]
    omega
  · simpa only [truncate, List.length_map] using hchildren
  · intro e he
    obtain ⟨e', he', rfl⟩ := List.mem_map.mp he
    exact hshort _ (h.entryKeys e' he')
  · exact fun key hkey => hshort key (h.separators key hkey)
  · intro htype
    obtain ⟨hk, hc⟩ := h.leaf htype
    exact ⟨hk, by simp [truncate, hc]⟩
  · intro htype
    have hkind : n.nodeType = .internalNode := htype
    obtain ⟨he, hnum, hc⟩ := h.internal hkind
    refine ⟨by simp [truncate, he], by simp [truncate, hkind], ?_, fun hne => ?_⟩
    · simp only [truncate, hnum]
      exact Nat.mod_eq_of_lt (by omega)
    · rcases hc with hc | ⟨hnil, _⟩
      · simpa only [truncate, List.length_map] using hc
      · exact absurd hnil hne

theorem readsBack_sized (h : Sized BTREE_ORDER ShortKey n) : ReadsBack n := by
  intro data hdata
  refine ⟨(nodeFields n).flatten ++ data.drop (encodedLen n), ?_, truncate n, ?_⟩
  · rw [serializeNodeInto_eq, if_pos (hdata ▸ encodedLen_sized h)]
  · rw [← nodeFields_truncate]
    exact deserializeNode_fields (encodable_truncate h) _

-- Too many bytes are written past the end of the page.
theorem not_readsBack_of_encodedLen (h : PAGE_SIZE < encodedLen n) : ¬ ReadsBack n := by
  intro hread
  obtain ⟨page, hpage, _⟩ := hread (List.replicate PAGE_SIZE 0) (List.length_replicate ..)
  rw [serializeNodeInto_eq, List.length_replicate, if_neg (by omega)] at hpage
  cases hpage

end ReadsBack

end JasonDb.Codec
