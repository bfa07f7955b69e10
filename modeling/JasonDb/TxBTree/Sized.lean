import JasonDb.TxBTree.Grants

namespace JasonDb

open Lib

-- A node of at most `count` keys, all of them of the class `K`. It has the fields of its kind
-- only, and an internal node one child more than keys, unless it is a page of zeros.
structure Sized (count : Nat) (K : String → Prop) (n : BTreeNode) : Prop where
  entries : n.entries.length ≤ count
  keys : n.keys.length ≤ count
  entryKeys : ∀ e ∈ n.entries, K e.key
  separators : ∀ key ∈ n.keys, K key
  leaf : n.nodeType = .leafNode → n.keys = [] ∧ n.children = []
  internal : n.nodeType = .internalNode → n.entries = [] ∧ n.numKeys = n.keys.length ∧
    (n.children.length = n.keys.length + 1 ∨ n.keys = [] ∧ n.children = [])

section Operations

variable {count : Nat} {K : String → Prop} {n : BTreeNode}

theorem sized_leaf (htype : n.nodeType = .leafNode) (hkeys : n.keys = []) (hchildren : n.children = [])
    (hcount : n.entries.length ≤ count) (hentries : ∀ e ∈ n.entries, K e.key) : Sized count K n := by
  refine ⟨hcount, ?_, hentries, ?_, fun _ => ⟨hkeys, hchildren⟩, ?_⟩
  · rw [hkeys]
    exact Nat.zero_le count
  · rw [hkeys]
    exact fun _ h => absurd h List.not_mem_nil
  · rw [htype]
    exact fun h => absurd h (by decide)

theorem sized_internal (htype : n.nodeType = .internalNode) (hentries : n.entries = [])
    (hnum : n.numKeys = n.keys.length) (hchildren : n.children.length = n.keys.length + 1)
    (hcount : n.keys.length ≤ count) (hkeys : ∀ key ∈ n.keys, K key) : Sized count K n := by
  refine ⟨?_, hcount, ?_, hkeys, ?_, fun _ => ⟨hentries, hnum, Or.inl hchildren⟩⟩
  · rw [hentries]
    exact Nat.zero_le count
  · rw [hentries]
    exact fun _ h => absurd h List.not_mem_nil
  · rw [htype]
    exact fun h => absurd h (by decide)

-- A node with keys is an internal one.
theorem Sized.of_keys (h : Sized count K n) (hkeys : n.keys ≠ []) :
    n.nodeType = .internalNode ∧ n.entries = [] ∧ n.numKeys = n.keys.length ∧
      n.children.length = n.keys.length + 1 := by
  cases htype : n.nodeType with
  | leafNode => exact absurd (h.leaf htype).1 hkeys
  | internalNode =>
    obtain ⟨hentries, hnum, hchildren⟩ := h.internal htype
    rcases hchildren with hchildren | ⟨hnil, _⟩
    · exact ⟨rfl, hentries, hnum, hchildren⟩
    · exact absurd hnil hkeys

theorem length_replaceChild (old new : PageNum) (children : List PageNum) :
    (TxBTree.replaceChild old new children).length = children.length := by
  induction children with
  | nil => rfl
  | cons child rest ih =>
    unfold TxBTree.replaceChild
    split
    · rfl
    · simp [ih]

theorem Sized.repoint (h : Sized count K n) (old new : PageNum) :
    Sized count K { n with children := TxBTree.replaceChild old new n.children } := by
  refine ⟨h.entries, h.keys, h.entryKeys, h.separators, fun htype => ?_, fun htype => ?_⟩
  · obtain ⟨hkeys, hchildren⟩ := h.leaf htype
    refine ⟨hkeys, ?_⟩
    simp [hchildren, TxBTree.replaceChild]
  · obtain ⟨hentries, hnum, hchildren⟩ := h.internal htype
    refine ⟨hentries, hnum, ?_⟩
    rcases hchildren with hchildren | ⟨hkeys, hchildren⟩
    · exact Or.inl ((length_replaceChild ..).trans hchildren)
    · exact Or.inr ⟨hkeys, by simp [hchildren, TxBTree.replaceChild]⟩

theorem length_keys_insertChild (n : BTreeNode) (key : String) (child : PageNum) :
    (TxBTree.insertChild n key child).keys.length = n.keys.length + 1 := by
  refine List.length_insertIdx_of_le_length ?_ key
  cases hfind : n.keys.findIdx? (key < ·) with
  | none => exact Nat.le_refl _
  | some i => exact Nat.le_of_lt (List.findIdx?_eq_some_iff_getElem.mp hfind).1

-- A node that takes another child has one already, so that it is an internal node with a child
-- more than keys.
theorem Sized.insertChild (h : Sized count K n) {key : String}
    (hplace : TxBTree.outOfPlace n key = false) (hkey : K key) (child : PageNum) :
    Sized (count + 1) K (TxBTree.insertChild n key child) := by
  have hpos : (n.keys.findIdx? (key < ·)).getD n.keys.length < n.children.length := by
    simpa [TxBTree.outOfPlace] using hplace
  have htype : n.nodeType = .internalNode := by
    cases htype : n.nodeType with
    | internalNode => rfl
    | leafNode =>
      rw [(h.leaf htype).2] at hpos
      exact absurd hpos (Nat.not_lt_zero _)
  obtain ⟨hentries, _, hchildren⟩ := h.internal htype
  have hlen : n.children.length = n.keys.length + 1 := by
    rcases hchildren with hchildren | ⟨_, hnil⟩
    · exact hchildren
    · rw [hnil] at hpos
      exact absurd hpos (Nat.not_lt_zero _)
  refine sized_internal htype hentries rfl ?_ ?_ ?_
  · rw [length_keys_insertChild]
    change (n.children.insertIdx _ child).length = _
    rw [List.length_insertIdx_of_le_length (by omega), hlen]
  · rw [length_keys_insertChild]
    exact Nat.succ_le_succ h.keys
  · intro k hk
    rcases List.eq_or_mem_of_mem_insertIdx hk with rfl | hk
    · exact hkey
    · exact h.separators k hk

end Operations

section Nodes

-- The nodes in the cache and in the file.
def Database.nodes (db : Database) : Set BTreeNode :=
  {n | ∃ p, db.pager.cache p = some (.node n) ∨ db.pager.file.content p = some (.node n)}

theorem Database.mem_nodes_of_view {db : Database} {p : PageNum} {n : BTreeNode}
    (h : db.pager.view p = some (.node n)) : n ∈ db.nodes := by
  unfold Pager.view at h
  rcases Option.or_eq_some_iff.mp h with hcache | ⟨_, hfile⟩
  · exact ⟨p, Or.inl hcache⟩
  · refine ⟨p, Or.inr ?_⟩
    unfold Pager.filePage at hfile
    split at hfile
    · cases hcontent : db.pager.file.content p with
      | none => simp [hcontent] at hfile
      | some page => simpa [hcontent] using hfile
    · cases hfile

variable {K : String → Prop} {N : BTreeNode → Prop}

def NodesIn (N : BTreeNode → Prop) (db : Database) : Prop := ∀ n ∈ db.nodes, N n

-- A page that holds such a node, or no node.
def NodePage (N : BTreeNode → Prop) (page : Page) : Prop := ∀ n, page = .node n → N n

@[simp] theorem nodePage_node (n : BTreeNode) : NodePage N (.node n) ↔ N n := by
  refine ⟨fun h => h n rfl, ?_⟩
  rintro h _ ⟨⟩
  exact h

-- A page that is given back leaves the cache.
theorem safe_freePage_nodesIn {ℓ : Type} {I : ℓ → Prop} (N : BTreeNode → Prop) (p : PageNum) :
    Proc.Safe (NodesIn N) I (fun _ => True) (freePage p : DbM ℓ Unit) := by
  refine Proc.safe_atomicE fun db hdb => ⟨?_, fun _ _ => trivial⟩
  change NodesIn N { db with pager := (db.pager.freePage p).2 }
  unfold Pager.freePage
  split
  · exact hdb
  · rintro n ⟨q, hq | hq⟩
    · change Function.update db.pager.cache p none q = _ at hq
      rw [Function.update_apply] at hq
      split at hq
      · cases hq
      · exact hdb n ⟨q, Or.inl hq⟩
    · exact hdb n ⟨q, Or.inr hq⟩

theorem grants_nodesIn (N : BTreeNode → Prop) :
    Grants (NodesIn N) (fun _ => True) (NodePage N) := by
  refine ⟨fun db min hdb => ⟨?_, fun _ _ => trivial⟩, fun db p page hdb _ hpage => ?_⟩
  · unfold Pager.allocPageMinimum
    split
    · exact hdb
    · split
      · exact hdb
      · exact hdb
  · unfold Pager.writePageTransfer
    split
    · exact hdb
    · split
      · exact hdb
      · rintro n ⟨q, hq | hq⟩
        · by_cases heq : q = p
          · subst heq
            change Function.update db.pager.cache q (some page) q = _ at hq
            rw [Function.update_self] at hq
            exact hpage n (Option.some.inj hq)
          · change Function.update db.pager.cache p (some page) q = _ at hq
            rw [Function.update_of_ne heq] at hq
            exact hdb n ⟨q, Or.inl hq⟩
        · exact hdb n ⟨q, Or.inr hq⟩

-- The trees keep to nodes of this kind. A node is split when it has one key too many, and half
-- of its keys are again less than it may have.
theorem keeps_sized (K : String → Prop) :
    Keeps (NodesIn (Sized BTREE_ORDER K)) (NodePage (Sized BTREE_ORDER K)) K
      (Sized (BTREE_ORDER + 1) K) where
  view := by
    intro db p n hdb hview
    rw [nodePage_node]
    exact hdb n (Database.mem_nodes_of_view hview)
  renumber := by
    simp only [nodePage_node]
    intro n _ h
    exact ⟨h.entries, h.keys, h.entryKeys, h.separators, h.leaf, h.internal⟩
  newLeaf := by
    simp only [nodePage_node]
    intro p
    exact sized_leaf rfl rfl rfl (Nat.zero_le _) fun _ h => absurd h List.not_mem_nil
  newInternal := by
    simp only [nodePage_node]
    intro p
    refine ⟨Nat.zero_le _, Nat.zero_le _, ?_, ?_, ?_, fun _ => ⟨rfl, rfl, Or.inr ⟨rfl, rfl⟩⟩⟩
    · exact fun _ h => absurd h List.not_mem_nil
    · exact fun _ h => absurd h List.not_mem_nil
    · intro h
      cases h
  newRoot := by
    simp only [nodePage_node]
    intro p key children hlen hkey
    refine sized_internal rfl rfl rfl hlen (Nat.le_of_ble_eq_true rfl) ?_
    intro k hk
    obtain rfl : k = key := by simpa using hk
    exact hkey
  repoint := by
    simp only [nodePage_node]
    intro n old new h
    exact h.repoint old new
  relink := by
    simp only [nodePage_node]
    intro n _ h
    exact ⟨h.entries, h.keys, h.entryKeys, h.separators, h.leaf, h.internal⟩
  shrink := by
    simp only [nodePage_node]
    intro n entries _ h htype hlen hkeys
    obtain ⟨hk, hc⟩ := h.leaf htype
    refine sized_leaf htype hk hc (hlen.trans h.entries) ?_
    intro e he
    obtain ⟨e', he', heq⟩ := hkeys e he
    exact heq ▸ h.entryKeys e' he'
  grow := by
    simp only [nodePage_node]
    intro n entries _ h htype hlen hkeys
    obtain ⟨hk, hc⟩ := h.leaf htype
    refine sized_leaf htype hk hc (hlen.trans (Nat.succ_le_succ h.entries)) ?_
    intro e he
    rcases hkeys e he with hkey | ⟨e', he', heq⟩
    · exact hkey
    · exact heq ▸ h.entryKeys e' he'
  leafRoom := by
    simp only [nodePage_node]
    intro n h htype hlen
    obtain ⟨hk, hc⟩ := h.leaf htype
    exact sized_leaf htype hk hc hlen h.entryKeys
  leafLeft := by
    simp only [nodePage_node]
    intro n _ _ h htype
    obtain ⟨hk, hc⟩ := h.leaf htype
    have hcount := h.entries
    refine sized_leaf htype hk hc ?_ fun e he => h.entryKeys e (List.mem_of_mem_take he)
    simp only [List.length_take, BTREE_ORDER] at hcount ⊢
    omega
  leafRight := by
    simp only [nodePage_node]
    intro n p _ _ h _
    have hcount := h.entries
    refine sized_leaf rfl rfl rfl ?_ fun e he => h.entryKeys e (List.mem_of_mem_drop he)
    simp only [List.length_drop, BTREE_ORDER] at hcount ⊢
    omega
  leafKey := fun n h _ => h.entryKeys
  insertChild := by
    simp only [nodePage_node]
    intro n key child h hplace hkey
    exact h.insertChild hplace hkey child
  room := by
    simp only [nodePage_node]
    intro n key child h hlen
    have hne : (TxBTree.insertChild n key child).keys ≠ [] := by
      apply List.ne_nil_of_length_pos
      rw [length_keys_insertChild]
      exact Nat.succ_pos _
    obtain ⟨htype, hentries, hnum, hchildren⟩ := h.of_keys hne
    exact sized_internal htype hentries hnum hchildren hlen h.separators
  innerLeft := by
    simp only [nodePage_node]
    intro n key h hmid
    obtain ⟨hlt, _⟩ := List.getElem?_eq_some_iff.mp hmid
    obtain ⟨htype, hentries, _, hchildren⟩ := h.of_keys (List.ne_nil_of_length_pos (by omega))
    have hcount := h.keys
    refine sized_internal htype hentries ?_ ?_ ?_ fun k hk => h.separators k (List.mem_of_mem_take hk)
    · simp only [List.length_take]
      omega
    · simp only [List.length_take]
      omega
    · simp only [List.length_take, BTREE_ORDER] at hcount ⊢
      omega
  innerRight := by
    simp only [nodePage_node]
    intro n p key h hmid
    obtain ⟨hlt, _⟩ := List.getElem?_eq_some_iff.mp hmid
    obtain ⟨_, _, _, hchildren⟩ := h.of_keys (List.ne_nil_of_length_pos (by omega))
    have hcount := h.keys
    refine sized_internal rfl rfl rfl ?_ ?_ fun k hk => h.separators k (List.mem_of_mem_drop hk)
    · simp only [List.length_drop]
      omega
    · simp only [List.length_drop, BTREE_ORDER] at hcount ⊢
      omega
  innerKey := fun n h => h.separators

end Nodes

end JasonDb
