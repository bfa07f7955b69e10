import JasonDb.TxBTree.Represents

namespace JasonDb.TxBTree

open Lib SearchTree

@[simp] theorem getCurrentRoot_new (root : PageNum) (w : HashMap PageNum Page) :
    (new root w).getCurrentRoot = root := by
  simp [new, getCurrentRoot]

@[simp] theorem actualPage_new (root : PageNum) (w : HashMap PageNum Page) :
    (new root w).actualPage = id := by
  funext p
  simp [new, actualPage, HashMap.get?_empty]

theorem not_mem_newPages_new (root : PageNum) (w : HashMap PageNum Page) (p : PageNum) :
    p ∉ (new root w).newPages := by
  simp [new, ← HashMap.get?_isSome, HashMap.get?_empty]

-- The writes a handle starts from are those the pager has.
def Coherent (w : HashMap PageNum Page) (db : Database) : Prop :=
  ∀ p page, w.get? p = some page → db.pager.view p = some page

-- A handle opened at a root with a tree of its own in the pages.
def WellFormed (root : PageNum) (w : HashMap PageNum Page) (db : Database) : Prop :=
  ∃ rank T, Represents (new root w) db rank T

-- The lower bounds of the leaves of a tree.
def rankOf (T : PageTree) : Rank := fun p =>
  ((ranges ⊥ ⊤ T).find? (·.2.2 = p)).map (·.1)

instance (rank : Rank) (nx : PageNum) (hi : Bound String) :
    Decidable (∃ l, rank nx = some l ∧ hi ≤ l) :=
  match h : rank nx with
  | none => .isFalse fun ⟨_, he, _⟩ => by simp at he
  | some l => decidable_of_iff (hi ≤ l) ⟨fun hle => ⟨l, rfl, hle⟩, fun ⟨_, he, hle⟩ => by
      obtain rfl := Option.some.inj he
      exact hle⟩

instance (rank : Rank) (lo hi : Bound String) (p : PageNum) (es : List LeafEntry) (nx : PageNum) :
    Decidable (LeafOk rank lo hi p es nx) :=
  inferInstanceAs (Decidable ((_ ∧ _) ∧ _ ∧ _))

instance (lo hi : Bound String) (p : PageNum) (es : List LeafEntry) (nx : PageNum) :
    Decidable (LeafSorted LeafEntry.key lo hi p es nx) :=
  inferInstanceAs (Decidable (_ ∧ _))

-- A tree in the pages is well formed when its keys are in order and each link leads to a
-- later leaf.
theorem represents_of_tree {db : Database} {w : HashMap PageNum Page} {T : PageTree}
    (hpager : db.pager.WF) (hw : Coherent w db)
    (hstored : ∀ c ∈ T.cells, (new T.ptr w).store db c.1 = some c.2) (hnodup : T.ptrs.Nodup)
    (halloc : ∀ p ∈ T.ptrs, db.pager.Allocated p) (hall : All (LeafOk (rankOf T)) ⊥ ⊤ T) :
    Represents (new T.ptr w) db (rankOf T) T := by
  have hleaf : ∀ p l, rankOf T p = some l → ∃ es nx hi, (p, Shape.leaf es nx) ∈ T.cells ∧
      LeafOk (rankOf T) l hi p es nx ∧ l < hi := by
    intro p l hp
    obtain ⟨r, hr, rfl⟩ := Option.map_eq_some_iff.mp hp
    obtain ⟨es, nx, hcell, hok, hlt⟩ := hall.leaf_of_range bot_lt_top (List.mem_of_find?_eq_some hr)
    have hrp : r.2.2 = p := by simpa using List.find?_some hr
    rw [hrp] at hcell hok
    exact ⟨es, nx, r.2.1, hcell, hok, hlt⟩
  refine ⟨⟨⟨hpager, ?_, ?_, hw, ?_⟩, ⟨?_, ?_⟩, ?_⟩, ?_, ⟨?_, ?_, ?_⟩, hall⟩
  · simp [new, HashMap.get?_empty]
  · exact fun p hp => absurd hp (not_mem_newPages_new _ _ p)
  · simp [new, HashMap.get?_empty]
  · simpa using hstored
  · simpa [ptrs] using hnodup
  · intro p hp
    exact ⟨halloc p (by simpa using hp), by simp [new, HashMap.get?_empty]⟩
  · simp
  · intro p l hp
    obtain ⟨es, nx, hi, hcell, hok, hlt⟩ := hleaf p l hp
    refine ⟨_, hstored _ hcell, es, nx, rfl, fun hne => ?_⟩
    obtain ⟨l', hl', hle⟩ := hok.2.2 hne
    exact ⟨l', hl', lt_of_lt_of_le hlt hle⟩
  · intro p l hp
    obtain ⟨es, nx, hi, hcell, _⟩ := hleaf p l hp
    exact halloc p (List.mem_map_of_mem (f := Prod.fst) hcell)
  · simp

section OneTree

variable {T : PageTree} {numPages : Nat}

def nodeOf (p : PageNum) : PageShape → BTreeNode
  | .leaf es nx => { BTreeNode.newLeaf p with entries := es, numKeys := es.length, nextLeaf := nx }
  | .node keys children =>
    { BTreeNode.newInternal p with keys, children, numKeys := keys.length }

-- A database with the pages of one tree and without open transactions.
def dbOf (T : PageTree) (numPages : Nat) : Database where
  pager :=
    { cache := fun p => (T.cells.find? (·.1 = p)).map fun c => .node (nodeOf p c.2)
      dirty := ∅
      file := .empty
      numPages := numPages
      metadataPage := 1
      nextTxId := 1
      freeList := []
      readOnly := false }
  wal := .empty
  metadata := .new
  txManager := ⟨1, 0, ∅⟩
  versionChains := ∅
  txIdCounter := 0
  pendingWrites := []
  batchConfig := .default
  readOnly := false

theorem shape_nodeOf (p : PageNum) (s : PageShape) : (nodeOf p s).shape id = s := by
  cases s <;> simp [nodeOf, BTreeNode.shape, BTreeNode.newLeaf, BTreeNode.newInternal]

theorem find?_of_nodup {c : PageNum × PageShape} {cs : List (PageNum × PageShape)}
    (hnd : (cs.map Prod.fst).Nodup) (hc : c ∈ cs) : cs.find? (·.1 = c.1) = some c := by
  obtain ⟨d, hd⟩ : ∃ d, cs.find? (·.1 = c.1) = some d :=
    Option.isSome_iff_exists.mp (List.find?_isSome.mpr ⟨c, hc, by simp⟩)
  have hdc : d.1 = c.1 := by simpa using List.find?_some hd
  rw [hd, List.inj_on_of_nodup_map hnd (List.mem_of_find?_eq_some hd) hc hdc]

theorem view_dbOf (hnodup : T.ptrs.Nodup) {c : PageNum × PageShape} (hc : c ∈ T.cells) :
    (dbOf T numPages).pager.view c.1 = some (.node (nodeOf c.1 c.2)) := by
  simp [dbOf, Pager.view, find?_of_nodup hnodup hc]

theorem deserialize_nodeOf (p : PageNum) (s : PageShape) :
    deserializeNode p (.node (nodeOf p s)) = .ok (nodeOf p s) := by
  cases s <;> rfl

theorem nodeAt_dbOf (hnodup : T.ptrs.Nodup) {c : PageNum × PageShape} (hc : c ∈ T.cells) :
    (dbOf T numPages).nodeAt c.1 = some (nodeOf c.1 c.2) := by
  simp only [Database.nodeAt, view_dbOf hnodup hc, Option.bind_some, deserialize_nodeOf,
    Except.toOption]

theorem wf_dbOf (T : PageTree) (h : 0 < numPages) : (dbOf T numPages).pager.WF :=
  ⟨rfl, h, List.nodup_nil, by simp [dbOf]⟩

theorem represents_dbOf (hnodup : T.ptrs.Nodup) (hrange : ∀ p ∈ T.ptrs, p ≠ 0 ∧ p < numPages)
    (hall : All (LeafOk (rankOf T)) ⊥ ⊤ T) :
    Represents (new T.ptr ∅) (dbOf T numPages) (rankOf T) T := by
  have hpos : 0 < numPages := lt_of_le_of_lt (Nat.zero_le _) (hrange _ T.ptr_mem_ptrs).2
  refine represents_of_tree (wf_dbOf T hpos) ?_ ?_ hnodup ?_ hall
  · simp [Coherent, HashMap.get?_empty]
  · intro c hc
    simp only [TxBTree.store, nodeAt_dbOf hnodup hc, Option.map_some, actualPage_new, shape_nodeOf]
  · intro p hp
    exact ⟨(hrange p hp).1, (hrange p hp).2, by simp [dbOf]⟩

theorem wellFormed_dbOf (hnodup : T.ptrs.Nodup) (hrange : ∀ p ∈ T.ptrs, p ≠ 0 ∧ p < numPages)
    (hall : All (LeafOk (rankOf T)) ⊥ ⊤ T) : WellFormed T.ptr ∅ (dbOf T numPages) :=
  ⟨_, _, represents_dbOf hnodup hrange hall⟩

end OneTree

end JasonDb.TxBTree
