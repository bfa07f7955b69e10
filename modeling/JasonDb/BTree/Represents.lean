import JasonDb.BTree
import JasonDb.TxBTree.Handle
import JasonDb.Lib.SearchTree.Balance

namespace JasonDb.BTree

open Lib SearchTree

-- The nodes by the page they are in.
def store (db : Database) (pageNum : PageNum) : Option PageShape :=
  (db.nodeAt pageNum).map (BTreeNode.shape id)

-- The trees of `F` are in the pages, each page of them in use.
structure Holds (db : Database) (F : List PageTree) : Prop where
  pager : db.pager.WF
  stores : Stores (store db) F
  live : ∀ p ∈ F.flatMap ptrs, db.pager.Allocated p

-- A search tree in the pages, with all leaves at one depth and linked in their order.
structure Represents (db : Database) (T : PageTree) : Prop where
  holds : Holds db [T]
  ordered : All (LeafSorted LeafEntry.key) ⊥ ⊤ T
  small : ∀ c ∈ T.cells, c.2.size ≤ BTREE_ORDER
  level : ∃ n, Level n T
  linked : Linked 0 T.leaves

-- The database after steps that wrote to pages of `S` and to pages that were unused, with `S'`
-- among these.
structure Edits (db : Database) (S : Set PageNum) (db' : Database) (S' : Set PageNum) : Prop where
  grown : ∀ p ∈ S', p ∈ S ∨ ¬ db.pager.Allocated p
  alloc : ∀ p, db.pager.Allocated p → db'.pager.Allocated p
  view : ∀ p, p ∉ S → db.pager.Allocated p → db'.pager.view p = db.pager.view p
  shared : db' = { db with pager := db'.pager }
  frame : db.pager.Frame db'.pager

namespace Edits

variable {db db' db'' : Database} {S S' S'' : Set PageNum}

theorem refl (db : Database) (S : Set PageNum) : Edits db S db S :=
  ⟨fun _ => Or.inl, fun _ h => h, fun _ _ _ => rfl, rfl, Pager.Frame.refl _⟩

theorem trans (h : Edits db S db' S') (h' : Edits db' S' db'' S'') : Edits db S db'' S'' where
  grown p hp := by
    rcases h'.grown p hp with hp | hp
    · exact h.grown p hp
    · exact Or.inr fun ha => hp (h.alloc p ha)
  alloc p hp := h'.alloc p (h.alloc p hp)
  view p hp ha := by
    have hp' : p ∉ S' := fun hm => (h.grown p hm).elim hp fun hn => hn ha
    rw [h'.view p hp' (h.alloc p ha), h.view p hp ha]
  shared := by rw [h'.shared, h.shared]
  frame := h.frame.trans h'.frame

theorem mono (h : Edits db S db' S') (hsub : ∀ p ∈ S'', p ∈ S') : Edits db S db' S'' :=
  { h with grown := fun p hp => h.grown p (hsub p hp) }

end Edits

section Read

variable {db : Database} {F : List PageTree} {p root : PageNum} {s : PageShape} {n : BTreeNode}

@[simp] theorem actualPage_open (root p : PageNum) : (BTree.open root).actualPage p = p := rfl

@[simp] theorem getRootPage_open (root : PageNum) : (BTree.open root).getRootPage = root := rfl

theorem exec_readNode_at (hn : db.nodeAt p = some n) :
    Proc.exec (readNode p) (BTree.open root) db = (.ok n, BTree.open root, db) := by
  unfold Database.nodeAt at hn
  obtain ⟨page, hv, hn⟩ := Option.bind_eq_some_iff.mp hn
  have hread : Proc.exec (readPage p) (BTree.open root) db = (.ok page, BTree.open root, db) := by
    simp only [readPage, Proc.exec_atomicE, Pager.readPage, hv]
  unfold readNode
  rw [Proc.exec_bind_ok (Proc.exec_getLocal _ db)]
  simp only [actualPage_open]
  rw [Proc.exec_bind_ok hread]
  cases hd : deserializeNode p page with
  | error e => simp [hd, Except.toOption] at hn
  | ok m =>
    obtain rfl : m = n := by simpa [hd, Except.toOption] using hn
    rfl

theorem Holds.nodeAt (h : Holds db F) (hp : (p, s) ∈ F.flatMap cells) :
    ∃ n, db.nodeAt p = some n ∧ n.pageNum = p ∧ n.shape id = s := by
  obtain ⟨n, hn, hshape⟩ := Option.map_eq_some_iff.mp (h.stores.stored _ hp)
  exact ⟨n, hn, Database.nodeAt_pageNum hn, hshape⟩

theorem Holds.live_of_cell (h : Holds db F) (hp : (p, s) ∈ F.flatMap cells) :
    db.pager.Allocated p := by
  apply h.live
  rw [← map_fst_flatMap_cells]
  exact List.mem_map_of_mem hp

-- A tree in the file is no higher than the file has pages.
theorem Holds.height_le {T : PageTree} (h : Holds db [T]) : T.height ≤ db.pager.numPages := by
  refine T.height_le_length_ptrs.trans ?_
  have hnd : T.ptrs.Nodup := by simpa using h.stores.nodup_ptrs
  have hsub : T.ptrs ⊆ List.range db.pager.numPages := by
    intro p hp
    exact List.mem_range.mpr (h.live p (by simpa using hp)).2.1
  simpa using (List.subperm_of_subset hnd hsub).length_le

end Read

section Write

variable {db : Database} {F F' : List PageTree} {n : BTreeNode} {root : PageNum} {S : Set PageNum}

-- The database with a node written to its page.
def written (db : Database) (n : BTreeNode) : Database :=
  { db with pager := { db.pager with
    cache := Function.update db.pager.cache n.pageNum (some (.node n))
    dirty := db.pager.dirty.insert n.pageNum () } }

theorem exec_writeNode_open (root : PageNum) (h : db.pager.WF) (n : BTreeNode) :
    Proc.exec (writeNode n) (BTree.open root) db = (.ok (), BTree.open root, written db n) := by
  have htarget : Proc.exec (writeTarget n.pageNum) (BTree.open root) db =
      (.ok n.pageNum, BTree.open root, db) := rfl
  unfold writeNode
  rw [Proc.exec_bind_ok htarget, writePageTransfer, Proc.exec_atomicE,
    Pager.writePageTransfer_eq h.writable _ (by rfl)]
  rfl

theorem exec_markNew_open (p : PageNum) (db : Database) :
    Proc.exec (markNew p) (BTree.open root) db = (.ok (), BTree.open root, db) := rfl

theorem wf_written (h : db.pager.WF) (n : BTreeNode) : (written db n).pager.WF :=
  ⟨h.writable, h.nonempty, h.nodup, h.range⟩

theorem view_written (db : Database) (n : BTreeNode) :
    (written db n).pager.view = Function.update db.pager.view n.pageNum (some (.node n)) :=
  Pager.view_write _ _ _ _

theorem store_written (db : Database) (n : BTreeNode) :
    store (written db n) = writeAt (store db) n.pageNum n.pageNum (n.shape id) := by
  funext x
  unfold store writeAt Database.nodeAt
  rw [view_written]
  by_cases hx : x = n.pageNum
  · subst hx
    simp [deserializeNode, Except.toOption]
  · rw [Function.update_of_ne hx, if_neg hx, relocate_refl]
    rw [show Shape.mapPtr (K := String) (E := LeafEntry) (id : PageNum → PageNum) = id from
      funext Shape.mapPtr_id, Option.map_id, id_eq]

theorem edits_written (db : Database) (hn : n.pageNum ∈ S) : Edits db S (written db n) S := by
  refine ⟨fun _ => Or.inl, fun _ h => h, fun p hp _ => ?_, rfl, rfl, rfl, rfl, rfl⟩
  rw [view_written, Function.update_of_ne]
  rintro rfl
  exact hp hn

-- `write_node` turns the forest `F` into `F'` when they differ in that node only.
theorem Holds.written {rest : List (PageNum × PageShape)} (h : Holds db F)
    (hold : (F.flatMap cells).Perm rest ∨ ∃ s, (F.flatMap cells).Perm ((n.pageNum, s) :: rest))
    (hnew : (F'.flatMap cells).Perm ((n.pageNum, n.shape id) :: rest))
    (hp : n.pageNum ∉ rest.map Prod.fst) (hlive : db.pager.Allocated n.pageNum) :
    Holds (written db n) F' := by
  refine ⟨wf_written h.pager n, ?_, ?_⟩
  · have hstores := h.stores.write hold hnew hp hp
    rw [relocate_refl, List.map_congr_left fun u _ => mapPtr_id u, List.map_id'] at hstores
    rwa [store_written]
  · intro x hx
    rw [← map_fst_flatMap_cells] at hx
    rcases List.mem_cons.mp ((hnew.map Prod.fst).mem_iff.mp hx) with rfl | hx
    · exact hlive
    · refine h.live x ?_
      rw [← map_fst_flatMap_cells]
      rcases hold with hold | ⟨s, hold⟩
      · exact (hold.map Prod.fst).mem_iff.mpr hx
      · exact (hold.map Prod.fst).mem_iff.mpr (List.mem_cons_of_mem _ hx)

-- An inner node of the tree is written.
theorem Holds.written_inner {ctx : List PageFrame} {keys keys' : List String}
    {children children' X X' : List PageTree}
    (h : Holds db (plug ctx (node n.pageNum keys children) :: X))
    (hshape : n.shape id = .node keys' (children'.map ptr))
    (hperm : (children' ++ X').Perm (children ++ X)) :
    Holds (BTree.written db n) (plug ctx (node n.pageNum keys' children') :: X') := by
  have hold := flatMap_cells_focus_node ctx n.pageNum keys children X
  refine h.written (Or.inr ⟨_, hold⟩) ?_ (h.stores.not_mem_rest hold)
    (h.live_of_cell (hold.mem_iff.mpr (List.mem_cons_self ..)))
  rw [hshape]
  refine (flatMap_cells_focus_node ctx n.pageNum keys' children' X').trans (List.Perm.cons _ ?_)
  exact List.Perm.append_right _ (hperm.flatMap_right _)

-- A leaf of the tree is written.
theorem Holds.written_leaf {ctx : List PageFrame} {es es' : List LeafEntry} {nx nx' : PageNum}
    {X : List PageTree} (h : Holds db (plug ctx (leaf n.pageNum es nx) :: X))
    (hshape : n.shape id = .leaf es' nx') :
    Holds (BTree.written db n) (plug ctx (leaf n.pageNum es' nx') :: X) := by
  have hold := flatMap_cells_focus_leaf ctx n.pageNum es nx X
  refine h.written (Or.inr ⟨_, hold⟩) ?_ (h.stores.not_mem_rest hold)
    (h.live_of_cell (hold.mem_iff.mpr (List.mem_cons_self ..)))
  rw [hshape]
  exact flatMap_cells_focus_leaf ctx n.pageNum es' nx' X

-- A node is written to a page that is not in a tree of `F`.
theorem Holds.written_new (h : Holds db F)
    (hnew : (F'.flatMap cells).Perm ((n.pageNum, n.shape id) :: F.flatMap cells))
    (hp : n.pageNum ∉ F.flatMap ptrs) (hlive : db.pager.Allocated n.pageNum) :
    Holds (BTree.written db n) F' := by
  rw [← map_fst_flatMap_cells] at hp
  exact h.written (Or.inl (List.Perm.refl _)) hnew hp hlive

-- A page for a new node.
theorem Holds.exec_alloc {ℓ : Type} (h : Holds db F) (l : ℓ) (S : Set PageNum) :
    ∃ q db', Proc.exec allocPage l db = (.ok q, l, db') ∧ ¬ db.pager.Allocated q ∧
      Holds db' F ∧ q ∉ F.flatMap ptrs ∧ db'.pager.Allocated q ∧
      Edits db S db' (S ∪ {q}) := by
  obtain ⟨q, p', he, ha⟩ := Pager.allocPageMinimum_spec h.pager 0
  refine ⟨q, { db with pager := p' }, by simp [allocPage, allocPageMinimum, Proc.exec_atomicE, he],
    ha.unused, ⟨ha.wf, ?_, fun p hp => ha.keeps p (h.live p hp)⟩, fun hq => ha.unused (h.live q hq), ha.used,
    ⟨?_, ha.keeps, fun p _ _ => congrFun ha.view p, rfl, ha.frame⟩⟩
  · have hstore : store { db with pager := p' } = store db := by
      funext x
      simp only [store, Database.nodeAt, ha.view]
    rw [hstore]
    exact h.stores
  · rintro p (hp | rfl)
    · exact Or.inl hp
    · exact Or.inr ha.unused

end Write

end JasonDb.BTree
