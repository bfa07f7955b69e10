import JasonDb.BTree.Lookup
import JasonDb.Transaction.Rebase
import JasonDb.TxBTree.Lookup
import JasonDb.TxBTree.Refines

namespace JasonDb

open Lib SearchTree

variable {db db' : Database} {root : PageNum}

-- The pages of the tree at `root`, by child pointers.
def TreePage (db : Database) : PageNum → PageNum → Prop :=
  Relation.ReflTransGen fun p c =>
    ∃ n, db.nodeAt p = some n ∧ n.nodeType = .internalNode ∧ c ∈ n.children

theorem nodeAt_of_read {p : PageNum} {n : BTreeNode}
    (h : (db.pager.readPage p).bind (deserializeNode p) = .ok n) : db.nodeAt p = some n := by
  unfold Pager.readPage at h
  unfold Database.nodeAt
  cases hv : db.pager.view p with
  | none => simp [hv, Except.bind] at h
  | some page =>
    rw [hv] at h
    simp only [Except.bind] at h
    simp [h, Except.toOption]

namespace TxBTree

theorem pageSeen_held {writes : HashMap PageNum Page} (h : Held db writes) (p : PageNum) :
    pageSeen writes db p = db.pager.readPage p := pageSeen_coherent (fun p page hp => (h p page hp).2) p

theorem nodeSeen_new {writes : HashMap PageNum Page} (h : Held db writes) (p : PageNum) :
    nodeSeen (new root writes) db p = (db.pager.readPage p).bind (deserializeNode p) := by
  unfold nodeSeen
  rw [actualPage_new, id_eq]
  exact congrArg (fun r => Except.bind r (deserializeNode p)) (pageSeen_held h p)

theorem readPage_advances (h : Advances db db') {p : PageNum} (hp : db.pager.Allocated p) :
    db'.pager.readPage p = db.pager.readPage p := by
  unfold Pager.readPage
  rw [h.view p hp]

-- Search from a root none of whose pages is written, whatever else is.
theorem search_advances (h : Advances db db')
    (hroot : ∀ p, TreePage db root p → db.pager.Allocated p) {writes : HashMap PageNum Page}
    (hw : Held db writes) (key : String) :
    (Proc.exec (search key) (new root writes) db').1 = (Proc.exec (search key) (new root writes) db).1 := by
  refine search_agree (S := TreePage db root) key ?_ ?_ rfl ?_ (fun p hp => (hroot p hp).2.1)
    fun p hp => (h.alloc p (hroot p hp)).2.1
  · intro p hp n hn htype c hc
    rw [nodeSeen_new hw] at hn
    exact hp.tail ⟨n, nodeAt_of_read hn, htype, hc⟩
  · rw [getCurrentRoot_new]
    exact .refl
  · intro p hp
    rw [nodeSeen_new hw, nodeSeen_new (hw.advances h), readPage_advances h (hroot p hp)]

end TxBTree

namespace BTree

theorem search_advances (h : Advances db db')
    (hroot : ∀ p, TreePage db root p → db.pager.Allocated p) (key : String) :
    (Proc.exec (search key) (BTree.open root) db').1 =
      (Proc.exec (search key) (BTree.open root) db).1 := by
  refine search_agree (S := TreePage db root) key ?_ .refl rfl ?_ (fun p hp => (hroot p hp).2.1)
    fun p hp => (h.alloc p (hroot p hp)).2.1
  · intro p hp n hn htype c hc
    exact hp.tail ⟨n, nodeAt_of_read hn, htype, hc⟩
  · intro p hp
    have hread := TxBTree.readPage_advances h (hroot p hp)
    exact congrArg (fun r => Except.bind r (deserializeNode p)) hread

end BTree

namespace TxBTree

variable {t : TxBTree}

theorem confined_op (h : Owns t db) (op : TreeOp) : Confined t db op.run fun _ _ => True := by
  cases op with
  | insert key value => exact confined_insert h
  | update key value => exact confined_update h
  | delete key => exact confined_delete h

-- However the calls end, the handle has written to pages of its own only.
theorem confined_runOps (h : Owns t db) (ops : List TreeOp) :
    Owns (runOps ops t db).1 (runOps ops t db).2 ∧
      Onward t db (runOps ops t db).1 (runOps ops t db).2 := by
  induction ops generalizing t db with
  | nil => exact ⟨h, Onward.refl t db⟩
  | cons op ops ih =>
    rcases hop : Proc.exec op.run t db with ⟨r, t', db'⟩
    obtain ⟨ho, hon, _⟩ := confined_op h op r t' db' hop
    obtain ⟨ho', hon'⟩ := ih ho
    have hrun : runOps (op :: ops) t db = runOps ops t' db' := by
      simp only [runOps, List.foldl_cons, hop]
    rw [hrun]
    exact ⟨ho', hon.trans hon'⟩

-- A page in use when the handle was opened is written neither in the pager nor among the writes
-- of the transaction, so readers of the original root find what they found before.
theorem runOps_keeps_snapshot {w reader : HashMap PageNum Page} (hpager : db.pager.WF)
    (hw : Coherent w db) (hroot : ∀ p, TreePage db root p → db.pager.Allocated p)
    (hreader : Held db reader) (ops : List TreeOp) :
    let s := runOps ops (new root w) db
    (∀ p, db.pager.Allocated p →
      s.2.pager.view p = db.pager.view p ∧ s.1.txWrites.get? p = w.get? p) ∧
    ∀ key, (Proc.exec (search key) (new root reader) s.2).1 =
        (Proc.exec (search key) (new root reader) db).1 ∧
      (Proc.exec (BTree.search key) (BTree.open root) s.2).1 =
        (Proc.exec (BTree.search key) (BTree.open root) db).1 := by
  intro s
  have howns : Owns (new root w) db := owns_new hpager hw
  obtain ⟨ho, hon⟩ := confined_runOps howns ops
  have hold : ∀ p, db.pager.Allocated p → p ∉ s.1.newPages := by
    intro p hp hnew
    rcases hon.fresh p hnew with hp' | hp'
    · exact not_mem_newPages_new root w p hp'
    · exact hp' hp
  have hadv : Advances db s.2 := ⟨ho.pager, hon.alloc, fun p hp => hon.view p (hold p hp)⟩
  refine ⟨fun p hp => ⟨hon.view p (hold p hp), hon.writes p (hold p hp)⟩, fun key => ⟨?_, ?_⟩⟩
  · exact search_advances hadv hroot hreader key
  · exact BTree.search_advances hadv hroot key

-- The pages of a well-formed tree are those it is drawn with.
theorem Represents.treePage {w : HashMap PageNum Page} {rank : Rank} {T : PageTree}
    (h : Represents (new root w) db rank T) {p : PageNum} (hp : TreePage db root p) : p ∈ T.ptrs := by
  induction hp with
  | refl =>
    have hr := h.root
    rw [getCurrentRoot_new] at hr
    exact hr ▸ T.ptr_mem_ptrs
  | tail _ hc ih =>
    obtain ⟨n, hn, htype, hc⟩ := hc
    obtain ⟨⟨q, s⟩, hcell, rfl⟩ := List.mem_map.mp ih
    obtain ⟨m, hm, _, hshape⟩ := h.holds.nodeAt (p := q) (s := s) (by simpa using hcell)
    obtain rfl : n = m := Option.some.inj (hn.symm.trans hm)
    rw [actualPage_new] at hshape
    refine (ptrs_perm T).mem_iff.mpr (List.mem_cons_of_mem _ (List.mem_flatMap.mpr ⟨_, hcell, ?_⟩))
    simp only [BTreeNode.shape, htype, List.map_id] at hshape
    rwa [← hshape]

section TwoLeaves

theorem allocated_pairTree {p : PageNum} (hp : TreePage (dbOf pairTree 8) 2 p) :
    (dbOf pairTree 8).pager.Allocated p := by
  have hrep : Represents (new 2 ∅) (dbOf pairTree 8) (rankOf pairTree) pairTree :=
    represents_dbOf (T := pairTree) (by decide +kernel) (by decide +kernel) (by decide +kernel)
  have hmem := hrep.treePage hp
  exact (hrep.holds.live p (by simpa using hmem)).1

theorem runOps_keeps_snapshot_pair :
    let s := runOps [.insert "k" 7, .delete "m"] (new 2 ∅) (dbOf pairTree 8)
    s.2.pager.view 4 = (dbOf pairTree 8).pager.view 4 ∧
      (Proc.exec (search "m") (new 2 ∅) s.2).1 = .ok 20 ∧
      (Proc.exec (BTree.search "k") (BTree.open 2) s.2).1 = .error .notFound := by
  have hw : Coherent ∅ (dbOf pairTree 8) := by simp [Coherent, HashMap.get?_empty]
  have hpager : (dbOf pairTree 8).pager.WF :=
    ⟨rfl, by decide, List.nodup_nil, by simp [dbOf]⟩
  have h := runOps_keeps_snapshot hpager hw (fun p hp => allocated_pairTree hp)
    (held_empty _) [.insert "k" 7, .delete "m"]
  simp only at h ⊢
  generalize runOps [.insert "k" 7, .delete "m"] (new 2 ∅) (dbOf pairTree 8) = s at h ⊢
  obtain ⟨hpages, hsearch⟩ := h
  refine ⟨(hpages 4 ?_).1, (hsearch "m").1.trans ?_, (hsearch "k").2.trans ?_⟩
  · decide +kernel
  · decide +kernel
  · decide +kernel

end TwoLeaves

end TxBTree

end JasonDb
