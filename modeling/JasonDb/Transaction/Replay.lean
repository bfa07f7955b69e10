import JasonDb.BTree.Refines
import JasonDb.Database.Build
import JasonDb.Transaction.Rebase
import JasonDb.TxBTree.Refines
import JasonDb.TxCollection

namespace JasonDb

open Lib TxBTree

namespace Commit

variable {ℓ : Type}

-- The calls of a replay.
def insertsOf (docs : List (String × Option PageNum)) : List TreeOp :=
  docs.filterMap fun entry => entry.2.map (.insert entry.1)

def deletesOf (docs : List (String × Option PageNum)) : List TreeOp :=
  docs.filterMap fun entry => if entry.2 = none then some (.delete entry.1) else none

def replay (docs : HashMap String (Option PageNum)) : List TreeOp :=
  insertsOf docs.toList ++ deletesOf docs.toList

-- A map with the writes of a transaction.
def overwrite (M : KeyMap) (docs : HashMap String (Option PageNum)) : KeyMap :=
  fun id => (docs.get? id).getD (M id)

section Maps

variable {M : KeyMap} {docs : List (String × Option PageNum)} {id : String}

theorem foldl_inserts_of_notMem (h : ∀ page, (id, some page) ∉ docs) :
    (insertsOf docs).foldl TreeOp.apply M id = M id := by
  induction docs generalizing M with
  | nil => rfl
  | cons entry docs ih =>
    obtain ⟨key, target⟩ := entry
    have hrest : ∀ page, (id, some page) ∉ docs := fun page hmem => h page (List.mem_cons_of_mem _ hmem)
    cases target with
    | none => exact ih hrest
    | some page =>
      have hne : id ≠ key := by
        rintro rfl
        exact h page List.mem_cons_self
      refine (ih hrest).trans ?_
      exact Function.update_of_ne hne _ _

theorem foldl_inserts_of_mem (hnodup : (docs.map Prod.fst).Nodup) {page : PageNum}
    (h : (id, some page) ∈ docs) :
    (insertsOf docs).foldl TreeOp.apply M id = some page := by
  induction docs generalizing M with
  | nil => cases h
  | cons entry docs ih =>
    obtain ⟨key, target⟩ := entry
    rw [List.map_cons, List.nodup_cons] at hnodup
    rcases List.mem_cons.mp h with heq | hmem
    · obtain ⟨rfl, rfl⟩ := Prod.mk.inj heq
      have hrest : ∀ page, (id, some page) ∉ docs :=
        fun _ hmem => hnodup.1 (List.mem_map.mpr ⟨_, hmem, rfl⟩)
      refine (foldl_inserts_of_notMem hrest).trans ?_
      exact Function.update_self _ _ _
    · cases target with
      | none => exact ih hnodup.2 hmem
      | some page' => exact ih hnodup.2 hmem

theorem foldl_deletes_of_notMem (h : (id, none) ∉ docs) :
    (deletesOf docs).foldl TreeOp.apply M id = M id := by
  induction docs generalizing M with
  | nil => rfl
  | cons entry docs ih =>
    obtain ⟨key, target⟩ := entry
    have hrest : (id, none) ∉ docs := fun hmem => h (List.mem_cons_of_mem _ hmem)
    cases target with
    | some page => exact ih hrest
    | none =>
      have hne : id ≠ key := by
        rintro rfl
        exact h List.mem_cons_self
      refine (ih hrest).trans ?_
      exact Function.update_of_ne hne _ _

theorem foldl_deletes_of_mem (h : (id, none) ∈ docs) : (deletesOf docs).foldl TreeOp.apply M id = none := by
  induction docs generalizing M with
  | nil => cases h
  | cons entry docs ih =>
    obtain ⟨key, target⟩ := entry
    by_cases hmem : (id, none) ∈ docs
    · cases target with
      | some page => exact ih hmem
      | none => exact ih hmem
    · obtain ⟨rfl, rfl⟩ := Prod.mk.inj ((List.mem_cons.mp h).resolve_right hmem)
      refine (foldl_deletes_of_notMem hmem).trans ?_
      exact Function.update_self _ _ _

-- The order of the writes makes no difference.
theorem foldl_replay (M : KeyMap) (docs : HashMap String (Option PageNum)) :
    (replay docs).foldl TreeOp.apply M = overwrite M docs := by
  funext id
  have hnodup : (docs.toList.map Prod.fst).Nodup := by
    rw [HashMap.map_fst_toList]
    exact docs.nodup_keys
  rw [replay, List.foldl_append, overwrite]
  cases hget : docs.get? id with
  | none =>
    have hnot : ∀ target, (id, target) ∉ docs.toList := by
      intro target hmem
      rw [HashMap.mem_toList, hget] at hmem
      cases hmem
    rw [foldl_deletes_of_notMem (hnot none), foldl_inserts_of_notMem fun page => hnot (some page)]
    rfl
  | some target =>
    have hmem := HashMap.mem_toList.mpr hget
    cases target with
    | none => exact foldl_deletes_of_mem hmem
    | some page =>
      have hnot : (id, none) ∉ docs.toList := by
        intro hnone
        rw [HashMap.mem_toList, hget] at hnone
        cases hnone
      rw [foldl_deletes_of_notMem hnot, foldl_inserts_of_mem hnodup hmem]
      rfl

end Maps

section Calls

variable {t : TxBTree} {db : Database} {M : KeyMap} {docs : List (String × Option PageNum)}

theorem exec_applyInserts (h : Denotes t db M) (docs : List (String × Option PageNum)) :
    Proc.exec (Proc.forEach applyInsert docs) t db = (.ok (), runOps (insertsOf docs) t db) := by
  induction docs generalizing t db M with
  | nil => rfl
  | cons entry docs ih =>
    obtain ⟨id, target⟩ := entry
    cases target with
    | none => exact (Proc.exec_bind_ok (Proc.exec_pure () t db)).trans (ih h)
    | some page =>
      obtain ⟨hok, hnext⟩ := h.step (.insert id page)
      have hstep : Proc.exec (applyInsert (id, some page)) t db =
          (.ok (), (Proc.exec (TreeOp.insert id page).run t db).2) := Prod.ext hok rfl
      exact (Proc.exec_bind_ok hstep).trans (ih hnext)

-- The deletes succeed as long as the documents are there.
theorem exec_applyDeletes (h : Denotes t db M) (hnodup : (docs.map Prod.fst).Nodup)
    (hthere : ∀ id, (id, none) ∈ docs → (M id).isSome) :
    Proc.exec (Proc.forEach applyDelete docs) t db = (.ok (), runOps (deletesOf docs) t db) := by
  induction docs generalizing t db M with
  | nil => rfl
  | cons entry docs ih =>
    obtain ⟨id, target⟩ := entry
    rw [List.map_cons, List.nodup_cons] at hnodup
    cases target with
    | some page =>
      have hrest : ∀ id, (id, none) ∈ docs → (M id).isSome :=
        fun id hmem => hthere id (List.mem_cons_of_mem _ hmem)
      exact (Proc.exec_bind_ok (Proc.exec_pure () t db)).trans (ih h hnodup.2 hrest)
    | none =>
      obtain ⟨hresult, hnext⟩ := h.step (.delete id)
      have hok : (TreeOp.delete id).result M = .ok () := if_pos (hthere id List.mem_cons_self)
      have hstep : Proc.exec (applyDelete (id, none)) t db =
          (.ok (), (Proc.exec (TreeOp.delete id).run t db).2) := Prod.ext (hresult.trans hok) rfl
      refine (Proc.exec_bind_ok hstep).trans (ih hnext hnodup.2 fun id' hmem => ?_)
      have hne : id' ≠ id := by
        rintro rfl
        exact hnodup.1 (List.mem_map_of_mem (f := Prod.fst) hmem)
      rw [TreeOp.apply, Function.update_of_ne hne]
      exact hthere id' (List.mem_cons_of_mem _ hmem)

theorem there_of_applyDeletes (h : Denotes t db M)
    (hok : (Proc.exec (Proc.forEach applyDelete docs) t db).1 = .ok ()) {id : String}
    (hid : (id, none) ∈ docs) :
    (M id).isSome := by
  induction docs generalizing t db M with
  | nil => cases hid
  | cons entry docs ih =>
    obtain ⟨id', target⟩ := entry
    cases target with
    | some page =>
      have hmem : (id, none) ∈ docs := by simpa using hid
      have hexec : Proc.exec (Proc.forEach applyDelete ((id', some page) :: docs)) t db =
          Proc.exec (Proc.forEach applyDelete docs) t db := Proc.exec_bind_ok (Proc.exec_pure () t db)
      rw [hexec] at hok
      exact ih h hok hmem
    | none =>
      obtain ⟨hresult, hnext⟩ := h.step (.delete id')
      by_cases hthere : (M id').isSome
      · have hstep : Proc.exec (applyDelete (id', none)) t db =
            (.ok (), (Proc.exec (TreeOp.delete id').run t db).2) := Prod.ext (hresult.trans (if_pos hthere)) rfl
        have hexec : Proc.exec (Proc.forEach applyDelete ((id', none) :: docs)) t db =
            Proc.exec (Proc.forEach applyDelete docs) (Proc.exec (TreeOp.delete id').run t db).2.1
              (Proc.exec (TreeOp.delete id').run t db).2.2 := Proc.exec_bind_ok hstep
        rw [hexec] at hok
        rcases List.mem_cons.mp hid with heq | hmem
        · obtain rfl := (Prod.mk.inj heq).1
          exact hthere
        · have hrest := ih hnext hok hmem
          rw [TreeOp.apply] at hrest
          by_cases hne : id = id'
          · rwa [hne]
          · rwa [Function.update_of_ne hne] at hrest
      · have hstep : Proc.exec (applyDelete (id', none)) t db =
            (.error (notFound id'), (Proc.exec (TreeOp.delete id').run t db).2) :=
          Prod.ext (hresult.trans (if_neg hthere)) rfl
        have hexec : Proc.exec (Proc.forEach applyDelete ((id', none) :: docs)) t db =
            (.error (notFound id'), (Proc.exec (TreeOp.delete id').run t db).2) := Proc.exec_bind_error hstep
        rw [hexec] at hok
        cases hok

end Calls

section Reapply

variable {t : TxBTree} {db : Database} {M : KeyMap}

theorem exec_reapply (h : Denotes t db M) (docs : HashMap String (Option PageNum)) :
    Proc.exec (reapply docs) t db = Proc.exec (Proc.forEach applyDelete docs.toList)
      (runOps (insertsOf docs.toList) t db).1 (runOps (insertsOf docs.toList) t db).2 :=
  Proc.exec_bind_ok (exec_applyInserts h docs.toList)

-- The inserts leave the documents alone that are to be deleted.
theorem inserted_of_deleted (M : KeyMap) {docs : HashMap String (Option PageNum)} {id : String}
    (h : (id, none) ∈ docs.toList) : (insertsOf docs.toList).foldl TreeOp.apply M id = M id := by
  apply foldl_inserts_of_notMem
  intro page hmem
  rw [HashMap.mem_toList] at h hmem
  rw [h] at hmem
  cases hmem

theorem reapply_isOk_iff (h : Denotes t db M) (docs : HashMap String (Option PageNum)) :
    (Proc.exec (reapply docs) t db).1.isOk ↔ ∀ id, docs.get? id = some none → (M id).isSome := by
  rw [exec_reapply h]
  have hinserted := h.runOps (insertsOf docs.toList)
  constructor
  · intro hok id hid
    have hmem := HashMap.mem_toList.mpr hid
    rw [← inserted_of_deleted M hmem]
    refine there_of_applyDeletes hinserted ?_ hmem
    revert hok
    cases (Proc.exec (Proc.forEach applyDelete docs.toList) (runOps (insertsOf docs.toList) t db).1
      (runOps (insertsOf docs.toList) t db).2).1 with
    | ok u => exact fun _ => rfl
    | error e => exact fun hok => by cases hok
  · intro hthere
    have hnodup : (docs.toList.map Prod.fst).Nodup := by
      rw [HashMap.map_fst_toList]
      exact docs.nodup_keys
    rw [exec_applyDeletes hinserted hnodup fun id hmem => ?_]
    · rfl
    · rw [inserted_of_deleted M hmem]
      exact hthere id (HashMap.mem_toList.mp hmem)

theorem exec_reapply_replay (h : Denotes t db M) {docs : HashMap String (Option PageNum)}
    (hthere : ∀ id, docs.get? id = some none → (M id).isSome) :
    Proc.exec (reapply docs) t db = (.ok (), runOps (replay docs) t db) := by
  have hnodup : (docs.toList.map Prod.fst).Nodup := by
    rw [HashMap.map_fst_toList]
    exact docs.nodup_keys
  rw [exec_reapply h, exec_applyDeletes (h.runOps _) hnodup fun id hmem => ?_]
  · rw [replay]
    unfold runOps
    rw [List.foldl_append]
  · rw [inserted_of_deleted M hmem]
    exact hthere id (HashMap.mem_toList.mp hmem)

section Nodes

variable {K : String → Prop} {docs : HashMap String (Option PageNum)}

-- Inserts of keys of `K` keep to nodes with keys of `K`.
theorem keeps_reapply (hkeys : ∀ id page, docs.get? id = some (some page) → K id) :
    Proc.Safe (NodesIn (Sized BTREE_ORDER K)) (Within (fun _ => True) (NodePage (Sized BTREE_ORDER K)))
      (fun _ => True) (reapply docs) := by
  refine Proc.Safe.bind (Q := fun _ => True) (Proc.safe_forEach _ fun entry hentry => ?_) fun _ _ =>
    Proc.safe_forEach _ fun entry _ => ?_
  · unfold applyInsert
    split
    next page hpage =>
      have hget : docs.get? entry.1 = some (some page) := by
        rw [← hpage]
        exact HashMap.mem_toList.mp hentry
      exact TxBTree.keeps_insert (grants_nodesIn _) (keeps_sized K) (hkeys _ page hget) page
    · exact Proc.safe_pure trivial
  · unfold applyDelete
    split
    · exact Proc.safe_pure trivial
    · exact TxBTree.keeps_delete (grants_nodesIn _) (keeps_sized K) _

-- The writes of the transaction are in the pager, with the same nodes.
theorem within_of_denotes {root : PageNum} {writes : HashMap PageNum Page} {N : BTreeNode → Prop}
    (h : Denotes (TxBTree.new root writes) db M) (hnodes : NodesIn N db) :
    Within (fun _ => True) (NodePage N) (TxBTree.new root writes) := by
  obtain ⟨rank, T, hrep, -⟩ := h
  refine within_new fun p page hp => ⟨trivial, ?_⟩
  rintro n rfl
  exact hnodes n (Database.mem_nodes_of_view (hrep.holds.wf.coherent p _ hp))

end Nodes

end Reapply

section Rebase

variable {db : Database} {M : KeyMap} {pending : PendingWrite} {collection : String} {root : PageNum} {l : ℓ}

theorem exec_rebaseSingleCollection (pending : PendingWrite) (collection : String) (root : PageNum)
    (l : ℓ) (db : Database) :
    let run := Proc.exec (reapply (docsOf pending collection)) (TxBTree.new root pending.writes) db
    Proc.exec (rebaseSingleCollection pending collection root) l db =
      (run.1.map fun _ => { pending with
        writes := run.2.1.txWrites
        updatedRoots := pending.updatedRoots.insert collection run.2.1.getCurrentRoot }, l, run.2.2) := by
  intro run
  have hwithin : Proc.exec (Proc.within (TxBTree.new root pending.writes)
      (reapply (docsOf pending collection)) : DbM ℓ (Unit × TxBTree)) l db =
      (run.1.map fun a => (a, run.2.1), l, run.2.2) := by
    rw [Proc.exec_within]
  unfold rebaseSingleCollection
  cases hr : run.1 with
  | error e =>
    rw [hr] at hwithin
    rw [Proc.exec_bind_error hwithin]
    rfl
  | ok u =>
    rw [hr] at hwithin
    rw [Proc.exec_bind_ok hwithin, Proc.exec_pure]
    rfl

-- The rebase succeeds, and its root is that of a tree with the writes of the transaction.
def Applies (pending : PendingWrite) (collection : String) (root : PageNum) (M : KeyMap) (l : ℓ)
    (db : Database) : Prop :=
  ∃ pending' db', Proc.exec (rebaseSingleCollection pending collection root) l db = (.ok pending', l, db') ∧
    ∃ newRoot, pending'.updatedRoots.get? collection = some newRoot ∧
      Denotes (TxBTree.new newRoot ∅) db' (overwrite M (docsOf pending collection)) ∧
      Denotes (TxBTree.new newRoot pending'.writes) db' (overwrite M (docsOf pending collection))

-- A handle without stale pointers leaves a tree for its map at its root.
theorem denotes_reopened {t t' : TxBTree} {db' : Database} (h : Clean t db t' db') (hM : Denotes t' db' M) :
    Denotes (TxBTree.new t'.getCurrentRoot ∅) db' M ∧ Denotes (TxBTree.new t'.getCurrentRoot t'.txWrites) db' M := by
  obtain ⟨rank, T, hrep, hS, -⟩ := h
  have hreopen : ∀ w, Coherent w db' → Denotes (TxBTree.new t'.getCurrentRoot w) db' M := by
    intro w hw
    refine ⟨rank, _, hrep.reopen hS hw, ?_⟩
    rw [SearchTree.entries_relink]
    exact Denotes.unique ⟨rank, T, hrep, rfl⟩ hM
  exact ⟨hreopen ∅ (by simp [Coherent]), hreopen _ hrep.holds.wf.coherent⟩

-- A rebase of ids of which fifty fit a page, onto a tree of such ids. All nodes can be read again.
theorem rebaseSingleCollection_applies_iff (h : Denotes (TxBTree.new root pending.writes) db M)
    (hnodes : NodesIn (Sized BTREE_ORDER Codec.ShortKey) db)
    (hids : ∀ id page, (docsOf pending collection).get? id = some (some page) → Codec.ShortKey id) (l : ℓ) :
    NodesIn Codec.ReadsBack (Proc.exec (rebaseSingleCollection pending collection root) l db).2.2 ∧
      ((Proc.exec (rebaseSingleCollection pending collection root) l db).1.isOk ↔
        ∀ id, (docsOf pending collection).get? id = some none → (M id).isSome) ∧
      (SplitsOwn (replay (docsOf pending collection)) (TxBTree.new root pending.writes) db →
        (Applies pending collection root M l db ↔
          ∀ id, (docsOf pending collection).get? id = some none → (M id).isSome)) := by
  have hok : (Proc.exec (rebaseSingleCollection pending collection root) l db).1.isOk ↔
      ∀ id, (docsOf pending collection).get? id = some none → (M id).isSome := by
    rw [← reapply_isOk_iff h, exec_rebaseSingleCollection]
    cases (Proc.exec (reapply (docsOf pending collection)) (TxBTree.new root pending.writes) db).1 with
    | ok u => exact Iff.rfl
    | error e => exact Iff.rfl
  have hread : NodesIn Codec.ReadsBack (Proc.exec (rebaseSingleCollection pending collection root) l db).2.2 := by
    rw [exec_rebaseSingleCollection]
    have hsized := ((keeps_reapply hids).exec rfl (within_of_denotes h hnodes) hnodes).1
    exact fun n hn => Codec.readsBack_sized (hsized n hn)
  refine ⟨hread, hok, fun hsplits => ⟨?_, fun hthere => ?_⟩⟩
  · rintro ⟨pending', db', hrun, -⟩
    rw [← hok, hrun]
    rfl
  · have hexec := exec_rebaseSingleCollection pending collection root l db
    simp only [exec_reapply_replay h hthere] at hexec
    have hdenotes := h.runOps (replay (docsOf pending collection))
    rw [foldl_replay] at hdenotes
    obtain ⟨rank, T, hrep, -⟩ := h
    have hclean := (WellFormed.clean ⟨rank, T, hrep⟩).runOps hsplits
    exact ⟨_, _, hexec, _, HashMap.get?_insert_self _ _ _, denotes_reopened hclean hdenotes⟩

end Rebase

section Replaces

-- A transaction that put in the document `k` and deleted `z`.
def replacing : PendingWrite where
  writes := ∅
  docWrites := HashMap.insert ∅ "a" ((HashMap.insert ∅ "z" none).insert "k" (some 7))
  snapshotRoots := HashMap.insert ∅ "a" 5
  updatedRoots := ∅
  oldVersions := ∅
  modifiedCollections := HashMap.insert ∅ "a" ()
  docExistedInSnapshot := ∅
  docOriginalXmin := ∅
  txId := 1
  snapshotId := 1
  mvccTxId := 1

-- Meanwhile the collection has become a tree of two leaves.
theorem rebase_applies_replacing :
    NodesIn Codec.ReadsBack (Proc.exec (rebaseSingleCollection replacing "a" 2) () (dbOf pairTree 8)).2.2 ∧
      Applies replacing "a" 2 (mapOf pairTree.entries) () (dbOf pairTree 8) := by
  have hdocs : (docsOf replacing "a").toList = [("k", some 7), ("z", none)] := by decide +kernel
  have hids : ∀ id page, (docsOf replacing "a").get? id = some (some page) → Codec.ShortKey id := by
    intro id page hid
    have hmem := HashMap.mem_toList.mpr hid
    rw [hdocs] at hmem
    have hk : id = "k" ∧ page = 7 := by simpa using hmem
    rw [hk.1]
    decide
  have hdenotes : Denotes (TxBTree.new 2 replacing.writes) (dbOf pairTree 8) (mapOf pairTree.entries) :=
    denotes_pairTree
  obtain ⟨hread, -, happlies⟩ := rebaseSingleCollection_applies_iff hdenotes BTree.sized_pairTree hids ()
  refine ⟨hread, (happlies ?_).mpr ?_⟩
  · rw [replay, hdocs]
    refine ⟨?_, trivial, trivial⟩
    intro pages hpages
    have hnone : (Proc.exec (splitNodes "k") (TxBTree.new 2 ∅) (dbOf pairTree 8)).1 = .ok [] := by decide +kernel
    obtain rfl := Except.ok.inj (hnone.symm.trans hpages)
    exact fun p hp => absurd hp List.not_mem_nil
  · intro id hid
    have hmem := HashMap.mem_toList.mpr hid
    rw [hdocs] at hmem
    have hz : id = "z" := by simpa using hmem
    rw [hz]
    decide +kernel

end Replaces

section BothDelete

def collectionA : Database :=
  .ofPages [(2, .node { BTreeNode.newLeaf 2 with entries := [⟨"x", 3⟩, ⟨"y", 4⟩], numKeys := 2 }),
    (3, .doc ⟨1, 0, "x", .obj [("_id", .str "x")], 0⟩), (4, .doc ⟨1, 0, "y", .obj [("_id", .str "y")], 0⟩)] 5
    [("a", 2)] 2

-- A transaction up to its commit.
def deleting (id : String) : DbM Unit PendingWrite := do
  let tx ← begin
  let c ← TxCollection.new tx "a"
  let (_, c) ← Proc.within c (TxCollection.deleteById id)
  pure c.tx.prepareWriteRequest

-- The second transaction deletes a document too, and waits while the first one commits.
def secondDelete (id : String) : DbM Unit PendingWrite := do
  let first ← deleting "y"
  let second ← deleting id
  executeBatchCommit first.mvccTxId [first]
  pure second

def afterFirst (id : String) : Database := (Proc.exec (secondDelete id) () collectionA).2.2

instance (page : Option Page) (node : BTreeNode) : Decidable (page = some (.node node)) :=
  match page with
  | some (.node node') => decidable_of_iff (node' = node) (by simp)
  | none | some .zero | some (.doc _) | some (.overflow _) | some (.header _) | some (.metadata _) | some (.postings _) =>
    .isFalse (by simp)

def oneEntry (pageNum : PageNum) (entry : LeafEntry) : BTreeNode :=
  { BTreeNode.newLeaf pageNum with entries := [entry], numKeys := 1 }

-- What is left of the collection is a leaf with one entry. The second transaction wrote page 6.
theorem denotes_afterFirst {id : String} {pending : PendingWrite} {node : BTreeNode}
    (hpager : (afterFirst id).pager.readOnly = false ∧ 5 < (afterFirst id).pager.numPages ∧
      (afterFirst id).pager.freeList = [])
    (hkeys : pending.writes.keys = [6]) (hwrite : pending.writes.get? 6 = some (.node node))
    (hview : (afterFirst id).pager.view 6 = some (.node node))
    (hroot : (afterFirst id).pager.view 5 = some (.node (oneEntry 5 ⟨"x", 3⟩))) :
    Denotes (TxBTree.new 5 pending.writes) (afterFirst id) (mapOf [⟨"x", 3⟩]) := by
  obtain ⟨hwritable, hpages, hfree⟩ := hpager
  have hwf : (afterFirst id).pager.WF := ⟨hwritable, by omega, by simp [hfree], by simp [hfree]⟩
  have hcoherent : Coherent pending.writes (afterFirst id) := by
    intro p page hp
    have hmem := HashMap.mem_keys.mpr (HashMap.mem_of_get? hp)
    rw [hkeys, List.mem_singleton] at hmem
    subst hmem
    rw [hview, ← hwrite, hp]
  have hstored : ∀ c ∈ (.leaf 5 [⟨"x", 3⟩] 0 : PageTree).cells,
      (TxBTree.new 5 pending.writes).store (afterFirst id) c.1 = some c.2 := by
    intro c hc
    obtain rfl := List.mem_singleton.mp hc
    simp [TxBTree.store, Database.nodeAt, hroot, deserializeNode, Except.toOption, oneEntry, BTreeNode.shape,
      BTreeNode.newLeaf]
  have hallocated : ∀ p ∈ (.leaf 5 [⟨"x", 3⟩] 0 : PageTree).ptrs, (afterFirst id).pager.Allocated p := by
    intro p hp
    obtain rfl := List.mem_singleton.mp hp
    exact ⟨by decide, hpages, by simp [hfree]⟩
  exact ⟨_, _, represents_of_tree (T := .leaf 5 [⟨"x", 3⟩] 0) hwf hcoherent hstored (by decide) hallocated
    (by decide +kernel), rfl⟩

set_option maxRecDepth 100000 in
-- Both transactions delete `y`: the validation of the second one finds nothing, its rebase fails.
theorem rebase_fails_deleteOfY : ∃ pending,
    (Proc.exec (secondDelete "y") () collectionA).1.toOption = some pending ∧
      (afterFirst "y").metadata.root "a" = 5 ∧
      Denotes (TxBTree.new 5 pending.writes) (afterFirst "y") (mapOf [⟨"x", 3⟩]) ∧
      (Proc.exec (validatePendingWrite pending) () (afterFirst "y")).1 = .ok () ∧
      (Proc.exec (rebaseSingleCollection pending "a" 5) () (afterFirst "y")).1.map (fun _ => ()) =
        .error (notFound "y") := by
  obtain ⟨pending, hrun⟩ : ∃ pending, (Proc.exec (secondDelete "y") () collectionA).1.toOption = some pending :=
    Option.isSome_iff_exists.mp (by decide +kernel)
  have hkeys : ((Proc.exec (secondDelete "y") () collectionA).1.toOption.map fun p => p.writes.keys) = some [6] := by
    decide +kernel
  have hwrite : ((Proc.exec (secondDelete "y") () collectionA).1.toOption.bind fun p => p.writes.get? 6) =
      some (.node (oneEntry 6 ⟨"x", 3⟩)) := by decide +kernel
  have hvalid : ((Proc.exec (secondDelete "y") () collectionA).1.toOption.map fun p =>
      (Proc.exec (validatePendingWrite p) () (afterFirst "y")).1) = some (.ok ()) := by decide +kernel
  have hrebase : ((Proc.exec (secondDelete "y") () collectionA).1.toOption.map fun p =>
      (Proc.exec (rebaseSingleCollection p "a" 5) () (afterFirst "y")).1.map (fun _ => ())) =
      some (.error (notFound "y")) := by decide +kernel
  rw [hrun] at hkeys hwrite hvalid hrebase
  exact ⟨pending, hrun, by decide +kernel, denotes_afterFirst (by decide +kernel) (Option.some.inj hkeys) hwrite
    (by decide +kernel) (by decide +kernel), Option.some.inj hvalid, Option.some.inj hrebase⟩

end BothDelete

end Commit

end JasonDb
