import JasonDb.DocumentStore.Calls
import JasonDb.Transaction.Apply

namespace JasonDb

open Lib SearchTree TxBTree

variable {ℓ α β : Type} {db db₁ db₂ db' : Database} {L L' : DbLayout} {M M' : Store} {name id : String}

namespace Store

@[simp] theorem getElem?_withDocs (M : Store) (name : String) (docs : Docs) (gaps : Bool) (other : String) :
    (M.withDocs name docs gaps)[other]? = if name = other then some ⟨M.schema name, docs, gaps⟩ else M[other]? := by
  simp [withDocs, Std.ExtTreeMap.getElem?_insert]

@[simp] theorem docs_withDocs (M : Store) (name : String) (docs : Docs) (gaps : Bool) (other : String) :
    (M.withDocs name docs gaps).docs other = if name = other then docs else M.docs other := by
  unfold Store.docs
  rw [getElem?_withDocs]
  split <;> rfl

@[simp] theorem gaps_withDocs (M : Store) (name : String) (docs : Docs) (gaps : Bool) (other : String) :
    (M.withDocs name docs gaps).gaps other = if name = other then gaps else M.gaps other := by
  unfold Store.gaps
  rw [getElem?_withDocs]
  split <;> rfl

@[simp] theorem schema_withDocs (M : Store) (name : String) (docs : Docs) (gaps : Bool) (other : String) :
    (M.withDocs name docs gaps).schema other = M.schema other := by
  unfold Store.schema
  rw [getElem?_withDocs]
  split
  case isTrue heq => rw [← heq]; rfl
  case isFalse => rfl

end Store

section Committed

variable {root : PageNum} {m : Metadata}

theorem root_withRoot_self (name : String) (root : PageNum) (m : Metadata) :
    (Commit.withRoot name root m).root name = root := by
  unfold Commit.withRoot
  split
  case isTrue => exact Commit.root_setRoot_self m root
  case isFalse heq => exact (not_not.mp heq).symm

theorem root_withRoot_of_ne {other : String} (root : PageNum) (m : Metadata) (h : other ≠ name) :
    (Commit.withRoot name root m).root other = m.root other := by
  unfold Commit.withRoot
  split
  · exact Commit.root_setRoot_of_ne m root h
  · rfl

theorem schema_withRoot_self (hroot : root ≠ 0) :
    ((Commit.withRoot name root m).collections.get? name).map CollectionMeta.schema =
      some ((m.collections.get? name).bind CollectionMeta.schema) := by
  unfold Commit.withRoot
  split
  case isTrue =>
    unfold Commit.setRoot Metadata.modifyCollection
    rw [HashMap.get?_insert_self]
    cases m.collections.get? name <;> rfl
  case isFalse heq =>
    have hsome : m.root name ≠ 0 := not_not.mp heq ▸ hroot
    unfold Metadata.root at hsome
    cases hcoll : m.collections.get? name with
    | none => simp [hcoll] at hsome
    | some coll => rfl

theorem get?_withRoot_of_ne {other : String} (h : other ≠ name) :
    (Commit.withRoot name root m).collections.get? other = m.collections.get? other := by
  unfold Commit.withRoot
  split
  · exact HashMap.get?_insert_of_ne _ _ h
  · rfl

-- The database when transaction `txId` has committed, with the tree of the collection at `root`.
def Database.committed (db : Database) (name : String) (root : PageNum) (txId : TransactionID) : Database :=
  { db with
    metadata := Commit.withRoot name root db.metadata
    txManager := db.txManager.commit txId }

theorem le_commit (txManager : TransactionManager) (txId : TransactionID) :
    txManager.lastCommittedTxId ≤ (txManager.commit txId).lastCommittedTxId ∧
      txId ≤ (txManager.commit txId).lastCommittedTxId := by
  unfold TransactionManager.commit
  simp only
  split
  case isTrue hlt => exact ⟨Nat.le_of_lt hlt, le_refl txId⟩
  case isFalse hlt => exact ⟨le_refl _, Nat.le_of_not_lt hlt⟩

end Committed

theorem Hosts.tidies [SerdeJson] (h : Hosts db L M) (ht : Tidies db db') : Hosts db' L M :=
  { h with
    healthy := h.healthy.tidies ht
    laidOut := h.laidOut.editMetadata ht.wf ht.page ht.heap
    root := fun name => by rw [ht.metadata]; exact h.root name
    doc := fun name id d hd => by rw [ht.txManager]; exact h.doc name id d hd
    schema := fun name => by rw [ht.metadata]; exact h.schema name }

-- A transaction has changed the document `id` of a collection, and its tree with it.
theorem Hosts.change [SerdeJson] {T : PageTree} {placed : Option Placement} {docs : Docs} {gaps : Bool}
    {txId : TransactionID}
    (h : Hosts db L M) (hlaid : LaidOut db₂ ((L.setDoc name id placed).setTree name T))
    (hshared : db₂ = { db with pager := db₂.pager })
    (hmap : mapOf T.entries =
      Function.update (fun id => (L.doc name id).map Placement.page) id (placed.map Placement.page))
    (hplaced : ∀ d, placed = some d → d.xmin = txId ∧ id.utf8ByteSize ≤ 255 ∧
      Collection.idOf (.obj d.fields) = some id ∧ (Json.obj d.fields).ReadBack)
    (hdocs : ∀ id', docs[id']? = if id' = id then placed.map Placement.fields else (M.docs name)[id']?)
    (hdense : gaps = false → BTree.Dense T) :
    Hosts (db₂.committed name T.ptr txId) ((L.setDoc name id placed).setTree name T)
      (M.withDocs name docs gaps) := by
  have hmeta : db₂.metadata = db.metadata := by rw [hshared]
  have htx : db₂.txManager = db.txManager := by rw [hshared]
  have hwal : db₂.wal = db.wal := by rw [hshared]
  have hro : db₂.readOnly = db.readOnly := by rw [hshared]
  have hrep : BTree.Represents db₂ T := hlaid.represents ((L.setDoc name id placed).setTree_tree_self name T)
  have hne : T.ptr ≠ 0 := (hrep.holds.live T.ptr (by simpa using T.ptr_mem_ptrs)).1
  refine ⟨⟨hlaid.wf, ?_, ?_, hro.trans h.healthy.writer⟩, ⟨hlaid.wf, hlaid.parts⟩, ?_, ?_, ?_, ?_, ?_, ?_, ?_⟩
  · exact hlaid.parts.used .metadata _ rfl
  · intro n
    change db₂.wal.fault n = false
    rw [hwal]
    exact h.healthy.quiet n
  · intro other
    change (Commit.withRoot name T.ptr db₂.metadata).root other = _
    by_cases hother : other = name
    · subst hother
      simp [root_withRoot_self, DbLayout.root]
    · rw [root_withRoot_of_ne _ _ hother, hmeta, DbLayout.root, DbLayout.setTree_tree_of_ne _ _ hother]
      exact h.root other
  · intro other T₁ hT₁
    by_cases hother : other = name
    · subst hother
      obtain rfl : T = T₁ := by simpa using hT₁
      rw [hmap]
      funext id'
      by_cases hid' : id' = id <;> simp [DbLayout.setDoc_doc, hid']
    · rw [DbLayout.setTree_tree_of_ne _ _ hother] at hT₁
      rw [h.entries other T₁ hT₁]
      funext id'
      simp [DbLayout.setDoc_doc, hother]
  · intro other id' d' hd'
    by_cases hother : other = name
    · subst hother
      simp
    · rw [DbLayout.setTree_tree_of_ne _ _ hother]
      rw [DbLayout.setTree_doc, DbLayout.setDoc_doc, if_neg fun heq => hother heq.1] at hd'
      exact h.rooted other id' d' hd'
  · intro other id' d' hd'
    change d'.xmin ≤ (db₂.txManager.commit txId).lastCommittedTxId ∧ _
    rw [htx]
    rw [DbLayout.setTree_doc, DbLayout.setDoc_doc] at hd'
    split at hd'
    case isTrue heq =>
      obtain ⟨hxmin, hrest⟩ := hplaced d' hd'
      rw [hxmin, heq.2]
      exact ⟨(le_commit _ _).2, hrest⟩
    case isFalse =>
      obtain ⟨hxmin, hrest⟩ := h.doc other id' d' hd'
      exact ⟨hxmin.trans (le_commit _ _).1, hrest⟩
  · intro other
    change _ = ((Commit.withRoot name T.ptr db₂.metadata).collections.get? other).map _
    rw [Store.getElem?_withDocs]
    by_cases hother : other = name
    · subst hother
      rw [if_pos rfl, schema_withRoot_self hne, h.schema_eq, hmeta]
      rfl
    · rw [if_neg (Ne.symm hother), get?_withRoot_of_ne hother, hmeta]
      exact h.schema other
  · intro other id'
    rw [Store.docs_withDocs, DbLayout.setTree_doc, DbLayout.setDoc_doc]
    by_cases hother : other = name
    · subst hother
      rw [if_pos rfl, hdocs]
      by_cases hid' : id' = id <;> simp [hid', h.docs]
    · rw [if_neg (Ne.symm hother), if_neg fun heq => hother heq.1]
      exact h.docs other id'
  · intro other T₁ hT₁ hgaps
    rw [Store.gaps_withDocs] at hgaps
    by_cases hother : other = name
    · subst hother
      obtain rfl : T = T₁ := by simpa using hT₁
      exact hdense (by simpa using hgaps)
    · rw [DbLayout.setTree_tree_of_ne _ _ hother] at hT₁
      rw [if_neg (Ne.symm hother)] at hgaps
      exact h.dense other T₁ hT₁ hgaps

-- The tree of a collection is open. It can be a new one, which nobody else knows yet.
structure TreeOpen [SerdeJson] (db : Database) (L : DbLayout) (M : Store) (name : String) (T : PageTree) :
    Prop where
  sound : Hosts db L M
  laidOut : LaidOut db (L.setTree name T)
  entries : mapOf T.entries = fun id => (L.doc name id).map Placement.page
  dense : M.gaps name = false → BTree.Dense T

theorem Hosts.treeOpen [SerdeJson] {T : PageTree} (h : Hosts db L M) (hT : L.tree name = some T) :
    TreeOpen db L M name T :=
  ⟨h, by rw [L.setTree_self hT]; exact h.laidOut, h.entries name T hT, h.dense name T hT⟩

-- A version of a document, and the pages that the transaction has written it to.
structure Version (db : Database) (d : Placement) (id : String) (pages : HashMap PageNum Page) : Prop where
  stored : d.Stored id db.heap
  noted : Noted db d.pages ∅ pages
  first : d.page ∈ pages

namespace TreeOpen

variable {T T' : PageTree} {d : Placement} {pages : HashMap PageNum Page}

theorem represents [SerdeJson] (h : TreeOpen db L M name T) : BTree.Represents db T :=
  h.laidOut.represents (L.setTree_tree_self name T)

-- The new version has pages of its own, and the tree with it leaves these as they are.
theorem replace [SerdeJson] (h : TreeOpen db L M name T) (hdoc : PageEdits db ∅ db₁ {p | p ∈ d.pages})
    (hd : Version db₁ d id pages) (htree : PageEdits db₁ {p | p ∈ T.ptrs} db₂ {p | p ∈ T'.ptrs})
    (hT' : BTree.Represents db₂ T') :
    LaidOut db₂ ((L.setDoc name id (some d)).setTree name T') ∧ Carried db₂ pages := by
  have hlaid₁ : LaidOut db₁ ((L.setTree name T).setDoc name id (some d)) :=
    h.laidOut.editDoc hdoc (Set.empty_subset _) fun d' hd' => Option.some.inj hd' ▸ hd.stored
  have hlaid₂ : LaidOut db₂ (((L.setTree name T).setDoc name id (some d)).setTree name T') :=
    hlaid₁.editTree htree (by simp [DbLayout.region]) hT'
  refine ⟨by simpa using hlaid₂, fun p page hp => ?_⟩
  obtain ⟨hmem, hcontent, hlen⟩ : p ∈ d.pages ∧ db₁.heap.content p = some page ∧ page.byteLen = PAGE_SIZE := by
    simpa using hd.noted p page hp
  have hdoc₁ : p ∈ ((L.setTree name T).setDoc name id (some d)).region db₁.pager.metadataPage (.doc name id) := by
    simpa [DbLayout.region] using hmem
  have hused : db₁.pager.Allocated p := hlaid₁.parts.used _ p hdoc₁
  have hout : p ∉ T.ptrs := by
    intro hT
    have hsame := hlaid₁.parts.apart (.doc name id) (.tree name) p hdoc₁ (by simpa [DbLayout.region] using hT)
    exact Owner.noConfusion hsame
  refine ⟨?_, htree.heap.keeps.used p hout hused, htree.heap.keeps.content p hout hused page hcontent, hlen⟩
  rintro rfl
  refine Owner.noConfusion (hlaid₂.parts.apart (.doc name id) .metadata _ ?_ rfl)
  simpa [DbLayout.region] using hmem

end TreeOpen

-- What a transaction without pages takes note of.
theorem get?_foldl_toList (pages : HashMap PageNum Page) (p : PageNum) :
    (pages.toList.foldl (fun (writes : HashMap PageNum Page) (entry : PageNum × Page) =>
      writes.insert entry.1 entry.2) ∅).get? p = pages.get? p := by
  have hnodup : (pages.toList.map Prod.fst).Nodup := by
    rw [HashMap.map_fst_toList]
    exact HashMap.nodup_keys pages
  refine (get?_foldl_insert (fun page : Page => page) pages.toList hnodup ∅ p).trans ?_
  rw [HashMap.get?_empty, Option.or_none]
  exact HashMap.map_find?_toList pages p

section Insert

variable {tx : Transaction} {T T' : PageTree} {d : Placement} {pages : HashMap PageNum Page} {page : PageNum}

-- The transaction of a call that has written one document.
def Transaction.recorded (tx : Transaction) (name id : String) (page : PageNum)
    (pages : HashMap PageNum Page) : Transaction :=
  Transaction.writeDocument { tx with
    writes := pages.toList.foldl (fun writes entry => writes.insert entry.1 entry.2) tx.writes } name id (some page)

theorem exec_recordWrite (t : BTree) : Proc.exec (Collection.recordWrite name id page pages) ⟨tx, t⟩ db =
    (.ok (), ⟨tx.recorded name id page pages, t⟩, db) := rfl

-- What a call with one new version of a document ends with.
theorem exec_finish [SerdeJson] (h : Hosts db L M) (hshared : db₂ = { started db with pager := db₂.pager })
    (hlaid : LaidOut db₂ ((L.setDoc name id (some d)).setTree name T))
    (hmap : mapOf T.entries =
      Function.update (fun id => (L.doc name id).map Placement.page) id (some d.page))
    (hxmin : d.xmin = (begun db).mvccTxId) (hid : id.utf8ByteSize ≤ 255)
    (hidOf : Collection.idOf (.obj d.fields) = some id) (hback : (Json.obj d.fields).ReadBack)
    (hcarried : Carried db₂ pages) (hfirst : d.page ∈ pages)
    (hdense : M.gaps name = false → BTree.Dense T) :
    (∃ work db', Proc.exec (do
        Collection.setCollectionRoot name
        Collection.commit) ⟨(begun db).recorded name id d.page pages, BTree.open T.ptr⟩ db₂ =
      (.error .invalidPageSize, work, db')) ∨
    ∃ work db' L', Proc.exec (do
        Collection.setCollectionRoot name
        Collection.commit) ⟨(begun db).recorded name id d.page pages, BTree.open T.ptr⟩ db₂ =
      (.ok (), work, db') ∧ Hosts db' L' (M.withDocs name ((M.docs name).insert id d.fields) (M.gaps name)) := by
  let tx := ((begun db).recorded name id d.page pages).setCollectionRoot name T.ptr
  have hwrites : ∀ p, tx.writes.get? p = pages.get? p := get?_foldl_toList pages
  have hset : Proc.exec (Collection.setCollectionRoot name)
      ⟨(begun db).recorded name id d.page pages, BTree.open T.ptr⟩ db₂ =
      (.ok (), ⟨tx, BTree.open T.ptr⟩, db₂) := rfl
  have hready : Ready db₂ tx name T.ptr := by
    refine ⟨fun p page hp => hcarried p page (hwrites p ▸ hp), ?_, ⟨id, d.page, rfl⟩, rfl, ?_, ?_, rfl, rfl⟩
    · refine HashMap.isEmpty_of_mem (k := d.page) ?_
      rw [← HashMap.get?_isSome, hwrites, HashMap.get?_isSome]
      exact hfirst
    · exact HashMap.get?_insert_self _ _ _
    · have hmeta : db₂.metadata = db.metadata := by rw [hshared]; rfl
      change (db.metadata.roots.get? name).getD 0 = db₂.metadata.root name
      rw [hmeta, Metadata.get?_roots]
      rfl
  have hhealthy : Healthy db₂ := by
    refine ⟨hlaid.wf, hlaid.parts.used .metadata _ rfl, ?_, ?_⟩
    · rw [hshared]
      exact h.healthy.quiet
    · rw [hshared]
      exact h.healthy.writer
  have hdocs : ∀ id', ((M.docs name).insert id d.fields)[id']? =
      if id' = id then some d.fields else (M.docs name)[id']? := by
    intro id'
    rw [Std.ExtTreeMap.getElem?_insert]
    by_cases hid' : id' = id
    · simp [hid']
    · simp [hid', Ne.symm hid']
  have hsound := h.started.change hlaid hshared hmap
    (fun d' hd' => by obtain rfl := Option.some.inj hd'; exact ⟨hxmin, hid, hidOf, hback⟩) hdocs hdense
  rcases Collection.exec_commit hhealthy hready (BTree.open T.ptr) with ⟨work, db', he⟩ | ⟨db', he, ht⟩
  · exact Or.inl ⟨work, db', (Proc.exec_bind_ok hset).trans he⟩
  · exact Or.inr ⟨_, db', _, (Proc.exec_bind_ok hset).trans he, hsound.tidies ht⟩

theorem exec_openOrCreate [SerdeJson] (h : Hosts db L M) (name : String) (tx : Transaction) (t : BTree) :
    ∃ T db', Proc.exec (Collection.openOrCreate name) ⟨tx, t⟩ db = (.ok (), ⟨tx, BTree.open T.ptr⟩, db') ∧
      TreeOpen db' L M name T ∧ db' = { db with pager := db'.pager } := by
  have hget : Proc.exec (getMetadata : Collection.WorkM Metadata) ⟨tx, t⟩ db = (.ok db.metadata, ⟨tx, t⟩, db) :=
    rfl
  rw [Collection.openOrCreate, Proc.exec_bind_ok hget]
  cases hT : L.tree name with
  | some T =>
    have hroot : db.metadata.root name = T.ptr := by rw [h.root, DbLayout.root, hT]; rfl
    rw [if_neg (by rw [hroot]; exact h.tree_ptr_ne_zero hT), hroot]
    exact ⟨T, db, rfl, h.treeOpen hT, rfl⟩
  | none =>
    rw [if_pos (h.root_eq_zero.mpr hT)]
    obtain ⟨p, db', he, ⟨-, hrep⟩, -, hedit⟩ := BTree.exec_new (⟨tx, t⟩ : Collection.Work) h.healthy.wf
    have hpages : PageEdits db ∅ db' {q | q ∈ (leaf p [] 0 : PageTree).ptrs} :=
      BTree.Edits.pageEdits (by simpa [ptrs, cells] using hedit) hrep
    refine ⟨leaf p [] 0, db', (Proc.exec_bind_ok he).trans rfl,
      ⟨h.leak hpages, ?_, ?_, fun _ => BTree.dense_leaf p 0 []⟩, hpages.shared⟩
    · exact h.laidOut.editTree hpages (Set.empty_subset _) hrep
    · funext id
      rw [h.doc_eq_none hT]
      rfl

namespace TreeOpen

variable {fields : Json.Map}

theorem exec_search [SerdeJson] (h : TreeOpen db L M name T) (tx : Transaction) (id : String) :
    Proc.exec (Collection.onTree (BTree.search id)) ⟨tx, BTree.open T.ptr⟩ db =
      (match L.doc name id with
        | some d => .ok d.page
        | none => .error .notFound, ⟨tx, BTree.open T.ptr⟩, db) := by
  rw [Collection.onTree, Proc.exec_zoom, BTree.exec_search h.represents id, h.entries]
  cases hd : L.doc name id <;> simp [hd]

-- A new version that fits into the pages a reader goes to.
theorem exec_writeVersion [SerdeJson] (h : TreeOpen db L M name T) (tx : Transaction)
    (hid : id.utf8ByteSize ≤ 255)
    (hfit : overflowCount id (.obj fields) ≤ MAX_OVERFLOW_CHAIN_LENGTH) :
    ∃ d pages db', Proc.exec (Collection.writeVersion id (.obj fields)) ⟨tx, BTree.open T.ptr⟩ db =
        (.ok (d.page, pages), ⟨tx, BTree.open T.ptr⟩, db') ∧ d.xmin = tx.mvccTxId ∧ d.fields = fields ∧
      Version db' d id pages ∧ PageEdits db ∅ db' {p | p ∈ d.pages} ∧ BTree.Represents db' T := by
  obtain ⟨d, pages, db', he, hxmin, hfields, hstored, hedit, hnoted, hfirst, -⟩ :=
    exec_writeDocument h.laidOut.wf hid hfit tx.mvccTxId (⟨tx, BTree.open T.ptr⟩ : Collection.Work)
  refine ⟨d, pages, db', (Proc.exec_bind_ok (Proc.exec_getLocal _ db)).trans he, hxmin, hfields,
    ⟨hstored, hnoted, hfirst⟩, hedit, ?_⟩
  have hlaid : LaidOut db' ((L.setTree name T).setDoc name id (some d)) :=
    h.laidOut.editDoc hedit (Set.empty_subset _) fun d' hd' => Option.some.inj hd' ▸ hstored
  exact hlaid.represents ((L.setDoc name id (some d)).setTree_tree_self name T)

-- The document goes into the tree, and the transaction takes note of it.
theorem exec_insertDocument [SerdeJson] (h : TreeOpen db L M name T) (tx : Transaction)
    (hnone : L.doc name id = none)
    (hid : id.utf8ByteSize ≤ 255) (hfit : overflowCount id (.obj fields) ≤ MAX_OVERFLOW_CHAIN_LENGTH) :
    ∃ d pages T' db', Proc.exec (Collection.insertDocument name id fields) ⟨tx, BTree.open T.ptr⟩ db =
        (.ok (), ⟨tx.recorded name id d.page pages, BTree.open T'.ptr⟩, db') ∧
      d.xmin = tx.mvccTxId ∧ d.fields = fields ∧ db' = { db with pager := db'.pager } ∧
      LaidOut db' ((L.setDoc name id (some d)).setTree name T') ∧ Carried db' pages ∧ d.page ∈ pages ∧
      mapOf T'.entries = Function.update (fun id => (L.doc name id).map Placement.page) id (some d.page) ∧
      (BTree.Dense T → BTree.Dense T') := by
  have hsearch := h.exec_search tx id
  rw [hnone] at hsearch
  obtain ⟨d, pages, db₁, hwrite, hxmin, hfields, hd, hdoc, hrep⟩ := h.exec_writeVersion tx hid hfit
  obtain ⟨T', db', hinsert, ⟨hT', hentries, hedit⟩, hdense⟩ := BTree.exec_insert_dense hrep id d.page
  have htree := hedit.pageEdits hT'
  obtain ⟨hlaid, hcarried⟩ := h.replace hdoc hd htree hT'
  have hstep : Proc.exec (Collection.onTree (BTree.insert id d.page)) ⟨tx, BTree.open T.ptr⟩ db₁ =
      (.ok (), ⟨tx, BTree.open T'.ptr⟩, db') := by
    rw [Collection.onTree, Proc.exec_zoom, hinsert]
  refine ⟨d, pages, T', db', ?_, hxmin, hfields, ?_, hlaid, hcarried, hd.first, ?_,
    fun h => hdense (hrep.denseBut h id)⟩
  · unfold Collection.insertDocument
    rw [Proc.exec_bind_ok (exec_catching hsearch fun e he => by cases he; simp [Error.Caught])]
    simp only [Except.isOk, Except.toBool, Bool.false_eq_true, if_false]
    rw [Proc.exec_bind_ok hwrite, Proc.exec_bind_ok hstep]
    exact exec_recordWrite _
  · rw [htree.shared, hdoc.shared]
  · rw [hentries, mapOf_insertEntry (BTree.Represents.entries_sorted hrep), h.entries]

end TreeOpen

theorem idOf_docIdOf {generatedId : String} {doc : Json} {fields : Json.Map}
    (h : Collection.docIdOf generatedId doc = .ok (id, fields)) :
    Collection.idOf (.obj fields) = some id := by
  unfold Collection.docIdOf TxCollection.docIdOf at h
  cases doc with
  | obj object =>
    simp only [Json.asObject] at h
    cases hid : Json.Map.get object "_id" with
    | none =>
      simp only [hid] at h
      obtain ⟨rfl, rfl⟩ : generatedId = id ∧ Json.Map.insert "_id" (.str generatedId) object = fields := by
        simpa using h
      simp [Collection.idOf, Json.asObject, Json.Map.get_insert_self, Json.asStr]
    | some value =>
      cases value with
      | str text =>
        simp only [hid, Json.asStr] at h
        obtain ⟨rfl, rfl⟩ : text = id ∧ object = fields := by simpa using h
        simp [Collection.idOf, Json.asObject, hid, Json.asStr]
      | _ => simp [hid, Json.asStr] at h
  | _ => simp [Json.asObject] at h

-- A reader gets through all pages of the document, and reads in them what was written.
structure Legible [SerdeJson] (id : String) (fields : Json.Map) : Prop where
  chain : overflowCount id (.obj fields) ≤ MAX_OVERFLOW_CHAIN_LENGTH
  readBack : (Json.obj fields).ReadBack

-- The part of an insert that is in the transaction.
theorem exec_insertBody [SerdeJson] {fields : Json.Map} (h : Hosts db L M) (hfit : Legible id fields)
    (hidOf : Collection.idOf (.obj fields) = some id) {out : Except Error (String × Store)}
    (hout : out = if id ∈ M.docs name then .error (.other s!"document with ID {id} already exists")
      else if id.utf8ByteSize > 255 then .error .invalidDocument
      else .ok (id, M.withDocs name ((M.docs name).insert id fields) (M.gaps name))) :
    ∃ r work db₁, Proc.exec (do
        Collection.openOrCreate name
        Collection.insertDocument name id fields
        Collection.setCollectionRoot name
        Collection.commit
        pure id) ⟨begun db, BTree.open 0⟩ (started db) = (r, work, db₁) ∧ (r = .error .invalidPageSize ∨
      ∃ L', Hosts db₁ L' ((out.toOption.map Prod.snd).getD M) ∧ Shown r (out.map Prod.fst)) := by
  obtain ⟨T, db₁, hopen, ho, hshared⟩ := exec_openOrCreate h.started name (begun db) (BTree.open 0)
  rw [Proc.exec_bind_ok hopen]
  have hmem : id ∈ M.docs name ↔ (L.doc name id).isSome := by
    rw [Std.ExtTreeMap.mem_iff_isSome_getElem?, h.docs, Option.isSome_map]
  have hsearch := ho.exec_search (begun db) id
  have hcaught := exec_catching hsearch fun e he => by
    cases hd : L.doc name id <;> simp only [hd] at he <;> cases he
    simp [Error.Caught]
  cases hd : L.doc name id with
  | some d =>
    have hinsert : Proc.exec (Collection.insertDocument name id fields) ⟨begun db, BTree.open T.ptr⟩ db₁ =
        (.error (.other s!"document with ID {id} already exists"), ⟨begun db, BTree.open T.ptr⟩, db₁) := by
      rw [Collection.insertDocument, Proc.exec_bind_ok hcaught, hd]
      rfl
    rw [if_pos (hmem.mpr (by simp [hd]))] at hout
    subst hout
    exact ⟨_, _, db₁, Proc.exec_bind_error hinsert, Or.inr ⟨L, ho.sound, shown_refl _⟩⟩
  | none =>
    rw [if_neg (fun hin => by simpa [hd] using hmem.mp hin)] at hout
    by_cases hid : id.utf8ByteSize > 255
    · have hinsert : Proc.exec (Collection.insertDocument name id fields) ⟨begun db, BTree.open T.ptr⟩ db₁ =
          (.error .invalidDocument, ⟨begun db, BTree.open T.ptr⟩, db₁) := by
        rw [Collection.insertDocument, Proc.exec_bind_ok hcaught, hd]
        simp only [Except.isOk, Except.toBool, Bool.false_eq_true, if_false]
        refine Proc.exec_bind_error ?_
        rw [Collection.writeVersion, Proc.exec_bind_ok (Proc.exec_getLocal _ db₁), writeVersionedDocument,
          if_pos hid]
        rfl
      rw [if_pos hid] at hout
      subst hout
      exact ⟨_, _, db₁, Proc.exec_bind_error hinsert, Or.inr ⟨L, ho.sound, shown_refl _⟩⟩
    · obtain ⟨d, pages, T', db₂, hinsert, hxmin, rfl, hshared₂, hlaid, hcarried, hfirst, hmap, hdense⟩ :=
        ho.exec_insertDocument (begun db) hd (Nat.le_of_not_lt hid) hfit.chain
      rw [if_neg hid] at hout
      subst hout
      rw [Proc.exec_bind_ok hinsert]
      have hfinish := exec_finish h (by rw [hshared₂, hshared]) hlaid hmap hxmin (Nat.le_of_not_lt hid) hidOf
        hfit.readBack hcarried hfirst fun hgaps => hdense (ho.dense hgaps)
      have hassoc := fun work => Proc.exec_bind_assoc (Collection.setCollectionRoot name)
        (fun _ => Collection.commit) (fun _ => pure id) work db₂
      rw [← hassoc]
      rcases hfinish with ⟨work, db', he⟩ | ⟨work, db', L', he, hs⟩
      · exact ⟨_, work, db', Proc.exec_bind_error he, Or.inl rfl⟩
      · exact ⟨_, work, db', Proc.exec_bind_ok he, Or.inr ⟨L', hs, shown_refl _⟩⟩

theorem serves_insert [SerdeJson] {generatedId : String} {doc : Json} (h : Hosts db L M) (name : String)
    (hfit : ∀ id fields, Collection.docIdOf generatedId doc = .ok (id, fields) → Legible id fields) :
    Serves (Collection.insert name generatedId doc : DbM ℓ String) (Store.insert name generatedId doc) db M := by
  refine Serves.change (M.inserted name generatedId doc) rfl fun l => ?_
  unfold Collection.insert Store.inserted
  cases hdoc : doc.asObject with
  | none => exact ⟨_, db, rfl, Or.inr ⟨L, h, shown_refl _⟩⟩
  | some fields =>
    simp only
    have hvalid := Collection.exec_validateDocument h name (.obj fields) l
    cases hschema : M.validate name (.obj fields) with
    | error e =>
      rw [hschema] at hvalid
      exact ⟨_, db, Proc.exec_bind_error hvalid, Or.inr ⟨L, h, shown_refl _⟩⟩
    | ok u =>
      rw [hschema] at hvalid
      rw [Proc.exec_bind_ok hvalid]
      cases hids : Collection.docIdOf generatedId doc with
      | error e => exact ⟨_, db, rfl, Or.inr ⟨L, h, shown_refl _⟩⟩
      | ok found =>
        obtain ⟨id, fields⟩ := found
        obtain ⟨r, work, db₁, hbody, hr⟩ := exec_insertBody h (hfit id fields hids) (idOf_docIdOf hids) rfl
        obtain ⟨db', he, hs⟩ := Collection.exec_call hbody l
        refine ⟨r, db', he, hr.imp_right ?_⟩
        rintro ⟨L', hsound, hshown⟩
        exact ⟨L', hs L' _ hsound, hshown⟩

end Insert

end JasonDb
