import JasonDb.Lib.Split
import JasonDb.Transaction.Replay
import JasonDb.Transaction.SameRequest
import JasonDb.TxBTree.Refines
import JasonDb.TxCollection.Apart
import JasonDb.TxCollection.Version

namespace JasonDb

open Lib SearchTree TxBTree

section Nested

variable {α : Type}

theorem getNested_insertNestedIfAbsent (map : HashMap String (HashMap String α)) (a b a' b' : String)
    (value : α) : getNested (insertNestedIfAbsent map a b value) a' b' =
      if a = a' ∧ b = b' then some ((getNested map a b).getD value) else getNested map a' b' := by
  unfold insertNestedIfAbsent
  cases hmap : getNested map a b with
  | some old =>
    by_cases hab : a = a' ∧ b = b'
    · obtain ⟨rfl, rfl⟩ := hab
      rw [if_pos ⟨rfl, rfl⟩]
      exact hmap
    · rw [if_neg hab]
  | none =>
    simp only [getNested, insertNested, HashMap.get?_insert]
    by_cases ha : a' = a
    · subst ha
      by_cases hb : b' = b
      · subst hb
        simp
      · have hne : ¬ (a' = a' ∧ b = b') := fun h => hb h.2.symm
        rw [if_pos rfl, if_neg hne, Option.bind_some, HashMap.get?_insert_of_ne _ _ hb]
        cases map.get? a' with
        | none => simp
        | some inner => rfl
    · have hne : ¬ (a = a' ∧ b = b') := fun h => ha h.1.symm
      rw [if_neg ha, if_neg hne]

end Nested

namespace TxCollection

variable {α : Type} {c c' : TxCollection} {db db' : Database} {M : KeyMap}

-- The handle reads a well-formed tree with the entries of `M`, and its indexes write to pages
-- of their own, none of which is a page of that tree.
structure Sound (c : TxCollection) (db : Database) (M : KeyMap) : Prop where
  held : Held db c.tx.writes
  tree : ∃ rank T, Represents c.tree db rank T ∧ mapOf T.entries = M ∧
    ∀ name, ∀ p ∈ T.ptrs, p ∉ (c.index name).newPages
  indexes : ∀ name, Owns (c.index name) db
  apart : ∀ name, ∀ p ∈ c.btree.newPages, p ∉ (c.index name).newPages

theorem Sound.search (h : Sound c db M) (id : String) :
    Proc.exec (TxBTree.search id) c.tree db = (answer M id, c.tree, db) := by
  obtain ⟨rank, T, hrep, rfl, -⟩ := h.tree
  rw [exec_search hrep id, lookup_eq_mapOf]
  rfl

-- What users of the handle can tell: the documents it finds, the entries of its indexes, and
-- what its transaction will have committed.
structure Unchanged [SerdeJson] (c : TxCollection) (db : Database) (c' : TxCollection) (db' : Database) :
    Prop where
  findById : ∀ id, (Proc.exec (findById id) c' db').1 = (Proc.exec (findById id) c db).1
  findAll : ∀ rounds, (Proc.exec (findAll rounds) c' db').1 = (Proc.exec (findAll rounds) c db).1
  count : ∀ rounds, (Proc.exec (count rounds) c' db').1 = (Proc.exec (count rounds) c db).1
  indexEntries : ∀ name rounds, (Proc.exec (indexEntries name rounds) c' db').1 =
    (Proc.exec (indexEntries name rounds) c db).1
  searchIndex : ∀ name key, (Proc.exec (onIndex name (TxBTree.search key)) c' db').1 =
    (Proc.exec (onIndex name (TxBTree.search key)) c db).1
  commit : SameRequest c.tx.prepareWriteRequest c'.tx.prepareWriteRequest

-- The insert comes to an end before the document is in the tree, and notes nothing about its id
-- that a later commit reads.
def StopsEarly (c : TxCollection) (M : KeyMap) (generatedId : String) (doc : Json) : Prop :=
  match doc.asObject with
  | none => True
  | some fields => c.tx.isActive = true → match docIdOf generatedId fields with
    | none => True
    | some (docId, _) =>
      if (M docId).isSome then (getNested c.tx.docExistedInSnapshot c.name docId).isSome = true
      else docId.utf8ByteSize > 255

theorem sameRequest_refl (pending : PendingWrite) : SameRequest pending pending := ⟨rfl, fun _ _ => rfl⟩

-- Whenever the transaction is committed, and with whichever others.
theorem Unchanged.executeBatchCommit [SerdeJson] (h : Unchanged c db c' db') (leader : TransactionID)
    (before after : List PendingWrite) {ℓ : Type} (l : ℓ) (later : Database) :
    Proc.exec (Commit.executeBatchCommit leader (before ++ c'.tx.prepareWriteRequest :: after)) l later =
      Proc.exec (Commit.executeBatchCommit leader (before ++ c.tx.prepareWriteRequest :: after)) l later := by
  refine Commit.executeBatchCommit_sameRequest ?_ leader l later
  have hrefl : ∀ batch : List PendingWrite, List.Forall₂ SameRequest batch batch :=
    fun batch => List.forall₂_same.mpr fun pending _ => sameRequest_refl pending
  exact List.rel_append (hrefl before) (.cons h.commit (hrefl after))

section Early

-- The handle of an insert that has looked for its id, and no more.
def looked (c : TxCollection) (docId : String) (existed : Bool) : TxCollection :=
  { c with btree := c.tree, tx := c.tx.trackDocExistedInSnapshot c.name docId existed }

theorem sameView_looked (c : TxCollection) (docId : String) (existed : Bool) :
    SameView c (c.looked docId existed) := ⟨⟨rfl, rfl, rfl⟩, rfl, rfl, rfl⟩

theorem SameView.unchanged [SerdeJson] (h : SameView c c')
    (hcommit : SameRequest c.tx.prepareWriteRequest c'.tx.prepareWriteRequest) : Unchanged c db c' db where
  findById id := h.findById id db
  findAll rounds := by rw [findAll_result, findAll_result, h.visible]
  count rounds := by rw [count_result, count_result, h.visible]
  indexEntries name rounds := h.onIndex name _ db
  searchIndex name key := h.onIndex name _ db
  commit := hcommit

theorem Unchanged.refl [SerdeJson] (c : TxCollection) (db : Database) : Unchanged c db c db :=
  ⟨fun _ => rfl, fun _ => rfl, fun _ => rfl, fun _ _ => rfl, fun _ _ => rfl, rfl, fun _ _ => rfl⟩

theorem existedInSnapshot_looked (c : TxCollection) (docId : String) (existed : Bool)
    (collection id : String) :
    Commit.existedInSnapshot (c.looked docId existed).tx.prepareWriteRequest collection id =
      if c.name = collection ∧ docId = id then
        (getNested c.tx.docExistedInSnapshot c.name docId).getD existed
      else Commit.existedInSnapshot c.tx.prepareWriteRequest collection id := by
  have hget := getNested_insertNestedIfAbsent c.tx.docExistedInSnapshot c.name docId collection id existed
  change (getNested (insertNestedIfAbsent c.tx.docExistedInSnapshot c.name docId existed)
    collection id).getD false = _
  rw [hget]
  split
  · rfl
  · rfl

theorem sameRequest_looked (c : TxCollection) (docId : String) (existed : Bool) :
    SameRequest c.tx.prepareWriteRequest (c.looked docId existed).tx.prepareWriteRequest ↔
      ((getNested c.tx.docExistedInSnapshot c.name docId).isSome = true ∨ existed = false) := by
  have hbefore : Commit.existedInSnapshot c.tx.prepareWriteRequest c.name docId =
      (getNested c.tx.docExistedInSnapshot c.name docId).getD false := rfl
  constructor
  · intro h
    have hflag := h.existed c.name docId
    rw [existedInSnapshot_looked, if_pos ⟨rfl, rfl⟩, hbefore] at hflag
    cases hget : getNested c.tx.docExistedInSnapshot c.name docId with
    | some old => exact Or.inl rfl
    | none =>
      rw [hget] at hflag
      exact Or.inr hflag
  · intro h
    refine ⟨rfl, fun collection id => ?_⟩
    rw [existedInSnapshot_looked]
    split
    · obtain ⟨rfl, rfl⟩ := ‹c.name = collection ∧ docId = id›
      rw [hbefore]
      rcases h with h | rfl
      · obtain ⟨old, hold⟩ := Option.isSome_iff_exists.mp h
        rw [hold]
        rfl
      · rfl
    · rfl

-- What `insert` does with an id that is not there.
def insertNew (c : TxCollection) (docId : String) (fields : Json.Map) : TxCollection.M String := do
  let (pageNum, pages) ← writeVersionedDocument docId (.obj fields) c.tx.mvccTxId 0 ∅
  onTree (TxBTree.insert docId pageNum)
  Proc.forEach (insertIndexEntry docId fields pageNum) c.indexes.keys
  writePages pages
  recordWrite docId (some pageNum)
  pure docId

theorem exec_insertDocument (h : Sound c db M) (docId : String) (fields : Json.Map) :
    Proc.exec (insertDocument docId fields) c db =
      if (M docId).isSome then
        (.error (.documentAlreadyExists c.name docId), c.looked docId true, db)
      else Proc.exec (insertNew c docId fields) (c.looked docId false) db := by
  have hsearch := exec_onTree_same (h.search docId)
  have hcaught : ∀ e, answer M docId = .error e → e.Caught := by
    intro e he
    unfold answer at he
    cases hM : M docId with
    | some p => simp [hM] at he
    | none =>
      obtain rfl : notFound docId = e := by simpa [hM] using he
      simp [Error.Caught, notFound]
  unfold insertDocument
  rw [Proc.exec_bind_ok (Proc.exec_getLocal c db), Proc.exec_bind_ok (exec_catching hsearch hcaught)]
  unfold answer
  cases M docId with
  | some old => rfl
  | none => rfl

end Early

section Late

-- The insert into the tree, up to the indexes: the document is there, in pages the indexes have
-- nothing to do with.
theorem Sound.exec_primary (h : Sound c db M) {docId : String} (hid : docId.utf8ByteSize ≤ 255)
    (data : Json) : ∃ p pages overflow db₁ t₂ db₂ rank T,
      Proc.exec (writeVersionedDocument docId data c.tx.mvccTxId 0 ∅) (c.looked docId false) db =
        (.ok (p, pages), c.looked docId false, db₁) ∧
      Proc.exec (onTree (TxBTree.insert docId p)) (c.looked docId false) db₁ =
        (.ok (), putTree t₂ (c.looked docId false), db₂) ∧
      Represents t₂ db₂ rank T ∧ mapOf T.entries = Function.update M docId (some p) ∧
      Apart {q | q ∈ T.ptrs ∨ q = p} (putTree t₂ (c.looked docId false)) db₂ ∧
      db₂.pager.view p = some (.doc ⟨c.tx.mvccTxId, 0, docId, data, overflow⟩) := by
  obtain ⟨rank, T, hrep, rfl, hT⟩ := h.tree
  obtain ⟨p, pages, overflow, db₁, he₁, hadv, hfresh, hused, hview⟩ :=
    exec_writeVersionedDocument hrep.holds.wf.pager hid data c.tx.mvccTxId 0 ∅ (c.looked docId false)
  have hrep₁ := hrep.advances h.held hadv
  obtain ⟨-, t₂, db₂, -, he₂, T', rank', hrep', hes, hext, hreuses, -⟩ := exec_insert_within hrep₁ docId p
  have hnew : ∀ q ∈ t₂.newPages, q ∈ c.btree.newPages ∨ ¬ db.pager.Allocated q := by
    intro q hq
    exact (hext.fresh q hq).imp_right fun hn hq => hn (hadv.alloc q hq)
  have hpnew : p ∉ t₂.newPages := by
    intro hp
    rcases hext.fresh p hp with hp | hp
    · exact hfresh (hrep.holds.wf.created p hp)
    · exact hp hused
  refine ⟨p, pages, overflow, db₁, t₂, db₂, rank', T', he₁, ?_, hrep', ?_, ⟨?_, ?_, ?_⟩, ?_⟩
  · unfold onTree
    rw [Proc.exec_zoom]
    change ((Proc.exec (TxBTree.insert docId p) c.tree db₁).1, _, _) = _
    have htree : (c.looked docId false).tree = c.tree := rfl
    rw [htree, he₂]
  · rw [hes]
    exact mapOf_insertEntry hrep.entries_sorted
  · intro name
    have hindex := h.indexes name
    exact ⟨hrep'.holds.wf.pager, hindex.copies,
      fun q hq => hext.alloc q (hadv.alloc q (hindex.created q hq)), hindex.root, hindex.moved,
      hrep'.holds.wf.coherent⟩
  · intro name q hq hindex
    have hin : db.pager.Allocated q := (h.indexes name).created q hindex
    have hout : q ∉ T.ptrs ∧ q ∉ c.btree.newPages :=
      ⟨fun hq => hT name q hq hindex, fun hq => h.apart name q hq hindex⟩
    rcases hq with hq | rfl
    · rcases hreuses q (by simpa using hq) with hq | hq
      · exact hout.1 (by simpa using hq)
      · rcases hnew q hq with hq | hq
        · exact hout.2 hq
        · exact hq hin
    · exact hfresh hin
  · rintro q (hq | rfl)
    · exact (hrep'.holds.live q (by simpa using hq)).1
    · exact hext.alloc q hused
  · rw [hext.view p hpnew]
    exact hview

-- Whatever becomes of the indexes, the handle finds the document, or pages that are wrong.
theorem findById_ghost [SerdeJson] {S : Set PageNum} {rank : Rank} {T : PageTree} {p : PageNum} {d : DocPage}
    {id : String} (hrep : Represents c.tree db rank T) (hid : mapOf T.entries id = some p)
    (hS : ∀ q, q ∈ T.ptrs ∨ q = p → q ∈ S) (hview : db.pager.view p = some (.doc d))
    (hxmin : d.xmin = c.tx.mvccTxId) (hapart : Apart S c' db') (h : Spared S c db c' db') :
    (Proc.exec (findById id) c' db').1 ≠ .error (notFound id) := by
  have hact : c'.tree.actualPage = c.tree.actualPage := by
    unfold TxBTree.actualPage tree
    rw [h.btree]
  have hroot : c'.tree.getCurrentRoot = c.tree.getCurrentRoot := by
    unfold TxBTree.getCurrentRoot tree
    rw [h.btree]
  have hsearch := hrep.exec_search_kept hact hroot (fun _ _ hp => hapart.coherent hp) h.alloc
    (fun q hq => h.view q (hS q (Or.inl hq))) id
  rw [lookup_eq_mapOf, hid] at hsearch
  have hseen : pageSeen c'.tx.writes db' p = .ok (.doc d) := by
    rw [pageSeen_coherent fun _ _ hp => hapart.coherent hp]
    unfold Pager.readPage
    rw [h.view p (hS p (Or.inr rfl)), hview]
  obtain ⟨r, -, hread⟩ : Peeks db'.pager fun ℓ => (readVersionedDocument p c'.tx.writes : DbM ℓ _) :=
    peeks_readVersionedDocument p c'.tx.writes
  have hd := hread _ { c' with btree := c'.tree } db' rfl
  rw [findById_result, exec_readVisible (exec_onTree_same hsearch) hd]
  rcases readVersionedDocument_doc hseen { c' with btree := c'.tree } with ⟨doc, hr, hdoc⟩ | ⟨e, hr, he⟩
  · rw [hd] at hr
    obtain rfl : r = .ok doc := hr
    have hsees : sees c'.tx doc = true := by
      unfold sees isOwnWrite
      rw [h.tx, hdoc, hxmin]
      simp
    simp only [Except.bind, hsees, if_true]
    unfold VersionedDocument.parse
    cases doc.data with
    | some data => cases hread : SerdeJson.fromSlice data <;> simp [hread, notFound, Except.mapError]
    | none => simp [notFound]
  · rw [hd] at hr
    obtain rfl : r = .error e := hr
    intro hfound
    exact he "" id (Except.error.inj hfound)

end Late

theorem insertDocument_failed [SerdeJson] (h : Sound c db M) {docId : String} {fields : Json.Map} {e : Error}
    (he : Proc.exec (insertDocument docId fields) c db = (.error e, c', db')) :
    Unchanged c db c' db' ↔
      if (M docId).isSome then (getNested c.tx.docExistedInSnapshot c.name docId).isSome = true
      else docId.utf8ByteSize > 255 := by
  rw [exec_insertDocument h docId fields] at he
  cases hM : M docId with
  | some old =>
    rw [hM, if_pos (by simp)] at he
    obtain ⟨-, rfl, rfl⟩ : Error.documentAlreadyExists c.name docId = e ∧ c.looked docId true = c' ∧
        db = db' := by simpa using he
    rw [if_pos (by simp)]
    constructor
    · intro hsame
      exact ((sameRequest_looked c docId true).mp hsame.commit).resolve_right (by simp)
    · intro hflag
      exact (sameView_looked c docId true).unchanged
        ((sameRequest_looked c docId true).mpr (Or.inl hflag))
  | none =>
    rw [hM, if_neg (by simp)] at he
    rw [if_neg (by simp)]
    unfold insertNew at he
    by_cases hid : docId.utf8ByteSize > 255
    · refine ⟨fun _ => hid, fun _ => ?_⟩
      have hrefuse : ∀ l : TxCollection, Proc.exec (writeVersionedDocument docId (.obj fields)
          c.tx.mvccTxId 0 ∅) l db = (.error .invalidDocument, l, db) := by
        intro l
        unfold writeVersionedDocument
        rw [if_pos hid]
        rfl
      rw [Proc.exec_bind_error (hrefuse _)] at he
      obtain ⟨-, rfl, rfl⟩ : Error.invalidDocument = e ∧ c.looked docId false = c' ∧ db = db' := by
        simpa using he
      exact (sameView_looked c docId false).unchanged ((sameRequest_looked c docId false).mpr (Or.inr rfl))
    · refine ⟨fun hsame => ?_, fun hlong => absurd hlong hid⟩
      exfalso
      obtain ⟨p, pages, overflow, db₁, t₂, db₂, rank, T, he₁, he₂, hrep, hT, hapart, hdoc⟩ :=
        h.exec_primary (Nat.le_of_not_lt hid) (.obj fields)
      rw [Proc.exec_bind_ok he₁] at he
      simp only at he
      rw [Proc.exec_bind_ok he₂, Proc.exec_bind] at he
      rcases hloop : Proc.exec (Proc.forEach (insertIndexEntry docId fields p) c.indexes.keys)
        (putTree t₂ (c.looked docId false)) db₂ with ⟨r, c₃, db₃⟩
      obtain ⟨hapart₃, hspared⟩ := spares_forEach _ (fun name =>
        spares_insertIndexEntry docId fields p name) _ db₂ hapart r c₃ db₃ hloop
      rw [hloop] at he
      cases r with
      | ok u => cases he
      | error e₃ =>
        obtain ⟨-, rfl, rfl⟩ : e₃ = e ∧ c₃ = c' ∧ db₃ = db' := by simpa using he
        refine findById_ghost (c := putTree t₂ (c.looked docId false)) hrep ?_ (fun q hq => hq) hdoc rfl hapart₃
          hspared ((hsame.findById docId).trans ?_)
        · rw [hT, Function.update_self]
        · have hsearch := exec_onTree_same (h.search docId)
          unfold answer at hsearch
          rw [hM] at hsearch
          rw [findById_result]
          unfold readVisible
          rw [Proc.exec_bind_error hsearch]
          rfl

-- `insert`, when it fails: nothing has changed for the users of the handle if and only if it
-- came to an end before the tree was written. Keys are such that nodes fit their pages; an insert
-- with a larger one does not fail, it panics.
theorem insert_failed_unchanged_iff [SerdeJson] (h : Sound c db M) {generatedId : String} {doc : Json}
    {e : Error}
    (he : Proc.exec (insert generatedId doc) c db = (.error e, c', db')) :
    Unchanged c db c' db' ↔ StopsEarly c M generatedId doc := by
  unfold insert at he
  rw [Proc.exec_bind_ok (Proc.exec_getLocal c db)] at he
  have hearly : ∀ {e' : Error}, Proc.exec (Proc.fail e' : TxCollection.M String) c db = (.error e, c', db') →
      Unchanged c db c' db' := by
    intro e' hfail
    obtain ⟨-, rfl, rfl⟩ : e' = e ∧ c = c' ∧ db = db' := by simpa [Proc.exec_fail] using hfail
    exact Unchanged.refl c db
  unfold StopsEarly
  cases hfields : doc.asObject with
  | none =>
    rw [hfields] at he
    exact iff_of_true (hearly he) trivial
  | some fields =>
    simp only [hfields] at he ⊢
    by_cases hactive : c.tx.isActive = true
    · rw [if_neg (by simp [hactive])] at he
      simp only [hactive, forall_const]
      cases hdocId : docIdOf generatedId fields with
      | none =>
        rw [hdocId] at he
        exact iff_of_true (hearly he) trivial
      | some found =>
        rw [hdocId] at he
        exact insertDocument_failed h he
    · rw [if_pos (by simpa using hactive)] at he
      exact iff_of_true (hearly he) fun hyes => absurd hyes hactive

section Opened

-- A handle whose trees have no pages of their own yet.
theorem Denotes.sound (h : Denotes c.tree db M) (hheld : Held db c.tx.writes)
    (hnew : ∀ p, p ∉ c.btree.newPages)
    (hindexes : ∀ name t, c.indexes.get? name = some t → ∃ root writes, t = TxBTree.new root writes) :
    Sound c db M := by
  obtain ⟨rank, T, hrep, hM⟩ := h
  have hindex : ∀ name, ∃ root, c.index name = TxBTree.new root c.tx.writes := by
    intro name
    unfold index
    cases hname : c.indexes.get? name with
    | none => exact ⟨0, rfl⟩
    | some t =>
      obtain ⟨root, writes, rfl⟩ := hindexes name t hname
      exact ⟨root, rfl⟩
  refine ⟨hheld, ⟨rank, T, hrep, hM, fun name p _ => ?_⟩, fun name => ?_, fun name p hp => absurd hp (hnew p)⟩
  · obtain ⟨root, hroot⟩ := hindex name
    rw [hroot]
    exact not_mem_newPages_new root _ p
  · obtain ⟨root, hroot⟩ := hindex name
    rw [hroot]
    exact owns_new hrep.holds.wf.pager fun p page hp => (hheld p page hp).2

end Opened

section Duplicate

attribute [local instance] SerdeJson.exact

-- A handle without indexes, of a transaction that has read `a`.
def pairHandle : TxCollection :=
  ⟨⟨0, 3, 2, .active, ∅, ∅, ∅, ∅, insertNested ∅ "people" "a" true, ∅, ∅, ∅⟩, "people", TxBTree.new 2 ∅, ∅, ∅⟩

def duplicate : Json := .obj [("_id", .str "a")]

theorem insert_failed_unchanged_iff_duplicate :
    let run := Proc.exec (insert "" duplicate) pairHandle (dbOf pairTree 8)
    run.1 = .error (.documentAlreadyExists "people" "a") ∧
      Unchanged pairHandle (dbOf pairTree 8) run.2.1 run.2.2 := by
  have hsound : Sound pairHandle (dbOf pairTree 8) (mapOf pairTree.entries) :=
    Denotes.sound (c := pairHandle) denotes_pairTree (held_empty _) (fun p => not_mem_newPages_new 2 ∅ p)
      (by simp [pairHandle, HashMap.get?_empty])
  have herror : (Proc.exec (insert "" duplicate) pairHandle (dbOf pairTree 8)).1 =
      .error (.documentAlreadyExists "people" "a") := by decide +kernel
  have hstops : StopsEarly pairHandle (mapOf pairTree.entries) "" duplicate := by
    intro _
    change if (mapOf (SearchTree.entries pairTree) "a").isSome then
        (getNested pairHandle.tx.docExistedInSnapshot "people" "a").isSome = true
      else "a".utf8ByteSize > 255
    decide +kernel
  exact ⟨herror, (insert_failed_unchanged_iff hsound (Prod.ext herror rfl)).mpr hstops⟩

-- A transaction that deletes `x`, and another that has updated it since. The conflict is missed
-- when the first one had tried to insert `x`: the failed insert notes that `x` was there, and no
-- version of it.
def deleteUpdated (attempt : Bool) : DbM Unit PendingWrite := do
  let tx ← begin
  let c ← TxCollection.new tx "a"
  let other ← begin
  let c' ← TxCollection.new other "a"
  let (_, c') ← Proc.within c' (updateById "x" (.obj [("n", .str "1")]))
  Commit.executeBatchCommit other.mvccTxId [c'.tx.prepareWriteRequest]
  let (_, c) ← Proc.within c (do
    if attempt then
      let _ ← catching (insert "" (.obj [("_id", .str "x")]))
    deleteById "x")
  pure c.tx.prepareWriteRequest

def deleteOutcome (attempt : Bool) : Option (Except Error Unit) :=
  let run := Proc.exec (deleteUpdated attempt) () Commit.collectionA
  run.1.toOption.map fun pending => (Proc.exec (Commit.validatePendingWrite pending) () run.2.2).1

set_option maxRecDepth 100000 in
example : deleteOutcome false = some (.error .txConflict) ∧ deleteOutcome true = some (.ok ()) := by
  decide +kernel

end Duplicate

section Person

attribute [local instance] SerdeJson.exact

def person (id : String) : Json := .obj [("_id", .str id), ("email", .str "e")]

-- A collection without documents, with a unique index.
def people : Database :=
  let index : IndexMeta := ⟨"email", some "email", [], 0, true⟩
  { Database.ofPages [] 2 [] 1 with
    metadata := ⟨(∅ : HashMap String CollectionMeta).insert "people"
      ⟨0, (∅ : HashMap String IndexMeta).insert "email" index, ∅, none⟩⟩ }

-- A handle that one document was inserted with.
def firstPerson : DbM Unit TxCollection := do
  let tx ← begin
  let c ← TxCollection.new tx "people"
  let (_, c) ← Proc.within c (insert "" (person "a"))
  pure c

def peopleA : Database := (Proc.exec firstPerson () people).2.2

theorem extractFieldValue_eq : Json.extractFieldValue = fun doc field =>
    ((Json.obj doc).resolve ((field.toList.splitOn '.').map String.ofList)).getD .null := by
  funext doc field
  unfold Json.extractFieldValue Json.valueAt
  rw [show "." = String.ofList ['.'] from rfl, splitOn_char]

-- What the second insert returns, and what the handle finds before and after it.
def secondPerson : Option (Except Error String × Except Error Json × Except Error Json) :=
  (Proc.exec firstPerson () people).1.toOption.map fun c =>
    let run := Proc.exec (insert "" (person "b")) c peopleA
    (run.1, (Proc.exec (findById "b") c peopleA).1, (Proc.exec (findById "b") run.2.1 run.2.2).1)

set_option maxRecDepth 100000 in
theorem secondPerson_eq : secondPerson =
    some (.error (uniqueViolation "email" [.str "e"]), .error (notFound "b"), .ok (person "b")) := by
  unfold secondPerson peopleA firstPerson insert insertDocument
  unfold insertIndexEntry Json.extractFieldValues
  rw [extractFieldValue_eq]
  decide +kernel

-- The second document has the first one's address. Its insert fails, and the handle finds it.
theorem insert_taken_not_unchanged : ∃ c, (Proc.exec firstPerson () people).1.toOption = some c ∧
    (Proc.exec (insert "" (person "b")) c peopleA).1 = .error (uniqueViolation "email" [.str "e"]) ∧
    ¬ Unchanged c peopleA (Proc.exec (insert "" (person "b")) c peopleA).2.1
      (Proc.exec (insert "" (person "b")) c peopleA).2.2 := by
  obtain ⟨c, hrun, hfound⟩ := Option.map_eq_some_iff.mp secondPerson_eq
  obtain ⟨herror, hbefore, hafter⟩ : _ ∧ _ ∧ _ := by simpa only [Prod.mk.injEq] using hfound
  refine ⟨c, hrun, herror, fun hsame => ?_⟩
  have hfind := hsame.findById "b"
  rw [hbefore, hafter] at hfind
  cases hfind

end Person

end TxCollection

end JasonDb
