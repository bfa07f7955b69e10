import JasonDb.TxBTree.Grants
import JasonDb.TxCollection

namespace JasonDb

open Lib

variable {ℓ α : Type} {J : Database → Prop} {I : ℓ → Prop} {G : PageNum → Prop} {W : Page → Prop}

theorem PagesIn.insertAll {pages more : HashMap PageNum Page} (h : PagesIn G W pages)
    (hm : PagesIn G W more) :
    PagesIn G W (more.toList.foldl (fun writes entry => writes.insert entry.1 entry.2) pages) := by
  have hall : ∀ entry ∈ more.toList, G entry.1 ∧ W entry.2 := by
    intro entry hentry
    exact hm entry.1 entry.2 (HashMap.mem_toList.mp hentry)
  generalize more.toList = entries at hall
  induction entries generalizing pages with
  | nil => exact h
  | cons entry rest ih =>
    obtain ⟨hp, hpage⟩ := hall entry (by simp)
    exact ih (h.insert hp hpage) fun e he => hall e (by simp [he])

theorem mem_insertAll {pages more : HashMap PageNum Page} {p : PageNum} (h : p ∈ more) :
    p ∈ more.toList.foldl (fun writes entry => writes.insert entry.1 entry.2) pages := by
  have hkeep : ∀ (entries : List (PageNum × Page)) (pages : HashMap PageNum Page),
      p ∈ entries.map Prod.fst ∨ p ∈ pages →
      p ∈ entries.foldl (fun writes entry => writes.insert entry.1 entry.2) pages := by
    intro entries
    induction entries with
    | nil => simp
    | cons entry rest ih =>
      intro pages hp
      refine ih _ ?_
      simp only [List.map_cons, List.mem_cons, HashMap.mem_insert] at hp ⊢
      grind
  refine hkeep _ pages (Or.inl ?_)
  rw [HashMap.map_fst_toList]
  exact h

section Codec

variable (hJ : Grants J G W) (hover : ∀ part, W (.overflow part))

include hJ hover

theorem safe_writeOverflow (data : Json) (more index : Nat) {page : PageNum} (hpage : G page)
    {pages : HashMap PageNum Page} (h : PagesIn G W pages) :
    Proc.Safe J I (PagesIn G W) (writeOverflow data more index page pages : DbM ℓ _) := by
  induction more generalizing index page pages with
  | zero =>
    exact (safe_writePageTransfer hJ hpage (hover _)).bind fun _ _ =>
      Proc.safe_pure (h.insert hpage (hover _))
  | succ more ih =>
    refine (safe_allocPageMinimum hJ _).bind fun next hnext => ?_
    exact (safe_writePageTransfer hJ hpage (hover _)).bind fun _ _ =>
      ih _ hnext (h.insert hpage (hover _))

theorem safe_writeVersionedDocument {id : String} {data : Json} {xmin xmax : TransactionID}
    (hdoc : ∀ overflow, W (.doc ⟨xmin, xmax, id, data, overflow⟩))
    {pages : HashMap PageNum Page} (h : PagesIn G W pages) :
    Proc.Safe J I (fun r => r.1 ∈ r.2 ∧ PagesIn G W r.2)
      (writeVersionedDocument id data xmin xmax pages : DbM ℓ _) := by
  unfold writeVersionedDocument
  split
  · exact Proc.safe_fail _
  · refine (safe_allocPageMinimum hJ _).bind fun firstPage hfirst => ?_
    have hlast : ∀ (overflow : PageNum) {pages : HashMap PageNum Page}, PagesIn G W pages →
        Proc.Safe J I (fun r => r.1 ∈ r.2 ∧ PagesIn G W r.2) ((do
          writePageTransfer firstPage (.doc ⟨xmin, xmax, id, data, overflow⟩)
          pure (firstPage, pages.insert firstPage (.doc ⟨xmin, xmax, id, data, overflow⟩))) :
            DbM ℓ _) := by
      intro overflow pages hpages
      exact (safe_writePageTransfer hJ hfirst (hdoc _)).bind fun _ _ =>
        Proc.safe_pure ⟨by simp, hpages.insert hfirst (hdoc _)⟩
    simp only
    split
    · exact hlast 0 h
    · refine (safe_allocPageMinimum hJ _).bind fun page hpage => ?_
      exact (safe_writeOverflow hJ hover data _ 0 hpage h).bind fun _ hpages => hlast page hpages

end Codec

theorem safe_readThrough (pages : HashMap PageNum Page) (p : PageNum) :
    Proc.Safe J I (fun _ => True) (readThrough pages p : DbM ℓ Page) := by
  unfold readThrough
  split
  · exact Proc.safe_pure trivial
  · exact safe_readPage p

theorem safe_readOverflow (pages : HashMap PageNum Page) (data : Json) (start more index : Nat)
    (page : PageNum) (visited : List PageNum) :
    Proc.Safe J I (fun _ => True) (readOverflow pages data start more index page visited : DbM ℓ _) := by
  induction more generalizing index page visited with
  | zero => exact Proc.safe_pure trivial
  | succ more ih =>
    unfold readOverflow
    split
    · exact Proc.safe_fail _
    · split
      · exact Proc.safe_fail _
      · split
        · exact Proc.safe_fail _
        · refine (safe_readThrough _ _).bind fun content _ => ?_
          split
          · exact (ih _ _ _).bind fun _ _ => Proc.safe_pure trivial
          · exact Proc.safe_pure trivial

theorem safe_readVersionedDocument (p : PageNum) (pages : HashMap PageNum Page) :
    Proc.Safe J I (fun _ => True) (readVersionedDocument p pages : DbM ℓ _) := by
  refine (safe_readThrough _ _).bind fun content _ => ?_
  split
  · split
    · exact Proc.safe_fail _
    · exact (safe_readOverflow _ _ _ _ _ _ _).bind fun _ _ => Proc.safe_pure trivial
  · exact Proc.safe_fail _

namespace TxCollection

variable {txId : TransactionID}

-- A handle of the transaction `txId` all of whose pages are of `G`.
structure Within (G : PageNum → Prop) (W : Page → Prop) (txId : TransactionID) (c : TxCollection) :
    Prop where
  btree : TxBTree.Within G W c.btree
  indexes : ∀ name t, c.indexes.get? name = some t → TxBTree.Within G W t
  writes : PagesIn G W c.tx.writes
  id : c.tx.mvccTxId = txId

theorem Within.tree {c : TxCollection} (h : Within G W txId c) : TxBTree.Within G W c.tree :=
  ⟨h.btree.new, h.btree.cow, h.writes⟩

theorem Within.putTree {c : TxCollection} (h : Within G W txId c) {t : TxBTree}
    (ht : TxBTree.Within G W t) : Within G W txId (c.putTree t) :=
  ⟨ht, h.indexes, ht.writes, h.id⟩

theorem Within.index {c : TxCollection} (h : Within G W txId c) (name : String) :
    TxBTree.Within G W (c.index name) := by
  unfold TxCollection.index
  cases hg : c.indexes.get? name with
  | some t => exact ⟨(h.indexes name t hg).new, (h.indexes name t hg).cow, h.writes⟩
  | none =>
    have hnew : TxBTree.Within G W (TxBTree.new 0 ∅) := TxBTree.within_new pagesIn_empty
    exact ⟨hnew.new, hnew.cow, h.writes⟩

theorem Within.putIndex {c : TxCollection} (h : Within G W txId c) (name : String) {t : TxBTree}
    (ht : TxBTree.Within G W t) : Within G W txId (c.putIndex name t) := by
  refine ⟨h.btree, ?_, ht.writes, h.id⟩
  intro other t' hg
  rw [TxCollection.putIndex, HashMap.get?_insert] at hg
  split at hg
  · obtain rfl := Option.some.inj hg
    exact ht
  · exact h.indexes other t' hg

-- Bookkeeping that leaves pages and id alone.
theorem Within.modify {c : TxCollection} (h : Within G W txId c) {f : Transaction → Transaction}
    (hw : (f c.tx).writes = c.tx.writes) (hid : (f c.tx).mvccTxId = c.tx.mvccTxId) :
    Within G W txId { c with tx := f c.tx } :=
  ⟨h.btree, h.indexes, hw ▸ h.writes, hid.trans h.id⟩

theorem safe_modifyTx {f : Transaction → Transaction} (hw : ∀ tx, (f tx).writes = tx.writes)
    (hid : ∀ tx, (f tx).mvccTxId = tx.mvccTxId) :
    Proc.Safe J (Within G W txId) (fun _ => True) (modifyTx f) :=
  Proc.safe_modifyLocal fun c hc => hc.modify (hw c.tx) (hid c.tx)

theorem safe_onTree {m : TxBTree.TreeM α} (h : Proc.Safe J (TxBTree.Within G W) (fun _ => True) m) :
    Proc.Safe J (Within G W txId) (fun _ => True) (onTree m) :=
  h.zoom (fun _ hc => hc.tree) fun _ _ hc ht => hc.putTree ht

theorem safe_onIndex (name : String) {m : TxBTree.TreeM α}
    (h : Proc.Safe J (TxBTree.Within G W) (fun _ => True) m) :
    Proc.Safe J (Within G W txId) (fun _ => True) (onIndex name m) :=
  h.zoom (fun _ hc => hc.index name) fun _ _ hc ht => hc.putIndex name ht

theorem safe_writePages {pages : HashMap PageNum Page} (h : PagesIn G W pages) :
    Proc.Safe J (Within G W txId) (fun _ => True) (writePages pages) :=
  Proc.safe_modifyLocal fun _ hc => ⟨hc.btree, hc.indexes, hc.writes.insertAll h, hc.id⟩

theorem safe_recordWrite (id : String) (page : Option PageNum) :
    Proc.Safe J (Within G W txId) (fun _ => True) (recordWrite id page) :=
  Proc.safe_getLocal.bind fun _ _ => safe_modifyTx (fun _ => rfl) fun _ => rfl

theorem safe_readVisible (id : String) :
    Proc.Safe J (Within G W txId) (fun _ => True) (readVisible id) := by
  refine (safe_onTree (TxBTree.safe_search id)).bind fun p _ => Proc.safe_getLocal.bind fun c _ => ?_
  refine (safe_readVersionedDocument _ _).bind fun doc _ => ?_
  split
  · exact Proc.safe_fail _
  · exact Proc.safe_pure trivial

theorem safe_findById [SerdeJson] (id : String) :
    Proc.Safe J (Within G W txId) (fun _ => True) (findById id) := by
  refine (safe_readVisible id).bind fun r _ => Proc.safe_getLocal.bind fun c _ => ?_
  simp only
  split
  · exact Proc.safe_ofExcept fun _ _ => trivial
  · refine Proc.Safe.bind (safe_modifyTx (fun _ => rfl) fun _ => rfl) fun _ _ => ?_
    exact Proc.Safe.bind (safe_modifyTx (fun _ => rfl) fun _ => rfl) fun _ _ =>
      Proc.safe_ofExcept fun _ _ => trivial

theorem safe_keepOldVersion (id : String) (p : PageNum) (doc : VersionedDocument) :
    Proc.Safe J (Within G W txId) (fun _ => True) (keepOldVersion id p doc) := by
  refine Proc.safe_getLocal.bind fun c _ => ?_
  split
  · exact Proc.safe_pure trivial
  · exact safe_modifyTx (fun _ => rfl) fun _ => rfl

theorem safe_trackUpdated (id : String) (doc : VersionedDocument) :
    Proc.Safe J (Within G W txId) (fun _ => True) (trackUpdated id doc) := by
  refine Proc.safe_getLocal.bind fun c _ => ?_
  refine Proc.Safe.bind (safe_modifyTx (fun _ => rfl) fun _ => rfl) fun _ _ => ?_
  split
  · exact Proc.safe_pure trivial
  · exact safe_modifyTx (fun _ => rfl) fun _ => rfl

def updateSeen [SerdeJson] (c : TxCollection) (id : String) (updates : Json.Map)
    (found : PageNum × VersionedDocument) : M Unit := do
  trackUpdated id found.2
  keepOldVersion id found.1 found.2
  let fields ← Proc.ofExcept (parseMap found.2)
  let (pageNum, pages) ← writeVersionedDocument id (.obj (applyUpdates id fields updates))
    c.tx.mvccTxId 0 ∅
  onTree (TxBTree.update id pageNum)
  writePages pages
  recordWrite id (some pageNum)

theorem updateById_eq [SerdeJson] (id : String) (updates : Json) :
    updateById id updates = (do
      let c ← Proc.getLocal
      match updates.asObject with
      | none => Proc.fail (c.invalidFormat "updates must be an object")
      | some updates =>
        if !c.tx.isActive then Proc.fail .txNotActive
        else do
          let found ← readVisible id
          updateSeen c id updates found) := rfl

section Writing

variable (hJ : Grants J G W) (hnode : ∀ n, W (.node n)) (hover : ∀ part, W (.overflow part))

include hJ hnode

theorem safe_insertIndexEntry (docId : String) (doc : Json.Map) (p : PageNum) (name : String) :
    Proc.Safe J (Within G W txId) (fun _ => True) (insertIndexEntry docId doc p name) := by
  refine Proc.safe_getLocal.bind fun c _ => ?_
  split
  · exact Proc.safe_fail _
  · simp only
    split
    · refine (safe_onIndex name (TxBTree.safe_hasPrefix _)).bind fun taken _ => ?_
      split
      · exact Proc.safe_fail _
      · exact safe_onIndex name (TxBTree.safe_insert hJ hnode _ _)
    · exact safe_onIndex name (TxBTree.safe_insert hJ hnode _ _)

include hover

theorem safe_insertDocument {docId : String} {doc : Json.Map}
    (hdoc : ∀ overflow, W (.doc ⟨txId, 0, docId, .obj doc, overflow⟩)) :
    Proc.Safe J (Within G W txId) (fun _ => True) (insertDocument docId doc) := by
  refine Proc.safe_getLocal.bind fun c hc => ?_
  refine (safe_catching (safe_onTree (TxBTree.safe_search docId))).bind fun found _ => ?_
  refine Proc.Safe.bind (safe_modifyTx (fun _ => rfl) fun _ => rfl) fun _ _ => ?_
  split
  · exact Proc.safe_fail _
  · rw [hc.id]
    refine (safe_writeVersionedDocument hJ hover hdoc pagesIn_empty).bind fun r hr => ?_
    refine (safe_onTree (TxBTree.safe_insert hJ hnode _ _)).bind fun _ _ => ?_
    refine (Proc.safe_forEach _ fun name _ => safe_insertIndexEntry hJ hnode _ _ _ name).bind
      fun _ _ => ?_
    exact (safe_writePages hr.2).bind fun _ _ => (safe_recordWrite _ _).bind fun _ _ =>
      Proc.safe_pure trivial

theorem safe_insert {generatedId : String} {doc : Json}
    (hdoc : ∀ fields docId fields', doc.asObject = some fields →
      docIdOf generatedId fields = some (docId, fields') →
      ∀ overflow, W (.doc ⟨txId, 0, docId, .obj fields', overflow⟩)) :
    Proc.Safe J (Within G W txId) (fun _ => True) (insert generatedId doc) := by
  refine Proc.safe_getLocal.bind fun c hc => ?_
  split
  · exact Proc.safe_fail _
  case h_2 fields hfields =>
    split
    · exact Proc.safe_fail _
    · split
      · exact Proc.safe_fail _
      case h_2 docId fields' hid =>
        exact safe_insertDocument hJ hnode hover (hdoc fields docId fields' hfields hid)

-- What `updateById` does with the version it found.
theorem safe_updateSeen [SerdeJson] {id : String} {updates : Json.Map} {c : TxCollection}
    (hc : c.tx.mvccTxId = txId)
    (p : PageNum) {doc : VersionedDocument}
    (hdoc : ∀ fields overflow, parseMap doc = .ok fields →
      W (.doc ⟨txId, 0, id, .obj (applyUpdates id fields updates), overflow⟩)) :
    Proc.Safe J (Within G W txId) (fun _ => True) (updateSeen c id updates (p, doc)) := by
  refine (safe_trackUpdated _ _).bind fun _ _ => (safe_keepOldVersion _ _ _).bind fun _ _ => ?_
  refine (Proc.safe_ofExcept (Q := fun fields => parseMap doc = .ok fields) fun _ h => h).bind
    fun fields hfields => ?_
  rw [hc]
  refine (safe_writeVersionedDocument hJ hover (fun overflow => hdoc fields overflow hfields)
    pagesIn_empty).bind fun r hr => ?_
  refine (safe_onTree (TxBTree.safe_update hJ hnode _ _)).bind fun _ _ => ?_
  exact (safe_writePages hr.2).bind fun _ _ => safe_recordWrite _ _

theorem safe_updateById [SerdeJson] {id : String} {updates : Json}
    (hdoc : ∀ fields updates' overflow, updates.asObject = some updates' →
      W (.doc ⟨txId, 0, id, .obj (applyUpdates id fields updates'), overflow⟩)) :
    Proc.Safe J (Within G W txId) (fun _ => True) (updateById id updates) := by
  rw [updateById_eq]
  refine Proc.safe_getLocal.bind fun c hc => ?_
  split
  · exact Proc.safe_fail _
  case h_2 updates' hupdates =>
    split
    · exact Proc.safe_fail _
    · refine (safe_readVisible id).bind fun r _ => ?_
      exact safe_updateSeen hJ hnode hover hc.id _ fun fields overflow _ =>
        hdoc fields updates' overflow hupdates

omit hover

theorem safe_deleteById (id : String) :
    Proc.Safe J (Within G W txId) (fun _ => True) (deleteById id) := by
  refine Proc.safe_getLocal.bind fun c hc => ?_
  split
  · exact Proc.safe_fail _
  · refine (safe_readVisible id).bind fun r _ => (safe_keepOldVersion _ _ _).bind fun _ _ => ?_
    exact (safe_onTree (TxBTree.safe_delete hJ hnode _)).bind fun _ _ => safe_recordWrite _ _

end Writing

section Opening

variable {K : String → Prop} {full : BTreeNode → Prop} (hJ : Grants J G W) (hW : Keeps J W K full)

include hJ hW

theorem keeps_openTree (root : PageNum) {pages : HashMap PageNum Page} (h : PagesIn G W pages) :
    Proc.Safe J I (TxBTree.Within G W) (openTree root pages : DbM ℓ TxBTree) := by
  unfold openTree
  split
  · exact TxBTree.keeps_createEmpty hJ hW h
  · exact Proc.safe_pure (TxBTree.within_new h)

theorem keeps_openIndexes (entries : List (String × IndexMeta)) {c : TxCollection}
    (h : Within G W txId c) :
    Proc.Safe J I (Within G W txId) (openIndexes entries c : DbM ℓ TxCollection) := by
  induction entries generalizing c with
  | nil => exact Proc.safe_pure h
  | cons entry rest ih =>
    obtain ⟨name, index⟩ := entry
    refine (keeps_openTree hJ hW _ h.writes).bind fun t ht => ih ?_
    have hput := h.putIndex name ht
    exact ⟨hput.btree, hput.indexes, hput.writes, hput.id⟩

theorem keeps_new {tx : Transaction} (name : String) (h : PagesIn G W tx.writes)
    (hid : tx.mvccTxId = txId) :
    Proc.Safe J I (Within G W txId) (new tx name : DbM ℓ TxCollection) := by
  refine safe_getMetadata.bind fun metadata _ => (keeps_openTree hJ hW _ h).bind fun t ht => ?_
  have hc : Within G W txId ⟨{ tx with writes := t.txWrites }, name, t, ∅, ∅⟩ := by
    refine ⟨ht, ?_, ht.writes, hid⟩
    intro name t' hg
    cases hg
  simp only
  split
  · exact keeps_openIndexes hJ hW _ hc
  · exact Proc.safe_pure hc

end Opening

theorem safe_new (hJ : Grants J G W) (hnode : ∀ n, W (.node n)) {tx : Transaction} (name : String)
    (h : PagesIn G W tx.writes) (hid : tx.mvccTxId = txId) :
    Proc.Safe J I (Within G W txId) (new tx name : DbM ℓ TxCollection) :=
  keeps_new hJ (keeps_all hnode) name h hid

end TxCollection

end JasonDb
