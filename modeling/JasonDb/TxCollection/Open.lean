import JasonDb.TxCollection.Find

namespace JasonDb

open Lib TxBTree

namespace TxCollection

variable {ℓ : Type} {db db' : Database} {writes : HashMap PageNum Page}

theorem pageSeen_kept {writes' : HashMap PageNum Page} (h : Advances db db')
    (hw : ∀ p, db.pager.Allocated p → writes'.get? p = writes.get? p) {p : PageNum}
    (hp : db.pager.Allocated p) : pageSeen writes' db' p = pageSeen writes db p := by
  unfold pageSeen Pager.readPage
  rw [hw p hp, h.view p hp]

-- Opening a handle takes at most fresh pages, for trees that do not exist yet.
structure Opened (db : Database) (writes : HashMap PageNum Page) (db' : Database)
    (writes' : HashMap PageNum Page) : Prop where
  advances : Advances db db'
  shared : db' = { db with pager := db'.pager }
  frame : db.pager.Frame db'.pager
  keeps : ∀ p, db.pager.Allocated p → writes'.get? p = writes.get? p
  held : Held db writes → Held db' writes'

theorem Opened.refl (h : db.pager.WF) (writes : HashMap PageNum Page) : Opened db writes db writes :=
  ⟨Advances.refl h, rfl, Pager.Frame.refl _, fun _ _ => rfl, id⟩

theorem Opened.trans {db'' : Database} {writes' writes'' : HashMap PageNum Page}
    (h : Opened db writes db' writes') (h' : Opened db' writes' db'' writes'') :
    Opened db writes db'' writes'' :=
  ⟨h.advances.trans h'.advances, by rw [h'.shared, h.shared], h.frame.trans h'.frame,
    fun p hp => (h'.keeps p (h.advances.alloc p hp)).trans (h.keeps p hp),
    fun hh => h'.held (h.held hh)⟩

-- The handle on the tree: its own root, or a new empty leaf.
def OnRoot (root : PageNum) (db : Database) (writes : HashMap PageNum Page) (t : TxBTree) : Prop :=
  (∀ p, t.actualPage p = p) ∧
    if root = 0 then db.pager.Allocated t.getCurrentRoot ∧
      writes.get? t.getCurrentRoot = some (.node (.newLeaf t.getCurrentRoot))
    else t.getCurrentRoot = root

theorem openTree_spec (hwf : db.pager.WF) (root : PageNum) (writes : HashMap PageNum Page) (l : ℓ) :
    ∃ t db', Proc.exec (openTree root writes) l db = (.ok t, l, db') ∧
      Opened db writes db' t.txWrites ∧ OnRoot root db' t.txWrites t := by
  unfold openTree
  by_cases hroot : root = 0
  · rw [if_pos hroot]
    obtain ⟨q, p', he, ha⟩ := exec_allocPageMinimum (l := l) hwf 0
    have hwrite := Pager.writePageTransfer_eq ha.wf.writable q
      (show Page.byteLen (.node (.newLeaf q)) = PAGE_SIZE from rfl)
    have hview := Pager.view_write p' q (.node (.newLeaf q)) (p'.dirty.insert q ())
    have hrun : Proc.exec (createEmpty writes : DbM ℓ TxBTree) l db =
        (.ok ⟨q, 0, ∅, (∅ : HashMap PageNum Bool).insert q true,
          writes.insert q (.node (.newLeaf q))⟩, l, { db with pager := { p' with
            cache := Function.update p'.cache q (some (.node (.newLeaf q)))
            dirty := p'.dirty.insert q () } }) := by
      unfold createEmpty
      rw [allocPage, Proc.exec_bind_ok he]
      have hstep : Proc.exec (writePageTransfer q (.node (.newLeaf q)) : DbM ℓ Unit) l
          { db with pager := p' } = (.ok (), l, { db with pager := { p' with
            cache := Function.update p'.cache q (some (.node (.newLeaf q)))
            dirty := p'.dirty.insert q () } }) := by
        simp only [writePageTransfer, Proc.exec_atomicE, hwrite]
      simp only
      rw [Proc.exec_bind_ok hstep]
      rfl
    refine ⟨_, _, hrun, ⟨⟨?_, ha.keeps, ?_⟩, rfl, ha.frame, ?_, ?_⟩, fun _ => rfl, ?_⟩
    · exact ⟨ha.wf.writable, ha.wf.nonempty, ha.wf.nodup, ha.wf.range⟩
    · intro n hn
      have hne : n ≠ q := fun hq => ha.unused (hq ▸ hn)
      simp only [hview]
      rw [Function.update_of_ne hne]
      exact congrFun ha.view n
    · intro n hn
      have hne : n ≠ q := fun hq => ha.unused (hq ▸ hn)
      exact HashMap.get?_insert_of_ne _ _ hne
    · intro hheld n page hn
      rw [HashMap.get?_insert] at hn
      by_cases hq : n = q
      · subst hq
        rw [if_pos rfl] at hn
        refine ⟨ha.used, ?_⟩
        simp only [hview, Function.update_self]
        exact hn
      · rw [if_neg hq] at hn
        obtain ⟨hal, hv⟩ := hheld n page hn
        refine ⟨ha.keeps n hal, ?_⟩
        simp only [hview]
        rw [Function.update_of_ne hq, ha.view]
        exact hv
    · rw [if_pos hroot]
      exact ⟨ha.used, HashMap.get?_insert_self _ _ _⟩
  · rw [if_neg hroot]
    refine ⟨_, _, rfl, Opened.refl hwf _, fun _ => rfl, ?_⟩
    rw [if_neg hroot]
    rfl

theorem OnRoot.opened {root : PageNum} {writes' : HashMap PageNum Page} {t : TxBTree}
    (h : OnRoot root db writes t) (ho : Opened db writes db' writes') : OnRoot root db' writes' t := by
  refine ⟨h.1, ?_⟩
  have h2 := h.2
  split at h2
  · rw [if_pos ‹_›]
    exact ⟨ho.advances.alloc _ h2.1, (ho.keeps _ h2.1).trans h2.2⟩
  · rw [if_neg ‹_›]
    exact h2

theorem openIndexes_spec (indexes : List (String × IndexMeta)) (c : TxCollection) (hwf : db.pager.WF)
    (l : ℓ) :
    ∃ c' db', Proc.exec (openIndexes indexes c) l db = (.ok c', l, db') ∧
      Opened db c.tx.writes db' c'.tx.writes ∧ c'.name = c.name ∧ c'.btree = c.btree ∧
      c'.tx = { c.tx with writes := c'.tx.writes } := by
  induction indexes generalizing c db with
  | nil => exact ⟨c, db, rfl, Opened.refl hwf _, rfl, rfl, rfl⟩
  | cons entry rest ih =>
    obtain ⟨name, index⟩ := entry
    obtain ⟨t, db₁, he, ho, _⟩ := openTree_spec hwf index.btreeRoot c.tx.writes l
    unfold openIndexes
    rw [Proc.exec_bind_ok he]
    obtain ⟨c', db', he', ho', hname, hbtree, htx⟩ := ih { c with
      tx := { c.tx with writes := t.txWrites }
      indexes := c.indexes.insert name t
      indexMeta := c.indexMeta.insert name index } ho.advances.wf
    exact ⟨c', db', he', ho.trans ho', hname, hbtree, by rw [htx]⟩

theorem new_spec (tx : Transaction) (name : String) (hwf : db.pager.WF) (l : ℓ) :
    ∃ c db', Proc.exec (TxCollection.new tx name) l db = (.ok c, l, db') ∧
      Opened db tx.writes db' c.tx.writes ∧ c.name = name ∧
      c.tx = { tx with writes := c.tx.writes } ∧
      OnRoot ((tx.getSnapshotRoot name).getD 0) db' c.tx.writes c.btree := by
  have hmeta : Proc.exec (getMetadata : DbM ℓ Metadata) l db = (.ok db.metadata, l, db) := rfl
  obtain ⟨t, db₁, he, ho, hroot⟩ := openTree_spec hwf ((tx.getSnapshotRoot name).getD 0) tx.writes l
  unfold TxCollection.new
  rw [Proc.exec_bind_ok hmeta, Proc.exec_bind_ok he]
  simp only
  cases db.metadata.collections.get? name with
  | none => exact ⟨_, _, rfl, ho, rfl, rfl, hroot⟩
  | some coll =>
    obtain ⟨c, db', he', ho', hname, hbtree, htx⟩ := openIndexes_spec coll.indexes.toList
      ⟨{ tx with writes := t.txWrites }, name, t, ∅, ∅⟩ ho.advances.wf l
    refine ⟨c, db', he', ho.trans ho', hname, by rw [htx], ?_⟩
    rw [hbtree]
    exact hroot.opened ho'

theorem exec_find [SerdeJson] {tx : Transaction} {name : String} {c : TxCollection} {l : ℓ}
    (he : Proc.exec (TxCollection.new tx name) l db = (.ok c, l, db')) (id : String) :
    (Proc.exec (find tx name id) l db).1 = (Proc.exec (findById id) c db').1 := by
  unfold find
  rw [Proc.exec_bind_ok he, Proc.exec_bind, Proc.exec_within]
  cases (Proc.exec (findById id) c db').1 <;> rfl

-- A collection that is not there has no documents.
theorem find_absent [SerdeJson] {tx : Transaction} {name : String} (hwf : db.pager.WF)
    (hroot : (tx.getSnapshotRoot name).getD 0 = 0) (id : String) (l : ℓ) :
    (Proc.exec (find tx name id) l db).1 = .error (notFound id) := by
  obtain ⟨c, db', he, _, _, _, hplain, hon⟩ := new_spec tx name hwf l
  rw [if_pos hroot] at hon
  rw [exec_find he, findById_result]
  have hleaf : nodeSeen c.tree db' c.tree.getCurrentRoot = .ok (.newLeaf c.tree.getCurrentRoot) := by
    unfold nodeSeen pageSeen
    have hact : c.tree.actualPage c.tree.getCurrentRoot = c.tree.getCurrentRoot := hplain _
    rw [hact]
    have hw : c.tree.txWrites.get? c.tree.getCurrentRoot =
        some (.node (.newLeaf c.tree.getCurrentRoot)) := hon.2
    rw [hw]
    rfl
  have hsearch : Proc.exec (TxBTree.search id) c.tree db' = (.error (notFound id), c.tree, db') := by
    rw [exec_search_from (S := fun p => p = c.tree.getCurrentRoot)]
    · simp [searchFrom, walk, stepDown, hleaf, BTreeNode.newLeaf, entryIn, Except.bind]
    · intro p hp n hn _ child hc
      obtain rfl := hp
      rw [hleaf] at hn
      obtain rfl := Except.ok.inj hn
      simp [BTreeNode.newLeaf] at hc
    · rfl
    · intro p hp
      obtain rfl := hp
      exact hon.1.2.1
  unfold readVisible
  rw [Proc.exec_bind_error (exec_onTree_same hsearch)]
  rfl

section Agree

variable {S : PageNum → Prop} {tx tx' : Transaction} {name : String}

-- Two transactions find the same in a collection: they have the same root for it, see the same
-- pages below that root, and may see the same versions there.
theorem find_agree [SerdeJson] (hwf : db.pager.WF) (hwf' : db'.pager.WF)
    (hroot : (tx'.getSnapshotRoot name).getD 0 = (tx.getSnapshotRoot name).getD 0)
    (hS : (tx.getSnapshotRoot name).getD 0 ≠ 0 → S ((tx.getSnapshotRoot name).getD 0))
    (halloc : ∀ p, S p → db.pager.Allocated p ∧ db'.pager.Allocated p)
    (hpages : SeesSame S tx.writes db tx'.writes db')
    (hsees : ∀ p d, S p → pageSeen tx.writes db p = .ok (.doc d) →
      ∀ doc : VersionedDocument, doc.xmin = d.xmin → doc.xmax = d.xmax → sees tx' doc = sees tx doc)
    (id : String) (l l' : ℓ) :
    (Proc.exec (find tx' name id) l' db').1 = (Proc.exec (find tx name id) l db).1 := by
  by_cases hzero : (tx.getSnapshotRoot name).getD 0 = 0
  · rw [find_absent hwf hzero, find_absent hwf' (hroot.trans hzero)]
  · obtain ⟨c, db₁, he, ho, hname, htx, hplain, hon⟩ := new_spec tx name hwf l
    obtain ⟨c', db₁', he', ho', hname', htx', hplain', hon'⟩ := new_spec tx' name hwf' l'
    rw [if_neg hzero] at hon
    rw [hroot, if_neg hzero] at hon'
    rw [exec_find he, exec_find he']
    have hseen : ∀ p, S p → pageSeen c.tx.writes db₁ p = pageSeen tx.writes db p := fun p hp =>
      pageSeen_kept ho.advances ho.keeps (halloc p hp).1
    have hseen' : ∀ p, S p → pageSeen c'.tx.writes db₁' p = pageSeen tx'.writes db' p := fun p hp =>
      pageSeen_kept ho'.advances ho'.keeps (halloc p hp).2
    have hgc : c.tree.getCurrentRoot = (tx.getSnapshotRoot name).getD 0 := hon
    have hgc' : c'.tree.getCurrentRoot = (tx.getSnapshotRoot name).getD 0 := hon'
    refine findById_agree (S := S) ⟨⟨?_, ?_⟩, ?_, ?_, hplain, hplain', ?_, ?_, ?_⟩ ?_ id
    · intro p hp page hpage
      rw [hseen p hp] at hpage
      exact hpages.closed p hp page hpage
    · intro p hp
      rw [hseen p hp, hseen' p hp, hpages.same p hp]
    · rw [hgc]
      exact hS hzero
    · rw [hgc, hgc']
    · exact fun p hp => (ho.advances.alloc p (halloc p hp).1).2.1
    · exact fun p hp => (ho'.advances.alloc p (halloc p hp).2).2.1
    · rw [hname, hname']
    · intro p d hp hd doc hxmin hxmax
      rw [hseen p hp] at hd
      have := hsees p d hp hd doc hxmin hxmax
      rw [htx, htx']
      exact this

end Agree

end TxCollection

end JasonDb
