import JasonDb.BTree.Refines
import JasonDb.Collection.Scan
import JasonDb.Database.Index
import JasonDb.Lib.Loop
import JasonDb.Lib.SearchTree.Scan

namespace JasonDb

open Lib SearchTree TxBTree

variable {db db' : Database} {p root : PageNum} {n : BTreeNode}

-- Every page that was in use is as it was.
def Untouched (db db' : Database) : Prop :=
  ∀ p, db.pager.Allocated p → db'.pager.view p = db.pager.view p

-- The node in a page that is in use.
def Database.usedShape (db : Database) (p : PageNum) : Option PageShape :=
  if db.pager.Allocated p then (db.nodeAt p).map (BTreeNode.shape id) else none

theorem Database.usedShape_eq_some {s : PageShape} (h : db.usedShape p = some s) :
    db.pager.Allocated p ∧ ∃ n, db.nodeAt p = some n ∧ n.shape id = s := by
  unfold usedShape at h
  split at h
  · exact ⟨‹_›, Option.map_eq_some_iff.mp h⟩
  · cases h

theorem Untouched.nodeAt (h : Untouched db db') (hp : db.pager.Allocated p) :
    db'.nodeAt p = db.nodeAt p := by
  unfold Database.nodeAt
  rw [h p hp]

-- The entries that a scan from a page comes to.
def Database.scanned (db : Database) (root : PageNum) : List LeafEntry :=
  (scan db.usedShape 0 (db.pager.numPages + 1) root).getD []

theorem usedShape_of_store {s : PageShape} (hp : db.pager.Allocated p)
    (hs : (TxBTree.new root ∅).store db p = some s) : db.usedShape p = some s := by
  have hact : (TxBTree.new root ∅).actualPage = id := rfl
  unfold TxBTree.store at hs
  rw [hact] at hs
  rw [Database.usedShape, if_pos hp, hs]

theorem usedShape_of_represents {rank : Rank} {T : PageTree}
    (h : Represents (TxBTree.new root ∅) db rank T) :
    (∀ p ∈ T.ptrs, db.pager.Allocated p) ∧ ∀ c ∈ T.cells, db.usedShape c.1 = some c.2 := by
  have hlive : ∀ p ∈ T.ptrs, db.pager.Allocated p := fun p hp =>
    (h.holds.live p (by simpa using hp)).1
  exact ⟨hlive, fun c hc => usedShape_of_store (hlive c.1 (List.mem_map_of_mem hc))
    (h.holds.stores.stored c (by simpa using hc))⟩

-- The scan of a tree comes to an end, and to the entries of the tree. The number of pages is
-- enough fuel, also that of a later database.
theorem scan_of_represents {rank : Rank} {T : PageTree}
    (h : Represents (TxBTree.new root ∅) db rank T) :
    T.entries ⊆ db.scanned root ∧ ∀ fuel, (∀ p, db.pager.Allocated p → p < fuel) →
      scan db.usedShape 0 fuel root = some (db.scanned root) := by
  obtain ⟨hlive, hcells⟩ := usedShape_of_represents h
  have hrising : Rising db.usedShape 0 rank := by
    intro p l hp
    obtain ⟨s, hs, es, nx, rfl, hlink⟩ := h.ranked.link p l hp
    exact ⟨es, nx, usedShape_of_store (h.ranked.alloc p l hp) hs, hlink⟩
  have hused : ∀ p, p ∈ {p | p ∈ T.ptrs} ∪ ranked rank → db.pager.Allocated p := by
    rintro p (hp | hp)
    · exact hlive p hp
    · obtain ⟨l, hl⟩ := Option.isSome_iff_exists.mp hp
      exact h.ranked.alloc p l hl
  have hstop : rank 0 = none := by
    cases hr : rank 0 with
    | none => rfl
    | some l => exact absurd rfl (h.ranked.alloc 0 l hr).1
  have hleaf : ∀ p es nx, (p, .leaf es nx) ∈ T.cells → ∃ l, rank p = some l := by
    intro p es nx hc
    obtain ⟨lo, hi, hleaf⟩ := h.ordered.leaf_of_cell hc
    exact ⟨lo, hleaf.2.1⟩
  have hscan : ∀ fuel, (∀ p, db.pager.Allocated p → p < fuel) →
      ∃ es, scan db.usedShape 0 fuel root = some es ∧ T.entries ⊆ es := by
    intro fuel hfuel
    have hbound : {p | p ∈ T.ptrs} ∪ ranked rank ⊆ ↑(Finset.range fuel) := fun p hp =>
      Finset.mem_coe.mpr (Finset.mem_range.mpr (hfuel p (hused p hp)))
    have hcard := Set.ncard_le_ncard hbound (Finset.finite_toSet _)
    rw [Set.ncard_coe_finset, Finset.card_range] at hcard
    have hfinite : (ranked rank).Finite :=
      (Finset.finite_toSet _).subset (Set.subset_union_right.trans hbound)
    have hptr : T.ptr = root := h.root
    rw [← hptr]
    exact exists_scan hrising hfinite hstop hcells (by simpa using h.holds.stores.nodup_ptrs)
      (fun h0 => (hlive 0 h0).1 rfl) hleaf hcard
  obtain ⟨es, hes, hsub⟩ := hscan (db.pager.numPages + 1) fun p hp => Nat.lt_succ_of_lt hp.2.1
  have hscanned : db.scanned root = es := by
    rw [Database.scanned, hes]
    rfl
  rw [hscanned]
  refine ⟨hsub, fun fuel hfuel => ?_⟩
  -- fuel for the one is enough for the other, whichever has more
  obtain ⟨es', hes', _⟩ := hscan fuel hfuel
  have hmax := scan_mono (le_max_left fuel (db.pager.numPages + 1)) hes'
  rw [scan_mono (le_max_right fuel (db.pager.numPages + 1)) hes] at hmax
  rw [hes', Option.some.inj hmax]

-- With all links in order the scan comes to a leaf once for each leaf up to it.
theorem scanned_linked {rank : Rank} {T : PageTree} (h : Represents (TxBTree.new root ∅) db rank T)
    (hlinked : Linked 0 T.leaves) : db.scanned root = suffixes [] T.leaves := by
  obtain ⟨hlive, hcells⟩ := usedShape_of_represents h
  have hptr : T.ptr = root := h.root
  have hlater := scan_tree_linked [] hcells (fun p hp => (hlive p hp).1) (by simp)
    (by simpa using hlinked) (le_max_left _ db.pager.numPages)
  rw [hptr] at hlater
  have hscan : scan db.usedShape 0 (max (T.height + (T.leaves ++ []).length) db.pager.numPages) root =
      some (db.scanned root) :=
    (scan_of_represents h).2 _ fun p hp => hp.2.1.trans_le (le_max_right _ _)
  exact Option.some.inj (hscan.symm.trans hlater)

section Visit

variable {visit : LeafEntry → BTree.TreeM Unit} {J : BTree → Database → Prop} {fuel : Nat}

theorem exec_scanNode_zero (visit : LeafEntry → BTree.TreeM Unit) (fuel : Nat) (t : BTree)
    (db : Database) : Proc.exec (scanNode visit (fuel + 1) 0) t db = (.ok (), t, db) := rfl

theorem exec_scanNode_at (hp : p ≠ 0) (hn : db.nodeAt p = some n) (t : BTree) :
    Proc.exec (scanNode visit (fuel + 1) p) t db =
      Proc.exec (match n.nodeType with
        | .leafNode => do
          Proc.forEach visit n.entries
          if n.nextLeaf ≠ 0 then scanNode visit fuel n.nextLeaf else pure ()
        | .internalNode => Proc.forEach (scanNode visit fuel) n.children) t db := by
  obtain ⟨page, hv, hd⟩ := Option.bind_eq_some_iff.mp hn
  have hread : Proc.exec (readPage p) t db = (.ok page, t, db) := by
    simp only [readPage, Proc.exec_atomicE, Pager.readPage, hv]
  obtain hnode : deserializeNode p page = .ok n := by
    cases hd' : deserializeNode p page with
    | error e => simp [hd', Except.toOption] at hd
    | ok m => rw [show m = n by simpa [hd', Except.toOption] using hd]
  have hparse : Proc.exec (Proc.ofExcept (deserializeNode p page) : BTree.TreeM BTreeNode) t db =
      (.ok n, t, db) := by
    rw [hnode]
    rfl
  rw [scanNode, if_neg hp, Proc.exec_bind_ok hread]
  exact Proc.exec_bind_ok hparse

-- Each subtree is scanned as it was, when visits to the entries before it leave its pages.
theorem exec_scanChildren {scan : PageNum → Option (List LeafEntry)} {children : List PageNum}
    {es : List LeafEntry} (hvisit : ∀ entry ∈ es, Proc.Keeps J (visit entry))
    (hscan : ∀ c part, scan c = some part → (∀ entry ∈ part, Proc.Keeps J (visit entry)) →
      ∀ t db, J t db →
        Proc.exec (scanNode visit fuel c) t db = Proc.exec (Proc.forEach visit part) t db)
    (h : collect scan children = some es) {t : BTree} (ht : J t db) :
    Proc.exec (Proc.forEach (scanNode visit fuel) children) t db =
      Proc.exec (Proc.forEach visit es) t db := by
  induction children generalizing es t db with
  | nil =>
    obtain rfl := Option.some.inj h
    rfl
  | cons c rest ih =>
    obtain ⟨front, back, hfront, hback, rfl⟩ := collect_cons h
    have hvisitFront : ∀ entry ∈ front, Proc.Keeps J (visit entry) := fun entry he =>
      hvisit entry (List.mem_append_left _ he)
    rw [Proc.exec_forEach_cons, Proc.exec_forEach_append]
    refine Proc.exec_bind_congr (hscan c front hfront hvisitFront t db ht) fun u t' db' he => ?_
    have ht' := Proc.keeps_forEach hvisitFront t db u t' db' ht he
    exact ih (fun entry he => hvisit entry (List.mem_append_right _ he)) hback ht'

-- The scan of the pages as they were, when what it does with an entry leaves them so.
theorem exec_scanNode {es : List LeafEntry} (hJ : ∀ t db', J t db' → Untouched db db')
    (hvisit : ∀ entry ∈ es, Proc.Keeps J (visit entry))
    (h : scan db.usedShape 0 fuel p = some es) {t : BTree} (ht : J t db') :
    Proc.exec (scanNode visit fuel p) t db' = Proc.exec (Proc.forEach visit es) t db' := by
  induction fuel generalizing p es t db' with
  | zero => simp [scan] at h
  | succ fuel ih =>
    unfold scan at h
    by_cases hp : p = 0
    · rw [if_pos hp] at h
      obtain rfl := Option.some.inj h
      rw [hp]
      exact exec_scanNode_zero visit fuel t db'
    · rw [if_neg hp] at h
      cases hs : db.usedShape p with
      | none => simp [hs] at h
      | some s =>
        obtain ⟨hused, n, hn, hshape⟩ := Database.usedShape_eq_some hs
        rw [exec_scanNode_at hp (((hJ t db' ht).nodeAt hused).trans hn)]
        cases s with
        | leaf entries nx =>
          obtain ⟨htype, rfl, rfl⟩ := BTreeNode.shape_eq_leaf hshape
          simp only [hs, id_eq] at h
          simp only [htype]
          by_cases hnx : n.nextLeaf = 0
          · rw [if_pos hnx] at h
            obtain rfl := Option.some.inj h
            rw [if_neg (by simpa using hnx)]
            exact Proc.exec_bind_pure (Proc.forEach visit n.entries) t db'
          · rw [if_neg hnx] at h
            obtain ⟨more, hmore, rfl⟩ := Option.map_eq_some_iff.mp h
            rw [if_pos hnx, Proc.exec_forEach_append]
            refine Proc.exec_bind_congr rfl fun u t' db'' he => ?_
            have ht' := Proc.keeps_forEach
              (fun entry he => hvisit entry (List.mem_append_left _ he)) t db' u t' db'' ht he
            exact ih (fun entry he => hvisit entry (List.mem_append_right _ he)) hmore ht'
        | node keys children =>
          obtain ⟨htype, -, hchildren⟩ := BTreeNode.shape_eq_node hshape
          rw [List.map_id] at hchildren
          simp only [hs] at h
          simp only [htype, hchildren]
          exact exec_scanChildren hvisit (fun c part hpart hkeep t db' ht =>
            ih hkeep hpart ht) h ht

end Visit

section Documents

-- The pages of the document in `p` are in use.
def Database.DocumentUsed (db : Database) (p : PageNum) : Prop :=
  ∀ q, Reaches db.pager.view p q → db.pager.Allocated q

theorem Untouched.version (h : Untouched db db') (hp : db.DocumentUsed p) :
    db'.version p = db.version p := by
  have hsame : SeesSame (Reaches db.pager.view p) ∅ db ∅ db' := by
    constructor
    · intro q hq page hpage r hr
      refine hq.tail ⟨page, ?_, hr⟩
      simp only [pageSeen, HashMap.get?_empty, Pager.readPage] at hpage
      cases hv : db.pager.view q with
      | none => simp [hv] at hpage
      | some page' => simpa [hv] using hpage
    · intro q hq
      simp only [pageSeen, HashMap.get?_empty, Pager.readPage, h q (hp q hq)]
  obtain ⟨r, he, he', _⟩ := readVersionedDocument_agree hsame Relation.ReflTransGen.refl () ()
  rw [Database.version, Database.version, he, he']

-- The fields of the document that is stored in a page.
def Database.storedDoc (db : Database) (p : PageNum) : Json.Map :=
  match db.version p with
  | .ok doc => (doc.data.bind Json.asObject).getD []
  | .error _ => []

-- The document in a page can be read, and `serde_json` reads its text as it was written.
def Database.ReadsBack [SerdeJson] (db : Database) (p : PageNum) : Prop :=
  ∃ doc fields, db.version p = .ok doc ∧ doc.data = some (.obj fields) ∧ (Json.obj fields).ReadBack

-- The document that the index is given for a page, if there is one.
def Database.indexedDoc [SerdeJson] (db : Database) (p : PageNum) : Option Json.Map :=
  match db.version p with
  | .ok doc => (TxCollection.parseMap doc).toOption
  | .error _ => none

theorem Database.ReadsBack.indexedDoc [SerdeJson] (h : db.ReadsBack p) :
    db.indexedDoc p = some (db.storedDoc p) := by
  obtain ⟨doc, fields, hversion, hdata, hback⟩ := h
  unfold Database.indexedDoc Database.storedDoc
  rw [hversion]
  simp only [TxCollection.parseMap, VersionedDocument.parse_of_readBack hdata hback, hdata]
  rfl

theorem exec_readIndexed [SerdeJson] (entry : LeafEntry) (t : BTree) (db : Database) :
    Proc.exec (readIndexed entry) t db = (.ok (db.indexedDoc entry.value), t, db) := by
  have hread : Proc.exec (catching (readVersionedDocument entry.value ∅)) t db =
      (.ok (db.version entry.value), t, db) := exec_version rfl entry.value t
  unfold readIndexed Database.indexedDoc
  rw [Proc.exec_bind_ok hread]
  cases db.version entry.value <;> rfl

theorem Untouched.indexedDoc [SerdeJson] (h : Untouched db db') (hp : db.DocumentUsed p) :
    db'.indexedDoc p = db.indexedDoc p := by
  rw [Database.indexedDoc, Database.indexedDoc, h.version hp]

end Documents

end JasonDb
