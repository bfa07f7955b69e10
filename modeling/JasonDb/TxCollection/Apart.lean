import JasonDb.Transaction.Rebase
import JasonDb.TxBTree.Insert
import JasonDb.TxCollection.FindAll

namespace JasonDb

open Lib SearchTree TxBTree

namespace TxBTree

variable {t t' : TxBTree} {db db' : Database} {rank : Rank} {T : PageTree}

theorem Holds.search_pages (h : Holds t db [T]) :
    ReadClosed (nodeSeen t db) fun p => t.actualPage p ∈ T.ptrs := by
  intro p hp n hn htype c hc
  obtain ⟨⟨q, s⟩, hcell, hq⟩ := List.mem_map.mp hp
  have hcell' : (q, s) ∈ [T].flatMap cells := by simpa using hcell
  obtain ⟨m, hread, -, -, hshape⟩ := h.exec_readNode hcell' hq.symm
  rw [exec_readNode_seen, hn] at hread
  obtain rfl : n = m := by simpa using hread
  refine (ptrs_perm T).mem_iff.mpr (List.mem_cons_of_mem _ (List.mem_flatMap.mpr ⟨_, hcell, ?_⟩))
  rw [← hshape]
  simp only [BTreeNode.shape, htype]
  exact List.mem_map_of_mem hc

-- A search that the pages of others do not matter for.
theorem Represents.exec_search_kept (h : Represents t db rank T) (hact : t'.actualPage = t.actualPage)
    (hroot : t'.getCurrentRoot = t.getCurrentRoot)
    (hcoherent : ∀ p page, t'.txWrites.get? p = some page → db'.pager.view p = some page)
    (halloc : ∀ p, db.pager.Allocated p → db'.pager.Allocated p)
    (hview : ∀ p ∈ T.ptrs, db'.pager.view p = db.pager.view p) (key : String) :
    Proc.exec (search key) t' db' = (lookup key T.entries, t', db') := by
  have hseen : ∀ p, t.actualPage p ∈ T.ptrs → nodeSeen t' db' p = nodeSeen t db p := by
    intro p hp
    unfold nodeSeen
    rw [hact, pageSeen_coherent hcoherent, pageSeen_coherent h.holds.wf.coherent]
    unfold Pager.readPage
    rw [hview _ hp]
  have hin : ∀ p, t.actualPage p ∈ T.ptrs → db.pager.Allocated p := by
    intro p hp
    cases hcow : t.cowPages.get? p with
    | none =>
      rw [actualPage_of_none hcow] at hp
      exact (h.holds.live p (by simpa using hp)).1
    | some q => exact (h.holds.wf.copied p q hcow).2.2
  have hclosed := h.holds.search_pages
  have hclosed' : ReadClosed (nodeSeen t' db') fun p => t.actualPage p ∈ T.ptrs := by
    intro p hp n hn
    rw [hseen p hp] at hn
    exact hclosed p hp n hn
  have hstart : t.actualPage t.getCurrentRoot ∈ T.ptrs := by
    rw [actualPage_of_none h.holds.wf.root, ← h.root]
    exact T.ptr_mem_ptrs
  have hagree := search_agree key hclosed hstart hroot hseen (fun p hp => (hin p hp).2.1)
    fun p hp => (halloc p (hin p hp)).2.1
  have hrun := exec_search_from key hclosed' (hroot ▸ hstart) fun p hp => (halloc p (hin p hp)).2.1
  rw [hrun, exec_search h key] at hagree
  exact hrun.trans (congrArg (fun r => (r, t', db')) hagree)

-- The same tree, with the pages of others written.
theorem Represents.advances (h : Represents t db rank T) (hheld : Held db t.txWrites)
    (ha : Advances db db') : Represents t db' rank T := by
  have hstore : ∀ p, db.pager.Allocated p → t.store db' p = t.store db p := by
    intro p hp
    unfold TxBTree.store Database.nodeAt
    rw [ha.view p hp]
  have hwf := h.holds.wf
  refine ⟨⟨⟨ha.wf, ?_, ?_, ?_, hwf.root⟩, ⟨?_, ?_⟩, ?_⟩, h.root, ⟨?_, ?_, h.ranked.act⟩, h.ordered⟩
  · intro p q hpq
    obtain ⟨hq, hp, halloc⟩ := hwf.copied p q hpq
    exact ⟨hq, hp, ha.alloc p halloc⟩
  · exact fun p hp => ha.alloc p (hwf.created p hp)
  · exact fun p page hp => ((hheld.advances ha) p page hp).2
  · intro cell hcell
    rw [hstore _ (h.holds.live_of_cell hcell).1]
    exact h.holds.stores.stored cell hcell
  · exact h.holds.stores.nodup
  · intro p hp
    exact ⟨ha.alloc p (h.holds.live p hp).1, (h.holds.live p hp).2⟩
  · intro p l hp
    rw [hstore _ (h.ranked.alloc p l hp)]
    exact h.ranked.link p l hp
  · exact fun p l hp => ha.alloc p (h.ranked.alloc p l hp)

end TxBTree

namespace TxCollection

variable {α β : Type} {S : Set PageNum} {c c' : TxCollection} {db db' : Database}

-- The pages of `S` are in use, and none is one an index of the handle may write to.
structure Apart (S : Set PageNum) (c : TxCollection) (db : Database) : Prop where
  owns : ∀ name, Owns (c.index name) db
  apart : ∀ name, ∀ p ∈ S, p ∉ (c.index name).newPages
  alloc : ∀ p ∈ S, db.pager.Allocated p

theorem Apart.coherent (h : Apart S c db) {p : PageNum} {page : Page}
    (hp : c.tx.writes.get? p = some page) : db.pager.view p = some page :=
  (h.owns "").coherent p page hp

-- The indexes have changed, and no page of `S`.
structure Spared (S : Set PageNum) (c : TxCollection) (db : Database) (c' : TxCollection)
    (db' : Database) : Prop where
  btree : c'.btree = c.btree
  name : c'.name = c.name
  tx : c'.tx = { c.tx with writes := c'.tx.writes }
  alloc : ∀ p, db.pager.Allocated p → db'.pager.Allocated p
  view : ∀ p ∈ S, db'.pager.view p = db.pager.view p

theorem Spared.refl (S : Set PageNum) (c : TxCollection) (db : Database) : Spared S c db c db :=
  ⟨rfl, rfl, rfl, fun _ h => h, fun _ _ => rfl⟩

theorem Spared.trans {c'' : TxCollection} {db'' : Database} (h : Spared S c db c' db')
    (h' : Spared S c' db' c'' db'') : Spared S c db c'' db'' where
  btree := h'.btree.trans h.btree
  name := h'.name.trans h.name
  tx := by rw [h'.tx, h.tx]
  alloc p hp := h'.alloc p (h.alloc p hp)
  view p hp := (h'.view p hp).trans (h.view p hp)

-- However `m` ends, it has written to no page of `S`.
def Spares (S : Set PageNum) (m : M α) : Prop :=
  ∀ c db, Apart S c db → ∀ r c' db', Proc.exec m c db = (r, c', db') →
    Apart S c' db' ∧ Spared S c db c' db'

section Rules

variable {m : M α} {f : α → M β}

theorem spares_of_same {r : TxCollection → Database → Except Error α}
    (h : ∀ c db, Proc.exec m c db = (r c db, c, db)) : Spares S m := by
  intro c db hc r' c' db' he
  obtain ⟨-, rfl, rfl⟩ : r c db = r' ∧ c = c' ∧ db = db' := by
    rw [h] at he
    simpa using he
  exact ⟨hc, Spared.refl S c db⟩

theorem spares_pure (a : α) : Spares S (pure a : M α) := spares_of_same fun _ _ => rfl

theorem spares_fail (e : Error) : Spares S (Proc.fail e : M α) := spares_of_same fun _ _ => rfl

theorem spares_getLocal : Spares S (Proc.getLocal : M TxCollection) := spares_of_same fun _ _ => rfl

theorem Spares.bind (h : Spares S m) (hf : ∀ a, Spares S (f a)) : Spares S (m >>= f) := by
  intro c db hc r c'' db'' he
  rcases hm : Proc.exec m c db with ⟨r', c', db'⟩
  obtain ⟨hc', hspared⟩ := h c db hc r' c' db' hm
  rw [Proc.exec_bind, hm] at he
  cases r' with
  | error e =>
    obtain ⟨-, rfl, rfl⟩ : .error e = r ∧ c' = c'' ∧ db' = db'' := by simpa using he
    exact ⟨hc', hspared⟩
  | ok a =>
    obtain ⟨hc'', hspared'⟩ := hf a c' db' hc' r c'' db'' he
    exact ⟨hc'', hspared.trans hspared'⟩

theorem spares_forEach {f : α → M Unit} (items : List α) (hf : ∀ a, Spares S (f a)) :
    Spares S (Proc.forEach f items) := by
  induction items with
  | nil => exact spares_pure ()
  | cons a rest ih => exact (hf a).bind fun _ => ih

end Rules

theorem index_putIndex (name other : String) (t : TxBTree) (c : TxCollection) :
    index other (putIndex name t c) =
      if other = name then t else { c.index other with txWrites := t.txWrites } := by
  unfold index putIndex
  simp only [HashMap.get?_insert]
  split
  · rfl
  · rfl

-- An index writes to pages of its own.
theorem spares_onIndex {m : TreeM α} (name : String)
    (hm : ∀ t db, Owns t db → Confined t db m fun _ _ => True) : Spares S (onIndex name m) := by
  intro c db hc r c' db' he
  unfold onIndex at he
  rcases hrun : Proc.exec m (c.index name) db with ⟨r₁, t, db₁⟩
  obtain ⟨ho, hon, -⟩ := hm _ db (hc.owns name) r₁ t db₁ hrun
  rw [Proc.exec_zoom, hrun] at he
  obtain ⟨-, rfl, rfl⟩ : r₁ = r ∧ putIndex name t c = c' ∧ db₁ = db' := by simpa using he
  have hold : ∀ p ∈ S, p ∉ t.newPages := by
    intro p hp hnew
    rcases hon.fresh p hnew with hp' | hp'
    · exact hc.apart name p hp hp'
    · exact hp' (hc.alloc p hp)
  refine ⟨⟨fun other => ?_, fun other p hp => ?_, fun p hp => hon.alloc p (hc.alloc p hp)⟩, rfl, rfl,
    rfl, hon.alloc, fun p hp => hon.view p (hold p hp)⟩
  · rw [index_putIndex]
    split
    · exact ho
    · have hother := hc.owns other
      exact ⟨ho.pager, hother.copies, fun p hp => hon.alloc p (hother.created p hp), hother.root,
        hother.moved, ho.coherent⟩
  · rw [index_putIndex]
    split
    · exact hold p hp
    · exact hc.apart other p hp

theorem spares_insertIndexEntry (docId : String) (doc : Json.Map) (pageNum : PageNum) (name : String) :
    Spares S (insertIndexEntry docId doc pageNum name) := by
  refine spares_getLocal.bind fun c => ?_
  cases c.indexMeta.get? name with
  | none => exact spares_fail _
  | some indexMeta =>
    simp only
    have hrest : ∀ taken : Bool, Spares S (if taken then
          Proc.fail (uniqueViolation name (Json.extractFieldValues doc indexMeta.getFields))
        else onIndex name (TxBTree.insert
          (serializeIndexKey (Json.extractFieldValues doc indexMeta.getFields) docId) pageNum)) := by
      intro taken
      split
      · exact spares_fail _
      · exact spares_onIndex name fun _ _ ho => confined_insert ho
    split
    · exact (spares_onIndex name fun _ _ ho => confined_hasPrefix ho).bind hrest
    · exact (spares_pure false).bind hrest

end TxCollection

end JasonDb
