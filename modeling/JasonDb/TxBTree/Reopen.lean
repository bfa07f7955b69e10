import JasonDb.Lib.SearchTree.Relink
import JasonDb.TxBTree.Insert
import JasonDb.TxBTree.WellFormed

namespace JasonDb.TxBTree

open Lib SearchTree

variable {t : TxBTree} {db : Database} {rank : Rank} {T : PageTree}

-- The link in the page of a leaf, as a handle without copies follows it.
def rawLink (db : Database) (p : PageNum) : PageNum := ((db.nodeAt p).map (·.nextLeaf)).getD 0

theorem Represents.raw_cell (h : Represents t db rank T) (hS : Settled t db [T] ∅) {p : PageNum}
    {s : PageShape} (hc : (p, s) ∈ T.cells) :
    ∃ n, db.nodeAt p = some n ∧ n.shape t.actualPage = s ∧
      n.shape id = s.relink n.nextLeaf := by
  obtain ⟨n, hn, _, hs⟩ := h.holds.nodeAt (by simpa using hc)
  refine ⟨n, hn, hs, ?_⟩
  cases s with
  | leaf es nx =>
    obtain ⟨htype, hes, _⟩ := BTreeNode.shape_eq_leaf hs
    simp [BTreeNode.shape, htype, hes, Shape.relink]
  | node keys children =>
    obtain ⟨htype, hkeys, hch⟩ := BTreeNode.shape_eq_node hs
    have hp : p ∈ [T].flatMap ptrs := by
      simpa [ptrs] using List.mem_map_of_mem (f := Prod.fst) hc
    have hraw : n.children.map t.actualPage = n.children := by
      refine (List.map_congr_left fun c hc => ?_).trans (List.map_id _)
      by_contra hne
      exact hS p hp n hn c (by simpa [BTreeNode.links, htype] using hc) hne
    simp [BTreeNode.shape, htype, hkeys, Shape.relink, ← hch, hraw]

-- A tree without stale child pointers, as a handle sees it that starts at its root.
theorem Represents.reopen (h : Represents t db rank T) (hS : Settled t db [T] ∅)
    {w : HashMap PageNum Page} (hw : Coherent w db) :
    Represents (new t.getCurrentRoot w) db rank (T.relink (rawLink db)) := by
  have hraw : ∀ p s, (p, s) ∈ T.cells →
      (new t.getCurrentRoot w).store db p = some (s.relink (rawLink db p)) := by
    intro p s hc
    obtain ⟨n, hn, _, hs⟩ := h.raw_cell hS hc
    simp [TxBTree.store, hn, hs, rawLink]
  refine ⟨⟨⟨h.holds.wf.pager, ?_, ?_, hw, ?_⟩, ⟨?_, ?_⟩, ?_⟩, ?_, ⟨?_, h.ranked.alloc, by simp⟩, ?_⟩
  · simp [new, HashMap.get?_empty]
  · exact fun p hp => absurd hp (not_mem_newPages_new _ _ p)
  · simp [new, HashMap.get?_empty]
  · rintro ⟨p, s⟩ hc
    simp only [List.flatMap_cons, List.flatMap_nil, List.append_nil, cells_relink,
      List.mem_map] at hc
    obtain ⟨⟨p', s'⟩, hc, heq⟩ := hc
    obtain ⟨rfl, rfl⟩ := Prod.mk.inj heq
    exact hraw p' s' hc
  · have := h.holds.stores.nodup
    rw [map_fst_flatMap_cells] at this ⊢
    simpa using this
  · intro p hp
    refine ⟨(h.holds.live p (by simpa using hp)).1, ?_⟩
    simp [new, HashMap.get?_empty]
  · rw [ptr_relink, h.root, getCurrentRoot_new]
  · intro p l hp
    obtain ⟨s, hs, es, nx, rfl, hl⟩ := h.ranked.link p l hp
    simp only [TxBTree.store, Option.map_eq_some_iff] at hs
    obtain ⟨n, hn, hshape⟩ := hs
    obtain ⟨htype, hes, hnx⟩ := BTreeNode.shape_eq_leaf hshape
    refine ⟨.leaf es n.nextLeaf, ?_, es, n.nextLeaf, rfl, fun hne => ?_⟩
    · simp [TxBTree.store, hn, BTreeNode.shape, htype, hes]
    · obtain ⟨l', hl', hlt⟩ := hl (hnx ▸ h.holds.wf.actualPage_ne_zero hne)
      exact ⟨l', h.ranked.act _ _ (by rw [hnx, hl']), hlt⟩
  · refine h.ordered.relink fun lo hi p es nx hc hok => ⟨hok.1, hok.2.1, fun hne => ?_⟩
    obtain ⟨n, hn, hshape, _⟩ := h.raw_cell hS hc
    obtain ⟨_, _, hnx⟩ := BTreeNode.shape_eq_leaf hshape
    have hlink : rawLink db p = n.nextLeaf := by simp [rawLink, hn]
    rw [hlink] at hne ⊢
    obtain ⟨l, hl, hle⟩ := hok.2.2 (hnx ▸ h.holds.wf.actualPage_ne_zero hne)
    exact ⟨l, h.ranked.act _ _ (by rw [hnx, hl]), hle⟩

-- One call on a handle.
inductive TreeOp where
  | insert (key : String) (value : PageNum)
  | update (key : String) (value : PageNum)
  | delete (key : String)

def TreeOp.run : TreeOp → TreeM Unit
  | .insert key value => TxBTree.insert key value
  | .update key value => TxBTree.update key value
  | .delete key => TxBTree.delete key

-- The handle and the database after the calls, of which some may have failed.
def runOps (ops : List TreeOp) (t : TxBTree) (db : Database) : TxBTree × Database :=
  ops.foldl (fun s op => (Proc.exec op.run s.1 s.2).2) (t, db)

-- The call splits only inner nodes that the handle has already copied or created.
def TreeOp.SplitsOwn (op : TreeOp) (t : TxBTree) (db : Database) : Prop :=
  match op with
  | .insert key _ => ∀ pages, (Proc.exec (splitNodes key) t db).1 = .ok pages →
      ∀ p ∈ pages, p ∈ t.newPages
  | _ => True

def SplitsOwn : List TreeOp → TxBTree → Database → Prop
  | [], _, _ => True
  | op :: ops, t, db => op.SplitsOwn t db ∧
      SplitsOwn ops (Proc.exec op.run t db).2.1 (Proc.exec op.run t db).2.2

-- The tree of a handle has no stale child pointers and differs from that of `t` in what
-- the handle wrote.
def Clean (t : TxBTree) (db : Database) (t' : TxBTree) (db' : Database) : Prop :=
  ∃ rank T, Represents t' db' rank T ∧ Settled t' db' [T] ∅ ∧ Extends t db t' db'

theorem Clean.of_becomes {t₁ t₂ : TxBTree} {db₁ db₂ : Database} {es : List LeafEntry}
    {U : Set PageNum} (hS : Settled t₁ db₁ [T] ∅) (hext : Extends t db t₁ db₁)
    (hU : ∀ x, x ∉ U) (h : Becomes t₁ db₁ T es U t₂ db₂) : Clean t db t₂ db₂ := by
  obtain ⟨T', rank', h', _, hext', hS'⟩ := h
  refine ⟨rank', T', h', (hS' ∅ hS).mono ?_, hext.trans hext'⟩
  rintro x (hx | hx)
  · exact hx
  · exact absurd hx (hU x)

-- One call keeps the tree free of stale pointers.
theorem Clean.step {t₁ : TxBTree} {db₁ : Database} {op : TreeOp} (h : Clean t db t₁ db₁)
    (hop : op.SplitsOwn t₁ db₁) :
    Clean t db (Proc.exec op.run t₁ db₁).2.1 (Proc.exec op.run t₁ db₁).2.2 := by
  obtain ⟨rank, T, hrep, hS, hext⟩ := h
  cases op with
  | insert key value =>
    obtain ⟨pages, t₂, db₂, hnodes, he, hbec⟩ := exec_insert hrep key value
    rw [TreeOp.run, he]
    refine Clean.of_becomes hS hext ?_ hbec
    rintro x ⟨hx, hnew⟩
    exact hnew (hop pages (by rw [hnodes]) x hx)
  | update key value =>
    obtain ⟨hfound, hmissing⟩ := exec_update hrep key value
    by_cases hk : ∃ e ∈ T.entries, e.key = key
    · obtain ⟨t₂, db₂, he, hbec⟩ := hfound hk
      rw [TreeOp.run, he]
      exact Clean.of_becomes hS hext (by simp) hbec
    · rw [TreeOp.run, hmissing (by simpa using hk)]
      exact ⟨rank, T, hrep, hS, hext⟩
  | delete key =>
    obtain ⟨hfound, hmissing⟩ := exec_delete hrep key
    by_cases hk : ∃ e ∈ T.entries, e.key = key
    · obtain ⟨t₂, db₂, he, hbec⟩ := hfound hk
      rw [TreeOp.run, he]
      exact Clean.of_becomes hS hext (by simp) hbec
    · rw [TreeOp.run, hmissing (by simpa using hk)]
      exact ⟨rank, T, hrep, hS, hext⟩

theorem Clean.runOps {t₁ : TxBTree} {db₁ : Database} {ops : List TreeOp} (h : Clean t db t₁ db₁)
    (hops : SplitsOwn ops t₁ db₁) :
    Clean t db (runOps ops t₁ db₁).1 (TxBTree.runOps ops t₁ db₁).2 := by
  induction ops generalizing t₁ db₁ with
  | nil => exact h
  | cons op ops ih => exact ih (h.step hops.1) hops.2

theorem WellFormed.clean {root : PageNum} {w : HashMap PageNum Page}
    (h : WellFormed root w db) : Clean (new root w) db (new root w) db := by
  obtain ⟨rank, T, h⟩ := h
  refine ⟨rank, T, h, fun x hx m hm c hc hne => ?_, Extends.refl _ _⟩
  simp at hne

-- Search after the calls, in the handle and in one opened at its root: on the pages of the
-- database, and on those the handle passes on.
theorem search_reopened {root : PageNum} {w : HashMap PageNum Page} {ops : List TreeOp}
    (h : WellFormed root w db) (hops : SplitsOwn ops (new root w) db) (key : String) :
    let s := runOps ops (new root w) db
    (Proc.exec (search key) (new s.1.getCurrentRoot ∅) s.2).1 = (Proc.exec (search key) s.1 s.2).1 ∧
      (Proc.exec (search key) (new s.1.getCurrentRoot s.1.txWrites) s.2).1 =
        (Proc.exec (search key) s.1 s.2).1 := by
  obtain ⟨rank, T, hrep, hS, _⟩ := h.clean.runOps hops
  have hreopen : ∀ w', Coherent w' (runOps ops (new root w) db).2 →
      (Proc.exec (search key) (new (runOps ops (new root w) db).1.getCurrentRoot w')
        (runOps ops (new root w) db).2).1 =
      (Proc.exec (search key) (runOps ops (new root w) db).1
        (runOps ops (new root w) db).2).1 := by
    intro w' hw
    rw [exec_search hrep key, exec_search (hrep.reopen hS hw) key, entries_relink]
  exact ⟨hreopen ∅ (by simp [Coherent, HashMap.get?_empty]), hreopen _ hrep.holds.wf.coherent⟩

section FullRoot

def letter (n : Nat) : String := String.ofList [Char.ofNat (256 + n)]

-- A root with 50 separators over 51 leaves, the first of them full.
def fullTree : PageTree :=
  .node 2 ((List.range 50).map fun i => letter (200 + i))
    (.leaf 3 ((List.range 50).map fun i => ⟨letter (2 * i), 100 + i⟩) 4 ::
      (List.range 50).map fun i =>
        .leaf (4 + i) [⟨letter (200 + i), 200 + i⟩] (if i < 49 then 5 + i else 0))

set_option maxRecDepth 100000 in
theorem wellFormed_fullTree : WellFormed 2 ∅ (dbOf fullTree 400) :=
  wellFormed_dbOf (T := fullTree) (by decide +kernel) (by decide +kernel) (by decide +kernel)

set_option maxRecDepth 100000 in
-- The root is copied by the update, so the split that follows is of the copy.
theorem search_reopened_copied :
    let s := runOps [.update (letter 0) 9, .insert (letter 1) 7] (new 2 ∅) (dbOf fullTree 400)
    (Proc.exec (search (letter 1)) (new s.1.getCurrentRoot ∅) s.2).1 =
      (Proc.exec (search (letter 1)) s.1 s.2).1 ∧
    (Proc.exec (search (letter 1)) (new s.1.getCurrentRoot s.1.txWrites) s.2).1 =
      (Proc.exec (search (letter 1)) s.1 s.2).1 := by
  refine search_reopened wellFormed_fullTree
    (show SplitsOwn [.update (letter 0) 9, .insert (letter 1) 7] _ _ from ⟨trivial, ?_, trivial⟩)
    (letter 1)
  intro pages hpages
  have hrun : (Proc.exec (splitNodes (letter 1))
      (Proc.exec (TreeOp.update (letter 0) 9).run (new 2 ∅) (dbOf fullTree 400)).2.1
      (Proc.exec (TreeOp.update (letter 0) 9).run (new 2 ∅) (dbOf fullTree 400)).2.2).1 =
      .ok [401] := by decide +kernel
  rw [hrun] at hpages
  obtain rfl := Except.ok.inj hpages
  decide +kernel

set_option maxRecDepth 100000 in
-- The new root gets a pointer to the page of the old one, which still has the old tree.
theorem search_reopened_uncopied : WellFormed 2 ∅ (dbOf fullTree 400) ∧
    let s := runOps [.insert (letter 1) 7] (new 2 ∅) (dbOf fullTree 400)
    (Proc.exec (search (letter 1)) s.1 s.2).1 = .ok 7 ∧
    (Proc.exec (search (letter 1)) (new s.1.getCurrentRoot ∅) s.2).1 =
      .error (notFound (letter 1)) ∧
    (Proc.exec (search (letter 1)) (new s.1.getCurrentRoot s.1.txWrites) s.2).1 =
      .error (notFound (letter 1)) :=
  ⟨wellFormed_fullTree, by decide +kernel⟩

end FullRoot

end JasonDb.TxBTree
