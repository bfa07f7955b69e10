import JasonDb.TxBTree.Path

namespace JasonDb.TxBTree

open Lib SearchTree

variable {t : TxBTree} {db : Database} {rank : Rank} {Q : LeafPred PageNum String LeafEntry}

-- The pointer `find_child` takes is the one to the child whose range has the key.
theorem findChild_hole {f : PageNum → PageNum} {n : BTreeNode} {fr : PageFrame} {c : PageTree}
    {lo hi : Bound String} {key : String} (hkeys : n.keys = fr.keys)
    (hchildren : n.children.map f = fr.left.map ptr ++ c.ptr :: fr.right.map ptr)
    (hleft : AllLeft Q lo hi fr.lkeys fr.left)
    (hright : AllRight Q (loOf lo fr.lkeys) hi fr.rkeys fr.right) (hlt : lo < hi)
    (hlo : loOf lo fr.lkeys ≤ .key key) (hhi : .key key < hiOf hi fr.rkeys) :
    ∃ r, findChild n key = .ok r ∧ f r = c.ptr := by
  have hidx := findIdx_hole hleft hlt hlo hhi
  unfold findChild
  rw [hkeys]
  by_cases hr : fr.rkeys = []
  · rw [if_pos hr] at hidx
    have hright0 : fr.right = [] := by
      rw [hr] at hright
      match hfr : fr.right, hright with
      | [], _ => rfl
      | _ :: _, h => simp [AllRight] at h
    have hlast : (n.children.map f).getLast? = some c.ptr := by
      rw [hchildren, hright0]
      simp
    rw [List.getLast?_map, Option.map_eq_some_iff] at hlast
    obtain ⟨r, hr, hfr⟩ := hlast
    refine ⟨r, ?_, hfr⟩
    simp only [hidx, hr]
  · rw [if_neg hr] at hidx
    have hget : (n.children.map f)[fr.lkeys.length]? = some c.ptr := by
      rw [hchildren, fr.balanced, List.getElem?_append_right (by simp)]
      simp
    rw [List.getElem?_map, Option.map_eq_some_iff] at hget
    obtain ⟨r, hr, hfr⟩ := hget
    refine ⟨r, ?_, hfr⟩
    simp only [hidx, hr]

theorem exec_ofExcept_ok {α : Type} {a : α} {r : Except Error α} (h : r = .ok a) (t : TxBTree)
    (db : Database) : Proc.exec (Proc.ofExcept r) t db = (.ok a, t, db) := by
  subst h
  rfl

theorem exec_findLeaf {fuel : Nat} {n : BTreeNode} {path : List PageNum} {ctx : List PageFrame}
    {sub : PageTree} {key : String} (h : Holds t db [plug ctx sub])
    (hn : db.nodeAt sub.ptr = some n) (hpath : PathTo t path ctx sub.ptr)
    (hall : All Q ⊥ ⊤ (plug ctx sub)) (hlo : (holeRange ⊥ ⊤ ctx).1 ≤ .key key)
    (hhi : .key key < (holeRange ⊥ ⊤ ctx).2) (hfuel : sub.height ≤ fuel) :
    ∃ n' path' ctx' p es nx, Proc.exec (findLeaf fuel n key path) t db = (.ok (n', path'), t, db) ∧
      plug ctx sub = plug ctx' (leaf p es nx) ∧ db.nodeAt p = some n' ∧
      n'.shape t.actualPage = .leaf es nx ∧ PathTo t path' ctx' p ∧
      (holeRange ⊥ ⊤ ctx').1 ≤ .key key ∧ .key key < (holeRange ⊥ ⊤ ctx').2 := by
  induction fuel generalizing n path ctx sub with
  | zero =>
    have := sub.height_pos
    omega
  | succ fuel ih =>
    have hcell : (sub.ptr, sub.shape) ∈ [plug ctx sub].flatMap cells := by
      simpa using mem_cells_plug sub.root_mem_cells
    obtain ⟨m, hm, hpage, hshape⟩ := h.nodeAt hcell
    obtain rfl : n = m := Option.some.inj (hn.symm.trans hm)
    cases sub with
    | leaf p es nx =>
      obtain ⟨htype, _, _⟩ := BTreeNode.shape_eq_leaf hshape
      refine ⟨n, path, ctx, p, es, nx, ?_, rfl, hn, hshape, hpath, hlo, hhi⟩
      simp only [findLeaf, htype]
      rfl
    | node p keys children =>
      obtain ⟨htype, hkeys, hchildren⟩ := BTreeNode.shape_eq_node hshape
      obtain ⟨houter, hsub⟩ := (all_plug ctx _).mp hall
      have hlt := (houter.bounds bot_lt_top).2.1
      obtain ⟨fr, c, heq, hlo', hhi'⟩ := AllForest.exists_hole hsub hlo hhi p
      rw [heq] at h hall hsub hpath hfuel ⊢
      simp only [Frame.fill, node.injEq] at heq
      obtain ⟨rfl, hk, hc⟩ := heq
      obtain ⟨hleft, hright, _⟩ := (all_fill fr c).mp hsub
      obtain ⟨r, hfind, hr⟩ := findChild_hole (c := c) (hkeys.trans hk)
        (hchildren.trans (by rw [hc]; simp)) hleft hright hlt hlo' hhi'
      have hfill : plug ctx (fr.fill c) = plug (fr :: ctx) c := rfl
      rw [hfill] at h hall ⊢
      have hcellc : (c.ptr, c.shape) ∈ [plug (fr :: ctx) c].flatMap cells := by
        simpa using mem_cells_plug c.root_mem_cells
      obtain ⟨m, hread, hm', _, _⟩ := h.exec_readNode hcellc hr
      have hheight : c.height ≤ fuel := by
        have hle := height_le_heightAll (show c ∈ fr.left ++ c :: fr.right by simp)
        simp only [Frame.fill, height] at hfuel
        omega
      have hpath' : PathTo t (r :: path) (fr :: ctx) c.ptr := by
        unfold PathTo at hpath ⊢
        rw [List.map_cons, hpath, hr]
        rfl
      obtain ⟨n', path', ctx', p', es, nx, he, hrest⟩ := ih h hm' hpath' hall hlo' hhi' hheight
      refine ⟨n', path', ctx', p', es, nx, ?_, hrest⟩
      simp only [findLeaf, htype]
      rw [Proc.exec_bind_ok (exec_ofExcept_ok hfind t db), Proc.exec_bind_ok hread]
      exact he

-- A tree in the file is no higher than the file has pages.
theorem Holds.height_le {T : PageTree} (h : Holds t db [T]) : T.height ≤ db.pager.numPages := by
  refine T.height_le_length_ptrs.trans ?_
  have hnd : T.ptrs.Nodup := by simpa using h.stores.nodup_ptrs
  have hsub : T.ptrs ⊆ List.range db.pager.numPages := by
    intro p hp
    exact List.mem_range.mpr (h.live p (by simpa using hp)).1.2.1
  simpa using (List.subperm_of_subset hnd hsub).length_le

theorem exec_walkBound (t : TxBTree) (db : Database) :
    Proc.exec (walkBound : TreeM Nat) t db = (.ok (db.pager.numPages + 1), t, db) := rfl

-- The descent all operations start with.
theorem Represents.descend {T : PageTree} (h : Represents t db rank T) (key : String) :
    ∃ root leafNode path ctx p es nx,
      Proc.exec (readNode t.getCurrentRoot) t db = (.ok root, t, db) ∧
      Proc.exec (findLeaf (db.pager.numPages + 1) root key [t.getCurrentRoot]) t db =
        (.ok (leafNode, path), t, db) ∧
      T = plug ctx (leaf p es nx) ∧ db.nodeAt p = some leafNode ∧ leafNode.pageNum = p ∧
      leafNode.shape t.actualPage = .leaf es nx ∧ PathTo t path ctx p ∧
      (holeRange ⊥ ⊤ ctx).1 ≤ .key key ∧ .key key < (holeRange ⊥ ⊤ ctx).2 := by
  have hroot : t.actualPage t.getCurrentRoot = T.ptr := by
    rw [actualPage_of_none h.holds.wf.root, h.root]
  have hcell : (T.ptr, T.shape) ∈ [T].flatMap cells := by simpa using T.root_mem_cells
  obtain ⟨root, hread, hn, _, _⟩ := h.holds.exec_readNode hcell hroot
  obtain ⟨leafNode, path, ctx, p, es, nx, he, heq, hp, hs, hpath, hlo, hhi⟩ :=
    exec_findLeaf (show Holds t db [plug [] T] from h.holds) hn
      (show PathTo t [t.getCurrentRoot] [] T.ptr by simp [PathTo, hroot]) h.ordered bot_le
      (WithBot.coe_lt_coe.mpr (WithTop.coe_lt_top key)) (Nat.le_succ_of_le h.holds.height_le)
  exact ⟨root, leafNode, path, ctx, p, es, nx, hread, he, heq, hp, Database.nodeAt_pageNum hp, hs,
    hpath, hlo, hhi⟩

theorem LeafOk.sorted {rank : Rank} : ∀ lo hi p es nx, LeafOk rank lo hi p es nx →
    LeafSorted LeafEntry.key lo hi p es nx := fun _ _ _ _ _ h => h.1

-- Outside the leaf of a key there is no entry for it.
theorem Represents.key_outside {T : PageTree} (h : Represents t db rank T) {ctx : List PageFrame}
    {p nx : PageNum} {es : List LeafEntry} (hT : T = plug ctx (leaf p es nx)) {key : String}
    (hlo : (holeRange ⊥ ⊤ ctx).1 ≤ .key key) (hhi : .key key < (holeRange ⊥ ⊤ ctx).2) :
    (∀ e ∈ entriesBefore ctx, e.key < key) ∧ ∀ e ∈ entriesAfter ctx, key < e.key := by
  have houter := ((all_plug ctx _).mp (hT ▸ h.ordered)).1
  constructor
  · intro e he
    have hlt := houter.entriesBefore_lt LeafOk.sorted bot_lt_top e he
    exact Bound.key_lt_key.mp (lt_of_lt_of_le hlt hlo)
  · intro e he
    have hle := houter.le_entriesAfter LeafOk.sorted bot_lt_top e he
    exact Bound.key_lt_key.mp (lt_of_lt_of_le hhi hle)

-- What `search` returns, from all entries of the tree.
def lookup (key : String) (es : List LeafEntry) : Except Error PageNum :=
  match es.find? (·.key = key) with
  | some entry => .ok entry.value
  | none => .error (notFound key)

theorem find?_middle {key : String} {before es after : List LeafEntry}
    (hb : ∀ e ∈ before, e.key ≠ key) (ha : ∀ e ∈ after, e.key ≠ key) :
    (before ++ es ++ after).find? (·.key = key) = es.find? (·.key = key) := by
  have hb' : before.find? (·.key = key) = none := by simpa using hb
  have ha' : after.find? (·.key = key) = none := by simpa using ha
  rw [List.find?_append, List.find?_append, hb', ha']
  simp

theorem exec_search {T : PageTree} (h : Represents t db rank T) (key : String) :
    Proc.exec (search key) t db = (lookup key T.entries, t, db) := by
  obtain ⟨root, n, path, ctx, p, es, nx, hread, hfind, hT, hn, hpage, hshape, hpath, hlo, hhi⟩ :=
    h.descend key
  obtain ⟨_, hes, _⟩ := BTreeNode.shape_eq_leaf hshape
  obtain ⟨hb, ha⟩ := h.key_outside hT hlo hhi
  have hlook : T.entries.find? (·.key = key) = es.find? (·.key = key) := by
    rw [hT, entries_plug]
    exact find?_middle (fun e he => (hb e he).ne) (fun e he => (ha e he).ne')
  unfold search
  rw [Proc.exec_bind_ok (Proc.exec_getLocal t db), Proc.exec_bind_ok (exec_walkBound t db),
    Proc.exec_bind_ok hread, Proc.exec_bind_ok hfind]
  simp only [hes, lookup, hlook]
  cases es.find? (·.key = key) <;> rfl

end JasonDb.TxBTree
