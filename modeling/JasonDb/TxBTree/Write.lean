import JasonDb.TxBTree.Handle

namespace JasonDb.TxBTree

open Lib SearchTree

-- A handle and the database after some of the handle's steps: only pages the
-- handle created were written, and these were unused before.
structure Extends (t : TxBTree) (db : Database) (t' : TxBTree) (db' : Database) : Prop where
  new : ∀ x ∈ t.newPages, x ∈ t'.newPages
  fresh : ∀ x ∈ t'.newPages, x ∈ t.newPages ∨ ¬ db.pager.Allocated x
  alloc : ∀ x, db.pager.Allocated x → db'.pager.Allocated x
  view : ∀ x, x ∉ t'.newPages → db'.pager.view x = db.pager.view x
  writes : ∀ x, x ∉ t'.newPages → t'.txWrites.get? x = t.txWrites.get? x
  snapshot : t'.snapshotRoot = t.snapshotRoot
  shared : db' = { db with pager := db'.pager }
  pager : db.pager.Frame db'.pager

theorem Extends.refl (t : TxBTree) (db : Database) : Extends t db t db :=
  ⟨fun _ h => h, fun _ h => Or.inl h, fun _ h => h, fun _ _ => rfl, fun _ _ => rfl, rfl, rfl,
    Pager.Frame.refl _⟩

theorem Extends.trans {t t' t'' : TxBTree} {db db' db'' : Database} (h : Extends t db t' db')
    (h' : Extends t' db' t'' db'') : Extends t db t'' db'' where
  new x hx := h'.new x (h.new x hx)
  fresh x hx := by
    rcases h'.fresh x hx with hx | hx
    · exact h.fresh x hx
    · exact Or.inr fun ha => hx (h.alloc x ha)
  alloc x hx := h'.alloc x (h.alloc x hx)
  view x hx := (h'.view x hx).trans (h.view x fun hn => hx (h'.new x hn))
  writes x hx := (h'.writes x hx).trans (h.writes x fun hn => hx (h'.new x hn))
  snapshot := h'.snapshot.trans h.snapshot
  shared := by rw [h'.shared, h.shared]
  pager := h.pager.trans h'.pager

-- What `write_node` does with a node read from, or newly placed at, its page.
structure Wrote (t : TxBTree) (db : Database) (n : BTreeNode) (q : PageNum) (t' : TxBTree)
    (db' : Database) : Prop where
  target : (n.pageNum ∈ t.newPages ∧ q = n.pageNum) ∨
    (n.pageNum ∉ t.newPages ∧ ¬ db.pager.Allocated q)
  act : t'.actualPage = relocate n.pageNum q ∘ t.actualPage
  root : t'.getCurrentRoot = relocate n.pageNum q t.getCurrentRoot
  node : db'.nodeAt q = some { n with pageNum := q }
  others : ∀ x, x ≠ q → db'.pager.view x = db.pager.view x
  new : ∀ x, x ∈ t'.newPages ↔ x = q ∨ x ∈ t.newPages
  used : db'.pager.Allocated q
  wf : t'.WF db'
  ext : Extends t db t' db'

theorem Wrote.nodeAt_of_ne {t t' : TxBTree} {db db' : Database} {n : BTreeNode} {q x : PageNum}
    (h : Wrote t db n q t' db') (hx : x ≠ q) : db'.nodeAt x = db.nodeAt x := by
  unfold Database.nodeAt
  rw [h.others x hx]

theorem Wrote.store {t t' : TxBTree} {db db' : Database} {n : BTreeNode} {q : PageNum}
    (h : Wrote t db n q t' db') :
    t'.store db' = writeAt (t.store db) n.pageNum q (n.shape t.actualPage) := by
  funext x
  unfold TxBTree.store writeAt
  rw [h.act]
  by_cases hx : x = q
  · subst hx
    simp only [h.node, Option.map_some, ↓reduceIte]
    rw [← BTreeNode.shape_comp]
    rfl
  · simp only [h.nodeAt_of_ne hx, hx, ↓reduceIte, Option.map_map]
    congr 1
    funext m
    exact BTreeNode.shape_comp _ _ m

-- A handle with the page of a node chosen, before the node is written.
structure Placed (t : TxBTree) (db : Database) (p q : PageNum) (t' : TxBTree)
    (db' : Database) : Prop where
  target : (p ∈ t.newPages ∧ q = p) ∨ (p ∉ t.newPages ∧ ¬ db.pager.Allocated q)
  act : t'.actualPage = relocate p q ∘ t.actualPage
  root : t'.getCurrentRoot = relocate p q t.getCurrentRoot
  view : db'.pager.view = db.pager.view
  writes : t'.txWrites = t.txWrites
  new : ∀ x, x ∈ t'.newPages ↔ x = q ∨ x ∈ t.newPages
  used : db'.pager.Allocated q
  wf : t'.WF db'
  ext : Extends t db t' db'

theorem exec_allocPageMinimum {ℓ : Type} {l : ℓ} {db : Database} (h : db.pager.WF)
    (min : PageNum) :
    ∃ q p', Proc.exec (allocPageMinimum min) l db = (.ok q, l, { db with pager := p' }) ∧
      db.pager.Allocates q p' := by
  obtain ⟨q, p', he, ha⟩ := Pager.allocPageMinimum_spec h min
  exact ⟨q, p', by simp [allocPageMinimum, Proc.exec_atomicE, he], ha⟩

-- The records of the copies stay right when a page is allocated.
theorem WF.copied_insert {t : TxBTree} {db : Database} (h : t.WF db) {q : PageNum} {p' : Pager}
    (ha : db.pager.Allocates q p') {x y : PageNum} (hxy : t.cowPages.get? x = some y) :
    y ∈ t.newPages.insert q true ∧ x ∉ t.newPages.insert q true ∧ p'.Allocated x := by
  obtain ⟨h1, h2, h3⟩ := h.copied x y hxy
  simp only [HashMap.mem_insert]
  exact ⟨Or.inr h1, fun hm => hm.elim (fun e => ha.unused (e ▸ h3)) h2, ha.keeps x h3⟩

theorem WF.created_insert {t : TxBTree} {db : Database} (h : t.WF db) {q : PageNum} {p' : Pager}
    (ha : db.pager.Allocates q p') (x : PageNum) (hx : x ∈ t.newPages.insert q true) : p'.Allocated x := by
  rcases HashMap.mem_insert.mp hx with rfl | hx
  · exact ha.used
  · exact ha.keeps x (h.created x hx)

-- The copy of an old page.
theorem placed_copy {t : TxBTree} {db : Database} (h : t.WF db) {p q : PageNum} {p' : Pager}
    (hp : db.pager.Allocated p) (hcow : t.cowPages.get? p = none) (hnew : p ∉ t.newPages)
    (ha : db.pager.Allocates q p') :
    Placed t db p q
      { t with
        cowPages := t.cowPages.insert p q
        newPages := t.newPages.insert q true
        modifiedRoot := if p = t.getCurrentRoot then q else t.modifiedRoot }
      { db with pager := p' } := by
  have hne : p ≠ q := fun e => ha.unused (e ▸ hp)
  have hroot : (if (if p = t.getCurrentRoot then q else t.modifiedRoot) ≠ 0 then
      (if p = t.getCurrentRoot then q else t.modifiedRoot) else t.snapshotRoot) =
      relocate p q t.getCurrentRoot := by
    by_cases hr : p = t.getCurrentRoot
    · rw [if_pos hr, if_pos ha.used.1, ← hr, relocate_self]
    · rw [if_neg hr, relocate_of_ne (Ne.symm hr)]
      rfl
  refine ⟨Or.inr ⟨hnew, ha.unused⟩, ?_, hroot, ha.view, rfl, fun x => HashMap.mem_insert, ha.used,
    ⟨ha.wf, ?_, ?_, ?_, ?_⟩, ⟨?_, ?_, ha.keeps, ?_, fun _ _ => rfl, rfl, rfl, ?_⟩⟩
  · funext x
    simp only [actualPage, HashMap.get?_insert, Function.comp_apply]
    by_cases hx : x = p
    · subst hx
      simp [hcow]
    · rw [if_neg hx, relocate_of_ne]
      intro hact
      cases hc : t.cowPages.get? x with
      | none => rw [hc] at hact; exact hx hact
      | some y =>
        rw [hc] at hact
        obtain rfl : y = p := hact
        exact hnew (h.copied x y hc).1
  · intro x y hxy
    simp only [HashMap.get?_insert] at hxy
    by_cases hx : x = p
    · subst hx
      simp only [HashMap.mem_insert]
      rw [if_pos rfl, Option.some.injEq] at hxy
      exact ⟨Or.inl hxy.symm, fun hm => hm.elim hne hnew, ha.keeps x hp⟩
    · rw [if_neg hx] at hxy
      exact h.copied_insert ha hxy
  · exact h.created_insert ha
  · intro x page hx
    have := h.coherent x page hx
    rw [← ha.view] at this
    exact this
  · change (t.cowPages.insert p q).get? (if _ then _ else _) = none
    rw [hroot, HashMap.get?_insert]
    by_cases hr : p = t.getCurrentRoot
    · rw [← hr, relocate_self, if_neg (Ne.symm hne)]
      by_contra hq
      obtain ⟨y, hy⟩ := Option.ne_none_iff_exists'.mp hq
      exact ha.unused (h.copied q y hy).2.2
    · rw [relocate_of_ne (Ne.symm hr), if_neg (Ne.symm hr)]
      exact h.root
  · intro x hx
    exact HashMap.mem_insert.mpr (Or.inr hx)
  · intro x hx
    rcases HashMap.mem_insert.mp hx with rfl | hx
    · exact Or.inr ha.unused
    · exact Or.inl hx
  · intro x _
    exact congrFun ha.view x
  · exact ha.frame

theorem exec_writeTarget {t : TxBTree} {db : Database} (h : t.WF db) {p : PageNum}
    (hp : db.pager.Allocated p) (hcow : t.cowPages.get? p = none) :
    ∃ q t' db', Proc.exec (writeTarget p) t db = (.ok q, t', db') ∧ Placed t db p q t' db' := by
  unfold writeTarget
  by_cases hnew : p ∈ t.newPages
  · refine ⟨p, t, db, ?_, Or.inl ⟨hnew, rfl⟩, by simp, by simp, rfl, rfl, ?_, hp, h, Extends.refl _ _⟩
    · rw [Proc.exec_bind_ok (Proc.exec_getLocal t db)]
      simp [hnew, Proc.exec_pure]
    · intro x
      constructor
      · exact Or.inr
      · rintro (rfl | hx)
        · exact hnew
        · exact hx
  · by_cases hr : p = t.getCurrentRoot
    · subst hr
      obtain ⟨q, p', he, ha⟩ := exec_allocPageMinimum (l := t) h.pager t.getCurrentRoot
      refine ⟨q, _, _, ?_, placed_copy h hp hcow hnew ha⟩
      rw [Proc.exec_bind_ok (Proc.exec_getLocal t db)]
      simp only [hnew, ↓reduceIte, hcow]
      rw [Proc.exec_bind_ok he]
      rfl
    · obtain ⟨q, p', he, ha⟩ := exec_allocPageMinimum (l := t) h.pager 0
      refine ⟨q, _, _, ?_, placed_copy h hp hcow hnew ha⟩
      rw [Proc.exec_bind_ok (Proc.exec_getLocal t db)]
      simp only [hnew, ↓reduceIte, hcow, hr, allocPage]
      rw [Proc.exec_bind_ok he]
      rfl

-- `write_node` at a page of the handle's tree or at one it created.
theorem exec_writeNode {t : TxBTree} {db : Database} (h : t.WF db) (n : BTreeNode)
    (hp : db.pager.Allocated n.pageNum) (hcow : t.cowPages.get? n.pageNum = none) :
    ∃ q t' db', Proc.exec (writeNode n) t db = (.ok q, t', db') ∧ Wrote t db n q t' db' := by
  obtain ⟨q, t₁, db₁, he, hpl⟩ := exec_writeTarget h hp hcow
  let page := Page.node { n with pageNum := q }
  let t' : TxBTree := { t₁ with txWrites := t₁.txWrites.insert q page }
  let db' : Database := { db₁ with pager := { db₁.pager with
    cache := Function.update db₁.pager.cache q (some page)
    dirty := db₁.pager.dirty.insert q () } }
  have hview : db'.pager.view = Function.update db₁.pager.view q (some page) :=
    Pager.view_write db₁.pager q page _
  have hq : q ∈ t₁.newPages := (hpl.new q).mpr (Or.inl rfl)
  have hwrite : Proc.exec (writePageTransfer q page) t' db₁ = (.ok (), t', db') := by
    simp only [writePageTransfer, Proc.exec_atomicE,
      Pager.writePageTransfer_eq hpl.wf.pager.writable q (show page.byteLen = PAGE_SIZE from rfl)]
    rfl
  refine ⟨q, t', db', ?_, hpl.target, hpl.act, hpl.root, ?_, ?_, hpl.new, hpl.used,
    ⟨⟨hpl.wf.pager.writable, hpl.wf.pager.nonempty, hpl.wf.pager.nodup, hpl.wf.pager.range⟩,
      hpl.wf.copied, hpl.wf.created, ?_, hpl.wf.root⟩,
    ⟨hpl.ext.new, hpl.ext.fresh, hpl.ext.alloc, ?_, ?_, hpl.ext.snapshot, ?_, hpl.ext.pager⟩⟩
  · unfold writeNode
    rw [Proc.exec_bind_ok he]
    simp only
    rw [Proc.exec_bind_ok (Proc.exec_modifyLocal _ _ _), Proc.exec_bind_ok hwrite]
    rfl
  · simp only [Database.nodeAt, hview, Function.update_self]
    rfl
  · intro x hx
    rw [hview, Function.update_of_ne hx, hpl.view]
  · intro x page' hx
    change (t₁.txWrites.insert q page).get? x = some page' at hx
    rw [HashMap.get?_insert] at hx
    rw [hview]
    by_cases hxq : x = q
    · subst hxq
      rw [if_pos rfl] at hx
      rw [Function.update_self, hx]
    · rw [if_neg hxq] at hx
      rw [Function.update_of_ne hxq]
      exact hpl.wf.coherent x page' hx
  · intro x hx
    have hxq : x ≠ q := fun e => hx (e ▸ hq)
    rw [hview, Function.update_of_ne hxq]
    exact hpl.ext.view x hx
  · intro x hx
    have hxq : x ≠ q := fun e => hx (e ▸ hq)
    change (t₁.txWrites.insert q page).get? x = _
    rw [HashMap.get?_insert_of_ne _ _ hxq]
    exact hpl.ext.writes x hx
  · change { db₁ with pager := db'.pager } = _
    rw [hpl.ext.shared]

-- A page of its own for a node that is new in the tree.
structure Created (t : TxBTree) (db : Database) (q : PageNum) (t' : TxBTree)
    (db' : Database) : Prop where
  unused : ¬ db.pager.Allocated q
  act : t'.actualPage = t.actualPage
  cow : t'.cowPages = t.cowPages
  root : t'.getCurrentRoot = t.getCurrentRoot
  view : db'.pager.view = db.pager.view
  new : ∀ x, x ∈ t'.newPages ↔ x = q ∨ x ∈ t.newPages
  used : db'.pager.Allocated q
  wf : t'.WF db'
  ext : Extends t db t' db'

theorem exec_allocNew {t : TxBTree} {db : Database} (h : t.WF db) (min : PageNum) :
    ∃ q t' db', Proc.exec (allocPageMinimum min) t db = (.ok q, t, db') ∧
      Proc.exec (markNew q) t db' = (.ok (), t', db') ∧ Created t db q t' db' := by
  obtain ⟨q, p', he, ha⟩ := exec_allocPageMinimum (l := t) h.pager min
  refine ⟨q, _, _, he, rfl, ha.unused, rfl, rfl, rfl, ha.view, fun x => HashMap.mem_insert, ha.used,
    ⟨ha.wf, ?_, ?_, ?_, h.root⟩, ⟨?_, ?_, ha.keeps, fun x _ => congrFun ha.view x,
      fun _ _ => rfl, rfl, rfl, ha.frame⟩⟩
  · exact fun x y hxy => h.copied_insert ha hxy
  · exact h.created_insert ha
  · intro x page hx
    have := h.coherent x page hx
    rw [← ha.view] at this
    exact this
  · intro x hx
    exact HashMap.mem_insert.mpr (Or.inr hx)
  · intro x hx
    rcases HashMap.mem_insert.mp hx with rfl | hx
    · exact Or.inr ha.unused
    · exact Or.inl hx

theorem Created.store {t t' : TxBTree} {db db' : Database} {q : PageNum}
    (h : Created t db q t' db') : t'.store db' = t.store db := by
  funext x
  simp only [TxBTree.store, Database.nodeAt, h.act, h.view]

end JasonDb.TxBTree
