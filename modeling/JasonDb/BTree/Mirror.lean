import JasonDb.BTree.Lookup
import JasonDb.BTree.Refines
import JasonDb.Lib.Pairs
import JasonDb.TxBTree.Settled

namespace JasonDb.BTree

open Lib SearchTree

-- How the pages of a tree that is changed in place go with those of the same tree
-- in a transaction. `used` are the pages of the first so far, `stored` those with a
-- node, and `stale` those that a pointer in the second may miss.
structure World where
  place : PageNum → PageNum
  kind : PageNum → NodeType
  used : Set PageNum
  stored : Set PageNum
  stale : Set PageNum

-- The pointer `q` of the transaction leads to the page that goes with `c`, without
-- a detour unless it is stale.
structure Points (W : World) (t : BTree) (q c : PageNum) : Prop where
  used : c ∈ W.used
  actual : t.actualPage q = W.place c
  exact : c ∉ W.stale → q = W.place c

structure Same (W : World) (t : BTree) (n m : BTreeNode) : Prop where
  type : m.nodeType = n.nodeType
  entries : m.entries = n.entries
  keys : m.keys = n.keys
  links : List.Forall₂ (Points W t) m.links n.links

-- The handle `t` has in `db'` the tree that is in place in `db` with the root `r`.
structure Mirror (W : World) (r : PageNum) (db : Database) (t : BTree) (db' : Database) : Prop where
  active : t.txActive = true
  pager : db.pager.WF
  pager' : db'.pager.WF
  live : ∀ p ∈ W.used, db.pager.Allocated p ∧ db'.pager.Allocated (W.place p)
  inj : ∀ p ∈ W.used, ∀ q ∈ W.used, W.place p = W.place q → p = q
  label : ∀ p ∈ W.used, t.cowPages.get? (W.place p) = none
  copied : ∀ q q', t.cowPages.get? q = some q' →
    q' ∈ t.newPages ∧ q ∉ t.newPages ∧ db'.pager.Allocated q
  created : ∀ q ∈ t.newPages, db'.pager.Allocated q
  root : r ∈ W.used ∧ t.getRootPage = W.place r
  nodes : ∀ p ∈ W.stored, p ∈ W.used ∧ ∃ n m, db.nodeAt p = some n ∧
    db'.nodeAt (W.place p) = some m ∧ n.nodeType = W.kind p ∧ Same W t n m
  upward : ∀ p ∈ W.stored, ∀ n, db.nodeAt p = some n → ∀ c ∈ n.links, W.place c ∈ t.newPages →
    W.place p ∈ t.newPages ∨ c ∈ W.stale

-- What a transaction does to the pages of the database.
structure Extends (t : BTree) (db : Database) (t' : BTree) (db' : Database) : Prop where
  new : ∀ x ∈ t.newPages, x ∈ t'.newPages
  fresh : ∀ x ∈ t'.newPages, x ∈ t.newPages ∨ ¬ db.pager.Allocated x
  alloc : ∀ x, db.pager.Allocated x → db'.pager.Allocated x
  view : ∀ x, x ∉ t'.newPages → db'.pager.view x = db.pager.view x
  root : t'.rootPage = t.rootPage

theorem Extends.refl (t : BTree) (db : Database) : Extends t db t db :=
  ⟨fun _ h => h, fun _ h => Or.inl h, fun _ h => h, fun _ _ => rfl, rfl⟩

theorem Extends.trans {t t' t'' : BTree} {db db' db'' : Database} (h : Extends t db t' db')
    (h' : Extends t' db' t'' db'') : Extends t db t'' db'' where
  new x hx := h'.new x (h.new x hx)
  fresh x hx := by
    rcases h'.fresh x hx with hx | hx
    · exact h.fresh x hx
    · exact Or.inr fun ha => hx (h.alloc x ha)
  alloc x hx := h'.alloc x (h.alloc x hx)
  view x hx := (h'.view x hx).trans (h.view x fun hn => hx (h'.new x hn))
  root := h'.root.trans h.root

-- How the pages go on together over steps that write, of the pages before, only `P`.
structure Follows (P : Set PageNum) (W : World) (t : BTree) (db : Database) (W' : World)
    (t' : BTree) (db' : Database) : Prop where
  points : ∀ q c, Points W t q c → Points W' t' q c
  used : W.used ⊆ W'.used
  stored : W.stored ⊆ W'.stored
  kind : ∀ c ∈ W.used, W'.kind c = W.kind c
  own : ∀ c ∈ W.used, W.place c ∈ t.newPages → W'.place c ∈ t'.newPages
  fresh : ∀ c ∈ W'.used, c ∈ W.used ∨ W'.place c ∈ t'.newPages
  stale : ∀ c ∈ W'.stale, c ∈ W.stale ∨ c ∈ P ∧ c ∈ W.used ∧ W.place c ∉ t.newPages
  ext : Extends t db t' db'

section Follows

variable {P P' : Set PageNum} {W W' W'' : World} {t t' t'' : BTree} {db db' db'' : Database}

theorem Follows.refl (W : World) (t : BTree) (db : Database) : Follows P W t db W t db :=
  ⟨fun _ _ h => h, subset_rfl, subset_rfl, fun _ _ => rfl, fun _ _ h => h, fun _ h => Or.inl h,
    fun _ h => Or.inl h, Extends.refl t db⟩

theorem Follows.trans (h : Follows P W t db W' t' db') (h' : Follows P W' t' db' W'' t'' db'') :
    Follows P W t db W'' t'' db'' where
  points q c hq := h'.points q c (h.points q c hq)
  used := h.used.trans h'.used
  stored := h.stored.trans h'.stored
  kind c hc := (h'.kind c (h.used hc)).trans (h.kind c hc)
  own c hc hown := h'.own c (h.used hc) (h.own c hc hown)
  fresh c hc := by
    rcases h'.fresh c hc with hc | hc
    · rcases h.fresh c hc with hc' | hc'
      · exact Or.inl hc'
      · exact Or.inr (h'.own c hc hc')
    · exact Or.inr hc
  stale c hc := by
    rcases h'.stale c hc with hc | ⟨hP, hused, hnew⟩
    · exact h.stale c hc
    · rcases h.fresh c hused with hc' | hc'
      · exact Or.inr ⟨hP, hc', fun hown => hnew (h.own c hc' hown)⟩
      · exact absurd hc' hnew
  ext := h.ext.trans h'.ext

theorem Follows.mono (h : Follows P W t db W' t' db') (hsub : P ⊆ P') :
    Follows P' W t db W' t' db' :=
  { h with stale := fun c hc => (h.stale c hc).imp id fun hc => ⟨hsub hc.1, hc.2⟩ }

-- Writing a page of the transaction makes no pointer stale.
theorem Follows.of_own {p : PageNum} (h : Follows {p} W t db W' t' db')
    (hown : W.place p ∈ t.newPages) : Follows P W t db W' t' db' where
  __ := h
  stale c hc := by
    rcases h.stale c hc with hc | ⟨rfl, _, hnew⟩
    · exact .inl hc
    · exact absurd hown hnew

theorem Same.follows {n m : BTreeNode} (h : Same W t n m) (hf : Follows P W t db W' t' db') :
    Same W' t' n m :=
  ⟨h.type, h.entries, h.keys, h.links.imp fun q c hq => hf.points q c hq⟩

end Follows

section Read

variable {W : World} {r root : PageNum} {t : BTree} {db db' : Database} {p q c : PageNum}
  {n : BTreeNode}

-- A node read through any pointer of the transaction that leads to it.
theorem exec_readNode_actual {m : BTreeNode} (hm : db.nodeAt (t.actualPage q) = some m) :
    Proc.exec (readNode q) t db = (.ok m, t, db) := by
  rw [exec_readNode_seen, nodeSeen]
  unfold Database.nodeAt at hm
  obtain ⟨page, hview, hm⟩ := Option.bind_eq_some_iff.mp hm
  have hread : db.pager.readPage (t.actualPage q) = .ok page := by
    simp only [Pager.readPage, hview]
  rw [hread]
  simp only [Except.bind]
  cases hd : deserializeNode (t.actualPage q) page with
  | error e => simp [hd, Except.toOption] at hm
  | ok m' =>
    obtain rfl : m' = m := by simpa [hd, Except.toOption] using hm
    rfl

theorem Mirror.exec_read (h : Mirror W r db t db') (hq : Points W t q c) (hc : c ∈ W.stored)
    (hn : db.nodeAt c = some n) :
    ∃ m, Proc.exec (readNode q) t db' = (.ok m, t, db') ∧ db'.nodeAt (W.place c) = some m ∧
      n.nodeType = W.kind c ∧ Same W t n m := by
  obtain ⟨_, n', m, hn', hm, hkind, hsame⟩ := h.nodes c hc
  obtain rfl : n = n' := Option.some.inj (hn.symm.trans hn')
  refine ⟨m, exec_readNode_actual ?_, hm, hkind, hsame⟩
  rw [hq.actual]
  exact hm

theorem Mirror.actual_place (h : Mirror W r db t db') (hc : c ∈ W.used) :
    t.actualPage (W.place c) = W.place c := by
  simp [actualPage, h.label c hc]

theorem Mirror.points_place (h : Mirror W r db t db') (hc : c ∈ W.used) :
    Points W t (W.place c) c :=
  ⟨hc, h.actual_place hc, fun _ => rfl⟩

end Read

section Write

variable {W : World} {r : PageNum} {t : BTree} {db db₁ db' : Database} {p q f : PageNum}
  {n m : BTreeNode}

-- What the handle keeps of its copies.
structure Copies (t : BTree) (db : Database) : Prop where
  active : t.txActive = true
  pager : db.pager.WF
  copied : ∀ q q', t.cowPages.get? q = some q' →
    q' ∈ t.newPages ∧ q ∉ t.newPages ∧ db.pager.Allocated q
  created : ∀ q ∈ t.newPages, db.pager.Allocated q

theorem Mirror.copies (h : Mirror W r db t db') : Copies t db' :=
  ⟨h.active, h.pager', h.copied, h.created⟩

-- What `write_node` does in a transaction with a node of a page that is no longer,
-- or was never, the old place of a copy.
structure Wrote (t : BTree) (db : Database) (m : BTreeNode) (x : PageNum) (t' : BTree)
    (db' : Database) : Prop where
  target : m.pageNum ∈ t.newPages ∧ x = m.pageNum ∨
    m.pageNum ∉ t.newPages ∧ ¬ db.pager.Allocated x
  act : ∀ q, t'.actualPage q = relocate m.pageNum x (t.actualPage q)
  cow : ∀ q, q ≠ m.pageNum → t'.cowPages.get? q = t.cowPages.get? q
  root : t'.getRootPage = relocate m.pageNum x t.getRootPage
  node : db'.nodeAt x = some { m with pageNum := x }
  others : ∀ y, y ≠ x → db'.nodeAt y = db.nodeAt y
  new : ∀ y, y ∈ t'.newPages ↔ y = x ∨ y ∈ t.newPages
  copies : Copies t' db'
  ext : Extends t db t' db'

theorem nodeAt_written (db : Database) (m : BTreeNode) :
    (written db m).nodeAt m.pageNum = some m := by
  simp [Database.nodeAt, view_written, deserializeNode, Except.toOption]

theorem nodeAt_written_ne (db : Database) {m : BTreeNode} {x : PageNum} (h : x ≠ m.pageNum) :
    (written db m).nodeAt x = db.nodeAt x := by
  simp only [Database.nodeAt, view_written, Function.update_of_ne h]

-- The node of the page `p` was written in place, if at all.
structure Edited (db : Database) (p : PageNum) (n : BTreeNode) (db₁ : Database) : Prop where
  node : db₁.nodeAt p = some n
  others : ∀ x, x ≠ p → db₁.nodeAt x = db.nodeAt x
  alloc : ∀ x, db.pager.Allocated x → db₁.pager.Allocated x
  pager : db₁.pager.WF

theorem edited_written (h : db.pager.WF) (n : BTreeNode) : Edited db n.pageNum n (written db n) :=
  ⟨nodeAt_written db n, fun _ hx => nodeAt_written_ne db hx, fun _ hx => hx, wf_written h n⟩

theorem edited_self (h : db.pager.WF) (hn : db.nodeAt p = some n) : Edited db p n db :=
  ⟨hn, fun _ _ => rfl, fun _ hx => hx, h⟩

theorem exec_writeNode_own (h : Copies t db) (hown : m.pageNum ∈ t.newPages) :
    ∃ x t' db', Proc.exec (writeNode m) t db = (.ok (), t', db') ∧ Wrote t db m x t' db' := by
  have htarget : Proc.exec (writeTarget m.pageNum) t db = (.ok m.pageNum, t, db) := by
    unfold writeTarget
    rw [Proc.exec_bind_ok (Proc.exec_getLocal t db), h.active]
    simp only [Bool.not_true, Bool.false_eq_true, if_false, hown, if_true]
    rfl
  refine ⟨m.pageNum, t, written db m, ?_, ⟨.inl ⟨hown, rfl⟩, ?_, fun _ _ => rfl, ?_,
    nodeAt_written db m, fun _ hy => nodeAt_written_ne db hy, ?_,
    ⟨h.active, wf_written h.pager m, h.copied, h.created⟩, ?_⟩⟩
  · unfold writeNode
    rw [Proc.exec_bind_ok htarget, writePageTransfer, Proc.exec_atomicE,
      Pager.writePageTransfer_eq h.pager.writable _ (by rfl)]
    rfl
  · intro q
    rw [relocate_refl, id_eq]
  · rw [relocate_refl, id_eq]
  · intro y
    exact ⟨.inr, fun hy => hy.elim (fun e => e ▸ hown) id⟩
  · refine ⟨fun _ hx => hx, fun _ hx => .inl hx, fun _ hx => hx, ?_, rfl⟩
    intro y hy
    rw [view_written, Function.update_of_ne]
    rintro rfl
    exact hy hown

theorem exec_writeNode_copy (h : Copies t db) (hown : m.pageNum ∉ t.newPages)
    (hcow : t.cowPages.get? m.pageNum = none) (hlive : db.pager.Allocated m.pageNum) :
    ∃ x t' db', Proc.exec (writeNode m) t db = (.ok (), t', db') ∧ Wrote t db m x t' db' := by
  obtain ⟨f, p', he, ha⟩ := Pager.allocPageMinimum_spec h.pager 0
  let t' : BTree := { t with
    cowPages := t.cowPages.insert m.pageNum f
    newPages := t.newPages.insert f true
    modifiedRoot := if m.pageNum = t.getRootPage then f else t.modifiedRoot }
  have halloc : Proc.exec (allocPage : TreeM PageNum) t db = (.ok f, t, { db with pager := p' }) := by
    simp [allocPage, allocPageMinimum, Proc.exec_atomicE, he]
  have htarget : Proc.exec (writeTarget m.pageNum) t db = (.ok f, t', { db with pager := p' }) := by
    unfold writeTarget
    rw [Proc.exec_bind_ok (Proc.exec_getLocal t db), h.active]
    simp only [Bool.not_true, Bool.false_eq_true, if_false, hown, hcow]
    rw [Proc.exec_bind_ok halloc]
    rfl
  have hne : m.pageNum ≠ f := fun e => ha.unused (e ▸ hlive)
  refine ⟨f, t', written { db with pager := p' } { m with pageNum := f }, ?_, ⟨.inr ⟨hown, ha.unused⟩,
    ?_, fun q hq => HashMap.get?_insert_of_ne _ _ hq, ?_, nodeAt_written _ _, ?_,
    fun y => HashMap.mem_insert, ⟨h.active, wf_written ha.wf _, ?_, ?_⟩, ?_⟩⟩
  · unfold writeNode
    rw [Proc.exec_bind_ok htarget, writePageTransfer, Proc.exec_atomicE,
      Pager.writePageTransfer_eq ha.wf.writable _ (by rfl)]
    rfl
  · intro q
    have hact : t'.actualPage q = (t'.cowPages.get? q).getD q := if_pos h.active
    have hact₀ : t.actualPage q = (t.cowPages.get? q).getD q := if_pos h.active
    rw [hact, hact₀]
    by_cases hq : q = m.pageNum
    · subst hq
      rw [hcow, Option.getD_none, relocate_self, HashMap.get?_insert_self, Option.getD_some]
    · rw [show t'.cowPages.get? q = t.cowPages.get? q from HashMap.get?_insert_of_ne _ _ hq,
        relocate_of_ne]
      intro he
      cases hc : t.cowPages.get? q with
      | none =>
        rw [hc] at he
        exact hq he
      | some y =>
        rw [hc, Option.getD_some] at he
        exact hown (he ▸ (h.copied q y hc).1)
  · by_cases hr : m.pageNum = t.getRootPage
    · have hmod : t'.modifiedRoot = f := if_pos hr
      rw [← hr, relocate_self, getRootPage, hmod]
      exact if_pos ha.used.1
    · have hmod : t'.modifiedRoot = t.modifiedRoot := if_neg hr
      rw [relocate_of_ne (Ne.symm hr), getRootPage, hmod]
      rfl
  · intro y hy
    have hview : ({ db with pager := p' } : Database).nodeAt y = db.nodeAt y := by
      simp only [Database.nodeAt, ha.view]
    rw [nodeAt_written_ne _ hy, hview]
  · intro q q' hq
    by_cases hqm : q = m.pageNum
    · subst hqm
      obtain rfl : f = q' := by simpa [t'] using hq
      exact ⟨HashMap.mem_insert.mpr (.inl rfl),
        fun hm => (HashMap.mem_insert.mp hm).elim hne hown, ha.keeps _ hlive⟩
    · rw [show t'.cowPages.get? q = t.cowPages.get? q from HashMap.get?_insert_of_ne _ _ hqm] at hq
      obtain ⟨h1, h2, h3⟩ := h.copied q q' hq
      exact ⟨HashMap.mem_insert.mpr (.inr h1),
        fun hm => (HashMap.mem_insert.mp hm).elim (fun e => ha.unused (e ▸ h3)) h2, ha.keeps _ h3⟩
  · intro q hq
    rcases HashMap.mem_insert.mp hq with rfl | hq
    · exact ha.used
    · exact ha.keeps q (h.created q hq)
  · refine ⟨fun x hx => HashMap.mem_insert.mpr (.inr hx), ?_, ha.keeps, ?_, rfl⟩
    · intro x hx
      rcases HashMap.mem_insert.mp hx with rfl | hx
      · exact .inr ha.unused
      · exact .inl hx
    · intro y hy
      have hyf : y ≠ f := fun e => hy (HashMap.mem_insert.mpr (.inl e))
      rw [view_written, Function.update_of_ne hyf]
      exact congrFun ha.view y

end Write

-- The page `p` was written, and goes with `x` from now on.
def World.wrote (W : World) (t : BTree) (p x : PageNum) : World :=
  { W with
    place := Function.update W.place p x
    stored := W.stored ∪ {p}
    stale := W.stale ∪ {c | c = p ∧ W.place p ∉ t.newPages} }

section Wrote

variable {W : World} {r x : PageNum} {t t' : BTree} {db db₁ db' db₁' : Database} {p q c : PageNum}
  {n m : BTreeNode}

theorem World.place_wrote_self : (W.wrote t p x).place p = x := Function.update_self ..

theorem World.place_wrote_of_ne (h : c ≠ p) : (W.wrote t p x).place c = W.place c :=
  Function.update_of_ne h ..

-- No other page goes with the page that is written to.
theorem Mirror.place_ne (h : Mirror W r db t db') (hw : Wrote t db' m x t' db₁')
    (hm : m.pageNum = W.place p) (hp : p ∈ W.used) (hc : c ∈ W.used) (hne : c ≠ p) :
    W.place c ≠ x := by
  rintro rfl
  rcases hw.target with ⟨_, hx⟩ | ⟨_, hx⟩
  · exact hne (h.inj c hc p hp (hx.trans hm))
  · exact hx (h.live c hc).2

theorem Wrote.mem_new (hw : Wrote t db' m x t' db₁') : x ∈ t'.newPages := (hw.new x).mpr (.inl rfl)

theorem Mirror.points_write (h : Mirror W r db t db') (hw : Wrote t db' m x t' db₁')
    (hm : m.pageNum = W.place p) (hp : p ∈ W.used) (hq : Points W t q c) :
    Points (W.wrote t p x) t' q c := by
  by_cases hc : c = p
  · subst hc
    refine ⟨hq.used, ?_, fun hstale => ?_⟩
    · rw [hw.act, hq.actual, hm, relocate_self, World.place_wrote_self]
    · rw [World.place_wrote_self, hq.exact fun hs => hstale (.inl hs)]
      rcases hw.target with ⟨_, hx⟩ | ⟨hown, _⟩
      · exact (hx.trans hm).symm
      · exact absurd (.inr ⟨rfl, hm ▸ hown⟩) hstale
  · refine ⟨hq.used, ?_, fun hstale => ?_⟩
    · rw [hw.act, hq.actual, hm, relocate_of_ne, World.place_wrote_of_ne hc]
      exact fun he => hc (h.inj c hq.used p hp he)
    · rw [World.place_wrote_of_ne hc, hq.exact fun hs => hstale (.inl hs)]

theorem Mirror.own_wrote (h : Mirror W r db t db') (hw : Wrote t db' m x t' db₁')
    (hm : m.pageNum = W.place p) (hp : p ∈ W.used) (hc : c ∈ W.used) (hne : c ≠ p) :
    (W.wrote t p x).place c ∈ t'.newPages ↔ W.place c ∈ t.newPages := by
  rw [World.place_wrote_of_ne hne, hw.new, or_iff_right (h.place_ne hw hm hp hc hne)]

theorem Mirror.label_wrote (h : Mirror W r db t db') (hw : Wrote t db' m x t' db₁')
    (hm : m.pageNum = W.place p) (hp : p ∈ W.used) (hc : c ∈ W.used) :
    t'.cowPages.get? ((W.wrote t p x).place c) = none := by
  by_cases hcp : c = p
  · subst hcp
    rw [World.place_wrote_self]
    by_contra hsome
    obtain ⟨y, hy⟩ := Option.ne_none_iff_exists'.mp hsome
    exact (hw.copies.copied x y hy).2.1 hw.mem_new
  · rw [World.place_wrote_of_ne hcp, hw.cow, h.label c hc]
    rw [hm]
    exact fun he => hcp (h.inj c hc p hp he)

theorem Mirror.links_used (h : Mirror W r db t db') (hc : c ∈ W.stored) (hn : db.nodeAt c = some n)
    {y : PageNum} (hy : y ∈ n.links) : y ∈ W.used := by
  obtain ⟨_, n', m, hn', _, _, hsame⟩ := h.nodes c hc
  obtain rfl := Option.some.inj (hn.symm.trans hn')
  obtain ⟨q, _, hq⟩ := forall₂_mem_right hsame.links hy
  exact hq.used

-- The nodes of the other pages are where they were.
theorem Mirror.nodeAt_wrote (h : Mirror W r db t db') (hw : Wrote t db' m x t' db₁')
    (he : Edited db p n db₁) (hm : m.pageNum = W.place p) (hp : p ∈ W.used) (hc : c ∈ W.stored)
    (hne : c ≠ p) : db₁.nodeAt c = db.nodeAt c ∧
      db₁'.nodeAt ((W.wrote t p x).place c) = db'.nodeAt (W.place c) := by
  refine ⟨he.others c hne, ?_⟩
  rw [World.place_wrote_of_ne hne]
  exact hw.others _ (h.place_ne hw hm hp (h.nodes c hc).1 hne)

-- The same node is written in both, the second time where the transaction has it or to a copy.
theorem Mirror.write (h : Mirror W r db t db') (hw : Wrote t db' m x t' db₁')
    (he : Edited db p n db₁) (hp : p ∈ W.used) (hm : m.pageNum = W.place p)
    (hkind : n.nodeType = W.kind p) (hsame : Same W t n m) :
    Mirror (W.wrote t p x) r db₁ t' db₁' ∧ Follows {p} W t db' (W.wrote t p x) t' db₁' := by
  have hpoints := fun q c => h.points_write (q := q) (c := c) hw hm hp
  have hsame' : ∀ {n m}, Same W t n m → Same (W.wrote t p x) t' n m := fun hs =>
    ⟨hs.type, hs.entries, hs.keys, hs.links.imp hpoints⟩
  have hown : W.place p ∈ t.newPages ∨ p ∈ (W.wrote t p x).stale := by
    by_cases hown : W.place p ∈ t.newPages
    · exact .inl hown
    · exact .inr (.inr ⟨rfl, hown⟩)
  have hold := fun y (hy : y ∈ W.stored) (hne : y ≠ p) => h.nodeAt_wrote hw he hm hp hy hne
  refine ⟨⟨hw.copies.active, he.pager, hw.copies.pager, ?_, ?_, ?_, hw.copies.copied,
    hw.copies.created, ⟨h.root.1, ?_⟩, ?_, ?_⟩, ⟨hpoints, subset_rfl, fun _ => .inl, fun _ _ => rfl,
      ?_, fun _ => .inl, ?_, hw.ext⟩⟩
  · intro y hy
    refine ⟨he.alloc y (h.live y hy).1, ?_⟩
    by_cases hyp : y = p
    · rw [hyp, World.place_wrote_self]
      exact hw.copies.created x hw.mem_new
    · rw [World.place_wrote_of_ne hyp]
      exact hw.ext.alloc _ (h.live y hy).2
  · intro y hy z hz hyz
    by_cases hyp : y = p
    · by_cases hzp : z = p
      · exact hyp.trans hzp.symm
      · rw [hyp, World.place_wrote_self, World.place_wrote_of_ne hzp] at hyz
        exact absurd hyz.symm (h.place_ne hw hm hp hz hzp)
    · rw [World.place_wrote_of_ne hyp] at hyz
      by_cases hzp : z = p
      · rw [hzp, World.place_wrote_self] at hyz
        exact absurd hyz (h.place_ne hw hm hp hy hyp)
      · rw [World.place_wrote_of_ne hzp] at hyz
        exact h.inj y hy z hz hyz
  · exact fun y hy => h.label_wrote hw hm hp hy
  · rw [hw.root, h.root.2, hm]
    by_cases hr : r = p
    · rw [hr, relocate_self, World.place_wrote_self]
    · rw [relocate_of_ne fun e => hr (h.inj r h.root.1 p hp e), World.place_wrote_of_ne hr]
  · intro y hy
    by_cases hyp : y = p
    · subst hyp
      refine ⟨hp, n, { m with pageNum := x }, he.node, ?_, hkind, hsame' ?_⟩
      · rw [World.place_wrote_self]
        exact hw.node
      · exact ⟨hsame.type, hsame.entries, hsame.keys, hsame.links⟩
    · have hy : y ∈ W.stored := hy.resolve_right hyp
      obtain ⟨hu, n₁, m₁, hn₁, hm₁, hk₁, hs₁⟩ := h.nodes y hy
      obtain ⟨h₁, h₂⟩ := hold y hy hyp
      exact ⟨hu, n₁, m₁, h₁.trans hn₁, h₂.trans hm₁, hk₁, hsame' hs₁⟩
  · intro y hy n₁ hn₁ c hc hnew
    by_cases hyp : y = p
    · rw [hyp, World.place_wrote_self]
      exact .inl hw.mem_new
    · have hy : y ∈ W.stored := hy.resolve_right hyp
      rw [(hold y hy hyp).1] at hn₁
      have hcu := h.links_used hy hn₁ hc
      have hup := h.upward y hy n₁ hn₁ c hc
      have hyu := (h.nodes y hy).1
      rw [h.own_wrote hw hm hp hyu hyp]
      by_cases hcp : c = p
      · subst hcp
        rcases hown with hown | hown
        · exact (hup hown).imp_right .inl
        · exact .inr hown
      · rw [h.own_wrote hw hm hp hcu hcp] at hnew
        exact (hup hnew).imp_right .inl
  · intro c hc hown
    by_cases hcp : c = p
    · rw [hcp, World.place_wrote_self]
      exact hw.mem_new
    · exact (h.own_wrote hw hm hp hc hcp).mpr hown
  · rintro c (hc | ⟨rfl, hown⟩)
    · exact .inl hc
    · exact .inr ⟨rfl, hp, hown⟩

theorem Mirror.exec_write (h : Mirror W r db t db') (hp : p ∈ W.used) (hm : m.pageNum = W.place p) :
    ∃ x t' db₁', Proc.exec (writeNode m) t db' = (.ok (), t', db₁') ∧ Wrote t db' m x t' db₁' := by
  by_cases hown : m.pageNum ∈ t.newPages
  · exact exec_writeNode_own h.copies hown
  · refine exec_writeNode_copy h.copies hown ?_ ?_
    · rw [hm]
      exact h.label p hp
    · rw [hm]
      exact (h.live p hp).2

end Wrote

section Alloc

variable {W : World} {r : PageNum} {t : BTree} {db db' : Database}

-- A page for a node of the type `kind` that is not there yet.
def World.allocated (W : World) (kind : NodeType) (p x : PageNum) : World :=
  { W with
    place := Function.update W.place p x
    kind := Function.update W.kind p kind
    used := W.used ∪ {p} }

-- The handle that has `x` among its new pages.
def marked (t : BTree) (x : PageNum) : BTree := { t with newPages := t.newPages.insert x true }

theorem mem_marked {x y : PageNum} : y ∈ (t.marked x).newPages ↔ y = x ∨ y ∈ t.newPages :=
  HashMap.mem_insert

theorem exec_markNew (h : t.txActive = true) (x : PageNum) (db : Database) :
    Proc.exec (markNew x) t db = (.ok (), t.marked x, db) := by
  unfold markNew
  rw [Proc.exec_modifyLocal, if_pos h]
  rfl

theorem Mirror.alloc (h : Mirror W r db t db') (kind : NodeType) {p x : PageNum}
    {pager₁ pager₁' : Pager} (ha : db.pager.Allocates p pager₁)
    (ha' : db'.pager.Allocates x pager₁') :
    Mirror (W.allocated kind p x) r { db with pager := pager₁ } (t.marked x)
        { db' with pager := pager₁' } ∧
      Follows ∅ W t db' (W.allocated kind p x) (t.marked x) { db' with pager := pager₁' } := by
  have hnode : ∀ y, ({ db with pager := pager₁ } : Database).nodeAt y = db.nodeAt y := by
    intro y
    simp only [Database.nodeAt, ha.view]
  have hnode' : ∀ y, ({ db' with pager := pager₁' } : Database).nodeAt y = db'.nodeAt y := by
    intro y
    simp only [Database.nodeAt, ha'.view]
  have hne : ∀ c ∈ W.used, c ≠ p := fun c hc e => ha.unused (e ▸ (h.live c hc).1)
  have hplace : ∀ c ∈ W.used, (W.allocated kind p x).place c = W.place c := fun c hc =>
    Function.update_of_ne (hne c hc) ..
  have hself : (W.allocated kind p x).place p = x := Function.update_self ..
  have hnex : ∀ c ∈ W.used, W.place c ≠ x := fun c hc e => ha'.unused (e ▸ (h.live c hc).2)
  have hown : ∀ c ∈ W.used, (W.allocated kind p x).place c ∈ (t.marked x).newPages ↔
      W.place c ∈ t.newPages := fun c hc => by
    rw [hplace c hc, mem_marked, or_iff_right (hnex c hc)]
  have hpoints : ∀ q c, Points W t q c → Points (W.allocated kind p x) (t.marked x) q c :=
    fun q c hq => ⟨.inl hq.used, hq.actual.trans (hplace c hq.used).symm, fun hs =>
      (hq.exact hs).trans (hplace c hq.used).symm⟩
  refine ⟨⟨h.active, ha.wf, ha'.wf, ?_, ?_, ?_, ?_, ?_, ⟨.inl h.root.1, ?_⟩, ?_, ?_⟩,
    ⟨hpoints, fun _ => .inl, subset_rfl, ?_, ?_, ?_, fun _ => .inl, ⟨?_, ?_, ha'.keeps, ?_, rfl⟩⟩⟩
  · rintro c (hc | rfl)
    · rw [hplace c hc]
      exact ⟨ha.keeps c (h.live c hc).1, ha'.keeps _ (h.live c hc).2⟩
    · rw [hself]
      exact ⟨ha.used, ha'.used⟩
  · rintro c (hc | rfl) d (hd | rfl) heq
    · rw [hplace c hc, hplace d hd] at heq
      exact h.inj c hc d hd heq
    · rw [hplace c hc, hself] at heq
      exact absurd heq (hnex c hc)
    · rw [hplace d hd, hself] at heq
      exact absurd heq.symm (hnex d hd)
    · rfl
  · rintro c (hc | rfl)
    · rw [hplace c hc]
      exact h.label c hc
    · rw [hself]
      by_contra hsome
      obtain ⟨y, hy⟩ := Option.ne_none_iff_exists'.mp hsome
      exact ha'.unused (h.copied x y hy).2.2
  · intro q q' hq
    obtain ⟨h₁, h₂, h₃⟩ := h.copied q q' hq
    refine ⟨mem_marked.mpr (.inr h₁), fun hmem => ?_, ha'.keeps q h₃⟩
    rcases mem_marked.mp hmem with rfl | hmem
    · exact ha'.unused h₃
    · exact h₂ hmem
  · intro q hq
    rcases mem_marked.mp hq with rfl | hq
    · exact ha'.used
    · exact ha'.keeps q (h.created q hq)
  · exact h.root.2.trans (hplace r h.root.1).symm
  · intro c hc
    obtain ⟨hu, n, m, hn, hm, hk, hs⟩ := h.nodes c hc
    refine ⟨.inl hu, n, m, (hnode c).trans hn, ?_, ?_, ⟨hs.type, hs.entries, hs.keys,
      hs.links.imp hpoints⟩⟩
    · rw [hplace c hu, hnode']
      exact hm
    · rw [hk]
      exact (Function.update_of_ne (hne c hu) ..).symm
  · intro c hc n hn d hd hnew
    rw [hnode] at hn
    rw [hown d (h.links_used hc hn hd)] at hnew
    rw [hown c (h.nodes c hc).1]
    exact h.upward c hc n hn d hd hnew
  · exact fun c hc => Function.update_of_ne (hne c hc) ..
  · exact fun c hc hnew => (hown c hc).mpr hnew
  · rintro c (hc | rfl)
    · exact .inl hc
    · rw [hself]
      exact .inr (mem_marked.mpr (.inl rfl))
  · exact fun y hy => mem_marked.mpr (.inr hy)
  · intro y hy
    rcases mem_marked.mp hy with rfl | hy
    · exact .inr ha'.unused
    · exact .inl hy
  · exact fun y _ => congrFun ha'.view y

theorem Mirror.exec_alloc (h : Mirror W r db t db') (kind : NodeType) :
    ∃ p db₁ x db₁' W', Proc.exec allocPage (BTree.open r) db = (.ok p, BTree.open r, db₁) ∧
      Proc.exec allocPage t db' = (.ok x, t, db₁') ∧
      Proc.exec (markNew x) t db₁' = (.ok (), t.marked x, db₁') ∧
      Mirror W' r db₁ (t.marked x) db₁' ∧ Follows ∅ W t db' W' (t.marked x) db₁' ∧ p ∈ W'.used ∧
      W'.place p = x ∧ W'.kind p = kind ∧ W'.used = W.used ∪ {p} ∧ W'.stored = W.stored ∧
      ∀ c ∈ W.used, c ≠ p ∧ W'.place c = W.place c := by
  obtain ⟨p, pager₁, he, ha⟩ := Pager.allocPageMinimum_spec h.pager 0
  obtain ⟨x, pager₁', he', ha'⟩ := Pager.allocPageMinimum_spec h.pager' 0
  obtain ⟨hmirror, hfollows⟩ := h.alloc kind ha ha'
  have hne : ∀ c ∈ W.used, c ≠ p := fun c hc e => ha.unused (e ▸ (h.live c hc).1)
  refine ⟨p, _, x, _, _, ?_, ?_, exec_markNew h.active x _, hmirror, hfollows, .inr rfl,
    Function.update_self .., Function.update_self .., rfl, rfl,
    fun c hc => ⟨hne c hc, Function.update_of_ne (hne c hc) ..⟩⟩
  · simp [allocPage, allocPageMinimum, Proc.exec_atomicE, he]
  · simp [allocPage, allocPageMinimum, Proc.exec_atomicE, he']

end Alloc

end JasonDb.BTree
