import JasonDb.BTree.Mirror

namespace JasonDb.BTree

open Lib SearchTree

section Nodes

variable {W : World} {t : BTree} {n m : BTreeNode} {q x c p : PageNum} {key : String}

-- The children of inner nodes go together.
theorem Same.children (h : Same W t n m) (htype : n.nodeType = .internalNode) :
    List.Forall₂ (Points W t) m.children n.children := by
  have hlinks := h.links
  rwa [BTreeNode.links, h.type, BTreeNode.links, htype] at hlinks

theorem Same.of_children (htype : n.nodeType = .internalNode) (htype' : m.nodeType = .internalNode)
    (hentries : m.entries = n.entries) (hkeys : m.keys = n.keys)
    (h : List.Forall₂ (Points W t) m.children n.children) : Same W t n m := by
  refine ⟨htype'.trans htype.symm, hentries, hkeys, ?_⟩
  rwa [BTreeNode.links, htype', BTreeNode.links, htype]

theorem Same.of_leaves (htype : n.nodeType = .leafNode) (htype' : m.nodeType = .leafNode)
    (hentries : m.entries = n.entries) (hkeys : m.keys = n.keys) : Same W t n m := by
  refine ⟨htype'.trans htype.symm, hentries, hkeys, ?_⟩
  rw [BTreeNode.links, htype', BTreeNode.links, htype]
  exact .nil

theorem Same.findChild (h : Same W t n m) (htype : n.nodeType = .internalNode)
    (hc : BTree.findChild n key = .ok c) : ∃ q, BTree.findChild m key = .ok q ∧ Points W t q c := by
  have hchildren := h.children htype
  have hlen := hchildren.length_eq
  unfold BTree.findChild at hc ⊢
  rw [h.keys]
  split at hc
  · cases hc
  · case isFalse hne =>
    have hne' : ¬ m.children.isEmpty = true := by
      rw [List.isEmpty_iff_length_eq_zero] at hne ⊢
      omega
    rw [if_neg hne']
    simp only at hc ⊢
    split at hc
    case h_1 c' hget =>
      obtain rfl := Except.ok.inj hc
      obtain ⟨q, hq, hpoints⟩ := forall₂_getElem?_right hchildren hget
      exact ⟨q, by simp only [hq], hpoints⟩
    case h_2 => cases hc

-- A pointer may be replaced by another one to the same page.
theorem forall₂_replaceChild {qs cs : List PageNum} (h : List.Forall₂ (Points W t) qs cs)
    (hx : ∀ c, Points W t q c → Points W t x c) :
    List.Forall₂ (Points W t) (TxBTree.replaceChild q x qs) cs := by
  induction h with
  | nil => exact .nil
  | @cons y c _ _ hy hrest ih =>
    unfold TxBTree.replaceChild
    by_cases hyq : y = q
    · rw [if_pos hyq]
      exact .cons (hx c (hyq ▸ hy)) hrest
    · rw [if_neg hyq]
      exact .cons hy ih

theorem Same.replaceChild (h : Same W t n m) (htype : n.nodeType = .internalNode)
    (hx : ∀ c, Points W t q c → Points W t x c) :
    Same W t n { m with children := TxBTree.replaceChild q x m.children } :=
  .of_children htype (h.type.trans htype) h.entries h.keys
    (forall₂_replaceChild (h.children htype) hx)

theorem Same.redirect (h : Same W t n m) (htype : n.nodeType = .internalNode)
    (hx : ∀ c, Points W t q c → Points W t x c) : Same W t n (BTree.redirect m q x) := by
  unfold BTree.redirect
  split
  · exact h.replaceChild htype hx
  · exact h

theorem redirect_rest (m : BTreeNode) (q x : PageNum) :
    (BTree.redirect m q x).pageNum = m.pageNum ∧ (BTree.redirect m q x).nodeType = m.nodeType := by
  unfold BTree.redirect
  split <;> exact ⟨rfl, rfl⟩

theorem Same.insertChild (h : Same W t n m) (htype : n.nodeType = .internalNode)
    (hx : Points W t x p) (key : String) :
    Same W t (TxBTree.insertChild n key p) (TxBTree.insertChild m key x) := by
  refine .of_children htype (h.type.trans htype) h.entries ?_ ?_
  · simp only [TxBTree.insertChild, h.keys]
  · simp only [TxBTree.insertChild, h.keys]
    exact forall₂_insertIdx (h.children htype) hx _

theorem Same.outOfPlace (h : Same W t n m) (htype : n.nodeType = .internalNode) (key : String) :
    TxBTree.outOfPlace m key = TxBTree.outOfPlace n key := by
  simp only [TxBTree.outOfPlace, h.keys, (h.children htype).length_eq]

-- Two pointers to one page.
theorem Mirror.points_of_actual {r : PageNum} {db db' : Database} (h : Mirror W r db t db')
    (hq : Points W t q c) (hx : Points W t x c) {d : PageNum} (hd : Points W t q d) :
    Points W t x d := by
  have hdc : d = c := h.inj d hd.used c hq.used (hd.actual.symm.trans hq.actual)
  rw [hdc]
  exact hx

end Nodes

section Descend

variable {W : World} {r q c : PageNum} {t : BTree} {db db' : Database} {n m : BTreeNode}
  {qs cs path : List PageNum} {key : String}

-- Inner nodes that go together page by page.
structure Paths (W : World) (t : BTree) (qs cs : List PageNum) : Prop where
  points : List.Forall₂ (Points W t) qs cs
  inner : ∀ c ∈ cs, c ∈ W.stored ∧ W.kind c = .internalNode

theorem Paths.cons (hq : Points W t q c) (hc : c ∈ W.stored) (hkind : W.kind c = .internalNode)
    (h : Paths W t qs cs) : Paths W t (q :: qs) (c :: cs) := by
  refine ⟨.cons hq h.points, fun d hd => ?_⟩
  rcases List.mem_cons.mp hd with rfl | hd
  · exact ⟨hc, hkind⟩
  · exact h.inner d hd

-- Both ways down are at the node of the page `c`.
structure At (W : World) (t : BTree) (db db' : Database) (n m : BTreeNode) (q c : PageNum)
    (qs cs : List PageNum) : Prop where
  points : Points W t q c
  stored : c ∈ W.stored
  node : db.nodeAt c = some n
  node' : db'.nodeAt (W.place c) = some m
  kind : n.nodeType = W.kind c
  same : Same W t n m
  paths : Paths W t qs cs

theorem At.page (h : At W t db db' n m q c qs cs) : m.pageNum = W.place c :=
  Database.nodeAt_pageNum h.node'

theorem Mirror.at_read (h : Mirror W r db t db') (hq : Points W t q c) (hc : c ∈ W.stored)
    (hpaths : Paths W t qs cs) :
    ∃ n m, Proc.exec (readNode c) (BTree.open r) db = (.ok n, BTree.open r, db) ∧
      Proc.exec (readNode q) t db' = (.ok m, t, db') ∧ At W t db db' n m q c qs cs := by
  obtain ⟨_, n, _, hn, _⟩ := h.nodes c hc
  obtain ⟨m, hread, hm, hkind, hsame⟩ := h.exec_read hq hc hn
  exact ⟨n, m, exec_readNode_at hn, hread, hq, hc, hn, hm, hkind, hsame, hpaths⟩

-- Where the way down in place ends, so does that in the transaction.
theorem At.exec_findLeaf (hat : At W t db db' n m q c qs cs) (h : Mirror W r db t db')
    (hfull : W.used ⊆ W.stored) {fuel fuel' : Nat} (hfuel : fuel ≤ fuel') {n' : BTreeNode}
    (hrun : Proc.exec (findLeaf fuel n key (c :: cs)) (BTree.open r) db =
      (.ok (n', path), BTree.open r, db)) :
    ∃ m' q' c' qs' cs', Proc.exec (findLeaf fuel' m key (q :: qs)) t db' =
        (.ok (m', q' :: qs'), t, db') ∧ path = c' :: cs' ∧
      At W t db db' n' m' q' c' qs' cs' ∧ n'.nodeType = .leafNode := by
  induction fuel generalizing fuel' n m q c qs cs with
  | zero => cases congrArg Prod.fst hrun
  | succ fuel ih =>
    obtain ⟨fuel', rfl⟩ : ∃ k, fuel' = k + 1 := ⟨fuel' - 1, by omega⟩
    unfold findLeaf at hrun ⊢
    rw [hat.same.type]
    cases htype : n.nodeType with
    | leafNode =>
      simp only [htype] at hrun ⊢
      rw [Proc.exec_pure] at hrun
      obtain ⟨rfl, rfl⟩ : n = n' ∧ c :: cs = path := by simpa using congrArg Prod.fst hrun
      exact ⟨m, q, c, qs, cs, Proc.exec_pure .., rfl, hat, htype⟩
    | internalNode =>
      simp only [htype] at hrun ⊢
      cases hchild : findChild n key with
      | error e =>
        rw [hchild, Proc.exec_bind_error (show Proc.exec (Proc.ofExcept (.error e)) _ _ = _ from rfl)]
          at hrun
        cases congrArg Prod.fst hrun
      | ok d =>
        obtain ⟨y, hfind, hy⟩ := hat.same.findChild htype hchild
        obtain ⟨n₁, m₁, hreadA, hreadB, hat₁⟩ := h.at_read hy (hfull hy.used)
          (hat.paths.cons hat.points hat.stored (hat.kind ▸ htype))
        rw [hchild, Proc.exec_bind_ok (Proc.exec_ofExcept_ok ..), Proc.exec_bind_ok hreadA] at hrun
        rw [hfind, Proc.exec_bind_ok (Proc.exec_ofExcept_ok ..), Proc.exec_bind_ok hreadB]
        exact ih hat₁ (Nat.le_of_succ_le_succ hfuel) hrun

-- More fuel does not change where the way down ends.
theorem exec_findLeaf_mono {fuel fuel' : Nat} (hfuel : fuel ≤ fuel') {a : BTreeNode × List PageNum}
    (hrun : Proc.exec (findLeaf fuel n key path) t db = (.ok a, t, db)) :
    Proc.exec (findLeaf fuel' n key path) t db = (.ok a, t, db) := by
  induction fuel generalizing fuel' n path with
  | zero => cases congrArg Prod.fst hrun
  | succ fuel ih =>
    obtain ⟨fuel', rfl⟩ : ∃ k, fuel' = k + 1 := ⟨fuel' - 1, by omega⟩
    unfold findLeaf at hrun ⊢
    cases htype : n.nodeType with
    | leafNode =>
      simp only [htype] at hrun ⊢
      exact hrun
    | internalNode =>
      simp only [htype] at hrun ⊢
      cases hchild : findChild n key with
      | error e =>
        rw [hchild, Proc.exec_bind_error (show Proc.exec (Proc.ofExcept (.error e)) _ _ = _ from rfl)]
          at hrun
        cases congrArg Prod.fst hrun
      | ok d =>
        rw [hchild, Proc.exec_bind_ok (Proc.exec_ofExcept_ok ..)] at hrun
        rw [Proc.exec_bind_ok (Proc.exec_ofExcept_ok ..)]
        rw [Proc.exec_bind, exec_readNode_seen] at hrun ⊢
        cases hseen : nodeSeen t db d with
        | error e =>
          rw [hseen] at hrun
          cases congrArg Prod.fst hrun
        | ok n₁ =>
          rw [hseen] at hrun
          exact ih (Nat.le_of_succ_le_succ hfuel) hrun

-- The pages of the tree in place.
theorem Mirror.ptrs_stored {T : PageTree} (h : Mirror W T.ptr db t db') (hrep : Represents db T)
    (hfull : W.used ⊆ W.stored) : ∀ p ∈ T.ptrs, p ∈ W.stored := by
  refine ptrs_closed (hfull h.root.1) fun c hc hstored d hd => ?_
  obtain ⟨n, hn, _, hshape⟩ := hrep.holds.nodeAt (show (c.1, c.2) ∈ [T].flatMap cells by simpa using hc)
  rw [← hshape, BTreeNode.children_shape, List.map_id] at hd
  exact hfull (h.links_used hstored hn hd)

-- The pages of the transaction are enough for a way down the tree.
theorem Mirror.height_le {T : PageTree} (h : Mirror W T.ptr db t db') (hrep : Represents db T)
    (hfull : W.used ⊆ W.stored) : T.height ≤ db'.pager.numPages := by
  have hused : ∀ p ∈ T.ptrs, p ∈ W.used := fun p hp => (h.nodes p (h.ptrs_stored hrep hfull p hp)).1
  refine T.height_le_length_ptrs.trans ?_
  have hnd : (T.ptrs.map W.place).Nodup := by
    have hptrs : T.ptrs.Nodup := by simpa using hrep.holds.stores.nodup_ptrs
    exact hptrs.map_on fun p hp q hq => h.inj p (hused p hp) q (hused q hq)
  have hsub : T.ptrs.map W.place ⊆ List.range db'.pager.numPages := by
    intro x hx
    obtain ⟨p, hp, rfl⟩ := List.mem_map.mp hx
    exact List.mem_range.mpr (h.live p (hused p hp)).2.2.1
  simpa using (List.subperm_of_subset hnd hsub).length_le

-- The leaf of a key, with the path to it, in both.
theorem Mirror.exec_descend {T : PageTree} (h : Mirror W T.ptr db t db') (hrep : Represents db T)
    (hfull : W.used ⊆ W.stored) (key : String) {n : BTreeNode} {c : PageNum} {cs : List PageNum}
    (hrun : Proc.exec (descend key) (BTree.open T.ptr) db = (.ok (n, c :: cs), BTree.open T.ptr, db)) :
    ∃ m q qs, Proc.exec (descend key) t db' = (.ok (m, q :: qs), t, db') ∧
      At W t db db' n m q c qs cs ∧ n.nodeType = .leafNode := by
  have hpoints : Points W t t.getRootPage T.ptr := by
    rw [h.root.2]
    exact h.points_place h.root.1
  obtain ⟨top, top', hreadA, hreadB, hat⟩ := h.at_read hpoints (hfull h.root.1)
    (show Paths W t [] [] from ⟨.nil, by simp⟩)
  -- the way down in place needs no more fuel than the tree is high
  obtain ⟨n', ctx, p, es, nx, he, _⟩ := exec_findLeaf T.ptr
    (show Holds db [plug [] T] from hrep.holds) hat.node hrep.ordered bot_le
      (WithBot.coe_lt_coe.mpr (WithTop.coe_lt_top key)) le_rfl
  have hboundA : Proc.exec (walkBound : TreeM Nat) (BTree.open T.ptr) db =
      (.ok (db.pager.numPages + 1), BTree.open T.ptr, db) := rfl
  have hboundB : Proc.exec (walkBound : TreeM Nat) t db' = (.ok (db'.pager.numPages + 1), t, db') := rfl
  have hsame : n' = n ∧ p :: ctx.map Frame.ptr = c :: cs := by
    have he' := exec_findLeaf_mono (Nat.le_succ_of_le hrep.holds.height_le) he
    unfold descend at hrun
    rw [Proc.exec_bind_ok (Proc.exec_getLocal _ db), Proc.exec_bind_ok hboundA,
      getRootPage_open, Proc.exec_bind_ok hreadA] at hrun
    simpa using congrArg Prod.fst (he'.symm.trans hrun)
  obtain ⟨rfl, hpath⟩ := hsame
  rw [hpath] at he
  obtain ⟨m, q, c', qs, cs', hrunB, hcons, hat', hleaf⟩ := hat.exec_findLeaf h hfull
    (Nat.le_succ_of_le (h.height_le hrep hfull)) he
  obtain ⟨rfl, rfl⟩ := List.cons.inj hcons
  refine ⟨m, q, qs, ?_, hat', hleaf⟩
  unfold descend
  rw [Proc.exec_bind_ok (Proc.exec_getLocal t db'), Proc.exec_bind_ok hboundB,
    Proc.exec_bind_ok hreadB]
  exact hrunB

end Descend

section Run

variable {P : Set PageNum} {W W₁ : World} {r r₁ q c p x : PageNum} {t t₁ : BTree}
  {db db₁ db₂ db' db₁' : Database} {n m : BTreeNode} {qs cs : List PageNum} {key : String}
  {run run₁ prog prog₁ : TreeM Unit}

-- When `run` ends well in place, `prog` does so in the transaction, with the same tree.
def Matches (P : Set PageNum) (W : World) (run : TreeM Unit) (r : PageNum) (db : Database)
    (prog : TreeM Unit) (t : BTree) (db' : Database) : Prop :=
  ∀ s db₁, Proc.exec run (BTree.open r) db = (.ok (), s, db₁) → ∃ r' W' t' db₁', s = BTree.open r' ∧
    Proc.exec prog t db' = (.ok (), t', db₁') ∧ Mirror W' r' db₁ t' db₁' ∧
      Follows P W t db' W' t' db₁' ∧ W'.used ⊆ W'.stored

theorem Matches.after (h : Matches P W₁ run₁ r₁ db₁ prog₁ t₁ db₁')
    (hf : Follows P W t db' W₁ t₁ db₁')
    (hrun : Proc.exec run (BTree.open r) db = Proc.exec run₁ (BTree.open r₁) db₁)
    (hprog : Proc.exec prog t db' = Proc.exec prog₁ t₁ db₁') : Matches P W run r db prog t db' := by
  intro s db₂ hs
  obtain ⟨r', W', t', db₂', hopen, he, hmirror, hfollows, hfull⟩ := h s db₂ (hrun ▸ hs)
  exact ⟨r', W', t', db₂', hopen, hprog.trans he, hmirror, hf.trans hfollows, hfull⟩

theorem Matches.of_fail {e : Error} {s : BTree × Database}
    (hrun : Proc.exec run (BTree.open r) db = (.error e, s)) : Matches P W run r db prog t db' := by
  intro s db₂ hs
  cases congrArg Prod.fst (hrun.symm.trans hs)

-- A node that is there is written, in place or not.
theorem Mirror.matches_write (h : Mirror W r db t db') (hfull : W.used ⊆ W.stored)
    (he : Edited db p n db₁) (hrun : Proc.exec run (BTree.open r) db = (.ok (), BTree.open r, db₁))
    (hp : p ∈ W.used) (hpP : p ∈ P) (hm : m.pageNum = W.place p) (hkind : n.nodeType = W.kind p)
    (hsame : Same W t n m) : Matches P W run r db (writeNode m) t db' := by
  intro s db₂ hs
  obtain ⟨_, rfl, rfl⟩ : () = () ∧ BTree.open r = s ∧ db₁ = db₂ := by
    simpa using hrun.symm.trans hs
  obtain ⟨x, t', db₁', hwrite, hw⟩ := h.exec_write hp hm
  obtain ⟨hmirror, hfollows⟩ := h.write hw he hp hm hkind hsame
  refine ⟨r, _, t', db₁', rfl, hwrite, hmirror, hfollows.mono ?_, fun y hy => .inl (hfull hy)⟩
  rintro y rfl
  exact hpP

theorem Paths.follows (h : Paths W t qs cs) (hf : Follows P W t db W₁ t₁ db₁) :
    Paths W₁ t₁ qs cs := by
  refine ⟨h.points.imp hf.points, fun y hy => ?_⟩
  obtain ⟨_, _, hq⟩ := forall₂_mem_right h.points hy
  obtain ⟨hstored, hkind⟩ := h.inner y hy
  exact ⟨hf.stored hstored, (hf.kind y hq.used).trans hkind⟩

theorem Mirror.set_root (h : Mirror W r db t db') (hp : p ∈ W.used) :
    Mirror W p db { t with modifiedRoot := W.place p } db' ∧
      Follows P W t db' W { t with modifiedRoot := W.place p } db' := by
  have hpoints : ∀ q c, Points W t q c → Points W { t with modifiedRoot := W.place p } q c :=
    fun q c hq => ⟨hq.used, hq.actual, hq.exact⟩
  refine ⟨{ h with root := ⟨hp, if_pos (h.live p hp).2.1⟩, nodes := fun c hc => ?_ },
    { Follows.refl W t db' with
      points := hpoints
      ext := ⟨fun _ hx => hx, fun _ hx => .inl hx, fun _ hx => hx, fun _ _ => rfl, rfl⟩ }⟩
  obtain ⟨hu, n, m, hn, hm, hk, hs⟩ := h.nodes c hc
  exact ⟨hu, n, m, hn, hm, hk, ⟨hs.type, hs.entries, hs.keys, hs.links.imp hpoints⟩⟩

theorem Mirror.matches_createNewRoot {left left' right right' : PageNum} (h : Mirror W r db t db')
    (hfull : W.used ⊆ W.stored) (hl : Points W t left' left) (hr : Points W t right' right) :
    Matches P W (createNewRoot left right key) r db (createNewRoot left' right' key) t db' := by
  obtain ⟨p, db₂, x, db₂', W₂, halloc, halloc', hmark, h₂, hf₂, hp, rfl, hkind, hused, hstored,
    _⟩ := h.exec_alloc .internalNode
  have hpages : List.Forall₂ (Points W₂ (t.marked (W₂.place p))) [left', right'] [left, right] :=
    .cons (hf₂.points _ _ hl) (.cons (hf₂.points _ _ hr) .nil)
  generalize hn : ({ BTreeNode.newInternal p with
    keys := [key], children := [left, right], numKeys := 1 } : BTreeNode) = n
  generalize hm : ({ BTreeNode.newInternal (W₂.place p) with
    keys := [key], children := [left', right'], numKeys := 1 } : BTreeNode) = m
  have hsame : Same W₂ (t.marked (W₂.place p)) n m := by
    subst hn hm
    exact .of_children rfl rfl rfl rfl hpages
  have hpn : n.pageNum = p := hn ▸ rfl
  have hpm : m.pageNum = W₂.place p := hm ▸ rfl
  have htype : n.nodeType = W₂.kind p := hkind ▸ hn ▸ rfl
  obtain ⟨y, t₃, db₃', hwrite, hw⟩ := h₂.exec_write hp hpm
  obtain ⟨h₃, hf₃⟩ := h₂.write hw (hpn ▸ edited_written h₂.pager n) hp hpm htype hsame
  -- the new page is the transaction's own
  obtain rfl : y = W₂.place p := by
    rcases hw.target with ⟨_, hy⟩ | ⟨hown, _⟩
    · exact hy.trans hpm
    · exact absurd (mem_marked.mpr (.inl hpm)) hown
  obtain ⟨h₄, hf₄⟩ := h₃.set_root (P := P) hp
  rw [World.place_wrote_self] at h₄ hf₄
  have hown := hf₃.of_own (P := P) (mem_marked.mpr (.inl rfl))
  have hrun : Proc.exec (createNewRoot left right key) (BTree.open r) db =
      (.ok (), BTree.open p, written db₂ n) := by
    unfold createNewRoot
    rw [Proc.exec_bind_ok halloc, Proc.exec_bind_ok (exec_markNew_open p db₂), hn,
      Proc.exec_bind_ok (exec_writeNode_open r h₂.pager n)]
    rfl
  intro s db₁ hs
  obtain ⟨_, rfl, rfl⟩ : () = () ∧ BTree.open p = s ∧ written db₂ n = db₁ := by
    simpa using hrun.symm.trans hs
  refine ⟨p, _, _, _, rfl, ?_, h₄, (hf₂.mono (Set.empty_subset P)).trans (hown.trans hf₄), ?_⟩
  · unfold createNewRoot
    rw [Proc.exec_bind_ok halloc', Proc.exec_bind_ok hmark, hm, Proc.exec_bind_ok hwrite,
      Proc.exec_modifyLocal, if_pos hw.copies.active]
  · intro c hc
    have hc : c ∈ W.used ∪ {p} := hused ▸ hc
    exact hc.imp (fun hc => hstored ▸ hfull hc) id

-- What `split_leaf` and `split_internal` have in common.
def cut (left right : PageNum → BTreeNode) (next : PageNum → TreeM Unit) : TreeM Unit := do
  let newPage ← allocPage
  markNew newPage
  writeNode (left newPage)
  writeNode (right newPage)
  next newPage

-- The node of the page `c` is cut, and the right half gets a new page.
theorem Mirror.matches_cut {left left' right right' : PageNum → BTreeNode}
    {next next' : PageNum → TreeM Unit} (h : Mirror W r db t db') (kind : NodeType)
    (hfull : W.used ⊆ W.stored)
    (hc : c ∈ W.used) (hcP : c ∈ P)
    (hleft : ∀ p, (left p).pageNum = c ∧ (left p).nodeType = W.kind c ∧
      (left' p).pageNum = W.place c)
    (hright : ∀ p, (right p).pageNum = p ∧ (right p).nodeType = kind ∧ (right' p).pageNum = p)
    (hsame : ∀ p x W₁ t₁, (∀ q d, Points W t q d → Points W₁ t₁ q d) →
      Same W₁ t₁ (left p) (left' x) ∧ Same W₁ t₁ (right p) (right' x))
    (hnext : ∀ p x W₁ db₁ t₁ db₁', Mirror W₁ r db₁ t₁ db₁' → Follows P W t db' W₁ t₁ db₁' →
      W₁.used ⊆ W₁.stored → Points W₁ t₁ x p → Matches P W₁ (next p) r db₁ (next' x) t₁ db₁') :
    Matches P W (cut left right next) r db (cut left' right' next') t db' := by
  obtain ⟨p, db₁, x, db₁', W₁, halloc, halloc', hmark, h₁, hf₁, hp, rfl, hkind, hused, hstored,
    hkept⟩ := h.exec_alloc kind
  obtain ⟨hcp, hplace⟩ := hkept c hc
  obtain ⟨hlp, hlk, hlm⟩ := hleft p
  obtain ⟨hrp, hrk, hrm⟩ := hright p
  -- the left half
  obtain ⟨y, t₂, db₂', hwrite₂, hw₂⟩ := h₁.exec_write (m := left' (W₁.place p)) (hf₁.used hc)
    ((hleft _).2.2.trans hplace.symm)
  obtain ⟨h₂, hf₂⟩ := h₁.write hw₂ (hlp ▸ edited_written h₁.pager (left p)) (hf₁.used hc)
    ((hleft _).2.2.trans hplace.symm) (hlk.trans (hf₁.kind c hc).symm)
    (hsame p _ _ _ hf₁.points).1
  have hf₁₂ := (hf₁.mono (Set.empty_subset P)).trans (hf₂.mono (by simpa using hcP))
  have hplace₂ := World.place_wrote_of_ne (W := W₁) (t := t.marked (W₁.place p)) (x := y) hcp.symm
  -- the right half
  have hpage : (right' (W₁.place p)).pageNum = (W₁.wrote (t.marked (W₁.place p)) c y).place p :=
    (hright _).2.2.trans hplace₂.symm
  obtain ⟨z, t₃, db₃', hwrite₃, hw₃⟩ := h₂.exec_write hp hpage
  obtain ⟨h₃, hf₃⟩ := h₂.write hw₃ (hrp ▸ edited_written h₂.pager (right p)) hp hpage
    (hrk.trans hkind.symm) (hsame p _ _ _ hf₁₂.points).2
  have hown : (W₁.wrote (t.marked (W₁.place p)) c y).place p ∈ t₂.newPages := by
    rw [hplace₂]
    exact hw₂.ext.new _ (mem_marked.mpr (.inl rfl))
  have hf := hf₁₂.trans (hf₃.of_own hown)
  have hpoints := hf₃.points _ _ (h₂.points_place hp)
  rw [hplace₂] at hpoints
  refine (hnext p (W₁.place p) _ _ t₃ db₃' h₃ hf ?_ hpoints).after hf ?_ ?_
  · intro d hd
    have hd : d ∈ W.used ∪ {p} := hused ▸ hd
    exact hd.imp (fun hd => .inl (hstored ▸ hfull hd)) id
  · unfold cut
    rw [Proc.exec_bind_ok halloc, Proc.exec_bind_ok (exec_markNew_open p db₁),
      Proc.exec_bind_ok (exec_writeNode_open r h₁.pager _),
      Proc.exec_bind_ok (exec_writeNode_open r h₂.pager _)]
  · unfold cut
    rw [Proc.exec_bind_ok halloc', Proc.exec_bind_ok hmark, Proc.exec_bind_ok hwrite₂,
      Proc.exec_bind_ok hwrite₃]

theorem splitInternal_eq_cut {promote : String} (h : n.keys[n.keys.length / 2]? = some promote) :
    splitInternal n (c :: cs) (insertIntoParent cs) =
      cut (fun _ => leftHalf n (n.keys.length / 2)) (rightHalf n (n.keys.length / 2))
        fun p => attach (c :: cs) n.pageNum p promote := by
  unfold splitInternal cut
  simp only [h]
  cases cs <;> rfl

theorem Same.halves {mid : Nat} {p x : PageNum} (h : Same W t n m) (htype : n.nodeType = .internalNode) :
    Same W t (leftHalf n mid) (leftHalf m mid) ∧ Same W t (rightHalf n mid p) (rightHalf m mid x) := by
  have hchildren := h.children htype
  refine ⟨.of_children htype (h.type.trans htype) h.entries ?_ ?_, .of_children rfl rfl rfl ?_ ?_⟩
  · simp only [leftHalf, h.keys]
  · exact List.forall₂_take _ hchildren
  · simp only [rightHalf, h.keys]
  · exact List.forall₂_drop _ hchildren

-- A new node can be attached after any steps that follow.
def Attaches (P : Set PageNum) (W : World) (r : PageNum) (t : BTree) (db' : Database)
    (cs qs : List PageNum) (left left' : PageNum) : Prop :=
  ∀ key p x W₁ db₁ t₁ db₁', Mirror W₁ r db₁ t₁ db₁' → Follows P W t db' W₁ t₁ db₁' →
    W₁.used ⊆ W₁.stored → Points W₁ t₁ x p →
      Matches P W₁ (attach cs left p key) r db₁ (attach qs left' x key) t₁ db₁'

-- The overfull node of the page `c` is split, and the new one attached.
theorem Mirror.matches_splitInternal (h : Mirror W r db t db') (hfull : W.used ⊆ W.stored)
    (hc : c ∈ W.used) (hcP : c ∈ P) (hn : n.pageNum = c) (hm : m.pageNum = W.place c)
    (htype : n.nodeType = .internalNode) (hkind : n.nodeType = W.kind c) (hsame : Same W t n m)
    (hattach : Attaches P W r t db' (c :: cs) (q :: qs) c (W.place c)) :
    Matches P W (splitInternal n (c :: cs) (insertIntoParent cs)) r db
      (splitInternal m (q :: qs) (insertIntoParent qs)) t db' := by
  cases hmid : n.keys[n.keys.length / 2]? with
  | none =>
    obtain ⟨p, db₁, _, _, _, halloc, _⟩ := h.exec_alloc .internalNode
    refine .of_fail (e := .panic "index out of bounds") (s := (BTree.open r, db₁)) ?_
    unfold splitInternal
    rw [Proc.exec_bind_ok halloc, Proc.exec_bind_ok (exec_markNew_open p db₁)]
    simp only [hmid]
    rfl
  | some promote =>
    have hmid' : m.keys[m.keys.length / 2]? = some promote := by rw [hsame.keys, hmid]
    rw [splitInternal_eq_cut hmid, splitInternal_eq_cut hmid', hsame.keys, hn, hm]
    refine h.matches_cut .internalNode hfull hc hcP (fun p => ⟨hn, hkind, hm⟩)
      (fun p => ⟨rfl, rfl, rfl⟩) (fun p x W₁ t₁ hpoints => ?_)
      (fun p x W₁ db₁ t₁ db₁' => hattach promote p x W₁ db₁ t₁ db₁')
    have hsame₁ : Same W₁ t₁ n m := ⟨hsame.type, hsame.entries, hsame.keys, hsame.links.imp hpoints⟩
    exact hsame₁.halves htype

theorem Mirror.matches_insertIntoParent (h : Mirror W r db t db') (hfull : W.used ⊆ W.stored)
    (hc : c ∈ W.used) (hcP : c ∈ P) (hn : n.pageNum = c) (hm : m.pageNum = W.place c)
    (htype : n.nodeType = .internalNode) (hkind : n.nodeType = W.kind c) (hsame : Same W t n m)
    (hx : Points W t x p)
    (hattach : Attaches P W r t db' (c :: cs) (q :: qs) c (W.place c)) :
    Matches P W (insertIntoParent (c :: cs) n key p) r db
      (insertIntoParent (q :: qs) m key x) t db' := by
  unfold insertIntoParent
  rw [hsame.outOfPlace htype key]
  by_cases hout : TxBTree.outOfPlace n key = true
  · rw [if_pos hout]
    exact .of_fail (Proc.exec_fail ..)
  · rw [if_neg hout, if_neg hout]
    have hsame' := hsame.insertChild htype hx key
    simp only [hsame'.keys]
    by_cases hroom : (TxBTree.insertChild n key p).keys.length > BTREE_ORDER
    · rw [if_pos hroom, if_pos hroom]
      exact h.matches_splitInternal hfull hc hcP hn hm htype hkind hsame' hattach
    · rw [if_neg hroom, if_neg hroom]
      have hedit := edited_written h.pager (TxBTree.insertChild n key p)
      rw [show (TxBTree.insertChild n key p).pageNum = c from hn] at hedit
      exact h.matches_write hfull hedit (exec_writeNode_open r h.pager _) hc hcP hm hkind hsame'

-- The new node gets a place in the tree, with all the splits this leads to further up.
theorem Mirror.matches_attach {left : PageNum} (h : Mirror W r db t db') (hfull : W.used ⊆ W.stored)
    (hpaths : Paths W t qs cs) (hP : ∀ d ∈ cs, d ∈ P) (hq : Points W t q c)
    (hl : Points W t left c) (hx : Points W t x p) :
    Matches P W (attach (c :: cs) c p key) r db (attach (q :: qs) left x key) t db' := by
  induction cs generalizing W t db db' qs q c left p x key with
  | nil =>
    obtain rfl := List.forall₂_nil_right_iff.mp hpaths.points
    exact h.matches_createNewRoot hfull hl hx
  | cons d cs ih =>
    obtain ⟨y, ys, hy, hys, rfl⟩ := List.forall₂_cons_right_iff.mp hpaths.points
    obtain ⟨hstored, hkind⟩ := hpaths.inner d (List.mem_cons_self ..)
    have hpaths' : Paths W t ys cs := ⟨hys, fun e he => hpaths.inner e (List.mem_cons_of_mem _ he)⟩
    obtain ⟨n, m, hreadA, hreadB, hat⟩ := h.at_read hy hstored hpaths'
    have htype : n.nodeType = .internalNode := hat.kind.trans hkind
    have hsame := hat.same.redirect htype fun e he => h.points_of_actual hq hl he
    obtain ⟨hpage, _⟩ := redirect_rest m q left
    have hnext : Matches P W (insertIntoParent (d :: cs) n key p) r db
        (insertIntoParent (y :: ys) (redirect m q left) key x) t db' := by
      refine h.matches_insertIntoParent hfull (h.nodes d hstored).1 (hP d (List.mem_cons_self ..))
        (Database.nodeAt_pageNum hat.node) (hpage.trans hat.page) htype hat.kind hsame hx ?_
      intro key p x W₁ db₁ t₁ db₁' h₁ hf₁ hfull₁ hx₁
      exact ih h₁ hfull₁ (hpaths'.follows hf₁) (fun e he => hP e (List.mem_cons_of_mem _ he))
        (hf₁.points _ _ hy) (hf₁.points _ _ (h.points_place hy.used)) hx₁
    refine hnext.after (Follows.refl W t db') ?_ ?_
    · rw [attach, Proc.exec_bind_ok hreadA]
      simp [redirect]
    · rw [attach, Proc.exec_bind_ok hreadB]

theorem splitLeaf_eq_cut {first : LeafEntry} {rest : List LeafEntry}
    (h : n.entries.drop (n.entries.length / 2) = first :: rest) :
    splitLeaf n (c :: cs) = cut (leftLeaf n (n.entries.length / 2))
      (rightLeaf n (n.entries.length / 2)) fun p => attach (c :: cs) n.pageNum p first.key := by
  unfold splitLeaf cut leftLeaf rightLeaf
  simp only [h]
  cases cs <;> rfl

theorem Same.leaf_halves {mid : Nat} {p x : PageNum} (h : Same W t n m)
    (htype : n.nodeType = .leafNode) :
    Same W t (leftLeaf n mid p) (leftLeaf m mid x) ∧
      Same W t (rightLeaf n mid p) (rightLeaf m mid x) := by
  refine ⟨.of_leaves htype (h.type.trans htype) ?_ h.keys, .of_leaves rfl rfl ?_ rfl⟩
  · simp only [leftLeaf, h.entries]
  · simp only [rightLeaf, h.entries]

-- An overfull leaf is split, and the new one attached.
theorem Mirror.matches_splitLeaf (h : Mirror W r db t db') (hfull : W.used ⊆ W.stored)
    (hq : Points W t q c) (hcP : c ∈ P) (hn : n.pageNum = c) (hm : m.pageNum = W.place c)
    (htype : n.nodeType = .leafNode) (hkind : n.nodeType = W.kind c) (hsame : Same W t n m)
    (hlong : BTREE_ORDER < n.entries.length) (hpaths : Paths W t qs cs) (hP : ∀ d ∈ cs, d ∈ P) :
    Matches P W (splitLeaf n (c :: cs)) r db (splitLeaf m (q :: qs)) t db' := by
  obtain ⟨first, rest, hdrop⟩ : ∃ first rest,
      n.entries.drop (n.entries.length / 2) = first :: rest := by
    refine List.exists_cons_of_ne_nil fun hnil => ?_
    rw [List.drop_eq_nil_iff] at hnil
    omega
  have hdrop' : m.entries.drop (m.entries.length / 2) = first :: rest := by rw [hsame.entries, hdrop]
  rw [splitLeaf_eq_cut hdrop, splitLeaf_eq_cut hdrop', hsame.entries, hn, hm]
  refine h.matches_cut .leafNode hfull hq.used hcP (fun p => ⟨hn, hkind, hm⟩)
    (fun p => ⟨rfl, rfl, rfl⟩) (fun p x W₁ t₁ hpoints => ?_)
    (fun p x W₁ db₁ t₁ db₁' h₁ hf₁ hfull₁ hx => ?_)
  · have hsame₁ : Same W₁ t₁ n m := ⟨hsame.type, hsame.entries, hsame.keys, hsame.links.imp hpoints⟩
    exact hsame₁.leaf_halves htype
  · exact h₁.matches_attach hfull₁ (hpaths.follows hf₁) hP (hf₁.points _ _ hq)
      (hf₁.points _ _ (h.points_place hq.used)) hx

theorem Mirror.matches_nothing (h : Mirror W r db t db') (hfull : W.used ⊆ W.stored) :
    Matches P W (pure ()) r db (pure ()) t db' := by
  intro s db₁ hs
  obtain ⟨_, rfl, rfl⟩ : () = () ∧ BTree.open r = s ∧ db = db₁ := by simpa [Proc.exec_pure] using hs
  exact ⟨r, W, t, db', rfl, Proc.exec_pure .., h, Follows.refl W t db', hfull⟩

-- What `update_path_after_modification` does with one parent of the path.
def relink (m : BTreeNode) (q : PageNum) : TreeM Unit := do
  let t ← Proc.getLocal
  match t.cowPages.get? q with
  | some newChild =>
    if q ∈ m.children then
      writeNode { m with children := TxBTree.replaceChild q newChild m.children }
  | none => pure ()

theorem exec_updatePath_cons {q y : PageNum} {ys : List PageNum} {t t' : BTree} {db db' : Database}
    {m : BTreeNode} (hread : Proc.exec (readNode y) t db = (.ok m, t, db))
    (hlink : Proc.exec (relink m q) t db = (.ok (), t', db')) :
    Proc.exec (updatePathAfterModification (q :: y :: ys)) t db =
      Proc.exec (updatePathAfterModification (y :: ys)) t' db' := by
  unfold relink at hlink
  rw [updatePathAfterModification, Proc.exec_bind_ok hread, Proc.exec_bind_ok (Proc.exec_getLocal t db)]
  rw [Proc.exec_bind_ok (Proc.exec_getLocal t db)] at hlink
  cases hc : t.cowPages.get? q with
  | none =>
    simp only [hc] at hlink ⊢
    obtain ⟨rfl, rfl⟩ : t = t' ∧ db = db' := by simpa [Proc.exec_pure] using hlink
    rfl
  | some x =>
    simp only [hc] at hlink ⊢
    by_cases hmem : q ∈ m.children
    · simp only [if_pos hmem] at hlink ⊢
      rw [Proc.exec_bind_ok hlink]
    · simp only [if_neg hmem] at hlink ⊢
      obtain ⟨rfl, rfl⟩ : t = t' ∧ db = db' := by simpa [Proc.exec_pure] using hlink
      rfl

theorem Mirror.cow_place (h : Mirror W r db t db') (hq : Points W t q c)
    (hx : t.cowPages.get? q = some x) : x = W.place c := by
  have hact : t.actualPage q = (t.cowPages.get? q).getD q := if_pos h.active
  rw [hx, hq.actual] at hact
  exact hact.symm

theorem Mirror.exec_relink {y d : PageNum} (h : Mirror W r db t db') (hfull : W.used ⊆ W.stored)
    (hat : At W t db db' n m y d qs cs) (hkind : W.kind d = .internalNode) (hd : d ∈ P)
    (hq : Points W t q c) : ∃ W₁ t₁ db₁', Proc.exec (relink m q) t db' = (.ok (), t₁, db₁') ∧
      Mirror W₁ r db t₁ db₁' ∧ Follows P W t db' W₁ t₁ db₁' ∧ W₁.used ⊆ W₁.stored := by
  unfold relink
  rw [Proc.exec_bind_ok (Proc.exec_getLocal t db')]
  cases hx : t.cowPages.get? q with
  | none => exact ⟨W, t, db', Proc.exec_pure .., h, Follows.refl W t db', hfull⟩
  | some x =>
    obtain rfl := h.cow_place hq hx
    by_cases hmem : q ∈ m.children
    · have htype : n.nodeType = .internalNode := hat.kind.trans hkind
      have hsame := hat.same.replaceChild htype fun e he =>
        h.points_of_actual hq (h.points_place hq.used) he
      have hnone : Proc.exec (pure () : TreeM Unit) (BTree.open r) db = (.ok (), BTree.open r, db) := rfl
      have hwrite := h.matches_write
        (m := { m with children := TxBTree.replaceChild q (W.place c) m.children }) hfull
        (edited_self h.pager hat.node) hnone hat.points.used hd hat.page hat.kind hsame
      obtain ⟨_, W₁, t₁, db₁', hopen, he, h₁, hf₁, hfull₁⟩ := hwrite _ _ hnone
      obtain rfl : r = _ := congrArg BTree.rootPage hopen
      exact ⟨W₁, t₁, db₁', by simpa only [if_pos hmem] using he, h₁, hf₁, hfull₁⟩
    · exact ⟨W, t, db', by simp only [if_neg hmem, Proc.exec_pure], h, Follows.refl W t db', hfull⟩

theorem Mirror.matches_updatePath (h : Mirror W r db t db') (hfull : W.used ⊆ W.stored)
    (hq : Points W t q c) (hpaths : Paths W t qs cs) (hP : ∀ d ∈ cs, d ∈ P) :
    Matches P W (updatePathAfterModification (c :: cs)) r db
      (updatePathAfterModification (q :: qs)) t db' := by
  induction cs generalizing W t db' qs q c with
  | nil =>
    obtain rfl := List.forall₂_nil_right_iff.mp hpaths.points
    exact h.matches_nothing hfull
  | cons d cs ih =>
    obtain ⟨y, ys, hy, hys, rfl⟩ := List.forall₂_cons_right_iff.mp hpaths.points
    obtain ⟨hstored, hkind⟩ := hpaths.inner d (List.mem_cons_self ..)
    have hpaths' : Paths W t ys cs := ⟨hys, fun e he => hpaths.inner e (List.mem_cons_of_mem _ he)⟩
    obtain ⟨n, m, hreadA, hreadB, hat⟩ := h.at_read hy hstored hpaths'
    obtain ⟨W₁, t₁, db₁', hlink, h₁, hf₁, hfull₁⟩ :=
      h.exec_relink hfull hat hkind (hP d (List.mem_cons_self ..)) hq
    have hnone : Proc.exec (relink n c) (BTree.open r) db = (.ok (), BTree.open r, db) := rfl
    exact (ih h₁ hfull₁ (hf₁.points _ _ hy) (hpaths'.follows hf₁)
      fun e he => hP e (List.mem_cons_of_mem _ he)).after hf₁ (exec_updatePath_cons hreadA hnone)
        (exec_updatePath_cons hreadB hlink)

end Run

section Operations

variable {P : Set PageNum} {W : World} {r c : PageNum} {t : BTree} {db db' : Database}
  {n m : BTreeNode} {cs path : List PageNum} {key : String} {value : PageNum} {T : PageTree}
  {run run' prog prog' : TreeM Unit}

theorem Matches.bind (h : Matches P W run r db prog t db')
    (hnext : ∀ r₁ W₁ db₁ t₁ db₁', Mirror W₁ r₁ db₁ t₁ db₁' → Follows P W t db' W₁ t₁ db₁' →
      W₁.used ⊆ W₁.stored → Matches P W₁ run' r₁ db₁ prog' t₁ db₁') :
    Matches P W (run >>= fun _ => run') r db (prog >>= fun _ => prog') t db' := by
  intro s db₂ hs
  rcases Proc.exec_bind_cases hs with ⟨e, _, he⟩ | ⟨_, s₁, db₁, hrun, hrest⟩
  · cases he
  · obtain ⟨r₁, W₁, t₁, db₁', rfl, hprog, h₁, hf₁, hfull₁⟩ := h s₁ db₁ hrun
    exact (hnext r₁ W₁ db₁ t₁ db₁' h₁ hf₁ hfull₁).after hf₁ (Proc.exec_bind_ok hrun)
      (Proc.exec_bind_ok hprog) s db₂ hs

theorem Same.insertIntoLeaf (h : Same W t n m) (htype : n.nodeType = .leafNode) (key : String)
    (value : PageNum) :
    Same W t (BTree.insertIntoLeaf n key value) (BTree.insertIntoLeaf m key value) := by
  obtain ⟨_, htypeA, _⟩ := insertIntoLeaf_rest n key value
  obtain ⟨_, htypeB, _⟩ := insertIntoLeaf_rest m key value
  refine .of_leaves (htypeA.trans htype) (htypeB.trans (h.type.trans htype)) ?_ ?_
  · unfold BTree.insertIntoLeaf
    rw [h.entries]
    split <;> rfl
  · unfold BTree.insertIntoLeaf
    rw [h.entries]
    split <;> exact h.keys

-- The way down to the leaf of `key` in place, as far as the operations use it.
theorem descend_cons (hrep : Represents db T) (key : String) :
    ∃ n c cs, Proc.exec (descend key) (BTree.open T.ptr) db =
      (.ok (n, c :: cs), BTree.open T.ptr, db) := by
  obtain ⟨n, ctx, _, _, he, _⟩ := hrep.exec_descend key
  exact ⟨n, _, _, he⟩

theorem Mirror.matches_insert (h : Mirror W T.ptr db t db') (hrep : Represents db T)
    (hfull : W.used ⊆ W.stored) (value : PageNum)
    (hdown : Proc.exec (descend key) (BTree.open T.ptr) db =
      (.ok (n, c :: cs), BTree.open T.ptr, db)) :
    Matches {p | p ∈ c :: cs} W (insert key value) T.ptr db (insert key value) t db' := by
  obtain ⟨m, q, qs, hdown', hat, htype⟩ := h.exec_descend hrep hfull key hdown
  have hsame := hat.same.insertIntoLeaf htype key value
  have hpage := (insertIntoLeaf_rest n key value).1.trans (Database.nodeAt_pageNum hat.node)
  have hpage' := (insertIntoLeaf_rest m key value).1.trans hat.page
  have htype' := (insertIntoLeaf_rest n key value).2.1
  have hc : c ∈ {p | p ∈ c :: cs} := List.mem_cons_self ..
  have hcs : ∀ d ∈ cs, d ∈ {p | p ∈ c :: cs} := fun d hd => List.mem_cons_of_mem _ hd
  by_cases hlong : (insertIntoLeaf n key value).entries.length > BTREE_ORDER
  · refine (h.matches_splitLeaf hfull hat.points hc hpage hpage' (htype'.trans htype)
      (htype'.trans hat.kind) hsame hlong hat.paths hcs).after (Follows.refl W t db') ?_ ?_
    · unfold insert
      rw [Proc.exec_bind_ok hdown]
      simp only [if_pos hlong]
    · unfold insert
      rw [Proc.exec_bind_ok hdown']
      simp only [hsame.entries, if_pos hlong]
  · have hedit := edited_written h.pager (insertIntoLeaf n key value)
    rw [hpage] at hedit
    have hwrite := h.matches_write hfull hedit (exec_writeNode_open T.ptr h.pager _) hat.points.used
      hc hpage' (htype'.trans hat.kind) hsame
    refine (hwrite.bind fun r₁ W₁ db₁ t₁ db₁' h₁ hf₁ hfull₁ => h₁.matches_updatePath hfull₁
      (hf₁.points _ _ hat.points) (hat.paths.follows hf₁) hcs).after (Follows.refl W t db') ?_ ?_
    · unfold insert
      rw [Proc.exec_bind_ok hdown]
      simp only [if_neg hlong]
    · unfold insert
      rw [Proc.exec_bind_ok hdown']
      simp only [hsame.entries, if_neg hlong]

-- The leaf without the entry of a key.
def deleteFromLeaf (leaf : BTreeNode) (key : String) : BTreeNode :=
  { leaf with
    entries := leaf.entries.eraseP (·.key = key)
    numKeys := (leaf.entries.eraseP (·.key = key)).length }

theorem exec_delete_found (hdown : Proc.exec (descend key) t db = (.ok (n, path), t, db))
    (hany : n.entries.any (·.key = key) = true) :
    Proc.exec (delete key) t db = Proc.exec (writeNode (deleteFromLeaf n key)) t db := by
  unfold delete
  rw [Proc.exec_bind_ok hdown]
  simp only [if_pos hany]
  rfl

theorem exec_delete_missing (hdown : Proc.exec (descend key) t db = (.ok (n, path), t, db))
    (hany : ¬ n.entries.any (·.key = key) = true) :
    Proc.exec (delete key) t db = (.error .notFound, t, db) := by
  unfold delete
  rw [Proc.exec_bind_ok hdown]
  simp only [if_neg hany]
  rfl

theorem Mirror.matches_delete (h : Mirror W T.ptr db t db') (hrep : Represents db T)
    (hfull : W.used ⊆ W.stored)
    (hdown : Proc.exec (descend key) (BTree.open T.ptr) db =
      (.ok (n, c :: cs), BTree.open T.ptr, db)) :
    Matches {c} W (delete key) T.ptr db (delete key) t db' := by
  obtain ⟨m, q, qs, hdown', hat, htype⟩ := h.exec_descend hrep hfull key hdown
  by_cases hany : n.entries.any (·.key = key) = true
  · have hany' : m.entries.any (·.key = key) = true := by rwa [hat.same.entries]
    have hsame : Same W t (deleteFromLeaf n key) (deleteFromLeaf m key) := by
      refine .of_leaves htype (hat.same.type.trans htype) ?_ hat.same.keys
      simp only [deleteFromLeaf, hat.same.entries]
    have hedit := edited_written h.pager (deleteFromLeaf n key)
    have hpage : n.pageNum = c := Database.nodeAt_pageNum hat.node
    rw [show (deleteFromLeaf n key).pageNum = c from hpage] at hedit
    exact (h.matches_write (m := deleteFromLeaf m key) hfull hedit
      (exec_writeNode_open T.ptr h.pager _) hat.points.used (Set.mem_singleton c) hat.page hat.kind
      hsame).after (Follows.refl W t db') (exec_delete_found hdown hany)
        (exec_delete_found hdown' hany')
  · exact .of_fail (exec_delete_missing hdown hany)

-- A delete that fails in place fails in the transaction, and changes nothing.
theorem Mirror.exec_delete_missing (h : Mirror W T.ptr db t db') (hrep : Represents db T)
    (hfull : W.used ⊆ W.stored) (hmissing : ∀ e ∈ T.entries, e.key ≠ key) :
    Proc.exec (delete key) t db' = (.error .notFound, t, db') := by
  obtain ⟨n, ctx, es, nx, hdown, hleaf⟩ := hrep.exec_descend key
  obtain ⟨m, q, qs, hdown', hat, _⟩ := h.exec_descend hrep hfull key hdown
  refine BTree.exec_delete_missing hdown' ?_
  rw [hat.same.entries, hleaf.entries, List.any_eq_true]
  rintro ⟨e, he, hek⟩
  refine hmissing e ?_ (by simpa using hek)
  rw [hleaf.tree, entries_plug]
  exact List.mem_append_left _ (List.mem_append_right _ he)

theorem exec_search_down (hdown : Proc.exec (descend key) t db = (.ok (n, path), t, db)) :
    Proc.exec (search key) t db = (entryIn key n, t, db) := by
  unfold search
  rw [Proc.exec_bind_ok hdown]
  simp only [entryIn]
  cases n.entries.find? (·.key = key) <;> rfl

theorem Mirror.exec_search (h : Mirror W T.ptr db t db') (hrep : Represents db T)
    (hfull : W.used ⊆ W.stored) (key : String) :
    (Proc.exec (search key) t db').1 = (Proc.exec (search key) (BTree.open T.ptr) db).1 := by
  obtain ⟨n, c, cs, hdown⟩ := descend_cons hrep key
  obtain ⟨m, q, qs, hdown', hat, _⟩ := h.exec_descend hrep hfull key hdown
  rw [exec_search_down hdown, exec_search_down hdown', entryIn, hat.same.entries]
  rfl

end Operations

end JasonDb.BTree
