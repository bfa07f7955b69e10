import JasonDb.BTree.Split

namespace JasonDb.BTree

open Lib SearchTree

section Entries

variable {key : String} {value : PageNum}

-- An entry for a key that has one is replaced.
theorem setEntry_eq_insertEntry {es : List LeafEntry} (h : TxBTree.SortedEntries es)
    (hkey : ∃ e ∈ es, e.key = key) :
    TxBTree.setEntry key value es = TxBTree.insertEntry key value es := by
  induction es with
  | nil => simp at hkey
  | cons d ds ih =>
    obtain ⟨hd, hds⟩ := List.pairwise_cons.mp h
    unfold TxBTree.setEntry TxBTree.insertEntry
    by_cases hdk : d.key = key
    · simp [hdk]
    · obtain ⟨e, he, hek⟩ := hkey
      have hmem : e ∈ ds := (List.mem_cons.mp he).resolve_left fun h => hdk (h ▸ hek)
      have hnot : ¬ key < d.key := by
        rw [← hek]
        exact (hd e hmem).not_gt
      rw [if_neg hdk, if_neg hdk, if_neg hnot, ih hds ⟨e, hmem, hek⟩]

-- A new key goes before the first larger one.
theorem insertIdx_eq_insertEntry {es : List LeafEntry} (hkey : ∀ e ∈ es, e.key ≠ key) :
    es.insertIdx ((es.findIdx? (key < ·.key)).getD es.length) ⟨key, value⟩ =
      TxBTree.insertEntry key value es := by
  induction es with
  | nil => rfl
  | cons d ds ih =>
    unfold TxBTree.insertEntry
    rw [if_neg (hkey d (by simp))]
    by_cases hlt : key < d.key
    · rw [if_pos hlt, List.findIdx?_cons, decide_eq_true hlt]
      rfl
    · rw [if_neg hlt, ← ih fun e he => hkey e (by simp [he]), List.findIdx?_cons,
        decide_eq_false hlt]
      cases ds.findIdx? (fun e => decide (key < e.key)) <;> rfl

theorem insertIntoLeaf_entries {n : BTreeNode} (h : TxBTree.SortedEntries n.entries) :
    (insertIntoLeaf n key value).entries = TxBTree.insertEntry key value n.entries := by
  unfold insertIntoLeaf
  by_cases hkey : n.entries.any (·.key = key)
  · rw [if_pos hkey]
    exact setEntry_eq_insertEntry h (by simpa using hkey)
  · rw [if_neg hkey]
    exact insertIdx_eq_insertEntry (by simpa using hkey)

-- The leaf of a key with a new list of entries.
theorem insertIntoLeaf_rest (n : BTreeNode) (key : String) (value : PageNum) :
    (insertIntoLeaf n key value).pageNum = n.pageNum ∧
      (insertIntoLeaf n key value).nodeType = n.nodeType ∧
      (insertIntoLeaf n key value).nextLeaf = n.nextLeaf := by
  unfold insertIntoLeaf
  split <;> exact ⟨rfl, rfl, rfl⟩

-- In a sorted leaf a key has one entry.
theorem eraseP_eq_filter {es : List LeafEntry} (h : TxBTree.SortedEntries es) :
    es.eraseP (·.key = key) = es.filter (·.key ≠ key) := by
  induction es with
  | nil => rfl
  | cons d ds ih =>
    obtain ⟨hd, hds⟩ := List.pairwise_cons.mp h
    by_cases hdk : d.key = key
    · rw [List.eraseP_cons_of_pos (by simpa using hdk), List.filter_cons_of_neg (by simpa using hdk)]
      refine (List.filter_eq_self.mpr ?_).symm
      intro e he
      have hne := (hd e he).ne'
      rw [hdk] at hne
      simpa using hne
    · rw [List.eraseP_cons_of_neg (by simpa using hdk), List.filter_cons_of_pos (by simpa using hdk),
        ih hds]

theorem filter_middle {before es after : List LeafEntry} (hb : ∀ e ∈ before, e.key ≠ key)
    (ha : ∀ e ∈ after, e.key ≠ key) :
    (before ++ es ++ after).filter (·.key ≠ key) = before ++ es.filter (·.key ≠ key) ++ after := by
  have hb' : before.filter (·.key ≠ key) = before := List.filter_eq_self.mpr (by simpa using hb)
  have ha' : after.filter (·.key ≠ key) = after := List.filter_eq_self.mpr (by simpa using ha)
  rw [List.filter_append, List.filter_append, hb', ha']

end Entries

section Leaf

variable {db : Database} {T : PageTree} {key : String} {n m : BTreeNode} {ctx : List PageFrame}
  {es es' : List LeafEntry} {nx root : PageNum}

-- Without copies there is nothing to redirect on the path.
theorem exec_updatePath {sub : PageTree} (h : Holds db [plug ctx sub]) :
    Proc.exec (updatePathAfterModification (sub.ptr :: ctx.map Frame.ptr)) (BTree.open root) db =
      (.ok (), BTree.open root, db) := by
  induction ctx generalizing sub with
  | nil => rfl
  | cons fr ctx ih =>
    have hcell : (fr.ptr, fr.shape sub.ptr) ∈ [plug (fr :: ctx) sub].flatMap cells := by
      refine (flatMap_cells_focus_node ctx fr.ptr fr.keys (fr.left ++ sub :: fr.right) []).mem_iff.mpr ?_
      simp [Frame.shape]
    obtain ⟨n, hn, _, _⟩ := h.nodeAt hcell
    rw [List.map_cons, updatePathAfterModification, Proc.exec_bind_ok (exec_readNode_at hn),
      Proc.exec_bind_ok (Proc.exec_getLocal _ db)]
    have hrest : Holds db [plug ctx (fr.fill sub)] := h
    exact ih hrest

-- A leaf is written with entries in its range.
theorem Represents.written_leaf (h : Represents db T) (hat : LeafAt T key n ctx es nx)
    (hpage : m.pageNum = n.pageNum) (hshape : m.shape id = .leaf es' nx)
    (hsorted : LeafSorted LeafEntry.key (holeRange ⊥ ⊤ ctx).1 (holeRange ⊥ ⊤ ctx).2 n.pageNum es' nx)
    (hsmall : es'.length ≤ BTREE_ORDER) :
    Represents (written db m) (plug ctx (leaf n.pageNum es' nx)) ∧
      Edits db {p | p ∈ T.ptrs} (written db m) {p | p ∈ (plug ctx (leaf n.pageNum es' nx)).ptrs} := by
  obtain ⟨hold, hordered, hsm, hlevel, hlinked⟩ := h
  obtain ⟨rfl, _, _, _⟩ := hat
  have hptrs := ptrs_plug_leaf ctx n.pageNum nx nx es es'
  have hholds : Holds (written db m) [plug ctx (leaf n.pageNum es' nx)] := by
    rw [← hpage] at hold ⊢
    exact hold.written_leaf hshape
  refine ⟨⟨hholds, ?_, ?_, ?_, ?_⟩, ?_⟩
  · exact (all_plug ctx _).mpr ⟨((all_plug ctx _).mp hordered).1, hsorted⟩
  · intro c hc
    rcases List.mem_append.mp ((cells_plug ctx _).mem_iff.mp hc) with hc | hc
    · obtain rfl : c = (n.pageNum, .leaf es' nx) := by simpa [cells] using hc
      exact hsmall
    · exact hsm c ((cells_plug ctx _).mem_iff.mpr (List.mem_append_right _ hc))
  · obtain ⟨k, hctx, hk⟩ := exists_level_plug.mp hlevel
    exact exists_level_plug.mpr ⟨k, hctx, level_leaf.mpr (level_leaf.mp hk)⟩
  · rw [leaves_plug] at hlinked ⊢
    exact hlinked.set
  · refine (edits_written db ?_).mono fun p hp => hptrs.mem_iff.mp hp
    have hmem : n.pageNum ∈ (plug ctx (leaf n.pageNum es nx)).ptrs :=
      List.mem_map_of_mem (mem_cells_plug (leaf n.pageNum es nx).root_mem_cells)
    rw [hpage]
    exact hmem

-- The two leaves `split_leaf` makes of an overfull one.
def leftLeaf (n : BTreeNode) (mid : Nat) (r : PageNum) : BTreeNode :=
  { n with entries := n.entries.take mid, numKeys := mid, nextLeaf := r }

def rightLeaf (n : BTreeNode) (mid : Nat) (r : PageNum) : BTreeNode :=
  { BTreeNode.newLeaf r with
    entries := n.entries.drop mid, numKeys := (n.entries.drop mid).length, nextLeaf := n.nextLeaf }

-- Both halves of an overfull leaf are written.
theorem Represents.parted {mid r : PageNum} {first : LeafEntry} {rest : List LeafEntry}
    (h : Represents db (plug ctx (leaf m.pageNum es nx))) (hshape : m.shape id = .leaf m.entries nx)
    (hsorted : LeafSorted LeafEntry.key (holeRange ⊥ ⊤ ctx).1 (holeRange ⊥ ⊤ ctx).2 m.pageNum
      m.entries nx)
    (hl : (m.entries.take mid).length ≤ BTREE_ORDER) (hr : (m.entries.drop mid).length ≤ BTREE_ORDER)
    (htake : m.entries.take mid ≠ []) (hdrop : m.entries.drop mid = first :: rest)
    (hfresh : r ∉ (plug ctx (leaf m.pageNum es nx)).ptrs) (hused : db.pager.Allocated r) :
    Parted (written (written db (leftLeaf m mid r)) (rightLeaf m mid r)) ctx
      (leaf m.pageNum (m.entries.take mid) r) (leaf r (first :: rest) nx) first.key := by
  obtain ⟨htype, _, hnx⟩ := BTreeNode.shape_eq_leaf hshape
  rw [id_eq] at hnx
  have hcut := hsorted
  rw [← List.take_append_drop mid m.entries, hdrop] at hcut
  obtain ⟨hlo, hhi, hleft, hright⟩ := hcut.cut htake m.pageNum r r nx
  have h₁ : Holds (written db (leftLeaf m mid r))
      [plug ctx (leaf m.pageNum (m.entries.take mid) r)] := by
    refine Holds.written_leaf (n := leftLeaf m mid r) h.holds ?_
    simp [leftLeaf, BTreeNode.shape, htype]
  have h₂ : Holds (written (written db (leftLeaf m mid r)) (rightLeaf m mid r))
      [plug ctx (leaf m.pageNum (m.entries.take mid) r), leaf r (first :: rest) nx] := by
    refine h₁.written_new ?_ ?_ hused
    · have hs : (rightLeaf m mid r).shape id = .leaf (first :: rest) nx := by
        simp [rightLeaf, BTreeNode.shape, BTreeNode.newLeaf, hdrop, hnx]
      rw [hs, List.flatMap_cons, List.flatMap_singleton, List.flatMap_singleton]
      simp only [cells]
      exact List.perm_append_singleton _ _
    · rw [List.flatMap_singleton]
      exact fun hmem => hfresh ((ptrs_plug_leaf ctx _ _ _ _ _).mem_iff.mp hmem)
  refine ⟨h₂, ((all_plug ctx _).mp h.ordered).1, hlo, hhi, hleft, hright, ?_, ?_, ?_⟩
  · intro c hc
    rw [List.flatMap_cons, List.flatMap_singleton, List.mem_append] at hc
    rcases hc with hc | hc
    · rcases List.mem_append.mp ((cells_plug ctx _).mem_iff.mp hc) with hc | hc
      · obtain rfl := List.mem_singleton.mp hc
        exact hl
      · exact h.small c ((cells_plug ctx _).mem_iff.mpr (List.mem_append_right _ hc))
    · obtain rfl := List.mem_singleton.mp hc
      rw [Shape.size, ← hdrop]
      exact hr
  · obtain ⟨k, hctx, hk⟩ := exists_level_plug.mp h.level
    obtain rfl := level_leaf.mp hk
    exact ⟨0, hctx, trivial, trivial⟩
  · have hlinked := h.linked
    rw [leaves_plug] at hlinked
    exact hlinked.split

theorem flatMap_leavesBefore (ctx : List PageFrame) :
    (leavesBefore ctx).flatMap (·.2.1) = entriesBefore ctx := by
  induction ctx with
  | nil => rfl
  | cons fr ctx ih =>
    rw [leavesBefore, entriesBefore, List.flatMap_append, ih, List.flatMap_assoc]
    exact congrArg _ (List.flatMap_congr fun c _ => (entries_eq_leaves c).symm)

theorem flatMap_leavesAfter (ctx : List PageFrame) :
    (leavesAfter ctx).flatMap (·.2.1) = entriesAfter ctx := by
  induction ctx with
  | nil => rfl
  | cons fr ctx ih =>
    rw [leavesAfter, entriesAfter, List.flatMap_append, ih, List.flatMap_assoc]
    exact congrArg (· ++ _) (List.flatMap_congr fun c _ => (entries_eq_leaves c).symm)

-- A tree with leaves in place of the one in the hole. They all have entries, and `es` between them.
def Refilled (ctx : List PageFrame) (es : List LeafEntry) (T' : PageTree) : Prop :=
  ∃ new, T'.leaves = leavesBefore ctx ++ new ++ leavesAfter ctx ∧ new.flatMap (·.2.1) = es ∧ ∀ l ∈ new, l.2.1 ≠ []

theorem Refilled.entries_eq {T' : PageTree} (h : Refilled ctx es T') :
    T'.entries = entriesBefore ctx ++ es ++ entriesAfter ctx := by
  obtain ⟨new, hleaves, rfl, -⟩ := h
  rw [entries_eq_leaves, hleaves, List.flatMap_append, List.flatMap_append, flatMap_leavesBefore,
    flatMap_leavesAfter]

-- An overfull leaf is split, and the new one attached.
theorem Represents.exec_splitLeaf_refilled (h : Represents db (plug ctx (leaf m.pageNum es nx)))
    (hshape : m.shape id = .leaf m.entries nx)
    (hsorted : LeafSorted LeafEntry.key (holeRange ⊥ ⊤ ctx).1 (holeRange ⊥ ⊤ ctx).2 m.pageNum
      m.entries nx)
    (hfull : BTREE_ORDER < m.entries.length) (hlen : m.entries.length ≤ BTREE_ORDER + 1) :
    ∃ T' db', Proc.exec (splitLeaf m (m.pageNum :: ctx.map Frame.ptr))
        (BTree.open (plug ctx (leaf m.pageNum es nx)).ptr) db = (.ok (), BTree.open T'.ptr, db') ∧
      Represents db' T' ∧ Refilled ctx m.entries T' ∧
      Edits db {p | p ∈ (plug ctx (leaf m.pageNum es nx)).ptrs} db' {p | p ∈ T'.ptrs} := by
  have horder : BTREE_ORDER = 50 := rfl
  obtain ⟨r, db₁, halloc, _, h₁, hfresh, hused, hedit⟩ := h.holds.exec_alloc
    (BTree.open (plug ctx (leaf m.pageNum es nx)).ptr)
    {p | p ∈ (plug ctx (leaf m.pageNum es nx)).ptrs}
  rw [List.flatMap_singleton] at hfresh
  have hrep₁ : Represents db₁ (plug ctx (leaf m.pageNum es nx)) := { h with holds := h₁ }
  generalize hmid : m.entries.length / 2 = mid
  -- where the leaf is cut
  obtain ⟨first, rest, hdrop⟩ : ∃ first rest, m.entries.drop mid = first :: rest := by
    refine List.exists_cons_of_ne_nil fun hnil => ?_
    rw [List.drop_eq_nil_iff] at hnil
    omega
  have htake : m.entries.take mid ≠ [] := by
    intro hnil
    have hl := congrArg List.length hnil
    simp only [List.length_take, List.length_nil] at hl
    omega
  have hparted := hrep₁.parted hshape hsorted (by rw [List.length_take]; omega)
    (by rw [List.length_drop]; omega) htake hdrop hfresh hused
  have hS : ∀ p ∈ [plug ctx (leaf m.pageNum (m.entries.take mid) r),
      leaf r (first :: rest) nx].flatMap ptrs,
        p ∈ {p | p ∈ (plug ctx (leaf m.pageNum es nx)).ptrs} ∪ {r} := by
    intro p hp
    rw [List.flatMap_cons, List.flatMap_singleton, ptrs_leaf, List.mem_append] at hp
    rcases hp with hp | hp
    · exact Or.inl ((ptrs_plug_leaf ctx _ _ _ _ _).mem_iff.mp hp)
    · exact Or.inr (List.mem_singleton.mp hp)
  obtain ⟨T', db', he, hrep, hleaves, hedit'⟩ := hparted.exec_attach hS
    (show _ = (plug ctx (leaf m.pageNum es nx)).ptr from ptr_plug_congr ctx rfl)
  refine ⟨T', db', ?_, hrep, ?_, ?_⟩
  · have hw₁ := exec_writeNode_open (plug ctx (leaf m.pageNum es nx)).ptr h₁.pager
      (leftLeaf m mid r)
    have hw₂ := exec_writeNode_open (plug ctx (leaf m.pageNum es nx)).ptr
      (wf_written h₁.pager (leftLeaf m mid r)) (rightLeaf m mid r)
    unfold splitLeaf
    simp only [hmid]
    rw [Proc.exec_bind_ok halloc, Proc.exec_bind_ok (exec_markNew_open r db₁)]
    unfold leftLeaf at hw₁ hw₂ he
    unfold rightLeaf at hw₂ he
    rw [hdrop] at hw₂ he ⊢
    rw [Proc.exec_bind_ok hw₁, Proc.exec_bind_ok hw₂, ← he]
    cases ctx <;> rfl
  · have hsplit : m.entries.take mid ++ first :: rest = m.entries := by
      rw [← hdrop, List.take_append_drop]
    have hmiddle : ((leaf m.pageNum (m.entries.take mid) r : PageTree).leaves ++
        (leaf r (first :: rest) nx : PageTree).leaves).flatMap (·.2.1) = m.entries := by
      rw [← hsplit]
      simp [leaves, hsplit]
    refine ⟨_, hleaves, hmiddle, ?_⟩
    simp [leaves, htake]
  · have hmem : m.pageNum ∈ (plug ctx (leaf m.pageNum es nx)).ptrs :=
      List.mem_map_of_mem (mem_cells_plug (leaf m.pageNum es nx).root_mem_cells)
    refine hedit.trans (((edits_written db₁ ?_).trans (edits_written _ ?_)).trans hedit')
    · exact Or.inl hmem
    · exact Or.inr rfl

theorem Represents.exec_splitLeaf (h : Represents db (plug ctx (leaf m.pageNum es nx)))
    (hshape : m.shape id = .leaf m.entries nx)
    (hsorted : LeafSorted LeafEntry.key (holeRange ⊥ ⊤ ctx).1 (holeRange ⊥ ⊤ ctx).2 m.pageNum
      m.entries nx)
    (hfull : BTREE_ORDER < m.entries.length) (hlen : m.entries.length ≤ BTREE_ORDER + 1) :
    ∃ T' db', Proc.exec (splitLeaf m (m.pageNum :: ctx.map Frame.ptr))
        (BTree.open (plug ctx (leaf m.pageNum es nx)).ptr) db = (.ok (), BTree.open T'.ptr, db') ∧
      Represents db' T' ∧ T'.entries = entriesBefore ctx ++ m.entries ++ entriesAfter ctx ∧
      Edits db {p | p ∈ (plug ctx (leaf m.pageNum es nx)).ptrs} db' {p | p ∈ T'.ptrs} := by
  obtain ⟨T', db', he, hrep, hrefilled, hedit⟩ := h.exec_splitLeaf_refilled hshape hsorted hfull hlen
  exact ⟨T', db', he, hrep, hrefilled.entries_eq, hedit⟩

end Leaf

section Operations

variable {db : Database} {T : PageTree}

-- A tree after an operation, with the entries `es`.
def Becomes (db : Database) (T : PageTree) (es : List LeafEntry) (T' : PageTree)
    (db' : Database) : Prop :=
  Represents db' T' ∧ T'.entries = es ∧ Edits db {p | p ∈ T.ptrs} db' {p | p ∈ T'.ptrs}

section Insert

variable {key : String} {value : PageNum} {n : BTreeNode} {ctx : List PageFrame}
  {es : List LeafEntry} {nx : PageNum}

theorem Represents.leaf_small (h : Represents db T) (hat : LeafAt T key n ctx es nx) :
    es.length ≤ BTREE_ORDER := by
  refine h.small (n.pageNum, .leaf es nx) ?_
  rw [hat.tree]
  exact mem_cells_plug (by simp [cells])

-- The leaf of a key with the entry for it.
theorem Represents.insertIntoLeaf_shape (h : Represents db T) (hat : LeafAt T key n ctx es nx)
    (value : PageNum) :
    (insertIntoLeaf n key value).shape id = .leaf (TxBTree.insertEntry key value es) nx ∧
      (insertIntoLeaf n key value).entries = TxBTree.insertEntry key value es := by
  obtain ⟨_, htype, hnext⟩ := insertIntoLeaf_rest n key value
  obtain ⟨htype', hes, hnx⟩ := BTreeNode.shape_eq_leaf hat.shape
  have hentries : (insertIntoLeaf n key value).entries = TxBTree.insertEntry key value es := by
    rw [← hes]
    exact insertIntoLeaf_entries (by rw [hes]; exact (h.leaf_sorted hat).1)
  refine ⟨?_, hentries⟩
  simp only [BTreeNode.shape, htype, htype', hentries, hnext, hnx]

theorem Represents.insertEntry_entries (h : Represents db T) (hat : LeafAt T key n ctx es nx)
    (value : PageNum) : TxBTree.insertEntry key value T.entries =
      entriesBefore ctx ++ TxBTree.insertEntry key value es ++ entriesAfter ctx := by
  obtain ⟨hb, ha⟩ := h.key_outside hat
  rw [hat.tree, entries_plug]
  exact TxBTree.insertEntry_middle hb ha

-- The leaf has room for the entry.
theorem Represents.exec_insert_room (h : Represents db T) (value : PageNum)
    (hat : LeafAt T key n ctx es nx)
    (hdown : Proc.exec (descend key) (BTree.open T.ptr) db =
      (.ok (n, n.pageNum :: ctx.map Frame.ptr), BTree.open T.ptr, db))
    (hroom : (TxBTree.insertEntry key value es).length ≤ BTREE_ORDER) :
    Proc.exec (insert key value) (BTree.open T.ptr) db = (.ok (), BTree.open T.ptr,
        written db (insertIntoLeaf n key value)) ∧
      Becomes db T (TxBTree.insertEntry key value T.entries)
        (plug ctx (leaf n.pageNum (TxBTree.insertEntry key value es) nx))
        (written db (insertIntoLeaf n key value)) := by
  obtain ⟨hshape, hentries⟩ := h.insertIntoLeaf_shape hat value
  obtain ⟨hrep, hedit⟩ := h.written_leaf hat (insertIntoLeaf_rest n key value).1 hshape
    (TxBTree.leafSorted_insertEntry value (h.leaf_sorted hat) hat.lo hat.hi) hroom
  refine ⟨?_, hrep, ?_, hedit⟩
  · unfold insert
    rw [Proc.exec_bind_ok hdown]
    simp only [hentries, if_neg (Nat.not_lt.mpr hroom)]
    rw [Proc.exec_bind_ok (exec_writeNode_open _ h.holds.pager _)]
    exact exec_updatePath hrep.holds
  · rw [h.insertEntry_entries hat, entries_plug]
    rfl

end Insert

theorem insertEntry_ne_nil (key : String) (value : PageNum) (es : List LeafEntry) :
    TxBTree.insertEntry key value es ≠ [] := by
  cases es with
  | nil => simp [TxBTree.insertEntry]
  | cons e es =>
    unfold TxBTree.insertEntry
    split <;> [skip; split] <;> simp

-- The leaf of the key has it afterwards, maybe with a second leaf beside it.
theorem exec_insert_refilled (h : Represents db T) (key : String) (value : PageNum) :
    ∃ n ctx es nx T' db', LeafAt T key n ctx es nx ∧
      Proc.exec (insert key value) (BTree.open T.ptr) db = (.ok (), BTree.open T'.ptr, db') ∧
      Represents db' T' ∧ Refilled ctx (TxBTree.insertEntry key value es) T' ∧
      Edits db {p | p ∈ T.ptrs} db' {p | p ∈ T'.ptrs} := by
  obtain ⟨n, ctx, es, nx, he, hat⟩ := h.exec_descend key
  by_cases hfull : BTREE_ORDER < (TxBTree.insertEntry key value es).length
  · have hleaf := h.leaf_sorted hat
    obtain ⟨hpage, _, _⟩ := insertIntoLeaf_rest n key value
    obtain ⟨hshape, hentries⟩ := h.insertIntoLeaf_shape hat value
    have hsorted := TxBTree.leafSorted_insertEntry value hleaf hat.lo hat.hi
    have hsmall := h.leaf_small hat
    refine ⟨n, ctx, es, nx, ?_⟩
    unfold insert
    rw [Proc.exec_bind_ok he]
    simp only [hentries, if_pos hfull]
    have hlen := TxBTree.length_insertEntry_le key value es
    have hhere := hat
    obtain ⟨htree, _, _, _⟩ := hat
    subst htree
    rw [← hpage] at h hsorted
    rw [← hentries] at hshape hsorted hfull hlen
    obtain ⟨T', db', he', hrep, hrefilled, hedit⟩ :=
      h.exec_splitLeaf_refilled hshape hsorted hfull (by omega)
    rw [hpage] at he' hedit
    rw [hentries] at hrefilled
    exact ⟨T', db', hhere, he', hrep, hrefilled, hedit⟩
  · obtain ⟨hrun, hrep, -, hedit⟩ := h.exec_insert_room value hat he (Nat.le_of_not_lt hfull)
    refine ⟨n, ctx, es, nx, _, _, hat, ?_, hrep, ?_, hedit⟩
    · have hptr : T.ptr = (plug ctx (leaf n.pageNum (TxBTree.insertEntry key value es) nx)).ptr := by
        rw [hat.tree]
        exact ptr_plug_congr ctx rfl
      rw [hrun, hptr]
    · refine ⟨[(n.pageNum, TxBTree.insertEntry key value es, nx)], leaves_plug _ _, by simp, ?_⟩
      simp [insertEntry_ne_nil]

theorem exec_insert (h : Represents db T) (key : String) (value : PageNum) :
    ∃ T' db', Proc.exec (insert key value) (BTree.open T.ptr) db =
        (.ok (), BTree.open T'.ptr, db') ∧
      Becomes db T (TxBTree.insertEntry key value T.entries) T' db' := by
  obtain ⟨n, ctx, es, nx, T', db', hat, he, hrep, hrefilled, hedit⟩ := exec_insert_refilled h key value
  refine ⟨T', db', he, hrep, ?_, hedit⟩
  rw [hrefilled.entries_eq, h.insertEntry_entries hat]

-- A delete takes the entry out of the leaf of its key, which stays where it is.
theorem exec_delete_leaf (h : Represents db T) (key : String) : ∃ n ctx es nx, LeafAt T key n ctx es nx ∧
    ((∃ e ∈ T.entries, e.key = key) → ∃ T' db', Proc.exec (delete key) (BTree.open T.ptr) db =
        (.ok (), BTree.open T'.ptr, db') ∧ Becomes db T (T.entries.filter (·.key ≠ key)) T' db' ∧
          T' = plug ctx (leaf n.pageNum (es.filter (·.key ≠ key)) nx)) ∧
      ((∀ e ∈ T.entries, e.key ≠ key) →
        Proc.exec (delete key) (BTree.open T.ptr) db = (.error .notFound, BTree.open T.ptr, db)) := by
  obtain ⟨n, ctx, es, nx, he, hat⟩ := h.exec_descend key
  have hleaf := h.leaf_sorted hat
  obtain ⟨hb, ha⟩ := h.key_outside hat
  obtain ⟨htype, rfl, hnx⟩ := BTreeNode.shape_eq_leaf hat.shape
  have hany : n.entries.any (·.key = key) = true ↔ ∃ e ∈ T.entries, e.key = key := by
    have hfind := congrArg Option.isSome (h.find?_leaf hat)
    rw [Bool.eq_iff_iff, List.find?_isSome, List.find?_isSome] at hfind
    simpa using hfind.symm
  unfold delete
  rw [Proc.exec_bind_ok he]
  refine ⟨n, ctx, n.entries, nx, hat, fun hkey => ?_, fun hkey => ?_⟩
  · simp only [hany.mpr hkey, ↓reduceIte]
    rw [eraseP_eq_filter hleaf.1]
    have hsub : (n.entries.filter (·.key ≠ key)).Sublist n.entries := List.filter_sublist
    have hsmall := h.leaf_small hat
    obtain ⟨hrep, hedit⟩ := h.written_leaf hat
      (m := { n with
        entries := n.entries.filter (·.key ≠ key)
        numKeys := (n.entries.filter (·.key ≠ key)).length }) rfl
      (by simp only [BTreeNode.shape, htype, hnx])
      ⟨hleaf.1.sublist hsub, fun e he => hleaf.2 e (hsub.subset he)⟩ (hsub.length_le.trans hsmall)
    refine ⟨_, _, ?_, ⟨hrep, ?_, hedit⟩, rfl⟩
    · have hptr : T.ptr = (plug ctx (leaf n.pageNum (n.entries.filter (·.key ≠ key)) nx)).ptr := by
        rw [hat.tree]
        exact ptr_plug_congr ctx rfl
      rw [exec_writeNode_open _ h.holds.pager, hptr]
    · rw [entries_plug, hat.tree, entries_plug]
      exact (filter_middle (fun e he => (hb e he).ne) (fun e he => (ha e he).ne')).symm
  · have hnone : ¬ n.entries.any (·.key = key) = true := by
      rw [hany]
      simpa using hkey
    simp only [hnone, Bool.false_eq_true, ↓reduceIte]
    rfl

theorem exec_delete (h : Represents db T) (key : String) :
    ((∃ e ∈ T.entries, e.key = key) → ∃ T' db', Proc.exec (delete key) (BTree.open T.ptr) db =
        (.ok (), BTree.open T'.ptr, db') ∧ Becomes db T (T.entries.filter (·.key ≠ key)) T' db') ∧
      ((∀ e ∈ T.entries, e.key ≠ key) →
        Proc.exec (delete key) (BTree.open T.ptr) db = (.error .notFound, BTree.open T.ptr, db)) := by
  obtain ⟨n, ctx, es, nx, -, hfound, hmissing⟩ := exec_delete_leaf h key
  refine ⟨fun hkey => ?_, hmissing⟩
  obtain ⟨T', db', he, hbecomes, -⟩ := hfound hkey
  exact ⟨T', db', he, hbecomes⟩

end Operations

section Dense

variable {key : String}

-- No leaf is empty, unless it is the only one.
def Dense (T : PageTree) : Prop := ∀ l ∈ T.leaves, l.2.1 = [] → T.leaves = [l]

-- No leaf is empty but the one that the key belongs to.
def DenseBut (key : String) (T : PageTree) : Prop :=
  ∃ ctx p es nx, T = plug ctx (leaf p es nx) ∧
    ((holeRange ⊥ ⊤ ctx).1 ≤ .key key ∧ .key key < (holeRange ⊥ ⊤ ctx).2) ∧
    ∀ l ∈ T.leaves, l.2.1 = [] → l.1 = p

theorem dense_leaf (p nx : PageNum) (es : List LeafEntry) : Dense (leaf p es nx) := by
  intro l hl _
  obtain rfl : l = (p, es, nx) := by simpa [leaves] using hl
  rfl

variable {db : Database} {T : PageTree} {n : BTreeNode} {ctx : List PageFrame} {es : List LeafEntry}
  {nx : PageNum}

theorem mem_leaves_plug (ctx : List PageFrame) (p : PageNum) (es : List LeafEntry) (nx : PageNum) :
    (p, es, nx) ∈ (plug ctx (leaf p es nx)).leaves := by
  simp [leaves_plug, leaves]

theorem Represents.denseBut (h : Represents db T) (hdense : Dense T) (key : String) : DenseBut key T := by
  obtain ⟨n, ctx, es, nx, -, hat⟩ := h.exec_descend key
  refine ⟨ctx, n.pageNum, es, nx, hat.tree, ⟨hat.lo, hat.hi⟩, fun l hl hempty => ?_⟩
  have hmem : (n.pageNum, es, nx) ∈ T.leaves := hat.tree ▸ mem_leaves_plug ctx n.pageNum es nx
  rw [hdense l hl hempty, List.mem_singleton] at hmem
  rw [← hmem]

-- The leaf of a key is the only one with the key in its range.
theorem LeafAt.pageNum_eq (hat : LeafAt T key n ctx es nx) (h : Represents db T) {ctx' : List PageFrame}
    {p nx' : PageNum} {es' : List LeafEntry} (heq : T = plug ctx' (leaf p es' nx'))
    (hlo : (holeRange ⊥ ⊤ ctx').1 ≤ .key key) (hhi : .key key < (holeRange ⊥ ⊤ ctx').2) : n.pageNum = p := by
  by_contra hne
  have hordered := h.ordered
  rw [hat.tree] at hordered heq
  rcases hordered.ranges_disjoint bot_lt_top heq hne with hle | hle
  · exact absurd (hat.hi.trans_le hle) (not_lt_of_ge hlo)
  · exact absurd (hhi.trans_le hle) (not_lt_of_ge hat.lo)

-- An insert fills the leaf of its key.
theorem exec_insert_dense (h : Represents db T) (key : String) (value : PageNum) :
    ∃ T' db', Proc.exec (insert key value) (BTree.open T.ptr) db =
        (.ok (), BTree.open T'.ptr, db') ∧
      Becomes db T (TxBTree.insertEntry key value T.entries) T' db' ∧ (DenseBut key T → Dense T') := by
  obtain ⟨n, ctx, es, nx, T', db', hat, he, hrep, hrefilled, hedit⟩ := exec_insert_refilled h key value
  refine ⟨T', db', he, ⟨hrep, ?_, hedit⟩, ?_⟩
  · rw [hrefilled.entries_eq, h.insertEntry_entries hat]
  · rintro ⟨ctx', p, es', nx', heq, ⟨hlo, hhi⟩, hbut⟩ l hl hempty
    obtain rfl := hat.pageNum_eq h heq hlo hhi
    obtain ⟨new, hleaves, -, hfull⟩ := hrefilled
    -- beside the leaf of the key no leaf has its address
    have hptrs : (T.leaves.map Prod.fst).Nodup :=
      (map_fst_leaves_sublist T).nodup (by simpa using h.holds.stores.nodup_ptrs)
    have hT : T.leaves = leavesBefore ctx ++ (n.pageNum, es, nx) :: leavesAfter ctx := by
      rw [hat.tree, leaves_plug]
      simp [leaves]
    rw [hT, List.map_append, List.map_cons, List.nodup_middle, List.nodup_cons, ← List.map_append] at hptrs
    rw [hleaves, List.append_assoc, List.mem_append, List.mem_append] at hl
    rcases hl with hl | hl | hl
    · have hp : l.1 = n.pageNum := hbut l (by simp [hT, hl]) hempty
      exact absurd (List.mem_map.mpr ⟨l, List.mem_append_left _ hl, hp⟩) hptrs.1
    · exact absurd hempty (hfull l hl)
    · have hp : l.1 = n.pageNum := hbut l (by simp [hT, hl]) hempty
      exact absurd (List.mem_map.mpr ⟨l, List.mem_append_right _ hl, hp⟩) hptrs.1

-- A delete can leave the leaf of its key empty.
theorem exec_delete_dense (h : Represents db T) (hkey : ∃ e ∈ T.entries, e.key = key) :
    ∃ T' db', Proc.exec (delete key) (BTree.open T.ptr) db = (.ok (), BTree.open T'.ptr, db') ∧
      Becomes db T (T.entries.filter (·.key ≠ key)) T' db' ∧ (Dense T → DenseBut key T') := by
  obtain ⟨n, ctx, es, nx, hat, hfound, -⟩ := exec_delete_leaf h key
  obtain ⟨T', db', he, hbecomes, rfl⟩ := hfound hkey
  refine ⟨_, db', he, hbecomes, fun hdense => ⟨ctx, n.pageNum, _, nx, rfl, ⟨hat.lo, hat.hi⟩, ?_⟩⟩
  have hT : T.leaves = leavesBefore ctx ++ [(n.pageNum, es, nx)] ++ leavesAfter ctx := by
    rw [hat.tree, leaves_plug]
    rfl
  -- another leaf that is empty was so before, and is then the only one
  have hother : ∀ l ∈ T.leaves, l.2.1 = [] → l.1 = n.pageNum := by
    intro l hl hempty
    have hmem : (n.pageNum, es, nx) ∈ T.leaves := by simp [hT]
    rw [hdense l hl hempty, List.mem_singleton] at hmem
    rw [← hmem]
  intro l hl hempty
  rw [leaves_plug, List.mem_append, List.mem_append] at hl
  rcases hl with (hl | hl) | hl
  · exact hother l (by simp [hT, hl]) hempty
  · obtain rfl : l = (n.pageNum, _, nx) := by simpa [leaves] using hl
    rfl
  · exact hother l (by simp [hT, hl]) hempty

end Dense

end JasonDb.BTree
