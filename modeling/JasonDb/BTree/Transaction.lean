import JasonDb.BTree.Relinked
import JasonDb.Lib.Loop

namespace JasonDb.BTree

open Lib SearchTree TxBTree

section Tandem

variable {P : Set PageNum} {W W' : World} {T T' : PageTree} {db db₁ db' db₁' : Database}
  {t t₁ : BTree} {run prog : TreeM Unit}

-- The tree `T`, in place in `db`, is what the transaction of the handle `t` has in `db'`.
structure Tandem (W : World) (T : PageTree) (db : Database) (t : BTree) (db' : Database) : Prop where
  rep : Represents db T
  mirror : Mirror W T.ptr db t db'
  full : W.used ⊆ W.stored
  stored : ∀ p ∈ W.stored, p ∈ T.ptrs

-- The pages that are in the tree.
def World.restrict (W : World) (T : PageTree) : World :=
  { W with used := {p | p ∈ T.ptrs}, stored := {p | p ∈ T.ptrs} }

theorem Mirror.tandem (h : Mirror W T.ptr db t db') (hrep : Represents db T)
    (hfull : W.used ⊆ W.stored) : Tandem (W.restrict T) T db t db' := by
  have hstored := h.ptrs_stored hrep hfull
  have hused : ∀ p ∈ T.ptrs, p ∈ W.used := fun p hp => (h.nodes p (hstored p hp)).1
  refine ⟨hrep, { h with
    live := fun p hp => h.live p (hused p hp)
    inj := fun p hp q hq => h.inj p (hused p hp) q (hused q hq)
    label := fun p hp => h.label p (hused p hp)
    root := ⟨T.ptr_mem_ptrs, h.root.2⟩
    nodes := fun p hp => ?_
    upward := fun p hp => h.upward p (hstored p hp) }, subset_rfl, fun p hp => hp⟩
  obtain ⟨_, n, m, hn, hm, hk, hs⟩ := h.nodes p (hstored p hp)
  refine ⟨hp, n, m, hn, hm, hk, hs.type, hs.entries, hs.keys, ?_⟩
  refine forall₂_imp_mem hs.links fun q c hc hq => ⟨?_, hq.actual, hq.exact⟩
  have hlink := hrep.holds.link_mem (show p ∈ [T].flatMap ptrs by
    rw [List.flatMap_singleton]
    exact hp) hn hc
  rwa [List.flatMap_singleton] at hlink

theorem Matches.tandem (hm : Matches P W run T.ptr db prog t db')
    (hrun : Proc.exec run (BTree.open T.ptr) db = (.ok (), BTree.open T'.ptr, db₁))
    (hrep : Represents db₁ T') :
    ∃ W' t' db₁', Proc.exec prog t db' = (.ok (), t', db₁') ∧ Tandem W' T' db₁ t' db₁' ∧
      Extends t db' t' db₁' ∧
        ∀ c ∈ W'.stale, c ∈ W.stale ∨ c ∈ P ∧ W.place c ∉ t.newPages := by
  obtain ⟨r', W', t', db₁', hopen, he, hmirror, hf, hfull⟩ := hm _ _ hrun
  obtain rfl : T'.ptr = r' := congrArg BTree.rootPage hopen
  refine ⟨W'.restrict T', t', db₁', he, hmirror.tandem hrep hfull, hf.ext, fun c hc => ?_⟩
  exact (hf.stale c hc).imp_right fun hc => ⟨hc.1, hc.2.2⟩

-- What one operation leaves, with a property of the pointers that may be stale.
def Stepped (op : Op) (T : PageTree) (db : Database) (t : BTree) (db' : Database)
    (stale : World → Prop) : Prop :=
  ∃ W' T', Tandem W' T' (Proc.exec op.run (BTree.open T.ptr) db).2.2 (Proc.exec op.run t db').2.1
      (Proc.exec op.run t db').2.2 ∧
    (Proc.exec op.run (BTree.open T.ptr) db).2.1 = BTree.open T'.ptr ∧
    mapOf T'.entries = op.apply (mapOf T.entries) ∧
    Extends t db' (Proc.exec op.run t db').2.1 (Proc.exec op.run t db').2.2 ∧ stale W'

theorem Tandem.stepped_ok (h : Tandem W T db t db') (op : Op)
    (hm : Matches P W op.run T.ptr db op.run t db')
    (hok : (Proc.exec op.run (BTree.open T.ptr) db).1 = .ok ()) :
    Stepped op T db t db' fun W' => ∀ c ∈ W'.stale, c ∈ W.stale ∨ c ∈ P ∧ W.place c ∉ t.newPages := by
  obtain ⟨T', ⟨hopen, hrep⟩, hmap, _⟩ := Opened.step ⟨rfl, h.rep⟩ op
  have hrun : Proc.exec op.run (BTree.open T.ptr) db =
      (.ok (), BTree.open T'.ptr, (Proc.exec op.run (BTree.open T.ptr) db).2.2) := by
    rw [← hok, ← hopen]
  obtain ⟨W', t', db₁', he, htandem, hext, hstale⟩ := hm.tandem hrun hrep
  refine ⟨W', T', ?_, hopen, hmap, ?_, hstale⟩
  · rw [he]
    exact htandem
  · rw [he]
    exact hext

theorem Tandem.stepped_missing (h : Tandem W T db t db') {key : String}
    (hkey : mapOf T.entries key = none) : Stepped (.delete key) T db t db' fun W' => W' = W := by
  obtain ⟨T', ⟨hopen, hrep⟩, hmap, _⟩ := Opened.step ⟨rfl, h.rep⟩ (.delete key)
  have hmissing := mapOf_eq_none.mp hkey
  have hrun := (exec_delete h.rep key).2 hmissing
  have hprog := h.mirror.exec_delete_missing h.rep h.full hmissing
  refine ⟨W, T, ?_, ?_, ?_, ?_, rfl⟩
  · rw [Op.run, hrun, hprog]
    exact h
  · rw [Op.run, hrun]
  · rw [Op.apply, ← hkey, Function.update_eq_self]
  · rw [Op.run, hprog]
    exact Extends.refl t db'

-- One operation in the transaction does what it does in place.
theorem Tandem.step (h : Tandem W T db t db') (op : Op) : Stepped op T db t db' fun _ => True := by
  have hopened : Opened (BTree.open T.ptr) db T := ⟨rfl, h.rep⟩
  have hany : ∀ {stale}, Stepped op T db t db' stale → Stepped op T db t db' fun _ => True := by
    rintro stale ⟨W', T', htandem, hopen, hmap, hext, _⟩
    exact ⟨W', T', htandem, hopen, hmap, hext, trivial⟩
  cases op with
  | insert key value =>
    obtain ⟨n, c, cs, hdown⟩ := descend_cons h.rep key
    exact hany (h.stepped_ok (.insert key value)
      (h.mirror.matches_insert h.rep h.full value hdown) (hopened.insert_ok key value))
  | delete key =>
    obtain ⟨n, c, cs, hdown⟩ := descend_cons h.rep key
    cases hkey : mapOf T.entries key with
    | none => exact hany (h.stepped_missing hkey)
    | some value =>
      exact hany (h.stepped_ok (.delete key) (h.mirror.matches_delete h.rep h.full hdown)
        ((hopened.delete_result key).1 (by rw [hkey]; rfl)))

end Tandem

section Clean

variable {W : World} {T : PageTree} {db db' : Database} {t : BTree} {key : String} {value : PageNum}

-- The leaf that an operation changes is a page of the transaction already, or an insert does not
-- split it, or a delete finds it to be the root or without the key.
def Op.clean (t : BTree) (db : Database) : Op → Bool
  | .insert key _ => match (Proc.exec (descend key) t db).1 with
    | .ok (n, _) => n.pageNum ∈ t.newPages || n.entries.any (·.key = key) ||
        n.entries.length < BTREE_ORDER
    | .error _ => false
  | .delete key => match (Proc.exec (descend key) t db).1 with
    | .ok (n, path) => n.pageNum ∈ t.newPages || path.length = 1 || !n.entries.any (·.key = key)
    | .error _ => false

-- Every operation is clean in the state it is done in.
def cleanRun : List Op → BTree → Database → Bool
  | [], _, _ => true
  | op :: ops, t, db =>
    let (_, t', db') := Proc.exec op.run t db
    op.clean t db && cleanRun ops t' db'

-- With the leaf the whole path to it is the transaction's.
theorem Mirror.path_own {ctx : List PageFrame} {sub : PageTree}
    (h : Mirror W (plug ctx sub).ptr db t db') (hholds : Holds db [plug ctx sub])
    (hstored : ∀ p ∈ (plug ctx sub).ptrs, p ∈ W.stored) (hstale : W.stale = ∅)
    (hown : W.place sub.ptr ∈ t.newPages) :
    ∀ d ∈ sub.ptr :: ctx.map Frame.ptr, W.place d ∈ t.newPages := by
  induction ctx generalizing sub with
  | nil =>
    intro d hd
    obtain rfl := List.mem_singleton.mp hd
    exact hown
  | cons fr ctx ih =>
    obtain ⟨hmem, hlink⟩ := hholds.frame_link
    obtain ⟨_, n, _, hn, _⟩ := h.nodes fr.ptr (hstored _ hmem)
    have hparent : W.place fr.ptr ∈ t.newPages := by
      rcases h.upward fr.ptr (hstored _ hmem) n hn sub.ptr (hlink n hn) hown with hp | hp
      · exact hp
      · rw [hstale] at hp
        exact hp.elim
    intro d hd
    rcases List.mem_cons.mp hd with rfl | hd
    · exact hown
    · have hholds' : Holds db [plug ctx (fr.fill sub)] := hholds
      exact ih h hholds' hstored hparent d hd

theorem Tandem.path_own (h : Tandem W T db t db') (hstale : W.stale = ∅) {n : BTreeNode}
    {ctx : List PageFrame} {es : List LeafEntry} {nx : PageNum} (hleaf : LeafAt T key n ctx es nx)
    (hown : W.place n.pageNum ∈ t.newPages) :
    ∀ d ∈ n.pageNum :: ctx.map Frame.ptr, W.place d ∈ t.newPages := by
  have hstored := h.mirror.ptrs_stored h.rep h.full
  have hmirror := h.mirror
  have hholds := h.rep.holds
  rw [hleaf.tree] at hstored hmirror hholds
  exact hmirror.path_own hholds hstored hstale hown

-- Nothing points to the root.
theorem Tandem.settle_root (h : Tandem W T db t db') (hroot : ∀ c ∈ W.stale, c = T.ptr) :
    Tandem (W.withStale ∅) T db t db' := by
  refine ⟨h.rep, h.mirror.settled fun p hp n hn c hc hstale => ?_, h.full, h.stored⟩
  rw [hroot c hstale] at hc
  have hp : p ∈ [T].flatMap ptrs := by simpa using h.stored p hp
  exact h.rep.holds.root_not_link (List.mem_singleton.mpr rfl) hp hn hc

-- An insert into a leaf with room: the leaf is copied, and then the path to it, so that every
-- pointer leads to the copies.
theorem Tandem.stepped_room (h : Tandem W T db t db') (hstale : W.stale = ∅) {n : BTreeNode}
    {ctx : List PageFrame} {es : List LeafEntry} {nx : PageNum} (hleaf : LeafAt T key n ctx es nx)
    (hdown : Proc.exec (descend key) (BTree.open T.ptr) db =
      (.ok (n, n.pageNum :: ctx.map Frame.ptr), BTree.open T.ptr, db))
    (hroom : (insertEntry key value es).length ≤ BTREE_ORDER) :
    Stepped (.insert key value) T db t db' fun W' => W'.stale = ∅ := by
  obtain ⟨m, q, qs, hdown', hat, htype⟩ := h.mirror.exec_descend h.rep h.full key hdown
  obtain ⟨hrun, hrep, hentries, _⟩ := h.rep.exec_insert_room value hleaf hdown hroom
  have hsame := hat.same.insertIntoLeaf htype key value
  have hpage := (insertIntoLeaf_rest n key value).1
  have hpage' := (insertIntoLeaf_rest m key value).1.trans hat.page
  have hkind := (insertIntoLeaf_rest n key value).2.1.trans hat.kind
  have hedit := edited_written h.rep.holds.pager (insertIntoLeaf n key value)
  rw [hpage] at hedit
  obtain ⟨x, t₁, db₁', hwrite, hw⟩ := h.mirror.exec_write hat.points.used hpage'
  have hnodup : (n.pageNum :: ctx.map Frame.ptr).Nodup := by
    have hptrs : T.ptrs.Nodup := by simpa using h.rep.holds.stores.nodup_ptrs
    rw [hleaf.tree] at hptrs
    exact nodup_path hptrs
  have hpending := h.mirror.write_pending (B := ∅) h.full hw hedit hat.points hpage' hkind hsame
    hat.paths hstale.subset (Set.notMem_empty _) (fun _ _ _ _ _ _ hb => hb.elim)
    (hsame.links.imp fun _ _ _ hc => hc.elim)
    fun e he => ⟨Set.notMem_empty e, fun hne => (List.nodup_cons.mp hnodup).1 (hne ▸ he)⟩
  have hptr : T.ptr = (plug ctx (leaf n.pageNum (insertEntry key value es) nx)).ptr := by
    rw [hleaf.tree]
    exact ptr_plug_congr ctx rfl
  rw [hptr] at hpending
  have hstored : ∀ p ∈ W.stored ∪ {n.pageNum},
      p ∈ (plug ctx (leaf n.pageNum (insertEntry key value es) nx)).ptrs := by
    intro p hp
    refine (ptrs_plug_leaf ctx n.pageNum nx nx es _).mem_iff.mpr ?_
    rw [← hleaf.tree]
    rcases hp with hp | rfl
    · exact h.stored p hp
    · exact h.stored _ hat.stored
  obtain ⟨W₂, t₂, db₂', hpath, h₂, hfull₂, hstale₂⟩ := hpending.exec_updatePath hrep.holds hstored
  have hshort : ¬ (insertIntoLeaf m key value).entries.length > BTREE_ORDER := by
    rw [hsame.entries, (h.rep.insertIntoLeaf_shape hleaf value).2]
    exact Nat.not_lt.mpr hroom
  have hprog : Proc.exec (insert key value) t db' = (.ok (), t₂, db₂') := by
    unfold insert
    rw [Proc.exec_bind_ok hdown']
    simp only [if_neg hshort]
    rw [Proc.exec_bind_ok hwrite]
    exact hpath
  obtain ⟨_, _, _, _, _, hext, _⟩ := h.step (.insert key value)
  refine ⟨W₂.restrict (plug ctx (leaf n.pageNum (insertEntry key value es) nx)),
    plug ctx (leaf n.pageNum (insertEntry key value es) nx), ?_, ?_, ?_, hext, hstale₂⟩
  · rw [Op.run, hrun, hprog]
    exact h₂.tandem hrep hfull₂
  · rw [Op.run, hrun, hptr]
  · rw [hentries]
    exact mapOf_insertEntry h.rep.entries_sorted

theorem Tandem.stepped_clean (h : Tandem W T db t db') (hstale : W.stale = ∅) {op : Op}
    (hclean : op.clean t db' = true) : Stepped op T db t db' fun W' => W'.stale = ∅ := by
  have hopened : Opened (BTree.open T.ptr) db T := ⟨rfl, h.rep⟩
  -- on a page of the transaction nothing becomes stale
  have hown : ∀ {P : Set PageNum}, (∀ c ∈ P, W.place c ∈ t.newPages) →
      (Stepped op T db t db' fun W' => ∀ c ∈ W'.stale, c ∈ W.stale ∨ c ∈ P ∧ W.place c ∉ t.newPages) →
        Stepped op T db t db' fun W' => W'.stale = ∅ := by
    rintro P hP ⟨W', T', htandem, hopen, hmap, hext, hstale'⟩
    refine ⟨W', T', htandem, hopen, hmap, hext, Set.eq_empty_of_forall_notMem fun c hc => ?_⟩
    rcases hstale' c hc with hc | ⟨hc, hnew⟩
    · rw [hstale] at hc
      exact hc
    · exact hnew (hP c hc)
  cases op with
  | insert key value =>
    obtain ⟨n, ctx, es, nx, hdown, hleaf⟩ := h.rep.exec_descend key
    obtain ⟨m, q, qs, hdown', hat, htype⟩ := h.mirror.exec_descend h.rep h.full key hdown
    simp only [Op.clean, hdown', hat.same.entries, hleaf.entries, Bool.or_eq_true,
      decide_eq_true_eq] at hclean
    rcases hclean with (hnew | hkey) | hroom
    · refine hown (fun c hc => ?_) (h.stepped_ok (.insert key value)
        (h.mirror.matches_insert h.rep h.full value hdown) (hopened.insert_ok key value))
      exact h.path_own hstale hleaf (hat.page ▸ hnew) c hc
    · refine h.stepped_room hstale hleaf hdown ?_
      have hset : (insertIntoLeaf n key value).entries = setEntry key value n.entries := by
        unfold insertIntoLeaf
        rw [if_pos (hleaf.entries ▸ hkey)]
      rw [← (h.rep.insertIntoLeaf_shape hleaf value).2, hset, length_setEntry, hleaf.entries]
      exact h.rep.leaf_small hleaf
    · exact h.stepped_room hstale hleaf hdown ((length_insertEntry_le key value es).trans hroom)
  | delete key =>
    obtain ⟨n, ctx, es, nx, hdown, hleaf⟩ := h.rep.exec_descend key
    obtain ⟨m, q, qs, hdown', hat, htype⟩ := h.mirror.exec_descend h.rep h.full key hdown
    simp only [Op.clean, hdown', hat.same.entries, Bool.or_eq_true, decide_eq_true_eq,
      Bool.not_eq_true'] at hclean
    cases hkey : mapOf T.entries key with
    | none =>
      obtain ⟨W', T', htandem, hopen, hmap, hext, rfl⟩ := h.stepped_missing hkey
      exact ⟨W', T', htandem, hopen, hmap, hext, hstale⟩
    | some value =>
      have hok := (hopened.delete_result key).1 (by rw [hkey]; rfl)
      have hstep := h.stepped_ok (.delete key) (h.mirror.matches_delete h.rep h.full hdown) hok
      have hany : n.entries.any (·.key = key) = true := by
        by_contra hnone
        rw [exec_delete_missing hdown hnone] at hok
        cases hok
      rcases hclean with (hnew | hroot) | hnone
      · refine hown (fun c hc => ?_) hstep
        obtain rfl : c = n.pageNum := hc
        exact hat.page ▸ hnew
      · -- the leaf is the root, and only its own pointers became stale
        obtain ⟨W', T', htandem, hopen, hmap, hext, hstale'⟩ := hstep
        have hnil : ctx = [] := by
          have hlen := hat.paths.points.length_eq
          rw [List.length_map] at hlen
          simp only [List.length_cons] at hroot
          exact List.eq_nil_of_length_eq_zero (by omega)
        have hptr : T.ptr = n.pageNum := by
          rw [hleaf.tree, hnil]
          rfl
        have hptr' : T.ptr = T'.ptr := by
          rw [Op.run, exec_delete_found hdown hany, exec_writeNode_open _ h.rep.holds.pager] at hopen
          exact congrArg BTree.rootPage hopen
        refine ⟨W'.withStale ∅, T', htandem.settle_root fun c hc => ?_, hopen, hmap, hext, rfl⟩
        rcases hstale' c hc with hc | ⟨hc, _⟩
        · rw [hstale] at hc
          exact hc.elim
        · exact (show c = n.pageNum from hc).trans (hptr.symm.trans hptr')
      · rw [hnone] at hany
        cases hany

end Clean

section Run

variable {W : World} {T : PageTree} {db db' : Database} {t : BTree}

theorem Tandem.runOps (h : Tandem W T db t db') (ops : List Op) :
    ∃ W' T' db₁, Tandem W' T' db₁ (BTree.runOps ops t db').1 (BTree.runOps ops t db').2 ∧
      mapOf T'.entries = ops.foldl Op.apply (mapOf T.entries) ∧
      Extends t db' (BTree.runOps ops t db').1 (BTree.runOps ops t db').2 := by
  induction ops generalizing W T db t db' with
  | nil => exact ⟨W, T, db, h, rfl, Extends.refl t db'⟩
  | cons op ops ih =>
    obtain ⟨W₁, T₁, h₁, _, hmap₁, hext₁, _⟩ := h.step op
    obtain ⟨W', T', db₁, h', hmap, hext⟩ := ih h₁
    refine ⟨W', T', db₁, h', ?_, hext₁.trans hext⟩
    rw [hmap, hmap₁]
    rfl

-- After clean operations no pointer is stale.
theorem Tandem.runOps_clean (h : Tandem W T db t db') (hstale : W.stale = ∅) {ops : List Op}
    (hclean : cleanRun ops t db' = true) :
    ∃ W' T' db₁, Tandem W' T' db₁ (BTree.runOps ops t db').1 (BTree.runOps ops t db').2 ∧
      mapOf T'.entries = ops.foldl Op.apply (mapOf T.entries) ∧ W'.stale = ∅ := by
  induction ops generalizing W T db t db' with
  | nil => exact ⟨W, T, db, h, rfl, hstale⟩
  | cons op ops ih =>
    obtain ⟨hop, hops⟩ := Bool.and_eq_true_iff.mp hclean
    obtain ⟨W₁, T₁, h₁, _, hmap₁, _, hstale₁⟩ := h.stepped_clean hstale hop
    obtain ⟨W', T', db₁, h', hmap, hstale'⟩ := ih h₁ hstale₁ hops
    refine ⟨W', T', db₁, h', ?_, hstale'⟩
    rw [hmap, hmap₁]
    rfl

theorem Tandem.search (h : Tandem W T db t db') (key : String) :
    (Proc.exec (BTree.search key) t db').1 = found (mapOf T.entries) key := by
  rw [h.mirror.exec_search h.rep h.full]
  exact Opened.search ⟨rfl, h.rep⟩ key

end Run

section Ends

variable {W : World} {T : PageTree} {db db' : Database} {t : BTree}

-- The handle at the start of a transaction.
def begun (root : PageNum) : BTree := { BTree.open root with txActive := true }

theorem exec_begin (root : PageNum) (db : Database) :
    Proc.exec beginTransaction (BTree.open root) db = (.ok (), begun root, db) := rfl

theorem tandem_begun (h : Represents db T) : ∃ W, Tandem W T db (begun T.ptr) db ∧ W.stale = ∅ := by
  let W : World := {
    place := id
    kind := fun p => ((db.nodeAt p).map BTreeNode.nodeType).getD .leafNode
    used := {p | p ∈ T.ptrs}
    stored := {p | p ∈ T.ptrs}
    stale := ∅ }
  have hlive : ∀ p ∈ T.ptrs, db.pager.Allocated p := fun p hp => h.holds.live p (by simpa using hp)
  have hpoints : ∀ p ∈ T.ptrs, Points W (begun T.ptr) p p := fun p hp => ⟨hp, rfl, fun _ => rfl⟩
  refine ⟨W, ⟨h, ⟨rfl, h.holds.pager, h.holds.pager, fun p hp => ⟨hlive p hp, hlive p hp⟩,
    fun p _ q _ he => he, fun _ _ => rfl, ?_, ?_, ⟨T.ptr_mem_ptrs, rfl⟩, ?_, ?_⟩, subset_rfl,
    fun p hp => hp⟩, rfl⟩
  · intro q q' hq
    cases hq
  · intro q hq
    cases hq
  · intro p hp
    have hp' : p ∈ [T].flatMap ptrs := by rwa [List.flatMap_singleton]
    obtain ⟨n, hn⟩ := h.holds.exists_nodeAt hp'
    refine ⟨hp, n, n, hn, hn, ?_, rfl, rfl, rfl, List.forall₂_same.mpr fun c hc => hpoints c ?_⟩
    · show n.nodeType = ((db.nodeAt p).map BTreeNode.nodeType).getD .leafNode
      rw [hn]
      rfl
    · have hlink := h.holds.link_mem hp' hn hc
      rwa [List.flatMap_singleton] at hlink
  · intro p hp n hn c hc hnew
    cases hnew

-- The handle after a commit.
def committed (t : BTree) : BTree := BTree.open t.getRootPage

theorem exec_commit (t : BTree) (db : Database) :
    Proc.exec commitTransaction t db = (.ok (), committed t, db) := rfl

theorem nodeSeen_ok {p : PageNum} {n : BTreeNode} (h : db.nodeAt (t.actualPage p) = some n) :
    nodeSeen t db p = .ok n := by
  have hread := exec_readNode_actual h
  rw [exec_readNode_seen] at hread
  exact congrArg Prod.fst hread

-- Without stale pointers the tree is in the pages as they are, and a commit keeps it.
theorem Tandem.search_committed (h : Tandem W T db t db') (hstale : W.stale = ∅) (key : String) :
    (Proc.exec (BTree.search key) (committed t) db').1 = found (mapOf T.entries) key := by
  have hused : ∀ p ∈ W.stored, p ∈ W.used := fun p hp => (h.mirror.nodes p hp).1
  have hbound : ∀ x, (∃ p ∈ W.stored, x = W.place p) → x < db'.pager.numPages := by
    rintro x ⟨p, hp, rfl⟩
    exact (h.mirror.live p (hused p hp)).2.2.1
  rw [← h.search key]
  refine search_agree key (S := fun x => ∃ p ∈ W.stored, x = W.place p) ?_ ?_ rfl ?_ hbound hbound
  · rintro x ⟨p, hp, rfl⟩ m hm htype c hc
    obtain ⟨hu, n, m', hn, hm', _, hsame⟩ := h.mirror.nodes p hp
    have hseen := nodeSeen_ok (t := t) (p := W.place p) (by rwa [h.mirror.actual_place hu])
    obtain rfl : m' = m := Except.ok.inj (hseen.symm.trans hm)
    have hlinks : m'.links = m'.children := by rw [BTreeNode.links, htype]
    obtain ⟨d, hd, hpoints⟩ := forall₂_mem_left hsame.links (hlinks ▸ hc)
    exact ⟨d, h.full hpoints.used, hpoints.exact (by simp [hstale])⟩
  · exact ⟨T.ptr, h.full h.mirror.root.1, h.mirror.root.2⟩
  · rintro x ⟨p, hp, rfl⟩
    have hact := h.mirror.actual_place (hused p hp)
    have hact' : (committed t).actualPage (W.place p) = W.place p := rfl
    rw [nodeSeen, nodeSeen, hact, hact']

theorem freePage_keeps (p : Pager) (pageNum : PageNum) :
    (p.freePage pageNum).2.numPages = p.numPages ∧
      ∀ x, x ≠ pageNum → (p.freePage pageNum).2.view x = p.view x := by
  unfold Pager.freePage
  split
  · exact ⟨rfl, fun _ _ => rfl⟩
  · refine ⟨rfl, fun x hx => ?_⟩
    simp only [Pager.view, Pager.filePage, Function.update_of_ne hx]

-- A rollback gives back copies only, and the pages that are not among them stay as they are.
theorem exec_rollback (t : BTree) (db : Database) :
    ∃ db₁, Proc.exec rollbackTransaction t db = (.ok (), BTree.open t.rootPage, db₁) ∧
      db₁.pager.numPages = db.pager.numPages ∧
      ∀ x, (∀ q, t.cowPages.get? q ≠ some x) → db₁.pager.view x = db.pager.view x := by
  let kept : BTree → Database → Prop := fun l s =>
    l = t ∧ s.pager.numPages = db.pager.numPages ∧
      ∀ x, (∀ q, t.cowPages.get? q ≠ some x) → s.pager.view x = db.pager.view x
  have hround : ∀ x ∈ t.cowPages.toList.map Prod.snd, ∀ l s, kept l s → ∃ l' s',
      Proc.exec (do
        let _ ← Proc.attempt (freePage x : TreeM Unit)
        pure ()) l s = (.ok (), l', s') ∧ kept l' s' := by
    rintro x hx l s ⟨hl, hnum, hview⟩
    obtain ⟨⟨q, y⟩, hq, hyx⟩ := List.mem_map.mp hx
    obtain rfl : y = x := hyx
    obtain ⟨hnum', hview'⟩ := freePage_keeps s.pager y
    refine ⟨l, { s with pager := (s.pager.freePage y).2 }, ?_, hl, hnum'.trans hnum,
      fun z hz => (hview' z fun he => ?_).trans (hview z hz)⟩
    · rw [Proc.exec_bind_ok (Proc.exec_attempt _ l s)]
      rfl
    · exact hz q (he ▸ HashMap.mem_toList.mp hq)
  obtain ⟨l, db₁, hloop, rfl, hnum, hview⟩ :=
    Proc.exec_forEach_ok hround ⟨rfl, rfl, fun _ _ => rfl⟩
  refine ⟨db₁, ?_, hnum, hview⟩
  unfold rollbackTransaction
  rw [Proc.exec_bind_ok (Proc.exec_getLocal _ db), Proc.exec_bind_ok hloop]
  rfl

-- The pages of the tree from before the transaction are as they were.
theorem search_rolledBack {t₀ : BTree} (hrep : Represents db T) (hext : Extends t₀ db t db')
    (hroot : t₀.rootPage = T.ptr) (hnew : t₀.newPages = ∅)
    (hcopies : ∀ q x, t.cowPages.get? q = some x → x ∈ t.newPages) (key : String) :
    ∃ db₁, Proc.exec rollbackTransaction t db' = (.ok (), BTree.open T.ptr, db₁) ∧
      (Proc.exec (BTree.search key) (BTree.open T.ptr) db₁).1 = found (mapOf T.entries) key := by
  obtain ⟨db₁, hrun, hnum, hview⟩ := exec_rollback t db'
  rw [hext.root, hroot] at hrun
  refine ⟨db₁, hrun, ?_⟩
  have hlive : ∀ p ∈ T.ptrs, db.pager.Allocated p := fun p hp => hrep.holds.live p (by simpa using hp)
  have hold : ∀ p ∈ T.ptrs, p ∉ t.newPages := by
    intro p hp hmem
    rcases hext.fresh p hmem with h | h
    · rw [hnew] at h
      cases h
    · exact h (hlive p hp)
  have hsame : ∀ p ∈ T.ptrs, db₁.pager.view p = db.pager.view p := fun p hp =>
    (hview p fun q hq => hold p hp (hcopies q p hq)).trans (hext.view p (hold p hp))
  rw [← Opened.search (t := BTree.open T.ptr) ⟨rfl, hrep⟩ key]
  refine search_agree key (S := fun p => p ∈ T.ptrs) ?_ T.ptr_mem_ptrs rfl ?_
    (fun p hp => (hlive p hp).2.1) fun p hp => ?_
  · intro p hp n hn htype c hc
    have hp' : p ∈ [T].flatMap ptrs := by rwa [List.flatMap_singleton]
    obtain ⟨n', hn'⟩ := hrep.holds.exists_nodeAt hp'
    obtain rfl : n' = n :=
      Except.ok.inj ((nodeSeen_ok (t := BTree.open T.ptr) hn').symm.trans hn)
    have hlink := hrep.holds.link_mem hp' hn' (by rwa [BTreeNode.links, htype])
    rwa [List.flatMap_singleton] at hlink
  · intro p hp
    simp only [nodeSeen, Pager.readPage, actualPage_open, hsame p hp]
  · rw [hnum]
    exact (hext.alloc p (hlive p hp)).2.1

end Ends

theorem safe_rollbackTransaction {N : BTreeNode → Prop} :
    Proc.Safe (NodesIn N) (fun _ => True) (fun _ => True) rollbackTransaction := by
  refine Proc.safe_getLocal.bind fun t _ => ?_
  refine (Proc.safe_forEach _ fun p _ => ?_).bind fun _ _ => Proc.safe_modifyLocal fun _ _ => trivial
  exact (safe_freePage_nodesIn N p).attempt.bind fun _ _ => Proc.safe_pure trivial

-- In every run of inserts and deletes in a transaction `search` answers from the map with the same
-- operations done to it, and after a rollback from the map as it was. When every operation is
-- clean, a commit changes no answer. With keys of which fifty fit a page, all nodes can be read
-- again.
theorem transaction_keeps_or_undoes {t : BTree} {db : Database} {T : PageTree} {ops : List Op}
    (h : Opened t db T) (hnodes : NodesIn (Sized BTREE_ORDER Codec.ShortKey) db)
    (hkeys : ∀ key value, Op.insert key value ∈ ops → Codec.ShortKey key) :
    let t₀ := (Proc.exec beginTransaction t db).2.1
    let s := runOps ops t₀ db
    let commit := Proc.exec commitTransaction s.1 s.2
    let rollback := Proc.exec rollbackTransaction s.1 s.2
    let M := ops.foldl Op.apply (mapOf T.entries)
    (NodesIn Codec.ReadsBack s.2 ∧ NodesIn Codec.ReadsBack commit.2.2 ∧ NodesIn Codec.ReadsBack rollback.2.2) ∧
      (∀ key, (Proc.exec (BTree.search key) s.1 s.2).1 = found M key) ∧
      (cleanRun ops t₀ db = true →
        ∀ key, (Proc.exec (BTree.search key) commit.2.1 commit.2.2).1 = found M key) ∧
      ∀ key, (Proc.exec (BTree.search key) rollback.2.1 rollback.2.2).1 =
        found (mapOf T.entries) key := by
  obtain ⟨rfl, hrep⟩ := h
  intro t₀ s commit rollback M
  obtain ⟨W, hbegun, hstale⟩ := tandem_begun hrep
  obtain ⟨W', T', db₁, htandem, hmap, hext⟩ := hbegun.runOps ops
  have hsized := runOps_sized (t := t₀) hkeys hnodes
  have hread : ∀ db', NodesIn (Sized BTREE_ORDER Codec.ShortKey) db' → NodesIn Codec.ReadsBack db' :=
    fun db' hdb' n hn => Codec.readsBack_sized (hdb' n hn)
  refine ⟨⟨hread _ hsized, hread _ ?_, hread _ ?_⟩, fun key => ?_, fun hclean key => ?_, fun key => ?_⟩
  · have hcommit : commit = (.ok (), committed s.1, s.2) := exec_commit s.1 s.2
    rw [hcommit]
    exact hsized
  · exact (safe_rollbackTransaction.exec rfl trivial hsized).1
  · have hsearch := htandem.search key
    rw [hmap] at hsearch
    exact hsearch
  · obtain ⟨W₁, T₁, _, htandem₁, hmap₁, hstale₁⟩ := hbegun.runOps_clean hstale hclean
    have hsearch := htandem₁.search_committed hstale₁ key
    rw [hmap₁] at hsearch
    have hcommit : commit = (.ok (), committed s.1, s.2) := exec_commit s.1 s.2
    rw [hcommit]
    exact hsearch
  · obtain ⟨db₂, hrun, hsearch⟩ := search_rolledBack hrep hext rfl rfl
      (fun q x hq => (htandem.mirror.copied q x hq).1) key
    have hroll : rollback = (.ok (), BTree.open T.ptr, db₂) := hrun
    rw [hroll]
    exact hsearch

-- Both leaves are copied by inserts, and changed by deletes after that.
theorem transaction_keeps_or_undoes_pair :
    let t₀ := (Proc.exec beginTransaction (BTree.open 2) (dbOf pairTree 8)).2.1
    let s := runOps [.insert "k" 7, .insert "m" 8, .delete "a", .delete "z", .delete "q"] t₀
      (dbOf pairTree 8)
    let commit := Proc.exec commitTransaction s.1 s.2
    let rollback := Proc.exec rollbackTransaction s.1 s.2
    (Proc.exec (BTree.search "a") s.1 s.2).1 = .error .notFound ∧
      (Proc.exec (BTree.search "a") commit.2.1 commit.2.2).1 = .error .notFound ∧
      (Proc.exec (BTree.search "m") commit.2.1 commit.2.2).1 = .ok 8 ∧
      (Proc.exec (BTree.search "a") rollback.2.1 rollback.2.2).1 = .ok 10 := by
  have hkeys : ∀ key value, Op.insert key value ∈
      [Op.insert "k" 7, .insert "m" 8, .delete "a", .delete "z", .delete "q"] → Codec.ShortKey key := by
    intro key value h
    rcases List.mem_cons.mp h with h | h
    · obtain ⟨rfl, -⟩ := Op.insert.inj h
      decide
    rcases List.mem_cons.mp h with h | h
    · obtain ⟨rfl, -⟩ := Op.insert.inj h
      decide
    · simp at h
  obtain ⟨-, hbefore, hcommit, hrollback⟩ := transaction_keeps_or_undoes opened_pairTree sized_pairTree hkeys
  have hclean : cleanRun [.insert "k" 7, .insert "m" 8, .delete "a", .delete "z", .delete "q"]
      (begun 2) (dbOf pairTree 8) = true := by decide +kernel
  refine ⟨(hbefore "a").trans ?_, (hcommit hclean "a").trans ?_, (hcommit hclean "m").trans ?_,
    (hrollback "a").trans ?_⟩
  · decide +kernel
  · decide +kernel
  · decide +kernel
  · decide +kernel

-- A delete copies its leaf and leaves the parent as it is, so that a commit brings the key back.
theorem commit_revives_deleted :
    Opened (BTree.open 2) (dbOf pairTree 8) pairTree ∧
      let t₀ := (Proc.exec beginTransaction (BTree.open 2) (dbOf pairTree 8)).2.1
      let s := runOps [.delete "a"] t₀ (dbOf pairTree 8)
      let commit := Proc.exec commitTransaction s.1 s.2
      (Proc.exec (BTree.search "a") s.1 s.2).1 = .error .notFound ∧
        (Proc.exec (BTree.search "a") commit.2.1 commit.2.2).1 = .ok 10 := by
  refine ⟨opened_pairTree, ?_, ?_⟩
  · decide +kernel
  · decide +kernel

end JasonDb.BTree
