import JasonDb.BTree.Iterator
import JasonDb.DocumentStore.Changes

namespace JasonDb

open Lib SearchTree TxBTree

namespace Lib.SearchTree

variable {P K E : Type}

theorem length_leaves_le (t : SearchTree P K E) : t.leaves.length ≤ t.cells.length := by
  induction t using induct with
  | leaf p entries next => simp [leaves, cells]
  | node p keys children ih =>
    rw [leaves_node, cells_node, List.length_cons]
    refine Nat.le_succ_of_le ?_
    induction children with
    | nil => rfl
    | cons c cs ihs =>
      rw [List.flatMap_cons, List.flatMap_cons, List.length_append, List.length_append]
      exact Nat.add_le_add (ih c (by simp)) (ihs fun d hd => ih d (List.mem_cons_of_mem _ hd))

end Lib.SearchTree

variable {ℓ α β : Type} {db db' : Database} {L L' : DbLayout} {M M' : Store} {name : String} {T : PageTree}

namespace BTree

theorem Represents.length_leaves_le (h : Represents db T) : T.leaves.length ≤ db.pager.numPages := by
  refine T.length_leaves_le.trans ?_
  have hnodup : T.ptrs.Nodup := by simpa using h.holds.stores.nodup_ptrs
  have hsub : T.ptrs ⊆ List.range db.pager.numPages := by
    intro p hp
    exact List.mem_range.mpr (h.holds.live p (by simpa using hp)).2.1
  simpa [ptrs] using (List.subperm_of_subset hnodup hsub).length_le

-- The iteration goes from leaf to leaf up to an empty one.
theorem Represents.exec_visitLeaves (h : Represents db T)
    {before rest : List (PageNum × List LeafEntry × PageNum)} {p nx : PageNum} {es : List LeafEntry}
    {m : BTreeNode} {fuel : Nat} (hleaves : T.leaves = before ++ (p, es, nx) :: rest)
    (hm : m.shape id = .leaf es nx) (hfuel : rest.length < fuel) :
    Proc.exec (visitLeaves (fun entry => pure (some entry)) fuel m) (BTree.open T.ptr) db =
      (.ok (yielded ((p, es, nx) :: rest)), BTree.open T.ptr, db) := by
  have hall : ∀ entries : List LeafEntry,
      Proc.exec (visitEntries (fun entry => pure (some entry)) entries) (BTree.open T.ptr) db =
        (.ok entries, BTree.open T.ptr, db) := by
    intro entries
    rw [exec_visitEntries (f := some) fun _ => rfl, List.filterMap_some]
  induction rest generalizing before p nx es m fuel with
  | nil =>
    obtain ⟨fuel, rfl⟩ := Nat.exists_eq_succ_of_ne_zero (Nat.ne_of_gt hfuel)
    obtain ⟨_, rfl, rfl⟩ := BTreeNode.shape_eq_leaf hm
    have hlinked := h.linked
    rw [hleaves, linked_append] at hlinked
    have hlast : m.nextLeaf = 0 := hlinked.2.1
    unfold visitLeaves
    cases hes : m.entries with
    | nil => simp [yielded, Proc.exec_pure]
    | cons first more =>
      rw [if_neg (by simp), Proc.exec_bind_ok (hall _), if_pos hlast]
      simp [yielded, Proc.exec_pure]
  | cons l rest ih =>
    obtain ⟨fuel, rfl⟩ := Nat.exists_eq_succ_of_ne_zero (Nat.ne_of_gt (Nat.zero_lt_of_lt hfuel))
    obtain ⟨p', es', nx'⟩ := l
    obtain ⟨_, rfl, rfl⟩ := BTreeNode.shape_eq_leaf hm
    have hlinked := h.linked
    rw [hleaves, linked_append] at hlinked
    have hnext : m.nextLeaf = p' := hlinked.2.1
    have hcell : (p', Shape.leaf es' nx') ∈ [T].flatMap cells := by
      rw [List.flatMap_singleton]
      exact mem_cells_of_mem_leaves (by simp [hleaves])
    obtain ⟨m', hm', _, hshape'⟩ := h.holds.nodeAt hcell
    have hread : Proc.exec (catching (readNode p')) (BTree.open T.ptr) db =
        (.ok (.ok m'), BTree.open T.ptr, db) := exec_catching (exec_readNode_at hm') (by simp)
    have hsplit : T.leaves = (before ++ [(p, m.entries, id m.nextLeaf)]) ++ (p', es', nx') :: rest := by
      rw [hleaves, List.append_assoc]
      rfl
    have hrest := ih hsplit hshape' (Nat.lt_of_succ_lt_succ hfuel)
    unfold visitLeaves
    cases hes : m.entries with
    | nil => simp [yielded, Proc.exec_pure]
    | cons first more =>
      rw [if_neg (by simp), Proc.exec_bind_ok (hall _), hnext, if_neg (h.holds.live_of_cell hcell).1,
        Proc.exec_bind_ok hread]
      simp only
      rw [Proc.exec_bind_ok hrest]
      simp [yielded, Proc.exec_pure]

theorem Represents.entriesFrom_eq (h : Represents db T) : entriesFrom db T.ptr = .ok (yielded T.leaves) := by
  have hcell : (T.ptr, T.shape) ∈ [T].flatMap cells := by simpa using T.root_mem_cells
  obtain ⟨top, hn, _, _⟩ := h.holds.nodeAt hcell
  obtain ⟨m, p, es, nx, rest, he, hleaves, hm⟩ := Holds.exec_firstLeaf
    (show Holds db [plug [] T] from h.holds) T.ptr h.ordered hn (Nat.le_succ_of_le h.holds.height_le)
  have hlength := h.length_leaves_le
  rw [hleaves, List.length_cons] at hlength
  have hvisit := h.exec_visitLeaves (show T.leaves = [] ++ (p, es, nx) :: rest from hleaves) hm
    (show rest.length < db.pager.numPages + 1 by omega)
  have hbound : Proc.exec (walkBound : TreeM Nat) (BTree.open T.ptr) db =
      (.ok (db.pager.numPages + 1), BTree.open T.ptr, db) := rfl
  unfold entriesFrom iterate
  rw [Proc.exec_bind_ok (Proc.exec_getLocal _ db), Proc.exec_bind_ok hbound]
  simp only [getRootPage_open]
  rw [Proc.exec_bind_ok (exec_readNode_at hn), Proc.exec_bind_ok he, hvisit, hleaves]

end BTree

-- How many documents a scan comes to.
def DbLayout.reach (L : DbLayout) (name : String) : Nat :=
  ((L.tree name).map fun T => (BTree.yielded T.leaves).length).getD 0

namespace Hosts

-- The documents of a collection, in the order of its tree.
theorem toList_docs [SerdeJson] (h : Hosts db L M) (hT : L.tree name = some T) :
    (M.docs name).toList = T.entries.map fun e => (e.key, ((M.docs name)[e.key]?).getD []) := by
  let r : String × Json.Map → String × Json.Map → Prop := fun a b => a.1 < b.1
  have : Std.Irrefl r := ⟨fun a => lt_irrefl a.1⟩
  have : Std.Antisymm r := ⟨fun a b hab hba => absurd (hab.trans hba) (lt_irrefl a.1)⟩
  have hdocs : (M.docs name).toList.Pairwise r :=
    Std.ExtTreeMap.ordered_keys_toList.imp fun hlt => compare_lt_iff_lt.mp hlt
  have hentries : (T.entries.map fun e => (e.key, ((M.docs name)[e.key]?).getD [])).Pairwise r :=
    List.pairwise_map.mpr (h.laidOut.represents hT).entries_sorted
  refine List.Pairwise.eq_of_mem_iff hdocs hentries fun entry => ?_
  obtain ⟨id, fields⟩ := entry
  have hsome : ((M.docs name)[id]?).isSome ↔ ∃ e ∈ T.entries, e.key = id := by
    rw [← mapOf_isSome, h.entries name T hT, h.docs, Option.isSome_map, Option.isSome_map]
  rw [Std.ExtTreeMap.mem_toList_iff_getElem?_eq_some, List.mem_map]
  constructor
  · intro hid
    obtain ⟨e, he, rfl⟩ := hsome.mp (by simp [hid])
    exact ⟨e, he, by simp [hid]⟩
  · rintro ⟨e, he, heq⟩
    obtain ⟨rfl, hfields⟩ := Prod.mk.inj heq
    obtain ⟨v, hv⟩ := Option.isSome_iff_exists.mp (hsome.mpr ⟨e, he, rfl⟩)
    rw [hv] at hfields
    exact hv.trans (congrArg some hfields)

-- What a scan makes of an entry.
theorem seen_eq [SerdeJson] (h : Hosts db L M) (hT : L.tree name = some T) {e : LeafEntry}
    (he : e ∈ T.entries)
    {f : VersionedDocument → Option α} {g : Json → α}
    (hf : ∀ fields xmin, (Json.obj fields).ReadBack →
      f ⟨e.key, some (.obj fields), xmin, 0⟩ = some (g (.obj fields))) :
    Collection.seen db f e = if e.key = "" then none else some (g (.obj (((M.docs name)[e.key]?).getD []))) := by
  have hmap : mapOf T.entries e.key = some e.value :=
    (mapOf_eq_some (h.laidOut.represents hT).entries_sorted).mpr he
  rw [h.entries name T hT] at hmap
  obtain ⟨d, hd, hpage⟩ := Option.map_eq_some_iff.mp hmap
  have hread := (h.laidOut.stored hd).exec_read ()
  have hversion : db.version e.value =
      if e.key = "" then .error .invalidDocument else .ok ⟨e.key, some (.obj d.fields), d.xmin, 0⟩ := by
    rw [← hpage]
    exact congrArg Prod.fst hread
  have hdoc : (M.docs name)[e.key]? = some d.fields := by
    rw [h.docs, hd]
    rfl
  have hle : ¬ d.xmin > db.txManager.lastCommittedTxId := Nat.not_lt.mpr (h.doc name e.key d hd).1
  unfold Collection.seen
  rw [hversion, hdoc]
  by_cases hempty : e.key = ""
  · rw [if_pos hempty, if_pos hempty]
  · rw [if_neg hempty, if_neg hempty]
    simp [VersionedDocument.isVisible, hle, hf _ _ (h.doc name e.key d hd).2.2.2]

theorem scanned_eq [SerdeJson] (h : Hosts db L M) (hT : L.tree name = some T) :
    M.scanned (L.reach name) name =
    .ok ((BTree.yielded T.leaves).filterMap (Collection.seen db VersionedDocument.parsed)) := by
  have hname := h.mem_of_tree hT
  have hlist := h.toList_docs hT
  have hprefix : (BTree.yielded T.leaves) = T.entries.take (L.reach name) := by
    rw [← BTree.yielded_append_missed, DbLayout.reach, hT, Option.map_some, Option.getD_some, List.take_left]
  unfold Store.scanned
  unfold Store.docs at hlist
  cases hM : M[name]? with
  | none => exact absurd hname (by simpa using hM)
  | some coll =>
    rw [hM] at hlist
    simp only [Option.map_some, Option.getD_some] at hlist ⊢
    have hall : (if coll.gaps then coll.docs.toList.take (L.reach name) else coll.docs.toList) =
        (BTree.yielded T.leaves).map fun e => (e.key, (coll.docs[e.key]?).getD []) := by
      rw [hlist, ← List.map_take, ← hprefix]
      split
      case isTrue => rfl
      case isFalse hgaps =>
        have hdense : BTree.Dense T := by
          refine h.dense name T hT ?_
          simpa [Store.gaps, hM] using hgaps
        rw [← BTree.yielded_append_missed, hdense.missed_eq_nil, List.append_nil]
    rw [hall, List.filterMap_map]
    refine congrArg Except.ok (List.filterMap_congr fun e he => ?_)
    have hmem : e ∈ T.entries := by
      rw [← BTree.yielded_append_missed]
      exact List.mem_append_left _ he
    rw [h.seen_eq hT hmem (g := id) fun _ _ => VersionedDocument.parsed_of_readBack rfl]
    simp [Store.docs, hM]

end Hosts

-- A call that only reads answers exactly as the store does.
structure Queries [SerdeJson] (m : DbM ℓ α) (spec : StoreM Unit α) (db : Database) (L : DbLayout)
    (M : Store) : Prop where
  same : (Proc.exec spec () M).2.2 = M
  answers : ∀ l, ∃ db', Proc.exec m l db = ((Proc.exec spec () M).1, l, db') ∧ Hosts db' L M

namespace Queries

variable {m : DbM ℓ α} {spec : StoreM Unit α}

theorem exec_spec [SerdeJson] (h : Queries m spec db L M) {r : Except Error α}
    (hr : (Proc.exec spec () M).1 = r) :
    Proc.exec spec () M = (r, (), M) := Prod.ext hr (Prod.ext rfl h.same)

theorem serves [SerdeJson] (h : Queries m spec db L M) : Serves m spec db M := by
  intro l
  obtain ⟨db', he, hs⟩ := h.answers l
  refine ⟨_, db', he, Or.inr ⟨L, ?_, shown_refl _⟩⟩
  rw [h.same]
  exact hs

theorem bind [SerdeJson] {f : α → DbM ℓ β} {g : α → StoreM Unit β} (hs : Hosts db L M)
    (h : Queries m spec db L M)
    (hf : ∀ a db', (Proc.exec spec () M).1 = .ok a → Hosts db' L M → Queries (f a) (g a) db' L M) :
    Queries (m >>= f) (spec >>= g) db L M := by
  cases hr : (Proc.exec spec () M).1 with
  | error e =>
    have hspec := Proc.exec_bind_error (f := g) (h.exec_spec hr)
    refine ⟨by rw [hspec], fun l => ?_⟩
    obtain ⟨db', he, hs⟩ := h.answers l
    rw [hr] at he
    rw [hspec]
    exact ⟨db', Proc.exec_bind_error he, hs⟩
  | ok a =>
    have hspec := Proc.exec_bind_ok (f := g) (h.exec_spec hr)
    refine ⟨?_, fun l => ?_⟩
    · rw [hspec]
      exact (hf a db hr hs).same
    · obtain ⟨db₁, he, hs₁⟩ := h.answers l
      rw [hr] at he
      obtain ⟨db', he', hs'⟩ := (hf a db₁ hr hs₁).answers l
      rw [hspec]
      exact ⟨db', (Proc.exec_bind_ok he).trans he', hs'⟩

theorem ofExcept [SerdeJson] (hs : Hosts db L M) (r : Except Error α) :
    Queries (Proc.ofExcept r : DbM ℓ α) (Proc.ofExcept r) db L M := by
  cases r <;> exact ⟨rfl, fun _ => ⟨db, rfl, hs⟩⟩

theorem pure [SerdeJson] (hs : Hosts db L M) (a : α) : Queries (pure a : DbM ℓ α) (pure a) db L M :=
  ⟨rfl, fun _ => ⟨db, rfl, hs⟩⟩

theorem catching [SerdeJson] (h : Queries m spec db L M)
    (hcaught : ∀ e, (Proc.exec spec () M).1 = .error e → e.Caught) :
    Queries (JasonDb.catching m) (Proc.attempt spec) db L M := by
  have hspec : Proc.exec (Proc.attempt spec) () M = (.ok (Proc.exec spec () M).1, (), M) := by
    rw [Proc.exec_attempt, h.same]
  refine ⟨by rw [hspec], fun l => ?_⟩
  obtain ⟨db', he, hs⟩ := h.answers l
  rw [hspec]
  exact ⟨db', exec_catching he hcaught, hs⟩

end Queries

section Calls

theorem Store.scanned_of_none [SerdeJson] (h : Hosts db L M) (hT : L.tree name = none) (reach : Nat) :
    M.scanned reach name =
    if name ∈ M then .ok [] else .error (.other s!"collection {name} not found") := by
  unfold Store.scanned
  cases hM : M[name]? with
  | none => rw [if_neg (by simpa using hM)]
  | some coll =>
    rw [if_pos (by rw [Std.ExtTreeMap.mem_iff_isSome_getElem?, hM]; rfl)]
    have hempty : coll.docs.toList = [] := by
      refine List.eq_nil_iff_forall_not_mem.mpr fun entry hentry => ?_
      have hget : coll.docs[entry.1]? = some entry.2 := Std.ExtTreeMap.mem_toList_iff_getElem?_eq_some.mp hentry
      have hid := h.docs name entry.1
      rw [h.doc_eq_none hT] at hid
      unfold Store.docs at hid
      rw [hM] at hid
      cases hid.symm.trans hget
    simp [hempty]

-- A scan of a collection, which ends with the length of what it saw or with the documents.
theorem exec_scan [SerdeJson] (h : Hosts db L M) (name : String) (body : Collection.WorkM β)
    (g : List Json → β)
    (hbody : ∀ T, L.tree name = some T → Proc.exec body ⟨begun db, BTree.open T.ptr⟩ (started db) =
      (.ok (g ((BTree.yielded T.leaves).filterMap (Collection.seen db VersionedDocument.parsed))),
        ⟨begun db, BTree.open T.ptr⟩, started db)) (l : ℓ) :
    ∃ db', Proc.exec (Collection.inTransaction do
      let root ← Collection.rootOf name
      if root = 0 then pure (g [])
      else
        Collection.openTree root
        body) l db = ((M.scanned (L.reach name) name).map g, l, db') ∧ Hosts db' L M := by
  have hroot := Collection.exec_rootOf h.started name (⟨begun db, BTree.open 0⟩ : Collection.Work)
  obtain ⟨work, hall⟩ : ∃ work, Proc.exec (do
      let root ← Collection.rootOf name
      if root = 0 then pure (g [])
      else
        Collection.openTree root
        body) ⟨begun db, BTree.open 0⟩ (started db) =
      ((M.scanned (L.reach name) name).map g, work, started db) := by
    cases hT : L.tree name with
    | none =>
      rw [Store.scanned_of_none h hT]
      by_cases hname : name ∈ M
      · rw [if_pos hname] at hroot ⊢
        rw [Proc.exec_bind_ok hroot, if_pos (by simp [DbLayout.root, hT])]
        exact ⟨_, rfl⟩
      · rw [if_neg hname] at hroot ⊢
        exact ⟨_, Proc.exec_bind_error hroot⟩
    | some T =>
      rw [if_pos (h.mem_of_tree hT)] at hroot
      have hptr : L.root name = T.ptr := by simp [DbLayout.root, hT]
      have hopen : Proc.exec (Collection.openTree T.ptr : Collection.WorkM Unit) ⟨begun db, BTree.open 0⟩
          (started db) = (.ok (), ⟨begun db, BTree.open T.ptr⟩, started db) := rfl
      rw [Proc.exec_bind_ok hroot, hptr, if_neg (h.tree_ptr_ne_zero hT), Proc.exec_bind_ok hopen, hbody T hT,
        h.scanned_eq hT]
      exact ⟨_, rfl⟩
  obtain ⟨db', he, hs⟩ := Collection.exec_call hall l
  exact ⟨db', he, hs L M h.started⟩

theorem reads_findAll [SerdeJson] (h : Hosts db L M) (name : String) :
    Queries (Collection.findAll name : DbM ℓ (List Json)) (Store.findAll (L.reach name) name) db L M := by
  refine ⟨rfl, fun l => ?_⟩
  have hpager : (started db).pager = db.pager := rfl
  have hbody : ∀ T, L.tree name = some T →
      Proc.exec Collection.findAllInTx ⟨begun db, BTree.open T.ptr⟩ (started db) =
        (.ok (id ((BTree.yielded T.leaves).filterMap (Collection.seen db VersionedDocument.parsed))),
          ⟨begun db, BTree.open T.ptr⟩, started db) := by
    intro T hT
    rw [Collection.findAllInTx, Proc.exec_bind_ok (Proc.exec_getLocal _ (started db)),
      Collection.exec_onTree_iterate hpager fun entry => Collection.exec_visit hpager entry _,
      BTree.Represents.entriesFrom_eq (h.laidOut.represents hT)]
    rfl
  obtain ⟨db', he, hs⟩ := exec_scan h name Collection.findAllInTx id hbody l
  refine ⟨db', he.trans ?_, hs⟩
  change ((M.scanned (L.reach name) name).map id, l, db') = (M.scanned (L.reach name) name, l, db')
  cases M.scanned (L.reach name) name <;> rfl

theorem length_filterMap_seen [SerdeJson] (h : Hosts db L M) (hT : L.tree name = some T) :
    ((BTree.yielded T.leaves).filterMap (Collection.seen db fun _ => some ())).length =
      ((BTree.yielded T.leaves).filterMap (Collection.seen db VersionedDocument.parsed)).length := by
  have hsame : ((BTree.yielded T.leaves).filterMap (Collection.seen db VersionedDocument.parsed)).map (fun _ => ()) =
      (BTree.yielded T.leaves).filterMap (Collection.seen db fun _ => some ()) := by
    rw [List.map_filterMap]
    refine List.filterMap_congr fun e he => ?_
    have hmem : e ∈ T.entries := by
      rw [← BTree.yielded_append_missed]
      exact List.mem_append_left _ he
    rw [h.seen_eq hT hmem (g := id) fun _ _ => VersionedDocument.parsed_of_readBack rfl,
      h.seen_eq hT hmem (g := fun _ => ()) fun _ _ _ => rfl]
    split <;> rfl
  rw [← hsame, List.length_map]

theorem reads_count [SerdeJson] (h : Hosts db L M) (name : String) :
    Queries (Collection.count name : DbM ℓ Nat) (Store.count (L.reach name) name) db L M := by
  have hpager : (started db).pager = db.pager := rfl
  have hbody : ∀ T, L.tree name = some T →
      Proc.exec Collection.countInTx ⟨begun db, BTree.open T.ptr⟩ (started db) =
        (.ok ((BTree.yielded T.leaves).filterMap (Collection.seen db VersionedDocument.parsed)).length,
          ⟨begun db, BTree.open T.ptr⟩, started db) := by
    intro T hT
    have hiterate : Proc.exec (Collection.onTree (BTree.iterate (Collection.countVisit (begun db))))
        ⟨begun db, BTree.open T.ptr⟩ (started db) =
        (.ok ((BTree.yielded T.leaves).filterMap (Collection.seen db fun _ => some ())),
          ⟨begun db, BTree.open T.ptr⟩, started db) := by
      rw [Collection.exec_onTree_iterate hpager fun entry => Collection.exec_countVisit hpager entry _,
        BTree.Represents.entriesFrom_eq (h.laidOut.represents hT)]
      rfl
    rw [Collection.countInTx, Proc.exec_bind_ok (Proc.exec_getLocal _ (started db)), Proc.exec_bind_ok hiterate,
      length_filterMap_seen h hT]
    rfl
  have hspec : Proc.exec (Store.count (L.reach name) name) () M =
      ((M.scanned (L.reach name) name).map List.length, (), M) := by
    have hscan : Proc.exec (Store.findAll (L.reach name) name) () M = (M.scanned (L.reach name) name, (), M) := rfl
    unfold Store.count
    cases hr : M.scanned (L.reach name) name with
    | error e =>
      rw [hr] at hscan
      exact Proc.exec_bind_error hscan
    | ok docs =>
      rw [hr] at hscan
      exact Proc.exec_bind_ok hscan
  refine ⟨by rw [hspec], fun l => ?_⟩
  rw [hspec]
  exact exec_scan h name Collection.countInTx List.length hbody l

theorem reads_checkQuery [SerdeJson] (h : Hosts db L M) (query : Query) :
    Queries (Collection.checkQuery query : DbM ℓ Unit) (Store.checkQuery query) db L M :=
  (Queries.ofExcept h _).bind h fun _ _ _ h => Queries.pure h ()

theorem reads_find [SerdeJson] (h : Hosts db L M) (name : String) (query : Query) :
    Queries (Collection.find name query : DbM ℓ (List Json)) (Store.find (L.reach name) name query) db L M :=
  (reads_checkQuery h query).bind h fun _ _ _ h => (reads_findAll h name).bind h fun _ _ _ h =>
    Queries.ofExcept h _

theorem reads_findOne [SerdeJson] (h : Hosts db L M) (name : String) (query : Query) :
    Queries (Collection.findOne name query : DbM ℓ (Option Json)) (Store.findOne (L.reach name) name query) db L M :=
  (reads_find h name query).bind h fun docs _ _ h => Queries.pure h docs.head?

theorem caught_scanned {e : Error} {reach : Nat} (h : M.scanned reach name = .error e) : e.Caught := by
  unfold Store.scanned at h
  cases hM : M[name]? with
  | none =>
    rw [hM] at h
    cases h
    simp [Error.Caught]
  | some coll =>
    rw [hM] at h
    cases h

theorem reads_allDocs [SerdeJson] (h : Hosts db L M) (name : String) :
    Queries (QueryBuilder.allDocs name : DbM ℓ (List Json)) (Store.allDocs (L.reach name) name) db L M :=
  ((reads_findAll h name).catching fun _ he => caught_scanned he).bind h fun _ _ _ h => Queries.ofExcept h _

theorem reads_matching [SerdeJson] (h : Hosts db L M) (tools : QueryTools) (builder : QueryBuilder) :
    Queries (QueryBuilder.matching tools builder : DbM ℓ (List Json))
      (Store.matching (L.reach builder.collection) tools builder) db L M := by
  unfold QueryBuilder.matching Store.matching
  cases builder.query with
  | none => exact reads_allDocs h builder.collection
  | some query =>
    exact (reads_checkQuery h _).bind h fun _ _ _ h => (reads_allDocs h builder.collection).bind h fun _ _ _ h =>
      Queries.ofExcept h _

theorem reads_search [SerdeJson] (h : Hosts db L M) (tools : QueryTools) (sorter : Sorter Error Json)
    (builder : QueryBuilder) :
    Queries (QueryBuilder.execute tools sorter builder : DbM ℓ (List Json))
      (Store.search (L.reach builder.collection) tools sorter builder) db L M :=
  (reads_matching h tools builder).bind h fun results _ _ h =>
    (Queries.ofExcept h (builder.sortResults sorter results)).bind h fun results _ _ h =>
      Queries.pure h (builder.present results)

theorem reads_aggregate [SerdeJson] (h : Hosts db L M) (tools : QueryTools) (floats : FloatTools)
    (sorter : Sorter Error Json)
    (pipeline : AggregationPipeline) :
    Queries (AggregationPipeline.execute tools floats sorter pipeline : DbM ℓ (List Json))
      (Store.aggregate (L.reach pipeline.collection) tools floats sorter pipeline) db L M :=
  (reads_allDocs h pipeline.collection).bind h fun _ _ _ h => Queries.ofExcept h _

end Calls

end JasonDb
