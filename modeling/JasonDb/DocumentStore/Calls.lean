import JasonDb.DocumentStore.Commit

namespace JasonDb

open Lib SearchTree TxBTree

variable {ℓ α β : Type} {db db' : Database} {L L' : DbLayout} {M M' : Store} {name id : String}

-- The database holds the documents of `M`, in the pages that `L` gives them.
structure Hosts [SerdeJson] (db : Database) (L : DbLayout) (M : Store) : Prop where
  healthy : Healthy db
  laidOut : LaidOut db L
  root : ∀ name, db.metadata.root name = L.root name
  entries : ∀ name T, L.tree name = some T → mapOf T.entries = fun id => (L.doc name id).map Placement.page
  rooted : ∀ name id d, L.doc name id = some d → (L.tree name).isSome
  doc : ∀ name id d, L.doc name id = some d → d.xmin ≤ db.txManager.lastCommittedTxId ∧
    id.utf8ByteSize ≤ 255 ∧ Collection.idOf (.obj d.fields) = some id ∧ (Json.obj d.fields).ReadBack
  schema : ∀ name, M[name]?.map Contents.schema = (db.metadata.collections.get? name).map CollectionMeta.schema
  docs : ∀ name id, (M.docs name)[id]? = (L.doc name id).map Placement.fields
  dense : ∀ name T, L.tree name = some T → M.gaps name = false → BTree.Dense T

namespace Hosts

theorem tree_ptr_ne_zero [SerdeJson] {T : PageTree} (h : Hosts db L M) (hT : L.tree name = some T) :
    T.ptr ≠ 0 :=
  ((h.laidOut.represents hT).holds.live T.ptr (by simpa using T.ptr_mem_ptrs)).1

theorem root_eq_zero [SerdeJson] (h : Hosts db L M) : db.metadata.root name = 0 ↔ L.tree name = none := by
  rw [h.root, DbLayout.root]
  cases hT : L.tree name with
  | none => simp
  | some T => simpa using h.tree_ptr_ne_zero hT

theorem mem_iff [SerdeJson] (h : Hosts db L M) : name ∈ M ↔ (db.metadata.collections.get? name).isSome := by
  have hs := congrArg Option.isSome (h.schema name)
  simp only [Option.isSome_map] at hs
  rw [← hs, Std.ExtTreeMap.isSome_getElem?_eq_contains]
  exact Std.ExtTreeMap.mem_iff_contains

theorem mem_of_tree [SerdeJson] {T : PageTree} (h : Hosts db L M) (hT : L.tree name = some T) : name ∈ M := by
  rw [h.mem_iff]
  by_contra hnone
  have hroot := h.root name
  unfold Metadata.root at hroot
  rw [Option.not_isSome_iff_eq_none.mp hnone] at hroot
  exact h.tree_ptr_ne_zero hT (by simpa [DbLayout.root, hT] using hroot.symm)

theorem doc_eq_none [SerdeJson] (h : Hosts db L M) (hT : L.tree name = none) (id : String) :
    L.doc name id = none := by
  cases hd : L.doc name id with
  | none => rfl
  | some d => simpa [hT] using h.rooted name id d hd

theorem schema_eq [SerdeJson] (h : Hosts db L M) :
    M.schema name = (db.metadata.collections.get? name).bind CollectionMeta.schema := by
  have hs := h.schema name
  unfold Store.schema
  cases hM : M[name]? <;> cases hcoll : db.metadata.collections.get? name <;> simp_all

-- A change of the ids that have been handed out.
theorem withIds [SerdeJson] (h : Hosts db L M) (txIdCounter : Nat) {txManager : TransactionManager}
    (hle : db.txManager.lastCommittedTxId ≤ txManager.lastCommittedTxId) :
    Hosts { db with txIdCounter, txManager } L M :=
  { h with
    healthy := ⟨h.healthy.wf, h.healthy.page, h.healthy.quiet, h.healthy.writer⟩
    laidOut := ⟨h.laidOut.wf, h.laidOut.parts⟩
    doc := fun name id d hd => ⟨(h.doc name id d hd).1.trans hle, (h.doc name id d hd).2⟩ }

-- Pages that are taken and written without anybody knowing are lost, but do no harm.
theorem leak [SerdeJson] {S : Set PageNum} (h : Hosts db L M) (he : PageEdits db ∅ db' S) :
    Hosts db' L M := by
  obtain ⟨pager, rfl⟩ : ∃ pager, db' = { db with pager } := ⟨db'.pager, he.shared⟩
  have hpage : pager.metadataPage = db.pager.metadataPage := he.frame.2.1
  have hk : Heap.Keeps Set.univ db.heap _ := he.heap.keeps.mono fun _ _ hmem => hmem
  refine { h with healthy := ⟨he.wf, ?_, h.healthy.quiet, h.healthy.writer⟩, laidOut := ⟨he.wf, ?_⟩ }
  · change pager.Allocated pager.metadataPage
    rw [hpage]
    exact hk.used _ trivial h.healthy.page
  · change Heap.Parts (L.region pager.metadataPage) L.holds _
    rw [hpage]
    exact h.laidOut.parts.keep (L.on_holds _) hk

end Hosts

section Begin

-- The database when a transaction has begun.
def started (db : Database) : Database := { db with
  txIdCounter := db.txIdCounter + 1
  txManager := { db.txManager with
    nextTxId := db.txManager.nextTxId + 1
    activeTxs := db.txManager.activeTxs.insert db.txManager.nextTxId
      ⟨db.txManager.nextTxId, db.txManager.lastCommittedTxId, .active⟩ } }

theorem exec_begin_started (l : ℓ) (db : Database) :
    Proc.exec begin l db = (.ok (begun db), l, started db) := rfl

theorem Hosts.started [SerdeJson] (h : Hosts db L M) : Hosts (started db) L M := h.withIds _ (le_refl _)

-- A call in a transaction of its own ends as its code does.
theorem Collection.exec_call [SerdeJson] {body : WorkM α} {r : Except Error α} {work : Work} {db₁ : Database}
    (hbody : Proc.exec body ⟨begun db, BTree.open 0⟩ (JasonDb.started db) = (r, work, db₁)) (l : ℓ) :
    ∃ db', Proc.exec (inTransaction body) l db = (r, l, db') ∧
      ∀ L M, Hosts db₁ L M → Hosts db' L M := by
  have hattempt : Proc.exec (Proc.within ⟨begun db, BTree.open 0⟩ (Proc.attempt body) : DbM ℓ _) l
      (JasonDb.started db) = (.ok (r, work), l, db₁) := by
    rw [Proc.exec_within, Proc.exec_attempt, hbody]
    rfl
  obtain ⟨tx, db₂, hdrop, hsound⟩ : ∃ tx db₂,
      Proc.exec Transaction.dropTransaction work.tx db₁ = (.ok (), tx, db₂) ∧
        ∀ L M, Hosts db₁ L M → Hosts db₂ L M := by
    unfold Transaction.dropTransaction
    rw [Proc.exec_bind_ok (Proc.exec_getLocal work.tx db₁)]
    split
    · exact ⟨_, _, rfl, fun L M hs => hs.withIds db₁.txIdCounter (le_refl _)⟩
    · exact ⟨_, _, rfl, fun L M hs => hs⟩
  have hwithin : Proc.exec (Proc.within work.tx Transaction.dropTransaction : DbM ℓ _) l db₁ =
      (.ok ((), tx), l, db₂) := by
    rw [Proc.exec_within, hdrop]
    rfl
  refine ⟨db₂, ?_, hsound⟩
  unfold inTransaction
  rw [Proc.exec_bind_ok (exec_begin_started l db), Proc.exec_bind_ok hattempt, Proc.exec_bind_ok hwithin]
  cases r <;> rfl

end Begin

namespace Collection

section Read

variable {work : Work} {T : PageTree}

theorem exec_rootOf [SerdeJson] (h : Hosts db L M) (name : String) (l : ℓ) : Proc.exec (rootOf name) l db =
    (if name ∈ M then .ok (L.root name) else .error (.other s!"collection {name} not found"), l, db) := by
  have hget : Proc.exec (getMetadata : DbM ℓ Metadata) l db = (.ok db.metadata, l, db) := rfl
  rw [rootOf, Proc.exec_bind_ok hget]
  have hmem : name ∈ M ↔ (db.metadata.collections.get? name).isSome := h.mem_iff
  have hroot := h.root name
  unfold Metadata.root at hroot
  cases hcoll : db.metadata.collections.get? name with
  | none =>
    rw [if_neg (by simp [hmem, hcoll])]
    rfl
  | some coll =>
    rw [hcoll] at hroot
    rw [if_pos (by simp [hmem, hcoll]), ← hroot]
    rfl

theorem exec_validateDocument [SerdeJson] (h : Hosts db L M) (name : String) (doc : Json) (l : ℓ) :
    Proc.exec (validateDocument name doc) l db = (M.validate name doc, l, db) := by
  have hget : Proc.exec (getMetadata : DbM ℓ Metadata) l db = (.ok db.metadata, l, db) := rfl
  rw [validateDocument, Proc.exec_bind_ok hget, Store.validate, h.schema_eq]
  cases (db.metadata.collections.get? name).bind CollectionMeta.schema with
  | none => rfl
  | some schema =>
    simp only
    cases schema.validate doc <;> rfl

theorem exec_search [SerdeJson] (h : Hosts db L M) (hT : L.tree name = some T) (tx : Transaction)
    (id : String) :
    Proc.exec (onTree (BTree.search id)) ⟨tx, BTree.open T.ptr⟩ db =
      (match L.doc name id with
        | some d => .ok d.page
        | none => .error .notFound, ⟨tx, BTree.open T.ptr⟩, db) := by
  rw [onTree, Proc.exec_zoom, BTree.exec_search (h.laidOut.represents hT) id, h.entries name T hT]
  cases hd : L.doc name id <;> simp [hd]

-- A committed document is visible to a transaction that begins now.
theorem exec_readVisible [SerdeJson] (h : Hosts db L M) (hT : L.tree name = some T) (tx : Transaction)
    (hwrites : tx.writes = ∅) (hsnap : tx.snapshotId = db.txManager.lastCommittedTxId) (id : String) :
    Proc.exec (readVisible id) ⟨tx, BTree.open T.ptr⟩ db =
      (match L.doc name id with
        | some d => if id = "" then .error .invalidDocument else .ok ⟨id, some (.obj d.fields), d.xmin, 0⟩
        | none => .error .notFound, ⟨tx, BTree.open T.ptr⟩, db) := by
  have hsearch := exec_search h hT tx id
  unfold readVisible
  cases hd : L.doc name id with
  | none =>
    rw [hd] at hsearch
    rw [Proc.exec_bind_error hsearch]
  | some d =>
    rw [hd] at hsearch
    rw [Proc.exec_bind_ok hsearch]
    have hread := (h.laidOut.stored hd).exec_read (⟨tx, BTree.open T.ptr⟩ : Work)
    have hversion : Proc.exec (readVersion d.page) ⟨tx, BTree.open T.ptr⟩ db =
        (if id = "" then .error .invalidDocument else .ok ⟨id, some (.obj d.fields), d.xmin, 0⟩,
          ⟨tx, BTree.open T.ptr⟩, db) := by
      rw [readVersion, Proc.exec_bind_ok (Proc.exec_getLocal _ db), hwrites]
      exact hread
    by_cases hid : id = ""
    · rw [if_pos hid] at hversion
      rw [Proc.exec_bind_error hversion]
      simp [hid]
    · rw [if_neg hid] at hversion
      rw [Proc.exec_bind_ok hversion, Proc.exec_bind_ok (Proc.exec_getLocal _ db)]
      have hle : ¬ d.xmin > tx.snapshotId := by
        rw [hsnap]
        exact Nat.not_lt.mpr (h.doc name id d hd).1
      simp [VersionedDocument.isVisible, hle, hid, Proc.exec_pure]

-- A call on a collection without a tree.
theorem exec_onExisting_none [SerdeJson] (h : Hosts db L M) (hT : L.tree name = none) (body : WorkM α)
    (l : ℓ) :
    ∃ db', Proc.exec (onExisting name body) l db =
        (.error (if name ∈ M then notFound else .other s!"collection {name} not found"), l, db') ∧
      Hosts db' L M := by
  have hbody : Proc.exec (do
      let root ← rootOf name
      if root = 0 then Proc.fail notFound
      else
        openTree root
        body) ⟨begun db, BTree.open 0⟩ (started db) =
      (.error (if name ∈ M then notFound else .other s!"collection {name} not found"),
        ⟨begun db, BTree.open 0⟩, started db) := by
    have hroot := exec_rootOf h.started name (⟨begun db, BTree.open 0⟩ : Work)
    by_cases hname : name ∈ M
    · rw [if_pos hname] at hroot ⊢
      rw [Proc.exec_bind_ok hroot, if_pos (by simp [DbLayout.root, hT])]
      rfl
    · rw [if_neg hname] at hroot ⊢
      exact Proc.exec_bind_error hroot
  obtain ⟨db', he, hs⟩ := exec_call hbody l
  exact ⟨db', he, hs L M h.started⟩

theorem exec_onExisting_some [SerdeJson] (h : Hosts db L M) (hT : L.tree name = some T) {body : WorkM α}
    {r : Except Error α} {db₁ : Database}
    (hbody : Proc.exec body ⟨begun db, BTree.open T.ptr⟩ (started db) = (r, work, db₁)) (l : ℓ) :
    ∃ db', Proc.exec (onExisting name body) l db = (r, l, db') ∧ ∀ L M, Hosts db₁ L M → Hosts db' L M := by
  refine exec_call (show Proc.exec _ _ _ = (_, work, _) from ?_) l
  have hroot := exec_rootOf h.started name (⟨begun db, BTree.open 0⟩ : Work)
  rw [if_pos (h.mem_of_tree hT)] at hroot
  have hptr : L.root name = T.ptr := by simp [DbLayout.root, hT]
  rw [Proc.exec_bind_ok hroot, hptr, if_neg (h.tree_ptr_ne_zero hT)]
  have hopen : Proc.exec (openTree T.ptr : WorkM Unit) ⟨begun db, BTree.open 0⟩ (started db) =
      (.ok (), ⟨begun db, BTree.open T.ptr⟩, started db) := rfl
  exact (Proc.exec_bind_ok hopen).trans hbody

end Read

end Collection

theorem Hosts.lookup_eq [SerdeJson] (h : Hosts db L M) (name id : String) : M.lookup name id =
    if name ∈ M then match L.doc name id with
      | some d => if id = "" then .error .invalidDocument else .ok d.fields
      | none => .error .notFound
    else .error (.other s!"collection {name} not found") := by
  have hdocs := h.docs name id
  unfold Store.lookup
  unfold Store.docs at hdocs
  cases hM : M[name]? with
  | none => rw [if_neg (by simpa using hM)]
  | some coll =>
    rw [if_pos (by simpa using congrArg Option.isSome hM)]
    rw [hM] at hdocs
    simp only [Option.map_some, Option.getD_some] at hdocs
    simp only [hdocs]
    cases L.doc name id <;> rfl

-- What the user is told: the same result, or the same message.
def Shown (r r' : Except Error α) : Prop := r.mapError Error.display = r'.mapError Error.display

theorem shown_refl (r : Except Error α) : Shown r r := rfl

theorem Shown.of_ok {r : Except Error α} {a : α} (h : Shown (.ok a) r) : r = .ok a := by
  cases r with
  | ok b => exact (congrArg Except.ok (Except.ok.inj h)).symm
  | error e => cases h

theorem Shown.of_error {r : Except Error α} {e : Error} (h : Shown (.error e) r) :
    ∃ e', r = .error e' ∧ e.display = e'.display := by
  cases r with
  | ok b => cases h
  | error e' => exact ⟨e', rfl, Except.error.inj h⟩

theorem Shown.error {e e' : Error} (h : e.display = e'.display) :
    Shown (.error e : Except Error α) (.error e') := congrArg Except.error h

theorem shown_notFound : Shown (.error Collection.notFound : Except Error α) (.error .notFound) := rfl

-- A call of the database does what the store says, unless the metadata grow too long for their page.
def Serves [SerdeJson] (m : DbM ℓ α) (spec : StoreM Unit α) (db : Database) (M : Store) : Prop :=
  ∀ l, ∃ r db', Proc.exec m l db = (r, l, db') ∧ (r = .error .invalidPageSize ∨
    ∃ L', Hosts db' L' (Proc.exec spec () M).2.2 ∧ Shown r (Proc.exec spec () M).1)

theorem Serves.bind [SerdeJson] {m : DbM ℓ α} {spec : StoreM Unit α} {f : α → DbM ℓ β} {g : α → StoreM Unit β}
    (h : Serves m spec db M)
    (hf : ∀ a db' L', Proc.exec spec () M = (.ok a, (), M') → Hosts db' L' M' → Serves (f a) (g a) db' M')
    (hM' : M' = (Proc.exec spec () M).2.2) : Serves (m >>= f) (spec >>= g) db M := by
  intro l
  obtain ⟨r, db₁, he, hr⟩ := h l
  cases r with
  | error e =>
    refine ⟨.error e, db₁, Proc.exec_bind_error he, ?_⟩
    rcases hr with hpage | ⟨L₁, hsound, hshown⟩
    · exact Or.inl (congrArg Except.error (Except.error.inj hpage))
    · obtain ⟨e', hspec, hdisplay⟩ := hshown.of_error
      have hbind := Proc.exec_bind_error (f := g) (show Proc.exec spec () M = (.error e', (), M') by
        rw [hM', ← hspec])
      rw [hbind, hM']
      exact Or.inr ⟨L₁, hsound, Shown.error hdisplay⟩
  | ok a =>
    rcases hr with hpage | ⟨L₁, hsound, hshown⟩
    · cases hpage
    · have hspec : Proc.exec spec () M = (.ok a, (), M') := by rw [hM', ← hshown.of_ok]
      rw [← hM'] at hsound
      obtain ⟨r, db', he', hr⟩ := hf a db₁ L₁ hspec hsound l
      refine ⟨r, db', (Proc.exec_bind_ok he).trans he', ?_⟩
      rw [Proc.exec_bind_ok hspec]
      exact hr

theorem Serves.pure [SerdeJson] {L : DbLayout} (h : Hosts db L M) (a : α) :
    Serves (pure a : DbM ℓ α) (pure a) db M :=
  fun _ => ⟨.ok a, db, rfl, Or.inr ⟨L, h, rfl⟩⟩

theorem Serves.fail [SerdeJson] {L : DbLayout} (h : Hosts db L M) (e : Error) :
    Serves (Proc.fail e : DbM ℓ α) (Proc.fail e) db M :=
  fun _ => ⟨.error e, db, rfl, Or.inr ⟨L, h, rfl⟩⟩

-- A call that changes the store in one step.
theorem Serves.change [SerdeJson] {m : DbM ℓ α} {f : Store → Except Error (α × Store)}
    (out : Except Error (α × Store))
    (hout : f M = out) (h : ∀ l, ∃ r db', Proc.exec m l db = (r, l, db') ∧ (r = .error .invalidPageSize ∨
      ∃ L', Hosts db' L' ((out.toOption.map Prod.snd).getD M) ∧ Shown r (out.map Prod.fst))) :
    Serves m (Store.change f) db M := by
  intro l
  obtain ⟨r, db', he, hr⟩ := h l
  refine ⟨r, db', he, ?_⟩
  rw [Store.change, Proc.exec_atomicE, hout]
  cases out <;> exact hr

namespace Collection

theorem exec_findById [SerdeJson] (h : Hosts db L M) (name id : String) (l : ℓ) :
    ∃ r db', Proc.exec (findById name id) l db = (r, l, db') ∧ Hosts db' L M ∧
      Shown r ((M.lookup name id).map .obj) ∧ ∀ e, r = .error e → e.Caught := by
  cases hT : L.tree name with
  | none =>
    obtain ⟨db', he, hs⟩ := exec_onExisting_none h hT (do
      let doc ← readVisible id
      Proc.ofExcept doc.parse) l
    refine ⟨_, db', he, hs, ?_, ?_⟩
    · rw [h.lookup_eq, h.doc_eq_none hT]
      by_cases hname : name ∈ M
      · rw [if_pos hname, if_pos hname]
        exact shown_notFound
      · rw [if_neg hname, if_neg hname]
        exact shown_refl _
    · rintro e ⟨⟩
      split <;> simp [Error.Caught, notFound]
  | some T =>
    have hread := exec_readVisible h.started hT (begun db) rfl rfl id
    have hbody : Proc.exec (do
        let doc ← readVisible id
        Proc.ofExcept doc.parse) ⟨begun db, BTree.open T.ptr⟩ (started db) =
        ((M.lookup name id).map .obj, ⟨begun db, BTree.open T.ptr⟩, started db) := by
      rw [h.lookup_eq, if_pos (h.mem_of_tree hT)]
      cases hd : L.doc name id with
      | none =>
        rw [hd] at hread
        exact Proc.exec_bind_error hread
      | some d =>
        rw [hd] at hread
        by_cases hid : id = ""
        · simp only [if_pos hid] at hread ⊢
          exact Proc.exec_bind_error hread
        · simp only [if_neg hid] at hread ⊢
          rw [Proc.exec_bind_ok hread, VersionedDocument.parse_of_readBack rfl (h.doc name id d hd).2.2.2]
          rfl
    obtain ⟨db', he, hs⟩ := exec_onExisting_some h hT hbody l
    refine ⟨_, db', he, hs L M h.started, shown_refl _, ?_⟩
    rw [h.lookup_eq, if_pos (h.mem_of_tree hT)]
    rintro e herror
    cases hd : L.doc name id with
    | none =>
      rw [hd] at herror
      cases herror
      simp [Error.Caught]
    | some d =>
      rw [hd] at herror
      by_cases hid : id = ""
      · simp only [if_pos hid] at herror
        cases herror
        simp [Error.Caught]
      · simp only [if_neg hid] at herror
        cases herror

end Collection

end JasonDb
