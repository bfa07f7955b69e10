import JasonDb.DocumentStore.Writes

namespace JasonDb

open Lib SearchTree TxBTree

variable {ℓ α β : Type} {db db₁ db₂ db' : Database} {L L' : DbLayout} {M M' : Store} {name id : String}

theorem display_missing {p : Prop} [Decidable p] (e : Error) :
    (if p then Collection.notFound else e).display = (if p then .notFound else e : Error).display := by
  by_cases hp : p
  · rw [if_pos hp, if_pos hp]
    rfl
  · rw [if_neg hp, if_neg hp]

section Update

variable {T T' : PageTree} {d : Placement} {fields updates : Json.Map}

-- An update gives the document a new version, and lets go of the pages of the old one.
theorem TreeOpen.exec_replaceEntry [SerdeJson] (h : TreeOpen db L M name T) (tx : Transaction)
    (hd : L.doc name id = some d)
    (hid : id.utf8ByteSize ≤ 255) (hfit : Legible id fields) :
    ∃ d' pages T' db', Proc.exec (do
        let (pageNum, pages) ← Collection.writeVersion id (.obj fields)
        Collection.onTree (BTree.delete id)
        Collection.onTree (BTree.insert id pageNum)
        Collection.recordWrite name id pageNum pages) ⟨tx, BTree.open T.ptr⟩ db =
        (.ok (), ⟨tx.recorded name id d'.page pages, BTree.open T'.ptr⟩, db') ∧
      d'.xmin = tx.mvccTxId ∧ d'.fields = fields ∧ db' = { db with pager := db'.pager } ∧
      LaidOut db' ((L.setDoc name id (some d')).setTree name T') ∧ Carried db' pages ∧ d'.page ∈ pages ∧
      mapOf T'.entries = Function.update (fun id => (L.doc name id).map Placement.page) id (some d'.page) ∧
      (BTree.Dense T → BTree.Dense T') := by
  obtain ⟨d', pages, db₁, hwrite, hxmin, hfields, hd', hdoc, hrep⟩ := h.exec_writeVersion tx hid hfit.chain
  have hfound : ∃ e ∈ T.entries, e.key = id := by
    rw [← mapOf_isSome, h.entries]
    simp [hd]
  obtain ⟨T₁, db₂, hdelete, ⟨hT₁, hentries₁, hedit₁⟩, hdense₁⟩ := BTree.exec_delete_dense hrep hfound
  obtain ⟨T', db', hinsert, ⟨hT', hentries, hedit⟩, hdense⟩ := BTree.exec_insert_dense hT₁ id d'.page
  have htree := (hedit₁.pageEdits hT₁).trans (hedit.pageEdits hT')
  obtain ⟨hlaid, hcarried⟩ := h.replace hdoc hd' htree hT'
  have hdel : Proc.exec (Collection.onTree (BTree.delete id)) ⟨tx, BTree.open T.ptr⟩ db₁ =
      (.ok (), ⟨tx, BTree.open T₁.ptr⟩, db₂) := by
    rw [Collection.onTree, Proc.exec_zoom, hdelete]
  have hins : Proc.exec (Collection.onTree (BTree.insert id d'.page)) ⟨tx, BTree.open T₁.ptr⟩ db₂ =
      (.ok (), ⟨tx, BTree.open T'.ptr⟩, db') := by
    rw [Collection.onTree, Proc.exec_zoom, hinsert]
  refine ⟨d', pages, T', db', ?_, hxmin, hfields, ?_, hlaid, hcarried, hd'.first, ?_,
    fun h => hdense (hdense₁ h)⟩
  · rw [Proc.exec_bind_ok hwrite]
    simp only
    rw [Proc.exec_bind_ok hdel, Proc.exec_bind_ok hins]
    exact exec_recordWrite _
  · rw [htree.shared, hdoc.shared]
  · rw [hentries, mapOf_insertEntry (BTree.Represents.entries_sorted hT₁), hentries₁, mapOf_filter,
      Function.update_idem, h.entries]

theorem exec_updateBody [SerdeJson] (h : Hosts db L M) (hT : L.tree name = some T)
    (hfit : ∀ fields, (M.docs name)[id]? = some fields → Legible id (TxCollection.applyUpdates id fields updates)) :
    ∃ r work db₁, Proc.exec (do
        Collection.updateDocument name id (.obj updates)
        Collection.setCollectionRoot name
        Collection.commit) ⟨begun db, BTree.open T.ptr⟩ (started db) = (r, work, db₁) ∧
      (r = .error .invalidPageSize ∨ ∃ L', Hosts db₁ L'
        (((M.updated name id (.obj updates)).toOption.map Prod.snd).getD M) ∧
        Shown r ((M.updated name id (.obj updates)).map Prod.fst)) := by
  have hread := Collection.exec_readVisible h.started hT (begun db) rfl rfl id
  have hlookup := h.lookup_eq name id
  rw [if_pos (h.mem_of_tree hT)] at hlookup
  have hdocs := h.docs name id
  cases hd : L.doc name id with
  | none =>
    simp only [hd] at hread hlookup
    have hspec : M.updated name id (.obj updates) = .error .notFound := by
      rw [Store.updated, hlookup]
      rfl
    rw [hspec]
    exact ⟨_, _, _, Proc.exec_bind_error (Proc.exec_bind_error hread), Or.inr ⟨L, h.started, shown_refl _⟩⟩
  | some d =>
    simp only [hd, Option.map_some] at hread hlookup hdocs
    by_cases hempty : id = ""
    · rw [if_pos hempty] at hread hlookup
      have hspec : M.updated name id (.obj updates) = .error .invalidDocument := by
        rw [Store.updated, hlookup]
        rfl
      rw [hspec]
      exact ⟨_, _, _, Proc.exec_bind_error (Proc.exec_bind_error hread), Or.inr ⟨L, h.started, shown_refl _⟩⟩
    · rw [if_neg hempty] at hread hlookup
      obtain ⟨-, hid, -, hback⟩ := h.doc name id d hd
      have hparse : Proc.exec (Proc.ofExcept (TxCollection.parseMap ⟨id, some (.obj d.fields), d.xmin, 0⟩) :
          Collection.WorkM Json.Map) ⟨begun db, BTree.open T.ptr⟩ (started db) =
          (.ok d.fields, ⟨begun db, BTree.open T.ptr⟩, started db) := by
        rw [TxCollection.parseMap, VersionedDocument.parse_of_readBack rfl hback]
        rfl
      have hvalid := Collection.exec_validateDocument h.started name
        (.obj (TxCollection.applyUpdates id d.fields updates)) (⟨begun db, BTree.open T.ptr⟩ : Collection.Work)
      have hspec : M.updated name id (.obj updates) =
          (M.validate name (.obj (TxCollection.applyUpdates id d.fields updates))).map fun _ =>
            ((), M.withDocs name ((M.docs name).insert id (TxCollection.applyUpdates id d.fields updates))
              (M.gaps name)) := by
        rw [Store.updated, hlookup]
        change (M.validate name (.obj (TxCollection.applyUpdates id d.fields updates)) >>= fun _ => _) = _
        cases M.validate name (.obj (TxCollection.applyUpdates id d.fields updates)) <;> rfl
      rw [hspec]
      cases hschema : M.validate name (.obj (TxCollection.applyUpdates id d.fields updates)) with
      | error e =>
        rw [hschema] at hvalid
        have hupdate : Proc.exec (Collection.updateDocument name id (.obj updates)) ⟨begun db, BTree.open T.ptr⟩
            (started db) = (.error e, ⟨begun db, BTree.open T.ptr⟩, started db) := by
          rw [Collection.updateDocument, Proc.exec_bind_ok hread, Proc.exec_bind_ok hparse]
          exact Proc.exec_bind_error hvalid
        exact ⟨_, _, _, Proc.exec_bind_error hupdate, Or.inr ⟨L, h.started, shown_refl _⟩⟩
      | ok u =>
        rw [hschema] at hvalid
        obtain ⟨d', pages, T', db₁, he, hxmin, hfields, hshared, hlaid, hcarried, hfirst, hmap, hdense⟩ :=
          (h.started.treeOpen hT).exec_replaceEntry (begun db) hd hid (hfit d.fields hdocs)
        have hupdate : Proc.exec (Collection.updateDocument name id (.obj updates)) ⟨begun db, BTree.open T.ptr⟩
            (started db) = (.ok (), ⟨(begun db).recorded name id d'.page pages, BTree.open T'.ptr⟩, db₁) := by
          rw [Collection.updateDocument, Proc.exec_bind_ok hread, Proc.exec_bind_ok hparse]
          exact (Proc.exec_bind_ok hvalid).trans he
        have hidOf : Collection.idOf (.obj d'.fields) = some id := by
          rw [hfields]
          simp [Collection.idOf, Json.asObject, TxCollection.applyUpdates, Json.Map.get_insert_self, Json.asStr]
        rw [Proc.exec_bind_ok hupdate, ← hfields]
        have hback' : (Json.obj d'.fields).ReadBack := hfields ▸ (hfit d.fields hdocs).readBack
        rcases exec_finish h hshared hlaid hmap hxmin hid hidOf hback' hcarried hfirst
            (fun hgaps => hdense (h.dense name T hT hgaps)) with
          ⟨work, db', he'⟩ | ⟨work, db', L', he', hs⟩
        · exact ⟨_, work, db', he', Or.inl rfl⟩
        · exact ⟨_, work, db', he', Or.inr ⟨L', hs, shown_refl _⟩⟩

theorem serves_updateById [SerdeJson] {changes : Json} (h : Hosts db L M) (name id : String)
    (hfit : ∀ updates fields, changes.asObject = some updates → (M.docs name)[id]? = some fields →
      Legible id (TxCollection.applyUpdates id fields updates)) :
    Serves (Collection.updateById name id changes : DbM ℓ Unit) (Store.updateById name id changes) db M := by
  refine Serves.change (M.updated name id changes) rfl fun l => ?_
  unfold Collection.updateById
  cases changes with
  | obj updates =>
    rw [if_neg (by simp [Json.isObject])]
    cases hT : L.tree name with
    | none =>
      obtain ⟨db', he, hs⟩ := Collection.exec_onExisting_none h hT (do
        Collection.updateDocument name id (.obj updates)
        Collection.setCollectionRoot name
        Collection.commit) l
      have hlookup := h.lookup_eq name id
      rw [h.doc_eq_none hT] at hlookup
      have hspec : M.updated name id (.obj updates) =
          .error (if name ∈ M then .notFound else .other s!"collection {name} not found") := by
        rw [Store.updated, hlookup]
        by_cases hname : name ∈ M <;> simp only [hname, if_true, if_false] <;> rfl
      rw [hspec]
      exact ⟨_, db', he, Or.inr ⟨L, hs, Shown.error (display_missing _)⟩⟩
    | some T =>
      obtain ⟨r, work, db₁, hbody, hr⟩ := exec_updateBody h hT fun fields => hfit updates fields rfl
      obtain ⟨db', he, hs⟩ := Collection.exec_onExisting_some h hT hbody l
      refine ⟨r, db', he, hr.imp_right ?_⟩
      rintro ⟨L', hsound, hshown⟩
      exact ⟨L', hs L' _ hsound, hshown⟩
  | _ => exact ⟨_, db, rfl, Or.inr ⟨L, h, shown_refl _⟩⟩

end Update

section Delete

variable {T : PageTree}

-- A delete leaves the root of a tree where it is.
theorem BTree.exec_delete_root (h : BTree.Represents db T) (key : String) :
    (Proc.exec (BTree.delete key) (BTree.open T.ptr) db).2.1 = BTree.open T.ptr := by
  obtain ⟨n, ctx, es, nx, he, hat⟩ := h.exec_descend key
  unfold BTree.delete
  rw [Proc.exec_bind_ok he]
  simp only
  split
  · rw [BTree.exec_writeNode_open _ h.holds.pager]
  · rfl

theorem exec_deleteBody [SerdeJson] (h : Hosts db L M) (hT : L.tree name = some T)
    {out : Except Error (Unit × Store)}
    (hout : out = if id ∈ M.docs name then .ok ((), M.withDocs name ((M.docs name).erase id) true)
      else .error .notFound) :
    ∃ r work db₁, Proc.exec (do
        Collection.deleteVersion id
        Collection.setCollectionRoot name
        Collection.commit) ⟨begun db, BTree.open T.ptr⟩ (started db) = (r, work, db₁) ∧
      ∃ L', Hosts db₁ L' ((out.toOption.map Prod.snd).getD M) ∧ Shown r (out.map Prod.fst) := by
  have ho := h.started.treeOpen hT
  have hsearch := ho.exec_search (begun db) id
  have hmem : id ∈ M.docs name ↔ (L.doc name id).isSome := by
    rw [Std.ExtTreeMap.mem_iff_isSome_getElem?, h.docs, Option.isSome_map]
  cases hd : L.doc name id with
  | none =>
    rw [hd] at hsearch
    rw [if_neg (fun hin => by simpa [hd] using hmem.mp hin)] at hout
    subst hout
    exact ⟨_, _, _, Proc.exec_bind_error (Proc.exec_bind_error hsearch), L, h.started, shown_refl _⟩
  | some d =>
    rw [hd] at hsearch
    rw [if_pos (hmem.mpr (by simp [hd]))] at hout
    subst hout
    have hlaid := h.started.laidOut
    obtain ⟨db₁, hfree, hedit⟩ := (hlaid.stored hd).exec_delete hlaid.wf (hlaid.docs_live hd)
      (⟨begun db, BTree.open T.ptr⟩ : Collection.Work)
    have hlaid₁ : LaidOut db₁ (L.setDoc name id none) :=
      hlaid.editDoc hedit (by simp [DbLayout.region, hd]) (by simp)
    have hrep : BTree.Represents db₁ T := hlaid₁.represents hT
    have hfound : ∃ e ∈ T.entries, e.key = id := by
      rw [← mapOf_isSome, ho.entries]
      simp [hd]
    obtain ⟨T', db₂, hdelete, hT', hentries, htree⟩ := (BTree.exec_delete hrep id).1 hfound
    have hroot : T.ptr = T'.ptr := by
      have hopen := BTree.exec_delete_root hrep id
      rw [hdelete] at hopen
      exact (congrArg BTree.rootPage hopen).symm
    have hlaid₂ : LaidOut db₂ ((L.setDoc name id none).setTree name T') :=
      hlaid₁.editTree (htree.pageEdits hT') (by simp [DbLayout.region, hT]) hT'
    have hshared : db₂ = { started db with pager := db₂.pager } := by
      rw [(htree.pageEdits hT').shared, hedit.shared]
    have hmap : mapOf T'.entries = Function.update (fun id => (L.doc name id).map Placement.page) id none := by
      rw [hentries, mapOf_filter, ho.entries]
    have hdocs : ∀ id', ((M.docs name).erase id)[id']? = if id' = id then none else (M.docs name)[id']? := by
      intro id'
      rw [Std.ExtTreeMap.getElem?_erase]
      by_cases hid' : id' = id
      · simp [hid']
      · simp [hid', Ne.symm hid']
    have hsound : Hosts (db₂.committed name T'.ptr (begun db).mvccTxId) _
        (M.withDocs name ((M.docs name).erase id) true) :=
      h.started.change hlaid₂ hshared hmap (by simp) hdocs (by simp)
    -- the root is the old one, so the commit leaves the metadata as they are
    have hcommitted : db₂.committed name T'.ptr (begun db).mvccTxId =
        { db₂ with txManager := db₂.txManager.commit (begun db).mvccTxId } := by
      have hmeta : db₂.metadata = db.metadata := by rw [hshared]; rfl
      have hsame : T'.ptr = db₂.metadata.root name := by
        rw [hmeta, h.root, DbLayout.root, hT, ← hroot]
        rfl
      unfold Database.committed Commit.withRoot
      rw [if_neg (not_not.mpr hsame)]
    rw [hcommitted] at hsound
    have hversion : Proc.exec (Collection.deleteVersion id) ⟨begun db, BTree.open T.ptr⟩ (started db) =
        (.ok (), ⟨begun db, BTree.open T'.ptr⟩, db₂) := by
      rw [Collection.deleteVersion, Proc.exec_bind_ok hsearch, Proc.exec_bind_ok hfree, Collection.onTree,
        Proc.exec_zoom, hdelete]
    refine ⟨_, _, _, (Proc.exec_bind_ok hversion).trans rfl, _, hsound, shown_refl _⟩

theorem Store.deleted_eq (M : Store) (name id : String) : M.deleted name id =
    if name ∈ M then
      if id ∈ M.docs name then .ok ((), M.withDocs name ((M.docs name).erase id) true) else .error .notFound
    else .error (.other s!"collection {name} not found") := by
  unfold Store.deleted Store.docs
  cases hM : M[name]? with
  | none => rw [if_neg (by simpa using hM)]
  | some coll =>
    have hname : name ∈ M := by
      rw [Std.ExtTreeMap.mem_iff_isSome_getElem?, hM]
      rfl
    rw [if_pos hname]
    rfl

theorem serves_deleteById [SerdeJson] (h : Hosts db L M) (name id : String) :
    Serves (Collection.deleteById name id : DbM ℓ Unit) (Store.deleteById name id) db M := by
  refine Serves.change (M.deleted name id) rfl fun l => ?_
  unfold Collection.deleteById
  cases hT : L.tree name with
  | none =>
    obtain ⟨db', he, hs⟩ := Collection.exec_onExisting_none h hT (do
      Collection.deleteVersion id
      Collection.setCollectionRoot name
      Collection.commit) l
    have hnone : (M.docs name)[id]? = none := by
      rw [h.docs, h.doc_eq_none hT]
      rfl
    have hspec : M.deleted name id =
        .error (if name ∈ M then .notFound else .other s!"collection {name} not found") := by
      rw [Store.deleted_eq, if_neg (show id ∉ M.docs name by simpa using hnone)]
      by_cases hname : name ∈ M
      · rw [if_pos hname, if_pos hname]
      · rw [if_neg hname, if_neg hname]
    rw [hspec]
    exact ⟨_, db', he, Or.inr ⟨L, hs, Shown.error (display_missing _)⟩⟩
  | some T =>
    obtain ⟨r, work, db₁, hbody, L', hsound, hshown⟩ := exec_deleteBody h hT rfl
    obtain ⟨db', he, hs⟩ := Collection.exec_onExisting_some h hT hbody l
    rw [Store.deleted_eq, if_pos (h.mem_of_tree hT)]
    exact ⟨r, db', he, Or.inr ⟨L', hs L' _ hsound, hshown⟩⟩

end Delete

section Schemas

theorem tidies_flush (hwf : db.pager.WF) (hm : db.pager.Allocated db.pager.metadataPage) :
    Tidies db { db with pager := db.pager.flush } := by
  have hsame : db.pager.flush.numPages = db.pager.numPages ∧ db.pager.flush.freeList = db.pager.freeList ∧
      db.pager.flush.metadataPage = db.pager.metadataPage ∧ db.pager.flush.readOnly = db.pager.readOnly := by
    unfold Pager.flush
    split <;> exact ⟨rfl, rfl, rfl, rfl⟩
  obtain ⟨hpages, hfree, hpage, hro⟩ := hsame
  refine Tidies.of_keeps hm ?_ ⟨fun p _ hu => ?_, fun p _ _ v hv => Pager.view_flush hv⟩ hpage rfl rfl rfl rfl
  · exact ⟨hro.trans hwf.writable, by rw [hpages]; exact hwf.nonempty, by rw [hfree]; exact hwf.nodup,
      by rw [hfree, hpages]; exact hwf.range⟩
  · obtain ⟨h0, hlt, hnot⟩ : db.pager.Allocated p := hu
    exact ⟨h0, by rw [hpages]; exact hlt, by rw [hfree]; exact hnot⟩

theorem Hosts.flush [SerdeJson] (h : Hosts db L M) : Hosts { db with pager := db.pager.flush } L M :=
  h.tidies (tidies_flush h.healthy.wf h.healthy.page)

-- A change of the metadata that leaves the trees where they are.
theorem Hosts.exec_changeMetadata [SerdeJson] (h : Hosts db L M) {f : Metadata → Metadata}
    (hroot : ∀ name, (f db.metadata).root name = db.metadata.root name)
    (hschema : ∀ name, M'[name]?.map Contents.schema =
      ((f db.metadata).collections.get? name).map CollectionMeta.schema)
    (hdocs : ∀ name, M'.docs name = M.docs name) (hgaps : ∀ name, M'.gaps name = M.gaps name) (l : ℓ) :
    ∃ r db', Proc.exec (changeMetadata f) l db = (r, l, db') ∧
      (r = .error .invalidPageSize ∨ r = .ok () ∧ Hosts db' L M') := by
  have hplaced : db.Placed db.pager.metadataPage :=
    ⟨rfl, Nat.pos_of_ne_zero h.healthy.page.1, h.healthy.page.2.1, h.healthy.page.2.2, h.healthy.wf.writable,
      h.healthy.writer⟩
  by_cases hfit : (f db.metadata).toJson.byteLen ≤ PAGE_SIZE
  · refine ⟨_, _, exec_changeMetadata_eq hplaced hfit, Or.inr ⟨rfl, ?_⟩⟩
    obtain ⟨db₁, hwrite, hedit, -⟩ := exec_writePage h.healthy.wf (S := {db.pager.metadataPage})
      (by rintro p rfl; exact h.healthy.page) rfl (.metadata (f db.metadata)) (byteLen_metadata_eq.mpr hfit) l
    obtain rfl : { db with pager := (db.pager.writePageTransfer db.pager.metadataPage
        (.metadata (f db.metadata))).2 } = db₁ := by
      rw [writePageTransfer, Proc.exec_atomicE] at hwrite
      exact congrArg (fun out => out.2.2) hwrite
    have hlaid := h.laidOut.editMetadata hedit.wf hedit.frame.2.1 hedit.heap
    have hsound : Hosts { db with
        metadata := f db.metadata
        pager := (db.pager.writePageTransfer db.pager.metadataPage (.metadata (f db.metadata))).2 } L M' :=
      { healthy := ⟨hedit.wf, hlaid.parts.used .metadata _ rfl, h.healthy.quiet, h.healthy.writer⟩
        laidOut := ⟨hlaid.wf, hlaid.parts⟩
        root := fun name => (hroot name).trans (h.root name)
        entries := h.entries
        rooted := h.rooted
        doc := h.doc
        schema := hschema
        docs := fun name id => by rw [hdocs]; exact h.docs name id
        dense := fun name T hT hnone => h.dense name T hT (hgaps name ▸ hnone) }
    exact hsound.flush.flush
  · exact ⟨_, _, exec_changeMetadata_error hplaced hfit, Or.inl rfl⟩

namespace Store

@[simp] theorem getElem?_withSchema (M : Store) (name : String) (schema : Option Schema) (other : String) :
    (M.withSchema name schema)[other]? =
      if name = other then some ⟨schema, M.docs name, M.gaps name⟩ else M[other]? := by
  simp [withSchema, Std.ExtTreeMap.getElem?_insert]

@[simp] theorem docs_withSchema (M : Store) (name : String) (schema : Option Schema) (other : String) :
    (M.withSchema name schema).docs other = M.docs other := by
  unfold Store.docs
  rw [getElem?_withSchema]
  split
  case isTrue heq => rw [← heq]; rfl
  case isFalse => rfl

@[simp] theorem gaps_withSchema (M : Store) (name : String) (schema : Option Schema) (other : String) :
    (M.withSchema name schema).gaps other = M.gaps other := by
  unfold Store.gaps
  rw [getElem?_withSchema]
  split
  case isTrue heq => rw [← heq]; rfl
  case isFalse => rfl

end Store

section Calls

variable {isAlphabetic isAlphanumeric : Char → Bool}

theorem exec_isReadOnly [SerdeJson] (h : Hosts db L M) (l : ℓ) :
    Proc.exec isReadOnly l db = (.ok false, l, db) := by
  rw [isReadOnly, Proc.exec_atomic, h.healthy.writer]

theorem serves_setSchema [SerdeJson] (h : Hosts db L M) (name : String) (schema : Schema) :
    Serves (setSchema isAlphabetic isAlphanumeric name schema : DbM ℓ Unit)
      (Store.setSchema isAlphabetic isAlphanumeric name schema) db M := by
  refine Serves.change (M.withSchemaSet isAlphabetic isAlphanumeric name schema) rfl fun l => ?_
  unfold setSchema Store.withSchemaSet
  cases hname : validateCollectionName isAlphabetic isAlphanumeric name with
  | error e => exact ⟨_, db, rfl, Or.inr ⟨L, h, shown_refl _⟩⟩
  | ok u =>
    rw [Proc.exec_bind_ok (Proc.exec_ofExcept_ok u l db), Proc.exec_bind_ok (exec_isReadOnly h l)]
    have hroot : ∀ other, (withSchema name schema db.metadata).root other = db.metadata.root other := by
      intro other
      unfold withSchema
      by_cases hother : other = name
      · subst hother
        rw [Metadata.root_modifyCollection_self, Metadata.root]
        cases db.metadata.collections.get? other <;> rfl
      · exact Metadata.root_modifyCollection_of_ne _ _ hother
    have hschema : ∀ other, (M.withSchema name (some schema))[other]?.map Contents.schema =
        ((withSchema name schema db.metadata).collections.get? other).map CollectionMeta.schema := by
      intro other
      rw [Store.getElem?_withSchema]
      unfold withSchema Metadata.modifyCollection
      by_cases hother : name = other
      · subst hother
        rw [if_pos rfl, HashMap.get?_insert_self]
        rfl
      · rw [if_neg hother, HashMap.get?_insert_of_ne _ _ (Ne.symm hother)]
        exact h.schema other
    obtain ⟨r, db', he, hr⟩ := h.exec_changeMetadata hroot hschema (by simp) (by simp) l
    refine ⟨r, db', he, hr.imp_right ?_⟩
    rintro ⟨rfl, hs⟩
    exact ⟨L, hs, shown_refl _⟩

theorem serves_removeSchema [SerdeJson] (h : Hosts db L M) (name : String) :
    Serves (removeSchema isAlphabetic isAlphanumeric name : DbM ℓ Unit)
      (Store.removeSchema isAlphabetic isAlphanumeric name) db M := by
  refine Serves.change (M.withSchemaRemoved isAlphabetic isAlphanumeric name) rfl fun l => ?_
  unfold removeSchema Store.withSchemaRemoved
  cases hname : validateCollectionName isAlphabetic isAlphanumeric name with
  | error e =>
    have hcheck : Proc.exec (checkCall isAlphabetic isAlphanumeric name "remove schema") l db =
        (.error e, l, db) := by
      rw [checkCall, hname]
      rfl
    exact ⟨_, db, Proc.exec_bind_error hcheck, Or.inr ⟨L, h, shown_refl _⟩⟩
  | ok u =>
    have hcheck : Proc.exec (checkCall isAlphabetic isAlphanumeric name "remove schema") l db =
        (.ok (), l, db) := by
      rw [checkCall, hname, Proc.exec_bind_ok (Proc.exec_ofExcept_ok u l db),
        Proc.exec_bind_ok (exec_isReadOnly h l)]
      rfl
    rw [Proc.exec_bind_ok hcheck]
    have hroot : ∀ other, (withoutSchema name db.metadata).root other = db.metadata.root other := by
      intro other
      unfold withoutSchema
      cases hcoll : db.metadata.collections.get? name with
      | none => rfl
      | some coll =>
        unfold Metadata.root
        rw [HashMap.get?_insert]
        split
        case isTrue heq =>
          subst heq
          rw [hcoll]
          rfl
        case isFalse => rfl
    have hschema : ∀ other, (if name ∈ M then M.withSchema name none else M)[other]?.map Contents.schema =
        ((withoutSchema name db.metadata).collections.get? other).map CollectionMeta.schema := by
      intro other
      have hmem : name ∈ M ↔ (db.metadata.collections.get? name).isSome := h.mem_iff
      unfold withoutSchema
      cases hcoll : db.metadata.collections.get? name with
      | none =>
        rw [if_neg (by simp [hmem, hcoll])]
        exact h.schema other
      | some coll =>
        rw [if_pos (by simp [hmem, hcoll]), Store.getElem?_withSchema, HashMap.get?_insert]
        by_cases hother : name = other
        · rw [if_pos hother, if_pos hother.symm]
          rfl
        · rw [if_neg hother, if_neg (Ne.symm hother)]
          exact h.schema other
    have hdocs : ∀ other, (if name ∈ M then M.withSchema name none else M : Store).docs other = M.docs other := by
      intro other
      split
      · simp
      · rfl
    have hgaps : ∀ other, (if name ∈ M then M.withSchema name none else M : Store).gaps other = M.gaps other := by
      intro other
      split
      · simp
      · rfl
    obtain ⟨r, db', he, hr⟩ := h.exec_changeMetadata hroot hschema hdocs hgaps l
    refine ⟨r, db', he, hr.imp_right ?_⟩
    rintro ⟨rfl, hs⟩
    exact ⟨L, hs, shown_refl _⟩

end Calls

end Schemas

end JasonDb
