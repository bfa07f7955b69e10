import JasonDb.Database.Placed
import JasonDb.Database.Scan
import JasonDb.IndexKey.Prefix
import JasonDb.Pager.Holds
import JasonDb.TxCollection.FailedInsert

namespace JasonDb

open Lib SearchTree TxBTree

section Last

variable {es live : List LeafEntry}

-- The map after an entry was put into it.
def putEntry (M : KeyMap) (entry : LeafEntry) : KeyMap := Function.update M entry.key (some entry.value)

theorem foldl_putEntry (es : List LeafEntry) (M : KeyMap) (key : String) :
    es.foldl putEntry M key = (mapOf es.reverse key).or (M key) := by
  induction es generalizing M with
  | nil => rfl
  | cons e rest ih =>
    rw [List.foldl_cons, ih, List.reverse_cons, mapOf, mapOf, List.find?_append]
    cases rest.reverse.find? (·.key = key) with
    | some e' => rfl
    | none =>
      by_cases he : e.key = key
      · subst he
        simp [putEntry]
      · simp [putEntry, he, Function.update_of_ne (Ne.symm he)]

theorem mapOf_eq_some_of_nodup (h : (es.map LeafEntry.key).Nodup) {key : String} {value : PageNum} :
    mapOf es key = some value ↔ ⟨key, value⟩ ∈ es := by
  induction es with
  | nil => simp [mapOf]
  | cons e rest ih =>
    obtain ⟨he, hrest⟩ := List.nodup_cons.mp h
    rw [mapOf_cons, List.mem_cons]
    by_cases hk : e.key = key
    · subst hk
      have hnot : ⟨e.key, value⟩ ∉ rest := fun hmem => he (List.mem_map.mpr ⟨_, hmem, rfl⟩)
      rw [if_pos rfl, Option.some.injEq, or_iff_left hnot]
      exact ⟨fun hv => by rw [← hv], fun hv => by rw [← hv]⟩
    · rw [if_neg hk, ih hrest, or_iff_right]
      rintro rfl
      exact hk rfl

theorem nodup_keys_of_sorted (h : SortedEntries es) : (es.map LeafEntry.key).Nodup := by
  rw [List.Nodup, List.pairwise_map]
  exact h.imp fun hlt => hlt.ne

-- Lists with a key at most once are permutations of each other if they stand for one map.
theorem perm_iff_mapOf (h : (es.map LeafEntry.key).Nodup) (hlive : (live.map LeafEntry.key).Nodup) :
    es.Perm live ↔ mapOf es = mapOf live := by
  constructor
  · intro hperm
    funext key
    refine Option.ext fun value => ?_
    rw [mapOf_eq_some_of_nodup h, mapOf_eq_some_of_nodup hlive]
    exact hperm.mem_iff
  · intro hmap
    refine (List.perm_ext_iff_of_nodup h.of_map hlive.of_map).mpr fun e => ?_
    have hvalue := congrFun hmap e.key
    rw [← mapOf_eq_some_of_nodup h, ← mapOf_eq_some_of_nodup hlive, hvalue]

-- Under every key the last entry is one of `live`.
def LastLive (live es : List LeafEntry) : Prop :=
  ∀ entry ∈ es, es.reverse.find? (·.key = entry.key) = some entry → entry ∈ live

instance (live es : List LeafEntry) : Decidable (LastLive live es) :=
  inferInstanceAs (Decidable (∀ entry ∈ es, _ → _))

-- Putting entries one after the other makes the map of `live` if the last ones are of `live`.
theorem foldl_putEntry_eq_iff (hlive : (live.map LeafEntry.key).Nodup) (hsub : live ⊆ es) :
    es.foldl putEntry (fun _ => none) = mapOf live ↔ LastLive live es := by
  have hfold : ∀ key, es.foldl putEntry (fun _ => none) key = mapOf es.reverse key := fun key => by
    rw [foldl_putEntry, Option.or_none]
  constructor
  · intro hmap entry _ hlast
    have hvalue : mapOf live entry.key = some entry.value := by
      rw [← hmap, hfold, mapOf, hlast]
      rfl
    exact (mapOf_eq_some_of_nodup hlive).mp hvalue
  · intro hlast
    funext key
    rw [hfold, mapOf]
    cases hfind : es.reverse.find? (·.key = key) with
    | some entry =>
      have hkey : entry.key = key := by simpa using List.find?_some hfind
      subst hkey
      have hmem : entry ∈ es := List.mem_reverse.mp (List.mem_of_find?_eq_some hfind)
      exact ((mapOf_eq_some_of_nodup hlive).mpr (hlast entry hmem hfind)).symm
    | none =>
      refine (mapOf_eq_none.mpr fun entry hentry heq => ?_).symm
      have hnot := List.find?_eq_none.mp hfind entry (List.mem_reverse.mpr (hsub hentry))
      exact hnot (by simpa using heq)

-- What comes again in a list of suffixes is what is not in the first leaf.
theorem nodup_suffixes {g : LeafEntry → Option LeafEntry}
    {ls : List (PageNum × List LeafEntry × PageNum)}
    (h : (((ls.flatMap (·.2.1)).filterMap g).map LeafEntry.key).Nodup) :
    (((suffixes [] ls).filterMap g).map LeafEntry.key).Nodup ↔
      (ls.tail.flatMap (·.2.1)).filterMap g = [] := by
  cases ls with
  | nil => simp [suffixes]
  | cons l rest =>
    simp only [suffixes, List.append_nil, List.flatMap_cons, List.tail_cons, List.filterMap_append,
      List.map_append] at h ⊢
    constructor
    · intro hnodup
      by_contra hne
      obtain ⟨e, he⟩ := List.exists_mem_of_ne_nil _ hne
      have hagain : e ∈ (suffixes [] rest).filterMap g := by
        obtain ⟨entry, hentry, heq⟩ := List.mem_filterMap.mp he
        exact List.mem_filterMap.mpr ⟨entry, subset_suffixes rest hentry, heq⟩
      exact List.disjoint_of_nodup_append hnodup
        (List.mem_append_right _ (List.mem_map_of_mem he)) (List.mem_map_of_mem hagain)
    · intro hnone
      have hagain : (suffixes [] rest).filterMap g = [] := by
        rw [List.filterMap_eq_nil_iff] at hnone ⊢
        exact fun entry hentry => hnone entry (suffixes_subset rest hentry)
      rwa [hagain, List.map_nil, List.append_nil]

end Last

section Keys

variable {db : Database} {fields : List String} {docs : List LeafEntry}

def Database.indexEntryOf [SerdeJson] (db : Database) (fields : List String) (entry : LeafEntry) :
    Option LeafEntry :=
  (db.indexedDoc entry.value).map fun doc =>
    ⟨serializeIndexKey (Json.extractFieldValues doc fields) entry.key, entry.value⟩

-- What the build puts into the index for entries that it comes to: it leaves out those whose
-- documents it cannot read.
def Database.indexed [SerdeJson] (db : Database) (fields : List String) (es : List LeafEntry) :
    List LeafEntry :=
  es.filterMap (db.indexEntryOf fields)

-- The values of a stored document in the fields.
def Database.valuesOf (db : Database) (fields : List String) (entry : LeafEntry) : List Json :=
  Json.extractFieldValues (db.storedDoc entry.value) fields

-- What an index is to have for the documents of a collection: each of them, under its values and
-- its id and with its page.
def Database.owed (db : Database) (fields : List String) (docs : List LeafEntry) : List LeafEntry :=
  docs.map fun entry => ⟨serializeIndexKey (db.valuesOf fields entry) entry.key, entry.value⟩

-- No two of the documents have the same values in the fields.
def Database.NoneAgree (db : Database) (fields : List String) (docs : List LeafEntry) : Prop :=
  ∀ a ∈ docs, ∀ b ∈ docs, db.valuesOf fields a = db.valuesOf fields b → a = b

theorem indexed_eq_owed [SerdeJson] (fields : List String)
    (h : ∀ entry ∈ docs, db.ReadsBack entry.value) : db.indexed fields docs = db.owed fields docs := by
  have hentry : ∀ entry ∈ docs, db.indexEntryOf fields entry =
      some ⟨serializeIndexKey (db.valuesOf fields entry) entry.key, entry.value⟩ := by
    intro entry hmem
    rw [Database.indexEntryOf, (h entry hmem).indexedDoc]
    rfl
  rw [Database.indexed, List.filterMap_congr hentry, List.filterMap_eq_map']
  rfl

theorem serializeIndexKey_inj {v w : List Json} {a b : String} (hv : v ≠ []) (hlen : v.length = w.length)
    (h : serializeIndexKey v a = serializeIndexKey w b) : v = w ∧ a = b := by
  have hw : w ≠ [] := by
    rw [← List.length_pos_iff, ← hlen]
    exact List.length_pos_iff.mpr hv
  have htext := congrArg String.toList h
  rw [toList_serializeIndexKey hv, toList_serializeIndexKey hw] at htext
  obtain ⟨hvw, hab⟩ := valuesText_append_inj hlen htext
  exact ⟨hvw, String.toList_inj.mp hab⟩

-- Entries under one key are of documents with one id and the same values.
theorem indexEntryOf_inj [SerdeJson] (hfields : fields ≠ []) {a b e e' : LeafEntry}
    (ha : db.indexEntryOf fields a = some e) (hb : db.indexEntryOf fields b = some e')
    (hkey : e.key = e'.key) : a.key = b.key := by
  obtain ⟨doc, _, rfl⟩ := Option.map_eq_some_iff.mp ha
  obtain ⟨doc', _, rfl⟩ := Option.map_eq_some_iff.mp hb
  have hvalues : Json.extractFieldValues doc fields ≠ [] := by
    simpa [Json.extractFieldValues] using hfields
  exact (serializeIndexKey_inj hvalues (by simp [Json.extractFieldValues]) hkey).2

theorem nodup_indexed [SerdeJson] (db : Database) (hfields : fields ≠ []) (hdocs : SortedEntries docs) :
    ((db.indexed fields docs).map LeafEntry.key).Nodup := by
  rw [List.Nodup, List.pairwise_map, Database.indexed, List.pairwise_filterMap]
  refine hdocs.imp fun hlt e he e' he' heq => ?_
  exact absurd (indexEntryOf_inj hfields he he' heq) hlt.ne

end Keys

section Rounds

variable {db db' : Database} {M : KeyMap} {t : BTree} {fields : List String} {unique : Bool}

-- The build has a tree for `M`, in pages that were not in use when it began.
def Building (db : Database) (M : KeyMap) (t : BTree) (db' : Database) : Prop :=
  ∃ T, BTree.Opened t db' T ∧ mapOf T.entries = M ∧ BTree.Edits db ∅ db' {p | p ∈ T.ptrs}

theorem Building.untouched (h : Building db M t db') : Untouched db db' := by
  obtain ⟨_, _, _, hedits⟩ := h
  exact fun p hp => hedits.view p (Set.notMem_empty p) hp

-- A unique index refuses a key that it has.
def Taken (unique : Bool) (M : KeyMap) (key : String) : Prop := unique = true ∧ (M key).isSome

theorem exec_indexEntry_none [SerdeJson] (unique : Bool) {entry : LeafEntry}
    (h : db'.indexEntryOf fields entry = none)
    (t : BTree) : Proc.exec (indexEntry fields unique entry) t db' = (.ok (), t, db') := by
  have hdoc : db'.indexedDoc entry.value = none := by simpa [Database.indexEntryOf] using h
  unfold indexEntry
  rw [Proc.exec_bind_ok (exec_readIndexed entry t db'), hdoc]
  rfl

theorem Building.exec_search (hJ : Building db M t db') (key : String) :
    ∃ r, Proc.exec (catching (BTree.search key)) t db' = (.ok r, t, db') ∧ r.isOk = (M key).isSome := by
  obtain ⟨T, ⟨rfl, hrep⟩, rfl, _⟩ := hJ
  refine ⟨_, exec_catching (BTree.exec_search hrep key) fun e he => ?_, ?_⟩
  · cases hM : mapOf T.entries key with
    | some value => simp [hM] at he
    | none =>
      obtain rfl : Error.notFound = e := by simpa [hM] using he
      simp [Error.Caught]
  · cases mapOf T.entries key <;> rfl

theorem Building.insert (hJ : Building db M t db') (e : LeafEntry) :
    ∃ t' db'', Proc.exec (BTree.insert e.key e.value) t db' = (.ok (), t', db'') ∧
      Building db (putEntry M e) t' db'' := by
  obtain ⟨T, hopened, rfl, hedits⟩ := hJ
  obtain ⟨T', hopened', hmap, hedits'⟩ := hopened.step (.insert e.key e.value)
  exact ⟨_, _, Prod.ext (hopened.insert_ok e.key e.value) rfl, T', hopened', hmap, hedits.trans hedits'⟩

theorem exec_indexEntry_some [SerdeJson] (unique : Bool) {entry e : LeafEntry} (hJ : Building db M t db')
    (h : db'.indexEntryOf fields entry = some e) :
    (Taken unique M e.key → Proc.exec (indexEntry fields unique entry) t db' =
      (.error (duplicateValue fields), t, db')) ∧
    (¬ Taken unique M e.key → ∃ t' db'', Proc.exec (indexEntry fields unique entry) t db' = (.ok (), t', db'') ∧
      Building db (putEntry M e) t' db'') := by
  obtain ⟨doc, hdoc, rfl⟩ := Option.map_eq_some_iff.mp h
  have hentry : Proc.exec (indexEntry fields unique entry) t db' = Proc.exec (
      if unique && (M (serializeIndexKey (Json.extractFieldValues doc fields) entry.key)).isSome then
        Proc.fail (duplicateValue fields)
      else BTree.insert (serializeIndexKey (Json.extractFieldValues doc fields) entry.key) entry.value)
      t db' := by
    unfold indexEntry
    rw [Proc.exec_bind_ok (exec_readIndexed entry t db'), hdoc]
    cases unique with
    | false => rfl
    | true =>
      obtain ⟨r, hsearch, hfound⟩ :=
        hJ.exec_search (serializeIndexKey (Json.extractFieldValues doc fields) entry.key)
      simp only [if_true, Bool.true_and]
      rw [Proc.exec_bind_ok hsearch, ← hfound]
      rfl
  rw [hentry]
  constructor
  · rintro ⟨rfl, hsome⟩
    rw [if_pos (by simp only [hsome, Bool.and_true])]
    rfl
  · intro hfree
    rw [if_neg (by simpa [Taken] using hfree)]
    exact hJ.insert ⟨_, entry.value⟩

-- No entry is refused when they are put in one after the other.
def Admitted (unique : Bool) : KeyMap → List LeafEntry → Prop
  | _, [] => True
  | M, e :: rest => ¬ Taken unique M e.key ∧ Admitted unique (putEntry M e) rest

theorem admitted_false (M : KeyMap) (es : List LeafEntry) : Admitted false M es := by
  induction es generalizing M with
  | nil => trivial
  | cons e rest ih => exact ⟨fun h => absurd h.1 (by simp), ih _⟩

-- A unique index takes entries with a key at most once.
theorem admitted_true (M : KeyMap) (es : List LeafEntry) :
    Admitted true M es ↔ (es.map LeafEntry.key).Nodup ∧ ∀ e ∈ es, M e.key = none := by
  induction es generalizing M with
  | nil => simp [Admitted]
  | cons e rest ih =>
    have hput : ∀ d, putEntry M e d = none ↔ d ≠ e.key ∧ M d = none := by
      intro d
      by_cases hd : d = e.key
      · simp [putEntry, hd]
      · simp [putEntry, hd]
    rw [Admitted, ih, List.map_cons, List.nodup_cons, List.forall_mem_cons]
    simp only [Taken, hput, List.mem_map, true_and, Bool.not_eq_true, Option.isSome_eq_false_iff,
      Option.isNone_iff_eq_none]
    constructor
    · rintro ⟨he, hnodup, hrest⟩
      refine ⟨⟨?_, hnodup⟩, he, fun d hd => (hrest d hd).2⟩
      rintro ⟨d, hd, hkey⟩
      exact (hrest d hd).1 hkey
    · rintro ⟨⟨hnot, hnodup⟩, he, hrest⟩
      exact ⟨he, hnodup, fun d hd => ⟨fun hkey => hnot ⟨d, hd, hkey⟩, hrest d hd⟩⟩

-- The loop over entries of the collection puts what they have in the index into it, up to the
-- first that is refused.
theorem exec_indexEntries [SerdeJson] (fields : List String) (unique : Bool) {es : List LeafEntry}
    (hused : ∀ entry ∈ es, db.DocumentUsed entry.value)
    (hJ : Building db M t db') :
    (Admitted unique M (db.indexed fields es) → ∃ t' db'',
      Proc.exec (Proc.forEach (indexEntry fields unique) es) t db' = (.ok (), t', db'') ∧
        Building db ((db.indexed fields es).foldl putEntry M) t' db'') ∧
    (¬ Admitted unique M (db.indexed fields es) → ∃ t' db'',
      Proc.exec (Proc.forEach (indexEntry fields unique) es) t db' =
        (.error (duplicateValue fields), t', db'')) := by
  induction es generalizing M t db' with
  | nil => exact ⟨fun _ => ⟨t, db', rfl, hJ⟩, fun h => absurd trivial h⟩
  | cons entry rest ih =>
    have hrest : ∀ entry ∈ rest, db.DocumentUsed entry.value := fun e he =>
      hused e (List.mem_cons_of_mem entry he)
    have hsame : db'.indexEntryOf fields entry = db.indexEntryOf fields entry := by
      rw [Database.indexEntryOf, Database.indexEntryOf,
        hJ.untouched.indexedDoc (hused entry List.mem_cons_self)]
    rw [Proc.exec_forEach_cons]
    cases he : db.indexEntryOf fields entry with
    | none =>
      rw [Proc.exec_bind_ok (exec_indexEntry_none unique (hsame.trans he) t), Database.indexed,
        List.filterMap_cons_none he]
      exact ih hrest hJ
    | some e =>
      obtain ⟨htaken, hfree⟩ := exec_indexEntry_some unique hJ (hsame.trans he)
      rw [Database.indexed, List.filterMap_cons_some he]
      by_cases hk : Taken unique M e.key
      · rw [Proc.exec_bind_error (htaken hk)]
        exact ⟨fun h => absurd hk h.1, fun _ => ⟨t, db', rfl⟩⟩
      · obtain ⟨t₁, db₁, hentry, hJ₁⟩ := hfree hk
        rw [Proc.exec_bind_ok hentry]
        obtain ⟨hok, herror⟩ := ih hrest hJ₁
        exact ⟨fun h => hok h.2, fun h => herror fun h' => h ⟨hk, h'⟩⟩

end Rounds

section Build

variable {ℓ : Type} {db db' : Database} {fields : List String} {unique : Bool} {name : String}
  {docs : List LeafEntry}

-- The documents of a collection are the entries of its tree. Without a root there are none.
def Database.Documents (db : Database) (name : String) (docs : List LeafEntry) : Prop :=
  if db.metadata.root name = 0 then docs = []
  else ∃ rank T, Represents (TxBTree.new (db.metadata.root name) ∅) db rank T ∧ T.entries = docs

theorem Database.Documents.sorted (h : db.Documents name docs) : SortedEntries docs := by
  unfold Database.Documents at h
  split at h
  · rw [h]
    exact List.Pairwise.nil
  · obtain ⟨rank, T, hrep, rfl⟩ := h
    exact hrep.entries_sorted

theorem Database.Documents.scanned (h : db.Documents name docs) :
    docs ⊆ db.scanned (db.metadata.root name) := by
  unfold Database.Documents at h
  split at h
  · rw [h]
    exact List.nil_subset _
  · obtain ⟨rank, T, hrep, rfl⟩ := h
    exact (scan_of_represents hrep).1

theorem Building.new (hpager : db.pager.WF) (l : ℓ) :
    ∃ t db', Proc.exec (BTree.new : DbM ℓ BTree) l db = (.ok t, l, db') ∧
      Building db (fun _ => none) t db' := by
  obtain ⟨p, db', he, hopened, -, hedits⟩ := BTree.exec_new l hpager
  refine ⟨BTree.open p, db', he, _, hopened, rfl, ?_⟩
  simpa [ptrs_leaf] using hedits

theorem keeps_indexEntry [SerdeJson] {entry : LeafEntry} (hused : db.DocumentUsed entry.value) :
    Proc.Keeps (fun t db' => ∃ M, Building db M t db') (indexEntry fields unique entry) := by
  rintro t db' u t' db'' ⟨M, hJ⟩ he
  have hsame : db'.indexEntryOf fields entry = db.indexEntryOf fields entry := by
    rw [Database.indexEntryOf, Database.indexEntryOf, hJ.untouched.indexedDoc hused]
  cases hentry : db'.indexEntryOf fields entry with
  | none =>
    rw [exec_indexEntry_none unique hentry t] at he
    obtain ⟨rfl, rfl⟩ := by simpa using he
    exact ⟨M, hJ⟩
  | some e =>
    obtain ⟨htaken, hfree⟩ := exec_indexEntry_some unique hJ hentry
    by_cases hk : Taken unique M e.key
    · rw [htaken hk] at he
      simp at he
    · obtain ⟨t₁, db₁, hok, hJ₁⟩ := hfree hk
      rw [hok] at he
      obtain ⟨rfl, rfl⟩ := by simpa using he
      exact ⟨_, hJ₁⟩

-- The build puts in what the scan comes to.
theorem exec_buildScan [SerdeJson] (hdocs : db.Documents name docs)
    (hused : ∀ entry ∈ db.scanned (db.metadata.root name), db.DocumentUsed entry.value) {t : BTree}
    (hJ : Building db (fun _ => none) t db') :
    Proc.exec (if db.metadata.root name ≠ 0 then
        scanNode (indexEntry fields unique) (db'.pager.numPages + 1) (db.metadata.root name)
      else pure ()) t db' =
      Proc.exec (Proc.forEach (indexEntry fields unique) (db.scanned (db.metadata.root name))) t db' := by
  unfold Database.Documents at hdocs
  split at hdocs
  case isTrue hroot =>
    rw [if_neg (by simpa using hroot), hroot]
    rfl
  case isFalse hroot =>
    obtain ⟨rank, T, hrep, rfl⟩ := hdocs
    obtain ⟨_, _, _, hedits⟩ := id hJ
    have hscan := (scan_of_represents hrep).2 (db'.pager.numPages + 1) fun p hp =>
      Nat.lt_succ_of_lt (hedits.alloc p hp).2.1
    rw [if_pos hroot]
    exact exec_scanNode (fun _ _ ⟨_, h⟩ => h.untouched) (fun entry he => keeps_indexEntry (hused entry he))
      hscan ⟨_, hJ⟩

-- A build that admits all entries leaves a tree with them, in pages that were not in use.
theorem exec_buildIndex [SerdeJson] (unique : Bool) (hpager : db.pager.WF) (hdocs : db.Documents name docs)
    (hused : ∀ entry ∈ db.scanned (db.metadata.root name), db.DocumentUsed entry.value) (l : ℓ) :
    let es := db.indexed fields (db.scanned (db.metadata.root name))
    (Admitted unique (fun _ => none) es → ∃ T db',
      Proc.exec (buildIndex (indexEntry fields unique) name) l db = (.ok T.ptr, l, db') ∧
        BTree.Represents db' T ∧ mapOf T.entries = es.foldl putEntry (fun _ => none) ∧
        BTree.Edits db ∅ db' {p | p ∈ T.ptrs}) ∧
    (¬ Admitted unique (fun _ => none) es → ∃ db',
      Proc.exec (buildIndex (indexEntry fields unique) name) l db =
        (.error (duplicateValue fields), l, db')) := by
  obtain ⟨t, db₁, hnew, hJ⟩ := Building.new hpager l
  have hmeta : db₁.metadata = db.metadata := by
    obtain ⟨_, _, _, hedits⟩ := hJ
    rw [hedits.shared]
  have hbuild : Proc.exec (buildIndex (indexEntry fields unique) name) l db =
      Proc.exec (do
        let built ← Proc.within t (Proc.forEach (indexEntry fields unique)
          (db.scanned (db.metadata.root name)))
        pure built.2.getRootPage) l db₁ := by
    have hmetadata : Proc.exec (getMetadata : DbM ℓ Metadata) l db₁ = (.ok db.metadata, l, db₁) := by
      rw [getMetadata, Proc.exec_atomic, hmeta]
    have hbound : Proc.exec (walkBound : DbM ℓ Nat) l db₁ = (.ok (db₁.pager.numPages + 1), l, db₁) := rfl
    unfold buildIndex
    rw [Proc.exec_bind_ok hnew, Proc.exec_bind_ok hmetadata]
    simp only
    rw [Proc.exec_bind_ok hbound]
    refine Proc.exec_bind_congr ?_ fun _ _ _ _ => rfl
    rw [Proc.exec_within, Proc.exec_within, exec_buildScan hdocs hused hJ]
  obtain ⟨hok, herror⟩ := exec_indexEntries fields unique hused hJ
  constructor
  · intro hadmitted
    obtain ⟨t', db', hrun, T, ⟨rfl, hrep⟩, hmap, hedits⟩ := hok hadmitted
    refine ⟨T, db', ?_, hrep, hmap, hedits⟩
    rw [hbuild, Proc.exec_bind, Proc.exec_within, hrun]
    rfl
  · intro hrefused
    obtain ⟨t', db', hrun⟩ := herror hrefused
    refine ⟨db', ?_⟩
    rw [hbuild, Proc.exec_bind, Proc.exec_within, hrun]
    rfl

end Build

namespace Pager

variable {m : PageNum} {p p' p'' : Pager}

-- A change of the pager that readers see in page `m` and in the header only.
structure SameBut (m : PageNum) (p p' : Pager) : Prop where
  wf : p.WF → p'.WF
  alloc : ∀ n, p.Allocated n → p'.Allocated n
  view : ∀ n, n ≠ m → n ≠ 0 → ∀ page, p.view n = some page → p'.view n = some page

theorem SameBut.trans (h : SameBut m p p') (h' : SameBut m p' p'') : SameBut m p p'' where
  wf hp := h'.wf (h.wf hp)
  alloc n hn := h'.alloc n (h.alloc n hn)
  view n hm h0 page hn := h'.view n hm h0 page (h.view n hm h0 page hn)

theorem sameBut_write (db : Database) (h : db.Placed m) {M : Metadata}
    (hfit : M.toJson.byteLen ≤ PAGE_SIZE) :
    SameBut m db.pager (db.pager.writePageTransfer m (.metadata M)).2 := by
  rw [writePageTransfer_eq h.writable m (byteLen_metadata_eq.mpr hfit)]
  refine ⟨fun hp => ⟨hp.writable, hp.nonempty, hp.nodup, hp.range⟩, fun _ hn => hn, ?_⟩
  intro n hm _ page hn
  rw [view_write, Function.update_of_ne hm]
  exact hn

theorem sameBut_flush (m : PageNum) (p : Pager) : SameBut m p p.flush := by
  refine ⟨fun hp => ?_, fun n hn => ?_, fun n _ _ page hn => view_flush hn⟩
  · unfold flush
    split
    · exact hp
    · exact ⟨hp.writable, hp.nonempty, hp.nodup, hp.range⟩
  · unfold flush
    split <;> exact hn

theorem writeHeader_ok (h : p.readOnly = false) : p.writeHeader.1 = .ok () := by
  simp [writeHeader, h]

theorem sameBut_writeHeader (m : PageNum) (p : Pager) : SameBut m p p.writeHeader.2 := by
  unfold writeHeader
  split
  · exact ⟨id, fun _ => id, fun _ _ _ _ => id⟩
  · refine ⟨fun hp => ⟨hp.writable, hp.nonempty, hp.nodup, hp.range⟩, fun _ hn => hn, ?_⟩
    intro n _ h0 page hn
    exact (view_header p (.header p.headerData) h0).trans hn

end Pager

section Kept

variable {db db' : Database} {T T' : PageTree}

-- A tree is in its pages as long as readers see these as they were.
theorem BTree.Represents.kept (h : BTree.Represents db T) (hpager : db'.pager.WF)
    (halloc : ∀ p, db.pager.Allocated p → db'.pager.Allocated p)
    (hview : ∀ p ∈ T.ptrs, ∀ page, db.pager.view p = some page → db'.pager.view p = some page) :
    BTree.Represents db' T := by
  refine { h with holds := ⟨hpager, ⟨?_, h.holds.stores.nodup⟩, ?_⟩ }
  · intro c hc
    have hp : c.1 ∈ T.ptrs := List.mem_map_of_mem (by simpa using hc)
    have hstored := h.holds.stores.stored c hc
    unfold BTree.store Database.nodeAt at hstored ⊢
    cases hv : db.pager.view c.1 with
    | none => simp [hv] at hstored
    | some page => rwa [hview c.1 hp page hv, ← hv]
  · exact fun p hp => halloc p (h.holds.live p hp)

-- A page has the root of one map at most.
theorem BTree.Represents.unique (h : BTree.Represents db T) (h' : BTree.Represents db T')
    (hroot : T.ptr = T'.ptr) : mapOf T.entries = mapOf T'.entries := by
  funext key
  have hsearch := BTree.exec_search h key
  rw [hroot, BTree.exec_search h' key] at hsearch
  have hanswer := (congrArg Prod.fst hsearch).symm
  cases hM : mapOf T.entries key <;> cases hM' : mapOf T'.entries key <;> simp_all

end Kept

section Create

variable {ℓ : Type} {l : ℓ} {isAlphabetic isAlphanumeric : Char → Bool} {name index : String}
  {fields : List String} {unique : Bool} {m : PageNum} {db₀ db : Database} {docs : List LeafEntry}

-- The index in the metadata is a tree with these entries.
def Database.IndexHolds (db : Database) (name index : String) (entries : List LeafEntry) : Prop :=
  ∃ coll : CollectionMeta, db.metadata.collections.get? name = some coll ∧
    ∃ info, coll.indexes.get? index = some info ∧
      ∃ T : PageTree, T.ptr = info.btreeRoot ∧ BTree.Represents db T ∧ T.entries.Perm entries

-- A call that comes to build the index: its arguments pass the checks, the checkpoint leaves `db`,
-- the pages that the documents are in are in use, the documents of the collection are read back, and
-- the metadata will fit their page.
structure Buildable [SerdeJson] (isAlphabetic isAlphanumeric : Char → Bool) (name index : String)
    (fields : List String) (unique : Bool) (m : PageNum) (l : ℓ) (db₀ db : Database)
    (docs : List LeafEntry) : Prop where
  valid : validateCollectionName isAlphabetic isAlphanumeric name = .ok ()
  nonempty : fields ≠ []
  writer : db₀.readOnly = false
  checkpoint : Proc.exec checkpointWal l db₀ = (.ok (), l, db)
  absent : hasIndex db.metadata name index = false
  placed : db.Placed m
  pager : db.pager.WF
  documents : db.Documents name docs
  used : ∀ entry ∈ db.scanned (db.metadata.root name), db.DocumentUsed entry.value
  readsBack : ∀ entry ∈ docs, db.ReadsBack entry.value
  fits : ∀ root db', Proc.exec (buildIndex (indexEntry fields unique) name) l db = (.ok root, l, db') →
    (withIndex name index fields unique root db.metadata).toJson.byteLen ≤ PAGE_SIZE

theorem Database.Placed.edits {db' : Database} {S : Set PageNum} (h : db.Placed m)
    (hedits : BTree.Edits db ∅ db' S) : db'.Placed m := by
  obtain ⟨-, hpage, -, hreadOnly⟩ := hedits.frame
  have hused := hedits.alloc m ⟨Nat.pos_iff_ne_zero.mp h.pos, h.inside, h.used⟩
  have hwriter : db'.readOnly = db.readOnly := by rw [hedits.shared]
  exact ⟨hpage.trans h.page, h.pos, hused.2.1, hused.2.2, hreadOnly.trans h.writable,
    hwriter.trans h.writer⟩

-- What follows the build changes no page but those of the metadata and of the header.
theorem exec_storeIndex (h : db.Placed m) (hpager : db.pager.WF) {f : Metadata → Metadata}
    (hfit : (f db.metadata).toJson.byteLen ≤ PAGE_SIZE) (l : ℓ) :
    ∃ db', Proc.exec (do changeMetadata f; writeHeader) l db = (.ok (), l, db') ∧
      db'.metadata = f db.metadata ∧ Pager.SameBut m db.pager db'.pager := by
  have hsame := ((Pager.sameBut_write db h hfit).trans (Pager.sameBut_flush m _)).trans
    (Pager.sameBut_flush m _)
  refine ⟨{ db with
    metadata := f db.metadata
    pager := (db.pager.writePageTransfer m (.metadata (f db.metadata))).2.flush.flush.writeHeader.2 }, ?_,
    rfl, hsame.trans (Pager.sameBut_writeHeader m _)⟩
  rw [Proc.exec_bind_ok (exec_changeMetadata_eq h hfit), writeHeader, Proc.exec_atomicE,
    Pager.writeHeader_ok (hsame.wf hpager).writable]

theorem get?_withIndex (name index : String) (fields : List String) (unique : Bool) (root : PageNum)
    (M : Metadata) : ∃ coll, (withIndex name index fields unique root M).collections.get? name = some coll ∧
      coll.indexes.get? index = some ⟨index, none, fields, root, unique⟩ :=
  ⟨_, HashMap.get?_insert_self _ _ _, HashMap.get?_insert_self _ _ _⟩

-- The call puts what the scan comes to into the index, unless an entry is refused.
theorem createCompoundIndex_result [SerdeJson]
    (h : Buildable isAlphabetic isAlphanumeric name index fields unique m l db₀ db docs) :
    let es := db.indexed fields (db.scanned (db.metadata.root name))
    (Admitted unique (fun _ => none) es → ∃ coll info T db',
      Proc.exec (createCompoundIndex isAlphabetic isAlphanumeric name index fields unique) l db₀ =
        (.ok (), l, db') ∧ db'.metadata.collections.get? name = some coll ∧
      coll.indexes.get? index = some info ∧ T.ptr = info.btreeRoot ∧ BTree.Represents db' T ∧
      mapOf T.entries = es.foldl putEntry (fun _ => none)) ∧
    (¬ Admitted unique (fun _ => none) es → ∃ db',
      Proc.exec (createCompoundIndex isAlphabetic isAlphanumeric name index fields unique) l db₀ =
        (.error (duplicateValue fields), l, db')) := by
  obtain ⟨hok, herror⟩ := exec_buildIndex unique h.pager h.documents h.used l
  have hcall : Proc.exec (createCompoundIndex isAlphabetic isAlphanumeric name index fields unique) l db₀ =
      Proc.exec (do
        let root ← buildIndex (indexEntry fields unique) name
        changeMetadata (withIndex name index fields unique root)
        writeHeader) l db := by
    have hvalid : Proc.exec (Proc.ofExcept (validateCollectionName isAlphabetic isAlphanumeric name) : DbM ℓ Unit)
        l db₀ = (.ok (), l, db₀) := by
      rw [h.valid]
      rfl
    have hwriter : Proc.exec (isReadOnly : DbM ℓ Bool) l db₀ = (.ok false, l, db₀) := by
      rw [isReadOnly, Proc.exec_atomic, h.writer]
    have hmetadata : Proc.exec (getMetadata : DbM ℓ Metadata) l db = (.ok db.metadata, l, db) := rfl
    unfold createCompoundIndex
    rw [Proc.exec_bind_ok hvalid, if_neg (by simpa using h.nonempty), Proc.exec_bind_ok hwriter,
      if_neg (by simp), Proc.exec_bind_ok h.checkpoint, Proc.exec_bind_ok hmetadata,
      if_neg (by simp [h.absent])]
  constructor
  · intro hadmitted
    obtain ⟨T, db₁, hbuild, hrep, hmap, hedits⟩ := hok hadmitted
    have hmeta : db₁.metadata = db.metadata := by rw [hedits.shared]
    obtain ⟨db', hstore, hmetadata, hsame⟩ := exec_storeIndex (h.placed.edits hedits) hrep.holds.pager
      (f := withIndex name index fields unique T.ptr) (by rw [hmeta]; exact h.fits _ _ hbuild) l
    obtain ⟨coll, hcoll, hindex⟩ := get?_withIndex name index fields unique T.ptr db₁.metadata
    refine ⟨coll, _, T, db', ?_, by rw [hmetadata, hcoll], hindex, rfl, ?_, hmap⟩
    · rw [hcall, Proc.exec_bind_ok hbuild]
      exact hstore
    · refine hrep.kept (hsame.wf hrep.holds.pager) hsame.alloc fun p hp page hpage => ?_
      have hplaced := h.placed
      have hused : db.pager.Allocated m := ⟨Nat.pos_iff_ne_zero.mp hplaced.pos, hplaced.inside, hplaced.used⟩
      refine hsame.view p ?_ (hrep.holds.live p (by simpa using hp)).1 page hpage
      rintro rfl
      exact (hedits.grown p hp).elim (Set.notMem_empty p) fun hunused => hunused hused
  · intro hrefused
    obtain ⟨db', hbuild⟩ := herror hrefused
    exact ⟨db', by rw [hcall, Proc.exec_bind_error hbuild]⟩

end Create

section Residents

attribute [local instance] SerdeJson.exact

def resident (id city : String) : Page := .doc ⟨1, 0, id, .obj [("_id", .str id), ("city", .str city)], 0⟩

-- Two documents with one value, in one leaf.
def oneTown : Database :=
  .ofPages [(3, .node { BTreeNode.newLeaf 3 with entries := [⟨"x", 4⟩, ⟨"y", 5⟩], numKeys := 2 }),
    (4, resident "x" "NYC"), (5, resident "y" "NYC")] 6 [("people", 3)] 2

-- Two documents with different values, in two leaves.
def townTree : PageTree := .node 3 ["y"] [.leaf 4 [⟨"x", 6⟩] 5, .leaf 5 [⟨"y", 7⟩] 0]

def twoTowns : Database :=
  .ofPages [(3, .node { BTreeNode.newInternal 3 with keys := ["y"], children := [4, 5], numKeys := 1 }),
    (4, .node { BTreeNode.newLeaf 4 with entries := [⟨"x", 6⟩], numKeys := 1, nextLeaf := 5 }),
    (5, .node { BTreeNode.newLeaf 5 with entries := [⟨"y", 7⟩], numKeys := 1 }),
    (6, resident "x" "NYC"), (7, resident "y" "LA")] 8 [("people", 3)] 2

-- What the checkpoint leaves of it.
def twoTownsChecked : Database := { twoTowns with wal := { twoTowns.wal with calls := 2 } }

-- The call on the field of the residents.
def indexCity (unique : Bool) : DbM Unit Unit :=
  createCompoundIndex Char.isAlpha Char.isAlphanum "people" "city" ["city"] unique

set_option maxRecDepth 100000 in
theorem indexCity_oneTown : (Proc.exec (indexCity true) () oneTown).1 = .ok () := by
  unfold indexCity createCompoundIndex buildIndex indexEntry Json.extractFieldValues
  rw [TxCollection.extractFieldValue_eq]
  decide +kernel

set_option maxRecDepth 100000 in
theorem indexCity_twoTowns : (Proc.exec (indexCity true) () twoTowns).1 = .error (duplicateValue ["city"]) := by
  unfold indexCity createCompoundIndex buildIndex indexEntry Json.extractFieldValues
  rw [TxCollection.extractFieldValue_eq]
  decide +kernel

theorem documentUsed_of_doc {db : Database} {p : PageNum} {d : DocPage} (hp : db.pager.Allocated p)
    (hview : db.pager.view p = some (.doc d)) (hd : d.overflow = 0) : db.DocumentUsed p := by
  intro q hq
  rcases hq.cases_head with rfl | ⟨r, ⟨page, hpage, hr⟩, _⟩
  · exact hp
  · obtain rfl := Option.some.inj (hview.symm.trans hpage)
    simp [Page.links, hd] at hr

theorem documents_twoTowns : twoTownsChecked.Documents "people" townTree.entries := by
  have hroot : twoTownsChecked.metadata.root "people" = townTree.ptr := by decide
  have hstored : ∀ c ∈ townTree.cells, (TxBTree.new townTree.ptr ∅).store twoTownsChecked c.1 = some c.2 := by
    intro c hc
    have hcases : c = (3, .node ["y"] [4, 5]) ∨ c = (4, .leaf [⟨"x", 6⟩] 5) ∨ c = (5, .leaf [⟨"y", 7⟩] 0) := by
      simpa [townTree, cells, cellsAll, ptr] using hc
    rcases hcases with rfl | rfl | rfl <;> rfl
  unfold Database.Documents
  rw [hroot, if_neg (by decide)]
  exact ⟨_, townTree, represents_of_tree (Database.ofPages_wf (by decide)) (by simp [Coherent, HashMap.get?_empty])
    hstored (by decide +kernel) (by decide +kernel) (by decide +kernel), rfl⟩

set_option maxRecDepth 100000 in
theorem buildIndex_twoTowns :
    (Proc.exec (buildIndex (indexEntry ["city"] false) "people" : DbM Unit PageNum) () twoTownsChecked).1 =
      .ok 8 := by
  unfold buildIndex indexEntry Json.extractFieldValues
  rw [TxCollection.extractFieldValue_eq]
  decide +kernel

theorem buildable_twoTowns : Buildable Char.isAlpha Char.isAlphanum "people" "city" ["city"] false 1 () twoTowns
    twoTownsChecked townTree.entries where
  valid := by decide +kernel
  nonempty := by simp
  writer := rfl
  checkpoint := rfl
  absent := by decide
  placed := ⟨rfl, by decide, by decide, by decide, rfl, rfl⟩
  pager := Database.ofPages_wf (by decide)
  documents := documents_twoTowns
  used := by
    have hscanned : twoTownsChecked.scanned (twoTownsChecked.metadata.root "people") =
        [⟨"x", 6⟩, ⟨"y", 7⟩, ⟨"y", 7⟩] := by decide +kernel
    rw [hscanned]
    intro entry hentry
    have hcases : entry = ⟨"x", 6⟩ ∨ entry = ⟨"y", 7⟩ := by simpa using hentry
    rcases hcases with rfl | rfl
    · exact documentUsed_of_doc (by decide) (Database.view_ofPages (by decide)) rfl
    · exact documentUsed_of_doc (by decide) (Database.view_ofPages (by decide)) rfl
  readsBack := by
    intro entry hentry
    have hcases : entry ∈ [⟨"x", 6⟩, ⟨"y", 7⟩] := hentry
    rw [List.mem_pair] at hcases
    rcases hcases with rfl | rfl
    · exact ⟨⟨"x", _, 1, 0⟩, [("_id", .str "x"), ("city", .str "NYC")], by decide +kernel, rfl, rfl⟩
    · exact ⟨⟨"y", _, 1, 0⟩, [("_id", .str "y"), ("city", .str "LA")], by decide +kernel, rfl, rfl⟩
  fits := by
    intro root db' he
    have hroot := buildIndex_twoTowns
    rw [he] at hroot
    obtain rfl := Except.ok.inj hroot
    decide +kernel

end Residents

end JasonDb
