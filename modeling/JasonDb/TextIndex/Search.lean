import JasonDb.Database.IndexBuild
import JasonDb.DocumentStore.Scans
import Mathlib.Data.Set.Basic

namespace JasonDb

open Lib SearchTree TxBTree

namespace TextIndex

section Folds

variable {α β : Type}

theorem foldl_union (X : α → Set β) (items : List α) (R : Set β) :
    items.foldl (fun R a => R ∪ X a) R = R ∪ {x | ∃ a ∈ items, x ∈ X a} := by
  induction items generalizing R with
  | nil => simp
  | cons a rest ih =>
    rw [List.foldl_cons, ih]
    ext x
    simp [or_assoc]

theorem foldl_diff (X : α → Set β) (items : List α) (R : Set β) :
    items.foldl (fun R a => R \ X a) R = R \ {x | ∃ a ∈ items, x ∈ X a} := by
  induction items generalizing R with
  | nil => simp
  | cons a rest ih =>
    rw [List.foldl_cons, ih]
    ext x
    simp [and_assoc]

end Folds

-- What an index says: under which keys a document is to be found.
abbrev Entries := Set (String × String)

def tooLarge : Error := .other "text index data too large for page"

variable (tools : TextTools)

-- What a text in one field of a document is found by.
def fieldEntries (docId : String) (values : HashMap String String) (field : String) : Entries :=
  {x | x.2 = docId ∧ ∃ text, values.get? field = some text ∧ ∃ term ∈ tokenize tools text, x.1 = s!"{term}:{field}"}

def documentEntries (fields : List String) (docId : String) (values : HashMap String String) : Entries :=
  {x | ∃ field ∈ fields, x ∈ fieldEntries tools docId values field}

-- The tree has a page with the postings of each key, which is not written again.
structure Posted (T : PageTree) (R : Entries) (postings : String → Postings) (db : Database) : Prop where
  absent : ∀ key, mapOf T.entries key = none → postings key = ∅
  page : ∀ key p, mapOf T.entries key = some p → db.pager.Allocated p ∧ p ∉ T.ptrs ∧
    db.pager.view p = some (.postings (postings key))
  entries : ∀ key docId, docId ∈ postings key ↔ (key, docId) ∈ R

-- The handle has such a tree, in pages that `db₀` did not use.
def Holds (db₀ : Database) (R : Entries) (t : BTree) (db : Database) : Prop :=
  ∃ T postings, BTree.Opened t db T ∧ Posted T R postings db ∧ BTree.Edits db₀ ∅ db {p | p ∈ T.ptrs}

-- Postings of documents of `bound` that are too large.
def Oversized (bound : Entries) : Prop :=
  ∃ key postings, (∀ docId ∈ postings, (key, docId) ∈ bound) ∧ PAGE_SIZE < (renderPostings tools postings).utf8ByteSize

variable {tools} {db₀ db : Database} {R : Entries} {t : BTree} {T : PageTree} {postings : String → Postings}

theorem exec_catching_search (hopened : BTree.Opened t db T) (key : String) :
    Proc.exec (catching (BTree.search key)) t db = (.ok (BTree.found (mapOf T.entries) key), t, db) := by
  obtain ⟨rfl, hrep⟩ := hopened
  refine exec_catching (BTree.exec_search hrep key) fun e he => ?_
  cases hM : mapOf T.entries key with
  | some value => simp [BTree.found, hM] at he
  | none =>
    obtain rfl : Error.notFound = e := by simpa [BTree.found, hM] using he
    simp [Error.Caught]

theorem Posted.exec_findPostings (h : Posted T R postings db) (hopened : BTree.Opened t db T) (key : String) :
    Proc.exec (findPostings key) t db = (.ok (postings key), t, db) := by
  unfold findPostings
  rw [Proc.exec_bind_ok (exec_catching_search hopened key), BTree.found]
  cases hM : mapOf T.entries key with
  | none =>
    rw [h.absent key hM]
    rfl
  | some p =>
    have hread : Proc.exec (readPage p) t db = (.ok (.postings (postings key)), t, db) :=
      exec_readPage (h.page key p hM).2.2 t
    simp only
    rw [Proc.exec_bind_ok hread]
    rfl

section Edits

variable {db' : Database} {S S' : Set PageNum} {T' : PageTree}

theorem Edits.outside (h : BTree.Edits db S db' S') {p : PageNum} (hp : db.pager.Allocated p) (hS : p ∉ S) :
    db'.pager.Allocated p ∧ p ∉ S' ∧ db'.pager.view p = db.pager.view p :=
  ⟨h.alloc p hp, fun hS' => (h.grown p hS').elim hS fun hn => hn hp, h.view p hS hp⟩

-- Pages of postings are not those of the tree.
theorem Posted.edit (h : Posted T R postings db)
    (hedits : BTree.Edits db {p | p ∈ T.ptrs} db' {p | p ∈ T'.ptrs})
    {key : String} {new : Postings} {R' : Entries}
    (hold : ∀ key', key' ≠ key → mapOf T'.entries key' = mapOf T.entries key')
    (habsent : mapOf T'.entries key = none → new = ∅)
    (hpage : ∀ p, mapOf T'.entries key = some p → db'.pager.Allocated p ∧ p ∉ T'.ptrs ∧
      db'.pager.view p = some (.postings new))
    (hR : ∀ key' docId, docId ∈ Function.update postings key new key' ↔ (key', docId) ∈ R') :
    Posted T' R' (Function.update postings key new) db' := by
  refine ⟨fun key' hnone => ?_, fun key' p hp => ?_, hR⟩
  · by_cases hkey : key' = key
    · subst hkey
      rw [Function.update_self]
      exact habsent hnone
    · rw [Function.update_of_ne hkey]
      exact h.absent key' ((hold key' hkey).symm.trans hnone)
  · by_cases hkey : key' = key
    · subst hkey
      rw [Function.update_self]
      exact hpage p hp
    · rw [Function.update_of_ne hkey]
      obtain ⟨hused, hout, hview⟩ := h.page key' p ((hold key' hkey).symm.trans hp)
      obtain ⟨hused', hout', hview'⟩ := Edits.outside hedits hused hout
      exact ⟨hused', hout', hview'.trans hview⟩

theorem Posted.keep (h : Posted T R postings db)
    (hedits : BTree.Edits db {p | p ∈ T.ptrs} db' {p | p ∈ T.ptrs}) : Posted T R postings db' := by
  refine ⟨h.absent, fun key p hp => ?_, h.entries⟩
  obtain ⟨hused, hout, hview⟩ := h.page key p hp
  obtain ⟨hused', hout', hview'⟩ := Edits.outside hedits hused hout
  exact ⟨hused', hout', hview'.trans hview⟩

theorem exec_writePostings (hwf : db.pager.WF) {q : PageNum} (new : Postings) (t : BTree) :
    ∃ db', Proc.exec (writePageTransfer q (.postings new)) t db = (.ok (), t, db') ∧ db'.pager.WF ∧
      BTree.Edits db {q} db' {q} ∧ db'.pager.view q = some (.postings new) := by
  have hwrite : db.pager.writePageTransfer q (.postings new) = _ :=
    Pager.writePageTransfer_eq hwf.writable q rfl
  have hview := Pager.view_write db.pager q (.postings new) (db.pager.dirty.insert q ())
  refine ⟨{ db with pager := { db.pager with
      cache := Function.update db.pager.cache q (some (.postings new))
      dirty := db.pager.dirty.insert q () } }, ?_, ⟨hwf.writable, hwf.nonempty, hwf.nodup, hwf.range⟩,
    ⟨fun _ => Or.inl, fun _ hp => hp, fun p hp _ => ?_, rfl, rfl, rfl, rfl, rfl⟩, ?_⟩
  · simp only [writePageTransfer, Proc.exec_atomicE, hwrite]
  · rw [hview, Function.update_of_ne hp]
  · rw [hview, Function.update_self]

end Edits

-- Postings are written to a page of their own, which is put under the key.
theorem Posted.exec_put (h : Posted T R postings db) (hopened : BTree.Opened t db T) (tools : TextTools)
    (key : String) (new : Postings) {R' : Entries}
    (hR : ∀ key' docId, docId ∈ Function.update postings key new key' ↔ (key', docId) ∈ R') :
    ((renderPostings tools new).utf8ByteSize ≤ PAGE_SIZE → ∃ T' t' db',
      Proc.exec (do let p ← writeData tools new; BTree.insert key p) t db = (.ok (), t', db') ∧
        BTree.Opened t' db' T' ∧ Posted T' R' (Function.update postings key new) db' ∧
        BTree.Edits db {p | p ∈ T.ptrs} db' {p | p ∈ T'.ptrs}) ∧
    (PAGE_SIZE < (renderPostings tools new).utf8ByteSize → ∃ db',
      Proc.exec (do let p ← writeData tools new; BTree.insert key p) t db = (.error tooLarge, t, db') ∧
        BTree.Opened t db' T ∧ Posted T R postings db' ∧ BTree.Edits db {p | p ∈ T.ptrs} db' {p | p ∈ T.ptrs}) := by
  obtain ⟨rfl, hrep⟩ := hopened
  obtain ⟨q, db₁, halloc, hunused, hholds₁, hfresh, hused, hedits₁⟩ :=
    hrep.holds.exec_alloc (BTree.open T.ptr) {p | p ∈ T.ptrs}
  have hrep₁ : BTree.Represents db₁ T := { hrep with holds := hholds₁ }
  have hq : q ∉ T.ptrs := by simpa using hfresh
  constructor
  · intro hfit
    obtain ⟨db₂, hwrite, hwf₂, hedits₂, hview⟩ := exec_writePostings hholds₁.pager (q := q) new (BTree.open T.ptr)
    have hrep₂ : BTree.Represents db₂ T := by
      refine hrep₁.kept hwf₂ hedits₂.alloc fun p hp page hpage => ?_
      have hne : p ∉ ({q} : Set PageNum) := by
        rintro rfl
        exact hq hp
      exact (hedits₂.view p hne (hrep₁.holds.live p (by simpa using hp))).trans hpage
    have hopened₂ : BTree.Opened (BTree.open T.ptr) db₂ T := ⟨rfl, hrep₂⟩
    obtain ⟨T', hopened', hmap, hedits₃⟩ := hopened₂.step (.insert key q)
    have hdata : Proc.exec (writeData tools new) (BTree.open T.ptr) db = (.ok q, BTree.open T.ptr, db₂) := by
      unfold writeData
      rw [Proc.exec_bind_ok halloc, if_neg (Nat.not_lt.mpr hfit), Proc.exec_bind_ok hwrite]
      rfl
    have hwritten : BTree.Edits db₁ ({p | p ∈ T.ptrs} ∪ {q}) db₂ {p | p ∈ T.ptrs} :=
      ⟨fun p hp => Or.inl (Or.inl hp), hedits₂.alloc, fun p hp => hedits₂.view p fun hmem => hp (Or.inr hmem),
        hedits₂.shared, hedits₂.frame⟩
    have hedits : BTree.Edits db {p | p ∈ T.ptrs} _ {p | p ∈ T'.ptrs} :=
      (hedits₁.trans hwritten).trans hedits₃
    refine ⟨T', _, _, ?_, hopened', h.edit hedits (fun key' hkey => ?_) ?_ ?_ hR, hedits⟩
    · rw [Proc.exec_bind_ok hdata]
      exact Prod.ext (hopened₂.insert_ok key q) rfl
    · rw [hmap]
      exact Function.update_of_ne hkey _ _
    · intro hnone
      rw [hmap, BTree.Op.apply, Function.update_self] at hnone
      cases hnone
    · intro p hp
      rw [hmap, BTree.Op.apply, Function.update_self] at hp
      obtain rfl := Option.some.inj hp
      obtain ⟨hused', hout', hview'⟩ := Edits.outside hedits₃ (hedits₂.alloc q hused) hq
      exact ⟨hused', hout', hview'.trans hview⟩
  · intro hlarge
    have hedits : BTree.Edits db {p | p ∈ T.ptrs} db₁ {p | p ∈ T.ptrs} := hedits₁.mono fun p hp => Or.inl hp
    refine ⟨db₁, ?_, ⟨rfl, hrep₁⟩, h.keep hedits, hedits⟩
    have hdata : Proc.exec (writeData tools new) (BTree.open T.ptr) db =
        (.error tooLarge, BTree.open T.ptr, db₁) := by
      unfold writeData
      rw [Proc.exec_bind_ok halloc, if_pos hlarge]
      rfl
    exact Proc.exec_bind_error hdata

-- A call that changes the entries as `f` does, within a bound, or finds that postings are too large.
def Follows (tools : TextTools) (db₀ : Database) (bound : Entries) (m : BTree.TreeM Unit)
    (f : Entries → Entries) : Prop :=
  ∀ R t db, R ⊆ bound → Holds db₀ R t db → ∃ t' db',
    (Proc.exec m t db = (.ok (), t', db') ∧ f R ⊆ bound ∧ Holds db₀ (f R) t' db') ∨
      (Proc.exec m t db = (.error tooLarge, t', db') ∧ Oversized tools bound ∧ ∃ R', Holds db₀ R' t' db')

section Follows

variable {bound : Entries}

theorem follows_pure : Follows tools db₀ bound (pure ()) id := fun _ t db hbound h => ⟨t, db, .inl ⟨rfl, hbound, h⟩⟩

theorem follows_forEach (tools : TextTools) (db₀ : Database) (bound : Entries) {α : Type}
    {m : α → BTree.TreeM Unit} {f : α → Entries → Entries} (items : List α)
    (h : ∀ a ∈ items, Follows tools db₀ bound (m a) (f a)) :
    Follows tools db₀ bound (Proc.forEach m items) fun R => items.foldl (fun R a => f a R) R := by
  induction items with
  | nil => exact follows_pure
  | cons a rest ih =>
    intro R t db hbound hR
    obtain ⟨t₁, db₁, ⟨he, hbound₁, h₁⟩ | ⟨he, hlarge, h₁⟩⟩ := h a (by simp) R t db hbound hR
    · obtain ⟨t', db', ⟨he', h'⟩ | ⟨he', h'⟩⟩ :=
        ih (fun b hb => h b (List.mem_cons_of_mem _ hb)) _ t₁ db₁ hbound₁ h₁
      · exact ⟨t', db', .inl ⟨(Proc.exec_bind_ok he).trans he', h'⟩⟩
      · exact ⟨t', db', .inr ⟨(Proc.exec_bind_ok he).trans he', h'⟩⟩
    · exact ⟨t₁, db₁, .inr ⟨Proc.exec_bind_error he, hlarge, h₁⟩⟩

-- Postings under a key, in place of those that were there.
theorem holds_put (hopened : BTree.Opened t db T) (h : Posted T R postings db)
    (hedits : BTree.Edits db₀ ∅ db {p | p ∈ T.ptrs}) (tools : TextTools) (key : String) (new : Postings)
    {R' : Entries} (hR : ∀ key' docId, docId ∈ Function.update postings key new key' ↔ (key', docId) ∈ R')
    (hbound : R' ⊆ bound) :
    ∃ t' db', (Proc.exec (do let p ← writeData tools new; BTree.insert key p) t db = (.ok (), t', db') ∧
        R' ⊆ bound ∧ Holds db₀ R' t' db') ∨
      (Proc.exec (do let p ← writeData tools new; BTree.insert key p) t db = (.error tooLarge, t', db') ∧
        Oversized tools bound ∧ ∃ R', Holds db₀ R' t' db') := by
  obtain ⟨hok, herror⟩ := h.exec_put hopened tools key new hR
  rcases Nat.lt_or_ge PAGE_SIZE (renderPostings tools new).utf8ByteSize with hlarge | hfit
  · obtain ⟨db', he, hopened', h', hedits'⟩ := herror hlarge
    have hnew : ∀ docId ∈ new, (key, docId) ∈ bound := by
      intro docId hmem
      refine hbound ((hR key docId).mp ?_)
      rwa [Function.update_self]
    exact ⟨t, db', .inr ⟨he, ⟨key, new, hnew, hlarge⟩, R, T, postings, hopened', h', hedits.trans hedits'⟩⟩
  · obtain ⟨T', t', db', he, hopened', h', hedits'⟩ := hok hfit
    exact ⟨t', db', .inl ⟨he, hbound, T', _, hopened', h', hedits.trans hedits'⟩⟩

theorem follows_indexTerm (tools : TextTools) {docId field : String} {entry : String × (Nat × Nat)}
    (hmem : (s!"{entry.1}:{field}", docId) ∈ bound) :
    Follows tools db₀ bound (indexTerm tools docId field entry) fun R => R ∪ {(s!"{entry.1}:{field}", docId)} := by
  rintro R t db hbound ⟨T, postings, hopened, h, hedits⟩
  unfold indexTerm
  simp only
  rw [Proc.exec_bind_ok (h.exec_findPostings hopened _)]
  refine holds_put hopened h hedits tools _ _ (fun key' docId' => ?_)
    (Set.union_subset hbound (Set.singleton_subset_iff.mpr hmem))
  by_cases hkey : key' = s!"{entry.1}:{field}"
  · subst hkey
    rw [Function.update_self, HashMap.mem_insert, h.entries]
    simp
  · rw [Function.update_of_ne hkey, h.entries]
    simp [hkey]

theorem follows_removeTerm (tools : TextTools) (docId field term : String) :
    Follows tools db₀ bound (removeTerm tools docId field term) fun R => R \ {(s!"{term}:{field}", docId)} := by
  rintro R t db hbound ⟨T, postings, hopened, h, hedits⟩
  have hbound' : R \ {(s!"{term}:{field}", docId)} ⊆ bound := Set.sdiff_subset.trans hbound
  have hR : ∀ key' docId', docId' ∈ Function.update postings s!"{term}:{field}"
      ((postings s!"{term}:{field}").erase docId) key' ↔ (key', docId') ∈ R \ {(s!"{term}:{field}", docId)} := by
    intro key' docId'
    by_cases hkey : key' = s!"{term}:{field}"
    · subst hkey
      rw [Function.update_self, HashMap.mem_erase, h.entries, and_comm]
      simp
    · rw [Function.update_of_ne hkey, h.entries]
      simp [hkey]
  unfold removeTerm
  simp only
  rw [Proc.exec_bind_ok (exec_catching_search hopened _), BTree.found]
  cases hM : mapOf T.entries s!"{term}:{field}" with
  | none =>
    -- there is nothing to take out
    have hsame : R \ {(s!"{term}:{field}", docId)} = R := by
      refine Set.sdiff_singleton_eq_self fun hmem => ?_
      have hin := (h.entries _ _).mpr hmem
      rw [h.absent _ hM] at hin
      exact HashMap.not_mem_empty _ hin
    refine ⟨t, db, .inl ⟨rfl, hbound', ?_⟩⟩
    simp only [hsame]
    exact ⟨T, postings, hopened, h, hedits⟩
  | some p =>
    have hread : Proc.exec (readPage p) t db = (.ok (.postings (postings s!"{term}:{field}")), t, db) :=
      exec_readPage (h.page _ p hM).2.2 t
    simp only
    rw [Proc.exec_bind_ok hread]
    simp only [readPostings]
    by_cases hempty : ((postings s!"{term}:{field}").erase docId).isEmpty
    · simp only [hempty, if_true]
      obtain ⟨T', hopened', hmap, hedits'⟩ := hopened.step (.delete s!"{term}:{field}")
      have hnone : mapOf T'.entries s!"{term}:{field}" = none := by
        rw [hmap, BTree.Op.apply, Function.update_self]
      have hposted := h.edit hedits' (fun key' hkey => by rw [hmap]; exact Function.update_of_ne hkey _ _)
        (fun _ => HashMap.eq_empty_of_isEmpty hempty) (fun p hp => by rw [hnone] at hp; cases hp) hR
      refine ⟨_, _, .inl ⟨Prod.ext ?_ rfl, hbound', T', _, hopened', hposted, hedits.trans hedits'⟩⟩
      exact (hopened.delete_result _).1 (by rw [hM]; rfl)
    · simp only [hempty, Bool.false_eq_true, if_false]
      exact holds_put hopened h hedits tools _ _ hR hbound'

theorem mem_calculateTermFrequency (tokens : List String) (term : String) :
    (∃ entry ∈ (calculateTermFrequency tokens).toList, entry.1 = term) ↔ term ∈ tokens := by
  have hcounts : ∀ (rest : List String) (counts : HashMap String (Nat × Nat)),
      term ∈ rest.foldl (fun counts token =>
        counts.insert token (((counts.get? token).map Prod.fst).getD 0 + 1, tokens.length)) counts ↔
      term ∈ counts ∨ term ∈ rest := by
    intro rest
    induction rest with
    | nil => simp
    | cons token rest ih =>
      intro counts
      rw [List.foldl_cons, ih, HashMap.mem_insert, List.mem_cons]
      tauto
  have hmem : term ∈ calculateTermFrequency tokens ↔ term ∈ tokens := by
    refine (hcounts tokens ∅).trans (or_iff_right (HashMap.not_mem_empty term))
  rw [← hmem, ← HashMap.mem_keys, ← HashMap.map_fst_toList, List.mem_map]

theorem follows_indexField (tools : TextTools) {docId : String} {values : HashMap String String}
    {field : String}
    (hmem : fieldEntries tools docId values field ⊆ bound) :
    Follows tools db₀ bound (indexField tools docId values field) fun R =>
      R ∪ fieldEntries tools docId values field := by
  unfold indexField
  cases hvalue : values.get? field with
  | none =>
    have hnothing : fieldEntries tools docId values field = ∅ := by
      ext x
      simp [fieldEntries, hvalue]
    simp only [hnothing, Set.union_empty]
    exact follows_pure
  | some text =>
    have hentries : fieldEntries tools docId values field = {x | ∃ entry ∈
        (calculateTermFrequency (tokenize tools text)).toList, x ∈ ({(s!"{entry.1}:{field}", docId)} : Entries)} := by
      ext x
      constructor
      · rintro ⟨hid, text', htext, term, hterm, hkey⟩
        obtain rfl := Option.some.inj (hvalue.symm.trans htext)
        obtain ⟨entry, hentry, rfl⟩ := (mem_calculateTermFrequency _ term).mpr hterm
        exact ⟨entry, hentry, Prod.ext hkey hid⟩
      · rintro ⟨entry, hentry, rfl⟩
        exact ⟨rfl, text, hvalue, entry.1, (mem_calculateTermFrequency _ _).mp ⟨entry, hentry, rfl⟩, rfl⟩
    have hterms := follows_forEach tools db₀ bound (calculateTermFrequency (tokenize tools text)).toList
      fun entry hentry => follows_indexTerm tools (hmem (hentries.superset ⟨entry, hentry, rfl⟩))
    simpa only [foldl_union, hentries] using hterms

theorem follows_removeField (tools : TextTools) (docId : String) (values : HashMap String String)
    (field : String) :
    Follows tools db₀ bound (removeField tools docId values field) fun R =>
      R \ fieldEntries tools docId values field := by
  unfold removeField
  cases hvalue : values.get? field with
  | none =>
    have hnothing : fieldEntries tools docId values field = ∅ := by
      ext x
      simp [fieldEntries, hvalue]
    simp only [hnothing, Set.sdiff_empty]
    exact follows_pure
  | some text =>
    have hterms := follows_forEach tools db₀ bound (tokenize tools text).dedup fun term _ =>
      follows_removeTerm tools docId field term
    have hentries : fieldEntries tools docId values field = {x | ∃ term ∈ (tokenize tools text).dedup,
        x ∈ ({(s!"{term}:{field}", docId)} : Entries)} := by
      ext x
      constructor
      · rintro ⟨hid, text', htext, term, hterm, hkey⟩
        obtain rfl := Option.some.inj (hvalue.symm.trans htext)
        exact ⟨term, List.mem_dedup.mpr hterm, Prod.ext hkey hid⟩
      · rintro ⟨term, hterm, rfl⟩
        exact ⟨rfl, text, hvalue, term, List.mem_dedup.mp hterm, rfl⟩
    simpa only [foldl_diff, hentries] using hterms

theorem Holds.untouched (h : Holds db₀ R t db) : Untouched db₀ db := by
  obtain ⟨_, _, _, _, hedits⟩ := h
  exact fun p hp => hedits.view p (Set.notMem_empty p) hp

-- The calls that change an index.
inductive Call where
  | index (docId : String) (values : HashMap String String)
  | remove (docId : String) (values : HashMap String String)

def Call.run (tools : TextTools) (fields : List String) : Call → BTree.TreeM Unit
  | index docId values => indexDocument tools fields docId values
  | remove docId values => removeDocument tools fields docId values

-- What a call does to the entries.
def Call.apply (tools : TextTools) (fields : List String) (R : Entries) : Call → Entries
  | index docId values => R ∪ documentEntries tools fields docId values
  | remove docId values => R \ documentEntries tools fields docId values

theorem follows_indexDocument (tools : TextTools) {fields : List String} {docId : String}
    {values : HashMap String String} (hmem : documentEntries tools fields docId values ⊆ bound) :
    Follows tools db₀ bound (indexDocument tools fields docId values) fun R =>
      R ∪ documentEntries tools fields docId values := by
  have hfields := follows_forEach tools db₀ bound fields fun field hfield =>
    follows_indexField tools fun x (hx : x ∈ fieldEntries tools docId values field) => hmem ⟨field, hfield, hx⟩
  simp only [foldl_union] at hfields
  exact hfields

-- What the documents that were indexed are found by.
def indexedEntries (tools : TextTools) (fields : List String) (calls : List Call) : Entries :=
  {x | ∃ docId values, .index docId values ∈ calls ∧ x ∈ documentEntries tools fields docId values}

theorem follows_call (tools : TextTools) (fields : List String) {calls : List Call} {call : Call}
    (hmem : call ∈ calls) :
    Follows tools db₀ (indexedEntries tools fields calls) (call.run tools fields) fun R =>
      call.apply tools fields R := by
  cases call with
  | index docId values => exact follows_indexDocument tools fun x hx => ⟨docId, values, hmem, hx⟩
  | remove docId values =>
    have hfields := follows_forEach tools db₀ (indexedEntries tools fields calls) fields fun field _ =>
      follows_removeField tools docId values field
    simp only [foldl_diff] at hfields
    exact hfields

end Follows

section Nodes

-- Nodes of which each fits its page.
def Fitting : Database → Prop := NodesIn (Sized BTREE_ORDER Codec.ShortKey)

-- What a document that a call names is found by.
def Call.entries (tools : TextTools) (fields : List String) : Call → Entries
  | index docId values => documentEntries tools fields docId values
  | remove docId values => documentEntries tools fields docId values

theorem fits_findPostings (key : String) :
    Proc.Safe Fitting (fun _ => True) (fun _ => True) (findPostings key) := by
  refine (safe_catching (BTree.safe_search key)).bind fun r _ => ?_
  split
  · exact Proc.safe_pure trivial
  · exact (safe_readPage _).bind fun _ _ => Proc.safe_pure trivial

theorem fits_put (tools : TextTools) {key : String} (hkey : Codec.ShortKey key) (new : Postings) :
    Proc.Safe Fitting (fun _ => True) (fun _ => True) (do let p ← writeData tools new; BTree.insert key p) := by
  have hgrants := grants_nodesIn (Sized BTREE_ORDER Codec.ShortKey)
  have hnode : NodePage (Sized BTREE_ORDER Codec.ShortKey) (.postings new) := fun n hn => by cases hn
  refine Proc.Safe.bind (Q := fun _ => True) ?_ fun p _ =>
    BTree.keeps_insert hgrants (keeps_sized Codec.ShortKey) hkey p
  refine (safe_allocPageMinimum hgrants 0).bind fun p _ => ?_
  split
  · exact Proc.safe_fail _
  · exact (safe_writePageTransfer hgrants trivial hnode).bind fun _ _ => Proc.safe_pure trivial

theorem fits_indexField (tools : TextTools) {docId field : String} {values : HashMap String String}
    (hkeys : ∀ x ∈ fieldEntries tools docId values field, Codec.ShortKey x.1) :
    Proc.Safe Fitting (fun _ => True) (fun _ => True) (indexField tools docId values field) := by
  unfold indexField
  split
  · exact Proc.safe_pure trivial
  · rename_i text htext
    refine Proc.safe_forEach _ fun entry hentry => (fits_findPostings _).bind fun _ _ => fits_put tools ?_ _
    have hterm := (mem_calculateTermFrequency (tokenize tools text) entry.1).mp ⟨entry, hentry, rfl⟩
    exact hkeys (_, docId) ⟨rfl, text, htext, entry.1, hterm, rfl⟩

theorem fits_removeField (tools : TextTools) {docId field : String} {values : HashMap String String}
    (hkeys : ∀ x ∈ fieldEntries tools docId values field, Codec.ShortKey x.1) :
    Proc.Safe Fitting (fun _ => True) (fun _ => True) (removeField tools docId values field) := by
  unfold removeField
  split
  · exact Proc.safe_pure trivial
  · rename_i text htext
    refine Proc.safe_forEach _ fun term hterm => ?_
    have hkey : Codec.ShortKey s!"{term}:{field}" :=
      hkeys (_, docId) ⟨rfl, text, htext, term, List.mem_dedup.mp hterm, rfl⟩
    refine (safe_catching (BTree.safe_search _)).bind fun r _ => ?_
    split
    · exact Proc.safe_pure trivial
    · refine (safe_readPage _).bind fun page _ => ?_
      simp only
      split
      · exact BTree.keeps_delete (grants_nodesIn _) (keeps_sized Codec.ShortKey) _
      · exact fits_put tools hkey _

theorem fits_call (tools : TextTools) {fields : List String} {call : Call}
    (hkeys : ∀ x ∈ call.entries tools fields, Codec.ShortKey x.1) :
    Proc.Safe Fitting (fun _ => True) (fun _ => True) (call.run tools fields) := by
  cases call with
  | index docId values =>
    exact Proc.safe_forEach _ fun field hfield => fits_indexField tools fun x hx => hkeys x ⟨field, hfield, hx⟩
  | remove docId values =>
    exact Proc.safe_forEach _ fun field hfield => fits_removeField tools fun x hx => hkeys x ⟨field, hfield, hx⟩

end Nodes

section Search

variable {scores : ScoreTools}

theorem mem_addScores (totalDocs : Nat) (postings : Postings) (docScores : HashMap String scores.Score)
    (docId : String) :
    docId ∈ addScores scores totalDocs postings docScores ↔ docId ∈ docScores ∨ docId ∈ postings := by
  have hfold : ∀ (n : Nat) (entries : List (String × (Nat × Nat))) (docScores : HashMap String scores.Score),
      docId ∈ entries.foldl (fun docScores entry =>
        let score := scores.tfIdf entry.2 totalDocs n
        docScores.insert entry.1 (scores.add ((docScores.get? entry.1).getD scores.zero) score)) docScores ↔
      docId ∈ docScores ∨ docId ∈ entries.map Prod.fst := by
    intro n entries
    induction entries with
    | nil => simp
    | cons entry rest ih =>
      intro docScores
      rw [List.foldl_cons, ih, HashMap.mem_insert, List.map_cons, List.mem_cons]
      tauto
  refine (hfold postings.toList.length postings.toList docScores).trans ?_
  rw [HashMap.map_fst_toList, HashMap.mem_keys]

theorem Posted.exec_scoreTerms (h : Posted T R postings db) (hopened : BTree.Opened t db T) (totalDocs : Nat)
    (keys : List String) (docScores : HashMap String scores.Score) :
    ∃ docScores', Proc.exec (scoreTerms scores totalDocs keys docScores) t db = (.ok docScores', t, db) ∧
      ∀ docId, docId ∈ docScores' ↔ docId ∈ docScores ∨ ∃ key ∈ keys, (key, docId) ∈ R := by
  induction keys generalizing docScores with
  | nil => exact ⟨docScores, rfl, by simp⟩
  | cons key rest ih =>
    unfold scoreTerms
    rw [Proc.exec_bind_ok (exec_catching_search hopened key), BTree.found]
    cases hM : mapOf T.entries key with
    | none =>
      obtain ⟨docScores', he, hmem⟩ := ih docScores
      refine ⟨docScores', he, fun docId => ?_⟩
      have hnone : (key, docId) ∉ R := by
        rw [← h.entries, h.absent key hM]
        exact HashMap.not_mem_empty docId
      simp [hmem, hnone]
    | some p =>
      have hread : Proc.exec (readPage p) t db = (.ok (.postings (postings key)), t, db) :=
        exec_readPage (h.page key p hM).2.2 t
      obtain ⟨docScores', he, hmem⟩ := ih (addScores scores totalDocs (postings key) docScores)
      refine ⟨docScores', ?_, fun docId => ?_⟩
      · simp only
        rw [Proc.exec_bind_ok hread]
        exact he
      · rw [hmem, mem_addScores, h.entries]
        simp [or_assoc]

-- A search finds, each once and the best first, the documents with a key of the query.
structure Finds (R : Entries) (keys : List String) (results : List (SearchResult scores)) : Prop where
  once : (results.map (·.docId)).Nodup
  ranked : results.Pairwise fun a b => scores.order a.score b.score ≠ .lt
  exact : ∀ docId, docId ∈ results.map (·.docId) ↔ ∃ key ∈ keys, (key, docId) ∈ R

theorem Holds.exec_search (h : Holds db₀ R t db) (tools : TextTools)
    (sorter : Sorter Error (SearchResult scores))
    (fields : List String) (query : String) (totalDocs : Nat) :
    ∃ results, Proc.exec (search tools scores sorter fields query totalDocs) t db = (.ok results, t, db) ∧
      Finds R (queryKeys tools fields query) results := by
  obtain ⟨T, postings, hopened, h, -⟩ := h
  unfold search
  by_cases hempty : (tokenize tools query).isEmpty
  · rw [if_pos hempty]
    refine ⟨[], rfl, List.nodup_nil, List.Pairwise.nil, ?_⟩
    simp [queryKeys, List.isEmpty_iff.mp hempty]
  · rw [if_neg hempty]
    obtain ⟨docScores, he, hmem⟩ := h.exec_scoreTerms hopened totalDocs (queryKeys tools fields query) ∅
    have hpreorder : TotalPreorder (compareResults scores) :=
      ⟨fun a _ => scores.total.refl _ trivial, fun a b _ _ => scores.total.swap _ _ trivial trivial,
        fun a b c _ _ _ hab hbc => scores.total.trans _ _ _ trivial trivial trivial hbc hab⟩
    obtain ⟨results, hrun, hperm, hsorted⟩ := sorter.sorts (l := docScores.toList.map fun entry => ⟨entry.1, entry.2⟩)
      (hpreorder.on _)
    have hids : (results.map (·.docId)).Perm docScores.keys := by
      have hmapped := hperm.map (·.docId)
      rwa [List.map_map, show (·.docId) ∘ (fun entry => (⟨entry.1, entry.2⟩ : SearchResult scores)) = Prod.fst from rfl,
        HashMap.map_fst_toList] at hmapped
    refine ⟨results, ?_, hids.nodup_iff.mpr docScores.nodup_keys, hsorted, fun docId => ?_⟩
    · rw [Proc.exec_bind_ok he, hrun]
      rfl
    · rw [hids.mem_iff, HashMap.mem_keys, hmem]
      simp

theorem holds_new {db₁ : Database} {p : PageNum} (hopened : BTree.Opened t db₁ (leaf p [] 0))
    (hedits : BTree.Edits db₀ ∅ db₁ {p}) : Holds db₀ ∅ t db₁ := by
  refine ⟨leaf p [] 0, fun _ => ∅, hopened, ⟨fun _ _ => rfl, ?_, by simp⟩, hedits.mono ?_⟩
  · intro key q hq
    cases hq
  · simp [ptrs_leaf]

-- Every text is one word, and scores are counts.
def wholeTexts : TextTools := ⟨fun text => [text], id, fun _ _ => "1"⟩

def countScores : ScoreTools :=
  ⟨Nat, 0, (· + ·), fun _ totalDocs _ => totalDocs, fun a b => some (compare a b), by
    refine ⟨fun a _ => by simp, fun a b _ _ => (Nat.compare_swap b a).symm, ?_⟩
    intro a b c _ _ _ hab hbc
    simp only [Option.getD_some, ne_eq, Nat.compare_eq_gt, not_lt] at hab hbc ⊢
    omega⟩

def resultSorter : Sorter Error (SearchResult countScores) := ⟨fun cmp l => .ok (sortBy cmp l), fun _ _ _ => rfl⟩

def sampleTexts : List Call :=
  [.index "a" (HashMap.insert ∅ "body" "red"), .index "b" (HashMap.insert ∅ "body" "red"),
    .remove "a" (HashMap.insert ∅ "body" "red")]

theorem shortKey_sampleTexts : ∀ call ∈ sampleTexts, ∀ x ∈ call.entries wholeTexts ["body"], Codec.ShortKey x.1 := by
  intro call hcall x hx
  have hentries : ∃ docId, x ∈ documentEntries wholeTexts ["body"] docId (HashMap.insert ∅ "body" "red") := by
    simp only [sampleTexts, List.mem_cons, List.not_mem_nil, or_false] at hcall
    rcases hcall with rfl | rfl | rfl
    · exact ⟨_, hx⟩
    · exact ⟨_, hx⟩
    · exact ⟨_, hx⟩
  obtain ⟨docId, field, hfield, -, text, htext, term, hterm, hkey⟩ := hentries
  obtain rfl := List.mem_singleton.mp hfield
  rw [HashMap.get?_insert_self] at htext
  obtain rfl := Option.some.inj htext
  have htokens : tokenize wholeTexts "red" = ["red"] := by decide
  rw [htokens, List.mem_singleton] at hterm
  subst hterm
  rw [hkey]
  decide

example : (Proc.exec (do
    let t ← (BTree.new : DbM Unit BTree)
    let found ← Proc.within t do
      Proc.forEach (Call.run wholeTexts ["body"]) sampleTexts
      search wholeTexts countScores resultSorter ["body"] "red" 1
    pure (found.1.map (·.docId))) () (Database.ofPages [] 2 [] 2)).1 = .ok ["b"] := by decide +kernel

end Search

end TextIndex

end JasonDb
