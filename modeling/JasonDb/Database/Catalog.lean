import JasonDb.Database.Grants
import JasonDb.Database.Placed

namespace JasonDb

open Lib

-- The calls that change indexes and schemas.
inductive CatalogCall where
  | createIndex (name index field : String) (unique : Bool)
  | createCompoundIndex (name index : String) (fields : List String) (unique : Bool)
  | createTextIndex (name index : String) (fields : List String)
  | dropIndex (name index : String)
  | setSchema (name : String) (schema : Schema)
  | removeSchema (name : String)

-- What the calls take from elsewhere.
structure Unicode where
  isAlphabetic : Char → Bool
  isAlphanumeric : Char → Bool
  text : TextTools

namespace CatalogCall

variable {ℓ : Type} (u : Unicode)

def run [SerdeJson] : CatalogCall → DbM ℓ Unit
  | .createIndex name index field unique =>
    JasonDb.createIndex u.isAlphabetic u.isAlphanumeric name index field unique
  | .createCompoundIndex name index fields unique =>
    JasonDb.createCompoundIndex u.isAlphabetic u.isAlphanumeric name index fields unique
  | .createTextIndex name index fields =>
    JasonDb.createTextIndex u.isAlphabetic u.isAlphanumeric u.text name index fields
  | .dropIndex name index => JasonDb.dropIndex u.isAlphabetic u.isAlphanumeric name index
  | .setSchema name schema => JasonDb.setSchema u.isAlphabetic u.isAlphanumeric name schema
  | .removeSchema name => JasonDb.removeSchema u.isAlphabetic u.isAlphanumeric name

-- The metadata that a call may install. `root` is the page that a new index starts at.
def target (root : PageNum) (M : Metadata) : CatalogCall → Metadata
  | .createIndex name index field unique => withIndex name index [field] unique root M
  | .createCompoundIndex name index fields unique => withIndex name index fields unique root M
  | .createTextIndex name index fields => withTextIndex name index fields root M
  | .dropIndex name index => withoutIndex name index M
  | .setSchema name schema => withSchema name schema M
  | .removeSchema name => withoutSchema name M

-- The call passes the checks it makes before it changes anything.
def Admitted (M : Metadata) : CatalogCall → Prop
  | .createIndex name index _ _ =>
    validateCollectionName u.isAlphabetic u.isAlphanumeric name = .ok () ∧
      hasIndex M name index = false
  | .createCompoundIndex name index fields _ =>
    validateCollectionName u.isAlphabetic u.isAlphanumeric name = .ok () ∧ fields ≠ [] ∧
      hasIndex M name index = false
  | .createTextIndex name index fields =>
    validateCollectionName u.isAlphabetic u.isAlphanumeric name = .ok () ∧ fields ≠ [] ∧
      hasTextIndex M name index = false
  | .dropIndex name index =>
    validateCollectionName u.isAlphabetic u.isAlphanumeric name = .ok () ∧
      hasIndex M name index = true
  | .setSchema name _ => validateCollectionName u.isAlphabetic u.isAlphanumeric name = .ok ()
  | .removeSchema name => validateCollectionName u.isAlphabetic u.isAlphanumeric name = .ok ()

end CatalogCall

-- Page numbers are 64-bit numbers.
def PAGE_LIMIT : Nat := 2 ^ 64

def Metadata.InRange (M : Metadata) : Prop :=
  ∀ coll ∈ M.collections.toList, coll.2.btreeRoot < PAGE_LIMIT ∧
    (∀ index ∈ coll.2.indexes.toList, index.2.btreeRoot < PAGE_LIMIT) ∧
    ∀ index ∈ coll.2.textIndexes.toList, index.2.btreeRoot < PAGE_LIMIT

instance (M : Metadata) : Decidable M.InRange :=
  inferInstanceAs (Decidable (∀ _ ∈ _, _ ∧ _ ∧ _))

-- The metadata with the change fit a page, wherever a new index starts.
def CatalogCall.Fits (u : Unicode) (call : CatalogCall) (M : Metadata) : Prop :=
  call.Admitted u M → ∀ root < PAGE_LIMIT, (call.target root M).toJson.byteLen ≤ PAGE_SIZE

section Calls

variable {ℓ α β : Type} {m : PageNum} {M : Metadata} {F : Metadata → Prop}

-- A call that fails before it gets to the metadata, or installs metadata of `F`: in their page,
-- or only in memory when they do not fit.
def Alters (m : PageNum) (M : Metadata) (F : Metadata → Prop) (call : DbM ℓ Unit) : Prop :=
  ∀ l db r l' db', db.Keeps m M → Proc.exec call l db = (r, l', db') →
    db'.Placed m ∧ (∀ a, r = .ok a → db'.Stored m) ∧
    ∀ e, r = .error e → db'.metadata = M ∨ F db'.metadata ∧ ¬ db'.metadata.toJson.byteLen ≤ PAGE_SIZE

theorem alters_fail (e : Error) : Alters m M F (Proc.fail e : DbM ℓ Unit) := by
  intro l db r l' db' h he
  obtain ⟨rfl, rfl, rfl⟩ : .error e = r ∧ l = l' ∧ db = db' := by simpa [Proc.exec_fail] using he
  exact ⟨h.1, by simp, fun _ _ => Or.inl h.2⟩

theorem alters_bind {Q : α → Prop} {p : DbM ℓ α} {f : α → DbM ℓ Unit}
    (h : Proc.Safe (Database.Keeps m M) (fun _ => True) Q p) (hf : ∀ a, Q a → Alters m M F (f a)) :
    Alters m M F (p >>= f) := by
  intro l db r l' db' hdb he
  rcases Proc.exec_bind_cases he with ⟨e, hp, rfl⟩ | ⟨a, l₁, db₁, hp, hrest⟩
  · obtain ⟨hk, -, -⟩ := h.exec hp trivial hdb
    exact ⟨hk.1, by simp, fun _ _ => Or.inl hk.2⟩
  · obtain ⟨hk, -, hQ⟩ := h.exec hp trivial hdb
    exact hf a (hQ a rfl) l₁ db₁ r l' db' hk hrest

theorem alters_changeMetadata {f : Metadata → Metadata} (hf : F (f M)) :
    Alters m M F (changeMetadata f : DbM ℓ Unit) := by
  intro l db r l' db' h he
  by_cases hfit : (f db.metadata).toJson.byteLen ≤ PAGE_SIZE
  · obtain ⟨db₁, hok, hplaced, hstored⟩ := exec_changeMetadata (l := l) h.1 hfit
    obtain ⟨rfl, -, rfl⟩ : .ok () = r ∧ l = l' ∧ db₁ = db' := by simpa [hok] using he
    exact ⟨hplaced, fun _ _ => hstored, by simp⟩
  · rw [exec_changeMetadata_error h.1 hfit] at he
    obtain ⟨rfl, -, rfl⟩ := by simpa using he
    refine ⟨h.1.withMetadata _, by simp, fun _ _ => Or.inr ⟨?_, hfit⟩⟩
    rw [h.2]
    exact hf

theorem Alters.writeHeader {call : DbM ℓ Unit} (h : Alters m M F call) :
    Alters m M F (call >>= fun _ => writeHeader) := by
  intro l db r l' db' hdb he
  rcases Proc.exec_bind_cases he with ⟨e, hp, rfl⟩ | ⟨a, l₁, db₁, hp, hrest⟩
  · exact h l db _ l' db' hdb hp
  · obtain ⟨hplaced, hstored, -⟩ := h l db _ l₁ db₁ hdb hp
    obtain ⟨hf, -⟩ := Proc.exec_atomicE_inv hrest
    have hr : db₁.pager.writeHeader.1 = r := congrArg Prod.fst hf
    obtain rfl : { db₁ with pager := db₁.pager.writeHeader.2 } = db' := congrArg Prod.snd hf
    refine ⟨hplaced.aside (aside_writeHeader db₁), fun _ _ =>
      (hstored a rfl).aside (aside_writeHeader db₁), ?_⟩
    rintro e rfl
    simp [Pager.writeHeader, hplaced.writable] at hr

theorem safe_keeps_checkpointWal :
    Proc.Safe (Database.Keeps m M) (fun _ : ℓ => True) (fun _ => True) checkpointWal :=
  safe_checkpointWal (fun db _ h => lasting_keeps db _ h ⟨rfl, rfl, rfl, rfl, rfl, rfl, rfl⟩)
    (fun db h => lasting_keeps db _ h (aside_flush db))
    fun db _ h => lasting_keeps db _ h (aside_wal db _)

theorem safe_isReadOnly :
    Proc.Safe (Database.Keeps m M) (fun _ : ℓ => True) (fun _ => True) isReadOnly :=
  Proc.safe_atomic fun _ h => ⟨h, trivial⟩

variable (u : Unicode)

theorem safe_metadata_keeps : Proc.Safe (Database.Keeps m M) (fun _ : ℓ => True) (· = M) getMetadata :=
  Proc.safe_atomic fun _ h => ⟨h, h.2⟩

-- What `create_compound_index` and `create_text_index` do after their checks of the arguments.
theorem alters_built (has : Metadata → Bool) {build : DbM ℓ PageNum} {update : PageNum → Metadata → Metadata}
    {noWrite existing : Error}
    (hbuild : Proc.Safe (Database.Keeps m M) (fun _ : ℓ => True) (fun _ => True) build)
    (hF : has M = false → ∀ root, F (update root M)) :
    Alters m M F (do
      if ← isReadOnly then Proc.fail noWrite
      else
        checkpointWal
        let metadata ← getMetadata
        if has metadata then Proc.fail existing
        else
          let root ← build
          changeMetadata (update root)
          writeHeader : DbM ℓ Unit) := by
  refine alters_bind safe_isReadOnly fun readOnly _ => ?_
  split
  · exact alters_fail _
  · refine alters_bind safe_keeps_checkpointWal fun _ _ => ?_
    refine alters_bind safe_metadata_keeps fun metadata hmetadata => ?_
    split
    · exact alters_fail _
    case isFalse hindex =>
      refine alters_bind hbuild fun root _ => ?_
      rw [hmetadata] at hindex
      exact (alters_changeMetadata (hF (by simpa using hindex) root)).writeHeader

theorem alters_createCompoundIndex [SerdeJson] {name index : String} {fields : List String} {unique : Bool}
    (hF : validateCollectionName u.isAlphabetic u.isAlphanumeric name = .ok () → fields ≠ [] →
      hasIndex M name index = false → ∀ root, F (withIndex name index fields unique root M)) :
    Alters m M F
      (createCompoundIndex u.isAlphabetic u.isAlphanumeric name index fields unique : DbM ℓ Unit) := by
  refine alters_bind (Proc.safe_ofExcept fun _ hok => hok) fun _ hname => ?_
  split
  · exact alters_fail _
  case isFalse hfields =>
    exact alters_built (hasIndex · name index)
      (safe_buildIndex (grants_keeps fun _ => True) (fun _ => trivial)
        (safe_indexEntry (grants_keeps fun _ => True) (fun _ => trivial) fields unique) name)
      (hF hname (by simpa using hfields))

theorem alters_createTextIndex [SerdeJson] {name index : String} {fields : List String}
    (hF : validateCollectionName u.isAlphabetic u.isAlphanumeric name = .ok () → fields ≠ [] →
      hasTextIndex M name index = false → ∀ root, F (withTextIndex name index fields root M)) :
    Alters m M F
      (createTextIndex u.isAlphabetic u.isAlphanumeric u.text name index fields : DbM ℓ Unit) := by
  refine alters_bind (Proc.safe_ofExcept fun _ hok => hok) fun _ hname => ?_
  split
  · exact alters_fail _
  case isFalse hfields =>
    exact alters_built (hasTextIndex · name index)
      (safe_buildIndex (grants_keeps fun _ => True) (fun _ => trivial)
        (safe_indexTextEntry (grants_keeps fun _ => True) (fun _ => trivial) (fun _ => trivial) u.text fields) name)
      (hF hname (by simpa using hfields))

theorem safe_checkCall (name action : String) : Proc.Safe (Database.Keeps m M) (fun _ : ℓ => True)
    (fun _ => validateCollectionName u.isAlphabetic u.isAlphanumeric name = .ok ())
    (checkCall u.isAlphabetic u.isAlphanumeric name action) := by
  refine Proc.Safe.bind (Proc.safe_ofExcept fun _ hok => hok) fun _ hname => ?_
  refine safe_isReadOnly.bind fun readOnly _ => ?_
  split
  · exact Proc.safe_fail _
  · exact Proc.safe_pure hname

theorem alters_dropIndex {name index : String}
    (hF : validateCollectionName u.isAlphabetic u.isAlphanumeric name = .ok () →
      hasIndex M name index = true → F (withoutIndex name index M)) :
    Alters m M F
      (dropIndex u.isAlphabetic u.isAlphanumeric name index : DbM ℓ Unit) := by
  refine alters_bind (safe_checkCall u _ _) fun _ hname => ?_
  refine alters_bind safe_metadata_keeps fun metadata hmetadata => ?_
  split
  · exact alters_fail _
  case h_2 coll hcoll =>
    split
    · exact alters_fail _
    case isFalse hindex =>
      have hhas : hasIndex M name index = true := by
        rw [hasIndex, ← hmetadata, hcoll]
        simpa using hindex
      exact (alters_changeMetadata (hF hname hhas)).writeHeader

theorem alters_setSchema {name : String} {schema : Schema}
    (hF : validateCollectionName u.isAlphabetic u.isAlphanumeric name = .ok () →
      F (withSchema name schema M)) :
    Alters m M F
      (setSchema u.isAlphabetic u.isAlphanumeric name schema : DbM ℓ Unit) := by
  refine alters_bind (Proc.safe_ofExcept fun _ hok => hok) fun _ hname => ?_
  refine alters_bind safe_isReadOnly fun readOnly _ => ?_
  split
  · exact alters_fail _
  · exact alters_changeMetadata (hF hname)

theorem alters_removeSchema {name : String}
    (hF : validateCollectionName u.isAlphabetic u.isAlphanumeric name = .ok () →
      F (withoutSchema name M)) :
    Alters m M F
      (removeSchema u.isAlphabetic u.isAlphanumeric name : DbM ℓ Unit) :=
  alters_bind (safe_checkCall u _ _) fun _ hname => alters_changeMetadata (hF hname)

theorem alters_catalogCall [SerdeJson] (call : CatalogCall) :
    Alters m M (fun M' => call.Admitted u M ∧ ∃ root, M' = call.target root M)
      (call.run u : DbM ℓ Unit) := by
  cases call with
  | createIndex name index field unique =>
    exact alters_createCompoundIndex u fun hname _ hindex root => ⟨⟨hname, hindex⟩, root, rfl⟩
  | createCompoundIndex name index fields unique =>
    exact alters_createCompoundIndex u fun hname hfields hindex root =>
      ⟨⟨hname, hfields, hindex⟩, root, rfl⟩
  | createTextIndex name index fields =>
    exact alters_createTextIndex u fun hname hfields hindex root =>
      ⟨⟨hname, hfields, hindex⟩, root, rfl⟩
  | dropIndex name index => exact alters_dropIndex u fun hname hindex => ⟨⟨hname, hindex⟩, 0, rfl⟩
  | setSchema name schema => exact alters_setSchema u fun hname => ⟨hname, 0, rfl⟩
  | removeSchema name => exact alters_removeSchema u fun hname => ⟨hname, 0, rfl⟩

-- A page number that the metadata of a call hold is in range.
theorem root_lt_of_inRange {call : CatalogCall} {root : PageNum}
    (h : (call.target root M).InRange) : ∃ root' < PAGE_LIMIT, call.target root' M = call.target root M := by
  have hpos : 0 < PAGE_LIMIT := by decide
  cases call with
  | createIndex name index field unique =>
    obtain ⟨-, hindexes, -⟩ := h (name, _) (HashMap.mem_toList.mpr (HashMap.get?_insert_self ..))
    exact ⟨root, hindexes (index, _) (HashMap.mem_toList.mpr (HashMap.get?_insert_self ..)), rfl⟩
  | createCompoundIndex name index fields unique =>
    obtain ⟨-, hindexes, -⟩ := h (name, _) (HashMap.mem_toList.mpr (HashMap.get?_insert_self ..))
    exact ⟨root, hindexes (index, _) (HashMap.mem_toList.mpr (HashMap.get?_insert_self ..)), rfl⟩
  | createTextIndex name index fields =>
    obtain ⟨-, -, hindexes⟩ := h (name, _) (HashMap.mem_toList.mpr (HashMap.get?_insert_self ..))
    exact ⟨root, hindexes (index, _) (HashMap.mem_toList.mpr (HashMap.get?_insert_self ..)), rfl⟩
  | dropIndex name index => exact ⟨0, hpos, rfl⟩
  | setSchema name schema => exact ⟨0, hpos, rfl⟩
  | removeSchema name => exact ⟨0, hpos, rfl⟩

-- A call whose metadata fit leaves memory and page alike, or memory as it was.
theorem catalogCall_spec [SerdeJson] {call : CatalogCall} {db db' : Database} {l l' : ℓ}
    {r : Except Error Unit}
    (h : db.Placed m) (hfit : call.Fits u db.metadata) (hrange : db'.metadata.InRange)
    (he : Proc.exec (call.run u) l db = (r, l', db')) :
    db'.Placed m ∧ (r = .ok () → db'.Stored m) ∧ ∀ e, r = .error e → db'.metadata = db.metadata := by
  obtain ⟨hplaced, hok, herror⟩ := alters_catalogCall u call l db r l' db' ⟨h, rfl⟩ he
  refine ⟨hplaced, hok (), fun e hr => ?_⟩
  rcases herror e hr with hsame | ⟨⟨hadmitted, root, htarget⟩, hlong⟩
  · exact hsame
  · rw [htarget] at hrange hlong
    obtain ⟨root', hlt, heq⟩ := root_lt_of_inRange hrange
    rw [← heq] at hlong
    exact absurd (hfit hadmitted root' hlt) hlong

end Calls

end JasonDb
