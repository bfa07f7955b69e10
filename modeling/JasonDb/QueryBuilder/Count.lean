import JasonDb.Collection.Scan
import JasonDb.Database.Build
import JasonDb.QueryBuilder

namespace JasonDb

open Lib

variable {ℓ α β : Type}

namespace Collection

-- A document that cannot be read is passed over; its text is not looked at.
def countVisit (tx : Transaction) (entry : LeafEntry) : BTree.TreeM (Option Unit) := do
  match ← catching (readVersionedDocument entry.value tx.writes) with
  | .error _ => pure none
  | .ok doc => pure (if doc.isVisible tx.snapshotId then some () else none)

def countInTx : WorkM Nat := do
  let work ← Proc.getLocal
  let counted ← onTree (BTree.iterate (countVisit work.tx))
  pure counted.length

def count (name : String) : DbM ℓ Nat := inTransaction do
  let root ← rootOf name
  if root = 0 then pure 0
  else
    openTree root
    countInTx

end Collection

namespace QueryBuilder

-- `Err(Error::Other(msg)) if msg.contains("not found") => 0`
def orZero : Except Error Nat → Except Error Nat
  | .error (.other message) =>
    if "not found".toList <:+: message.toList then .ok 0 else .error (.other message)
  | result => result

def countMatching [SerdeJson] (tools : QueryTools) (builder : QueryBuilder) : DbM ℓ Nat :=
  match builder.query with
  | some query => do
    Collection.checkQuery (Query.compile tools query)
    let docs ← allDocs builder.collection
    let docs ← Proc.ofExcept (Collection.select (Query.compile tools query) docs)
    pure docs.length
  | none => do
    let counted ← catching (Collection.count builder.collection)
    Proc.ofExcept (orZero counted)

def count [SerdeJson] (tools : QueryTools) (builder : QueryBuilder) : DbM ℓ Nat := do
  let results ← countMatching tools builder
  if builder.skipCount ≥ results then pure 0
  else
    let afterSkip := results - builder.skipCount
    pure (match builder.limitCount with
      | some limit => min limit afterSkip
      | none => afterSkip)

end QueryBuilder


section Agree

variable {db : Database} {name : String}

theorem Collection.exec_countVisit {db' : Database} (hpager : db'.pager = db.pager) (entry : LeafEntry)
    (t : BTree) :
    Proc.exec (countVisit (begun db) entry) t db' = (.ok (seen db (fun _ => some ()) entry), t, db') := by
  have hread : Proc.exec (catching (readVersionedDocument entry.value (begun db).writes)) t db' =
      (.ok (db.version entry.value), t, db') := exec_version hpager entry.value t
  unfold countVisit seen
  rw [Proc.exec_bind_ok hread]
  cases db.version entry.value <;> rfl

theorem Collection.exec_count (name : String) (db : Database) (l : ℓ) :
    (Proc.exec (count name) l db).1 = (scanned db name fun _ => some ()).map List.length := by
  have hbody : ∀ root db', db'.pager = db.pager → (Proc.exec countInTx ⟨begun db, BTree.open root⟩ db').1 =
      ((BTree.entriesFrom db root).map (List.filterMap (seen db fun _ => some ()))).map List.length := by
    intro root db' hpager
    unfold countInTx
    rw [Proc.exec_bind_ok (Proc.exec_getLocal _ db'), Proc.exec_bind,
      exec_onTree_iterate hpager fun entry => exec_countVisit hpager entry _]
    cases BTree.entriesFrom db root <;> rfl
  exact exec_scan countInTx List.length hbody l

-- The documents of a collection are texts that `serde_json` reads as JSON objects.
def Database.Stores [SerdeJson] (db : Database) (name : String) : Prop :=
  ∀ coll, db.metadata.collections.get? name = some coll → ∀ entries, BTree.entriesFrom db coll.btreeRoot = .ok entries →
    ∀ entry ∈ entries, ∀ doc, db.version entry.value = .ok doc → ∃ fields, doc.parse = .ok (.obj fields)

theorem length_filterMap_eq {α β γ : Type} {f : α → Option β} {g : α → Option γ} {l : List α}
    (h : ∀ a ∈ l, (f a).isSome = (g a).isSome) : (l.filterMap f).length = (l.filterMap g).length := by
  induction l with
  | nil => rfl
  | cons a l ih =>
    have hrest := ih fun b hb => h b (List.mem_cons_of_mem _ hb)
    have hhead := h a List.mem_cons_self
    cases hf : f a <;> cases hg : g a <;> simp_all

theorem Collection.length_scanned [SerdeJson] (h : db.Stores name) :
    (scanned db name fun _ => some ()).map List.length = (scanned db name VersionedDocument.parsed).map List.length := by
  unfold scanned
  cases hcoll : db.metadata.collections.get? name with
  | none => rfl
  | some coll =>
    simp only
    split
    · rfl
    · cases hentries : BTree.entriesFrom db coll.btreeRoot with
      | error e => rfl
      | ok entries =>
        refine congrArg Except.ok (length_filterMap_eq fun entry hentry => ?_)
        unfold seen
        cases hdoc : db.version entry.value with
        | error e => rfl
        | ok doc =>
          simp only
          split
          · obtain ⟨fields, hparse⟩ := h coll hcoll entries hentries entry hentry doc hdoc
            unfold VersionedDocument.parsed
            rw [hparse]
            rfl
          · rfl

end Agree

namespace QueryBuilder

variable {db : Database} {builder : QueryBuilder}

theorem exec_catching_ofExcept (m : DbM ℓ α) (f : Except Error α → Except Error β) (l : ℓ) (db : Database) :
    (Proc.exec (do let r ← catching m; Proc.ofExcept (f r)) l db).1 = match (Proc.exec m l db).1 with
      | .error .diverged => .error .diverged
      | .error (.panic message) => .error (.panic message)
      | r => f r := by
  rcases hm : Proc.exec m l db with ⟨r, l', db'⟩
  have hatt : Proc.exec (Proc.attempt m) l db = (.ok r, l', db') := by
    rw [Proc.exec_attempt, hm]
  have hf : ∀ r, (Proc.exec (Proc.ofExcept (f r) : DbM ℓ β) l' db').1 = f r := by
    intro r
    cases f r <;> rfl
  unfold catching
  rw [Proc.exec_bind_assoc, Proc.exec_bind_ok hatt]
  cases r with
  | ok a => exact hf (.ok a)
  | error e => cases e <;> first | rfl | exact hf _

-- Both pass over a message that has the same words in it.
theorem orZero_length (r : Except Error (List Json)) :
    orZero (r.map List.length) = (orEmpty r).map List.length := by
  cases r with
  | ok docs => rfl
  | error e =>
    cases e with
    | other message =>
      unfold Except.map orZero orEmpty
      simp only
      by_cases hfound : "not found".toList <:+: message.toList
      · rw [if_pos hfound, if_pos hfound]
        rfl
      · rw [if_neg hfound, if_neg hfound]
    | _ => rfl

theorem exec_countMatching [SerdeJson] (tools : QueryTools) (h : db.Stores builder.collection) (l : ℓ) :
    (Proc.exec (countMatching tools builder) l db).1 = (Proc.exec (matching tools builder) l db).1.map List.length := by
  unfold countMatching matching
  cases builder.query with
  | some query =>
    simp only
    rw [Proc.exec_bind, Proc.exec_bind]
    rcases Proc.exec (Collection.checkQuery (Query.compile tools query)) l db with ⟨r, l₁, db₁⟩
    cases r with
    | error e => rfl
    | ok u =>
      simp only
      rw [Proc.exec_bind, Proc.exec_bind]
      rcases Proc.exec (allDocs builder.collection) l₁ db₁ with ⟨r, l₂, db₂⟩
      cases r with
      | error e => rfl
      | ok docs =>
        simp only
        cases Collection.select (Query.compile tools query) docs <;> rfl
  | none =>
    have hcount := Collection.exec_count builder.collection db l
    have hall := Collection.exec_findAll builder.collection db l
    rw [Collection.length_scanned h] at hcount
    unfold allDocs
    rw [exec_catching_ofExcept, exec_catching_ofExcept, hcount, hall]
    cases Collection.scanned db builder.collection VersionedDocument.parsed with
    | ok docs => rfl
    | error e =>
      cases e with
      | diverged => rfl
      | panic message => rfl
      | _ => exact orZero_length (.error _)

theorem length_present (builder : QueryBuilder) (results : List Json) :
    (builder.present results).length =
      if builder.skipCount ≥ results.length then 0
      else match builder.limitCount with
        | some limit => min limit (results.length - builder.skipCount)
        | none => results.length - builder.skipCount := by
  have hproject : (builder.present results).length = (match builder.limitCount with
      | some limit => (results.drop builder.skipCount).take limit
      | none => results.drop builder.skipCount).length := by
    unfold present
    cases builder.projection with
    | none => rfl
    | some projection => exact List.length_map _
  rw [hproject]
  cases builder.limitCount with
  | none =>
    simp only [List.length_drop]
    split
    · omega
    · rfl
  | some limit =>
    simp only [List.length_take, List.length_drop]
    split
    · omega
    · rfl

theorem count_eq_execute [SerdeJson] (tools : QueryTools) (sorter : Sorter Error Json)
    (builder : QueryBuilder)
    (h : db.Stores builder.collection) (l : ℓ) :
    (Proc.exec (count tools builder) l db).1 = (Proc.exec (execute tools sorter builder) l db).1.map List.length := by
  have hcounted := exec_countMatching tools h l
  unfold count execute
  rw [Proc.exec_bind, Proc.exec_bind]
  rcases hcount : Proc.exec (countMatching tools builder) l db with ⟨counted, l₁, db₁⟩
  rcases hfind : Proc.exec (matching tools builder) l db with ⟨found, l₂, db₂⟩
  rw [hcount, hfind] at hcounted
  obtain rfl : counted = found.map List.length := hcounted
  cases found with
  | error e => rfl
  | ok results =>
    obtain ⟨sorted, hsort, hperm, -⟩ := sortResults_sorts sorter builder results
    simp only [Except.map, hsort]
    rw [Proc.exec_bind_ok (Proc.exec_ofExcept_ok sorted l₂ db₂)]
    change _ = Except.ok (builder.present sorted).length
    rw [length_present, hperm.length_eq]
    split <;> rfl

theorem count_agrees [SerdeJson] (tools : QueryTools) (sorter : Sorter Error Json) (builder : QueryBuilder)
    (h : db.Stores builder.collection) (l : ℓ) :
    (∀ n, (Proc.exec (count tools builder) l db).1 = .ok n ↔
      ∃ results, (Proc.exec (execute tools sorter builder) l db).1 = .ok results ∧ results.length = n) ∧
    ∀ e, (Proc.exec (count tools builder) l db).1 = .error e ↔
      (Proc.exec (execute tools sorter builder) l db).1 = .error e := by
  rw [count_eq_execute tools sorter builder h l]
  cases (Proc.exec (execute tools sorter builder) l db).1 <;> simp [Except.map]

section TwoDocuments

def docPage (id : String) : Page := .doc ⟨1, 0, id, .obj [("_id", .str id)], 0⟩

def twoDocuments : Database :=
  .ofPages [(3, .node { BTreeNode.newLeaf 3 with entries := [⟨"x", 7⟩, ⟨"y", 8⟩], numKeys := 2 }),
    (7, docPage "x"), (8, docPage "y")] 9 [("a", 3)] 5

attribute [local instance] SerdeJson.exact

theorem stores_twoDocuments : twoDocuments.Stores "a" := by
  intro coll hcoll entries hentries entry hentry doc hdoc
  have hroot : (twoDocuments.metadata.collections.get? "a").map CollectionMeta.btreeRoot = some 3 := by decide
  rw [hcoll] at hroot
  obtain hroot : coll.btreeRoot = 3 := Option.some.inj hroot
  have hfrom : BTree.entriesFrom twoDocuments 3 = .ok [⟨"x", 7⟩, ⟨"y", 8⟩] := by decide +kernel
  rw [hroot, hfrom] at hentries
  obtain rfl := Except.ok.inj hentries
  have hdata : ∀ entry ∈ ([⟨"x", 7⟩, ⟨"y", 8⟩] : List LeafEntry), ((twoDocuments.version entry.value).map
      VersionedDocument.parse) = .ok (.ok (.obj [("_id", .str entry.key)])) := by
    decide +kernel
  have hparse := hdata entry hentry
  rw [hdoc] at hparse
  exact ⟨_, Except.ok.inj hparse⟩

def lastOfTwo : QueryBuilder := ⟨"a", none, [("_id", .desc)], some 5, 1, none⟩

-- One of the two is skipped, and the limit is not reached.
theorem count_agrees_twoDocuments :
    ∃ results, (Proc.exec (execute Query.asciiTools ⟨fun cmp l => .ok (sortBy cmp l), fun _ _ _ => rfl⟩ lastOfTwo) ()
      twoDocuments).1 = .ok results ∧ results.length = 1 := by
  have hcount : (Proc.exec (count Query.asciiTools lastOfTwo) () twoDocuments).1 = .ok 1 := by decide +kernel
  exact ((count_agrees Query.asciiTools _ lastOfTwo stores_twoDocuments ()).1 1).mp hcount

end TwoDocuments

end QueryBuilder

end JasonDb
