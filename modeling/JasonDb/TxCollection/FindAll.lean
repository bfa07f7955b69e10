import JasonDb.Collection.Scan
import JasonDb.TxBTree.Iterator
import JasonDb.TxCollection.Find

namespace JasonDb

open Lib TxBTree

namespace TxCollection

-- The entries of the collection's tree. `rounds` bounds the loop over them.
def entries (rounds : Nat) : M (List LeafEntry) :=
  onTree do
    let it ← TxBTree.iterator
    it.collect rounds

-- The entries of one of its indexes.
def indexEntries (name : String) (rounds : Nat) : M (List LeafEntry) :=
  onIndex name do
    let it ← TxBTree.iterator
    it.collect rounds

-- The versions that can be read and that the transaction may see.
def readEach (tx : Transaction) {ℓ : Type} : List LeafEntry → DbM ℓ (List VersionedDocument)
  | [] => pure []
  | entry :: rest => do
    let found ← catching (readVersionedDocument entry.value tx.writes)
    let docs ← readEach tx rest
    match found with
    | .ok doc => pure (if sees tx doc then doc :: docs else docs)
    | .error _ => pure docs

def visible (rounds : Nat) : M (List VersionedDocument) := do
  let found ← entries rounds
  let c ← Proc.getLocal
  readEach c.tx found

-- `if let Ok(doc) = serde_json::from_slice(..)`
def findAll [SerdeJson] (rounds : Nat) : M (List Json) := do
  let docs ← visible rounds
  pure (docs.filterMap (·.parsed))

def count (rounds : Nat) : M Nat := do
  let docs ← visible rounds
  pure docs.length

section Same

theorem peeks_catching {α : Type} {pager : Pager} {m : (ℓ : Type) → DbM ℓ α} (h : Peeks pager m) :
    Peeks pager fun ℓ => catching (m ℓ) := by
  obtain ⟨r, hcaught, he⟩ := h
  exact ⟨.ok r, by simp, fun ℓ l db hpager => exec_catching (he ℓ l db hpager) hcaught⟩

variable {ℓ : Type} {db : Database} {c c' : TxCollection} {tx tx' : Transaction}

-- Two transactions that read alike: what they have noted for the conflict check may differ.
structure ReadsAlike (tx tx' : Transaction) : Prop where
  writes : tx'.writes = tx.writes
  mvccTxId : tx'.mvccTxId = tx.mvccTxId
  snapshotId : tx'.snapshotId = tx.snapshotId

theorem ReadsAlike.sees (h : ReadsAlike tx tx') (doc : VersionedDocument) : sees tx' doc = sees tx doc := by
  simp only [TxCollection.sees, isOwnWrite, h.mvccTxId, h.snapshotId]

theorem readEach_same (h : ReadsAlike tx tx') (entries : List LeafEntry) :
    (readEach tx' entries : DbM ℓ (List VersionedDocument)) = readEach tx entries := by
  induction entries with
  | nil => rfl
  | cons entry rest ih =>
    rw [readEach, readEach, ih, h.writes]
    simp only [h.sees]

theorem peeks_readEach (tx : Transaction) (pager : Pager) (entries : List LeafEntry) :
    Peeks pager fun ℓ => (readEach tx entries : DbM ℓ (List VersionedDocument)) := by
  induction entries with
  | nil => exact peeks_pure _
  | cons entry rest ih =>
    refine (peeks_catching (peeks_readVersionedDocument entry.value tx.writes)).bind fun found => ?_
    refine ih.bind fun docs => ?_
    cases found with
    | ok doc => exact peeks_pure _
    | error e => exact peeks_pure _

-- Two handles on the same trees, of transactions that read alike.
structure SameView (c c' : TxCollection) : Prop where
  tx : ReadsAlike c.tx c'.tx
  name : c'.name = c.name
  tree : c'.tree = c.tree
  indexes : c'.indexes = c.indexes

theorem SameView.onTree {α : Type} (h : SameView c c') (m : TreeM α) (db : Database) :
    (Proc.exec (onTree m) c' db).1 = (Proc.exec (onTree m) c db).1 ∧
      SameView (Proc.exec (onTree m) c db).2.1 (Proc.exec (onTree m) c' db).2.1 ∧
      (Proc.exec (onTree m) c' db).2.2 = (Proc.exec (onTree m) c db).2.2 := by
  unfold TxCollection.onTree
  rw [Proc.exec_zoom, Proc.exec_zoom, h.tree]
  exact ⟨rfl, ⟨⟨rfl, h.tx.mvccTxId, h.tx.snapshotId⟩, h.name, rfl, h.indexes⟩, rfl⟩

theorem SameView.index (h : SameView c c') (name : String) : c'.index name = c.index name := by
  simp only [TxCollection.index, h.indexes, h.tx.writes]

theorem SameView.onIndex {α : Type} (h : SameView c c') (name : String) (m : TreeM α) (db : Database) :
    (Proc.exec (onIndex name m) c' db).1 = (Proc.exec (onIndex name m) c db).1 := by
  unfold TxCollection.onIndex
  rw [Proc.exec_zoom, Proc.exec_zoom, h.index]

theorem SameView.onTree_bind {α β : Type} {m : TreeM α} {f : α → M β} (h : SameView c c')
    (hf : ∀ a c₁ c₁' db₁, SameView c₁ c₁' → (Proc.exec (f a) c₁' db₁).1 = (Proc.exec (f a) c₁ db₁).1)
    (db : Database) :
    (Proc.exec (do let a ← TxCollection.onTree m; f a) c' db).1 =
      (Proc.exec (do let a ← TxCollection.onTree m; f a) c db).1 := by
  obtain ⟨hresult, hview, hdb⟩ := h.onTree m db
  rw [Proc.exec_bind, Proc.exec_bind]
  generalize Proc.exec (TxCollection.onTree _) c db = run at hresult hview hdb ⊢
  generalize Proc.exec (TxCollection.onTree _) c' db = run' at hresult hview hdb ⊢
  obtain ⟨r, c₁, db₁⟩ := run
  obtain ⟨r', c₁', db₁'⟩ := run'
  obtain rfl : r' = r := hresult
  obtain rfl : db₁' = db₁ := hdb
  cases r' with
  | error e => rfl
  | ok a => exact hf a c₁ c₁' db₁' hview

theorem SameView.visible (h : SameView c c') (rounds : Nat) (db : Database) :
    (Proc.exec (visible rounds) c' db).1 = (Proc.exec (visible rounds) c db).1 := by
  unfold TxCollection.visible entries
  refine h.onTree_bind (fun found c₁ c₁' db₁ hview => ?_) db
  obtain ⟨res, -, he⟩ := peeks_readEach c₁.tx db₁.pager found
  simp only [Proc.exec_bind_ok (Proc.exec_getLocal _ _), readEach_same hview.tx]
  rw [he _ _ _ rfl, he _ _ _ rfl]

theorem findAll_result [SerdeJson] (c : TxCollection) (db : Database) (rounds : Nat) :
    (Proc.exec (findAll rounds) c db).1 =
      (Proc.exec (visible rounds) c db).1.map fun docs => docs.filterMap (·.parsed) := by
  unfold findAll
  rw [Proc.exec_bind]
  rcases Proc.exec (visible rounds) c db with ⟨r, c₁, db₁⟩
  cases r <;> rfl

theorem count_result (c : TxCollection) (db : Database) (rounds : Nat) :
    (Proc.exec (count rounds) c db).1 = (Proc.exec (visible rounds) c db).1.map List.length := by
  unfold count
  rw [Proc.exec_bind]
  rcases Proc.exec (visible rounds) c db with ⟨r, c₁, db₁⟩
  cases r <;> rfl

theorem SameView.readVisible (h : SameView c c') (id : String) (db : Database) :
    (Proc.exec (readVisible id) c' db).1 = (Proc.exec (readVisible id) c db).1 := by
  unfold TxCollection.readVisible
  refine h.onTree_bind (fun pageNum c₁ c₁' db₁ hview => ?_) db
  obtain ⟨res, -, he⟩ : Peeks db₁.pager fun ℓ => (readVersionedDocument pageNum c₁.tx.writes : DbM ℓ _) :=
    peeks_readVersionedDocument pageNum c₁.tx.writes
  simp only [Proc.exec_bind_ok (Proc.exec_getLocal _ _), hview.tx.writes, hview.name]
  rw [Proc.exec_bind, Proc.exec_bind, he _ c₁ db₁ rfl, he _ c₁' db₁ rfl]
  cases res with
  | error e => rfl
  | ok doc =>
    have hown : isOwnWrite c₁'.tx doc = isOwnWrite c₁.tx doc := by
      unfold isOwnWrite
      rw [hview.tx.mvccTxId]
    simp only [hown, hview.tx.snapshotId]
    split
    · rfl
    · rfl

theorem SameView.findById [SerdeJson] (h : SameView c c') (id : String) (db : Database) :
    (Proc.exec (findById id) c' db).1 = (Proc.exec (findById id) c db).1 := by
  rw [findById_result, findById_result, h.readVisible]

end Same

end TxCollection

end JasonDb
