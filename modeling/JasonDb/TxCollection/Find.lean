import JasonDb.Transaction.Rebase
import JasonDb.TxBTree.Lookup
import JasonDb.TxCollection

namespace JasonDb

open Lib TxBTree

namespace TxCollection

variable {ℓ : Type} {db db' : Database}

-- What a transaction finds for an id in a collection it opens for that.
def find [SerdeJson] (tx : Transaction) (name id : String) : DbM ℓ Json := do
  let c ← TxCollection.new tx name
  let (doc, _) ← Proc.within c (findById id)
  pure doc

-- Whether a version is one the transaction may see.
def sees (tx : Transaction) (doc : VersionedDocument) : Bool :=
  isOwnWrite tx doc || doc.isVisible tx.snapshotId

section FindById

variable {S : PageNum → Prop} {c c' : TxCollection} {id : String}

-- Two handles that have copied nothing, on the same root, over the same pages.
structure Alike (S : PageNum → Prop) (c : TxCollection) (db : Database) (c' : TxCollection)
    (db' : Database) : Prop where
  pages : SeesSame S c.tx.writes db c'.tx.writes db'
  root : S c.tree.getCurrentRoot
  root_eq : c'.tree.getCurrentRoot = c.tree.getCurrentRoot
  plain : ∀ p, c.tree.actualPage p = p
  plain' : ∀ p, c'.tree.actualPage p = p
  bound : ∀ p, S p → p < db.pager.numPages
  bound' : ∀ p, S p → p < db'.pager.numPages
  name : c'.name = c.name

theorem Alike.nodes (h : Alike S c db c' db') (p : PageNum) (hp : S p) :
    nodeSeen c'.tree db' p = nodeSeen c.tree db p := by
  unfold nodeSeen
  rw [h.plain, h.plain']
  have := h.pages.same p hp
  exact congrArg (fun r => Except.bind r (deserializeNode p)) this

theorem Alike.closed (h : Alike S c db c' db') : ReadClosed (nodeSeen c.tree db) S := by
  intro p hp n hn _ child hc
  obtain ⟨page, hpage, hchildren, _⟩ := nodeSeen_links h.plain hn
  exact h.pages.closed p hp page hpage child (hchildren child hc)

theorem Alike.search (h : Alike S c db c' db') (id : String) :
    ∃ r, Proc.exec (TxBTree.search id) c.tree db = (r, c.tree, db) ∧
      Proc.exec (TxBTree.search id) c'.tree db' = (r, c'.tree, db') ∧ ∀ p, r = .ok p → S p := by
  have hclosed' : ReadClosed (nodeSeen c'.tree db') S := by
    intro p hp n hn
    rw [h.nodes p hp] at hn
    exact h.closed p hp n hn
  have he := exec_search_from id h.closed h.root h.bound
  have he' := exec_search_from id hclosed' (h.root_eq ▸ h.root) h.bound'
  have hsame := search_agree id h.closed h.root h.root_eq h.nodes h.bound h.bound'
  rw [he, he'] at hsame
  simp only at hsame
  refine ⟨_, he, he'.trans (by rw [hsame]), fun p hp => ?_⟩
  refine searchFrom_mem h.closed ?_ h.root hp
  intro q hq n hn entry hentry
  obtain ⟨page, hpage, _, hentries⟩ := nodeSeen_links h.plain hn
  exact h.pages.closed q hq page hpage entry.value (hentries entry hentry)

theorem exec_onTree_same {α : Type} {m : TreeM α} {r : Except Error α}
    (h : Proc.exec m c.tree db = (r, c.tree, db)) :
    Proc.exec (onTree m) c db = (r, { c with btree := c.tree }, db) := by
  unfold onTree
  rw [Proc.exec_zoom, h]
  rfl

theorem exec_readVisible {c₁ : TxCollection} {p : PageNum} {r : Except Error VersionedDocument}
    (hs : Proc.exec (onTree (TxBTree.search id)) c db = (.ok p, c₁, db))
    (hd : Proc.exec (readVersionedDocument p c₁.tx.writes) c₁ db = (r, c₁, db)) :
    Proc.exec (readVisible id) c db =
      (r.bind fun doc => if sees c₁.tx doc then .ok (p, doc)
        else .error (.documentNotFound c₁.name id), c₁, db) := by
  unfold readVisible
  rw [Proc.exec_bind_ok hs, Proc.exec_bind_ok (Proc.exec_getLocal c₁ db), Proc.exec_bind, hd]
  cases r with
  | error e => rfl
  | ok doc =>
    simp only [Except.bind, sees]
    by_cases hown : isOwnWrite c₁.tx doc = true <;>
      by_cases hvis : doc.isVisible c₁.tx.snapshotId = true <;>
        simp [hown, hvis, Proc.exec_pure, Proc.exec_fail]

theorem findById_result [SerdeJson] (c : TxCollection) (db : Database) (id : String) :
    (Proc.exec (findById id) c db).1 =
      (Proc.exec (readVisible id) c db).1.bind fun found => found.2.parse := by
  unfold findById
  rw [Proc.exec_bind]
  rcases Proc.exec (readVisible id) c db with ⟨r, c₁, db₁⟩
  cases r with
  | error e => rfl
  | ok found =>
    obtain ⟨p, doc⟩ := found
    simp only [Except.bind, Proc.exec_bind_ok (Proc.exec_getLocal c₁ db₁)]
    split
    · cases doc.parse <;> rfl
    · simp only [modifyTx, Proc.exec_bind_ok (Proc.exec_modifyLocal _ _ _)]
      cases doc.parse <;> rfl

-- Both find the same document, if they may see the same versions.
theorem findById_agree [SerdeJson] (h : Alike S c db c' db')
    (hsees : ∀ p d, S p → pageSeen c.tx.writes db p = .ok (.doc d) →
      ∀ doc : VersionedDocument, doc.xmin = d.xmin → doc.xmax = d.xmax →
        sees c'.tx doc = sees c.tx doc) (id : String) :
    (Proc.exec (findById id) c' db').1 = (Proc.exec (findById id) c db).1 := by
  obtain ⟨r, he, he', hmem⟩ := h.search id
  have hs := exec_onTree_same he
  have hs' := exec_onTree_same he'
  rw [findById_result, findById_result]
  cases r with
  | error e =>
    unfold readVisible
    rw [Proc.exec_bind_error hs, Proc.exec_bind_error hs']
  | ok p =>
    obtain ⟨r', hd, hd', hdoc⟩ := readVersionedDocument_agree h.pages (hmem p rfl)
      { c with btree := c.tree } { c' with btree := c'.tree }
    rw [exec_readVisible hs hd, exec_readVisible hs' hd']
    cases r' with
    | error e => rfl
    | ok doc =>
      obtain ⟨d, hseen, hxmin, hxmax⟩ := hdoc doc rfl
      have := hsees p d (hmem p rfl) hseen doc hxmin hxmax
      simp only [Except.bind, this, h.name]

end FindById

end TxCollection

end JasonDb
