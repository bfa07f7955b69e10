import JasonDb.Descent
import JasonDb.Document
import JasonDb.TxBTree.Moves

namespace JasonDb

open Lib

-- A page as a transaction with these writes reads it.
def pageSeen (writes : HashMap PageNum Page) (db : Database) (p : PageNum) : Except Error Page :=
  match writes.get? p with
  | some page => .ok page
  | none => db.pager.readPage p

-- Writes that are in the pager too are what a reader sees anyway.
theorem pageSeen_coherent {writes : HashMap PageNum Page} {db : Database}
    (h : ∀ p page, writes.get? p = some page → db.pager.view p = some page) (p : PageNum) :
    pageSeen writes db p = db.pager.readPage p := by
  unfold pageSeen
  cases hp : writes.get? p with
  | none => rfl
  | some page => simp [Pager.readPage, h p page hp]

section Documents

variable {ℓ : Type} {writes writes' : HashMap PageNum Page} {db db' : Database}

theorem exec_readThrough (writes : HashMap PageNum Page) (p : PageNum) (l : ℓ) (db : Database) :
    Proc.exec (readThrough writes p) l db = (pageSeen writes db p, l, db) := by
  unfold readThrough pageSeen
  cases writes.get? p with
  | some page => rfl
  | none => rfl

-- Two readers that see the same pages, on a set of pages that the links do not leave.
structure SeesSame (S : PageNum → Prop) (writes : HashMap PageNum Page) (db : Database)
    (writes' : HashMap PageNum Page) (db' : Database) : Prop where
  closed : ∀ p, S p → ∀ page, pageSeen writes db p = .ok page → ∀ q ∈ page.links, S q
  same : ∀ p, S p → pageSeen writes' db' p = pageSeen writes db p

variable {S : PageNum → Prop}

theorem readOverflow_agree (h : SeesSame S writes db writes' db') (data : Json)
    (start more index : Nat) {page : PageNum} (hp : page = 0 ∨ S page) (visited : List PageNum)
    (l l' : ℓ) :
    ∃ r, Proc.exec (readOverflow writes data start more index page visited) l db = (r, l, db) ∧
      Proc.exec (readOverflow writes' data start more index page visited) l' db' = (r, l', db') := by
  induction more generalizing index page visited with
  | zero => exact ⟨_, rfl, rfl⟩
  | succ more ih =>
    unfold readOverflow
    split
    · exact ⟨_, rfl, rfl⟩
    · split
      · exact ⟨_, rfl, rfl⟩
      · split
        · exact ⟨_, rfl, rfl⟩
        · have hS := hp.resolve_left ‹_›
          have hread := exec_readThrough writes page l db
          have hread' := exec_readThrough writes' page l' db'
          rw [h.same page hS] at hread'
          cases hseen : pageSeen writes db page with
          | error e =>
            rw [hseen] at hread hread'
            exact ⟨_, Proc.exec_bind_error hread, Proc.exec_bind_error hread'⟩
          | ok content =>
            rw [hseen] at hread hread'
            rw [Proc.exec_bind_ok hread, Proc.exec_bind_ok hread']
            cases content with
            | overflow part =>
              have hnext : part.next = 0 ∨ S part.next := by
                by_cases hz : part.next = 0
                · exact Or.inl hz
                · exact Or.inr (h.closed page hS _ hseen part.next (by simp [Page.links, hz]))
              obtain ⟨r, he, he'⟩ := ih (index + 1) hnext (page :: visited)
              cases r with
              | error e => exact ⟨_, Proc.exec_bind_error he, Proc.exec_bind_error he'⟩
              | ok b => exact ⟨_, (Proc.exec_bind_ok he).trans rfl, (Proc.exec_bind_ok he').trans rfl⟩
            | zero => exact ⟨_, rfl, rfl⟩
            | node n => exact ⟨_, rfl, rfl⟩
            | doc d => exact ⟨_, rfl, rfl⟩
            | metadata m => exact ⟨_, rfl, rfl⟩
            | header hdr => exact ⟨_, rfl, rfl⟩
            | postings entries => exact ⟨_, rfl, rfl⟩

theorem readVersionedDocument_agree (h : SeesSame S writes db writes' db') {p : PageNum} (hp : S p)
    (l l' : ℓ) :
    ∃ r, Proc.exec (readVersionedDocument p writes) l db = (r, l, db) ∧
      Proc.exec (readVersionedDocument p writes') l' db' = (r, l', db') ∧
      ∀ doc, r = .ok doc → ∃ d, pageSeen writes db p = .ok (.doc d) ∧ doc.xmin = d.xmin ∧
        doc.xmax = d.xmax := by
  unfold readVersionedDocument
  have hread := exec_readThrough writes p l db
  have hread' := exec_readThrough writes' p l' db'
  rw [h.same p hp] at hread'
  cases hseen : pageSeen writes db p with
  | error e =>
    rw [hseen] at hread hread'
    exact ⟨_, Proc.exec_bind_error hread, Proc.exec_bind_error hread', by simp⟩
  | ok content =>
    rw [hseen] at hread hread'
    rw [Proc.exec_bind_ok hread, Proc.exec_bind_ok hread']
    cases content with
    | doc d =>
      simp only
      split
      · exact ⟨_, rfl, rfl, by simp⟩
      · have hnext : d.overflow = 0 ∨ S d.overflow := by
          by_cases hz : d.overflow = 0
          · exact Or.inl hz
          · exact Or.inr (h.closed p hp _ hseen d.overflow (by simp [Page.links, hz]))
        obtain ⟨r, he, he'⟩ := readOverflow_agree h d.data (firstPageCapacity d.id)
          (overflowCount d.id d.data) 0 hnext [] l l'
        cases r with
        | error e => exact ⟨_, Proc.exec_bind_error he, Proc.exec_bind_error he', by simp⟩
        | ok b =>
          refine ⟨_, (Proc.exec_bind_ok he).trans rfl, (Proc.exec_bind_ok he').trans rfl, ?_⟩
          intro doc hdoc
          obtain rfl := Except.ok.inj hdoc
          exact ⟨d, rfl, rfl, rfl⟩
    | zero => exact ⟨_, rfl, rfl, by simp⟩
    | node n => exact ⟨_, rfl, rfl, by simp⟩
    | overflow o => exact ⟨_, rfl, rfl, by simp⟩
    | metadata m => exact ⟨_, rfl, rfl, by simp⟩
    | header hdr => exact ⟨_, rfl, rfl, by simp⟩
    | postings entries => exact ⟨_, rfl, rfl, by simp⟩

end Documents

namespace TxBTree

variable {t t' : TxBTree} {db db' : Database}

-- A node as a handle reads it.
def nodeSeen (t : TxBTree) (db : Database) (p : PageNum) : Except Error BTreeNode :=
  (pageSeen t.txWrites db (t.actualPage p)).bind (deserializeNode (t.actualPage p))

theorem exec_readNode_seen (t : TxBTree) (db : Database) (p : PageNum) :
    Proc.exec (readNode p) t db = (nodeSeen t db p, t, db) := by
  unfold readNode nodeSeen pageSeen
  rw [Proc.exec_bind_ok (Proc.exec_getLocal t db)]
  simp only
  cases t.txWrites.get? (t.actualPage p) with
  | some page =>
    simp only [Except.bind]
    cases deserializeNode (t.actualPage p) page <;> rfl
  | none =>
    have hread : Proc.exec (readPage (t.actualPage p)) t db =
        (db.pager.readPage (t.actualPage p), t, db) := rfl
    rw [Proc.exec_bind, hread]
    cases db.pager.readPage (t.actualPage p) with
    | error e => rfl
    | ok page =>
      simp only [Except.bind]
      cases deserializeNode (t.actualPage p) page <;> rfl

theorem descends (t : TxBTree) (db : Database) (key : String) :
    Descends findChild (nodeSeen t db) key t db readNode
      (fun fuel n path => findLeaf fuel n key path) :=
  ⟨fun _ _ => rfl, fun _ _ _ => rfl, exec_readNode_seen t db⟩

-- The entry of a key in a leaf.
def entryIn (key : String) (leaf : BTreeNode) : Except Error PageNum :=
  match leaf.entries.find? (·.key = key) with
  | some entry => .ok entry.value
  | none => .error (notFound key)

def searchFrom (read : PageNum → Except Error BTreeNode) (fuel : Nat) (root : PageNum) (key : String) :
    Except Error PageNum :=
  match walk (stepDown findChild read key) fuel root with
  | some r => r.bind (entryIn key)
  | none => .error .diverged

section Search

variable {S : PageNum → Prop} (key : String)

-- `search` is a walk from the root, when the pages it can come to are pages of the file.
theorem exec_search_from (h : ReadClosed (nodeSeen t db) S) (hroot : S t.getCurrentRoot)
    (hS : ∀ p, S p → p < db.pager.numPages) :
    Proc.exec (search key) t db =
      (searchFrom (nodeSeen t db) (db.pager.numPages + 1) t.getCurrentRoot key, t, db) := by
  have hbound : Proc.exec (walkBound : TreeM Nat) t db = (.ok (db.pager.numPages + 1), t, db) := rfl
  obtain ⟨res, he, hres⟩ := (descends t db key).exec_root (fun _ _ => findChild_mem) h hroot hS
  unfold search
  rw [Proc.exec_bind_ok (Proc.exec_getLocal t db), Proc.exec_bind_ok hbound, ← Proc.exec_bind_assoc,
    Proc.exec_bind, he, searchFrom]
  cases hw : walk (stepDown findChild (nodeSeen t db) key) (db.pager.numPages + 1)
      t.getCurrentRoot with
  | none =>
    rw [hw] at hres
    cases res with
    | error e => simp_all [Except.map]
    | ok found => simp [Except.map] at hres
  | some r =>
    rw [hw] at hres
    obtain rfl : res.map Prod.fst = r := hres
    cases res with
    | error e => rfl
    | ok found =>
      obtain ⟨leaf, path⟩ := found
      simp only [Except.map, Except.bind, entryIn]
      cases leaf.entries.find? (·.key = key) <;> rfl

-- Handles that see the same nodes find the same.
theorem search_agree (h : ReadClosed (nodeSeen t db) S) (hroot : S t.getCurrentRoot)
    (hroot' : t'.getCurrentRoot = t.getCurrentRoot)
    (hsame : ∀ p, S p → nodeSeen t' db' p = nodeSeen t db p)
    (hS : ∀ p, S p → p < db.pager.numPages) (hS' : ∀ p, S p → p < db'.pager.numPages) :
    (Proc.exec (search key) t' db').1 = (Proc.exec (search key) t db).1 := by
  have h' : ReadClosed (nodeSeen t' db') S := by
    intro p hp n hn
    rw [hsame p hp] at hn
    exact h p hp n hn
  rw [exec_search_from key h hroot hS, exec_search_from key h' (hroot' ▸ hroot) hS', hroot']
  simp only [searchFrom, walk_agree (fun _ _ => findChild_mem) h hsame hS hS' hroot]

variable {key}

-- The page that is found is one the leaf points to.
theorem searchFrom_mem {read : PageNum → Except Error BTreeNode} (h : ReadClosed read S)
    (hentries : ∀ p, S p → ∀ n, read p = .ok n → ∀ entry ∈ n.entries, S entry.value)
    {fuel : Nat} {root q : PageNum} (hroot : S root) (hq : searchFrom read fuel root key = .ok q) :
    S q := by
  unfold searchFrom at hq
  induction fuel generalizing root with
  | zero => simp [walk] at hq
  | succ fuel ih =>
    unfold walk at hq
    cases hn : stepDown findChild read key root with
    | inr c =>
      rw [hn] at hq
      exact ih (stepDown_closed (fun _ _ => findChild_mem) h hroot hn) hq
    | inl r =>
      simp only [hn] at hq
      unfold stepDown at hn
      cases hread : read root with
      | error e =>
        rw [hread] at hn
        obtain rfl := Sum.inl.inj hn
        cases hq
      | ok n =>
        simp only [hread] at hn
        split at hn
        · obtain rfl := Sum.inl.inj hn
          simp only [Except.bind, entryIn] at hq
          cases hfind : n.entries.find? (·.key = key) with
          | none => simp [hfind] at hq
          | some entry =>
            simp only [hfind, Except.ok.injEq] at hq
            exact hq ▸ hentries root hroot n hread entry (List.mem_of_find?_eq_some hfind)
        · cases hc : findChild n key with
          | error e =>
            rw [hc] at hn
            obtain rfl := Sum.inl.inj hn
            cases hq
          | ok c =>
            rw [hc] at hn
            cases hn

end Search

-- A node that is read points where its page points.
theorem nodeSeen_links (hact : ∀ p, t.actualPage p = p) {p : PageNum} {n : BTreeNode}
    (h : nodeSeen t db p = .ok n) :
    ∃ page, pageSeen t.txWrites db p = .ok page ∧
      (∀ c ∈ n.children, c ∈ page.links) ∧ ∀ entry ∈ n.entries, entry.value ∈ page.links := by
  unfold nodeSeen at h
  rw [hact] at h
  cases hseen : pageSeen t.txWrites db p with
  | error e => simp [hseen, Except.bind] at h
  | ok page =>
    refine ⟨page, rfl, ?_⟩
    rw [hseen] at h
    simp only [Except.bind] at h
    cases page with
    | node m =>
      obtain rfl := Except.ok.inj h
      refine ⟨fun c hc => List.mem_append_left _ hc, fun entry he => ?_⟩
      exact List.mem_append_right _ (List.mem_map_of_mem he)
    | zero =>
      obtain rfl := Except.ok.inj h
      simp [BTreeNode.newInternal]
    | doc d => simp [deserializeNode] at h
    | overflow o => simp [deserializeNode] at h
    | metadata m => simp [deserializeNode] at h
    | header hdr => simp [deserializeNode] at h
    | postings entries => simp [deserializeNode] at h

end TxBTree

end JasonDb
