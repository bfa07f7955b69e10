import JasonDb.BTree
import JasonDb.Descent

namespace JasonDb.BTree

open Lib

variable {t t' : BTree} {db db' : Database}

-- A node as the handle reads it.
def nodeSeen (t : BTree) (db : Database) (p : PageNum) : Except Error BTreeNode :=
  (db.pager.readPage (t.actualPage p)).bind (deserializeNode (t.actualPage p))

theorem exec_readNode_seen (t : BTree) (db : Database) (p : PageNum) :
    Proc.exec (readNode p) t db = (nodeSeen t db p, t, db) := by
  have hread : Proc.exec (readPage (t.actualPage p)) t db =
      (db.pager.readPage (t.actualPage p), t, db) := rfl
  unfold readNode nodeSeen
  rw [Proc.exec_bind_ok (Proc.exec_getLocal t db), Proc.exec_bind, hread]
  cases db.pager.readPage (t.actualPage p) with
  | error e => rfl
  | ok page =>
    simp only [Except.bind]
    cases deserializeNode (t.actualPage p) page <;> rfl

theorem findChild_mem {n : BTreeNode} {key : String} {c : PageNum} (h : findChild n key = .ok c) :
    c ∈ n.children := by
  unfold findChild at h
  split at h
  · cases h
  · simp only at h
    split at h
    case h_1 child hchild =>
      obtain rfl := Except.ok.inj h
      exact List.mem_of_getElem? hchild
    case h_2 => cases h

theorem descends (t : BTree) (db : Database) (key : String) :
    Descends findChild (nodeSeen t db) key t db readNode
      (fun fuel n path => findLeaf fuel n key path) :=
  ⟨fun _ _ => rfl, fun _ _ _ => rfl, exec_readNode_seen t db⟩

-- The entry of a key in a leaf.
def entryIn (key : String) (leaf : BTreeNode) : Except Error PageNum :=
  match leaf.entries.find? (·.key = key) with
  | some entry => .ok entry.value
  | none => .error .notFound

section Search

variable {S : PageNum → Prop} (key : String)

-- `search` is a walk from the root, when the pages it can come to are pages of the file.
theorem exec_search_from (h : ReadClosed (nodeSeen t db) S) (hroot : S t.getRootPage)
    (hS : ∀ p, S p → p < db.pager.numPages) :
    Proc.exec (search key) t db =
      (((walk (stepDown findChild (nodeSeen t db) key) (db.pager.numPages + 1)
        t.getRootPage).getD (.error .diverged)).bind (entryIn key), t, db) := by
  have hbound : Proc.exec (walkBound : TreeM Nat) t db = (.ok (db.pager.numPages + 1), t, db) := rfl
  obtain ⟨res, he, hres⟩ := (descends t db key).exec_root (fun _ _ => findChild_mem) h hroot hS
  have hdescend : Proc.exec (descend key) t db = (res, t, db) := by
    unfold descend
    rw [Proc.exec_bind_ok (Proc.exec_getLocal t db), Proc.exec_bind_ok hbound]
    exact he
  unfold search
  rw [Proc.exec_bind, hdescend, ← hres]
  cases res with
  | error e => rfl
  | ok found =>
    obtain ⟨leaf, path⟩ := found
    simp only [Except.map, Except.bind, entryIn]
    cases leaf.entries.find? (·.key = key) <;> rfl

-- Handles that see the same nodes find the same.
theorem search_agree (h : ReadClosed (nodeSeen t db) S) (hroot : S t.getRootPage)
    (hroot' : t'.getRootPage = t.getRootPage)
    (hsame : ∀ p, S p → nodeSeen t' db' p = nodeSeen t db p)
    (hS : ∀ p, S p → p < db.pager.numPages) (hS' : ∀ p, S p → p < db'.pager.numPages) :
    (Proc.exec (search key) t' db').1 = (Proc.exec (search key) t db).1 := by
  have h' : ReadClosed (nodeSeen t' db') S := by
    intro p hp n hn
    rw [hsame p hp] at hn
    exact h p hp n hn
  rw [exec_search_from key h hroot hS, exec_search_from key h' (hroot' ▸ hroot) hS', hroot',
    walk_agree (fun _ _ => findChild_mem) h hsame hS hS' hroot]

end Search

end JasonDb.BTree
