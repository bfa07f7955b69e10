import JasonDb.Database.Placed
import JasonDb.DocumentStore
import JasonDb.DocumentStore.Pages

namespace JasonDb

open Lib SearchTree

-- The tree in the pages of a heap, with the shape of a B-tree.
structure TreeIn (T : PageTree) (h : Heap PageNum Page) : Prop where
  stored : ∀ c ∈ T.cells,
    (h.content c.1).bind (fun page => (deserializeNode c.1 page).toOption.map (BTreeNode.shape id)) = some c.2
  nodup : T.ptrs.Nodup
  ordered : All (LeafSorted LeafEntry.key) ⊥ ⊤ T
  small : ∀ c ∈ T.cells, c.2.size ≤ BTREE_ORDER
  level : ∃ n, Level n T
  linked : Linked 0 T.leaves

theorem on_treeIn (T : PageTree) : Heap.On {p | p ∈ T.ptrs} (TreeIn T) := by
  intro h h' hu hk hT
  refine { hT with stored := fun c hc => ?_ }
  have hmem : c.1 ∈ T.ptrs := List.mem_map_of_mem hc
  obtain ⟨page, hpage, hshape⟩ := Option.bind_eq_some_iff.mp (hT.stored c hc)
  exact Option.bind_eq_some_iff.mpr ⟨page, hk.content c.1 hmem (hu c.1 hmem) page hpage, hshape⟩

namespace BTree

variable {db : Database} {T : PageTree}

theorem store_heap (db : Database) (p : PageNum) : store db p =
    (db.heap.content p).bind fun page => (deserializeNode p page).toOption.map (BTreeNode.shape id) := by
  unfold store Database.nodeAt
  rw [Option.map_bind]
  rfl

theorem Represents.treeIn (h : Represents db T) : TreeIn T db.heap where
  stored c hc := by
    rw [← store_heap]
    exact h.holds.stores.stored c (by simpa using hc)
  nodup := by simpa using h.holds.stores.nodup_ptrs
  ordered := h.ordered
  small := h.small
  level := h.level
  linked := h.linked

theorem represents_of_treeIn (h : TreeIn T db.heap) (hwf : db.pager.WF)
    (hlive : ∀ p ∈ T.ptrs, db.pager.Allocated p) : Represents db T where
  holds := by
    refine ⟨hwf, ⟨fun c hc => ?_, ?_⟩, fun p hp => hlive p (by simpa using hp)⟩
    · rw [store_heap]
      exact h.stored c (by simpa using hc)
    · simpa [ptrs] using h.nodup
  ordered := h.ordered
  small := h.small
  level := h.level
  linked := h.linked

end BTree

-- Where the collections and their documents are.
structure DbLayout where
  tree : String → Option PageTree
  doc : String → String → Option Placement

inductive Owner where
  | metadata
  | tree (name : String)
  | doc (name id : String)
deriving DecidableEq

namespace DbLayout

variable (L : DbLayout)

def root (name : String) : PageNum := ((L.tree name).map ptr).getD 0

def region (m : PageNum) : Owner → Set PageNum
  | .metadata => {m}
  | .tree name => (L.tree name).elim ∅ fun T => {p | p ∈ T.ptrs}
  | .doc name id => (L.doc name id).elim ∅ fun d => {p | p ∈ d.pages}

def holds : Owner → Heap PageNum Page → Prop
  | .metadata => fun _ => True
  | .tree name => (L.tree name).elim (fun _ => True) TreeIn
  | .doc name id => (L.doc name id).elim (fun _ => True) fun d => d.Stored id

theorem on_holds (m : PageNum) (owner : Owner) : Heap.On (L.region m owner) (L.holds owner) := by
  cases owner with
  | metadata => exact fun _ _ _ _ _ => trivial
  | tree name =>
    simp only [region, holds]
    cases L.tree name with
    | none => exact fun _ _ _ _ _ => trivial
    | some T => exact on_treeIn T
  | doc name id =>
    simp only [region, holds]
    cases L.doc name id with
    | none => exact fun _ _ _ _ _ => trivial
    | some d => exact d.on_stored id

def setTree (name : String) (T : PageTree) : DbLayout :=
  { L with tree := Function.update L.tree name (some T) }

def setDoc (name id : String) (d : Option Placement) : DbLayout :=
  { L with doc := Function.update L.doc name (Function.update (L.doc name) id d) }

@[simp] theorem setTree_tree_self (name : String) (T : PageTree) : (L.setTree name T).tree name = some T := by
  simp [setTree]

@[simp] theorem setTree_doc (name : String) (T : PageTree) : (L.setTree name T).doc = L.doc := rfl

@[simp] theorem setTree_setDoc (name : String) (T : PageTree) (name' id : String) (d : Option Placement) :
    (L.setTree name T).setDoc name' id d = (L.setDoc name' id d).setTree name T := rfl

@[simp] theorem setDoc_tree (name id : String) (d : Option Placement) : (L.setDoc name id d).tree = L.tree := rfl

@[simp] theorem setDoc_doc_self (name id : String) (d : Option Placement) :
    (L.setDoc name id d).doc name id = d := by
  simp [setDoc]

theorem setTree_tree_of_ne {name other : String} (T : PageTree) (h : other ≠ name) :
    (L.setTree name T).tree other = L.tree other := Function.update_of_ne h _ _

@[simp] theorem setTree_setTree (name : String) (T T' : PageTree) :
    (L.setTree name T).setTree name T' = L.setTree name T' := by
  simp [setTree]

theorem setTree_self {name : String} {T : PageTree} (h : L.tree name = some T) : L.setTree name T = L := by
  unfold setTree
  rw [← h, Function.update_eq_self]

theorem setDoc_doc (name id : String) (d : Option Placement) (name' id' : String) :
    (L.setDoc name id d).doc name' id' = if name' = name ∧ id' = id then d else L.doc name' id' := by
  unfold setDoc
  by_cases hname : name' = name
  · subst hname
    by_cases hid : id' = id <;> simp [hid]
  · simp [hname]

end DbLayout

-- The pages of the database are laid out as `L` has it.
structure LaidOut (db : Database) (L : DbLayout) : Prop where
  wf : db.pager.WF
  parts : Heap.Parts (L.region db.pager.metadataPage) L.holds db.heap

namespace LaidOut

variable {db db' : Database} {L : DbLayout} {name id : String} {T T' : PageTree} {d : Placement}

theorem represents (h : LaidOut db L) (hT : L.tree name = some T) : BTree.Represents db T := by
  have hholds := h.parts.holds (.tree name)
  have hused := h.parts.used (.tree name)
  simp only [DbLayout.holds, DbLayout.region, hT, Option.elim] at hholds hused
  exact BTree.represents_of_treeIn hholds h.wf hused

theorem stored (h : LaidOut db L) (hd : L.doc name id = some d) : d.Stored id db.heap := by
  have hholds := h.parts.holds (.doc name id)
  simpa only [DbLayout.holds, hd, Option.elim] using hholds

theorem docs_live (h : LaidOut db L) (hd : L.doc name id = some d) : ∀ p ∈ d.pages, db.pager.Allocated p := by
  have hused := h.parts.used (.doc name id)
  simp only [DbLayout.region, hd, Option.elim] at hused
  exact hused

theorem editTree {S : Set PageNum} (h : LaidOut db L) (he : PageEdits db S db' {p | p ∈ T'.ptrs})
    (hS : S ⊆ L.region db.pager.metadataPage (.tree name)) (hT' : BTree.Represents db' T') :
    LaidOut db' (L.setTree name T') := by
  refine ⟨he.wf, ?_⟩
  rw [he.frame.2.1]
  refine h.parts.edit (L.on_holds _) (i := .tree name) ?_ ?_ ?_ ?_
  · simpa [DbLayout.region] using he.heap.widen hS
  · simpa [DbLayout.holds] using hT'.treeIn
  · rintro (_ | other | ⟨_, _⟩) hne
    · rfl
    · have hother : other ≠ name := fun heq => hne (heq ▸ rfl)
      simp only [DbLayout.region, L.setTree_tree_of_ne T' hother]
    · rfl
  · rintro (_ | other | ⟨_, _⟩) hne
    · rfl
    · have hother : other ≠ name := fun heq => hne (heq ▸ rfl)
      simp only [DbLayout.holds, L.setTree_tree_of_ne T' hother]
    · rfl

theorem editDoc {S : Set PageNum} {placed : Option Placement} (h : LaidOut db L)
    (he : PageEdits db S db' (placed.elim ∅ fun d => {p | p ∈ d.pages}))
    (hS : S ⊆ L.region db.pager.metadataPage (.doc name id))
    (hd : ∀ d, placed = some d → d.Stored id db'.heap) :
    LaidOut db' (L.setDoc name id placed) := by
  refine ⟨he.wf, ?_⟩
  rw [he.frame.2.1]
  refine h.parts.edit (L.on_holds _) (i := .doc name id) ?_ ?_ ?_ ?_
  · simpa [DbLayout.region] using he.heap.widen hS
  · cases placed with
    | none => simp [DbLayout.holds]
    | some d => simpa [DbLayout.holds] using hd d rfl
  · rintro (_ | _ | ⟨name', id'⟩) hne
    · rfl
    · rfl
    · have hother : ¬ (name' = name ∧ id' = id) := by
        rintro ⟨rfl, rfl⟩
        exact hne rfl
      simp only [DbLayout.region, L.setDoc_doc, if_neg hother]
  · rintro (_ | _ | ⟨name', id'⟩) hne
    · rfl
    · rfl
    · have hother : ¬ (name' = name ∧ id' = id) := by
        rintro ⟨rfl, rfl⟩
        exact hne rfl
      simp only [DbLayout.holds, L.setDoc_doc, if_neg hother]

-- A change to the page of the metadata, and changes that no reader sees.
theorem editMetadata (h : LaidOut db L) (hwf : db'.pager.WF)
    (hpage : db'.pager.metadataPage = db.pager.metadataPage)
    (he : Heap.Edits db.heap {db.pager.metadataPage} db'.heap {db.pager.metadataPage}) : LaidOut db' L := by
  refine ⟨hwf, ?_⟩
  rw [hpage]
  exact h.parts.edit (L.on_holds _) (i := .metadata) he trivial (fun _ _ => rfl) fun _ _ => rfl

end LaidOut

end JasonDb
