import JasonDb.TxBTree.Represents

namespace JasonDb

open Lib SearchTree

-- The child pointers of a node as they are in its page.
def BTreeNode.links (n : BTreeNode) : List PageNum :=
  match n.nodeType with
  | .leafNode => []
  | .internalNode => n.children

theorem BTreeNode.children_shape (f : PageNum → PageNum) (n : BTreeNode) :
    (n.shape f).children = n.links.map f := by
  unfold shape links
  cases n.nodeType <;> rfl

namespace TxBTree

variable {t t' : TxBTree} {db db' : Database} {F G : List PageTree} {S : Set PageNum}

-- Of the pointers `links`, only those in `S` are to a page that was copied since.
def StaleIn (t : TxBTree) (S : Set PageNum) (links : List PageNum) : Prop :=
  ∀ c ∈ links, t.actualPage c ≠ c → c ∈ S

-- The trees of `F` as they are in the pages have no stale child pointers but those in `S`.
def Settled (t : TxBTree) (db : Database) (F : List PageTree) (S : Set PageNum) : Prop :=
  ∀ x ∈ F.flatMap ptrs, ∀ m, db.nodeAt x = some m → StaleIn t S m.links

theorem StaleIn.mono {S' : Set PageNum} {links : List PageNum} (h : StaleIn t S links)
    (hS : S ⊆ S') : StaleIn t S' links := fun c hc hne => hS (h c hc hne)

theorem Settled.mono {S' : Set PageNum} (h : Settled t db F S) (hS : S ⊆ S') :
    Settled t db F S' := fun x hx m hm => (h x hx m hm).mono hS

-- A write makes the pointers to the written page stale, if it had to be copied.
theorem StaleIn.wrote {n : BTreeNode} {q : PageNum} {links : List PageNum}
    (h : StaleIn t S links) (hw : Wrote t db n q t' db')
    (hS : n.pageNum ∈ t.newPages ∨ n.pageNum ∈ S) : StaleIn t' S links := by
  intro c hc hne
  by_cases hact : t.actualPage c = c
  · rw [hw.act, Function.comp_apply, hact] at hne
    obtain rfl : c = n.pageNum := by
      by_contra hcn
      exact hne (relocate_of_ne hcn)
    rcases hS with hS | hS
    · rcases hw.target with ⟨_, ht⟩ | ⟨ht, _⟩
      · rw [relocate_self] at hne
        exact absurd ht hne
      · exact absurd hS ht
    · exact hS
  · exact h c hc hact

theorem Settled.wrote {n : BTreeNode} {q : PageNum} (hw : Wrote t db n q t' db')
    (hsub : ∀ y ∈ G.flatMap ptrs, y = n.pageNum ∨ y ∈ F.flatMap ptrs)
    (h : ∀ x ∈ F.flatMap ptrs, x ≠ n.pageNum → ∀ m, db.nodeAt x = some m → StaleIn t S m.links)
    (hn : StaleIn t S n.links) (hS : n.pageNum ∈ t.newPages ∨ n.pageNum ∈ S) :
    Settled t' db' (G.map (mapPtr (relocate n.pageNum q))) S := by
  intro x hx m hm
  rw [List.flatMap_map] at hx
  simp only [ptrs_mapPtr, ← List.map_flatMap, List.mem_map] at hx
  obtain ⟨y, hy, rfl⟩ := hx
  by_cases hyn : y = n.pageNum
  · subst hyn
    rw [relocate_self, hw.node, Option.some.injEq] at hm
    subst hm
    exact hn.wrote hw hS
  · rw [relocate_of_ne hyn] at hm
    have hyF : y ∈ F.flatMap ptrs := (hsub y hy).resolve_left hyn
    by_cases hyq : y = q
    · subst hyq
      rw [hw.node, Option.some.injEq] at hm
      subst hm
      exact hn.wrote hw hS
    · rw [hw.nodeAt_of_ne hyq] at hm
      exact (h y hyF hyn m hm).wrote hw hS

theorem Holds.cell_of_nodeAt (h : Holds t db F) {x : PageNum} {m : BTreeNode}
    (hx : x ∈ F.flatMap ptrs) (hm : db.nodeAt x = some m) :
    (x, m.shape t.actualPage) ∈ F.flatMap cells := by
  rw [← map_fst_flatMap_cells] at hx
  obtain ⟨⟨y, s⟩, hc, rfl⟩ := List.mem_map.mp hx
  obtain ⟨m', hm', _, hs⟩ := h.nodeAt hc
  obtain rfl : m = m' := Option.some.inj (hm.symm.trans hm')
  rwa [hs]

-- A pointer is in one node of the trees at most.
theorem Holds.link_unique (h : Holds t db F) {x y c : PageNum} {s : PageShape} {m : BTreeNode}
    (hx : (x, s) ∈ F.flatMap cells) (hc : t.actualPage c ∈ s.children) (hy : y ∈ F.flatMap ptrs)
    (hm : db.nodeAt y = some m) (hcm : c ∈ m.links) : y = x := by
  refine h.stores.parent_unique (h.cell_of_nodeAt hy hm) hx ?_ hc
  rw [BTreeNode.children_shape]
  exact List.mem_map_of_mem hcm

-- No node of the trees points to a root.
theorem Holds.root_not_link (h : Holds t db F) {T : PageTree} (hT : T ∈ F) {y c : PageNum}
    {m : BTreeNode} (hc : t.actualPage c = T.ptr) (hy : y ∈ F.flatMap ptrs)
    (hm : db.nodeAt y = some m) : c ∉ m.links := by
  intro hcm
  refine h.stores.root_not_child hT (h.cell_of_nodeAt hy hm) ?_
  rw [BTreeNode.children_shape, ← hc]
  exact List.mem_map_of_mem hcm

end TxBTree

end JasonDb
