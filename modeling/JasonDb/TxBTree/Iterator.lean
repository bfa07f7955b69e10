import JasonDb.Lib.SearchTree.Leaves
import JasonDb.TxBTree.Lookup
import JasonDb.TxBTree.Links
import JasonDb.TxBTree.WellFormed

namespace JasonDb.TxBTree

open Lib

-- `TxBTreeIterator`
structure Cursor where
  currentLeaf : Option BTreeNode
  index : Nat
  started : Bool

def firstLeaf : Nat → BTreeNode → TreeM BTreeNode
  | 0, _ => Proc.fail .diverged
  | fuel + 1, node => match node.nodeType with
    | .leafNode => pure node
    | .internalNode => match node.children with
      | [] => Proc.fail (.other "internal node has no children")
      | first :: _ => do
        let child ← readNode first
        firstLeaf fuel child

def iterator : TreeM Cursor := do
  let t ← Proc.getLocal
  let fuel ← walkBound
  let root ← readNode t.getCurrentRoot
  let leaf ← firstLeaf fuel root
  pure ⟨some leaf, 0, false⟩

-- The leaf after `current` by its last key, when the link is of no use.
def nextLeafByKey (fuel : Nat) (root current : BTreeNode) : TreeM (Option BTreeNode) :=
  match current.entries.getLast? with
  | none => pure none
  | some last => do
    match ← findNextLeafByKey fuel root last.key with
    | none => pure none
    | some page => tryChild page fun leaf => pure (some leaf)

-- The leaf after `current`: the one its link leads to if that is in the tree. A root that cannot
-- be read ends the iteration.
def nextLeaf (current : BTreeNode) : TreeM (Option BTreeNode) := do
  let t ← Proc.getLocal
  let fuel ← walkBound
  let linked ← if current.nextLeaf ≠ 0 then tryChild current.nextLeaf fun leaf => pure (some leaf)
    else pure none
  tryChild t.getCurrentRoot fun root =>
    match linked with
    | some leaf => do
      match ← isPageInTree fuel root leaf.pageNum with
      | some () => pure (some leaf)
      | none => nextLeafByKey fuel root current
    | none => nextLeafByKey fuel root current

namespace Cursor

def next (it : Cursor) : TreeM (Bool × Cursor) :=
  match it.currentLeaf with
  | none => pure (false, it)
  | some current =>
    if !it.started then pure (!current.entries.isEmpty, { it with started := true })
    else if it.index + 1 < current.entries.length then
      pure (true, { it with index := it.index + 1 })
    else do
      match ← nextLeaf current with
      | none => pure (false, { it with index := it.index + 1 })
      | some leaf => pure (!leaf.entries.isEmpty, ⟨some leaf, 0, true⟩)

def entry (it : Cursor) : LeafEntry :=
  (it.currentLeaf.bind fun leaf => leaf.entries[it.index]?).getD ⟨"", 0⟩

-- `while iter.next() { .. iter.entry() .. }`, with a bound on the number of rounds.
def collect : Nat → Cursor → TreeM (List LeafEntry)
  | 0, _ => Proc.fail .diverged
  | fuel + 1, it => do
    let (more, it) ← it.next
    if more then do
      let rest ← collect fuel it
      pure (it.entry :: rest)
    else pure []

end Cursor

section Tree

open SearchTree

variable {t : TxBTree} {db : Database} {T : PageTree}

-- The node in a page, as this handle sees the page.
def pageNode (t : TxBTree) (db : Database) (p : PageNum) : Except Error BTreeNode :=
  (pageSeen t.txWrites db p).bind (deserializeNode p)

-- The handle reads the tree `T`: each page of it has the node it is drawn with, and none of them
-- has been copied to another page.
structure Shows (t : TxBTree) (db : Database) (T : PageTree) : Prop where
  nodes : ∀ c ∈ T.cells, ∃ n, pageNode t db c.1 = .ok n ∧ n.shape t.actualPage = c.2
  current : ∀ p ∈ T.ptrs, t.actualPage p = p
  nodup : T.ptrs.Nodup
  pages : ∀ p ∈ T.ptrs, p ≠ 0 ∧ p < db.pager.numPages
  root : t.getCurrentRoot = T.ptr

theorem pageNode_pageNum {p : PageNum} {n : BTreeNode} (h : pageNode t db p = .ok n) :
    n.pageNum = p := by
  unfold pageNode at h
  cases hs : pageSeen t.txWrites db p with
  | error e => simp [hs, Except.bind] at h
  | ok page =>
    rw [hs] at h
    exact deserializeNode_pageNum h

theorem exec_readNode_of {p q : PageNum} {n : BTreeNode} (hp : t.actualPage p = q)
    (h : pageNode t db q = .ok n) : Proc.exec (readNode p) t db = (.ok n, t, db) := by
  rw [exec_readNode_seen, ← h, ← hp]
  rfl

theorem exec_tryChild {α : Type} {f : BTreeNode → TreeM (Option α)} {p q : PageNum} {n : BTreeNode}
    (hp : t.actualPage p = q) (h : pageNode t db q = .ok n) :
    Proc.exec (tryChild p f) t db = Proc.exec (f n) t db := by
  have hatt : Proc.exec (Proc.attempt (readNode p)) t db = (.ok (.ok n), t, db) := by
    rw [Proc.exec_attempt, exec_readNode_of hp h]
  rw [tryChild, Proc.exec_bind_ok hatt]

theorem exec_firstChild {α : Type} {f : PageNum → TreeM (Option α)} {g : PageTree → Option α}
    {pages : List PageNum} {children : List PageTree}
    (h : pages.map t.actualPage = children.map ptr)
    (hf : ∀ c d, d ∈ children → t.actualPage c = d.ptr →
      Proc.exec (f c) t db = (.ok (g d), t, db)) :
    Proc.exec (firstChild f pages) t db = (.ok (children.findSome? g), t, db) := by
  induction pages generalizing children with
  | nil =>
    obtain rfl : children = [] := List.map_eq_nil_iff.mp h.symm
    rfl
  | cons c cs ih =>
    cases children with
    | nil => simp at h
    | cons d ds =>
      simp only [List.map_cons, List.cons.injEq] at h
      have hc := hf c d (by simp) h.1
      have hcs := ih h.2 fun c' d' hd => hf c' d' (by simp [hd])
      rw [firstChild, Proc.exec_bind_ok hc]
      cases hg : g d with
      | some a => simp [List.findSome?, hg, Proc.exec_pure]
      | none => simpa [List.findSome?, hg] using hcs

-- A leaf whose first key is above `key`.
def startsAbove (key : String) (l : PageNum × List LeafEntry × PageNum) : Bool :=
  match l.2.1 with
  | [] => false
  | first :: _ => key < first.key

namespace Shows

variable (h : Shows t db T)

include h

theorem subtree {sub : PageTree} (hsub : sub.cells ⊆ T.cells) :
    ∃ n, pageNode t db sub.ptr = .ok n ∧ n.shape t.actualPage = sub.shape :=
  h.nodes _ (hsub sub.root_mem_cells)

theorem height_le : T.height ≤ db.pager.numPages := by
  refine T.height_le_length_ptrs.trans ?_
  have hsub : T.ptrs ⊆ List.range db.pager.numPages := fun p hp =>
    List.mem_range.mpr (h.pages p hp).2
  simpa using (List.subperm_of_subset h.nodup hsub).length_le

theorem exec_root {n : BTreeNode} (hn : pageNode t db T.ptr = .ok n) :
    Proc.exec (readNode t.getCurrentRoot) t db = (.ok n, t, db) :=
  exec_readNode_of (by rw [h.root, h.current _ T.ptr_mem_ptrs]) hn

omit h in
theorem cells_child_subset {p : PageNum} {keys : List String} {children : List PageTree}
    {d : PageTree} (hsub : (node p keys children).cells ⊆ T.cells) (hd : d ∈ children) :
    d.cells ⊆ T.cells := by
  intro c hc
  refine hsub ?_
  rw [cells_node]
  exact List.mem_cons_of_mem _ (List.mem_flatMap.mpr ⟨d, hd, hc⟩)

-- `is_page_in_tree` is exact.
theorem exec_isPageInTree {fuel : Nat} {sub : PageTree} {n : BTreeNode}
    (hsub : sub.cells ⊆ T.cells) (hn : pageNode t db sub.ptr = .ok n) (hfuel : sub.height ≤ fuel)
    (target : PageNum) :
    Proc.exec (isPageInTree fuel n target) t db =
      (.ok (if target ∈ sub.ptrs then some () else none), t, db) := by
  induction fuel generalizing sub n with
  | zero =>
    have := sub.height_pos
    omega
  | succ fuel ih =>
    obtain ⟨m, hm, hshape⟩ := h.subtree hsub
    obtain rfl : n = m := Except.ok.inj (hn.symm.trans hm)
    have hpage := pageNode_pageNum hn
    by_cases hp : n.pageNum = target
    · have hmem : target ∈ sub.ptrs := hp ▸ hpage ▸ sub.ptr_mem_ptrs
      simp [isPageInTree, hp, hmem, Proc.exec_pure]
    · cases sub with
      | leaf p es nx =>
        obtain ⟨htype, _, _⟩ := BTreeNode.shape_eq_leaf hshape
        have hne : target ≠ p := fun e => hp (hpage.trans e.symm)
        simp [isPageInTree, hp, htype, Proc.exec_pure, ptrs_leaf, hne]
      | node p keys children =>
        obtain ⟨htype, _, hch⟩ := BTreeNode.shape_eq_node hshape
        have hne : target ≠ p := fun e => hp (hpage.trans e.symm)
        have hrun : isPageInTree (fuel + 1) n target = firstChild (fun page =>
            tryChild page fun child => isPageInTree fuel child target) n.children := by
          simp [isPageInTree, hp, htype]
        rw [hrun, exec_firstChild (g := fun d => if target ∈ d.ptrs then some () else none) hch]
        · have hfind : (children.findSome? fun d => if target ∈ d.ptrs then some () else none) =
              if target ∈ (node p keys children).ptrs then some () else none := by
            rw [ptrs_node]
            by_cases hmem : ∃ d ∈ children, target ∈ d.ptrs
            · obtain ⟨d, hd, ht⟩ := hmem
              rw [if_pos (by simpa [hne] using ⟨d, hd, ht⟩)]
              cases hs : children.findSome? fun d => if target ∈ d.ptrs then some () else none with
              | some u => rfl
              | none =>
                have := List.findSome?_eq_none_iff.mp hs d hd
                simp [ht] at this
            · rw [if_neg (by simpa [hne] using hmem), List.findSome?_eq_none_iff]
              intro d hd
              rw [if_neg fun ht => hmem ⟨d, hd, ht⟩]
          rw [hfind]
        · intro c d hd hc
          obtain ⟨m, hm, _⟩ := h.subtree (cells_child_subset hsub hd)
          rw [exec_tryChild hc hm]
          exact ih (cells_child_subset hsub hd) hm (height_child hd hfuel)

variable {Q : LeafPred PageNum String LeafEntry}
  (hQ : ∀ lo hi p es nx, Q lo hi p es nx → LeafSorted LeafEntry.key lo hi p es nx)

omit h in
theorem not_startsAbove {sub : PageTree} {key : String} (hle : ∀ e ∈ sub.entries, e.key ≤ key) :
    sub.leaves.find? (startsAbove key) = none := by
  rw [List.find?_eq_none]
  rintro ⟨p, es, nx⟩ hmem
  unfold startsAbove
  cases es with
  | nil => simp
  | cons first rest =>
    have hfirst : first ∈ sub.entries := by
      rw [entries_eq_leaves]
      exact List.mem_flatMap.mpr ⟨_, hmem, by simp⟩
    rw [decide_eq_true_iff]
    exact not_lt.mpr (hle first hfirst)

include hQ

-- `find_next_leaf_by_key` gives the first leaf of the subtree that starts above the key.
theorem exec_findNextLeafByKey {fuel : Nat} {sub : PageTree} {n : BTreeNode} {lo hi : Bound String}
    (hsub : sub.cells ⊆ T.cells) (hn : pageNode t db sub.ptr = .ok n) (hfuel : sub.height ≤ fuel)
    (hall : All Q lo hi sub) (key : String) :
    Proc.exec (findNextLeafByKey fuel n key) t db =
      (.ok ((sub.leaves.find? (startsAbove key)).map Prod.fst), t, db) := by
  induction fuel generalizing sub n lo hi with
  | zero =>
    have := sub.height_pos
    omega
  | succ fuel ih =>
    obtain ⟨m, hm, hshape⟩ := h.subtree hsub
    obtain rfl : n = m := Except.ok.inj (hn.symm.trans hm)
    have hpage := pageNode_pageNum hn
    cases sub with
    | leaf p es nx =>
      obtain ⟨htype, hes, _⟩ := BTreeNode.shape_eq_leaf hshape
      obtain rfl : n.pageNum = p := hpage
      simp only [findNextLeafByKey, htype, hes, leaves, List.find?, startsAbove]
      cases es with
      | nil => rfl
      | cons first rest =>
        by_cases hlt : key < first.key
        · simp [hlt, Proc.exec_pure]
        · simp [hlt, Proc.exec_pure]
    | node p keys children =>
      obtain ⟨htype, hkeys, hch⟩ := BTreeNode.shape_eq_node hshape
      have hchild : ∀ c d, d ∈ children → t.actualPage c = d.ptr →
          Proc.exec (tryChild c fun child => findNextLeafByKey fuel child key) t db =
            (.ok ((d.leaves.find? (startsAbove key)).map Prod.fst), t, db) := by
        intro c d hd hc
        obtain ⟨m, hm, _⟩ := h.subtree (cells_child_subset hsub hd)
        obtain ⟨lo', hi', hall'⟩ := AllForest.child hall hd
        rw [exec_tryChild hc hm]
        exact ih (cells_child_subset hsub hd) hm (height_child hd hfuel) hall'
      have hspec : ((node p keys children).leaves.find? (startsAbove key)).map Prod.fst =
          children.findSome? fun d => (d.leaves.find? (startsAbove key)).map Prod.fst := by
        rw [leaves_node, List.find?_flatMap, List.map_findSome?]
        rfl
      obtain ⟨hsome, hnone⟩ := AllForest.findSome_above (x := key) hQ hall
        (g := fun d => (d.leaves.find? (startsAbove key)).map Prod.fst)
        fun d _ hle => by rw [not_startsAbove hle]; rfl
      rw [hspec]
      cases hidx : keys.findIdx? (key < ·) with
      | some i =>
        have hrun : findNextLeafByKey (fuel + 1) n key = firstChild (fun page =>
            tryChild page fun child => findNextLeafByKey fuel child key) (n.children.drop i) := by
          simp only [findNextLeafByKey, htype, hkeys, hidx]
        rw [hrun, hsome i hidx]
        refine exec_firstChild ?_ fun c d hd => hchild c d (List.mem_of_mem_drop hd)
        rw [List.map_drop, hch, List.map_drop]
      | none =>
        have hlen := AllForest.length hall
        obtain ⟨last, hlast⟩ : ∃ last, children.getLast? = some last :=
          ⟨_, List.getLast?_eq_getLast_of_ne_nil (by rintro rfl; simp at hlen)⟩
        have hlast' : (n.children.map t.actualPage).getLast? = some last.ptr := by
          rw [hch, List.getLast?_map, hlast]
          rfl
        rw [List.getLast?_map, Option.map_eq_some_iff] at hlast'
        obtain ⟨c, hc, hcd⟩ := hlast'
        have hrun : findNextLeafByKey (fuel + 1) n key =
            tryChild c fun child => findNextLeafByKey fuel child key := by
          simp only [findNextLeafByKey, htype, hkeys, hidx, hc]
        rw [hrun, hnone hidx last hlast]
        exact hchild c last (List.mem_of_getLast? hlast) hcd

omit hQ

theorem exec_firstLeaf {fuel : Nat} {sub : PageTree} {n : BTreeNode} {lo hi : Bound String}
    (hsub : sub.cells ⊆ T.cells) (hn : pageNode t db sub.ptr = .ok n) (hfuel : sub.height ≤ fuel)
    (hall : All Q lo hi sub) :
    ∃ m p es nx rest, Proc.exec (firstLeaf fuel n) t db = (.ok m, t, db) ∧
      sub.leaves = (p, es, nx) :: rest ∧ pageNode t db p = .ok m := by
  induction fuel generalizing sub n lo hi with
  | zero =>
    have := sub.height_pos
    omega
  | succ fuel ih =>
    obtain ⟨m, hm, hshape⟩ := h.subtree hsub
    obtain rfl : n = m := Except.ok.inj (hn.symm.trans hm)
    cases sub with
    | leaf p es nx =>
      obtain ⟨htype, _, _⟩ := BTreeNode.shape_eq_leaf hshape
      exact ⟨n, p, es, nx, [], by simp [firstLeaf, htype, Proc.exec_pure], rfl, hn⟩
    | node p keys children =>
      obtain ⟨htype, _, hch⟩ := BTreeNode.shape_eq_node hshape
      have hlen := AllForest.length hall
      cases children with
      | nil => simp at hlen
      | cons d ds =>
        cases hcs : n.children with
        | nil => simp [hcs] at hch
        | cons c cs =>
          rw [hcs] at hch
          have hc : t.actualPage c = d.ptr := (List.cons.inj hch).1
          have hd : d ∈ d :: ds := by simp
          obtain ⟨m, hm, _⟩ := h.subtree (cells_child_subset hsub hd)
          obtain ⟨lo', hi', hall'⟩ := AllForest.child hall hd
          obtain ⟨m', p', es, nx, rest, he, hleaves, hm'⟩ :=
            ih (cells_child_subset hsub hd) hm (height_child hd hfuel) hall'
          refine ⟨m', p', es, nx, rest ++ ds.flatMap leaves, ?_, ?_, hm'⟩
          · simp only [firstLeaf, htype, hcs]
            rw [Proc.exec_bind_ok (exec_readNode_of hc hm)]
            exact he
          · rw [leaves_node, List.flatMap_cons, hleaves]
            rfl

end Shows

-- The first leaf that starts above the last key of a leaf is the one after it.
theorem find?_startsAbove {before after : List (PageNum × List LeafEntry × PageNum)}
    {p nx : PageNum} {es : List LeafEntry} {last : LeafEntry}
    (hsorted : SortedEntries ((before ++ (p, es, nx) :: after).flatMap (·.2.1)))
    (hlast : es.getLast? = some last) (hne : ∀ l ∈ after, l.2.1 ≠ []) :
    (before ++ (p, es, nx) :: after).find? (startsAbove last.key) = after.head? := by
  have hmem : last ∈ es := List.mem_of_getLast? hlast
  simp only [List.flatMap_append, List.flatMap_cons] at hsorted
  obtain ⟨_, hsorted', hbefore⟩ := List.pairwise_append.mp hsorted
  obtain ⟨hes, _, hafter⟩ := List.pairwise_append.mp hsorted'
  have hle : ∀ e ∈ es, e.key ≤ last.key := by
    intro e he
    obtain ⟨front, rfl⟩ := List.getLast?_eq_some_iff.mp hlast
    rcases List.mem_append.mp he with he | he
    · exact ((List.pairwise_append.mp hes).2.2 e he last (by simp)).le
    · rw [List.mem_singleton.mp he]
  have hno : ∀ l : PageNum × List LeafEntry × PageNum, (∀ e ∈ l.2.1, e.key ≤ last.key) →
      startsAbove last.key l = false := by
    rintro ⟨q, es', nx'⟩ hl
    cases es' with
    | nil => rfl
    | cons first rest => exact decide_eq_false (not_lt.mpr (hl first (by simp)))
  have hb : before.find? (startsAbove last.key) = none := by
    rw [List.find?_eq_none]
    intro l hl
    rw [hno l fun e he => (hbefore e (List.mem_flatMap.mpr ⟨l, hl, he⟩) last (by simp [hmem])).le]
    simp
  rw [List.find?_append, hb, Option.none_or, List.find?_cons_of_neg (by simp [hno (p, es, nx) hle])]
  cases after with
  | nil => rfl
  | cons l rest =>
    obtain ⟨q, es', nx'⟩ := l
    cases es' with
    | nil => exact absurd rfl (hne (q, [], nx') (by simp))
    | cons first more =>
      have hlt := hafter last hmem first (by simp)
      have hpos : startsAbove last.key (q, first :: more, nx') = true := decide_eq_true hlt
      rw [List.find?_cons_of_pos hpos]
      rfl

-- Each link is the page of the next leaf, or 0, or a page outside the tree.
def LooseLinks (pages : List PageNum) : List (PageNum × List LeafEntry × PageNum) → Prop
  | [] => True
  | l :: rest =>
    (l.2.2 = 0 ∨ l.2.2 ∉ pages ∨ rest.head?.map Prod.fst = some l.2.2) ∧ LooseLinks pages rest

instance decidableLooseLinks (pages : List PageNum) :
    (ls : List (PageNum × List LeafEntry × PageNum)) → Decidable (LooseLinks pages ls)
  | [] => .isTrue trivial
  | _ :: rest =>
    have : Decidable (LooseLinks pages rest) := decidableLooseLinks pages rest
    inferInstanceAs (Decidable (_ ∧ _))

theorem LooseLinks.of_append {pages : List PageNum}
    {before after : List (PageNum × List LeafEntry × PageNum)}
    (h : LooseLinks pages (before ++ after)) : LooseLinks pages after := by
  induction before with
  | nil => exact h
  | cons l rest ih => exact ih h.2

-- A tree in order and without empty leaves, whose leaf links may be broken.
structure Repairable (t : TxBTree) (db : Database) (T : PageTree) : Prop extends Shows t db T where
  ordered : All (LeafSorted LeafEntry.key) ⊥ ⊤ T
  filled : ∀ l ∈ T.leaves, l.2.1 ≠ []
  links : LooseLinks T.ptrs T.leaves

namespace Repairable

variable (h : Repairable t db T) {before after : List (PageNum × List LeafEntry × PageNum)}
  {p nx : PageNum} {es : List LeafEntry} {n : BTreeNode}

include h

theorem sorted : SortedEntries T.entries :=
  h.ordered.entries_sorted (fun _ _ _ _ _ hq => hq) bot_lt_top

theorem exec_nextLeafByKey {root : BTreeNode} (hroot : pageNode t db T.ptr = .ok root)
    (hsplit : T.leaves = before ++ (p, es, nx) :: after) (hes : n.entries = es) :
    Proc.exec (nextLeafByKey (db.pager.numPages + 1) root n) t db =
      (.ok (after.head?.bind fun l => (pageNode t db l.1).toOption), t, db) := by
  have hfilled : es ≠ [] := h.filled (p, es, nx) (by simp [hsplit])
  obtain ⟨last, hlast⟩ : ∃ last, es.getLast? = some last :=
    ⟨_, List.getLast?_eq_getLast_of_ne_nil hfilled⟩
  have hsorted := h.sorted
  rw [entries_eq_leaves, hsplit] at hsorted
  have hfind := find?_startsAbove hsorted hlast fun l hl => h.filled l (by simp [hsplit, hl])
  have he := h.exec_findNextLeafByKey (fun _ _ _ _ _ hq => hq) (List.Subset.refl _) hroot
    (Nat.le_succ_of_le h.height_le) h.ordered last.key
  rw [hsplit, hfind] at he
  simp only [nextLeafByKey, hes, hlast]
  rw [Proc.exec_bind_ok he]
  cases after with
  | nil => rfl
  | cons l rest =>
    have hmem : l ∈ T.leaves := by simp [hsplit]
    obtain ⟨m, hm, _⟩ := h.nodes _ (mem_cells_of_mem_leaves hmem)
    simp only [List.head?_cons, Option.map_some, Option.bind_some]
    rw [exec_tryChild (h.current _ (mem_ptrs_of_mem_leaves hmem)) hm, hm]
    rfl

-- Whatever the link is, the leaf after this one follows.
theorem exec_nextLeaf (hsplit : T.leaves = before ++ (p, es, nx) :: after)
    (hn : n.shape t.actualPage = .leaf es nx) :
    Proc.exec (nextLeaf n) t db =
      (.ok (after.head?.bind fun l => (pageNode t db l.1).toOption), t, db) := by
  obtain ⟨_, hes, hnx⟩ := BTreeNode.shape_eq_leaf hn
  obtain ⟨root, hroot, _⟩ := h.subtree (List.Subset.refl _)
  have hkey := h.exec_nextLeafByKey hroot hsplit hes
  have hact : t.actualPage t.getCurrentRoot = T.ptr := by
    rw [h.root, h.current _ T.ptr_mem_ptrs]
  have hbound : Proc.exec (walkBound : TreeM Nat) t db = (.ok (db.pager.numPages + 1), t, db) := rfl
  unfold nextLeaf
  rw [Proc.exec_bind_ok (Proc.exec_getLocal t db), Proc.exec_bind_ok hbound]
  have hunlinked : Proc.exec (tryChild t.getCurrentRoot fun root =>
      nextLeafByKey (db.pager.numPages + 1) root n) t db =
      (.ok (after.head?.bind fun l => (pageNode t db l.1).toOption), t, db) := by
    rw [exec_tryChild hact hroot, hkey]
  by_cases hz : n.nextLeaf = 0
  · simp only [hz, ne_eq, not_true_eq_false, ↓reduceIte]
    rw [Proc.exec_bind_ok (Proc.exec_pure _ t db)]
    exact hunlinked
  · simp only [hz, ne_eq, not_false_eq_true, ↓reduceIte]
    cases hlinked : pageNode t db nx with
    | error e =>
      -- a page that cannot be read is as good as no link
      have htry : Proc.exec (tryChild n.nextLeaf fun leaf => pure (some leaf)) t db =
          (.ok none, t, db) := by
        have hatt : Proc.exec (Proc.attempt (readNode n.nextLeaf)) t db = (.ok (.error e), t, db) := by
          rw [Proc.exec_attempt, exec_readNode_seen, ← hlinked, ← hnx]
          rfl
        rw [tryChild, Proc.exec_bind_ok hatt]
        rfl
      rw [Proc.exec_bind_ok htry]
      exact hunlinked
    | ok m =>
      have htry : Proc.exec (tryChild n.nextLeaf fun leaf => pure (some leaf)) t db =
          (.ok (some m), t, db) := by
        rw [exec_tryChild hnx hlinked]
        rfl
      have hin := h.exec_isPageInTree (List.Subset.refl _) hroot (Nat.le_succ_of_le h.height_le)
        m.pageNum
      rw [pageNode_pageNum hlinked] at hin
      rw [Proc.exec_bind_ok htry]
      simp only
      rw [exec_tryChild hact hroot]
      rw [pageNode_pageNum hlinked]
      by_cases hmem : nx ∈ T.ptrs
      · rw [if_pos hmem] at hin
        rw [Proc.exec_bind_ok hin]
        have hloose := h.links
        rw [hsplit] at hloose
        rcases hloose.of_append.1 with h0 | hout | hnext
        · exact absurd h0 (h.pages nx hmem).1
        · exact absurd hmem hout
        · obtain ⟨l', hl', rfl⟩ := Option.map_eq_some_iff.mp hnext
          simp [hl', hlinked, Except.toOption, Proc.exec_pure]
      · rw [if_neg hmem] at hin
        rw [Proc.exec_bind_ok hin]
        exact hkey

-- From entry `j` of a leaf on, the rest of the leaf follows and then the leaves after it.
theorem exec_collect_from {fuel j : Nat} (hsplit : T.leaves = before ++ (p, es, nx) :: after)
    (hn : n.shape t.actualPage = .leaf es nx) (hj : j < es.length)
    (hfuel : (es.drop (j + 1) ++ after.flatMap (·.2.1)).length < fuel) :
    Proc.exec (Cursor.collect fuel ⟨some n, j, true⟩) t db =
      (.ok (es.drop (j + 1) ++ after.flatMap (·.2.1)), t, db) := by
  induction fuel generalizing j before p es nx after n with
  | zero => omega
  | succ fuel ih =>
    obtain ⟨_, hes, _⟩ := BTreeNode.shape_eq_leaf hn
    by_cases hmore : j + 1 < es.length
    · have hnext : Proc.exec (Cursor.next ⟨some n, j, true⟩) t db =
          (.ok (true, ⟨some n, j + 1, true⟩), t, db) := by
        simp [Cursor.next, hes, hmore, Proc.exec_pure]
      have hdrop : es.drop (j + 1) = es[j + 1] :: es.drop (j + 2) := List.drop_eq_getElem_cons hmore
      have hentry : Cursor.entry ⟨some n, j + 1, true⟩ = es[j + 1] := by
        simp [Cursor.entry, hes, hmore]
      have hrest := ih hsplit hn hmore (by
        rw [hdrop, List.cons_append, List.length_cons] at hfuel
        exact Nat.lt_of_succ_lt_succ hfuel)
      rw [hdrop]
      rw [Cursor.collect, Proc.exec_bind_ok hnext]
      simp only [↓reduceIte, hentry]
      rw [Proc.exec_bind_ok hrest]
      rfl
    · have hnil : es.drop (j + 1) = [] := List.drop_eq_nil_of_le (by omega)
      have hleaf := h.exec_nextLeaf hsplit hn
      rw [hnil, List.nil_append] at hfuel ⊢
      cases after with
      | nil =>
        have hnext : Proc.exec (Cursor.next ⟨some n, j, true⟩) t db =
            (.ok (false, ⟨some n, j + 1, true⟩), t, db) := by
          simp only [Cursor.next, hes, hmore, ↓reduceIte, Bool.not_true, Bool.false_eq_true]
          rw [Proc.exec_bind_ok hleaf]
          rfl
        rw [Cursor.collect, Proc.exec_bind_ok hnext]
        rfl
      | cons l rest =>
        obtain ⟨q, es', nx'⟩ := l
        have hmem : (q, es', nx') ∈ T.leaves := by simp [hsplit]
        obtain ⟨m, hm, hmshape⟩ := h.nodes _ (mem_cells_of_mem_leaves hmem)
        obtain ⟨_, hmes, _⟩ := BTreeNode.shape_eq_leaf hmshape
        obtain ⟨first, more, rfl⟩ := List.exists_cons_of_ne_nil (h.filled _ hmem)
        have hnext : Proc.exec (Cursor.next ⟨some n, j, true⟩) t db =
            (.ok (true, ⟨some m, 0, true⟩), t, db) := by
          simp only [Cursor.next, hes, hmore, ↓reduceIte, Bool.not_true, Bool.false_eq_true]
          rw [Proc.exec_bind_ok hleaf]
          simp [hm, Except.toOption, hmes, Proc.exec_pure]
        have hentry : Cursor.entry ⟨some m, 0, true⟩ = first := by simp [Cursor.entry, hmes]
        have hsplit' : T.leaves = (before ++ [(p, es, nx)]) ++ (q, first :: more, nx') :: rest := by
          simp [hsplit]
        have hrest := ih (j := 0) hsplit' hmshape (by simp) (by simpa using hfuel)
        rw [Cursor.collect, Proc.exec_bind_ok hnext]
        simp only [↓reduceIte, hentry]
        rw [Proc.exec_bind_ok hrest]
        simp [Proc.exec_pure]

end Repairable

-- The iterator gives every entry once, in increasing key order, and then stops, however the
-- links between the leaves are broken.
theorem exec_iterate (h : Repairable t db T) {fuel : Nat} (hfuel : T.entries.length < fuel) :
    Proc.exec (do
        let it ← iterator
        it.collect fuel) t db = (.ok T.entries, t, db) ∧
      T.entries.Pairwise fun a b => a.key < b.key := by
  refine ⟨?_, h.sorted⟩
  obtain ⟨root, hroot, _⟩ := h.subtree (List.Subset.refl _)
  obtain ⟨n, p, es, nx, rest, hfirst, hleaves, hn⟩ := h.exec_firstLeaf (List.Subset.refl _) hroot
    (Nat.le_succ_of_le h.height_le) h.ordered
  have hmem : (p, es, nx) ∈ T.leaves := by simp [hleaves]
  obtain ⟨m, hm, hshape⟩ := h.nodes _ (mem_cells_of_mem_leaves hmem)
  obtain rfl : n = m := Except.ok.inj (hn.symm.trans hm)
  obtain ⟨_, hes, _⟩ := BTreeNode.shape_eq_leaf hshape
  obtain ⟨first, more, rfl⟩ := List.exists_cons_of_ne_nil (h.filled _ hmem)
  have hbound : Proc.exec (walkBound : TreeM Nat) t db = (.ok (db.pager.numPages + 1), t, db) := rfl
  have hit : Proc.exec iterator t db = (.ok ⟨some n, 0, false⟩, t, db) := by
    unfold iterator
    rw [Proc.exec_bind_ok (Proc.exec_getLocal t db), Proc.exec_bind_ok hbound,
      Proc.exec_bind_ok (h.exec_root hroot), Proc.exec_bind_ok hfirst]
    rfl
  have hentries : T.entries = first :: (more ++ rest.flatMap (·.2.1)) := by
    rw [entries_eq_leaves, hleaves]
    rfl
  obtain ⟨fuel, rfl⟩ : ∃ k, fuel = k + 1 := ⟨fuel - 1, by omega⟩
  have hnext : Proc.exec (Cursor.next ⟨some n, 0, false⟩) t db =
      (.ok (true, ⟨some n, 0, true⟩), t, db) := by
    simp [Cursor.next, hes, Proc.exec_pure]
  have hentry : Cursor.entry ⟨some n, 0, true⟩ = first := by simp [Cursor.entry, hes]
  rw [hentries] at hfuel ⊢
  have hsplit : T.leaves = [] ++ (p, first :: more, nx) :: rest := hleaves
  have hrest := h.exec_collect_from (j := 0) hsplit hshape (by simp) (by simpa using hfuel)
  rw [Proc.exec_bind_ok hit, Cursor.collect, Proc.exec_bind_ok hnext]
  simp only [↓reduceIte, hentry]
  rw [Proc.exec_bind_ok hrest]
  rfl

section BrokenLinks

theorem shows_dbOf {numPages : Nat} (hnodup : T.ptrs.Nodup)
    (hrange : ∀ p ∈ T.ptrs, p ≠ 0 ∧ p < numPages) :
    Shows (new T.ptr ∅) (dbOf T numPages) T := by
  refine ⟨?_, by simp, hnodup, hrange, getCurrentRoot_new _ _⟩
  intro c hc
  refine ⟨nodeOf c.1 c.2, ?_, by rw [actualPage_new, shape_nodeOf]⟩
  have hseen : pageSeen (new T.ptr ∅).txWrites (dbOf T numPages) c.1 = .ok (.node (nodeOf c.1 c.2)) := by
    simp [pageSeen, new, Pager.readPage, view_dbOf hnodup hc]
  rw [pageNode, hseen]
  exact deserialize_nodeOf c.1 c.2

-- Links to a page outside the tree, to none, and to the next leaf.
def brokenTree : PageTree :=
  .node 2 ["g", "m", "p"] [.leaf 3 [⟨"a", 10⟩] 9, .leaf 4 [⟨"g", 20⟩, ⟨"h", 30⟩] 0,
    .leaf 5 [⟨"m", 40⟩] 6, .leaf 6 [⟨"p", 50⟩] 7]

theorem exec_iterate_broken :
    (Proc.exec (do
        let it ← iterator
        it.collect 6) (new 2 ∅) (dbOf brokenTree 12)).1 =
      .ok [⟨"a", 10⟩, ⟨"g", 20⟩, ⟨"h", 30⟩, ⟨"m", 40⟩, ⟨"p", 50⟩] := by
  have hshows : Shows (new 2 ∅) (dbOf brokenTree 12) brokenTree :=
    shows_dbOf (T := brokenTree) (by decide +kernel) (by decide +kernel)
  have h : Repairable (new 2 ∅) (dbOf brokenTree 12) brokenTree :=
    ⟨hshows, by decide +kernel, by decide +kernel, by decide +kernel⟩
  rw [(exec_iterate h (show 5 < 6 by decide)).1]
  rfl

end BrokenLinks

end Tree

end JasonDb.TxBTree
