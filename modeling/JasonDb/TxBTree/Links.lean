import JasonDb.TxBTree.Update
import Mathlib.Data.Finset.Card
import Mathlib.Data.Finset.Range

namespace JasonDb.TxBTree

open Lib SearchTree

variable {t : TxBTree} {db : Database} {rank : Rank} {α : Type}

section Walk

variable {ctx : List PageFrame} {n : BTreeNode}

theorem Represents.plug_nil {T : PageTree} (h : Represents t db rank T) :
    Represents t db rank (plug [] T) := h

theorem Represents.subtree {sub : PageTree} (h : Represents t db rank (plug ctx sub)) :
    ∃ n, db.nodeAt sub.ptr = some n ∧ n.pageNum = sub.ptr ∧ n.shape t.actualPage = sub.shape := by
  refine h.holds.nodeAt ?_
  simpa using mem_cells_plug sub.root_mem_cells

-- A child pointer in the page leads to a child in the tree.
theorem Represents.child_of_mem {p : PageNum} {keys : List String} {children : List PageTree}
    (h : Represents t db rank (plug ctx (node p keys children)))
    (hn : db.nodeAt p = some n) {c : PageNum} (hc : c ∈ n.children) :
    ∃ fr d m, plug ctx (node p keys children) = plug (fr :: ctx) d ∧ t.actualPage c = d.ptr ∧
      d ∈ children ∧ fr.ptr = p ∧ Proc.exec (readNode c) t db = (.ok m, t, db) ∧
      db.nodeAt d.ptr = some m := by
  obtain ⟨m', hm', _, hshape⟩ := h.subtree
  obtain rfl : n = m' := Option.some.inj (hn.symm.trans hm')
  obtain ⟨_, _, hch⟩ := BTreeNode.shape_eq_node hshape
  have hmem : t.actualPage c ∈ children.map ptr := by
    rw [← hch]
    exact List.mem_map_of_mem hc
  obtain ⟨d, hd, hdp⟩ := List.mem_map.mp hmem
  have hforest := ((all_plug ctx _).mp h.ordered).2
  obtain ⟨fr, hfr, hfp⟩ := exists_frame (p := p) (AllForest.length hforest) hd
  have heq : plug ctx (node p keys children) = plug (fr :: ctx) d := by
    rw [hfr]
    rfl
  rw [heq] at h
  obtain ⟨m, hm, _, _⟩ := h.subtree
  exact ⟨fr, d, m, heq, hdp.symm, hd, hfp, exec_readNode h.holds.wf (hdp ▸ hm), hm⟩

-- `m` returns a value for which `P` holds and leaves everything as it is.
def Reads (t : TxBTree) (db : Database) (m : TreeM α) (P : α → Prop) : Prop :=
  ∃ a, Proc.exec m t db = (.ok a, t, db) ∧ P a

theorem Reads.mono {m : TreeM α} {P P' : α → Prop} (h : Reads t db m P) (hP : ∀ a, P a → P' a) :
    Reads t db m P' := by
  obtain ⟨a, he, ha⟩ := h
  exact ⟨a, he, hP a ha⟩

theorem reads_firstChild {f : PageNum → TreeM (Option α)} {P : α → Prop} {pages : List PageNum}
    (h : ∀ c ∈ pages, Reads t db (f c) fun r => ∀ a, r = some a → P a) :
    Reads t db (firstChild f pages) fun r => ∀ a, r = some a → P a := by
  induction pages with
  | nil => exact ⟨none, rfl, by simp⟩
  | cons c cs ih =>
    obtain ⟨r, he, hr⟩ := h c (by simp)
    obtain ⟨r', he', hr'⟩ := ih fun d hd => h d (by simp [hd])
    cases r with
    | some a =>
      refine ⟨some a, ?_, hr⟩
      rw [firstChild, Proc.exec_bind_ok he]
      rfl
    | none =>
      refine ⟨r', ?_, hr'⟩
      rw [firstChild, Proc.exec_bind_ok he]
      exact he'

theorem reads_join {x : TreeM (Option (Option α))} {P : α → Prop}
    (h : Reads t db x fun r => ∀ found, r = some found → ∀ a, found = some a → P a) :
    Reads t db (do let found ← x; pure found.join) fun r => ∀ a, r = some a → P a := by
  obtain ⟨r, he, hr⟩ := h
  refine ⟨r.join, (Proc.exec_bind_ok he).trans rfl, ?_⟩
  intro a ha
  rw [Option.join_eq_some_iff] at ha
  exact hr (some a) ha a rfl

theorem reads_tryChild {f : BTreeNode → TreeM (Option α)} {P : Option α → Prop} {c : PageNum}
    {m : BTreeNode} (hread : Proc.exec (readNode c) t db = (.ok m, t, db))
    (h : Reads t db (f m) P) : Reads t db (tryChild c f) P := by
  obtain ⟨a, he, ha⟩ := h
  refine ⟨a, ?_, ha⟩
  have hatt : Proc.exec (Proc.attempt (readNode c)) t db = (.ok (.ok m), t, db) := by
    rw [Proc.exec_attempt, hread]
  rw [tryChild, Proc.exec_bind_ok hatt]
  exact he

theorem height_child {p : PageNum} {keys : List String} {children : List PageTree} {d : PageTree}
    {fuel : Nat} (hd : d ∈ children) (hfuel : (node p keys children).height ≤ fuel + 1) :
    d.height ≤ fuel := by
  have hle := height_le_heightAll hd
  simp only [height] at hfuel
  omega

theorem Represents.reads_isPageInTree {fuel : Nat} {ctx : List PageFrame} {sub : PageTree}
    {n : BTreeNode} (h : Represents t db rank (plug ctx sub)) (hn : db.nodeAt sub.ptr = some n)
    (hfuel : sub.height ≤ fuel) (target : PageNum) :
    Reads t db (isPageInTree fuel n target) fun _ => True := by
  induction fuel generalizing ctx sub n with
  | zero =>
    have := sub.height_pos
    omega
  | succ fuel ih =>
    obtain ⟨m, hm, _, hshape⟩ := h.subtree
    obtain rfl : n = m := Option.some.inj (hn.symm.trans hm)
    by_cases hp : n.pageNum = target
    · exact ⟨some (), by simp [isPageInTree, hp, Proc.exec_pure], trivial⟩
    · cases sub with
      | leaf p es nx =>
        obtain ⟨htype, _, _⟩ := BTreeNode.shape_eq_leaf hshape
        exact ⟨none, by simp [isPageInTree, hp, htype, Proc.exec_pure], trivial⟩
      | node p keys children =>
        obtain ⟨htype, _, _⟩ := BTreeNode.shape_eq_node hshape
        have hrun : isPageInTree (fuel + 1) n target = firstChild (fun page =>
            tryChild page fun child => isPageInTree fuel child target) n.children := by
          simp [isPageInTree, hp, htype]
        rw [hrun]
        refine (reads_firstChild (P := fun _ => True) ?_).mono fun _ _ => trivial
        intro c hc
        obtain ⟨fr, d, m, heq, _, hd, _, hread, hmd⟩ := h.child_of_mem hn hc
        rw [heq] at h
        exact (reads_tryChild hread (ih h hmd (height_child hd hfuel))).mono fun _ _ _ _ => trivial

theorem Represents.reads_findNextLeafByKey {fuel : Nat} {ctx : List PageFrame} {sub : PageTree}
    {n : BTreeNode} (h : Represents t db rank (plug ctx sub)) (hn : db.nodeAt sub.ptr = some n)
    (hfuel : sub.height ≤ fuel) (key : String) :
    Reads t db (findNextLeafByKey fuel n key) fun r => ∀ q, r = some q →
      ∃ ctx' es nx e, plug ctx sub = plug ctx' (leaf q es nx) ∧ e ∈ es ∧ key < e.key := by
  induction fuel generalizing ctx sub n with
  | zero =>
    have := sub.height_pos
    omega
  | succ fuel ih =>
    obtain ⟨m, hm, hpage, hshape⟩ := h.subtree
    obtain rfl : n = m := Option.some.inj (hn.symm.trans hm)
    cases sub with
    | leaf p es nx =>
      obtain ⟨htype, hes, _⟩ := BTreeNode.shape_eq_leaf hshape
      simp only [findNextLeafByKey, htype]
      cases hcase : n.entries with
      | nil => exact ⟨none, rfl, by simp⟩
      | cons e rest =>
        refine ⟨_, rfl, ?_⟩
        intro q hq
        split at hq
        case isTrue hlt =>
          obtain rfl : n.pageNum = q := Option.some.inj hq
          exact ⟨ctx, es, nx, e, by rw [hpage]; rfl, by rw [← hes, hcase]; simp, hlt⟩
        case isFalse => simp at hq
    | node p keys children =>
      obtain ⟨htype, hkeys, hch⟩ := BTreeNode.shape_eq_node hshape
      have hchild : ∀ c ∈ n.children, Reads t db (tryChild c fun child =>
          findNextLeafByKey fuel child key) fun r => ∀ q, r = some q →
            ∃ ctx' es nx e, plug ctx (node p keys children) = plug ctx' (leaf q es nx) ∧
              e ∈ es ∧ key < e.key := by
        intro c hc
        obtain ⟨fr, d, m, heq, _, hd, _, hread, hmd⟩ := h.child_of_mem hn hc
        rw [heq] at h ⊢
        exact reads_tryChild hread (ih h hmd (height_child hd hfuel))
      cases hidx : n.keys.findIdx? (key < ·) with
      | some i =>
        have hrun : findNextLeafByKey (fuel + 1) n key = firstChild (fun page =>
            tryChild page fun child => findNextLeafByKey fuel child key) (n.children.drop i) := by
          simp only [findNextLeafByKey, htype, hidx]
        rw [hrun]
        exact reads_firstChild fun c hc => hchild c (List.mem_of_mem_drop hc)
      | none =>
        have hne : n.children ≠ [] := by
          intro hnil
          have hlen := AllForest.length ((all_plug ctx _).mp h.ordered).2
          rw [hnil] at hch
          simp only [List.map_nil] at hch
          rw [List.map_eq_nil_iff.mp hch.symm] at hlen
          simp at hlen
        obtain ⟨last, hlast⟩ : ∃ last, n.children.getLast? = some last :=
          ⟨_, List.getLast?_eq_getLast_of_ne_nil hne⟩
        have hrun : findNextLeafByKey (fuel + 1) n key =
            tryChild last fun child => findNextLeafByKey fuel child key := by
          simp only [findNextLeafByKey, htype, hidx, hlast]
        rw [hrun]
        exact hchild last (List.mem_of_getLast? hlast)

theorem Represents.reads_findAnyLeafPath {fuel : Nat} {ctx : List PageFrame} {sub : PageTree}
    {n : BTreeNode} {path : List PageNum} (h : Represents t db rank (plug ctx sub))
    (hn : db.nodeAt sub.ptr = some n) (hpath : PathTo t path ctx sub.ptr)
    (hfuel : sub.height ≤ fuel) (target : PageNum) :
    Reads t db (findAnyLeafPath fuel n target path) fun r => ∀ path', r = some path' →
      ∃ ctx' es nx, plug ctx sub = plug ctx' (leaf target es nx) ∧ PathTo t path' ctx' target := by
  induction fuel generalizing ctx sub n path with
  | zero =>
    have := sub.height_pos
    omega
  | succ fuel ih =>
    obtain ⟨m, hm, hpage, hshape⟩ := h.subtree
    obtain rfl : n = m := Option.some.inj (hn.symm.trans hm)
    cases sub with
    | leaf p es nx =>
      obtain ⟨htype, _, _⟩ := BTreeNode.shape_eq_leaf hshape
      simp only [findAnyLeafPath, htype]
      refine ⟨_, rfl, ?_⟩
      intro path' hp
      split at hp
      case isTrue htarget =>
        obtain rfl : path = path' := Option.some.inj hp
        subst htarget
        rw [hpage]
        exact ⟨ctx, es, nx, rfl, hpath⟩
      case isFalse => simp at hp
    | node p keys children =>
      obtain ⟨htype, _, _⟩ := BTreeNode.shape_eq_node hshape
      simp only [findAnyLeafPath, htype]
      refine reads_join (reads_firstChild (P := fun r => ∀ path', r = some path' → ∃ ctx' es nx,
        plug ctx (node p keys children) = plug ctx' (leaf target es nx) ∧ PathTo t path' ctx' target) ?_)
      intro c hc
      obtain ⟨fr, d, m, heq, hact, hd, hfp, hread, hmd⟩ := h.child_of_mem hn hc
      rw [heq] at h ⊢
      have hpath' : PathTo t (c :: path) (fr :: ctx) d.ptr := by
        unfold PathTo at hpath ⊢
        rw [List.map_cons, hpath, hact, List.map_cons, hfp]
        rfl
      obtain ⟨r, he, hr⟩ := ih h hmd hpath' (height_child hd hfuel)
      have hatt : Proc.exec (Proc.attempt (readNode c)) t db = (.ok (.ok m), t, db) := by
        rw [Proc.exec_attempt, hread]
      cases r with
      | some result =>
        refine ⟨some (some result), ?_, ?_⟩
        · rw [Proc.exec_bind_ok hatt]
          exact (Proc.exec_bind_ok he).trans rfl
        · intro a ha path' hp
          obtain rfl := Option.some.inj ha
          exact hr path' hp
      | none =>
        refine ⟨none, ?_, by simp⟩
        rw [Proc.exec_bind_ok hatt]
        exact (Proc.exec_bind_ok he).trans rfl

theorem Represents.reads_leftmostLeaf {fuel : Nat} {ctx : List PageFrame} {sub : PageTree}
    {n : BTreeNode} (h : Represents t db rank (plug ctx sub)) (hn : db.nodeAt sub.ptr = some n)
    (hfuel : sub.height ≤ fuel) :
    Reads t db (leftmostLeaf fuel n) fun m =>
      ∃ l, rank m.pageNum = some l ∧ t.actualPage m.pageNum = m.pageNum := by
  induction fuel generalizing ctx sub n with
  | zero =>
    have := sub.height_pos
    omega
  | succ fuel ih =>
    obtain ⟨m, hm, hpage, hshape⟩ := h.subtree
    obtain rfl : n = m := Option.some.inj (hn.symm.trans hm)
    cases sub with
    | leaf p es nx =>
      obtain ⟨htype, _, _⟩ := BTreeNode.shape_eq_leaf hshape
      refine ⟨n, by simp [leftmostLeaf, htype, Proc.exec_pure], ?_⟩
      have hleaf := ((all_plug ctx _).mp h.ordered).2
      have hcell : (p, Shape.leaf es nx) ∈ [plug ctx (leaf p es nx)].flatMap cells :=
        (flatMap_cells_focus_leaf ctx p es nx []).mem_iff.mpr (by simp)
      obtain rfl : n.pageNum = p := hpage
      exact ⟨_, hleaf.2.1, actualPage_of_none (h.holds.live_of_cell hcell).2⟩
    | node p keys children =>
      obtain ⟨htype, _, hch⟩ := BTreeNode.shape_eq_node hshape
      cases hcase : n.children with
      | nil =>
        have hlen := AllForest.length ((all_plug ctx _).mp h.ordered).2
        rw [hcase] at hch
        simp only [List.map_nil] at hch
        rw [List.map_eq_nil_iff.mp hch.symm] at hlen
        simp at hlen
      | cons first rest =>
        obtain ⟨fr, d, m, heq, _, hd, _, hread, hmd⟩ :=
          h.child_of_mem hn (c := first) (by rw [hcase]; simp)
        rw [heq] at h
        obtain ⟨a, he, ha⟩ := ih h hmd (height_child hd hfuel)
        refine ⟨a, ?_, ha⟩
        simp only [leftmostLeaf, htype, hcase]
        rw [Proc.exec_bind_ok hread]
        exact he

end Walk

end JasonDb.TxBTree
