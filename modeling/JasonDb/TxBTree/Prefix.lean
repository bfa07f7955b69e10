import JasonDb.TxBTree.Refines

namespace JasonDb.TxBTree

open Lib SearchTree

section Search

variable {t : TxBTree} {db : Database} {start : String}

theorem Holds.ne_zero {F : List PageTree} (h : Holds t db F) {p : PageNum} {s : PageShape}
    (hp : (p, s) ∈ F.flatMap cells) {r : PageNum} (hr : t.actualPage r = p) : r ≠ 0 := by
  rintro rfl
  rw [h.wf.actualPage_zero] at hr
  exact (h.live_of_cell hp).1.1 hr.symm

-- Children that each answer for their own tree are asked in turn until one answers yes.
theorem exec_anyChild {f : PageNum → TreeM Bool} {found : PageTree → Bool} {pages : List PageNum}
    {children : List PageTree} (hpages : pages.map t.actualPage = children.map ptr)
    (hf : ∀ c ∈ children, ∀ r, t.actualPage r = c.ptr → Proc.exec (f r) t db = (.ok (found c), t, db)) :
    Proc.exec (anyChild f pages) t db = (.ok (children.any found), t, db) := by
  induction pages generalizing children with
  | nil =>
    cases children with
    | nil => rfl
    | cons c children => cases hpages
  | cons r pages ih =>
    cases children with
    | nil => cases hpages
    | cons c children =>
      obtain ⟨hr, hrest⟩ := List.cons.inj hpages
      rw [anyChild, Proc.exec_bind_ok (hf c List.mem_cons_self r hr), List.any_cons]
      cases found c with
      | true => rfl
      | false => exact ih hrest fun c hc => hf c (List.mem_cons_of_mem _ hc)

-- The whole tree is searched, by induction on it.
theorem exec_hasPrefixInNode {F : List PageTree} (h : Holds t db F) {T : PageTree}
    (hT : ∀ c ∈ T.cells, c ∈ F.flatMap cells) {fuel : Nat} (hfuel : T.height ≤ fuel) {r : PageNum}
    (hr : t.actualPage r = T.ptr) :
    Proc.exec (hasPrefixInNode fuel r start) t db =
      (.ok (T.entries.any fun entry => entry.key.startsWith start), t, db) := by
  induction T using SearchTree.induct generalizing fuel r with
  | leaf p es nx =>
    have hcell := hT _ (root_mem_cells _)
    cases fuel with
    | zero => exact absurd hfuel (by simp [height])
    | succ fuel =>
      obtain ⟨n, hread, _, _, hshape⟩ := h.exec_readNode hcell hr
      obtain ⟨htype, hes, _⟩ := BTreeNode.shape_eq_leaf hshape
      rw [hasPrefixInNode, if_neg (h.ne_zero hcell hr), Proc.exec_bind_ok hread, htype, hes]
      rfl
  | node p keys children ih =>
    have hcell := hT _ (root_mem_cells _)
    cases fuel with
    | zero => exact absurd hfuel (by simp [height])
    | succ fuel =>
      obtain ⟨n, hread, _, _, hshape⟩ := h.exec_readNode hcell hr
      obtain ⟨htype, _, hchildren⟩ := BTreeNode.shape_eq_node hshape
      rw [hasPrefixInNode, if_neg (h.ne_zero hcell hr), Proc.exec_bind_ok hread, htype]
      have hcells : ∀ c ∈ children, ∀ cell ∈ c.cells, cell ∈ F.flatMap cells := by
        intro c hc cell hcell
        apply hT
        rw [cells_node]
        exact List.mem_cons_of_mem _ (List.mem_flatMap.mpr ⟨c, hc, hcell⟩)
      have hheight : ∀ c ∈ children, c.height ≤ fuel := by
        intro c hc
        have := height_le_heightAll hc
        simp only [height] at hfuel
        omega
      rw [entries_node, List.any_flatMap]
      exact exec_anyChild hchildren fun c hc r hr => ih c hc (hcells c hc) (hheight c hc) hr

theorem Denotes.exec_hasPrefix {M : KeyMap} (h : Denotes t db M) (start : String) :
    ∃ found, Proc.exec (hasPrefix start) t db = (.ok found, t, db) ∧
      (found ↔ ∃ key, (M key).isSome ∧ key.startsWith start) := by
  obtain ⟨rank, T, hrep, rfl⟩ := h
  have hroot : t.actualPage t.getCurrentRoot = T.ptr := by
    rw [actualPage_of_none hrep.holds.wf.root, hrep.root]
  refine ⟨T.entries.any fun entry => entry.key.startsWith start, ?_, ?_⟩
  · unfold hasPrefix
    rw [Proc.exec_bind_ok (Proc.exec_getLocal t db), Proc.exec_bind_ok (exec_walkBound t db)]
    exact exec_hasPrefixInNode hrep.holds (by simp) (Nat.le_succ_of_le hrep.holds.height_le) hroot
  · rw [List.any_eq_true]
    constructor
    · rintro ⟨entry, hentry, hstart⟩
      exact ⟨entry.key, mapOf_isSome.mpr ⟨entry, hentry, rfl⟩, hstart⟩
    · rintro ⟨key, hkey, hstart⟩
      obtain ⟨entry, hentry, rfl⟩ := mapOf_isSome.mp hkey
      exact ⟨entry, hentry, hstart⟩

end Search

end JasonDb.TxBTree
