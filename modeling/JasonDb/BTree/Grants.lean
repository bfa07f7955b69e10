import JasonDb.BTree
import JasonDb.TxBTree.Grants

namespace JasonDb

open Lib

namespace BTree

variable {ℓ α : Type} {J : Database → Prop} {I : BTree → Prop} {G : PageNum → Prop} {W : Page → Prop}

section Reading

theorem safe_readNode (p : PageNum) : Proc.Safe J I (fun _ => True) (readNode p) := by
  refine Proc.safe_getLocal.bind fun t _ => ?_
  exact (safe_readPage _).bind fun _ _ => Proc.safe_ofExcept fun _ _ => trivial

theorem safe_findLeaf (fuel : Nat) (n : BTreeNode) (key : String) (path : List PageNum) :
    Proc.Safe J I (fun _ => True) (findLeaf fuel n key path) := by
  induction fuel generalizing n path with
  | zero => exact Proc.safe_fail _
  | succ fuel ih =>
    unfold findLeaf
    split
    · exact Proc.safe_pure trivial
    · refine (Proc.safe_ofExcept (Q := fun _ => True) fun _ _ => trivial).bind fun _ _ => ?_
      exact (safe_readNode _).bind fun _ _ => ih _ _

theorem safe_descend (key : String) : Proc.Safe J I (fun _ => True) (descend key) :=
  Proc.safe_getLocal.bind fun _ _ => safe_walkBound.bind fun _ _ =>
    (safe_readNode _).bind fun _ _ => safe_findLeaf _ _ _ _

theorem safe_search (key : String) : Proc.Safe J I (fun _ => True) (search key) := by
  refine (safe_descend key).bind fun r _ => ?_
  simp only
  split
  · exact Proc.safe_pure trivial
  · exact Proc.safe_fail _

theorem safe_firstLeaf (fuel : Nat) (n : BTreeNode) :
    Proc.Safe J I (fun _ => True) (firstLeaf fuel n) := by
  induction fuel generalizing n with
  | zero => exact Proc.safe_fail _
  | succ fuel ih =>
    unfold firstLeaf
    split
    · exact Proc.safe_pure trivial
    · split
      · exact Proc.safe_fail _
      · exact (safe_readNode _).bind fun _ _ => ih _

variable {visit : LeafEntry → TreeM (Option α)}
  (hvisit : ∀ entry, Proc.Safe J I (fun _ => True) (visit entry))

include hvisit

theorem safe_visitEntries (entries : List LeafEntry) :
    Proc.Safe J I (fun _ => True) (visitEntries visit entries) := by
  induction entries with
  | nil => exact Proc.safe_pure trivial
  | cons entry rest ih =>
    exact (hvisit entry).bind fun _ _ => ih.bind fun _ _ => Proc.safe_pure trivial

theorem safe_visitLeaves (fuel : Nat) (leaf : BTreeNode) :
    Proc.Safe J I (fun _ => True) (visitLeaves visit fuel leaf) := by
  induction fuel generalizing leaf with
  | zero => exact Proc.safe_fail _
  | succ fuel ih =>
    unfold visitLeaves
    split
    · exact Proc.safe_pure trivial
    · refine (safe_visitEntries hvisit _).bind fun here _ => ?_
      split
      · exact Proc.safe_pure trivial
      · refine (safe_catching (safe_readNode _)).bind fun r _ => ?_
        split
        · exact Proc.safe_pure trivial
        · exact (ih _).bind fun _ _ => Proc.safe_pure trivial

theorem safe_iterate : Proc.Safe J I (fun _ => True) (iterate visit) :=
  Proc.safe_getLocal.bind fun _ _ => safe_walkBound.bind fun _ _ =>
    (safe_readNode _).bind fun _ _ => (safe_firstLeaf _ _).bind fun _ _ =>
      safe_visitLeaves hvisit _ _

end Reading

section Entries

theorem length_insertIntoLeaf (leaf : BTreeNode) (key : String) (value : PageNum) :
    (insertIntoLeaf leaf key value).entries.length ≤ leaf.entries.length + 1 := by
  unfold insertIntoLeaf
  split
  · exact Nat.le_succ_of_le (Nat.le_of_eq (TxBTree.length_setEntry ..))
  · exact List.length_insertIdx_le_succ ..

theorem mem_insertIntoLeaf {leaf : BTreeNode} {key : String} {value : PageNum} {e : LeafEntry}
    (h : e ∈ (insertIntoLeaf leaf key value).entries) :
    e.key = key ∨ ∃ e' ∈ leaf.entries, e.key = e'.key := by
  unfold insertIntoLeaf at h
  split at h
  · exact Or.inr (TxBTree.mem_setEntry h)
  · rcases List.eq_or_mem_of_mem_insertIdx h with rfl | h
    · exact Or.inl rfl
    · exact Or.inr ⟨e, h, rfl⟩

theorem insertIntoLeaf_eq (leaf : BTreeNode) (key : String) (value : PageNum) :
    insertIntoLeaf leaf key value = { leaf with
      entries := (insertIntoLeaf leaf key value).entries
      numKeys := (insertIntoLeaf leaf key value).numKeys } := by
  unfold insertIntoLeaf
  split
  · rfl
  · rfl

end Entries

section Writing

theorem safe_markNew (p : PageNum) : Proc.Safe J (fun _ => True) (fun _ => True) (markNew p) :=
  Proc.safe_modifyLocal fun _ _ => trivial

variable {K : String → Prop} {full : BTreeNode → Prop}

section Nodes

variable (hW : Keeps J W K full)

include hW

theorem keeps_readNode (p : PageNum) :
    Proc.Safe J (fun _ => True) (fun n => W (.node n)) (readNode p) := by
  refine Proc.safe_getLocal.bind fun t _ => ?_
  have hread : Proc.Safe J (fun _ : BTree => True)
      (fun page => ∀ n, deserializeNode (t.actualPage p) page = .ok n → W (.node n))
      (readPage (t.actualPage p)) :=
    Proc.safe_atomicE fun db hdb => ⟨hdb, fun page hpage n => hW.readPage hdb hpage⟩
  exact hread.bind fun page hpage => Proc.safe_ofExcept hpage

theorem keeps_findLeaf (fuel : Nat) {n : BTreeNode} (hn : W (.node n)) (key : String)
    (path : List PageNum) : Proc.Safe J (fun _ => True)
      (fun r => W (.node r.1) ∧ r.1.nodeType = .leafNode) (findLeaf fuel n key path) := by
  induction fuel generalizing n path with
  | zero => exact Proc.safe_fail _
  | succ fuel ih =>
    unfold findLeaf
    split
    case h_1 htype => exact Proc.safe_pure ⟨hn, htype⟩
    case h_2 =>
      refine (Proc.safe_ofExcept (Q := fun _ => True) fun _ _ => trivial).bind fun _ _ => ?_
      exact (keeps_readNode hW _).bind fun _ hchild => ih hchild _

theorem keeps_descend (key : String) : Proc.Safe J (fun _ => True)
    (fun r => W (.node r.1) ∧ r.1.nodeType = .leafNode) (descend key) :=
  Proc.safe_getLocal.bind fun _ _ => safe_walkBound.bind fun _ _ =>
    (keeps_readNode hW _).bind fun _ hroot => keeps_findLeaf hW _ hroot _ _

theorem keeps_redirect {n : BTreeNode} (hn : W (.node n)) (old new : PageNum) :
    W (.node (redirect n old new)) := by
  unfold redirect
  split
  · exact hW.repoint n old new hn
  · exact hn

end Nodes

-- In place a handle may write to any page.
variable (hJ : Grants J (fun _ => True) W) (hW : Keeps J W K full)

include hJ

theorem safe_writeTarget (p : PageNum) :
    Proc.Safe J (fun _ => True) (fun _ => True) (writeTarget p) := by
  refine Proc.safe_getLocal.bind fun t _ => ?_
  split
  · exact Proc.safe_pure trivial
  · split
    · exact Proc.safe_pure trivial
    · split
      · exact Proc.safe_pure trivial
      · refine (safe_allocPageMinimum hJ _).bind fun _ _ => ?_
        exact (Proc.safe_modifyLocal fun _ _ => trivial).bind fun _ _ => Proc.safe_pure trivial

include hW

theorem keeps_writeNode {n : BTreeNode} (hn : W (.node n)) :
    Proc.Safe J (fun _ => True) (fun _ => True) (writeNode n) :=
  (safe_writeTarget hJ _).bind fun p _ => safe_writePageTransfer hJ trivial (hW.renumber n p hn)

theorem keeps_new {I : ℓ → Prop} : Proc.Safe J I (fun _ => True) (new : DbM ℓ BTree) := by
  refine (safe_allocPageMinimum hJ _).bind fun root _ => ?_
  exact ((keeps_writeNode hJ hW (hW.newLeaf root)).within trivial).bind fun _ _ =>
    Proc.safe_pure trivial

theorem keeps_createNewRoot (left right : PageNum) {key : String} (hkey : K key) :
    Proc.Safe J (fun _ => True) (fun _ => True) (createNewRoot left right key) :=
  (safe_allocPageMinimum hJ _).bind fun p _ => (safe_markNew _).bind fun _ _ =>
    (keeps_writeNode hJ hW (hW.newRoot p key [left, right] rfl hkey)).bind fun _ _ =>
      Proc.safe_modifyLocal fun _ _ => trivial

theorem keeps_splitInternal {f : BTreeNode → String → PageNum → TreeM Unit} {n : BTreeNode}
    (hn : full n) (path : List PageNum) (hf : ∀ n key p, W (.node n) → K key →
      Proc.Safe J (fun _ => True) (fun _ => True) (f n key p)) :
    Proc.Safe J (fun _ => True) (fun _ => True) (splitInternal n path f) := by
  refine (safe_allocPageMinimum hJ _).bind fun p _ => (safe_markNew _).bind fun _ _ => ?_
  split
  · exact Proc.safe_fail _
  · rename_i promoted hmid
    have hkey : K promoted := hW.innerKey n hn promoted (List.mem_of_getElem? hmid)
    refine (keeps_writeNode hJ hW (hW.innerLeft n promoted hn hmid)).bind fun _ _ => ?_
    refine (keeps_writeNode hJ hW (hW.innerRight n p promoted hn hmid)).bind fun _ _ => ?_
    split
    · refine (keeps_readNode hW _).bind fun parent hparent => ?_
      exact hf _ _ _ (keeps_redirect hW hparent _ _) hkey
    · exact keeps_createNewRoot hJ hW _ _ hkey

theorem keeps_insertIntoParent (path : List PageNum) {n : BTreeNode} {key : String}
    (hn : W (.node n)) (hkey : K key) (right : PageNum) :
    Proc.Safe J (fun _ => True) (fun _ => True) (insertIntoParent path n key right) := by
  induction path generalizing n key right with
  | nil => exact Proc.safe_fail _
  | cons page up ih =>
    unfold insertIntoParent
    simp only
    split
    · exact Proc.safe_fail _
    · rename_i hplace
      have hover := hW.insertChild n key right hn (Bool.not_eq_true _ ▸ hplace) hkey
      split
      · exact keeps_splitInternal hJ hW hover _ fun n k p hn hk => ih hn hk p
      · rename_i hfits
        exact keeps_writeNode hJ hW (hW.room n key right hover (by omega))

theorem keeps_splitLeaf {leaf : BTreeNode} (hleaf : full leaf) (htype : leaf.nodeType = .leafNode)
    (path : List PageNum) :
    Proc.Safe J (fun _ => True) (fun _ => True) (splitLeaf leaf path) := by
  refine (safe_allocPageMinimum hJ _).bind fun p _ => (safe_markNew _).bind fun _ _ => ?_
  refine (keeps_writeNode hJ hW (hW.leafLeft leaf _ _ hleaf htype)).bind fun _ _ => ?_
  refine (keeps_writeNode hJ hW (hW.leafRight leaf p _ _ hleaf htype)).bind fun _ _ => ?_
  split
  · exact Proc.safe_fail _
  · rename_i first rest hright
    have hkey : K first.key := by
      refine hW.leafKey leaf hleaf htype first (List.mem_of_mem_drop (i := leaf.entries.length / 2) ?_)
      rw [hright]
      exact List.mem_cons_self
    split
    · refine (keeps_readNode hW _).bind fun parent hparent => ?_
      exact keeps_insertIntoParent hJ hW _ (keeps_redirect hW hparent _ _) hkey _
    · exact keeps_createNewRoot hJ hW _ _ hkey

theorem keeps_updatePath (path : List PageNum) :
    Proc.Safe J (fun _ => True) (fun _ => True) (updatePathAfterModification path) := by
  match path with
  | [] => exact Proc.safe_pure trivial
  | [_] => exact Proc.safe_pure trivial
  | childPage :: parentPage :: rest =>
    unfold updatePathAfterModification
    refine (keeps_readNode hW _).bind fun parent hparent => Proc.safe_getLocal.bind fun t _ => ?_
    have hrest := keeps_updatePath (parentPage :: rest)
    split
    · split
      · exact (keeps_writeNode hJ hW (hW.repoint parent _ _ hparent)).bind fun _ _ => hrest
      · exact hrest
    · exact hrest

theorem keeps_insert {key : String} (hkey : K key) (value : PageNum) :
    Proc.Safe J (fun _ => True) (fun _ => True) (insert key value) := by
  refine (keeps_descend hW key).bind fun r hr => ?_
  obtain ⟨hleaf, htype⟩ := hr
  have hover : full (insertIntoLeaf r.1 key value) := by
    rw [insertIntoLeaf_eq]
    refine hW.grow r.1 _ _ hleaf htype (length_insertIntoLeaf ..) fun e he => ?_
    rcases mem_insertIntoLeaf he with heq | hold
    · exact Or.inl (heq ▸ hkey)
    · exact Or.inr hold
  have htype' : (insertIntoLeaf r.1 key value).nodeType = .leafNode := by
    rw [insertIntoLeaf_eq]
    exact htype
  simp only
  split
  · exact keeps_splitLeaf hJ hW hover htype' _
  · rename_i hfits
    refine (keeps_writeNode hJ hW (hW.leafRoom _ hover htype' (Nat.le_of_not_lt hfits))).bind
      fun _ _ => ?_
    exact keeps_updatePath hJ hW _

theorem keeps_delete (key : String) :
    Proc.Safe J (fun _ => True) (fun _ => True) (delete key) := by
  refine (keeps_descend hW key).bind fun r hr => ?_
  simp only
  split
  · refine keeps_writeNode hJ hW (hW.shrink r.1 _ _ hr.1 hr.2 (List.length_eraseP_le ..) ?_)
    exact fun e he => ⟨e, List.mem_of_mem_eraseP he, rfl⟩
  · exact Proc.safe_fail _

end Writing

section AnyNode

variable (hJ : Grants J (fun _ => True) W) (hnode : ∀ n, W (.node n))

include hJ hnode

theorem safe_new {I : ℓ → Prop} : Proc.Safe J I (fun _ => True) (new : DbM ℓ BTree) :=
  keeps_new hJ (keeps_all hnode)

theorem safe_insert (key : String) (value : PageNum) :
    Proc.Safe J (fun _ => True) (fun _ => True) (insert key value) :=
  keeps_insert hJ (keeps_all hnode) trivial value

theorem safe_delete (key : String) :
    Proc.Safe J (fun _ => True) (fun _ => True) (delete key) :=
  keeps_delete hJ (keeps_all hnode) key

end AnyNode

end BTree

end JasonDb
