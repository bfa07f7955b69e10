import JasonDb.Lib.Safe
import JasonDb.TxBTree.Entries

namespace JasonDb

open Lib

variable {ℓ α : Type} {J : Database → Prop} {I : ℓ → Prop} {Q : α → Prop}
  {G : PageNum → Prop} {W : Page → Prop}

-- `J` survives a new page, which is one of `G`, and any content of `W` in a page of `G`.
structure Grants (J : Database → Prop) (G : PageNum → Prop) (W : Page → Prop) : Prop where
  alloc : ∀ db min, J db → J { db with pager := (db.pager.allocPageMinimum min).2 } ∧
    ∀ p, (db.pager.allocPageMinimum min).1 = .ok p → G p
  write : ∀ db p page, J db → G p → W page →
    J { db with pager := (db.pager.writePageTransfer p page).2 }

-- Pages that a transaction may hold.
def PagesIn (G : PageNum → Prop) (W : Page → Prop) (pages : HashMap PageNum Page) : Prop :=
  ∀ p page, pages.get? p = some page → G p ∧ W page

theorem pagesIn_empty : PagesIn G W ∅ := by
  intro p page hp
  cases hp

theorem PagesIn.insert {pages : HashMap PageNum Page} (h : PagesIn G W pages) {p : PageNum}
    {page : Page} (hp : G p) (hpage : W page) : PagesIn G W (pages.insert p page) := by
  intro q page' hq
  rw [HashMap.get?_insert] at hq
  split at hq
  case isTrue heq =>
    obtain rfl := Option.some.inj hq
    exact ⟨heq ▸ hp, hpage⟩
  case isFalse => exact h q page' hq

theorem safe_catching {m : DbM ℓ α} (h : Proc.Safe J I Q m) :
    Proc.Safe J I (fun r => ∀ a, r = .ok a → Q a) (catching m) := by
  refine h.attempt.bind fun r hr => ?_
  split
  · exact Proc.safe_fail _
  · exact Proc.safe_fail _
  · exact Proc.safe_pure hr

theorem safe_readPage (p : PageNum) : Proc.Safe J I (fun _ => True) (readPage p : DbM ℓ Page) :=
  Proc.safe_atomicE fun _ hs => ⟨hs, fun _ _ => trivial⟩

theorem safe_walkBound : Proc.Safe J I (fun _ => True) (walkBound : DbM ℓ Nat) :=
  Proc.safe_atomic fun _ hs => ⟨hs, trivial⟩

theorem safe_getMetadata : Proc.Safe J I (fun _ => True) (getMetadata : DbM ℓ Metadata) :=
  Proc.safe_atomic fun _ hs => ⟨hs, trivial⟩

theorem safe_allocPageMinimum (hJ : Grants J G W) (min : PageNum) :
    Proc.Safe J I G (allocPageMinimum min : DbM ℓ PageNum) :=
  Proc.safe_atomicE fun db hs => hJ.alloc db min hs

theorem safe_writePageTransfer (hJ : Grants J G W) {p : PageNum} {page : Page} (hp : G p)
    (hpage : W page) : Proc.Safe J I (fun _ => True) (writePageTransfer p page : DbM ℓ Unit) :=
  Proc.safe_atomicE fun db hs => ⟨hJ.write db p page hs hp hpage, fun _ _ => trivial⟩

-- A class `W` of nodes and a class `K` of keys that the operations of a tree do not leave: what
-- they make of such nodes and keys is such a node again. `full` has the nodes with one key
-- more than a node may keep, before they are written or split.
structure Keeps (J : Database → Prop) (W : Page → Prop) (K : String → Prop)
    (full : BTreeNode → Prop) : Prop where
  view : ∀ db p n, J db → db.pager.view p = some (.node n) → W (.node n)
  renumber : ∀ n pageNum, W (.node n) → W (.node { n with pageNum })
  newLeaf : ∀ p, W (.node (.newLeaf p))
  newInternal : ∀ p, W (.node (.newInternal p))
  newRoot : ∀ p key children, children.length = 2 → K key →
    W (.node { BTreeNode.newInternal p with keys := [key], children, numKeys := 1 })
  repoint : ∀ n old new, W (.node n) →
    W (.node { n with children := TxBTree.replaceChild old new n.children })
  relink : ∀ n nextLeaf, W (.node n) → W (.node { n with nextLeaf })
  shrink : ∀ n entries numKeys, W (.node n) → n.nodeType = .leafNode →
    entries.length ≤ n.entries.length →
    (∀ e ∈ entries, ∃ e' ∈ n.entries, e.key = e'.key) → W (.node { n with entries, numKeys })
  grow : ∀ n entries numKeys, W (.node n) → n.nodeType = .leafNode →
    entries.length ≤ n.entries.length + 1 →
    (∀ e ∈ entries, K e.key ∨ ∃ e' ∈ n.entries, e.key = e'.key) → full { n with entries, numKeys }
  leafRoom : ∀ n, full n → n.nodeType = .leafNode → n.entries.length ≤ BTREE_ORDER → W (.node n)
  leafLeft : ∀ n numKeys nextLeaf, full n → n.nodeType = .leafNode →
    W (.node { n with entries := n.entries.take (n.entries.length / 2), numKeys, nextLeaf })
  leafRight : ∀ n p numKeys nextLeaf, full n → n.nodeType = .leafNode →
    W (.node { BTreeNode.newLeaf p with
      entries := n.entries.drop (n.entries.length / 2), numKeys, nextLeaf })
  leafKey : ∀ n, full n → n.nodeType = .leafNode → ∀ e ∈ n.entries, K e.key
  insertChild : ∀ n key child, W (.node n) → TxBTree.outOfPlace n key = false → K key →
    full (TxBTree.insertChild n key child)
  room : ∀ n key child, full (TxBTree.insertChild n key child) →
    (TxBTree.insertChild n key child).keys.length ≤ BTREE_ORDER →
    W (.node (TxBTree.insertChild n key child))
  innerLeft : ∀ n key, full n → n.keys[n.keys.length / 2]? = some key → W (.node { n with
    keys := n.keys.take (n.keys.length / 2), children := n.children.take (n.keys.length / 2 + 1),
    numKeys := n.keys.length / 2 })
  innerRight : ∀ n p key, full n → n.keys[n.keys.length / 2]? = some key →
    W (.node { BTreeNode.newInternal p with
      keys := n.keys.drop (n.keys.length / 2 + 1),
      children := n.children.drop (n.keys.length / 2 + 1),
      numKeys := (n.keys.drop (n.keys.length / 2 + 1)).length })
  innerKey : ∀ n, full n → ∀ key ∈ n.keys, K key

-- The class of all nodes.
theorem keeps_all (hnode : ∀ n, W (.node n)) : Keeps J W (fun _ => True) fun _ => True := by
  constructor
  all_goals intros
  all_goals first | exact hnode _ | exact trivial

theorem Keeps.deserialize {K : String → Prop} {full : BTreeNode → Prop}
    (hW : Keeps J W K full) {p : PageNum} {page : Page} {n : BTreeNode} (hpage : W page)
    (h : deserializeNode p page = .ok n) : W (.node n) := by
  cases page with
  | node m =>
    obtain rfl : { m with pageNum := p } = n := by simpa [deserializeNode] using h
    exact hW.renumber m p hpage
  | zero =>
    obtain rfl : BTreeNode.newInternal p = n := by simpa [deserializeNode] using h
    exact hW.newInternal p
  | _ => simp [deserializeNode] at h

theorem Keeps.readPage {K : String → Prop} {full : BTreeNode → Prop} (hW : Keeps J W K full)
    {db : Database} {p : PageNum} {page : Page} {n : BTreeNode} (hdb : J db)
    (hread : db.pager.readPage p = .ok page) (h : deserializeNode p page = .ok n) :
    W (.node n) := by
  cases page with
  | node m =>
    have hview : db.pager.view p = some (.node m) := by
      unfold Pager.readPage at hread
      split at hread
      case h_1 hv => exact hv.trans (congrArg some (Except.ok.inj hread))
      case h_2 => cases hread
    exact hW.deserialize (hW.view db p m hdb hview) h
  | zero =>
    obtain rfl : BTreeNode.newInternal p = n := by simpa [deserializeNode] using h
    exact hW.newInternal p
  | _ => simp [deserializeNode] at h

namespace TxBTree

section Reading

variable {I : TxBTree → Prop} {Q : α → Prop}

theorem safe_readNode (p : PageNum) : Proc.Safe J I (fun _ => True) (readNode p) := by
  refine Proc.safe_getLocal.bind fun t _ => ?_
  simp only
  split
  · exact Proc.safe_ofExcept fun _ _ => trivial
  · exact (safe_readPage _).bind fun _ _ => Proc.safe_ofExcept fun _ _ => trivial

theorem safe_findLeaf (fuel : Nat) (n : BTreeNode) (key : String) (path : List PageNum) :
    Proc.Safe J I (fun _ => True) (findLeaf fuel n key path) := by
  induction fuel generalizing n path with
  | zero => exact Proc.safe_fail _
  | succ fuel ih =>
    unfold findLeaf
    split
    · exact Proc.safe_pure trivial
    · refine (Proc.safe_ofExcept (Q := fun _ => True) fun _ _ => trivial).bind fun _ _ => ?_
      exact (safe_readNode _).bind fun _ _ => ih _ _

theorem safe_search (key : String) : Proc.Safe J I (fun _ => True) (search key) := by
  refine Proc.safe_getLocal.bind fun t _ => safe_walkBound.bind fun fuel _ => ?_
  refine (safe_readNode _).bind fun root _ => (safe_findLeaf _ _ _ _).bind fun r _ => ?_
  simp only
  split
  · exact Proc.safe_pure trivial
  · exact Proc.safe_fail _

theorem safe_firstChild {f : PageNum → TreeM (Option α)} (pages : List PageNum)
    (h : ∀ p, Proc.Safe J I (fun _ => True) (f p)) :
    Proc.Safe J I (fun _ => True) (firstChild f pages) := by
  induction pages with
  | nil => exact Proc.safe_pure trivial
  | cons child rest ih =>
    refine (h child).bind fun r _ => ?_
    split
    · exact Proc.safe_pure trivial
    · exact ih

theorem safe_tryChild {f : BTreeNode → TreeM (Option α)} (p : PageNum)
    (h : ∀ n, Proc.Safe J I (fun _ => True) (f n)) :
    Proc.Safe J I (fun _ => True) (tryChild p f) := by
  refine (safe_readNode p).attempt.bind fun r _ => ?_
  split
  · exact h _
  · exact Proc.safe_pure trivial

theorem safe_isPageInTree (fuel : Nat) (n : BTreeNode) (target : PageNum) :
    Proc.Safe J I (fun _ => True) (isPageInTree fuel n target) := by
  induction fuel generalizing n with
  | zero => exact Proc.safe_fail _
  | succ fuel ih =>
    unfold isPageInTree
    split
    · exact Proc.safe_pure trivial
    · split
      · exact Proc.safe_pure trivial
      · exact safe_firstChild _ fun _ => safe_tryChild _ fun _ => ih _

theorem safe_findNextLeafByKey (fuel : Nat) (n : BTreeNode) (key : String) :
    Proc.Safe J I (fun _ => True) (findNextLeafByKey fuel n key) := by
  induction fuel generalizing n with
  | zero => exact Proc.safe_fail _
  | succ fuel ih =>
    unfold findNextLeafByKey
    split
    · split
      · exact Proc.safe_pure trivial
      · exact Proc.safe_pure trivial
    · split
      · exact safe_firstChild _ fun _ => safe_tryChild _ fun _ => ih _
      · split
        · exact safe_tryChild _ fun _ => ih _
        · exact Proc.safe_fail _

theorem safe_findAnyLeafPath (fuel : Nat) (n : BTreeNode) (target : PageNum)
    (path : List PageNum) :
    Proc.Safe J I (fun _ => True) (findAnyLeafPath fuel n target path) := by
  induction fuel generalizing n path with
  | zero => exact Proc.safe_fail _
  | succ fuel ih =>
    unfold findAnyLeafPath
    split
    · exact Proc.safe_pure trivial
    · refine (safe_firstChild _ fun p => ?_).bind fun _ _ => Proc.safe_pure trivial
      refine (safe_readNode p).attempt.bind fun r _ => ?_
      split
      · exact Proc.safe_pure trivial
      · refine (ih _ _).bind fun r _ => ?_
        split
        · exact Proc.safe_pure trivial
        · exact Proc.safe_pure trivial

theorem safe_leftmostLeaf (fuel : Nat) (n : BTreeNode) :
    Proc.Safe J I (fun _ => True) (leftmostLeaf fuel n) := by
  induction fuel generalizing n with
  | zero => exact Proc.safe_fail _
  | succ fuel ih =>
    unfold leftmostLeaf
    split
    · exact Proc.safe_pure trivial
    · split
      · exact Proc.safe_fail _
      · exact (safe_readNode _).bind fun _ _ => ih _

theorem safe_hasPrefixInNode (fuel : Nat) (p : PageNum) (start : String) :
    Proc.Safe J I (fun _ => True) (hasPrefixInNode fuel p start) := by
  induction fuel generalizing p with
  | zero => exact Proc.safe_fail _
  | succ fuel ih =>
    unfold hasPrefixInNode
    split
    · exact Proc.safe_pure trivial
    · refine (safe_readNode p).bind fun node _ => ?_
      split
      · exact Proc.safe_pure trivial
      · have hany : ∀ pages : List PageNum, Proc.Safe J I (fun _ => True)
            (anyChild (fun child => hasPrefixInNode fuel child start) pages) := by
          intro pages
          induction pages with
          | nil => exact Proc.safe_pure trivial
          | cons child rest ihr =>
            refine (ih child).bind fun found _ => ?_
            split
            · exact Proc.safe_pure trivial
            · exact ihr
        exact hany _

theorem safe_hasPrefix (start : String) : Proc.Safe J I (fun _ => True) (hasPrefix start) :=
  Proc.safe_getLocal.bind fun _ _ => safe_walkBound.bind fun _ _ => safe_hasPrefixInNode _ _ _

end Reading

-- A handle that writes to pages of `G` only, and what it wrote so far.
structure Within (G : PageNum → Prop) (W : Page → Prop) (t : TxBTree) : Prop where
  new : ∀ p ∈ t.newPages, G p
  cow : ∀ p q, t.cowPages.get? p = some q → G q
  writes : PagesIn G W t.txWrites

theorem within_new {root : PageNum} {writes : HashMap PageNum Page}
    (h : PagesIn G W writes) : Within G W (new root writes) := by
  refine ⟨?_, ?_, h⟩
  · intro p hp
    exact absurd hp (HashMap.not_mem_empty p)
  · intro p q hpq
    cases hpq

section Writing

variable {K : String → Prop} {full : BTreeNode → Prop}

theorem safe_markNew {p : PageNum} (hp : G p) :
    Proc.Safe J (Within G W) (fun _ => True) (markNew p) := by
  refine Proc.safe_modifyLocal fun t ht => ⟨?_, ht.cow, ht.writes⟩
  intro q hq
  rcases HashMap.mem_insert.mp hq with rfl | hq
  · exact hp
  · exact ht.new q hq

section Nodes

variable (hW : Keeps J W K full)

include hW

theorem keeps_readNode (p : PageNum) :
    Proc.Safe J (Within G W) (fun n => W (.node n)) (readNode p) := by
  refine Proc.safe_getLocal.bind fun t ht => ?_
  simp only
  split
  case h_1 page hpage =>
    exact Proc.safe_ofExcept fun n hn => hW.deserialize (ht.writes _ _ hpage).2 hn
  case h_2 =>
    have hread : Proc.Safe J (Within G W)
        (fun page => ∀ n, deserializeNode (t.actualPage p) page = .ok n → W (.node n))
        (readPage (t.actualPage p)) :=
      Proc.safe_atomicE fun db hdb => ⟨hdb, fun page hpage n => hW.readPage hdb hpage⟩
    exact hread.bind fun page hpage => Proc.safe_ofExcept hpage

theorem keeps_findLeaf (fuel : Nat) {n : BTreeNode} (hn : W (.node n)) (key : String)
    (path : List PageNum) : Proc.Safe J (Within G W)
      (fun r => W (.node r.1) ∧ r.1.nodeType = .leafNode) (findLeaf fuel n key path) := by
  induction fuel generalizing n path with
  | zero => exact Proc.safe_fail _
  | succ fuel ih =>
    unfold findLeaf
    split
    case h_1 htype => exact Proc.safe_pure ⟨hn, htype⟩
    case h_2 =>
      refine (Proc.safe_ofExcept (Q := fun _ => True) fun _ _ => trivial).bind fun _ _ => ?_
      exact (keeps_readNode hW _).bind fun _ hchild => ih hchild _

theorem keeps_repairNextLeaf (fuel : Nat) {leaf : BTreeNode} (hleaf : W (.node leaf)) :
    Proc.Safe J (Within G W) (fun n => W (.node n)) (repairNextLeaf fuel leaf) := by
  unfold repairNextLeaf
  split
  · exact Proc.safe_pure hleaf
  · refine Proc.safe_getLocal.bind fun t _ => (safe_readNode _).bind fun root _ => ?_
    split
    · exact Proc.safe_pure hleaf
    · refine (safe_isPageInTree _ _ _).bind fun r _ => ?_
      split
      · exact Proc.safe_pure hleaf
      · refine Proc.Safe.bind (Q := fun _ => True) (m := findCorrectNextLeaf fuel root leaf) ?_
          fun r _ => ?_
        · unfold findCorrectNextLeaf
          split
          · exact Proc.safe_pure trivial
          · exact safe_findNextLeafByKey _ _ _
        · split
          · exact Proc.safe_pure (hW.relink leaf _ hleaf)
          · exact Proc.safe_pure hleaf

-- The parent of a node that was copied, with the pointer to it changed.
theorem keeps_redirected {n : BTreeNode} (hn : W (.node n)) (old new : PageNum) :
    W (.node (if old ≠ new then { n with children := replaceChild old new n.children } else n)) := by
  split
  · exact hW.repoint n old new hn
  · exact hn

end Nodes

variable (hJ : Grants J G W) (hW : Keeps J W K full)

include hJ

theorem safe_writeTarget (p : PageNum) : Proc.Safe J (Within G W) G (writeTarget p) := by
  refine Proc.safe_getLocal.bind fun t ht => ?_
  split
  case isTrue hmem => exact Proc.safe_pure (ht.new p hmem)
  case isFalse =>
    split
    case h_1 existing hcow => exact Proc.safe_pure (ht.cow p existing hcow)
    case h_2 =>
      have hrest : ∀ (root : TxBTree → PageNum) (q : PageNum), G q →
          Proc.Safe J (Within G W) G ((do
            Proc.modifyLocal fun t => { t with
              cowPages := t.cowPages.insert p q
              newPages := t.newPages.insert q true
              modifiedRoot := root t }
            pure q) : TreeM PageNum) := by
        intro root q hq
        refine (Proc.safe_modifyLocal fun t ht => ⟨?_, ?_, ht.writes⟩).bind fun _ _ =>
          Proc.safe_pure hq
        · intro n hn
          rcases HashMap.mem_insert.mp hn with rfl | hn
          · exact hq
          · exact ht.new n hn
        · intro a b hab
          simp only [HashMap.get?_insert] at hab
          split at hab
          · obtain rfl := Option.some.inj hab
            exact hq
          · exact ht.cow a b hab
      simp only [allocPage]
      split
      · exact (safe_allocPageMinimum hJ _).bind fun q hq => hrest (fun _ => q) q hq
      · exact (safe_allocPageMinimum hJ _).bind fun q hq => hrest modifiedRoot q hq

theorem safe_writeNode {n : BTreeNode} (hn : ∀ p, W (.node { n with pageNum := p })) :
    Proc.Safe J (Within G W) G (writeNode n) := by
  refine (safe_writeTarget hJ _).bind fun q hq => ?_
  refine (Proc.safe_modifyLocal fun t ht => ⟨ht.new, ht.cow, ?_⟩).bind fun _ _ =>
    (safe_writePageTransfer hJ hq (hn q)).bind fun _ _ => Proc.safe_pure hq
  exact ht.writes.insert hq (hn q)

include hW

theorem keeps_writeNode {n : BTreeNode} (hn : W (.node n)) :
    Proc.Safe J (Within G W) G (writeNode n) :=
  safe_writeNode hJ fun p => hW.renumber n p hn

theorem keeps_updatePath (path : List PageNum) :
    Proc.Safe J (Within G W) (fun _ => True) (updatePathAfterModification path) := by
  induction path with
  | nil => exact Proc.safe_pure trivial
  | cons c tail ih =>
    cases tail with
    | nil => exact Proc.safe_pure trivial
    | cons parent rest =>
      unfold updatePathAfterModification
      refine (keeps_readNode hW parent).bind fun n hn => Proc.safe_getLocal.bind fun t _ => ?_
      simp only
      split
      · split
        · exact (keeps_writeNode hJ hW (hW.repoint n _ _ hn)).bind fun _ _ => ih
        · exact ih
      · exact ih

theorem keeps_createNewRoot (left right : PageNum) {key : String} (hkey : K key) :
    Proc.Safe J (Within G W) (fun _ => True) (createNewRoot left right key) := by
  refine Proc.safe_getLocal.bind fun t _ => (safe_allocPageMinimum hJ _).bind fun p hp => ?_
  refine (safe_markNew hp).bind fun _ _ => ?_
  refine (keeps_writeNode hJ hW (hW.newRoot p key [left, right] rfl hkey)).bind fun q _ => ?_
  exact Proc.safe_modifyLocal fun t ht => ⟨ht.new, ht.cow, ht.writes⟩

theorem keeps_splitInternal {f : BTreeNode → String → PageNum → TreeM Unit} {n : BTreeNode}
    (hn : full n) (path : List PageNum) (h : ∀ n key p, W (.node n) → K key →
      Proc.Safe J (Within G W) (fun _ => True) (f n key p)) :
    Proc.Safe J (Within G W) (fun _ => True) (splitInternal n path f) := by
  refine (safe_allocPageMinimum hJ _).bind fun p hp => (safe_markNew hp).bind fun _ _ => ?_
  split
  · exact Proc.safe_fail _
  · rename_i promoted hmid
    have hkey : K promoted := hW.innerKey n hn promoted (List.mem_of_getElem? hmid)
    refine (keeps_writeNode hJ hW (hW.innerLeft n promoted hn hmid)).bind fun _ _ => ?_
    refine (keeps_writeNode hJ hW (hW.innerRight n p promoted hn hmid)).bind fun _ _ => ?_
    split
    · refine (keeps_readNode hW _).bind fun parent hparent => ?_
      exact h _ _ _ (keeps_redirected hW hparent _ _) hkey
    · exact keeps_createNewRoot hJ hW _ _ hkey

theorem keeps_insertIntoParent (path : List PageNum) {n : BTreeNode} {key : String}
    (hn : W (.node n)) (hkey : K key) (right : PageNum) :
    Proc.Safe J (Within G W) (fun _ => True) (insertIntoParent path n key right) := by
  induction path generalizing n key right with
  | nil => exact Proc.safe_fail _
  | cons page up ih =>
    unfold insertIntoParent
    simp only
    split
    · exact Proc.safe_fail _
    · rename_i hplace
      have hover := hW.insertChild n key right hn (Bool.not_eq_true _ ▸ hplace) hkey
      split
      · exact keeps_splitInternal hJ hW hover _ fun n k p hn hk => ih hn hk p
      · rename_i hfits
        refine (keeps_writeNode hJ hW (hW.room n key right hover (by omega))).bind fun _ _ => ?_
        exact keeps_updatePath hJ hW _

theorem keeps_splitLeaf {leaf : BTreeNode} (hleaf : full leaf) (htype : leaf.nodeType = .leafNode)
    (path : List PageNum) :
    Proc.Safe J (Within G W) (fun _ => True) (splitLeaf leaf path) := by
  refine (safe_allocPageMinimum hJ _).bind fun p hp => (safe_markNew hp).bind fun _ _ => ?_
  refine Proc.safe_getLocal.bind fun t _ => ?_
  simp only
  split
  · exact Proc.safe_fail _
  · rename_i first rest hright
    have hkey : K first.key := by
      refine hW.leafKey leaf hleaf htype first (List.mem_of_mem_drop (i := leaf.entries.length / 2) ?_)
      rw [hright]
      exact List.mem_cons_self
    refine (keeps_writeNode hJ hW (hW.leafLeft leaf _ _ hleaf htype)).bind fun _ _ => ?_
    refine (keeps_writeNode hJ hW (hW.leafRight leaf p _ _ hleaf htype)).bind fun _ _ => ?_
    split
    · refine (keeps_readNode hW _).bind fun parent hparent => ?_
      exact keeps_insertIntoParent hJ hW _ (keeps_redirected hW hparent _ _) hkey _
    · exact keeps_createNewRoot hJ hW _ _ hkey

theorem keeps_redirectLink (root : BTreeNode) (rootPage oldPage newPage : PageNum) (fuel : Nat)
    (page : PageNum) : Proc.Safe J (Within G W) (fun _ => True)
      (redirectLink root rootPage oldPage newPage fuel page) := by
  induction fuel generalizing page with
  | zero => exact Proc.safe_fail _
  | succ fuel ih =>
    unfold redirectLink
    refine (keeps_readNode hW page).bind fun leaf hleaf => ?_
    split
    · refine safe_walkBound.bind fun bound _ => (safe_findAnyLeafPath _ _ _ _).bind fun found _ => ?_
      split
      · exact Proc.safe_fail _
      · refine (keeps_writeNode hJ hW (hW.relink leaf _ hleaf)).bind fun _ _ => ?_
        split
        · exact keeps_updatePath hJ hW _
        · exact Proc.safe_pure trivial
    · split
      · exact Proc.safe_pure trivial
      · exact ih _

theorem keeps_updatePredecessor (oldPage newPage : PageNum) : Proc.Safe J (Within G W)
    (fun _ => True) (updatePredecessorNextLeaf oldPage newPage) := by
  refine Proc.safe_getLocal.bind fun t _ => (safe_readNode _).bind fun root _ => ?_
  refine safe_walkBound.bind fun fuel _ => ?_
  simp only
  split
  · exact keeps_redirectLink hJ hW _ _ _ _ _ _
  · exact (safe_leftmostLeaf _ _).bind fun _ _ => keeps_redirectLink hJ hW _ _ _ _ _ _

theorem keeps_insert {key : String} (hkey : K key) (value : PageNum) :
    Proc.Safe J (Within G W) (fun _ => True) (insert key value) := by
  refine Proc.safe_getLocal.bind fun t _ => safe_walkBound.bind fun fuel _ => ?_
  refine (keeps_readNode hW _).bind fun root hroot => ?_
  refine (keeps_findLeaf hW _ hroot _ _).bind fun r hr => ?_
  obtain ⟨hleaf, htype⟩ := hr
  have hover := hW.grow r.1 (insertEntry key value r.1.entries)
    (insertEntry key value r.1.entries).length hleaf htype (length_insertEntry_le ..) (by
      intro e he
      rcases mem_insertEntry he with rfl | hold
      · exact Or.inl hkey
      · exact Or.inr ⟨e, hold, rfl⟩)
  simp only
  split
  · exact keeps_splitLeaf hJ hW hover htype _
  · rename_i hfits
    refine (keeps_repairNextLeaf hW _ (hW.leafRoom _ hover htype (Nat.le_of_not_lt hfits))).bind
      fun leaf hleaf => ?_
    refine (keeps_writeNode hJ hW hleaf).bind fun q _ => ?_
    split
    · refine Proc.Safe.bind (Q := fun _ => True) (m := ignoreErrors _) ?_ fun _ _ =>
        keeps_updatePath hJ hW _
      exact (safe_catching (keeps_updatePredecessor hJ hW _ _)).bind fun _ _ =>
        Proc.safe_pure trivial
    · exact keeps_updatePath hJ hW _

theorem keeps_update (key : String) (value : PageNum) :
    Proc.Safe J (Within G W) (fun _ => True) (update key value) := by
  refine Proc.safe_getLocal.bind fun t _ => safe_walkBound.bind fun fuel _ => ?_
  refine (keeps_readNode hW _).bind fun root hroot => ?_
  refine (keeps_findLeaf hW _ hroot _ _).bind fun r hr => ?_
  simp only
  split
  · have hset := hW.shrink r.1 (setEntry key value r.1.entries) r.1.numKeys hr.1 hr.2
      (Nat.le_of_eq (length_setEntry ..)) fun _ => mem_setEntry
    exact (keeps_writeNode hJ hW hset).bind fun _ _ => keeps_updatePath hJ hW _
  · exact Proc.safe_fail _

theorem keeps_delete (key : String) :
    Proc.Safe J (Within G W) (fun _ => True) (delete key) := by
  refine Proc.safe_getLocal.bind fun t _ => safe_walkBound.bind fun fuel _ => ?_
  refine (keeps_readNode hW _).bind fun root hroot => ?_
  refine (keeps_findLeaf hW _ hroot _ _).bind fun r hr => ?_
  simp only
  split
  · exact Proc.safe_fail _
  · have herase := hW.shrink r.1 (r.1.entries.filter (·.key ≠ key))
      (r.1.entries.filter (·.key ≠ key)).length hr.1 hr.2 (List.length_filter_le ..)
      fun e he => ⟨e, List.mem_of_mem_filter he, rfl⟩
    exact (keeps_writeNode hJ hW herase).bind fun _ _ => keeps_updatePath hJ hW _

theorem keeps_createEmpty {I : ℓ → Prop} {writes : HashMap PageNum Page} (h : PagesIn G W writes) :
    Proc.Safe J I (Within G W) (createEmpty writes : DbM ℓ TxBTree) := by
  refine (safe_allocPageMinimum hJ _).bind fun q hq => ?_
  have hleaf := hW.newLeaf q
  refine (safe_writePageTransfer hJ hq hleaf).bind fun _ _ =>
    Proc.safe_pure ⟨?_, ?_, h.insert hq hleaf⟩
  · intro p hp
    rcases HashMap.mem_insert.mp hp with rfl | hp
    · exact hq
    · exact absurd hp (HashMap.not_mem_empty p)
  · intro a b hab
    cases hab

end Writing

section AnyNode

variable (hJ : Grants J G W) (hnode : ∀ n, W (.node n))

include hJ hnode

theorem safe_insert (key : String) (value : PageNum) :
    Proc.Safe J (Within G W) (fun _ => True) (insert key value) :=
  keeps_insert hJ (keeps_all hnode) trivial value

theorem safe_update (key : String) (value : PageNum) :
    Proc.Safe J (Within G W) (fun _ => True) (update key value) :=
  keeps_update hJ (keeps_all hnode) key value

theorem safe_delete (key : String) : Proc.Safe J (Within G W) (fun _ => True) (delete key) :=
  keeps_delete hJ (keeps_all hnode) key

end AnyNode

end TxBTree

end JasonDb
