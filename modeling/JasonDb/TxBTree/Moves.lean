import JasonDb.Pager.Lemmas
import JasonDb.TxBTree.Ownership

namespace JasonDb.TxBTree

open Lib

variable {t t₀ : TxBTree} {db db₀ : Database}

-- The node that is read from a page.
def NodeRead (db : Database) (p : PageNum) (n : BTreeNode) : Prop :=
  ∃ page, db.pager.view p = some page ∧ deserializeNode p page = .ok n

theorem NodeRead.pageNum {p : PageNum} {n : BTreeNode} (h : NodeRead db p n) : n.pageNum = p := by
  obtain ⟨page, _, hd⟩ := h
  cases page <;> simp [deserializeNode, BTreeNode.newInternal] at hd <;> simp [← hd]

theorem NodeRead.unique {p : PageNum} {n m : BTreeNode} (h : NodeRead db p n)
    (h' : NodeRead db p m) : n = m := by
  obtain ⟨page, hv, hd⟩ := h
  obtain ⟨page', hv', hd'⟩ := h'
  rw [hv] at hv'
  obtain rfl := Option.some.inj hv'
  rw [hd] at hd'
  exact Except.ok.inj hd'

-- A read leaves everything as it is and gives the node that readers see.
theorem reads_readNode (h : Owns t db) (p : PageNum) :
    ∃ r, Proc.exec (readNode p) t db = (r, t, db) ∧
      ∀ n, r = .ok n → NodeRead db (t.actualPage p) n := by
  unfold readNode
  rw [Proc.exec_bind_ok (Proc.exec_getLocal t db)]
  simp only
  cases hw : t.txWrites.get? (t.actualPage p) with
  | some page =>
    have hview := h.coherent _ _ hw
    refine ⟨deserializeNode (t.actualPage p) page, ?_, fun n hn => ⟨page, hview, hn⟩⟩
    simp only
    cases deserializeNode (t.actualPage p) page <;> rfl
  | none =>
    simp only
    cases hv : db.pager.view (t.actualPage p) with
    | none =>
      have hread : Proc.exec (readPage (t.actualPage p)) t db =
          (.error (.io "failed to fill whole buffer"), t, db) := by
        simp [readPage, Proc.exec_atomicE, Pager.readPage, hv]
      exact ⟨_, Proc.exec_bind_error hread, by simp⟩
    | some page =>
      have hread : Proc.exec (readPage (t.actualPage p)) t db = (.ok page, t, db) := by
        simp [readPage, Proc.exec_atomicE, Pager.readPage, hv]
      refine ⟨deserializeNode (t.actualPage p) page, ?_, fun n hn => ⟨page, hv, hn⟩⟩
      rw [Proc.exec_bind_ok hread]
      cases deserializeNode (t.actualPage p) page <;> rfl

-- A way down from the root, innermost page first, to the page that holds a node.
inductive Trail (db : Database) (root : PageNum) : List PageNum → BTreeNode → Prop
  | root {n : BTreeNode} (h : NodeRead db root n) : Trail db root [root] n
  | down {p c : PageNum} {rest : List PageNum} {n m : BTreeNode} (up : Trail db root (p :: rest) n)
      (child : c ∈ n.children) (h : NodeRead db c m) : Trail db root (c :: p :: rest) m

theorem Trail.read {root p : PageNum} {rest : List PageNum} {n : BTreeNode}
    (h : Trail db root (p :: rest) n) : NodeRead db p n := by
  cases h with
  | root h => exact h
  | down _ _ h => exact h

theorem NodeRead.links {p c : PageNum} {n : BTreeNode} (h : NodeRead db p n) (hc : c ∈ n.children) :
    Links db.pager.view p c := by
  obtain ⟨page, hv, hd⟩ := h
  refine ⟨page, hv, ?_⟩
  cases page with
  | node m =>
    obtain rfl := Except.ok.inj hd
    exact List.mem_append_left _ hc
  | zero =>
    obtain rfl := Except.ok.inj hd
    simp [BTreeNode.newInternal] at hc
  | doc d => simp [deserializeNode] at hd
  | overflow o => simp [deserializeNode] at hd
  | metadata m => simp [deserializeNode] at hd
  | header hdr => simp [deserializeNode] at hd
  | postings entries => simp [deserializeNode] at hd

theorem Trail.reaches {root : PageNum} {path : List PageNum} {n : BTreeNode}
    (h : Trail db root path n) : ∀ p ∈ path, Reaches db.pager.view root p := by
  induction h with
  | root h =>
    intro p hp
    obtain rfl := List.mem_singleton.mp hp
    exact .refl
  | down up child h ih =>
    intro p hp
    rcases List.mem_cons.mp hp with rfl | hp
    · exact (ih _ (by simp)).tail (up.read.links child)
    · exact ih p hp

theorem findChild_mem {n : BTreeNode} {key : String} {c : PageNum} (h : findChild n key = .ok c) :
    c ∈ n.children := by
  unfold findChild at h
  split at h
  · split at h
    · obtain rfl := Except.ok.inj h
      exact List.mem_of_getElem? ‹_›
    · simp at h
  · split at h
    · obtain rfl := Except.ok.inj h
      exact List.mem_of_getLast? ‹_›
    · simp at h

-- A handle that has not copied anything follows the pages as they are.
theorem reads_findLeaf (h : Owns t db) (hcow : ∀ p, t.actualPage p = p) {root : PageNum}
    (fuel : Nat) {n : BTreeNode} {path : List PageNum} (key : String) (htrail : Trail db root path n) :
    ∃ r, Proc.exec (findLeaf fuel n key path) t db = (r, t, db) ∧
      ∀ leaf path', r = .ok (leaf, path') → Trail db root path' leaf := by
  induction fuel generalizing n path with
  | zero => exact ⟨_, Proc.exec_fail _ t db, by simp⟩
  | succ fuel ih =>
    unfold findLeaf
    split
    · refine ⟨_, Proc.exec_pure _ t db, ?_⟩
      intro leaf path' he
      simp only [Except.ok.injEq, Prod.mk.injEq] at he
      obtain ⟨rfl, rfl⟩ := he
      exact htrail
    · cases hc : findChild n key with
      | error e => exact ⟨_, Proc.exec_bind_error (Proc.exec_fail e t db), by simp⟩
      | ok c =>
        rw [show (Proc.ofExcept (.ok c) : TreeM PageNum) = pure c from rfl,
          Proc.exec_bind_ok (Proc.exec_pure c t db)]
        obtain ⟨r, he, hr⟩ := reads_readNode h c
        cases r with
        | error e => exact ⟨_, Proc.exec_bind_error he, by simp⟩
        | ok m =>
          rw [Proc.exec_bind_ok he]
          have hm := hr m rfl
          rw [hcow] at hm
          cases path with
          | nil => cases htrail
          | cons p rest => exact ih (htrail.down (findChild_mem hc) hm)

section Climb

-- From here on a handle that had nothing of its own in `db₀`; the pages of the trail were in use.
variable (hnew : ∀ p, p ∉ t₀.newPages) (hon : Onward t₀ db₀ t db) (h : Owns t db)

include hnew hon

theorem not_mem_newPages {p : PageNum} (hp : db₀.pager.Allocated p) : p ∉ t.newPages := by
  intro hmem
  rcases hon.fresh p hmem with hp' | hp'
  · exact hnew p hp'
  · exact hp' hp

theorem nodeRead_kept {p : PageNum} {n : BTreeNode} (hp : db₀.pager.Allocated p)
    (hn : NodeRead db₀ p n) : NodeRead db p n := by
  obtain ⟨page, hv, hd⟩ := hn
  exact ⟨page, by rw [hon.view p (not_mem_newPages hnew hon hp), hv], hd⟩

include h

-- A page of the trail that was not copied still holds its node.
theorem reads_trail {p : PageNum} {n : BTreeNode} (hp : db₀.pager.Allocated p)
    (hn : NodeRead db₀ p n) :
    ∃ r, Proc.exec (readNode p) t db = (r, t, db) ∧
      ∀ m, r = .ok m → m = n ∨ t.cowPages.get? p ≠ none := by
  obtain ⟨r, he, hr⟩ := reads_readNode h p
  refine ⟨r, he, fun m hm => ?_⟩
  by_cases hc : t.cowPages.get? p = none
  · have hact : t.actualPage p = p := by simp [actualPage, hc]
    have hread := hr m hm
    rw [hact] at hread
    exact Or.inl (hread.unique (nodeRead_kept hnew hon hp hn))
  · exact Or.inr hc

-- A page of the trail is copied when its node is written.
theorem confined_copy {p : PageNum} {n : BTreeNode} (hp : db₀.pager.Allocated p)
    (hn : n.pageNum = p ∨ t.cowPages.get? p ≠ none) :
    Confined t db (writeNode n) fun _ t' => t'.cowPages.get? p ≠ none := by
  intro r t' db' he
  obtain ⟨h', hon', hpost⟩ := confined_writeNode h n r t' db' he
  refine ⟨h', hon', fun q hq => ?_⟩
  rcases hn with rfl | hc
  · exact (hpost q hq).2.resolve_left (not_mem_newPages hnew hon hp)
  · exact hon'.copied p hc

end Climb

-- The handle copied the innermost page of the trail: then the update of the path copies every
-- page above it, and with the last one the root has moved.
theorem confined_climb {path : List PageNum} {n : BTreeNode} (hnew : ∀ p, p ∉ t₀.newPages)
    (htrail : Trail db₀ t₀.snapshotRoot path n) (hall : ∀ p ∈ path, db₀.pager.Allocated p)
    (hon : Onward t₀ db₀ t db) (h : Owns t db) (hcow : ∀ c ∈ path.head?, t.cowPages.get? c ≠ none) :
    Confined t db (updatePathAfterModification path) fun _ t' => t'.modifiedRoot ≠ 0 := by
  induction htrail generalizing t db with
  | root hn =>
    refine confined_pure h (h.moved ?_)
    rw [hon.snapshot]
    exact hcow _ rfl
  | @down p c rest n m up child hm ih =>
    have hp : db₀.pager.Allocated p := hall p (by simp)
    have hc : t.cowPages.get? c ≠ none := hcow c rfl
    -- what is left once `p` has been copied
    have hrest : ∀ t' db', Owns t' db' → Onward t db t' db' → t'.cowPages.get? p ≠ none →
        Confined t' db' (updatePathAfterModification (p :: rest)) fun _ t' =>
          t'.modifiedRoot ≠ 0 := by
      intro t' db' h' hon' hcp
      refine ih (fun q hq => hall q (List.mem_cons_of_mem _ hq)) (hon.trans hon') h' ?_
      intro q hq
      obtain rfl := Option.some.inj hq
      exact hcp
    unfold updatePathAfterModification
    obtain ⟨r, he, hr⟩ := reads_trail hnew hon h hp up.read
    refine confined_bind_same h he fun parent hparent => confined_getLocal_bind ?_
    obtain ⟨newChild, hnewChild⟩ := Option.ne_none_iff_exists'.mp hc
    simp only [hnewChild]
    by_cases hmem : c ∈ parent.children
    · rw [if_pos hmem]
      refine (confined_copy hnew hon h hp ?_).bindOn fun _ t' db' h' hon' hcp =>
        hrest t' db' h' hon' hcp
      exact (hr parent hparent).imp (fun hpn => by rw [hpn]; exact up.read.pageNum) id
    · rw [if_neg hmem]
      refine hrest t db h (Onward.refl _ _) ((hr parent hparent).resolve_left fun hpn => ?_)
      exact hmem (hpn ▸ child)

-- The same for a node that gets a new child, or is split in turn.
theorem confined_climbInsert {path : List PageNum} {n : BTreeNode} (hnew : ∀ p, p ∉ t₀.newPages)
    (htrail : Trail db₀ t₀.snapshotRoot path n) (hall : ∀ p ∈ path, db₀.pager.Allocated p)
    (hon : Onward t₀ db₀ t db) (h : Owns t db) {parent : BTreeNode}
    (hparent : ∀ p ∈ path.head?, parent.pageNum = p ∨ t.cowPages.get? p ≠ none) (key : String)
    (right : PageNum) :
    Confined t db (insertIntoParent path parent key right) fun _ t' => t'.modifiedRoot ≠ 0 := by
  induction htrail generalizing t db parent key right with
  | root hn =>
    unfold insertIntoParent
    simp only
    split
    · exact confined_fail h _
    split
    · unfold splitInternal
      refine confined_allocNew h 0 fun _ t₁ db₁ h₁ _ _ => ?_
      split
      · exact confined_fail h₁ _
      · refine (confined_writeNode h₁ _).bind fun _ t₂ db₂ h₂ _ => ?_
        exact (confined_writeNode h₂ _).bind fun _ t₃ db₃ h₃ _ => confined_createNewRoot h₃
    · refine (confined_copy (n := insertChild parent key right) hnew hon h (hall _ (by simp))
        (hparent _ rfl)).bindOn fun _ t₁ db₁ h₁ hon₁ hc => ?_
      refine confined_climb hnew (.root hn) hall (hon.trans hon₁) h₁ ?_
      intro c hc'
      obtain rfl := Option.some.inj hc'
      exact hc
  | @down p c rest n m up child hm ih =>
    have hp : db₀.pager.Allocated p := hall p (by simp)
    have hrest : ∀ q ∈ p :: rest, db₀.pager.Allocated q := fun q hq =>
      hall q (List.mem_cons_of_mem _ hq)
    unfold insertIntoParent
    simp only
    split
    · exact confined_fail h _
    split
    · -- the node is split: the page above it is read and goes on
      unfold splitInternal
      refine confined_allocNew h 0 fun newNodePage t₁ db₁ h₁ hon₁ _ => ?_
      split
      · exact confined_fail h₁ _
      · refine (confined_writeNode h₁ _).bindOn fun _ t₂ db₂ h₂ hon₂ _ => ?_
        refine (confined_writeNode h₂ _).bindOn fun _ t₃ db₃ h₃ hon₃ _ => ?_
        have hon' := ((hon.trans hon₁).trans hon₂).trans hon₃
        obtain ⟨r, he, hr⟩ := reads_trail hnew hon' h₃ hp up.read
        refine confined_bind_same h₃ he fun above habove => ih hrest hon' h₃ ?_ _ _
        intro q hq
        obtain rfl := Option.some.inj hq
        refine (hr above habove).imp (fun hpn => ?_) id
        have hpage : above.pageNum = p := by rw [hpn, up.read.pageNum]
        split
        · exact hpage
        · exact hpage
    · refine (confined_copy (n := insertChild parent key right) hnew hon h (hall c (by simp))
        (hparent _ rfl)).bindOn fun _ t₁ db₁ h₁ hon₁ hc => ?_
      refine confined_climb hnew (.down up child hm) hall (hon.trans hon₁) h₁ ?_
      intro x hx
      obtain rfl := Option.some.inj hx
      exact hc

-- The leaf at the end of the trail is copied; `k` goes on and ends with the update of the path.
theorem confined_copyLeaf {path : List PageNum} {leaf n : BTreeNode} {k : PageNum → TreeM Unit}
    (hnew : ∀ p, p ∉ t₀.newPages) (htrail : Trail db₀ t₀.snapshotRoot path leaf)
    (hp : ∀ p ∈ path, db₀.pager.Allocated p) (hon : Onward t₀ db₀ t db) (h : Owns t db)
    (hn : n.pageNum = leaf.pageNum)
    (hk : ∀ q t₁ db₁, Owns t₁ db₁ → (∀ t₂ db₂, Owns t₂ db₂ → Onward t₁ db₁ t₂ db₂ →
      Confined t₂ db₂ (updatePathAfterModification path) fun _ t' => t'.modifiedRoot ≠ 0) →
      Confined t₁ db₁ (k q) fun _ t' => t'.modifiedRoot ≠ 0) :
    Confined t db (writeNode n >>= k) fun _ t' => t'.modifiedRoot ≠ 0 := by
  obtain ⟨p, rest, rfl⟩ : ∃ p rest, path = p :: rest := by
    cases htrail with
    | root _ => exact ⟨_, _, rfl⟩
    | down _ _ _ => exact ⟨_, _, rfl⟩
  have hpage : n.pageNum = p := by rw [hn, htrail.read.pageNum]
  refine (confined_copy hnew hon h (hp p (by simp)) (Or.inl hpage)).bindOn
    fun q t₁ db₁ h₁ hon₁ hc => hk q t₁ db₁ h₁ fun t₂ db₂ h₂ hon₂ => ?_
  refine confined_climb hnew htrail hp ((hon.trans hon₁).trans hon₂) h₂ ?_
  intro x hx
  obtain rfl := Option.some.inj hx
  exact hon₂.copied _ hc

theorem confined_splitLeaf_moves {path : List PageNum} {leaf n : BTreeNode} (h : Owns t₀ db₀)
    (hnew : ∀ p, p ∉ t₀.newPages) (htrail : Trail db₀ t₀.snapshotRoot path leaf)
    (hp : ∀ p ∈ path, db₀.pager.Allocated p) :
    Confined t₀ db₀ (splitLeaf n path) fun _ t' => t'.modifiedRoot ≠ 0 := by
  unfold splitLeaf
  refine confined_allocNew h 0 fun _ t₁ db₁ h₁ hon₁ _ => confined_getLocal_bind ?_
  simp only
  split
  · exact confined_fail h₁ _
  · refine (confined_writeNode h₁ _).bindOn fun _ t₂ db₂ h₂ hon₂ _ => ?_
    refine (confined_writeNode h₂ _).bindOn fun _ t₃ db₃ h₃ hon₃ _ => ?_
    cases htrail with
    | root _ => exact confined_createNewRoot h₃
    | down up child hm =>
      have hon := (hon₁.trans hon₂).trans hon₃
      obtain ⟨r, he, hr⟩ := reads_trail hnew hon h₃ (hp _ (by simp)) up.read
      refine confined_bind_same h₃ he fun above habove => ?_
      refine confined_climbInsert hnew up (fun q hq => hp q (List.mem_cons_of_mem _ hq)) hon h₃ ?_ _ _
      intro q hq
      obtain rfl := Option.some.inj hq
      refine (hr above habove).imp (fun hpn => ?_) id
      rw [← up.read.pageNum, ← hpn]
      split <;> rfl

-- A tree all of whose pages are in use; 0, where the header is, stands for no tree.
def Sound (db : Database) (root : PageNum) : Prop :=
  (root = 0 ∧ ∀ n, ¬ NodeRead db 0 n) ∨ ∀ p, Reaches db.pager.view root p → db.pager.Allocated p

theorem Sound.allocated {root p : PageNum} {n : BTreeNode} (h : Sound db root)
    (hn : NodeRead db root n) (hp : Reaches db.pager.view root p) : db.pager.Allocated p := by
  rcases h with ⟨rfl, hnone⟩ | hall
  · exact absurd hn (hnone n)
  · exact hall p hp

theorem Sound.root {root : PageNum} (h : Sound db root) : root = 0 ∨ db.pager.Allocated root :=
  h.imp And.left fun hall => hall root .refl

section Pristine

-- A handle as `new` makes it, over such a tree.
variable (h : Owns t₀ db₀) (hnew : ∀ p, p ∉ t₀.newPages) (hcow : ∀ p, t₀.actualPage p = p)
  (hmod : t₀.modifiedRoot = 0)
  (hall : Sound db₀ t₀.snapshotRoot)

include h hcow hmod hall

-- The way to the leaf of a key, which every operation starts with.
theorem confined_descend {β : Type} {R : β → TxBTree → Prop} (key : String)
    {k : Nat → BTreeNode × List PageNum → TreeM β}
    (hk : ∀ fuel leaf path, Trail db₀ t₀.snapshotRoot path leaf →
      (∀ p ∈ path, db₀.pager.Allocated p) → Confined t₀ db₀ (k fuel (leaf, path)) R) :
    Confined t₀ db₀ (do
      let t ← Proc.getLocal
      let fuel ← walkBound
      let root ← readNode t.getCurrentRoot
      let r ← findLeaf fuel root key [t.getCurrentRoot]
      k fuel r) R := by
  have hroot : t₀.getCurrentRoot = t₀.snapshotRoot := by simp [getCurrentRoot, hmod]
  refine confined_getLocal_bind ?_
  refine confined_bind_same (r := .ok (db₀.pager.numPages + 1)) h rfl fun fuel _ => ?_
  rw [hroot]
  obtain ⟨r, he, hr⟩ := reads_readNode h t₀.snapshotRoot
  refine confined_bind_same h he fun root hrd => ?_
  have hread := hr root hrd
  rw [hcow] at hread
  obtain ⟨r', he', hr'⟩ := reads_findLeaf h hcow fuel key (.root hread)
  refine confined_bind_same h he' fun found hfound => ?_
  obtain ⟨leaf, path⟩ := found
  have htrail := hr' leaf path hfound
  exact hk fuel leaf path htrail fun p hp => hall.allocated hread (htrail.reaches p hp)

include hnew

theorem moves_delete (key : String) :
    Confined t₀ db₀ (delete key) fun _ t' => t'.modifiedRoot ≠ 0 := by
  refine confined_descend h hcow hmod hall key fun fuel leaf path htrail hp => ?_
  simp only
  split
  · exact confined_fail h _
  · exact confined_copyLeaf hnew htrail hp (Onward.refl _ _) h rfl fun _ t₁ db₁ h₁ hclimb =>
      hclimb t₁ db₁ h₁ (Onward.refl _ _)

theorem moves_insert (key : String) (value : PageNum) :
    Confined t₀ db₀ (insert key value) fun _ t' => t'.modifiedRoot ≠ 0 := by
  refine confined_descend h hcow hmod hall key fun fuel leaf path htrail hp => ?_
  simp only
  split
  · exact confined_splitLeaf_moves h hnew htrail hp
  · refine (confined_repairNextLeaf h).bindOn fun n t₁ db₁ h₁ hon₁ hn => ?_
    refine confined_copyLeaf hnew htrail hp hon₁ h₁ hn fun q t₂ db₂ h₂ hclimb => ?_
    split
    · refine Confined.bindOn (P := fun _ _ => True) ?_ fun _ t₃ db₃ h₃ hon₃ _ =>
        hclimb t₃ db₃ h₃ hon₃
      unfold ignoreErrors
      exact (confined_updatePredecessor h₂).catching.bind fun _ t₃ db₃ h₃ _ =>
        confined_pure h₃ trivial
    · exact hclimb t₂ db₂ h₂ (Onward.refl _ _)

end Pristine

end JasonDb.TxBTree
