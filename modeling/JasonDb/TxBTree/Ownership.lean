import JasonDb.TxBTree.Write

namespace JasonDb.TxBTree

open Lib SearchTree

variable {α β : Type} {t t' : TxBTree} {db db' : Database}

-- What holds of a handle whatever the pages hold: it writes pages of its own only.
structure Owns (t : TxBTree) (db : Database) : Prop where
  pager : db.pager.WF
  copies : ∀ p q, t.cowPages.get? p = some q → q ∈ t.newPages
  created : ∀ p ∈ t.newPages, db.pager.Allocated p
  root : t.modifiedRoot = 0 ∨ t.modifiedRoot ∈ t.newPages
  moved : t.cowPages.get? t.snapshotRoot ≠ none → t.modifiedRoot ≠ 0
  coherent : ∀ p page, t.txWrites.get? p = some page → db.pager.view p = some page

-- A handle after some of its steps: copies stay copies and a root that has moved stays moved.
structure Onward (t : TxBTree) (db : Database) (t' : TxBTree) (db' : Database) : Prop
    extends Extends t db t' db' where
  copied : ∀ p, t.cowPages.get? p ≠ none → t'.cowPages.get? p ≠ none
  moved : t.modifiedRoot ≠ 0 → t'.modifiedRoot ≠ 0

theorem Onward.refl (t : TxBTree) (db : Database) : Onward t db t db :=
  ⟨Extends.refl t db, fun _ h => h, fun h => h⟩

theorem Onward.trans {t'' : TxBTree} {db'' : Database} (h : Onward t db t' db')
    (h' : Onward t' db' t'' db'') : Onward t db t'' db'' :=
  ⟨h.toExtends.trans h'.toExtends, fun p hp => h'.copied p (h.copied p hp),
    fun hm => h'.moved (h.moved hm)⟩

-- However `m` ends, the handle has written only pages of its own, and a value it returns
-- satisfies `post`.
def Confined (t : TxBTree) (db : Database) (m : TreeM α) (post : α → TxBTree → Prop) : Prop :=
  ∀ r t' db', Proc.exec m t db = (r, t', db') →
    Owns t' db' ∧ Onward t db t' db' ∧ ∀ a, r = .ok a → post a t'

section Rules

variable {P Q : α → TxBTree → Prop} {R : β → TxBTree → Prop} {m : TreeM α} {f : α → TreeM β}

theorem Confined.mono (h : Confined t db m P) (hPQ : ∀ a t, P a t → Q a t) : Confined t db m Q := by
  intro r t' db' he
  obtain ⟨ho, hext, hpost⟩ := h r t' db' he
  exact ⟨ho, hext, fun a ha => hPQ a t' (hpost a ha)⟩

theorem Confined.of_same (h : Owns t db) {r : Except Error α} (he : Proc.exec m t db = (r, t, db))
    (hpost : ∀ a, r = .ok a → P a t) : Confined t db m P := by
  intro r' t' db' he'
  obtain ⟨rfl, rfl, rfl⟩ : r' = r ∧ t' = t ∧ db' = db := by
    rw [he] at he'
    simpa [eq_comm] using he'
  exact ⟨h, Onward.refl _ _, hpost⟩

theorem confined_pure (h : Owns t db) {a : α} (hP : P a t) : Confined t db (pure a) P := by
  refine Confined.of_same h (Proc.exec_pure a t db) ?_
  intro b hb
  obtain rfl := Except.ok.inj hb
  exact hP

theorem confined_fail (h : Owns t db) (e : Error) : Confined t db (Proc.fail e) P :=
  Confined.of_same h (Proc.exec_fail e t db) (by simp)

theorem confined_ofExcept (h : Owns t db) (r : Except Error α) :
    Confined t db (Proc.ofExcept r) fun _ _ => True := by
  cases r with
  | ok a => exact confined_pure h trivial
  | error e => exact confined_fail h e

-- The continuation may use what the first part did.
theorem Confined.bindOn (h : Confined t db m P)
    (hf : ∀ a t' db', Owns t' db' → Onward t db t' db' → P a t' → Confined t' db' (f a) R) :
    Confined t db (m >>= f) R := by
  intro r t'' db'' he
  rcases hm : Proc.exec m t db with ⟨r', t', db'⟩
  obtain ⟨ho, hext, hpost⟩ := h r' t' db' hm
  rw [Proc.exec_bind, hm] at he
  cases r' with
  | error e =>
    obtain ⟨rfl, rfl, rfl⟩ : .error e = r ∧ t' = t'' ∧ db' = db'' := by simpa using he
    exact ⟨ho, hext, by simp⟩
  | ok a =>
    obtain ⟨ho', hext', hpost'⟩ := hf a t' db' ho hext (hpost a rfl) r t'' db'' he
    exact ⟨ho', hext.trans hext', hpost'⟩

theorem Confined.bind (h : Confined t db m P)
    (hf : ∀ a t' db', Owns t' db' → P a t' → Confined t' db' (f a) R) :
    Confined t db (m >>= f) R := h.bindOn fun a t' db' ho _ hP => hf a t' db' ho hP

-- The root has moved after `m`, and stays so.
theorem Confined.movedThen {k : α → TreeM Unit}
    (h : Confined t db m fun _ t' => t'.modifiedRoot ≠ 0)
    (hk : ∀ a t' db', Owns t' db' → Confined t' db' (k a) fun _ _ => True) :
    Confined t db (m >>= k) fun _ t' => t'.modifiedRoot ≠ 0 := by
  refine h.bindOn fun a t' db' h' _ hm => ?_
  intro r t'' db'' he
  obtain ⟨ho, hon, _⟩ := hk a t' db' h' r t'' db'' he
  exact ⟨ho, hon, fun _ _ => hon.moved hm⟩

theorem confined_bind_same {r : Except Error α} (h : Owns t db)
    (he : Proc.exec m t db = (r, t, db)) (hf : ∀ a, r = .ok a → Confined t db (f a) R) :
    Confined t db (m >>= f) R := by
  cases r with
  | error e => exact Confined.of_same h (Proc.exec_bind_error he) (by simp)
  | ok a =>
    intro r' t' db' hrun
    rw [Proc.exec_bind_ok he] at hrun
    exact hf a rfl r' t' db' hrun

theorem confined_getLocal_bind {k : TxBTree → TreeM β} (h : Confined t db (k t) R) :
    Confined t db (Proc.getLocal >>= k) R := by
  intro r t' db' he
  rw [Proc.exec_bind_ok (Proc.exec_getLocal t db)] at he
  exact h r t' db' he

theorem Confined.attempt (h : Confined t db m P) :
    Confined t db (Proc.attempt m) fun _ _ => True := by
  intro r t' db' he
  rcases hm : Proc.exec m t db with ⟨r', t₁, db₁⟩
  rw [Proc.exec_attempt, hm] at he
  obtain ⟨_, rfl, rfl⟩ : .ok r' = r ∧ t₁ = t' ∧ db₁ = db' := by simpa using he
  obtain ⟨ho, hext, _⟩ := h _ _ _ hm
  exact ⟨ho, hext, fun _ _ => trivial⟩

theorem Confined.catching (h : Confined t db m P) :
    Confined t db (catching m) fun _ _ => True := by
  refine h.attempt.bind fun r t' db' ho _ => ?_
  split
  · exact confined_fail ho _
  · exact confined_fail ho _
  · exact confined_pure ho trivial

theorem confined_forEach {f : α → TreeM Unit} (h : Owns t db) (items : List α)
    (hf : ∀ a t db, Owns t db → Confined t db (f a) fun _ _ => True) :
    Confined t db (Proc.forEach f items) fun _ _ => True := by
  induction items generalizing t db with
  | nil => exact confined_pure h trivial
  | cons a rest ih => exact (hf a t db h).bind fun _ t' db' ho _ => ih ho

end Rules

section Reads

theorem confined_readPage (h : Owns t db) (p : PageNum) :
    Confined t db (readPage p) fun _ _ => True :=
  Confined.of_same h (r := db.pager.readPage p) rfl fun _ _ => trivial

theorem confined_walkBound (h : Owns t db) :
    Confined t db (walkBound : TreeM Nat) fun _ _ => True :=
  Confined.of_same h (r := .ok (db.pager.numPages + 1)) rfl fun _ _ => trivial

theorem confined_readNode (h : Owns t db) (p : PageNum) :
    Confined t db (readNode p) fun _ _ => True := by
  unfold readNode
  refine confined_getLocal_bind ?_
  simp only
  split
  · exact confined_ofExcept h _
  · exact (confined_readPage h _).bind fun _ t' db' ho _ => confined_ofExcept ho _

end Reads

section Writes

-- A page is allocated and marked as the handle's own.
theorem confined_allocNew {k : PageNum → TreeM β} {R : β → TxBTree → Prop} (h : Owns t db)
    (min : PageNum) (hk : ∀ p t' db', Owns t' db' → Onward t db t' db' → p ∈ t'.newPages →
      Confined t' db' (k p) R) :
    Confined t db (do
      let p ← allocPageMinimum min
      markNew p
      k p) R := by
  obtain ⟨q, p', he, ha⟩ := exec_allocPageMinimum (l := t) h.pager min
  have ho : Owns { t with newPages := t.newPages.insert q true } { db with pager := p' } := by
    refine ⟨ha.wf, ?_, ?_, ?_, h.moved, ?_⟩
    · intro x y hxy
      exact HashMap.mem_insert.mpr (Or.inr (h.copies x y hxy))
    · intro x hx
      rcases HashMap.mem_insert.mp hx with rfl | hx
      · exact ha.used
      · exact ha.keeps x (h.created x hx)
    · exact h.root.imp id fun hr => HashMap.mem_insert.mpr (Or.inr hr)
    · intro x page hx
      have := h.coherent x page hx
      rw [← ha.view] at this
      exact this
  have hext : Onward t db { t with newPages := t.newPages.insert q true }
      { db with pager := p' } := by
    refine ⟨⟨fun x hx => HashMap.mem_insert.mpr (Or.inr hx), ?_, ha.keeps,
      fun x _ => congrFun ha.view x, fun _ _ => rfl, rfl, rfl, ha.frame⟩, fun _ h => h, fun h => h⟩
    intro x hx
    rcases HashMap.mem_insert.mp hx with rfl | hx
    · exact Or.inr ha.unused
    · exact Or.inl hx
  intro r t' db' hrun
  rw [Proc.exec_bind_ok he, markNew, Proc.exec_bind_ok (Proc.exec_modifyLocal _ _ _)] at hrun
  obtain ⟨ho', hext', hpost⟩ := hk q _ _ ho hext (HashMap.mem_insert.mpr (Or.inl rfl)) r t' db' hrun
  exact ⟨ho', hext.trans hext', hpost⟩

theorem confined_writeTarget (h : Owns t db) (p : PageNum) :
    Confined t db (writeTarget p) fun q t' =>
      q ∈ t'.newPages ∧ (p ∈ t.newPages ∨ t'.cowPages.get? p ≠ none) := by
  unfold writeTarget
  refine confined_getLocal_bind ?_
  by_cases hnew : p ∈ t.newPages
  · rw [if_pos hnew]
    exact confined_pure h ⟨hnew, Or.inl hnew⟩
  · rw [if_neg hnew]
    cases hcow : t.cowPages.get? p with
    | some existing => exact confined_pure h ⟨h.copies p existing hcow, Or.inr (by simp [hcow])⟩
    | none =>
      -- the copy, for the root or for another page
      have hcopy : ∀ min, Confined t db (do
          let newPage ← allocPageMinimum min
          Proc.modifyLocal fun t' => { t' with
            cowPages := t'.cowPages.insert p newPage
            newPages := t'.newPages.insert newPage true
            modifiedRoot := if p = t.getCurrentRoot then newPage else t'.modifiedRoot }
          pure newPage) fun q t' =>
            q ∈ t'.newPages ∧ (p ∈ t.newPages ∨ t'.cowPages.get? p ≠ none) := by
        intro min r t' db' hrun
        obtain ⟨q, p', he, ha⟩ := exec_allocPageMinimum (l := t) h.pager min
        rw [Proc.exec_bind_ok he, Proc.exec_bind_ok (Proc.exec_modifyLocal _ _ _),
          Proc.exec_pure] at hrun
        obtain ⟨rfl, rfl, rfl⟩ : .ok q = r ∧ _ = t' ∧ _ = db' := by simpa using hrun
        have hroot : t.modifiedRoot ≠ 0 →
            (if p = t.getCurrentRoot then q else t.modifiedRoot) ≠ 0 := by
          intro hm
          split
          · exact ha.used.1
          · exact hm
        refine ⟨⟨ha.wf, ?_, ?_, ?_, ?_, ?_⟩, ⟨⟨?_, ?_, ha.keeps, fun x _ => congrFun ha.view x,
          fun _ _ => rfl, rfl, rfl, ha.frame⟩, ?_, hroot⟩, ?_⟩
        · intro x y hxy
          simp only [HashMap.get?_insert] at hxy
          refine HashMap.mem_insert.mpr ?_
          by_cases hx : x = p
          · rw [if_pos hx, Option.some.injEq] at hxy
            exact Or.inl hxy.symm
          · rw [if_neg hx] at hxy
            exact Or.inr (h.copies x y hxy)
        · intro x hx
          rcases HashMap.mem_insert.mp hx with rfl | hx
          · exact ha.used
          · exact ha.keeps x (h.created x hx)
        · by_cases hr : p = t.getCurrentRoot
          · simp [hr, HashMap.mem_insert]
          · simpa [hr, HashMap.mem_insert] using h.root.imp id Or.inr
        · -- the first copy of the snapshot's root is the first move of the root
          intro hcopied
          by_cases hm : t.modifiedRoot = 0
          · by_cases hp : p = t.snapshotRoot
            · have : p = t.getCurrentRoot := by simp [getCurrentRoot, hm, hp]
              simpa [this] using ha.used.1
            · refine absurd hm (h.moved ?_)
              simpa [HashMap.get?_insert_of_ne _ _ (Ne.symm hp)] using hcopied
          · exact hroot hm
        · intro x page hx
          have := h.coherent x page hx
          rw [← ha.view] at this
          exact this
        · exact fun x hx => HashMap.mem_insert.mpr (Or.inr hx)
        · intro x hx
          rcases HashMap.mem_insert.mp hx with rfl | hx
          · exact Or.inr ha.unused
          · exact Or.inl hx
        · intro x hx
          by_cases hxp : x = p
          · simp [hxp]
          · simpa [HashMap.get?_insert_of_ne _ _ hxp] using hx
        · intro a ha'
          obtain rfl := Except.ok.inj ha'
          exact ⟨HashMap.mem_insert.mpr (Or.inl rfl), Or.inr (by simp)⟩
      by_cases hr : p = t.getCurrentRoot
      · simp only [hr, ↓reduceIte]
        simpa only [hr, ↓reduceIte] using hcopy t.getCurrentRoot
      · simp only [hr, ↓reduceIte]
        simpa only [hr, ↓reduceIte, allocPage] using hcopy 0

theorem confined_writeNode (h : Owns t db) (n : BTreeNode) :
    Confined t db (writeNode n) fun q t' =>
      q ∈ t'.newPages ∧ (n.pageNum ∈ t.newPages ∨ t'.cowPages.get? n.pageNum ≠ none) := by
  unfold writeNode
  refine (confined_writeTarget h n.pageNum).bind fun q t₁ db₁ h₁ hq => ?_
  intro r t' db' hrun
  have hwrite : Proc.exec (writePageTransfer q (.node { n with pageNum := q }))
      { t₁ with txWrites := t₁.txWrites.insert q (.node { n with pageNum := q }) } db₁ =
      (.ok (), { t₁ with txWrites := t₁.txWrites.insert q (.node { n with pageNum := q }) },
        { db₁ with pager := { db₁.pager with
          cache := Function.update db₁.pager.cache q (some (.node { n with pageNum := q }))
          dirty := db₁.pager.dirty.insert q () } }) := by
    simp only [writePageTransfer, Proc.exec_atomicE, Pager.writePageTransfer_eq h₁.pager.writable q
      (show Page.byteLen (.node { n with pageNum := q }) = PAGE_SIZE from rfl)]
  have hview := Pager.view_write db₁.pager q (.node { n with pageNum := q })
    (db₁.pager.dirty.insert q ())
  simp only at hrun
  rw [Proc.exec_bind_ok (Proc.exec_modifyLocal _ _ _), Proc.exec_bind_ok hwrite,
    Proc.exec_pure] at hrun
  obtain ⟨rfl, rfl, rfl⟩ : .ok q = r ∧ _ = t' ∧ _ = db' := by simpa using hrun
  refine ⟨⟨⟨h₁.pager.writable, h₁.pager.nonempty, h₁.pager.nodup, h₁.pager.range⟩, h₁.copies,
    h₁.created, h₁.root, h₁.moved, ?_⟩, ⟨⟨fun _ hx => hx, fun _ hx => Or.inl hx, fun _ hx => hx, ?_,
    ?_, rfl, rfl, ⟨rfl, rfl, rfl, rfl⟩⟩, fun _ hx => hx, fun hm => hm⟩, ?_⟩
  · intro x page hx
    rw [HashMap.get?_insert] at hx
    rw [hview]
    by_cases hxq : x = q
    · rw [if_pos hxq] at hx
      rw [hxq, Function.update_self, hx]
    · rw [if_neg hxq] at hx
      rw [Function.update_of_ne hxq]
      exact h₁.coherent x page hx
  · intro x hx
    rw [hview, Function.update_of_ne fun e => hx (by rw [e]; exact hq.1)]
  · intro x hx
    exact HashMap.get?_insert_of_ne _ _ fun e => hx (by rw [e]; exact hq.1)
  · intro a ha
    obtain rfl := Except.ok.inj ha
    exact hq

end Writes

section Operations

theorem confined_findLeaf {fuel : Nat} {n : BTreeNode} {key : String} {path : List PageNum}
    (h : Owns t db) : Confined t db (findLeaf fuel n key path) fun _ _ => True := by
  induction fuel generalizing n path t db with
  | zero => exact confined_fail h _
  | succ fuel ih =>
    unfold findLeaf
    split
    · exact confined_pure h trivial
    · refine (confined_ofExcept h _).bind fun c t₁ db₁ h₁ _ => ?_
      exact (confined_readNode h₁ c).bind fun m t₂ db₂ h₂ _ => ih h₂

theorem confined_updatePath {path : List PageNum} (h : Owns t db) :
    Confined t db (updatePathAfterModification path) fun _ _ => True := by
  induction path generalizing t db with
  | nil => exact confined_pure h trivial
  | cons c tail ih =>
    cases tail with
    | nil => exact confined_pure h trivial
    | cons par rest =>
      unfold updatePathAfterModification
      refine (confined_readNode h par).bind fun n t₁ db₁ h₁ _ => ?_
      refine confined_getLocal_bind ?_
      simp only
      split
      · split
        · refine (confined_writeNode h₁ _).bind fun _ t₂ db₂ h₂ _ => ?_
          exact ih h₂
        · exact ih h₁
      · exact ih h₁

theorem confined_createNewRoot {left right : PageNum} {key : String} (h : Owns t db) :
    Confined t db (createNewRoot left right key) fun _ t' => t'.modifiedRoot ≠ 0 := by
  unfold createNewRoot
  refine confined_getLocal_bind (confined_allocNew h _ fun p t₁ db₁ h₁ _ _ => ?_)
  refine (confined_writeNode h₁ _).bind fun q t₂ db₂ h₂ hq => ?_
  intro r t' db' hrun
  rw [Proc.exec_modifyLocal] at hrun
  obtain ⟨rfl, rfl, rfl⟩ : .ok () = r ∧ _ = t' ∧ _ = db' := by simpa using hrun
  have hq0 : q ≠ 0 := (h₂.created q hq.1).1
  refine ⟨⟨h₂.pager, h₂.copies, h₂.created, Or.inr hq.1, fun _ => hq0, h₂.coherent⟩, ?_, ?_⟩
  · exact ⟨⟨fun _ hx => hx, fun _ hx => Or.inl hx, fun _ hx => hx, fun _ _ => rfl, fun _ _ => rfl,
      rfl, rfl, Pager.Frame.refl _⟩, fun _ hx => hx, fun _ => hq0⟩
  · exact fun _ _ => hq0

theorem confined_splitInternal {n : BTreeNode} {path : List PageNum}
    {k : BTreeNode → String → PageNum → TreeM Unit} (h : Owns t db)
    (hk : ∀ n s p t db, Owns t db → Confined t db (k n s p) fun _ _ => True) :
    Confined t db (splitInternal n path k) fun _ _ => True := by
  unfold splitInternal
  refine confined_allocNew h 0 fun p t₁ db₁ h₁ _ _ => ?_
  split
  · exact confined_fail h₁ _
  · refine (confined_writeNode h₁ _).bind fun _ t₂ db₂ h₂ _ => ?_
    refine (confined_writeNode h₂ _).bind fun _ t₃ db₃ h₃ _ => ?_
    split
    · refine (confined_readNode h₃ _).bind fun m t₄ db₄ h₄ _ => ?_
      exact hk _ _ _ _ _ h₄
    · exact (confined_createNewRoot h₃).mono fun _ _ _ => trivial

theorem confined_insertIntoParent {path : List PageNum} {n : BTreeNode} {key : String}
    {right : PageNum} (h : Owns t db) :
    Confined t db (insertIntoParent path n key right) fun _ _ => True := by
  induction path generalizing n key right t db with
  | nil => exact confined_fail h _
  | cons page up ih =>
    unfold insertIntoParent
    simp only
    split
    · exact confined_fail h _
    split
    · exact confined_splitInternal h fun _ _ _ _ _ h' => ih h'
    · exact (confined_writeNode h _).bind fun _ t₁ db₁ h₁ _ => confined_updatePath h₁

theorem confined_splitLeaf {n : BTreeNode} {path : List PageNum} (h : Owns t db) :
    Confined t db (splitLeaf n path) fun _ _ => True := by
  unfold splitLeaf
  refine confined_allocNew h 0 fun p t₁ db₁ h₁ _ _ => ?_
  refine confined_getLocal_bind ?_
  simp only
  split
  · exact confined_fail h₁ _
  · refine (confined_writeNode h₁ _).bind fun _ t₂ db₂ h₂ _ => ?_
    refine (confined_writeNode h₂ _).bind fun _ t₃ db₃ h₃ _ => ?_
    split
    · refine (confined_readNode h₃ _).bind fun m t₄ db₄ h₄ _ => ?_
      exact confined_insertIntoParent h₄
    · exact (confined_createNewRoot h₃).mono fun _ _ _ => trivial

theorem confined_firstChild {f : PageNum → TreeM (Option α)} {pages : List PageNum} (h : Owns t db)
    (hf : ∀ p t db, Owns t db → Confined t db (f p) fun _ _ => True) :
    Confined t db (firstChild f pages) fun _ _ => True := by
  induction pages generalizing t db with
  | nil => exact confined_pure h trivial
  | cons c cs ih =>
    unfold firstChild
    refine (hf c t db h).bind fun r t₁ db₁ h₁ _ => ?_
    split
    · exact confined_pure h₁ trivial
    · exact ih h₁

theorem confined_tryChild {f : BTreeNode → TreeM (Option α)} {p : PageNum} (h : Owns t db)
    (hf : ∀ n t db, Owns t db → Confined t db (f n) fun _ _ => True) :
    Confined t db (tryChild p f) fun _ _ => True := by
  unfold tryChild
  refine (confined_readNode h p).attempt.bind fun r t₁ db₁ h₁ _ => ?_
  split
  · exact hf _ _ _ h₁
  · exact confined_pure h₁ trivial

theorem confined_isPageInTree {fuel : Nat} {n : BTreeNode} {target : PageNum} (h : Owns t db) :
    Confined t db (isPageInTree fuel n target) fun _ _ => True := by
  induction fuel generalizing n t db with
  | zero => exact confined_fail h _
  | succ fuel ih =>
    unfold isPageInTree
    split
    · exact confined_pure h trivial
    · split
      · exact confined_pure h trivial
      · exact confined_firstChild h fun p t₁ db₁ h₁ =>
          confined_tryChild h₁ fun n t₂ db₂ h₂ => ih h₂

theorem confined_findNextLeafByKey {fuel : Nat} {n : BTreeNode} {key : String} (h : Owns t db) :
    Confined t db (findNextLeafByKey fuel n key) fun _ _ => True := by
  induction fuel generalizing n t db with
  | zero => exact confined_fail h _
  | succ fuel ih =>
    unfold findNextLeafByKey
    split
    · split <;> exact confined_pure h trivial
    · split
      · exact confined_firstChild h fun p t₁ db₁ h₁ =>
          confined_tryChild h₁ fun n t₂ db₂ h₂ => ih h₂
      · split
        · exact confined_tryChild h fun n t₂ db₂ h₂ => ih h₂
        · exact confined_fail h _

theorem confined_findAnyLeafPath {fuel : Nat} {n : BTreeNode} {target : PageNum}
    {path : List PageNum} (h : Owns t db) :
    Confined t db (findAnyLeafPath fuel n target path) fun _ _ => True := by
  induction fuel generalizing n path t db with
  | zero => exact confined_fail h _
  | succ fuel ih =>
    unfold findAnyLeafPath
    split
    · exact confined_pure h trivial
    · refine Confined.bind (P := fun _ _ => True) (confined_firstChild h ?_)
        fun _ t₁ db₁ h₁ _ => confined_pure h₁ trivial
      intro p t₁ db₁ h₁
      refine (confined_readNode h₁ p).attempt.bind fun r t₂ db₂ h₂ _ => ?_
      split
      · exact confined_pure h₂ trivial
      · refine (ih h₂).bind fun r t₃ db₃ h₃ _ => ?_
        split <;> exact confined_pure h₃ trivial

theorem confined_leftmostLeaf {fuel : Nat} {n : BTreeNode} (h : Owns t db) :
    Confined t db (leftmostLeaf fuel n) fun _ _ => True := by
  induction fuel generalizing n t db with
  | zero => exact confined_fail h _
  | succ fuel ih =>
    unfold leftmostLeaf
    split
    · exact confined_pure h trivial
    · split
      · exact confined_fail h _
      · exact (confined_readNode h _).bind fun m t₁ db₁ h₁ _ => ih h₁

theorem confined_redirectLink {root : BTreeNode} {rootPage oldPage newPage : PageNum} {fuel : Nat}
    {p : PageNum} (h : Owns t db) :
    Confined t db (redirectLink root rootPage oldPage newPage fuel p) fun _ _ => True := by
  induction fuel generalizing p t db with
  | zero => exact confined_fail h _
  | succ fuel ih =>
    unfold redirectLink
    refine (confined_readNode h p).bind fun n t₁ db₁ h₁ _ => ?_
    split
    · refine (confined_walkBound h₁).bind fun _ t₂ db₂ h₂ _ => ?_
      refine (confined_findAnyLeafPath h₂).bind fun r t₃ db₃ h₃ _ => ?_
      split
      · exact confined_fail h₃ _
      · refine (confined_writeNode h₃ _).bind fun q t₄ db₄ h₄ _ => ?_
        split
        · exact confined_updatePath h₄
        · exact confined_pure h₄ trivial
    · split
      · exact confined_pure h₁ trivial
      · exact ih h₁

theorem confined_updatePredecessor {oldPage newPage : PageNum} (h : Owns t db) :
    Confined t db (updatePredecessorNextLeaf oldPage newPage) fun _ _ => True := by
  unfold updatePredecessorNextLeaf
  refine confined_getLocal_bind ?_
  refine (confined_readNode h _).bind fun root t₁ db₁ h₁ _ => ?_
  refine (confined_walkBound h₁).bind fun fuel t₂ db₂ h₂ _ => ?_
  simp only
  split
  · exact (confined_pure h₂ trivial).bind fun _ t₃ db₃ h₃ (_ : True) => confined_redirectLink h₃
  · refine (confined_leftmostLeaf h₂).bind fun m t₃ db₃ h₃ _ => ?_
    exact (confined_pure h₃ trivial).bind fun _ t₄ db₄ h₄ (_ : True) => confined_redirectLink h₄

theorem confined_repairNextLeaf {fuel : Nat} {n : BTreeNode} (h : Owns t db) :
    Confined t db (repairNextLeaf fuel n) fun m _ => m.pageNum = n.pageNum := by
  unfold repairNextLeaf
  split
  · exact confined_pure h rfl
  · refine confined_getLocal_bind ?_
    refine (confined_readNode h _).bind fun root t₁ db₁ h₁ _ => ?_
    split
    · exact confined_pure h₁ rfl
    · refine (confined_isPageInTree h₁).bind fun r t₂ db₂ h₂ _ => ?_
      split
      · exact confined_pure h₂ rfl
      · have hnext : Confined t₂ db₂ (findCorrectNextLeaf fuel root n) fun _ _ => True := by
          unfold findCorrectNextLeaf
          split
          · exact confined_pure h₂ trivial
          · exact confined_findNextLeafByKey h₂
        refine hnext.bind fun r t₃ db₃ h₃ _ => ?_
        split <;> exact confined_pure h₃ rfl

theorem confined_anyChild {f : PageNum → TreeM Bool} {pages : List PageNum} (h : Owns t db)
    (hf : ∀ p t db, Owns t db → Confined t db (f p) fun _ _ => True) :
    Confined t db (anyChild f pages) fun _ _ => True := by
  induction pages generalizing t db with
  | nil => exact confined_pure h trivial
  | cons c cs ih =>
    unfold anyChild
    refine (hf c _ _ h).bind fun found t₁ db₁ h₁ _ => ?_
    split
    · exact confined_pure h₁ trivial
    · exact ih h₁

theorem confined_hasPrefixInNode {fuel : Nat} {p : PageNum} {start : String} (h : Owns t db) :
    Confined t db (hasPrefixInNode fuel p start) fun _ _ => True := by
  induction fuel generalizing p t db with
  | zero => exact confined_fail h _
  | succ fuel ih =>
    unfold hasPrefixInNode
    split
    · exact confined_pure h trivial
    · refine (confined_readNode h _).bind fun n t₁ db₁ h₁ _ => ?_
      split
      · exact confined_pure h₁ trivial
      · exact confined_anyChild h₁ fun _ _ _ h' => ih h'

theorem confined_hasPrefix {start : String} (h : Owns t db) :
    Confined t db (hasPrefix start) fun _ _ => True := by
  unfold hasPrefix
  refine confined_getLocal_bind ?_
  exact (confined_walkBound h).bind fun fuel t₁ db₁ h₁ _ => confined_hasPrefixInNode h₁

theorem confined_insert {key : String} {value : PageNum} (h : Owns t db) :
    Confined t db (insert key value) fun _ _ => True := by
  unfold insert
  refine confined_getLocal_bind ?_
  refine (confined_walkBound h).bind fun fuel t₁ db₁ h₁ _ => ?_
  refine (confined_readNode h₁ _).bind fun root t₂ db₂ h₂ _ => ?_
  refine (confined_findLeaf h₂).bind fun r t₃ db₃ h₃ _ => ?_
  simp only
  split
  · exact confined_splitLeaf h₃
  · refine (confined_repairNextLeaf h₃).bind fun m t₄ db₄ h₄ _ => ?_
    refine (confined_writeNode h₄ _).bind fun q t₅ db₅ h₅ _ => ?_
    split
    · refine Confined.bind (P := fun _ _ => True) ?_ fun _ t₆ db₆ h₆ _ => confined_updatePath h₆
      unfold ignoreErrors
      exact (confined_updatePredecessor h₅).catching.bind fun _ t₆ db₆ h₆ _ =>
        confined_pure h₆ trivial
    · exact confined_updatePath h₅

theorem confined_update {key : String} {value : PageNum} (h : Owns t db) :
    Confined t db (update key value) fun _ _ => True := by
  unfold update
  refine confined_getLocal_bind ?_
  refine (confined_walkBound h).bind fun fuel t₁ db₁ h₁ _ => ?_
  refine (confined_readNode h₁ _).bind fun root t₂ db₂ h₂ _ => ?_
  refine (confined_findLeaf h₂).bind fun r t₃ db₃ h₃ _ => ?_
  simp only
  split
  · exact (confined_writeNode h₃ _).bind fun q t₄ db₄ h₄ _ => confined_updatePath h₄
  · exact confined_fail h₃ _

theorem confined_delete {key : String} (h : Owns t db) :
    Confined t db (delete key) fun _ _ => True := by
  unfold delete
  refine confined_getLocal_bind ?_
  refine (confined_walkBound h).bind fun fuel t₁ db₁ h₁ _ => ?_
  refine (confined_readNode h₁ _).bind fun root t₂ db₂ h₂ _ => ?_
  refine (confined_findLeaf h₂).bind fun r t₃ db₃ h₃ _ => ?_
  simp only
  split
  · exact confined_fail h₃ _
  · exact (confined_writeNode h₃ _).bind fun q t₄ db₄ h₄ _ => confined_updatePath h₄

end Operations

end JasonDb.TxBTree
