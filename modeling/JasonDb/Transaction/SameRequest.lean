import JasonDb.Transaction.Commit

namespace JasonDb

open Lib

-- Requests that differ in their flags only.
def EqButFlags (pending pending' : PendingWrite) : Prop :=
  pending' = { pending with docExistedInSnapshot := pending'.docExistedInSnapshot }

-- A commit that is handed the same, and reads the same flags.
structure SameRequest (pending pending' : PendingWrite) : Prop where
  rest : EqButFlags pending pending'
  existed : ∀ collection id, Commit.existedInSnapshot pending' collection id =
    Commit.existedInSnapshot pending collection id

namespace Commit

variable {ℓ α β γ δ : Type}

section Alike

-- The two end alike, with results that are related by `R`.
def Alike (R : α → β → Prop) (m : DbM ℓ α) (m' : DbM ℓ β) : Prop :=
  ∀ l db, ∃ r r' l₁ db₁, Proc.exec m l db = (r, l₁, db₁) ∧ Proc.exec m' l db = (r', l₁, db₁) ∧
    ((∃ a b, r = .ok a ∧ r' = .ok b ∧ R a b) ∨ ∃ e, r = .error e ∧ r' = .error e)

variable {R : α → β → Prop} {Q : γ → δ → Prop}

theorem alike_pure {a : α} {b : β} (h : R a b) : Alike R (pure a : DbM ℓ α) (pure b) :=
  fun l db => ⟨.ok a, .ok b, l, db, rfl, rfl, Or.inl ⟨a, b, rfl, rfl, h⟩⟩

theorem alike_refl (m : DbM ℓ α) : Alike Eq m m := by
  intro l db
  rcases Proc.exec m l db with ⟨r, l₁, db₁⟩
  refine ⟨r, r, l₁, db₁, rfl, rfl, ?_⟩
  cases r with
  | ok a => exact Or.inl ⟨a, a, rfl, rfl, rfl⟩
  | error e => exact Or.inr ⟨e, rfl, rfl⟩

theorem Alike.bind {m : DbM ℓ α} {m' : DbM ℓ β} {k : α → DbM ℓ γ} {k' : β → DbM ℓ δ}
    (h : Alike R m m') (hk : ∀ a b, R a b → Alike Q (k a) (k' b)) : Alike Q (m >>= k) (m' >>= k') := by
  intro l db
  obtain ⟨r, r', l₁, db₁, he, he', ⟨a, b, rfl, rfl, hab⟩ | ⟨e, rfl, rfl⟩⟩ := h l db
  · obtain ⟨r, r', l₂, db₂, hk₁, hk₂, hr⟩ := hk a b hab l₁ db₁
    exact ⟨r, r', l₂, db₂, (Proc.exec_bind_ok he).trans hk₁, (Proc.exec_bind_ok he').trans hk₂, hr⟩
  · exact ⟨_, _, _, _, Proc.exec_bind_error he, Proc.exec_bind_error he', Or.inr ⟨e, rfl, rfl⟩⟩

-- After a first part that is the same.
theorem alike_then (m : DbM ℓ α) {k : α → DbM ℓ γ} {k' : α → DbM ℓ δ} (hk : ∀ a, Alike Q (k a) (k' a)) :
    Alike Q (m >>= k) (m >>= k') := (alike_refl m).bind fun a _ hab => hab ▸ hk a

theorem Alike.exec_eq {m m' : DbM ℓ Unit} (h : Alike (fun _ _ => True) m m') (l : ℓ) (db : Database) :
    Proc.exec m' l db = Proc.exec m l db := by
  obtain ⟨r, r', l₁, db₁, he, he', ⟨a, b, rfl, rfl, -⟩ | ⟨e, rfl, rfl⟩⟩ := h l db
  · rw [he, he']
  · rw [he, he']

theorem forEach_forall₂ {R : α → α → Prop} {f : α → DbM ℓ Unit} {items items' : List α}
    (h : List.Forall₂ R items items') (hf : ∀ a b, R a b → f b = f a) :
    Proc.forEach f items' = Proc.forEach f items := by
  induction h with
  | nil => rfl
  | cons hab _ ih => rw [Proc.forEach, Proc.forEach, hf _ _ hab, ih]

end Alike

variable {pending pending' : PendingWrite} {batch batch' : List PendingWrite}

section Parts

theorem alike_rebase (h : EqButFlags pending pending') (collection : String) (root : PageNum) :
    Alike EqButFlags (rebase pending collection root : DbM ℓ PendingWrite)
      (rebase pending' collection root) := by
  rw [h]
  refine Alike.bind (R := EqButFlags) ?_ fun rebased rebased' hr => ?_
  · exact alike_then (Proc.within (TxBTree.new root pending.writes) (reapply (docsOf pending collection)))
      fun found => alike_pure rfl
  · rw [hr]
    refine alike_then (Proc.forEach (fun entry => if entry.1 ∈ pending.writes then pure ()
      else writeFrame pending.mvccTxId entry.1 entry.2) rebased.writes.toList) fun _ => alike_pure ?_
    exact rfl

theorem alike_applyCollection (h : EqButFlags pending pending') (collection : String) :
    Alike EqButFlags (applyCollection pending collection : DbM ℓ PendingWrite)
      (applyCollection pending' collection) := by
  refine alike_then getMetadata fun metadata => ?_
  refine Alike.bind (R := EqButFlags) ?_ fun rebased rebased' hr => ?_
  · have hroot : snapshotRoot pending' collection = snapshotRoot pending collection := by
      rw [h]
      rfl
    unfold rebaseIfMoved
    rw [hroot]
    split
    · exact alike_rebase h _ _
    · exact alike_pure h
  · have hinstall : (installRoot rebased' collection (metadata.root collection) : DbM ℓ Unit) =
        installRoot rebased collection (metadata.root collection) := by
      rw [hr]
      rfl
    rw [hinstall]
    exact alike_then (installRoot rebased collection (metadata.root collection)) fun _ => alike_pure hr

theorem alike_applyCollections (h : EqButFlags pending pending') (collections : List String) :
    Alike EqButFlags (applyCollections pending collections : DbM ℓ PendingWrite)
      (applyCollections pending' collections) := by
  induction collections generalizing pending pending' with
  | nil => exact alike_pure h
  | cons collection rest ih => exact (alike_applyCollection h collection).bind fun _ _ h' => ih h'

theorem alike_applyBatch (h : List.Forall₂ EqButFlags batch batch') :
    Alike (List.Forall₂ EqButFlags) (applyBatch batch : DbM ℓ (List PendingWrite)) (applyBatch batch') := by
  induction h with
  | nil => exact alike_pure .nil
  | @cons pending pending' rest rest' hp _ ih =>
    have hcollections : pending'.modifiedCollections = pending.modifiedCollections := by rw [hp]
    unfold applyBatch
    rw [hcollections]
    refine (alike_applyCollections hp pending.modifiedCollections.keys).bind fun applied applied' ha => ?_
    exact ih.bind fun _ _ hrest => alike_pure (.cons ha hrest)

theorem maxTxId_eqButFlags (h : List.Forall₂ EqButFlags batch batch') (leader : TransactionID) :
    maxTxId leader batch' = maxTxId leader batch := by
  have hids : batch'.map PendingWrite.mvccTxId = batch.map PendingWrite.mvccTxId := by
    induction h with
    | nil => rfl
    | cons hp _ ih => rw [List.map_cons, List.map_cons, ih, hp]
  unfold maxTxId
  rw [hids]

theorem checkBatchConflicts_eqButFlags (h : List.Forall₂ EqButFlags batch batch') :
    checkBatchConflicts batch' = checkBatchConflicts batch := by
  have hfrom : ∀ idx seen, checkBatchFrom idx batch' seen = checkBatchFrom idx batch seen := by
    induction h with
    | nil => exact fun _ _ => rfl
    | @cons pending pending' rest rest' hp _ ih =>
      intro idx seen
      have hkeys : writtenKeys pending' = writtenKeys pending := by
        rw [hp]
        rfl
      unfold checkBatchFrom
      rw [hkeys]
      cases checkKeys idx (writtenKeys pending) seen with
      | error e => rfl
      | ok seen => exact ih _ _
  exact hfrom 0 ∅

theorem finishBatch_eqButFlags (h : List.Forall₂ EqButFlags batch batch') :
    (finishBatch batch' : DbM ℓ Unit) = finishBatch batch := by
  unfold finishBatch
  rw [forEach_forall₂ h (f := writePages) fun _ _ hp => by rw [hp]; rfl,
    forEach_forall₂ h (f := fun pending => TransactionManager.commitTransaction pending.mvccTxId)
      fun _ _ hp => by rw [hp],
    forEach_forall₂ h (f := pushVersions) fun _ _ hp => by rw [hp]; rfl]

theorem validatePendingWrite_sameRequest (h : SameRequest pending pending') :
    (validatePendingWrite pending' : DbM ℓ Unit) = validatePendingWrite pending := by
  have hrest := h.rest
  unfold validatePendingWrite validateCollection detectDocumentLevelConflicts
    detectWriteConflictsWithContext
  simp only [h.existed]
  rw [hrest]
  rfl

end Parts

-- The commit of a batch does the same for requests that read the same.
theorem executeBatchCommit_sameRequest (h : List.Forall₂ SameRequest batch batch') (leader : TransactionID)
    (l : ℓ) (db : Database) :
    Proc.exec (executeBatchCommit leader batch') l db = Proc.exec (executeBatchCommit leader batch) l db := by
  have hrest : List.Forall₂ EqButFlags batch batch' := h.imp fun _ _ hp => hp.rest
  refine Alike.exec_eq (Alike.bind (R := List.Forall₂ EqButFlags) ?_ fun applied applied' ha => ?_) l db
  · unfold prepareBatch
    rw [forEach_forall₂ h fun _ _ hp => validatePendingWrite_sameRequest hp, checkBatchConflicts_eqButFlags hrest,
      forEach_forall₂ hrest (f := writeFrames) fun _ _ hp => by rw [hp]; rfl]
    refine alike_then _ fun _ => alike_then _ fun _ => alike_then _ fun _ => ?_
    refine (alike_applyBatch hrest).bind fun applied applied' ha => ?_
    rw [maxTxId_eqButFlags ha]
    exact alike_then _ fun _ => alike_pure ha
  · rw [finishBatch_eqButFlags ha]
    intro l db
    obtain ⟨r, r', l₁, db₁, he, he', hr⟩ := alike_refl (finishBatch applied) l db
    exact ⟨r, r', l₁, db₁, he, he', hr.imp_left fun ⟨a, b, ha, hb, _⟩ => ⟨a, b, ha, hb, trivial⟩⟩

end Commit

end JasonDb
