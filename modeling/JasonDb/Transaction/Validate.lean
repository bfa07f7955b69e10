import JasonDb.Transaction.Commit
import JasonDb.TxBTree.Steps

namespace JasonDb

open Lib

variable {ℓ : Type}

section Reading

variable {R : Database → Database → Prop} (hR : ∀ db, R db db)

include hR

theorem acts_readThrough (writes : HashMap PageNum Page) (p : PageNum) :
    Proc.Acts R (readThrough writes p : DbM ℓ Page) := by
  unfold readThrough
  split
  · exact Proc.acts_pure _
  · exact TxBTree.acts_readPage hR p

theorem acts_readOverflow (writes : HashMap PageNum Page) (data : Json) (start more index : Nat)
    (page : PageNum) (visited : List PageNum) :
    Proc.Acts R (readOverflow writes data start more index page visited : DbM ℓ Bool) := by
  induction more generalizing index page visited with
  | zero => exact Proc.acts_pure _
  | succ more ih =>
    unfold readOverflow
    split
    · exact Proc.acts_fail _
    · split
      · exact Proc.acts_fail _
      · split
        · exact Proc.acts_fail _
        · refine (acts_readThrough hR writes page).bind fun content => ?_
          split
          · exact (ih _ _ _).bind fun _ => Proc.acts_pure _
          · exact Proc.acts_pure _

theorem acts_readVersionedDocument (p : PageNum) (writes : HashMap PageNum Page) :
    Proc.Acts R (readVersionedDocument p writes : DbM ℓ VersionedDocument) := by
  refine (acts_readThrough hR writes p).bind fun content => ?_
  split
  · split
    · exact Proc.acts_fail _
    · exact (acts_readOverflow hR _ _ _ _ _ _ _).bind fun _ => Proc.acts_pure _
  · exact Proc.acts_fail _

end Reading

namespace Commit

section Reading

variable {R : Database → Database → Prop} (hR : ∀ db, R db db)

include hR

theorem acts_committedVersion (root : PageNum) (id : String) :
    Proc.Acts R (committedVersion root id :
      DbM ℓ (Except Error (Except Error VersionedDocument))) := by
  refine (acts_catching (TxBTree.acts_search hR id).within).bind fun r => ?_
  split
  · exact Proc.acts_pure _
  · exact (acts_catching (acts_readVersionedDocument hR _ _)).bind fun _ => Proc.acts_pure _

theorem acts_existingDocConflict (root : PageNum) (snapshotId xmin : TransactionID) (id : String) :
    Proc.Acts R (existingDocConflict root snapshotId xmin id : DbM ℓ Bool) := by
  refine (acts_committedVersion hR root id).bind fun r => ?_
  split <;> exact Proc.acts_pure _

theorem acts_newDocConflict (root : PageNum) (snapshotId : TransactionID) (id : String) :
    Proc.Acts R (newDocConflict root snapshotId id : DbM ℓ Bool) := by
  refine (acts_committedVersion hR root id).bind fun r => ?_
  split <;> exact Proc.acts_pure _

end Reading

theorem acts_anyConflict {R : Database → Database → Prop} {f : String → DbM ℓ Bool}
    (ids : List String) (h : ∀ id, Proc.Acts R (f id)) : Proc.Acts R (anyConflict f ids) := by
  induction ids with
  | nil => exact Proc.acts_pure _
  | cons id rest ih =>
    refine (h id).bind fun found => ?_
    split
    · exact Proc.acts_pure _
    · exact ih

section Validate

variable {R : Database → Database → Prop} (hR : ∀ db, R db db)

include hR

theorem acts_validateCollection (pending : PendingWrite) (collection : String) :
    Proc.Acts R (validateCollection pending collection : DbM ℓ Unit) := by
  refine (Proc.acts_atomic hR).bind fun m => ?_
  simp only
  split
  · refine Proc.Acts.bind (m := detectDocumentLevelConflicts pending collection _) ?_ fun conflict => ?_
    · refine acts_anyConflict _ fun id => ?_
      split
      · split
        · exact acts_existingDocConflict hR _ _ _ _
        · exact Proc.acts_pure _
      · exact acts_newDocConflict hR _ _ _
    · split
      · exact Proc.acts_fail _
      · exact Proc.acts_pure _
  · refine (acts_anyConflict _ fun id => ?_).bind fun conflict => ?_
    · split
      · split
        · exact acts_existingDocConflict hR _ _ _ _
        · exact Proc.acts_pure _
      · exact Proc.acts_pure _
    · split
      · exact Proc.acts_fail _
      · exact Proc.acts_pure _

theorem acts_validatePendingWrite (pending : PendingWrite) :
    Proc.Acts R (validatePendingWrite pending : DbM ℓ Unit) :=
  Proc.acts_forEach _ fun _ _ => acts_validateCollection hR _ _

end Validate

-- Validation leaves the database as it is.
theorem validate_unchanged (batch : List PendingWrite) (l : ℓ) (db : Database) :
    (Proc.exec (Proc.forEach validatePendingWrite batch) l db).2.2 = db :=
  (Proc.acts_forEach batch fun pending _ => acts_validatePendingWrite (R := fun s s' => s' = s)
    (fun _ => rfl) pending).keeps id (fun _ _ h => h) l db

end Commit

end JasonDb
