import JasonDb.Transaction.Client
import JasonDb.TxBTree.Grants

namespace JasonDb

open Lib

variable {ℓ : Type} {J : Database → Prop} {I : ℓ → Prop} {P : Transaction → Prop}

-- `J` does not look at the transactions that are under way.
structure Unattached (J : Database → Prop) : Prop where
  txIdCounter : ∀ db txIdCounter, J db → J { db with txIdCounter }
  txManager : ∀ db txManager, J db → J { db with txManager }

-- A transaction that has done nothing yet.
structure Transaction.Blank (tx : Transaction) : Prop where
  writes : tx.writes = ∅
  modified : tx.modifiedCollections = ∅

namespace Unattached

variable (hJ : Unattached J)

include hJ

theorem safe_begin : Proc.Safe J I Transaction.Blank (begin : DbM ℓ Transaction) := by
  refine safe_getMetadata.bind fun metadata _ => ?_
  refine (Proc.safe_atomic (Q := fun _ => True) fun db hs =>
    ⟨hJ.txIdCounter db _ hs, trivial⟩).bind fun _ _ => ?_
  refine Proc.Safe.bind (Q := fun _ => True) (m := TransactionManager.beginTransaction) ?_
    fun _ _ => ?_
  · refine (Proc.safe_atomic (Q := fun _ => True) fun db hs =>
      ⟨hJ.txManager db _ hs, trivial⟩).bind fun _ _ => ?_
    refine (Proc.safe_atomic (Q := fun _ => True) fun _ hs => ⟨hs, trivial⟩).bind fun _ _ => ?_
    exact (Proc.safe_atomic (Q := fun _ => True) fun db hs =>
      ⟨hJ.txManager db _ hs, trivial⟩).bind fun _ _ => Proc.safe_pure trivial
  · exact (Proc.safe_atomic (Q := fun _ => True) fun _ hs => ⟨hs, trivial⟩).bind fun _ _ =>
      Proc.safe_pure ⟨rfl, rfl⟩

theorem safe_abort (txId : TransactionID) :
    Proc.Safe J I (fun _ => True) (TransactionManager.abortTransaction txId : DbM ℓ Unit) :=
  Proc.safe_atomic fun db hs => ⟨hJ.txManager db _ hs, trivial⟩

theorem safe_dropTransaction (hP : ∀ tx, P tx → P tx.abandoned) :
    Proc.Safe J P (fun _ => True) Transaction.dropTransaction := by
  refine Proc.safe_getLocal.bind fun tx _ => ?_
  split
  · exact (hJ.safe_abort _).bind fun _ _ => Proc.safe_modifyLocal hP
  · exact Proc.safe_pure trivial

theorem safe_commitEmpty (hP : ∀ tx, P tx → P { tx with state := .committed }) :
    Proc.Safe J P (fun _ => True) Transaction.commitEmpty := by
  refine Proc.safe_getLocal.bind fun tx _ => ?_
  split
  · exact Proc.safe_fail _
  · refine Proc.Safe.bind (Proc.safe_modifyLocal hP) fun _ _ => ?_
    exact Proc.safe_atomic fun db hs => ⟨hJ.txManager db _ hs, trivial⟩

end Unattached

end JasonDb
