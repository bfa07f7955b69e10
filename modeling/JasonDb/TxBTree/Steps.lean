import JasonDb.Lib.Acts
import JasonDb.TxBTree

namespace JasonDb

open Lib

theorem acts_catching {ℓ α : Type} {R : Database → Database → Prop} {m : DbM ℓ α}
    (h : Proc.Acts R m) : Proc.Acts R (catching m) := by
  refine h.attempt.bind fun r => ?_
  split
  · exact Proc.acts_fail _
  · exact Proc.acts_fail _
  · exact Proc.acts_pure _

namespace TxBTree

-- Reads are steps of every reflexive relation.
variable {ℓ : Type} {R : Database → Database → Prop} (hR : ∀ db, R db db)

include hR

theorem acts_readPage (p : PageNum) : Proc.Acts R (readPage p : DbM ℓ Page) :=
  Proc.acts_atomicE hR

theorem acts_walkBound : Proc.Acts R (walkBound : DbM ℓ Nat) := Proc.acts_atomic hR

theorem acts_readNode (p : PageNum) : Proc.Acts R (readNode p) := by
  refine Proc.acts_getLocal.bind fun t => ?_
  simp only
  split
  · exact Proc.acts_ofExcept _
  · exact (acts_readPage hR _).bind fun _ => Proc.acts_ofExcept _

theorem acts_findLeaf (fuel : Nat) (n : BTreeNode) (key : String) (path : List PageNum) :
    Proc.Acts R (findLeaf fuel n key path) := by
  induction fuel generalizing n path with
  | zero => exact Proc.acts_fail _
  | succ fuel ih =>
    unfold findLeaf
    split
    · exact Proc.acts_pure _
    · exact (Proc.acts_ofExcept _).bind fun _ => (acts_readNode hR _).bind fun _ => ih _ _

theorem acts_search (key : String) : Proc.Acts R (search key) := by
  refine Proc.acts_getLocal.bind fun t => (acts_walkBound hR).bind fun fuel => ?_
  refine (acts_readNode hR _).bind fun root => (acts_findLeaf hR _ _ _ _).bind fun r => ?_
  simp only
  split
  · exact Proc.acts_pure _
  · exact Proc.acts_fail _

end TxBTree

end JasonDb
