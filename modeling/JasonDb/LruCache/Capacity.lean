import JasonDb.LruCache.Refines

namespace JasonDb.LRUCacheInner

open Lib

variable {α : Type} {c c' : LRUCacheInner α} {r : Recency PageNum α} {pageNum : PageNum}

-- No more pages than the capacity allows, or than are flagged dirty.
def Bounded (c : LRUCacheInner α) : Prop :=
  c.cache.keys.length ≤ max c.capacity c.getAllDirty.length

instance (c : LRUCacheInner α) : Decidable c.Bounded := inferInstanceAs (Decidable (_ ≤ _))

-- A flag is taken away only while the pages still fit without it.
def Roomy (c : LRUCacheInner α) : CacheOp PageNum α → Prop
  | .clearDirty pageNum =>
    c.cache.keys.length ≤ max c.capacity (c.getAllDirty.filter (· ≠ pageNum)).length
  | .clearAllDirty => c.cache.keys.length ≤ c.capacity
  | _ => True

-- The calls after which the number of pages is looked at.
def inserts : CacheOp PageNum α → Bool
  | .put _ _ | .putDirty _ _ => true
  | _ => false

section Flags

-- The recorded flags are those of the recency list.
structure Counts (c : LRUCacheInner α) (r : Recency PageNum α) : Prop where
  refines : Refines c r
  flagged : ∀ p flag, c.dirty.get? p = some flag → flag = true

theorem Counts.mem_getAllDirty (h : Counts c r) {p : PageNum} :
    p ∈ c.getAllDirty ↔ r.dirty p = true := by
  rw [← h.refines.dirty, getAllDirty, isDirty, HashMap.mem_keys, ← HashMap.get?_isSome]
  cases hget : c.dirty.get? p with
  | none => simp
  | some flag => simp [h.flagged p flag hget]

theorem Counts.bounded_iff (h : Counts c r) : c.Bounded ↔ r.Bounded c.getAllDirty := by
  unfold LRUCacheInner.Bounded Recency.Bounded
  rw [h.refines.length, h.refines.capacity]

theorem flagged_insert {dirty : HashMap PageNum Bool}
    (h : ∀ p flag, dirty.get? p = some flag → flag = true) (pageNum p : PageNum) (flag : Bool)
    (hflag : (dirty.insert pageNum true).get? p = some flag) : flag = true := by
  rw [HashMap.get?_insert] at hflag
  split_ifs at hflag with hp
  · exact (Option.some.inj hflag).symm
  · exact h p flag hflag

theorem flagged_erase {dirty : HashMap PageNum Bool}
    (h : ∀ p flag, dirty.get? p = some flag → flag = true) (pageNum p : PageNum) (flag : Bool)
    (hflag : (dirty.erase pageNum).get? p = some flag) : flag = true := by
  rw [HashMap.get?_erase] at hflag
  split_ifs at hflag with hp
  exact h p flag hflag

theorem dirty_remove (c : LRUCacheInner α) (pageNum : PageNum) :
    (c.remove pageNum).dirty = c.dirty ∧ pageNum ∉ c.cache ∨
      (c.remove pageNum).dirty = c.dirty.erase pageNum ∧ pageNum ∈ c.cache := by
  unfold remove
  cases hidx : c.cache.get? pageNum with
  | none => exact .inl ⟨rfl, HashMap.get?_eq_none.mp hidx⟩
  | some idx =>
    have hkeeps := keeps_removeNode { c with cache := c.cache.erase pageNum } idx
    exact .inr ⟨congrArg (HashMap.erase · pageNum) hkeeps.dirty, HashMap.mem_of_get? hidx⟩

theorem Counts.step (h : Counts c r) (op : CacheOp PageNum α) : Counts (c.step op).2 (r.step op).2 := by
  refine ⟨(h.refines.step op).2, ?_⟩
  cases op with
  | get pageNum =>
    simp only [LRUCacheInner.step, (keeps_get c pageNum).dirty]
    exact h.flagged
  | getReadOnly pageNum => exact h.flagged
  | put pageNum data =>
    simp only [LRUCacheInner.step, (keeps_put c pageNum data).dirty]
    exact h.flagged
  | putDirty pageNum data =>
    simp only [LRUCacheInner.step, dirty_putDirtyAtomic]
    exact flagged_insert h.flagged pageNum
  | remove pageNum =>
    rcases dirty_remove c pageNum with ⟨hdirty, -⟩ | ⟨hdirty, -⟩
    · simp only [LRUCacheInner.step, hdirty]
      exact h.flagged
    · simp only [LRUCacheInner.step, hdirty]
      exact flagged_erase h.flagged pageNum
  | markDirty pageNum => exact flagged_insert h.flagged pageNum
  | clearDirty pageNum => exact flagged_erase h.flagged pageNum
  | clearAllDirty =>
    intro p flag hflag
    cases hflag

theorem counts_run (capacity : Nat) (ops : List (CacheOp PageNum α)) :
    ∃ r, Counts ((new capacity).run ops) r := by
  induction ops using List.reverseRecOn with
  | nil =>
    refine ⟨_, refines_new capacity, ?_⟩
    intro p flag hflag
    cases hflag
  | append_singleton ops op ih =>
    obtain ⟨r, hr⟩ := ih
    refine ⟨(r.step op).2, ?_⟩
    rw [run, List.foldl_append]
    exact hr.step op

end Flags

section Lengths

theorem length_keys_erase (dirty : HashMap PageNum Bool) (pageNum : PageNum) :
    (dirty.erase pageNum).keys.length = (dirty.keys.filter (· ≠ pageNum)).length := by
  have hmem : ∀ p, p ∈ (dirty.erase pageNum).keys ↔ p ∈ dirty.keys.filter (· ≠ pageNum) := by
    intro p
    rw [List.mem_filter, HashMap.mem_keys, HashMap.mem_keys, ← HashMap.get?_isSome,
      ← HashMap.get?_isSome, HashMap.get?_erase]
    by_cases hp : p = pageNum
    · simp [hp]
    · simp [hp]
  exact ((List.perm_ext_iff_of_nodup (HashMap.nodup_keys _) ((HashMap.nodup_keys _).filter _)).mpr
    hmem).length_eq

-- At most one flag goes with a page.
theorem length_filter_ne (c : LRUCacheInner α) (pageNum : PageNum) :
    c.getAllDirty.length ≤ (c.getAllDirty.filter (· ≠ pageNum)).length + 1 := by
  have hcount : c.getAllDirty.count pageNum ≤ 1 :=
    List.nodup_iff_count_le_one.mp c.dirty.nodup_keys pageNum
  have hsplit := List.length_eq_length_filter_add (l := c.getAllDirty) (fun p => decide (p ≠ pageNum))
  have hone : (c.getAllDirty.filter fun p => !decide (p ≠ pageNum)).length =
      c.getAllDirty.count pageNum := by
    rw [List.count, List.countP_eq_length_filter]
    congr 2
    funext p
    simp [beq_eq_decide]
  omega

end Lengths

section Steps

theorem Counts.bounded_put (h : Counts c r) (pageNum : PageNum) (data : α) :
    (c.put pageNum data).Bounded ↔ c.Bounded := by
  have hput : Counts (c.put pageNum data) (r.put pageNum data) := h.step (.put pageNum data)
  have hdirty : (c.put pageNum data).getAllDirty = c.getAllDirty := by
    rw [getAllDirty, (keeps_put c pageNum data).dirty]
    rfl
  rw [hput.bounded_iff, h.bounded_iff, hdirty]
  exact Recency.bounded_put (fun k hk => h.mem_getAllDirty.mpr hk) pageNum data

theorem Counts.bounded_putDirtyAtomic (h : Counts c r) (pageNum : PageNum) (data : α) :
    (c.putDirtyAtomic pageNum data).Bounded ↔ (c.markDirty pageNum).Bounded := by
  have hput : Counts (c.putDirtyAtomic pageNum data) (r.putDirty pageNum data) :=
    h.step (.putDirty pageNum data)
  have hmark : Counts (c.markDirty pageNum) (r.mark pageNum true) := h.step (.markDirty pageNum)
  have hdirty : (c.putDirtyAtomic pageNum data).getAllDirty = (c.markDirty pageNum).getAllDirty := by
    rw [getAllDirty, dirty_putDirtyAtomic]
    rfl
  rw [hput.bounded_iff, hmark.bounded_iff, hdirty]
  exact Recency.bounded_putDirty (fun k hk => hmark.mem_getAllDirty.mpr hk) data

theorem bounded_markDirty (hbounded : c.Bounded) (pageNum : PageNum) :
    (c.markDirty pageNum).Bounded := by
  have hsub : c.getAllDirty ⊆ (c.markDirty pageNum).getAllDirty := by
    intro p hp
    exact HashMap.mem_keys.mpr (HashMap.mem_insert.mpr (.inr hp))
  have hle : c.getAllDirty.length ≤ (c.markDirty pageNum).getAllDirty.length :=
    (List.subperm_of_subset c.dirty.nodup_keys hsub).length_le
  have hmark : (c.markDirty pageNum).cache.keys.length = c.cache.keys.length := rfl
  have hcapacity : (c.markDirty pageNum).capacity = c.capacity := rfl
  unfold LRUCacheInner.Bounded at hbounded ⊢
  omega

theorem Counts.bounded_remove (h : Counts c r) (hbounded : c.Bounded) (pageNum : PageNum) :
    (c.remove pageNum).Bounded := by
  have hremove : Counts (c.remove pageNum) (r.remove pageNum) := h.step (.remove pageNum)
  have hcapacity : (r.remove pageNum).capacity = r.capacity := by
    unfold Recency.remove
    split
    · rfl
    · rfl
  rw [h.bounded_iff] at hbounded
  rw [hremove.bounded_iff]
  unfold Recency.Bounded at hbounded ⊢
  rcases dirty_remove c pageNum with ⟨hdirty, hnew⟩ | ⟨hdirty, hmem⟩
  · have hentries : (r.remove pageNum).entries = r.entries := by
      rw [Recency.remove, if_neg fun hmem => hnew (h.refines.mem_keys.mp hmem)]
    rw [hcapacity, hentries, getAllDirty, hdirty]
    exact hbounded
  · -- the page goes, and at most one flag with it
    have hlength := Recency.length_remove (h.refines.mem_keys.mpr hmem)
    have hflags := length_keys_erase c.dirty pageNum
    have hone := length_filter_ne c pageNum
    rw [hcapacity, getAllDirty, hdirty]
    unfold getAllDirty at hbounded hone
    omega

theorem bounded_clearDirty_iff (c : LRUCacheInner α) (pageNum : PageNum) :
    (c.clearDirty pageNum).Bounded ↔ c.Roomy (.clearDirty pageNum) := by
  have hflags := length_keys_erase c.dirty pageNum
  show c.cache.keys.length ≤ max c.capacity (c.dirty.erase pageNum).keys.length ↔ _
  rw [hflags]
  rfl

theorem bounded_clearAllDirty_iff (c : LRUCacheInner α) :
    c.clearAllDirty.Bounded ↔ c.Roomy .clearAllDirty := by
  show c.cache.keys.length ≤ max c.capacity 0 ↔ c.cache.keys.length ≤ c.capacity
  rw [Nat.max_zero]

-- Only a flag taken away can leave too many pages.
theorem Counts.bounded_step (h : Counts c r) (hbounded : c.Bounded) {op : CacheOp PageNum α}
    (hroomy : c.Roomy op) : (c.step op).2.Bounded := by
  cases op with
  | get pageNum =>
    have hget : Counts (c.get pageNum).2 (r.get pageNum).2 := h.step (.get pageNum)
    have hlength : (r.get pageNum).2.entries.length = r.entries.length ∧
        (r.get pageNum).2.capacity = r.capacity := by
      unfold Recency.get
      cases hlookup : r.lookup pageNum with
      | none => exact ⟨rfl, rfl⟩
      | some data =>
        refine ⟨Recency.length_touch ?_ data, rfl⟩
        exact List.mem_map_of_mem (f := Prod.fst) (Recency.lookup_eq_some.mp hlookup)
    rw [h.bounded_iff] at hbounded
    rw [LRUCacheInner.step, hget.bounded_iff, getAllDirty, (keeps_get c pageNum).dirty]
    unfold Recency.Bounded at hbounded ⊢
    rw [hlength.1, hlength.2]
    exact hbounded
  | getReadOnly pageNum => exact hbounded
  | put pageNum data => exact (h.bounded_put pageNum data).mpr hbounded
  | putDirty pageNum data =>
    exact (h.bounded_putDirtyAtomic pageNum data).mpr (bounded_markDirty hbounded pageNum)
  | remove pageNum => exact h.bounded_remove hbounded pageNum
  | markDirty pageNum => exact bounded_markDirty hbounded pageNum
  | clearDirty pageNum => exact (bounded_clearDirty_iff c pageNum).mpr hroomy
  | clearAllDirty => exact (bounded_clearAllDirty_iff c).mpr hroomy

theorem not_bounded_step {op : CacheOp PageNum α} (h : ¬ c.Roomy op) : ¬ (c.step op).2.Bounded := by
  cases op with
  | clearDirty pageNum => exact fun hbounded => h ((bounded_clearDirty_iff c pageNum).mp hbounded)
  | clearAllDirty => exact fun hbounded => h ((bounded_clearAllDirty_iff c).mp hbounded)
  | get pageNum => exact absurd trivial h
  | getReadOnly pageNum => exact absurd trivial h
  | put pageNum data => exact absurd trivial h
  | putDirty pageNum data => exact absurd trivial h
  | remove pageNum => exact absurd trivial h
  | markDirty pageNum => exact absurd trivial h

end Steps

theorem run_append (c : LRUCacheInner α) (ops ops' : List (CacheOp PageNum α)) :
    c.run (ops ++ ops') = (c.run ops).run ops' := List.foldl_append

theorem bounded_run (capacity : Nat) {ops : List (CacheOp PageNum α)}
    (h : ∀ before op after, ops = before ++ op :: after → ((new capacity).run before).Roomy op) :
    ((new capacity).run ops).Bounded := by
  induction ops using List.reverseRecOn with
  | nil => exact Nat.zero_le _
  | append_singleton ops op ih =>
    have hbefore := ih fun before op' after heq =>
      h before op' (after ++ [op]) (by rw [heq, List.append_assoc, List.cons_append])
    obtain ⟨r, hr⟩ := counts_run capacity ops
    rw [run_append]
    exact hr.bounded_step hbefore (h ops op [] rfl)

-- While flags are taken away only when the pages fit without them, each insertion leaves the cache
-- within its bounds. Once they do not fit, the next page put leaves too many as well: an insertion
-- evicts one page at most.
theorem bounded_insertions (capacity : Nat) (ops : List (CacheOp PageNum α)) :
    ((∀ before op after, ops = before ++ op :: after → ((new capacity).run before).Roomy op) →
      ∀ before op after, ops = before ++ op :: after → inserts op = true →
        ((new capacity).run (before ++ [op])).Bounded) ∧
    ∀ op, ¬ ((new capacity).run ops).Roomy op → ∀ pageNum data,
      ¬ ((new capacity).run (ops ++ [op, .put pageNum data])).Bounded := by
  constructor
  · intro h before op after hops _
    refine bounded_run capacity fun before' op' after' heq => h before' op' (after' ++ after) ?_
    rw [hops, ← List.singleton_append, ← List.append_assoc, heq, List.append_assoc, List.cons_append]
  · intro op hroomy pageNum data
    obtain ⟨r, hr⟩ := counts_run capacity ops
    rw [run_append]
    have hstep := hr.step op
    show ¬ ((((new capacity).run ops).step op).2.put pageNum data).Bounded
    rw [hstep.bounded_put]
    exact not_bounded_step hroomy

-- Three dirty pages, all flags cleared, one more page: three pages in a cache for one.
theorem cleared_flags_overfill :
    ¬ ((new 1 : LRUCacheInner Unit).run [.putDirty 1 (), .putDirty 2 (), .putDirty 3 (), .clearAllDirty,
      .put 4 ()]).Bounded := by decide

end JasonDb.LRUCacheInner
