import JasonDb.LruCache

namespace JasonDb.LRUCacheInner

open Lib

variable {α : Type} {c c' : LRUCacheInner α}

-- What a node holds, apart from its links.
def holds (c : LRUCacheInner α) (idx : Nat) : Option (PageNum × α) :=
  (c.node? idx).map fun node => (node.pageNum, node.data)

-- Only the links of the list, its ends and the counters differ.
structure Relinked (c c' : LRUCacheInner α) : Prop where
  cache_eq : c'.cache = c.cache
  dirty_eq : c'.dirty = c.dirty
  freeList_eq : c'.freeList = c.freeList
  length_eq : c'.nodes.length = c.nodes.length
  holds_eq : ∀ idx, c'.holds idx = c.holds idx

theorem Relinked.refl (c : LRUCacheInner α) : Relinked c c := ⟨rfl, rfl, rfl, rfl, fun _ => rfl⟩

theorem Relinked.trans {c'' : LRUCacheInner α} (h : Relinked c c') (h' : Relinked c' c'') :
    Relinked c c'' :=
  ⟨h'.cache_eq.trans h.cache_eq, h'.dirty_eq.trans h.dirty_eq,
    h'.freeList_eq.trans h.freeList_eq, h'.length_eq.trans h.length_eq,
    fun idx => (h'.holds_eq idx).trans (h.holds_eq idx)⟩

theorem node?_updateNode (c : LRUCacheInner α) (idx : Nat) (f : Node α → Node α) (j : Nat) :
    (c.updateNode (some idx) f).node? j = if j = idx then (c.node? j).map f else c.node? j := by
  simp only [updateNode, node?, List.getElem?_modify]
  by_cases h : j = idx
  · subst h
    cases hj : c.nodes[j]? with
    | none => simp
    | some node => simp
  · have hne : ¬ idx = j := fun heq => h heq.symm
    simp [h, hne]

theorem relinked_updateNode (c : LRUCacheInner α) (idx : Option Nat) (f : Node α → Node α)
    (hf : ∀ node, (f node).pageNum = node.pageNum ∧ (f node).data = node.data) :
    Relinked c (c.updateNode idx f) := by
  cases idx with
  | none => exact Relinked.refl c
  | some idx =>
    refine ⟨rfl, rfl, rfl, by simp [updateNode], ?_⟩
    intro j
    simp only [holds, node?_updateNode]
    split_ifs with h
    · cases c.node? j with
      | none => rfl
      | some node => simp [hf node]
    · rfl

theorem relinked_addToFront (c : LRUCacheInner α) (idx : Nat) : Relinked c (c.addToFront idx) := by
  have h₁ := relinked_updateNode c (some idx)
    (fun node => { node with prev := none, next := c.head }) (fun _ => ⟨rfl, rfl⟩)
  have h₂ := h₁.trans (relinked_updateNode _ c.head
    (fun node => { node with prev := some idx }) (fun _ => ⟨rfl, rfl⟩))
  exact ⟨h₂.cache_eq, h₂.dirty_eq, h₂.freeList_eq, h₂.length_eq, h₂.holds_eq⟩

theorem relinked_unlink (c : LRUCacheInner α) (node : Node α) :
    Relinked c ((c.updateNode node.prev fun n => { n with next := node.next }).updateNode node.next
      fun n => { n with prev := node.prev }) := by
  have h₁ := relinked_updateNode c node.prev (fun n => { n with next := node.next })
    (fun _ => ⟨rfl, rfl⟩)
  exact h₁.trans (relinked_updateNode _ node.next (fun n => { n with prev := node.prev })
    (fun _ => ⟨rfl, rfl⟩))

theorem relinked_moveToFront (c : LRUCacheInner α) (idx : Nat) :
    Relinked c (c.moveToFront idx) := by
  unfold moveToFront
  split
  · exact Relinked.refl c
  split
  · exact Relinked.refl c
  next node _ =>
    refine Relinked.trans ?_ (relinked_addToFront _ idx)
    have h := relinked_unlink c node
    split
    · exact ⟨h.cache_eq, h.dirty_eq, h.freeList_eq, h.length_eq, h.holds_eq⟩
    · exact h

-- The map points at nodes of their own pages, free slots are empty and listed
-- once, and a recorded flag is set.
structure Coherent (c : LRUCacheInner α) : Prop where
  mapped : ∀ pageNum idx, c.cache.get? pageNum = some idx →
    ∃ data, c.holds idx = some (pageNum, data)
  free : ∀ idx ∈ c.freeList, c.holds idx = none ∧ idx < c.nodes.length
  nodup : c.freeList.Nodup
  flagged : ∀ pageNum flag, c.dirty.get? pageNum = some flag → flag = true

theorem Coherent.relinked (h : Coherent c) (hr : Relinked c c') : Coherent c' := by
  refine ⟨?_, ?_, ?_, ?_⟩
  · intro pageNum idx hidx
    rw [hr.holds_eq]
    exact h.mapped pageNum idx (by rw [← hr.cache_eq]; exact hidx)
  · intro idx hidx
    rw [hr.holds_eq, hr.length_eq]
    exact h.free idx (by rw [← hr.freeList_eq]; exact hidx)
  · rw [hr.freeList_eq]
    exact h.nodup
  · rw [hr.dirty_eq]
    exact h.flagged

theorem getReadOnly_eq (c : LRUCacheInner α) (pageNum : PageNum) :
    c.getReadOnly pageNum = (c.cache.get? pageNum).bind fun idx => (c.holds idx).map Prod.snd := by
  unfold getReadOnly
  cases c.cache.get? pageNum with
  | none => rfl
  | some idx =>
    simp only [holds, Option.bind_some, Option.map_map]
    rfl

theorem Relinked.getReadOnly (hr : Relinked c c') (pageNum : PageNum) :
    c'.getReadOnly pageNum = c.getReadOnly pageNum := by
  simp only [getReadOnly_eq, hr.cache_eq, hr.holds_eq]

theorem coherent_new (capacity : Nat) : Coherent (new capacity : LRUCacheInner α) := by
  refine ⟨?_, ?_, List.nodup_nil, ?_⟩
  · intro pageNum idx h
    cases h
  · intro idx h
    cases h
  · intro pageNum flag h
    cases h

theorem Coherent.mem_getAllDirty (h : Coherent c) {pageNum : PageNum} :
    pageNum ∈ c.getAllDirty ↔ c.isDirty pageNum = true := by
  unfold getAllDirty isDirty
  rw [HashMap.mem_keys, ← HashMap.get?_isSome]
  cases hget : c.dirty.get? pageNum with
  | none => simp
  | some flag => simp [h.flagged pageNum flag hget]

-- A node is taken out and its slot becomes free.
structure Removed (c c' : LRUCacheInner α) (idx : Nat) : Prop where
  cache_eq : c'.cache = c.cache
  dirty_eq : c'.dirty = c.dirty
  freeList_eq : c'.freeList = c.freeList ++ [idx]
  length_eq : c'.nodes.length = c.nodes.length
  holds_eq : ∀ j, c'.holds j = if j = idx then none else c.holds j

theorem holds_set_none (c : LRUCacheInner α) (idx j : Nat) :
    holds { c with nodes := c.nodes.set idx none } j = if j = idx then none else c.holds j := by
  simp only [holds, node?, List.getElem?_set]
  by_cases h : idx = j
  · subst h
    by_cases hlt : idx < c.nodes.length
    · simp [hlt]
    · simp [hlt]
  · have hne : ¬ j = idx := fun heq => h heq.symm
    simp [h, hne]

theorem removed_removeNode {idx : Nat} {content : PageNum × α}
    (h : c.holds idx = some content) : Removed c (c.removeNode idx) idx := by
  obtain ⟨node, hnode, -⟩ := Option.map_eq_some_iff.mp h
  have hlinks : ∀ c₀ : LRUCacheInner α, Relinked c c₀ →
      Removed c { (c₀.updateNode node.prev fun n => { n with next := node.next }).updateNode
          node.next fun n => { n with prev := node.prev } with
        nodes := ((c₀.updateNode node.prev fun n => { n with next := node.next }).updateNode
          node.next fun n => { n with prev := node.prev }).nodes.set idx none
        freeList := ((c₀.updateNode node.prev fun n => { n with next := node.next }).updateNode
          node.next fun n => { n with prev := node.prev }).freeList ++ [idx] } idx := by
    intro c₀ h₀
    have hr := h₀.trans (relinked_unlink c₀ node)
    refine ⟨hr.cache_eq, hr.dirty_eq, by rw [hr.freeList_eq], by simp [hr.length_eq], ?_⟩
    intro j
    have hset := holds_set_none ((c₀.updateNode node.prev fun n =>
      { n with next := node.next }).updateNode node.next fun n => { n with prev := node.prev }) idx j
    rw [hr.holds_eq] at hset
    exact hset
  unfold removeNode
  rw [hnode]
  apply hlinks
  split <;> split <;> exact ⟨rfl, rfl, rfl, rfl, fun _ => rfl⟩

-- Removing the node of a page takes that page out of the cache and no other.
theorem Coherent.removed {idx : Nat} {pageNum : PageNum} {data : α} (h : Coherent c)
    (hholds : c.holds idx = some (pageNum, data))
    (hr : Removed { c with cache := c.cache.erase pageNum } c' idx) :
    Coherent c' ∧ ∀ p, c'.getReadOnly p = if p = pageNum then none else c.getReadOnly p := by
  have hidx : ∀ p j, p ≠ pageNum → c.cache.get? p = some j → j ≠ idx := by
    intro p j hne hj heq
    obtain ⟨d, hd⟩ := h.mapped p j hj
    rw [heq, hholds] at hd
    exact hne (congrArg Prod.fst (Option.some.inj hd)).symm
  have hheld : ∀ j, c'.holds j = if j = idx then none else c.holds j := hr.holds_eq
  have hlen : idx < c.nodes.length := by
    by_contra hge
    simp [holds, node?, List.getElem?_eq_none (Nat.not_lt.mp hge)] at hholds
  refine ⟨⟨?_, ?_, ?_, ?_⟩, ?_⟩
  · intro p j hj
    rw [hr.cache_eq, HashMap.get?_erase] at hj
    split_ifs at hj with hp
    rw [hheld, if_neg (hidx p j hp hj)]
    exact h.mapped p j hj
  · intro j hj
    rw [hr.freeList_eq, List.mem_append, List.mem_singleton] at hj
    rw [hheld, hr.length_eq]
    rcases hj with hj | rfl
    · obtain ⟨hnone, hlt⟩ := h.free j hj
      refine ⟨?_, hlt⟩
      rw [hnone, ite_self]
    · exact ⟨if_pos rfl, hlen⟩
  · rw [hr.freeList_eq]
    refine List.nodup_append.mpr ⟨h.nodup, List.nodup_singleton idx, ?_⟩
    intro a ha b hb heq
    rw [List.mem_singleton] at hb
    rw [heq, hb] at ha
    rw [(h.free idx ha).1] at hholds
    cases hholds
  · rw [hr.dirty_eq]
    exact h.flagged
  · intro p
    simp only [getReadOnly_eq, hr.cache_eq, HashMap.get?_erase]
    split_ifs with hp
    · rfl
    · cases hj : c.cache.get? p with
      | none => rfl
      | some j => simp only [Option.bind_some, hheld, if_neg (hidx p j hp hj)]

-- An eviction takes out at most one page, and that page is clean.
theorem Coherent.evictFrom (h : Coherent c) {checks : Nat} {start : Option Nat}
    (he : c.evictFrom checks start = some c') :
    Coherent c' ∧ c'.dirty = c.dirty ∧
      ∃ evicted, c.isDirty evicted = false ∧
        ∀ p, c'.getReadOnly p = if p = evicted then none else c.getReadOnly p := by
  induction checks generalizing start with
  | zero => cases start <;> cases he
  | succ checks ih =>
    cases start with
    | none => cases he
    | some idx =>
      simp only [LRUCacheInner.evictFrom] at he
      cases hnode : c.node? idx with
      | none =>
        rw [hnode] at he
        cases he
      | some node =>
        rw [hnode] at he
        by_cases hdirty : c.isDirty node.pageNum = true
        · simp only [hdirty, if_true] at he
          exact ih he
        · simp only [hdirty, Bool.false_eq_true, if_false, Option.some.injEq] at he
          subst he
          have hholds : c.holds idx = some (node.pageNum, node.data) := by
            simp [holds, hnode]
          have hr : Removed { c with cache := c.cache.erase node.pageNum }
              (removeNode { c with cache := c.cache.erase node.pageNum } idx) idx :=
            removed_removeNode hholds
          have hr' : Removed { c with cache := c.cache.erase node.pageNum }
              { removeNode { c with cache := c.cache.erase node.pageNum } idx with
                failedEvictions := 0 } idx :=
            ⟨hr.cache_eq, hr.dirty_eq, hr.freeList_eq, hr.length_eq, hr.holds_eq⟩
          obtain ⟨hcoh, hget⟩ := h.removed hholds hr'
          exact ⟨hcoh, hr.dirty_eq, node.pageNum, Bool.eq_false_iff.mpr hdirty, hget⟩

theorem Coherent.evict (h : Coherent c) :
    Coherent c.evict ∧ c.evict.dirty = c.dirty ∧
      ∀ p, c.evict.getReadOnly p = c.getReadOnly p ∨
        c.evict.getReadOnly p = none ∧ c.isDirty p = false := by
  unfold LRUCacheInner.evict
  split
  next c' he =>
    obtain ⟨hcoh, hdirty, evicted, hclean, hget⟩ := h.evictFrom he
    refine ⟨hcoh, hdirty, fun p => ?_⟩
    rw [hget]
    split_ifs with hp
    · exact .inr ⟨rfl, by rw [hp]; exact hclean⟩
    · exact .inl rfl
  · exact ⟨h.relinked ⟨rfl, rfl, rfl, rfl, fun _ => rfl⟩, rfl, fun _ => .inl rfl⟩

-- The slot of a new node was free or is added at the end.
structure Allocated (c : LRUCacheInner α) (pageNum : PageNum) (data : α) (idx : Nat)
    (c' : LRUCacheInner α) : Prop where
  cache_eq : c'.cache = c.cache
  dirty_eq : c'.dirty = c.dirty
  fresh : c.holds idx = none
  holds_eq : ∀ j, c'.holds j = if j = idx then some (pageNum, data) else c.holds j
  freeList_sub : ∀ j ∈ c'.freeList, j ∈ c.freeList ∧ j ≠ idx
  nodup : c'.freeList.Nodup
  length_le : c.nodes.length ≤ c'.nodes.length

theorem Coherent.allocateNode (h : Coherent c) (pageNum : PageNum) (data : α) :
    Allocated c pageNum data (c.allocateNode pageNum data).1 (c.allocateNode pageNum data).2 := by
  unfold LRUCacheInner.allocateNode
  cases hlast : c.freeList.getLast? with
  | some idx =>
    have hfree : c.freeList = c.freeList.dropLast ++ [idx] :=
      (List.dropLast_append_getLast? idx hlast).symm
    have hmem : idx ∈ c.freeList := List.mem_of_getLast? hlast
    obtain ⟨hnone, hlt⟩ := h.free idx hmem
    have hnodup := h.nodup
    rw [hfree] at hnodup
    obtain ⟨hdrop, -, hdisj⟩ := List.nodup_append.mp hnodup
    refine ⟨rfl, rfl, hnone, ?_, ?_, hdrop, ?_⟩
    · intro j
      simp only [holds, node?, List.getElem?_set]
      by_cases hj : idx = j
      · subst hj
        simp [hlt]
      · have hne : ¬ j = idx := fun heq => hj heq.symm
        simp [hj, hne]
    · intro j hj
      refine ⟨List.dropLast_subset _ hj, fun heq => ?_⟩
      exact hdisj j hj idx (List.mem_singleton_self idx) heq
    · simp
  | none =>
    have hnil : c.freeList = [] := List.getLast?_eq_none_iff.mp hlast
    refine ⟨rfl, rfl, ?_, ?_, ?_, h.nodup, ?_⟩
    · simp [holds, node?]
    · intro j
      simp only [holds, node?, List.getElem?_append]
      rcases Nat.lt_trichotomy j c.nodes.length with hj | hj | hj
      · simp [hj, Nat.ne_of_lt hj]
      · simp [hj]
      · have hnot : ¬ j < c.nodes.length := by omega
        have hne : j ≠ c.nodes.length := by omega
        obtain ⟨k, hk⟩ : ∃ k, j - c.nodes.length = k + 1 := ⟨j - c.nodes.length - 1, by omega⟩
        simp [hnot, hne, hk]
    · intro j hj
      simp only [hnil] at hj
      cases hj
    · simp

theorem isDirty_insert (c : LRUCacheInner α) (pageNum p : PageNum) :
    isDirty { c with dirty := c.dirty.insert pageNum true } p = (decide (p = pageNum) || c.isDirty p) := by
  simp only [isDirty, HashMap.get?_insert]
  by_cases hp : p = pageNum
  · simp [hp]
  · simp [hp]

-- The page is cached and dirty, the other dirty pages are untouched, and at most
-- clean pages have left the cache.
structure PutDirty (c : LRUCacheInner α) (pageNum : PageNum) (data : α)
    (c' : LRUCacheInner α) : Prop where
  coherent : Coherent c'
  isDirty_eq : ∀ p, c'.isDirty p = (decide (p = pageNum) || c.isDirty p)
  self : c'.getReadOnly pageNum = some data
  others : ∀ p, p ≠ pageNum → c'.getReadOnly p = c.getReadOnly p ∨
    c'.getReadOnly p = none ∧ c.isDirty p = false

theorem Coherent.putDirty_cached (h : Coherent c) {pageNum : PageNum} {idx : Nat} (data : α)
    (hidx : c.cache.get? pageNum = some idx) : PutDirty c pageNum data
      { (c.moveToFront idx).updateNode (some idx) fun node => { node with data } with
        dirty := (c.moveToFront idx).dirty.insert pageNum true } := by
  have hr := relinked_moveToFront c idx
  obtain ⟨old, hold⟩ := h.mapped pageNum idx hidx
  have hcoh := h.relinked hr
  rw [← hr.holds_eq] at hold
  rw [← hr.cache_eq] at hidx
  have hget := hr.getReadOnly
  have hdirty : ∀ p, (c.moveToFront idx).isDirty p = c.isDirty p := fun p => by
    simp only [isDirty, hr.dirty_eq]
  generalize c.moveToFront idx = m at *
  have hheld : ∀ j, holds (m.updateNode (some idx) fun node => { node with data }) j =
      if j = idx then some (pageNum, data) else m.holds j := by
    intro j
    obtain ⟨node, hnode, hpage⟩ := Option.map_eq_some_iff.mp hold
    simp only [holds, node?_updateNode]
    split_ifs with hj
    · rw [hj, hnode]
      simp only [Option.map_some, Option.some.injEq, Prod.mk.injEq, and_true]
      exact congrArg Prod.fst hpage
    · rfl
  have hinj : ∀ p j, p ≠ pageNum → m.cache.get? p = some j → j ≠ idx := by
    intro p j hne hj heq
    obtain ⟨d, hd⟩ := hcoh.mapped p j hj
    rw [heq, hold] at hd
    exact hne (congrArg Prod.fst (Option.some.inj hd)).symm
  refine ⟨⟨?_, ?_, hcoh.nodup, ?_⟩, ?_, ?_, ?_⟩
  · intro p j hj
    show ∃ d, holds (m.updateNode (some idx) _) j = some (p, d)
    rw [hheld]
    by_cases hp : p = pageNum
    · subst hp
      have : j = idx := by
        have hj' : m.cache.get? p = some j := hj
        rw [hidx] at hj'
        exact (Option.some.inj hj').symm
      rw [if_pos this]
      exact ⟨data, rfl⟩
    · rw [if_neg (hinj p j hp hj)]
      exact hcoh.mapped p j hj
  · intro j hj
    obtain ⟨hnone, hlt⟩ := hcoh.free j hj
    show holds (m.updateNode (some idx) _) j = none ∧ _
    refine ⟨?_, by simpa [updateNode] using hlt⟩
    rw [hheld, if_neg, hnone]
    intro heq
    rw [heq, hold] at hnone
    cases hnone
  · intro p flag hflag
    rw [HashMap.get?_insert] at hflag
    split_ifs at hflag with hp
    · exact (Option.some.inj hflag).symm
    · exact hcoh.flagged p flag hflag
  · intro p
    rw [← hdirty]
    exact isDirty_insert m pageNum p
  · rw [getReadOnly_eq]
    show (m.cache.get? pageNum).bind (fun j => (holds (m.updateNode (some idx) _) j).map _) = _
    rw [hidx, Option.bind_some, hheld, if_pos rfl]
    rfl
  · intro p hp
    left
    rw [← hget, getReadOnly_eq, getReadOnly_eq]
    show (m.cache.get? p).bind (fun j => (holds (m.updateNode (some idx) _) j).map _) = _
    cases hj : m.cache.get? p with
    | none => rfl
    | some j => rw [Option.bind_some, Option.bind_some, hheld, if_neg (hinj p j hp hj)]

theorem Coherent.putDirty_new (h : Coherent c) {pageNum : PageNum} {data : α} {idx : Nat}
    (ha : Allocated c pageNum data idx c') :
    PutDirty c pageNum data
      { addToFront { c' with cache := c'.cache.insert pageNum idx } idx with
        dirty := c'.dirty.insert pageNum true } := by
  let m : LRUCacheInner α := { c' with cache := c'.cache.insert pageNum idx }
  have hr := relinked_addToFront m idx
  have hinj : ∀ p j, c.cache.get? p = some j → j ≠ idx := by
    intro p j hj heq
    obtain ⟨d, hd⟩ := h.mapped p j hj
    rw [heq, ha.fresh] at hd
    cases hd
  have hcache : ∀ p, m.cache.get? p = if p = pageNum then some idx else c.cache.get? p := by
    intro p
    show (c'.cache.insert pageNum idx).get? p = _
    rw [HashMap.get?_insert, ha.cache_eq]
  have hheld : ∀ j, m.holds j = if j = idx then some (pageNum, data) else c.holds j := ha.holds_eq
  have hcoh : Coherent m := by
    refine ⟨?_, ?_, ha.nodup, ?_⟩
    · intro p j hj
      rw [hcache] at hj
      split_ifs at hj with hp
      · rw [hheld, if_pos (Option.some.inj hj).symm, hp]
        exact ⟨data, rfl⟩
      · rw [hheld, if_neg (hinj p j hj)]
        exact h.mapped p j hj
    · intro j hj
      obtain ⟨hmem, hne⟩ := ha.freeList_sub j hj
      obtain ⟨hnone, hlt⟩ := h.free j hmem
      rw [hheld, if_neg hne]
      exact ⟨hnone, Nat.lt_of_lt_of_le hlt ha.length_le⟩
    · intro p flag hflag
      exact h.flagged p flag (by rw [← ha.dirty_eq]; exact hflag)
  have hcoh' := hcoh.relinked hr
  have hget : ∀ p, (m.addToFront idx).getReadOnly p =
      if p = pageNum then some data else c.getReadOnly p := by
    intro p
    rw [hr.getReadOnly, getReadOnly_eq, getReadOnly_eq, hcache]
    split_ifs with hp
    · rw [Option.bind_some, hheld, if_pos rfl]
      rfl
    · cases hj : c.cache.get? p with
      | none => rfl
      | some j => rw [Option.bind_some, Option.bind_some, hheld, if_neg (hinj p j hj)]
  refine ⟨⟨hcoh'.mapped, hcoh'.free, hcoh'.nodup, ?_⟩, ?_, ?_, ?_⟩
  · intro p flag hflag
    rw [HashMap.get?_insert, ha.dirty_eq] at hflag
    split_ifs at hflag with hp
    · exact (Option.some.inj hflag).symm
    · exact h.flagged p flag hflag
  · intro p
    have hdirty : c'.isDirty p = c.isDirty p := by simp only [isDirty, ha.dirty_eq]
    rw [← hdirty]
    exact isDirty_insert c' pageNum p
  · exact (hget pageNum).trans (if_pos rfl)
  · intro p hp
    exact .inl ((hget p).trans (if_neg hp))

theorem PutDirty.evict {pageNum : PageNum} {data : α} (h : PutDirty c pageNum data c') :
    PutDirty c pageNum data c'.evict := by
  obtain ⟨hcoh, hdirty, hget⟩ := h.coherent.evict
  have hflag : c'.isDirty pageNum = true := by simp [h.isDirty_eq]
  refine ⟨hcoh, ?_, ?_, ?_⟩
  · intro p
    rw [← h.isDirty_eq]
    simp only [isDirty, hdirty]
  · rcases hget pageNum with heq | ⟨-, hclean⟩
    · rw [heq]
      exact h.self
    · rw [hflag] at hclean
      cases hclean
  · intro p hp
    rcases hget p with heq | ⟨hnone, hclean⟩
    · rw [heq]
      exact h.others p hp
    · rw [h.isDirty_eq, Bool.or_eq_false_iff] at hclean
      exact .inr ⟨hnone, hclean.2⟩

theorem Coherent.putDirtyAtomic (h : Coherent c) (pageNum : PageNum) (data : α) :
    PutDirty c pageNum data (c.putDirtyAtomic pageNum data) := by
  unfold LRUCacheInner.putDirtyAtomic
  cases hidx : c.cache.get? pageNum with
  | some idx => exact h.putDirty_cached data hidx
  | none =>
    have hput := h.putDirty_new (h.allocateNode pageNum data)
    have hdirty : ∀ (m : LRUCacheInner α) (i : Nat), (m.addToFront i).dirty = m.dirty :=
      fun m i => (relinked_addToFront m i).dirty_eq
    simp only [hdirty]
    split
    · exact hput.evict
    · exact hput

end JasonDb.LRUCacheInner
