import JasonDb.LruCache.Represents

namespace JasonDb.LRUCacheInner

open Lib

variable {α : Type}

-- The answer of the cache to an operation, and the cache after it.
def step (c : LRUCacheInner α) : CacheOp PageNum α → Option α × LRUCacheInner α
  | .get pageNum => c.get pageNum
  | .getReadOnly pageNum => (c.getReadOnly pageNum, c)
  | .put pageNum data => (none, c.put pageNum data)
  | .putDirty pageNum data => (none, c.putDirtyAtomic pageNum data)
  | .remove pageNum => (none, c.remove pageNum)
  | .markDirty pageNum => (none, c.markDirty pageNum)
  | .clearDirty pageNum => (none, c.clearDirty pageNum)
  | .clearAllDirty => (none, c.clearAllDirty)

def run (c : LRUCacheInner α) (ops : List (CacheOp PageNum α)) : LRUCacheInner α :=
  ops.foldl (fun c op => (c.step op).2) c

-- The slots of the cache hold the entries of the recency list in its order.
structure Refines (c : LRUCacheInner α) (r : Recency PageNum α) : Prop where
  capacity : c.capacity = r.capacity
  dirty : ∀ pageNum, c.isDirty pageNum = r.dirty pageNum
  represents : ∃ slots, Represents c slots ∧ c.entries slots = r.entries

variable {c : LRUCacheInner α} {r : Recency PageNum α} {pageNum : PageNum} {data : α}

section Keeps

-- Moves in the list leave the capacity and the flags alone.
structure Keeps (c c' : LRUCacheInner α) : Prop where
  capacity : c'.capacity = c.capacity
  dirty : c'.dirty = c.dirty

variable {c' c'' : LRUCacheInner α}

theorem Keeps.trans (h : Keeps c c') (h' : Keeps c' c'') : Keeps c c'' :=
  ⟨h'.capacity.trans h.capacity, h'.dirty.trans h.dirty⟩

theorem keeps_updateNode (c : LRUCacheInner α) (idx : Option Nat) (f : Node α → Node α) :
    Keeps c (c.updateNode idx f) := by
  cases idx with
  | none => exact ⟨rfl, rfl⟩
  | some idx => exact ⟨rfl, rfl⟩

theorem keeps_bypass (c : LRUCacheInner α) (node : Node α) : Keeps c (c.bypass node) :=
  (keeps_updateNode _ _ _).trans (keeps_updateNode _ _ _)

theorem keeps_addToFront (c : LRUCacheInner α) (idx : Nat) : Keeps c (c.addToFront idx) := by
  have h := (keeps_updateNode c (some idx) fun node => { node with prev := none, next := c.head }).trans
    (keeps_updateNode _ c.head fun node => { node with prev := some idx })
  exact ⟨h.capacity, h.dirty⟩

theorem keeps_moveToFront (c : LRUCacheInner α) (idx : Nat) : Keeps c (c.moveToFront idx) := by
  unfold moveToFront
  split
  · exact ⟨rfl, rfl⟩
  split
  · exact ⟨rfl, rfl⟩
  next node _ =>
    refine Keeps.trans ?_ (keeps_addToFront _ idx)
    have h := keeps_bypass c node
    split
    · exact ⟨h.capacity, h.dirty⟩
    · exact h

theorem keeps_removeNode (c : LRUCacheInner α) (idx : Nat) : Keeps c (c.removeNode idx) := by
  unfold removeNode
  split
  · exact ⟨rfl, rfl⟩
  next node _ =>
    have hends : ∀ c₀, Keeps c c₀ → Keeps c { c₀.bypass node with
        nodes := (c₀.bypass node).nodes.set idx none
        freeList := (c₀.bypass node).freeList ++ [idx] } := by
      intro c₀ h₀
      have h := h₀.trans (keeps_bypass c₀ node)
      exact ⟨h.capacity, h.dirty⟩
    apply hends
    split <;> split <;> exact ⟨rfl, rfl⟩

theorem keeps_evictFrom {checks : Nat} {start : Option Nat} (h : c.evictFrom checks start = some c') :
    Keeps c c' := by
  induction checks generalizing start with
  | zero => cases start <;> cases h
  | succ checks ih =>
    cases start with
    | none => cases h
    | some idx =>
      simp only [evictFrom] at h
      split at h
      · cases h
      next node _ =>
        split at h
        · exact ih h
        · obtain rfl := Option.some.inj h
          have hremove := keeps_removeNode { c with cache := c.cache.erase node.pageNum } idx
          exact ⟨hremove.capacity, hremove.dirty⟩

theorem keeps_evict (c : LRUCacheInner α) : Keeps c c.evict := by
  unfold evict
  split
  next c' h => exact keeps_evictFrom h
  next => exact ⟨rfl, rfl⟩

theorem keeps_allocateNode (c : LRUCacheInner α) (pageNum : PageNum) (data : α) :
    Keeps c (c.allocateNode pageNum data).2 := by
  unfold allocateNode
  split
  · exact ⟨rfl, rfl⟩
  · exact ⟨rfl, rfl⟩

theorem keeps_insertFront (c : LRUCacheInner α) (pageNum : PageNum) (data : α) :
    Keeps c (c.insertFront pageNum data) := by
  have h := keeps_allocateNode c pageNum data
  have hmapped : Keeps c { (c.allocateNode pageNum data).2 with
      cache := (c.allocateNode pageNum data).2.cache.insert pageNum (c.allocateNode pageNum data).1 } :=
    ⟨h.capacity, h.dirty⟩
  exact hmapped.trans (keeps_addToFront _ _)

end Keeps

section Steps

theorem Refines.mem_keys (h : Refines c r) : pageNum ∈ r.keys ↔ pageNum ∈ c.cache := by
  obtain ⟨slots, hrep, hentries⟩ := h.represents
  rw [Recency.keys, ← hentries]
  exact hrep.mem_pages

theorem Refines.length (h : Refines c r) : c.cache.keys.length = r.entries.length := by
  obtain ⟨slots, hrep, hentries⟩ := h.represents
  rw [← hentries]
  exact hrep.length_cache (hentries ▸ r.nodup)

theorem Refines.lookup (h : Refines c r) : c.getReadOnly pageNum = r.lookup pageNum := by
  obtain ⟨slots, hrep, hentries⟩ := h.represents
  rw [getReadOnly_eq]
  cases hidx : c.cache.get? pageNum with
  | none =>
    have hnot : pageNum ∉ r.keys := fun hmem => HashMap.get?_eq_none.mp hidx (h.mem_keys.mp hmem)
    rw [Recency.lookup_eq_none.mpr hnot]
    rfl
  | some idx =>
    obtain ⟨data, hdata⟩ := (hrep.stored.mapped pageNum idx).mp hidx
    have hmem : (pageNum, data) ∈ r.entries := hentries ▸ hrep.mem_entries.mpr ⟨idx, hidx, hdata⟩
    rw [Recency.lookup_eq_some.mpr hmem, Option.bind_some, hdata]
    rfl

-- Nothing but the order of the list changes.
theorem Refines.of_keeps (h : Refines c r) {c' : LRUCacheInner α} (hkeeps : Keeps c c')
    {r' : Recency PageNum α} (hcapacity : r'.capacity = r.capacity) (hdirty : r'.dirty = r.dirty)
    (hrep : ∃ slots, Represents c' slots ∧ c'.entries slots = r'.entries) : Refines c' r' := by
  refine ⟨?_, ?_, hrep⟩
  · rw [hkeeps.capacity, hcapacity]
    exact h.capacity
  · intro p
    rw [isDirty, hkeeps.dirty, hdirty]
    exact h.dirty p

-- Where a cached page stands.
theorem Refines.locate (h : Refines c r) {idx : Nat} (hidx : c.cache.get? pageNum = some idx) :
    ∃ before after data, Represents c (before ++ idx :: after) ∧
      c.holds idx = some (pageNum, data) ∧
      c.entries before ++ (pageNum, data) :: c.entries after = r.entries ∧
      Recency.without r.entries pageNum = c.entries before ++ c.entries after := by
  obtain ⟨slots, hrep, hentries⟩ := h.represents
  obtain ⟨data, hdata⟩ := (hrep.stored.mapped pageNum idx).mp hidx
  obtain ⟨before, after, rfl⟩ := List.append_of_mem ((hrep.occupied idx).mpr ⟨_, hdata⟩)
  rw [entries_middle hdata] at hentries
  refine ⟨before, after, data, hrep, hdata, hentries, ?_⟩
  have hnodup := r.nodup
  rw [← hentries] at hnodup ⊢
  exact Recency.without_middle hnodup

theorem entries_moveToFront (c : LRUCacheInner α) (idx : Nat) (before after : List Nat) :
    (c.moveToFront idx).entries (before ++ after) = c.entries before ++ c.entries after := by
  rw [entries_congr fun i _ => (relinked_moveToFront c idx).holds_eq i, entries, List.filterMap_append]
  rfl

theorem Refines.moveToFront (h : Refines c r) {idx : Nat} (hidx : c.cache.get? pageNum = some idx) :
    ∃ data, c.holds idx = some (pageNum, data) ∧ r.lookup pageNum = some data ∧
      Refines (c.moveToFront idx) (r.touch pageNum data) := by
  obtain ⟨before, after, data, hrep, hdata, hentries, hwithout⟩ := h.locate hidx
  have hmem : (pageNum, data) ∈ r.entries := by
    rw [← hentries]
    exact List.mem_append_right _ List.mem_cons_self
  refine ⟨data, hdata, Recency.lookup_eq_some.mpr hmem,
    h.of_keeps (keeps_moveToFront c idx) rfl rfl ⟨_, hrep.moveToFront, ?_⟩⟩
  have hheld : (c.moveToFront idx).holds idx = some (pageNum, data) :=
    ((relinked_moveToFront c idx).holds_eq idx).trans hdata
  have hfront := entries_moveToFront c idx before after
  rw [entries, List.filterMap_cons_some hheld]
  exact congrArg _ (hfront.trans hwithout.symm)

-- A cached page moves to the front with new data.
theorem Refines.touch (h : Refines c r) {idx : Nat} (hidx : c.cache.get? pageNum = some idx)
    (data : α) : Refines ((c.moveToFront idx).updateNode (some idx) fun node => { node with data })
      (r.touch pageNum data) := by
  obtain ⟨before, after, old, hrep, hold, -, hwithout⟩ := h.locate hidx
  have hkeeps := (keeps_moveToFront c idx).trans
    (keeps_updateNode _ (some idx) fun node => { node with data })
  have hheld : (c.moveToFront idx).holds idx = some (pageNum, old) :=
    ((relinked_moveToFront c idx).holds_eq idx).trans hold
  obtain ⟨hset, hfront⟩ := hrep.moveToFront.setData hheld data
  refine h.of_keeps hkeeps rfl rfl ⟨_, hset, ?_⟩
  rw [hfront, entries_moveToFront, ← hwithout]
  rfl

theorem Refines.insertFront (h : Refines c r) (hnew : c.cache.get? pageNum = none) (data : α) :
    Refines (c.insertFront pageNum data) (r.touch pageNum data) := by
  obtain ⟨slots, hrep, hentries⟩ := h.represents
  obtain ⟨idx, hinsert, hfront⟩ := hrep.insertFront hnew data
  refine h.of_keeps (keeps_insertFront c pageNum data) rfl rfl ⟨_, hinsert, ?_⟩
  have hnot : pageNum ∉ r.keys := fun hmem => HashMap.get?_eq_none.mp hnew (h.mem_keys.mp hmem)
  rw [hfront, hentries]
  exact congrArg _ (Recency.without_of_not_mem hnot).symm

theorem Refines.shrink (h : Refines c r) :
    Refines (if c.cache.keys.length > c.capacity then c.evict else c) r.shrink := by
  obtain ⟨slots, hrep, hentries⟩ := h.represents
  have hdirty : c.isDirty = r.dirty := funext h.dirty
  unfold Recency.shrink
  rw [h.length, h.capacity]
  split
  · obtain ⟨slots', hrep', hleft⟩ := hrep.evict (hentries ▸ r.nodup)
    refine h.of_keeps (keeps_evict c) rfl rfl ⟨slots', hrep', ?_⟩
    rw [hleft, hdirty, hentries]
  · exact ⟨h.capacity, h.dirty, slots, hrep, hentries⟩

theorem Refines.markDirty (h : Refines c r) : Refines (c.markDirty pageNum) (r.mark pageNum true) := by
  obtain ⟨slots, hrep, hentries⟩ := h.represents
  refine ⟨h.capacity, ?_, slots, hrep.reflag _ _, hentries⟩
  intro p
  rw [LRUCacheInner.markDirty, isDirty_insert, h.dirty, Recency.mark_dirty]
  by_cases hp : p = pageNum
  · simp [hp]
  · simp [hp]

theorem Refines.clearDirty (h : Refines c r) : Refines (c.clearDirty pageNum) (r.mark pageNum false) := by
  obtain ⟨slots, hrep, hentries⟩ := h.represents
  refine ⟨h.capacity, ?_, slots, hrep.reflag _ _, hentries⟩
  intro p
  rw [LRUCacheInner.clearDirty, isDirty, HashMap.get?_erase, Recency.mark_dirty, ← h.dirty]
  by_cases hp : p = pageNum
  · simp [hp]
  · simp [hp, isDirty]

theorem Refines.get (h : Refines c r) (pageNum : PageNum) :
    (c.get pageNum).1 = (r.get pageNum).1 ∧ Refines (c.get pageNum).2 (r.get pageNum).2 := by
  cases hidx : c.cache.get? pageNum with
  | some idx =>
    obtain ⟨data, hdata, hlookup, hfront⟩ := h.moveToFront hidx
    have hheld : (c.moveToFront idx).holds idx = some (pageNum, data) :=
      ((relinked_moveToFront c idx).holds_eq idx).trans hdata
    obtain ⟨node, hnode, hpage⟩ := Option.map_eq_some_iff.mp hheld
    simp only [LRUCacheInner.get, hidx, Recency.get, hlookup, hnode]
    refine ⟨?_, hfront⟩
    exact congrArg some (congrArg Prod.snd hpage)
  | none =>
    have hnot : pageNum ∉ r.keys := fun hmem => HashMap.get?_eq_none.mp hidx (h.mem_keys.mp hmem)
    simp only [LRUCacheInner.get, hidx, Recency.get, Recency.lookup_eq_none.mpr hnot]
    exact ⟨trivial, h⟩

theorem Refines.put (h : Refines c r) (pageNum : PageNum) (data : α) :
    Refines (c.put pageNum data) (r.put pageNum data) := by
  unfold LRUCacheInner.put Recency.put
  cases hidx : c.cache.get? pageNum with
  | some idx =>
    rw [if_pos (h.mem_keys.mpr (HashMap.mem_of_get? hidx))]
    exact h.touch hidx data
  | none =>
    rw [if_neg fun hmem => HashMap.get?_eq_none.mp hidx (h.mem_keys.mp hmem)]
    exact (h.insertFront hidx data).shrink

theorem Refines.putDirtyAtomic (h : Refines c r) (pageNum : PageNum) (data : α) :
    Refines (c.putDirtyAtomic pageNum data) (r.putDirty pageNum data) := by
  unfold LRUCacheInner.putDirtyAtomic Recency.putDirty
  cases hidx : c.cache.get? pageNum with
  | some idx =>
    rw [if_pos (h.mem_keys.mpr (HashMap.mem_of_get? hidx))]
    exact (h.touch hidx data).markDirty
  | none =>
    rw [if_neg fun hmem => HashMap.get?_eq_none.mp hidx (h.mem_keys.mp hmem)]
    exact (h.insertFront hidx data).markDirty.shrink

theorem Refines.remove (h : Refines c r) (pageNum : PageNum) :
    Refines (c.remove pageNum) (r.remove pageNum) := by
  unfold LRUCacheInner.remove Recency.remove
  cases hidx : c.cache.get? pageNum with
  | some idx =>
    rw [if_pos (h.mem_keys.mpr (HashMap.mem_of_get? hidx))]
    obtain ⟨before, after, data, hrep, hdata, -, hwithout⟩ := h.locate hidx
    obtain ⟨hremoved, hleft⟩ := hrep.removeNode hdata
    have hkeeps := keeps_removeNode { c with cache := c.cache.erase pageNum } idx
    have hrefines : Refines (LRUCacheInner.removeNode { c with cache := c.cache.erase pageNum } idx)
        { r with
          entries := Recency.without r.entries pageNum
          nodup := r.nodup.sublist ((Recency.without_sublist r.entries pageNum).map _) } :=
      h.of_keeps ⟨hkeeps.capacity, hkeeps.dirty⟩ rfl rfl ⟨_, hremoved, hleft.trans hwithout.symm⟩
    exact hrefines.clearDirty
  | none =>
    rw [if_neg fun hmem => HashMap.get?_eq_none.mp hidx (h.mem_keys.mp hmem)]
    exact h

-- One operation: the same answer, and the cache still refines the list.
theorem Refines.step (h : Refines c r) (op : CacheOp PageNum α) :
    (c.step op).1 = (r.step op).1 ∧ Refines (c.step op).2 (r.step op).2 := by
  cases op with
  | get pageNum => exact h.get pageNum
  | getReadOnly pageNum => exact ⟨h.lookup, h⟩
  | put pageNum data => exact ⟨rfl, h.put pageNum data⟩
  | putDirty pageNum data => exact ⟨rfl, h.putDirtyAtomic pageNum data⟩
  | remove pageNum => exact ⟨rfl, h.remove pageNum⟩
  | markDirty pageNum => exact ⟨rfl, h.markDirty⟩
  | clearDirty pageNum => exact ⟨rfl, h.clearDirty⟩
  | clearAllDirty =>
    obtain ⟨slots, hrep, hentries⟩ := h.represents
    exact ⟨rfl, h.capacity, fun _ => rfl, slots, hrep.reflag ∅ _, hentries⟩

theorem refines_new (capacity : Nat) :
    Refines (new capacity : LRUCacheInner α) (.new (new capacity : LRUCacheInner α).capacity) := by
  refine ⟨rfl, fun _ => rfl, [], ⟨⟨trivial, rfl, rfl, List.nodup_nil⟩, ⟨?_, ?_, List.nodup_nil⟩, ?_⟩, rfl⟩
  · intro pageNum idx
    simp [new, holds, node?]
  · intro idx
    simp [new]
  · intro idx
    simp [new, holds, node?]

theorem Refines.run (h : Refines c r) (ops : List (CacheOp PageNum α)) : Refines (c.run ops) (r.run ops) := by
  induction ops generalizing c r with
  | nil => exact h
  | cons op ops ih => exact ih (h.step op).2

end Steps

section Contents

theorem Refines.getReadOnly_get (h : Refines c r) (pageNum p : PageNum) :
    (c.get pageNum).1 = c.getReadOnly pageNum ∧ (c.get pageNum).2.getReadOnly p = c.getReadOnly p := by
  obtain ⟨hanswer, hrefines⟩ := h.get pageNum
  rw [hanswer, hrefines.lookup, h.lookup, h.lookup, Recency.get]
  cases hlookup : r.lookup pageNum with
  | none => exact ⟨rfl, rfl⟩
  | some data =>
    refine ⟨rfl, ?_⟩
    rw [Recency.lookup_touch]
    split
    next hp => rw [hp, hlookup]
    next => rfl

-- The page is there with the new data, and other pages are as before, unless they were clean and
-- have left.
theorem Refines.getReadOnly_put (h : Refines c r) (pageNum : PageNum) (data : α) (p : PageNum) :
    (c.put pageNum data).getReadOnly p = (if p = pageNum then some data else c.getReadOnly p) ∨
      (c.put pageNum data).getReadOnly p = none ∧ c.isDirty p = false := by
  rw [(h.put pageNum data).lookup, h.lookup, h.dirty, ← Recency.lookup_touch, Recency.put]
  split
  · exact .inl rfl
  · exact Recency.lookup_shrink p

theorem Refines.getReadOnly_putDirtyAtomic (h : Refines c r) (pageNum : PageNum) (data : α)
    (p : PageNum) : (c.putDirtyAtomic pageNum data).getReadOnly p =
        (if p = pageNum then some data else c.getReadOnly p) ∨
      (c.putDirtyAtomic pageNum data).getReadOnly p = none ∧ p ≠ pageNum ∧ c.isDirty p = false := by
  rw [(h.putDirtyAtomic pageNum data).lookup, h.lookup, h.dirty, ← Recency.lookup_touch, Recency.putDirty]
  split
  · exact .inl rfl
  · rcases Recency.lookup_shrink (r := (r.touch pageNum data).mark pageNum true) p with heq | ⟨hnone, hclean⟩
    · exact .inl heq
    · rw [Recency.mark_dirty] at hclean
      split_ifs at hclean with hp
      exact .inr ⟨hnone, hp, hclean⟩

theorem keeps_get (c : LRUCacheInner α) (pageNum : PageNum) : Keeps c (c.get pageNum).2 := by
  unfold get
  split
  · exact keeps_moveToFront c _
  · exact ⟨rfl, rfl⟩

theorem keeps_put (c : LRUCacheInner α) (pageNum : PageNum) (data : α) : Keeps c (c.put pageNum data) := by
  unfold put
  split
  · exact (keeps_moveToFront c _).trans (keeps_updateNode _ _ _)
  · have hinsert := keeps_insertFront c pageNum data
    dsimp only
    split
    · exact hinsert.trans (keeps_evict _)
    · exact hinsert

theorem dirty_putDirtyAtomic (c : LRUCacheInner α) (pageNum : PageNum) (data : α) :
    (c.putDirtyAtomic pageNum data).dirty = c.dirty.insert pageNum true := by
  unfold putDirtyAtomic
  split
  next idx _ =>
    have hkeeps := (keeps_moveToFront c idx).trans
      (keeps_updateNode _ (some idx) fun node => { node with data })
    exact congrArg (HashMap.insert · pageNum true) hkeeps.dirty
  next =>
    have hdirty : ({ c.insertFront pageNum data with
        dirty := (c.insertFront pageNum data).dirty.insert pageNum true } : LRUCacheInner α).dirty =
        c.dirty.insert pageNum true :=
      congrArg (HashMap.insert · pageNum true) (keeps_insertFront c pageNum data).dirty
    dsimp only
    split
    · exact (keeps_evict _).dirty.trans hdirty
    · exact hdirty

end Contents

-- In every run the cache is a duplicate-free list of pages in order of last use and answers like
-- it. A new page in a full cache takes the place of the least recently used clean page, and only
-- a call that removes it takes a dirty page out.
theorem run_refines (capacity : Nat) (ops : List (CacheOp PageNum α)) :
    ∃ r : Recency PageNum α, r = (Recency.new (new capacity : LRUCacheInner α).capacity).run ops ∧
      Refines ((new capacity).run ops) r ∧ r.keys.Nodup ∧ r.Ordered ops.reverse ∧
      (∀ op, (((new capacity).run ops).step op).1 = (r.step op).1 ∧
        Refines (((new capacity).run ops).step op).2 (r.step op).2) ∧
      (∀ pageNum data, pageNum ∉ r.keys → r.capacity ≤ r.entries.length →
        Recency.Evicts r.dirty ((pageNum, data) :: r.entries) (r.put pageNum data).entries ∧
        Recency.Evicts (r.mark pageNum true).dirty ((pageNum, data) :: r.entries)
          (r.putDirty pageNum data).entries) ∧
      ∀ pageNum op, pageNum ∈ r.keys → r.dirty pageNum = true → op ≠ .remove pageNum →
        pageNum ∈ (r.step op).2.keys := by
  have h : Refines ((new capacity).run ops) _ := (refines_new (α := α) capacity).run ops
  refine ⟨_, rfl, h, Recency.nodup _, Recency.ordered_run _ ops, h.step, ?_, ?_⟩
  · intro pageNum data hnew hfull
    exact ⟨Recency.evicts_put hnew hfull data, Recency.evicts_putDirty hnew hfull data⟩
  · intro pageNum op hmem hdirty hop
    exact Recency.mem_step hmem hdirty hop

end JasonDb.LRUCacheInner
