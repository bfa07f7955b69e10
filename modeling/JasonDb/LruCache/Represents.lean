import JasonDb.Lib.Links
import JasonDb.Lib.Recency
import JasonDb.LruCache.Coherent

namespace JasonDb.LRUCacheInner

open Lib

variable {α : Type} {c c' : LRUCacheInner α} {idx : Nat} {slots before after : List Nat}

section Chains

def links (c : LRUCacheInner α) : Links := fun idx =>
  (c.node? idx).map fun node => ⟨node.prev, node.next⟩

-- The list from `head` to `tail` runs through these slots.
structure Chain (c : LRUCacheInner α) (slots : List Nat) : Prop where
  linked : c.links.Segment none slots none
  head : c.head = slots.head?
  tail : c.tail = slots.getLast?
  nodup : slots.Nodup

theorem links_updateNode (c : LRUCacheInner α) (idx : Option Nat) {f : Node α → Node α}
    {g : Link → Link} (h : ∀ node, (⟨(f node).prev, (f node).next⟩ : Link) = g ⟨node.prev, node.next⟩) :
    (c.updateNode idx f).links = c.links.modify idx g := by
  cases idx with
  | none => rfl
  | some idx =>
    funext j
    by_cases hj : j = idx
    · subst hj
      rw [Links.modify_self]
      simp only [links, node?_updateNode, if_true, Option.map_map]
      congr 1
      funext node
      exact h node
    · have hne : some j ≠ some idx := fun heq => hj (Option.some.inj heq)
      rw [Links.modify_of_ne hne]
      simp only [links, node?_updateNode, if_neg hj]

theorem head_updateNode (c : LRUCacheInner α) (idx : Option Nat) (f : Node α → Node α) :
    (c.updateNode idx f).head = c.head := by
  cases idx with
  | none => rfl
  | some idx => rfl

theorem tail_updateNode (c : LRUCacheInner α) (idx : Option Nat) (f : Node α → Node α) :
    (c.updateNode idx f).tail = c.tail := by
  cases idx with
  | none => rfl
  | some idx => rfl

-- The neighbours of a node are linked to each other.
def bypass (c : LRUCacheInner α) (node : Node α) : LRUCacheInner α :=
  (c.updateNode node.prev fun n => { n with next := node.next }).updateNode node.next
    fun n => { n with prev := node.prev }

theorem links_bypass (c : LRUCacheInner α) (node : Node α) :
    (c.bypass node).links = (c.links.setNext node.prev node.next).setPrev node.next node.prev := by
  rw [bypass, links_updateNode _ _ (g := fun link => { link with prev := node.prev }) fun _ => rfl,
    links_updateNode _ _ (g := fun link => { link with next := node.next }) fun _ => rfl]
  rfl

theorem head_bypass (c : LRUCacheInner α) (node : Node α) : (c.bypass node).head = c.head := by
  rw [bypass, head_updateNode, head_updateNode]

theorem tail_bypass (c : LRUCacheInner α) (node : Node α) : (c.bypass node).tail = c.tail := by
  rw [bypass, tail_updateNode, tail_updateNode]

theorem node?_of_links {link : Link} (h : c.links idx = some link) :
    ∃ node, c.node? idx = some node ∧ node.prev = link.prev ∧ node.next = link.next := by
  obtain ⟨node, hnode, rfl⟩ := Option.map_eq_some_iff.mp h
  exact ⟨node, hnode, rfl, rfl⟩

theorem Chain.node (h : Chain c (before ++ idx :: after)) :
    ∃ node, c.node? idx = some node ∧ node.prev = before.getLast? ∧ node.next = after.head? := by
  obtain ⟨hi, -⟩ := h.linked.unlink h.nodup
  obtain ⟨node, hnode, hprev, hnext⟩ := node?_of_links hi
  exact ⟨node, hnode, by simpa using hprev, by simpa using hnext⟩

theorem Chain.linked_bypass (h : Chain c (before ++ idx :: after)) {node : Node α}
    (hnode : c.node? idx = some node) :
    (c.bypass node).links.Segment none (before ++ after) none := by
  obtain ⟨found, hfound, hprev, hnext⟩ := h.node
  obtain rfl := Option.some.inj (hnode.symm.trans hfound)
  obtain ⟨-, hlinked⟩ := h.linked.unlink h.nodup
  rw [links_bypass, hprev, hnext]
  simpa using hlinked

theorem nodup_middle (h : (before ++ idx :: after).Nodup) :
    (before ++ after).Nodup ∧ idx ∉ before ∧ idx ∉ after := by
  have hperm : (idx :: (before ++ after)).Nodup := (List.perm_middle.nodup_iff).mp h
  obtain ⟨hnot, hnodup⟩ := List.nodup_cons.mp hperm
  rw [List.mem_append, not_or] at hnot
  exact ⟨hnodup, hnot⟩

-- The node at the front of the list, or at its end.
theorem head_eq_middle (h : (before ++ idx :: after).Nodup) :
    some idx = (before ++ idx :: after).head? ↔ before = [] := by
  obtain ⟨-, hnot, -⟩ := nodup_middle h
  cases before with
  | nil => simp
  | cons first before =>
    simp only [List.cons_append, List.head?_cons, Option.some.injEq, reduceCtorEq, iff_false]
    rintro rfl
    exact hnot List.mem_cons_self

theorem tail_eq_middle (h : (before ++ idx :: after).Nodup) :
    some idx = (before ++ idx :: after).getLast? ↔ after = [] := by
  obtain ⟨-, -, hnot⟩ := nodup_middle h
  rw [List.getLast?_append]
  cases after with
  | nil => simp
  | cons next after =>
    rw [List.getLast?_cons_cons]
    simp only [reduceCtorEq, iff_false]
    intro heq
    cases hlast : (next :: after).getLast? with
    | none => simp at hlast
    | some last =>
      rw [hlast] at heq
      obtain rfl := Option.some.inj heq
      exact hnot (List.mem_of_getLast? hlast)

theorem getLast?_middle (h : after ≠ []) :
    (before ++ idx :: after).getLast? = (before ++ after).getLast? := by
  cases after with
  | nil => exact absurd rfl h
  | cons next after => simp [List.getLast?_append, List.getLast?_cons_cons]

theorem Chain.addToFront (h : Chain c slots) (hnot : idx ∉ slots) (hnode : c.node? idx ≠ none) :
    Chain (c.addToFront idx) (idx :: slots) := by
  have hnodup : (idx :: slots).Nodup := List.nodup_cons.mpr ⟨hnot, h.nodup⟩
  let first := c.updateNode (some idx) fun node => { node with prev := none, next := c.head }
  have hfirst : first.links = c.links.modify (some idx) fun _ => ⟨none, c.head⟩ :=
    links_updateNode c (some idx) fun _ => rfl
  have hlinked : first.links.Segment none slots none := by
    rw [hfirst]
    refine h.linked.modify ?_
    intro i hi heq
    obtain rfl := Option.some.inj heq
    exact hnot hi
  have hself : first.links idx = some ⟨none, slots.head?.or none⟩ := by
    obtain ⟨node, hnode⟩ := Option.ne_none_iff_exists'.mp hnode
    rw [hfirst, Links.modify_self, links, hnode, h.head, Option.or_none]
    rfl
  have hpush := hlinked.push hnodup hself
  have hlinks : (c.addToFront idx).links = first.links.setPrev slots.head? (some idx) := by
    rw [← h.head]
    exact links_updateNode first c.head fun _ => rfl
  refine ⟨by rw [hlinks]; exact hpush, rfl, ?_, hnodup⟩
  have htail : (c.addToFront idx).tail = slots.getLast?.or (some idx) := by
    rw [← h.tail]
    show ((first.updateNode c.head _).tail).or (some idx) = _
    rw [tail_updateNode]
    rfl
  rw [htail, List.getLast?_cons]
  cases slots.getLast? with
  | none => rfl
  | some last => rfl

theorem Chain.moveToFront (h : Chain c (before ++ idx :: after)) :
    Chain (c.moveToFront idx) (idx :: (before ++ after)) := by
  obtain ⟨hnodup, hbefore, hafter⟩ := nodup_middle h.nodup
  obtain ⟨node, hnode, hprev, hnext⟩ := h.node
  unfold LRUCacheInner.moveToFront
  by_cases hhead : before = []
  · subst hhead
    rw [if_pos (h.head.symm ▸ rfl)]
    exact h
  · rw [if_neg]
    swap
    · rw [h.head, head_eq_middle h.nodup]
      exact hhead
    rw [hnode]
    have hlinked := h.linked_bypass hnode
    -- The end of the list moves when its last node does.
    have hchain : Chain (if some idx = (c.bypass node).tail then { c.bypass node with tail := node.prev }
        else c.bypass node) (before ++ after) := by
      rw [tail_bypass, h.tail]
      have hheads : (c.bypass node).head = (before ++ after).head? := by
        rw [head_bypass, h.head]
        cases before with
        | nil => exact absurd rfl hhead
        | cons first before => rfl
      by_cases hlast : after = []
      · subst hlast
        rw [if_pos ((tail_eq_middle h.nodup).mpr rfl)]
        exact ⟨hlinked, hheads, by rw [List.append_nil]; exact hprev, hnodup⟩
      · rw [if_neg ((tail_eq_middle h.nodup).not.mpr hlast)]
        refine ⟨hlinked, hheads, ?_, hnodup⟩
        rw [tail_bypass, h.tail]
        exact getLast?_middle hlast
    refine hchain.addToFront ?_ ?_
    · rw [List.mem_append, not_or]
      exact ⟨hbefore, hafter⟩
    · have hrelinked : Relinked c (c.bypass node) := relinked_unlink c node
      have hheld : (c.bypass node).holds idx ≠ none := by
        rw [hrelinked.holds_eq, holds, hnode]
        simp
      split
      · exact fun hnone => hheld (by rw [holds]; exact hnone ▸ rfl)
      · exact fun hnone => hheld (by rw [holds, hnone]; rfl)

theorem Chain.removeNode (h : Chain c (before ++ idx :: after)) :
    Chain (c.removeNode idx) (before ++ after) := by
  obtain ⟨hnodup, hbefore, hafter⟩ := nodup_middle h.nodup
  obtain ⟨node, hnode, hprev, hnext⟩ := h.node
  have hends : ∀ c₀ : LRUCacheInner α, c₀.nodes = c.nodes → c₀.head = (before ++ after).head? →
      c₀.tail = (before ++ after).getLast? →
      Chain { c₀.bypass node with
        nodes := (c₀.bypass node).nodes.set idx none
        freeList := (c₀.bypass node).freeList ++ [idx] } (before ++ after) := by
    intro c₀ hnodes hhead htail
    have hlinks : c₀.links = c.links := by
      funext j
      simp only [links, node?, hnodes]
    have hlinked : (c₀.bypass node).links.Segment none (before ++ after) none := by
      rw [links_bypass, hlinks, ← links_bypass]
      exact h.linked_bypass hnode
    refine ⟨hlinked.congr ?_, (head_bypass c₀ node).trans hhead, (tail_bypass c₀ node).trans htail,
      hnodup⟩
    intro j hj
    have hne : idx ≠ j := by
      rintro rfl
      rcases List.mem_append.mp hj with hj | hj
      · exact hbefore hj
      · exact hafter hj
    simp only [links, node?, List.getElem?_set_ne hne]
  have hhead : (if some idx = c.head then node.next else c.head) = (before ++ after).head? := by
    rw [h.head]
    by_cases hfirst : before = []
    · subst hfirst
      rw [if_pos ((head_eq_middle h.nodup).mpr rfl)]
      exact hnext
    · rw [if_neg ((head_eq_middle h.nodup).not.mpr hfirst)]
      cases before with
      | nil => exact absurd rfl hfirst
      | cons first before => rfl
  have htail : (if some idx = c.tail then node.prev else c.tail) = (before ++ after).getLast? := by
    rw [h.tail]
    by_cases hlast : after = []
    · subst hlast
      rw [if_pos ((tail_eq_middle h.nodup).mpr rfl), List.append_nil]
      exact hprev
    · rw [if_neg ((tail_eq_middle h.nodup).not.mpr hlast), getLast?_middle hlast]
  unfold LRUCacheInner.removeNode
  rw [hnode]
  by_cases hfirst : some idx = c.head
  · rw [if_pos hfirst] at hhead
    by_cases hlast : some idx = c.tail
    · rw [if_pos hlast] at htail
      simp only [if_pos hfirst, if_pos hlast]
      exact hends { c with head := node.next, tail := node.prev } rfl hhead htail
    · rw [if_neg hlast] at htail
      simp only [if_pos hfirst, if_neg hlast]
      exact hends { c with head := node.next } rfl hhead htail
  · rw [if_neg hfirst] at hhead
    by_cases hlast : some idx = c.tail
    · rw [if_pos hlast] at htail
      simp only [if_neg hfirst, if_pos hlast]
      exact hends { c with tail := node.prev } rfl hhead htail
    · rw [if_neg hlast] at htail
      simp only [if_neg hfirst, if_neg hlast]
      exact hends c rfl hhead htail

end Chains

-- The map leads to the slots of the pages, and the free list has the slots that are not in use.
structure Stored (c : LRUCacheInner α) : Prop where
  mapped : ∀ pageNum idx, c.cache.get? pageNum = some idx ↔
    ∃ data, c.holds idx = some (pageNum, data)
  free : ∀ idx, idx ∈ c.freeList ↔ idx < c.nodes.length ∧ c.holds idx = none
  nodup : c.freeList.Nodup

-- The cache keeps its pages in these slots, the most recent one first.
structure Represents (c : LRUCacheInner α) (slots : List Nat) : Prop where
  chain : Chain c slots
  stored : Stored c
  occupied : ∀ idx, idx ∈ slots ↔ ∃ entry, c.holds idx = some entry

def entries (c : LRUCacheInner α) (slots : List Nat) : List (PageNum × α) := slots.filterMap c.holds

section Slots

theorem Stored.relinked (h : Stored c) (hr : Relinked c c') : Stored c' := by
  refine ⟨?_, ?_, ?_⟩
  · intro pageNum idx
    rw [hr.cache_eq, hr.holds_eq]
    exact h.mapped pageNum idx
  · intro idx
    rw [hr.freeList_eq, hr.length_eq, hr.holds_eq]
    exact h.free idx
  · rw [hr.freeList_eq]
    exact h.nodup

theorem Represents.moveToFront (h : Represents c (before ++ idx :: after)) :
    Represents (c.moveToFront idx) (idx :: (before ++ after)) := by
  have hr := relinked_moveToFront c idx
  refine ⟨h.chain.moveToFront, h.stored.relinked hr, ?_⟩
  intro j
  rw [hr.holds_eq, ← h.occupied]
  exact List.perm_middle.symm.mem_iff

-- A page that is taken out of the map leaves its slot free.
theorem Stored.removed {pageNum : PageNum} {data : α} (h : Stored c)
    (hholds : c.holds idx = some (pageNum, data))
    (hr : Removed { c with cache := c.cache.erase pageNum } c' idx) : Stored c' := by
  have hheld : ∀ j, c'.holds j = if j = idx then none else c.holds j := hr.holds_eq
  have hlt : idx < c.nodes.length := by
    by_contra hge
    simp [holds, node?, List.getElem?_eq_none (Nat.not_lt.mp hge)] at hholds
  refine ⟨?_, ?_, ?_⟩
  · intro p j
    rw [hr.cache_eq, HashMap.get?_erase, hheld]
    by_cases hp : p = pageNum
    · subst hp
      rw [if_pos rfl]
      constructor
      · rintro ⟨⟩
      · rintro ⟨d, hd⟩
        split_ifs at hd with hj
        have hidx := (h.mapped p idx).mpr ⟨data, hholds⟩
        have hj' := (h.mapped p j).mpr ⟨d, hd⟩
        exact absurd (Option.some.inj (hj'.symm.trans hidx)) hj
    · rw [if_neg hp, h.mapped p j]
      by_cases hj : j = idx
      · subst hj
        rw [if_pos rfl, hholds]
        constructor
        · rintro ⟨d, hd⟩
          exact absurd (congrArg Prod.fst (Option.some.inj hd)).symm hp
        · rintro ⟨d, ⟨⟩⟩
      · rw [if_neg hj]
  · intro j
    rw [hr.freeList_eq, List.mem_append, List.mem_singleton, hr.length_eq, hheld]
    show j ∈ c.freeList ∨ _ ↔ j < c.nodes.length ∧ _
    rw [h.free]
    by_cases hj : j = idx
    · subst hj
      simp [hlt]
    · simp [hj]
  · rw [hr.freeList_eq]
    refine List.nodup_append.mpr ⟨h.nodup, List.nodup_singleton idx, ?_⟩
    intro a ha b hb heq
    rw [List.mem_singleton] at hb
    subst heq hb
    rw [((h.free a).mp ha).2] at hholds
    cases hholds

theorem entries_congr (h : ∀ i ∈ slots, c'.holds i = c.holds i) : c'.entries slots = c.entries slots :=
  List.filterMap_congr h

theorem entries_middle {entry : PageNum × α} (h : c.holds idx = some entry) :
    c.entries (before ++ idx :: after) = c.entries before ++ entry :: c.entries after := by
  rw [entries, List.filterMap_append, List.filterMap_cons_some h]
  rfl

theorem Represents.removeNode (h : Represents c (before ++ idx :: after)) {pageNum : PageNum} {data : α}
    (hholds : c.holds idx = some (pageNum, data)) :
    Represents (LRUCacheInner.removeNode { c with cache := c.cache.erase pageNum } idx) (before ++ after) ∧
      (LRUCacheInner.removeNode { c with cache := c.cache.erase pageNum } idx).entries (before ++ after) =
        c.entries before ++ c.entries after := by
  obtain ⟨-, hbefore, hafter⟩ := nodup_middle h.chain.nodup
  have hchain : Chain { c with cache := c.cache.erase pageNum } (before ++ idx :: after) :=
    ⟨h.chain.linked, h.chain.head, h.chain.tail, h.chain.nodup⟩
  have hr : Removed { c with cache := c.cache.erase pageNum }
      (LRUCacheInner.removeNode { c with cache := c.cache.erase pageNum } idx) idx :=
    removed_removeNode hholds
  have hheld : ∀ j, (LRUCacheInner.removeNode { c with cache := c.cache.erase pageNum } idx).holds j =
      if j = idx then none else c.holds j := hr.holds_eq
  refine ⟨⟨hchain.removeNode, h.stored.removed hholds hr, ?_⟩, ?_⟩
  · intro j
    have hmem : j ∈ before ++ idx :: after ↔ j = idx ∨ j ∈ before ++ after := by
      rw [List.perm_middle.mem_iff, List.mem_cons]
    rw [hheld]
    by_cases hj : j = idx
    · subst hj
      simp [hbefore, hafter]
    · rw [if_neg hj, ← h.occupied, hmem, or_iff_right hj]
  · rw [entries, List.filterMap_append]
    congr 1
    · refine List.filterMap_congr fun i hi => ?_
      rw [hheld, if_neg]
      rintro rfl
      exact hbefore hi
    · refine List.filterMap_congr fun i hi => ?_
      rw [hheld, if_neg]
      rintro rfl
      exact hafter hi

theorem node?_allocateNode (h : Stored c) (pageNum : PageNum) (data : α) (j : Nat) :
    (c.allocateNode pageNum data).2.node? j =
      if j = (c.allocateNode pageNum data).1 then some ⟨pageNum, data, none, none⟩ else c.node? j := by
  unfold LRUCacheInner.allocateNode
  cases hlast : c.freeList.getLast? with
  | some idx =>
    obtain ⟨hlt, -⟩ := (h.free idx).mp (List.mem_of_getLast? hlast)
    by_cases hj : idx = j
    · subst hj
      simp [node?, hlt]
    · simp [node?, hj, Ne.symm hj]
  | none =>
    rcases Nat.lt_trichotomy j c.nodes.length with hj | hj | hj
    · simp [node?, List.getElem?_append, hj, Nat.ne_of_lt hj]
    · simp [node?, hj]
    · have hne : j ≠ c.nodes.length := by omega
      have hge : c.nodes.length ≤ j := by omega
      have hge' : (c.nodes ++ [some (⟨pageNum, data, none, none⟩ : Node α)]).length ≤ j := by
        simp
        omega
      simp only [node?, if_neg hne, List.getElem?_eq_none hge, List.getElem?_eq_none hge']

-- Of the free slots only the one that is taken goes.
theorem freeList_allocateNode (h : Stored c) (pageNum : PageNum) (data : α) (j : Nat) :
    (j ∈ (c.allocateNode pageNum data).2.freeList ↔
      j ∈ c.freeList ∧ j ≠ (c.allocateNode pageNum data).1) ∧
    (c.allocateNode pageNum data).2.freeList.Nodup := by
  unfold LRUCacheInner.allocateNode
  cases hlast : c.freeList.getLast? with
  | some idx =>
    have hfree : c.freeList = c.freeList.dropLast ++ [idx] :=
      (List.dropLast_append_getLast? idx hlast).symm
    have hnodup := h.nodup
    rw [hfree] at hnodup
    obtain ⟨hdrop, -, hdisj⟩ := List.nodup_append.mp hnodup
    refine ⟨?_, hdrop⟩
    constructor
    · intro hj
      refine ⟨List.dropLast_subset _ hj, ?_⟩
      exact hdisj j hj idx (List.mem_singleton_self idx)
    · rintro ⟨hj, hne⟩
      rw [hfree, List.mem_append, List.mem_singleton] at hj
      exact hj.resolve_right hne
  | none =>
    have hnil : c.freeList = [] := List.getLast?_eq_none_iff.mp hlast
    simp [hnil]

theorem length_allocateNode (h : Stored c) (pageNum : PageNum) (data : α) :
    (c.allocateNode pageNum data).1 ≤ c.nodes.length ∧ (c.allocateNode pageNum data).2.nodes.length =
      max c.nodes.length ((c.allocateNode pageNum data).1 + 1) := by
  unfold LRUCacheInner.allocateNode
  cases hlast : c.freeList.getLast? with
  | some idx =>
    obtain ⟨hlt, -⟩ := (h.free idx).mp (List.mem_of_getLast? hlast)
    simp only [List.length_set]
    omega
  | none =>
    simp only [List.length_append, List.length_singleton]
    omega

theorem holds_allocateNode_fst (h : Stored c) (pageNum : PageNum) (data : α) :
    c.holds (c.allocateNode pageNum data).1 = none := by
  unfold LRUCacheInner.allocateNode
  cases hlast : c.freeList.getLast? with
  | some idx => exact ((h.free idx).mp (List.mem_of_getLast? hlast)).2
  | none => simp [holds, node?]

-- A new page, in a slot of its own at the front.
def insertFront (c : LRUCacheInner α) (pageNum : PageNum) (data : α) : LRUCacheInner α :=
  let (idx, c) := c.allocateNode pageNum data
  let c := { c with cache := c.cache.insert pageNum idx }
  c.addToFront idx

theorem Represents.insertFront (h : Represents c slots) {pageNum : PageNum}
    (hnew : c.cache.get? pageNum = none) (data : α) :
    ∃ idx, Represents (c.insertFront pageNum data) (idx :: slots) ∧
      (c.insertFront pageNum data).entries (idx :: slots) = (pageNum, data) :: c.entries slots := by
  have hnode := node?_allocateNode h.stored pageNum data
  have hfree := freeList_allocateNode h.stored pageNum data
  have hlength := length_allocateNode h.stored pageNum data
  have hfresh := holds_allocateNode_fst h.stored pageNum data
  have hcache : (c.allocateNode pageNum data).2.cache = c.cache := by
    unfold LRUCacheInner.allocateNode
    split
    · rfl
    · rfl
  have hends : (c.allocateNode pageNum data).2.head = c.head ∧
      (c.allocateNode pageNum data).2.tail = c.tail := by
    unfold LRUCacheInner.allocateNode
    split
    · exact ⟨rfl, rfl⟩
    · exact ⟨rfl, rfl⟩
  have hinsert : c.insertFront pageNum data = addToFront { (c.allocateNode pageNum data).2 with
      cache := (c.allocateNode pageNum data).2.cache.insert pageNum (c.allocateNode pageNum data).1 }
      (c.allocateNode pageNum data).1 := rfl
  generalize c.allocateNode pageNum data = allocated at hnode hfree hlength hfresh hcache hends hinsert
  obtain ⟨idx, c₁⟩ := allocated
  dsimp only at hnode hfree hlength hfresh hcache hends hinsert
  let m : LRUCacheInner α := { c₁ with cache := c₁.cache.insert pageNum idx }
  have hnot : idx ∉ slots := by
    rw [h.occupied, hfresh]
    simp
  have hothers : ∀ j ∈ slots, m.node? j = c.node? j := by
    intro j hj
    refine (hnode j).trans (if_neg ?_)
    rintro rfl
    exact hnot hj
  have hchain : Chain m slots := by
    refine ⟨h.chain.linked.congr ?_, hends.1.trans h.chain.head, hends.2.trans h.chain.tail,
      h.chain.nodup⟩
    intro j hj
    simp only [links, hothers j hj]
  have hself : m.node? idx = some ⟨pageNum, data, none, none⟩ := (hnode idx).trans (if_pos rfl)
  have hheld : ∀ j, m.holds j = if j = idx then some (pageNum, data) else c.holds j := by
    intro j
    show (c₁.node? j).map _ = _
    rw [hnode]
    split
    · rfl
    · rfl
  have hr := relinked_addToFront m idx
  have hheld' : ∀ j, (m.addToFront idx).holds j = if j = idx then some (pageNum, data) else c.holds j :=
    fun j => (hr.holds_eq j).trans (hheld j)
  rw [hinsert]
  refine ⟨idx, ⟨hchain.addToFront hnot (by rw [hself]; simp), Stored.relinked ?_ hr, ?_⟩, ?_⟩
  · refine ⟨?_, ?_, (hfree 0).2⟩
    · intro p j
      rw [hheld]
      show (c₁.cache.insert pageNum idx).get? p = some j ↔ _
      rw [HashMap.get?_insert, hcache]
      by_cases hp : p = pageNum
      · subst hp
        have hnone : ∀ j d, c.holds j ≠ some (p, d) := by
          intro j d hd
          rw [(h.stored.mapped p j).mpr ⟨d, hd⟩] at hnew
          cases hnew
        by_cases hj : j = idx
        · simp [hj]
        · simp [hj, Ne.symm hj, hnone]
      · rw [if_neg hp, h.stored.mapped]
        by_cases hj : j = idx
        · subst hj
          simp [hfresh, Ne.symm hp]
        · rw [if_neg hj]
    · intro j
      rw [hheld, (hfree j).1, h.stored.free]
      show _ ↔ j < c₁.nodes.length ∧ _
      have hlt : j ≠ idx → (j < c.nodes.length ↔ j < c₁.nodes.length) := by
        omega
      by_cases hj : j = idx
      · simp [hj]
      · rw [if_neg hj, hlt hj, and_iff_left hj]
  · intro j
    rw [hheld', List.mem_cons, h.occupied]
    by_cases hj : j = idx
    · simp [hj]
    · simp [hj]
  · rw [entries, List.filterMap_cons_some ((hheld' idx).trans (if_pos rfl))]
    congr 1
    refine List.filterMap_congr fun j hj => ?_
    rw [hheld', if_neg]
    rintro rfl
    exact hnot hj

-- The page in front gets new data.
theorem Represents.setData (h : Represents c (idx :: slots)) {pageNum : PageNum} {old : α}
    (hholds : c.holds idx = some (pageNum, old)) (data : α) :
    Represents (c.updateNode (some idx) fun node => { node with data }) (idx :: slots) ∧
      (c.updateNode (some idx) fun node => { node with data }).entries (idx :: slots) =
        (pageNum, data) :: c.entries slots := by
  obtain ⟨node, hnode, hpage⟩ := Option.map_eq_some_iff.mp hholds
  have hheld : ∀ j, (c.updateNode (some idx) fun node => { node with data }).holds j =
      if j = idx then some (pageNum, data) else c.holds j := by
    intro j
    simp only [holds, node?_updateNode]
    split_ifs with hj
    · rw [hj, hnode]
      simp only [Option.map_some, Option.some.injEq, Prod.mk.injEq, and_true]
      exact congrArg Prod.fst hpage
    · rfl
  have hsome : ∀ p j, (∃ d, c.holds j = some (p, d)) ↔
      ∃ d, (c.updateNode (some idx) fun node => { node with data }).holds j = some (p, d) := by
    intro p j
    rw [hheld]
    by_cases hj : j = idx
    · subst hj
      simp [hholds]
    · rw [if_neg hj]
  have hnot : idx ∉ slots := (List.nodup_cons.mp h.chain.nodup).1
  refine ⟨⟨⟨?_, h.chain.head, h.chain.tail, h.chain.nodup⟩, ⟨?_, ?_, h.stored.nodup⟩, ?_⟩, ?_⟩
  · have hlinks : (c.updateNode (some idx) fun node => { node with data }).links =
        c.links.modify (some idx) id := links_updateNode c (some idx) fun _ => rfl
    rw [hlinks]
    refine h.chain.linked.congr ?_
    intro j _
    unfold Links.modify
    split
    · exact Option.map_id'
    · rfl
  · intro p j
    rw [← hsome]
    exact h.stored.mapped p j
  · intro j
    rw [hheld]
    show j ∈ c.freeList ↔ j < (c.nodes.modify idx _).length ∧ _
    rw [List.length_modify, h.stored.free]
    by_cases hj : j = idx
    · simp [hj, hholds]
    · rw [if_neg hj]
  · intro j
    rw [h.occupied, hheld]
    by_cases hj : j = idx
    · simp [hj, hholds]
    · rw [if_neg hj]
  · rw [entries, List.filterMap_cons_some ((hheld idx).trans (if_pos rfl))]
    congr 1
    refine List.filterMap_congr fun j hj => ?_
    rw [hheld, if_neg]
    rintro rfl
    exact hnot hj

end Slots

section Evict

-- The walk passes the dirty pages at the end of the list.
theorem evictFrom_skip {front back rest : List Nat} (h : Chain c (front ++ (back ++ rest)))
    (hdirty : ∀ i ∈ back, ∀ entry, c.holds i = some entry → c.isDirty entry.1 = true) (checks : Nat) :
    c.evictFrom (checks + back.length) (front ++ back).getLast? =
      c.evictFrom checks front.getLast? := by
  induction back using List.reverseRecOn generalizing rest with
  | nil => simp
  | append_singleton back last ih =>
    have hsplit : front ++ (back ++ [last] ++ rest) = (front ++ back) ++ last :: rest := by simp
    have hsplit' : front ++ (back ++ [last] ++ rest) = front ++ (back ++ (last :: rest)) := by simp
    obtain ⟨node, hnode, hprev, -⟩ := (hsplit ▸ h : Chain c ((front ++ back) ++ last :: rest)).node
    have hflag : c.isDirty node.pageNum = true :=
      hdirty last (List.mem_append_right _ (List.mem_singleton_self last)) (node.pageNum, node.data)
        (by rw [holds, hnode]; rfl)
    rw [← List.append_assoc, List.getLast?_concat, List.length_append, List.length_singleton,
      ← Nat.add_assoc, LRUCacheInner.evictFrom, hnode]
    dsimp only
    rw [if_pos hflag, hprev]
    have hchain : Chain c (front ++ (back ++ (last :: rest))) := hsplit' ▸ h
    exact ih hchain fun i hi => hdirty i (List.mem_append_left _ hi)

theorem Represents.length_entries (h : Represents c slots) : (c.entries slots).length = slots.length := by
  refine List.filterMap_length_eq_length.mpr ?_
  intro i hi
  obtain ⟨entry, hentry⟩ := (h.occupied i).mp hi
  rw [hentry]
  rfl

theorem Represents.mem_entries (h : Represents c slots) {pageNum : PageNum} {data : α} :
    (pageNum, data) ∈ c.entries slots ↔
      ∃ idx, c.cache.get? pageNum = some idx ∧ c.holds idx = some (pageNum, data) := by
  rw [entries, List.mem_filterMap]
  constructor
  · rintro ⟨idx, -, hidx⟩
    exact ⟨idx, (h.stored.mapped pageNum idx).mpr ⟨data, hidx⟩, hidx⟩
  · rintro ⟨idx, -, hidx⟩
    exact ⟨idx, (h.occupied idx).mpr ⟨_, hidx⟩, hidx⟩

theorem Represents.mem_pages (h : Represents c slots) {pageNum : PageNum} :
    pageNum ∈ (c.entries slots).map Prod.fst ↔ pageNum ∈ c.cache := by
  rw [← HashMap.get?_isSome, Option.isSome_iff_exists]
  constructor
  · intro hmem
    obtain ⟨⟨p, data⟩, hentry, rfl⟩ := List.mem_map.mp hmem
    obtain ⟨idx, hidx, -⟩ := h.mem_entries.mp hentry
    exact ⟨idx, hidx⟩
  · rintro ⟨idx, hidx⟩
    obtain ⟨data, hdata⟩ := (h.stored.mapped pageNum idx).mp hidx
    exact List.mem_map_of_mem (h.mem_entries.mpr ⟨idx, hidx, hdata⟩)

theorem Represents.length_cache (h : Represents c slots)
    (hnodup : ((c.entries slots).map Prod.fst).Nodup) :
    c.cache.keys.length = (c.entries slots).length := by
  have hperm : c.cache.keys.Perm ((c.entries slots).map Prod.fst) := by
    refine (List.perm_ext_iff_of_nodup c.cache.nodup_keys hnodup).mpr fun pageNum => ?_
    exact HashMap.mem_keys.trans h.mem_pages.symm
  rw [hperm.length_eq, List.length_map]

-- The flags and the counter are not part of the list.
theorem Represents.reflag (h : Represents c slots) (dirty : HashMap PageNum Bool) (failed : Nat) :
    Represents { c with dirty, failedEvictions := failed } slots :=
  ⟨⟨h.chain.linked, h.chain.head, h.chain.tail, h.chain.nodup⟩,
    ⟨h.stored.mapped, h.stored.free, h.stored.nodup⟩, h.occupied⟩

theorem Represents.evict (h : Represents c slots) (hnodup : ((c.entries slots).map Prod.fst).Nodup) :
    ∃ slots', Represents c.evict slots' ∧
      c.evict.entries slots' = Recency.evict c.isDirty (c.entries slots) := by
  have hlength : c.cache.keys.length = slots.length :=
    (h.length_cache hnodup).trans h.length_entries
  have hevicts : Recency.Evicts c.isDirty (c.entries slots) (Recency.evict c.isDirty (c.entries slots)) :=
    Recency.evicts_evict hnodup
  generalize Recency.evict c.isDirty (c.entries slots) = left at hevicts ⊢
  generalize hentries : c.entries slots = entries at hevicts
  cases hevicts with
  | clean before e after hclean hdirty =>
    obtain ⟨front, rest, rfl, hfront, hrest⟩ := List.filterMap_eq_append_iff.mp hentries
    obtain ⟨empty, idx, back, rfl, hempty, hidx, hback⟩ := List.filterMap_eq_cons_iff.mp hrest
    obtain rfl : empty = [] := by
      refine List.eq_nil_iff_forall_not_mem.mpr fun i hi => ?_
      obtain ⟨entry, hentry⟩ := (h.occupied i).mp (by simp [hi])
      rw [hempty i hi] at hentry
      cases hentry
    rw [List.nil_append] at h hlength
    obtain ⟨node, hnode, hpage⟩ := Option.map_eq_some_iff.mp hidx
    have hskip : c.evictFrom (front.length + 1 + back.length) (front ++ [idx] ++ back).getLast? =
        c.evictFrom (front.length + 1) (front ++ [idx]).getLast? := by
      have hchain : Chain c (front ++ [idx] ++ (back ++ [])) := by simpa using h.chain
      refine evictFrom_skip hchain ?_ _
      intro i hi entry hentry
      exact hdirty entry (hback ▸ List.mem_filterMap.mpr ⟨i, hi, hentry⟩)
    have hnodeClean : ¬ c.isDirty node.pageNum = true := by
      rw [← hpage] at hclean
      simpa using hclean
    have hevict : c.evict =
        { LRUCacheInner.removeNode { c with cache := c.cache.erase node.pageNum } idx with
          failedEvictions := 0 } := by
      have hchecks : c.cache.keys.length = front.length + 1 + back.length := by
        rw [hlength, List.length_append, List.length_cons]
        omega
      have htail : c.tail = (front ++ [idx] ++ back).getLast? := by
        rw [h.chain.tail, List.append_assoc]
        rfl
      have hfound : c.evictFrom c.cache.keys.length c.tail = c.evictFrom (front.length + 1) (some idx) := by
        rw [hchecks, htail, hskip, List.getLast?_concat]
      simp only [LRUCacheInner.evict, hfound, LRUCacheInner.evictFrom, hnode, if_neg hnodeClean]
    obtain ⟨hremoved, hleft⟩ := h.removeNode (by rw [holds, hnode]; rfl)
    refine ⟨front ++ back, ?_, ?_⟩
    · rw [hevict]
      exact hremoved.reflag _ 0
    · rw [hevict, ← hfront, ← hback]
      exact hleft
  | none _ hdirty =>
    have hnone : c.evictFrom c.cache.keys.length c.tail = none := by
      have hchain : Chain c ([] ++ (slots ++ [])) := by simpa using h.chain
      have hskip := evictFrom_skip hchain (fun i hi entry hentry =>
        hdirty entry (hentries ▸ List.mem_filterMap.mpr ⟨i, hi, hentry⟩)) 0
      rw [hlength, h.chain.tail]
      simpa [LRUCacheInner.evictFrom] using hskip
    refine ⟨slots, ?_, ?_⟩
    · rw [LRUCacheInner.evict, hnone]
      exact h.reflag c.dirty _
    · rw [LRUCacheInner.evict, hnone]
      exact hentries

end Evict

end JasonDb.LRUCacheInner
