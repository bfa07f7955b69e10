import JasonDb.BTree.Refines

namespace JasonDb.BTree

open Lib

-- `BTreeIterator`
structure Cursor where
  currentLeaf : Option BTreeNode
  index : Nat
  started : Bool

def iterator : TreeM Cursor := do
  let t ← Proc.getLocal
  let fuel ← walkBound
  let root ← readNode t.getRootPage
  let leaf ← firstLeaf fuel root
  pure ⟨some leaf, 0, false⟩

namespace Cursor

-- The leaf a link leads to is not skipped when it is empty.
def next (it : Cursor) : TreeM (Bool × Cursor) :=
  match it.currentLeaf with
  | none => pure (false, it)
  | some current =>
    if !it.started then pure (!current.entries.isEmpty, { it with started := true })
    else if it.index + 1 < current.entries.length then
      pure (true, { it with index := it.index + 1 })
    else if current.nextLeaf = 0 then pure (false, { it with index := it.index + 1 })
    else do
      match ← catching (readNode current.nextLeaf) with
      | .error _ => pure (false, { it with index := it.index + 1 })
      | .ok leaf => pure (!leaf.entries.isEmpty, ⟨some leaf, 0, true⟩)

def entry (it : Cursor) : LeafEntry :=
  (it.currentLeaf.bind fun leaf => leaf.entries[it.index]?).getD ⟨"", 0⟩

-- `while iter.next() { .. iter.entry() .. }`, with a bound on the number of rounds.
def collect : Nat → Cursor → TreeM (List LeafEntry)
  | 0, _ => Proc.fail .diverged
  | fuel + 1, it => do
    let (more, it) ← it.next
    if more then do
      let rest ← collect fuel it
      pure (it.entry :: rest)
    else pure []

-- `while iter.next() { count += 1; }`
def countRest : Nat → Nat → Cursor → TreeM Nat
  | 0, _, _ => Proc.fail .diverged
  | fuel + 1, count, it => do
    let (more, it) ← it.next
    if more then countRest fuel (count + 1) it else pure count

end Cursor

def entriesOf (fuel : Nat) : TreeM (List LeafEntry) := do
  let it ← iterator
  it.collect fuel

def count (fuel : Nat) : TreeM Nat := do
  let it ← iterator
  it.countRest fuel 0

section Loop

variable {t : BTree} {db : Database} {it it' : Cursor} {es : List LeafEntry}

-- The entries the loop comes to from `it` on.
inductive Visits (t : BTree) (db : Database) : Cursor → List LeafEntry → Prop
  | stop {it it' : Cursor} (h : Proc.exec it.next t db = (.ok (false, it'), t, db)) :
      Visits t db it []
  | step {it it' : Cursor} {es : List LeafEntry}
      (h : Proc.exec it.next t db = (.ok (true, it'), t, db)) (hrest : Visits t db it' es) :
      Visits t db it (it'.entry :: es)

theorem Visits.exec_collect (h : Visits t db it es) {fuel : Nat} (hf : es.length < fuel) :
    Proc.exec (it.collect fuel) t db = (.ok es, t, db) := by
  induction h generalizing fuel with
  | stop h =>
    obtain ⟨fuel, rfl⟩ := Nat.exists_eq_add_of_lt hf
    rw [Cursor.collect, Proc.exec_bind_ok h]
    rfl
  | step h _ ih =>
    obtain ⟨fuel, rfl⟩ : ∃ k, fuel = k + 1 := ⟨fuel - 1, by omega⟩
    rw [Cursor.collect, Proc.exec_bind_ok h]
    simp only [↓reduceIte]
    rw [Proc.exec_bind_ok (ih (Nat.lt_of_succ_lt_succ hf))]
    rfl

theorem Visits.exec_countRest (h : Visits t db it es) {fuel k : Nat} (hf : es.length < fuel) :
    Proc.exec (it.countRest fuel k) t db = (.ok (k + es.length), t, db) := by
  induction h generalizing fuel k with
  | stop h =>
    obtain ⟨fuel, rfl⟩ := Nat.exists_eq_add_of_lt hf
    rw [Cursor.countRest, Proc.exec_bind_ok h]
    rfl
  | step h _ ih =>
    obtain ⟨fuel, rfl⟩ : ∃ k, fuel = k + 1 := ⟨fuel - 1, by omega⟩
    rw [Cursor.countRest, Proc.exec_bind_ok h]
    simp only [↓reduceIte]
    rw [ih (Nat.lt_of_succ_lt_succ hf), List.length_cons, Nat.add_assoc, Nat.add_comm 1]

-- Inside a leaf.
theorem Visits.leaf {m : BTreeNode} {tail : List LeafEntry} {j : Nat}
    (hend : Visits t db ⟨some m, m.entries.length - 1, true⟩ tail) (hj : j < m.entries.length) :
    Visits t db ⟨some m, j, true⟩ (m.entries.drop (j + 1) ++ tail) := by
  obtain ⟨d, hd⟩ : ∃ d, m.entries.length - 1 - j = d := ⟨_, rfl⟩
  induction d generalizing j with
  | zero =>
    obtain rfl : j = m.entries.length - 1 := by omega
    rw [List.drop_eq_nil_of_le (by omega)]
    exact hend
  | succ d ih =>
    have hlt : j + 1 < m.entries.length := by omega
    have hnext : Proc.exec (Cursor.next ⟨some m, j, true⟩) t db =
        (.ok (true, ⟨some m, j + 1, true⟩), t, db) := by
      simp [Cursor.next, hlt, Proc.exec_pure]
    have hentry : Cursor.entry ⟨some m, j + 1, true⟩ = m.entries[j + 1] := by
      simp [Cursor.entry, hlt]
    rw [List.drop_eq_getElem_cons hlt, List.cons_append, ← hentry]
    exact Visits.step hnext (ih hlt (by omega))

end Loop

section Tree

open SearchTree

variable {db : Database} {T : PageTree}

theorem Holds.exec_firstLeaf {fuel : Nat} {n : BTreeNode} {ctx : List PageFrame} {sub : PageTree}
    {Q : LeafPred PageNum String LeafEntry} {lo hi : Bound String} (h : Holds db [plug ctx sub])
    (root : PageNum) (hall : All Q lo hi sub) (hn : db.nodeAt sub.ptr = some n) (hfuel : sub.height ≤ fuel) :
    ∃ m p es nx rest, Proc.exec (firstLeaf fuel n) (BTree.open root) db =
        (.ok m, BTree.open root, db) ∧ sub.leaves = (p, es, nx) :: rest ∧
      m.shape id = .leaf es nx := by
  induction fuel generalizing n ctx sub lo hi with
  | zero =>
    have := sub.height_pos
    omega
  | succ fuel ih =>
    have hcell : (sub.ptr, sub.shape) ∈ [plug ctx sub].flatMap cells := by
      simpa using mem_cells_plug sub.root_mem_cells
    obtain ⟨m, hm, hpage, hshape⟩ := h.nodeAt hcell
    obtain rfl : n = m := Option.some.inj (hn.symm.trans hm)
    cases sub with
    | leaf p es nx =>
      obtain ⟨htype, _, _⟩ := BTreeNode.shape_eq_leaf hshape
      refine ⟨n, p, es, nx, [], ?_, rfl, hshape⟩
      simp only [firstLeaf, htype]
      rfl
    | node p keys children =>
      obtain ⟨htype, hkeys, hchildren⟩ := BTreeNode.shape_eq_node hshape
      rw [List.map_id] at hchildren
      have hlen := AllForest.length hall
      obtain ⟨c, cs, rfl⟩ : ∃ c cs, children = c :: cs :=
        List.exists_cons_of_length_pos (by omega)
      obtain ⟨fr, hfr, _⟩ := exists_frame (p := p) hlen (List.mem_cons_self ..)
      obtain ⟨lo', hi', hc⟩ := AllForest.child hall (List.mem_cons_self ..)
      have hfill : plug ctx (node p keys (c :: cs)) = plug (fr :: ctx) c := by
        rw [hfr]
        rfl
      rw [hfill] at h
      have hcellc : (c.ptr, c.shape) ∈ [plug (fr :: ctx) c].flatMap cells := by
        simpa using mem_cells_plug c.root_mem_cells
      obtain ⟨m, hm, _, _⟩ := h.nodeAt hcellc
      have hheight : c.height ≤ fuel := TxBTree.height_child (List.mem_cons_self ..) hfuel
      obtain ⟨m', p', es, nx, rest, he, hleaves, hm'⟩ := ih h hc hm hheight
      refine ⟨m', p', es, nx, rest ++ cs.flatMap leaves, ?_, ?_, hm'⟩
      · simp only [firstLeaf, htype, hchildren, List.map_cons]
        rw [Proc.exec_bind_ok (exec_readNode_at hm)]
        exact he
      · rw [leaves_node, List.flatMap_cons, hleaves]
        rfl

theorem Represents.exec_iterator (h : Represents db T) :
    ∃ m p es nx rest, Proc.exec iterator (BTree.open T.ptr) db =
        (.ok ⟨some m, 0, false⟩, BTree.open T.ptr, db) ∧ T.leaves = (p, es, nx) :: rest ∧
      m.shape id = .leaf es nx := by
  have hcell : (T.ptr, T.shape) ∈ [T].flatMap cells := by simpa using T.root_mem_cells
  obtain ⟨top, hn, _, _⟩ := h.holds.nodeAt hcell
  obtain ⟨m, p, es, nx, rest, he, hleaves, hm⟩ := Holds.exec_firstLeaf
    (show Holds db [plug [] T] from h.holds) T.ptr h.ordered hn (Nat.le_succ_of_le h.holds.height_le)
  refine ⟨m, p, es, nx, rest, ?_, hleaves, hm⟩
  have hbound : Proc.exec (walkBound : TreeM Nat) (BTree.open T.ptr) db =
      (.ok (db.pager.numPages + 1), BTree.open T.ptr, db) := rfl
  unfold iterator
  rw [Proc.exec_bind_ok (Proc.exec_getLocal _ db), Proc.exec_bind_ok hbound]
  simp only [getRootPage_open]
  rw [Proc.exec_bind_ok (exec_readNode_at hn), Proc.exec_bind_ok he]
  rfl

-- The entries of the leaves before the first empty one.
def yielded (ls : List (PageNum × List LeafEntry × PageNum)) : List LeafEntry :=
  (ls.takeWhile fun l => !l.2.1.isEmpty).flatMap (·.2.1)

-- The loop comes to a leaf, and goes on only if it has an entry.
theorem Visits.enter {t : BTree} {it : Cursor} {m : BTreeNode} {p nx : PageNum}
    {rest : List (PageNum × List LeafEntry × PageNum)}
    (hnext : Proc.exec it.next t db = (.ok (!m.entries.isEmpty, ⟨some m, 0, true⟩), t, db))
    (hend : Visits t db ⟨some m, m.entries.length - 1, true⟩ (yielded rest)) :
    Visits t db it (yielded ((p, m.entries, nx) :: rest)) := by
  cases hes : m.entries with
  | nil =>
    rw [hes] at hnext
    have hnone : yielded ((p, [], nx) :: rest) = [] := by simp [yielded]
    rw [hnone]
    exact Visits.stop hnext
  | cons first more =>
    rw [hes] at hnext
    have hsome : yielded ((p, first :: more, nx) :: rest) = first :: (more ++ yielded rest) := by
      simp [yielded]
    have hentry : Cursor.entry ⟨some m, 0, true⟩ = first := by simp [Cursor.entry, hes]
    have hfrom := hend.leaf (j := 0) (by rw [hes]; simp)
    rw [hes] at hfrom
    rw [hsome, ← hentry]
    exact Visits.step hnext hfrom

-- The loop from the end of a leaf on.
theorem Represents.visits_end (h : Represents db T)
    {before rest : List (PageNum × List LeafEntry × PageNum)} {p nx : PageNum} {es : List LeafEntry}
    {m : BTreeNode} (hleaves : T.leaves = before ++ (p, es, nx) :: rest)
    (hm : m.shape id = .leaf es nx) :
    Visits (BTree.open T.ptr) db ⟨some m, m.entries.length - 1, true⟩ (yielded rest) := by
  induction rest generalizing before p nx es m with
  | nil =>
    obtain ⟨_, rfl, rfl⟩ := BTreeNode.shape_eq_leaf hm
    have hlinked := h.linked
    rw [hleaves, linked_append] at hlinked
    have hnx : m.nextLeaf = 0 := hlinked.2.1
    have hnot : ¬ m.entries.length - 1 + 1 < m.entries.length := by omega
    have hnext : Proc.exec (Cursor.next ⟨some m, m.entries.length - 1, true⟩) (BTree.open T.ptr) db =
        (.ok (false, ⟨some m, m.entries.length - 1 + 1, true⟩), BTree.open T.ptr, db) := by
      simp [Cursor.next, hnot, hnx, Proc.exec_pure]
    exact Visits.stop hnext
  | cons l rest ih =>
    obtain ⟨p', es', nx'⟩ := l
    obtain ⟨_, rfl, rfl⟩ := BTreeNode.shape_eq_leaf hm
    have hlinked := h.linked
    rw [hleaves, linked_append] at hlinked
    have hnx : m.nextLeaf = p' := hlinked.2.1
    have hcell : (p', Shape.leaf es' nx') ∈ [T].flatMap cells := by
      rw [List.flatMap_singleton]
      exact mem_cells_of_mem_leaves (by simp [hleaves])
    obtain ⟨m', hm', _, hshape'⟩ := h.holds.nodeAt hcell
    have hp0 : p' ≠ 0 := (h.holds.live_of_cell hcell).1
    have hnot : ¬ m.entries.length - 1 + 1 < m.entries.length := by omega
    have hread : Proc.exec (catching (readNode p')) (BTree.open T.ptr) db =
        (.ok (.ok m'), BTree.open T.ptr, db) := exec_catching (exec_readNode_at hm') (by simp)
    have hnext : Proc.exec (Cursor.next ⟨some m, m.entries.length - 1, true⟩) (BTree.open T.ptr) db =
        (.ok (!m'.entries.isEmpty, ⟨some m', 0, true⟩), BTree.open T.ptr, db) := by
      simp only [Cursor.next, Bool.not_true, Bool.false_eq_true, ↓reduceIte, hnot, hnx, hp0]
      rw [Proc.exec_bind_ok hread]
      rfl
    obtain ⟨_, rfl, _⟩ := BTreeNode.shape_eq_leaf hshape'
    have hsplit : T.leaves = (before ++ [(p, m.entries, id m.nextLeaf)]) ++ (p', m'.entries, nx') :: rest := by
      rw [hleaves, List.append_assoc]
      rfl
    have hrest := ih hsplit hshape'
    exact Visits.enter hnext hrest

-- The whole loop.
theorem Represents.exec_entriesOf (h : Represents db T) {fuel : Nat}
    (hf : (yielded T.leaves).length < fuel) :
    Proc.exec (entriesOf fuel) (BTree.open T.ptr) db =
        (.ok (yielded T.leaves), BTree.open T.ptr, db) ∧
      Proc.exec (count fuel) (BTree.open T.ptr) db =
        (.ok (yielded T.leaves).length, BTree.open T.ptr, db) := by
  obtain ⟨m, p, es, nx, rest, he, hleaves, hm⟩ := h.exec_iterator
  have hend := h.visits_end (show T.leaves = [] ++ (p, es, nx) :: rest from hleaves) hm
  obtain ⟨_, rfl, _⟩ := BTreeNode.shape_eq_leaf hm
  have hvisits : Visits (BTree.open T.ptr) db ⟨some m, 0, false⟩ (yielded T.leaves) := by
    have hnext : Proc.exec (Cursor.next ⟨some m, 0, false⟩) (BTree.open T.ptr) db =
        (.ok (!m.entries.isEmpty, ⟨some m, 0, true⟩), BTree.open T.ptr, db) := rfl
    rw [hleaves]
    exact Visits.enter hnext hend
  constructor
  · unfold entriesOf
    rw [Proc.exec_bind_ok he]
    exact hvisits.exec_collect hf
  · unfold count
    rw [Proc.exec_bind_ok he, hvisits.exec_countRest hf, Nat.zero_add]

-- The loop ends and comes to exactly what `search` finds, in order, and `count` gives the number.
def Complete (t : BTree) (db : Database) : Prop :=
  ∃ es, (∀ fuel, es.length < fuel → Proc.exec (entriesOf fuel) t db = (.ok es, t, db)) ∧
    TxBTree.SortedEntries es ∧
    (∀ key value, ⟨key, value⟩ ∈ es ↔ (Proc.exec (search key) t db).1 = .ok value) ∧
    ∀ fuel, es.length < fuel → Proc.exec (count fuel) t db = (.ok es.length, t, db)

-- No empty leaf stands before one that has an entry.
def GapFree (T : PageTree) : Prop := T.leaves.Pairwise fun a b => a.2.1 = [] → b.2.1 = []

-- The entries the loop does not come to.
def missed (ls : List (PageNum × List LeafEntry × PageNum)) : List LeafEntry :=
  (ls.dropWhile fun l => !l.2.1.isEmpty).flatMap (·.2.1)

theorem yielded_append_missed (T : PageTree) : yielded T.leaves ++ missed T.leaves = T.entries := by
  rw [entries_eq_leaves, yielded, missed, ← List.flatMap_append, List.takeWhile_append_dropWhile]

theorem missed_eq_nil (ls : List (PageNum × List LeafEntry × PageNum)) :
    missed ls = [] ↔ ls.Pairwise fun a b => a.2.1 = [] → b.2.1 = [] := by
  induction ls with
  | nil => simp [missed]
  | cons l ls ih =>
    by_cases hl : l.2.1 = []
    · have hdrop : missed (l :: ls) = ls.flatMap (·.2.1) := by simp [missed, hl]
      rw [hdrop, List.flatMap_eq_nil_iff, List.pairwise_cons]
      constructor
      · intro h
        exact ⟨fun b hb _ => h b hb, List.pairwise_of_forall_mem_list fun _ _ b hb _ => h b hb⟩
      · exact fun h b hb => h.1 b hb hl
    · have hdrop : missed (l :: ls) = missed ls := by simp [missed, hl]
      rw [hdrop, ih, List.pairwise_cons]
      constructor
      · exact fun h => ⟨fun _ _ he => absurd he hl, h⟩
      · exact fun h => h.2

theorem Dense.missed_eq_nil {T : PageTree} (h : Dense T) : missed T.leaves = [] := by
  rw [JasonDb.BTree.missed_eq_nil]
  by_cases hempty : ∃ l ∈ T.leaves, l.2.1 = []
  · obtain ⟨l, hl, hnil⟩ := hempty
    rw [h l hl hnil]
    exact List.pairwise_singleton _ _
  · exact List.pairwise_of_forall_mem_list fun l hl _ _ hnil => absurd ⟨l, hl, hnil⟩ hempty

theorem found_eq_ok {es : List LeafEntry} (h : TxBTree.SortedEntries es) (key : String)
    (value : PageNum) : found (TxBTree.mapOf es) key = .ok value ↔ ⟨key, value⟩ ∈ es := by
  have hmap : found (TxBTree.mapOf es) key = .ok value ↔ TxBTree.mapOf es key = some value := by
    unfold found
    cases TxBTree.mapOf es key <;> simp
  rw [hmap]
  exact TxBTree.mapOf_eq_some h

theorem Opened.complete_iff {t : BTree} (h : Opened t db T) : Complete t db ↔ GapFree T := by
  have hsearch := h.search
  obtain ⟨rfl, h⟩ := h
  have hsorted := h.entries_sorted
  have hsplit := yielded_append_missed T
  have hpart : TxBTree.SortedEntries (yielded T.leaves ++ missed T.leaves) := by rwa [hsplit]
  obtain ⟨hyield, _, hlt⟩ := List.pairwise_append.mp hpart
  rw [GapFree, ← missed_eq_nil]
  constructor
  · rintro ⟨es, hes, _, hmem, _⟩
    -- a run with enough rounds for both
    have hrun := hes (es.length + (yielded T.leaves).length + 1) (by omega)
    have henough : (yielded T.leaves).length < es.length + (yielded T.leaves).length + 1 := by omega
    have hrun' := (h.exec_entriesOf henough).1
    obtain rfl : es = yielded T.leaves := by
      rw [hrun] at hrun'
      exact Except.ok.inj (congrArg Prod.fst hrun')
    refine List.eq_nil_iff_forall_not_mem.mpr fun e he => ?_
    have hfound : e ∈ yielded T.leaves := by
      refine (hmem e.key e.value).mpr ?_
      rw [hsearch, found_eq_ok hsorted, ← hsplit]
      exact List.mem_append_right _ he
    exact lt_irrefl _ (hlt e hfound e he)
  · intro hmissed
    rw [hmissed, List.append_nil] at hsplit
    refine ⟨yielded T.leaves, fun fuel hf => (h.exec_entriesOf hf).1, hyield, ?_,
      fun fuel hf => (h.exec_entriesOf hf).2⟩
    intro key value
    rw [hsearch, found_eq_ok hsorted, hsplit]

-- After any operations on a new tree, with keys of which fifty fit a page, the iteration is complete
-- exactly if no empty leaf stands before one that has an entry. Nodes of such keys can all be read
-- again.
theorem iteration_complete_iff (hpager : db.pager.WF) {ops : List Op}
    (hkeys : ∀ key value, Op.insert key value ∈ ops → Codec.ShortKey key) :
    ∃ t₀ db₀, Proc.exec (BTree.new : DbM Unit BTree) () db = (.ok t₀, (), db₀) ∧
      let s := runOps ops t₀ db₀
      (NodesIn (Sized BTREE_ORDER Codec.ShortKey) db → NodesIn Codec.ReadsBack s.2) ∧
      ∃ T, Opened s.1 s.2 T ∧ (Complete s.1 s.2 ↔ GapFree T) := by
  obtain ⟨p, db₀, hnew, hopened, _, _⟩ := exec_new () hpager
  obtain ⟨T, hT, _⟩ := hopened.runOps ops
  refine ⟨BTree.open p, db₀, hnew, fun hnodes => ?_, T, hT, hT.complete_iff⟩
  have hsafe := keeps_new (I := fun _ : Unit => True) (grants_nodesIn (Sized BTREE_ORDER Codec.ShortKey))
    (keeps_sized Codec.ShortKey)
  exact runOps_readsBack hkeys (hsafe.exec hnew trivial hnodes).1

section Drained

def letter (i : Nat) : String := String.singleton (Char.ofNat (48 + i))

theorem utf8ByteSize_letter (i : Nat) : (letter i).utf8ByteSize ≤ 4 := by
  rw [letter, String.utf8ByteSize_singleton]
  exact Char.utf8Size_le_four _

-- One key more than a leaf can have, then all keys of the left half go out again.
def drainOps : List Op :=
  (List.range 51).map (fun i => Op.insert (letter i) i) ++
    (List.range 25).map fun i => Op.delete (letter i)

theorem mem_drainOps {key : String} {value : PageNum} (h : Op.insert key value ∈ drainOps) :
    Codec.ShortKey key := by
  have hall : ∀ op ∈ drainOps, ∀ key value, op = Op.insert key value → Codec.ShortKey key := by
    intro op hop key value hkey
    rcases List.mem_append.mp hop with hop | hop
    · obtain ⟨i, -, rfl⟩ := List.mem_map.mp hop
      obtain ⟨rfl, -⟩ := Op.insert.inj hkey
      exact (utf8ByteSize_letter i).trans (by decide)
    · obtain ⟨i, -, rfl⟩ := List.mem_map.mp hop
      cases hkey
  exact hall _ h key value rfl

-- The tree keeps its two leaves, with one entry less in the first.
theorem iteration_complete_iff_twoLeaves :
    ∃ t₀ db₀, Proc.exec (BTree.new : DbM Unit BTree) () emptyDb = (.ok t₀, (), db₀) ∧
      let s := runOps (drainOps.take 52) t₀ db₀
      NodesIn Codec.ReadsBack s.2 ∧ ∃ T, Opened s.1 s.2 T ∧ (Complete s.1 s.2 ↔ GapFree T) := by
  obtain ⟨t₀, db₀, hnew, hread, hcomplete⟩ := iteration_complete_iff wf_emptyDb
    fun _ _ h => mem_drainOps (List.mem_of_mem_take (i := 52) h)
  exact ⟨t₀, db₀, hnew, hread sized_emptyDb, hcomplete⟩

-- An empty first leaf hides all others.
theorem not_complete_of_empty {t : BTree} {it : Cursor} {key : String} {value : PageNum}
    (hit : (Proc.exec iterator t db).1 = .ok it) (hstarted : it.started = false)
    (hleaf : it.currentLeaf.map BTreeNode.entries = some [])
    (hsearch : (Proc.exec (search key) t db).1 = .ok value) : ¬ Complete t db := by
  rintro ⟨es, hes, _, hmem, _⟩
  have hrun := hes (es.length + 1) (by omega)
  obtain ⟨m, hm, hempty⟩ := Option.map_eq_some_iff.mp hleaf
  have hnext : it.next = pure (false, { it with started := true }) := by
    simp [Cursor.next, hm, hstarted, hempty]
  have hnil : es = [] := by
    rcases he : Proc.exec iterator t db with ⟨r, t', db'⟩
    rw [he] at hit
    subst hit
    rw [entriesOf, Proc.exec_bind_ok he, Cursor.collect, hnext,
      Proc.exec_bind_ok (Proc.exec_pure _ t' db')] at hrun
    exact (Except.ok.inj (congrArg Prod.fst hrun)).symm
  have hmiss := (hmem key value).mpr hsearch
  rw [hnil] at hmiss
  simp at hmiss

theorem iteration_incomplete :
    ∃ t₀ db₀, Proc.exec (BTree.new : DbM Unit BTree) () emptyDb = (.ok t₀, (), db₀) ∧
      ¬ Complete (runOps drainOps t₀ db₀).1 (runOps drainOps t₀ db₀).2 := by
  obtain ⟨db₀, hdb⟩ : ∃ db₀, (Proc.exec (BTree.new : DbM Unit BTree) () emptyDb).2.2 = db₀ := ⟨_, rfl⟩
  have hstart : ∃ t₀, (Proc.exec (BTree.new : DbM Unit BTree) () emptyDb).1 = .ok t₀ ∧
      (∃ it, (Proc.exec iterator (runOps drainOps t₀
          (Proc.exec (BTree.new : DbM Unit BTree) () emptyDb).2.2).1
          (runOps drainOps t₀ (Proc.exec (BTree.new : DbM Unit BTree) () emptyDb).2.2).2).1 = .ok it ∧
        it.started = false ∧ it.currentLeaf.map BTreeNode.entries = some []) ∧
      (Proc.exec (search (letter 30)) (runOps drainOps t₀
          (Proc.exec (BTree.new : DbM Unit BTree) () emptyDb).2.2).1
          (runOps drainOps t₀ (Proc.exec (BTree.new : DbM Unit BTree) () emptyDb).2.2).2).1 = .ok 30 := by
    decide +kernel
  rw [hdb] at hstart
  obtain ⟨t₀, hnew, ⟨it, hit, hstarted, hleaf⟩, hsearch⟩ := hstart
  exact ⟨t₀, db₀, Prod.ext hnew (Prod.ext rfl hdb), not_complete_of_empty hit hstarted hleaf hsearch⟩

end Drained

end Tree

end JasonDb.BTree
