import JasonDb.BTree.Grants
import JasonDb.BTree.Update
import JasonDb.Codec.Fits
import JasonDb.TxBTree.Refines

namespace JasonDb.BTree

open Lib SearchTree TxBTree

variable {db : Database} {T : PageTree} {t : BTree}

inductive Op where
  | insert (key : String) (value : PageNum)
  | delete (key : String)

namespace Op

def run : Op → BTree.TreeM Unit
  | insert key value => BTree.insert key value
  | delete key => BTree.delete key

-- The operation on the map.
def apply (M : KeyMap) : Op → KeyMap
  | insert key value => Function.update M key (some value)
  | delete key => Function.update M key none

end Op

-- Operations one after the other, each on what the ones before it left.
def runOps : List Op → BTree → Database → BTree × Database
  | [], t, db => (t, db)
  | op :: ops, t, db =>
    let (_, t, db) := Proc.exec op.run t db
    runOps ops t db

section Nodes

variable {K : String → Prop}

-- Operations that put in keys of `K` only keep to nodes with keys of `K`.
theorem runOps_sized {ops : List Op} (hkeys : ∀ key value, Op.insert key value ∈ ops → K key)
    (hnodes : NodesIn (Sized BTREE_ORDER K) db) : NodesIn (Sized BTREE_ORDER K) (runOps ops t db).2 := by
  induction ops generalizing t db with
  | nil => exact hnodes
  | cons op ops ih =>
    refine ih (fun key value h => hkeys key value (List.mem_cons_of_mem op h)) ?_
    have hsafe : Proc.Safe (NodesIn (Sized BTREE_ORDER K)) (fun _ => True) (fun _ => True) op.run := by
      cases op with
      | insert key value =>
        exact keeps_insert (grants_nodesIn _) (keeps_sized K) (hkeys key value List.mem_cons_self) value
      | delete key => exact keeps_delete (grants_nodesIn _) (keeps_sized K) key
    exact (hsafe.exec rfl trivial hnodes).1

-- With short keys no node overflows its page, and all can be read again.
theorem runOps_readsBack {ops : List Op} (hkeys : ∀ key value, Op.insert key value ∈ ops → Codec.ShortKey key)
    (hnodes : NodesIn (Sized BTREE_ORDER Codec.ShortKey) db) : NodesIn Codec.ReadsBack (runOps ops t db).2 :=
  fun n hn => Codec.readsBack_sized (runOps_sized hkeys hnodes n hn)

end Nodes

-- The handle has a well-formed tree.
def Opened (t : BTree) (db : Database) (T : PageTree) : Prop :=
  t = BTree.open T.ptr ∧ Represents db T

theorem Represents.entries_sorted (h : Represents db T) : SortedEntries T.entries :=
  h.ordered.entries_sorted (fun _ _ _ _ _ => id) bot_lt_top

-- One operation does to the tree what it does to the map.
theorem Opened.step (h : Opened t db T) (op : Op) :
    ∃ T', Opened (Proc.exec op.run t db).2.1 (Proc.exec op.run t db).2.2 T' ∧
      mapOf T'.entries = op.apply (mapOf T.entries) ∧
      Edits db {p | p ∈ T.ptrs} (Proc.exec op.run t db).2.2 {p | p ∈ T'.ptrs} := by
  obtain ⟨rfl, h⟩ := h
  cases op with
  | insert key value =>
    obtain ⟨T', db', he, hrep, hes, hedit⟩ := BTree.exec_insert h key value
    rw [Op.run, he]
    refine ⟨T', ⟨rfl, hrep⟩, ?_, hedit⟩
    rw [hes]
    exact mapOf_insertEntry h.entries_sorted
  | delete key =>
    obtain ⟨hfound, hmissing⟩ := BTree.exec_delete h key
    by_cases hk : (mapOf T.entries key).isSome
    · obtain ⟨T', db', he, hrep, hes, hedit⟩ := hfound (mapOf_isSome.mp hk)
      rw [Op.run, he]
      refine ⟨T', ⟨rfl, hrep⟩, ?_, hedit⟩
      rw [hes]
      exact mapOf_filter T.entries
    · have hnone : mapOf T.entries key = none := by simpa using hk
      rw [Op.run, hmissing (mapOf_eq_none.mp hnone)]
      refine ⟨T, ⟨rfl, h⟩, ?_, Edits.refl _ _⟩
      rw [Op.apply, ← hnone, Function.update_eq_self]

theorem Opened.runOps (h : Opened t db T) (ops : List Op) :
    ∃ T', Opened (BTree.runOps ops t db).1 (BTree.runOps ops t db).2 T' ∧
      mapOf T'.entries = ops.foldl Op.apply (mapOf T.entries) := by
  induction ops generalizing t db T with
  | nil => exact ⟨T, h, rfl⟩
  | cons op ops ih =>
    obtain ⟨T₁, h₁, hmap, _⟩ := h.step op
    obtain ⟨T', h', hmap'⟩ := ih h₁
    refine ⟨T', h', ?_⟩
    rw [hmap', hmap]
    rfl

-- `BTree::new` makes a tree of one empty leaf.
theorem exec_new {ℓ : Type} (l : ℓ) (h : db.pager.WF) :
    ∃ p db', Proc.exec (BTree.new : DbM ℓ BTree) l db = (.ok (BTree.open p), l, db') ∧
      Opened (BTree.open p) db' (leaf p [] 0) ∧ ¬ db.pager.Allocated p ∧
      Edits db ∅ db' {p} := by
  have hempty : BTree.Holds db [] := ⟨h, ⟨by simp, by simp⟩, by simp⟩
  obtain ⟨p, db₁, halloc, hunused, h₁, hfresh, hused, hedit⟩ := hempty.exec_alloc l ∅
  have hholds : BTree.Holds (written db₁ (.newLeaf p)) [leaf p [] 0] :=
    h₁.written_new (by simp [cells, BTreeNode.shape, BTreeNode.newLeaf]) (by simp) hused
  refine ⟨p, written db₁ (.newLeaf p), ?_, ⟨rfl, hholds, ?_, ?_, ⟨0, trivial⟩, ?_⟩, hunused, ?_⟩
  · unfold BTree.new
    rw [Proc.exec_bind_ok halloc]
    have hin : Proc.exec (Proc.within (BTree.open p) (BTree.writeNode (.newLeaf p)) : DbM ℓ _) l
        db₁ = (.ok ((), BTree.open p), l, written db₁ (.newLeaf p)) := by
      rw [Proc.exec_within, exec_writeNode_open _ h₁.pager]
      rfl
    rw [Proc.exec_bind_ok hin]
    rfl
  · exact ⟨List.Pairwise.nil, by simp⟩
  · intro c hc
    obtain rfl := List.mem_singleton.mp hc
    exact Nat.zero_le _
  · exact ⟨rfl, trivial⟩
  · refine (hedit.trans (edits_written db₁ ?_)).mono fun q hq => Or.inr hq
    exact Or.inr rfl

-- What `search` answers for a map.
def found (M : KeyMap) (key : String) : Except Error PageNum :=
  match M key with
  | some value => .ok value
  | none => .error .notFound

theorem Opened.search (h : Opened t db T) (key : String) :
    (Proc.exec (BTree.search key) t db).1 = found (mapOf T.entries) key := by
  obtain ⟨rfl, h⟩ := h
  rw [BTree.exec_search h key]
  rfl

theorem Opened.insert_ok (h : Opened t db T) (key : String) (value : PageNum) :
    (Proc.exec (BTree.insert key value) t db).1 = .ok () := by
  obtain ⟨rfl, h⟩ := h
  obtain ⟨T', db', he, _⟩ := BTree.exec_insert h key value
  rw [he]

theorem Opened.delete_result (h : Opened t db T) (key : String) :
    ((mapOf T.entries key).isSome → (Proc.exec (BTree.delete key) t db).1 = .ok ()) ∧
      (mapOf T.entries key = none → Proc.exec (BTree.delete key) t db = (.error .notFound, t, db)) := by
  obtain ⟨rfl, h⟩ := h
  obtain ⟨hfound, hmissing⟩ := BTree.exec_delete h key
  refine ⟨fun hk => ?_, fun hk => hmissing (mapOf_eq_none.mp hk)⟩
  obtain ⟨T', db', he, _⟩ := hfound (mapOf_isSome.mp hk)
  rw [he]

-- After any operations on a new tree, search answers from the map with the same operations done
-- to it, every insert succeeds, and a delete fails exactly for a key that is not there, with
-- everything left as it was.
theorem runOps_new_refines (hpager : db.pager.WF) (ops : List Op) :
    ∃ t₀ db₀, Proc.exec (BTree.new : DbM Unit BTree) () db = (.ok t₀, (), db₀) ∧
      let s := runOps ops t₀ db₀
      let M := ops.foldl Op.apply fun _ => none
      (∀ key, (Proc.exec (BTree.search key) s.1 s.2).1 = found M key) ∧
      (∀ key value, (Proc.exec (BTree.insert key value) s.1 s.2).1 = .ok ()) ∧
      ∀ key, ((M key).isSome → (Proc.exec (BTree.delete key) s.1 s.2).1 = .ok ()) ∧
        (M key = none → Proc.exec (BTree.delete key) s.1 s.2 = (.error .notFound, s)) := by
  obtain ⟨p, db₀, hnew, hopened, _, _⟩ := exec_new () hpager
  obtain ⟨T, hT, hmap⟩ := hopened.runOps ops
  have hM : mapOf T.entries = ops.foldl Op.apply fun _ => none := hmap
  refine ⟨BTree.open p, db₀, hnew, ?_⟩
  simp only
  rw [← hM]
  exact ⟨hT.search, hT.insert_ok, hT.delete_result⟩

-- A file with a header and a metadata page.
def emptyDb : Database := dbOf (leaf 1 [] 0) 2

theorem wf_emptyDb : emptyDb.pager.WF := wf_dbOf _ (by decide)

theorem nodesIn_dbOf {N : BTreeNode → Prop} {numPages : Nat} (h : ∀ c ∈ T.cells, N (nodeOf c.1 c.2)) :
    NodesIn N (dbOf T numPages) := by
  rintro n ⟨p, hcache | hfile⟩
  · obtain ⟨c, hc, hn⟩ := Option.map_eq_some_iff.mp hcache
    have hp : c.1 = p := by simpa using List.find?_some hc
    have hnode := h c (List.mem_of_find?_eq_some hc)
    rwa [hp, Page.node.inj hn] at hnode
  · cases hfile

theorem sized_emptyDb {K : String → Prop} : NodesIn (Sized BTREE_ORDER K) emptyDb := by
  refine nodesIn_dbOf fun c hc => ?_
  obtain rfl := List.mem_singleton.mp hc
  exact sized_leaf rfl rfl rfl (Nat.zero_le _) fun _ h => absurd h List.not_mem_nil

theorem runOps_new_refines_three :
    ∃ t₀ db₀, Proc.exec (BTree.new : DbM Unit BTree) () emptyDb = (.ok t₀, (), db₀) ∧
      let s := runOps [.insert "b" 7, .insert "a" 8, .insert "b" 9, .delete "a"] t₀ db₀
      (Proc.exec (BTree.search "b") s.1 s.2).1 = .ok 9 ∧
        (Proc.exec (BTree.search "a") s.1 s.2).1 = .error .notFound ∧
        Proc.exec (BTree.delete "a") s.1 s.2 = (.error .notFound, s) := by
  obtain ⟨t₀, db₀, hnew, hsearch, _, hdelete⟩ := runOps_new_refines wf_emptyDb
    [.insert "b" 7, .insert "a" 8, .insert "b" 9, .delete "a"]
  refine ⟨t₀, db₀, hnew, (hsearch "b").trans ?_, (hsearch "a").trans ?_, (hdelete "a").2 ?_⟩
  · decide +kernel
  · decide +kernel
  · decide +kernel

section Shape

-- The tree `T` is in the pages, with the root the handle has, and has the shape of a B-tree.
structure Shaped (t : BTree) (db : Database) (T : PageTree) : Prop where
  root : t = BTree.open T.ptr
  stored : ∀ c ∈ T.cells, store db c.1 = some c.2
  nodup : T.ptrs.Nodup
  keys : ∀ p keys children, (p, .node keys children) ∈ T.cells → keys.Pairwise (· < ·)
  entries : ∀ p es nx, (p, .leaf es nx) ∈ T.cells → SortedEntries es
  separators : All (LeafSorted LeafEntry.key) ⊥ ⊤ T
  arity : ∀ p keys children, (p, .node keys children) ∈ T.cells → children.length = keys.length + 1
  small : ∀ c ∈ T.cells, c.2.size ≤ BTREE_ORDER
  level : ∃ n, Level n T
  linked : Linked 0 T.leaves

-- The allocator does not hand out a page of the tree.
def Fresh (db : Database) (T : PageTree) : Prop :=
  db.pager.WF ∧ ∀ p ∈ T.ptrs, db.pager.Allocated p

theorem Opened.shaped (h : Opened t db T) : Shaped t db T ∧ Fresh db T := by
  obtain ⟨rfl, h⟩ := h
  refine ⟨⟨rfl, ?_, ?_, ?_, ?_, h.ordered, ?_, h.small, h.level, h.linked⟩, h.holds.pager, ?_⟩
  · intro c hc
    exact h.holds.stores.stored c (by simpa using hc)
  · simpa using h.holds.stores.nodup_ptrs
  · intro p keys children hc
    obtain ⟨_, _, _, hforest, _⟩ := h.ordered.forest_of_cell hc
    exact hforest.keys_sorted.1
  · intro p es nx hc
    obtain ⟨_, _, hleaf⟩ := h.ordered.leaf_of_cell hc
    exact hleaf.1
  · intro p keys children hc
    obtain ⟨_, _, subtrees, hforest, rfl⟩ := h.ordered.forest_of_cell hc
    rw [List.length_map]
    exact hforest.length
  · exact fun p hp => h.holds.live p (by simpa using hp)

theorem Shaped.opened (h : Shaped t db T) (hf : Fresh db T) : Opened t db T := by
  refine ⟨h.root, ⟨hf.1, ⟨?_, ?_⟩, ?_⟩, h.separators, h.small, h.level, h.linked⟩
  · simpa using h.stored
  · simpa [ptrs] using h.nodup
  · intro p hp
    exact hf.2 p (by simpa using hp)

-- Inserting and deleting keep the shape of every tree. Keys are such that its nodes fit their pages;
-- a node that does not is a panic, halfway through the call.
theorem shaped_step (h : Shaped t db T) (hf : Fresh db T) (op : Op) :
    ∃ T', Shaped (Proc.exec op.run t db).2.1 (Proc.exec op.run t db).2.2 T' ∧
      Fresh (Proc.exec op.run t db).2.2 T' := by
  obtain ⟨T', hT', _, _⟩ := (h.opened hf).step op
  exact ⟨T', hT'.shaped⟩

instance decidableLevel : (n : Nat) → (T : PageTree) → Decidable (Level n T)
  | 0, .leaf _ _ _ => .isTrue trivial
  | n + 1, .node _ _ children =>
    have := decidableLevel n
    inferInstanceAs (Decidable (∀ c ∈ children, Level n c))
  | 0, .node _ _ _ => .isFalse id
  | _ + 1, .leaf _ _ _ => .isFalse id

instance decidableLinked : (ls : List (PageNum × List LeafEntry × PageNum)) → Decidable (Linked 0 ls)
  | [] => .isTrue trivial
  | _ :: ls =>
    have := decidableLinked ls
    inferInstanceAs (Decidable (_ ∧ _))

theorem opened_dbOf {numPages n : Nat} (hnodup : T.ptrs.Nodup)
    (hrange : ∀ p ∈ T.ptrs, p ≠ 0 ∧ p < numPages) (hall : All (LeafSorted LeafEntry.key) ⊥ ⊤ T)
    (hsmall : ∀ c ∈ T.cells, c.2.size ≤ BTREE_ORDER) (hlevel : Level n T)
    (hlinked : Linked 0 T.leaves) : Opened (BTree.open T.ptr) (dbOf T numPages) T := by
  have hpos : 0 < numPages := lt_of_le_of_lt (Nat.zero_le _) (hrange _ T.ptr_mem_ptrs).2
  refine ⟨rfl, ⟨wf_dbOf T hpos, ⟨?_, ?_⟩, ?_⟩, hall, hsmall, ⟨n, hlevel⟩, hlinked⟩
  · intro c hc
    rw [List.flatMap_singleton] at hc
    simp only [BTree.store, nodeAt_dbOf hnodup hc, Option.map_some, shape_nodeOf]
  · simpa [ptrs] using hnodup
  · intro p hp
    obtain ⟨h0, hlt⟩ := hrange p (by simpa using hp)
    exact ⟨h0, hlt, by simp [dbOf]⟩

theorem opened_pairTree : Opened (BTree.open 2) (dbOf pairTree 8) pairTree :=
  opened_dbOf (T := pairTree) (n := 1) (by decide +kernel)
    (show ∀ p ∈ pairTree.ptrs, p ≠ 0 ∧ p < 8 by decide +kernel) (by decide +kernel)
    (by decide +kernel) (by decide +kernel) (by decide +kernel)

theorem sized_pairTree : NodesIn (Sized BTREE_ORDER Codec.ShortKey) (dbOf pairTree 8) := by
  refine nodesIn_dbOf fun c hc => ?_
  rcases List.mem_cons.mp hc with rfl | hc
  · exact sized_internal rfl rfl rfl rfl (by decide) (by decide)
  rcases List.mem_cons.mp hc with rfl | hc
  · exact sized_leaf rfl rfl rfl (by decide) (by decide)
  · obtain rfl := List.mem_singleton.mp hc
    exact sized_leaf rfl rfl rfl (by decide) (by decide)

theorem shaped_step_pair :
    ∃ T', Shaped (Proc.exec (Op.insert "k" 7).run (BTree.open 2) (dbOf pairTree 8)).2.1
      (Proc.exec (Op.insert "k" 7).run (BTree.open 2) (dbOf pairTree 8)).2.2 T' ∧
      Fresh (Proc.exec (Op.insert "k" 7).run (BTree.open 2) (dbOf pairTree 8)).2.2 T' := by
  obtain ⟨hshaped, hfresh⟩ := opened_pairTree.shaped
  exact shaped_step hshaped hfresh (.insert "k" 7)

end Shape

end JasonDb.BTree
