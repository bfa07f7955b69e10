import Mathlib.Data.Set.Basic
import JasonDb.BTree.Grants
import JasonDb.BTree.Refines
import JasonDb.Codec.Fits
import JasonDb.Lib.Pool
import JasonDb.Session.Counter
import JasonDb.Transaction.Begin
import JasonDb.TxCollection.Grants

namespace JasonDb

open Lib Codec

-- The keys of the trees: ids of documents, values of indexed fields with the id of their
-- document, and words of a text with their field.
inductive TreeKey where
  | document (id : String)
  | index (values : List Json) (docId : String)
  | text (term field : String)

namespace TreeKey

def encode : TreeKey → String
  | .document id => id
  | .index values docId => serializeIndexKey values docId
  | .text term field => s!"{term}:{field}"

-- All that is checked of a key: `write_versioned_document` admits ids of up to 255 bytes.
def Accepted : TreeKey → Prop
  | .document id => id.utf8ByteSize ≤ 255
  | .index _ docId => docId.utf8ByteSize ≤ 255
  | .text _ _ => True

end TreeKey

inductive TreeCall where
  | insert (key : TreeKey) (page : PageNum)
  | delete (key : TreeKey)

namespace TreeCall

def inPlace : TreeCall → BTree.TreeM Unit
  | .insert key page => BTree.insert key.encode page
  | .delete key => BTree.delete key.encode

def inCopy : TreeCall → TxBTree.TreeM Unit
  | .insert key page => TxBTree.insert key.encode page
  | .delete key => TxBTree.delete key.encode

def inserted : TreeCall → Option TreeKey
  | .insert key _ => some key
  | .delete _ => none

end TreeCall

-- A client of the trees. One writes in place, to a tree it makes or to the one at a page, as
-- collections, index builds and text indexes do. Another is a transaction on a collection and
-- its indexes, whose calls name the index they are for. Calls that fail are passed over.
inductive Writer where
  | inPlace (root : PageNum) (calls : List TreeCall)
  | transaction (name : String) (calls : List (Option String × TreeCall))

namespace Writer

def onTree (call : Option String × TreeCall) : TxCollection.M Unit :=
  match call.1 with
  | none => TxCollection.onTree call.2.inCopy
  | some index => TxCollection.onIndex index call.2.inCopy

def attemptAll {ℓ α : Type} (f : α → DbM ℓ Unit) (calls : List α) : DbM ℓ Unit :=
  Proc.forEach (fun call => do let _ ← Proc.attempt (f call)) calls

def openTree (root : PageNum) : DbM Unit BTree :=
  if root = 0 then BTree.new else pure (BTree.open root)

def code : Writer → DbM Unit Unit
  | .inPlace root calls => do
    let tree ← openTree root
    let _ ← Proc.within tree (attemptAll TreeCall.inPlace calls)
  | .transaction name calls => do
    let tx ← begin
    let c ← TxCollection.new tx name
    let _ ← Proc.within c (attemptAll onTree calls)

def calls : Writer → List TreeCall
  | .inPlace _ calls => calls
  | .transaction _ calls => calls.map Prod.snd

def inserted (w : Writer) : List TreeKey := w.calls.filterMap TreeCall.inserted

end Writer

-- What else goes on in the database makes no nodes: pages are freed, flushed and committed,
-- and documents and metadata are written.
def Others (db db' : Database) : Prop := db'.nodes ⊆ db.nodes

-- The writers have begun on `db₀`, and their steps so far, in some order, led to `db`. A node is
-- passed to `serialize_node_into` when it is written, so that every such node is in some `db`.
-- Where it does not fit, the code panics and the model goes on.
def Writers.Reach (writers : List Writer) (db₀ db : Database) : Prop :=
  ∃ rest, Prog.Reaches Others (writers.map fun w => w.code ()) db₀ rest db

section Safe

variable {K : String → Prop}

theorem unattached_nodesIn (N : BTreeNode → Prop) : Unattached (NodesIn N) :=
  ⟨fun _ _ h => h, fun _ _ h => h⟩

theorem safe_attemptAll {ℓ α : Type} {J : Database → Prop} {I : ℓ → Prop} {f : α → DbM ℓ Unit}
    {calls : List α} (h : ∀ call ∈ calls, Proc.Safe J I (fun _ => True) (f call)) :
    Proc.Safe J I (fun _ => True) (Writer.attemptAll f calls) :=
  Proc.safe_forEach calls fun call hcall =>
    (h call hcall).attempt.bind fun _ _ => Proc.safe_pure trivial

theorem safe_inPlace {call : TreeCall} (h : ∀ key, call.inserted = some key → K key.encode) :
    Proc.Safe (NodesIn (Sized BTREE_ORDER K)) (fun _ => True) (fun _ => True) call.inPlace := by
  cases call with
  | insert key page =>
    exact BTree.keeps_insert (grants_nodesIn _) (keeps_sized K) (h key rfl) page
  | delete key => exact BTree.keeps_delete (grants_nodesIn _) (keeps_sized K) _

theorem safe_inCopy {call : TreeCall} (h : ∀ key, call.inserted = some key → K key.encode) :
    Proc.Safe (NodesIn (Sized BTREE_ORDER K))
      (TxBTree.Within (fun _ => True) (NodePage (Sized BTREE_ORDER K))) (fun _ => True)
      call.inCopy := by
  cases call with
  | insert key page =>
    exact TxBTree.keeps_insert (grants_nodesIn _) (keeps_sized K) (h key rfl) page
  | delete key => exact TxBTree.keeps_delete (grants_nodesIn _) (keeps_sized K) _

theorem safe_onTree {txId : TransactionID} {call : Option String × TreeCall}
    (h : ∀ key, call.2.inserted = some key → K key.encode) :
    Proc.Safe (NodesIn (Sized BTREE_ORDER K))
      (TxCollection.Within (fun _ => True) (NodePage (Sized BTREE_ORDER K)) txId)
      (fun _ => True) (Writer.onTree call) := by
  unfold Writer.onTree
  split
  · exact TxCollection.safe_onTree (safe_inCopy h)
  · exact TxCollection.safe_onIndex _ (safe_inCopy h)

-- A writer of keys of `K` keeps to nodes with keys of `K`.
theorem Writer.safe_code {w : Writer} (h : ∀ key ∈ w.inserted, K key.encode) :
    Proc.Safe (NodesIn (Sized BTREE_ORDER K)) (fun _ => True) (fun _ => True) w.code := by
  have hcall : ∀ call ∈ w.calls, ∀ key, call.inserted = some key → K key.encode := by
    intro call hc key hkey
    exact h key (List.mem_filterMap.mpr ⟨call, hc, hkey⟩)
  cases w with
  | inPlace root calls =>
    have hopen : Proc.Safe (NodesIn (Sized BTREE_ORDER K)) (fun _ => True) (fun _ => True)
        (openTree root) := by
      unfold openTree
      split
      · exact BTree.keeps_new (grants_nodesIn _) (keeps_sized K)
      · exact Proc.safe_pure trivial
    refine hopen.bind fun tree _ => ?_
    have hcalls := safe_attemptAll fun call hc => safe_inPlace (hcall call hc)
    exact (hcalls.within trivial).bind fun _ _ => Proc.safe_pure trivial
  | transaction name calls =>
    refine (unattached_nodesIn _).safe_begin.bind fun tx htx => ?_
    have hwrites : PagesIn (fun _ => True) (NodePage (Sized BTREE_ORDER K)) tx.writes := by
      rw [htx.writes]
      exact pagesIn_empty
    refine (TxCollection.keeps_new (grants_nodesIn _) (keeps_sized K) name hwrites rfl).bind
      fun c hc => ?_
    have hcalls := safe_attemptAll (I := TxCollection.Within (fun _ => True)
      (NodePage (Sized BTREE_ORDER K)) tx.mvccTxId) fun (call : Option String × TreeCall) hmem =>
        safe_onTree (hcall call.2 (List.mem_map_of_mem hmem))
    exact (hcalls.within hc).bind fun _ _ => Proc.safe_pure trivial

-- Whatever the writers do, the nodes have keys of `K` only, and not too many.
theorem Writers.Reach.sized {writers : List Writer} {db₀ db : Database} (h : Reach writers db₀ db)
    (h₀ : db₀.nodes = ∅) (hkeys : ∀ w ∈ writers, ∀ key ∈ w.inserted, K key.encode) :
    NodesIn (Sized BTREE_ORDER K) db := by
  obtain ⟨rest, h⟩ := h
  have hsafe : ∀ m ∈ writers.map (fun w => w.code ()),
      m.Safe (NodesIn (Sized BTREE_ORDER K)) fun _ => True := by
    intro m hm
    obtain ⟨w, hw, rfl⟩ := List.mem_map.mp hm
    exact (Writer.safe_code (hkeys w hw) () trivial).mono fun _ _ => trivial
  refine (h.safe hsafe (fun t t' ht hothers n hn => ht n (hothers hn)) ?_).1
  intro n hn
  rw [h₀] at hn
  cases hn

end Safe

section Created

-- A new file has its header and the metadata, and no node.
theorem wf_created {db : Database} (h : Life.Created db) : db.pager.WF ∧ db.nodes = ∅ := by
  obtain ⟨wal, hframes, _, hopen⟩ := h
  have hload : Database.load (Pager.start .empty false).writeHeader.2 wal false = .ok db := by
    simpa [Database.openWithOptions, Pager.openFile, hframes] using hopen
  obtain rfl := Except.ok.inj (show Except.ok _ = Except.ok db from hload)
  refine ⟨⟨rfl, Nat.zero_lt_two, List.nodup_nil, fun _ hn => absurd hn List.not_mem_nil⟩, ?_⟩
  refine Set.eq_empty_of_forall_notMem fun n => ?_
  rintro ⟨p, hp | hp⟩
  · change Function.update (fun _ => none) 1 (some (Page.metadata .new)) p = _ at hp
    rw [Function.update_apply] at hp
    split at hp
    · cases hp
    · cases hp
  · change Function.update (Function.update (Function.update (fun _ => none) 0 (some (Page.header
      ⟨1, 0, 1, []⟩))) 0 (some (Page.header ⟨2, 1, 1, []⟩))) 1 (some (Page.metadata .new)) p = _ at hp
    simp only [Function.update_apply] at hp
    split at hp
    · cases hp
    · split at hp
      · cases hp
      · cases hp

end Created

section Leaf

-- A tree that is still one leaf.
structure OneLeaf (db : Database) (root : PageNum) (n : BTreeNode) : Prop where
  wf : db.pager.WF
  nodeAt : db.nodeAt root = some n
  leaf : n.nodeType = .leafNode

variable {db : Database} {root : PageNum} {n : BTreeNode}

theorem OneLeaf.exists_node (h : OneLeaf db root n) :
    ∃ m ∈ db.nodes, m.nodeType = .leafNode ∧ m.entries = n.entries := by
  obtain ⟨page, hview, hn⟩ := Option.bind_eq_some_iff.mp h.nodeAt
  cases page with
  | node m =>
    obtain rfl : { m with pageNum := root } = n := by
      simpa [deserializeNode, Except.toOption] using hn
    exact ⟨m, Database.mem_nodes_of_view hview, h.leaf, rfl⟩
  | zero =>
    obtain rfl : BTreeNode.newInternal root = n := by
      simpa [deserializeNode, Except.toOption] using hn
    exact absurd h.leaf (by simp [BTreeNode.newInternal])
  | _ => simp [deserializeNode, Except.toOption] at hn

-- The key of an entry comes to the others as long as there is room.
theorem OneLeaf.exec_insert (h : OneLeaf db root n) {key : String} (hkey : ∀ e ∈ n.entries, e.key ≠ key)
    (hroom : n.entries.length < BTREE_ORDER) (value : PageNum) :
    ∃ n' db', Proc.exec (BTree.insert key value) (BTree.open root) db =
        (.ok (), BTree.open root, db') ∧ OneLeaf db' root n' ∧
      (n'.entries.map LeafEntry.key).Perm (key :: n.entries.map LeafEntry.key) := by
  have hany : ¬ n.entries.any (·.key = key) = true := by simpa using hkey
  have hleaf : BTree.insertIntoLeaf n key value = { n with
      entries := n.entries.insertIdx ((n.entries.findIdx? (key < ·.key)).getD n.entries.length)
        ⟨key, value⟩
      numKeys := (n.entries.insertIdx ((n.entries.findIdx? (key < ·.key)).getD n.entries.length)
        ⟨key, value⟩).length } := by
    unfold BTree.insertIntoLeaf
    rw [if_neg hany]
  have hdescend : Proc.exec (BTree.descend key) (BTree.open root) db =
      (.ok (n, [root]), BTree.open root, db) := by
    have hbound : Proc.exec (walkBound : BTree.TreeM Nat) (BTree.open root) db =
        (.ok (db.pager.numPages + 1), BTree.open root, db) := rfl
    unfold BTree.descend
    rw [Proc.exec_bind_ok (Proc.exec_getLocal _ db), Proc.exec_bind_ok hbound]
    simp only [BTree.getRootPage_open]
    rw [Proc.exec_bind_ok (BTree.exec_readNode_at h.nodeAt)]
    unfold BTree.findLeaf
    rw [h.leaf]
    rfl
  have hperm : (BTree.insertIntoLeaf n key value).entries.Perm (⟨key, value⟩ :: n.entries) := by
    rw [hleaf]
    refine List.perm_insertIdx _ _ ?_
    cases hfind : n.entries.findIdx? (key < ·.key) with
    | none => exact Nat.le_refl _
    | some i => exact Nat.le_of_lt (List.findIdx?_eq_some_iff_getElem.mp hfind).1
  have hlen : ¬ BTREE_ORDER < (BTree.insertIntoLeaf n key value).entries.length := by
    rw [hperm.length_eq, List.length_cons]
    omega
  refine ⟨BTree.insertIntoLeaf n key value, BTree.written db (BTree.insertIntoLeaf n key value),
    ?_, ?_, ?_⟩
  · unfold BTree.insert
    rw [Proc.exec_bind_ok hdescend]
    dsimp only
    rw [if_neg hlen, Proc.exec_bind_ok (BTree.exec_writeNode_open root h.wf _)]
    rfl
  · have hpage : (BTree.insertIntoLeaf n key value).pageNum = root := by
      rw [hleaf]
      change n.pageNum = root
      exact Database.nodeAt_pageNum h.nodeAt
    refine ⟨BTree.wf_written h.wf _, ?_, ?_⟩
    · unfold Database.nodeAt
      rw [BTree.view_written, hpage, Function.update_self]
      simp [deserializeNode, Except.toOption, ← hpage]
    · rw [hleaf]
      exact h.leaf
  · exact hperm.map LeafEntry.key

theorem exec_attemptAll_cons {ℓ α : Type} {f : α → DbM ℓ Unit} {call : α} {rest : List α} {l l' : ℓ}
    {db' : Database} {r : Except Error Unit} (h : Proc.exec (f call) l db = (r, l', db')) :
    Proc.exec (Writer.attemptAll f (call :: rest)) l db =
      Proc.exec (Writer.attemptAll f rest) l' db' := by
  have hfirst : Proc.exec (do let _ ← Proc.attempt (f call)) l db = (.ok (), l', db') := by
    have hattempt : Proc.exec (Proc.attempt (f call)) l db = (.ok r, l', db') := by
      rw [Proc.exec_attempt, h]
    rw [Proc.exec_bind_ok hattempt]
    rfl
  exact Proc.exec_bind_ok hfirst

theorem OneLeaf.exec_insertAll (h : OneLeaf db root n) {keys : List TreeKey}
    (hnodup : (keys.map TreeKey.encode ++ n.entries.map LeafEntry.key).Nodup)
    (hroom : keys.length + n.entries.length ≤ BTREE_ORDER) :
    ∃ n' db', Proc.exec (Writer.attemptAll TreeCall.inPlace (keys.map (.insert · 0)))
        (BTree.open root) db = (.ok (), BTree.open root, db') ∧ OneLeaf db' root n' ∧
      (n'.entries.map LeafEntry.key).Perm (keys.map TreeKey.encode ++ n.entries.map LeafEntry.key) := by
  induction keys generalizing db n with
  | nil => exact ⟨n, db, rfl, h, List.Perm.refl _⟩
  | cons key rest ih =>
    obtain ⟨hnot, hrest⟩ := List.nodup_cons.mp hnodup
    have hfresh : ∀ e ∈ n.entries, e.key ≠ key.encode := by
      intro e he heq
      exact hnot (List.mem_append_right _ (heq ▸ List.mem_map_of_mem he))
    have hlen : (key :: rest).length = rest.length + 1 := List.length_cons
    obtain ⟨n₁, db₁, he₁, h₁, hperm₁⟩ := h.exec_insert hfresh (by omega) 0
    have hback : (rest.map TreeKey.encode ++ n₁.entries.map LeafEntry.key).Perm
        ((key :: rest).map TreeKey.encode ++ n.entries.map LeafEntry.key) :=
      (List.Perm.append_left _ hperm₁).trans List.perm_middle
    have hcount : n₁.entries.length = n.entries.length + 1 := by
      simpa using hperm₁.length_eq
    obtain ⟨n₂, db₂, he₂, h₂, hperm₂⟩ := ih h₁ (hback.nodup_iff.mpr hnodup) (by omega)
    refine ⟨n₂, db₂, ?_, h₂, hperm₂.trans hback⟩
    have hcall : Proc.exec (TreeCall.insert key 0).inPlace (BTree.open root) db =
        (.ok (), BTree.open root, db₁) := he₁
    rw [List.map_cons, exec_attemptAll_cons hcall]
    exact he₂

-- A writer alone puts its keys in one leaf of a new tree.
theorem reach_leaf {db₀ : Database} (h₀ : db₀.pager.WF) {keys : List TreeKey}
    (hnodup : (keys.map TreeKey.encode).Nodup) (hroom : keys.length ≤ BTREE_ORDER) :
    ∃ db, Writers.Reach [.inPlace 0 (keys.map (.insert · 0))] db₀ db ∧ ∃ n ∈ db.nodes,
      n.nodeType = .leafNode ∧ (n.entries.map LeafEntry.key).Perm (keys.map TreeKey.encode) := by
  obtain ⟨root, db₁, hnew, hopened, _, _⟩ := BTree.exec_new () h₀
  obtain ⟨n₁, hn₁, _, hshape⟩ := hopened.2.holds.nodeAt (p := root) (s := .leaf [] 0)
    (by simp [SearchTree.cells])
  obtain ⟨htype, hentries, _⟩ := BTreeNode.shape_eq_leaf hshape
  have hleaf : OneLeaf db₁ root n₁ := ⟨hopened.2.holds.pager, hn₁, htype⟩
  obtain ⟨n, db, he, hn, hperm⟩ := @OneLeaf.exec_insertAll db₁ root n₁ hleaf keys
    (by simpa [hentries] using hnodup) (by simpa [hentries] using hroom)
  have hrun : Proc.exec (Writer.inPlace 0 (keys.map (.insert · 0))).code () db₀ = (.ok (), (), db) := by
    have hopen : Proc.exec (Writer.openTree 0) () db₀ = (.ok (BTree.open root), (), db₁) := hnew
    have hin : Proc.exec (Proc.within (BTree.open root) (Writer.attemptAll TreeCall.inPlace
        (keys.map (.insert · 0))) : DbM Unit _) () db₁ = (.ok ((), BTree.open root), (), db) := by
      rw [Proc.exec_within, he]
      rfl
    unfold Writer.code
    rw [Proc.exec_bind_ok hopen, Proc.exec_bind_ok hin]
    rfl
  obtain ⟨m, hm, hmtype, hmentries⟩ := hn.exists_node
  refine ⟨db, ⟨_, Prog.reaches_exec hrun⟩, m, hm, hmtype, ?_⟩
  simpa [hmentries, hentries] using hperm

-- The bytes of a leaf whose keys are all of one length.
theorem encodedLen_uniform {len : Nat} (htype : n.nodeType = .leafNode) {keys : List String}
    (hkeys : ∀ key ∈ keys, key.utf8ByteSize = len)
    (hperm : (n.entries.map LeafEntry.key).Perm keys) :
    encodedLen n = 21 + keys.length * (len + 10) := by
  have hlen : n.entries.length = keys.length := by simpa using hperm.length_eq
  have hsum : n.entries.map (fun e => e.key.utf8ByteSize + 10) =
      List.replicate n.entries.length (len + 10) := by
    refine List.eq_replicate_iff.mpr ⟨List.length_map _, ?_⟩
    intro size hsize
    obtain ⟨e, he, rfl⟩ := List.mem_map.mp hsize
    rw [hkeys e.key (hperm.mem_iff.mp (List.mem_map_of_mem he))]
  rw [encodedLen_leaf htype, hsum, List.sum_replicate_nat, hlen]

-- As many documents as a leaf takes, with ids of `len` bytes, are written to a new tree.
def sameLength (count len : Nat) : Writer :=
  .inPlace 0 ((List.range count).map fun i => .insert (.document (numbered len i)) 0)

theorem mem_inserted_sameLength {count len : Nat} {key : TreeKey}
    (h : key ∈ (sameLength count len).inserted) : ∃ i < count, key = .document (numbered len i) := by
  obtain ⟨call, hcall, hkey⟩ := List.mem_filterMap.mp h
  obtain ⟨i, hi, rfl⟩ := List.mem_map.mp hcall
  exact ⟨i, List.mem_range.mp hi, (Option.some.inj hkey).symm⟩

theorem reach_sameLength {db₀ : Database} (h₀ : db₀.pager.WF) {count len : Nat}
    (hcount : count ≤ BTREE_ORDER) (hlen : count ≤ len) :
    ∃ db, Writers.Reach [sameLength count len] db₀ db ∧
      ∃ n ∈ db.nodes, encodedLen n = 21 + count * (len + 10) := by
  have hids : ((List.range count).map fun i => TreeKey.document (numbered len i)).map TreeKey.encode =
      (List.range count).map (numbered len) := by
    rw [List.map_map]
    rfl
  have hnodup : (((List.range count).map fun i => TreeKey.document (numbered len i)).map
      TreeKey.encode).Nodup := by
    rw [hids]
    exact List.nodup_range.map (numbered_injective len)
  obtain ⟨db, hreach, n, hn, htype, hperm⟩ := reach_leaf h₀ hnodup (by simpa using hcount)
  rw [hids] at hperm
  refine ⟨db, ?_, n, hn, ?_⟩
  · simpa [sameLength, List.map_map, Function.comp_def] using hreach
  · have hsize : ∀ key ∈ (List.range count).map (numbered len), key.utf8ByteSize = len := by
      intro key hkey
      obtain ⟨i, hi, rfl⟩ := List.mem_map.mp hkey
      exact utf8ByteSize_numbered ((List.mem_range.mp hi).le.trans hlen)
    simpa using encodedLen_uniform htype hsize hperm

end Leaf

-- With keys of at most `bound` bytes all nodes are readable, in whatever state any writers come
-- to, if and only if fifty such keys fit a page.
theorem nodes_readBack_iff (bound : Nat) :
    (∀ db₀ writers db, Life.Created db₀ →
      (∀ w ∈ writers, ∀ key ∈ w.inserted, key.Accepted ∧ key.encode.utf8ByteSize ≤ bound) →
      Writers.Reach writers db₀ db → ∀ n ∈ db.nodes, ReadsBack n) ↔ bound ≤ MAX_FITTING_KEY := by
  constructor
  · intro h
    by_contra hlarge
    have hcreated : ∃ db, Database.openWithOptions none .empty false = .ok db := ⟨_, rfl⟩
    obtain ⟨db₀, hopen⟩ := hcreated
    have hnew : Life.Created db₀ := ⟨.empty, rfl, rfl, hopen⟩
    obtain ⟨db, hreach, n, hn, hsize⟩ := reach_sameLength (wf_created hnew).1
      (Nat.le_refl BTREE_ORDER) (show BTREE_ORDER ≤ MAX_FITTING_KEY + 1 by decide)
    refine not_readsBack_of_encodedLen ?_ (h db₀ _ db hnew ?_ hreach n hn)
    · rw [hsize]
      decide
    · intro w hw key hkey
      obtain rfl := List.mem_singleton.mp hw
      obtain ⟨i, hi, rfl⟩ := mem_inserted_sameLength hkey
      have hbytes : (numbered (MAX_FITTING_KEY + 1) i).utf8ByteSize = MAX_FITTING_KEY + 1 := by
        refine utf8ByteSize_numbered ?_
        simp only [BTREE_ORDER, MAX_FITTING_KEY] at hi ⊢
        omega
      refine ⟨?_, ?_⟩
      · simp only [TreeKey.Accepted, hbytes]
        decide
      · simp only [TreeKey.encode, hbytes]
        omega
  · intro hbound db₀ writers db hnew hkeys hreach n hn
    refine readsBack_sized (hreach.sized (wf_created hnew).2 ?_ n hn)
    intro w hw key hkey
    exact (hkeys w hw key hkey).2.trans hbound

-- Sixteen documents whose ids have the 255 bytes an id may have do not fit one leaf.
theorem long_ids_overflow : ∃ db₀ db, Life.Created db₀ ∧
    (∀ key ∈ (sameLength 16 255).inserted, key.Accepted) ∧
    Writers.Reach [sameLength 16 255] db₀ db ∧ ∃ n ∈ db.nodes, ¬ ReadsBack n := by
  have hcreated : ∃ db, Database.openWithOptions none .empty false = .ok db := ⟨_, rfl⟩
  obtain ⟨db₀, hopen⟩ := hcreated
  have hnew : Life.Created db₀ := ⟨.empty, rfl, rfl, hopen⟩
  obtain ⟨db, hreach, n, hn, hsize⟩ := reach_sameLength (wf_created hnew).1
    (show 16 ≤ BTREE_ORDER by decide) (show 16 ≤ 255 by decide)
  refine ⟨db₀, db, hnew, ?_, hreach, n, hn, not_readsBack_of_encodedLen ?_⟩
  · intro key hkey
    obtain ⟨i, hi, rfl⟩ := mem_inserted_sameLength hkey
    exact (utf8ByteSize_numbered (by omega)).le
  · rw [hsize]
    decide

end JasonDb
