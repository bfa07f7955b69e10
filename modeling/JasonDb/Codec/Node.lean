import JasonDb.Basic
import JasonDb.Lib.Buffer

namespace JasonDb.Codec

open Lib

section Write

def nodeTypeByte : NodeType → UInt8
  | .internalNode => 0
  | .leafNode => 1

def keyFields (key : String) : List Bytes := [leBytes 2 (utf8 key).length, utf8 key]

def entryFields (entry : LeafEntry) : List Bytes := keyFields entry.key ++ [leBytes 8 entry.value]

-- What is written for a node, field by field. Counts and lengths are cut to 16 bits.
def nodeFields (node : BTreeNode) : List Bytes :=
  [[nodeTypeByte node.nodeType], leBytes 2 node.numKeys, leBytes 8 node.parent] ++
    match node.nodeType with
    | .leafNode =>
      [leBytes 8 node.nextLeaf, leBytes 2 node.entries.length] ++ node.entries.flatMap entryFields
    | .internalNode =>
      [leBytes 2 node.children.length] ++ node.children.map (leBytes 8) ++ node.keys.flatMap keyFields

-- `serialize_node_into`, `none` where it writes out of range.
def serializeNodeInto (node : BTreeNode) (data : Bytes) : Option Bytes :=
  ((Cursor.mk data 0).writeAll (nodeFields node)).map Cursor.data

end Write

section Read

variable (pageNum : PageNum) (data : Bytes)

def outOfRange : Error := .panic "range end index out of range for slice"

-- `data[start..stop]`
def slice (start stop : Nat) : Except Error Bytes :=
  match range? data start stop with
  | some field => .ok field
  | none => .error outOfRange

def readNat (offset width : Nat) : Except Error Nat := do
  let field ← slice data offset (offset + width)
  .ok (ofLeBytes field)

def corrupt (details : String) : Error := .corruption "btree" pageNum details

-- `if offset + count > data.len() { return Err(..) }`
def demand (offset count : Nat) (what : String) : Except Error Unit :=
  if offset + count > data.length then .error (corrupt pageNum s!"insufficient data for {what}")
  else .ok ()

-- What the checks of a key are called in a leaf and in an internal node.
structure KeyNames where
  keyLen : String
  label : String
  key : String

def entryNames : KeyNames := ⟨"entry keyLen", "keyLen", "entry key"⟩

def separatorNames : KeyNames := ⟨"key keyLen", "key keyLen", "key"⟩

def readKey (names : KeyNames) (offset : Nat) : Except Error (String × Nat) := do
  demand pageNum data offset 2 names.keyLen
  let keyLen ← readNat data offset 2
  let offset := offset + 2
  if keyLen > 1000 then
    let label := names.label
    .error (corrupt pageNum s!"{label}={keyLen} is unreasonably large")
  else do
    demand pageNum data offset keyLen names.key
    let bytes ← slice data offset (offset + keyLen)
    match fromUtf8 bytes with
    | some key => .ok (key, offset + keyLen)
    | none => .error .invalidDocument

def readEntries : Nat → Nat → Except Error (List LeafEntry × Nat)
  | 0, offset => .ok ([], offset)
  | count + 1, offset => do
    let (key, offset) ← readKey pageNum data entryNames offset
    demand pageNum data offset 8 "entry value"
    let value ← readNat data offset 8
    let (rest, offset) ← readEntries count (offset + 8)
    .ok (⟨key, value⟩ :: rest, offset)

def readChildren : Nat → Nat → Except Error (List PageNum × Nat)
  | 0, offset => .ok ([], offset)
  | count + 1, offset => do
    demand pageNum data offset 8 "child"
    let child ← readNat data offset 8
    let (rest, offset) ← readChildren count (offset + 8)
    .ok (child :: rest, offset)

def readKeys : Nat → Nat → Except Error (List String × Nat)
  | 0, offset => .ok ([], offset)
  | count + 1, offset => do
    let (key, offset) ← readKey pageNum data separatorNames offset
    let (rest, offset) ← readKeys count offset
    .ok (key :: rest, offset)

def nodeTypeOf (byte : Nat) : Except Error NodeType :=
  if byte = 0 then .ok .internalNode
  else if byte = 1 then .ok .leafNode
  else .error (.other s!"invalid node type: {byte}")

def readLeaf (numKeys : Nat) (parent : PageNum) (offset : Nat) : Except Error BTreeNode := do
  demand pageNum data offset 8 "nextLeaf"
  let nextLeaf ← readNat data offset 8
  let offset := offset + 8
  demand pageNum data offset 2 "numEntries"
  let numEntries ← readNat data offset 2
  let offset := offset + 2
  if numEntries > 1000 then
    .error (corrupt pageNum s!"numEntries={numEntries} is unreasonably large")
  else do
    let (entries, _) ← readEntries pageNum data numEntries offset
    .ok ⟨pageNum, .leafNode, numKeys, parent, entries, nextLeaf, [], []⟩

def readInternal (numKeys : Nat) (parent : PageNum) (offset : Nat) : Except Error BTreeNode := do
  demand pageNum data offset 2 "numChildren"
  let numChildren ← readNat data offset 2
  let offset := offset + 2
  if numChildren > 1000 then
    .error (corrupt pageNum s!"numChildren={numChildren} is unreasonably large")
  else do
    let (children, offset) ← readChildren pageNum data numChildren offset
    let (keys, _) ← readKeys pageNum data numKeys offset
    if numKeys > 0 ∧ children.length ≠ numKeys + 1 then
      let count := children.length
      let expected := numKeys + 1
      .error (corrupt pageNum s!"has {numKeys} keys but {count} children (expected {expected})")
    else .ok ⟨pageNum, .internalNode, numKeys, parent, [], 0, keys, children⟩

-- `deserialize_node`. An index out of range is a panic.
def deserializeNode : Except Error BTreeNode :=
  if data.length < 11 then
    let size := data.length
    .error (corrupt pageNum s!"buffer too small: {size} bytes")
  else do
    let byte ← readNat data 0 1
    let nodeType ← nodeTypeOf byte
    let numKeys ← readNat data 1 2
    let parent ← readNat data 3 8
    match nodeType with
    | .leafNode => readLeaf pageNum data numKeys parent 11
    | .internalNode => readInternal pageNum data numKeys parent 11

end Read

section RoundTrip

variable {pageNum : PageNum} {data front back : Bytes} {offset : Nat}

theorem slice_middle (field : Bytes) {stop : Nat} (hoffset : offset = front.length)
    (hstop : stop = offset + field.length) : slice (front ++ (field ++ back)) offset stop = .ok field := by
  unfold slice
  rw [range?_middle front field back hoffset (by rw [hstop, hoffset])]

theorem readNat_middle {width n : Nat} (hoffset : offset = front.length) (hn : n < 256 ^ width) :
    readNat (front ++ (leBytes width n ++ back)) offset width = .ok n := by
  unfold readNat
  rw [slice_middle (leBytes width n) hoffset (by rw [length_leBytes])]
  simp only [bind, Except.bind, ofLeBytes_leBytes, Nat.mod_eq_of_lt hn]

theorem demand_ok {count : Nat} {what : String} (h : offset + count ≤ data.length) :
    demand pageNum data offset count what = .ok () := if_neg (by omega)

theorem readKey_middle (names : KeyNames) {key : String} (hkey : key.utf8ByteSize ≤ 1000)
    (hoffset : offset = front.length) :
    readKey pageNum (front ++ ((keyFields key).flatten ++ back)) names offset =
      .ok (key, offset + (keyFields key).flatten.length) := by
  have hfields : (keyFields key).flatten = leBytes 2 (utf8 key).length ++ utf8 key := by
    simp [keyFields]
  have hlen : (front ++ ((keyFields key).flatten ++ back)).length =
      offset + 2 + key.utf8ByteSize + back.length := by
    simp only [hfields, List.length_append, length_leBytes, length_utf8]
    omega
  have hcount : readNat (front ++ ((keyFields key).flatten ++ back)) offset 2 = .ok key.utf8ByteSize := by
    rw [hfields, List.append_assoc]
    exact readNat_middle hoffset (by rw [length_utf8]; omega)
  have hbytes : slice (front ++ ((keyFields key).flatten ++ back)) (offset + 2)
      (offset + 2 + key.utf8ByteSize) = .ok (utf8 key) := by
    rw [hfields, List.append_assoc, ← List.append_assoc]
    refine slice_middle (utf8 key) ?_ (by rw [length_utf8])
    rw [List.length_append, length_leBytes, hoffset]
  have hend : offset + 2 + key.utf8ByteSize = offset + (keyFields key).flatten.length := by
    rw [hfields, List.length_append, length_leBytes, length_utf8]
    omega
  unfold readKey
  rw [demand_ok (by omega), hcount]
  simp only [bind, Except.bind]
  rw [if_neg (by omega), demand_ok (by omega), hbytes]
  simp only [fromUtf8_utf8, hend]

theorem readEntries_middle {entries : List LeafEntry}
    (hkeys : ∀ e ∈ entries, e.key.utf8ByteSize ≤ 1000) (hvalues : ∀ e ∈ entries, e.value < 2 ^ 64)
    (hoffset : offset = front.length) :
    readEntries pageNum (front ++ ((entries.flatMap entryFields).flatten ++ back)) entries.length offset =
      .ok (entries, offset + (entries.flatMap entryFields).flatten.length) := by
  induction entries generalizing front offset with
  | nil => simp [readEntries]
  | cons e rest ih =>
    have hfields : ((e :: rest).flatMap entryFields).flatten =
        (keyFields e.key).flatten ++ (leBytes 8 e.value ++ (rest.flatMap entryFields).flatten) := by
      simp [entryFields]
    -- The entry, then the others behind it.
    let value := offset + (keyFields e.key).flatten.length
    have hkey : readKey pageNum (front ++ (((e :: rest).flatMap entryFields).flatten ++ back))
        entryNames offset = .ok (e.key, value) := by
      rw [hfields, List.append_assoc]
      exact readKey_middle entryNames (hkeys e List.mem_cons_self) hoffset
    have hfront : value = (front ++ (keyFields e.key).flatten).length := by
      rw [List.length_append, ← hoffset]
    have hvalue : readNat (front ++ (((e :: rest).flatMap entryFields).flatten ++ back)) value 8 =
        .ok e.value := by
      rw [hfields, List.append_assoc, List.append_assoc, ← List.append_assoc]
      exact readNat_middle hfront (hvalues e List.mem_cons_self)
    have hlast : value + 8 = (front ++ ((keyFields e.key).flatten ++ leBytes 8 e.value)).length := by
      rw [← List.append_assoc, List.length_append, ← hfront, length_leBytes]
    have hrest := ih (fun f hf => hkeys f (List.mem_cons_of_mem e hf))
      (fun f hf => hvalues f (List.mem_cons_of_mem e hf)) hlast
    have hsplit : front ++ (((e :: rest).flatMap entryFields).flatten ++ back) =
        front ++ ((keyFields e.key).flatten ++ leBytes 8 e.value) ++
          ((rest.flatMap entryFields).flatten ++ back) := by
      rw [hfields]
      simp only [List.append_assoc]
    rw [← hsplit] at hrest
    have hend : value + 8 ≤ (front ++ (((e :: rest).flatMap entryFields).flatten ++ back)).length := by
      rw [hsplit, List.length_append, ← hlast]
      omega
    rw [List.length_cons, readEntries, hkey]
    simp only [bind, Except.bind]
    rw [demand_ok hend, hvalue, hrest]
    simp only [hfields, List.length_append, length_leBytes, value]
    congr 2
    omega

theorem readChildren_middle {children : List PageNum} (hchildren : ∀ child ∈ children, child < 2 ^ 64)
    (hoffset : offset = front.length) :
    readChildren pageNum (front ++ ((children.map (leBytes 8)).flatten ++ back)) children.length offset =
      .ok (children, offset + (children.map (leBytes 8)).flatten.length) := by
  induction children generalizing front offset with
  | nil => simp [readChildren]
  | cons child rest ih =>
    have hfields : ((child :: rest).map (leBytes 8)).flatten =
        leBytes 8 child ++ (rest.map (leBytes 8)).flatten := by
      simp
    have hchild : readNat (front ++ (((child :: rest).map (leBytes 8)).flatten ++ back)) offset 8 =
        .ok child := by
      rw [hfields, List.append_assoc]
      exact readNat_middle hoffset (hchildren child List.mem_cons_self)
    have hnext : offset + 8 = (front ++ leBytes 8 child).length := by
      rw [List.length_append, length_leBytes, hoffset]
    have hsplit : front ++ (((child :: rest).map (leBytes 8)).flatten ++ back) =
        front ++ leBytes 8 child ++ ((rest.map (leBytes 8)).flatten ++ back) := by
      rw [hfields]
      simp only [List.append_assoc]
    have hrest := ih (fun c hc => hchildren c (List.mem_cons_of_mem child hc)) hnext
    rw [← hsplit] at hrest
    have hend : offset + 8 ≤ (front ++ (((child :: rest).map (leBytes 8)).flatten ++ back)).length := by
      rw [hsplit, List.length_append, ← hnext]
      omega
    rw [List.length_cons, readChildren, demand_ok hend]
    simp only [bind, Except.bind]
    rw [hchild, hrest]
    simp only [hfields, List.length_append, length_leBytes]
    congr 2
    omega

theorem readKeys_middle {keys : List String} (hkeys : ∀ key ∈ keys, key.utf8ByteSize ≤ 1000)
    (hoffset : offset = front.length) :
    readKeys pageNum (front ++ ((keys.flatMap keyFields).flatten ++ back)) keys.length offset =
      .ok (keys, offset + (keys.flatMap keyFields).flatten.length) := by
  induction keys generalizing front offset with
  | nil => simp [readKeys]
  | cons key rest ih =>
    have hfields : ((key :: rest).flatMap keyFields).flatten =
        (keyFields key).flatten ++ (rest.flatMap keyFields).flatten := by
      simp
    have hkey : readKey pageNum (front ++ (((key :: rest).flatMap keyFields).flatten ++ back))
        separatorNames offset = .ok (key, offset + (keyFields key).flatten.length) := by
      rw [hfields, List.append_assoc]
      exact readKey_middle separatorNames (hkeys key List.mem_cons_self) hoffset
    have hnext : offset + (keyFields key).flatten.length = (front ++ (keyFields key).flatten).length := by
      rw [List.length_append, hoffset]
    have hsplit : front ++ (((key :: rest).flatMap keyFields).flatten ++ back) =
        front ++ (keyFields key).flatten ++ ((rest.flatMap keyFields).flatten ++ back) := by
      rw [hfields]
      simp only [List.append_assoc]
    have hrest := ih (fun k hk => hkeys k (List.mem_cons_of_mem key hk)) hnext
    rw [← hsplit] at hrest
    rw [List.length_cons, readKeys, hkey]
    simp only [bind, Except.bind]
    rw [hrest]
    simp only [hfields, List.length_append]
    congr 2
    omega

-- A node with the fields of its kind only, whose numbers fit their width and whose counts and
-- keys the decoder admits.
structure Encodable (node : BTreeNode) : Prop where
  numKeys : node.numKeys < 2 ^ 16
  parent : node.parent < 2 ^ 64
  nextLeaf : node.nextLeaf < 2 ^ 64
  values : ∀ e ∈ node.entries, e.value < 2 ^ 64
  pages : ∀ child ∈ node.children, child < 2 ^ 64
  entries : node.entries.length ≤ 1000
  children : node.children.length ≤ 1000
  entryKeys : ∀ e ∈ node.entries, e.key.utf8ByteSize ≤ 1000
  keys : ∀ key ∈ node.keys, key.utf8ByteSize ≤ 1000
  leaf : node.nodeType = .leafNode → node.keys = [] ∧ node.children = []
  internal : node.nodeType = .internalNode → node.entries = [] ∧ node.nextLeaf = 0 ∧
    node.numKeys = node.keys.length ∧ (node.keys ≠ [] → node.children.length = node.keys.length + 1)

-- How many bytes a node takes.
def encodedLen (node : BTreeNode) : Nat := (nodeFields node).flatten.length

theorem serializeNodeInto_eq (node : BTreeNode) (data : Bytes) :
    serializeNodeInto node data = if encodedLen node ≤ data.length then
      some ((nodeFields node).flatten ++ data.drop (encodedLen node)) else none := by
  unfold serializeNodeInto encodedLen
  rw [Cursor.writeAll_start]
  split
  · rfl
  · rfl

-- The fields both kinds of node begin with.
theorem deserializeNode_head {nodeType : NodeType} {numKeys : Nat} {parent : PageNum} (body : Bytes)
    (hkeys : numKeys < 2 ^ 16) (hparent : parent < 2 ^ 64) :
    deserializeNode pageNum
        ([nodeTypeByte nodeType] ++ (leBytes 2 numKeys ++ (leBytes 8 parent ++ body))) =
      match nodeType with
      | .leafNode => readLeaf pageNum
          ([nodeTypeByte nodeType] ++ (leBytes 2 numKeys ++ (leBytes 8 parent ++ body))) numKeys parent 11
      | .internalNode => readInternal pageNum
          ([nodeTypeByte nodeType] ++ (leBytes 2 numKeys ++ (leBytes 8 parent ++ body))) numKeys parent 11 := by
  have hlen : ([nodeTypeByte nodeType] ++ (leBytes 2 numKeys ++ (leBytes 8 parent ++ body))).length =
      11 + body.length := by
    simp only [List.length_append, length_leBytes, List.length_singleton]
    omega
  have hbyte : readNat ([nodeTypeByte nodeType] ++ (leBytes 2 numKeys ++ (leBytes 8 parent ++ body))) 0 1 =
      .ok (nodeTypeByte nodeType).toNat := by
    have hone : leBytes 1 (nodeTypeByte nodeType).toNat = [nodeTypeByte nodeType] := by
      simp [leBytes]
    rw [← hone, ← List.nil_append (leBytes 1 _ ++ _)]
    exact readNat_middle rfl (nodeTypeByte nodeType).toNat_lt
  have hcount : readNat ([nodeTypeByte nodeType] ++ (leBytes 2 numKeys ++ (leBytes 8 parent ++ body))) 1 2 =
      .ok numKeys := readNat_middle rfl hkeys
  have hpage : readNat ([nodeTypeByte nodeType] ++ (leBytes 2 numKeys ++ (leBytes 8 parent ++ body))) 3 8 =
      .ok parent := by
    rw [← List.append_assoc]
    refine readNat_middle ?_ hparent
    rw [List.length_append, length_leBytes]
    rfl
  have hkind : nodeTypeOf (nodeTypeByte nodeType).toNat = .ok nodeType := by
    cases nodeType with
    | internalNode => rfl
    | leafNode => rfl
  unfold deserializeNode
  rw [if_neg (by omega), hbyte]
  simp only [bind, Except.bind]
  rw [hkind]
  simp only
  rw [hcount, hpage]

theorem readLeaf_middle {entries : List LeafEntry} {nextLeaf parent : PageNum} (numKeys : Nat)
    (hnext : nextLeaf < 2 ^ 64) (hcount : entries.length ≤ 1000)
    (hkeys : ∀ e ∈ entries, e.key.utf8ByteSize ≤ 1000) (hvalues : ∀ e ∈ entries, e.value < 2 ^ 64)
    (hoffset : offset = front.length) :
    readLeaf pageNum (front ++ (leBytes 8 nextLeaf ++ (leBytes 2 entries.length ++
        ((entries.flatMap entryFields).flatten ++ back)))) numKeys parent offset =
      .ok ⟨pageNum, .leafNode, numKeys, parent, entries, nextLeaf, [], []⟩ := by
  let rest := leBytes 2 entries.length ++ ((entries.flatMap entryFields).flatten ++ back)
  have hlen : (front ++ (leBytes 8 nextLeaf ++ rest)).length =
      offset + 10 + ((entries.flatMap entryFields).flatten ++ back).length := by
    simp only [rest, List.length_append, length_leBytes]
    omega
  have hleaf : readNat (front ++ (leBytes 8 nextLeaf ++ rest)) offset 8 = .ok nextLeaf :=
    readNat_middle hoffset hnext
  have hfront : offset + 8 = (front ++ leBytes 8 nextLeaf).length := by
    rw [List.length_append, length_leBytes, hoffset]
  have hnum : readNat (front ++ (leBytes 8 nextLeaf ++ rest)) (offset + 8) 2 = .ok entries.length := by
    rw [← List.append_assoc]
    exact readNat_middle hfront (by omega)
  have hfront' : offset + 8 + 2 = (front ++ leBytes 8 nextLeaf ++ leBytes 2 entries.length).length := by
    rw [List.length_append, length_leBytes, ← hfront]
  have hentries : readEntries pageNum (front ++ (leBytes 8 nextLeaf ++ rest)) entries.length
      (offset + 8 + 2) = .ok (entries, offset + 8 + 2 + (entries.flatMap entryFields).flatten.length) := by
    rw [← List.append_assoc, ← List.append_assoc]
    exact readEntries_middle hkeys hvalues hfront'
  show readLeaf pageNum (front ++ (leBytes 8 nextLeaf ++ rest)) numKeys parent offset = _
  unfold readLeaf
  rw [demand_ok (by omega), hleaf]
  simp only [bind, Except.bind]
  rw [demand_ok (by omega), hnum]
  simp only
  rw [if_neg (by omega), hentries]

theorem readInternal_middle {children : List PageNum} {keys : List String} {parent : PageNum}
    (hcount : children.length ≤ 1000) (hpages : ∀ child ∈ children, child < 2 ^ 64)
    (hkeys : ∀ key ∈ keys, key.utf8ByteSize ≤ 1000)
    (hboth : keys ≠ [] → children.length = keys.length + 1) (hoffset : offset = front.length) :
    readInternal pageNum (front ++ (leBytes 2 children.length ++ ((children.map (leBytes 8)).flatten ++
        ((keys.flatMap keyFields).flatten ++ back)))) keys.length parent offset =
      .ok ⟨pageNum, .internalNode, keys.length, parent, [], 0, keys, children⟩ := by
  let rest := (children.map (leBytes 8)).flatten ++ ((keys.flatMap keyFields).flatten ++ back)
  have hlen : offset + 2 ≤ (front ++ (leBytes 2 children.length ++ rest)).length := by
    simp only [List.length_append, length_leBytes]
    omega
  have hnum : readNat (front ++ (leBytes 2 children.length ++ rest)) offset 2 = .ok children.length :=
    readNat_middle hoffset (by omega)
  have hfront : offset + 2 = (front ++ leBytes 2 children.length).length := by
    rw [List.length_append, length_leBytes, hoffset]
  have hchildren : readChildren pageNum (front ++ (leBytes 2 children.length ++ rest)) children.length
      (offset + 2) = .ok (children, offset + 2 + (children.map (leBytes 8)).flatten.length) := by
    rw [← List.append_assoc]
    exact readChildren_middle hpages hfront
  have hfront' : offset + 2 + (children.map (leBytes 8)).flatten.length =
      (front ++ leBytes 2 children.length ++ (children.map (leBytes 8)).flatten).length := by
    rw [List.length_append, ← hfront]
  have hkeysRead : readKeys pageNum (front ++ (leBytes 2 children.length ++ rest)) keys.length
      (offset + 2 + (children.map (leBytes 8)).flatten.length) =
      .ok (keys, offset + 2 + (children.map (leBytes 8)).flatten.length +
        (keys.flatMap keyFields).flatten.length) := by
    rw [← List.append_assoc, ← List.append_assoc]
    exact readKeys_middle hkeys hfront'
  have hconsistent : ¬ (keys.length > 0 ∧ children.length ≠ keys.length + 1) := by
    rintro ⟨hpos, hne⟩
    exact hne (hboth (List.length_pos_iff.mp hpos))
  show readInternal pageNum (front ++ (leBytes 2 children.length ++ rest)) keys.length parent offset = _
  unfold readInternal
  rw [demand_ok hlen, hnum]
  simp only [bind, Except.bind]
  rw [if_neg (by omega), hchildren]
  simp only
  rw [hkeysRead]
  simp only
  rw [if_neg hconsistent]

-- Whatever stands behind the fields of the node is not looked at.
theorem deserializeNode_fields {node : BTreeNode} (h : Encodable node) (back : Bytes) :
    deserializeNode node.pageNum ((nodeFields node).flatten ++ back) = .ok node := by
  obtain ⟨pageNum, nodeType, numKeys, parent, entries, nextLeaf, keys, children⟩ := node
  cases nodeType with
  | leafNode =>
    obtain ⟨hkeys, hchildren⟩ := h.leaf rfl
    dsimp only at hkeys hchildren
    subst hkeys hchildren
    have hfields : (nodeFields ⟨pageNum, .leafNode, numKeys, parent, entries, nextLeaf, [], []⟩).flatten ++
        back = [nodeTypeByte .leafNode] ++ (leBytes 2 numKeys ++ (leBytes 8 parent ++
          (leBytes 8 nextLeaf ++ (leBytes 2 entries.length ++
            ((entries.flatMap entryFields).flatten ++ back))))) := by
      simp [nodeFields]
    rw [hfields, deserializeNode_head _ h.numKeys h.parent]
    dsimp only
    rw [← List.append_assoc (leBytes 2 numKeys), ← List.append_assoc [nodeTypeByte .leafNode]]
    refine readLeaf_middle numKeys h.nextLeaf h.entries h.entryKeys h.values ?_
    simp
  | internalNode =>
    obtain ⟨hentries, hleaf, hnum, hboth⟩ := h.internal rfl
    dsimp only at hentries hleaf hnum hboth
    subst hentries hleaf hnum
    have hfields : (nodeFields ⟨pageNum, .internalNode, keys.length, parent, [], 0, keys, children⟩).flatten ++
        back = [nodeTypeByte .internalNode] ++ (leBytes 2 keys.length ++ (leBytes 8 parent ++
          (leBytes 2 children.length ++ ((children.map (leBytes 8)).flatten ++
            ((keys.flatMap keyFields).flatten ++ back))))) := by
      simp [nodeFields]
    rw [hfields, deserializeNode_head _ h.numKeys h.parent]
    dsimp only
    rw [← List.append_assoc (leBytes 2 keys.length), ← List.append_assoc [nodeTypeByte .internalNode]]
    refine readInternal_middle h.children h.pages h.keys hboth ?_
    simp

theorem deserializeNode_padded {node : BTreeNode} (h : Encodable node) {page : Bytes} (count : Nat)
    (hpage : page = (nodeFields node).flatten ++ List.replicate count 0) :
    deserializeNode node.pageNum page = .ok node := by
  rw [hpage]
  exact deserializeNode_fields h _

-- An internal node without keys.
theorem encodable_internal {pageNum : PageNum} {children : List PageNum}
    (hpages : ∀ child ∈ children, child < 2 ^ 64) (hcount : children.length ≤ 1000) :
    Encodable { BTreeNode.newInternal pageNum with children } := by
  refine ⟨Nat.two_pow_pos 16, Nat.two_pow_pos 64, Nat.two_pow_pos 64, ?_, hpages, Nat.zero_le _, hcount,
    ?_, ?_, ?_, ?_⟩
  · exact fun e he => absurd he List.not_mem_nil
  · exact fun e he => absurd he List.not_mem_nil
  · exact fun key hkey => absurd hkey List.not_mem_nil
  · exact fun h => by cases h
  · exact fun _ => ⟨rfl, rfl, rfl, fun h => absurd rfl h⟩

-- A page of zeros is an internal node without children.
theorem deserializeNode_zeroPage (pageNum : PageNum) :
    deserializeNode pageNum zeroPage = .ok (.newInternal pageNum) := by
  have henc : Encodable (.newInternal pageNum) :=
    encodable_internal (fun p (hp : p ∈ []) => absurd hp List.not_mem_nil) (Nat.zero_le _)
  refine deserializeNode_padded henc 4083 ?_
  have hfields : (nodeFields (.newInternal pageNum)).flatten = List.replicate 13 0 := by
    change (nodeFields (.newInternal 0)).flatten = List.replicate 13 0
    decide
  rw [hfields, List.replicate_append_replicate]
  rfl

end RoundTrip

-- A node whose bytes fit a page is read back from it, whatever the page held before.
theorem deserializeNode_serializeNodeInto {node : BTreeNode} (h : Encodable node)
    (hfits : encodedLen node ≤ PAGE_SIZE) {data : Bytes} (hdata : data.length = PAGE_SIZE) :
    ∃ page, serializeNodeInto node data = some page ∧ page.length = PAGE_SIZE ∧
      deserializeNode node.pageNum page = .ok node := by
  refine ⟨(nodeFields node).flatten ++ data.drop (encodedLen node), ?_, ?_, deserializeNode_fields h _⟩
  · rw [serializeNodeInto_eq, if_pos (by omega)]
  · rw [List.length_append, List.length_drop]
    unfold encodedLen at hfits ⊢
    omega

def twoEntries : BTreeNode := ⟨3, .leafNode, 2, 5, [⟨"a", 7⟩, ⟨"bé", 8⟩], 9, [], []⟩

def twoChildren : BTreeNode := ⟨5, .internalNode, 1, 0, [], 0, ["bé"], [3, 9]⟩

-- A leaf and the node above it, over pages that are full of other bytes.
theorem deserializeNode_serializeNodeInto_pair :
    (∃ page, serializeNodeInto twoEntries (List.replicate PAGE_SIZE 255) = some page ∧
      page.length = PAGE_SIZE ∧ deserializeNode 3 page = .ok twoEntries) ∧
    ∃ page, serializeNodeInto twoChildren (List.replicate PAGE_SIZE 255) = some page ∧
      page.length = PAGE_SIZE ∧ deserializeNode 5 page = .ok twoChildren := by
  have hshort : "a".utf8ByteSize ≤ 1000 := by decide
  have hlong : "bé".utf8ByteSize ≤ 1000 := by decide
  have hleaf : Encodable twoEntries := by
    refine ⟨by decide, by decide, by decide, ?_, ?_, by decide, by decide, ?_, ?_, fun _ => ⟨rfl, rfl⟩, ?_⟩
    all_goals simp [twoEntries, hshort, hlong]
  have hnode : Encodable twoChildren := by
    refine ⟨by decide, by decide, by decide, ?_, ?_, by decide, by decide, ?_, ?_, ?_, fun _ => ⟨rfl, rfl, rfl, ?_⟩⟩
    all_goals simp [twoChildren, hlong]
  exact ⟨deserializeNode_serializeNodeInto hleaf (by decide) List.length_replicate,
    deserializeNode_serializeNodeInto hnode (by decide) List.length_replicate⟩

end JasonDb.Codec
