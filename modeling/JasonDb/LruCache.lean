import JasonDb.Basic
import JasonDb.Lib.HashMap

namespace JasonDb

open Lib

structure Node (α : Type) where
  pageNum : PageNum
  data : α
  prev : Option Nat
  next : Option Nat

structure LRUCacheInner (α : Type) where
  capacity : Nat
  cache : HashMap PageNum Nat
  nodes : List (Option (Node α))
  head : Option Nat
  tail : Option Nat
  freeList : List Nat
  dirty : HashMap PageNum Bool
  failedEvictions : Nat

namespace LRUCacheInner

variable {α : Type}

def new (capacity : Nat) : LRUCacheInner α :=
  ⟨if capacity = 0 then 1000 else capacity, ∅, [], none, none, [], ∅, 0⟩

def node? (c : LRUCacheInner α) (idx : Nat) : Option (Node α) := c.nodes[idx]?.join

-- `if let Some(node) = &mut self.nodes[idx]`, for an index that may be absent.
def updateNode (c : LRUCacheInner α) (idx : Option Nat) (f : Node α → Node α) : LRUCacheInner α :=
  match idx with
  | some idx => { c with nodes := c.nodes.modify idx (Option.map f) }
  | none => c

def allocateNode (c : LRUCacheInner α) (pageNum : PageNum) (data : α) : Nat × LRUCacheInner α :=
  let node : Node α := ⟨pageNum, data, none, none⟩
  match c.freeList.getLast? with
  | some idx =>
    (idx, { c with freeList := c.freeList.dropLast, nodes := c.nodes.set idx (some node) })
  | none => (c.nodes.length, { c with nodes := c.nodes ++ [some node] })

-- The node becomes the head; its own links are set first, then the old head's.
def addToFront (c : LRUCacheInner α) (idx : Nat) : LRUCacheInner α :=
  let head := c.head
  let c := c.updateNode (some idx) fun node => { node with prev := none, next := head }
  let c := c.updateNode head fun node => { node with prev := some idx }
  { c with head := some idx, tail := c.tail.or (some idx) }

def moveToFront (c : LRUCacheInner α) (idx : Nat) : LRUCacheInner α :=
  if some idx = c.head then c
  else
    match c.node? idx with
    | none => c
    | some node =>
      let c := c.updateNode node.prev fun n => { n with next := node.next }
      let c := c.updateNode node.next fun n => { n with prev := node.prev }
      let c := if some idx = c.tail then { c with tail := node.prev } else c
      c.addToFront idx

def removeNode (c : LRUCacheInner α) (idx : Nat) : LRUCacheInner α :=
  match c.node? idx with
  | none => c
  | some node =>
    let c := if some idx = c.head then { c with head := node.next } else c
    let c := if some idx = c.tail then { c with tail := node.prev } else c
    let c := c.updateNode node.prev fun n => { n with next := node.next }
    let c := c.updateNode node.next fun n => { n with prev := node.prev }
    { c with nodes := c.nodes.set idx none, freeList := c.freeList ++ [idx] }

def get (c : LRUCacheInner α) (pageNum : PageNum) : Option α × LRUCacheInner α :=
  match c.cache.get? pageNum with
  | some idx =>
    let c := c.moveToFront idx
    ((c.node? idx).map Node.data, c)
  | none => (none, c)

def getReadOnly (c : LRUCacheInner α) (pageNum : PageNum) : Option α :=
  match c.cache.get? pageNum with
  | some idx => (c.node? idx).map Node.data
  | none => none

def isDirty (c : LRUCacheInner α) (pageNum : PageNum) : Bool := (c.dirty.get? pageNum).getD false

-- The walk from the tail to the first clean page, which is evicted.
def evictFrom (c : LRUCacheInner α) : Nat → Option Nat → Option (LRUCacheInner α)
  | 0, _ => none
  | _, none => none
  | checks + 1, some idx =>
    match c.node? idx with
    | none => none
    | some node =>
      if c.isDirty node.pageNum then evictFrom c checks node.prev
      else
        let c := { c with cache := c.cache.erase node.pageNum }
        some { c.removeNode idx with failedEvictions := 0 }

def evict (c : LRUCacheInner α) : LRUCacheInner α :=
  match c.evictFrom c.cache.keys.length c.tail with
  | some c => c
  | none => { c with failedEvictions := c.failedEvictions + 1 }

def put (c : LRUCacheInner α) (pageNum : PageNum) (data : α) : LRUCacheInner α :=
  match c.cache.get? pageNum with
  | some idx =>
    let c := c.moveToFront idx
    c.updateNode (some idx) fun node => { node with data }
  | none =>
    let (idx, c) := c.allocateNode pageNum data
    let c := { c with cache := c.cache.insert pageNum idx }
    let c := c.addToFront idx
    if c.cache.keys.length > c.capacity then c.evict else c

def putDirtyAtomic (c : LRUCacheInner α) (pageNum : PageNum) (data : α) : LRUCacheInner α :=
  match c.cache.get? pageNum with
  | some idx =>
    let c := c.moveToFront idx
    let c := c.updateNode (some idx) fun node => { node with data }
    { c with dirty := c.dirty.insert pageNum true }
  | none =>
    let (idx, c) := c.allocateNode pageNum data
    let c := { c with cache := c.cache.insert pageNum idx }
    let c := c.addToFront idx
    let c := { c with dirty := c.dirty.insert pageNum true }
    if c.cache.keys.length > c.capacity then c.evict else c

def remove (c : LRUCacheInner α) (pageNum : PageNum) : LRUCacheInner α :=
  match c.cache.get? pageNum with
  | some idx =>
    let c := { c with cache := c.cache.erase pageNum }
    let c := c.removeNode idx
    { c with dirty := c.dirty.erase pageNum }
  | none => c

def markDirty (c : LRUCacheInner α) (pageNum : PageNum) : LRUCacheInner α :=
  { c with dirty := c.dirty.insert pageNum true }

def clearDirty (c : LRUCacheInner α) (pageNum : PageNum) : LRUCacheInner α :=
  { c with dirty := c.dirty.erase pageNum }

def getAllDirty (c : LRUCacheInner α) : List PageNum := c.dirty.keys

def clearAllDirty (c : LRUCacheInner α) : LRUCacheInner α := { c with dirty := ∅ }

end LRUCacheInner

end JasonDb
