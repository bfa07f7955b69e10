import JasonDb.Codec.RoundTrip
import JasonDb.DocumentStore.Pages

namespace JasonDb

open Lib

-- The text of a value.
def Json.bytes (data : Json) : Bytes := utf8 data.render

-- What a page is written as. The first page of the document it belongs to has `start` bytes of
-- the text. The header and the pages of JSON have other writers.
def Page.bytes (start : Nat) : Page → Option Bytes
  | .zero => some zeroPage
  | .node n => Codec.serializeNodeInto n zeroPage
  | .doc d => some (Codec.firstPageOf ⟨d.id, d.data.bytes, d.xmin, d.xmax⟩ d.overflow)
  | .overflow o =>
    let rest := o.data.bytes.drop (start + o.index * MAX_OVERFLOW_DATA)
    some (Codec.overflowPageOf (rest.take MAX_OVERFLOW_DATA) o.next)
  | .metadata _ => none
  | .header _ => none
  | .postings _ => none

section Node

variable {start : Nat} {bytes : Bytes}

-- A node that fits its page is read from the bytes as from the page.
theorem deserializeNode_node {node : BTreeNode} (h : Codec.Encodable node)
    (hfits : Codec.encodedLen node ≤ PAGE_SIZE) (start : Nat) (pageNum : PageNum) :
    ∃ bytes, (Page.node node).bytes start = some bytes ∧
      Codec.deserializeNode pageNum bytes = deserializeNode pageNum (.node node) := by
  have henc : Codec.Encodable { node with pageNum } := { h with }
  refine ⟨(Codec.nodeFields node).flatten ++ zeroPage.drop (Codec.encodedLen node), ?_,
    Codec.deserializeNode_fields henc _⟩
  rw [Page.bytes, Codec.serializeNodeInto_eq]
  exact if_pos (hfits.trans_eq (length_filledPage 0).symm)

theorem deserializeNode_zero (hbytes : Page.zero.bytes start = some bytes) (pageNum : PageNum) :
    Codec.deserializeNode pageNum bytes = deserializeNode pageNum .zero := by
  obtain rfl := Option.some.inj hbytes
  exact Codec.deserializeNode_zeroPage pageNum

end Node

section Document

variable {ℓ : Type} {db : Database} {id : String} {d : Placement} {fetch : PageNum → Option Bytes}

theorem length_bytes (data : Json) : data.bytes.length = data.byteLen := length_utf8 _

-- The document a version is the bytes of.
def Placement.version (d : Placement) (id : String) : Codec.VersionedDocument :=
  ⟨id, (Json.obj d.fields).bytes, d.xmin, 0⟩

theorem overflowPages_version (d : Placement) (id : String) :
    Codec.overflowPages (d.version id) = overflowCount id (.obj d.fields) := by
  unfold Codec.overflowPages Codec.chunkCount overflowCount Placement.version
  rw [length_bytes]

-- The bytes at these pages are those of what the pages hold.
def Rendered (h : Heap PageNum Page) (start : Nat) (pages : List PageNum) (fetch : PageNum → Option Bytes) :
    Prop :=
  ∀ p ∈ pages, fetch p = (h.content p).bind (Page.bytes start)

theorem Chain.bytes {h : Heap PageNum Page} {data : Json} {index start : Nat} {page : PageNum}
    {ps : List PageNum} (hc : Chain h data index page ps) (hr : Rendered h start ps fetch)
    (hcount : Codec.chunkCount (data.bytes.drop (start + index * MAX_OVERFLOW_DATA)).length = ps.length) :
    page = ps.headD 0 ∧ Codec.Chain fetch ps (data.bytes.drop (start + index * MAX_OVERFLOW_DATA)) := by
  induction ps generalizing index page with
  | nil =>
    refine ⟨hc, ?_⟩
    have hempty : data.bytes.drop (start + index * MAX_OVERFLOW_DATA) = [] := by
      by_contra hne
      have hpos := Codec.chunkCount_pos hne
      rw [hcount] at hpos
      exact Nat.succ_ne_zero _ hpos.symm
    rw [hempty]
    exact .nil
  | cons p rest ih =>
    obtain ⟨hp, rfl, next, hcontent, hrest⟩ := hc
    have hne : data.bytes.drop (start + index * MAX_OVERFLOW_DATA) ≠ [] := by
      intro hempty
      rw [hempty] at hcount
      exact Nat.succ_ne_zero _ (hcount.symm.trans (by decide))
    have hdrop : (data.bytes.drop (start + index * MAX_OVERFLOW_DATA)).drop MAX_OVERFLOW_DATA =
        data.bytes.drop (start + (index + 1) * MAX_OVERFLOW_DATA) := by
      rw [List.drop_drop, Nat.succ_mul, Nat.add_assoc]
    rw [Codec.chunkCount_pos hne, hdrop, List.length_cons, Nat.succ_inj] at hcount
    obtain ⟨rfl, hchain⟩ := ih hrest (fun q hq => hr q (List.mem_cons_of_mem _ hq)) hcount
    have hpage := hr page List.mem_cons_self
    rw [hcontent] at hpage
    refine ⟨rfl, .cons hne hp hpage ?_⟩
    rw [hdrop]
    exact hchain

-- The bytes of the pages of a version are those of the document.
theorem Placement.Stored.bytes (h : d.Stored id db.heap)
    (hr : Rendered db.heap (firstPageCapacity id) d.pages fetch) :
    Codec.Stored fetch (d.version id) d.page d.rest := by
  obtain ⟨overflow, hfirst, hchain⟩ := h.first
  have hcount : Codec.chunkCount ((Json.obj d.fields).bytes.drop
      (firstPageCapacity id + 0 * MAX_OVERFLOW_DATA)).length = d.rest.length := by
    rw [h.length, ← overflowPages_version, Nat.zero_mul, Nat.add_zero, List.length_drop]
    rfl
  obtain ⟨rfl, hrest⟩ := hchain.bytes (fun p hp => hr p (List.mem_cons_of_mem _ hp)) hcount
  rw [Nat.zero_mul, Nat.add_zero] at hrest
  refine ⟨?_, hrest⟩
  rw [hr d.page List.mem_cons_self, hfirst]
  rfl

-- Both writers take the same pages, and leave the same in them.
theorem exec_writeDocument_bytes {s : Codec.PageStore} (hwf : db.pager.WF) (hopen : s.readOnly = false)
    (hnext : ∀ count, db.pager.allocator.next count = s.next count) (hid : id.utf8ByteSize ≤ 255)
    {fields : Json.Map} (hfit : overflowCount id (.obj fields) ≤ MAX_OVERFLOW_CHAIN_LENGTH)
    (xmin : TransactionID) (l : ℓ) :
    ∃ (d : Placement) (pages : HashMap PageNum Page) (db' : Database) (content : Bytes)
        (w' : HashMap PageNum Bytes) (s' : Codec.PageStore),
      Proc.exec (writeVersionedDocument id (.obj fields) xmin 0 ∅) l db = (.ok (d.page, pages), l, db') ∧
      Proc.exec (Codec.writeVersionedDocument id (Json.obj fields).bytes xmin 0) ∅ s =
        (.ok (d.page, content), w', s') ∧
      d.xmin = xmin ∧ d.fields = fields ∧ d.Stored id db'.heap ∧
      s.next (overflowCount id (.obj fields) + 1) = d.pages ∧
      (∀ count, db'.pager.allocator.next count = s'.next count) ∧
      (∀ p ∉ d.pages, pages.get? p = none ∧ w'.get? p = none) ∧
      Rendered db'.heap (firstPageCapacity id) d.pages w'.get? ∧
      Rendered db'.heap (firstPageCapacity id) d.pages s'.view := by
  obtain ⟨d, pages, db', he, rfl, rfl, hd, hedit, hnoted, -, htook⟩ := exec_writeDocument hwf hid hfit xmin l
  have hpages : s.next (overflowCount id (.obj d.fields) + 1) = d.pages := by
    have htaken := htook 0
    rw [hnext] at htaken
    rw [← hd.length]
    exact htaken.trans (List.append_nil d.pages)
  have hpages' := hpages
  rw [← overflowPages_version] at hpages'
  have hzero : 0 ∉ d.rest := fun hmem => (hedit.heap.live 0 (List.mem_cons_of_mem _ hmem)).1 rfl
  obtain ⟨w', s', he', hd', hwrote, htook'⟩ :=
    Codec.exec_writeVersionedDocument hid hopen hpages' hd.nodup hzero ∅
  have hbytes : Codec.Stored (fun p => (db'.heap.content p).bind (Page.bytes (firstPageCapacity id)))
      (d.version id) d.page d.rest := hd.bytes fun _ _ => rfl
  refine ⟨d, pages, db', _, w', s', he, he', rfl, rfl, hd, hpages, ?_, ?_, hd'.fetch_eq hbytes,
    (hwrote.stored_view hd').fetch_eq hbytes⟩
  · intro count
    have hafter := htook count
    rw [hnext] at hafter
    exact List.append_cancel_left (hafter.symm.trans (htook' count))
  · intro p hp
    refine ⟨?_, hwrote.writes p hp⟩
    cases hpage : pages.get? p with
    | none => rfl
    | some page =>
      rcases hnoted p page hpage with ⟨hmem, -⟩ | hold
      · exact absurd hmem hp
      · cases hold

end Document

end JasonDb
