import JasonDb.BTree.Refines
import JasonDb.Codec.Stored
import JasonDb.Collection.Scan
import JasonDb.Lib.Heap

namespace JasonDb

open Lib

variable {ℓ : Type} {db db' db'' : Database} {S S' S'' : Set PageNum} {p q : PageNum}

-- The pages as readers see them.
def Database.heap (db : Database) : Heap PageNum Page := ⟨db.pager.view, db.pager.Allocated⟩

-- A change of pages and of nothing else: those of `S` and unused ones, of which `S'` are now used.
structure PageEdits (db : Database) (S : Set PageNum) (db' : Database) (S' : Set PageNum) : Prop where
  heap : Heap.Edits db.heap S db'.heap S'
  wf : db'.pager.WF
  shared : db' = { db with pager := db'.pager }
  frame : db.pager.Frame db'.pager

namespace PageEdits

theorem refl (hwf : db.pager.WF) (hS : ∀ p ∈ S, db.pager.Allocated p) : PageEdits db S db S :=
  ⟨⟨fun _ => Or.inl, hS, Heap.Keeps.refl _ _⟩, hwf, rfl, Pager.Frame.refl _⟩

theorem trans (h : PageEdits db S db' S') (h' : PageEdits db' S' db'' S'') : PageEdits db S db'' S'' where
  heap := h.heap.trans h'.heap
  wf := h'.wf
  shared := by rw [h'.shared, h.shared]
  frame := h.frame.trans h'.frame

theorem widen {S₀ : Set PageNum} (h : PageEdits db S db' S') (hsub : S ⊆ S₀) : PageEdits db S₀ db' S' :=
  { h with heap := h.heap.widen hsub }

-- Pages that the change does not own come with it.
theorem union {X : Set PageNum} (h : PageEdits db S db' S') (hX : ∀ p ∈ X, db.pager.Allocated p)
    (hdis : ∀ p ∈ X, p ∉ S) : PageEdits db (S ∪ X) db' (S' ∪ X) := by
  refine { h with heap := ⟨?_, ?_, h.heap.keeps.mono fun p hp hS => hp (Or.inl hS)⟩ }
  · rintro p (hp | hp)
    · exact (h.heap.grown p hp).imp_left Or.inl
    · exact Or.inl (Or.inr hp)
  · rintro p (hp | hp)
    · exact h.heap.live p hp
    · exact h.heap.keeps.used p (hdis p hp) (hX p hp)

end PageEdits

-- What the in-place tree changes.
theorem BTree.Edits.pageEdits {T' : PageTree} (h : BTree.Edits db S db' {p | p ∈ T'.ptrs})
    (hT' : BTree.Represents db' T') : PageEdits db S db' {p | p ∈ T'.ptrs} := by
  refine ⟨⟨h.grown, fun p hp => hT'.holds.live p (by simpa using hp), fun p _ hu => h.alloc p hu, ?_⟩,
    hT'.holds.pager, h.shared, h.frame⟩
  intro p hp hu page hpage
  exact (h.view p hp hu).trans hpage

-- The pager as far as it hands out pages.
def Pager.allocator (p : Pager) : Codec.PageStore :=
  ⟨fun _ => none, fun _ => none, p.numPages, p.freeList, p.readOnly, true⟩

theorem Pager.allocPage_allocator (p : Pager) :
    p.allocator.allocPage = ((p.allocPageMinimum 0).1, (p.allocPageMinimum 0).2.allocator) := by
  have hall : p.freeList.reverse.dropWhile (· < 0) = p.freeList.reverse := by
    cases p.freeList.reverse with
    | nil => rfl
    | cons q rest => exact List.dropWhile_cons_of_neg (by simp)
  unfold Codec.PageStore.allocPage allocPageMinimum allocator
  rw [hall]
  by_cases hro : p.readOnly = true
  · rw [if_pos hro, if_pos hro]
  · rw [if_neg hro, if_neg hro]
    cases List.eq_nil_or_concat p.freeList with
    | inl hnil => simp [hnil]
    | inr hlast =>
      obtain ⟨front, q, hfront⟩ := hlast
      simp [hfront]

section Steps

variable {l : ℓ}

theorem exec_allocPage (hwf : db.pager.WF) (hS : ∀ p ∈ S, db.pager.Allocated p) (l : ℓ) :
    ∃ q db', Proc.exec allocPage l db = (.ok q, l, db') ∧ ¬ db.pager.Allocated q ∧
      PageEdits db S db' (S ∪ {q}) ∧ db.pager.allocator.Allocated [q] db'.pager.allocator := by
  obtain ⟨q, p', he, ha⟩ := Pager.allocPageMinimum_spec hwf 0
  refine ⟨q, { db with pager := p' }, ?_, ha.unused, ⟨⟨?_, ?_, ?_⟩, ha.wf, rfl, ha.frame⟩, ?_⟩
  · simp only [allocPage, allocPageMinimum, Proc.exec_atomicE, he]
  · rintro p (hp | rfl)
    · exact Or.inl hp
    · exact Or.inr ha.unused
  · rintro p (hp | rfl)
    · exact ha.keeps p (hS p hp)
    · exact ha.used
  · refine ⟨fun p _ hu => ha.keeps p hu, fun p _ _ page hpage => ?_⟩
    exact (congrFun ha.view p).trans hpage
  · obtain ⟨q', s', hexec, -, -, htook⟩ := Codec.exec_allocPage (s := db.pager.allocator) hwf.writable l
    rw [Codec.allocPage, Proc.exec_atomicE, Pager.allocPage_allocator, he] at hexec
    obtain ⟨rfl, rfl⟩ : q = q' ∧ p'.allocator = s' := by simpa using hexec
    exact htook

theorem exec_writePage (hwf : db.pager.WF) (hS : ∀ p ∈ S, db.pager.Allocated p) (hq : q ∈ S) (page : Page)
    (hlen : page.byteLen = PAGE_SIZE) (l : ℓ) :
    ∃ db', Proc.exec (writePageTransfer q page) l db = (.ok (), l, db') ∧ PageEdits db S db' S ∧
      db'.heap.content = Function.update db.heap.content q (some page) ∧
      db'.pager.allocator = db.pager.allocator := by
  have hwrite := Pager.writePageTransfer_eq hwf.writable q hlen
  have hview := Pager.view_write db.pager q page (db.pager.dirty.insert q ())
  refine ⟨{ db with pager := { db.pager with
      cache := Function.update db.pager.cache q (some page)
      dirty := db.pager.dirty.insert q () } }, ?_, ⟨⟨fun _ => Or.inl, hS, fun _ _ hu => hu, ?_⟩,
      ⟨hwf.writable, hwf.nonempty, hwf.nodup, hwf.range⟩, rfl, rfl, rfl, rfl, rfl⟩, hview, rfl⟩
  · simp only [writePageTransfer, Proc.exec_atomicE, hwrite]
  · intro p hp _ v hv
    have hne : p ≠ q := fun heq => hp (heq ▸ hq)
    exact (congrFun hview p).trans ((Function.update_of_ne hne _ _).trans hv)

theorem exec_readPage {page : Page} (h : db.heap.content p = some page) (l : ℓ) :
    Proc.exec (readPage p) l db = (.ok page, l, db) := by
  have hview : db.pager.view p = some page := h
  simp only [readPage, Proc.exec_atomicE, Pager.readPage, hview]

theorem exec_freePage (hwf : db.pager.WF) (hS : ∀ p ∈ S, db.pager.Allocated p) (hq : q ∈ S) (l : ℓ) :
    ∃ db', Proc.exec (freePage q) l db = (.ok (), l, db') ∧ PageEdits db S db' {p | p ∈ S ∧ p ≠ q} ∧
      ∀ p, p ≠ q → db'.heap.content p = db.heap.content p := by
  obtain ⟨h0, hlt, hfree⟩ := hS q hq
  have hview : ∀ p, p ≠ q → ({ db.pager with
      freeList := db.pager.freeList ++ [q]
      cache := Function.update db.pager.cache q none
      dirty := if (db.pager.cache q).isSome then db.pager.dirty.erase q else db.pager.dirty } : Pager).view p =
      db.pager.view p := by
    intro p hp
    simp only [Pager.view, Function.update_of_ne hp, Pager.filePage]
  have hused : ∀ p, p ≠ q → db.pager.Allocated p → p ∉ db.pager.freeList ++ [q] := by
    intro p hp hu hmem
    rcases List.mem_append.mp hmem with hmem | hmem
    · exact hu.2.2 hmem
    · exact hp (List.mem_singleton.mp hmem)
  refine ⟨{ db with pager := { db.pager with
      freeList := db.pager.freeList ++ [q]
      cache := Function.update db.pager.cache q none
      dirty := if (db.pager.cache q).isSome then db.pager.dirty.erase q else db.pager.dirty } }, ?_,
    ⟨⟨fun p hp => Or.inl hp.1, ?_, ?_⟩, ⟨hwf.writable, hwf.nonempty, ?_, ?_⟩, rfl, rfl, rfl, rfl, rfl⟩,
    hview⟩
  · have hro : ¬ db.pager.readOnly = true := by simp [hwf.writable]
    simp only [freePage, Proc.exec_atomicE, Pager.freePage, if_neg hro]
  · rintro p ⟨hp, hne⟩
    have hu := hS p hp
    exact ⟨hu.1, hu.2.1, hused p hne hu⟩
  · refine ⟨fun p hp hu => ?_, fun p hp _ v hv => ?_⟩
    · have hne : p ≠ q := fun heq => hp (heq ▸ hq)
      exact ⟨hu.1, hu.2.1, hused p hne hu⟩
    · have hne : p ≠ q := fun heq => hp (heq ▸ hq)
      exact (hview p hne).trans hv
  · exact List.Nodup.append hwf.nodup (List.nodup_singleton q) (by simpa using hfree)
  · intro p hp
    rcases List.mem_append.mp hp with hp | hp
    · exact hwf.range p hp
    · obtain rfl := List.mem_singleton.mp hp
      exact ⟨Nat.pos_of_ne_zero h0, hlt⟩

end Steps

-- The overflow pages of a document from part number `index` on.
def Chain (h : Heap PageNum Page) (data : Json) : Nat → PageNum → List PageNum → Prop
  | _, page, [] => page = 0
  | index, page, p :: rest => p ≠ 0 ∧ page = p ∧
      ∃ next, h.content p = some (.overflow ⟨data, index, next⟩) ∧ Chain h data (index + 1) next rest

theorem Chain.mono {h h' : Heap PageNum Page} {data : Json} {index : Nat} {page : PageNum} {ps : List PageNum}
    (hc : Chain h data index page ps)
    (hkeep : ∀ p ∈ ps, ∀ page, h.content p = some page → h'.content p = some page) :
    Chain h' data index page ps := by
  induction ps generalizing index page with
  | nil => exact hc
  | cons p rest ih =>
    obtain ⟨hp, hpage, next, hcontent, hrest⟩ := hc
    exact ⟨hp, hpage, next, hkeep p (by simp) _ hcontent,
      ih hrest fun q hq => hkeep q (List.mem_cons_of_mem _ hq)⟩

-- Where a version of a document is: its first page and its overflow pages, in their order.
structure Placement where
  page : PageNum
  rest : List PageNum
  xmin : TransactionID
  fields : Json.Map

namespace Placement

def pages (d : Placement) : List PageNum := d.page :: d.rest

-- The version is in its pages, and a reader gets to all of them.
structure Stored (d : Placement) (id : String) (h : Heap PageNum Page) : Prop where
  nodup : d.pages.Nodup
  length : d.rest.length = overflowCount id (.obj d.fields)
  readable : d.rest.length ≤ MAX_OVERFLOW_CHAIN_LENGTH
  first : ∃ overflow, h.content d.page = some (.doc ⟨d.xmin, 0, id, .obj d.fields, overflow⟩) ∧
    Chain h (.obj d.fields) 0 overflow d.rest

theorem on_stored (d : Placement) (id : String) : Heap.On {p | p ∈ d.pages} (d.Stored id) := by
  intro h h' hu hk hd
  have hkeep : ∀ p ∈ d.pages, ∀ page, h.content p = some page → h'.content p = some page :=
    fun p hp page hpage => hk.content p hp (hu p hp) page hpage
  obtain ⟨overflow, hfirst, hchain⟩ := hd.first
  exact { hd with first := ⟨overflow, hkeep d.page (by simp [pages]) _ hfirst,
    hchain.mono fun p hp => hkeep p (List.mem_cons_of_mem _ hp)⟩ }

end Placement

section Write

-- The pages that a writer takes note of, among these its own.
def Noted (db : Database) (ps : List PageNum) (pages pages' : HashMap PageNum Page) : Prop :=
  ∀ p page, pages'.get? p = some page →
    p ∈ ps ∧ db.heap.content p = some page ∧ page.byteLen = PAGE_SIZE ∨ pages.get? p = some page

theorem Noted.insert {ps : List PageNum} {pages pages' : HashMap PageNum Page} {page : Page}
    (h : Noted db ps pages pages') (hp : p ∈ ps) (hpage : db.heap.content p = some page)
    (hlen : page.byteLen = PAGE_SIZE) : Noted db ps pages (pages'.insert p page) := by
  intro q page' hq
  rw [HashMap.get?_insert] at hq
  split at hq
  case isTrue heq =>
    obtain rfl := Option.some.inj hq
    exact Or.inl ⟨heq ▸ hp, heq ▸ hpage, hlen⟩
  case isFalse => exact h q page' hq

-- The overflow pages are new, but for the first one, which the caller took.
theorem exec_writeOverflow (hwf : db.pager.WF) (hq : db.pager.Allocated q) (data : Json) (more index : Nat)
    (pages : HashMap PageNum Page) (l : ℓ) :
    ∃ rest pages' db', Proc.exec (writeOverflow data more index q pages) l db = (.ok pages', l, db') ∧
      rest.length = more ∧ (q :: rest).Nodup ∧ Chain db'.heap data index q (q :: rest) ∧
      PageEdits db {q} db' {p | p ∈ q :: rest} ∧ Noted db' (q :: rest) pages pages' ∧
      db.pager.allocator.Allocated rest db'.pager.allocator := by
  induction more generalizing index q pages db with
  | zero =>
    obtain ⟨db', he, hedit, hcontent, hsame⟩ := exec_writePage hwf (S := {q}) (by rintro p rfl; exact hq) rfl
      (.overflow ⟨data, index, 0⟩) rfl l
    have hpage : db'.heap.content q = some (.overflow ⟨data, index, 0⟩) := by
      rw [hcontent, Function.update_self]
    refine ⟨[], _, db', (Proc.exec_bind_ok he).trans rfl, rfl, List.nodup_singleton q,
      ⟨hq.1, rfl, 0, hpage, rfl⟩, ?_, Noted.insert (fun _ _ => Or.inr) (by simp) hpage rfl, ?_⟩
    · simpa using hedit
    · rw [hsame]
      exact Codec.PageStore.Allocated.nil _
  | succ more ih =>
    obtain ⟨next, db₁, he₁, hnew, hedit₁, htook₁⟩ := exec_allocPage hwf (S := {q}) (by rintro p rfl; exact hq) l
    have hne : q ≠ next := fun heq => hnew (heq ▸ hq)
    obtain ⟨db₂, he₂, hedit₂, hcontent, hsame⟩ := exec_writePage hedit₁.wf hedit₁.heap.live
      (q := q) (Or.inl rfl) (.overflow ⟨data, index, next⟩) rfl l
    obtain ⟨rest, pages', db', he, hlength, hnodup, hchain, hedit, hnoted, htook⟩ := ih hedit₂.wf
      (hedit₂.heap.live next (Or.inr rfl)) (index + 1) (pages.insert q (.overflow ⟨data, index, next⟩))
    have hqlive : db₂.pager.Allocated q := hedit₂.heap.live q (Or.inl rfl)
    have hout : q ∉ next :: rest := by
      intro hmem
      exact (hedit.heap.grown q hmem).elim hne fun hn => hn hqlive
    have hpage : db'.heap.content q = some (.overflow ⟨data, index, next⟩) := by
      refine hedit.heap.keeps.content q hne hqlive _ ?_
      rw [hcontent, Function.update_self]
    rw [hsame] at htook
    refine ⟨next :: rest, pages', db', ?_, by simp [hlength], List.nodup_cons.mpr ⟨hout, hnodup⟩,
      ⟨hq.1, rfl, next, hpage, hchain⟩, ?_, ?_, htook₁.cons htook⟩
    · rw [writeOverflow, Proc.exec_bind_ok he₁]
      exact (Proc.exec_bind_ok he₂).trans he
    · have hlast := hedit.union (X := {q}) (by rintro p rfl; exact hqlive) (by rintro p rfl; exact hne)
      have hall := hedit₁.trans (hedit₂.trans (hlast.widen ?_))
      · refine { hall with heap := { hall.heap with grown := ?_, live := ?_ } }
        · exact fun p hp => hall.heap.grown p (by simpa [or_comm] using hp)
        · exact fun p hp => hall.heap.live p (by simpa [or_comm] using hp)
      · rintro p hp
        exact hp.symm
    · intro p page hp
      rcases hnoted p page hp with ⟨hmem, hrest⟩ | hold
      · exact Or.inl ⟨List.mem_cons_of_mem _ hmem, hrest⟩
      · rw [HashMap.get?_insert] at hold
        split at hold
        case isTrue heq =>
          obtain rfl := Option.some.inj hold
          exact Or.inl ⟨by simp [heq], heq ▸ hpage, rfl⟩
        case isFalse => exact Or.inr hold

-- A new version is in new pages.
theorem exec_writeDocument (hwf : db.pager.WF) {id : String} (hid : id.utf8ByteSize ≤ 255) {fields : Json.Map}
    (hfit : overflowCount id (.obj fields) ≤ MAX_OVERFLOW_CHAIN_LENGTH) (xmin : TransactionID) (l : ℓ) :
    ∃ (d : Placement) (pages : HashMap PageNum Page) (db' : Database),
      Proc.exec (writeVersionedDocument id (.obj fields) xmin 0 ∅) l db =
        (.ok (d.page, pages), l, db') ∧ d.xmin = xmin ∧ d.fields = fields ∧ d.Stored id db'.heap ∧
      PageEdits db ∅ db' {p | p ∈ d.pages} ∧ Noted db' d.pages ∅ pages ∧ d.page ∈ pages ∧
      db.pager.allocator.Allocated d.pages db'.pager.allocator := by
  obtain ⟨p, db₁, he₁, hnew, hedit₁, htook₁⟩ := exec_allocPage hwf (S := ∅) (by simp) l
  have hp : db₁.pager.Allocated p := hedit₁.heap.live p (Or.inr rfl)
  unfold writeVersionedDocument
  rw [if_neg (by omega), Proc.exec_bind_ok he₁]
  cases hcount : overflowCount id (.obj fields) with
  | zero =>
    obtain ⟨db', he, hedit, hcontent, hsame⟩ := exec_writePage hedit₁.wf hedit₁.heap.live (q := p)
      (Or.inr rfl) (.doc ⟨xmin, 0, id, .obj fields, 0⟩) rfl l
    have hpage : db'.heap.content p = some (.doc ⟨xmin, 0, id, .obj fields, 0⟩) := by
      rw [hcontent, Function.update_self]
    refine ⟨⟨p, [], xmin, fields⟩, _, db', (Proc.exec_bind_ok he).trans rfl, rfl, rfl,
      ⟨List.nodup_singleton p, hcount.symm, Nat.zero_le _, 0, hpage, rfl⟩, ?_,
      Noted.insert (fun _ _ => Or.inr) (by simp [Placement.pages]) hpage rfl, by simp, ?_⟩
    · have hboth := hedit₁.trans hedit
      simpa [Placement.pages] using hboth
    · rw [hsame]
      exact htook₁
  | succ more =>
    obtain ⟨q, db₂, he₂, hnew₂, hedit₂, htook₂⟩ := exec_allocPage hedit₁.wf hedit₁.heap.live l
    have hp₂ : db₂.pager.Allocated p := hedit₂.heap.live p (Or.inl (Or.inr rfl))
    have hne : p ≠ q := fun heq => hnew₂ (heq ▸ hp)
    obtain ⟨rest, pages, db₃, he₃, hlength, hnodup, hchain, hedit₃, hnoted, htook₃⟩ :=
      exec_writeOverflow hedit₂.wf (hedit₂.heap.live q (Or.inr rfl)) (.obj fields) more 0 ∅ l
    have hout : p ∉ q :: rest := by
      intro hmem
      exact (hedit₃.heap.grown p hmem).elim hne fun hn => hn hp₂
    -- the edits up to here, which own the first page too
    have hown := hedit₃.union (X := {p}) (by rintro x rfl; exact hp₂) (by rintro x rfl; exact hne)
    have hbefore : PageEdits db ∅ db₃ ({x | x ∈ q :: rest} ∪ {p}) := by
      refine (hedit₁.trans hedit₂).trans (hown.widen ?_)
      rintro x (rfl | rfl)
      · exact Or.inr rfl
      · exact Or.inl (Or.inr rfl)
    obtain ⟨db', he, hedit, hcontent, hsame⟩ := exec_writePage hbefore.wf hbefore.heap.live (q := p)
      (Or.inr rfl) (.doc ⟨xmin, 0, id, .obj fields, q⟩) rfl l
    have hpage : db'.heap.content p = some (.doc ⟨xmin, 0, id, .obj fields, q⟩) := by
      rw [hcontent, Function.update_self]
    have hkeep : ∀ x ∈ q :: rest, db'.heap.content x = db₃.heap.content x := by
      intro x hx
      rw [hcontent, Function.update_of_ne]
      rintro rfl
      exact hout hx
    refine ⟨⟨p, q :: rest, xmin, fields⟩, pages.insert p (.doc ⟨xmin, 0, id, .obj fields, q⟩), db', ?_, rfl,
      rfl, ⟨List.nodup_cons.mpr ⟨hout, hnodup⟩, by simp [hlength, hcount], ?_, q, hpage,
        hchain.mono fun x hx page hv => (hkeep x hx).trans hv⟩, ?_, ?_, by simp, ?_⟩
    · simp only
      rw [Proc.exec_bind_ok he₂]
      refine (Proc.exec_bind_ok he₃).trans ?_
      exact (Proc.exec_bind_ok he).trans rfl
    · simpa [hlength, ← hcount] using hfit
    · have hall := hbefore.trans hedit
      refine { hall with heap := { hall.heap with grown := ?_, live := ?_ } }
      · exact fun x hx => hall.heap.grown x (by simpa [Placement.pages, or_comm] using hx)
      · exact fun x hx => hall.heap.live x (by simpa [Placement.pages, or_comm] using hx)
    · refine Noted.insert (fun x page hx => ?_) (by simp [Placement.pages]) hpage rfl
      rcases hnoted x page hx with ⟨hmem, hv, hlen⟩ | hold
      · exact Or.inl ⟨List.mem_cons_of_mem _ hmem, (hkeep x hmem).trans hv, hlen⟩
      · exact Or.inr hold
    · rw [hsame]
      exact htook₁.cons (htook₂.cons htook₃)

end Write

section Read

theorem exec_readOverflow {data : Json} {more index : Nat} {page : PageNum} {ps : List PageNum}
    (visited : List PageNum) (hchain : Chain db.heap data index page ps) (hlength : ps.length = more)
    (hnodup : (visited.reverse ++ ps).Nodup)
    (hmax : visited.length + more ≤ MAX_OVERFLOW_CHAIN_LENGTH) (start : Nat) (l : ℓ) :
    Proc.exec (readOverflow ∅ data start more index page visited) l db = (.ok true, l, db) := by
  induction ps generalizing more index page visited with
  | nil =>
    subst hlength
    rfl
  | cons p rest ih =>
    subst hlength
    obtain ⟨hp, rfl, next, hcontent, hrest⟩ := hchain
    have hout : page ∉ visited := by
      intro hmem
      rw [List.nodup_append] at hnodup
      exact hnodup.2.2 page (by simpa using hmem) page (by simp) rfl
    rw [List.length_cons, readOverflow, if_neg hp, if_neg hout, if_neg (by simp at hmax; omega)]
    have hread : Proc.exec (readThrough ∅ page) l db = (.ok (.overflow ⟨data, index, next⟩), l, db) :=
      exec_readPage hcontent l
    rw [Proc.exec_bind_ok hread]
    simp only
    rw [Proc.exec_bind_ok (ih (page :: visited) hrest rfl (by simpa using hnodup) (by simp at hmax ⊢; omega))]
    simp [Proc.exec_pure]

-- A version is read back, unless its id is empty.
theorem Placement.Stored.exec_read {d : Placement} {id : String} (h : d.Stored id db.heap) (l : ℓ) :
    Proc.exec (readVersionedDocument d.page ∅) l db =
      (if id = "" then .error .invalidDocument else .ok ⟨id, some (.obj d.fields), d.xmin, 0⟩, l, db) := by
  obtain ⟨overflow, hfirst, hchain⟩ := h.first
  have hread : Proc.exec (readThrough ∅ d.page) l db =
      (.ok (.doc ⟨d.xmin, 0, id, .obj d.fields, overflow⟩), l, db) := exec_readPage hfirst l
  rw [readVersionedDocument, Proc.exec_bind_ok hread]
  simp only
  by_cases hid : id = ""
  · rw [if_pos hid, if_pos hid]
    rfl
  · rw [if_neg hid, if_neg hid]
    have hrest := exec_readOverflow [] hchain h.length
      (by simpa using (List.nodup_cons.mp h.nodup).2) (by simpa [h.length] using h.readable)
      (firstPageCapacity id) l
    rw [Proc.exec_bind_ok hrest]
    rfl

end Read

section Free

theorem exec_freeOverflow {data : Json} {index fuel : Nat} {page : PageNum} {ps : List PageNum}
    (visited : List PageNum) (hwf : db.pager.WF) (hlive : ∀ p ∈ ps, db.pager.Allocated p)
    (hchain : Chain db.heap data index page ps)
    (hnodup : (visited.reverse ++ ps).Nodup) (hfuel : ps.length ≤ fuel) (l : ℓ) :
    ∃ db', Proc.exec (freeOverflow fuel page visited) l db = (.ok (), l, db') ∧
      PageEdits db {p | p ∈ ps} db' ∅ := by
  induction ps generalizing index fuel page visited db with
  | nil =>
    refine ⟨db, ?_, ?_⟩
    · unfold freeOverflow
      rw [if_pos (show page = 0 from hchain)]
      rfl
    · have hrefl := PageEdits.refl (S := ∅) hwf (by simp)
      exact hrefl.widen (Set.empty_subset _)
  | cons p rest ih =>
    obtain ⟨hp, rfl, next, hcontent, hrest⟩ := hchain
    cases fuel with
    | zero => simp at hfuel
    | succ fuel =>
      have hout : page ∉ visited := by
        intro hmem
        rw [List.nodup_append] at hnodup
        exact hnodup.2.2 page (by simpa using hmem) page (by simp) rfl
      have hrestout : ∀ q ∈ rest, q ≠ page := by
        rintro q hq rfl
        rw [List.nodup_append] at hnodup
        exact (List.nodup_cons.mp hnodup.2.1).1 hq
      obtain ⟨db₁, he₁, hedit₁, hkeep⟩ := exec_freePage hwf (S := {q | q ∈ page :: rest}) hlive
        (q := page) (by simp) l
      have hchain₁ : Chain db₁.heap data (index + 1) next rest :=
        hrest.mono fun q hq pg hv => (hkeep q (hrestout q hq)).trans hv
      have hlive₁ : ∀ q ∈ rest, db₁.pager.Allocated q := fun q hq =>
        hedit₁.heap.live q ⟨List.mem_cons_of_mem _ hq, hrestout q hq⟩
      obtain ⟨db', he, hedit⟩ := ih (page :: visited) hedit₁.wf hlive₁ hchain₁
        (by simpa using hnodup) (by simpa using hfuel)
      refine ⟨db', ?_, hedit₁.trans (hedit.widen ?_)⟩
      · rw [freeOverflow, if_neg hp, if_neg hout, Proc.exec_bind_ok (exec_readPage hcontent l),
          Proc.exec_bind_ok he₁]
        exact he
      · exact fun q hq => ⟨List.mem_cons_of_mem _ hq, hrestout q hq⟩

-- Deleting a version gives its pages back.
theorem Placement.Stored.exec_delete {d : Placement} {id : String} (h : d.Stored id db.heap)
    (hwf : db.pager.WF) (hlive : ∀ p ∈ d.pages, db.pager.Allocated p) (l : ℓ) :
    ∃ db', Proc.exec (deleteDocument d.page) l db = (.ok (), l, db') ∧
      PageEdits db {p | p ∈ d.pages} db' ∅ := by
  obtain ⟨overflow, hfirst, hchain⟩ := h.first
  obtain ⟨hout, hnodup⟩ := List.nodup_cons.mp h.nodup
  have hrest : ∀ p ∈ d.rest, db.pager.Allocated p := fun p hp => hlive p (List.mem_cons_of_mem _ hp)
  obtain ⟨db₁, he₁, hedit₁⟩ := exec_freeOverflow [] hwf hrest hchain (by simpa using hnodup)
    h.readable l
  have hown := hedit₁.union (X := {d.page}) (by rintro x rfl; exact hlive d.page (by simp [pages]))
    (by rintro x rfl; exact hout)
  obtain ⟨db', he, hedit, -⟩ := exec_freePage hown.wf hown.heap.live (q := d.page) (Or.inr rfl) l
  refine ⟨db', ?_, ?_⟩
  · rw [deleteDocument, Proc.exec_bind_ok (exec_readPage hfirst l)]
    exact (Proc.exec_bind_ok he₁).trans he
  · have hall := hown.trans hedit
    refine { hall with heap := ⟨by simp, by simp, hall.heap.keeps.mono fun p hp => ?_⟩ }
    rintro (hmem | rfl)
    · exact hp (List.mem_cons_of_mem _ hmem)
    · exact hp (by simp [pages])

end Free

end JasonDb
