import JasonDb.Transaction.Rebase
import JasonDb.TxBTree.Lookup

namespace JasonDb

open Lib TxBTree

variable {ℓ : Type} {base db db' : Database} {q : PageNum}

section Write

-- Writes to pages that `base` does not use.
theorem Advances.exec_write (h : Advances base db) (hq : ¬ base.pager.Allocated q) (page : Page)
    (hlen : page.byteLen = PAGE_SIZE) (l : ℓ) :
    ∃ db', Proc.exec (writePageTransfer q page) l db = (.ok (), l, db') ∧ Advances base db' ∧
      (∀ n, db.pager.Allocated n → db'.pager.Allocated n) ∧ db'.pager.view q = some page := by
  have hwrite := Pager.writePageTransfer_eq h.wf.writable q hlen
  have hview := Pager.view_write db.pager q page (db.pager.dirty.insert q ())
  refine ⟨{ db with pager := { db.pager with
      cache := Function.update db.pager.cache q (some page)
      dirty := db.pager.dirty.insert q () } }, ?_, ⟨?_, h.alloc, ?_⟩, fun _ hn => hn, ?_⟩
  · simp only [writePageTransfer, Proc.exec_atomicE, hwrite]
  · exact ⟨h.wf.writable, h.wf.nonempty, h.wf.nodup, h.wf.range⟩
  · intro n hn
    have hne : n ≠ q := fun heq => hq (heq ▸ hn)
    simp only [hview]
    rw [Function.update_of_ne hne]
    exact h.view n hn
  · simp only [hview, Function.update_self]

theorem Advances.exec_alloc (h : Advances base db) (l : ℓ) :
    ∃ q db', Proc.exec allocPage l db = (.ok q, l, db') ∧ Advances base db' ∧
      ¬ base.pager.Allocated q ∧ db'.pager.Allocated q ∧
      ∀ n, db.pager.Allocated n → db'.pager.Allocated n := by
  obtain ⟨q, p', he, ha⟩ := exec_allocPageMinimum (l := l) h.wf 0
  refine ⟨q, _, he, ⟨ha.wf, fun n hn => ha.keeps n (h.alloc n hn), fun n hn => ?_⟩, ?_, ha.used, ha.keeps⟩
  · exact (congrFun ha.view n).trans (h.view n hn)
  · exact fun hq => ha.unused (h.alloc q hq)

theorem Advances.exec_writeOverflow (h : Advances base db) (data : Json) (more index : Nat)
    (hq : ¬ base.pager.Allocated q) (pages : HashMap PageNum Page) (l : ℓ) :
    ∃ pages' db', Proc.exec (writeOverflow data more index q pages) l db = (.ok pages', l, db') ∧
      Advances base db' ∧ ∀ n, db.pager.Allocated n → db'.pager.Allocated n := by
  induction more generalizing index q pages db with
  | zero =>
    obtain ⟨db', he, hadv, halloc, -⟩ := h.exec_write hq (.overflow ⟨data, index, 0⟩) rfl l
    exact ⟨_, db', (Proc.exec_bind_ok he).trans rfl, hadv, halloc⟩
  | succ more ih =>
    obtain ⟨next, db₁, he₁, hadv₁, hnext, -, halloc₁⟩ := h.exec_alloc l
    obtain ⟨db₂, he₂, hadv₂, halloc₂, -⟩ :=
      hadv₁.exec_write hq (.overflow ⟨data, index, next⟩) rfl l
    obtain ⟨pages', db', he, hadv, halloc⟩ := ih hadv₂ (index + 1) hnext
      (pages.insert q (.overflow ⟨data, index, next⟩))
    refine ⟨pages', db', ?_, hadv, fun n hn => halloc n (halloc₂ n (halloc₁ n hn))⟩
    rw [writeOverflow, Proc.exec_bind_ok he₁]
    exact (Proc.exec_bind_ok he₂).trans he

-- A new version is in fresh pages; of its first page the content is known.
theorem exec_writeVersionedDocument (hwf : db.pager.WF) {id : String} (hid : id.utf8ByteSize ≤ 255)
    (data : Json) (xmin xmax : TransactionID) (pages : HashMap PageNum Page) (l : ℓ) :
    ∃ p pages' overflow db', Proc.exec (writeVersionedDocument id data xmin xmax pages) l db =
        (.ok (p, pages'), l, db') ∧ Advances db db' ∧ ¬ db.pager.Allocated p ∧
      db'.pager.Allocated p ∧ db'.pager.view p = some (.doc ⟨xmin, xmax, id, data, overflow⟩) := by
  obtain ⟨p, db₁, he₁, hadv₁, hfresh, hused, -⟩ := (Advances.refl hwf).exec_alloc l
  have hlast : ∀ {db₂ : Database} (overflow : PageNum) (pages : HashMap PageNum Page),
      Advances db db₂ → db₂.pager.Allocated p →
      ∃ db', Proc.exec (do
          writePageTransfer p (.doc ⟨xmin, xmax, id, data, overflow⟩)
          pure (p, pages.insert p (.doc ⟨xmin, xmax, id, data, overflow⟩)) : DbM ℓ _) l db₂ =
        (.ok (p, pages.insert p (.doc ⟨xmin, xmax, id, data, overflow⟩)), l, db') ∧ Advances db db' ∧
        db'.pager.Allocated p ∧ db'.pager.view p = some (.doc ⟨xmin, xmax, id, data, overflow⟩) := by
    intro db₂ overflow pages hadv hp
    obtain ⟨db', he, hadv', halloc, hview⟩ :=
      hadv.exec_write hfresh (.doc ⟨xmin, xmax, id, data, overflow⟩) rfl l
    exact ⟨db', (Proc.exec_bind_ok he).trans rfl, hadv', halloc p hp, hview⟩
  unfold writeVersionedDocument
  rw [if_neg (by omega), Proc.exec_bind_ok he₁]
  cases overflowCount id data with
  | zero =>
    obtain ⟨db', he, hadv, hp, hview⟩ := hlast 0 pages hadv₁ hused
    exact ⟨p, _, 0, db', he, hadv, hfresh, hp, hview⟩
  | succ more =>
    obtain ⟨page, db₂, he₂, hadv₂, hpage, -, halloc₂⟩ := hadv₁.exec_alloc l
    obtain ⟨pages', db₃, he₃, hadv₃, halloc₃⟩ := hadv₂.exec_writeOverflow data more 0 hpage pages l
    obtain ⟨db', he, hadv, hp, hview⟩ := hlast page pages' hadv₃ (halloc₃ p (halloc₂ p hused))
    refine ⟨p, pages'.insert p (.doc ⟨xmin, xmax, id, data, page⟩), page, db', ?_, hadv, hfresh, hp,
      hview⟩
    simp only
    rw [Proc.exec_bind_ok he₂]
    exact (Proc.exec_bind_ok he₃).trans he

end Write

section Read

variable {writes : HashMap PageNum Page}

-- Errors of reading a version are about its pages.
def AboutPages (e : Error) : Prop := ∀ collection id, e ≠ .documentNotFound collection id

theorem pageSeen_aboutPages {p : PageNum} {e : Error} (h : pageSeen writes db p = .error e) :
    AboutPages e := by
  unfold pageSeen Pager.readPage at h
  split at h
  · cases h
  · split at h
    · cases h
    · obtain rfl := Except.error.inj h
      intro collection id
      simp

theorem readOverflow_aboutPages (data : Json) (start more index : Nat) (page : PageNum)
    (visited : List PageNum) (l : ℓ) {e : Error}
    (h : (Proc.exec (readOverflow writes data start more index page visited) l db).1 = .error e) :
    AboutPages e := by
  induction more generalizing index page visited with
  | zero => cases h
  | succ more ih =>
    unfold readOverflow at h
    split at h
    · obtain rfl := Except.error.inj h
      simp [AboutPages]
    · split at h
      · obtain rfl := Except.error.inj h
        simp [AboutPages]
      · split at h
        · obtain rfl := Except.error.inj h
          simp [AboutPages]
        · rw [Proc.exec_bind, exec_readThrough] at h
          cases hseen : pageSeen writes db page with
          | error e' =>
            rw [hseen] at h
            obtain rfl := Except.error.inj h
            exact pageSeen_aboutPages hseen
          | ok content =>
            rw [hseen] at h
            cases content with
            | overflow part =>
              simp only at h
              rw [Proc.exec_bind] at h
              rcases hrest : Proc.exec (readOverflow writes data start more (index + 1) part.next
                (page :: visited)) l db with ⟨r, l', db'⟩
              rw [hrest] at h
              cases r with
              | error e' =>
                obtain rfl := Except.error.inj h
                exact ih (index + 1) part.next (page :: visited) (by rw [hrest])
              | ok b => cases h
            | zero => cases h
            | node n => cases h
            | doc d => cases h
            | metadata m => cases h
            | header hdr => cases h
            | postings entries => cases h

-- What is read of a version that is there: the version, or that its pages are wrong.
theorem readVersionedDocument_doc {p : PageNum} {d : DocPage} (h : pageSeen writes db p = .ok (.doc d))
    (l : ℓ) :
    (∃ doc, (Proc.exec (readVersionedDocument p writes) l db).1 = .ok doc ∧ doc.xmin = d.xmin) ∨
      ∃ e, (Proc.exec (readVersionedDocument p writes) l db).1 = .error e ∧ AboutPages e := by
  unfold readVersionedDocument
  rw [Proc.exec_bind, exec_readThrough, h]
  simp only
  split
  · exact Or.inr ⟨_, rfl, by simp [AboutPages]⟩
  · rw [Proc.exec_bind]
    rcases hrun : Proc.exec (readOverflow writes d.data (firstPageCapacity d.id)
      (overflowCount d.id d.data) 0 d.overflow []) l db with ⟨r, l', db'⟩
    cases r with
    | error e => exact Or.inr ⟨e, rfl, readOverflow_aboutPages _ _ _ _ _ _ l (by rw [hrun])⟩
    | ok b => exact Or.inl ⟨_, rfl, rfl⟩

end Read

end JasonDb
