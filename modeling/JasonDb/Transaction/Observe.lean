import JasonDb.TxCollection.Open

namespace JasonDb

open Lib TxBTree

variable {ℓ : Type} {db db' : Database}

theorem get?_foldl_insert {κ α β : Type} [DecidableEq κ] (f : α → β) (entries : List (κ × α))
    (hnodup : (entries.map Prod.fst).Nodup) (m : HashMap κ β) (k : κ) :
    (entries.foldl (fun m entry => m.insert entry.1 (f entry.2)) m).get? k =
      ((entries.find? fun entry => entry.1 = k).map fun entry => f entry.2).or (m.get? k) := by
  induction entries generalizing m with
  | nil => rfl
  | cons entry rest ih =>
    rw [List.map_cons, List.nodup_cons] at hnodup
    rw [List.foldl_cons, ih hnodup.2]
    by_cases hk : entry.1 = k
    · have hnone : rest.find? (fun entry => entry.1 = k) = none := by
        rw [List.find?_eq_none]
        intro other hmem heq
        exact hnodup.1 (List.mem_map.mpr ⟨other, hmem, by rw [hk]; simpa using heq⟩)
      rw [hnone, List.find?_cons_of_pos (by simpa using hk)]
      simp [hk]
    · rw [List.find?_cons_of_neg (by simpa using hk), HashMap.get?_insert_of_ne _ _ (Ne.symm hk)]

theorem Metadata.get?_roots (m : Metadata) (name : String) :
    m.roots.get? name = (m.collections.get? name).map CollectionMeta.btreeRoot := by
  unfold Metadata.roots
  rw [get?_foldl_insert CollectionMeta.btreeRoot]
  · rw [HashMap.get?_empty, Option.or_none]
    cases hfind : m.collections.toList.find? fun entry => entry.1 = name with
    | none =>
      cases hget : m.collections.get? name with
      | none => rfl
      | some coll =>
        have := List.find?_eq_none.mp hfind _ (HashMap.mem_toList.mpr hget)
        simp at this
    | some entry =>
      have hkey := List.find?_some hfind
      have hmem := List.mem_of_find?_eq_some hfind
      obtain ⟨k, coll⟩ := entry
      obtain rfl : k = name := by simpa using hkey
      rw [HashMap.mem_toList.mp hmem]
      rfl
  · rw [HashMap.map_fst_toList]
    exact HashMap.nodup_keys _

-- A transaction as `begin` makes it, alone.
def begun (db : Database) : Transaction :=
  ⟨db.txIdCounter, db.txManager.nextTxId, db.txManager.lastCommittedTxId, .active, ∅, ∅,
    db.metadata.roots, db.metadata.roots, ∅, ∅, ∅, ∅⟩

theorem exec_begin (l : ℓ) (db : Database) :
    ∃ db', Proc.exec begin l db = (.ok (begun db), l, db') ∧ db'.pager = db.pager := ⟨_, rfl, rfl⟩

theorem getSnapshotRoot_begun (db : Database) (name : String) :
    ((begun db).getSnapshotRoot name).getD 0 = db.metadata.root name := by
  have hroots : (begun db).getSnapshotRoot name =
      (db.metadata.roots.get? name).or (db.metadata.roots.get? name) := rfl
  rw [hroots, Metadata.get?_roots]
  unfold Metadata.root
  cases db.metadata.collections.get? name <;> rfl

-- What a transaction that begins now finds.
def observe [SerdeJson] (name id : String) : DbM ℓ Json := do
  let tx ← begin
  TxCollection.find tx name id

-- It does not change as long as the metadata, the committed ids and the pages of the trees do not.
theorem observe_agree [SerdeJson] (hwf : db.pager.WF) (hwf' : db'.pager.WF)
    (hmeta : db'.metadata = db.metadata) (htx : db'.txManager = db.txManager) {name : String}
    (hpages : ∀ p, db.metadata.root name ≠ 0 → Reaches db.pager.view (db.metadata.root name) p →
      db.pager.Allocated p ∧ db'.pager.Allocated p ∧ db'.pager.view p = db.pager.view p)
    (id : String) (l l' : ℓ) :
    (Proc.exec (observe name id) l' db').1 = (Proc.exec (observe name id) l db).1 := by
  obtain ⟨db₁, he, hp⟩ := exec_begin l db
  obtain ⟨db₁', he', hp'⟩ := exec_begin l' db'
  unfold observe
  rw [Proc.exec_bind_ok he, Proc.exec_bind_ok he']
  refine TxCollection.find_agree
    (S := fun p => db.metadata.root name ≠ 0 ∧ Reaches db.pager.view (db.metadata.root name) p)
    (hp ▸ hwf) (hp' ▸ hwf') ?_ ?_ ?_ ⟨?_, ?_⟩ ?_ id l l'
  · rw [getSnapshotRoot_begun, getSnapshotRoot_begun, hmeta]
  · intro hne
    rw [getSnapshotRoot_begun] at hne ⊢
    exact ⟨hne, .refl⟩
  · rintro p ⟨hne, hr⟩
    rw [hp, hp']
    exact ⟨(hpages p hne hr).1, (hpages p hne hr).2.1⟩
  · rintro p ⟨hne, hr⟩ page hpage q hq
    refine ⟨hne, hr.tail ⟨page, ?_, hq⟩⟩
    have hread : db.pager.readPage p = .ok page := by
      rw [← hp]
      exact hpage
    unfold Pager.readPage at hread
    cases hv : db.pager.view p with
    | none => simp [hv] at hread
    | some page' =>
      rw [hv] at hread
      rw [Except.ok.inj hread]
  · rintro p ⟨hne, hr⟩
    have hview := (hpages p hne hr).2.2
    change db₁'.pager.readPage p = db₁.pager.readPage p
    unfold Pager.readPage
    rw [hp, hp', hview]
  · intro p d _ _ doc _ _
    unfold TxCollection.sees TxCollection.isOwnWrite begun
    rw [htx]

end JasonDb
