import JasonDb.IndexKey.RoundTrip
import JasonDb.TxBTree.Prefix
import JasonDb.TxCollection

namespace JasonDb

open Lib

namespace Json

-- A text in front of a bar shows its value and where it ends, also when the value has bars itself.
theorem render_append_bar_inj {v w : Json} {s t : List Char}
    (h : v.render.toList ++ '|' :: s = w.render.toList ++ '|' :: t) : v = w ∧ s = t := by
  have htype := typeOrder_eq_of_append h
  cases v with
  | null =>
    cases w <;> cases htype
    exact ⟨rfl, (List.cons.inj (List.append_cancel_left h)).2⟩
  | bool a =>
    cases w <;> cases htype
    rename_i b
    cases a <;> cases b <;> simp_all [render]
  | num n =>
    cases w <;> cases htype
    rename_i m
    have hnot : ∀ (n : Number), '|' ∉ n.render.toList := by
      intro n hmem
      have := Number.mem_render hmem
      revert this
      decide
    obtain ⟨htext, hst⟩ := append_separator_inj (hnot n) (hnot m) h
    exact ⟨congrArg num (Number.render_injective (String.toList_inj.mp htext)), hst⟩
  | str a =>
    cases w <;> cases htype
    obtain ⟨rfl, hst⟩ := renderString_append_inj h
    exact ⟨rfl, (List.cons.inj hst).2⟩
  | arr items =>
    cases w <;> cases htype
    obtain ⟨rfl, hst⟩ := items_append_inj (fun _ _ _ _ _ hs ht heq => render_append_inj hs ht heq) h
    exact ⟨rfl, (List.cons.inj hst).2⟩
  | obj fields =>
    cases w <;> cases htype
    obtain ⟨rfl, hst⟩ := fields_append_inj (fun _ _ _ _ _ hs ht heq => render_append_inj hs ht heq) h
    exact ⟨rfl, (List.cons.inj hst).2⟩

end Json

section Start

-- Both ways to write a key put the values in front of the id.
theorem IndexKey.serialize_eq (key : IndexKey) :
    key.serialize = serializeIndexKey [key.fieldValue] key.docId := by
  simp [serialize, serializeIndexKey, indexKeyStart]

theorem CompoundIndexKey.serialize_eq {key : CompoundIndexKey} (h : key.fieldValues ≠ []) :
    key.serialize = serializeIndexKey key.fieldValues key.docId := by
  unfold serialize serializeIndexKey indexKeyStart
  rw [String.intercalate_append_of_ne_nil (by simpa using h) (by simp), String.intercalate_singleton]

def valuesText (values : List Json) : List Char := values.flatMap fun v => v.render.toList ++ ['|']

theorem toList_serializeIndexKey {values : List Json} (h : values ≠ []) (docId : String) :
    (serializeIndexKey values docId).toList = valuesText values ++ docId.toList := by
  have hkey := (CompoundIndexKey.mk values docId).toList_serialize
  rw [CompoundIndexKey.serialize_eq h, intercalate_append_singleton, CompoundIndexKey.texts, List.flatMap_map] at hkey
  exact hkey

theorem valuesText_append_inj {v w : List Json} (hlen : v.length = w.length) {s t : List Char}
    (h : valuesText v ++ s = valuesText w ++ t) : v = w ∧ s = t := by
  induction v generalizing w with
  | nil =>
    cases w with
    | nil => exact ⟨rfl, h⟩
    | cons b w => cases hlen
  | cons a v ih =>
    cases w with
    | nil => cases hlen
    | cons b w =>
      simp only [valuesText, List.flatMap_cons, List.append_assoc, List.singleton_append] at h
      obtain ⟨rfl, hrest⟩ := Json.render_append_bar_inj h
      obtain ⟨rfl, hst⟩ := ih (Nat.succ.inj hlen) hrest
      exact ⟨rfl, hst⟩

theorem startsWith_indexKeyStart {v w : List Json} (hv : v ≠ []) (hlen : v.length = w.length)
    (docId : String) :
    (serializeIndexKey w docId).startsWith (indexKeyStart v) ↔ v.map Json.render = w.map Json.render := by
  have hw : w ≠ [] := by
    rw [← List.length_pos_iff, ← hlen]
    exact List.length_pos_iff.mpr hv
  rw [String.startsWith_string_iff]
  constructor
  · rintro ⟨rest, hrest⟩
    have hstart : (indexKeyStart v).toList = valuesText v := by
      simpa [serializeIndexKey] using toList_serializeIndexKey hv ""
    rw [hstart, toList_serializeIndexKey hw] at hrest
    rw [(valuesText_append_inj hlen hrest).1]
  · intro heq
    unfold serializeIndexKey indexKeyStart
    rw [heq]
    simp only [String.toList_append]
    exact List.prefix_append _ _

end Start

section Taken

open TxBTree

-- `create_compound_index` refuses an index without fields.
theorem hasPrefix_exact {v : List Json} (hv : v ≠ []) :
    (∀ key : IndexKey, v.length = 1 →
      (key.serialize.startsWith (indexKeyStart v) ↔ v.map Json.render = [key.fieldValue.render])) ∧
    (∀ key : CompoundIndexKey, v.length = key.fieldValues.length →
      (key.serialize.startsWith (indexKeyStart v) ↔ v.map Json.render = key.fieldValues.map Json.render)) ∧
    ∀ (t : TxBTree) (db : Database) (M : KeyMap), t.Denotes db M →
      (∀ key, (M key).isSome → ∃ w docId, v.length = w.length ∧ key = serializeIndexKey w docId) →
      ∃ found, (Proc.exec (hasPrefix (indexKeyStart v)) t db).1 = .ok found ∧
        (found ↔ ∃ docId, (M (serializeIndexKey v docId)).isSome) := by
  refine ⟨fun key hlen => ?_, fun key hlen => ?_, fun t db M h hkeys => ?_⟩
  · rw [key.serialize_eq]
    exact startsWith_indexKeyStart (w := [key.fieldValue]) hv hlen _
  · have hvalues : key.fieldValues ≠ [] := by
      rw [← List.length_pos_iff, ← hlen]
      exact List.length_pos_iff.mpr hv
    rw [key.serialize_eq hvalues]
    exact startsWith_indexKeyStart hv hlen _
  · obtain ⟨found, he, hfound⟩ := h.exec_hasPrefix (indexKeyStart v)
    refine ⟨found, by rw [he], hfound.trans ⟨?_, ?_⟩⟩
    · rintro ⟨key, hkey, hstart⟩
      obtain ⟨w, docId, hlen, rfl⟩ := hkeys key hkey
      have hvalues := (startsWith_indexKeyStart hv hlen docId).mp hstart
      refine ⟨docId, ?_⟩
      unfold serializeIndexKey indexKeyStart at hkey ⊢
      rwa [hvalues]
    · rintro ⟨docId, hkey⟩
      exact ⟨_, hkey, (startsWith_indexKeyStart hv rfl docId).mpr rfl⟩

def cityTree : PageTree :=
  .node 2 ["\"NYC\"|30|b"] [.leaf 3 [⟨"\"LA|x\"|30|a", 10⟩] 4, .leaf 4 [⟨"\"NYC\"|30|b", 20⟩] 0]

theorem denotes_cityTree : Denotes (new 2 ∅) (dbOf cityTree 8) (mapOf cityTree.entries) :=
  ⟨rankOf cityTree, cityTree, represents_dbOf (T := cityTree) (by decide +kernel) (by decide +kernel)
    (by decide +kernel), rfl⟩

theorem hasPrefix_exact_city :
    (IndexKey.serialize ⟨.str "a|b", "c"⟩).startsWith (indexKeyStart [.str "a|b"]) ∧
    ¬(CompoundIndexKey.serialize ⟨[.str "LA|x", .num (.int 30)], "a"⟩).startsWith
      (indexKeyStart [.str "LA", .num (.int 30)]) ∧
    (Proc.exec (hasPrefix (indexKeyStart [.str "LA|x", .num (.int 30)])) (new 2 ∅) (dbOf cityTree 8)).1 = .ok true := by
  refine ⟨?_, fun h => ?_, ?_⟩
  · exact ((hasPrefix_exact (v := [.str "a|b"]) (by simp)).1 ⟨.str "a|b", "c"⟩ rfl).mpr rfl
  · have hvalues := ((hasPrefix_exact (v := [.str "LA", .num (.int 30)]) (by simp)).2.1
      ⟨[.str "LA|x", .num (.int 30)], "a"⟩ rfl).mp h
    exact absurd hvalues (by decide)
  · have hkeys : ∀ key, (mapOf cityTree.entries key).isSome →
        ∃ w docId, 2 = List.length w ∧ key = serializeIndexKey w docId := by
      intro key hkey
      obtain ⟨entry, hentry, rfl⟩ := mapOf_isSome.mp hkey
      have hcases : entry = ⟨"\"LA|x\"|30|a", 10⟩ ∨ entry = ⟨"\"NYC\"|30|b", 20⟩ := by
        simpa [cityTree, SearchTree.entries, SearchTree.entriesAll] using hentry
      rcases hcases with rfl | rfl
      · exact ⟨[.str "LA|x", .num (.int 30)], "a", rfl, by decide⟩
      · exact ⟨[.str "NYC", .num (.int 30)], "b", rfl, by decide⟩
    obtain ⟨found, he, hfound⟩ := (hasPrefix_exact (v := [.str "LA|x", .num (.int 30)]) (by simp)).2.2 _ _ _
      denotes_cityTree hkeys
    rw [he, hfound.mpr ⟨"a", by decide +kernel⟩]

end Taken

end JasonDb
