import Mathlib.Data.List.Induction
import Mathlib.Data.List.Perm.Subperm
import Mathlib.Logic.Function.Basic

namespace JasonDb.Lib

-- What is asked of a cache.
inductive CacheOp (κ α : Type) where
  | get (key : κ)
  | getReadOnly (key : κ)
  | put (key : κ) (value : α)
  | putDirty (key : κ) (value : α)
  | remove (key : κ)
  | markDirty (key : κ)
  | clearDirty (key : κ)
  | clearAllDirty

-- The key an operation uses, if that makes it the most recent one.
def CacheOp.used {κ α : Type} : CacheOp κ α → Option κ
  | .get key | .put key _ | .putDirty key _ => some key
  | _ => none

-- A bounded cache: its entries, the most recently used one first, and the keys that may not be
-- evicted.
structure Recency (κ α : Type) where
  capacity : Nat
  entries : List (κ × α)
  dirty : κ → Bool
  nodup : (entries.map Prod.fst).Nodup

namespace Recency

variable {κ α : Type} [DecidableEq κ]

def without (entries : List (κ × α)) (key : κ) : List (κ × α) :=
  entries.filter fun e => e.1 ≠ key

theorem without_sublist (entries : List (κ × α)) (key : κ) :
    List.Sublist (without entries key) entries := List.filter_sublist

theorem not_mem_without (entries : List (κ × α)) (key : κ) :
    key ∉ (without entries key).map Prod.fst := by
  simp [without]

-- The last clean entry goes, if there is one.
def evict (dirty : κ → Bool) (entries : List (κ × α)) : List (κ × α) :=
  match entries.reverse.find? fun e => !dirty e.1 with
  | some e => without entries e.1
  | none => entries

theorem evict_sublist (dirty : κ → Bool) (entries : List (κ × α)) :
    List.Sublist (evict dirty entries) entries := by
  unfold evict
  split
  · exact without_sublist entries _
  · exact List.Sublist.refl entries

def new (capacity : Nat) : Recency κ α := ⟨capacity, [], fun _ => false, List.nodup_nil⟩

variable (r : Recency κ α)

def keys : List κ := r.entries.map Prod.fst

def lookup (key : κ) : Option α := r.entries.lookup key

-- The key becomes the most recent one, with this value.
def touch (key : κ) (value : α) : Recency κ α where
  capacity := r.capacity
  entries := (key, value) :: without r.entries key
  dirty := r.dirty
  nodup := List.nodup_cons.mpr
    ⟨not_mem_without r.entries key, r.nodup.sublist ((without_sublist r.entries key).map _)⟩

def shrink : Recency κ α where
  capacity := r.capacity
  entries := if r.entries.length > r.capacity then evict r.dirty r.entries else r.entries
  dirty := r.dirty
  nodup := by
    split
    · exact r.nodup.sublist ((evict_sublist r.dirty r.entries).map _)
    · exact r.nodup

theorem shrink_sublist : List.Sublist r.shrink.entries r.entries := by
  unfold shrink
  dsimp only
  split
  · exact evict_sublist r.dirty r.entries
  · exact List.Sublist.refl r.entries

def get (key : κ) : Option α × Recency κ α :=
  match r.lookup key with
  | some value => (some value, r.touch key value)
  | none => (none, r)

def put (key : κ) (value : α) : Recency κ α :=
  if key ∈ r.keys then r.touch key value else (r.touch key value).shrink

def mark (key : κ) (flag : Bool) : Recency κ α :=
  { r with dirty := Function.update r.dirty key flag }

theorem mark_dirty (key key' : κ) (flag : Bool) :
    (r.mark key flag).dirty key' = if key' = key then flag else r.dirty key' :=
  Function.update_apply r.dirty key flag key'

def putDirty (key : κ) (value : α) : Recency κ α :=
  if key ∈ r.keys then (r.touch key value).mark key true
  else ((r.touch key value).mark key true).shrink

def remove (key : κ) : Recency κ α :=
  if key ∈ r.keys then
    { r.mark key false with
      entries := without r.entries key
      nodup := r.nodup.sublist ((without_sublist r.entries key).map _) }
  else r

-- The answer of a cache, and the cache after it.
def step : CacheOp κ α → Option α × Recency κ α
  | .get key => r.get key
  | .getReadOnly key => (r.lookup key, r)
  | .put key value => (none, r.put key value)
  | .putDirty key value => (none, r.putDirty key value)
  | .remove key => (none, r.remove key)
  | .markDirty key => (none, r.mark key true)
  | .clearDirty key => (none, r.mark key false)
  | .clearAllDirty => (none, { r with dirty := fun _ => false })

def run (ops : List (CacheOp κ α)) : Recency κ α := ops.foldl (fun r op => (r.step op).2) r

section Evict

variable {dirty : κ → Bool} {entries : List (κ × α)}

theorem without_middle {before after : List (κ × α)} {e : κ × α}
    (h : ((before ++ e :: after).map Prod.fst).Nodup) :
    without (before ++ e :: after) e.1 = before ++ after := by
  rw [List.map_append, List.map_cons] at h
  obtain ⟨-, hcons, hdisj⟩ := List.nodup_append.mp h
  have hbefore : ∀ f ∈ before, f.1 ≠ e.1 := by
    intro f hf
    exact hdisj f.1 (List.mem_map_of_mem hf) e.1 List.mem_cons_self
  have hafter : ∀ f ∈ after, f.1 ≠ e.1 := by
    intro f hf heq
    exact (List.nodup_cons.mp hcons).1 (heq ▸ List.mem_map_of_mem hf)
  have hbefore' : before.filter (fun f => f.1 ≠ e.1) = before := by
    rw [List.filter_eq_self]
    simpa using hbefore
  have hafter' : after.filter (fun f => f.1 ≠ e.1) = after := by
    rw [List.filter_eq_self]
    simpa using hafter
  rw [without, List.filter_append, List.filter_cons, hbefore', hafter']
  simp

-- What an eviction leaves: all but the least recently used clean entry.
inductive Evicts (dirty : κ → Bool) : List (κ × α) → List (κ × α) → Prop
  | clean (before : List (κ × α)) (e : κ × α) (after : List (κ × α)) (he : dirty e.1 = false)
      (hafter : ∀ f ∈ after, dirty f.1 = true) : Evicts dirty (before ++ e :: after) (before ++ after)
  | none (entries : List (κ × α)) (hdirty : ∀ e ∈ entries, dirty e.1 = true) :
      Evicts dirty entries entries

theorem evicts_evict (h : (entries.map Prod.fst).Nodup) : Evicts dirty entries (evict dirty entries) := by
  unfold evict
  split
  case h_1 e he =>
    obtain ⟨hclean, after, before, hsplit, hafter⟩ := List.find?_eq_some_iff_append.mp he
    have hentries : entries = before.reverse ++ e :: after.reverse := by
      rw [← entries.reverse_reverse, hsplit]
      simp
    subst hentries
    rw [without_middle h]
    refine .clean _ _ _ (by simpa using hclean) ?_
    intro f hf
    simpa using hafter f (List.mem_reverse.mp hf)
  case h_2 hnone =>
    refine .none entries ?_
    intro e he
    simpa using List.find?_eq_none.mp hnone e (List.mem_reverse.mpr he)

-- No dirty entry is lost.
omit [DecidableEq κ] in
theorem Evicts.mem {left : List (κ × α)} (h : Evicts dirty entries left) {e : κ × α}
    (he : e ∈ entries) (hdirty : dirty e.1 = true) : e ∈ left := by
  cases h with
  | clean before evicted after hclean hafter =>
    rcases List.mem_append.mp he with he | he
    · exact List.mem_append_left after he
    · rcases List.mem_cons.mp he with rfl | he
      · rw [hclean] at hdirty
        cases hdirty
      · exact List.mem_append_right before he
  | none => exact he

end Evict

theorem without_of_not_mem {entries : List (κ × α)} {key : κ}
    (h : key ∉ entries.map Prod.fst) : without entries key = entries := by
  rw [without, List.filter_eq_self]
  intro e he
  simp only [ne_eq, decide_eq_true_eq]
  rintro rfl
  exact h (List.mem_map_of_mem he)

theorem lookup_eq_some {r : Recency κ α} {key : κ} {value : α} :
    r.lookup key = some value ↔ (key, value) ∈ r.entries := by
  constructor
  · intro h
    obtain ⟨before, after, hsplit, -⟩ := List.lookup_eq_some_iff.mp h
    rw [hsplit]
    exact List.mem_append_right before List.mem_cons_self
  · intro h
    have hnodup := r.nodup
    obtain ⟨before, after, hsplit⟩ := List.append_of_mem h
    rw [hsplit, List.map_append, List.nodup_append] at hnodup
    rw [lookup, hsplit, List.lookup_append, List.lookup_eq_none_iff.mpr, Option.none_or,
      List.lookup_cons_self]
    intro e he
    simp only [bne_iff_ne, ne_eq]
    rintro rfl
    exact hnodup.2.2 e.1 (List.mem_map_of_mem he) e.1 List.mem_cons_self rfl

section Order

-- When a key was last used: the number of operations up to then. The history has the last
-- operation first.
def lastUse (key : κ) : List (CacheOp κ α) → Nat
  | [] => 0
  | op :: older => if op.used = some key then older.length + 1 else lastUse key older

theorem lastUse_le (key : κ) (history : List (CacheOp κ α)) :
    lastUse key history ≤ history.length := by
  induction history with
  | nil => exact Nat.le_refl 0
  | cons op older ih =>
    rw [lastUse, List.length_cons]
    split
    · exact Nat.le_refl _
    · omega

-- The entries are in order of last use.
def Ordered (history : List (CacheOp κ α)) : Prop :=
  r.entries.Pairwise fun e f => lastUse f.1 history < lastUse e.1 history

variable {r} {history : List (CacheOp κ α)}

theorem Ordered.sublist {r' : Recency κ α} (h : r.Ordered history)
    (hsub : List.Sublist r'.entries r.entries) : r'.Ordered history := List.Pairwise.sublist hsub h

-- An operation that uses no key of the cache keeps the order.
theorem Ordered.later (h : r.Ordered history) {op : CacheOp κ α}
    (hop : ∀ key, op.used = some key → key ∉ r.keys) : r.Ordered (op :: history) := by
  refine List.Pairwise.imp_of_mem ?_ h
  intro e f he hf hlt
  have hkeep : ∀ g ∈ r.entries, lastUse g.1 (op :: history) = lastUse g.1 history := by
    intro g hg
    rw [lastUse, if_neg]
    intro hused
    exact hop g.1 hused (List.mem_map_of_mem hg)
  rwa [hkeep e he, hkeep f hf]

theorem Ordered.touch (h : r.Ordered history) {op : CacheOp κ α} {key : κ} (hop : op.used = some key)
    (value : α) : (r.touch key value).Ordered (op :: history) := by
  have hothers : ∀ f ∈ without r.entries key, lastUse f.1 (op :: history) = lastUse f.1 history := by
    intro f hf
    have hne : f.1 ≠ key := by simpa [without] using (List.mem_filter.mp hf).2
    rw [lastUse, if_neg]
    intro hused
    exact hne (Option.some.inj (hused.symm.trans hop))
  refine List.pairwise_cons.mpr ⟨?_, ?_⟩
  · intro f hf
    rw [hothers f hf, lastUse, if_pos hop]
    exact Nat.lt_succ_of_le (lastUse_le f.1 history)
  · refine List.Pairwise.imp_of_mem ?_ (List.Pairwise.sublist (without_sublist r.entries key) h)
    intro e f he hf hlt
    rwa [hothers e he, hothers f hf]

theorem Ordered.shrink (h : r.Ordered history) : r.shrink.Ordered history :=
  h.sublist (shrink_sublist r)

theorem lookup_eq_none {key : κ} : r.lookup key = none ↔ key ∉ r.keys := by
  unfold lookup keys
  rw [List.lookup_eq_none_iff, List.mem_map]
  constructor
  · rintro h ⟨e, he, rfl⟩
    simpa using h e he
  · intro h e he
    simp only [bne_iff_ne, ne_eq]
    intro heq
    exact h ⟨e, he, heq.symm⟩

theorem Ordered.step (h : r.Ordered history) (op : CacheOp κ α) :
    (r.step op).2.Ordered (op :: history) := by
  cases op with
  | get key =>
    simp only [Recency.step, Recency.get]
    split
    · exact h.touch rfl _
    · next hnone =>
      refine h.later ?_
      rintro _ ⟨⟩
      exact lookup_eq_none.mp hnone
  | put key value =>
    simp only [Recency.step, Recency.put]
    split
    · exact h.touch rfl value
    · exact (h.touch rfl value).shrink
  | putDirty key value =>
    simp only [Recency.step, Recency.putDirty]
    split
    · exact h.touch rfl value
    · exact Ordered.shrink (h.touch rfl value)
  | remove key =>
    simp only [Recency.step, Recency.remove]
    split
    · exact (h.later (by simp [CacheOp.used])).sublist (without_sublist r.entries key)
    · exact h.later (by simp [CacheOp.used])
  | getReadOnly key => exact h.later (by simp [CacheOp.used])
  | markDirty key => exact h.later (by simp [CacheOp.used])
  | clearDirty key => exact h.later (by simp [CacheOp.used])
  | clearAllDirty => exact h.later (by simp [CacheOp.used])

end Order

section Eviction

variable {r} {key : κ}

theorem evicts_shrink (h : r.capacity < r.entries.length) : Evicts r.dirty r.entries r.shrink.entries := by
  have hentries : r.shrink.entries = evict r.dirty r.entries := if_pos h
  rw [hentries]
  exact evicts_evict r.nodup

theorem touch_entries (h : key ∉ r.keys) (value : α) :
    (r.touch key value).entries = (key, value) :: r.entries :=
  congrArg _ (without_of_not_mem h)

-- A new key in a full cache.
theorem evicts_put (h : key ∉ r.keys) (hfull : r.capacity ≤ r.entries.length) (value : α) :
    Evicts r.dirty ((key, value) :: r.entries) (r.put key value).entries := by
  rw [put, if_neg h, ← touch_entries h]
  refine evicts_shrink (r := r.touch key value) ?_
  show r.capacity < (r.touch key value).entries.length
  rw [touch_entries h]
  exact Nat.lt_succ_of_le hfull

theorem evicts_putDirty (h : key ∉ r.keys) (hfull : r.capacity ≤ r.entries.length) (value : α) :
    Evicts (r.mark key true).dirty ((key, value) :: r.entries) (r.putDirty key value).entries := by
  rw [putDirty, if_neg h, ← touch_entries h]
  refine evicts_shrink (r := (r.touch key value).mark key true) ?_
  show r.capacity < (r.touch key value).entries.length
  rw [touch_entries h]
  exact Nat.lt_succ_of_le hfull

theorem mem_touch {key' : κ} {value : α} (h : key ∈ r.keys) : key ∈ (r.touch key' value).keys := by
  by_cases heq : key = key'
  · exact heq ▸ List.mem_cons_self
  · obtain ⟨e, he, rfl⟩ := List.mem_map.mp h
    refine List.mem_cons_of_mem _ (List.mem_map_of_mem (List.mem_filter.mpr ⟨he, ?_⟩))
    simpa using heq

theorem mem_shrink (h : key ∈ r.keys) (hdirty : r.dirty key = true) : key ∈ r.shrink.keys := by
  obtain ⟨e, he, rfl⟩ := List.mem_map.mp h
  refine List.mem_map_of_mem ?_
  by_cases hfull : r.capacity < r.entries.length
  · exact (evicts_shrink hfull).mem he hdirty
  · have hentries : r.shrink.entries = r.entries := if_neg hfull
    rw [hentries]
    exact he

-- Only a call that removes it takes a dirty key out of the cache.
theorem mem_step (h : key ∈ r.keys) (hdirty : r.dirty key = true) {op : CacheOp κ α}
    (hop : op ≠ .remove key) : key ∈ (r.step op).2.keys := by
  cases op with
  | get key' =>
    simp only [Recency.step, Recency.get]
    split
    · exact mem_touch h
    · exact h
  | put key' value =>
    simp only [Recency.step, Recency.put]
    split
    · exact mem_touch h
    · exact mem_shrink (mem_touch h) hdirty
  | putDirty key' value =>
    simp only [Recency.step, Recency.putDirty]
    split
    · exact mem_touch h
    · refine mem_shrink (r := (r.touch key' value).mark key' true) (mem_touch h) ?_
      rw [mark_dirty]
      split
      · rfl
      · exact hdirty
  | remove key' =>
    simp only [Recency.step, Recency.remove]
    split
    · obtain ⟨e, he, rfl⟩ := List.mem_map.mp h
      refine List.mem_map_of_mem (List.mem_filter.mpr ⟨he, ?_⟩)
      have hne : e.1 ≠ key' := fun heq => hop (heq ▸ rfl)
      simpa using hne
    · exact h
  | getReadOnly key' => exact h
  | markDirty key' => exact h
  | clearDirty key' => exact h
  | clearAllDirty => exact h

theorem lookup_touch (key key' : κ) (value : α) :
    (r.touch key value).lookup key' = if key' = key then some value else r.lookup key' := by
  by_cases h : key' = key
  · subst h
    rw [if_pos rfl]
    exact List.lookup_cons_self
  · rw [if_neg h]
    refine Option.ext fun v => ?_
    rw [lookup_eq_some, lookup_eq_some, touch, List.mem_cons, without, List.mem_filter]
    simp [h]

theorem lookup_remove (key key' : κ) :
    (r.remove key).lookup key' = if key' = key then none else r.lookup key' := by
  unfold remove
  by_cases h : key' = key
  · subst h
    rw [if_pos rfl, lookup_eq_none]
    split
    · exact not_mem_without r.entries key'
    · assumption
  · rw [if_neg h]
    split
    · refine Option.ext fun v => ?_
      rw [lookup_eq_some, lookup_eq_some]
      show (key', v) ∈ without r.entries key ↔ _
      rw [without, List.mem_filter]
      simp [h]
    · rfl

-- An entry stays, or was clean and is gone.
theorem lookup_shrink (key : κ) : r.shrink.lookup key = r.lookup key ∨
    r.shrink.lookup key = none ∧ r.dirty key = false := by
  cases hleft : r.shrink.lookup key with
  | some value =>
    exact .inl (lookup_eq_some.mpr ((shrink_sublist r).mem (lookup_eq_some.mp hleft))).symm
  | none =>
    by_cases hmem : key ∈ r.keys
    · refine .inr ⟨rfl, ?_⟩
      by_contra hdirty
      exact lookup_eq_none.mp hleft (mem_shrink hmem (by simpa using hdirty))
    · exact .inl (lookup_eq_none.mpr hmem).symm

-- A new key stays unless it is the only clean one in a full cache.
theorem lookup_put_new (h : key ∉ r.keys) (value : α) :
    (r.put key value).lookup key = some value ↔
      r.dirty key = true ∨ r.entries.length < r.capacity ∨ ∃ e ∈ r.entries, r.dirty e.1 = false := by
  by_cases hfull : r.capacity ≤ r.entries.length
  · have hevicts := evicts_put h hfull value
    rw [lookup_eq_some]
    generalize hentries : (key, value) :: r.entries = entries at hevicts
    generalize (r.put key value).entries = left at hevicts ⊢
    cases hevicts with
    | none _ hdirty =>
      rw [← hentries] at hdirty ⊢
      exact ⟨fun _ => .inl (hdirty _ List.mem_cons_self), fun _ => List.mem_cons_self⟩
    | clean before e after hclean hdirty =>
      cases before with
      | nil =>
        -- The new key itself goes: all others are dirty.
        obtain ⟨rfl, rfl⟩ := List.cons.inj hentries
        constructor
        · intro hmem
          exact absurd (List.mem_map_of_mem (f := Prod.fst) hmem) h
        · rintro (hkey | hroom | ⟨f, hf, hfclean⟩)
          · rw [hclean] at hkey
            cases hkey
          · exact absurd hfull (Nat.not_le.mpr hroom)
          · rw [hdirty f hf] at hfclean
            cases hfclean
      | cons first before =>
        obtain ⟨rfl, hrest⟩ := List.cons.inj hentries
        refine ⟨fun _ => .inr (.inr ⟨e, ?_, hclean⟩), fun _ => List.mem_cons_self⟩
        rw [hrest]
        exact List.mem_append_right before List.mem_cons_self
  · have hroom : r.entries.length < r.capacity := Nat.not_le.mp hfull
    have hkept : (r.put key value).lookup key = some value := by
      have hshrink : (r.touch key value).shrink.entries = (r.touch key value).entries := by
        refine if_neg ?_
        rw [touch_entries h]
        exact Nat.not_lt.mpr hroom
      rw [put, if_neg h, lookup_eq_some, hshrink, touch_entries h]
      exact List.mem_cons_self
    exact ⟨fun _ => .inr (.inl hroom), fun _ => hkept⟩

end Eviction

section Bounds

variable {r} {key : κ} {flags : List κ}

-- The cache grows past its capacity only by entries whose keys are among `flags`.
def Bounded (r : Recency κ α) (flags : List κ) : Prop :=
  r.entries.length ≤ max r.capacity flags.length

theorem length_touch (h : key ∈ r.keys) (value : α) :
    (r.touch key value).entries.length = r.entries.length := by
  obtain ⟨e, he, rfl⟩ := List.mem_map.mp h
  obtain ⟨before, after, hentries⟩ := List.append_of_mem he
  have hnodup := r.nodup
  rw [hentries] at hnodup
  have hwithout := without_middle hnodup
  rw [← hentries] at hwithout
  have htouch : (r.touch e.1 value).entries = (e.1, value) :: (before ++ after) := by
    rw [← hwithout]
    rfl
  rw [htouch, hentries]
  simp
  omega

omit [DecidableEq κ] in
theorem length_le_of_dirty (h : ∀ e ∈ r.entries, e.1 ∈ flags) : r.entries.length ≤ flags.length := by
  have hsub : r.keys ⊆ flags := by
    intro k hk
    obtain ⟨e, he, rfl⟩ := List.mem_map.mp hk
    exact h e he
  have hle := (List.subperm_of_subset r.nodup hsub).length_le
  rwa [List.length_map] at hle

-- One entry comes and at most one goes, so the insertion gives back none of an excess.
theorem bounded_insert (h : key ∉ r.keys) (hflags : ∀ k, r.dirty k = true → k ∈ flags) (value : α) :
    (r.touch key value).shrink.Bounded flags ↔ r.Bounded flags := by
  have hcapacity : (r.touch key value).shrink.capacity = r.capacity := rfl
  have hlength : (r.touch key value).entries.length = r.entries.length + 1 := by
    rw [touch_entries h, List.length_cons]
  unfold Bounded
  rw [hcapacity]
  by_cases hfull : r.capacity < (r.touch key value).entries.length
  · have hevicts := evicts_shrink (r := r.touch key value) hfull
    have hle : (∀ e ∈ (r.touch key value).shrink.entries, e.1 ∈ flags) →
        (r.touch key value).shrink.entries.length ≤ flags.length := length_le_of_dirty
    generalize (r.touch key value).shrink.entries = left at hevicts hle ⊢
    generalize (r.touch key value).entries = entries at hevicts hlength
    cases hevicts with
    | clean before e after _ _ =>
      rw [List.length_append, List.length_cons] at hlength
      rw [List.length_append]
      omega
    | none _ hdirty =>
      have := hle fun e he => hflags e.1 (hdirty e he)
      omega
  · have hshrink : (r.touch key value).shrink.entries = (r.touch key value).entries := if_neg hfull
    rw [hshrink]
    omega

theorem bounded_put (hflags : ∀ k, r.dirty k = true → k ∈ flags) (key : κ) (value : α) :
    (r.put key value).Bounded flags ↔ r.Bounded flags := by
  unfold put
  split
  next hmem =>
    unfold Bounded
    rw [length_touch hmem]
    rfl
  next hnew => exact bounded_insert hnew hflags value

theorem bounded_putDirty {key : κ} (hflags : ∀ k, (r.mark key true).dirty k = true → k ∈ flags)
    (value : α) : (r.putDirty key value).Bounded flags ↔ r.Bounded flags := by
  unfold putDirty
  split
  next hmem =>
    have hlength : ((r.touch key value).mark key true).entries.length = r.entries.length :=
      length_touch hmem value
    unfold Bounded
    rw [hlength]
    rfl
  next hnew => exact bounded_insert (r := r.mark key true) hnew hflags value

theorem length_remove (h : key ∈ r.keys) : (r.remove key).entries.length + 1 = r.entries.length := by
  cases hvalue : r.lookup key with
  | none => exact absurd h (lookup_eq_none.mp hvalue)
  | some value =>
    rw [remove, if_pos h, ← length_touch h value]
    rfl

end Bounds

theorem ordered_run (capacity : Nat) (ops : List (CacheOp κ α)) :
    ((new capacity).run ops).Ordered ops.reverse := by
  induction ops using List.reverseRecOn with
  | nil => exact List.Pairwise.nil
  | append_singleton ops op ih =>
    rw [run, List.foldl_append, List.reverse_append]
    exact ih.step op

end Recency

end JasonDb.Lib
