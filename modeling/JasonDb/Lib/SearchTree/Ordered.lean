import JasonDb.Lib.SearchTree.Zipper
import Mathlib.Data.List.Pairwise

namespace JasonDb.Lib

-- A key or one of the two ends of the key space.
abbrev Bound (K : Type) := WithBot (WithTop K)

def Bound.key {K : Type} (k : K) : Bound K := ((k : WithTop K) : WithBot (WithTop K))

theorem Bound.key_le_key {K : Type} [LinearOrder K] {a b : K} :
    Bound.key a ≤ Bound.key b ↔ a ≤ b := by
  simp [Bound.key]

theorem Bound.key_lt_key {K : Type} [LinearOrder K] {a b : K} :
    Bound.key a < Bound.key b ↔ a < b := by
  simp [Bound.key]

namespace SearchTree

variable {P P' K E : Type}

-- The lower bound a child gets from the separators before it.
def loOf (lo : Bound K) : List K → Bound K
  | [] => lo
  | k :: ks => loOf (.key k) ks

-- The upper bound a child gets from the separators after it.
def hiOf (hi : Bound K) : List K → Bound K
  | [] => hi
  | k :: _ => .key k

-- The key range the frames around a hole leave it.
def holeRange (lo hi : Bound K) : List (Frame P K E) → Bound K × Bound K
  | [] => (lo, hi)
  | fr :: ctx =>
      (loOf (holeRange lo hi ctx).1 fr.lkeys, hiOf (holeRange lo hi ctx).2 fr.rkeys)

theorem holeRange_mapPtr (f : P → P') (lo hi : Bound K) (ctx : List (Frame P K E)) :
    holeRange lo hi (ctx.map (Frame.mapPtr f)) = holeRange lo hi ctx := by
  induction ctx with
  | nil => rfl
  | cons fr ctx ih => simp [holeRange, ih, Frame.mapPtr]

variable [LinearOrder K]

-- What is asked of a leaf: its key range, address, entries and link.
abbrev LeafPred (P K E : Type) := Bound K → Bound K → P → List E → P → Prop

mutual

-- `Q` holds of every leaf with the key range the separators above leave it, and
-- every separator lies strictly inside the range of its node.
def All (Q : LeafPred P K E) (lo hi : Bound K) : SearchTree P K E → Prop
  | .leaf p entries next => Q lo hi p entries next
  | .node _ keys children => AllForest Q lo hi keys children

def AllForest (Q : LeafPred P K E) (lo hi : Bound K) : List K → List (SearchTree P K E) → Prop
  | [], [c] => All Q lo hi c
  | k :: ks, c :: cs =>
      All Q lo (.key k) c ∧ lo < .key k ∧ .key k < hi ∧ AllForest Q (.key k) hi ks cs
  | _, _ => False

end

section Decide

variable {Q : LeafPred P K E} [∀ lo hi p es nx, Decidable (Q lo hi p es nx)]

mutual

instance decidableAll (lo hi : Bound K) : (t : SearchTree P K E) → Decidable (All Q lo hi t)
  | .leaf p es nx => inferInstanceAs (Decidable (Q lo hi p es nx))
  | .node _ keys children => decidableForest lo hi keys children

instance decidableForest (lo hi : Bound K) :
    (keys : List K) → (children : List (SearchTree P K E)) →
      Decidable (AllForest Q lo hi keys children)
  | [], [c] => decidableAll lo hi c
  | k :: ks, c :: cs =>
    have : Decidable (All Q lo (.key k) c) := decidableAll lo (.key k) c
    have : Decidable (AllForest Q (.key k) hi ks cs) := decidableForest (.key k) hi ks cs
    inferInstanceAs (Decidable (All Q lo (.key k) c ∧ lo < .key k ∧ .key k < hi ∧
      AllForest Q (.key k) hi ks cs))
  | [], [] => .isFalse id
  | [], _ :: _ :: _ => .isFalse id
  | _ :: _, [] => .isFalse id

end

end Decide

-- The children before a hole.
def AllLeft (Q : LeafPred P K E) (lo hi : Bound K) : List K → List (SearchTree P K E) → Prop
  | [], [] => True
  | k :: ks, c :: cs =>
      All Q lo (.key k) c ∧ lo < .key k ∧ .key k < hi ∧ AllLeft Q (.key k) hi ks cs
  | _, _ => False

-- The children after a hole.
def AllRight (Q : LeafPred P K E) (lo hi : Bound K) : List K → List (SearchTree P K E) → Prop
  | [], [] => True
  | k :: ks, cs => lo < .key k ∧ .key k < hi ∧ AllForest Q (.key k) hi ks cs
  | _, _ => False

-- The frames around a hole are ordered, whatever is in the hole.
def AllOuter (Q : LeafPred P K E) (lo hi : Bound K) : List (Frame P K E) → Prop
  | [] => True
  | fr :: ctx => AllOuter Q lo hi ctx ∧
      AllLeft Q (holeRange lo hi ctx).1 (holeRange lo hi ctx).2 fr.lkeys fr.left ∧
      AllRight Q (holeRange lo hi (fr :: ctx)).1 (holeRange lo hi ctx).2 fr.rkeys fr.right

variable {Q Q' : LeafPred P K E}

theorem allForest_hole {lo hi : Bound K} {lkeys rkeys : List K}
    {left right : List (SearchTree P K E)} {t : SearchTree P K E}
    (hlen : lkeys.length = left.length) :
    AllForest Q lo hi (lkeys ++ rkeys) (left ++ t :: right) ↔
      AllLeft Q lo hi lkeys left ∧ AllRight Q (loOf lo lkeys) hi rkeys right ∧
        All Q (loOf lo lkeys) (hiOf hi rkeys) t := by
  induction lkeys generalizing lo left with
  | nil =>
    obtain rfl : left = [] := List.length_eq_zero_iff.mp hlen.symm
    cases rkeys with
    | nil =>
      cases right with
      | nil => simp [AllForest, AllLeft, AllRight, loOf, hiOf]
      | cons c cs => simp [AllForest, AllLeft, AllRight, loOf, hiOf]
    | cons k ks =>
      simp only [List.nil_append, AllForest, AllLeft, AllRight, loOf, hiOf]
      tauto
  | cons k ks ih =>
    cases left with
    | nil => simp at hlen
    | cons c cs =>
      have hlen' : ks.length = cs.length := by simpa using hlen
      simp only [List.cons_append, AllForest, AllLeft, loOf, ih hlen']
      tauto

theorem all_fill {lo hi : Bound K} (fr : Frame P K E) (t : SearchTree P K E) :
    All Q lo hi (fr.fill t) ↔
      AllLeft Q lo hi fr.lkeys fr.left ∧ AllRight Q (loOf lo fr.lkeys) hi fr.rkeys fr.right ∧
        All Q (loOf lo fr.lkeys) (hiOf hi fr.rkeys) t := by
  simp only [Frame.fill, Frame.keys, All]
  exact allForest_hole fr.balanced

theorem all_plug {lo hi : Bound K} (ctx : List (Frame P K E)) (t : SearchTree P K E) :
    All Q lo hi (plug ctx t) ↔
      AllOuter Q lo hi ctx ∧ All Q (holeRange lo hi ctx).1 (holeRange lo hi ctx).2 t := by
  induction ctx generalizing t with
  | nil => simp [plug, AllOuter, holeRange]
  | cons fr ctx ih =>
    simp only [plug, ih, all_fill, AllOuter, holeRange]
    tauto

-- Bounds only move inwards.
theorem AllLeft.bounds {lo hi : Bound K} {keys : List K} {left : List (SearchTree P K E)}
    (h : AllLeft Q lo hi keys left) (hlt : lo < hi) :
    lo ≤ loOf lo keys ∧ loOf lo keys < hi ∧ ∀ k ∈ keys, .key k ≤ loOf lo keys := by
  induction keys generalizing lo left with
  | nil => exact ⟨le_refl _, hlt, by simp⟩
  | cons k ks ih =>
    cases left with
    | nil => simp [AllLeft] at h
    | cons c cs =>
      obtain ⟨_, hlo, hhi, hrest⟩ := h
      obtain ⟨h1, h2, h3⟩ := ih hrest hhi
      refine ⟨(hlo.le).trans h1, h2, ?_⟩
      intro k' hk'
      rcases List.mem_cons.mp hk' with rfl | hk'
      · exact h1
      · exact h3 k' hk'

theorem AllRight.bounds {lo hi : Bound K} {keys : List K} {right : List (SearchTree P K E)}
    (h : AllRight Q lo hi keys right) (hlt : lo < hi) :
    lo < hiOf hi keys ∧ hiOf hi keys ≤ hi := by
  cases keys with
  | nil => exact ⟨hlt, le_refl _⟩
  | cons k ks =>
    obtain ⟨h1, h2, _⟩ := h
    exact ⟨h1, h2.le⟩

theorem AllOuter.bounds {lo hi : Bound K} {ctx : List (Frame P K E)} (h : AllOuter Q lo hi ctx)
    (hlt : lo < hi) :
    lo ≤ (holeRange lo hi ctx).1 ∧ (holeRange lo hi ctx).1 < (holeRange lo hi ctx).2 ∧
      (holeRange lo hi ctx).2 ≤ hi := by
  induction ctx with
  | nil => exact ⟨le_refl _, hlt, le_refl _⟩
  | cons fr ctx ih =>
    obtain ⟨hctx, hleft, hright⟩ := h
    obtain ⟨h1, h2, h3⟩ := ih hctx
    obtain ⟨l1, l2, _⟩ := hleft.bounds h2
    obtain ⟨r1, r2⟩ := hright.bounds l2
    exact ⟨h1.trans l1, r1, r2.trans h3⟩

-- The position the code computes from a key is that of the hole whose range has it.
theorem findIdx_hole {lo hi : Bound K} {fr : Frame P K E} {x : K}
    (hleft : AllLeft Q lo hi fr.lkeys fr.left) (hlt : lo < hi)
    (hlo : loOf lo fr.lkeys ≤ .key x) (hhi : .key x < hiOf hi fr.rkeys) :
    fr.keys.findIdx? (fun k => decide (x < k)) =
      if fr.rkeys = [] then none else some fr.lkeys.length := by
  have hl : fr.lkeys.findIdx? (fun k => decide (x < k)) = none := by
    rw [List.findIdx?_eq_none_iff]
    intro k hk
    have := ((hleft.bounds hlt).2.2 k hk).trans hlo
    simpa using Bound.key_le_key.mp this
  rw [Frame.keys, List.findIdx?_append, hl]
  cases hr : fr.rkeys with
  | nil => simp
  | cons k ks =>
    rw [hr] at hhi
    have hlt : x < k := Bound.key_lt_key.mp hhi
    simp [List.findIdx?_cons, hlt]

-- Every key of the range of a node is in the range of one of its children.
theorem AllForest.exists_hole {lo hi : Bound K} {keys : List K}
    {children : List (SearchTree P K E)} {x : K} (h : AllForest Q lo hi keys children)
    (hlo : lo ≤ .key x) (hhi : .key x < hi) (p : P) :
    ∃ (fr : Frame P K E) (t : SearchTree P K E),
      node p keys children = fr.fill t ∧ loOf lo fr.lkeys ≤ .key x ∧ .key x < hiOf hi fr.rkeys := by
  induction keys generalizing lo children with
  | nil =>
    cases children with
    | nil => simp [AllForest] at h
    | cons c cs =>
      cases cs with
      | nil => exact ⟨⟨p, [], [], [], [], rfl⟩, c, rfl, hlo, hhi⟩
      | cons d ds => simp [AllForest] at h
  | cons k ks ih =>
    cases children with
    | nil => simp [AllForest] at h
    | cons c cs =>
      obtain ⟨_, _, _, hrest⟩ := h
      rcases lt_or_ge x k with hx | hx
      · exact ⟨⟨p, [], [], k :: ks, cs, rfl⟩, c, rfl, hlo, Bound.key_lt_key.mpr hx⟩
      · obtain ⟨fr, t, heq, h1, h2⟩ := ih hrest (Bound.key_le_key.mpr hx)
        simp only [Frame.fill, Frame.keys, node.injEq] at heq
        obtain ⟨hp, hk, hc⟩ := heq
        refine ⟨⟨fr.ptr, k :: fr.lkeys, c :: fr.left, fr.rkeys, fr.right, ?_⟩, t, ?_, h1, h2⟩
        · simp [fr.balanced]
        · simp [Frame.fill, Frame.keys, hp, hk, hc]

-- A node cut at a separator.
theorem AllForest.split {lo hi : Bound K} {keys₁ keys₂ : List K} {k : K}
    {children₁ children₂ : List (SearchTree P K E)} (hlen : children₁.length = keys₁.length + 1)
    (h : AllForest Q lo hi (keys₁ ++ k :: keys₂) (children₁ ++ children₂)) :
    AllForest Q lo (.key k) keys₁ children₁ ∧ lo < .key k ∧ .key k < hi ∧
      AllForest Q (.key k) hi keys₂ children₂ := by
  induction keys₁ generalizing lo children₁ with
  | nil =>
    match children₁, hlen with
    | [c], _ =>
      obtain ⟨h1, h2, h3, h4⟩ := h
      exact ⟨h1, h2, h3, h4⟩
  | cons j js ih =>
    match children₁, hlen with
    | c :: cs, hlen =>
      obtain ⟨h1, h2, h3, h4⟩ := h
      obtain ⟨g1, g2, g3, g4⟩ := ih (by simpa using hlen) h4
      exact ⟨⟨h1, h2, g2, g1⟩, h2.trans g2, g3, g4⟩

theorem AllForest.length {lo hi : Bound K} {keys : List K} {children : List (SearchTree P K E)}
    (h : AllForest Q lo hi keys children) : children.length = keys.length + 1 := by
  induction keys generalizing lo children with
  | nil =>
    match children, h with
    | [c], _ => rfl
  | cons k ks ih =>
    match children, h with
    | c :: cs, h => simp [ih h.2.2.2]

-- A node cut at the separator at `mid`.
theorem AllForest.halves {lo hi : Bound K} {keys : List K} {children : List (SearchTree P K E)}
    (h : AllForest Q lo hi keys children) {mid : Nat} (hmid : mid < keys.length) :
    ∃ promote, keys[mid]? = some promote ∧
      AllForest Q lo (.key promote) (keys.take mid) (children.take (mid + 1)) ∧ lo < .key promote ∧
      .key promote < hi ∧ AllForest Q (.key promote) hi (keys.drop (mid + 1)) (children.drop (mid + 1)) := by
  have hlen := h.length
  have hkeys : keys = keys.take mid ++ keys[mid] :: keys.drop (mid + 1) := by
    rw [← List.drop_eq_getElem_cons hmid, List.take_append_drop]
  refine ⟨keys[mid], List.getElem?_eq_getElem hmid, ?_⟩
  rw [hkeys, ← List.take_append_drop (mid + 1) children] at h
  refine h.split ?_
  rw [List.length_take, List.length_take, hlen]
  omega

-- Every child has a key range in which it is ordered.
theorem AllForest.child {lo hi : Bound K} {keys : List K} {children : List (SearchTree P K E)}
    (h : AllForest Q lo hi keys children) {d : SearchTree P K E} (hd : d ∈ children) :
    ∃ lo' hi', All Q lo' hi' d := by
  induction keys generalizing lo children with
  | nil =>
    match children, h with
    | [c], h =>
      obtain rfl := List.mem_singleton.mp hd
      exact ⟨lo, hi, h⟩
  | cons k ks ih =>
    match children, h with
    | c :: cs, h =>
      rcases List.mem_cons.mp hd with rfl | hd
      · exact ⟨lo, _, h.1⟩
      · exact ih h.2.2.2 hd

theorem AllRight.insert {lo hi : Bound K} {s : K} {keys : List K}
    {right : List (SearchTree P K E)} {t : SearchTree P K E} (h : AllRight Q lo hi keys right)
    (hlt : lo < hi) (hlo : lo < .key s) (hhi : .key s < hiOf hi keys)
    (ht : All Q (.key s) (hiOf hi keys) t) : AllRight Q lo hi (s :: keys) (t :: right) := by
  refine ⟨hlo, lt_of_lt_of_le hhi (h.bounds hlt).2, ?_⟩
  match keys, right, h with
  | [], [], _ => exact ht
  | k :: ks, right, h => exact ⟨ht, hhi, h.2.1, h.2.2⟩

theorem All.insertRight {lo hi : Bound K} {fr : Frame P K E} {s : K} {l r : SearchTree P K E}
    (hleft : AllLeft Q lo hi fr.lkeys fr.left)
    (hright : AllRight Q (loOf lo fr.lkeys) hi fr.rkeys fr.right) (hlt : lo < hi)
    (hlo : loOf lo fr.lkeys < .key s) (hhi : .key s < hiOf hi fr.rkeys)
    (hl : All Q (loOf lo fr.lkeys) (.key s) l) (hr : All Q (.key s) (hiOf hi fr.rkeys) r) :
    All Q lo hi ((fr.insertRight s r).fill l) :=
  (all_fill _ _).mpr ⟨hleft, hright.insert (hleft.bounds hlt).2.1 hlo hhi hr, hl⟩

-- Leaf conditions carry over along a change of addresses.
theorem All.mapPtr {Q' : LeafPred P' K E} {f : P → P'} {t : SearchTree P K E} {lo hi : Bound K}
    (h : All Q lo hi t)
    (hQ : ∀ lo hi p es nx, Q lo hi p es nx → Q' lo hi (f p) es (f nx)) :
    All Q' lo hi (t.mapPtr f) := by
  induction t using SearchTree.induct generalizing lo hi with
  | leaf p es nx => exact hQ _ _ _ _ _ h
  | node p keys children ih =>
    rw [mapPtr_node]
    simp only [All] at h ⊢
    induction children generalizing keys lo with
    | nil => cases keys <;> simp [AllForest] at h
    | cons c cs ihc =>
      have hc : ∀ {lo hi}, All Q lo hi c → All Q' lo hi (c.mapPtr f) := ih c (by simp)
      have hcs : ∀ d ∈ cs, ∀ {lo hi}, All Q lo hi d → All Q' lo hi (d.mapPtr f) :=
        fun d hd => ih d (by simp [hd])
      match keys, cs, h with
      | [], [], h => exact hc h
      | k :: ks, cs, h => exact ⟨hc h.1, h.2.1, h.2.2.1, ihc ks hcs h.2.2.2⟩

theorem All.mono {t : SearchTree P K E} {lo hi : Bound K} (h : All Q lo hi t)
    (hQ : ∀ lo hi p es nx, Q lo hi p es nx → Q' lo hi p es nx) : All Q' lo hi t := by
  have := h.mapPtr (f := id) hQ
  rwa [mapPtr_id] at this

-- The leaf holds its entries in increasing order, all of them in its range.
def LeafSorted (key : E → K) : LeafPred P K E := fun lo hi _ es _ =>
  es.Pairwise (fun a b => key a < key b) ∧ ∀ e ∈ es, lo ≤ .key (key e) ∧ .key (key e) < hi

section Cells

theorem AllForest.keys_sorted {lo hi : Bound K} {keys : List K} {children : List (SearchTree P K E)}
    (h : AllForest Q lo hi keys children) :
    keys.Pairwise (· < ·) ∧ ∀ k ∈ keys, lo < .key k := by
  induction keys generalizing lo children with
  | nil => exact ⟨List.Pairwise.nil, by simp⟩
  | cons k ks ih =>
    match children, h with
    | c :: cs, h =>
      obtain ⟨_, hlo, _, hrest⟩ := h
      obtain ⟨hsorted, hks⟩ := ih hrest
      refine ⟨List.pairwise_cons.mpr ⟨fun j hj => Bound.key_lt_key.mp (hks j hj), hsorted⟩, ?_⟩
      intro j hj
      rcases List.mem_cons.mp hj with rfl | hj
      · exact hlo
      · exact hlo.trans (hks j hj)

-- Every node of an ordered tree is ordered for a key range of its own.
theorem All.of_cell {t : SearchTree P K E} {lo hi : Bound K} (h : All Q lo hi t)
    {c : P × Shape P K E} (hc : c ∈ t.cells) :
    ∃ lo' hi' u, All Q lo' hi' u ∧ (u.ptr, u.shape) = c := by
  induction t using SearchTree.induct generalizing lo hi with
  | leaf p es nx =>
    obtain rfl : c = (p, .leaf es nx) := by simpa [cells] using hc
    exact ⟨lo, hi, _, h, rfl⟩
  | node p keys children ih =>
    rw [cells_node] at hc
    rcases List.mem_cons.mp hc with rfl | hc
    · exact ⟨lo, hi, _, h, rfl⟩
    · obtain ⟨d, hd, hcd⟩ := List.mem_flatMap.mp hc
      obtain ⟨lo', hi', hall⟩ := AllForest.child h hd
      exact ih d hd hall hcd

theorem All.leaf_of_cell {t : SearchTree P K E} {lo hi : Bound K} (h : All Q lo hi t) {p nx : P}
    {es : List E} (hc : (p, Shape.leaf es nx) ∈ t.cells) : ∃ lo' hi', Q lo' hi' p es nx := by
  obtain ⟨lo', hi', u, hu, he⟩ := h.of_cell hc
  cases u with
  | leaf q es' nx' =>
    simp only [ptr, shape, Prod.mk.injEq, Shape.leaf.injEq] at he
    obtain ⟨rfl, rfl, rfl⟩ := he
    exact ⟨lo', hi', hu⟩
  | node q keys children => simp [shape] at he

theorem All.forest_of_cell {t : SearchTree P K E} {lo hi : Bound K} (h : All Q lo hi t) {p : P}
    {keys : List K} {pages : List P} (hc : (p, Shape.node keys pages) ∈ t.cells) :
    ∃ lo' hi' children, AllForest Q lo' hi' keys children ∧ children.map ptr = pages := by
  obtain ⟨lo', hi', u, hu, he⟩ := h.of_cell hc
  cases u with
  | leaf q es nx => simp [shape] at he
  | node q keys' children =>
    simp only [ptr, shape, Prod.mk.injEq, Shape.node.injEq] at he
    obtain ⟨rfl, rfl, rfl⟩ := he
    exact ⟨lo', hi', children, hu, rfl⟩

end Cells

-- A leaf cut before one of its entries, other than the first.
theorem LeafSorted.cut {key : E → K} {lo hi : Bound K} {p nx : P} {l r : List E} {first : E}
    (h : LeafSorted key lo hi p (l ++ first :: r) nx) (hl : l ≠ []) (p₁ p₂ nx₁ nx₂ : P) :
    lo < .key (key first) ∧ .key (key first) < hi ∧
      LeafSorted key lo (.key (key first)) p₁ l nx₁ ∧
      LeafSorted key (.key (key first)) hi p₂ (first :: r) nx₂ := by
  obtain ⟨hsorted, hrange⟩ := h
  obtain ⟨hsl, hsr, hlr⟩ := List.pairwise_append.mp hsorted
  have hbelow : ∀ e ∈ l, lo ≤ .key (key e) ∧ Bound.key (key e) < .key (key first) := fun e he =>
    ⟨(hrange e (List.mem_append_left _ he)).1,
      Bound.key_lt_key.mpr (hlr e he first (List.mem_cons_self ..))⟩
  refine ⟨?_, (hrange first (by simp)).2, ⟨hsl, hbelow⟩, hsr, ?_⟩
  · obtain ⟨e, he⟩ := List.exists_mem_of_ne_nil _ hl
    exact lt_of_le_of_lt (hbelow e he).1 (hbelow e he).2
  · intro e he
    refine ⟨?_, (hrange e (List.mem_append_right _ he)).2⟩
    rcases List.mem_cons.mp he with rfl | he
    · exact le_refl _
    · exact (Bound.key_lt_key.mpr ((List.pairwise_cons.mp hsr).1 e he)).le

section Sorted

variable {key : E → K} (hQ : ∀ lo hi p es nx, Q lo hi p es nx → LeafSorted key lo hi p es nx)

include hQ

theorem All.entries_range {t : SearchTree P K E} {lo hi : Bound K} (h : All Q lo hi t)
    (hlt : lo < hi) : ∀ e ∈ t.entries, lo ≤ .key (key e) ∧ .key (key e) < hi := by
  induction t using SearchTree.induct generalizing lo hi with
  | leaf p es nx => exact (hQ _ _ _ _ _ h).2
  | node p keys children ih =>
    rw [entries_node]
    simp only [All] at h
    induction children generalizing keys lo with
    | nil => simp
    | cons c cs ihc =>
      have hcs : ∀ d ∈ cs, ∀ {lo hi}, All Q lo hi d → lo < hi →
          ∀ e ∈ d.entries, lo ≤ .key (key e) ∧ .key (key e) < hi := fun d hd => ih d (by simp [hd])
      intro e he
      rw [List.flatMap_cons, List.mem_append] at he
      match keys, cs, h with
      | [], [], h =>
        rcases he with he | he
        · exact ih c (by simp) h hlt e he
        · simp at he
      | k :: ks, cs, h =>
        obtain ⟨h1, h2, h3, h4⟩ := h
        rcases he with he | he
        · obtain ⟨g1, g2⟩ := ih c (by simp) h1 h2 e he
          exact ⟨g1, g2.trans h3⟩
        · obtain ⟨g1, g2⟩ := ihc ks hcs h4 h3 e he
          exact ⟨h2.le.trans g1, g2⟩

-- All entries of an ordered tree are in increasing order.
theorem All.entries_sorted {t : SearchTree P K E} {lo hi : Bound K} (h : All Q lo hi t)
    (hlt : lo < hi) : t.entries.Pairwise fun a b => key a < key b := by
  induction t using SearchTree.induct generalizing lo hi with
  | leaf p es nx => exact (hQ _ _ _ _ _ h).1
  | node p keys children ih =>
    rw [entries_node]
    simp only [All] at h
    induction children generalizing keys lo with
    | nil => simp
    | cons c cs ihc =>
      have hcs : ∀ d ∈ cs, ∀ {lo hi}, All Q lo hi d → lo < hi →
          d.entries.Pairwise fun a b => key a < key b := fun d hd => ih d (by simp [hd])
      rw [List.flatMap_cons]
      match keys, cs, h with
      | [], [], h => simpa using ih c (by simp) h hlt
      | k :: ks, cs, h =>
        obtain ⟨h1, h2, h3, h4⟩ := h
        refine List.pairwise_append.mpr ⟨ih c (by simp) h1 h2, ihc ks hcs h4 h3, ?_⟩
        intro a ha b hb
        have hrest : All Q (.key k) hi (node p ks cs) := h4
        have hle := (hrest.entries_range hQ h3 b (by rwa [entries_node])).1
        exact Bound.key_lt_key.mp (lt_of_lt_of_le (h1.entries_range hQ h2 a ha).2 hle)

theorem AllForest.entries_range {keys : List K} {children : List (SearchTree P K E)}
    {lo hi : Bound K} (h : AllForest Q lo hi keys children) (hlt : lo < hi) :
    ∀ e ∈ children.flatMap entries, lo ≤ .key (key e) ∧ .key (key e) < hi := by
  match children, h with
  | c :: cs, h =>
    have hnode : All Q lo hi (node c.ptr keys (c :: cs)) := h
    have := hnode.entries_range hQ hlt
    rwa [entries_node] at this
  | [], _ => simp

theorem AllLeft.entries_lt {lo hi : Bound K} {keys : List K} {left : List (SearchTree P K E)}
    (h : AllLeft Q lo hi keys left) (hlt : lo < hi) :
    ∀ e ∈ left.flatMap entries, .key (key e) < loOf lo keys := by
  induction keys generalizing lo left with
  | nil =>
    match left, h with
    | [], _ => simp
  | cons k ks ih =>
    match left, h with
    | c :: cs, h =>
      obtain ⟨h1, h2, h3, h4⟩ := h
      intro e he
      rw [List.flatMap_cons, List.mem_append] at he
      rcases he with he | he
      · exact lt_of_lt_of_le (h1.entries_range hQ h2 e he).2 (h4.bounds h3).1
      · exact ih h4 h3 e he

theorem AllRight.le_entries {lo hi : Bound K} {keys : List K} {right : List (SearchTree P K E)}
    (h : AllRight Q lo hi keys right) :
    ∀ e ∈ right.flatMap entries, hiOf hi keys ≤ .key (key e) := by
  match keys, right, h with
  | [], [], _ => simp
  | k :: ks, right, h =>
    intro e he
    exact (h.2.2.entries_range hQ h.2.1 e he).1

theorem AllOuter.entriesBefore_lt {lo hi : Bound K} {ctx : List (Frame P K E)}
    (h : AllOuter Q lo hi ctx) (hlt : lo < hi) :
    ∀ e ∈ entriesBefore ctx, .key (key e) < (holeRange lo hi ctx).1 := by
  induction ctx with
  | nil => simp [entriesBefore]
  | cons fr ctx ih =>
    obtain ⟨hctx, hleft, _⟩ := h
    have hmid := (hctx.bounds hlt).2.1
    intro e he
    rw [entriesBefore, List.mem_append] at he
    rcases he with he | he
    · exact lt_of_lt_of_le (ih hctx e he) (hleft.bounds hmid).1
    · exact hleft.entries_lt hQ hmid e he

theorem AllOuter.le_entriesAfter {lo hi : Bound K} {ctx : List (Frame P K E)}
    (h : AllOuter Q lo hi ctx) (hlt : lo < hi) :
    ∀ e ∈ entriesAfter ctx, (holeRange lo hi ctx).2 ≤ .key (key e) := by
  induction ctx with
  | nil => simp [entriesAfter]
  | cons fr ctx ih =>
    obtain ⟨hctx, hleft, hright⟩ := h
    have hmid := (hctx.bounds hlt).2.1
    have hhi := (hright.bounds (hleft.bounds hmid).2.1).2
    intro e he
    rw [entriesAfter, List.mem_append] at he
    rcases he with he | he
    · exact hright.le_entries hQ e he
    · exact hhi.trans (ih hctx e he)

end Sorted

mutual

-- The leaves from left to right, each with its key range.
def ranges (lo hi : Bound K) : SearchTree P K E → List (Bound K × Bound K × P)
  | .leaf p _ _ => [(lo, hi, p)]
  | .node _ keys children => rangesForest lo hi keys children

def rangesForest (lo hi : Bound K) :
    List K → List (SearchTree P K E) → List (Bound K × Bound K × P)
  | [], [c] => ranges lo hi c
  | k :: ks, c :: cs => ranges lo (.key k) c ++ rangesForest (.key k) hi ks cs
  | _, _ => []

end

-- The leaf a range is of.
theorem All.leaf_of_range {t : SearchTree P K E} {lo hi : Bound K} (h : All Q lo hi t)
    (hlt : lo < hi) {r : Bound K × Bound K × P} (hr : r ∈ ranges lo hi t) :
    ∃ es nx, (r.2.2, Shape.leaf es nx) ∈ t.cells ∧ Q r.1 r.2.1 r.2.2 es nx ∧ r.1 < r.2.1 := by
  induction t using SearchTree.induct generalizing lo hi with
  | leaf p es nx =>
    obtain rfl : r = (lo, hi, p) := by simpa [ranges] using hr
    exact ⟨es, nx, by simp [cells], h, hlt⟩
  | node p keys children ih =>
    simp only [All, ranges] at h hr
    have key : ∃ c ∈ children, ∃ es nx, (r.2.2, Shape.leaf es nx) ∈ c.cells ∧
        Q r.1 r.2.1 r.2.2 es nx ∧ r.1 < r.2.1 := by
      induction children generalizing keys lo with
      | nil => cases keys <;> simp [rangesForest] at hr
      | cons c cs ihc =>
        cases keys with
        | nil =>
          cases cs with
          | nil => exact ⟨c, by simp, ih c (by simp) h hlt hr⟩
          | cons d ds => simp [AllForest] at h
        | cons k ks =>
          obtain ⟨h1, h2, h3, h4⟩ := h
          simp only [rangesForest, List.mem_append] at hr
          rcases hr with hr | hr
          · exact ⟨c, by simp, ih c (by simp) h1 h2 hr⟩
          · obtain ⟨d, hd, hres⟩ := ihc ks (fun e he => ih e (by simp [he])) h4 h3 hr
            exact ⟨d, by simp [hd], hres⟩
    obtain ⟨c, hc, es, nx, hcell, hq⟩ := key
    refine ⟨es, nx, ?_, hq⟩
    rw [cells_node]
    exact List.mem_cons_of_mem _ (List.mem_flatMap.mpr ⟨c, hc, hcell⟩)

theorem mem_rangesForest_hole {lo hi : Bound K} {lkeys rkeys : List K}
    {left right : List (SearchTree P K E)} {t : SearchTree P K E} {r : Bound K × Bound K × P}
    (hleft : AllLeft Q lo hi lkeys left) (hright : AllRight Q (loOf lo lkeys) hi rkeys right)
    (hr : r ∈ ranges (loOf lo lkeys) (hiOf hi rkeys) t) :
    r ∈ rangesForest lo hi (lkeys ++ rkeys) (left ++ t :: right) := by
  induction lkeys generalizing lo left with
  | nil =>
    match left, hleft with
    | [], _ =>
      match rkeys, right, hright with
      | [], [], _ => exact hr
      | k :: ks, right, _ => exact List.mem_append_left _ hr
  | cons k ks ih =>
    match left, hleft with
    | c :: cs, hleft => exact List.mem_append_right _ (ih hleft.2.2.2 hright hr)

theorem mem_ranges_plug {lo hi : Bound K} {ctx : List (Frame P K E)} {t : SearchTree P K E}
    {r : Bound K × Bound K × P} (h : AllOuter Q lo hi ctx)
    (hr : r ∈ ranges (holeRange lo hi ctx).1 (holeRange lo hi ctx).2 t) :
    r ∈ ranges lo hi (plug ctx t) := by
  induction ctx generalizing t with
  | nil => exact hr
  | cons fr ctx ih =>
    obtain ⟨hctx, hleft, hright⟩ := h
    refine ih hctx ?_
    simp only [Frame.fill, Frame.keys, ranges]
    exact mem_rangesForest_hole hleft hright hr

-- Leaf ranges do not overlap and come in order.
theorem All.ranges_pairwise {t : SearchTree P K E} {lo hi : Bound K} (h : All Q lo hi t)
    (hlt : lo < hi) :
    (ranges lo hi t).Pairwise (fun a b => a.2.1 ≤ b.1) ∧
      ∀ r ∈ ranges lo hi t, lo ≤ r.1 ∧ r.2.1 ≤ hi := by
  induction t using SearchTree.induct generalizing lo hi with
  | leaf p es nx => simp [ranges]
  | node p keys children ih =>
    simp only [All] at h
    simp only [ranges]
    induction children generalizing keys lo with
    | nil => cases keys <;> simp [rangesForest]
    | cons c cs ihc =>
      have hcs : ∀ d ∈ cs, ∀ {lo hi}, All Q lo hi d → lo < hi →
          (ranges lo hi d).Pairwise (fun a b => a.2.1 ≤ b.1) ∧
            ∀ r ∈ ranges lo hi d, lo ≤ r.1 ∧ r.2.1 ≤ hi := fun d hd => ih d (by simp [hd])
      cases keys with
      | nil =>
        cases cs with
        | nil => exact ih c (by simp) h hlt
        | cons d ds => simp [AllForest] at h
      | cons k ks =>
        obtain ⟨h1, h2, h3, h4⟩ := h
        obtain ⟨p1, b1⟩ := ih c (by simp) h1 h2
        obtain ⟨p2, b2⟩ := ihc ks hcs h4 h3
        simp only [rangesForest]
        refine ⟨List.pairwise_append.mpr ⟨p1, p2, ?_⟩, ?_⟩
        · intro a ha b hb
          exact (b1 a ha).2.trans (b2 b hb).1
        · intro r hr
          rcases List.mem_append.mp hr with hr | hr
          · exact ⟨(b1 r hr).1, (b1 r hr).2.trans h3.le⟩
          · exact ⟨h2.le.trans (b2 r hr).1, (b2 r hr).2⟩

-- Of two leaves of one tree, one lies before the other.
theorem All.ranges_disjoint {lo hi : Bound K} {ctx ctx' : List (Frame P K E)} {p p' nx nx' : P}
    {es es' : List E} (hlt : lo < hi) (h : All Q lo hi (plug ctx (leaf p es nx)))
    (heq : plug ctx (leaf p es nx) = plug ctx' (leaf p' es' nx')) (hne : p ≠ p') :
    (holeRange lo hi ctx).2 ≤ (holeRange lo hi ctx').1 ∨
      (holeRange lo hi ctx').2 ≤ (holeRange lo hi ctx).1 := by
  have h' := h
  rw [heq] at h'
  have m := mem_ranges_plug (t := leaf p es nx) ((all_plug _ _).mp h).1 (List.mem_singleton.mpr rfl)
  have m' := mem_ranges_plug (t := leaf p' es' nx') ((all_plug _ _).mp h').1
    (List.mem_singleton.mpr rfl)
  rw [← heq] at m'
  have hpw : (ranges lo hi (plug ctx (leaf p es nx))).Pairwise
      (fun a b => a.2.1 ≤ b.1 ∨ b.2.1 ≤ a.1) :=
    (h.ranges_pairwise hlt).1.imp Or.inl
  have : Std.Symm (fun a b : Bound K × Bound K × P => a.2.1 ≤ b.1 ∨ b.2.1 ≤ a.1) :=
    ⟨fun _ _ => Or.symm⟩
  exact hpw.forall m m' fun e => hne (congrArg (fun r => r.2.2) e)

end SearchTree

end JasonDb.Lib
