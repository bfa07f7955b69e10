import Mathlib.Logic.Relation
import Mathlib.Data.Set.Finite.Basic
import Mathlib.Data.Fintype.Card

namespace JasonDb.Lib

-- What a search does at a node: it stops with a result, it fails, or it goes through the
-- children in order.
inductive Expand (ν ρ ε : Type) where
  | stop (result : ρ)
  | fault (error : ε)
  | children (nodes : List ν)

variable {ν ρ ε : Type}

-- The first node that gives a result.
def firstFound (f : ν → Except ε (Option ρ)) : List ν → Except ε (Option ρ)
  | [] => .ok none
  | v :: rest => match f v with
    | .ok none => firstFound f rest
    | r => r

-- A depth-first search without a record of the nodes it has seen. The fuel bounds its depth.
def depthFirst (diverged : ε) (expand : ν → Expand ν ρ ε) : Nat → ν → Except ε (Option ρ)
  | 0, _ => .error diverged
  | fuel + 1, v => match expand v with
    | .stop result => .ok (some result)
    | .fault error => .error error
    | .children nodes => firstFound (depthFirst diverged expand fuel) nodes

section FirstFound

variable {f : ν → Except ε (Option ρ)}

theorem firstFound_append {front : List ν} (h : ∀ v ∈ front, f v = .ok none) (back : List ν) :
    firstFound f (front ++ back) = firstFound f back := by
  induction front with
  | nil => rfl
  | cons v rest ih =>
    rw [List.cons_append, firstFound, h v List.mem_cons_self]
    exact ih fun w hw => h w (List.mem_cons_of_mem v hw)

theorem firstFound_eq_none {nodes : List ν} :
    firstFound f nodes = .ok none ↔ ∀ v ∈ nodes, f v = .ok none := by
  constructor
  · intro h
    induction nodes with
    | nil => exact fun v hv => absurd hv List.not_mem_nil
    | cons v rest ih =>
      rw [firstFound] at h
      cases hv : f v with
      | error e => rw [hv] at h; cases h
      | ok r =>
        rw [hv] at h
        cases r with
        | some r => cases h
        | none =>
          intro w hw
          rcases List.mem_cons.mp hw with rfl | hw
          · exact hv
          · exact ih h w hw
  · intro h
    have hall := firstFound_append h []
    rwa [List.append_nil] at hall

theorem firstFound_error {nodes : List ν} {e : ε} (h : firstFound f nodes = .error e) :
    ∃ v, f v = .error e := by
  induction nodes with
  | nil => cases h
  | cons v rest ih =>
    rw [firstFound] at h
    cases hv : f v with
    | error e' =>
      rw [hv] at h
      exact ⟨v, by rw [hv, Except.error.inj h]⟩
    | ok r =>
      rw [hv] at h
      cases r with
      | some result => cases h
      | none => exact ih h

theorem firstFound_some {nodes : List ν} {result : ρ} (h : firstFound f nodes = .ok (some result)) :
    ∃ before v after, nodes = before ++ v :: after ∧ (∀ u ∈ before, f u = .ok none) ∧
      f v = .ok (some result) := by
  induction nodes with
  | nil => cases h
  | cons v rest ih =>
    rw [firstFound] at h
    cases hv : f v with
    | error e => rw [hv] at h; cases h
    | ok r =>
      rw [hv] at h
      cases r with
      | some result' =>
        cases h
        exact ⟨[], v, rest, rfl, fun u hu => absurd hu List.not_mem_nil, hv⟩
      | none =>
        obtain ⟨before, w, after, rfl, hbefore, hw⟩ := ih h
        exact ⟨v :: before, w, after, rfl, List.forall_mem_cons.mpr ⟨hv, hbefore⟩, hw⟩

-- More results can only help.
theorem firstFound_mono {g : ν → Except ε (Option ρ)} {nodes : List ν} {r : Option ρ}
    (hfg : ∀ v r, f v = .ok r → g v = .ok r) (h : firstFound f nodes = .ok r) :
    firstFound g nodes = .ok r := by
  induction nodes with
  | nil => exact h
  | cons v rest ih =>
    rw [firstFound] at h ⊢
    cases hv : f v with
    | error e => rw [hv] at h; cases h
    | ok r' =>
      rw [hv] at h
      rw [hfg v r' hv]
      cases r' with
      | some result => exact h
      | none => exact ih h

end FirstFound

variable {diverged : ε} {expand : ν → Expand ν ρ ε}

-- A search that ends with an error ran out of fuel or met a failure.
theorem depthFirst_error {fuel : Nat} {v : ν} {e : ε} (h : depthFirst diverged expand fuel v = .error e) :
    e = diverged ∨ ∃ w, expand w = .fault e := by
  induction fuel generalizing v with
  | zero => exact Or.inl (Except.error.inj h).symm
  | succ fuel ih =>
    rw [depthFirst] at h
    cases hv : expand v with
    | stop result => rw [hv] at h; cases h
    | fault error =>
      rw [hv] at h
      exact Or.inr ⟨v, by rw [hv, Except.error.inj h]⟩
    | children nodes =>
      rw [hv] at h
      obtain ⟨w, hw⟩ := firstFound_error h
      exact ih hw

-- The whole tree below a node is finite and holds neither a result nor a failure.
inductive Barren (expand : ν → Expand ν ρ ε) : ν → Prop
  | intro {v : ν} {nodes : List ν} (expands : expand v = .children nodes)
      (below : ∀ w ∈ nodes, Barren expand w) : Barren expand v

-- The search can come from `v` to its child `w`: nothing is found in the children before.
def Enters (expand : ν → Expand ν ρ ε) (v w : ν) : Prop :=
  ∃ before after, expand v = .children (before ++ w :: after) ∧ ∀ u ∈ before, Barren expand u

-- Nowhere on the way of the search is a failure or a way back.
def Traversable (expand : ν → Expand ν ρ ε) (v : ν) : Prop :=
  ∀ w, Relation.ReflTransGen (Enters expand) v w →
    (∀ error, expand w ≠ .fault error) ∧ ¬ Relation.TransGen (Enters expand) w w

theorem barren_of_depthFirst {fuel : Nat} {v : ν} (h : depthFirst diverged expand fuel v = .ok none) :
    Barren expand v := by
  induction fuel generalizing v with
  | zero => cases h
  | succ fuel ih =>
    rw [depthFirst] at h
    cases hv : expand v with
    | stop result => rw [hv] at h; cases h
    | fault error => rw [hv] at h; cases h
    | children nodes =>
      rw [hv] at h
      exact .intro hv fun w hw => ih (firstFound_eq_none.mp h w hw)

-- The result is the one of a node the search came to.
theorem depthFirst_some {fuel : Nat} {v : ν} {r : ρ} (h : depthFirst diverged expand fuel v = .ok (some r)) :
    ∃ w, Relation.ReflTransGen (Enters expand) v w ∧ expand w = .stop r := by
  induction fuel generalizing v with
  | zero => cases h
  | succ fuel ih =>
    rw [depthFirst] at h
    cases hv : expand v with
    | stop result =>
      rw [hv] at h
      cases h
      exact ⟨v, .refl, hv⟩
    | fault error => rw [hv] at h; cases h
    | children nodes =>
      rw [hv] at h
      obtain ⟨before, w, after, rfl, hbefore, hw⟩ := firstFound_some h
      obtain ⟨x, hx, hstop⟩ := ih hw
      exact ⟨x, hx.head ⟨before, after, hv, fun u hu => barren_of_depthFirst (hbefore u hu)⟩, hstop⟩

theorem Barren.depthFirst {v : ν} (h : Barren expand v) (diverged : ε) (fuel : Nat) :
    depthFirst diverged expand fuel v = .ok none ∨ depthFirst diverged expand fuel v = .error diverged := by
  induction fuel generalizing v with
  | zero => exact Or.inr rfl
  | succ fuel ih =>
    cases h with
    | @intro _ nodes expands below =>
      rw [Lib.depthFirst, expands]
      clear expands
      induction nodes with
      | nil => exact Or.inl rfl
      | cons w rest ihrest =>
        have hrest := ihrest fun u hu => below u (List.mem_cons_of_mem w hu)
        dsimp only at hrest ⊢
        rw [firstFound]
        rcases ih (below w List.mem_cons_self) with hw | hw
        · rw [hw]
          exact hrest
        · rw [hw]
          exact Or.inr rfl

-- A search that ends has searched the nodes it comes to with less fuel.
theorem depthFirst_enters {fuel : Nat} {v w : ν} {r : Option ρ}
    (h : depthFirst diverged expand (fuel + 1) v = .ok r) (hw : Enters expand v w) :
    ∃ r', depthFirst diverged expand fuel w = .ok r' := by
  obtain ⟨before, after, hv, hbefore⟩ := hw
  rw [depthFirst, hv] at h
  dsimp only at h
  clear hv
  induction before with
  | nil =>
    rw [List.nil_append, firstFound] at h
    cases hfw : depthFirst diverged expand fuel w with
    | error e => rw [hfw] at h; cases h
    | ok r' => exact ⟨r', rfl⟩
  | cons u rest ih =>
    rw [List.cons_append, firstFound] at h
    rcases (hbefore u List.mem_cons_self).depthFirst diverged fuel with hu | hu
    · rw [hu] at h
      exact ih h fun x hx => hbefore x (List.mem_cons_of_mem u hx)
    · rw [hu] at h
      cases h

theorem depthFirst_reaches {fuel : Nat} {v w : ν} {r : Option ρ}
    (h : depthFirst diverged expand fuel v = .ok r) (hw : Relation.TransGen (Enters expand) v w) :
    ∃ less < fuel, ∃ r', depthFirst diverged expand less w = .ok r' := by
  have hstep : ∀ {fuel : Nat} {v w : ν} {r : Option ρ}, depthFirst diverged expand fuel v = .ok r →
      Enters expand v w → ∃ less < fuel, ∃ r', depthFirst diverged expand less w = .ok r' := by
    intro fuel v w r h hw
    cases fuel with
    | zero => cases h
    | succ fuel => exact ⟨fuel, Nat.lt_succ_self fuel, depthFirst_enters h hw⟩
  induction hw with
  | single hw => exact hstep h hw
  | tail _ hlast ih =>
    obtain ⟨less, hless, r', h'⟩ := ih
    obtain ⟨less', hless', hlast'⟩ := hstep h' hlast
    exact ⟨less', lt_trans hless' hless, hlast'⟩

theorem traversable_of_depthFirst {fuel : Nat} {v : ν} {r : Option ρ}
    (h : depthFirst diverged expand fuel v = .ok r) : Traversable expand v := by
  intro w hw
  have hends : ∃ n, ∃ r', depthFirst diverged expand n w = .ok r' := by
    rcases Relation.reflTransGen_iff_eq_or_transGen.mp hw with rfl | hw
    · exact ⟨fuel, r, h⟩
    · obtain ⟨less, -, r', h'⟩ := depthFirst_reaches h hw
      exact ⟨less, r', h'⟩
  refine ⟨?_, ?_⟩
  · intro error herror
    obtain ⟨n, r', h'⟩ := hends
    cases n with
    | zero => cases h'
    | succ n =>
      rw [depthFirst, herror] at h'
      cases h'
  · -- Around a cycle the search would end with less fuel than it needs.
    intro hcycle
    classical
    obtain ⟨r', h'⟩ := Nat.find_spec hends
    obtain ⟨less, hless, hsmall⟩ := depthFirst_reaches h' hcycle
    exact Nat.find_min hends hless hsmall

-- A node without children is searched at once.
theorem traversable_of_childless {v : ν} (h : expand v = .children []) : Traversable expand v := by
  have hnot : ∀ w, ¬ Enters expand v w := by
    rintro w ⟨before, after, hexpand, -⟩
    rw [h] at hexpand
    exact List.ne_nil_of_mem (List.mem_append_right before List.mem_cons_self) (Expand.children.inj hexpand).symm
  intro w hw
  rcases hw.cases_head with rfl | ⟨u, hu, -⟩
  · refine ⟨fun error herror => ?_, fun hcycle => ?_⟩
    · rw [h] at herror
      cases herror
    · obtain ⟨u, hu, -⟩ := Relation.TransGen.head'_iff.mp hcycle
      exact hnot u hu
  · exact absurd hu (hnot u)

theorem depthFirst_mono {fuel fuel' : Nat} {v : ν} {r : Option ρ}
    (h : depthFirst diverged expand fuel v = .ok r) (hle : fuel ≤ fuel') :
    depthFirst diverged expand fuel' v = .ok r := by
  induction fuel generalizing v r fuel' with
  | zero => cases h
  | succ fuel ih =>
    obtain ⟨more, rfl⟩ := Nat.exists_eq_add_one.mpr (by omega : 0 < fuel')
    rw [depthFirst] at h ⊢
    cases hv : expand v with
    | stop result => rw [hv] at h; exact h
    | fault error => rw [hv] at h; exact h
    | children nodes =>
      rw [hv] at h
      exact firstFound_mono (fun w r' hw => ih hw (by omega)) h

-- The children of a node, if each one the search comes to is finished.
theorem exists_firstFound {v : ν} {nodes : List ν} (hv : expand v = .children nodes)
    (hends : ∀ w, Enters expand v w → ∃ fuel r, depthFirst diverged expand fuel w = .ok r) :
    ∃ fuel r, firstFound (depthFirst diverged expand fuel) nodes = .ok r := by
  -- `before` was searched in vain.
  suffices hrest : ∀ rest before, nodes = before ++ rest → (∀ u ∈ before, Barren expand u) →
      ∃ fuel r, firstFound (depthFirst diverged expand fuel) rest = .ok r from
    hrest nodes [] rfl fun u hu => absurd hu List.not_mem_nil
  intro rest
  induction rest with
  | nil => exact fun _ _ _ => ⟨0, none, rfl⟩
  | cons w rest ih =>
    intro before hnodes hbefore
    obtain ⟨fuel, r, hw⟩ := hends w ⟨before, rest, by rw [hv, hnodes], hbefore⟩
    cases r with
    | some result => exact ⟨fuel, some result, by rw [firstFound, hw]⟩
    | none =>
      have hbarren := barren_of_depthFirst hw
      obtain ⟨fuel', r', hrest⟩ := ih (before ++ [w]) (by rw [hnodes, List.append_assoc]; rfl) (by
        intro u hu
        rcases List.mem_append.mp hu with hu | hu
        · exact hbefore u hu
        · rw [List.mem_singleton.mp hu]
          exact hbarren)
      refine ⟨max fuel fuel', r', ?_⟩
      rw [firstFound, depthFirst_mono hw (le_max_left fuel fuel')]
      exact firstFound_mono (fun u r hu => depthFirst_mono hu (le_max_right fuel fuel')) hrest

-- What is done with the result belongs to the node that gives it.
def Expand.andThen {ρ' : Type} (g : ρ → Except ε ρ') : Expand ν ρ ε → Expand ν ρ' ε
  | .stop result => match g result with
    | .ok result' => .stop result'
    | .error error => .fault error
  | .fault error => .fault error
  | .children nodes => .children nodes

def onResult {ρ' : Type} (g : ρ → Except ε ρ') : Except ε (Option ρ) → Except ε (Option ρ')
  | .ok (some result) => (g result).map some
  | .ok none => .ok none
  | .error error => .error error

theorem firstFound_onResult {ρ' : Type} (g : ρ → Except ε ρ') (f : ν → Except ε (Option ρ)) (nodes : List ν) :
    firstFound (fun v => onResult g (f v)) nodes = onResult g (firstFound f nodes) := by
  induction nodes with
  | nil => rfl
  | cons v rest ih =>
    rw [firstFound, firstFound]
    cases f v with
    | error e => rfl
    | ok r =>
      cases r with
      | none => exact ih
      | some result =>
        dsimp only [onResult]
        cases g result with
        | error e => rfl
        | ok result' => rfl

theorem depthFirst_andThen {ρ' : Type} (g : ρ → Except ε ρ') (fuel : Nat) (v : ν) :
    depthFirst diverged (fun v => (expand v).andThen g) fuel v = onResult g (depthFirst diverged expand fuel v) := by
  induction fuel generalizing v with
  | zero => rfl
  | succ fuel ih =>
    rw [depthFirst, depthFirst]
    cases expand v with
    | stop result =>
      dsimp only [Expand.andThen, onResult]
      cases g result with
      | error e => rfl
      | ok result' => rfl
    | fault error => rfl
    | children nodes =>
      dsimp only [Expand.andThen]
      rw [← firstFound_onResult]
      congr 1
      funext w
      exact ih w

-- Among finitely many nodes the search ends if and only if it meets no failure and no cycle.
theorem depthFirst_ends_iff (diverged : ε) {v : ν}
    (hfin : {w | Relation.ReflTransGen (Enters expand) v w}.Finite) :
    (∃ fuel r, depthFirst diverged expand fuel v = .ok r) ↔ Traversable expand v := by
  constructor
  · rintro ⟨fuel, r, h⟩
    exact traversable_of_depthFirst h
  · intro h
    let reached := {w | Relation.ReflTransGen (Enters expand) v w}
    let below : reached → reached → Prop := fun a b => Relation.TransGen (Enters expand) b.1 a.1
    have hfinite : Finite reached := hfin
    have htrans : IsTrans reached below := ⟨fun a b c hab hbc => hbc.trans hab⟩
    have hirrefl : Std.Irrefl below := ⟨fun a ha => (h a.1 a.2).2 ha⟩
    have hwf : WellFounded below := Finite.wellFounded_of_trans_of_irrefl below
    have hall : ∀ a : reached, ∃ fuel r, depthFirst diverged expand fuel a.1 = .ok r := by
      intro a
      induction a using hwf.induction with
      | _ a ih =>
        cases ha : expand a.1 with
        | stop result => exact ⟨1, some result, by rw [depthFirst, ha]⟩
        | fault error => exact absurd ha ((h a.1 a.2).1 error)
        | children nodes =>
          obtain ⟨fuel, r, hfound⟩ := exists_firstFound ha fun w hw =>
            ih ⟨w, Relation.ReflTransGen.tail a.2 hw⟩ (.single hw)
          exact ⟨fuel + 1, r, by rw [depthFirst, ha]; exact hfound⟩
    exact hall ⟨v, .refl⟩

end JasonDb.Lib
